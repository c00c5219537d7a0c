import MipsAssembler.Assembly
import MipsAssembler.CommandLine.Files
import MipsAssembler.CommandLine.Options
import MipsAssembler.CommandLine.Run
import MipsAssembler.Encoding
import MipsAssembler.Event
import MipsAssembler.Expansion
import MipsAssembler.Grid
import MipsAssembler.Image
import MipsAssembler.Isa.Instruction
import MipsAssembler.Isa.Operation
import MipsAssembler.Isa.Register
import MipsAssembler.Isa.Word
import MipsAssembler.Json.Token
import MipsAssembler.Json.Value
import MipsAssembler.Label
import MipsAssembler.Listing
import MipsAssembler.Literal
import MipsAssembler.Log
import MipsAssembler.Main
import MipsAssembler.ObjectFile
import MipsAssembler.Program
import MipsAssembler.Pseudo
import MipsAssembler.Rejection
import MipsAssembler.Resolution
import MipsAssembler.Settings
import MipsAssembler.Settings.File
import MipsAssembler.Sink
import MipsAssembler.Statement
import MipsAssembler.SymbolTable
import MipsAssembler.Text.Blank
import MipsAssembler.Text.Bytes
import MipsAssembler.Text.Line
import MipsAssembler.Text.Numeral
import MipsAssembler.Text.Printable
import MipsAssembler.Text.Quoted
import MipsAssembler.Text.Terminal
import MipsAssembler.Text.Utf8
import MipsAssembler.Proofs.Lines
import MipsAssembler.Proofs.Tokens
import MipsAssembler.Proofs.FirstPass
import MipsAssembler.Proofs.SecondPass
import MipsAssembler.Proofs.Transparency
import MipsAssembler.Proofs.BranchTargets
import MipsAssembler.Proofs.Accounting
import MipsAssembler.Proofs.ObjectFile
import MipsAssembler.Proofs.AssembledObject
import MipsAssembler.Proofs.ObjectCodec
import MipsAssembler.Proofs.Expansions
import MipsAssembler.Proofs.Jumps
import MipsAssembler.Proofs.Placement
import MipsAssembler.Proofs.SymbolAddresses
import MipsAssembler.Proofs.Literals
import MipsAssembler.Proofs.Operands
import MipsAssembler.Proofs.LineLengths
import MipsAssembler.Proofs.AcceptedLanguage
import MipsAssembler.Proofs.Decoding
import MipsAssembler.Proofs.ImageStore
import MipsAssembler.Proofs.ImageAgreement
import MipsAssembler.Proofs.PositionIndependence
import MipsAssembler.Proofs.Appending
import MipsAssembler.Proofs.Disassembly
import MipsAssembler.Proofs.PseudoEffects
import MipsAssembler.Proofs.DisassemblyListing
import MipsAssembler.Proofs.SettingsCheck
import MipsAssembler.Proofs.LiteralGrammar
import MipsAssembler.Proofs.TableHistories
import MipsAssembler.Proofs.WordStore
import MipsAssembler.Proofs.FailedLines
import MipsAssembler.Proofs.LineLayout
import MipsAssembler.Proofs.Loading
import MipsAssembler.Proofs.LoadedPrograms
import MipsAssembler.Proofs.SectionOrder
import MipsAssembler.Proofs.Utf8
import MipsAssembler.Proofs.JsonText
import MipsAssembler.Proofs.SettingsFile
import MipsAssembler.Proofs.FileTree
import MipsAssembler.Proofs.CanonicalText
