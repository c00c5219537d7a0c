import MipsAssembler.Event

/-!
# Log lines

Each event of a run can be shown as a line of `key=value` pairs. Rejected lines are warnings, the
rest is for debugging. A value is quoted when it is empty or holds anything that would make the line
hard to take apart.
-/

namespace MipsAssembler

/-- How much an event matters. -/
inductive LogLevel where
  | debug | warn
  deriving DecidableEq, Repr

/-- The name of a level. -/
def LogLevel.name : LogLevel → Bytes
  | .debug => ascii "DEBUG"
  | .warn => ascii "WARN"

/-- A glyph that cannot stand in a value without quotes. -/
def forcesQuotes : Utf8.Glyph → Bool
  | .stray _ => true
  | .char c =>
    if c.toNat < 0x80 then c.toNat < 0x20 || c == ' ' || c == '=' || c == '"'
    else c == Utf8.replacement || !isPrintable c

/-- A value of a log line. -/
def logValue (text : Bytes) : Bytes :=
  let glyphs := Utf8.glyphs text
  if glyphs.isEmpty || glyphs.any forcesQuotes then quoted text else text

namespace Event

/-- How much an event matters. -/
def level : Event → LogLevel
  | .rejected _ => .warn
  | .labelled .. | .emitted _ => .debug

/-- What happened, in a word or two. -/
def title : Event → Bytes
  | .rejected _ => ascii "rejected line"
  | .labelled .. => ascii "label"
  | .emitted _ => ascii "emit"

/-- The details of an event, by name. -/
def attributes : Event → List (Bytes × Bytes)
  | .rejected fault =>
    [(ascii "pass", decimal fault.pass.number), (ascii "line", decimalInt fault.line),
      (ascii "error", fault.cause.message)]
  | .labelled name address => [(ascii "name", name), (ascii "addr", decimal address.toNat)]
  | .emitted word =>
    [(ascii "addr", decimal word.address.toNat), (ascii "word", hex 8 word.value.toNat),
      (ascii "inst", word.source)]

/-- An event as a log line. -/
def render (e : Event) : Bytes :=
  let pairs := (ascii "level", e.level.name) :: (ascii "msg", e.title) :: e.attributes
  spaced (pairs.map fun (key, value) => key ++ Ascii.equals :: logValue value) ++ [Ascii.newline]

end Event

/-- The log of a run: warnings, and with `verbose` everything. -/
def renderLog (verbose : Bool) (events : List Event) : Bytes :=
  (events.filter fun e => verbose || e.level == .warn).flatMap Event.render

end MipsAssembler
