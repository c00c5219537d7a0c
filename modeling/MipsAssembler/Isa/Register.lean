import MipsAssembler.Text.Bytes

/-!
# Registers

The 32 general-purpose registers, their names in source text and in listings.

* `Register.name` is the conventional name, such as `$t0`.
* `Register.ofName?` reads a register: by its conventional name, by its number as in `$8`, and
  `$fp` also as `$s8`.
-/

namespace MipsAssembler

/-- A register, by its number. -/
abbrev Register := BitVec 5

namespace Register

/-- The register that always reads zero. -/
def zero : Register := 0

/-- The conventional names, in register order. -/
def names : Vector String 32 :=
  #v["$zero", "$at", "$v0", "$v1", "$a0", "$a1", "$a2", "$a3",
    "$t0", "$t1", "$t2", "$t3", "$t4", "$t5", "$t6", "$t7",
    "$s0", "$s1", "$s2", "$s3", "$s4", "$s5", "$s6", "$s7",
    "$t8", "$t9", "$k0", "$k1", "$gp", "$sp", "$fp", "$ra"]

/-- The conventional name of a register. -/
def name (r : Register) : Bytes :=
  ascii (names.get r.toFin)

/-- All registers, in order. -/
def all : List Register :=
  (List.finRange 32).map BitVec.ofFin

/-- Every way a register is written in source text. -/
def spellings (r : Register) : List Bytes :=
  [r.name, ascii "$" ++ decimal r.toNat] ++ if r = 30 then [ascii "$s8"] else []

/-- Every spelling with the register it means. -/
def spellingTable : List (Bytes × Register) :=
  all.flatMap fun r => r.spellings.map (·, r)

/-- The register a token means. -/
def ofName? (token : Bytes) : Option Register :=
  spellingTable.lookup token

/-- The register with this number. -/
def ofNumber? (n : Nat) : Option Register :=
  if n < 32 then some (BitVec.ofNat 5 n) else none

/-- The name of a register that may be missing. -/
def nameOf : Option Register → Bytes
  | some r => r.name
  | none => ascii "$?"

end Register

end MipsAssembler
