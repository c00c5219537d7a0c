import MipsAssembler.Isa.Word
import MipsAssembler.Text.Bytes
import Std.Data.HashMap

/-!
# Symbol tables

A table lists names with word-aligned addresses, in the order they were added. The symbol table of
a program holds each name once; its relocation table lists every reference, so names may repeat.

* `SymbolTable.add` is the one way to grow a table. It checks the address first, then the name.
* `SymbolTable.lookup?` gives the address of the first entry with a name, found through an index of
  first positions.
* `SymbolTable.render` writes one line per entry.
-/

namespace MipsAssembler

/-- A name and its address. -/
structure Entry where
  /-- The label. -/
  name : Bytes
  /-- Where it stands, or where it is referred to. -/
  address : Address
  deriving DecidableEq, Repr

/-- An entry as a line: the address in decimal, a tab and the name. -/
def Entry.render (e : Entry) : Bytes :=
  decimal e.address.toNat ++ Ascii.tab :: e.name ++ [Ascii.newline]

/-- A list of entries with an index of names. -/
structure SymbolTable where
  /-- Whether a name may stand only once. -/
  unique : Bool
  /-- The entries, in the order they were added. -/
  entries : Array Entry := #[]
  /-- The position of the first entry of each name. -/
  first : Std.HashMap Bytes Nat := ∅

namespace SymbolTable

/-- Why an entry is refused. -/
inductive Error where
  /-- The address is no multiple of four. -/
  | unaligned (name : Bytes) (address : Address)
  /-- The name is already in a table that holds each name once. -/
  | duplicate (name : Bytes)
  deriving DecidableEq, Repr

/-- The wording of a refusal. -/
def Error.message : Error → Bytes
  | .unaligned name address =>
    ascii "address is not word aligned: " ++ name ++ ascii " at " ++ hexAddress address.toNat
  | .duplicate name => ascii "name already exists: " ++ name

/-- A table without entries. -/
def empty (unique : Bool) : SymbolTable := { unique }

/-- An empty table that holds each name once. -/
def symbols : SymbolTable := empty true

/-- An empty table that lists every reference. -/
def relocations : SymbolTable := empty false

/-- Why an entry would be refused, if it would. -/
def refusal? (t : SymbolTable) (name : Bytes) (address : Address) : Option Error :=
  if address.toNat % 4 ≠ 0 then some (.unaligned name address)
  else if t.unique && t.first.contains name then some (.duplicate name)
  else none

/-- The table with one more entry at its end. -/
def push (t : SymbolTable) (name : Bytes) (address : Address) : SymbolTable :=
  let position := t.entries.size
  { t with
    entries := t.entries.push ⟨name, address⟩
    first := t.first.insertIfNew name position }

/-- Adds an entry, unless there is a reason to refuse it. -/
@[inline] def add (t : SymbolTable) (name : Bytes) (address : Address) :
    Except Error SymbolTable :=
  match t.refusal? name address with
  | some e => .error e
  | none => .ok (t.push name address)

/-- The address of the first entry with this name. -/
def lookup? (t : SymbolTable) (name : Bytes) : Option Address := do
  let position ← t.first[name]?
  let entry ← t.entries[position]?
  some entry.address

/-- The entries as lines. -/
def render (t : SymbolTable) : Bytes :=
  t.entries.toList.flatMap Entry.render

@[simp] theorem entries_push (t : SymbolTable) (name : Bytes) (address : Address) :
    (t.push name address).entries = t.entries.push ⟨name, address⟩ := rfl

@[simp] theorem unique_push (t : SymbolTable) (name : Bytes) (address : Address) :
    (t.push name address).unique = t.unique := rfl

/-- An entry is added exactly when nothing speaks against it, and then it comes last. -/
theorem add_eq_ok_iff {t t' : SymbolTable} {name : Bytes} {address : Address} :
    t.add name address = .ok t' ↔ t.refusal? name address = none ∧ t.push name address = t' := by
  unfold add
  cases t.refusal? name address <;> simp

end SymbolTable

end MipsAssembler
