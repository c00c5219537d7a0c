import MipsAssembler.Proofs.FileTree
import MipsAssembler.Proofs.JsonText

/-!
# Settings written and read back

Settings that are saved to a file and loaded from it are the same (`settings_file_round_trip`), if
the name of the byte order is text at all.

- `exists_spellsAll_renderString`: a string is written in one of its spellings.
- `lex?_render`, `parse?_render`: the tokens of a settings file, and the object it is.
- `assign?_valueJson`: every value reads back, also the least signed number.
- `ofJson?_members`: all settings are written, so nothing is left of the defaults.
-/

namespace MipsAssembler

/-- The token that a value begins with. -/
def Json.firstToken : Json → Json.Token
  | .null => .null
  | .bool value => if value then .true else .false
  | .number literal => .number literal
  | .string chars => .string chars
  | .array _ => .openArray
  | .object _ => .openObject

namespace Settings

/-! ## Strings -/

theorem hexValue?_digitChar : ∀ {d : Nat}, d < 16 → Json.hexValue? d.digitChar = some d := by
  decide

theorem encode_digitChar : ∀ {d : Nat}, d < 16 → Utf8.encode d.digitChar = [hexDigit d] := by
  decide

/-- A character can be written as its code, in four digits. -/
theorem exists_spells_hex {c : Char} (h : c.toNat < 0x10000) :
    ∃ spelling, Json.Spells c spelling ∧
      Utf8.encodeAll spelling = ascii "\\u" ++ hex 4 c.toNat := by
  have hdigit : ∀ n, n % 16 < 16 := fun n => Nat.mod_lt n (by decide)
  refine ⟨['\\', 'u', (c.toNat / 16 / 16 / 16 % 16).digitChar, (c.toNat / 16 / 16 % 16).digitChar,
    (c.toNat / 16 % 16).digitChar, (c.toNat % 16).digitChar], .unit ?_, ?_⟩
  · rw [Json.unit?]
    simp only [hexValue?_digitChar (hdigit _), Option.bind_eq_bind, Option.bind_some,
      Option.some.injEq]
    omega
  · simp only [Utf8.encodeAll_cons, encode_digitChar (hdigit _), hex]
    rfl

/-- A character is written in one of its spellings. -/
theorem exists_spells_renderGlyph (c : Char) :
    ∃ spelling, Json.Spells c spelling ∧ Utf8.encodeAll spelling = renderGlyph (.char c) := by
  rw [renderGlyph, stringEscape?]
  split
  · next escape hescape =>
    obtain ⟨hletter, hencode⟩ := Json.forall_of_lookup
      (p := fun c escape => Json.simpleEscape? (escape.toList.getLastD ' ') = some c ∧
        Utf8.encodeAll ['\\', escape.toList.getLastD ' '] = ascii escape)
      (by decide) hescape
    exact ⟨_, .letter hletter, hencode⟩
  · next hnone =>
    split
    · next hcode =>
      refine exists_spells_hex ?_
      have hmarkup : ∀ n ∈ [0x3c, 0x3e, 0x26, 0x2028, 0x2029], n < 0x10000 := by decide
      rcases hcode with hcontrol | hmem
      · omega
      · exact hmarkup _ hmem
    · next hcode =>
      have hother := List.lookup_eq_none_iff.mp hnone
      have hquote : c ≠ '"' := by simpa using hother ('"', "\\\"") (by simp)
      have hbackslash : c ≠ '\\' := by simpa using hother ('\\', "\\\\") (by simp)
      rw [not_or] at hcode
      exact ⟨[c], .plain hquote hbackslash (by omega), List.append_nil _⟩

/-- So is a text. -/
theorem exists_spellsAll_renderString (cs : List Char) :
    ∃ spelling, Json.SpellsAll cs spelling ∧
      renderString (Utf8.encodeAll cs) =
        Ascii.quote :: Utf8.encodeAll spelling ++ [Ascii.quote] := by
  have hspelling : ∃ spelling, Json.SpellsAll cs spelling ∧
      Utf8.encodeAll spelling = (cs.map Utf8.Glyph.char).flatMap renderGlyph := by
    induction cs with
    | nil => exact ⟨[], .nil, rfl⟩
    | cons c cs ih =>
      obtain ⟨first, hfirst, hc⟩ := exists_spells_renderGlyph c
      obtain ⟨rest, hrest, hcs⟩ := ih
      refine ⟨first ++ rest, .cons hfirst hrest, ?_⟩
      rw [Utf8.encodeAll_append, hc, hcs]
      rfl
  obtain ⟨spelling, hspells, hencode⟩ := hspelling
  exact ⟨spelling, hspells, by rw [renderString, Utf8.glyphs_encodeAll, hencode]⟩

/-! ## Members -/

/-- The value of a setting as JSON, if these characters name the byte order. -/
def valueJson (s : Settings) (order : List Char) : Setting → Json
  | .textBase => .number (decimal s.textBase.toNat)
  | .maxArgs => .number (decimalInt s.maxArgs.toInt)
  | .imageSize => .number (decimal s.imageSize.toNat)
  | .byteOrder => .string order

/-- A setting as a member of an object. -/
def memberJson (s : Settings) (order : List Char) (setting : Setting) : List Char × Json :=
  (setting.name.toList, s.valueJson order setting)

/-- The tokens of a member. -/
def memberTokens (s : Settings) (order : List Char) (setting : Setting) : List Json.Token :=
  [.string setting.name.toList, .colon, (s.valueJson order setting).firstToken]

/-- The tokens of a file. -/
def fileTokens (s : Settings) (order : List Char) : List Json.Token :=
  .openObject :: [.comma].intercalate (Setting.all.map (s.memberTokens order)) ++ [.closeObject]

/-- The name of a setting can stand between quotes as it is. -/
theorem delivers_name (setting : Setting) :
    Json.Delivers (Ascii.quote :: ascii setting.name ++ [Ascii.quote])
      [.string setting.name.toList] := by
  have hname : setting.name.toList.all fun c =>
      c ≠ '"' && c ≠ '\\' && 0x20 ≤ c.toNat && c.toNat < 0x80 := by
    cases setting <;> decide +kernel
  simp only [List.all_eq_true, Bool.and_eq_true, decide_eq_true_eq] at hname
  have hplain : ∀ c ∈ setting.name.toList, c ≠ '"' ∧ c ≠ '\\' ∧ 0x20 ≤ c.toNat := fun c hc =>
    ⟨(hname c hc).1.1.1, (hname c hc).1.1.2, (hname c hc).1.2⟩
  have hascii : Utf8.encodeAll setting.name.toList = ascii setting.name :=
    Utf8.encodeAll_eq_map fun c hc => (hname c hc).2
  rw [← hascii]
  exact Json.delivers_string (Json.spellsAll_self hplain)

section File

variable {s : Settings} {order : List Char} (horder : s.byteOrder = Utf8.encodeAll order)

include horder

theorem reads_renderValue (setting : Setting) :
    Json.Reads (s.renderValue setting) [(s.valueJson order setting).firstToken] := by
  cases setting with
  | textBase => exact Json.reads_decimal _
  | maxArgs => exact Json.reads_decimalInt _
  | imageSize => exact Json.reads_decimal _
  | byteOrder =>
    obtain ⟨spelling, hspells, htext⟩ := exists_spellsAll_renderString order
    rw [renderValue, horder, htext]
    exact (Json.delivers_string hspells).reads

theorem reads_renderMember (setting : Setting) :
    Json.Reads (s.renderMember setting) (s.memberTokens order setting) := by
  have hindent : Json.Delivers (ascii "  ") [] := fun _ => rfl
  have hcolon : Json.Delivers (ascii ": ") [.colon] := fun _ => rfl
  have htext : s.renderMember setting = ascii "  " ++ (Ascii.quote :: ascii setting.name ++
      [Ascii.quote]) ++ ascii ": " ++ s.renderValue setting := by
    have hopen : ascii "  \"" = ascii "  " ++ [Ascii.quote] := by decide
    have hclose : ascii "\": " = Ascii.quote :: ascii ": " := by decide
    simp [renderMember, hopen, hclose]
  rw [htext]
  exact ((hindent.append (delivers_name setting)).append hcolon).append_reads
    (reads_renderValue horder setting)

/-- **A settings file is cut into the tokens of its members.** -/
theorem lex?_render : Json.lex? s.render = some (s.fileTokens order) := by
  have hopen : Json.Delivers (ascii "\x7b\n") [.openObject] := fun _ => rfl
  have hcomma : Json.Delivers (ascii ",\n") [.comma] := fun _ => rfl
  have hclose : Json.Delivers (ascii "\n\x7d") [.closeObject] := fun _ => rfl
  have hmembers : Json.Reads ((ascii ",\n").intercalate (Setting.all.map s.renderMember))
      ([.comma].intercalate (Setting.all.map (s.memberTokens order))) :=
    Json.reads_intercalate (by decide) hcomma (by decide) fun setting _ =>
      reads_renderMember horder setting
  exact (((hopen.append_reads hmembers).append_delivers (by decide) hclose).reads).lex?

theorem parse?_render :
    Json.parse? s.render = some (.object (Setting.all.map (s.memberJson order))) := by
  rw [Json.parse?, lex?_render horder]
  rfl

end File

/-! ## Values -/

/-- Settings with one of them taken from others. -/
def take (d s : Settings) : Setting → Settings
  | .textBase => { d with textBase := s.textBase }
  | .maxArgs => { d with maxArgs := s.maxArgs }
  | .imageSize => { d with imageSize := s.imageSize }
  | .byteOrder => { d with byteOrder := s.byteOrder }

theorem unsigned?_decimal {limit n : Nat} (h : n ≤ limit) :
    unsigned? limit (.number (decimal n)) = some n := by
  rw [unsigned?, Numeral.parse_decimal h]
  rfl

/-- A signed number reads back, also the least one, which has no opposite. -/
theorem signed?_decimalInt (n : Int64) : signed? (.number (decimalInt n.toInt)) = some n := by
  have hleast := n.le_toInt
  have hgreatest := n.toInt_lt
  rw [decimalInt]
  split
  · next hneg =>
    have hopposite : -(n.toInt.natAbs : Int) = n.toInt := by omega
    have hparse : Numeral.parse 10 0x8000000000000000 (decimal n.toInt.natAbs) =
        .ok n.toInt.natAbs := Numeral.parse_decimal (by omega)
    rw [Ascii.minus, signed?, hparse]
    show some (Int64.ofInt (-(n.toInt.natAbs : Int))) = some n
    rw [hopposite, Int64.ofInt_toInt]
  · next hpos =>
    have hsame : (n.toInt.natAbs : Int) = n.toInt := by omega
    have hparse : Numeral.parse 10 0x7fffffffffffffff (decimal n.toInt.natAbs) =
        .ok n.toInt.natAbs := Numeral.parse_decimal (by omega)
    rw [signed?, hparse]
    · show some (Int64.ofInt n.toInt.natAbs) = some n
      rw [hsame, Int64.ofInt_toInt]
    · exact Json.decimal_ne_minus _

section Values

variable {s : Settings} {order : List Char} (horder : s.byteOrder = Utf8.encodeAll order)

include horder

theorem assign?_valueJson (d : Settings) (setting : Setting) :
    d.assign? setting (s.valueJson order setting) = some (d.take s setting) := by
  cases setting with
  | textBase =>
    have hlimit : s.textBase.toNat ≤ 0xffffffff := Nat.le_of_lt_succ s.textBase.isLt
    rw [assign?, valueJson, unsigned?_decimal hlimit]
    simp [take]
  | maxArgs =>
    rw [assign?, valueJson, signed?_decimalInt]
    rfl
  | imageSize =>
    have hlimit : s.imageSize.toNat ≤ 0xffffffffffffffff := Nat.le_of_lt_succ s.imageSize.toNat_lt
    rw [assign?, valueJson, unsigned?_decimal hlimit]
    simp [take]
  | byteOrder =>
    rw [assign?, valueJson, string?, ← horder]
    rfl

theorem member?_memberJson (d : Settings) (setting : Setting) :
    d.member? (s.memberJson order setting) = some (d.take s setting) := by
  have hname : Setting.ofName? setting.name.toList = some setting := by
    cases setting <;> decide +kernel
  rw [← assign?_valueJson horder d setting, member?, memberJson]
  simp only [hname]
  cases setting <;> rfl

/-- All members together leave nothing of what was there before. -/
theorem ofJson?_members (d : Settings) :
    ofJson? d (.object (Setting.all.map (s.memberJson order))) = some s := by
  simp only [ofJson?, Setting.all, List.map_cons, List.map_nil, List.foldlM_cons, List.foldlM_nil,
    member?_memberJson horder, Option.bind_eq_bind, Option.bind_some]
  rfl

end Values

end Settings

/-- **Saved settings are loaded unchanged**: from the text itself, whatever settings were there
before, and from a file that was saved in any place where one can be written. -/
theorem settings_file_round_trip {s : Settings} (h : Utf8.IsValid s.byteOrder) :
    (∀ defaults : Settings, Json.parse? s.render >>= Settings.ofJson? defaults = some s) ∧
    ∀ (t : FileTree) (path : Bytes) (place : Place), t.target path = .ok place →
      ∃ saved, (saveSettings FileTree.files path s).run t = (.ok (), saved) ∧
        (loadSettings FileTree.files path).run saved = (.ok s, saved) := by
  obtain ⟨order, horder⟩ := h
  -- every setting is written, so the defaults do not matter
  have hread : ∀ defaults : Settings,
      Json.parse? s.render >>= Settings.ofJson? defaults = some s := by
    intro defaults
    rw [Settings.parse?_render horder.symm]
    exact Settings.ofJson?_members horder.symm defaults
  refine ⟨hread, fun t path place hplace => ⟨t.put place s.render, ?_, ?_⟩⟩
  · show (FileTree.files.write path s.render >>= fun written =>
      (return written.mapError _ : StateM FileTree (Except Bytes Unit))).run t = _
    rw [StateT.run_bind, FileTree.run_write hplace]
    rfl
  · have hparse : Settings.parse? s.render = some s := hread {}
    have hfound : settingsOf ((t.put place s.render).read path) = .ok s := by
      rw [FileTree.read_put hplace, settingsOf, hparse]
    show (settingsOf ((t.put place s.render).read path), t.put place s.render) = _
    rw [hfound]

/-- Settings at the ends of their ranges, with a name that needs every kind of escape. -/
def extremeSettings : Settings where
  textBase := 0xffffffff
  maxArgs := Int64.minValue
  imageSize := 0
  byteOrder := Utf8.encodeAll
    ['"', '\\', Char.ofNat 0, '\n', '<', '>', '&', Char.ofNat 0x2028, Char.ofNat 0x1f600]

theorem settings_file_round_trip_extreme :
    Utf8.IsValid extremeSettings.byteOrder ∧
    (∀ defaults : Settings,
      Json.parse? extremeSettings.render >>= Settings.ofJson? defaults = some extremeSettings) ∧
    ∃ saved : FileTree,
      (saveSettings FileTree.files (ascii "etc//asm.json") extremeSettings).run
        { entries := [([ascii "etc", ascii "asm.json"], ascii "\x7b\x7d")] } = (.ok (), saved) ∧
      (loadSettings FileTree.files (ascii "etc//asm.json")).run saved =
        (.ok extremeSettings, saved) := by
  have hvalid : Utf8.IsValid extremeSettings.byteOrder := ⟨_, rfl⟩
  obtain ⟨hread, hsaved⟩ := settings_file_round_trip hvalid
  exact ⟨hvalid, hread, hsaved _ _ [ascii "etc", ascii "asm.json"] (by decide +kernel)⟩

end MipsAssembler
