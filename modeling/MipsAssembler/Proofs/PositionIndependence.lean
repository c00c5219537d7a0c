import Mathlib.Data.List.Forall2
import MipsAssembler.Proofs.Accounting
import MipsAssembler.Proofs.ImageStore
import MipsAssembler.Proofs.Operands
import MipsAssembler.Proofs.Placement

/-!
# Position independence

Assembling a program elsewhere moves its addresses and changes nothing else. Every use of an address
is the difference of two, and these stay the same as long as the program ends below the top of the
address space.

- `labelsOf`: the labels of a text with the numbers of the instructions they stand for, which no
  text base enters.
- `RawInstruction.mapError_kind_resolve`: an instruction resolves to the same word, or is refused
  for the same sort of mistake.
- `Image.Alike`: images that hold the same at the same distance from their bases. Storing words
  keeps it (`Image.Alike.store`, `Image.Alike.storeAll`), and such images have the same bytes.
- `position_independent`: the two assemblies, compared.
-/

namespace MipsAssembler

/-! ## What does not depend on a base -/

/-- A word, with the distance of its address from a base. -/
def PlacedWord.relativeTo (base : Address) (w : PlacedWord) : Int × Word × Bytes × Int :=
  ((w.address.toNat : Int) - base.toNat, w.value, w.source, w.line)

/-- A name, with the distance of its address from a base. -/
def Entry.relativeTo (base : Address) (e : Entry) : Bytes × Int :=
  (e.name, (e.address.toNat : Int) - base.toNat)

/-- A fault without its wording. -/
def LineFault.gist (f : LineFault) : Pass × Int × Bytes × Rejection.Kind :=
  (f.pass, f.line, f.text, f.cause.kind)

/-- Two assemblies are the same, except that one starts at `base` and the other at `base'`. -/
structure Assembly.Moved (base base' : Address) (a b : Assembly) : Prop where
  intermediate_eq : b.intermediate = a.intermediate
  words_eq : b.words.map (·.relativeTo base') = a.words.map (·.relativeTo base)
  symbols_eq : b.symbols.entries.toList.map (·.relativeTo base') =
    a.symbols.entries.toList.map (·.relativeTo base)
  relocations_eq : b.relocations.entries.toList.map (·.relativeTo base') =
    a.relocations.entries.toList.map (·.relativeTo base)
  bytes_eq : b.image.bytes = a.image.bytes
  faults_eq : (b.expansion.faults ++ b.encoding.faults).map LineFault.gist =
    (a.expansion.faults ++ a.encoding.faults).map LineFault.gist
  faultless_iff : b.faults = [] ↔ a.faults = []

/-! ## Labels -/

/-- The label that a line defines, if it is new, with the number of the next instruction. -/
def labelAt (maxArgs : Int64) (before : List Bytes) (line : Bytes) : List (Bytes × Nat) :=
  match definedLabel? line with
  | none => []
  | some label =>
    if (before.filterMap definedLabel?).contains label then []
    else [(label, (instructionsOf maxArgs before).length)]

/-- The labels of a text with the numbers of the instructions they stand for. -/
def labelsOf (maxArgs : Int64) (lines : List Bytes) : List (Bytes × Nat) :=
  contributions (labelAt maxArgs) [] lines

theorem definitionsOf_eq_map (settings : Settings) (lines : List Bytes) :
    definitionsOf settings lines =
      (labelsOf settings.maxArgs lines).map fun l => ⟨l.1, settings.addressOf l.2⟩ := by
  induction lines using List.reverseRecOn with
  | nil => rfl
  | append_singleton lines line ih =>
    rw [definitionsOf, labelsOf, contributions_concat, contributions_concat, List.map_append]
    rw [definitionsOf, labelsOf] at ih
    rw [ih, definitionAt, labelAt]
    cases definedLabel? line with
    | none => rfl
    | some label =>
      dsimp only
      split <;> rfl

/-- No label stands for an instruction behind the end. -/
theorem le_length_of_mem_labelsOf {maxArgs : Int64} {lines : List Bytes} {l : Bytes × Nat}
    (h : l ∈ labelsOf maxArgs lines) : l.2 ≤ (instructionsOf maxArgs lines).length := by
  obtain ⟨j, line, -, h⟩ := mem_contributions.mp h
  obtain ⟨later, hsplit, -⟩ := instructionsOf_take maxArgs lines j
  have hle : (instructionsOf maxArgs (lines.take j)).length ≤
      (instructionsOf maxArgs lines).length := by
    rw [hsplit, List.length_append]
    omega
  rw [List.nil_append, labelAt] at h
  split at h
  · cases h
  · split at h
    · cases h
    · rw [List.mem_singleton.mp h]
      exact hle

/-! ## Instructions -/

/-- A displacement depends on the distance only. -/
theorem mapError_kind_displacement {source target source' target' : Address}
    (h : (target'.toNat : Int) - source'.toNat = target.toNat - source.toNat) :
    (displacement source' target').mapError Rejection.kind =
      (displacement source target).mapError Rejection.kind := by
  have hdistance : (target'.toNat : Int) - (source'.toNat + 4) =
      target.toNat - (source.toNat + 4) := by omega
  rw [displacement, displacement, hdistance]
  split
  · rfl
  · split <;> rfl

theorem mapError_map {ε ε' α β : Type} (f : α → β) (g : ε → ε') (x : Except ε α) :
    (x.map f).mapError g = (x.mapError g).map f := by
  cases x <;> rfl

/-- Results that are the same up to their errors are both values, or both errors. -/
theorem cases_of_mapError_eq {ε ε' α : Type} {g : ε → ε'} {x y : Except ε α}
    (h : y.mapError g = x.mapError g) :
    (∃ value, x = .ok value ∧ y = .ok value) ∨
      ∃ e e', x = .error e ∧ y = .error e' ∧ g e' = g e := by
  cases x with
  | ok value => exact .inl ⟨value, rfl, mapError_eq_ok_iff.mp h⟩
  | error e =>
    cases y with
    | ok value => cases h
    | error e' => exact .inr ⟨e, e', rfl, rfl, Except.error.inj h⟩

/-- Where the displacements to every label agree, an instruction resolves to the same, or is refused
for the same sort of mistake. -/
theorem RawInstruction.mapError_kind_resolve {site site' : Site}
    (h : ∀ label, (site'.branchOperand label).mapError Rejection.kind =
      (site.branchOperand label).mapError Rejection.kind) (i : RawInstruction) :
    (i.resolve site').mapError Rejection.kind = (i.resolve site).mapError Rejection.kind := by
  rcases i.resolve_cases with ⟨result, hsame⟩ | ⟨label, build, -, hbuild⟩
  · rw [hsame, hsame]
  · rw [hbuild, hbuild, mapError_map, mapError_map, h label]

/-! ## Images -/

namespace Image

/-- Two images with aligned bases hold the same at the same distance from these. -/
structure Alike (base base' : Address) (im im' : Image) : Prop where
  aligned : base.toNat % 4 = 0
  aligned' : base'.toNat % 4 = 0
  base_eq : im.base = base
  base_eq' : im'.base = base'
  capacity_eq : im'.capacity = im.capacity
  order_eq : im'.order = im.order
  length_eq : im'.length = im.length
  held_eq : ∀ d, im'.held (base' + d) = im.held (base + d)

namespace Alike

variable {base base' : Address} {im im' : Image}

theorem symm (h : im.Alike base base' im') : im'.Alike base' base im :=
  ⟨h.aligned', h.aligned, h.base_eq', h.base_eq, h.capacity_eq.symm, h.order_eq.symm,
    h.length_eq.symm, fun d => (h.held_eq d).symm⟩

/-- Images that are alike have the same bytes. -/
theorem bytes_eq (h : im.Alike base base' im') : im'.bytes = im.bytes := by
  have hbyte : ∀ k, im'.byteAt k = im.byteAt k := by
    intro k
    rw [byteAt_eq (h.base_eq' ▸ h.aligned'), byteAt_eq (h.base_eq ▸ h.aligned), h.order_eq, place,
      place, h.base_eq, h.base_eq', h.held_eq]
  rw [bytes, bytes, h.length_eq, funext hbyte]

/-- A word has a place in one of the images exactly if it has the same in the other. -/
theorem offset_iff (h : im.Alike base base' im') {address address' : Address}
    (hd : (address'.toNat : Int) - base'.toNat = address.toNat - base.toNat) {k : Nat} :
    im'.offset address' = .ok k ↔ im.offset address = .ok k := by
  have hbase := h.aligned
  have hbase' := h.aligned'
  rw [offset_eq_ok_iff, offset_eq_ok_iff, h.capacity_eq, h.base_eq, h.base_eq']
  omega

/-- What one image takes the other takes too, and they stay alike. -/
theorem store (h : im.Alike base base' im') {address address' : Address}
    (hd : (address'.toNat : Int) - base'.toNat = address.toNat - base.toNat) {w : Word}
    {next : Image} (hstore : im.store address w = .ok next) :
    ∃ next', im'.store address' w = .ok next' ∧ next.Alike base base' next' := by
  obtain ⟨k, hk, -⟩ := store_eq_ok_iff.mp hstore
  have hk' := (h.offset_iff hd).mpr hk
  obtain ⟨next', hstore'⟩ := exists_store hk' w
  obtain ⟨hb, hc, ho⟩ := frame_of_store hstore
  obtain ⟨hb', hc', ho'⟩ := frame_of_store hstore'
  refine ⟨next', hstore',
    ⟨h.aligned, h.aligned', hb.trans h.base_eq, hb'.trans h.base_eq', ?_, ?_, ?_, ?_⟩⟩
  · rw [hc, hc', h.capacity_eq]
  · rw [ho, ho', h.order_eq]
  · -- both words end at the same distance
    have hlow := (offset_eq_ok_iff.mp hk).2.2.2
    have hlow' := (offset_eq_ok_iff.mp hk').2.2.2
    rw [length_of_store hstore, length_of_store hstore', h.length_eq, ← hlow, ← hlow']
  · intro d
    have hsame : base' + d = address' ↔ base + d = address := by
      constructor <;> bv_omega
    rw [held_of_store hstore', held_of_store hstore, h.held_eq]
    simp only [hsame]

/-- Storing words that lie at the same distances keeps images alike; either all words are stored in
both, or in neither. -/
theorem storeAll (h : im.Alike base base' im') {words words' : List PlacedWord}
    (hwords : List.Forall₂ (fun w w' => w'.relativeTo base' = w.relativeTo base) words words') :
    (im.storeAll words).1.Alike base base' (im'.storeAll words').1 ∧
      ((im'.storeAll words').2 = none ↔ (im.storeAll words).2 = none) := by
  induction hwords generalizing im im' with
  | nil => exact ⟨h, Iff.rfl⟩
  | @cons w w' words words' hw _ ih =>
    obtain ⟨hd, hvalue, -⟩ := Prod.mk.inj hw |>.imp_right Prod.mk.inj
    rw [Image.storeAll, Image.storeAll, hvalue]
    cases hstore : im.store w.address w.value with
    | ok next =>
      obtain ⟨next', hstore', hnext⟩ := h.store hd hstore
      rw [hstore']
      exact ih hnext
    | error e =>
      cases hstore' : im'.store w'.address w.value with
      | ok next' =>
        -- the other image would take the word too
        obtain ⟨next, hnext, -⟩ := h.symm.store hd.symm hstore'
        rw [hstore] at hnext
        cases hnext
      | error e' => exact ⟨h, by simp⟩

end Alike

end Image

/-! ## Two assemblies -/

/-- The settings, with another text base. -/
def Settings.movedTo (settings : Settings) (base : Address) : Settings :=
  { settings with textBase := base }

@[simp] theorem Settings.textBase_movedTo (settings : Settings) (base : Address) :
    (settings.movedTo base).textBase = base := rfl

@[simp] theorem Settings.maxArgs_movedTo (settings : Settings) (base : Address) :
    (settings.movedTo base).maxArgs = settings.maxArgs := rfl

/-- A label is looked up at the address of the instruction it stands for. -/
theorem Assembly.IsOf.lookup?_eq_labelsOf {settings : Settings} {source : Source} {a : Assembly}
    (h : a.IsOf settings source) (name : Bytes) :
    a.symbols.lookup? name =
      ((labelsOf settings.maxArgs source.scan.lines).find? (·.1 == name)).map
        fun l => settings.addressOf l.2 := by
  rw [h.lookup?_eq, definitionsOf_eq_map, List.find?_map, Option.map_map]
  rfl

theorem map_filterMap_congr {α β γ : Type} {xs : List α} {f g : α → Option β} {u v : β → γ}
    (h : ∀ x ∈ xs, (f x).map u = (g x).map v) :
    (xs.filterMap f).map u = (xs.filterMap g).map v := by
  rw [List.map_filterMap, List.map_filterMap]
  exact List.filterMap_congr h

/-- Two assemblies of one source at two places, both of which end below the top of the address
space. -/
structure Assembly.Twins (settings : Settings) (base : Address) (source : Source)
    (a b : Assembly) : Prop where
  isOf : a.IsOf settings source
  isOf' : b.IsOf (settings.movedTo base) source
  room : settings.textBase.toNat + 4 * (program settings source).length < 0x100000000
  room' : base.toNat + 4 * (program settings source).length < 0x100000000

namespace Assembly.Twins

variable {settings : Settings} {base : Address} {source : Source} {a b : Assembly}

/-- The instruction with a number is at the same distance from both bases. -/
theorem distance (h : Twins settings base source a b) {n : Nat}
    (hn : n ≤ (program settings source).length) :
    (((settings.movedTo base).addressOf n).toNat : Int) - base.toNat =
      (settings.addressOf n).toNat - settings.textBase.toNat := by
  have hroom := h.room
  have hroom' := h.room'
  rw [Settings.toNat_addressOf_of_lt (by rw [settings.textBase_movedTo]; omega),
    Settings.toNat_addressOf_of_lt (by omega), settings.textBase_movedTo]
  omega

/-- The displacements to a label agree. -/
theorem branchOperand (h : Twins settings base source a b) {n : Nat}
    (hn : n ≤ (program settings source).length) (label : Bytes) :
    (Site.branchOperand ⟨(settings.movedTo base).addressOf n, some b.symbols⟩ label).mapError
        Rejection.kind =
      (Site.branchOperand ⟨settings.addressOf n, some a.symbols⟩ label).mapError
        Rejection.kind := by
  rw [Site.branchOperand, Site.branchOperand, Option.bind_some, Option.bind_some,
    h.isOf.lookup?_eq_labelsOf, h.isOf'.lookup?_eq_labelsOf, settings.maxArgs_movedTo]
  cases hfind : (labelsOf settings.maxArgs source.scan.lines).find? (·.1 == label) with
  | none => rfl
  | some l =>
    have hl := le_length_of_mem_labelsOf (List.mem_of_find?_eq_some hfind)
    have htarget := h.distance hl
    have hsource := h.distance hn
    refine mapError_kind_displacement ?_
    show (((settings.movedTo base).addressOf l.2).toNat : Int) -
        ((settings.movedTo base).addressOf n).toNat =
      (settings.addressOf l.2).toNat - (settings.addressOf n).toNat
    omega

/-- An instruction has the same word in both places, or is refused for the same sort of mistake. -/
theorem resolve_cases (h : Twins settings base source a b) {n : Nat} {l : Located}
    (hl : (program settings source)[n]? = some l) :
    (∃ resolved,
      l.instruction.resolve ⟨settings.addressOf n, some a.symbols⟩ = .ok resolved ∧
      l.instruction.resolve ⟨(settings.movedTo base).addressOf n, some b.symbols⟩ =
        .ok resolved) ∨
    ∃ cause cause',
      l.instruction.resolve ⟨settings.addressOf n, some a.symbols⟩ = .error cause ∧
      l.instruction.resolve ⟨(settings.movedTo base).addressOf n, some b.symbols⟩ =
        .error cause' ∧ cause'.kind = cause.kind := by
  have hn := (List.getElem?_eq_some_iff.mp hl).1
  exact cases_of_mapError_eq
    (RawInstruction.mapError_kind_resolve (h.branchOperand (Nat.le_of_lt hn)) l.instruction)

/-- An instruction of the program is not behind its end. -/
theorem distance_of_getElem? (h : Twins settings base source a b) {n : Nat} {l : Located}
    (hl : (program settings source)[n]? = some l) :
    (((settings.movedTo base).addressOf n).toNat : Int) - base.toNat =
      (settings.addressOf n).toNat - settings.textBase.toNat :=
  h.distance (Nat.le_of_lt (List.getElem?_eq_some_iff.mp hl).1)

theorem word_eq (h : Twins settings base source a b) {n : Nat} {l : Located}
    (hl : (program settings source)[n]? = some l) :
    (eventOf (settings.movedTo base) b.symbols n l).word?.map (·.relativeTo base) =
      (eventOf settings a.symbols n l).word?.map (·.relativeTo settings.textBase) := by
  rw [eventOf, eventOf]
  rcases h.resolve_cases hl with ⟨resolved, hx, hy⟩ | ⟨cause, cause', hx, hy, -⟩
  · rw [hx, hy]
    show some (_, _) = some (_, _)
    rw [h.distance_of_getElem? hl]
  · rw [hx, hy]
    rfl

theorem fault_eq (h : Twins settings base source a b) {n : Nat} {l : Located}
    (hl : (program settings source)[n]? = some l) :
    (eventOf (settings.movedTo base) b.symbols n l).fault?.map LineFault.gist =
      (eventOf settings a.symbols n l).fault?.map LineFault.gist := by
  rw [eventOf, eventOf]
  rcases h.resolve_cases hl with ⟨resolved, hx, hy⟩ | ⟨cause, cause', hx, hy, hkind⟩
  · rw [hx, hy]
    rfl
  · rw [hx, hy]
    show some (_, _, _, cause'.kind) = some (_, _, _, cause.kind)
    rw [hkind]

theorem reference_eq (h : Twins settings base source a b) {n : Nat} {l : Located}
    (hl : (program settings source)[n]? = some l) :
    (referenceOf (settings.movedTo base) b.symbols n l).map (·.relativeTo base) =
      (referenceOf settings a.symbols n l).map (·.relativeTo settings.textBase) := by
  rw [referenceOf, referenceOf]
  rcases h.resolve_cases hl with ⟨resolved, hx, hy⟩ | ⟨cause, cause', hx, hy, -⟩
  · rw [hx, hy]
    dsimp only
    cases l.instruction.reference? resolved with
    | none => rfl
    | some label =>
      show some (_, _) = some (_, _)
      rw [h.distance_of_getElem? hl]
  · rw [hx, hy]
    rfl

/-- The words, relative to the bases. -/
theorem words_eq (h : Twins settings base source a b) :
    b.words.map (·.relativeTo base) = a.words.map (·.relativeTo settings.textBase) := by
  rw [words, words, Encoding.words, Encoding.words, h.isOf.events_eq, h.isOf'.events_eq,
    List.filterMap_map, List.filterMap_map]
  exact map_filterMap_congr fun p hp =>
    h.word_eq (getElem?_of_takeWhile (List.mem_zipIdx_iff_getElem?.mp hp))

/-- The faults of the second pass, without their wording. -/
theorem encoding_faults_eq (h : Twins settings base source a b) :
    b.encoding.faults.map LineFault.gist = a.encoding.faults.map LineFault.gist := by
  rw [Encoding.faults, Encoding.faults, h.isOf.events_eq, h.isOf'.events_eq,
    List.filterMap_map, List.filterMap_map]
  exact map_filterMap_congr fun p hp =>
    h.fault_eq (getElem?_of_takeWhile (List.mem_zipIdx_iff_getElem?.mp hp))

/-- The references, relative to the bases. -/
theorem relocations_eq (h : Twins settings base source a b) :
    b.relocations.entries.toList.map (·.relativeTo base) =
      a.relocations.entries.toList.map (·.relativeTo settings.textBase) := by
  rw [h.isOf.relocations_eq, h.isOf'.relocations_eq]
  exact map_filterMap_congr fun p hp =>
    h.reference_eq (getElem?_of_takeWhile (List.mem_zipIdx_iff_getElem?.mp hp))

/-- The symbols, relative to the bases. -/
theorem symbols_eq (h : Twins settings base source a b) :
    b.symbols.entries.toList.map (·.relativeTo base) =
      a.symbols.entries.toList.map (·.relativeTo settings.textBase) := by
  rw [symbols, symbols, h.isOf.reads.entries_eq, h.isOf'.reads.entries_eq, definitionsOf_eq_map,
    definitionsOf_eq_map, List.map_map, List.map_map]
  refine List.map_congr_left fun l hl => ?_
  show (_, _) = (_, _)
  rw [h.distance (le_length_of_mem_labelsOf hl)]

/-- The images, and whether they take all words. -/
theorem image_alike (h : Twins settings base source a b) :
    a.image.Alike settings.textBase base b.image ∧ (b.imageError = none ↔ a.imageError = none) := by
  have hstart : (Image.ofSettings settings).Alike settings.textBase base
      (Image.ofSettings (settings.movedTo base)) :=
    ⟨Settings.aligned_of_check h.isOf.check_eq, Settings.aligned_of_check h.isOf'.check_eq, rfl,
      rfl, rfl, rfl, rfl, fun d => by simp⟩
  rw [h.isOf.image_eq_storeAll, h.isOf'.image_eq_storeAll, h.isOf.imageError_eq_storeAll,
    h.isOf'.imageError_eq_storeAll]
  refine hstart.storeAll ?_
  have hwords : List.Forall₂ Eq (b.words.map (·.relativeTo base))
      (a.words.map (·.relativeTo settings.textBase)) := List.forall₂_eq_eq_eq ▸ h.words_eq
  rw [List.forall₂_map_left_iff, List.forall₂_map_right_iff] at hwords
  exact hwords.flip

theorem intermediate_eq (h : Twins settings base source a b) :
    b.intermediate = a.intermediate := by
  rw [h.isOf.intermediate_eq, h.isOf'.intermediate_eq]
  rfl

theorem moved (h : Twins settings base source a b) : a.Moved settings.textBase base b where
  intermediate_eq := h.intermediate_eq
  words_eq := h.words_eq
  symbols_eq := h.symbols_eq
  relocations_eq := h.relocations_eq
  bytes_eq := h.image_alike.1.bytes_eq
  faults_eq := by
    rw [List.map_append, List.map_append, h.encoding_faults_eq, h.isOf.reads.faults_eq,
      h.isOf'.reads.faults_eq]
    rfl
  faultless_iff := by
    have hfirst : firstFaultsOf (settings.movedTo base) source.scan.lines =
        firstFaultsOf settings source.scan.lines := rfl
    have hsecond : b.encoding.faults = [] ↔ a.encoding.faults = [] := by
      rw [← List.map_eq_nil_iff (f := LineFault.gist), h.encoding_faults_eq, List.map_eq_nil_iff]
    rw [h.isOf.faults_eq_nil, h.isOf'.faults_eq_nil, hfirst, hsecond, h.intermediate_eq,
      h.image_alike.2]

end Assembly.Twins

/-- **Assembling is independent of the position.** Move the text base of usable settings to another
usable one, where the program ends below the top of the address space in both places. Then the text
between the passes and the bytes of the image are the same, words, symbols and references keep their
distance from the base and everything else, the same lines are rejected for the same sort of
mistake, and the one assembly is free of faults exactly if the other is. -/
theorem position_independent {settings : Settings} {base : Address} {source : Source}
    {a b : Assembly} (ha : assemble settings source = .ok a)
    (hb : assemble (settings.movedTo base) source = .ok b)
    (hroom : settings.textBase.toNat + 4 * a.expansion.origins.size < 0x100000000)
    (hroom' : base.toNat + 4 * a.expansion.origins.size < 0x100000000) :
    a.Moved settings.textBase base b := by
  have hof := isOf_of_assemble ha
  rw [hof.size_origins] at hroom hroom'
  exact Assembly.Twins.moved ⟨hof, isOf_of_assemble hb, hroom, hroom'⟩

theorem position_independent_loop :
    ∃ a b, assemble {} loopSource = .ok a ∧
      assemble (Settings.movedTo {} 0x400000) loopSource = .ok b ∧
      a.symbols.entries.toList = [⟨ascii "x", 0⟩, ⟨ascii "y", 8⟩] ∧ a.Moved 0 0x400000 b := by
  obtain ⟨a, ha⟩ := exists_assemble {} rfl loopSource
  obtain ⟨b, hb⟩ := exists_assemble (Settings.movedTo {} 0x400000) rfl loopSource
  have hof := isOf_of_assemble ha
  have hlength : (program {} loopSource).length = 3 := by decide +kernel
  have hsize : a.expansion.origins.size = 3 := hof.size_origins.trans hlength
  refine ⟨a, b, ha, hb, ?_, position_independent ha hb ?_ ?_⟩
  · rw [Assembly.symbols, hof.reads.entries_eq]
    decide +kernel
  · rw [hsize]
    decide
  · rw [hsize]
    decide

end MipsAssembler
