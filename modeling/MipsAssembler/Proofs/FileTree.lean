import MipsAssembler.CommandLine.Files
import MipsAssembler.Proofs.Literals

/-!
# Files written and read back

A file that was written to a tree is found again under the same path (`FileTree.read_of_write`).

- `node?_put_of_directory`: a new file leaves every directory a directory, as it does not take the
  place of one.
- `foldlM_descend_put`: so a way through directories stays the same.
- `locate_of_target`: the place at which a file is written is the one at which it is looked for.
-/

namespace MipsAssembler.FileTree

/-- The tree with a file at a place, in place of any file that stood there. -/
def put (t : FileTree) (place : Place) (contents : Bytes) : FileTree :=
  { t with entries := (place, contents) :: t.entries.filter fun (name, _) => name != place }

variable {t : FileTree} {place directory : Place} {contents : Bytes}

/-! ## Nodes -/

theorem node?_put_self : (t.put place contents).node? place = some (.file contents) := by
  simp [node?, put]

theorem node?_eq_directory_iff :
    t.node? directory = some .directory ↔ t.entries.lookup directory = none ∧
      (directory <+: t.home ∨ ∃ file ∈ t.entries, directory <+: file.1) := by
  rw [node?]
  cases t.entries.lookup directory with
  | some contents => simp
  | none => simp [or_iff_not_imp_left]

/-- A new file leaves every directory a directory, as it does not take the place of one. -/
theorem node?_put_of_directory (hplace : t.node? place ≠ some .directory)
    (h : t.node? directory = some .directory) :
    (t.put place contents).node? directory = some .directory := by
  have hne : directory ≠ place := by
    rintro rfl
    exact hplace h
  rw [node?_eq_directory_iff] at h ⊢
  obtain ⟨hlookup, hway⟩ := h
  have hentries : (t.put place contents).entries = (place, contents) ::
      t.entries.filter fun file => file.1 != place := rfl
  constructor
  · rw [List.lookup_eq_none_iff] at hlookup ⊢
    intro file hfile
    rw [hentries] at hfile
    rcases List.mem_cons.mp hfile with rfl | hfile
    · simpa using hne
    · exact hlookup file (List.mem_filter.mp hfile).1
  · rcases hway with hhome | ⟨file, hfile, hbelow⟩
    · exact .inl hhome
    · -- a file on the way to which the directory stands is there still, or was replaced
      by_cases hsame : file.1 = place
      · exact .inr ⟨(place, contents), List.mem_cons_self, hsame ▸ hbelow⟩
      · refine .inr ⟨file, List.mem_cons_of_mem _ (List.mem_filter.mpr ⟨hfile, ?_⟩), hbelow⟩
        simpa using hsame

/-! ## Ways -/

theorem enter_eq_ok_iff : t.enter directory = .ok () ↔ t.node? directory = some .directory := by
  rw [enter]
  cases hnode : t.node? directory with
  | none => simp
  | some node => cases node <;> simp

theorem enter_of_descend {name : Bytes} {next : Place} (h : t.descend directory name = .ok next) :
    t.enter directory = .ok () := by
  rw [descend, bind_eq_ok_iff] at h
  obtain ⟨_, henter, -⟩ := h
  exact henter

theorem descend_put (hplace : t.node? place ≠ some .directory) {name : Bytes} {next : Place}
    (h : t.descend directory name = .ok next) :
    (t.put place contents).descend directory name = .ok next := by
  have henter := enter_of_descend h
  have hstill : (t.put place contents).enter directory = .ok () :=
    enter_eq_ok_iff.mpr (node?_put_of_directory hplace (enter_eq_ok_iff.mp henter))
  rw [descend, henter] at h
  rw [descend, hstill]
  exact h

/-- A way through directories stays the same. -/
theorem foldlM_descend_put (hplace : t.node? place ≠ some .directory) {names : List Bytes}
    {next : Place} (h : names.foldlM t.descend directory = .ok next) :
    names.foldlM (t.put place contents).descend directory = .ok next := by
  induction names generalizing directory with
  | nil => exact h
  | cons name names ih =>
    rw [List.foldlM_cons, bind_eq_ok_iff] at h ⊢
    obtain ⟨m, hm, hrest⟩ := h
    exact ⟨m, descend_put hplace hm, ih hrest⟩

/-- A way that ends at a directory starts at one. -/
theorem enter_of_foldlM {names : List Bytes} {next : Place}
    (h : names.foldlM t.descend directory = .ok next) (hnext : t.enter next = .ok ()) :
    t.enter directory = .ok () := by
  cases names with
  | nil =>
    obtain rfl := Except.ok.inj h
    exact hnext
  | cons name names =>
    rw [List.foldlM_cons, bind_eq_ok_iff] at h
    obtain ⟨m, hm, -⟩ := h
    exact enter_of_descend hm

/-- Empty names on the way lead nowhere else. -/
theorem foldlM_descend_of_filter {names : List Bytes} {next : Place}
    (h : (names.filter (! ·.isEmpty)).foldlM t.descend directory = .ok next)
    (hnext : t.enter next = .ok ()) : names.foldlM t.descend directory = .ok next := by
  induction names generalizing directory with
  | nil => exact h
  | cons name names ih =>
    rw [List.foldlM_cons, bind_eq_ok_iff]
    cases name with
    | nil =>
      -- the next name is looked up in a directory, so one stands here
      have henter := enter_of_foldlM h hnext
      refine ⟨directory, ?_, ih h⟩
      rw [descend, henter]
      rfl
    | cons b name =>
      rw [List.filter_cons_of_pos rfl, List.foldlM_cons, bind_eq_ok_iff] at h
      obtain ⟨m, hm, hrest⟩ := h
      exact ⟨m, hm, ih hrest⟩

/-! ## Paths -/

/-- A text that does not end with a separator has a last piece that is not empty. -/
theorem exists_pieces_concat {p : UInt8 → Bool} {b : UInt8} (hb : p b = false) (text : Bytes) :
    ∃ init last, pieces p (text ++ [b]) = init ++ [last ++ [b]] := by
  induction text with
  | nil => exact ⟨[], [], pieces_eq_singleton (by simpa using hb)⟩
  | cons c text ih =>
    obtain ⟨init, last, hlast⟩ := ih
    cases hc : p c with
    | true =>
      refine ⟨[] :: init, last, ?_⟩
      rw [List.cons_append, pieces_cons_of_separator hc, hlast, List.cons_append]
    | false =>
      rw [List.cons_append, pieces_cons_of_not_separator hc]
      cases init with
      | nil => exact ⟨[], c :: last, by simp [hlast]⟩
      | cons piece init => exact ⟨(c :: piece) :: init, last, by simp [hlast]⟩

theorem ne_nil_of_checkPath {path : Bytes} (h : checkPath path = .ok ()) : path ≠ [] := by
  rintro rfl
  cases h

/-- What is found out before a file is written. -/
theorem exists_of_target {path : Bytes} (h : t.target path = .ok place) :
    ∃ directory, checkPath path = .ok () ∧
      (((pieces (· == slash) path).filter (! ·.isEmpty)).dropLast).foldlM t.descend
        (t.start path) = .ok directory ∧
      t.enter directory = .ok () ∧ path.getLast? ≠ some slash ∧
      t.descend directory
        (((pieces (· == slash) path).filter (! ·.isEmpty)).getLast?.getD []) = .ok place ∧
      t.node? place ≠ some .directory := by
  rw [target] at h
  simp only [bind_eq_ok_iff] at h
  obtain ⟨_, hcheck, directory, hway, _, henter, h⟩ := h
  refine ⟨directory, hcheck, hway, henter, ?_⟩
  split at h
  · cases h
  · next hslash =>
    obtain ⟨found, hfound, h⟩ := bind_eq_ok_iff.mp h
    split at h
    · cases h
    · next hnode =>
      obtain rfl := Except.ok.inj h
      exact ⟨hslash, hfound, hnode⟩

/-- The place at which a file is written is the one at which it is looked for. -/
theorem locate_of_target {path : Bytes} (h : t.target path = .ok place) :
    t.locate path = .ok place ∧ t.node? place ≠ some .directory := by
  obtain ⟨directory, hcheck, hway, henter, hslash, hlast, hnode⟩ := exists_of_target h
  obtain ⟨text, b, rfl⟩ : ∃ text b, path = text ++ [b] :=
    ⟨_, _, (List.dropLast_concat_getLast (ne_nil_of_checkPath hcheck)).symm⟩
  have hb : (b == slash) = false := by simpa using hslash
  obtain ⟨init, last, hpieces⟩ := exists_pieces_concat (p := (· == slash)) hb text
  -- the last name is not empty, so it is the last of those that are not
  have hnames : (pieces (· == slash) (text ++ [b])).filter (! ·.isEmpty) =
      init.filter (! ·.isEmpty) ++ [last ++ [b]] := by
    rw [hpieces, List.filter_append]
    simp
  rw [hnames, List.dropLast_concat] at hway
  rw [hnames, List.getLast?_concat, Option.getD_some] at hlast
  refine ⟨?_, hnode⟩
  rw [locate, hcheck, hpieces]
  show (init ++ [last ++ [b]]).foldlM t.descend (t.start (text ++ [b])) = .ok place
  rw [List.foldlM_append, foldlM_descend_of_filter hway henter]
  show (t.descend directory (last ++ [b]) >>= pure) = .ok place
  rw [hlast]
  rfl

/-- **A file that was written is found again**, with what was written. -/
theorem read_put {path : Bytes} (h : t.target path = .ok place) :
    (t.put place contents).read path = .ok ⟨contents, none⟩ := by
  obtain ⟨hlocate, hplace⟩ := locate_of_target h
  rw [locate, bind_eq_ok_iff] at hlocate
  obtain ⟨_, hcheck, hway⟩ := hlocate
  have hstill : (t.put place contents).locate path = .ok place := by
    rw [locate, hcheck]
    exact foldlM_descend_put hplace hway
  rw [read, hstill]
  dsimp only
  rw [node?_put_self]

/-- Writing a file in a file system made of a tree. -/
theorem run_write {path : Bytes} (h : t.target path = .ok place) :
    (files.write path contents).run t = (.ok (), t.put place contents) := by
  have hwrite : t.write path contents = .ok (t.put place contents) := by
    rw [write, h]
    rfl
  simp only [files, StateT.run_bind, StateT.run_get, pure_bind, hwrite]
  rfl

end MipsAssembler.FileTree
