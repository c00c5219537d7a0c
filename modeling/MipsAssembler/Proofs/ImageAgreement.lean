import MipsAssembler.Program
import MipsAssembler.Proofs.Accounting
import MipsAssembler.Proofs.SymbolAddresses
import MipsAssembler.Proofs.WordStore

/-!
# The image agrees with the words

The words of an assembly are a list, and each of them is also stored in the image at its address. A
rejected instruction has no word but keeps its place, so there may be gaps in the image. Addresses
may wrap, but then the word has no place in the image: as long as the program has no more
instructions than there are word addresses, every word that is stored is where its number says.

- `Image.Holds`: an image holds words, and nothing else.
- `Assembly.Contiguous`: the words of an assembly lie without gaps, and the image, the text section
  and the loaded program show the same. The bytes of the image are said by number and value, for
  each name of a byte order.
- `Assembly.IsOf.reflects_of_stored`: the history of the image is that of the words, so it is a word
  store that was blank before them.
- `image_holds_words`: the image of an assembly holds its words, if all were stored; and they are
  contiguous if there are no faults.
-/

namespace MipsAssembler

/-- An image that settings describe holds words, each at its own address, and nothing else. -/
structure Image.Holds (im : Image) (settings : Settings) (words : List PlacedWord) : Prop where
  /-- No two words have the same address. -/
  nodup : (words.map (·.address)).Nodup
  /-- A word is loaded from its address. -/
  load_word : ∀ w ∈ words, im.load w.address = .ok w.value
  /-- From any other address of the image, zero is loaded. -/
  load_gap : ∀ address : Address, address.toNat % 4 = 0 →
    settings.textBase.toNat ≤ address.toNat →
    address.toNat < settings.textBase.toNat + settings.imageSize.toNat →
    (∀ w ∈ words, w.address ≠ address) → im.load address = .ok 0
  /-- The image ends with the last word. -/
  length_last : ∀ w, words.getLast? = some w →
    settings.textBase.toNat + im.length = w.address.toNat + 4
  length_nil : words = [] → im.length = 0

/-- The program that the text section of an assembly is loaded as. -/
def Assembly.loaded (a : Assembly) : Program :=
  { text := a.text.toArray }

/-- The words of an assembly lie one behind the other from the text base on, and can be read off its
image as well as off the loaded program. -/
structure Assembly.Contiguous (a : Assembly) (settings : Settings) : Prop where
  /-- The address of a word is exact. -/
  address_eq : ∀ i w, a.words[i]? = some w → w.address.toNat = settings.textBase.toNat + 4 * i
  /-- The image consists of four bytes for each word. -/
  length_bytes : a.image.bytes.length = 4 * a.text.length
  /-- The bytes of a word have an order with one of two names. -/
  byteOrder_eq : settings.byteOrder = ascii "big" ∨ settings.byteOrder = ascii "little"
  /-- By the first, the most significant byte of a word comes first; -/
  byte_big : settings.byteOrder = ascii "big" → ∀ i w, a.text[i]? = some w → ∀ k < 4,
    a.image.bytes[4 * i + k]? = some (UInt8.ofNat (w.toNat / 256 ^ (3 - k) % 256))
  /-- by the second, the least significant. -/
  byte_little : settings.byteOrder = ascii "little" → ∀ i w, a.text[i]? = some w → ∀ k < 4,
    a.image.bytes[4 * i + k]? = some (UInt8.ofNat (w.toNat / 256 ^ k % 256))
  /-- The loaded program has a word at the addresses of the image, up to its length. -/
  found_iff : ∀ address : Address, (a.loaded.wordAt? settings.textBase address).isSome ↔
    address.toNat % 4 = 0 ∧ settings.textBase.toNat ≤ address.toNat ∧
      address.toNat < settings.textBase.toNat + a.image.length
  /-- It is the word in the image. -/
  load_found : ∀ address w, a.loaded.wordAt? settings.textBase address = some w →
    a.image.load address = .ok w

/-- Bytes in groups of four are these groups one after another. -/
theorem eq_flatMap_of_groups {bytes : Bytes} {words : List Word} {f : Word → Nat → UInt8}
    (hlength : bytes.length = 4 * words.length)
    (h : ∀ i w, words[i]? = some w → ∀ k < 4, bytes[4 * i + k]? = some (f w k)) :
    bytes = words.flatMap fun w => [f w 0, f w 1, f w 2, f w 3] := by
  induction words generalizing bytes with
  | nil => exact List.eq_nil_of_length_eq_zero hlength
  | cons w words ih =>
    match bytes, hlength with
    | b₀ :: b₁ :: b₂ :: b₃ :: bytes, hlength =>
      have hgroup := h 0 w rfl
      obtain rfl : b₀ = f w 0 := Option.some.inj (hgroup 0 (by omega))
      obtain rfl : b₁ = f w 1 := Option.some.inj (hgroup 1 (by omega))
      obtain rfl : b₂ = f w 2 := Option.some.inj (hgroup 2 (by omega))
      obtain rfl : b₃ = f w 3 := Option.some.inj (hgroup 3 (by omega))
      rw [List.flatMap_cons, ← ih (by simpa [Nat.mul_succ] using hlength) ?_]
      · rfl
      · intro i v hv k hk
        have hbyte := h (i + 1) v hv k hk
        rwa [Nat.mul_succ, Nat.add_right_comm] at hbyte

namespace Assembly.Contiguous

variable {settings : Settings} {a : Assembly}

/-- The image consists of the bytes of the text. -/
theorem bytes_eq_of_big (h : a.Contiguous settings) (hbig : settings.byteOrder = ascii "big") :
    a.image.bytes = a.text.flatMap fun w =>
      [3, 2, 1, 0].map fun power => UInt8.ofNat (w.toNat / 256 ^ power % 256) :=
  eq_flatMap_of_groups h.length_bytes (h.byte_big hbig)

theorem bytes_eq_of_little (h : a.Contiguous settings)
    (hlittle : settings.byteOrder = ascii "little") :
    a.image.bytes = a.text.flatMap fun w =>
      [0, 1, 2, 3].map fun power => UInt8.ofNat (w.toNat / 256 ^ power % 256) :=
  eq_flatMap_of_groups h.length_bytes (h.byte_little hlittle)

end Assembly.Contiguous

/-! ## The names of byte orders -/

theorem Settings.order_eq_big {settings : Settings} (h : settings.byteOrder = ascii "big") :
    settings.order = .big := by
  have hname : ascii "big" ≠ ByteOrder.little.name := by decide
  rw [order, h, if_neg hname]

theorem Settings.order_eq_little {settings : Settings}
    (h : settings.byteOrder = ascii "little") : settings.order = .little := by
  rw [order, h]
  exact if_pos rfl

/-! ## The loaded program -/

/-- The loaded program finds the words by their number, counted from a base. -/
theorem Assembly.wordAt?_loaded_eq_some_iff (a : Assembly) {base address : Address} {w : Word} :
    a.loaded.wordAt? base address = some w ↔ base.toNat ≤ address.toNat ∧
      (address.toNat - base.toNat) % 4 = 0 ∧
      ∃ v, a.words[(address.toNat - base.toNat) / 4]? = some v ∧ v.value = w := by
  have hbelow : address < base ↔ address.toNat < base.toNat := BitVec.lt_def
  have htext : ∀ i : Nat, a.loaded.text[i]? = a.words[i]?.map (·.value) := by
    intro i
    show a.text.toArray[i]? = _
    rw [List.getElem?_toArray, text, List.getElem?_map]
  rw [Program.wordAt?]
  by_cases hnone : address < base ∨ (address.toNat - base.toNat) % 4 ≠ 0
  · have hout : ¬ (base.toNat ≤ address.toNat ∧ (address.toNat - base.toNat) % 4 = 0) := by
      rw [hbelow] at hnone
      omega
    rw [if_pos hnone]
    exact ⟨nofun, fun hin => absurd ⟨hin.1, hin.2.1⟩ hout⟩
  · rw [if_neg hnone, htext, Option.map_eq_some_iff]
    rw [hbelow, not_or, not_not, Nat.not_lt] at hnone
    tauto

/-- In an ascending list nothing is greater than the last element. -/
theorem le_of_getLast?_of_pairwise {α : Type} {f : α → Nat} {xs : List α}
    (h : xs.Pairwise fun x y => f x < f y) {last : α} (hlast : xs.getLast? = some last) {x : α}
    (hx : x ∈ xs) : f x ≤ f last := by
  obtain ⟨before, rfl⟩ := List.getLast?_eq_some_iff.mp hlast
  rcases List.mem_append.mp hx with hx | hx
  · have hlt := (List.pairwise_append.mp h).2.2 x hx last List.mem_cons_self
    omega
  · rw [List.mem_singleton.mp hx]

namespace Assembly.IsOf

variable {settings : Settings} {source : Source} {a : Assembly}

/-- Words stand in the order of their instructions. -/
theorem pairwise_words (h : a.IsOf settings source) :
    a.words.Pairwise fun w v => ∃ m n, m < n ∧ n < (program settings source).length ∧
      w.address = settings.addressOf m ∧ v.address = settings.addressOf n := by
  have hnumbers : ((program settings source).takeWhile Located.fits).zipIdx.Pairwise
      fun p q => p.2 < q.2 := by
    rw [← List.pairwise_map (f := Prod.snd), List.zipIdx_map_snd]
    exact List.pairwise_lt_range'
  rw [words, Encoding.words, h.events_eq, List.filterMap_map, List.pairwise_filterMap]
  refine hnumbers.imp_of_mem ?_
  rintro ⟨l, m⟩ ⟨k, n⟩ - hq hlt w hw v hv
  obtain ⟨_, -, rfl⟩ := word?_eventOf_eq_some_iff.mp hw
  obtain ⟨_, -, rfl⟩ := word?_eventOf_eq_some_iff.mp hv
  have hk := getElem?_of_takeWhile (List.mem_zipIdx_iff_getElem?.mp hq)
  exact ⟨m, n, hlt, (List.getElem?_eq_some_iff.mp hk).1, rfl, rfl⟩

/-! ## Where all words are stored -/

/-- The words are the history of the image. -/
theorem reflects_of_stored (h : a.IsOf settings source) (hstored : a.imageError = none) :
    a.image.Reflects settings.textBase settings.imageSize settings.order
      (a.words.map .ofPlaced) := by
  have hblank := Image.reflects_blank settings.textBase settings.imageSize settings.order
  rw [← Image.ofSettings_eq_blank] at hblank
  rw [h.imageError_eq_storeAll] at hstored
  rw [h.image_eq_storeAll]
  exact hblank.storeAll hstored

/-- Every word has its place in the image. -/
theorem fits_of_stored (h : a.IsOf settings source) (hstored : a.imageError = none)
    {w : PlacedWord} (hw : w ∈ a.words) :
    Image.Fits settings.textBase settings.imageSize w.address := by
  rw [h.imageError_eq_storeAll, Image.storeAll_snd_eq_none_iff] at hstored
  exact Image.exists_offset_iff.mp (hstored w hw)

theorem textBase_le_of_stored (h : a.IsOf settings source) (hstored : a.imageError = none)
    {w : PlacedWord} (hw : w ∈ a.words) : settings.textBase.toNat ≤ w.address.toNat :=
  (h.fits_of_stored hstored hw).2.1

/-- A word that is stored has the exact address of its number: had it wrapped, it would be below the
text base. -/
theorem toNat_address_of_stored (h : a.IsOf settings source) (hstored : a.imageError = none)
    (hcount : (program settings source).length ≤ 0x40000000) {w : PlacedWord} (hw : w ∈ a.words)
    {n : Nat} (hn : n < (program settings source).length)
    (haddress : w.address = settings.addressOf n) :
    w.address.toNat = settings.textBase.toNat + 4 * n := by
  have hbase := h.textBase_le_of_stored hstored hw
  have hlt : settings.textBase.toNat < 0x100000000 := settings.textBase.isLt
  rw [haddress, Settings.toNat_addressOf] at hbase ⊢
  omega

/-- The addresses of the words ascend. -/
theorem ascending_words (h : a.IsOf settings source) (hstored : a.imageError = none)
    (hcount : (program settings source).length ≤ 0x40000000) :
    a.words.Pairwise fun w v => w.address.toNat < v.address.toNat := by
  refine h.pairwise_words.imp_of_mem ?_
  rintro w v hw hv ⟨m, n, hlt, hn, hm', hn'⟩
  rw [h.toNat_address_of_stored hstored hcount hw (Nat.lt_trans hlt hn) hm',
    h.toNat_address_of_stored hstored hcount hv hn hn']
  omega

theorem nodup_addresses (h : a.IsOf settings source) (hstored : a.imageError = none)
    (hcount : (program settings source).length ≤ 0x40000000) :
    (a.words.map (·.address)).Nodup := by
  rw [List.Nodup, List.pairwise_map]
  refine (h.ascending_words hstored hcount).imp ?_
  intro w v hlt hsame
  rw [hsame] at hlt
  omega

/-- The word at an address is the last one stored there. -/
theorem lastValue_of_stored (h : a.IsOf settings source) (hstored : a.imageError = none)
    (hcount : (program settings source).length ≤ 0x40000000) {w : PlacedWord} (hw : w ∈ a.words) :
    Image.lastValue (a.words.map .ofPlaced) w.address = w.value := by
  have hnodup : ((a.words.map Image.Request.ofPlaced).map (·.address)).Nodup := by
    rw [List.map_map]
    exact h.nodup_addresses hstored hcount
  exact Image.lastValue_of_mem hnodup (List.mem_map_of_mem hw)

/-- The image ends with the last word, which has the highest address. -/
theorem length_image_of_last (h : a.IsOf settings source) (hstored : a.imageError = none)
    (hcount : (program settings source).length ≤ 0x40000000) {w : PlacedWord}
    (hlast : a.words.getLast? = some w) :
    settings.textBase.toNat + a.image.length = w.address.toNat + 4 := by
  have hw := List.mem_of_getLast? hlast
  have hbase := h.textBase_le_of_stored hstored hw
  have hreflects := h.reflects_of_stored hstored
  have hlower : w.address.toNat - settings.textBase.toNat + 4 ≤ a.image.length :=
    hreflects.le_length (List.mem_map_of_mem hw)
  have hupper : a.image.length ≤ w.address.toNat - settings.textBase.toNat + 4 := by
    rw [hreflects.length_eq]
    refine Image.highWater_le ?_
    rw [List.forall_mem_map]
    intro v hv
    have hle := le_of_getLast?_of_pairwise (h.ascending_words hstored hcount) hlast hv
    show v.address.toNat - settings.textBase.toNat + 4 ≤ _
    omega
  omega

/-- The image holds the words. -/
theorem holds_of_stored (h : a.IsOf settings source) (hstored : a.imageError = none)
    (hcount : (program settings source).length ≤ 0x40000000) :
    a.image.Holds settings a.words where
  nodup := h.nodup_addresses hstored hcount
  load_word := by
    intro w hw
    rw [(h.reflects_of_stored hstored).isWordStore.load_eq _ (h.fits_of_stored hstored hw),
      h.lastValue_of_stored hstored hcount hw]
  load_gap := by
    intro address haligned hlow hhigh hother
    obtain ⟨hbase, -, ⟨-, hsize⟩, -⟩ := Settings.check_eq_ok_iff.mp h.check_eq
    -- base and size are multiples of four, so there is room for a whole word
    have hroom : address.toNat - settings.textBase.toNat + 4 ≤ settings.imageSize.toNat := by
      omega
    rw [(h.reflects_of_stored hstored).isWordStore.load_eq _ ⟨haligned, hlow, hroom⟩,
      Image.lastValue_of_forall_ne (List.forall_mem_map.mpr hother)]
  length_last := fun w hlast => h.length_image_of_last hstored hcount hlast
  length_nil := by
    intro hnil
    rw [(h.reflects_of_stored hstored).length_eq, hnil]
    rfl

/-! ## Without faults -/

/-- The word with a number is that of the instruction with the same number. -/
theorem address_of_no_faults (h : a.IsOf settings source) (hf : a.faults = []) {i : Nat}
    {w : PlacedWord} (hw : a.words[i]? = some w) : w.address = settings.addressOf i := by
  have hi : i < (program settings source).length := by
    rw [← h.length_words hf]
    exact (List.getElem?_eq_some_iff.mp hw).1
  have hpair : (a.words.map fun w => (w.address, w.line))[i]? = some (w.address, w.line) := by
    rw [List.getElem?_map, hw]
    rfl
  rw [h.words_of_no_faults hf, List.getElem?_map, List.getElem?_zipIdx,
    List.getElem?_eq_getElem hi, Nat.zero_add] at hpair
  exact (congrArg Prod.fst (Option.some.inj hpair)).symm

theorem toNat_address_of_no_faults (h : a.IsOf settings source) (hf : a.faults = [])
    (hcount : (program settings source).length ≤ 0x40000000) {i : Nat} {w : PlacedWord}
    (hw : a.words[i]? = some w) : w.address.toNat = settings.textBase.toNat + 4 * i := by
  obtain ⟨-, -, hstored⟩ := h.faults_eq_nil.mp hf
  have hi : i < (program settings source).length := by
    rw [← h.length_words hf]
    exact (List.getElem?_eq_some_iff.mp hw).1
  exact h.toNat_address_of_stored hstored hcount (List.mem_of_getElem? hw) hi
    (h.address_of_no_faults hf hw)

/-- The image is as long as the text. -/
theorem length_image_of_no_faults (h : a.IsOf settings source) (hf : a.faults = [])
    (hcount : (program settings source).length ≤ 0x40000000) :
    a.image.length = 4 * a.words.length := by
  obtain ⟨-, -, hstored⟩ := h.faults_eq_nil.mp hf
  have hholds := h.holds_of_stored hstored hcount
  cases hlast : a.words.getLast? with
  | none =>
    have hnil := List.getLast?_eq_none_iff.mp hlast
    rw [hholds.length_nil hnil, hnil]
    rfl
  | some w =>
    have hlength := hholds.length_last w hlast
    rw [List.getLast?_eq_getElem?] at hlast
    have hpos := (List.getElem?_eq_some_iff.mp hlast).1
    rw [h.toNat_address_of_no_faults hf hcount hlast] at hlength
    omega

/-- The bytes of a word stand in the image at four times its number. -/
theorem getElem?_bytes_of_no_faults (h : a.IsOf settings source) (hf : a.faults = [])
    (hcount : (program settings source).length ≤ 0x40000000) {i : Nat} {w : Word}
    (hw : a.text[i]? = some w) {k : Nat} (hk : k < 4) :
    a.image.bytes[4 * i + k]? = (Image.wordBytes settings.order w)[k]? := by
  obtain ⟨-, -, hstored⟩ := h.faults_eq_nil.mp hf
  rw [text, List.getElem?_map, Option.map_eq_some_iff] at hw
  obtain ⟨v, hv, rfl⟩ := hw
  have hmem := List.mem_of_getElem? hv
  have hgroup : a.image.group (v.address.toNat - settings.textBase.toNat) = _ :=
    (h.reflects_of_stored hstored).group_of_mem (List.mem_map_of_mem hmem)
      (h.fits_of_stored hstored hmem)
  have hoffset : v.address.toNat - settings.textBase.toNat = 4 * i := by
    rw [h.toNat_address_of_no_faults hf hcount hv]
    omega
  have hvalue : Image.lastValue _ (Image.Request.ofPlaced v).address = _ :=
    h.lastValue_of_stored hstored hcount hmem
  rw [← Image.getElem?_group _ _ hk, ← hoffset, hgroup, hvalue]

/-- The words lie without gaps. -/
theorem contiguous_of_no_faults (h : a.IsOf settings source) (hf : a.faults = [])
    (hcount : (program settings source).length ≤ 0x40000000) : a.Contiguous settings where
  address_eq := fun i w hw => h.toNat_address_of_no_faults hf hcount hw
  length_bytes := by
    rw [Image.length_bytes, h.length_image_of_no_faults hf hcount, text, List.length_map]
  byteOrder_eq := (Settings.check_eq_ok_iff.mp h.check_eq).2.2.2.2
  byte_big := by
    intro hbig i w hw k hk
    rw [h.getElem?_bytes_of_no_faults hf hcount hw hk, Settings.order_eq_big hbig,
      Image.getElem?_wordBytes_big w hk]
  byte_little := by
    intro hlittle i w hw k hk
    rw [h.getElem?_bytes_of_no_faults hf hcount hw hk, Settings.order_eq_little hlittle,
      Image.getElem?_wordBytes_little w hk]
  found_iff := by
    intro address
    have hbase := Settings.aligned_of_check h.check_eq
    rw [h.length_image_of_no_faults hf hcount]
    constructor
    · intro hsome
      obtain ⟨w, hw⟩ := Option.isSome_iff_exists.mp hsome
      obtain ⟨hlow, hwhole, v, hv, -⟩ := a.wordAt?_loaded_eq_some_iff.mp hw
      have hlt := (List.getElem?_eq_some_iff.mp hv).1
      omega
    · rintro ⟨haligned, hlow, hhigh⟩
      have hlt : (address.toNat - settings.textBase.toNat) / 4 < a.words.length := by omega
      rw [a.wordAt?_loaded_eq_some_iff.mpr ⟨hlow, by omega, _, List.getElem?_eq_getElem hlt, rfl⟩]
      rfl
  load_found := by
    intro address w hfound
    obtain ⟨hlow, hwhole, v, hv, rfl⟩ := a.wordAt?_loaded_eq_some_iff.mp hfound
    obtain ⟨-, -, hstored⟩ := h.faults_eq_nil.mp hf
    have haddress : v.address = address := by
      apply BitVec.eq_of_toNat_eq
      rw [h.toNat_address_of_no_faults hf hcount hv]
      omega
    rw [← haddress]
    exact (h.holds_of_stored hstored hcount).load_word v (List.mem_of_getElem? hv)

end Assembly.IsOf

/-- **The image agrees with the words.** If a program has no more instructions than there are word
addresses and all its words are stored, then the image holds these words and nothing else; and if
there are no faults at all, the words lie without gaps, and the image, the text and the loaded
program show the same. -/
theorem image_holds_words {settings : Settings} {source : Source} {a : Assembly}
    (h : assemble settings source = .ok a) (hcount : a.expansion.origins.size ≤ 0x40000000)
    (hstored : a.imageError = none) :
    a.image.Holds settings a.words ∧ (a.faults = [] → a.Contiguous settings) := by
  have hof := isOf_of_assemble h
  rw [hof.size_origins] at hcount
  exact ⟨hof.holds_of_stored hstored hcount, fun hf => hof.contiguous_of_no_faults hf hcount⟩

/-- Three lines, of which the second is no instruction. -/
def gapSource : Source :=
  ⟨ascii "jr $ra\nbad\njr $ra\n", none⟩

theorem words_gapSource {a : Assembly} (h : assemble {} gapSource = .ok a) :
    a.words = [⟨0, 0x03e00008, ascii "jr $ra", 1⟩, ⟨8, 0x03e00008, ascii "jr $ra", 3⟩] := by
  have hprogram : program {} gapSource = [⟨1, ⟨ascii "jr", [ascii "$ra"]⟩⟩,
      ⟨2, ⟨ascii "bad", []⟩⟩, ⟨3, ⟨ascii "jr", [ascii "$ra"]⟩⟩] := by
    decide +kernel
  rw [Assembly.words, Encoding.words, (isOf_of_assemble h).events_eq, hprogram]
  rfl

/-- Two instructions, whose words consist of eight different bytes. -/
def pairSource : Source :=
  ⟨ascii "jr $ra\naddiu $t0 $t1 258\n", none⟩

/-- Both instructions of the pair are encoded, whatever the name of the byte order. -/
theorem text_pairSource {order : Bytes} {a : Assembly}
    (h : assemble { byteOrder := order } pairSource = .ok a) :
    a.expansion.origins.size ≤ 0x40000000 ∧ a.faults = [] ∧
      a.text = [0x03e00008, 0x25280102] := by
  have hof := isOf_of_assemble h
  have hprogram : program { byteOrder := order } pairSource =
      [⟨1, ⟨ascii "jr", [ascii "$ra"]⟩⟩,
        ⟨2, ⟨ascii "addiu", [ascii "$t0", ascii "$t1", ascii "258"]⟩⟩] := by
    show program {} pairSource = _
    decide +kernel
  have hfirst : firstFaultsOf { byteOrder := order } pairSource.scan.lines = [] := by
    show firstFaultsOf {} pairSource.scan.lines = _
    decide +kernel
  refine ⟨?_, ?_, ?_⟩
  · rw [hof.size_origins, hprogram]
    decide
  · refine hof.faults_eq_nil_iff.mpr ⟨by decide +kernel, hfirst, ?_⟩
    rw [hprogram]
    rintro (_ | _ | n) l hl
    · obtain rfl := Option.some.inj hl
      have hfits : Image.Fits 0 0x100000 0 := by decide
      exact ⟨by decide, ⟨_, rfl⟩, Image.exists_offset_iff.mpr hfits⟩
    · obtain rfl := Option.some.inj hl
      have hfits : Image.Fits 0 0x100000 4 := by decide
      exact ⟨by decide, ⟨_, rfl⟩, Image.exists_offset_iff.mpr hfits⟩
    · cases hl
  · rw [Assembly.text, Assembly.words, Encoding.words, hof.events_eq, hprogram]
    rfl

theorem image_holds_words_gap :
    (∃ a, assemble {} gapSource = .ok a ∧ a.expansion.origins.size ≤ 0x40000000 ∧
      a.imageError = none ∧ a.image.load 0 = .ok 0x03e00008 ∧ a.image.load 4 = .ok 0 ∧
      a.image.load 8 = .ok 0x03e00008 ∧ a.image.length = 12) ∧
    (∃ a, assemble { byteOrder := ascii "big" } pairSource = .ok a ∧
      a.expansion.origins.size ≤ 0x40000000 ∧ a.faults = [] ∧
      a.Contiguous { byteOrder := ascii "big" } ∧
      a.image.bytes = [0x03, 0xe0, 0x00, 0x08, 0x25, 0x28, 0x01, 0x02]) ∧
    ∃ a, assemble { byteOrder := ascii "little" } pairSource = .ok a ∧
      a.expansion.origins.size ≤ 0x40000000 ∧ a.faults = [] ∧
      a.Contiguous { byteOrder := ascii "little" } ∧
      a.image.bytes = [0x08, 0x00, 0xe0, 0x03, 0x02, 0x01, 0x28, 0x25] := by
  refine ⟨?_, ?_, ?_⟩
  · obtain ⟨a, ha⟩ := exists_assemble {} rfl gapSource
    have hof := isOf_of_assemble ha
    have hwords := words_gapSource ha
    have hcount : a.expansion.origins.size ≤ 0x40000000 := by
      rw [hof.size_origins]
      decide +kernel
    have hstored : a.imageError = none := by
      rw [hof.imageError_eq_storeAll, hwords]
      rfl
    obtain ⟨hholds, -⟩ := image_holds_words ha hcount hstored
    rw [hwords] at hholds
    refine ⟨a, ha, hcount, hstored, hholds.load_word _ (.head _), ?_,
      hholds.load_word _ (.tail _ (.head _)), ?_⟩
    · exact hholds.load_gap 4 (by decide) (by decide) (by decide) (by decide)
    · simpa using hholds.length_last _ rfl
  · obtain ⟨a, ha⟩ := exists_assemble { byteOrder := ascii "big" } rfl pairSource
    obtain ⟨hcount, hf, htext⟩ := text_pairSource ha
    have hstored := ((isOf_of_assemble ha).faults_eq_nil.mp hf).2.2
    have hcontiguous := (image_holds_words ha hcount hstored).2 hf
    refine ⟨a, ha, hcount, hf, hcontiguous, ?_⟩
    rw [hcontiguous.bytes_eq_of_big rfl, htext]
    decide
  · obtain ⟨a, ha⟩ := exists_assemble { byteOrder := ascii "little" } rfl pairSource
    obtain ⟨hcount, hf, htext⟩ := text_pairSource ha
    have hstored := ((isOf_of_assemble ha).faults_eq_nil.mp hf).2.2
    have hcontiguous := (image_holds_words ha hcount hstored).2 hf
    refine ⟨a, ha, hcount, hf, hcontiguous, ?_⟩
    rw [hcontiguous.bytes_eq_of_little rfl, htext]
    decide

end MipsAssembler
