import Mathlib.Algebra.Group.Nat.Defs
import MipsAssembler.Proofs.ImageStore

/-!
# Histories of an image

An image is made by requests to store words, some of which are refused. Its base and its capacity
may be anything, also no multiples of four.

- `Image.served` are the requests of a history that succeed, and `Image.lastValue` and
  `Image.highWater` what follows from them: the word at an address and the length of the image.
- `ByteStore` is memory as an array of bytes. Each word stored is four bytes written at the distance
  of its address from the base; `Image.Shows` says that an image and an array hold the same bytes,
  and `Shows.store` that a store keeps it so.
- `Image.getElem?_wordBytes_big` and `Image.getElem?_wordBytes_little`: the bytes of a word by its
  value.
- `Image.Reflects`: an image shows its history. One more request keeps it (`Reflects.store`), and so
  do words that are all stored (`Reflects.storeAll`); what settings describe starts with no history
  (`Image.ofSettings_eq_blank`).
- `image_is_word_store`: what an image holds after any history, word by word and byte by byte, and
  what the byte order has to do with it.
-/

namespace MipsAssembler

/-- Among things of which no two have the same key, one alone has its key. -/
theorem filter_eq_singleton {α β : Type} [DecidableEq β] {key : α → β} {xs : List α}
    (h : (xs.map key).Nodup) {x : α} (hx : x ∈ xs) : xs.filter (key · = key x) = [x] := by
  obtain ⟨before, after, rfl⟩ := List.append_of_mem hx
  rw [List.map_append, List.map_cons, List.nodup_append, List.nodup_cons] at h
  obtain ⟨-, ⟨hafter, -⟩, hbefore⟩ := h
  have hbefore : before.filter (key · = key x) = [] := by
    rw [List.filter_eq_nil_iff]
    intro y hy hsame
    exact hbefore _ (List.mem_map_of_mem hy) _ List.mem_cons_self (of_decide_eq_true hsame)
  have hafter : after.filter (key · = key x) = [] := by
    rw [List.filter_eq_nil_iff]
    intro y hy hsame
    exact hafter (of_decide_eq_true hsame ▸ List.mem_map_of_mem hy)
  rw [List.filter_append, hbefore, List.filter_cons_of_pos (by simp), hafter]
  rfl

/-! ## Memory as an array of bytes -/

/-- Bytes by their distance from the start of a memory. -/
abbrev ByteStore := Nat → UInt8

namespace ByteStore

/-- Memory in which nothing was written. -/
def zero : ByteStore := fun _ => 0

/-- Writes bytes one after another, the first at an offset. -/
def write (m : ByteStore) (offset : Nat) (data : Bytes) : ByteStore :=
  fun i => if offset ≤ i ∧ i < offset + data.length then data.getD (i - offset) 0 else m i

/-- Reads a number of bytes from an offset on. -/
def read (m : ByteStore) (offset count : Nat) : Bytes :=
  (List.range count).map fun i => m (offset + i)

end ByteStore

namespace Image

/-- The word of four bytes, the most significant first. -/
def joinBytes : Bytes → Word
  | [a, b, c, d] => a.toBitVec ++ b.toBitVec ++ c.toBitVec ++ d.toBitVec
  | _ => 0

/-- The word of four bytes in an order. -/
def wordOfBytes (order : ByteOrder) (bytes : Bytes) : Word :=
  match order with
  | .big => joinBytes bytes
  | .little => joinBytes bytes.reverse

@[simp] theorem length_wordBytes (order : ByteOrder) (w : Word) :
    (wordBytes order w).length = 4 := by
  cases order <;> rfl

/-- The other order has the same bytes the other way round. -/
theorem wordBytes_little (w : Word) : wordBytes .little w = (wordBytes .big w).reverse := rfl

/-- In the order big, a byte counts 256 times what the byte behind it does. -/
theorem getElem?_wordBytes_big (w : Word) {k : Nat} (hk : k < 4) :
    (wordBytes .big w)[k]? = some (UInt8.ofNat (w.toNat / 256 ^ (3 - k) % 256)) := by
  have hbyte : ∀ shift, UInt8.ofBitVec (w.extractLsb' shift 8) =
      .ofNat (w.toNat / 2 ^ shift % 256) := by
    intro shift
    apply UInt8.toNat_inj.mp
    rw [UInt8.toNat_ofBitVec, BitVec.extractLsb'_toNat, Nat.shiftRight_eq_div_pow,
      UInt8.toNat_ofNat']
    exact (Nat.mod_mod _ _).symm
  match k, hk with
  | 0, _ => exact congrArg some (hbyte 24)
  | 1, _ => exact congrArg some (hbyte 16)
  | 2, _ => exact congrArg some (hbyte 8)
  | 3, _ => exact congrArg some (hbyte 0)

/-- In the order little, it counts a 256th. -/
theorem getElem?_wordBytes_little (w : Word) {k : Nat} (hk : k < 4) :
    (wordBytes .little w)[k]? = some (UInt8.ofNat (w.toNat / 256 ^ k % 256)) := by
  have hback : 3 - (3 - k) = k := by omega
  rw [wordBytes_little, List.getElem?_reverse (by rwa [length_wordBytes]), length_wordBytes,
    getElem?_wordBytes_big w (by omega), hback]

/-- A zero consists of zeros. -/
theorem getD_wordBytes_zero (order : ByteOrder) (k : Nat) : (wordBytes order 0).getD k 0 = 0 := by
  have hbytes : wordBytes order 0 = List.replicate 4 0 := by
    cases order <;> decide
  rw [hbytes, List.getD_eq_getElem?_getD, List.getElem?_replicate]
  by_cases hk : k < 4
  · rw [if_pos hk]
    rfl
  · rw [if_neg hk]
    rfl

theorem joinBytes_wordBytes (w : Word) : joinBytes (wordBytes .big w) = w := by
  show w.extractLsb' 24 8 ++ w.extractLsb' 16 8 ++ w.extractLsb' 8 8 ++ w.extractLsb' 0 8 = w
  rw [BitVec.extractLsb'_append_extractLsb'_eq_extractLsb' (by rfl),
    BitVec.extractLsb'_append_extractLsb'_eq_extractLsb' (by rfl),
    BitVec.extractLsb'_append_extractLsb'_eq_extractLsb' (by rfl)]
  exact BitVec.extractLsb'_eq_self

/-- A word is read from its bytes. -/
theorem wordOfBytes_wordBytes (order : ByteOrder) (w : Word) :
    wordOfBytes order (wordBytes order w) = w := by
  cases order with
  | big => exact joinBytes_wordBytes w
  | little =>
    rw [wordOfBytes, wordBytes_little, List.reverse_reverse]
    exact joinBytes_wordBytes w

/-! ## Histories -/

/-- An image in which nothing is stored. -/
def blank (base : Address) (capacity : UInt64) (order : ByteOrder) : Image :=
  { base, capacity, order }

/-- The image that settings describe starts blank. -/
theorem ofSettings_eq_blank (s : Settings) :
    ofSettings s = blank s.textBase s.imageSize s.order := rfl

/-- A word-aligned address from the base on, at which a whole word lies inside the capacity. -/
def Fits (base : Address) (capacity : UInt64) (address : Address) : Prop :=
  address.toNat % 4 = 0 ∧ base.toNat ≤ address.toNat ∧
    address.toNat - base.toNat + 4 ≤ capacity.toNat

instance (base : Address) (capacity : UInt64) (address : Address) :
    Decidable (Fits base capacity address) :=
  inferInstanceAs (Decidable (_ ∧ _ ∧ _))

/-- A call that asks to store a word. -/
structure Request where
  /-- Where the word should go. -/
  address : Address
  /-- The word. -/
  value : Word
  deriving DecidableEq, Repr

/-- The call that stores a word of an assembly. -/
def Request.ofPlaced (w : PlacedWord) : Request :=
  ⟨w.address, w.value⟩

/-- The distance of the word from a base. -/
def Request.offset (base : Address) (r : Request) : Nat :=
  r.address.toNat - base.toNat

/-- The image after a request; a refused one leaves it as it was. -/
def attempt (im : Image) (r : Request) : Image :=
  match im.store r.address r.value with
  | .ok next => next
  | .error _ => im

/-- The image after requests, one after another. -/
def attemptEach (im : Image) (requests : List Request) : Image :=
  requests.foldl attempt im

/-- The requests that succeed. -/
def served (base : Address) (capacity : UInt64) (requests : List Request) : List Request :=
  requests.filter fun r => Fits base capacity r.address

/-- The last word that was asked for at an address, or zero. -/
def lastValue (requests : List Request) (address : Address) : Word :=
  ((requests.filter (·.address = address)).getLast?.map (·.value)).getD 0

/-- The end of the highest word, counted from a base, or zero. -/
def highWater (base : Address) (requests : List Request) : Nat :=
  (requests.map fun r => r.offset base + 4).max?.getD 0

/-- The bytes of the words, each written at its offset. -/
def written (base : Address) (order : ByteOrder) (requests : List Request) : ByteStore :=
  requests.foldl (fun m r => m.write (r.offset base) (wordBytes order r.value)) .zero

theorem attemptEach_concat (im : Image) (requests : List Request) (r : Request) :
    im.attemptEach (requests ++ [r]) = (im.attemptEach requests).attempt r := by
  rw [attemptEach, List.foldl_append]
  rfl

theorem served_concat (base : Address) (capacity : UInt64) (requests : List Request)
    (r : Request) :
    served base capacity (requests ++ [r]) =
      if Fits base capacity r.address then served base capacity requests ++ [r]
      else served base capacity requests := by
  rw [served, List.filter_append]
  by_cases hfits : Fits base capacity r.address
  · simp [served, hfits]
  · simp [served, hfits]

theorem lastValue_concat (requests : List Request) (r : Request) (address : Address) :
    lastValue (requests ++ [r]) address =
      if address = r.address then r.value else lastValue requests address := by
  rw [lastValue, List.filter_append]
  by_cases hsame : r.address = address
  · simp [hsame]
  · simp [lastValue, hsame, Ne.symm hsame]

/-- At an address that one request alone has, its word is the last. -/
theorem lastValue_of_mem {requests : List Request} (h : (requests.map (·.address)).Nodup)
    {r : Request} (hr : r ∈ requests) : lastValue requests r.address = r.value := by
  rw [lastValue, filter_eq_singleton h hr]
  rfl

theorem lastValue_of_forall_ne {requests : List Request} {address : Address}
    (h : ∀ r ∈ requests, r.address ≠ address) : lastValue requests address = 0 := by
  have hnone : requests.filter (·.address = address) = [] := by
    rw [List.filter_eq_nil_iff]
    intro r hr hsame
    exact h r hr (of_decide_eq_true hsame)
  rw [lastValue, hnone]
  rfl

theorem highWater_concat (base : Address) (requests : List Request) (r : Request) :
    highWater base (requests ++ [r]) = max (highWater base requests) (r.offset base + 4) := by
  rw [highWater, highWater, List.map_append, List.map_singleton]
  cases requests.map fun r => r.offset base + 4 with
  | nil => simp
  | cons n ns =>
    show (some ((ns ++ [r.offset base + 4]).foldl max n)).getD 0 = max (ns.foldl max n) _
    rw [List.foldl_append]
    rfl

theorem highWater_le {base : Address} {requests : List Request} {n : Nat}
    (h : ∀ r ∈ requests, r.offset base + 4 ≤ n) : highWater base requests ≤ n := by
  induction requests using List.reverseRecOn with
  | nil => exact Nat.zero_le n
  | append_singleton requests r ih =>
    rw [List.forall_mem_append, List.forall_mem_singleton] at h
    rw [highWater_concat]
    exact Nat.max_le.mpr ⟨ih h.1, h.2⟩

/-! ## One request -/

section Attempt

variable {im : Image} {r : Request} {address : Address}

theorem exists_offset_iff :
    (∃ k, im.offset address = .ok k) ↔ Fits im.base im.capacity address := by
  simp only [offset_eq_ok_iff]
  exact ⟨fun ⟨_, haligned, hlow, hhigh, _⟩ => ⟨haligned, hlow, hhigh⟩,
    fun ⟨haligned, hlow, hhigh⟩ => ⟨_, haligned, hlow, hhigh, rfl⟩⟩

theorem exists_store_iff {w : Word} :
    (∃ next, im.store address w = .ok next) ↔ Fits im.base im.capacity address := by
  rw [← exists_offset_iff]
  constructor
  · rintro ⟨next, h⟩
    obtain ⟨k, hk, -⟩ := store_eq_ok_iff.mp h
    exact ⟨k, hk⟩
  · rintro ⟨k, hk⟩
    exact exists_store hk w

theorem exists_load_iff :
    (∃ w, im.load address = .ok w) ↔ Fits im.base im.capacity address := by
  rw [← exists_offset_iff, load]
  cases im.offset address with
  | error e => simp [Except.map]
  | ok k => simp [Except.map]

theorem load_of_fits (h : Fits im.base im.capacity address) :
    im.load address = .ok (im.held address) := by
  obtain ⟨k, hk⟩ := exists_offset_iff.mpr h
  exact load_of_offset hk

/-- A request either stores its word or changes nothing. -/
theorem attempt_cases (im : Image) (r : Request) :
    Fits im.base im.capacity r.address ∧ im.store r.address r.value = .ok (im.attempt r) ∨
      ¬ Fits im.base im.capacity r.address ∧ im.attempt r = im := by
  by_cases hfits : Fits im.base im.capacity r.address
  · obtain ⟨next, hnext⟩ := exists_store_iff (w := r.value).mpr hfits
    refine .inl ⟨hfits, ?_⟩
    rw [attempt, hnext]
  · refine .inr ⟨hfits, ?_⟩
    rw [attempt]
    cases hstore : im.store r.address r.value with
    | error e => rfl
    | ok next => exact absurd (exists_store_iff.mp ⟨next, hstore⟩) hfits

end Attempt

/-! ## Bytes -/

/-- The address of the word that a byte belongs to. -/
def wordAddress (im : Image) (i : Nat) : Address :=
  BitVec.ofNat 32 ((im.base.toNat + i) / 4 * 4)

theorem byteAt_eq_held (im : Image) (i : Nat) :
    im.byteAt i = (wordBytes im.order (im.held (im.wordAddress i))).getD
      ((im.base.toNat + i) % 4) 0 :=
  rfl

/-- Below the top of the address space the address does not wrap. -/
theorem toNat_wordAddress (im : Image) {i : Nat} (hi : im.base.toNat + i < 0x100000000) :
    (im.wordAddress i).toNat = (im.base.toNat + i) / 4 * 4 := by
  rw [wordAddress, BitVec.toNat_ofNat, Nat.mod_eq_of_lt (by omega)]

/-- The four bytes of a word lie side by side, wherever the base is. -/
theorem wordAddress_eq {im : Image} {address : Address} {i : Nat}
    (haligned : address.toNat % 4 = 0) (hlow : address.toNat ≤ im.base.toNat + i)
    (hhigh : im.base.toNat + i < address.toNat + 4) : im.wordAddress i = address := by
  have hdown : (im.base.toNat + i) / 4 * 4 = address.toNat := by omega
  rw [wordAddress, hdown, BitVec.ofNat_toNat, BitVec.setWidth_eq]

/-- An array holds the bytes of an image, below the top of the address space. -/
def Shows (im : Image) (m : ByteStore) : Prop :=
  ∀ i, im.base.toNat + i < 0x100000000 → im.byteAt i = m i

/-- To store a word is to write its bytes. -/
theorem Shows.store {im im' : Image} {m : ByteStore} {address : Address} {w : Word}
    (h : im.Shows m) (hstore : im.store address w = .ok im') :
    im'.Shows (m.write (address.toNat - im.base.toNat) (wordBytes im.order w)) := by
  obtain ⟨k, hk, -⟩ := store_eq_ok_iff.mp hstore
  obtain ⟨haligned, hlow, -, -⟩ := offset_eq_ok_iff.mp hk
  obtain ⟨hbase, -, horder⟩ := frame_of_store hstore
  intro i hi
  have hsame : im'.wordAddress i = im.wordAddress i := by rw [wordAddress, wordAddress, hbase]
  rw [byteAt_eq_held, hsame, horder, hbase, held_of_store hstore, ByteStore.write,
    length_wordBytes]
  rw [hbase] at hi
  by_cases hinside : address.toNat ≤ im.base.toNat + i ∧ im.base.toNat + i < address.toNat + 4
  · -- the byte is one of the word
    have hbyte : (im.base.toNat + i) % 4 = i - (address.toNat - im.base.toNat) := by omega
    rw [wordAddress_eq haligned hinside.1 hinside.2, if_pos rfl, hbyte, if_pos (by omega)]
  · -- the byte is one of another word
    have hother : im.wordAddress i ≠ address := by
      intro heq
      have htoNat := toNat_wordAddress im hi
      rw [heq] at htoNat
      omega
    rw [if_neg hother, if_neg (by omega), ← byteAt_eq_held]
    exact h i hi

/-! ## What requests leave behind -/

/-- An image holds what the requests that were served have left in it. -/
structure Reflects (im : Image) (base : Address) (capacity : UInt64) (order : ByteOrder)
    (done : List Request) : Prop where
  base_eq : im.base = base
  capacity_eq : im.capacity = capacity
  order_eq : im.order = order
  held_eq : ∀ address, im.held address = lastValue done address
  length_eq : im.length = highWater base done
  shows_written : im.Shows (written base order done)
  /-- The image does not reach beyond the top of the address space. -/
  below_top : base.toNat + im.length ≤ 0x100000000

section Histories

variable {base : Address} {capacity : UInt64} {order : ByteOrder}

theorem reflects_blank (base : Address) (capacity : UInt64) (order : ByteOrder) :
    (blank base capacity order).Reflects base capacity order [] where
  base_eq := rfl
  capacity_eq := rfl
  order_eq := rfl
  held_eq := by
    intro address
    show (∅ : Std.HashMap Address Word).getD address 0 = 0
    simp
  length_eq := rfl
  shows_written := by
    intro i _
    have hheld : (blank base capacity order).held ((blank base capacity order).wordAddress i) = 0 :=
      Std.HashMap.getD_empty
    rw [byteAt_eq_held, hheld, getD_wordBytes_zero]
    rfl
  below_top := by
    show base.toNat + 0 ≤ 0x100000000
    omega

/-- A word that is stored is one more request that was served. -/
theorem Reflects.store {im im' : Image} {done : List Request} {r : Request}
    (h : im.Reflects base capacity order done) (hstore : im.store r.address r.value = .ok im') :
    im'.Reflects base capacity order (done ++ [r]) := by
  obtain ⟨hbase, hcapacity, horder⟩ := frame_of_store hstore
  have hlength : im'.length = max im.length (r.offset base + 4) := by
    rw [length_of_store hstore, h.base_eq]
    rfl
  refine ⟨hbase.trans h.base_eq, hcapacity.trans h.capacity_eq, horder.trans h.order_eq, ?_, ?_,
    ?_, ?_⟩
  · intro address
    rw [held_of_store hstore, lastValue_concat, h.held_eq]
  · rw [hlength, highWater_concat, h.length_eq]
  · have hshows := h.shows_written.store hstore
    rw [h.base_eq, h.order_eq] at hshows
    rw [written, List.foldl_append]
    exact hshows
  · -- the last word of the address space ends at its top
    obtain ⟨k, hk, -⟩ := store_eq_ok_iff.mp hstore
    obtain ⟨haligned, hlow, -, -⟩ := offset_eq_ok_iff.mp hk
    have htop : r.address.toNat < 0x100000000 := r.address.isLt
    have hbelow := h.below_top
    rw [h.base_eq] at hlow
    rw [hlength, Request.offset]
    omega

/-- Words that are all stored are as many more requests that were served. -/
theorem Reflects.storeAll {im : Image} {done : List Request} {words : List PlacedWord}
    (h : im.Reflects base capacity order done) (hstored : (im.storeAll words).2 = none) :
    (im.storeAll words).1.Reflects base capacity order (done ++ words.map .ofPlaced) := by
  induction words generalizing im done with
  | nil =>
    rw [List.map_nil, List.append_nil]
    exact h
  | cons w words ih =>
    obtain ⟨im', hstore, hall, hrest⟩ := exists_store_of_storeAll hstored
    have hnext : im'.Reflects base capacity order (done ++ [.ofPlaced w]) := h.store hstore
    rw [hall, List.map_cons, List.append_cons]
    exact ih hnext hrest

/-- **An image reflects its history**, request by request. -/
theorem reflects_attemptEach (base : Address) (capacity : UInt64) (order : ByteOrder)
    (requests : List Request) :
    ((blank base capacity order).attemptEach requests).Reflects base capacity order
      (served base capacity requests) := by
  induction requests using List.reverseRecOn with
  | nil => exact reflects_blank base capacity order
  | append_singleton requests r ih =>
    rw [attemptEach_concat, served_concat]
    rcases attempt_cases ((blank base capacity order).attemptEach requests) r with
      ⟨hfits, hstore⟩ | ⟨hrefused, hsame⟩
    · rw [ih.base_eq, ih.capacity_eq] at hfits
      rw [if_pos hfits]
      exact ih.store hstore
    · rw [ih.base_eq, ih.capacity_eq] at hrefused
      rw [if_neg hrefused, hsame]
      exact ih

/-! ## Words in the bytes -/

/-- The bytes at the place of a word are those of the word that is held there. -/
theorem map_byteAt_range (im : Image) {address : Address} (haligned : address.toNat % 4 = 0)
    (hlow : im.base.toNat ≤ address.toNat) :
    (List.range 4).map (fun j => im.byteAt (address.toNat - im.base.toNat + j)) =
      wordBytes im.order (im.held address) := by
  have hbyte : ∀ j ∈ List.range 4, im.byteAt (address.toNat - im.base.toNat + j) =
      (wordBytes im.order (im.held address)).getD j 0 := by
    intro j hj
    have hj := List.mem_range.mp hj
    have hmod : (im.base.toNat + (address.toNat - im.base.toNat + j)) % 4 = j := by omega
    rw [byteAt_eq_held, wordAddress_eq haligned (by omega) (by omega), hmod]
  refine (List.map_congr_left hbyte).trans ?_
  cases im.order <;> rfl

/-- Four bytes of an image. -/
def group (im : Image) (offset : Nat) : Bytes :=
  (im.bytes.drop offset).take 4

theorem length_bytes (im : Image) : im.bytes.length = im.length := by
  rw [bytes, List.length_map, List.length_range]

theorem getElem?_bytes {im : Image} {i : Nat} (hi : i < im.length) :
    im.bytes[i]? = some (im.byteAt i) := by
  rw [bytes, List.getElem?_map, List.getElem?_range hi]
  rfl

theorem getElem?_group (im : Image) (offset : Nat) {k : Nat} (hk : k < 4) :
    (im.group offset)[k]? = im.bytes[offset + k]? := by
  rw [group, List.getElem?_take_of_lt hk, List.getElem?_drop]

theorem group_eq {im : Image} {offset : Nat} (h : offset + 4 ≤ im.length) :
    im.group offset = (List.range 4).map fun j => im.byteAt (offset + j) := by
  refine List.ext_getElem? fun j => ?_
  rw [List.getElem?_map]
  by_cases hj : j < 4
  · rw [getElem?_group im offset hj, getElem?_bytes (by omega), List.getElem?_range hj]
    rfl
  · rw [group, List.getElem?_take, if_neg hj, List.getElem?_eq_none (by simpa using hj)]
    rfl

namespace Reflects

variable {im : Image} {done : List Request}

theorem le_length (h : im.Reflects base capacity order done) {r : Request} (hr : r ∈ done) :
    r.offset base + 4 ≤ im.length := by
  rw [h.length_eq]
  exact List.le_max?_getD_of_mem (List.mem_map.mpr ⟨r, hr, rfl⟩)

/-- The image consists of what was written. -/
theorem bytes_eq_read (h : im.Reflects base capacity order done) :
    im.bytes = (written base order done).read 0 im.length := by
  refine List.map_congr_left fun i hi => ?_
  have hi := List.mem_range.mp hi
  have htop := h.below_top
  rw [Nat.zero_add]
  refine h.shows_written i ?_
  rw [h.base_eq]
  omega

/-- A word can be read back from what was written. -/
theorem held_eq_read (h : im.Reflects base capacity order done) {address : Address}
    (haligned : address.toNat % 4 = 0) (hlow : base.toNat ≤ address.toNat) :
    im.held address =
      wordOfBytes order ((written base order done).read (address.toNat - base.toNat) 4) := by
  have hread : (written base order done).read (address.toNat - base.toNat) 4 =
      (List.range 4).map fun j => im.byteAt (address.toNat - base.toNat + j) := by
    refine List.map_congr_left fun j hj => (h.shows_written _ ?_).symm
    have hj := List.mem_range.mp hj
    have htop : address.toNat < 0x100000000 := address.isLt
    rw [h.base_eq]
    omega
  have hword := map_byteAt_range im haligned (by rw [h.base_eq]; exact hlow)
  rw [h.base_eq, h.order_eq] at hword
  rw [hread, hword, wordOfBytes_wordBytes]

/-- Each word that was stored shows its bytes. -/
theorem group_of_mem (h : im.Reflects base capacity order done) {r : Request} (hr : r ∈ done)
    (hfits : Fits base capacity r.address) :
    im.group (r.offset base) = wordBytes order (lastValue done r.address) := by
  obtain ⟨haligned, hlow, -⟩ := hfits
  have hword := map_byteAt_range im haligned (by rw [h.base_eq]; exact hlow)
  rw [h.base_eq, h.order_eq, h.held_eq] at hword
  rw [group_eq (h.le_length hr)]
  exact hword

/-- Between the words there are zeros. -/
theorem getElem?_bytes_of_gap (h : im.Reflects base capacity order done)
    (hfits : ∀ r ∈ done, Fits base capacity r.address) {i : Nat} (hi : i < im.length)
    (hgap : ∀ r ∈ done, ¬ (r.offset base ≤ i ∧ i < r.offset base + 4)) :
    im.bytes[i]? = some 0 := by
  have htop := h.below_top
  have hnone : ∀ r ∈ done, r.address ≠ im.wordAddress i := by
    intro r hr hsame
    refine hgap r hr ?_
    obtain ⟨-, hlow, -⟩ := hfits r hr
    have haddress := toNat_wordAddress im (i := i) (by rw [h.base_eq]; omega)
    rw [← hsame, h.base_eq] at haddress
    rw [Request.offset]
    omega
  rw [getElem?_bytes hi, byteAt_eq_held, h.held_eq, lastValue_of_forall_ne hnone]
  exact congrArg some (getD_wordBytes_zero _ _)

end Reflects

end Histories

/-! ## The word store -/

/-- What requests to store words make of an image; `done` are those that succeed. -/
structure IsWordStore (im : Image) (base : Address) (capacity : UInt64) (order : ByteOrder)
    (done : List Request) : Prop where
  /-- Words are stored exactly where they have a place, -/
  store_iff : ∀ address w, (∃ next, im.store address w = .ok next) ↔ Fits base capacity address
  /-- and loaded from there; -/
  load_iff : ∀ address, (∃ w, im.load address = .ok w) ↔ Fits base capacity address
  /-- what is stored elsewhere changes nothing. -/
  attempt_refused : ∀ r : Request, ¬ Fits base capacity r.address → im.attempt r = im
  /-- The last word stored at an address is loaded. -/
  load_eq : ∀ address, Fits base capacity address → im.load address = .ok (lastValue done address)
  /-- The image ends with the highest word. -/
  length_eq : im.length = highWater base done
  /-- It shows as many bytes, which are those of the words, written to zeros in their order; -/
  length_bytes : im.bytes.length = im.length
  bytes_eq : im.bytes = (written base order done).read 0 im.length
  /-- and a word is loaded by reading its bytes. -/
  load_eq_read : ∀ address, Fits base capacity address → im.load address =
    .ok (wordOfBytes order ((written base order done).read (address.toNat - base.toNat) 4))

/-- Two images of the same requests in the two byte orders: the bytes of each word that was stored
are the other way round, and nothing else differs. -/
structure Mirrors (im other : Image) (base : Address) (done : List Request) : Prop where
  load_eq : ∀ address, other.load address = im.load address
  length_eq : other.length = im.length
  group_reversed : ∀ r ∈ done, other.group (r.offset base) = (im.group (r.offset base)).reverse
  bytes_elsewhere : ∀ i, (∀ r ∈ done, ¬ (r.offset base ≤ i ∧ i < r.offset base + 4)) →
    other.bytes[i]? = im.bytes[i]?

section Assembled

variable {base : Address} {capacity : UInt64} {order : ByteOrder} {requests : List Request}

theorem fits_of_mem_served {r : Request} (hr : r ∈ served base capacity requests) :
    Fits base capacity r.address :=
  of_decide_eq_true (List.mem_filter.mp hr).2

theorem Reflects.isWordStore {im : Image} {done : List Request}
    (h : im.Reflects base capacity order done) : im.IsWordStore base capacity order done where
  store_iff := by
    intro address w
    rw [exists_store_iff, h.base_eq, h.capacity_eq]
  load_iff := by
    intro address
    rw [exists_load_iff, h.base_eq, h.capacity_eq]
  attempt_refused := by
    intro r hrefused
    rw [← h.base_eq, ← h.capacity_eq] at hrefused
    rcases im.attempt_cases r with ⟨hfits, -⟩ | ⟨-, hsame⟩
    · exact absurd hfits hrefused
    · exact hsame
  load_eq := by
    intro address hfits
    rw [← h.base_eq, ← h.capacity_eq] at hfits
    rw [load_of_fits hfits, h.held_eq]
  length_eq := h.length_eq
  length_bytes := im.length_bytes
  bytes_eq := h.bytes_eq_read
  load_eq_read := by
    intro address hfits
    obtain ⟨haligned, hlow, -⟩ := id hfits
    rw [← h.base_eq, ← h.capacity_eq] at hfits
    rw [load_of_fits hfits, h.held_eq_read haligned hlow]

theorem mirrors_of_reflects {im other : Image}
    (h : im.Reflects base capacity .big (served base capacity requests))
    (h' : other.Reflects base capacity .little (served base capacity requests)) :
    im.Mirrors other base (served base capacity requests) where
  load_eq := by
    intro address
    have hoffset : other.offset address = im.offset address := by
      rw [offset, offset, h.base_eq, h'.base_eq, h.capacity_eq, h'.capacity_eq]
    have hheld : other.held address = im.held address := by rw [h.held_eq, h'.held_eq]
    show (other.offset address).map (fun _ => other.held address) = _
    rw [hoffset, hheld]
    rfl
  length_eq := by rw [h.length_eq, h'.length_eq]
  group_reversed := by
    intro r hr
    rw [h.group_of_mem hr (fits_of_mem_served hr), h'.group_of_mem hr (fits_of_mem_served hr)]
    exact wordBytes_little _
  bytes_elsewhere := by
    intro i hgap
    have hlength : other.length = im.length := by rw [h.length_eq, h'.length_eq]
    by_cases hi : i < im.length
    · rw [h.getElem?_bytes_of_gap (fun r => fits_of_mem_served) hi hgap,
        h'.getElem?_bytes_of_gap (fun r => fits_of_mem_served) (by omega) hgap]
    · rw [List.getElem?_eq_none (by rw [length_bytes]; omega),
        List.getElem?_eq_none (by rw [length_bytes]; omega)]

end Assembled

end Image

/-- **An image is a word store.** Whatever requests were made on an empty image, with any base, any
capacity and either byte order: a word can be stored and loaded exactly at the multiples of four
where it lies inside the image; a refused request changes nothing; the last word stored at an
address is loaded from it, zero if there was none; the image is as long as the highest word needs,
and shows the bytes of its words. The other byte order turns the bytes of each word round, and
changes nothing else. -/
theorem image_is_word_store (base : Address) (capacity : UInt64) (requests : List Image.Request) :
    (∀ order, ((Image.blank base capacity order).attemptEach requests).IsWordStore base capacity
        order (Image.served base capacity requests)) ∧
      ((Image.blank base capacity .big).attemptEach requests).Mirrors
        ((Image.blank base capacity .little).attemptEach requests) base
        (Image.served base capacity requests) :=
  ⟨fun order => (Image.reflects_attemptEach base capacity order requests).isWordStore,
    Image.mirrors_of_reflects (Image.reflects_attemptEach base capacity .big requests)
      (Image.reflects_attemptEach base capacity .little requests)⟩

-- a base between two words: the first word has its place two bytes behind it
example : ((Image.blank 2 7 .big).attemptEach [⟨4, 0x01020304⟩, ⟨8, 5⟩, ⟨2, 6⟩]).bytes =
    [0, 0, 1, 2, 3, 4] := by
  cbv

end MipsAssembler
