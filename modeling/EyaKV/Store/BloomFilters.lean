import EyaKV.Store.SSTableFile
import Mathlib.Data.Set.Insert

/-!
# What a Bloom filter finds

A Bloom filter stands for the set of its marked positions: `add` marks the positions of a key
(`marked_add`), and `may_contain` asks whether all of them are marked (`mayContain_iff_subset`). So
an added key is found, whatever the sizes are, and no access leaves the bit array (`build_finds`).

`serialize` writes the length of the array in 32 bits and all of its bytes, so what `deserialize`
restores is cut to that length (`deserialize_cut`). The positions of a key are then taken modulo
another number of bits, and whether a key is still found depends on the hashes that fall on marked
positions (`noFalseNegatives_keys_iff`). `noFalseNegatives_iff` is the condition on the parameters.
-/

set_option autoImplicit false

namespace EyaKV.Store

open EyaKV.Base EyaKV.Base.Framing

namespace BloomFilter

section Accesses

/-- `hash % num_bits`, with the access to its byte: there is no result for a modulo by zero, nor
for a byte outside of the array. -/
def bitPos (bits : List UInt8) (hash : UInt32) : Option Nat :=
  let numBits := bits.length * 8 % 2 ^ 64
  if numBits = 0 ∨ bits.length ≤ hash.toNat % numBits / 8 then none
  else some (hash.toNat % numBits)

/-- The loop of `add`. -/
def setAll : List UInt32 → List UInt8 → Option (List UInt8)
  | [], bits => some bits
  | hash :: rest, bits => do
      let pos ← bitPos bits hash
      setAll rest (setBit bits pos)

/-- The loop of `may_contain`, which ends at the first bit that is not set. -/
def testAll (bits : List UInt8) : List UInt32 → Option Bool
  | [] => some true
  | hash :: rest => do
      let pos ← bitPos bits hash
      if testBit bits pos then testAll bits rest else return false

/-- `add`, with every access checked. -/
def tryAdd (key : Bytes) (filter : BloomFilter) : Option BloomFilter :=
  if filter.bits = [] then some filter
  else (setAll (filter.getHashes key) filter.bits).map fun bits => { filter with bits := bits }

/-- `may_contain`, with every access checked. -/
def tryMayContain (filter : BloomFilter) (key : Bytes) : Option Bool :=
  if filter.bits = [] then some true else testAll filter.bits (filter.getHashes key)

/-- The filter after the constructor and a sequence of calls of `add`. -/
def build (expectedElements bitsPerKey : UInt64) (keys : List Bytes) : Option BloomFilter :=
  keys.foldlM (fun filter key => filter.tryAdd key) (ofExpected expectedElements bitsPerKey)

/-- `may_contain` accesses the array within its bounds for every key, and finds the given ones. -/
structure Finds (filter : BloomFilter) (keys : List Bytes) : Prop where
  answers : ∀ key, ∃ answer, filter.tryMayContain key = some answer
  found : ∀ key ∈ keys, filter.tryMayContain key = some true

/-- The added keys are found, also after a round trip through the bytes, whatever follows them. -/
def NoFalseNegatives (expectedElements bitsPerKey : UInt64) (keys : List Bytes) : Prop :=
  ∃ filter, build expectedElements bitsPerKey keys = some filter ∧ filter.Finds keys ∧
    ∀ rest, ∃ restored rest', deserialize (filter.serialize ++ rest) = some (restored, rest') ∧
      restored.Finds keys

/-- `num_bytes`. -/
def numBytes (expectedElements bitsPerKey : UInt64) : Nat :=
  ((expectedElements * bitsPerKey + 7) / 8).toNat

variable {bits : List UInt8} {filter : BloomFilter} {key : Bytes} {hash : UInt32}

/-- With fewer than `2 ^ 61` bytes the number of bits fits a `size_t`, and every hash has a place. -/
theorem bitPos_eq (hne : bits ≠ []) (hlt : bits.length < 2 ^ 61) (hash : UInt32) :
    bitPos bits hash = some (hash.toNat % (bits.length * 8)) := by
  have hpos := List.length_pos_of_ne_nil hne
  have hbits : bits.length * 8 % 2 ^ 64 = bits.length * 8 := Nat.mod_eq_of_lt (by omega)
  have hmod : hash.toNat % (bits.length * 8) < bits.length * 8 := Nat.mod_lt _ (by omega)
  simp only [bitPos, hbits]
  rw [if_neg]
  omega

theorem setAll_eq (hashes : List UInt32) : ∀ bits : List UInt8, bits ≠ [] → bits.length < 2 ^ 61 →
    setAll hashes bits =
      some ((hashes.map fun hash => hash.toNat % (bits.length * 8)).foldl setBit bits) := by
  induction hashes with
  | nil =>
      intro bits _ _
      rfl
  | cons hash rest ih =>
      intro bits hne hlt
      have hlength : (setBit bits (hash.toNat % (bits.length * 8))).length = bits.length :=
        length_setBit
      have hne' : setBit bits (hash.toNat % (bits.length * 8)) ≠ [] := by
        rw [← List.length_pos_iff, hlength]
        exact List.length_pos_of_ne_nil hne
      simp only [setAll, bitPos_eq hne hlt, Option.bind_eq_bind, Option.bind_some]
      rw [ih _ hne' (by rwa [hlength]), hlength]
      rfl

theorem testAll_eq (hne : bits ≠ []) (hlt : bits.length < 2 ^ 61) (hashes : List UInt32) :
    testAll bits hashes =
      some (hashes.all fun hash => testBit bits (hash.toNat % (bits.length * 8))) := by
  induction hashes with
  | nil => rfl
  | cons hash rest ih =>
      simp only [testAll, bitPos_eq hne hlt, Option.bind_eq_bind, Option.bind_some, ih,
        List.all_cons]
      cases testBit bits (hash.toNat % (bits.length * 8)) with
      | true => rfl
      | false => rfl

/-- No access of `add` fails. -/
theorem tryAdd_eq (hlt : filter.bits.length < 2 ^ 61) (key : Bytes) :
    filter.tryAdd key = some (filter.add key) := by
  by_cases hne : filter.bits = []
  · rw [tryAdd, add, if_pos hne, if_pos hne]
  · rw [tryAdd, if_neg hne, setAll_eq _ _ hne hlt, add_eq hne]
    rfl

/-- No access of `may_contain` fails. -/
theorem tryMayContain_eq (hlt : filter.bits.length < 2 ^ 61) (key : Bytes) :
    filter.tryMayContain key = some (filter.mayContain key) := by
  by_cases hne : filter.bits = []
  · rw [tryMayContain, mayContain, if_pos hne, if_pos hne]
  · rw [tryMayContain, mayContain, if_neg hne, if_neg hne, testAll_eq hne hlt]

theorem finds_iff (hlt : filter.bits.length < 2 ^ 61) (keys : List Bytes) :
    filter.Finds keys ↔ ∀ key ∈ keys, filter.mayContain key = true := by
  constructor
  · intro h key hkey
    have hfound := h.found key hkey
    rwa [tryMayContain_eq hlt, Option.some.injEq] at hfound
  · intro h
    constructor
    · intro key
      exact ⟨_, tryMayContain_eq hlt key⟩
    · intro key hkey
      rw [tryMayContain_eq hlt, h key hkey]

end Accesses

section Marks

variable {bits : List UInt8} {pos other n : Nat} {filter : BloomFilter} {key : Bytes}

/-- The positions of the bits that are set. -/
def marked (bits : List UInt8) : Set Nat := {pos | testBit bits pos = true}

theorem mask_and_mask (pos other : Nat) : mask pos &&& mask other ≠ 0 ↔ pos % 8 = other % 8 := by
  have hpos : pos % 8 < 8 := Nat.mod_lt _ (by decide)
  have hother : other % 8 < 8 := Nat.mod_lt _ (by decide)
  rw [mask, mask]
  generalize pos % 8 = r at hpos
  generalize other % 8 = s at hother
  interval_cases r <;> interval_cases s <;> decide

/-- Setting a bit marks its position and no other. -/
theorem marked_setBit (h : pos / 8 < bits.length) :
    marked (setBit bits pos) = insert pos (marked bits) := by
  ext other
  rw [Set.mem_insert_iff]
  constructor
  · intro hmem
    by_cases hbyte : pos / 8 = other / 8
    · -- In the byte of the position, the mask is the one that is new.
      by_cases hmask : pos % 8 = other % 8
      · left
        omega
      · right
        have hzero : mask pos &&& mask other = 0 := by
          by_contra hne
          exact hmask ((mask_and_mask pos other).1 hne)
        rw [hbyte] at h
        simp only [marked, Set.mem_ofPred_eq, testBit, setBit, hbyte, List.getElem?_modify_eq,
          List.getElem?_eq_getElem h, Option.map_eq_map, Option.map_some, Option.getD_some,
          or_and_eq, hzero, UInt8.or_zero] at hmem ⊢
        exact hmem
    · right
      simp only [marked, Set.mem_ofPred_eq, testBit, setBit, List.getElem?_modify, hbyte,
        ↓reduceIte, Option.map_eq_map, Option.map_id_fun', id_eq] at hmem ⊢
      exact hmem
  · rintro (rfl | hmem)
    · exact testBit_setBit_self h
    · exact testBit_setBit hmem

theorem marked_foldl_setBit (positions : List Nat) : ∀ bits : List UInt8,
    (∀ pos ∈ positions, pos / 8 < bits.length) →
      marked (positions.foldl setBit bits) = marked bits ∪ {pos | pos ∈ positions} := by
  induction positions with
  | nil =>
      intro bits _
      simp
  | cons pos rest ih =>
      intro bits h
      have hrest : ∀ other ∈ rest, other / 8 < (setBit bits pos).length := by
        intro other hother
        rw [length_setBit]
        exact h other (List.mem_cons_of_mem _ hother)
      rw [List.foldl_cons, ih _ hrest, marked_setBit (h pos List.mem_cons_self)]
      ext other
      simp only [Set.mem_union, Set.mem_insert_iff, Set.mem_ofPred_eq, List.mem_cons]
      rw [or_assoc]
      exact or_left_comm

/-- A new array has no marks. -/
theorem marked_replicate (n : Nat) : marked (List.replicate n 0) = ∅ := by
  ext pos
  apply iff_of_false _ (Set.notMem_empty pos)
  intro hmem
  rw [marked, Set.mem_ofPred_eq, testBit, List.getElem?_replicate, bne_iff_ne] at hmem
  apply hmem
  split
  · exact UInt8.zero_and
  · exact UInt8.zero_and

/-- A cut array keeps the marks in front of the cut. -/
theorem mem_marked_take (h : pos / 8 < n) : pos ∈ marked (bits.take n) ↔ pos ∈ marked bits := by
  rw [marked, marked, Set.mem_ofPred_eq, Set.mem_ofPred_eq, testBit, testBit,
    List.getElem?_take_of_lt h]

/-- A key may be contained when its positions are marked. -/
theorem mayContain_iff_subset (h : filter.bits ≠ []) :
    filter.mayContain key = true ↔ {pos | pos ∈ filter.positions key} ⊆ marked filter.bits :=
  mayContain_iff h

/-- `add` marks the positions of the key. -/
theorem marked_add (h : filter.bits ≠ []) (key : Bytes) :
    marked (filter.add key).bits = marked filter.bits ∪ {pos | pos ∈ filter.positions key} := by
  rw [add_eq h]
  exact marked_foldl_setBit _ _ fun pos hpos => position_lt h hpos

/-- What a sequence of calls of `add` leaves as it is, and what it marks. -/
theorem foldl_add (keys : List Bytes) : ∀ filter : BloomFilter,
    (keys.foldl (fun filter key => filter.add key) filter).bits.length = filter.bits.length ∧
      (keys.foldl (fun filter key => filter.add key) filter).numHashFunctions =
        filter.numHashFunctions ∧
      (filter.bits ≠ [] →
        marked (keys.foldl (fun filter key => filter.add key) filter).bits =
          marked filter.bits ∪ {pos | ∃ key ∈ keys, pos ∈ filter.positions key}) := by
  induction keys with
  | nil =>
      intro filter
      simp
  | cons key keys ih =>
      intro filter
      obtain ⟨hlength, hhashes, hmarked⟩ := ih (filter.add key)
      rw [length_add] at hlength
      rw [numHashFunctions_add] at hhashes
      refine ⟨hlength, hhashes, fun hne => ?_⟩
      -- `add` keeps the length, so the induction hypothesis applies behind it
      have hne' : (filter.add key).bits ≠ [] := by
        rw [← List.length_pos_iff, length_add]
        exact List.length_pos_of_ne_nil hne
      rw [List.foldl_cons, hmarked hne', marked_add hne]
      ext pos
      simp only [positions_add, Set.mem_union, Set.mem_ofPred_eq, List.mem_cons,
        exists_eq_or_imp]
      rw [or_assoc]

end Marks

section Restoring

variable {filter : BloomFilter} {key : Bytes} {expectedElements bitsPerKey : UInt64}
  {keys : List Bytes}

/-- The filter with as many bytes as the 32 bits of the written length say. -/
def cut (filter : BloomFilter) : BloomFilter :=
  { filter with bits := filter.bits.take (filter.bits.length % 2 ^ 32) }

theorem length_cut (filter : BloomFilter) : filter.cut.bits.length = filter.bits.length % 2 ^ 32 := by
  rw [cut, List.length_take]
  exact Nat.min_eq_left (Nat.mod_le _ _)

/-- The length is written in 32 bits, and the bytes are written whole. -/
theorem deserialize_cut (hhashes : filter.numHashFunctions < 2 ^ 32) (rest : Bytes) :
    deserialize (filter.serialize ++ rest) =
      some (filter.cut, filter.bits.drop (filter.bits.length % 2 ^ 32) ++ rest) := by
  have hle : filter.bits.length % 2 ^ 32 ≤ filter.bits.length := Nat.mod_le _ _
  simp only [serialize, deserialize, List.append_assoc, decodes_le32 _ hhashes, readLe32_le32,
    Option.bind_eq_bind, Option.bind_some, readBytes, List.length_append]
  -- the written length is the residue, which is never more than the bytes that follow
  rw [if_neg (by omega), List.take_append_of_le_length hle, List.drop_append_of_le_length hle]
  rfl

/-- The filter that holds the keys. -/
def filled (expectedElements bitsPerKey : UInt64) (keys : List Bytes) : BloomFilter :=
  keys.foldl (fun filter key => filter.add key) (ofExpected expectedElements bitsPerKey)

theorem numBytes_lt (expectedElements bitsPerKey : UInt64) :
    numBytes expectedElements bitsPerKey < 2 ^ 61 := by
  have hlt := (expectedElements * bitsPerKey + 7).toNat_lt
  rw [numBytes, UInt64.toNat_div]
  exact Nat.div_lt_of_lt_mul hlt

theorem length_ofExpected (expectedElements bitsPerKey : UInt64) :
    (ofExpected expectedElements bitsPerKey).bits.length = numBytes expectedElements bitsPerKey :=
  List.length_replicate

theorem length_filled (expectedElements bitsPerKey : UInt64) (keys : List Bytes) :
    (filled expectedElements bitsPerKey keys).bits.length = numBytes expectedElements bitsPerKey :=
  (foldl_add keys _).1.trans (length_ofExpected _ _)

/-- The number of hashes is that of the constructor. -/
theorem getHashes_filled (expectedElements bitsPerKey : UInt64) (keys : List Bytes) (key : Bytes) :
    (filled expectedElements bitsPerKey keys).getHashes key =
      (ofExpected expectedElements bitsPerKey).getHashes key := by
  rw [filled, getHashes, getHashes, (foldl_add keys _).2.1]

theorem numHashFunctions_filled_lt (expectedElements bitsPerKey : UInt64) (keys : List Bytes) :
    (filled expectedElements bitsPerKey keys).numHashFunctions < 2 ^ 32 := by
  rw [filled, (foldl_add keys _).2.1]
  exact Nat.lt_of_le_of_lt (Nat.min_le_left _ _) (by decide)

/-- The marks are the positions of the keys. -/
theorem mem_marked_filled (hne : numBytes expectedElements bitsPerKey ≠ 0) (keys : List Bytes)
    (pos : Nat) : pos ∈ marked (filled expectedElements bitsPerKey keys).bits ↔
      ∃ key ∈ keys, ∃ hash ∈ (ofExpected expectedElements bitsPerKey).getHashes key,
        hash.toNat % (numBytes expectedElements bitsPerKey * 8) = pos := by
  have hbits : (ofExpected expectedElements bitsPerKey).bits ≠ [] := by
    rw [← List.length_pos_iff, length_ofExpected]
    exact Nat.pos_of_ne_zero hne
  rw [filled, (foldl_add keys _).2.2 hbits, ofExpected, marked_replicate, Set.empty_union]
  simp only [Set.mem_ofPred_eq, positions, List.mem_map, List.length_replicate]
  rfl

/-- The calls of `add` succeed, and all keys are found. -/
theorem build_finds (expectedElements bitsPerKey : UInt64) (keys : List Bytes) :
    build expectedElements bitsPerKey keys = some (filled expectedElements bitsPerKey keys) ∧
      (filled expectedElements bitsPerKey keys).Finds keys := by
  have hlt := numBytes_lt expectedElements bitsPerKey
  -- below `2 ^ 61` bytes the number of bits does not wrap, and `add` keeps the length
  have hadds : ∀ (keys : List Bytes) (filter : BloomFilter), filter.bits.length < 2 ^ 61 →
      keys.foldlM (fun filter key => filter.tryAdd key) filter =
        some (keys.foldl (fun filter key => filter.add key) filter) := by
    intro keys
    induction keys with
    | nil =>
        intro filter _
        rfl
    | cons key keys ih =>
        intro filter hfilter
        rw [List.foldlM_cons, tryAdd_eq hfilter, List.foldl_cons]
        exact ih _ (by rwa [length_add])
  constructor
  · exact hadds keys _ (by rwa [length_ofExpected])
  · rw [finds_iff (by rwa [length_filled])]
    intro key hkey
    -- a filter without bits answers yes to every key
    by_cases hbits : (filled expectedElements bitsPerKey keys).bits = []
    · rw [mayContain, if_pos hbits]
    · have hne : numBytes expectedElements bitsPerKey ≠ 0 := by
        rw [← length_filled _ _ keys]
        exact fun hzero => hbits (List.length_eq_zero_iff.1 hzero)
      rw [mayContain_iff_subset hbits]
      intro pos hpos
      rw [Set.mem_ofPred_eq, positions, getHashes_filled, length_filled, List.mem_map] at hpos
      exact (mem_marked_filled hne keys pos).2 ⟨key, hkey, hpos⟩

/-- Modulo the number of bits behind the cut, the hashes of the keys are hashes of the keys. -/
def HashesStay (expectedElements bitsPerKey : UInt64) (keys : List Bytes) : Prop :=
  ∀ key ∈ keys, ∀ hash ∈ (ofExpected expectedElements bitsPerKey).getHashes key,
    ∃ key' ∈ keys, ∃ hash' ∈ (ofExpected expectedElements bitsPerKey).getHashes key',
      hash'.toNat = hash.toNat % (numBytes expectedElements bitsPerKey % 2 ^ 32 * 8)

/-- An array that is cut in front of its end finds the keys whose positions are still marked. The
array had a position for every hash. -/
theorem cut_finds_iff (hlong : 2 ^ 32 ≤ numBytes expectedElements bitsPerKey)
    (hcut : numBytes expectedElements bitsPerKey % 2 ^ 32 ≠ 0) (keys : List Bytes) :
    (filled expectedElements bitsPerKey keys).cut.Finds keys ↔
      HashesStay expectedElements bitsPerKey keys := by
  have hlength := length_cut (filled expectedElements bitsPerKey keys)
  rw [length_filled] at hlength
  have hlt : numBytes expectedElements bitsPerKey % 2 ^ 32 < 2 ^ 32 := Nat.mod_lt _ (by decide)
  have hbits : (filled expectedElements bitsPerKey keys).cut.bits ≠ [] := by
    rw [← List.length_pos_iff, hlength]
    exact Nat.pos_of_ne_zero hcut
  -- with `2 ^ 32` bytes and more the modulo of the writer leaves the hashes as they are
  have hwhole : ∀ hash : UInt32,
      hash.toNat % (numBytes expectedElements bitsPerKey * 8) = hash.toNat := by
    intro hash
    have hhash := hash.toNat_lt
    exact Nat.mod_eq_of_lt (by omega)
  -- the reader asks modulo the shorter length; in front of the cut the marks are the hashes
  have hmarked : ∀ hash : UInt32,
      hash.toNat % (numBytes expectedElements bitsPerKey % 2 ^ 32 * 8) ∈
          marked (filled expectedElements bitsPerKey keys).cut.bits ↔
        ∃ key' ∈ keys, ∃ hash' ∈ (ofExpected expectedElements bitsPerKey).getHashes key',
          hash'.toNat = hash.toNat % (numBytes expectedElements bitsPerKey % 2 ^ 32 * 8) := by
    intro hash
    have hmod : hash.toNat % (numBytes expectedElements bitsPerKey % 2 ^ 32 * 8) <
        numBytes expectedElements bitsPerKey % 2 ^ 32 * 8 := Nat.mod_lt _ (by omega)
    rw [cut, length_filled, mem_marked_take (by omega), mem_marked_filled (by omega)]
    simp only [hwhole]
  rw [finds_iff (by rw [hlength]; omega)]
  apply forall₂_congr
  intro key hkey
  rw [mayContain_iff_subset hbits, Set.subset_def]
  simp only [Set.mem_ofPred_eq, positions, List.forall_mem_map, hlength, hmarked]
  rw [cut, getHashes, ← getHashes_filled _ _ keys]
  rfl

/-- For given keys, the round trip keeps them in exactly these cases. -/
theorem noFalseNegatives_keys_iff (expectedElements bitsPerKey : UInt64) (keys : List Bytes) :
    NoFalseNegatives expectedElements bitsPerKey keys ↔
      numBytes expectedElements bitsPerKey < 2 ^ 32 ∨
        numBytes expectedElements bitsPerKey % 2 ^ 32 = 0 ∨
          HashesStay expectedElements bitsPerKey keys := by
  obtain ⟨hbuild, hfinds⟩ := build_finds expectedElements bitsPerKey keys
  have hrestored := deserialize_cut (numHashFunctions_filled_lt expectedElements bitsPerKey keys)
  have hlength := length_filled expectedElements bitsPerKey keys
  -- What is to be shown is that the restored filter finds the keys.
  have hiff : NoFalseNegatives expectedElements bitsPerKey keys ↔
      (filled expectedElements bitsPerKey keys).cut.Finds keys := by
    constructor
    · rintro ⟨filter, hfilter, -, hround⟩
      rw [hbuild, Option.some.injEq] at hfilter
      subst hfilter
      obtain ⟨restored, rest', hread, hkeys⟩ := hround []
      rw [hrestored, Option.some.injEq, Prod.mk.injEq] at hread
      rw [hread.1]
      exact hkeys
    · intro hcut
      exact ⟨_, hbuild, hfinds, fun rest => ⟨_, _, hrestored rest, hcut⟩⟩
  rw [hiff]
  rcases Nat.lt_or_ge (numBytes expectedElements bitsPerKey) (2 ^ 32) with hshort | hlong
  · -- The length fits, and the restored filter is the one that was written.
    refine iff_of_true ?_ (Or.inl hshort)
    have hwhole : (filled expectedElements bitsPerKey keys).cut =
        filled expectedElements bitsPerKey keys := by
      rw [cut, hlength, Nat.mod_eq_of_lt hshort, ← hlength, List.take_length]
    rw [hwhole]
    exact hfinds
  · by_cases hzero : numBytes expectedElements bitsPerKey % 2 ^ 32 = 0
    · -- A filter without bits finds everything.
      refine iff_of_true ?_ (Or.inr (Or.inl hzero))
      have hnil : (filled expectedElements bitsPerKey keys).cut.bits = [] := by
        rw [← List.length_eq_zero_iff, length_cut, hlength, hzero]
      constructor
      · intro key
        exact ⟨true, by rw [tryMayContain, if_pos hnil]⟩
      · intro key _
        rw [tryMayContain, if_pos hnil]
    · rw [cut_finds_iff hlong hzero]
      constructor
      · intro h
        exact Or.inr (Or.inr h)
      · rintro (h | h | h)
        · exact absurd h (Nat.not_lt_of_le hlong)
        · exact absurd h hzero
        · exact h

/-- A cut array of `2 ^ 29` bytes and more has a position for every hash, too. -/
theorem hashesStay_of_le
    (hlong : 2 ^ 29 ≤ numBytes expectedElements bitsPerKey % 2 ^ 32) (keys : List Bytes) :
    HashesStay expectedElements bitsPerKey keys := by
  intro key hkey hash hhash
  refine ⟨key, hkey, hash, hhash, ?_⟩
  have hlt := hash.toNat_lt
  exact (Nat.mod_eq_of_lt (by omega)).symm

/-- A key all of whose hashes are `2 ^ 32 - 2`. -/
def farKey : Bytes := ascii "misdnfgnwnxoko"

theorem baseHashes_farKey : baseHashes farKey = (4294967294, 0) := by decide

/-- A shorter array has no place for this key. -/
theorem not_hashesStay_farKey
    (hshort : numBytes expectedElements bitsPerKey % 2 ^ 32 < 2 ^ 29)
    (hne : numBytes expectedElements bitsPerKey % 2 ^ 32 ≠ 0) :
    ¬HashesStay expectedElements bitsPerKey [farKey] := by
  -- the second base hash is 0, so all hashes of the key are the first one
  have hhashes : ∀ hash,
      hash ∈ (ofExpected expectedElements bitsPerKey).getHashes farKey → hash = 4294967294 := by
    intro hash hmem
    rw [getHashes, List.mem_map] at hmem
    obtain ⟨i, -, rfl⟩ := hmem
    rw [baseHashes_farKey, UInt32.mul_zero, UInt32.add_zero]
  have hmem : (4294967294 : UInt32) ∈ (ofExpected expectedElements bitsPerKey).getHashes farKey := by
    rw [getHashes, List.mem_map]
    refine ⟨0, List.mem_range.2 ?_, by rw [baseHashes_farKey]; rfl⟩
    exact Nat.lt_min.2 ⟨by decide, Nat.lt_of_lt_of_le Nat.zero_lt_one (Nat.le_max_left _ _)⟩
  intro hstay
  obtain ⟨key', hkey', hash', hhash', heq⟩ := hstay farKey List.mem_cons_self _ hmem
  rw [List.mem_singleton.1 hkey'] at hhash'
  rw [hhashes hash' hhash'] at heq
  -- the place that the reader asks for is below `2 ^ 32 - 8`, so it is not the hash
  have hmod := Nat.mod_lt (UInt32.toNat 4294967294)
    (show 0 < numBytes expectedElements bitsPerKey % 2 ^ 32 * 8 by omega)
  rw [← heq] at hmod
  have hfar : UInt32.toNat 4294967294 = 4294967294 := rfl
  omega

/-- **A round trip keeps all keys if and only if the length of the bit array fits 32 bits, or what
is left of it has no bits or one for every hash.** In the other cases it keeps the keys whose
hashes stay. -/
theorem noFalseNegatives_iff (expectedElements bitsPerKey : UInt64) :
    (∀ keys, NoFalseNegatives expectedElements bitsPerKey keys ↔
      numBytes expectedElements bitsPerKey < 2 ^ 32 ∨
        numBytes expectedElements bitsPerKey % 2 ^ 32 = 0 ∨
          HashesStay expectedElements bitsPerKey keys) ∧
    ((∀ keys, NoFalseNegatives expectedElements bitsPerKey keys) ↔
      numBytes expectedElements bitsPerKey < 2 ^ 32 ∨
        numBytes expectedElements bitsPerKey % 2 ^ 32 = 0 ∨
          2 ^ 29 ≤ numBytes expectedElements bitsPerKey % 2 ^ 32) := by
  refine ⟨noFalseNegatives_keys_iff expectedElements bitsPerKey, ?_⟩
  simp only [noFalseNegatives_keys_iff]
  constructor
  · intro h
    rcases h [farKey] with hshort | hzero | hstay
    · exact Or.inl hshort
    · exact Or.inr (Or.inl hzero)
    · -- the one key `farKey` refutes a length between
      by_contra hnot
      rw [not_or, not_or, not_le] at hnot
      exact not_hashesStay_farKey hnot.2.2 hnot.2.1 hstay
  · rintro (hshort | hzero | hlong) keys
    · exact Or.inl hshort
    · exact Or.inr (Or.inl hzero)
    · exact Or.inr (Or.inr (hashesStay_of_le hlong keys))

/-- With 3435973837 elements of ten bits the array has `2 ^ 32 + 1` bytes, of which one is read. -/
theorem not_noFalseNegatives_4GiB : numBytes 3435973837 10 = 2 ^ 32 + 1 ∧
    ¬NoFalseNegatives 3435973837 10 [ascii "a"] := by
  have hbytes : numBytes 3435973837 10 = 2 ^ 32 + 1 := by decide
  have hhashes : (ofExpected 3435973837 10).getHashes (ascii "a") =
      [97, 194, 291, 388, 485, 582] := by decide
  refine ⟨hbytes, ?_⟩
  rw [noFalseNegatives_keys_iff, hbytes]
  rintro (hshort | hzero | hstay)
  · exact absurd hshort (by decide)
  · exact absurd hzero (by decide)
  · -- In the byte that is left the first hash asks for position 1, which no hash has marked.
    have hfirst : (97 : UInt32) ∈ (ofExpected 3435973837 10).getHashes (ascii "a") := by
      rw [hhashes]
      exact List.mem_cons_self
    obtain ⟨key', hkey', hash', hhash', heq⟩ := hstay _ List.mem_cons_self _ hfirst
    rw [List.mem_singleton.1 hkey', hhashes] at hhash'
    have hleft : numBytes 3435973837 10 % 2 ^ 32 * 8 = 8 := by omega
    have hplace := List.mem_map_of_mem (f := UInt32.toNat) hhash'
    rw [heq, hleft] at hplace
    exact absurd hplace (by decide)

end Restoring

end BloomFilter

end EyaKV.Store
