import EyaKV.Store.SSTableFile
import EyaKV.Store.SSTable

/-!
# What is read from the file of a list of entries

The builder keeps to an invariant: the file holds the blocks that are complete, each in the index
with its first key and its place, and the rest of the entries stand in the current block (`Built`).
At the end all entries are in blocks, so loading the file finds the index, the filter and the two
keys of the list, and each data block where the index says (`Loaded`). When one `pread` can read
each block (`Readable`), the queries are those of a sorted list in blocks.
-/

set_option autoImplicit false

namespace EyaKV.Store

open EyaKV.Base EyaKV.Base.Framing EyaKV.Common

section Codecs

theorem SSTableFooter.length_serialize (footer : SSTableFooter) :
    footer.serialize.length = SSTableFooter.size := rfl

theorem SSTableFooter.decodes : Decodes SSTableFooter.Fits SSTableFooter.serialize
    SSTableFooter.deserialize := by
  intro footer h rest
  rw [SSTableFooter.serialize, SSTableFooter.deserialize]
  simp only [List.append_assoc]
  -- one field after another, in the order `serialize` writes them
  apply Decodes.andThen decodes_le64 h.indexBlockOffset
  apply Decodes.andThen decodes_le64 h.indexBlockSize
  apply Decodes.andThen decodes_le64 h.bloomFilterOffset
  apply Decodes.andThen decodes_le64 h.bloomFilterSize
  apply Decodes.andThen decodes_le64 h.dataBlockCount
  apply Decodes.andThen decodes_le64 h.entryCount
  apply Decodes.andThen decodes_le64 h.minKeyOffset
  apply Decodes.andThen decodes_le64 h.minKeySize
  apply Decodes.andThen decodes_le64 h.maxKeyOffset
  apply Decodes.andThen decodes_le64 h.maxKeySize
  apply Decodes.andThen decodes_le64 h.magic
  rfl

/-- An index entry that fits its fields. -/
structure IndexEntry.Fits (entry : IndexEntry) : Prop where
  firstKey : entry.firstKey.length < 2 ^ 32
  blockOffset : entry.blockOffset < 2 ^ 64
  blockSize : entry.blockSize < 2 ^ 64

theorem IndexEntry.decodes : Decodes IndexEntry.Fits IndexEntry.serialize
    IndexEntry.deserialize := by
  intro entry h rest
  simp only [IndexEntry.serialize, IndexEntry.deserialize, List.append_assoc,
    decodes_le32 _ h.firstKey, decodes_le64 _ h.blockOffset, decodes_le64 _ h.blockSize,
    readBytes_append, Option.bind_eq_bind, Option.bind_some, Option.pure_def]

theorem IndexEntry.serialize_ne_nil (entry : IndexEntry) : entry.serialize ≠ [] :=
  List.cons_ne_nil _ _

variable (towersOf : ZSet → Towers)

/-- The key and the encoded version of an entry fit their length prefixes. -/
def FitsEntry (entry : Bytes × EValue) : Prop :=
  entry.1.length < 2 ^ 32 ∧ (serializeEValue towersOf entry.2).length < 2 ^ 32

instance (entry : Bytes × EValue) : Decidable (FitsEntry towersOf entry) :=
  inferInstanceAs (Decidable (_ ∧ _))

/-- The bytes of a block. -/
def encodeBlock (block : BlockData) : Bytes := block.flatMap (serializeEntry towersOf)

variable {towersOf}

theorem serializeEntry_ne_nil (entry : Bytes × EValue) : serializeEntry towersOf entry ≠ [] :=
  List.cons_ne_nil _ _

theorem encodeBlock_ne_nil {block : BlockData} (h : block ≠ []) : encodeBlock towersOf block ≠ [] := by
  obtain ⟨entry, rest, rfl⟩ := List.exists_cons_of_ne_nil h
  rw [encodeBlock, List.flatMap_cons]
  exact List.append_ne_nil_of_left_ne_nil (serializeEntry_ne_nil entry) _

/-- A block is read back entry by entry. -/
theorem readEntries_encodeBlock {block : BlockData} (hfits : ∀ entry ∈ block, FitsEntry towersOf entry)
    {fuel : Nat} (hfuel : block.length ≤ fuel) :
    readEntries fuel (encodeBlock towersOf block) = some block := by
  induction block generalizing fuel with
  | nil =>
      cases fuel with
      | zero => rfl
      | succ fuel => rfl
  | cons entry block ih =>
      obtain ⟨fuel, rfl⟩ := Nat.exists_eq_add_of_le' hfuel
      obtain ⟨hkey, hvalue⟩ := hfits entry List.mem_cons_self
      have htail := ih (fun e he => hfits e (List.mem_cons_of_mem _ he)) (Nat.le_add_left _ fuel)
      have hshape : encodeBlock towersOf (entry :: block) = le32 entry.1.length ++ (entry.1 ++
          (le32 (serializeEValue towersOf entry.2).length ++ (serializeEValue towersOf entry.2 ++
            encodeBlock towersOf block))) := by
        simp only [encodeBlock, List.flatMap_cons, serializeEntry, List.append_assoc]
      have hroom : ¬(serializeEValue towersOf entry.2 ++ encodeBlock towersOf block).length <
          (serializeEValue towersOf entry.2).length := by
        rw [List.length_append]
        omega
      rw [hshape, List.length_cons, ← Nat.add_assoc, readEntries, decodes_le32 _ hkey]
      simp only [readBytes_append, decodes_le32 _ hvalue, hroom, ↓reduceIte,
        decodes_evalue towersOf entry.2 hvalue, List.drop_left, Option.bind_eq_bind, Option.bind_some,
        htail, Option.pure_def]

theorem length_le_encodeBlock (block : BlockData) :
    block.length ≤ (encodeBlock towersOf block).length :=
  length_le_flatMap _ serializeEntry_ne_nil block

end Codecs

section Building

variable (towersOf : ZSet → Towers)

/-- The first key of a block. -/
def firstKey (block : BlockData) : Bytes := (block.head?.map Prod.fst).getD []

/-- The index of blocks that stand one after the other from an offset on. -/
def indexOf : Nat → List BlockData → List IndexEntry
  | _, [] => []
  | offset, block :: rest =>
      ⟨firstKey block, offset, (encodeBlock towersOf block).length⟩ ::
        indexOf (offset + (encodeBlock towersOf block).length) rest

/-- The data blocks of a file. -/
def encodeBlocks (blocks : List BlockData) : Bytes := blocks.flatMap (encodeBlock towersOf)

variable {towersOf} {blocks : List BlockData} {block current entries : BlockData}
  {b : SSTableBuilder} {entry : Bytes × EValue} {level : UInt32}

theorem indexOf_append (offset : Nat) (blocks : List BlockData) (block : BlockData) :
    indexOf towersOf offset (blocks ++ [block]) = indexOf towersOf offset blocks ++
      [⟨firstKey block, offset + (encodeBlocks towersOf blocks).length,
        (encodeBlock towersOf block).length⟩] := by
  induction blocks generalizing offset with
  | nil => rfl
  | cons head blocks ih =>
      rw [List.cons_append, indexOf, indexOf, ih, List.cons_append, encodeBlocks, encodeBlocks,
        List.flatMap_cons, List.length_append, Nat.add_assoc]

theorem length_indexOf (offset : Nat) (blocks : List BlockData) :
    (indexOf towersOf offset blocks).length = blocks.length := by
  induction blocks generalizing offset with
  | nil => rfl
  | cons head blocks ih => rw [indexOf, List.length_cons, ih, List.length_cons]

theorem getElem?_indexOf (offset : Nat) (blocks : List BlockData) (i : Nat) :
    (indexOf towersOf offset blocks)[i]? = blocks[i]?.map fun block =>
      ⟨firstKey block, offset + (encodeBlocks towersOf (blocks.take i)).length,
        (encodeBlock towersOf block).length⟩ := by
  induction blocks generalizing offset i with
  | nil => rfl
  | cons head blocks ih =>
      cases i with
      | zero => rfl
      | succ i =>
          rw [indexOf, List.getElem?_cons_succ, List.getElem?_cons_succ, ih, List.take_succ_cons]
          simp only [encodeBlocks, List.flatMap_cons, List.length_append, Nat.add_assoc]

/-- The state of the builder after `entries`: `blocks` are written, `current` is not. -/
structure Built (towersOf : ZSet → Towers) (level : UInt32) (b : SSTableBuilder)
    (blocks : List BlockData) (current entries : BlockData) : Prop where
  level_eq : b.level = level
  entries_eq : blocks.flatten ++ current = entries
  nonempty : ∀ block ∈ blocks, block ≠ []
  file : b.file = encodeBlocks towersOf blocks
  currentOffset : b.currentOffset = (encodeBlocks towersOf blocks).length
  indexEntries : b.indexEntries = indexOf towersOf 0 blocks
  currentBlock : b.currentBlock = encodeBlock towersOf current
  firstKeyInBlock : b.firstKeyInBlock = firstKey current
  entriesInBlock : b.entriesInBlock = current.length
  entryCount : b.entryCount = entries.length
  minKey : b.minKey = firstKey entries
  maxKey : b.maxKey = (entries.getLast?.map Prod.fst).getD []
  bloomFilter : ∀ entry ∈ entries, ∃ filter, b.bloomFilter = some filter ∧
    filter.mayContain entry.1 = true
  bloomSize : ∀ filter, b.bloomFilter = some filter →
    filter.bits.length = 12500 ∧ filter.numHashFunctions = 6

theorem built_new (level : UInt32) (blockSize : Nat) :
    Built towersOf level { level := level, blockSize := blockSize } [] [] [] where
  level_eq := rfl
  entries_eq := rfl
  nonempty _ h := absurd h List.not_mem_nil
  file := rfl
  currentOffset := rfl
  indexEntries := rfl
  currentBlock := rfl
  firstKeyInBlock := rfl
  entriesInBlock := rfl
  entryCount := rfl
  minKey := rfl
  maxKey := rfl
  bloomFilter _ h := absurd h List.not_mem_nil
  bloomSize _ h := by cases h

theorem Built.flushBlock (h : Built towersOf level b blocks current entries) :
    ∃ blocks', Built towersOf level b.flushBlock blocks' [] entries := by
  by_cases hempty : current = []
  · subst hempty
    refine ⟨blocks, ?_⟩
    have hnil : b.currentBlock = [] := h.currentBlock
    rw [SSTableBuilder.flushBlock, if_pos hnil]
    exact h
  · refine ⟨blocks ++ [current], ?_⟩
    have hne : ¬b.currentBlock = [] := by
      rw [h.currentBlock]
      exact encodeBlock_ne_nil hempty
    rw [SSTableBuilder.flushBlock, if_neg hne]
    have hdata : encodeBlocks towersOf (blocks ++ [current]) =
        encodeBlocks towersOf blocks ++ encodeBlock towersOf current := by
      rw [encodeBlocks, List.flatMap_append, List.flatMap_singleton, encodeBlocks]
    refine ⟨h.level_eq, ?_, ?_, ?_, ?_, ?_, rfl, rfl, rfl, h.entryCount, h.minKey, h.maxKey, h.bloomFilter,
      h.bloomSize⟩
    · rw [List.flatten_append, List.flatten_singleton, List.append_nil, h.entries_eq]
    · intro block hblock
      rcases List.mem_append.1 hblock with hblock | hblock
      · exact h.nonempty block hblock
      · rw [List.mem_singleton.1 hblock]
        exact hempty
    · rw [hdata, ← h.file, ← h.currentBlock]
    · rw [hdata, List.length_append, ← h.currentOffset, ← h.currentBlock]
    · rw [indexOf_append, ← h.indexEntries, Nat.zero_add, ← h.currentOffset, ← h.currentBlock,
        ← h.firstKeyInBlock]

theorem firstKey_append (l : BlockData) (entry : Bytes × EValue) :
    firstKey (l ++ [entry]) = if l.length = 0 then entry.1 else firstKey l := by
  cases l with
  | nil => rfl
  | cons head l => rfl

theorem Built.append (h : Built towersOf level b blocks current entries) (entry : Bytes × EValue) :
    Built towersOf level (b.append towersOf entry) blocks (current ++ [entry]) (entries ++ [entry]) := by
  have hbits : ∀ filter : BloomFilter, filter.bits.length = 12500 → filter.bits ≠ [] := by
    intro filter hlength hnil
    rw [hnil] at hlength
    cases hlength
  -- The filter before the entry; the first entry brings a new one.
  have hold : (b.bloomFilter.getD (BloomFilter.ofExpected 10000)).bits.length = 12500 ∧
      (b.bloomFilter.getD (BloomFilter.ofExpected 10000)).numHashFunctions = 6 := by
    cases hfilter : b.bloomFilter with
    | none => exact ⟨List.length_replicate, rfl⟩
    | some filter => exact h.bloomSize filter hfilter
  refine ⟨h.level_eq, ?_, h.nonempty, h.file, h.currentOffset, h.indexEntries, ?_, ?_, ?_, ?_, ?_, ?_, ?_, ?_⟩
  · rw [← List.append_assoc, h.entries_eq]
  · rw [encodeBlock, List.flatMap_append, List.flatMap_singleton]
    exact congrArg (· ++ _) h.currentBlock
  · rw [firstKey_append, ← h.entriesInBlock, ← h.firstKeyInBlock]
    rfl
  · rw [List.length_append]
    exact congrArg (· + 1) h.entriesInBlock
  · rw [List.length_append]
    exact congrArg (· + 1) h.entryCount
  · rw [firstKey_append, ← h.entryCount, ← h.minKey]
    rfl
  · rw [List.getLast?_concat]
    rfl
  · intro e he
    refine ⟨_, rfl, ?_⟩
    rcases List.mem_append.1 he with he | he
    · obtain ⟨filter, hfilter, hcontains⟩ := h.bloomFilter e he
      rw [hfilter, Option.getD_some]
      exact BloomFilter.mayContain_add (hbits filter (h.bloomSize filter hfilter).1) hcontains
    · rw [List.mem_singleton.1 he]
      exact BloomFilter.mayContain_add_self (hbits _ hold.1)
  · rintro filter hfilter
    obtain rfl := Option.some.inj hfilter
    rw [BloomFilter.length_add, BloomFilter.numHashFunctions_add]
    exact hold

/-- The sizes of the blocks that entries of these sizes are cut into, when the current block has
`current` bytes: a block ends with the entry with which it reaches the block size. -/
def blockSizes (blockSize : Nat) : Nat → List Nat → List Nat
  | current, [] => if current = 0 then [] else [current]
  | current, size :: rest =>
      if blockSize ≤ current + size then (current + size) :: blockSizes blockSize 0 rest
      else blockSizes blockSize (current + size) rest

/-- The sizes of the entries in the file. -/
def entrySizes (towersOf : ZSet → Towers) (entries : BlockData) : List Nat :=
  entries.map fun entry => (serializeEntry towersOf entry).length

theorem flushBlock_sizes (b : SSTableBuilder) :
    b.flushBlock.indexEntries.map IndexEntry.blockSize =
      b.indexEntries.map IndexEntry.blockSize ++ blockSizes b.blockSize b.currentBlock.length [] := by
  simp only [SSTableBuilder.flushBlock, blockSizes, List.length_eq_zero_iff]
  split
  · rw [List.append_nil]
  · rw [List.map_append]
    rfl

/-- The builder cuts the entries as `blockSizes` says. -/
theorem finish_sizes (entries : BlockData) : ∀ b : SSTableBuilder,
    (entries.foldl (SSTableBuilder.add towersOf) b).flushBlock.indexEntries.map
        IndexEntry.blockSize =
      b.indexEntries.map IndexEntry.blockSize ++
        blockSizes b.blockSize b.currentBlock.length (entrySizes towersOf entries) := by
  induction entries with
  | nil => exact flushBlock_sizes
  | cons entry entries ih =>
      intro b
      have hsize : (b.append towersOf entry).currentBlock.length =
          b.currentBlock.length + (serializeEntry towersOf entry).length := List.length_append
      have hne : (b.append towersOf entry).currentBlock ≠ [] :=
        List.append_ne_nil_of_right_ne_nil _ (serializeEntry_ne_nil entry)
      have hcons : entrySizes towersOf (entry :: entries) =
          (serializeEntry towersOf entry).length :: entrySizes towersOf entries := rfl
      rw [List.foldl_cons, ih, hcons, blockSizes, SSTableBuilder.add]
      have hblock : (b.append towersOf entry).blockSize = b.blockSize := rfl
      have hindex : (b.append towersOf entry).indexEntries = b.indexEntries := rfl
      by_cases hfull : b.blockSize ≤
          b.currentBlock.length + (serializeEntry towersOf entry).length
      · -- the entry completes a block
        simp only [hblock, hsize, hfull, ↓reduceIte, SSTableBuilder.flushBlock, hne, hindex,
          List.map_append, List.map_cons, List.map_nil, List.append_assoc, List.cons_append,
          List.nil_append, List.length_nil]
      · simp only [hblock, hsize, hfull, ↓reduceIte, hindex]

theorem Built.add (h : Built towersOf level b blocks current entries) (entry : Bytes × EValue) :
    ∃ blocks' current',
      Built towersOf level (b.add towersOf entry) blocks' current' (entries ++ [entry]) := by
  have happend := h.append entry
  rw [SSTableBuilder.add]
  by_cases hfull : (b.append towersOf entry).blockSize ≤ (b.append towersOf entry).currentBlock.length
  · obtain ⟨blocks', hflushed⟩ := happend.flushBlock
    refine ⟨blocks', [], ?_⟩
    simp only [hfull, ↓reduceIte]
    exact hflushed
  · refine ⟨blocks, current ++ [entry], ?_⟩
    simp only [hfull, ↓reduceIte]
    exact happend

theorem Built.adds (h : Built towersOf level b blocks current entries) (more : BlockData) :
    ∃ blocks' current',
      Built towersOf level (more.foldl (SSTableBuilder.add towersOf) b) blocks' current'
        (entries ++ more) := by
  induction more generalizing b blocks current entries with
  | nil => exact ⟨blocks, current, by rw [List.append_nil]; exact h⟩
  | cons entry more ih =>
      obtain ⟨blocks', current', hadd⟩ := h.add entry
      obtain ⟨blocks'', current'', hall⟩ := ih hadd
      refine ⟨blocks'', current'', ?_⟩
      rw [List.append_assoc] at hall
      exact hall

end Building

section Loading

variable {towersOf : ZSet → Towers} {blocks : List BlockData} {entries : BlockData}
  {b : SSTableBuilder} {level : UInt32}

theorem readAt_eq {file data : Bytes} (front back : Bytes) (hfile : file = front ++ (data ++ back))
    {offset size : Nat} (hoffset : offset = front.length) (hsize : size = data.length) :
    readAt file offset size = some data := by
  subst hfile hoffset hsize
  rw [readAt, List.drop_left, List.take_left]
  exact if_pos rfl

/-- One `pread` reads what it can move at once. -/
theorem preadExact_eq {file data : Bytes} (front back : Bytes)
    (hfile : file = front ++ (data ++ back)) {offset size : Nat} (hoffset : offset = front.length)
    (hsize : size = data.length) (hmax : size ≤ preadMax) :
    preadExact file offset size = some data := by
  rw [preadExact, if_pos hmax]
  exact readAt_eq front back hfile hoffset hsize

theorem readKey_eq {file data : Bytes} (front back : Bytes)
    (hfile : file = front ++ (data ++ back)) {offset : Nat} (hoffset : offset = front.length) :
    readKey file offset data.length = some data := by
  rw [readKey]
  by_cases hpos : 0 < data.length
  · rw [if_pos hpos, readAt_eq front back hfile hoffset rfl]
  · rw [if_neg hpos, List.eq_nil_of_length_eq_zero (Nat.eq_zero_of_not_pos hpos)]

namespace SSTableBuilder

theorem length_writeFooter (hoffset : b.currentOffset = b.file.length) :
    b.writeFooter.length = b.currentOffset + b.indexData.length + b.bloomData.length +
      b.minKey.length + b.maxKey.length + (SSTableFooter.size + 4) := by
  simp only [writeFooter, List.length_append, SSTableFooter.length_serialize, length_le32, hoffset]
  omega

theorem readAt_level : readAt b.writeFooter (b.writeFooter.length - 4) 4 =
    some (le32 b.level.toNat) := by
  refine readAt_eq (b.file ++ (b.indexData ++ (b.bloomData ++ (b.minKey ++ (b.maxKey ++
    b.footer.serialize))))) [] ?_ ?_ rfl
  · simp only [writeFooter, List.append_assoc, List.append_nil]
  · simp only [writeFooter, List.length_append, length_le32]
    omega

theorem readAt_footer : readAt b.writeFooter (b.writeFooter.length - 4 - SSTableFooter.size)
    SSTableFooter.size = some b.footer.serialize := by
  refine readAt_eq (b.file ++ (b.indexData ++ (b.bloomData ++ (b.minKey ++ b.maxKey))))
    (le32 b.level.toNat) ?_ ?_ rfl
  · simp only [writeFooter, List.append_assoc]
  · simp only [writeFooter, List.length_append, length_le32, SSTableFooter.length_serialize]
    omega

theorem readKey_minKey (hoffset : b.currentOffset = b.file.length) :
    readKey b.writeFooter b.footer.minKeyOffset b.footer.minKeySize = some b.minKey := by
  refine readKey_eq (b.file ++ (b.indexData ++ b.bloomData))
    (b.maxKey ++ (b.footer.serialize ++ le32 b.level.toNat)) ?_ ?_
  · simp only [writeFooter, List.append_assoc]
  · simp only [footer, hoffset, List.length_append, Nat.add_assoc]

theorem readKey_maxKey (hoffset : b.currentOffset = b.file.length) :
    readKey b.writeFooter b.footer.maxKeyOffset b.footer.maxKeySize = some b.maxKey := by
  refine readKey_eq (b.file ++ (b.indexData ++ (b.bloomData ++ b.minKey)))
    (b.footer.serialize ++ le32 b.level.toNat) ?_ ?_
  · simp only [writeFooter, List.append_assoc]
  · simp only [footer, hoffset, List.length_append, Nat.add_assoc]

theorem readAt_index (hoffset : b.currentOffset = b.file.length) :
    readAt b.writeFooter b.footer.indexBlockOffset b.footer.indexBlockSize = some b.indexData :=
  readAt_eq b.file _ rfl hoffset rfl

theorem readAt_bloom (hoffset : b.currentOffset = b.file.length) :
    readAt b.writeFooter b.footer.bloomFilterOffset b.footer.bloomFilterSize = some b.bloomData := by
  refine readAt_eq (b.file ++ b.indexData)
    (b.minKey ++ (b.maxKey ++ (b.footer.serialize ++ le32 b.level.toNat))) ?_ ?_ rfl
  · simp only [writeFooter, List.append_assoc]
  · simp only [footer, hoffset, List.length_append]

/-- The table that loading the file gives. -/
def table (b : SSTableBuilder) (filter : BloomFilter) (stem : Bytes) : SSTableFile where
  file := b.writeFooter
  index := b.indexEntries
  bloomFilter := filter
  metadata :=
    { minKey := b.minKey
      maxKey := b.maxKey
      fileSize := b.writeFooter.length
      entryCount := b.entryCount
      level := b.level.toNat
      sequenceNumber := match stoull stem with
        | .ok number => number.toNat
        | .error _ => 0 }

/-- A file whose parts fit their fields is loaded. -/
theorem load_writeFooter_of_fits (stem : Bytes) (hoffset : b.currentOffset = b.file.length)
    {filter : BloomFilter} (hfilter : b.bloomFilter = some filter)
    (hbits : filter.bits.length < 2 ^ 32) (hhashes : filter.numHashFunctions < 2 ^ 32)
    (hindex : ∀ entry ∈ b.indexEntries, entry.Fits) (hfooter : b.footer.Fits) :
    SSTableFile.load stem b.writeFooter = some (b.table filter stem) := by
  have hparsed : untilEnd IndexEntry.deserialize b.indexData.length b.indexData =
      some b.indexEntries :=
    IndexEntry.decodes.untilEnd IndexEntry.serialize_ne_nil b.indexEntries hindex
      (length_le_flatMap _ IndexEntry.serialize_ne_nil b.indexEntries)
  have hfilterRead : BloomFilter.deserialize b.bloomData = some (filter, []) := by
    have hread := BloomFilter.deserialize_serialize hbits hhashes []
    rw [List.append_nil] at hread
    rw [bloomData, hfilter]
    exact hread
  have hfooterRead : SSTableFooter.deserialize b.footer.serialize = some (b.footer, []) := by
    have hread := SSTableFooter.decodes b.footer hfooter []
    rwa [List.append_nil] at hread
  have hlevelRead : readLe32 (le32 b.level.toNat) = some (b.level.toNat, []) := by
    have hread := decodes_le32 b.level.toNat b.level.toNat_lt []
    rwa [List.append_nil] at hread
  have hlong : ¬b.writeFooter.length < SSTableFooter.size + 4 := by
    rw [length_writeFooter hoffset]
    omega
  have hmagic : b.footer.magic = SSTableFooter.magicNumber := rfl
  simp only [SSTableFile.load, hlong, ↓reduceIte, readAt_level, hlevelRead, readAt_footer,
    hfooterRead, hmagic, readKey_minKey hoffset, readKey_maxKey hoffset, readAt_index hoffset, hparsed,
    readAt_bloom hoffset, hfilterRead, ne_eq, not_true_eq_false, Option.bind_eq_bind,
    Option.bind_some, Option.pure_def]
  rfl

end SSTableBuilder

/-- What `load` gets from the file of `entries`, which stand in `blocks`. -/
structure Loaded (towersOf : ZSet → Towers) (t : SSTableFile) (blocks : List BlockData)
    (entries : BlockData) (level : UInt32) : Prop where
  entries_eq : blocks.flatten = entries
  nonempty : ∀ block ∈ blocks, block ≠ []
  file : encodeBlocks towersOf blocks <+: t.file
  index : t.index = indexOf towersOf 0 blocks
  bloomFilter : ∀ entry ∈ entries, t.bloomFilter.mayContain entry.1 = true
  minKey : t.metadata.minKey = firstKey entries
  maxKey : t.metadata.maxKey = (entries.getLast?.map Prod.fst).getD []
  entryCount : t.metadata.entryCount = entries.length
  level_eq : t.metadata.level = level.toNat

theorem length_encodeBlocks_le (blocks : List BlockData) :
    blocks.flatten.length ≤ (encodeBlocks towersOf blocks).length := by
  induction blocks with
  | nil => exact Nat.le_refl 0
  | cons block blocks ih =>
      rw [List.flatten_cons, List.length_append, encodeBlocks, List.flatMap_cons, List.length_append]
      exact Nat.add_le_add (length_le_encodeBlock block) ih

theorem mem_indexOf {offset : Nat} {entry : IndexEntry} (h : entry ∈ indexOf towersOf offset blocks) :
    ∃ block ∈ blocks, entry.firstKey = firstKey block ∧
      entry.blockOffset + entry.blockSize ≤ offset + (encodeBlocks towersOf blocks).length := by
  induction blocks generalizing offset with
  | nil => cases h
  | cons block blocks ih =>
      rw [encodeBlocks, List.flatMap_cons, List.length_append]
      rcases List.mem_cons.1 h with rfl | h
      · refine ⟨block, List.mem_cons_self, rfl, ?_⟩
        simp only []
        omega
      · obtain ⟨found, hfound, hfirst, hle⟩ := ih h
        refine ⟨found, List.mem_cons_of_mem _ hfound, hfirst, ?_⟩
        rw [encodeBlocks] at hle
        omega

theorem firstKey_mem {block : BlockData} (h : block ≠ []) :
    ∃ entry ∈ block, firstKey block = entry.1 := by
  obtain ⟨entry, rest, rfl⟩ := List.exists_cons_of_ne_nil h
  exact ⟨entry, List.mem_cons_self, rfl⟩

theorem Built.index_fits (h : Built towersOf level b blocks [] entries)
    (hfits : ∀ entry ∈ entries, FitsEntry towersOf entry) (hsize : b.writeFooter.length < 2 ^ 64) :
    ∀ entry ∈ b.indexEntries, entry.Fits := by
  intro entry hentry
  have hentries : blocks.flatten = entries := by rw [← h.entries_eq, List.append_nil]
  rw [SSTableBuilder.length_writeFooter (by rw [h.currentOffset, h.file])] at hsize
  rw [h.indexEntries] at hentry
  obtain ⟨block, hblock, hkey, hle⟩ := mem_indexOf hentry
  obtain ⟨e, he, hfirstKey⟩ := firstKey_mem (h.nonempty block hblock)
  rw [← h.currentOffset] at hle
  refine ⟨?_, by omega, by omega⟩
  rw [hkey, hfirstKey]
  exact (hfits e (hentries ▸ List.mem_flatten.2 ⟨block, hblock, he⟩)).1

theorem Built.footer_fits (h : Built towersOf level b blocks [] entries)
    (hsize : b.writeFooter.length < 2 ^ 64) : b.footer.Fits := by
  have hentries : blocks.flatten = entries := by rw [← h.entries_eq, List.append_nil]
  rw [SSTableBuilder.length_writeFooter (by rw [h.currentOffset, h.file])] at hsize
  have hcount : b.entryCount ≤ b.currentOffset := by
    rw [h.entryCount, h.currentOffset, ← hentries]
    exact length_encodeBlocks_le blocks
  have hblocks : b.indexEntries.length ≤ b.indexData.length :=
    length_le_flatMap _ IndexEntry.serialize_ne_nil b.indexEntries
  constructor
  all_goals
    simp only [SSTableBuilder.footer, SSTableFooter.magicNumber]
    omega

/-- Loading a complete file. -/
theorem load_writeFooter (stem : Bytes) (h : Built towersOf level b blocks [] entries)
    (hne : entries ≠ []) (hfits : ∀ entry ∈ entries, FitsEntry towersOf entry)
    (hsize : b.writeFooter.length < 2 ^ 64) :
    ∃ t, SSTableFile.load stem b.writeFooter = some t ∧ Loaded towersOf t blocks entries level := by
  obtain ⟨first, hfirst⟩ := List.exists_mem_of_ne_nil entries hne
  obtain ⟨filter, hfilter, -⟩ := h.bloomFilter first hfirst
  obtain ⟨hbits, hhashes⟩ := h.bloomSize filter hfilter
  have hoffset : b.currentOffset = b.file.length := by rw [h.currentOffset, h.file]
  refine ⟨b.table filter stem, SSTableBuilder.load_writeFooter_of_fits stem hoffset hfilter
    (by omega) (by omega) (h.index_fits hfits hsize) (h.footer_fits hsize), ?_⟩
  refine ⟨by rw [← h.entries_eq, List.append_nil], h.nonempty, ?_, h.indexEntries, ?_,
    h.minKey, h.maxKey, h.entryCount, congrArg UInt32.toNat h.level_eq⟩
  · rw [← h.file]
    exact List.prefix_append _ _
  · intro e he
    obtain ⟨f, hf, hcontains⟩ := h.bloomFilter e he
    rw [hfilter] at hf
    rw [← Option.some.inj hf] at hcontains
    exact hcontains

end Loading

section Queries

namespace SSTableFile

/-- The block that stands in the file, read without the cache. -/
def diskBlock (t : SSTableFile) (i : Nat) : Option BlockData :=
  match t.index[i]? with
  | none => some []
  | some idx =>
      match preadExact t.file idx.blockOffset idx.blockSize with
      | none => some []
      | some data => readEntries data.length data

/-- What the cache holds under the keys of this file are its blocks. -/
def Cached (t : SSTableFile) : Option BlockCache → Prop
  | none => True
  | some c => ∀ i block, (t.cacheKey i, block) ∈ c.items → t.diskBlock i = some block

/-- Whatever blocks of the file are cached, the query returns `a` and leaves such a cache. -/
def Returns {α : Type} (t : SSTableFile) (query : BlockReads α) (a : α) : Prop :=
  ∀ cache, t.Cached cache → ∃ cache', query cache = some (a, cache') ∧ t.Cached cache'

variable {α β : Type} {t : SSTableFile}

theorem Returns.pure (a : α) : t.Returns (pure a) a := fun cache h => ⟨cache, rfl, h⟩

theorem Returns.bind {query : BlockReads α} {next : α → BlockReads β} {a : α} {b : β}
    (h : t.Returns query a) (hnext : t.Returns (next a) b) : t.Returns (query >>= next) b := by
  intro cache hcache
  obtain ⟨cache', hquery, hcache'⟩ := h cache hcache
  obtain ⟨cache'', hrest, hcache''⟩ := hnext cache' hcache'
  refine ⟨cache'', ?_, hcache''⟩
  have hbind : (query >>= next) cache = (query cache).bind fun r => next r.1 r.2 := rfl
  rw [hbind, hquery]
  exact hrest

theorem Returns.unique {query : BlockReads α} {a b : α} (ha : t.Returns query a)
    (hb : t.Returns query b) : a = b := by
  obtain ⟨c, hc, -⟩ := ha none trivial
  obtain ⟨d, hd, -⟩ := hb none trivial
  rw [hc] at hd
  exact (Prod.mk.inj (Option.some.inj hd)).1

/-- Different blocks have different cache keys. -/
theorem cacheKey_inj {i j : Nat} (h : t.cacheKey i = t.cacheKey j) : i = j := by
  have hdecimal := List.append_cancel_left h
  have hparse := congrArg leadingDigits hdecimal
  rw [leadingDigits_decimal, leadingDigits_decimal] at hparse
  exact Option.some.inj hparse

/-- A block is read from the cache or from the file. -/
theorem returns_readDataBlock {i : Nat} {block : BlockData} (h : t.diskBlock i = some block) :
    t.Returns (t.readDataBlock i) block := by
  intro cache hcache
  rw [readDataBlock]
  rw [diskBlock] at h
  -- behind the index the block is empty; otherwise with and without a cache, hit and miss
  cases hidx : t.index[i]? with
  | none =>
      rw [hidx] at h
      obtain rfl := Option.some.inj h
      exact ⟨cache, rfl, hcache⟩
  | some idx =>
      rw [hidx] at h
      cases cache with
      | none =>
          cases hread : preadExact t.file idx.blockOffset idx.blockSize with
          | none =>
              simp only [hread] at h
              obtain rfl := Option.some.inj h
              exact ⟨none, by simp only [Option.bind_none, hread], trivial⟩
          | some data =>
              simp only [hread] at h
              refine ⟨none, ?_, trivial⟩
              simp only [Option.bind_none, hread, h, Option.bind_eq_bind, Option.bind_some,
                Option.pure_def, Option.map_none]
      | some c =>
          cases hget : (c.get (t.cacheKey i)).1 with
          | some cached =>
              -- what is cached under the key of the block is the block
              have hmem := hcache i cached (LRUCache.mem_of_get hget)
              rw [diskBlock, hidx] at hmem
              have heq : cached = block := Option.some.inj (hmem.symm.trans h)
              subst heq
              refine ⟨some (c.get (t.cacheKey i)).2, ?_, fun j block hj => ?_⟩
              · simp only [Option.bind_some, hget, Option.map_some]
              · exact hcache j block (LRUCache.mem_get hj)
          | none =>
              cases hread : preadExact t.file idx.blockOffset idx.blockSize with
              | none =>
                  simp only [hread] at h
                  obtain rfl := Option.some.inj h
                  exact ⟨some c, by simp only [Option.bind_some, hget, hread], hcache⟩
              | some data =>
                  simp only [hread] at h
                  refine ⟨some (c.put (t.cacheKey i) block), ?_, fun j other hj => ?_⟩
                  · simp only [Option.bind_some, hget, hread, h, Option.bind_eq_bind,
                      Option.pure_def, Option.map_some]
                  · -- the new entry is the block just read, and the others were there before
                    rcases LRUCache.mem_put hj with heq | hj
                    · obtain ⟨hkey, rfl⟩ := Prod.mk.inj heq
                      obtain rfl := cacheKey_inj hkey
                      rw [diskBlock, hidx]
                      simp only [hread, h]
                    · exact hcache j other hj

end SSTableFile

variable {towersOf : ZSet → Towers} {t : SSTableFile} {blocks : List BlockData}
  {entries : BlockData} {level : UInt32}

/-- Every block can be read at once. -/
def Readable (towersOf : ZSet → Towers) (blocks : List BlockData) : Prop :=
  ∀ block ∈ blocks, (encodeBlock towersOf block).length ≤ preadMax

/-- The blocks stand in the file as the index says. -/
theorem Loaded.diskBlock (h : Loaded towersOf t blocks entries level)
    (hfits : ∀ entry ∈ entries, FitsEntry towersOf entry) (hread : Readable towersOf blocks)
    (i : Nat) :
    t.diskBlock i = some (blocks[i]?.getD []) := by
  rw [SSTableFile.diskBlock, h.index, getElem?_indexOf]
  cases hblock : blocks[i]? with
  | none => rfl
  | some block =>
      obtain ⟨rest, hrest⟩ := h.file
      have hmem := List.mem_of_getElem? hblock
      have hsplit : encodeBlocks towersOf blocks = encodeBlocks towersOf (blocks.take i) ++
          (encodeBlock towersOf block ++ encodeBlocks towersOf (blocks.drop (i + 1))) := by
        obtain ⟨hi, rfl⟩ := List.getElem?_eq_some_iff.1 hblock
        rw [encodeBlocks, encodeBlocks, encodeBlocks, ← List.flatMap_cons,
          ← List.drop_eq_getElem_cons hi, ← List.flatMap_append, List.take_append_drop]
      have hdata : preadExact t.file (0 + (encodeBlocks towersOf (blocks.take i)).length)
          (encodeBlock towersOf block).length = some (encodeBlock towersOf block) := by
        refine preadExact_eq _ (encodeBlocks towersOf (blocks.drop (i + 1)) ++ rest) ?_
          (Nat.zero_add _) rfl (hread block hmem)
        rw [← hrest, hsplit, List.append_assoc, List.append_assoc]
      simp only [Option.map_some, hdata, Option.getD_some]
      refine readEntries_encodeBlock (fun entry hentry => ?_) (length_le_encodeBlock block)
      refine hfits entry ?_
      rw [← h.entries_eq]
      exact List.mem_flatten.2 ⟨block, hmem, hentry⟩

theorem firstKey_of_head? {block : BlockData} {first : Bytes × EValue}
    (h : block.head? = some first) : firstKey block = first.1 := by
  rw [firstKey, h]
  rfl

/-- The search of the index finds the block that locates the key. -/
theorem Loaded.locates (h : Loaded towersOf t blocks entries level)
    (hsorted : Blocked Prod.fst blocks) (key : Bytes) :
    Locates Prod.fst blocks key (t.findBlockIndex key) := by
  have hhead : ∀ block ∈ blocks, ∃ first, block.head? = some first :=
    fun block hblock => by
      obtain ⟨first, rest, rfl⟩ := List.exists_cons_of_ne_nil (hsorted.nonempty block hblock)
      exact ⟨first, rfl⟩
  let below : Nat → Bool := fun mid => ((indexOf towersOf 0 blocks)[mid]?.map fun entry =>
    decide (entry.firstKey ≤ key)).getD false
  have hbelow : ∀ j block first, blocks[j]? = some block → block.head? = some first →
      below j = decide (first.1 ≤ key) := by
    intro j block first hj hfirst
    simp only [below, getElem?_indexOf, hj, Option.map_some, Option.getD_some,
      firstKey_of_head? hfirst]
  -- the first keys ascend, so the test of the binary search holds up to a point
  have hmono : ∀ i j, i ≤ j → j < (indexOf towersOf 0 blocks).length → below j = true →
      below i = true := by
    intro i j hij hj hbelowj
    rw [length_indexOf] at hj
    have hi := List.getElem?_eq_getElem (show i < blocks.length by omega)
    have hj' := List.getElem?_eq_getElem hj
    obtain ⟨first, hfirst⟩ := hhead _ (List.mem_of_getElem? hi)
    obtain ⟨first', hfirst'⟩ := hhead _ (List.mem_of_getElem? hj')
    rw [hbelow i _ _ hi hfirst]
    rw [hbelow j _ _ hj' hfirst'] at hbelowj
    exact decide_eq_true (le_trans (hsorted.first_le_first hij hi hj' hfirst hfirst')
      (of_decide_eq_true hbelowj))
  obtain ⟨-, hto, hbefore, hbehind⟩ := partitionPoint_spec (p := below) (Nat.zero_le _) hmono
  -- `find_block_index` searches for that point and steps back by one
  have hindex : t.findBlockIndex key = partitionPoint below 0 (indexOf towersOf 0 blocks).length - 1 := by
    rw [SSTableFile.findBlockIndex, h.index]
    split
    · next hnil =>
        rw [hnil, List.length_nil, partitionPoint_of_not_lt (by decide)]
    · have hpred : ∀ n : Nat, (if 0 < n then n - 1 else 0) = n - 1 := by
        intro n
        split
        · rfl
        · omega
      exact hpred _
  rw [hindex]
  rw [length_indexOf] at hto hbefore hbehind ⊢
  refine hsorted.locates hto (fun j hj block hblock => ?_) fun j hj block hblock => ?_
  · obtain ⟨first, hfirst⟩ := hhead block (List.mem_of_getElem? hblock)
    have hpass := hbefore j (Nat.zero_le _) hj
    rw [hbelow j block first hblock hfirst] at hpass
    exact ⟨first, hfirst, of_decide_eq_true hpass⟩
  · obtain ⟨first, hfirst⟩ := hhead block (List.mem_of_getElem? hblock)
    obtain ⟨hlt, -⟩ := List.getElem?_eq_some_iff.1 hblock
    have hfail := hbehind j hj hlt
    rw [hbelow j block first hblock hfirst] at hfail
    exact ⟨first, hfirst, lt_of_not_ge (of_decide_eq_false hfail)⟩

theorem lookup_eq_find? (entries : BlockData) (key : Bytes) :
    entries.lookup key = (entries.find? fun entry => entry.1 = key).map Prod.snd := by
  induction entries with
  | nil => rfl
  | cons entry entries ih =>
      rw [List.lookup_cons, List.find?_cons]
      by_cases heq : entry.1 = key
      · subst heq
        simp only [beq_self_eq_true, decide_true, Option.map_some]
      · have hne : (key == entry.1) = false := beq_eq_false_iff_ne.2 (Ne.symm heq)
        simp only [hne, heq, decide_false, ih]

/-- The search of a sorted block is a lookup. -/
theorem searchInBlock_eq {block : BlockData} (h : Ascending Prod.fst block) (key : Bytes) :
    searchInBlock block key = (block.find? fun entry => entry.1 = key).map Prod.snd := by
  induction block with
  | nil => rfl
  | cons entry block ih =>
      obtain ⟨hhead, htail⟩ := List.pairwise_cons.1 h
      rw [searchInBlock, List.find?_cons, List.find?_cons]
      rcases lt_trichotomy entry.1 key with hlt | rfl | hgt
      · simp only [hlt, decide_true, Bool.not_true, ne_of_lt hlt, decide_false]
        exact ih htail
      · simp only [lt_irrefl, decide_false, Bool.not_false, ↓reduceIte, decide_true, Option.map_some]
      · have hbehind : block.find? (fun entry => decide (entry.1 = key)) = none := by
          refine List.find?_eq_none.2 fun e he heq => ?_
          exact ne_of_gt (lt_trans hgt (hhead e he)) (of_decide_eq_true heq)
        simp only [not_lt_of_gt hgt, decide_false, Bool.not_false, ne_of_gt hgt, ↓reduceIte, hbehind,
          Option.map_none]

theorem visit_append {α σ : Type} (callback : σ → α → Bool × σ) (s : σ) (l l' : List α) :
    visit callback s (l ++ l') = if (visit callback s l).1 then visit callback (visit callback s l).2 l'
      else visit callback s l := by
  induction l generalizing s with
  | nil => rfl
  | cons a l ih =>
      rw [List.cons_append, visit, visit]
      cases hcall : callback s a with
      | mk goOn s' =>
          cases goOn with
          | true => exact ih s'
          | false => rfl

/-- The queries of the table are those of the list of entries. -/
structure SSTableFile.Holds (t : SSTableFile) (entries : BlockData) (level : UInt32) : Prop where
  get : ∀ key, t.Returns (t.get key) (entries.lookup key)
  forEach : ∀ {σ : Type} (callback : σ → Bytes × EValue → Bool × σ) (s : σ),
    t.Returns (t.forEach callback s) (visit callback s entries).2
  range : ∀ startKey endKey, t.Returns (t.range startKey endKey)
    (entries.filter fun entry => startKey ≤ entry.1 ∧ entry.1 ≤ endKey)
  rangeMap : ∀ startKey endKey, ∃ result, t.Returns (t.rangeMap startKey endKey) result ∧
    result.toList = entries.filter fun entry => startKey ≤ entry.1 ∧ entry.1 ≤ endKey
  minKey : entries.head?.map Prod.fst = some t.metadata.minKey
  maxKey : entries.getLast?.map Prod.fst = some t.metadata.maxKey
  entryCount : t.metadata.entryCount = entries.length
  level : t.metadata.level = level.toNat

namespace Loaded

variable (h : Loaded towersOf t blocks entries level) (hne : entries ≠ [])
  (hascending : Ascending Prod.fst entries)
  (hfits : ∀ entry ∈ entries, FitsEntry towersOf entry) (hread : Readable towersOf blocks)

include h

theorem blocked (hascending : Ascending Prod.fst entries) : Blocked Prod.fst blocks :=
  ⟨h.nonempty, by rw [h.entries_eq]; exact hascending⟩

theorem block_ascending (hascending : Ascending Prod.fst entries) {block : BlockData}
    (hblock : block ∈ blocks) : Ascending Prod.fst block :=
  List.Pairwise.sublist (List.sublist_flatten_of_mem hblock) (h.blocked hascending).ascending

include hne

theorem head?_eq : entries.head?.map Prod.fst = some t.metadata.minKey := by
  obtain ⟨first, rest, rfl⟩ := List.exists_cons_of_ne_nil hne
  rw [h.minKey]
  rfl

theorem getLast?_eq : entries.getLast?.map Prod.fst = some t.metadata.maxKey := by
  rw [h.maxKey, List.getLast?_eq_some_getLast hne]
  rfl

include hascending

theorem minKey_le {entry : Bytes × EValue} (hentry : entry ∈ entries) :
    t.metadata.minKey ≤ entry.1 := by
  have hhead := h.head?_eq hne
  obtain ⟨first, rest, rfl⟩ := List.exists_cons_of_ne_nil hne
  rw [← Option.some.inj hhead]
  rcases List.mem_cons.1 hentry with rfl | hentry
  · exact le_refl _
  · exact le_of_lt ((List.pairwise_cons.1 hascending).1 entry hentry)

theorem le_maxKey {entry : Bytes × EValue} (hentry : entry ∈ entries) :
    entry.1 ≤ t.metadata.maxKey := by
  obtain ⟨last, hlast, hkey⟩ := Option.map_eq_some_iff.1 (h.getLast?_eq hne)
  rw [← hkey]
  exact hascending.key_le_getLast hlast hentry

include hfits hread

theorem returns_get (key : Bytes) : t.Returns (t.get key) (entries.lookup key) := by
  rw [SSTableFile.get]
  cases hmay : t.mayContain key with
  | false =>
      -- Outside of the keys, or not in the filter: no entry has the key.
      have hnone : entries.lookup key = none := by
        rw [lookup_eq_find?, Option.map_eq_none_iff, List.find?_eq_none]
        intro entry hentry heq
        have hkey : entry.1 = key := of_decide_eq_true heq
        rw [SSTableFile.mayContain, ← hkey, if_pos ⟨h.minKey_le hne hascending hentry,
          h.le_maxKey hne hascending hentry⟩, h.bloomFilter entry hentry] at hmay
        cases hmay
      rw [hnone]
      exact SSTableFile.Returns.pure none
  | true =>
      have hlocates := h.locates (h.blocked hascending) key
      have hblock := SSTableFile.returns_readDataBlock
        (h.diskBlock hfits hread (t.findBlockIndex key))
      refine hblock.bind ?_
      have hfound : searchInBlock (blocks[t.findBlockIndex key]?.getD []) key = entries.lookup key := by
        rw [lookup_eq_find?, ← h.entries_eq]
        cases hblock : blocks[t.findBlockIndex key]? with
        | some block =>
            rw [hlocates.find?_flatten hblock fun entry heq => of_decide_eq_true heq, Option.getD_some]
            exact searchInBlock_eq (h.block_ascending hascending (List.mem_of_getElem? hblock)) key
        | none =>
            have hbefore := hlocates.before
            rw [List.take_of_length_le (List.getElem?_eq_none_iff.1 hblock)] at hbefore
            rw [List.find?_eq_none.2 fun entry hentry heq =>
              ne_of_lt (hbefore entry hentry) (of_decide_eq_true heq)]
            rfl
      rw [hfound]
      exact SSTableFile.Returns.pure _

omit hne in
/-- The loop of a range from the block at `i` on. -/
theorem returns_rangeFrom (startKey endKey : Bytes) (startBlock i n : Nat)
    (hn : i + n = blocks.length) (hstart : startBlock ≤ i) :
    t.Returns (t.rangeFrom startKey endKey startBlock (List.range' i n))
      ((blocks.drop i).flatten.filter fun entry => startKey ≤ entry.1 ∧ entry.1 ≤ endKey) := by
  induction n generalizing i with
  | zero =>
      rw [List.drop_of_length_le (by omega)]
      exact SSTableFile.Returns.pure []
  | succ n ih =>
      have hlt : i < blocks.length := by omega
      have hblock := List.getElem?_eq_getElem hlt
      have hdrop := List.drop_eq_getElem_cons hlt
      rw [List.range'_succ, SSTableFile.rangeFrom]
      by_cases hstop : startBlock < i ∧ ∃ entry ∈ t.index[i]?, endKey < entry.firstKey
      · rw [if_pos hstop]
        obtain ⟨-, entry, hentry, hbehind⟩ := hstop
        rw [h.index, getElem?_indexOf, hblock] at hentry
        obtain rfl := Option.some.inj hentry
        obtain ⟨first, hfirst, hkey⟩ :=
          List.exists_cons_of_ne_nil (h.nonempty _ (List.getElem_mem hlt))
        have hhead : blocks[i].head? = some first := by rw [hkey]; rfl
        have hbehind : endKey < first.1 := by
          rw [← firstKey_of_head? hhead]
          exact hbehind
        have hhead' : (blocks.drop i).head? = some blocks[i] := by rw [hdrop]; rfl
        rw [((h.blocked hascending).drop i).filter_eq_nil hhead' hhead fun a ha =>
          lt_of_le_of_lt (of_decide_eq_true ha).2 hbehind]
        exact SSTableFile.Returns.pure []
      · rw [if_neg hstop, hdrop, List.flatten_cons, List.filter_append]
        have hdata := SSTableFile.returns_readDataBlock (h.diskBlock hfits hread i)
        rw [hblock, Option.getD_some] at hdata
        refine hdata.bind ((ih (i + 1) (by omega) (by omega)).bind ?_)
        rw [scanRange_eq_filter (h.block_ascending hascending (List.getElem_mem hlt))]
        exact SSTableFile.Returns.pure _

theorem returns_range (startKey endKey : Bytes) : t.Returns (t.range startKey endKey)
    (entries.filter fun entry => startKey ≤ entry.1 ∧ entry.1 ≤ endKey) := by
  rw [SSTableFile.range]
  by_cases houtside : t.metadata.maxKey < startKey ∨ endKey < t.metadata.minKey
  · rw [if_pos houtside, List.filter_eq_nil_iff.2]
    · exact SSTableFile.Returns.pure []
    · intro entry hentry hbetween
      obtain ⟨hfrom, hto⟩ := of_decide_eq_true hbetween
      rcases houtside with hbehind | hbefore
      · exact absurd (le_trans hfrom (h.le_maxKey hne hascending hentry)) (not_le_of_gt hbehind)
      · exact absurd (le_trans (h.minKey_le hne hascending hentry) hto) (not_le_of_gt hbefore)
  · rw [if_neg houtside]
    have hlocates := h.locates (h.blocked hascending) startKey
    rw [← h.entries_eq, hlocates.filter_flatten fun entry hbetween =>
      (of_decide_eq_true hbetween).1, h.index, length_indexOf]
    rcases Nat.le_total (t.findBlockIndex startKey) blocks.length with hle | hge
    · exact h.returns_rangeFrom hascending hfits hread startKey endKey _ _ _ (by omega)
        (Nat.le_refl _)
    · have hnone : blocks.length - t.findBlockIndex startKey = 0 := Nat.sub_eq_zero_of_le hge
      simp only [hnone, List.drop_of_length_le hge]
      exact SSTableFile.Returns.pure []

theorem returns_rangeMap (startKey endKey : Bytes) : ∃ result,
    t.Returns (t.rangeMap startKey endKey) result ∧
      result.toList = entries.filter fun entry => startKey ≤ entry.1 ∧ entry.1 ≤ endKey := by
  refine ⟨_, (h.returns_range hne hascending hfits hread startKey endKey).bind
    (SSTableFile.Returns.pure _), ?_⟩
  have hfiltered := hascending.filter fun entry => startKey ≤ entry.1 ∧ entry.1 ≤ endKey
  have hordered : (entries.filter fun entry => startKey ≤ entry.1 ∧ entry.1 ≤ endKey).Pairwise
      fun a b => compare a.1 b.1 = .lt :=
    hfiltered.imp fun {a b} hlt => (compare_eq_lt_iff a.1 b.1).2 hlt
  rw [← Std.ExtTreeMap.ofList_eq_foldl]
  refine OrderedMap.toList_eq_of_lookup _ _ hordered fun k v => ?_
  refine (OrderedMap.getElem?_ofList_iff ?_ k v).symm
  exact hordered.imp fun {a b} hlt heq => by
    rw [hlt] at heq
    cases heq

omit hne hascending in
theorem returns_forEachFrom {σ : Type} (callback : σ → Bytes × EValue → Bool × σ) (s : σ) (i n : Nat)
    (hn : i + n = blocks.length) : t.Returns (t.forEachFrom callback s (List.range' i n))
      (visit callback s (blocks.drop i).flatten).2 := by
  induction n generalizing i s with
  | zero =>
      rw [List.drop_of_length_le (by omega)]
      exact SSTableFile.Returns.pure s
  | succ n ih =>
      have hlt : i < blocks.length := by omega
      have hdata := SSTableFile.returns_readDataBlock (h.diskBlock hfits hread i)
      rw [List.getElem?_eq_getElem hlt, Option.getD_some] at hdata
      rw [List.range'_succ, SSTableFile.forEachFrom, List.drop_eq_getElem_cons hlt,
        List.flatten_cons, visit_append]
      refine hdata.bind ?_
      cases hvisit : visit callback s blocks[i] with
      | mk goOn s' =>
          cases goOn with
          | true => exact ih s' (i + 1) (by omega)
          | false => exact SSTableFile.Returns.pure s'

/-- A loaded table answers as the list of its entries. -/
theorem holds : t.Holds entries level where
  get := h.returns_get hne hascending hfits hread
  forEach callback s := by
    have hall := h.returns_forEachFrom hfits hread callback s 0 blocks.length (Nat.zero_add _)
    rw [List.drop_zero, h.entries_eq] at hall
    rw [SSTableFile.forEach, List.range_eq_range', h.index, length_indexOf]
    exact hall
  range := h.returns_range hne hascending hfits hread
  rangeMap := h.returns_rangeMap hne hascending hfits hread
  minKey := h.head?_eq hne
  maxKey := h.getLast?_eq hne
  entryCount := h.entryCount
  level := h.level_eq

end Loaded

end Queries

section Limits

variable {towersOf : ZSet → Towers} {t : SSTableFile} {blocks : List BlockData}
  {entries : BlockData} {b : SSTableBuilder} {level : UInt32}

theorem readLe32_lt {data rest : Bytes} {n : Nat} (h : readLe32 data = some (n, rest)) :
    n < 2 ^ 32 := by
  match data, h with
  | x :: y :: z :: w :: tail, h =>
      have hx := x.toNat_lt
      have hy := y.toNat_lt
      have hz := z.toNat_lt
      have hw := w.toNat_lt
      rw [readLe32, Option.some.injEq, Prod.mk.injEq] at h
      omega

theorem length_of_readBytes {n : Nat} {data s rest : Bytes} (h : readBytes n data = some (s, rest)) :
    s.length = n := by
  rw [readBytes] at h
  split at h
  · cases h
  · next hle =>
      rw [← (Prod.mk.inj (Option.some.inj h)).1, List.length_take]
      omega

/-- No key that is read from a block has 2 ^ 32 bytes. -/
theorem key_lt_of_readEntries {fuel : Nat} {data : Bytes} {block : BlockData}
    (h : readEntries fuel data = some block) : ∀ entry ∈ block, entry.1.length < 2 ^ 32 := by
  induction fuel generalizing data block with
  | zero =>
      obtain rfl := Option.some.inj h
      exact fun entry hentry => absurd hentry List.not_mem_nil
  | succ fuel ih =>
      have hnil : some [] = some block → ∀ entry ∈ block, entry.1.length < 2 ^ 32 := by
        intro heq entry hentry
        rw [← Option.some.inj heq] at hentry
        cases hentry
      rw [readEntries] at h
      split at h
      · exact hnil h
      · next keyLen rest hkeyLen =>
          split at h
          · exact hnil h
          · next key rest' hkey =>
              split at h
              · exact hnil h
              · split at h
                · exact hnil h
                · obtain ⟨value, -, h⟩ := Option.bind_eq_some_iff.1 h
                  obtain ⟨tail, htail, h⟩ := Option.bind_eq_some_iff.1 h
                  obtain rfl := Option.some.inj h
                  intro entry hentry
                  rcases List.mem_cons.1 hentry with rfl | hentry
                  · rw [length_of_readBytes hkey]
                    exact readLe32_lt hkeyLen
                  · exact ih htail entry hentry

/-- A table that holds a list of entries has no key of 2 ^ 32 bytes. -/
theorem SSTableFile.Holds.key_lt (h : t.Holds entries level) :
    ∀ entry ∈ entries, entry.1.length < 2 ^ 32 := by
  intro entry hentry
  obtain ⟨value, hvalue⟩ : ∃ value, entries.lookup entry.1 = some value := by
    rw [← Option.isSome_iff_exists, lookup_eq_find?, Option.isSome_map, List.find?_isSome]
    exact ⟨entry, hentry, decide_eq_true rfl⟩
  obtain ⟨cache, hget, -⟩ := h.get entry.1 none trivial
  rw [hvalue, SSTableFile.get] at hget
  cases hmay : t.mayContain entry.1 with
  | false =>
      rw [hmay] at hget
      cases (Prod.mk.inj (Option.some.inj hget)).1
  | true =>
      rw [hmay] at hget
      obtain ⟨⟨block, cache'⟩, hread, hrest⟩ := Option.bind_eq_some_iff.1 hget
      have hsearch : searchInBlock block entry.1 = some value :=
        (Prod.mk.inj (Option.some.inj hrest)).1
      have hmem : ∃ found ∈ block, found.1 = entry.1 := by
        rw [searchInBlock] at hsearch
        split at hsearch
        · next found hfind =>
            split at hsearch
            · next heq => exact ⟨found, List.mem_of_find?_eq_some hfind, heq⟩
            · cases hsearch
        · cases hsearch
      obtain ⟨found, hfound, hkey⟩ := hmem
      rw [← hkey]
      simp only [SSTableFile.readDataBlock, Option.bind_none, Option.map_none] at hread
      split at hread
      · obtain ⟨rfl, -⟩ := Prod.mk.inj (Option.some.inj hread)
        cases hfound
      · split at hread
        · obtain ⟨rfl, -⟩ := Prod.mk.inj (Option.some.inj hread)
          cases hfound
        · obtain ⟨parsed, hparsed, hread⟩ := Option.bind_eq_some_iff.1 hread
          obtain ⟨rfl, -⟩ := Prod.mk.inj (Option.some.inj hread)
          exact key_lt_of_readEntries hparsed found hfound

theorem length_serializeEntry (entry : Bytes × EValue) :
    13 + entry.1.length ≤ (serializeEntry towersOf entry).length := by
  simp only [serializeEntry, serializeEValue, serialize, be32, List.length_append, List.length_cons,
    List.length_reverse, length_le32]
  omega

theorem key_le_encodeBlock {entry : Bytes × EValue} (h : entry ∈ entries) :
    13 + entry.1.length ≤ (encodeBlock towersOf entries).length :=
  Nat.le_trans (length_serializeEntry entry) (length_le_flatMap_of_mem _ h)

theorem length_index_le (offset : Nat) (hnonempty : ∀ block ∈ blocks, block ≠ []) :
    ((indexOf towersOf offset blocks).flatMap IndexEntry.serialize).length ≤
      2 * (encodeBlocks towersOf blocks).length := by
  induction blocks generalizing offset with
  | nil => exact Nat.zero_le _
  | cons block blocks ih =>
      obtain ⟨entry, hentry, hfirst⟩ := firstKey_mem (hnonempty block List.mem_cons_self)
      have hblock := @key_le_encodeBlock towersOf _ _ hentry
      have hrest := ih (offset + (encodeBlock towersOf block).length)
        fun other hother => hnonempty other (List.mem_cons_of_mem _ hother)
      rw [encodeBlocks] at hrest
      simp only [indexOf, encodeBlocks, List.flatMap_cons, List.length_append, IndexEntry.serialize,
        length_le32, length_le64, hfirst]
      omega

theorem encodeBlocks_flatten (blocks : List BlockData) :
    encodeBlock towersOf blocks.flatten = encodeBlocks towersOf blocks := by
  induction blocks with
  | nil => rfl
  | cons block blocks ih =>
      rw [List.flatten_cons, encodeBlock, List.flatMap_append, encodeBlocks, List.flatMap_cons]
      exact congrArg (encodeBlock towersOf block ++ ·) ih

theorem indexOf_sizes (offset : Nat) (blocks : List BlockData) :
    (indexOf towersOf offset blocks).map IndexEntry.blockSize =
      blocks.map fun block => (encodeBlock towersOf block).length := by
  induction blocks generalizing offset with
  | nil => rfl
  | cons block blocks ih => rw [indexOf, List.map_cons, ih, List.map_cons]

/-- The builder at the end: all entries stand in blocks, cut as `blockSizes` says. -/
theorem built_finish (level : UInt32) (blockSize : Nat) (entries : BlockData) :
    ∃ b blocks, Built towersOf level b blocks [] entries ∧
      SSTableBuilder.build towersOf level blockSize entries = b.writeFooter ∧
      blocks.map (fun block => (encodeBlock towersOf block).length) =
        blockSizes blockSize 0 (entrySizes towersOf entries) := by
  obtain ⟨blocks, current, hadds⟩ := (@built_new towersOf level blockSize).adds entries
  obtain ⟨blocks', h⟩ := hadds.flushBlock
  rw [List.nil_append] at h
  refine ⟨_, blocks', h, rfl, ?_⟩
  rw [← indexOf_sizes 0 blocks', ← h.indexEntries, finish_sizes]
  rfl

/-- The file is not much longer than the encoded entries. -/
theorem length_build_le (level : UInt32) (blockSize : Nat) (hne : entries ≠ []) :
    (SSTableBuilder.build towersOf level blockSize entries).length ≤
      5 * (encodeBlock towersOf entries).length + 12600 := by
  obtain ⟨b, blocks, h, hbuild, -⟩ := @built_finish towersOf level blockSize entries
  obtain ⟨first, hfirst⟩ := List.exists_mem_of_ne_nil entries hne
  obtain ⟨filter, hfilter, -⟩ := h.bloomFilter first hfirst
  obtain ⟨hbits, -⟩ := h.bloomSize filter hfilter
  have hdata : encodeBlocks towersOf blocks = encodeBlock towersOf entries := by
    rw [← encodeBlocks_flatten, ← h.entries_eq, List.append_nil]
  have hindex : b.indexData.length ≤ 2 * (encodeBlock towersOf entries).length := by
    rw [SSTableBuilder.indexData, h.indexEntries, ← hdata]
    exact length_index_le 0 h.nonempty
  have hbloom : b.bloomData.length = 12508 := by
    simp only [SSTableBuilder.bloomData, hfilter, Option.map_some, Option.getD_some,
      BloomFilter.serialize, List.length_append, length_le32, hbits]
  have hmin : b.minKey.length ≤ (encodeBlock towersOf entries).length := by
    obtain ⟨entry, hentry, hkey⟩ := firstKey_mem hne
    have hle := @key_le_encodeBlock towersOf _ _ hentry
    rw [h.minKey, hkey]
    omega
  have hmax : b.maxKey.length ≤ (encodeBlock towersOf entries).length := by
    have hle := @key_le_encodeBlock towersOf _ _ (List.getLast_mem hne)
    rw [h.maxKey, List.getLast?_eq_some_getLast hne, Option.map_some, Option.getD_some]
    omega
  have hoffset := h.currentOffset
  rw [hdata] at hoffset
  rw [hbuild, SSTableBuilder.length_writeFooter (by rw [h.currentOffset, h.file]), hoffset,
    SSTableFooter.size]
  omega

end Limits

section RoundTrip

variable {towersOf : ZSet → Towers} {t : SSTableFile} {blocks : List BlockData}
  {entries : BlockData} {level : UInt32}

/-- A table answers for an entry only when it can read the block of the entry. -/
theorem Loaded.readable_of_holds (h : Loaded towersOf t blocks entries level) (hne : entries ≠ [])
    (hascending : Ascending Prod.fst entries) (hholds : t.Holds entries level) :
    Readable towersOf blocks := by
  intro block hblock
  by_contra hlong
  obtain ⟨i, hi⟩ := List.mem_iff_getElem?.1 hblock
  obtain ⟨entry, hentry⟩ := List.exists_mem_of_ne_nil block (h.nonempty block hblock)
  have hmem : entry ∈ entries := h.entries_eq ▸ List.mem_flatten.2 ⟨block, hblock, hentry⟩
  have hindex := (h.locates (h.blocked hascending) entry.1).eq_of_mem hi hentry rfl
  have hmay : t.mayContain entry.1 = true := by
    rw [SSTableFile.mayContain, if_pos ⟨h.minKey_le hne hascending hmem,
      h.le_maxKey hne hascending hmem⟩]
    exact h.bloomFilter entry hmem
  -- without a cache the block is read as an empty one
  have hread : t.readDataBlock i none = some ([], none) := by
    rw [SSTableFile.readDataBlock, h.index, getElem?_indexOf, hi]
    simp only [Option.map_some, Option.bind_none, preadExact, hlong, ↓reduceIte]
  have hget : t.get entry.1 none = some (none, none) := by
    rw [SSTableFile.get, hmay, hindex]
    simp only [Bool.not_true, Bool.false_eq_true, ↓reduceIte]
    show ((t.readDataBlock i none).bind fun r => _) = _
    rw [hread]
    rfl
  obtain ⟨cache, hfound, -⟩ := hholds.get entry.1 none trivial
  rw [hget] at hfound
  have hnone : entries.lookup entry.1 = none := (Prod.mk.inj (Option.some.inj hfound)).1.symm
  rw [lookup_eq_find?, Option.map_eq_none_iff] at hnone
  exact absurd (decide_eq_true rfl) (List.find?_eq_none.1 hnone entry hmem)

/-- What is read from the file of a list of entries in ascending order is the list, when the keys
and the encoded versions are shorter than 4 GiB and the file is shorter than 2 ^ 64 bytes, if and
only if one `pread` can read each of its blocks. -/
theorem load_build (towersOf : ZSet → Towers) (stem : Bytes) (level : UInt32) (blockSize : Nat)
    {entries : BlockData} (hne : entries ≠ []) (hascending : Ascending Prod.fst entries)
    (hfits : ∀ entry ∈ entries, FitsEntry towersOf entry)
    (hsize : (SSTableBuilder.build towersOf level blockSize entries).length < 2 ^ 64) :
    (∃ t, SSTableFile.load stem (SSTableBuilder.build towersOf level blockSize entries) = some t ∧
      t.Holds entries level) ↔
    ∀ size ∈ blockSizes blockSize 0 (entrySizes towersOf entries), size ≤ preadMax := by
  obtain ⟨b, blocks, h, hbuild, hsizes⟩ := @built_finish towersOf level blockSize entries
  rw [hbuild] at hsize ⊢
  obtain ⟨t, hload, hloaded⟩ := load_writeFooter stem h hne hfits hsize
  rw [← hsizes, List.forall_mem_map]
  constructor
  · rintro ⟨t', hload', hholds⟩
    obtain rfl := Option.some.inj (hload.symm.trans hload')
    exact hloaded.readable_of_holds hne hascending hholds
  · exact fun hread => ⟨t, hload, hloaded.holds hne hascending hfits hread⟩

theorem lookup_toList (map : StrMap EValue) (key : Bytes) : map.toList.lookup key = map[key]? := by
  refine Option.ext fun value => ?_
  rw [← Std.ExtTreeMap.mem_toList_iff_getElem?_eq_some, lookup_eq_find?, Option.map_eq_some_iff]
  constructor
  · rintro ⟨entry, hfind, rfl⟩
    have hkey := List.find?_some hfind
    rw [decide_eq_true_eq] at hkey
    rw [← hkey]
    exact List.mem_of_find?_eq_some hfind
  · intro hmem
    cases hfind : map.toList.find? fun entry => decide (entry.1 = key) with
    | none => exact absurd (decide_eq_true rfl) (List.find?_eq_none.1 hfind _ hmem)
    | some entry =>
        have hkey := List.find?_some hfind
        rw [decide_eq_true_eq] at hkey
        have hentry := List.mem_of_find?_eq_some hfind
        rw [Std.ExtTreeMap.mem_toList_iff_getElem?_eq_some] at hmem
        have hvalue := Std.ExtTreeMap.mem_toList_iff_getElem?_eq_some.1 hentry
        rw [hkey, hmem] at hvalue
        exact ⟨entry, rfl, (Option.some.inj hvalue).symm⟩

/-- The manager's tables, which know their entries only, are what the loaded files are. -/
theorem SSTableFile.Holds.refines {t : SSTableFile} {level : UInt32} (sst : SSTable)
    (h : t.Holds sst.entries.toList level) :
    (∀ key, t.Returns (t.get key) (sst.get key)) ∧
      t.metadata.minKey = sst.minKey ∧ t.metadata.maxKey = sst.maxKey := by
  refine ⟨fun key => ?_, ?_, ?_⟩
  · rw [SSTable.get, ← lookup_toList]
    exact h.get key
  · have hhead := h.minKey
    rw [List.head?_eq_some_head sst.nonempty] at hhead
    exact (Option.some.inj hhead).symm
  · have hlast := h.maxKey
    rw [List.getLast?_eq_some_getLast sst.nonempty] at hlast
    exact (Option.some.inj hlast).symm

/-- Skip lists with one level. -/
def flatTowers (_ : ZSet) : Towers := Towers.flat

/-- The empty key, a deleted entry with an expiry second, and a sorted set, in blocks of 20 bytes. -/
def threeEntries : BlockData :=
  [([], { value := .string (ascii "v") }),
    (ascii "a", { value := .deque [ascii "x", []], deleted := true, expireTime := 7 }),
    (ascii "b", { value := .zset ⟨[(⟨1, ascii "m"⟩, ascii "m")], ∅⟩ })]

theorem load_build_threeEntries :
    ∃ t, SSTableFile.load (ascii "3") (SSTableBuilder.build flatTowers 1 20 threeEntries) = some t ∧
      t.Holds threeEntries 1 := by
  refine (load_build flatTowers (ascii "3") 1 20 (List.cons_ne_nil _ _) ?_ ?_ ?_).2 ?_
  · decide
  · decide
  · refine Nat.lt_of_le_of_lt (length_build_le 1 20 (List.cons_ne_nil _ _)) ?_
    decide
  · decide

/-- A key of 2 ^ 32 bytes: its length is written as 0. -/
def longKeyEntries : BlockData := [(List.replicate (2 ^ 32) 0, {})]

theorem not_holds_longKey :
    ¬∃ t, SSTableFile.load (ascii "3") (SSTableBuilder.build flatTowers 0 4096 longKeyEntries) =
      some t ∧ t.Holds longKeyEntries 0 := by
  rintro ⟨t, -, h⟩
  have hlt := h.key_lt _ (List.mem_singleton.2 rfl)
  rw [List.length_replicate] at hlt
  exact absurd hlt (Nat.lt_irrefl _)

end RoundTrip

end EyaKV.Store
