import EyaKV.Store.Value

/-!
# SSTables and their merges

`SSTable` is a loaded file: its entries in key order and the metadata that the
manager reads. The block index, the block cache and the Bloom filter of a file only
speed up the lookup in its entries. `SSTableManager` keeps the files in levels,
newest first in each level, and `mergeSstables` is the compaction with both
strategies and the merges it triggers in turn.

Writing a file succeeds here; the disk's failures are outside the model. The size
of a written file and the comparison of a level's size with its limit, a
computation in `double`, are parameters in `SSTableConfig`. The mutual recursion of
the merges runs on fuel: `none` means that the fuel ran out.
-/

set_option autoImplicit false

namespace EyaKV.Store

open EyaKV.Base

/-- `SSTableMergeStrategy`. -/
inductive SSTableMergeStrategy where
  | sizeTieredCompaction
  | levelCompaction
  deriving DecidableEq, Repr

/-- What the manager's constructor is given, with the size of the file that holds
a list of entries and the test
`level_sstable_size_[level] >= zero_level_size * pow(ratio, level)`. -/
structure SSTableConfig where
  mergeStrategy : SSTableMergeStrategy
  sstableMergeThreshold : Nat
  sizeReached : (size level : Nat) → Bool
  fileSize : List (Bytes × EValue) → Nat

/-- A loaded SSTable. The builder refuses to write an empty file. -/
structure SSTable where
  entries : StrMap EValue
  fileSize : Nat
  level : Nat
  sequenceNumber : Nat
  nonempty : entries.toList ≠ []

namespace SSTable

/-- `SSTable::get`. -/
def get (sst : SSTable) (key : Bytes) : Option EValue := sst.entries[key]?

/-- `SSTableMeta::min_key`, the first key that the builder was given. -/
def minKey (sst : SSTable) : Bytes := (sst.entries.toList.head sst.nonempty).1

/-- `SSTableMeta::max_key`, the last key that the builder was given. -/
def maxKey (sst : SSTable) : Bytes := (sst.entries.toList.getLast sst.nonempty).1

/-- The overlap test of the second merge strategy. -/
def overlaps (sst next : SSTable) : Bool :=
  !(strLt sst.maxKey next.minKey || strLt next.maxKey sst.minKey)

end SSTable

/-- The manager's state: the files and the total file size of each level, the
highest level, the file counter, and the number of the next file. -/
structure SSTableManager where
  levelSstables : Nat → List SSTable
  levelSstableSize : Nat → Nat
  sstableCount : Nat
  maxLevel : Nat
  nextSequenceNumber : Nat

namespace SSTableManager

/-- The manager of an empty directory. -/
def empty : SSTableManager := ⟨fun _ => [], fun _ => 0, 0, 0, 1⟩

/-- `SSTableManager::get`: levels in ascending order, each from its newest file. -/
def get (mgr : SSTableManager) (key : Bytes) : Option EValue :=
  (List.range (mgr.maxLevel + 1)).findSome? fun i =>
    (mgr.levelSstables i).findSome? fun sst => sst.get key

theorem toList_ofList_ne_nil {entries : List (Bytes × EValue)} (h : entries ≠ []) :
    (Std.ExtTreeMap.ofList entries compare).toList ≠ [] := by
  obtain ⟨e, rest, rfl⟩ := List.exists_cons_of_ne_nil h
  intro hnil
  have hmem : e.1 ∈ Std.ExtTreeMap.ofList (e :: rest) compare := by
    rw [Std.ExtTreeMap.mem_ofList]
    simp
  rw [Std.ExtTreeMap.toList_eq_nil_iff.1 hnil] at hmem
  exact Std.ExtTreeMap.not_mem_empty hmem

section Merging

variable (cfg : SSTableConfig)

/-- `SSTableManager::create_from_entries`: the new file goes to the front of its
level. Nothing is written for an empty list. -/
def createFromEntries (entries : List (Bytes × EValue)) (level : Nat) (mgr : SSTableManager) :
    Option SSTable × SSTableManager :=
  if h : entries = [] then (none, mgr)
  else
    let sst : SSTable :=
      { entries := Std.ExtTreeMap.ofList entries compare
        fileSize := cfg.fileSize entries
        level := level
        sequenceNumber := mgr.nextSequenceNumber
        nonempty := toList_ofList_ne_nil h }
    (some sst,
      { mgr with
        levelSstables := Function.update mgr.levelSstables level (sst :: mgr.levelSstables level)
        levelSstableSize :=
          Function.update mgr.levelSstableSize level (mgr.levelSstableSize level + sst.fileSize)
        maxLevel := max mgr.maxLevel level
        nextSequenceNumber := mgr.nextSequenceNumber + 1 })

/-- The removal of merged files from a level. A file's number identifies it, as its
pointer does in the source. -/
def removeMerged (merged : List SSTable) (level : Nat) (mgr : SSTableManager) : SSTableManager :=
  { mgr with
    levelSstables := Function.update mgr.levelSstables level
      ((mgr.levelSstables level).filter fun sst =>
        !merged.any fun old => old.sequenceNumber == sst.sequenceNumber)
    levelSstableSize := Function.update mgr.levelSstableSize level
      (mgr.levelSstableSize level - (merged.map SSTable.fileSize).sum) }

/-- The `map` of a merge: files from the back of the list to its front, later ones
overriding. -/
def mergedMap (files : List SSTable) : StrMap EValue :=
  files.foldr (fun sst map => map ∪ sst.entries) ∅

/-- The entries that a merge writes: neither deleted nor expired. -/
def liveEntries (now : Nat) (map : StrMap EValue) : List (Bytes × EValue) :=
  OrderedMap.retain (fun _ v => v.isLive now) map

/-- The merge of `merge_sstables_by_strategy_0`: the whole level into one file of
the next level. -/
def mergeLevel (now level : Nat) (mgr : SSTableManager) : SSTableManager :=
  let merged := mgr.levelSstables level
  let entries := liveEntries now (mergedMap merged)
  removeMerged merged level (createFromEntries cfg entries (level + 1) mgr).2

/-- The files of the next level that the merge of `sst` takes. -/
def overlapping (sst : SSTable) (level : Nat) (mgr : SSTableManager) : List SSTable :=
  (mgr.levelSstables (level + 1)).filter sst.overlaps

/-- The merge of `merge_sstables_by_strategy_1`: the level's oldest file `sst`
with the files of the next level that it overlaps. -/
def mergeOldest (now : Nat) (sst : SSTable) (level : Nat) (mgr : SSTableManager) :
    SSTableManager :=
  let next := overlapping sst level mgr
  let entries := liveEntries now (mergedMap (sst :: next))
  removeMerged [sst] level
    (removeMerged next (level + 1) (createFromEntries cfg entries (level + 1) mgr).2)

/-- The test that starts a merge of `level`. -/
def shouldMerge (mgr : SSTableManager) (level : Nat) : Bool :=
  match cfg.mergeStrategy with
  | .sizeTieredCompaction => cfg.sstableMergeThreshold ≤ (mgr.levelSstables level).length
  | .levelCompaction => cfg.sizeReached (mgr.levelSstableSize level) level

/-- `merge_sstables_by_strategy_0`, given the recursive call `recur`. -/
def mergeSstablesByStrategy0 (now : Nat)
    (recur : SSTableManager → Nat → Option (Bool × SSTableManager))
    (mgr : SSTableManager) (level : Nat) : Option (Bool × SSTableManager) :=
  if (mgr.levelSstables level).isEmpty then some (true, mgr)
  else do
    let (_, mgr') ← recur (mergeLevel cfg now level mgr) (level + 1)
    return (true, mgr')

/-- `merge_sstables_by_strategy_1`, given the recursive call `recur`. -/
def mergeSstablesByStrategy1 (now : Nat)
    (recur : SSTableManager → Nat → Option (Bool × SSTableManager))
    (mgr : SSTableManager) (level : Nat) : Option (Bool × SSTableManager) :=
  if level = mgr.maxLevel then mergeSstablesByStrategy0 cfg now recur mgr level
  else
    match (mgr.levelSstables level).getLast? with
    | none => some (true, mgr)
    | some sst => do
        let (_, mgr') ← recur (mergeOldest cfg now sst level mgr) level
        let (_, mgr'') ← recur mgr' (level + 1)
        return (true, mgr'')

/-- `SSTableManager::merge_sstables` at the second `now`. -/
def mergeSstables (now : Nat) : Nat → SSTableManager → Nat → Option (Bool × SSTableManager)
  | 0, _, _ => none
  | fuel + 1, mgr, level =>
      if mgr.maxLevel < level then some (false, mgr)
      else if shouldMerge cfg mgr level then
        match cfg.mergeStrategy with
        | .sizeTieredCompaction =>
            mergeSstablesByStrategy0 cfg now (mergeSstables now fuel) mgr level
        | .levelCompaction =>
            mergeSstablesByStrategy1 cfg now (mergeSstables now fuel) mgr level
      else some (true, mgr)

/-- `SSTableManager::create_new_sstable`. -/
def createNewSstable (now fuel : Nat) (entries : List (Bytes × EValue)) (mgr : SSTableManager) :
    Option (Option SSTable × SSTableManager) :=
  match createFromEntries cfg entries 0 mgr with
  | (none, mgr') => some (none, mgr')
  | (some sst, mgr') => do
      let (_, mgr'') ← mergeSstables cfg now fuel mgr' 0
      return (some sst, mgr'')

end Merging

end SSTableManager

end EyaKV.Store
