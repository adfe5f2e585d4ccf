import EyaKV.Base.Crash
import EyaKV.Store.Compaction
import Mathlib.Data.List.Sort

/-!
# The directory of SSTables

A directory holds the files of a manager, and a restart builds a manager from the
files it finds (`loadAll`). There is no manifest: a file's level stands in the file,
its number is its name, and nothing says which files belong together. A merge writes
one file and removes several (`DiskOp`), so a crash leaves the directory between two
of these steps.

`Represents` relates a directory to the lists of files by level. It does not depend on
the order in which the directory is read, both steps preserve it
(`represents_write`, `represents_remove`), and a manager loaded from the directory
has the lists (`levelSstables_loadAll`).
-/

set_option autoImplicit false

namespace EyaKV.Store

open EyaKV.Base EyaKV.Base.Layers EyaKV.Base.Crash

/-- A step of a merge on the disk. -/
inductive DiskOp where
  | write (sst : SSTable)
  | remove (sst : SSTable)

/-- The effect on the files of the directory. A file's name is its number. -/
def DiskOp.apply (files : List SSTable) : DiskOp → List SSTable
  | .write sst => sst :: files
  | .remove sst => files.filter fun file => file.sequenceNumber != sst.sequenceNumber

/-- The newest file of a list comes first. -/
def NewestFirst (files : List SSTable) : Prop :=
  files.Pairwise fun a b => b.sequenceNumber < a.sequenceNumber

namespace SSTableManager

section Loading

variable {files : List SSTable} {levels : Nat → List SSTable}

/-- `SSTableManager::load_all` and `sort_sstables_by_sequence`, in a directory whose
`.smeta` file has the manager's strategy: then `normalize_sstables` does nothing. -/
def loadAll (files : List SSTable) : SSTableManager where
  levelSstables i := (files.filter fun sst => sst.level == i).insertionSort
    fun a b => b.sequenceNumber ≤ a.sequenceNumber
  levelSstableSize i := ((files.filter fun sst => sst.level == i).map SSTable.fileSize).sum
  sstableCount := files.length
  maxLevel := files.foldl (fun maxLevel sst => max maxLevel sst.level) 0
  nextSequenceNumber := files.foldl
    (fun next sst => if next ≤ sst.sequenceNumber then sst.sequenceNumber + 1 else next) 1

/-- The directory holds the files `levels i` in level `i`. -/
def Represents (files : List SSTable) (levels : Nat → List SSTable) : Prop :=
  ∀ i, (files.filter fun sst => sst.level == i).Perm (levels i)

theorem Represents.perm {files' : List SSTable} (h : Represents files levels)
    (hperm : files'.Perm files) : Represents files' levels :=
  fun i => (hperm.filter _).trans (h i)

theorem Represents.mem {sst : SSTable} {i : Nat} (h : Represents files levels)
    (hmem : sst ∈ levels i) : sst ∈ files ∧ sst.level = i := by
  simpa using List.mem_filter.1 ((h i).mem_iff.2 hmem)

theorem represents_write (h : Represents files levels) (sst : SSTable) :
    Represents (sst :: files)
      (Function.update levels sst.level (sst :: levels sst.level)) := by
  intro i
  rw [List.filter_cons]
  by_cases hi : sst.level = i
  · subst hi
    simpa using h sst.level
  · rw [Function.update_of_ne (Ne.symm hi), if_neg (by simpa using hi)]
    exact h i

/-- The files of `l` that are none of `removed`. -/
def without (removed l : List SSTable) : List SSTable :=
  l.filter fun sst => !removed.any fun old => old.sequenceNumber == sst.sequenceNumber

theorem mem_without {removed l : List SSTable} {sst : SSTable} :
    sst ∈ without removed l ↔
      sst ∈ l ∧ ∀ old ∈ removed, old.sequenceNumber ≠ sst.sequenceNumber := by
  simp [without]

@[simp] theorem without_nil (l : List SSTable) : without [] l = l := by
  simp [without]

theorem without_cons (old : SSTable) (removed l : List SSTable) :
    without (old :: removed) l = without removed (without [old] l) := by
  rw [without, without, without, List.filter_filter]
  refine List.filter_congr fun sst _ => ?_
  simp [Bool.and_comm]

theorem apply_remove (files : List SSTable) (old : SSTable) :
    DiskOp.apply files (.remove old) = without [old] files := by
  refine List.filter_congr fun sst _ => ?_
  rw [List.any_cons, List.any_nil, Bool.or_false, bne, Bool.beq_comm]

theorem represents_remove (h : Represents files levels) (removed : List SSTable) :
    Represents ((removed.map DiskOp.remove).foldl DiskOp.apply files)
      fun i => without removed (levels i) := by
  induction removed generalizing files levels with
  | nil =>
      simp only [List.map_nil, List.foldl_nil, without_nil]
      exact h
  | cons old removed ih =>
      have hfirst : Represents (without [old] files) fun i => without [old] (levels i) := by
        intro i
        rw [without, List.filter_comm]
        exact (h i).filter _
      rw [List.map_cons, List.foldl_cons, apply_remove]
      simp only [without_cons old removed]
      exact ih hfirst

/-- In a list with the newest file first, a number stands for one file. -/
theorem NewestFirst.eq_of_number {l : List SSTable} (h : NewestFirst l) {a b : SSTable}
    (ha : a ∈ l) (hb : b ∈ l) (hnumber : a.sequenceNumber = b.sequenceNumber) : a = b := by
  by_contra hne
  have hsymm : Std.Symm fun a b : SSTable => a.sequenceNumber ≠ b.sequenceNumber :=
    ⟨fun _ _ h => h.symm⟩
  have hdistinct : l.Pairwise fun a b => a.sequenceNumber ≠ b.sequenceNumber :=
    h.imp fun hlt => Nat.ne_of_gt hlt
  exact hdistinct.forall ha hb hne hnumber

/-- The files loaded into a level are those of the directory, the newest first. -/
theorem levelSstables_loadAll (h : Represents files levels)
    (hsorted : ∀ i, NewestFirst (levels i)) :
    (loadAll files).levelSstables = levels := by
  funext i
  have hperm := (List.perm_insertionSort (fun a b : SSTable => b.sequenceNumber ≤ a.sequenceNumber)
    (files.filter fun sst => sst.level == i)).trans (h i)
  have : Std.Total fun a b : SSTable => b.sequenceNumber ≤ a.sequenceNumber :=
    ⟨fun a b => Nat.le_total _ _⟩
  have : IsTrans SSTable fun a b => b.sequenceNumber ≤ a.sequenceNumber :=
    ⟨fun _ _ _ hab hbc => Nat.le_trans hbc hab⟩
  refine hperm.eq_of_pairwise ?_ (List.pairwise_insertionSort _ _)
    ((hsorted i).imp fun hlt => Nat.le_of_lt hlt)
  intro a b ha hb hab hba
  exact NewestFirst.eq_of_number (hsorted i) (hperm.mem_iff.1 ha) hb (Nat.le_antisymm hba hab)

/-- The highest level and the next number are above everything in the directory. -/
theorem le_maxLevel_loadAll {sst : SSTable} (h : sst ∈ files) :
    sst.level ≤ (loadAll files).maxLevel ∧
      sst.sequenceNumber < (loadAll files).nextSequenceNumber := by
  simp only [loadAll]
  induction files using List.reverseRecOn with
  | nil => cases h
  | append_singleton files last ih =>
      simp only [List.foldl_append, List.foldl_cons, List.foldl_nil]
      rcases List.mem_append.1 h with hmem | hmem
      · obtain ⟨hlevel, hnumber⟩ := ih hmem
        refine ⟨le_trans hlevel (le_max_left _ _), ?_⟩
        split
        · omega
        · exact hnumber
      · obtain rfl := List.mem_singleton.1 hmem
        refine ⟨le_max_right _ _, ?_⟩
        split
        · exact Nat.lt_succ_self _
        · omega

/-- A directory is loaded into a well numbered manager. -/
theorem numbered_loadAll (h : Represents files levels) (hsorted : ∀ i, NewestFirst (levels i)) :
    Numbered (loadAll files) := by
  have hlevels := levelSstables_loadAll h hsorted
  have hmem : ∀ i, ∀ sst ∈ (loadAll files).levelSstables i, sst ∈ files ∧ sst.level = i := by
    intro i sst hsst
    rw [hlevels] at hsst
    exact h.mem hsst
  refine ⟨fun i hi => ?_, fun i sst hsst => ?_, fun i => ?_⟩
  · refine List.eq_nil_iff_forall_not_mem.2 fun sst hsst => ?_
    obtain ⟨hfile, rfl⟩ := hmem i sst hsst
    exact absurd hi (Nat.not_lt_of_le (le_maxLevel_loadAll hfile).1)
  · exact (le_maxLevel_loadAll (hmem i sst hsst).1).2
  · rw [hlevels]
    exact (hsorted i).imp fun hlt => Nat.ne_of_gt hlt

/-- Managers with the same files answer alike. -/
theorem visibleAt_congr {mgr mgr' : SSTableManager} (hnum : Numbered mgr) (hnum' : Numbered mgr')
    (hlevels : mgr'.levelSstables = mgr.levelSstables) (t : Nat) :
    mgr'.visibleAt t = mgr.visibleAt t := by
  funext key
  have hle : mgr.maxLevel < max mgr.maxLevel mgr'.maxLevel + 1 :=
    Nat.lt_succ_of_le (le_max_left _ _)
  have hle' : mgr'.maxLevel < max mgr.maxLevel mgr'.maxLevel + 1 :=
    Nat.lt_succ_of_le (le_max_right _ _)
  rw [visibleAt, visibleAt, get_eq_newest_of_lt hnum hle, get_eq_newest_of_lt hnum' hle',
    layersFrom_congr fun i _ _ => congrFun hlevels i]

end Loading

section Stored

variable {cfg : SSTableConfig} {mgr : SSTableManager} {level : Nat}

/-- The files of a manager, as they lie in its directory. -/
def files (mgr : SSTableManager) : List SSTable :=
  (List.range (mgr.maxLevel + 1)).flatMap mgr.levelSstables

/-- What holds of every manager that has loaded a directory, and is kept by flushes and
merges: each file knows its level, a number stands for one file, and each level has its
newest file first. -/
structure Stored (mgr : SSTableManager) : Prop where
  above_max : ∀ i, mgr.maxLevel < i → mgr.levelSstables i = []
  number_lt : ∀ i, ∀ sst ∈ mgr.levelSstables i, sst.sequenceNumber < mgr.nextSequenceNumber
  level_eq : ∀ i, ∀ sst ∈ mgr.levelSstables i, sst.level = i
  newest_first : ∀ i, NewestFirst (mgr.levelSstables i)
  number_unique : ∀ i j, ∀ a ∈ mgr.levelSstables i, ∀ b ∈ mgr.levelSstables j,
    a.sequenceNumber = b.sequenceNumber → i = j

theorem Stored.numbered (hst : Stored mgr) : Numbered mgr :=
  ⟨hst.above_max, hst.number_lt, fun i => (hst.newest_first i).imp fun hlt => Nat.ne_of_gt hlt⟩

theorem represents_files (hst : Stored mgr) : Represents mgr.files mgr.levelSstables := by
  intro i
  have hlevel : ∀ j, (mgr.levelSstables j).filter (fun sst => sst.level == i) =
      if j = i then mgr.levelSstables i else [] := by
    intro j
    split
    · next heq =>
        subst heq
        exact List.filter_eq_self.2 fun sst hsst => by simp [hst.level_eq j sst hsst]
    · next hne =>
        exact List.filter_eq_nil_iff.2 fun sst hsst => by simp [hst.level_eq j sst hsst, hne]
  rw [files, List.filter_flatMap]
  simp only [hlevel]
  rw [List.range_eq_range']
  by_cases hi : i ≤ mgr.maxLevel
  · -- Level `i` is met once, and every other level contributes nothing.
    have hsplit : List.range' 0 (mgr.maxLevel + 1) =
        List.range' 0 i ++ i :: List.range' (i + 1) (mgr.maxLevel - i) := by
      rw [show mgr.maxLevel + 1 = i + ((mgr.maxLevel - i) + 1) by omega, ← List.range'_append_1,
        Nat.zero_add, List.range'_succ]
    have hbefore : (List.range' 0 i).flatMap (fun j => if j = i then mgr.levelSstables i else []) =
        [] := by
      refine List.flatMap_eq_nil_iff.2 fun j hj => if_neg ?_
      have := List.mem_range'_1.1 hj
      omega
    have hafter : (List.range' (i + 1) (mgr.maxLevel - i)).flatMap
        (fun j => if j = i then mgr.levelSstables i else []) = [] := by
      refine List.flatMap_eq_nil_iff.2 fun j hj => if_neg ?_
      have := List.mem_range'_1.1 hj
      omega
    rw [hsplit, List.flatMap_append, hbefore, List.flatMap_cons, hafter, if_pos rfl,
      List.nil_append, List.append_nil]
  · rw [hst.above_max i (by omega)]
    simp

/-- Loading a directory, whose file names are distinct, gives a stored manager. -/
theorem stored_loadAll {files : List SSTable}
    (hdistinct : files.Pairwise fun a b => a.sequenceNumber ≠ b.sequenceNumber) :
    Stored (loadAll files) := by
  have hperm : ∀ i, ((loadAll files).levelSstables i).Perm
      (files.filter fun sst => sst.level == i) := fun i => List.perm_insertionSort _ _
  have hsymm : Std.Symm fun a b : SSTable => a.sequenceNumber ≠ b.sequenceNumber :=
    ⟨fun _ _ h => h.symm⟩
  have hsorted : ∀ i, NewestFirst ((loadAll files).levelSstables i) := by
    intro i
    have : Std.Total fun a b : SSTable => b.sequenceNumber ≤ a.sequenceNumber :=
      ⟨fun a b => Nat.le_total _ _⟩
    have : IsTrans SSTable fun a b => b.sequenceNumber ≤ a.sequenceNumber :=
      ⟨fun _ _ _ hab hbc => Nat.le_trans hbc hab⟩
    have hle : ((loadAll files).levelSstables i).Pairwise
        fun a b => b.sequenceNumber ≤ a.sequenceNumber := List.pairwise_insertionSort _ _
    have hne := (hdistinct.filter fun sst => sst.level == i).perm (hperm i).symm
      fun h => h.symm
    exact (hle.and hne).imp fun h => lt_of_le_of_ne h.1 h.2.symm
  have hmem : ∀ i, ∀ sst ∈ (loadAll files).levelSstables i, sst ∈ files ∧ sst.level = i := by
    intro i sst hsst
    simpa using List.mem_filter.1 ((hperm i).mem_iff.1 hsst)
  have hnum := numbered_loadAll (fun i => (hperm i).symm) hsorted
  refine ⟨hnum.above_max, hnum.number_lt, fun i sst hsst => (hmem i sst hsst).2, hsorted, ?_⟩
  intro i j a ha b hb hnumber
  obtain ⟨hafile, rfl⟩ := hmem i a ha
  obtain ⟨hbfile, rfl⟩ := hmem j b hb
  by_contra hne
  have hab : a ≠ b := fun heq => hne (congrArg SSTable.level heq)
  exact hdistinct.forall hafile hbfile hab hnumber

theorem created_level {entries : List (Bytes × EValue)} {sst : SSTable}
    (h : sst ∈ (createFromEntries cfg entries level mgr).1.toList) : sst.level = level := by
  unfold createFromEntries at h
  split at h
  · cases h
  · obtain rfl := List.mem_singleton.1 h
    rfl

/-- A created file is newer than every file of the manager. -/
theorem newestFirst_created (hnum : Numbered mgr) {entries : List (Bytes × EValue)}
    {files : List SSTable} {i : Nat} (hsorted : NewestFirst files)
    (hsub : ∀ sst ∈ files, sst ∈ mgr.levelSstables i) :
    NewestFirst ((createFromEntries cfg entries level mgr).1.toList ++ files) := by
  refine pairwise_created hsorted fun sst hsst old hold => ?_
  rw [(created_spec hsst).2.1]
  exact hnum.number_lt i old (hsub old hold)

/-- What adds a created file to the front of its level, and removes files at will,
keeps the properties. -/
theorem stored_of_created (hst : Stored mgr) {mgr' : SSTableManager}
    (entries : List (Bytes × EValue))
    (hlevels : ∀ i, ∃ old, old.Sublist (mgr.levelSstables i) ∧ mgr'.levelSstables i =
      (if i = level then (createFromEntries cfg entries level mgr).1.toList else []) ++ old)
    (hmax : mgr'.maxLevel = (createFromEntries cfg entries level mgr).2.maxLevel)
    (hnumber : mgr'.nextSequenceNumber =
      (createFromEntries cfg entries level mgr).2.nextSequenceNumber) : Stored mgr' := by
  have hmono := maxLevel_createFromEntries cfg mgr level entries
  have hle := nextSequenceNumber_createFromEntries cfg mgr level entries
  -- A file of the new manager is the created one or an old one of the same level.
  have hmem : ∀ i, ∀ sst ∈ mgr'.levelSstables i,
      (i = level ∧ sst ∈ (createFromEntries cfg entries level mgr).1.toList) ∨
        sst ∈ mgr.levelSstables i := by
    intro i sst hsst
    obtain ⟨old, hold, heq⟩ := hlevels i
    rw [heq, List.mem_append] at hsst
    rcases hsst with hnew | hmem
    · split at hnew
      · next hi => exact Or.inl ⟨hi, hnew⟩
      · cases hnew
    · exact Or.inr (hold.subset hmem)
  refine ⟨fun i hi => ?_, fun i sst hsst => ?_, fun i sst hsst => ?_, fun i => ?_,
    fun i j a ha b hb hab => ?_⟩
  · refine List.eq_nil_iff_forall_not_mem.2 fun sst hsst => ?_
    rcases hmem i sst hsst with ⟨rfl, hnew⟩ | hold
    · have := (created_spec hnew).2.2.2
      omega
    · rw [hst.above_max i (by omega)] at hold
      cases hold
  · rw [hnumber]
    rcases hmem i sst hsst with ⟨-, hnew⟩ | hold
    · obtain ⟨-, hnum, hlt, -⟩ := created_spec hnew
      exact hnum ▸ hlt
    · exact lt_of_lt_of_le (hst.number_lt i sst hold) hle
  · rcases hmem i sst hsst with ⟨rfl, hnew⟩ | hold
    · exact created_level hnew
    · exact hst.level_eq i sst hold
  · obtain ⟨old, hold, heq⟩ := hlevels i
    have hsorted := (hst.newest_first i).sublist hold
    rw [heq]
    split_ifs with hi
    · exact newestFirst_created hst.numbered hsorted fun sst hsst => hold.subset hsst
    · exact hsorted
  · rcases hmem i a ha with ⟨rfl, hnewa⟩ | holda
    · rcases hmem j b hb with ⟨rfl, -⟩ | holdb
      · rfl
      · rw [(created_spec hnewa).2.1] at hab
        exact absurd hab (Nat.ne_of_gt (hst.number_lt j b holdb))
    · rcases hmem j b hb with ⟨rfl, hnewb⟩ | holdb
      · rw [(created_spec hnewb).2.1] at hab
        exact absurd hab (Nat.ne_of_lt (hst.number_lt i a holda))
      · exact hst.number_unique i j a holda b holdb hab

theorem stored_empty : Stored empty :=
  ⟨fun _ _ => rfl, fun _ _ h => absurd h List.not_mem_nil, fun _ _ h => absurd h List.not_mem_nil,
    fun _ => List.Pairwise.nil, fun _ _ _ h => absurd h List.not_mem_nil⟩

theorem stored_createFromEntries (hst : Stored mgr) (entries : List (Bytes × EValue)) :
    Stored (createFromEntries cfg entries level mgr).2 := by
  refine stored_of_created hst entries (fun i => ⟨mgr.levelSstables i, List.Sublist.refl _, ?_⟩)
    rfl rfl
  rw [levelSstables_createFromEntries, Function.update_apply]
  split_ifs with hi
  · rw [hi]
  · rfl

theorem stored_mergeLevel {now : Nat} (hst : Stored mgr) :
    Stored (mergeLevel cfg now level mgr) := by
  refine stored_of_created hst (liveEntries now (mergedMap (mgr.levelSstables level)))
    (fun i => ?_) rfl rfl
  rw [levelSstables_mergeLevel, Function.update_apply, Function.update_apply]
  by_cases hi : i = level
  · refine ⟨[], List.nil_sublist _, ?_⟩
    rw [if_pos hi, if_neg (by omega)]
    rfl
  · refine ⟨mgr.levelSstables i, List.Sublist.refl _, ?_⟩
    rw [if_neg hi]
    split_ifs with hnext
    · rw [hnext]
    · rfl

theorem stored_mergeOldest (cfg : SSTableConfig) (now : Nat) (hst : Stored mgr)
    {newer : List SSTable} {sst : SSTable}
    (hfiles : mgr.levelSstables level = newer ++ [sst]) :
    Stored (mergeOldest cfg now sst level mgr) := by
  refine stored_of_created hst (liveEntries now (mergedMap (sst :: overlapping sst level mgr)))
    (fun i => ?_) rfl rfl
  rw [levelSstables_mergeOldest hst.numbered hfiles, Function.update_apply, Function.update_apply]
  by_cases hi : i = level
  · refine ⟨newer, ?_, ?_⟩
    · rw [hi, hfiles]
      exact List.sublist_append_left _ _
    · rw [if_pos hi, if_neg (by omega), List.nil_append]
  · rw [if_neg hi]
    split_ifs with hnext
    · exact ⟨_, hnext ▸ List.filter_sublist, rfl⟩
    · exact ⟨mgr.levelSstables i, List.Sublist.refl _, rfl⟩

section Runs

variable {now : Nat}

section Invariants

variable {P : SSTableManager → Prop} (hlevel : ∀ mgr level, P mgr → P (mergeLevel cfg now level mgr))
  (holdest : ∀ mgr level newer sst, P mgr → mgr.levelSstables level = newer ++ [sst] →
    P (mergeOldest cfg now sst level mgr))

include hlevel

/-- What the merge of a level and the call after it keep, the first strategy keeps. -/
theorem strategy0_invariant (hmgr : P mgr)
    {recur : SSTableManager → Nat → Option (Bool × SSTableManager)}
    (hrecur : ∀ m l r, P m → recur m l = some r → P r.2) {r : Bool × SSTableManager}
    (hrun : mergeSstablesByStrategy0 cfg now recur mgr level = some r) : P r.2 := by
  rw [mergeSstablesByStrategy0] at hrun
  by_cases hempty : (mgr.levelSstables level).isEmpty = true
  · rw [if_pos hempty] at hrun
    obtain rfl := Option.some.inj hrun
    exact hmgr
  · rw [if_neg hempty] at hrun
    obtain ⟨r', hr', hret⟩ := Option.bind_eq_some_iff.1 hrun
    obtain rfl := Option.some.inj hret
    exact hrecur _ _ r' (hlevel mgr level hmgr) hr'

include holdest

theorem strategy1_invariant (hmgr : P mgr)
    {recur : SSTableManager → Nat → Option (Bool × SSTableManager)}
    (hrecur : ∀ m l r, P m → recur m l = some r → P r.2) {r : Bool × SSTableManager}
    (hrun : mergeSstablesByStrategy1 cfg now recur mgr level = some r) : P r.2 := by
  rw [mergeSstablesByStrategy1] at hrun
  by_cases htop : level = mgr.maxLevel
  · rw [if_pos htop] at hrun
    exact strategy0_invariant hlevel hmgr hrecur hrun
  · rw [if_neg htop] at hrun
    cases hlast : (mgr.levelSstables level).getLast? with
    | none =>
        rw [hlast] at hrun
        obtain rfl := Option.some.inj hrun
        exact hmgr
    | some sst =>
        obtain ⟨newer, hfiles⟩ := List.getLast?_eq_some_iff.1 hlast
        rw [hlast] at hrun
        obtain ⟨r₁, hr₁, hrun⟩ := Option.bind_eq_some_iff.1 hrun
        obtain ⟨r₂, hr₂, hret⟩ := Option.bind_eq_some_iff.1 hrun
        obtain rfl := Option.some.inj hret
        have hfirst := hrecur _ _ r₁ (holdest mgr level newer sst hmgr hfiles) hr₁
        exact hrecur _ _ r₂ hfirst hr₂

/-- What the two merges keep, a call of `merge_sstables` keeps with all merges that it
triggers. -/
theorem mergeSstables_invariant (fuel : Nat) : ∀ (mgr : SSTableManager) (level : Nat)
    (r : Bool × SSTableManager), P mgr →
      mergeSstables cfg now fuel mgr level = some r → P r.2 := by
  induction fuel with
  | zero =>
      intro mgr level r _ hrun
      cases hrun
  | succ fuel ih =>
      intro mgr level r hmgr hrun
      rw [mergeSstables] at hrun
      by_cases hmax : mgr.maxLevel < level
      · rw [if_pos hmax] at hrun
        obtain rfl := Option.some.inj hrun
        exact hmgr
      · rw [if_neg hmax] at hrun
        by_cases hshould : shouldMerge cfg mgr level = true
        · rw [if_pos hshould] at hrun
          cases hstrategy : cfg.mergeStrategy with
          | sizeTieredCompaction =>
              rw [hstrategy] at hrun
              exact strategy0_invariant hlevel hmgr ih hrun
          | levelCompaction =>
              rw [hstrategy] at hrun
              exact strategy1_invariant hlevel holdest hmgr ih hrun
        · rw [if_neg hshould] at hrun
          obtain rfl := Option.some.inj hrun
          exact hmgr

end Invariants

/-- A call of `merge_sstables` keeps the properties, with the merges that it triggers. -/
theorem stored_mergeSstables (fuel : Nat) (mgr : SSTableManager) (level : Nat)
    (r : Bool × SSTableManager) (hst : Stored mgr)
    (hrun : mergeSstables cfg now fuel mgr level = some r) : Stored r.2 :=
  mergeSstables_invariant (fun _ _ h => stored_mergeLevel h)
    (fun _ _ _ _ h hfiles => stored_mergeOldest cfg now h hfiles) fuel mgr level r hst hrun

end Runs

/-- The files of a stored manager have distinct names. -/
theorem distinct_files (hst : Stored mgr) :
    mgr.files.Pairwise fun a b => a.sequenceNumber ≠ b.sequenceNumber := by
  rw [files, List.pairwise_flatMap]
  constructor
  · intro i _
    exact (hst.newest_first i).imp fun hlt => Nat.ne_of_gt hlt
  · -- a number that comes twice comes twice in one level
    refine (List.nodup_range (n := mgr.maxLevel + 1)).imp ?_
    intro i j hij a ha b hb heq
    exact hij (hst.number_unique i j a ha b hb heq)

/-- A manager that loads the files of another one answers as that one does. -/
theorem visibleAt_loadAll_files (hst : Stored mgr) (t : Nat) :
    (loadAll mgr.files).visibleAt t = mgr.visibleAt t :=
  visibleAt_congr hst.numbered (stored_loadAll (distinct_files hst)).numbered
    (levelSstables_loadAll (represents_files hst) hst.newest_first) t

theorem wellFormed_loadAll_files {cfg : SSTableConfig} (hst : Stored mgr)
    (hwf : WellFormed cfg mgr) : WellFormed cfg (loadAll mgr.files) := by
  have hnum := (stored_loadAll (distinct_files hst)).numbered
  refine ⟨hnum.above_max, hnum.number_lt, hnum.number_distinct, fun hstrategy => ?_⟩
  rw [levelSstables_loadAll (represents_files hst) hst.newest_first]
  exact hwf.disjoint hstrategy

end Stored

end SSTableManager

end EyaKV.Store
