import EyaKV.Store.Checkpoint
import Mathlib.Algebra.BigOperators.Group.List.Basic

/-!
# What the store records about its SSTables

The manager keeps the number of its SSTables and the size of each level beside the tables. The
sizes follow every file that is created and every merge, and each level has its newest file
first (`booked_run`). The number is set when a directory is loaded and never again, so it is
right as long as nothing is flushed and nothing merged. `Storage::empty` trusts it, and a wipe
trusts `Storage::empty` (`bookkeeping_run`).
-/

set_option autoImplicit false

namespace EyaKV.Store

open EyaKV.Base EyaKV.Base.Layers EyaKV.Base.Framing

namespace SSTableManager

section Sizes

variable {cfg : SSTableConfig} {mgr : SSTableManager} {now level : Nat}

/-- The size of files. -/
def totalSize (files : List SSTable) : Nat := (files.map SSTable.fileSize).sum

/-- The size of each level is recorded. -/
def Sized (mgr : SSTableManager) : Prop :=
  ∀ i, mgr.levelSstableSize i = totalSize (mgr.levelSstables i)

/-- The tables and their sizes are in order. -/
structure Booked (mgr : SSTableManager) : Prop where
  stored : Stored mgr
  sized : Sized mgr

@[simp] theorem totalSize_nil : totalSize [] = 0 := rfl

@[simp] theorem totalSize_cons (sst : SSTable) (files : List SSTable) :
    totalSize (sst :: files) = sst.fileSize + totalSize files := rfl

@[simp] theorem totalSize_append (l l' : List SSTable) :
    totalSize (l ++ l') = totalSize l + totalSize l' := by
  simp [totalSize]

/-- Files that are taken out take their size with them. -/
theorem totalSize_without {merged l : List SSTable} (hsub : merged.Sublist l)
    (hdistinct : l.Pairwise fun a b => a.sequenceNumber ≠ b.sequenceNumber) :
    totalSize (without merged l) + totalSize merged = totalSize l := by
  induction hsub with
  | slnil => rfl
  | @cons merged l sst hsub ih =>
      obtain ⟨hne, hrest⟩ := List.pairwise_cons.1 hdistinct
      -- the file is none of those that are taken out
      have hkeep : without merged (sst :: l) = sst :: without merged l := by
        apply List.filter_cons_of_pos
        simp only [Bool.not_eq_true', List.any_eq_false, beq_iff_eq]
        exact fun old hold heq => hne old (hsub.subset hold) heq.symm
      have := ih hrest
      rw [hkeep, totalSize_cons, totalSize_cons]
      omega
  | @cons_cons merged l sst hsub ih =>
      obtain ⟨hne, hrest⟩ := List.pairwise_cons.1 hdistinct
      have htake : without (sst :: merged) (sst :: l) = without merged l := by
        have hfirst : without [sst] (sst :: l) = without [sst] l := by simp [without]
        have hother : without [sst] l = l :=
          List.filter_eq_self.2 fun old hold => by simpa using hne old hold
        rw [without_cons, hfirst, hother]
      have := ih hrest
      rw [htake, totalSize_cons, totalSize_cons]
      omega

theorem sized_createFromEntries (h : Sized mgr) (entries : List (Bytes × EValue)) (level : Nat) :
    Sized (createFromEntries cfg entries level mgr).2 := by
  unfold createFromEntries
  split
  · exact h
  · intro i
    by_cases hi : i = level
    · subst hi
      simp [h i, Nat.add_comm]
    · simpa [Function.update_of_ne hi] using h i

theorem sized_removeMerged {merged : List SSTable} (h : Sized mgr)
    (hsub : merged.Sublist (mgr.levelSstables level))
    (hdistinct : (mgr.levelSstables level).Pairwise
      fun a b => a.sequenceNumber ≠ b.sequenceNumber) :
    Sized (removeMerged merged level mgr) := by
  intro i
  by_cases hi : i = level
  · subst hi
    have hsum := totalSize_without hsub hdistinct
    have hold : mgr.levelSstableSize i = totalSize (mgr.levelSstables i) := h i
    have hkept : (removeMerged merged i mgr).levelSstables i =
        without merged (mgr.levelSstables i) := Function.update_self ..
    have hsize : (removeMerged merged i mgr).levelSstableSize i =
        mgr.levelSstableSize i - totalSize merged := Function.update_self ..
    rw [hkept, hsize]
    omega
  · simpa [removeMerged, Function.update_of_ne hi] using h i

/-- The created file does not change the level below which it is created. -/
theorem levelSstables_created_of_ne (cfg : SSTableConfig) (mgr : SSTableManager)
    (entries : List (Bytes × EValue)) {i : Nat} (hi : i ≠ level) :
    (createFromEntries cfg entries level mgr).2.levelSstables i = mgr.levelSstables i := by
  rw [levelSstables_createFromEntries, Function.update_of_ne hi]

theorem sublist_created {entries : List (Bytes × EValue)} :
    (mgr.levelSstables level).Sublist
      ((createFromEntries cfg entries level mgr).2.levelSstables level) := by
  rw [levelSstables_createFromEntries, Function.update_self]
  exact List.sublist_append_right _ _

theorem booked_createFromEntries (cfg : SSTableConfig) (h : Booked mgr)
    (entries : List (Bytes × EValue)) (level : Nat) : Booked (createFromEntries cfg entries level mgr).2 :=
  ⟨stored_createFromEntries h.stored entries, sized_createFromEntries h.sized entries level⟩

theorem booked_mergeLevel (h : Booked mgr) : Booked (mergeLevel cfg now level mgr) := by
  refine ⟨stored_mergeLevel h.stored, ?_⟩
  have hcreated := booked_createFromEntries cfg h
    (liveEntries now (mergedMap (mgr.levelSstables level))) (level + 1)
  have hsame := levelSstables_created_of_ne cfg mgr
    (liveEntries now (mergedMap (mgr.levelSstables level))) (Nat.ne_of_lt (Nat.lt_succ_self level))
  apply sized_removeMerged hcreated.sized
  · rw [hsame]
  · exact hcreated.stored.numbered.number_distinct level

theorem booked_mergeOldest (h : Booked mgr) {newer : List SSTable} {sst : SSTable}
    (hfiles : mgr.levelSstables level = newer ++ [sst]) :
    Booked (mergeOldest cfg now sst level mgr) := by
  refine ⟨stored_mergeOldest cfg now h.stored hfiles, ?_⟩
  have hne : level ≠ level + 1 := Nat.ne_of_lt (Nat.lt_succ_self level)
  have hcreated := booked_createFromEntries cfg h
    (liveEntries now (mergedMap (sst :: overlapping sst level mgr))) (level + 1)
  -- the files of the next level are taken out first
  have hsub : (overlapping sst level mgr).Sublist (mgr.levelSstables (level + 1)) :=
    List.filter_sublist
  have hnext := sized_removeMerged hcreated.sized (hsub.trans sublist_created)
    (hcreated.stored.numbered.number_distinct _)
  have hlevel : (removeMerged (overlapping sst level mgr) (level + 1)
      (createFromEntries cfg (liveEntries now (mergedMap (sst :: overlapping sst level mgr)))
        (level + 1) mgr).2).levelSstables level = mgr.levelSstables level := by
    rw [levelSstables_removeMerged, Function.update_of_ne hne,
      levelSstables_created_of_ne cfg mgr _ hne]
  apply sized_removeMerged hnext
  · rw [hlevel, hfiles]
    exact List.sublist_append_right _ _
  · rw [hlevel]
    exact h.stored.numbered.number_distinct level

theorem sized_loadAll (files : List SSTable) : Sized (loadAll files) := by
  intro i
  have hperm : ((loadAll files).levelSstables i).Perm
      (files.filter fun sst => sst.level == i) := List.perm_insertionSort _ _
  exact (hperm.map SSTable.fileSize).sum_eq.symm

theorem booked_loadAll {dir : TableDir} (hdistinct : dir.Distinct) :
    Booked (loadAll dir.tables) :=
  ⟨stored_loadAll hdistinct, sized_loadAll _⟩

/-- A call of `merge_sstables`, with the merges that it triggers. -/
theorem booked_mergeSstables (fuel : Nat) (mgr : SSTableManager) (level : Nat)
    (r : Bool × SSTableManager) (h : Booked mgr)
    (hrun : mergeSstables cfg now fuel mgr level = some r) : Booked r.2 :=
  mergeSstables_invariant (fun _ _ h => booked_mergeLevel h)
    (fun _ _ _ _ h hfiles => booked_mergeOldest h hfiles) fuel mgr level r h hrun

theorem booked_openDirectory {fuel : Nat} {dir : TableDir} {mgr : SSTableManager}
    (hdistinct : dir.Distinct) (hopen : openDirectory cfg now fuel dir = some mgr) :
    Booked mgr := by
  rw [openDirectory] at hopen
  split at hopen
  · obtain rfl := Option.some.inj hopen
    exact booked_loadAll hdistinct
  · exact normalizeFrom_invariant (fun _ _ h => booked_mergeLevel h)
      (fun _ _ _ _ h hfiles => booked_mergeOldest h hfiles) fuel 0 _ mgr
      (booked_loadAll hdistinct) hopen

end Sizes

section Counts

variable {cfg : SSTableConfig} {mgr : SSTableManager}

/-- The number of tables in all levels. -/
def tableCount (mgr : SSTableManager) : Nat :=
  ∑ i ∈ Finset.range (mgr.maxLevel + 1), (mgr.levelSstables i).length

/-- Files in levels below `n` are counted level by level. -/
theorem sum_length_filter {n : Nat} (files : List SSTable) (h : ∀ sst ∈ files, sst.level < n) :
    ∑ i ∈ Finset.range n, (files.filter fun sst => sst.level == i).length = files.length := by
  induction files with
  | nil => simp
  | cons sst files ih =>
      rw [List.forall_mem_cons] at h
      have hone (i : Nat) : ((sst :: files).filter fun s => s.level == i).length =
          (if sst.level = i then 1 else 0) + (files.filter fun s => s.level == i).length := by
        by_cases hi : sst.level = i
        · simp [hi, Nat.add_comm]
        · simp [hi]
      simp only [hone, Finset.sum_add_distrib, Finset.sum_ite_eq, Finset.mem_range, h.1, if_true,
        ih h.2, List.length_cons]
      omega

/-- A directory that has been loaded is counted right. -/
theorem tableCount_loadAll (files : List SSTable) : (loadAll files).tableCount = files.length := by
  have hlength (i : Nat) : ((loadAll files).levelSstables i).length =
      (files.filter fun sst => sst.level == i).length := (List.perm_insertionSort _ _).length_eq
  simp only [tableCount, hlength]
  exact sum_length_filter files fun sst hsst => Nat.lt_succ_of_le (le_maxLevel_loadAll hsst).1

theorem tableCount_eq_zero_iff (habove : ∀ i, mgr.maxLevel < i → mgr.levelSstables i = []) :
    mgr.tableCount = 0 ↔ ∀ i, mgr.levelSstables i = [] := by
  rw [tableCount, Finset.sum_eq_zero_iff]
  constructor
  · intro h i
    rcases Nat.lt_or_ge mgr.maxLevel i with hi | hi
    · exact habove i hi
    · exact List.length_eq_zero_iff.1 (h i (Finset.mem_range.2 (Nat.lt_succ_of_le hi)))
  · exact fun h i _ => List.length_eq_zero_iff.2 (h i)

/-- A directory is opened without a merge: its `.smeta` names the strategy, or only its highest
level has files. -/
def Unmerged (cfg : SSTableConfig) (dir : TableDir) : Prop :=
  dir.smeta = some cfg.mergeStrategy ∨
    ∀ i < (loadAll dir.tables).maxLevel, (loadAll dir.tables).levelSstables i = []

theorem normalizeFrom_unmerged {now fuel : Nat} {mgr' : SSTableManager}
    (hempty : ∀ i < mgr.maxLevel, mgr.levelSstables i = []) (rounds : Nat) :
    ∀ i, normalizeFrom cfg now fuel rounds i mgr = some mgr' → mgr' = mgr := by
  induction rounds with
  | zero =>
      intro i hrun
      cases hrun
  | succ rounds ih =>
      intro i hrun
      rw [normalizeFrom] at hrun
      split at hrun
      · next hi =>
          rw [mergeSstablesByStrategy0, hempty i hi] at hrun
          exact ih (i + 1) hrun
      · exact (Option.some.inj hrun).symm

theorem openDirectory_unmerged {now fuel : Nat} {dir : TableDir} (h : Unmerged cfg dir)
    (hopen : openDirectory cfg now fuel dir = some mgr) : mgr = loadAll dir.tables := by
  rw [openDirectory] at hopen
  split at hopen
  · exact (Option.some.inj hopen).symm
  · next hsmeta => exact normalizeFrom_unmerged (h.resolve_left hsmeta) fuel 0 hopen

end Counts

end SSTableManager

namespace Storage

variable {cfg : StorageConfig} {env : Env} {st st' : Storage}

/-- `Storage::empty`. -/
def isEmpty (st : Storage) : Prop :=
  st.sstableManager.sstableCount = 0 ∧ st.memtable.size = 0 ∧ st.immutableMemtables.toList = []

instance (st : Storage) : Decidable st.isEmpty := inferInstanceAs (Decidable (_ ∧ _ ∧ _))

/-- No entry is stored: none in a memtable, and there is no table. -/
structure NoEntry (st : Storage) : Prop where
  drained : st.Drained
  tables : ∀ i, st.sstableManager.levelSstables i = []

/-- Every immutable memtable has an entry. -/
def NoBare (st : Storage) : Prop := ∀ (name : Bytes) (imm : MemTable),
  st.immutableMemtables[name]? = some imm → imm.size ≠ 0

theorem noBare_of_toList (h : st.immutableMemtables.toList = []) : st.NoBare := by
  intro name imm himm
  have hmem := Std.ExtTreeMap.mem_toList_iff_getElem?_eq_some.2 himm
  rw [h] at hmem
  cases hmem

/-- What a command does leaves no memtable without entries behind, when such a memtable is not
full. -/
theorem noBare_of_filled (hroom : ∀ m : MemTable, m.size = 0 → m.shouldFlush env.usage = false)
    (hbare : st.NoBare) (h : Filled cfg env st st') : st'.NoBare := by
  rcases h with h | ⟨full, hfull, hflush, hrest⟩
  · exact fun name imm himm => hbare name imm (h.immutables ▸ himm)
  · intro name imm himm
    rw [hrest.immutables] at himm
    simp only [rotateMemtable, Std.ExtTreeMap.getElem?_insert] at himm
    split at himm
    · obtain rfl := Option.some.inj himm
      intro hsize
      rw [hroom _ hsize] at hflush
      cases hflush
    · exact hbare name imm (hfull.immutables ▸ himm)

/-- A flush without immutable memtables does nothing. -/
theorem flush_of_toList (hlist : st.immutableMemtables.toList = [])
    (hrun : flushMemtableToSstable cfg env st = some st') : st' = st := by
  rw [flushMemtableToSstable, flushLoop, flushOldest, hlist] at hrun
  exact (Option.some.inj hrun).symm

end Storage

namespace Engine

open SSTableManager (Unmerged Booked tableCount)
open Storage (Library)

section Bookkeeping

variable {cfg : StorageConfig} {env : Env} {e e' start : Engine}

/-- The numbers are right, each level has its newest file first, the emptiness test is right, and
a wipe that reports success leaves nothing. -/
structure Bookkept (cfg : StorageConfig) (e : Engine) : Prop where
  count : e.storage.sstableManager.sstableCount = tableCount e.storage.sstableManager
  sizes : ∀ i, e.storage.sstableManager.levelSstableSize i =
    SSTableManager.totalSize (e.storage.sstableManager.levelSstables i)
  newest_first : ∀ i, NewestFirst (e.storage.sstableManager.levelSstables i)
  empty : e.storage.isEmpty ↔ e.storage.NoEntry
  wiped : ∀ env renamed e', e.clearAndBackupData cfg env renamed = some (true, e') →
    e'.storage.NoEntry

/-- The step neither writes nor merges a table without loading the directory again, and makes no
memtable without entries immutable. -/
def Untouched (cfg : StorageConfig) (e : Engine) (env : Env) : EngineStep → Prop
  | .execute .. => ∀ m : MemTable, m.size = 0 → m.shouldFlush env.usage = false
  | .flush => e.storage.immutableMemtables.toList = []
  | .createCheckpoint extraMetaData _ => e.Serves extraMetaData ∨
      (e.storage.memtable.size = 0 ∧ e.storage.immutableMemtables.toList = [])
  | .restoreFromCheckpoint file ending _ =>
      file = none ∨ (Unmerged cfg.sstable ending.left ∧ ending.left.Distinct)
  | .removeSnapshot _ | .clearAndBackupData _ => True

/-- The runs whose steps leave the tables untouched. -/
inductive UntouchedRun (cfg : StorageConfig) (start : Engine) : Engine → Prop where
  | nil : UntouchedRun cfg start start
  | snoc {e e' : Engine} (env : Env) (s : EngineStep) : UntouchedRun cfg start e →
      Untouched cfg e env s → e.step cfg env s = some e' → UntouchedRun cfg start e'

/-- What holds in the course of such a run. -/
structure Exact (e : Engine) : Prop where
  counted : e.storage.Counted
  booked : Booked e.storage.sstableManager
  count : e.storage.sstableManager.sstableCount = tableCount e.storage.sstableManager
  noBare : e.storage.NoBare

/-- The tables that a directory has when it is loaded. -/
theorem exact_of_loadAll (dir : TableDir) (hcounted : e.storage.Counted)
    (hbare : e.storage.NoBare) (hdistinct : dir.Distinct)
    (hmgr : e.storage.sstableManager = SSTableManager.loadAll dir.tables) : Exact e := by
  refine ⟨hcounted, ?_, ?_, hbare⟩
  · rw [hmgr]
    exact SSTableManager.booked_loadAll hdistinct
  · rw [hmgr, SSTableManager.tableCount_loadAll]
    rfl

theorem Exact.congr (h : Exact e) (hstorage : e'.storage = e.storage) : Exact e' := by
  refine ⟨?_, ?_, ?_, ?_⟩
  · exact hstorage ▸ h.counted
  · exact hstorage ▸ h.booked
  · exact hstorage ▸ h.count
  · exact hstorage ▸ h.noBare

theorem Exact.execute (h : Exact e) (lib : Library) (form : Overload) (readOnly closed : Bool)
    (type : UInt8) (args : List Bytes)
    (hroom : ∀ m : MemTable, m.size = 0 → m.shouldFlush env.usage = false) :
    Exact (e.execute cfg env lib form readOnly closed type args).1 := by
  have hfilled := Storage.filled_executeType cfg env e.storage lib form readOnly closed type args
  have hsst := hfilled.effect.sstables
  have hstorage : (e.execute cfg env lib form readOnly closed type args).1.storage =
      (e.storage.executeType cfg env lib form readOnly closed type args).1 :=
    storage_execute lib form readOnly closed type args e
  refine ⟨?_, ?_, ?_, ?_⟩
  · rw [hstorage]
    exact hfilled.effect.counted h.counted
  · rw [hstorage, hsst]
    exact h.booked
  · rw [hstorage, hsst]
    exact h.count
  · rw [hstorage]
    exact Storage.noBare_of_filled hroom h.noBare hfilled

theorem Exact.createCheckpoint {extraMetaData : Bytes} {packing : Packing} {path : Option Bytes}
    (h : Exact e) (hrun : e.createCheckpoint cfg env extraMetaData packing = some (e', path))
    (hnothing : e.Serves extraMetaData ∨
      (e.storage.memtable.size = 0 ∧ e.storage.immutableMemtables.toList = [])) : Exact e' := by
  rcases createCheckpoint_cases hrun with
    ⟨-, rfl, -⟩ | ⟨hfresh, ⟨-, -, st, hsettle, rfl⟩ | ⟨-, -, hwritten⟩⟩
  · exact h
  · have hempty := hnothing.resolve_left hfresh
    rw [Storage.settle, if_pos hempty] at hsettle
    exact h.congr (Option.some.inj hsettle).symm
  · have hempty := hnothing.resolve_left hfresh
    have hsettle := hwritten.settled
    rw [Storage.settle, if_pos hempty] at hsettle
    exact h.congr (Option.some.inj hsettle).symm

theorem Exact.restore {file : Option Archive} {ending : Ending} {out out' : Bytes} {ok : Bool}
    (h : Exact e) (hrun : e.restoreFromCheckpoint cfg env file ending out = some (ok, out', e'))
    (hdir : file = none ∨ (Unmerged cfg.sstable ending.left ∧ ending.left.Distinct)) :
    Exact e' := by
  rcases restore_cases hrun with
    ⟨-, -, -, rfl⟩ | ⟨archive, st, mgr, hfile, hsettle, hopen, hstorage, -⟩
  · exact h
  · obtain ⟨hunmerged, hdistinct⟩ := hdir.resolve_left (by rw [hfile]; exact Option.some_ne_none _)
    obtain ⟨-, hcounted, hlist⟩ := Storage.drained_of_settle h.counted hsettle
    apply exact_of_loadAll ending.left _ _ hdistinct
    · rw [hstorage]
      exact SSTableManager.openDirectory_unmerged hunmerged hopen
    · rw [hstorage]
      exact ⟨hcounted.memtable, hcounted.immutables⟩
    · rw [hstorage]
      exact Storage.noBare_of_toList hlist

/-- The names in a directory that is restored are distinct. -/
def FromDirectory : EngineStep → Prop
  | .restoreFromCheckpoint _ ending _ => ending.left.Distinct
  | _ => True

/-- The tables and their sizes stay in order, whatever is flushed and merged. -/
theorem booked_step {s : EngineStep} (hcounted : e.storage.Counted)
    (h : Booked e.storage.sstableManager) (hs : FromDirectory s)
    (hrun : e.step cfg env s = some e') : Booked e'.storage.sstableManager := by
  -- a flush creates files and merges them; both keep the books
  have hcreate (entries : List (Bytes × EValue)) (mgr : SSTableManager) (hmgr : Booked mgr) :
      Booked (SSTableManager.createFromEntries cfg.sstable entries 0 mgr).2 :=
    SSTableManager.booked_createFromEntries _ hmgr entries 0
  have hmerge (mgr : SSTableManager) (r : Bool × SSTableManager) (hmgr : Booked mgr)
      (hr : SSTableManager.mergeSstables cfg.sstable env.now cfg.mergeFuel mgr 0 = some r) :
      Booked r.2 := SSTableManager.booked_mergeSstables _ mgr 0 r hmgr hr
  have hsettle {st : Storage} (hrun : Storage.settle cfg env e.storage = some st) :
      Booked st.sstableManager := Storage.sstables_of_settle hcreate hmerge hcounted h hrun
  cases s with
  | execute lib form readOnly closed type args =>
      obtain rfl := Option.some.inj hrun
      rw [storage_execute, (Storage.effect_executeType cfg env e.storage lib form readOnly closed
        type args).sstables]
      exact h
  | flush =>
      obtain ⟨st, hflush, rfl⟩ := Option.map_eq_some_iff.1 hrun
      exact Storage.flush_sstables hcreate hmerge hcounted h hflush
  | createCheckpoint extraMetaData packing =>
      obtain ⟨r, hr, rfl⟩ := Option.map_eq_some_iff.1 hrun
      rcases storage_createCheckpoint hr with heq | hst
      · exact heq ▸ h
      · exact hsettle hst
  | restoreFromCheckpoint file ending out =>
      obtain ⟨r, hr, rfl⟩ := Option.map_eq_some_iff.1 hrun
      rcases restore_cases hr with ⟨-, -, -, heq⟩ | ⟨_, st, mgr, -, -, hopen, hstorage, -⟩
      · exact heq ▸ h
      · rw [hstorage]
        exact SSTableManager.booked_openDirectory hs hopen
  | removeSnapshot path =>
      obtain rfl := Option.some.inj hrun
      rw [storage_removeSnapshot]
      exact h
  | clearAndBackupData renamed =>
      obtain ⟨r, hr, rfl⟩ := Option.map_eq_some_iff.1 hrun
      rcases clearAndBackupData_cases hr with heq | ⟨st, mgr, hst, -, -, hmgr, -, -, hload⟩
      · exact heq ▸ h
      · rw [hmgr]
        rcases hload with ⟨rfl, -⟩ | ⟨rfl, -⟩
        · exact ⟨SSTableManager.stored_loadAll
            (SSTableManager.distinct_files (hsettle hst).stored), SSTableManager.sized_loadAll _⟩
        · exact ⟨SSTableManager.stored_empty, fun _ => rfl⟩

/-- The tables and their sizes are in order in every run. -/
theorem booked_run {trace : List (Env × EngineStep)} (hcounted : start.storage.Counted)
    (h : Booked start.storage.sstableManager) (hs : ∀ p ∈ trace, FromDirectory p.2)
    (hrun : Run cfg start trace e) : Booked e.storage.sstableManager := by
  induction hrun with
  | nil => exact h
  | snoc env s hrun hstep ih =>
      have hbefore := ih fun p hp => hs p (List.mem_append_left _ hp)
      exact booked_step (counted_run hcounted hrun) hbefore
        (hs _ (List.mem_append_right _ (List.mem_singleton_self _))) hstep

/-- A wipe loads the directory again, also when it could not be renamed. -/
theorem Exact.clearAndBackupData {renamed ok : Bool} (h : Exact e)
    (hrun : e.clearAndBackupData cfg env renamed = some (ok, e')) : Exact e' := by
  rcases clearAndBackupData_cases hrun with heq | ⟨st, mgr, hsettle, hmem, himm, hmgr, -, -, hload⟩
  · exact heq ▸ h
  · obtain ⟨-, hcounted, hlist⟩ := Storage.drained_of_settle h.counted hsettle
    have hst := Storage.sstables_of_settle (P := Booked)
      (fun entries mgr h => SSTableManager.booked_createFromEntries _ h entries 0)
      (fun mgr r h hmerge => SSTableManager.booked_mergeSstables _ mgr 0 r h hmerge)
      h.counted h.booked hsettle
    have hcounted' : e'.storage.Counted := ⟨hmem ▸ hcounted.memtable, himm ▸ hcounted.immutables⟩
    have hbare : e'.storage.NoBare := Storage.noBare_of_toList (himm ▸ hlist)
    rcases hload with ⟨hfiles, -⟩ | ⟨hnone, -⟩
    · exact exact_of_loadAll ⟨st.sstableManager.files, none, none⟩ hcounted' hbare
        (SSTableManager.distinct_files hst.stored) (hmgr.trans hfiles)
    · exact exact_of_loadAll ⟨[], none, none⟩ hcounted' hbare List.Pairwise.nil
        (hmgr.trans hnone)

/-- A step that leaves the tables untouched keeps the numbers exact. -/
theorem Exact.step {s : EngineStep} (h : Exact e) (hs : Untouched cfg e env s)
    (hrun : e.step cfg env s = some e') : Exact e' := by
  cases s with
  | execute lib form readOnly closed type args =>
      obtain rfl := Option.some.inj hrun
      exact h.execute lib form readOnly closed type args hs
  | flush =>
      obtain ⟨st, hflush, rfl⟩ := Option.map_eq_some_iff.1 hrun
      exact h.congr (Storage.flush_of_toList hs hflush)
  | createCheckpoint extraMetaData packing =>
      obtain ⟨r, hr, rfl⟩ := Option.map_eq_some_iff.1 hrun
      exact h.createCheckpoint hr hs
  | restoreFromCheckpoint file ending out =>
      obtain ⟨r, hr, rfl⟩ := Option.map_eq_some_iff.1 hrun
      exact h.restore hr hs
  | removeSnapshot path =>
      obtain rfl := Option.some.inj hrun
      exact h.congr (storage_removeSnapshot path e)
  | clearAndBackupData renamed =>
      obtain ⟨r, hr, rfl⟩ := Option.map_eq_some_iff.1 hrun
      exact h.clearAndBackupData hr

/-- The emptiness test is right when the numbers are exact. -/
theorem Exact.isEmpty_iff (h : Exact e) : e.storage.isEmpty ↔ e.storage.NoEntry := by
  have hzero := SSTableManager.tableCount_eq_zero_iff h.booked.stored.above_max
  constructor
  · rintro ⟨hcount, hsize, hlist⟩
    refine ⟨Storage.drained_of_empty h.counted hsize hlist, hzero.1 ?_⟩
    rw [← h.count]
    exact hcount
  · intro hnone
    refine ⟨?_, Storage.size_of_get h.counted.memtable hnone.drained.memtable, ?_⟩
    · rw [h.count]
      exact hzero.2 hnone.tables
    · apply List.eq_nil_iff_forall_not_mem.2
      intro entry hentry
      have himm := Std.ExtTreeMap.mem_toList_iff_getElem?_eq_some.1 hentry
      have hget := hnone.drained.immutables entry.1 entry.2 himm
      exact h.noBare entry.1 entry.2 himm
        (Storage.size_of_get (h.counted.immutables entry.1 entry.2 himm) hget)

/-- A wipe that reports success has found nothing, or has renamed the directory. -/
theorem Exact.wiped {renamed : Bool} (h : Exact e)
    (hrun : e.clearAndBackupData cfg env renamed = some (true, e')) : e'.storage.NoEntry := by
  have hexact := h.clearAndBackupData hrun
  rw [Engine.clearAndBackupData] at hrun
  split at hrun
  · next hempty =>
      obtain ⟨-, rfl⟩ := Prod.mk.inj (Option.some.inj hrun)
      exact h.isEmpty_iff.1 hempty
  · obtain ⟨st, hsettle, hrun⟩ := Option.bind_eq_some_iff.1 hrun
    obtain ⟨mgr, hopen, hrun⟩ := Option.bind_eq_some_iff.1 hrun
    obtain ⟨hrenamed, rfl⟩ := Prod.mk.inj (Option.some.inj hrun)
    obtain ⟨hdrained, -, -⟩ := Storage.drained_of_settle h.counted hsettle
    subst hrenamed
    have hunmerged : Unmerged cfg.sstable ⟨[], none, none⟩ :=
      .inr fun i hi => absurd hi (Nat.not_lt_zero i)
    have hmgr : mgr = SSTableManager.loadAll [] :=
      SSTableManager.openDirectory_unmerged hunmerged hopen
    refine ⟨⟨hdrained.memtable, hdrained.immutables⟩, fun i => ?_⟩
    rw [hmgr]
    rfl

theorem Exact.bookkept (h : Exact e) : Bookkept cfg e :=
  ⟨h.count, h.booked.sized, h.booked.stored.newest_first, h.isEmpty_iff,
    fun _ _ _ hrun => h.wiped hrun⟩

/-- **What the store records is right**, in every run from a directory that is opened without a
merge, as long as no table is written or merged. -/
theorem bookkeeping_run {F : FloatOps} {toZset : Decoder UInt8 ZSet} {dir : TableDir}
    {logs : StrMap Bytes} {snapshots : StrMap Archive}
    (hopen : opening cfg env F toZset dir logs snapshots = some start)
    (hdistinct : dir.Distinct) (hunmerged : Unmerged cfg.sstable dir)
    (hbare : start.storage.NoBare) (hrun : UntouchedRun cfg start e) : Bookkept cfg e := by
  have hstart : Exact start := by
    obtain ⟨mgr, hload, hopen⟩ := Option.bind_eq_some_iff.1 hopen
    obtain ⟨st, hrestart, hret⟩ := Option.bind_eq_some_iff.1 hopen
    obtain rfl := Option.some.inj hret
    obtain ⟨hcounted, hmgr, -⟩ := Storage.restart_opens hrestart
    exact exact_of_loadAll dir hcounted hbare hdistinct
      (hmgr.trans (SSTableManager.openDirectory_unmerged hunmerged hload))
  have hexact : Exact e := by
    induction hrun with
    | nil => exact hstart
    | snoc env s _ hs hstep ih => exact ih.step hs hstep
  exact hexact.bookkept

open Storage (roomyConfig tick noFloats noLibrary)

/-- `SET k v`. -/
def setKey : EngineStep := .execute noLibrary .string false false 6 [[107], [118]]

/-- A directory with two tables, on two levels. -/
def twoTables : TableDir :=
  ⟨[⟨(∅ : StrMap EValue).insert [3] { value := .string [5] }, 30, 0, 1, by decide⟩,
      ⟨(∅ : StrMap EValue).insert [2] { value := .string [8] }, 40, 1, 0, by decide⟩],
    some .sizeTieredCompaction, none⟩

theorem opening_twoTables :
    (opening roomyConfig (tick 0) noFloats (fun _ => none) twoTables ∅ ∅).isSome = true := by
  decide

/-- The store that is opened there. -/
def tabled : Engine :=
  (opening roomyConfig (tick 0) noFloats (fun _ => none) twoTables ∅ ∅).get opening_twoTables

/-- A command, and then a restore of a snapshot with one table. -/
theorem tabled_steps :
    ((tabled.step roomyConfig (tick 1) setKey).bind fun e =>
      (e.step roomyConfig (tick 2)
          (.restoreFromCheckpoint (some (.whole oneKey)) (.finished true oneKey) [])).map fun e' =>
        (e.storage.sstableManager.sstableCount, e'.storage.sstableManager.sstableCount)) =
      some (2, 1) := by
  decide

/-- The store that opens two tables keeps its books over a command, and over a restore. -/
theorem bookkeeping_run_tabled : ∃ e e',
    UntouchedRun roomyConfig tabled e ∧ UntouchedRun roomyConfig tabled e' ∧
      e.storage.sstableManager.sstableCount = 2 ∧ e'.storage.sstableManager.sstableCount = 1 ∧
      Bookkept roomyConfig e ∧ Bookkept roomyConfig e' := by
  have hopen : opening roomyConfig (tick 0) noFloats (fun _ => none) twoTables ∅ ∅ = some tabled :=
    (Option.some_get opening_twoTables).symm
  have hdistinct : twoTables.Distinct := by simp [twoTables, TableDir.Distinct]
  have hbare : tabled.storage.NoBare := Storage.noBare_of_toList (by decide)
  have hroom : ∀ m : MemTable, m.size = 0 → m.shouldFlush (tick 1).usage = false := by
    intro m _
    cases hlimit : m.memtableSize with
    | zero => exact MemTable.shouldFlush_of_no_limit hlimit
    | succ n => simp [MemTable.shouldFlush, hlimit, tick]
  obtain ⟨e, hset, hrest⟩ := Option.bind_eq_some_iff.1 tabled_steps
  obtain ⟨e', hrestore, hcounts⟩ := Option.map_eq_some_iff.1 hrest
  obtain ⟨htwo, hone⟩ := Prod.mk.inj hcounts
  have hrun : UntouchedRun roomyConfig tabled e := .snoc (tick 1) setKey .nil hroom hset
  -- the snapshot has the strategy of the store, so its table is loaded as it is
  have huntouched : Untouched roomyConfig e (tick 2)
      (.restoreFromCheckpoint (some (.whole oneKey)) (.finished true oneKey) []) :=
    Or.inr ⟨.inl rfl, List.pairwise_singleton _ _⟩
  have hrun' : UntouchedRun roomyConfig tabled e' := .snoc (tick 2) _ hrun huntouched hrestore
  refine ⟨e, e', hrun, hrun', htwo, hone, ?_, ?_⟩
  · exact bookkeeping_run hopen hdistinct (.inl rfl) hbare hrun
  · exact bookkeeping_run hopen hdistinct (.inl rfl) hbare hrun'

/-- After a command and a checkpoint the key is in a table that the number does not count: the
store says that it is empty. -/
theorem setKey_flushed :
    (((fresh roomyConfig (tick 0)).step roomyConfig (tick 1) setKey).bind fun e =>
      (e.step roomyConfig (tick 2) (.createCheckpoint [] .done)).map fun e' =>
        (decide e'.storage.isEmpty, (e'.storage.sstableManager.levelSstables 0).length)) =
      some (true, 1) := by
  decide

/-- A wipe of that store reports success and leaves the table in place. -/
theorem bookkeeping_not_kept : ∃ e,
    Reachable roomyConfig e ∧ e.clearAndBackupData roomyConfig (tick 3) true = some (true, e) ∧
      ¬ e.storage.NoEntry ∧ ¬ Bookkept roomyConfig e := by
  obtain ⟨e₁, hset, hrest⟩ := Option.bind_eq_some_iff.1 setKey_flushed
  obtain ⟨e, hcheckpoint, hresult⟩ := Option.map_eq_some_iff.1 hrest
  obtain ⟨hempty, hlength⟩ := Prod.mk.inj hresult
  have hisEmpty : e.storage.isEmpty := of_decide_eq_true hempty
  have hwipe : e.clearAndBackupData roomyConfig (tick 3) true = some (true, e) := if_pos hisEmpty
  have hentry : ¬ e.storage.NoEntry := by
    intro h
    rw [h.tables 0] at hlength
    cases hlength
  refine ⟨e, ⟨_, _, opened_fresh roomyConfig (tick 0) (by decide),
    (Run.nil.snoc (tick 1) setKey hset).snoc (tick 2) _ hcheckpoint⟩, hwipe, hentry, fun h => ?_⟩
  exact hentry (h.empty.1 hisEmpty)

end Bookkeeping

end Engine

end EyaKV.Store
