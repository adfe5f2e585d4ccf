import EyaKV.Store.Draining
import EyaKV.Store.Recovery

/-!
# Opening a store

The constructor of `Storage` opens the directory of the SSTables and recovers the log. The
directory may have been written under another merge strategy, as `.smeta` says; then
`normalize_sstables` merges every level into the next one (`normalizeFrom`). `openDirectory` is the
constructor of `SSTableManager`, which a restore runs as well.

A recovery may meet records whose callbacks throw, so that the memtables it leaves are not `Normal`.
Their counters are right all the same, and their names go up (`restart_opens`).
-/

set_option autoImplicit false

namespace EyaKV.Store

open EyaKV.Base EyaKV.Base.Layers EyaKV.Base.Framing

/-- The directory of the SSTables: the files that can be loaded, the strategy that `.smeta` names,
and `extra_meta.bin`. A `.smeta` that is missing, or cannot be read, names no strategy; one whose
text is no number, after which the source compares a variable that it has not set, is left out. -/
structure TableDir where
  tables : List SSTable
  smeta : Option SSTableMergeStrategy
  extraMeta : Option Bytes

/-- The names of the files are distinct. -/
def TableDir.Distinct (dir : TableDir) : Prop :=
  dir.tables.Pairwise fun a b => a.sequenceNumber ≠ b.sequenceNumber

/-- The version of a key in the tables of a directory, when it is live at the second `t`. -/
def TableDir.live (t : Nat) (dir : TableDir) (key : Bytes) : Option EValue :=
  (SSTableManager.loadAll dir.tables).visibleAt t key

namespace SSTableManager

variable (cfg : SSTableConfig) (now fuel : Nat)

/-- The loop of `normalize_sstables` from level `i` on, for `rounds` rounds at most. -/
def normalizeFrom : Nat → Nat → SSTableManager → Option SSTableManager
  | 0, _, _ => none
  | rounds + 1, i, mgr =>
      -- `max_level_` is read again in each round
      if i < mgr.maxLevel then do
        let (_, mgr') ← mergeSstablesByStrategy0 cfg now (mergeSstables cfg now fuel) mgr i
        normalizeFrom rounds (i + 1) mgr'
      else some mgr

/-- The constructor of `SSTableManager`: `load_all` with `normalize_sstables`. -/
def openDirectory (dir : TableDir) : Option SSTableManager :=
  if dir.smeta = some cfg.mergeStrategy then some (loadAll dir.tables)
  else normalizeFrom cfg now fuel fuel 0 (loadAll dir.tables)

variable {cfg now fuel}

/-- What the two merges keep, the loop keeps. -/
theorem normalizeFrom_invariant {P : SSTableManager → Prop}
    (hlevel : ∀ mgr level, P mgr → P (mergeLevel cfg now level mgr))
    (holdest : ∀ mgr level newer sst, P mgr → mgr.levelSstables level = newer ++ [sst] →
      P (mergeOldest cfg now sst level mgr)) (rounds : Nat) :
    ∀ (i : Nat) (mgr mgr' : SSTableManager), P mgr →
      normalizeFrom cfg now fuel rounds i mgr = some mgr' → P mgr' := by
  induction rounds with
  | zero =>
      intro i mgr mgr' _ hrun
      cases hrun
  | succ rounds ih =>
      intro i mgr mgr' hmgr hrun
      rw [normalizeFrom] at hrun
      split at hrun
      · obtain ⟨r, hmerge, hrun⟩ := Option.bind_eq_some_iff.1 hrun
        have hr : P r.2 := strategy0_invariant hlevel hmgr
          (mergeSstables_invariant hlevel holdest fuel) hmerge
        exact ih (i + 1) r.2 mgr' hr hrun
      · obtain rfl := Option.some.inj hrun
        exact hmgr

/-- A directory with distinct names is opened into a stored manager. -/
theorem stored_openDirectory {dir : TableDir} {mgr : SSTableManager} (hdistinct : dir.Distinct)
    (hopen : openDirectory cfg now fuel dir = some mgr) : Stored mgr := by
  rw [openDirectory] at hopen
  split at hopen
  · obtain rfl := Option.some.inj hopen
    exact stored_loadAll hdistinct
  · exact normalizeFrom_invariant (fun _ _ h => stored_mergeLevel h)
      (fun _ _ _ _ h hfiles => stored_mergeOldest cfg now h hfiles) fuel 0 _ mgr
      (stored_loadAll hdistinct) hopen

end SSTableManager

namespace Storage

section Opening

variable {cfg : StorageConfig} {env : Env} {F : FloatOps} {toZset : Decoder UInt8 ZSet}
  {st st' : Storage}

/-- An operation on a memtable without a limit does not rotate it. -/
theorem Effect.edits_of_unlimited (h : Effect cfg env st st')
    (hlimit : st.memtable.memtableSize = 0) : Edits st st' := by
  rcases h with h | ⟨full, hfull, hne, -⟩
  · exact h
  · exact absurd (hfull.limit.trans hlimit) hne

theorem effect_recoverRecord (cfg : StorageConfig) (env : Env) (key : Bytes) (st : Storage)
    (a : Action) : Effect cfg env st (recoverRecord cfg env key st a) := by
  cases a with
  | update op => exact (filled_process cfg env st true op key).effect
  | set value => exact (filled_writeMemtable cfg env st key value).effect
  | remove => exact (edits_remove cfg st [key]).filled.effect
  | expire t => exact (filled_setKeyExpire cfg env st key t).effect
  | skip => exact Edits.rfl.filled.effect

/-- What holds in the course of any recovery, whatever its records do: the memtable has no limit,
and the names go up, as the files are read in the order of their names. -/
structure Recovers (files : StrMap Bytes) (st : Storage) : Prop where
  counted : st.Counted
  unlimited : st.memtable.memtableSize = 0
  named : st.Named
  ofFile : st.currentWalFilename = [] ∨ st.currentWalFilename ∈ files

theorem named_of_unnamed (hnamed : st.Named) (hnil : st.currentWalFilename = []) (name : Bytes)
    (imm : MemTable) : st.immutableMemtables[name]? ≠ some imm := by
  intro himm
  have hlt := hnamed name imm himm
  rw [hnil] at hlt
  cases name with
  | nil => exact absurd hlt (by decide)
  | cons c rest => exact absurd hlt (by simp)

/-- The insertion of a memtable under the current name, which a later name follows. -/
theorem named_insert {st' : Storage} {m : MemTable} (hnamed : st.Named)
    (himm : st'.immutableMemtables = st.immutableMemtables.insert st.currentWalFilename m)
    (hlater : compare st.currentWalFilename st'.currentWalFilename = .lt) : st'.Named := by
  intro name imm h
  rw [himm, Std.ExtTreeMap.getElem?_insert] at h
  split at h
  · next heq =>
      obtain rfl := Std.LawfulEqCmp.compare_eq_iff_eq.1 heq
      exact hlater
  · exact Std.TransCmp.lt_trans (hnamed name imm h) hlater

theorem counted_insert {st' : Storage} {m : MemTable} (hcounted : st.Counted) (hm : m.Counted)
    (himm : st'.immutableMemtables = st.immutableMemtables.insert st.currentWalFilename m)
    (hmem : st'.memtable.Counted) : st'.Counted := by
  refine ⟨hmem, fun name imm h => ?_⟩
  rw [himm, Std.ExtTreeMap.getElem?_insert] at h
  split at h
  · obtain rfl := Option.some.inj h
    exact hm
  · exact hcounted.immutables name imm h

theorem recovers_switchFile (cfg : StorageConfig) {files : StrMap Bytes}
    (h : Recovers files st) {name : Bytes} (hfile : name ∈ files)
    (hle : compare st.currentWalFilename name ≠ .gt) :
    Recovers files (switchFile cfg st name) ∧
      (switchFile cfg st name).currentWalFilename = name := by
  by_cases hsame : name = st.currentWalFilename
  · have hswitch : switchFile cfg st name = st := if_pos hsame
    rw [hswitch]
    exact ⟨h, hsame.symm⟩
  by_cases hnil : st.currentWalFilename = []
  · -- the first file names the memtable, and there is no immutable one yet
    have hswitch : switchFile cfg st name = { st with currentWalFilename := name } := by
      rw [switchFile, if_neg hsame, if_pos hnil]
    rw [hswitch]
    refine ⟨⟨⟨h.counted.memtable, h.counted.immutables⟩, h.unlimited, fun name' imm himm => ?_,
      Or.inr hfile⟩, rfl⟩
    exact absurd himm (named_of_unnamed h.named hnil name' imm)
  · have hlt : compare st.currentWalFilename name = .lt := by
      cases hcompare : compare st.currentWalFilename name with
      | lt => rfl
      | eq => exact absurd (Std.LawfulEqCmp.compare_eq_iff_eq.1 hcompare).symm hsame
      | gt => exact absurd hcompare hle
    have hswitch : switchFile cfg st name = { st with
        immutableMemtables := st.immutableMemtables.insert st.currentWalFilename st.memtable
        memtable := (createNewMemtable cfg).cancelSizeLimit
        currentWalFilename := name } := by
      rw [switchFile, if_neg hsame, if_neg hnil]
    rw [hswitch]
    refine ⟨⟨?_, rfl, ?_, Or.inr hfile⟩, rfl⟩
    · exact counted_insert h.counted h.counted.memtable rfl (MemTable.counted_new _)
    · exact named_insert h.named rfl hlt

theorem recovers_recoverCall {files : StrMap Bytes} (h : Recovers files st)
    {call : (Bytes × WalRecord) × Double} (hfile : call.1.1 ∈ files)
    (hle : compare st.currentWalFilename call.1.1 ≠ .gt)
    (hcall : recoverCall cfg env F toZset st call = some st') :
    Recovers files st' ∧ st'.currentWalFilename = call.1.1 := by
  obtain ⟨hswitched, hname⟩ := recovers_switchFile cfg h hfile hle
  obtain ⟨decoded, -, hst'⟩ := Option.map_eq_some_iff.1 hcall
  cases decoded with
  | error e =>
      obtain rfl := hst'
      exact ⟨hswitched, hname⟩
  | ok a =>
      obtain rfl := hst'
      -- the memtable of a recovery has no limit, so the record is not followed by a rotation
      have hedits := (effect_recoverRecord cfg env call.1.2.key (switchFile cfg st call.1.1)
        a).edits_of_unlimited hswitched.unlimited
      refine ⟨⟨hedits.counted_store hswitched.counted, hedits.limit.trans hswitched.unlimited,
        hedits.named hswitched.named, ?_⟩, hedits.filename.trans hname⟩
      rw [hedits.filename]
      exact hswitched.ofFile

/-- The calls of a recovery go up in the names of the files. -/
theorem recovers_foldlM {files : StrMap Bytes} (calls : List ((Bytes × WalRecord) × Double)) :
    ∀ st st' : Storage, Recovers files st → (∀ call ∈ calls, call.1.1 ∈ files) →
      calls.Pairwise (fun a b => compare a.1.1 b.1.1 ≠ .gt) →
      (∀ call ∈ calls, compare st.currentWalFilename call.1.1 ≠ .gt) →
      calls.foldlM (recoverCall cfg env F toZset) st = some st' → Recovers files st' := by
  induction calls with
  | nil =>
      intro st st' hst _ _ _ hrun
      obtain rfl := Option.some.inj hrun
      exact hst
  | cons call rest ih =>
      intro st st' hst hfiles hsorted hle hrun
      rw [List.foldlM_cons] at hrun
      obtain ⟨mid, hmid, hrun⟩ := Option.bind_eq_some_iff.1 hrun
      rw [List.forall_mem_cons] at hfiles hle
      rw [List.pairwise_cons] at hsorted
      obtain ⟨hrecovers, hname⟩ := recovers_recoverCall hst hfiles.1 hle.1 hmid
      apply ih mid st' hrecovers hfiles.2 hsorted.2 _ hrun
      intro call' hmem
      rw [hname]
      exact hsorted.1 call' hmem

theorem recoverCalls_sorted (w : Wal) :
    (∀ call ∈ w.recoverCalls, call.1 ∈ w.files) ∧
      w.recoverCalls.Pairwise fun a b => compare a.1 b.1 ≠ .gt := by
  constructor
  · intro call hcall
    obtain ⟨file, hfile, hcall⟩ := List.mem_flatMap.1 hcall
    obtain ⟨r, -, rfl⟩ := List.mem_map.1 hcall
    rw [Std.ExtTreeMap.mem_iff_isSome_getElem?]
    exact Option.isSome_of_eq_some (Std.ExtTreeMap.mem_toList_iff_getElem?_eq_some.1 hfile)
  · rw [Wal.recoverCalls, List.pairwise_flatMap]
    constructor
    · intro file _
      rw [List.pairwise_map]
      refine List.pairwise_of_forall fun a b => ?_
      simp
    · refine w.files.ordered_keys_toList.imp ?_
      intro a b hlt x hx y hy
      obtain ⟨r, -, rfl⟩ := List.mem_map.1 hx
      obtain ⟨r', -, rfl⟩ := List.mem_map.1 hy
      rw [hlt]
      decide

/-- The end of a recovery. -/
theorem finishRecovery_opens (cfg : StorageConfig) (env : Env) {files : StrMap Bytes}
    (h : Recovers files st) :
    (finishRecovery cfg env st).Counted ∧
      (finishRecovery cfg env st).sstableManager = st.sstableManager ∧
      ((∀ name ∈ files, compare name (newFilename cfg env) = .lt) →
        (finishRecovery cfg env st).Named) := by
  simp only [finishRecovery]
  split
  · have hlimit : (st.memtable.setSizeLimit cfg.memtableSize).Counted := h.counted.memtable
    refine ⟨counted_insert h.counted hlimit rfl (MemTable.counted_new _), rfl, fun hbelow => ?_⟩
    apply named_insert h.named rfl
    rcases h.ofFile with hnil | hfile
    · rw [hnil]
      exact nil_lt_newFilename cfg env
    · exact hbelow _ hfile
  · refine ⟨⟨h.counted.memtable, h.counted.immutables⟩, rfl, fun _ name imm himm => ?_⟩
    split
    · next hnil => exact absurd himm (named_of_unnamed h.named hnil name imm)
    · exact h.named name imm himm

/-- The store before the first record of a recovery. -/
theorem recovers_start (cfg : StorageConfig) (mgr : SSTableManager) (files : StrMap Bytes)
    (wal : Wal) : Recovers files ⟨(createNewMemtable cfg).cancelSizeLimit, [], ∅, mgr, wal⟩ := by
  have hnone : ∀ (name : Bytes) (imm : MemTable), (∅ : StrMap MemTable)[name]? ≠ some imm := by
    intro name imm h
    rw [Std.ExtTreeMap.getElem?_empty] at h
    cases h
  refine ⟨⟨MemTable.counted_new _, fun name imm h => ?_⟩, rfl, fun name imm h => ?_, Or.inl rfl⟩
  · exact absurd h (hnone name imm)
  · exact absurd h (hnone name imm)

theorem sstables_foldlM (calls : List ((Bytes × WalRecord) × Double)) : ∀ st st' : Storage,
    calls.foldlM (recoverCall cfg env F toZset) st = some st' →
      st'.sstableManager = st.sstableManager := by
  induction calls with
  | nil =>
      intro st st' hrun
      obtain rfl := Option.some.inj hrun
      rfl
  | cons call rest ih =>
      intro st st' hrun
      rw [List.foldlM_cons] at hrun
      obtain ⟨mid, hmid, hrun⟩ := Option.bind_eq_some_iff.1 hrun
      have hswitch : (switchFile cfg st call.1.1).sstableManager = st.sstableManager := by
        simp only [switchFile]
        split
        · rfl
        · split
          · rfl
          · rfl
      obtain ⟨decoded, -, rfl⟩ := Option.map_eq_some_iff.1 hmid
      rw [ih _ st' hrun, ← hswitch]
      cases decoded with
      | error e => rfl
      | ok a => exact (effect_recoverRecord cfg env call.1.2.key _ a).sstables

/-- **Every store that a restart gives** has right counters, and names that go up when the clock is
past the names of the log files. -/
theorem restart_opens {mgr : SSTableManager} {files : StrMap Bytes}
    (hrun : restart cfg env F toZset mgr files = some st) :
    st.Counted ∧ st.sstableManager = mgr ∧
      ((∀ name ∈ files, compare name (newFilename cfg env) = .lt) → st.Named) := by
  obtain ⟨hfiles, hsorted⟩ := recoverCalls_sorted ⟨files, none⟩
  obtain ⟨last, hfold, rfl⟩ := Option.map_eq_some_iff.1 hrun
  rw [← map_findings env (Wal.recoverCalls _), List.forall_mem_map] at hfiles
  rw [← map_findings env (Wal.recoverCalls _), List.pairwise_map] at hsorted
  have hlast : Recovers files last := by
    apply recovers_foldlM _ _ last (recovers_start cfg mgr files _) hfiles hsorted _ hfold
    intro call _
    show compare [] call.1.1 ≠ .gt
    cases call.1.1 with
    | nil => decide
    | cons c rest => simp
  obtain ⟨hcounted, hsst, hnamed⟩ := finishRecovery_opens cfg env hlast
  exact ⟨hcounted, hsst.trans (sstables_foldlM _ _ last hfold), hnamed⟩

/-- On a log without a record a restart gives the SSTables alone. -/
theorem restart_unlogged (cfg : StorageConfig) (env : Env) (F : FloatOps)
    (toZset : Decoder UInt8 ZSet) (mgr : SSTableManager) {files : StrMap Bytes}
    (hunlogged : ∀ name content : Bytes, files[name]? = some content → readRecords content = []) :
    ∃ st, restart cfg env F toZset mgr files = some st ∧ ∀ key, st.newestOf key = mgr.get key := by
  have hcalls : findings env (Wal.mk files none).recoverCalls = [] := by
    rw [← List.map_eq_nil_iff, map_findings env, Wal.recoverCalls, List.flatMap_eq_nil_iff]
    intro file hfile
    rw [hunlogged file.1 file.2 (Std.ExtTreeMap.mem_toList_iff_getElem?_eq_some.1 hfile),
      List.map_nil]
  have hempty : ∀ key, ((createNewMemtable cfg).cancelSizeLimit).get key = none :=
    fun key => MemTable.get_new _
  have hstart : Recovering ⟨(createNewMemtable cfg).cancelSizeLimit, [], ∅, mgr,
      (Wal.mk files none).afterRecover⟩ := by
    have hnew := MemTable.normal_new (cfg.memtableSize * 1024)
    refine ⟨⟨hnew.even, hnew.counted⟩, rfl, fun name imm h => ?_, fun _ => hempty, rfl⟩
    rw [Std.ExtTreeMap.getElem?_empty] at h
    cases h
  refine ⟨finishRecovery cfg env ⟨(createNewMemtable cfg).cancelSizeLimit, [], ∅, mgr,
    (Wal.mk files none).afterRecover⟩, ?_, fun key => ?_⟩
  · rw [restart, recover, hcalls]
    rfl
  · rw [newestOf_finishRecovery cfg env hstart, newestOf_eq, hempty, Option.none_or, olderLayers,
      toList_empty, SSTableManager.get_eq_newest]
    rfl

end Opening

end Storage

end EyaKV.Store
