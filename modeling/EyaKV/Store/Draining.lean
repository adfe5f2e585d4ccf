import EyaKV.Store.Directory
import EyaKV.Store.Effects
import EyaKV.Store.Flushing

/-!
# Draining the memtables

A checkpoint and a restore begin with `force_flush`, unless the store has no entries in memory
(`settle`). It leaves no entry in the memtables, so that the SSTables hold all of the store
(`drained_of_settle`), and with safe merges every key keeps its live version (`kept_of_settle`).
The log is not cleared as a whole: each round deletes the file of the memtable that it writes, and
so no record is left only where every file with a record belongs to such a memtable (`Backed`,
`unlogged_of_settle`).
-/

set_option autoImplicit false

namespace EyaKV.Store

open EyaKV.Base EyaKV.Base.Layers

namespace Storage

open SSTableManager (WellFormed)

section Settling

variable (cfg : StorageConfig) (env : Env)

/-- `Storage::force_flush`. -/
def forceFlush (st : Storage) : Option Storage :=
  flushMemtableToSstable cfg env (if 0 < st.memtable.size then rotateMemtable cfg env st else st)

/-- The start of a checkpoint, a restore and a backup: nothing is flushed when there are no entries
in the memtable and no immutable memtables. -/
def settle (st : Storage) : Option Storage :=
  if st.memtable.size = 0 ∧ st.immutableMemtables.toList = [] then some st
  else forceFlush cfg env st

/-- No memtable has an entry. -/
structure Drained (st : Storage) : Prop where
  memtable : ∀ key, st.memtable.get key = none
  immutables : ∀ (name : Bytes) (imm : MemTable),
    st.immutableMemtables[name]? = some imm → ∀ key, imm.get key = none

variable {cfg env} {st st' : Storage}

/-- The SSTables decide what a drained store holds. -/
theorem newestOf_of_drained (h : st.Drained) (key : Bytes) :
    st.newestOf key = st.sstableManager.get key := by
  have himm : newest (st.immutableMemtables.toList.reverse.map fun e => e.2.get) key = none := by
    rw [newest, List.findSome?_eq_none_iff]
    intro layer hlayer
    obtain ⟨e, he, rfl⟩ := List.mem_map.1 hlayer
    have hentry := Std.ExtTreeMap.mem_toList_iff_getElem?_eq_some.1 (List.mem_reverse.1 he)
    exact h.immutables e.1 e.2 hentry key
  rw [newestOf_eq, h.memtable, Option.none_or, olderLayers, newest_append, himm, Option.none_or,
    SSTableManager.get_eq_newest]

theorem live_of_drained (h : st.Drained) (t : Nat) (key : Bytes) :
    st.live t key = st.sstableManager.visibleAt t key := by
  rw [Storage.live, newestOf_of_drained h, SSTableManager.visibleAt]

/-- A loop that has a round for each immutable memtable leaves none. -/
theorem toList_flushLoop (rounds : Nat) : ∀ st st' : Storage, st.Counted →
    st.immutableMemtables.toList.length < rounds → flushLoop cfg env rounds st = some st' →
      st'.immutableMemtables.toList = [] := by
  induction rounds with
  | zero =>
      intro st st' _ hlength _
      cases hlength
  | succ rounds ih =>
      intro st st' hcounted hlength hrun
      obtain ⟨⟨mid, goOn⟩, hround, hrun⟩ := Option.bind_eq_some_iff.1 hrun
      rcases flushOldest_cases hcounted hround with
        ⟨rfl, rfl, hlist⟩ | ⟨name, imm, rest, hlist, -, rfl, himm, -⟩
      · obtain rfl := Option.some.inj hrun
        exact hlist
      · -- the round has removed the oldest one
        have hrest : mid.immutableMemtables.toList = rest := by
          rw [himm, OrderedMap.toList_erase_head _ hlist]
        apply ih mid st' (counted_of_round hcounted hround) _ hrun
        rw [hlist, List.length_cons] at hlength
        rw [hrest]
        omega

/-- What a flush leaves in memory: the memtable, and no immutable memtable. -/
theorem flush_drains (hcounted : st.Counted)
    (hrun : flushMemtableToSstable cfg env st = some st') :
    st'.immutableMemtables.toList = [] ∧ st'.memtable = st.memtable := by
  constructor
  · apply toList_flushLoop _ st st' hcounted _ hrun
    rw [Std.ExtTreeMap.length_toList]
    exact Nat.lt_succ_self _
  · have hkept := flushLoop_invariant
      (P := fun s => s.Counted ∧ s.memtable = st.memtable) ?_ _ st st' ⟨hcounted, rfl⟩ hrun
    · exact hkept.2
    · rintro s s' goOn ⟨hs, hmem⟩ hround
      refine ⟨counted_of_round hs hround, ?_⟩
      rcases flushOldest_cases hs hround with ⟨rfl, -⟩ | ⟨_, _, _, -, -, -, -, hmem', -⟩
      · exact hmem
      · exact hmem'.trans hmem

theorem drained_of_empty (hcounted : st.Counted) (hsize : st.memtable.size = 0)
    (hlist : st.immutableMemtables.toList = []) : st.Drained := by
  refine ⟨MemTable.get_eq_none_of_size hcounted.memtable hsize, fun name imm himm => ?_⟩
  have hmem := Std.ExtTreeMap.mem_toList_iff_getElem?_eq_some.2 himm
  rw [hlist] at hmem
  cases hmem

/-- **Settling drains the store.** -/
theorem drained_of_settle (hcounted : st.Counted) (hrun : settle cfg env st = some st') :
    st'.Drained ∧ st'.Counted ∧ st'.immutableMemtables.toList = [] := by
  rw [settle] at hrun
  split at hrun
  · next hempty =>
      obtain rfl := Option.some.inj hrun
      exact ⟨drained_of_empty hcounted hempty.1 hempty.2, hcounted, hempty.2⟩
  · rw [forceFlush] at hrun
    -- what is flushed has an empty memtable over the immutable ones
    have hflushed : ∀ start : Storage, start.Counted → start.memtable.size = 0 →
        flushMemtableToSstable cfg env start = some st' →
          st'.Drained ∧ st'.Counted ∧ st'.immutableMemtables.toList = [] := by
      intro start hstart hsize hflush
      obtain ⟨hlist, hmem⟩ := flush_drains hstart hflush
      have hcounted' :=
        flushLoop_invariant (fun _ _ _ => counted_of_round) _ start st' hstart hflush
      refine ⟨drained_of_empty hcounted' ?_ hlist, hcounted', hlist⟩
      rw [hmem]
      exact hsize
    split at hrun
    · exact hflushed _ (counted_rotate hcounted) rfl hrun
    · next hsize => exact hflushed st hcounted (by omega) hrun

/-- What holds of the start of the flush, and is kept by its rounds, holds after settling. -/
theorem settle_invariant {P : Storage → Prop} (hst : P st)
    (hrotate : 0 < st.memtable.size → P (rotateMemtable cfg env st))
    (hround : ∀ (s s' : Storage) (goOn : Bool), P s →
      flushOldest cfg env s = some (s', goOn) → P s')
    (hrun : settle cfg env st = some st') : P st' := by
  rw [settle] at hrun
  split at hrun
  · obtain rfl := Option.some.inj hrun
    exact hst
  · rw [forceFlush] at hrun
    apply flushLoop_invariant hround _ _ st' _ hrun
    split
    · next hsize => exact hrotate hsize
    · exact hst

/-- What the writing of a file and the merges keep, settling keeps. -/
theorem sstables_of_settle {P : SSTableManager → Prop}
    (hcreate : ∀ entries mgr, P mgr →
      P (SSTableManager.createFromEntries cfg.sstable entries 0 mgr).2)
    (hmerge : ∀ mgr r, P mgr →
      SSTableManager.mergeSstables cfg.sstable env.now cfg.mergeFuel mgr 0 = some r → P r.2)
    (hcounted : st.Counted) (hst : P st.sstableManager)
    (hrun : settle cfg env st = some st') : P st'.sstableManager := by
  have hkept := settle_invariant (P := fun s => s.Counted ∧ P s.sstableManager) ⟨hcounted, hst⟩
    (fun _ => ⟨counted_rotate hcounted, hst⟩) ?_ hrun
  · exact hkept.2
  · rintro s s' goOn ⟨hs, hmgr⟩ hround
    exact ⟨counted_of_round hs hround, sstables_of_round hcreate hmerge hs hmgr hround⟩

theorem stored_of_settle (hcounted : st.Counted) (hst : SSTableManager.Stored st.sstableManager)
    (hrun : settle cfg env st = some st') : SSTableManager.Stored st'.sstableManager := by
  apply sstables_of_settle _ _ hcounted hst hrun
  · exact fun entries mgr h => SSTableManager.stored_createFromEntries h entries
  · exact fun mgr r h hmerge => SSTableManager.stored_mergeSstables _ mgr 0 r h hmerge

theorem wellFormed_of_settle (hcounted : st.Counted)
    (hwf : WellFormed cfg.sstable st.sstableManager) (hrun : settle cfg env st = some st') :
    WellFormed cfg.sstable st'.sstableManager := by
  apply sstables_of_settle _ _ hcounted hwf hrun
  · exact fun entries mgr h => SSTableManager.wellFormed_createFromEntries h entries fun _ => rfl
  · exact fun mgr r h hmerge => (SSTableManager.outcome_mergeSstables _ mgr 0 r h hmerge).1

theorem size_of_get {m : MemTable} (hm : m.Counted) (hget : ∀ key, m.get key = none) :
    m.size = 0 := by
  by_contra hne
  obtain ⟨e, rest, hentries⟩ := List.exists_cons_of_ne_nil (MemTable.getAllEntries_ne_nil hm hne)
  have hmem : (e.1, e.2) ∈ m.getAllEntries := by
    rw [hentries]
    exact List.mem_cons_self
  rw [MemTable.mem_getAllEntries_iff, hget] at hmem
  cases hmem

/-- A round of a flush only takes immutable memtables away. -/
theorem named_of_round {goOn : Bool} (hcounted : st.Counted) (hnamed : st.Named)
    (hround : flushOldest cfg env st = some (st', goOn)) : st'.Named := by
  rcases flushOldest_cases hcounted hround with
    ⟨rfl, -⟩ | ⟨name, imm, rest, -, -, -, hrest, -, hfilename, -⟩
  · exact hnamed
  · intro name' imm' h
    rw [hfilename]
    apply hnamed name' imm'
    rw [hrest, Std.ExtTreeMap.getElem?_erase] at h
    split at h
    · cases h
    · exact h

/-- A round of a flush of a drained store drops a memtable without entries. -/
theorem drained_of_round {goOn : Bool} (hcounted : st.Counted) (hdrained : st.Drained)
    (hround : flushOldest cfg env st = some (st', goOn)) :
    st'.Drained ∧ st'.sstableManager = st.sstableManager := by
  rcases flushOldest_cases hcounted hround with
    ⟨rfl, -⟩ | ⟨name, imm, rest, hlist, himm, -, hrest, hmem, -, hwritten⟩
  · exact ⟨hdrained, rfl⟩
  · have hentry : st.immutableMemtables[name]? = some imm := by
      apply Std.ExtTreeMap.mem_toList_iff_getElem?_eq_some.1
      rw [hlist]
      exact List.mem_cons_self
    refine ⟨⟨fun key => hmem ▸ hdrained.memtable key, fun name' imm' h => ?_⟩, ?_⟩
    · rw [hrest, Std.ExtTreeMap.getElem?_erase] at h
      split at h
      · cases h
      · exact hdrained.immutables name' imm' h
    · rcases hwritten with ⟨-, -, hsst⟩ | ⟨hne, -⟩
      · exact hsst
      · exact absurd (size_of_get himm (hdrained.immutables name imm hentry)) hne

/-- What the rounds keep of a drained store. -/
theorem drained_round {base : SSTableManager} {goOn : Bool}
    (h : st.Counted ∧ st.Drained ∧ st.sstableManager = base)
    (hround : flushOldest cfg env st = some (st', goOn)) :
    st'.Counted ∧ st'.Drained ∧ st'.sstableManager = base := by
  obtain ⟨hcounted, hdrained, hbase⟩ := h
  obtain ⟨hdrained', hsst⟩ := drained_of_round hcounted hdrained hround
  exact ⟨counted_of_round hcounted hround, hdrained', hsst.trans hbase⟩

/-- A drained store has nothing to flush, so that its SSTables stay. -/
theorem sstables_of_drained (hcounted : st.Counted) (hdrained : st.Drained)
    (hrun : settle cfg env st = some st') : st'.sstableManager = st.sstableManager := by
  have hkept := settle_invariant
    (P := fun s => s.Counted ∧ s.Drained ∧ s.sstableManager = st.sstableManager)
    ⟨hcounted, hdrained, rfl⟩ (fun hpos => ?_) (fun _ _ _ => drained_round) hrun
  · exact hkept.2.2
  · rw [size_of_get hcounted.memtable hdrained.memtable] at hpos
    cases hpos

theorem flush_of_drained (hcounted : st.Counted) (hdrained : st.Drained)
    (hrun : flushMemtableToSstable cfg env st = some st') :
    st'.Drained ∧ st'.sstableManager = st.sstableManager :=
  (flushLoop_invariant (fun _ _ _ => drained_round) _ st st' ⟨hcounted, hdrained, rfl⟩ hrun).2

theorem flush_named (hcounted : st.Counted) (hnamed : st.Named)
    (hrun : flushMemtableToSstable cfg env st = some st') : st'.Named := by
  have hkept := flushLoop_invariant (P := fun s => s.Counted ∧ s.Named)
    (fun s s' goOn hs hround => ⟨counted_of_round hs.1 hround, named_of_round hs.1 hs.2 hround⟩)
    _ st st' ⟨hcounted, hnamed⟩ hrun
  exact hkept.2

/-- What the writing of a file and the merges keep, a flush keeps. -/
theorem flush_sstables {P : SSTableManager → Prop}
    (hcreate : ∀ entries mgr, P mgr →
      P (SSTableManager.createFromEntries cfg.sstable entries 0 mgr).2)
    (hmerge : ∀ mgr r, P mgr →
      SSTableManager.mergeSstables cfg.sstable env.now cfg.mergeFuel mgr 0 = some r → P r.2)
    (hcounted : st.Counted) (hst : P st.sstableManager)
    (hrun : flushMemtableToSstable cfg env st = some st') : P st'.sstableManager := by
  have hkept := flushLoop_invariant (P := fun s => s.Counted ∧ P s.sstableManager)
    (fun s s' goOn hs hround => ⟨counted_of_round hs.1 hround,
      sstables_of_round hcreate hmerge hs.1 hs.2 hround⟩) _ st st' ⟨hcounted, hst⟩ hrun
  exact hkept.2

theorem flush_stored (hcounted : st.Counted) (hst : SSTableManager.Stored st.sstableManager)
    (hrun : flushMemtableToSstable cfg env st = some st') :
    SSTableManager.Stored st'.sstableManager := by
  apply flush_sstables _ _ hcounted hst hrun
  · exact fun entries mgr h => SSTableManager.stored_createFromEntries h entries
  · exact fun mgr r h hmerge => SSTableManager.stored_mergeSstables _ mgr 0 r h hmerge

theorem flush_wellFormed (hcounted : st.Counted) (hwf : WellFormed cfg.sstable st.sstableManager)
    (hrun : flushMemtableToSstable cfg env st = some st') :
    WellFormed cfg.sstable st'.sstableManager := by
  apply flush_sstables _ _ hcounted hwf hrun
  · exact fun entries mgr h => SSTableManager.wellFormed_createFromEntries h entries fun _ => rfl
  · exact fun mgr r h hmerge => (SSTableManager.outcome_mergeSstables _ mgr 0 r h hmerge).1

/-- Without immutable memtables there is no name to compare. -/
theorem named_of_toList (hlist : st.immutableMemtables.toList = []) : st.Named := by
  intro name imm himm
  have hmem := Std.ExtTreeMap.mem_toList_iff_getElem?_eq_some.2 himm
  rw [hlist] at hmem
  cases hmem

/-- The merges that settling starts are safe. -/
def SettleSafe (cfg : StorageConfig) (env : Env) (st : Storage) : Prop :=
  FlushSafe cfg env (if 0 < st.memtable.size then rotateMemtable cfg env st else st)

theorem safeLoop_of_nil (hlist : st.immutableMemtables.toList = []) (rounds : Nat) :
    SafeLoop cfg env rounds st := by
  cases rounds with
  | zero => trivial
  | succ rounds =>
      constructor
      · intro e he
        rw [hlist] at he
        cases he
      · intro r hr hgoOn
        simp only [flushOldest, hlist, Option.mem_def, Option.some.injEq] at hr
        rw [← hr] at hgoOn
        cases hgoOn

/-- A store without entries has nothing to merge. -/
theorem settleSafe_of_empty (hsize : st.memtable.size = 0)
    (hlist : st.immutableMemtables.toList = []) : SettleSafe cfg env st := by
  rw [SettleSafe, if_neg (by omega)]
  exact safeLoop_of_nil hlist _

/-- **Settling keeps the live version of every key**, when its merges are safe. -/
theorem kept_of_settle (hcounted : st.Counted) (hnamed : st.Named)
    (hwf : WellFormed cfg.sstable st.sstableManager) (hsafe : SettleSafe cfg env st)
    (hrun : settle cfg env st = some st') : Kept cfg env.now st st' := by
  rw [settle] at hrun
  split at hrun
  · obtain rfl := Option.some.inj hrun
    exact ⟨hcounted, hwf, fun _ => rfl⟩
  · rw [forceFlush] at hrun
    rw [SettleSafe] at hsafe
    split at hrun
    · next hsize =>
        rw [if_pos hsize] at hsafe
        have hkept := flush_kept (counted_rotate hcounted) hwf hsafe hrun
        have hlayers : (rotateMemtable cfg env st).olderLayers = st.layers :=
          olderLayers_of_insert hnamed rfl rfl
        refine ⟨hkept.counted, hkept.sstables, fun key => (hkept.live key).trans ?_⟩
        have hnewest : (rotateMemtable cfg env st).newestOf key = st.newestOf key := by
          rw [newestOf_eq, hlayers]
          exact congrArg (fun o => Option.or o _) (MemTable.get_new _)
        rw [Storage.live, Storage.live, hnewest]
    · next hsize =>
        rw [if_neg hsize] at hsafe
        exact flush_kept hcounted hwf hsafe hrun

end Settling

section Logs

variable {cfg : StorageConfig} {env : Env} {st st' : Storage}

/-- Nor has one whose memtable makes a table in a level that is not full yet. -/
theorem settleSafe_of_idle (hcounted : st.Counted) (hlist : st.immutableMemtables.toList = [])
    (hidle : SSTableManager.shouldMerge cfg.sstable (SSTableManager.createFromEntries cfg.sstable
      st.memtable.getAllEntries 0 st.sstableManager).2 0 = false) : SettleSafe cfg env st := by
  by_cases hsize : 0 < st.memtable.size
  · have habove : ∀ e ∈ st.immutableMemtables.toList, compare e.1 st.currentWalFilename = .lt := by
      intro e he
      rw [hlist] at he
      cases he
    have hone : (rotateMemtable cfg env st).immutableMemtables.toList =
        [(st.currentWalFilename, st.memtable)] := by
      simp only [rotateMemtable, OrderedMap.toList_insert_above _ _ _ habove, hlist, List.nil_append]
    have hmerges : ∀ fuel, SSTableManager.MergesSafe cfg.sstable env.now fuel
        (SSTableManager.createFromEntries cfg.sstable st.memtable.getAllEntries 0
          st.sstableManager).2 0 := by
      intro fuel
      cases fuel with
      | zero => trivial
      | succ fuel => exact fun _ hmerge => absurd hmerge (by rw [hidle]; exact Bool.false_ne_true)
    rw [SettleSafe, if_pos hsize, FlushSafe, SafeLoop]
    constructor
    · intro e he _
      rw [hone] at he
      obtain rfl := Option.some.inj he
      exact hmerges cfg.mergeFuel
    · -- the one round leaves no immutable memtable
      intro r hr _
      rcases flushOldest_cases (counted_rotate hcounted) hr with
        ⟨-, -, hnil⟩ | ⟨name, imm, rest, hcons, -, -, himm, -⟩
      · rw [hone] at hnil
        cases hnil
      · obtain rfl := (List.cons.inj (hone.symm.trans hcons)).2
        have hdone : r.1.immutableMemtables.toList = [] := by
          rw [himm, OrderedMap.toList_erase_head _ hcons]
        cases hrounds : (rotateMemtable cfg env st).immutableMemtables.size with
        | zero => trivial
        | succ rounds => exact safeLoop_of_nil hdone (rounds + 1)
  · exact settleSafe_of_empty (by omega) hlist

/-- Every log file with a record is the one of a memtable that settling writes, which deletes it.
The log of a memtable without entries stays, and without `enableWal` every log stays. -/
def Backed (cfg : StorageConfig) (st : Storage) : Prop := ∀ name content : Bytes,
  st.wal.files[name]? = some content → readRecords content = [] ∨
    cfg.enableWal = true ∧ ((name = st.currentWalFilename ∧ 0 < st.memtable.size) ∨
      ∃ imm, st.immutableMemtables[name]? = some imm ∧ imm.size ≠ 0)

/-- No log file has a record. -/
def Unlogged (st : Storage) : Prop := ∀ name content : Bytes,
  st.wal.files[name]? = some content → readRecords content = []

/-- In the course of a flush the records are those of immutable memtables. -/
def FlushBacked (cfg : StorageConfig) (st : Storage) : Prop := ∀ name content : Bytes,
  st.wal.files[name]? = some content → readRecords content = [] ∨
    cfg.enableWal = true ∧ ∃ imm, st.immutableMemtables[name]? = some imm ∧ imm.size ≠ 0

theorem flushBacked_rotate (h : Backed cfg st) (hsize : 0 < st.memtable.size) :
    FlushBacked cfg (rotateMemtable cfg env st) := by
  have hfiles : ∀ name content : Bytes,
      (rotateMemtable cfg env st).wal.files[name]? = some content →
        content = [] ∨ st.wal.files[name]? = some content := by
    intro name content hfile
    simp only [rotateMemtable] at hfile
    split at hfile
    · simp only [Wal.openWalFile] at hfile
      split at hfile
      · exact Or.inr hfile
      · rw [Std.ExtTreeMap.getElem?_insert] at hfile
        split at hfile
        · exact Or.inl (Option.some.inj hfile).symm
        · exact Or.inr hfile
    · exact Or.inr hfile
  intro name content hfile
  rcases hfiles name content hfile with rfl | hold
  · exact Or.inl rfl
  · refine (h name content hold).imp id (And.imp id fun hbacked => ?_)
    -- the memtable takes its place among the immutable ones, under its name
    by_cases heq : st.currentWalFilename = name
    · refine ⟨st.memtable, ?_, Nat.ne_of_gt hsize⟩
      rw [rotateMemtable, heq]
      exact Std.ExtTreeMap.getElem?_insert_self
    · rcases hbacked with ⟨hcurrent, -⟩ | ⟨imm, himm, hne⟩
      · exact absurd hcurrent.symm heq
      · refine ⟨imm, ?_, hne⟩
        simp only [rotateMemtable]
        rw [Std.ExtTreeMap.getElem?_insert, if_neg]
        · exact himm
        · exact fun hcompare => heq (Std.LawfulEqCmp.compare_eq_iff_eq.1 hcompare)

theorem flushBacked_of_round {goOn : Bool} (hcounted : st.Counted) (h : FlushBacked cfg st)
    (hround : flushOldest cfg env st = some (st', goOn)) : FlushBacked cfg st' := by
  rcases flushOldest_cases hcounted hround with
    ⟨rfl, -⟩ | ⟨name, imm, rest, hlist, -, -, himm, -, -, hwritten⟩
  · exact h
  · have hentry : st.immutableMemtables[name]? = some imm := by
      apply Std.ExtTreeMap.mem_toList_iff_getElem?_eq_some.1
      rw [hlist]
      exact List.mem_cons_self
    have hother : ∀ (name' : Bytes) (imm' : MemTable), name ≠ name' →
        st.immutableMemtables[name']? = some imm' → st'.immutableMemtables[name']? = some imm' := by
      intro name' imm' hne h'
      rw [himm, Std.ExtTreeMap.getElem?_erase, if_neg]
      · exact h'
      · exact fun hcompare => hne (Std.LawfulEqCmp.compare_eq_iff_eq.1 hcompare)
    intro name' content hfile
    rcases hwritten with ⟨hsize, hwal, -⟩ | ⟨-, hwal, -⟩
    · -- a memtable without entries backs no file
      rw [hwal] at hfile
      refine (h name' content hfile).imp id fun ⟨henabled, imm', h', hne⟩ => ?_
      refine ⟨henabled, imm', hother name' imm' ?_ h', hne⟩
      rintro rfl
      rw [hentry] at h'
      obtain rfl := Option.some.inj h'
      exact hne hsize
    · cases henabled : cfg.enableWal with
      | false =>
          rw [hwal, henabled, if_neg Bool.false_ne_true] at hfile
          refine (h name' content hfile).imp id fun hbacked => ?_
          rw [henabled] at hbacked
          cases hbacked.1
      | true =>
          rw [hwal, henabled, if_pos rfl, Wal.clear, Std.ExtTreeMap.getElem?_erase] at hfile
          split at hfile
          · cases hfile
          · next hne =>
              refine (h name' content hfile).imp id fun ⟨_, imm', h', hne'⟩ => ?_
              refine ⟨rfl, imm', hother name' imm' ?_ h', hne'⟩
              rintro rfl
              exact hne Std.ReflCmp.compare_self

/-- **Settling leaves no record in the log**, when every file with a record is backed. -/
theorem unlogged_of_settle (hcounted : st.Counted) (h : Backed cfg st)
    (hrun : settle cfg env st = some st') : st'.Unlogged := by
  obtain ⟨-, -, hlist⟩ := drained_of_settle hcounted hrun
  have hstart : st.memtable.size = 0 → FlushBacked cfg st := by
    intro hsize name content hfile
    refine (h name content hfile).imp id fun ⟨henabled, hbacked⟩ => ⟨henabled, ?_⟩
    rcases hbacked with ⟨-, hpos⟩ | himm
    · omega
    · exact himm
  have hend : FlushBacked cfg st' := by
    rw [settle] at hrun
    split at hrun
    · next hempty =>
        obtain rfl := Option.some.inj hrun
        exact hstart hempty.1
    · rw [forceFlush] at hrun
      have hflush : ∀ start : Storage, start.Counted → FlushBacked cfg start →
          flushMemtableToSstable cfg env start = some st' → FlushBacked cfg st' := by
        intro start hs hbacked hflush
        have hkept := flushLoop_invariant (P := fun s => s.Counted ∧ FlushBacked cfg s)
          (fun s s' goOn hs hround =>
            ⟨counted_of_round hs.1 hround, flushBacked_of_round hs.1 hs.2 hround⟩)
          _ start st' ⟨hs, hbacked⟩ hflush
        exact hkept.2
      split at hrun
      · next hsize => exact hflush _ (counted_rotate hcounted) (flushBacked_rotate h hsize) hrun
      · next hsize => exact hflush st hcounted (hstart (by omega)) hrun
  intro name content hfile
  rcases hend name content hfile with hnil | ⟨-, imm, himm, -⟩
  · exact hnil
  · have hmem := Std.ExtTreeMap.mem_toList_iff_getElem?_eq_some.2 himm
    rw [hlist] at hmem
    cases hmem

end Logs

end Storage

end EyaKV.Store
