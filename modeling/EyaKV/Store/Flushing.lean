import EyaKV.Store.Layering

/-!
# Flushes that merge

A flush writes the immutable memtables to level 0, and each file that it writes may start
merges. A merge drops dead versions, so the newest versions do not all survive; what
survives is the live version of every key at the second of the flush, provided that each
merge is safe (`flush_settles`). A version that is live later is live at that second too,
so the live versions at every later second stay as well (`Settled.live_of_le`).
-/

set_option autoImplicit false

namespace EyaKV.Store

open EyaKV.Base EyaKV.Base.Layers

namespace Storage

open SSTableManager (WellFormed MergesSafe createFromEntries)

section Liveness

/-- The newest version of a key, when it is live at the second `t`. -/
def live (t : Nat) (st : Storage) (key : Bytes) : Option EValue :=
  (st.newestOf key).filter (EValue.isLive t)

/-- What is live later among the live ones is what is live later. -/
theorem filter_isLive_filter {now t : Nat} (hle : now ≤ t) (o : Option EValue) :
    (o.filter (EValue.isLive now)).filter (EValue.isLive t) = o.filter (EValue.isLive t) := by
  cases o with
  | none => rfl
  | some v =>
      rw [Option.filter_some, Option.filter_some]
      cases hlater : v.isLive t with
      | true => rw [if_pos (EValue.isLive_anti hle hlater), Option.filter_some, hlater]
      | false =>
          split
          · rw [Option.filter_some, hlater]
          · rfl

/-- Two layers with the same live version have it under any upper version. -/
theorem filter_or_congr {now : Nat} {lower lower' : Option EValue} (upper : Option EValue)
    (h : lower'.filter (EValue.isLive now) = lower.filter (EValue.isLive now)) :
    (upper.or lower').filter (EValue.isLive now) =
      (upper.or lower).filter (EValue.isLive now) := by
  cases upper with
  | none => rw [Option.none_or, Option.none_or, h]
  | some v => rw [Option.some_or, Option.some_or]

end Liveness

/-- The invariant of the store together with that of its SSTables. -/
structure Sound (cfg : StorageConfig) (st : Storage) : Prop where
  inv : Inv cfg st
  sstables : WellFormed cfg.sstable st.sstableManager

theorem sound_openEmpty (cfg : StorageConfig) (env : Env) : Sound cfg (openEmpty cfg env) := by
  refine ⟨inv_openEmpty cfg env, ?_⟩
  rcases openEmpty_cases cfg env with h | h
  · rw [h]
    exact SSTableManager.wellFormed_empty cfg.sstable
  · rw [h]
    exact SSTableManager.wellFormed_empty cfg.sstable

section Merging

variable (cfg : StorageConfig) (env : Env)

/-- The merges that the next round of a flush starts are safe. -/
def SafeRound (st : Storage) : Prop :=
  ∀ e ∈ st.immutableMemtables.toList.head?, e.2.size ≠ 0 →
    MergesSafe cfg.sstable env.now cfg.mergeFuel
      (createFromEntries cfg.sstable e.2.getAllEntries 0 st.sstableManager).2 0

/-- The merges that the loop of a flush starts are safe. -/
def SafeLoop : Nat → Storage → Prop
  | 0, _ => True
  | rounds + 1, st => SafeRound cfg env st ∧
      ∀ r ∈ flushOldest cfg env st, r.2 = true → SafeLoop rounds r.1

/-- The merges that a flush starts are safe. -/
def FlushSafe (st : Storage) : Prop := SafeLoop cfg env (st.immutableMemtables.size + 1) st

/-- What a flush at the second `now` keeps: the invariants, and the live version of every
key. -/
structure Settled (now : Nat) (st st' : Storage) : Prop where
  sound : Sound cfg st'
  live : ∀ key, st'.live now key = st.live now key

variable {cfg env} {st st' : Storage}

theorem Settled.live_of_le {now t : Nat} (h : Settled cfg now st st') (hle : now ≤ t)
    (key : Bytes) : st'.live t key = st.live t key := by
  have hnow : (st'.newestOf key).filter (EValue.isLive now) =
      (st.newestOf key).filter (EValue.isLive now) := h.live key
  rw [Storage.live, Storage.live, ← filter_isLive_filter hle, hnow, filter_isLive_filter hle]

/-- What a round of a flush can do: end the loop when no immutable memtable is left; drop an
empty one; or write the oldest one to level 0 and run the merges. -/
theorem flushOldest_cases {goOn : Bool} (hcounted : st.Counted)
    (hround : flushOldest cfg env st = some (st', goOn)) :
    (st' = st ∧ goOn = false ∧ st.immutableMemtables.toList = []) ∨
    ∃ (name : Bytes) (imm : MemTable) (rest : List (Bytes × MemTable)),
      st.immutableMemtables.toList = (name, imm) :: rest ∧ imm.Counted ∧ goOn = true ∧
      st'.immutableMemtables = st.immutableMemtables.erase name ∧
      st'.memtable = st.memtable ∧ st'.currentWalFilename = st.currentWalFilename ∧
      ((imm.size = 0 ∧ st'.wal = st.wal ∧ st'.sstableManager = st.sstableManager) ∨
        (imm.size ≠ 0 ∧ st'.wal = (if cfg.enableWal then st.wal.clear name else st.wal) ∧
          ∃ ok, SSTableManager.mergeSstables cfg.sstable env.now cfg.mergeFuel
            (createFromEntries cfg.sstable imm.getAllEntries 0 st.sstableManager).2 0 =
              some (ok, st'.sstableManager))) := by
  rw [flushOldest] at hround
  cases hlist : st.immutableMemtables.toList with
  | nil =>
      simp only [hlist] at hround
      obtain ⟨rfl, rfl⟩ := Prod.mk.inj (Option.some.inj hround)
      exact Or.inl ⟨rfl, rfl, rfl⟩
  | cons e rest =>
      obtain ⟨name, imm⟩ := e
      have himm : imm.Counted := hcounted.immutables name imm
        (Std.ExtTreeMap.mem_toList_iff_getElem?_eq_some.1 (by rw [hlist]; exact List.mem_cons_self))
      simp only [hlist] at hround
      refine Or.inr ⟨name, imm, rest, rfl, himm, ?_⟩
      by_cases hsize : imm.size = 0
      · rw [if_pos hsize] at hround
        obtain ⟨rfl, rfl⟩ := Prod.mk.inj (Option.some.inj hround)
        exact ⟨rfl, rfl, rfl, rfl, Or.inl ⟨hsize, rfl, rfl⟩⟩
      · rw [if_neg hsize] at hround
        obtain ⟨⟨made, mgr⟩, hcreate, hround⟩ := Option.bind_eq_some_iff.1 hround
        -- a memtable with entries makes a file, so `create_new_sstable` does not stop without one
        obtain ⟨sst, hsst⟩ := SSTableManager.createFromEntries_fst cfg.sstable st.sstableManager 0
          (MemTable.getAllEntries_ne_nil himm hsize)
        rw [SSTableManager.createNewSstable] at hcreate
        split at hcreate
        · next h =>
            rw [h] at hsst
            cases hsst
        · next sst' mgr' h =>
            obtain ⟨⟨ok, mgr''⟩, hmerge, hret⟩ := Option.bind_eq_some_iff.1 hcreate
            obtain ⟨rfl, rfl⟩ := Prod.mk.inj (Option.some.inj hret)
            obtain ⟨rfl, rfl⟩ := Prod.mk.inj (Option.some.inj hround)
            refine ⟨rfl, rfl, rfl, rfl, Or.inr ⟨hsize, rfl, ok, ?_⟩⟩
            rw [h]
            exact hmerge

/-- What each round of a flush keeps, the flush keeps. -/
theorem flushLoop_invariant {P : Storage → Prop}
    (hround : ∀ (st st' : Storage) (goOn : Bool), P st → flushOldest cfg env st = some (st', goOn) →
      P st') (rounds : Nat) :
    ∀ st st' : Storage, P st → flushLoop cfg env rounds st = some st' → P st' := by
  induction rounds with
  | zero =>
      intro st st' hst hrun
      obtain rfl := Option.some.inj hrun
      exact hst
  | succ rounds ih =>
      intro st st' hst hrun
      obtain ⟨⟨mid, goOn⟩, hmid, hrun⟩ := Option.bind_eq_some_iff.1 hrun
      have hkept := hround st mid goOn hst hmid
      cases goOn with
      | true => exact ih mid st' hkept hrun
      | false =>
          obtain rfl := Option.some.inj hrun
          exact hkept

theorem counted_of_round {goOn : Bool} (hcounted : st.Counted)
    (hround : flushOldest cfg env st = some (st', goOn)) : st'.Counted := by
  rcases flushOldest_cases hcounted hround with
    ⟨rfl, -⟩ | ⟨name, imm, rest, -, -, -, himm, hmem, -⟩
  · exact hcounted
  · refine ⟨hmem ▸ hcounted.memtable, fun name' imm' h => hcounted.immutables name' imm' ?_⟩
    rw [himm, Std.ExtTreeMap.getElem?_erase] at h
    split at h
    · cases h
    · exact h

/-- What the writing of a file and the merges keep, a round keeps. -/
theorem sstables_of_round {P : SSTableManager → Prop} {goOn : Bool}
    (hcreate : ∀ entries mgr, P mgr → P (createFromEntries cfg.sstable entries 0 mgr).2)
    (hmerge : ∀ mgr r, P mgr →
      SSTableManager.mergeSstables cfg.sstable env.now cfg.mergeFuel mgr 0 = some r → P r.2)
    (hcounted : st.Counted) (hst : P st.sstableManager)
    (hround : flushOldest cfg env st = some (st', goOn)) : P st'.sstableManager := by
  rcases flushOldest_cases hcounted hround with
    ⟨rfl, -⟩ | ⟨_, imm, _, -, -, -, -, -, -, ⟨-, -, hsst⟩ | ⟨-, -, ok, hrun⟩⟩
  · exact hst
  · rw [hsst]
    exact hst
  · exact hmerge _ (ok, st'.sstableManager) (hcreate imm.getAllEntries _ hst) hrun

theorem wellFormed_of_round {goOn : Bool} (hcounted : st.Counted)
    (hwf : WellFormed cfg.sstable st.sstableManager)
    (hround : flushOldest cfg env st = some (st', goOn)) :
    WellFormed cfg.sstable st'.sstableManager := by
  apply sstables_of_round _ _ hcounted hwf hround
  · exact fun entries mgr h => SSTableManager.wellFormed_createFromEntries h entries fun _ => rfl
  · exact fun mgr r h hrun => (SSTableManager.outcome_mergeSstables _ mgr 0 r h hrun).1

/-- What a flush needs and keeps, and what it keeps of the versions: the right counters, the
well-formed SSTables, and the live version of every key at the second `now`. -/
structure Kept (cfg : StorageConfig) (now : Nat) (st st' : Storage) : Prop where
  counted : st'.Counted
  sstables : WellFormed cfg.sstable st'.sstableManager
  live : ∀ key, st'.live now key = st.live now key

/-- After a round whose merges are safe, the SSTables show what the oldest immutable memtable
showed over the SSTables before it. -/
theorem lower_of_round {goOn : Bool} (hcounted : st.Counted)
    (hwf : WellFormed cfg.sstable st.sstableManager) (hsafe : SafeRound cfg env st)
    (hround : flushOldest cfg env st = some (st', goOn)) {name : Bytes} {imm : MemTable}
    {rest : List (Bytes × MemTable)} (hlist : st.immutableMemtables.toList = (name, imm) :: rest)
    (key : Bytes) :
    (newest (st'.sstableManager.layersFrom 0 (st'.sstableManager.maxLevel + 1)) key).filter
        (EValue.isLive env.now) =
      (newest (imm.get :: st.sstableManager.layersFrom 0 (st.sstableManager.maxLevel + 1)) key).filter
        (EValue.isLive env.now) := by
  rcases flushOldest_cases hcounted hround with
    ⟨-, -, hnil⟩ | ⟨name', imm', rest', hlist', hsized, -, -, -, -, hmerged⟩
  · rw [hlist] at hnil
    cases hnil
  · obtain ⟨⟨rfl, rfl⟩, rfl⟩ := List.cons_eq_cons.1 (hlist.symm.trans hlist')
    rcases hmerged with ⟨hsize, -, hsst⟩ | ⟨hsize, -, ok, hmerge⟩
    · rw [hsst, newest_cons, MemTable.get_eq_none_of_size hsized hsize, Option.none_or]
    · have hsafe' := hsafe (name, imm) (by rw [hlist]; rfl) hsize
      have hcreated : WellFormed cfg.sstable
          (createFromEntries cfg.sstable imm.getAllEntries 0 st.sstableManager).2 :=
        SSTableManager.wellFormed_createFromEntries hwf _ fun _ => rfl
      have hvisible := (SSTableManager.outcome_mergeSstables _ _ 0 (ok, st'.sstableManager) hcreated
        hmerge).2.same_iff.2 hsafe' key
      have hlayers := layersFrom_created cfg.sstable st.sstableManager
        (MemTable.getAllEntries_ne_nil hsized hsize)
      rw [SSTableManager.visibleAt, SSTableManager.visibleAt, SSTableManager.get_eq_newest,
        SSTableManager.get_eq_newest, hlayers] at hvisible
      exact hvisible

/-- A round whose merges are safe keeps the live versions. -/
theorem kept_of_round {goOn : Bool} (hcounted : st.Counted)
    (hwf : WellFormed cfg.sstable st.sstableManager) (hsafe : SafeRound cfg env st)
    (hround : flushOldest cfg env st = some (st', goOn)) : Kept cfg env.now st st' := by
  refine ⟨counted_of_round hcounted hround, wellFormed_of_round hcounted hwf hround, ?_⟩
  rcases flushOldest_cases hcounted hround with
    ⟨rfl, -⟩ | ⟨name, imm, rest, hlist, -, -, himm, hmem, -⟩
  · exact fun _ => rfl
  · intro key
    obtain ⟨upper, hafter, hbefore⟩ := newestOf_of_round hlist himm hmem key
    rw [Storage.live, Storage.live, hafter, hbefore]
    exact filter_or_congr upper (lower_of_round hcounted hwf hsafe hround hlist key)

theorem flushLoop_kept (rounds : Nat) : ∀ st st' : Storage, st.Counted →
    WellFormed cfg.sstable st.sstableManager → SafeLoop cfg env rounds st →
      flushLoop cfg env rounds st = some st' → Kept cfg env.now st st' := by
  induction rounds with
  | zero =>
      intro st st' hcounted hwf _ hrun
      obtain rfl := Option.some.inj hrun
      exact ⟨hcounted, hwf, fun _ => rfl⟩
  | succ rounds ih =>
      intro st st' hcounted hwf hsafe hrun
      obtain ⟨⟨mid, goOn⟩, hround, hrun⟩ := Option.bind_eq_some_iff.1 hrun
      have hmid := kept_of_round hcounted hwf hsafe.1 hround
      cases goOn with
      | true =>
          have hrest := ih mid st' hmid.counted hmid.sstables (hsafe.2 (mid, true) hround rfl) hrun
          exact ⟨hrest.counted, hrest.sstables, fun key => (hrest.live key).trans (hmid.live key)⟩
      | false =>
          obtain rfl := Option.some.inj hrun
          exact hmid

/-- **A flush whose merges are safe keeps the live version of every key.** -/
theorem flush_kept (hcounted : st.Counted) (hwf : WellFormed cfg.sstable st.sstableManager)
    (hsafe : FlushSafe cfg env st) (hrun : flushMemtableToSstable cfg env st = some st') :
    Kept cfg env.now st st' :=
  flushLoop_kept _ st st' hcounted hwf hsafe hrun

theorem inv_of_flushOldest {goOn : Bool} (hinv : Inv cfg st)
    (hround : flushOldest cfg env st = some (st', goOn)) : Inv cfg st' := by
  rcases flushOldest_cases hinv.counted hround with
    ⟨rfl, -⟩ | ⟨name, imm, rest, hlist, -, -, himm, hmem, hfile, hmerged⟩
  · exact hinv
  · refine inv_of_round hinv hlist himm hmem hfile ?_
    rcases hmerged with ⟨-, hwal, -⟩ | ⟨-, hwal, -⟩
    · exact Or.inl hwal
    · exact Or.inr hwal

/-- In a store without thrown callbacks a flush keeps the whole invariant. -/
theorem flush_settles (hsound : Sound cfg st) (hsafe : FlushSafe cfg env st)
    (hrun : flushMemtableToSstable cfg env st = some st') : Settled cfg env.now st st' := by
  have hkept := flush_kept hsound.inv.counted hsound.sstables hsafe hrun
  have hinv : Inv cfg st' := flushLoop_invariant (P := Inv cfg)
    (fun _ _ _ hst hround => inv_of_flushOldest hst hround) _ st st' hsound.inv hrun
  exact ⟨⟨hinv, hkept.sstables⟩, hkept.live⟩

end Merging

end Storage

end EyaKV.Store
