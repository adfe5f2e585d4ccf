import EyaKV.Base.Sinking
import EyaKV.Store.Replay

/-!
# Reads beside the background flush

The background thread flushes the immutable memtables and merges files, and it holds no lock for
longer than one change: `create_from_entries` adds the levels and then the file, a merge removes the
merged files from one level after the other, and the memtable goes when the merges are done.
`mergeStates` and `flushStates` are the states between these changes. They belong to the functions
of the model (`mergeStates_snd`, `flushStates_snd`).

A lookup takes the locks one after the other as well: the memtable, the immutable ones, the highest
level, and then level by level (`getDuring`). The versions only sink on the side of the flush, so the
lookup finds what it should, unless a merge adds a level after the lookup has asked for the highest
one (`get_during_flush`).
-/

set_option autoImplicit false

namespace EyaKV.Store

open EyaKV.Base EyaKV.Base.Layers EyaKV.Base.Sinking

namespace SSTableManager

section States

variable (cfg : SSTableConfig) (now : Nat)

/-- The states of `create_from_entries`: with the levels, and with the file. -/
def createStates (entries : List (Bytes × EValue)) (level : Nat) (mgr : SSTableManager) :
    List SSTableManager :=
  if entries = [] then []
  else [{ mgr with
      maxLevel := max mgr.maxLevel level
      nextSequenceNumber := mgr.nextSequenceNumber + 1 },
    (createFromEntries cfg entries level mgr).2]

/-- The states of the merge of a whole level. -/
def mergeLevelStates (level : Nat) (mgr : SSTableManager) : List SSTableManager :=
  createStates cfg (liveEntries now (mergedMap (mgr.levelSstables level))) (level + 1) mgr ++
    [mergeLevel cfg now level mgr]

/-- The manager between the two removals of the merge of the oldest file. -/
def withoutOverlapping (sst : SSTable) (level : Nat) (mgr : SSTableManager) : SSTableManager :=
  let next := overlapping sst level mgr
  let entries := liveEntries now (mergedMap (sst :: next))
  removeMerged next (level + 1) (createFromEntries cfg entries (level + 1) mgr).2

/-- The states of the merge of the oldest file. -/
def mergeOldestStates (sst : SSTable) (level : Nat) (mgr : SSTableManager) : List SSTableManager :=
  createStates cfg (liveEntries now (mergedMap (sst :: overlapping sst level mgr))) (level + 1) mgr ++
    [withoutOverlapping cfg now sst level mgr, mergeOldest cfg now sst level mgr]

/-- The states of `merge_sstables_by_strategy_0`, given those of the call that follows, and the
manager it leaves if it ends. -/
def strategy0States (recur : SSTableManager → Nat → List SSTableManager × Option SSTableManager)
    (mgr : SSTableManager) (level : Nat) : List SSTableManager × Option SSTableManager :=
  if (mgr.levelSstables level).isEmpty then ([], some mgr)
  else
    let rest := recur (mergeLevel cfg now level mgr) (level + 1)
    (mergeLevelStates cfg now level mgr ++ rest.1, rest.2)

/-- The same of `merge_sstables_by_strategy_1`. -/
def strategy1States (recur : SSTableManager → Nat → List SSTableManager × Option SSTableManager)
    (mgr : SSTableManager) (level : Nat) : List SSTableManager × Option SSTableManager :=
  if level = mgr.maxLevel then strategy0States cfg now recur mgr level
  else
    match (mgr.levelSstables level).getLast? with
    | none => ([], some mgr)
    | some sst =>
        let first := recur (mergeOldest cfg now sst level mgr) level
        match first.2 with
        | none => (mergeOldestStates cfg now sst level mgr ++ first.1, none)
        | some mgr' =>
            let second := recur mgr' (level + 1)
            (mergeOldestStates cfg now sst level mgr ++ (first.1 ++ second.1), second.2)

/-- The states of `merge_sstables`, with all the merges it triggers. When the fuel runs out they
are the states up to that point. -/
def mergeStates : Nat → SSTableManager → Nat → List SSTableManager × Option SSTableManager
  | 0, _, _ => ([], none)
  | fuel + 1, mgr, level =>
      if mgr.maxLevel < level then ([], some mgr)
      else if shouldMerge cfg mgr level then
        match cfg.mergeStrategy with
        | .sizeTieredCompaction => strategy0States cfg now (mergeStates fuel) mgr level
        | .levelCompaction => strategy1States cfg now (mergeStates fuel) mgr level
      else ([], some mgr)

/-- The states belong to the merges of the model: both leave the same manager. -/
theorem mergeStates_snd (fuel : Nat) : ∀ (mgr : SSTableManager) (level : Nat),
    (mergeStates cfg now fuel mgr level).2 =
      (mergeSstables cfg now fuel mgr level).map Prod.snd := by
  induction fuel with
  | zero => exact fun _ _ => rfl
  | succ fuel ih =>
      have hzero : ∀ mgr level, (strategy0States cfg now (mergeStates cfg now fuel) mgr level).2 =
          (mergeSstablesByStrategy0 cfg now (mergeSstables cfg now fuel) mgr level).map
            Prod.snd := by
        intro mgr level
        simp only [strategy0States, mergeSstablesByStrategy0]
        split
        · rfl
        · rw [ih]
          cases mergeSstables cfg now fuel (mergeLevel cfg now level mgr) (level + 1) with
          | none => rfl
          | some r => rfl
      intro mgr level
      simp only [mergeStates, mergeSstables]
      split
      · rfl
      · split
        · cases cfg.mergeStrategy with
          | sizeTieredCompaction => exact hzero mgr level
          | levelCompaction =>
              simp only [strategy1States, mergeSstablesByStrategy1]
              split
              · exact hzero mgr level
              · cases (mgr.levelSstables level).getLast? with
                | none => rfl
                | some sst =>
                    -- both calls that follow have less fuel
                    simp only [ih]
                    cases mergeSstables cfg now fuel (mergeOldest cfg now sst level mgr) level with
                    | none => rfl
                    | some r =>
                        simp only [Option.map_some, Option.bind_eq_bind, Option.bind_some]
                        cases mergeSstables cfg now fuel r.2 (level + 1) with
                        | none => rfl
                        | some r' => rfl
        · rfl

end States

section Lowering

variable {cfg : SSTableConfig} {now level : Nat} {mgr mgr' mgr'' : SSTableManager}

/-- The versions by level. -/
def depths (mgr : SSTableManager) (i : Nat) : Bytes → Option EValue := newest (mgr.levelLayers i)

theorem depths_eq_none (h : mgr.levelSstables level = []) (key : Bytes) :
    mgr.depths level key = none := by
  rw [depths, levelLayers, h]
  rfl

/-- A lookup takes the first version of the levels. -/
theorem get_eq_first (habove : ∀ i, mgr.maxLevel < i → mgr.levelSstables i = []) (key : Bytes) :
    mgr.get key = first mgr.depths key := by
  have hlevels : mgr.get key = descend (fun _ => mgr.depths) (mgr.maxLevel + 1) key := by
    rw [get, descend]
    refine congrArg (fun f => List.findSome? f _) (funext fun i => ?_)
    rw [depths, levelLayers, newest, List.findSome?_map]
    rfl
  rw [hlevels]
  exact descend_const fun d hd => depths_eq_none (habove d hd) key

theorem visibleAt_eq_first (habove : ∀ i, mgr.maxLevel < i → mgr.levelSstables i = []) (now : Nat)
    (key : Bytes) : mgr.visibleAt now key = (first mgr.depths key).filter (EValue.isLive now) := by
  rw [visibleAt, get_eq_first habove]

/-- A change that the lookups stand. -/
structure Moves (now : Nat) (mgr mgr' : SSTableManager) : Prop where
  lowers : Lowers (EValue.isLive now) mgr.depths mgr'.depths
  above_max : ∀ i, mgr'.maxLevel < i → mgr'.levelSstables i = []

theorem Moves.trans (h : Moves now mgr mgr') (h' : Moves now mgr' mgr'') : Moves now mgr mgr'' :=
  ⟨h.lowers.trans h'.lowers, h'.above_max⟩

/-- The levels of a file are there before the file. -/
theorem moves_levels (hnum : Numbered mgr) (level : Nat) : Moves now mgr { mgr with
    maxLevel := max mgr.maxLevel level
    nextSequenceNumber := mgr.nextSequenceNumber + 1 } :=
  ⟨Lowers.rfl, fun i hi => hnum.above_max i (Nat.lt_of_le_of_lt (Nat.le_max_left _ _) hi)⟩

/-- What a created file adds to its level. -/
theorem depths_createFromEntries (cfg : SSTableConfig) (entries : List (Bytes × EValue))
    (level : Nat) (mgr : SSTableManager) (key : Bytes) :
    (createFromEntries cfg entries level mgr).2.depths level key =
      ((Std.ExtTreeMap.ofList entries compare)[key]?).or (mgr.depths level key) := by
  rw [depths, levelLayers, levelSstables_createFromEntries, Function.update_self, List.map_append,
    newest_created, newest_cons]
  rfl

theorem depths_createFromEntries_of_ne (cfg : SSTableConfig) (entries : List (Bytes × EValue))
    (mgr : SSTableManager) {i : Nat} (hi : i ≠ level) :
    (createFromEntries cfg entries level mgr).2.depths i = mgr.depths i := by
  rw [depths, levelLayers, levelSstables_createFromEntries, Function.update_of_ne hi]
  rfl

/-- A created file is added under files that have its keys, or next to them. -/
theorem lowers_created (cfg : SSTableConfig) {entries : List (Bytes × EValue)}
    (hkeys : ∀ key, Clear mgr.depths level key →
      ((Std.ExtTreeMap.ofList entries compare)[key]?).or (mgr.depths level key) =
        mgr.depths level key) :
    Lowers (EValue.isLive now) mgr.depths (createFromEntries cfg entries level mgr).2.depths :=
  lowers_add (fun key hclear => (depths_createFromEntries cfg entries level mgr key).trans
    (hkeys key hclear)) fun _ hi => depths_createFromEntries_of_ne cfg entries mgr hi

/-- Both changes of `create_from_entries` are stood when the file is. -/
theorem follows_createStates (hnum : Numbered mgr) {entries : List (Bytes × EValue)}
    (hlowers : Lowers (EValue.isLive now) mgr.depths
      (createFromEntries cfg entries level mgr).2.depths)
    (habove : ∀ i, (createFromEntries cfg entries level mgr).2.maxLevel < i →
      (createFromEntries cfg entries level mgr).2.levelSstables i = []) :
    Follows (Moves now) mgr (createStates cfg entries level mgr)
      (some (createFromEntries cfg entries level mgr).2) := by
  rw [createStates]
  split
  · next hnil =>
      have hsame : (createFromEntries cfg entries level mgr).2 = mgr := by
        rw [createFromEntries, dif_pos hnil]
      rw [hsame]
      exact Follows.stop mgr
  · refine Follows.step (moves_levels hnum level) (Follows.step ⟨?_, habove⟩ (Follows.stop _))
    exact hlowers

theorem above_max_created (cfg : SSTableConfig) (hnum : Numbered mgr)
    (entries : List (Bytes × EValue)) (level : Nat) :
    ∀ i, (createFromEntries cfg entries level mgr).2.maxLevel < i →
      (createFromEntries cfg entries level mgr).2.levelSstables i = [] := by
  intro i hi
  have hmax := maxLevel_createFromEntries cfg mgr level entries
  rw [levelSstables_createFromEntries, Function.update_apply]
  split
  · next heq =>
      subst heq
      rw [hnum.above_max i (by omega), List.append_nil]
      refine List.eq_nil_iff_forall_not_mem.2 fun sst hsst => ?_
      have := (created_spec hsst).2.2.2
      omega
  · exact hnum.above_max i (by omega)

theorem above_max_removeMerged (merged : List SSTable) (level : Nat)
    (habove : ∀ i, mgr.maxLevel < i → mgr.levelSstables i = []) :
    ∀ i, (removeMerged merged level mgr).maxLevel < i →
      (removeMerged merged level mgr).levelSstables i = [] := by
  intro i hi
  rw [levelSstables_removeMerged, Function.update_apply]
  split
  · next heq =>
      subst heq
      rw [habove i hi, List.filter_nil]
  · exact habove i hi

/-- A removal brings no version. -/
theorem depths_removeMerged {i : Nat} {key : Bytes} (merged : List SSTable) (level : Nat)
    (h : mgr.depths i key = none) : (removeMerged merged level mgr).depths i key = none := by
  rw [depths, levelLayers, newest_eq_none_iff] at h ⊢
  intro layer hlayer
  refine h layer ?_
  obtain ⟨sst, hsst, rfl⟩ := List.mem_map.1 hlayer
  refine List.mem_map_of_mem ?_
  rw [levelSstables_removeMerged, Function.update_apply] at hsst
  split at hsst
  · next heq =>
      subst heq
      exact (List.mem_filter.1 hsst).1
  · exact hsst

theorem depths_removeMerged_of_ne {i : Nat} (merged : List SSTable) (mgr : SSTableManager)
    (hi : i ≠ level) : (removeMerged merged level mgr).depths i = mgr.depths i := by
  rw [depths, levelLayers, levelSstables_removeMerged, Function.update_of_ne hi]
  rfl

/-- The merge of a whole level. -/
theorem follows_mergeLevel (hwf : WellFormed cfg mgr)
    (hstrategy : cfg.mergeStrategy = .levelCompaction → mgr.maxLevel ≤ level)
    (hlevel : level ≤ mgr.maxLevel) (hsafe : LevelMergeSafe now mgr level) :
    Follows (Moves now) mgr (mergeLevelStates cfg now level mgr)
      (some (mergeLevel cfg now level mgr)) := by
  have hcreated : Lowers (EValue.isLive now) mgr.depths (createFromEntries cfg
      (liveEntries now (mergedMap (mgr.levelSstables level))) (level + 1) mgr).2.depths := by
    refine lowers_created cfg fun key hclear => ?_
    have hnone : newest ((mgr.levelSstables level).map SSTable.get) key = none :=
      hclear level (Nat.lt_succ_self level)
    rw [getElem?_liveEntries, hnone]
    rfl
  have habove := above_max_created cfg hwf.numbered
    (liveEntries now (mergedMap (mgr.levelSstables level))) (level + 1)
  have hwf' : WellFormed cfg (mergeLevel cfg now level mgr) := wellFormed_mergeLevel hwf hstrategy
  refine (follows_createStates hwf.numbered hcreated habove).append
    (Follows.step ⟨lowers_remove ?_ fun key => ?_, hwf'.above_max⟩ (Follows.stop _))
  · exact fun i key => depths_removeMerged _ _
  · rw [hcreated.shows key, ← visibleAt_eq_first hwf'.above_max, ← visibleAt_eq_first hwf.above_max]
    exact (uncovers_mergeLevel hwf hstrategy hlevel).same_iff.2 hsafe key

/-- The merge of the oldest file of a level. -/
theorem follows_mergeOldest (hwf : WellFormed cfg mgr)
    (hstrategy : cfg.mergeStrategy = .levelCompaction) (hlevel : level < mgr.maxLevel)
    {newer : List SSTable} {sst : SSTable} (hfiles : mgr.levelSstables level = newer ++ [sst])
    (hsafe : OldestMergeSafe now sst mgr level) :
    Follows (Moves now) mgr (mergeOldestStates cfg now sst level mgr)
      (some (mergeOldest cfg now sst level mgr)) := by
  have hcreated : Lowers (EValue.isLive now) mgr.depths (createFromEntries cfg
      (liveEntries now (mergedMap (sst :: overlapping sst level mgr))) (level + 1) mgr).2.depths := by
    refine lowers_created cfg fun key hclear => ?_
    have hsst : sst.get key = none := by
      have hnone := hclear level (Nat.lt_succ_self level)
      rw [depths, levelLayers, newest_eq_none_iff, hfiles] at hnone
      exact hnone _ (List.mem_map_of_mem (List.mem_append_right _ List.mem_cons_self))
    -- the new file has what an overlapping file has of the key, or nothing
    rw [getElem?_liveEntries, List.map_cons, newest_cons, hsst, Option.none_or, depths,
      newest_overlapping hwf hstrategy level sst key]
    cases newest ((overlapping sst level mgr).map SSTable.get) key with
    | none => rfl
    | some v =>
        rw [Option.filter_some]
        split <;> simp only [Option.some_or, Option.none_or]
  have habove := above_max_created cfg hwf.numbered
    (liveEntries now (mergedMap (sst :: overlapping sst level mgr))) (level + 1)
  have hmiddle := above_max_removeMerged (overlapping sst level mgr) (level + 1) habove
  have hwf' : WellFormed cfg (mergeOldest cfg now sst level mgr) := wellFormed_mergeOldest hwf hfiles
  have htarget : ∀ key, (first (mergeOldest cfg now sst level mgr).depths key).filter
      (EValue.isLive now) = (first mgr.depths key).filter (EValue.isLive now) := by
    intro key
    rw [← visibleAt_eq_first hwf'.above_max, ← visibleAt_eq_first hwf.above_max]
    exact (uncovers_mergeOldest hwf hstrategy hlevel hfiles).same_iff.2 hsafe key
  have hbetween : ∀ key, (first (withoutOverlapping cfg now sst level mgr).depths key).filter
      (EValue.isLive now) = (first mgr.depths key).filter (EValue.isLive now) := by
    intro key
    by_cases hclear : Clear (createFromEntries cfg
        (liveEntries now (mergedMap (sst :: overlapping sst level mgr))) (level + 1) mgr).2.depths
          (level + 1) key
    · -- without the key in the level, the second removal changes nothing for it
      rw [← htarget key]
      refine congrArg _ (first_congr fun i => ?_)
      by_cases hi : i = level
      · subst hi
        have hnone := depths_removeMerged (overlapping sst i mgr) (i + 1)
          (hclear i (Nat.lt_succ_self i))
        exact hnone.trans (depths_removeMerged [sst] i hnone).symm
      · exact congrFun (depths_removeMerged_of_ne [sst] _ hi).symm key
    · rw [← hcreated.shows key]
      refine congrArg _ (first_of_not_clear (fun i hi => ?_) hclear)
      exact congrFun (depths_removeMerged_of_ne _ _ (Nat.ne_of_lt hi)) key
  refine (follows_createStates hwf.numbered hcreated habove).append (Follows.step
    ⟨lowers_remove ?_ fun key => ?_, hmiddle⟩ (Follows.step
      ⟨lowers_remove ?_ fun key => ?_, hwf'.above_max⟩ (Follows.stop _)))
  · exact fun i key => depths_removeMerged _ _
  · rw [hcreated.shows key]
    exact hbetween key
  · exact fun i key => depths_removeMerged _ _
  · exact (htarget key).trans (hbetween key).symm

/-- What the lookups stand in a call, they stand in the calls that follow. -/
theorem follows_strategy0 {recur : SSTableManager → Nat → List SSTableManager × Option SSTableManager}
    {safe : SSTableManager → Nat → Prop} (hwf : WellFormed cfg mgr)
    (hstrategy : cfg.mergeStrategy = .levelCompaction → mgr.maxLevel ≤ level)
    (hlevel : level ≤ mgr.maxLevel)
    (hrecur : ∀ m l, WellFormed cfg m → safe m l → Follows (Moves now) m (recur m l).1 (recur m l).2)
    (hsafe : Strategy0Safe cfg now safe mgr level) :
    Follows (Moves now) mgr (strategy0States cfg now recur mgr level).1
      (strategy0States cfg now recur mgr level).2 := by
  rw [strategy0States]
  by_cases hempty : mgr.levelSstables level = []
  · rw [hempty, List.isEmpty_nil, if_pos rfl]
    exact Follows.stop mgr
  · rw [if_neg (by simpa using hempty)]
    obtain ⟨hmerge, hrest⟩ := hsafe hempty
    exact (follows_mergeLevel hwf hstrategy hlevel hmerge).append
      (hrecur _ _ (wellFormed_mergeLevel hwf hstrategy) hrest)

theorem follows_strategy1 {fuel : Nat} (hwf : WellFormed cfg mgr)
    (hstrategy : cfg.mergeStrategy = .levelCompaction) (hlevel : level ≤ mgr.maxLevel)
    (hrecur : ∀ m l, WellFormed cfg m → MergesSafe cfg now fuel m l →
      Follows (Moves now) m (mergeStates cfg now fuel m l).1 (mergeStates cfg now fuel m l).2)
    (hsafe : Strategy1Safe cfg now (mergeSstables cfg now fuel) (MergesSafe cfg now fuel) mgr level) :
    Follows (Moves now) mgr (strategy1States cfg now (mergeStates cfg now fuel) mgr level).1
      (strategy1States cfg now (mergeStates cfg now fuel) mgr level).2 := by
  rw [strategy1States]
  unfold Strategy1Safe at hsafe
  split_ifs at hsafe ⊢ with htop
  · exact follows_strategy0 hwf (fun _ => Nat.le_of_eq htop.symm) hlevel hrecur hsafe
  · cases hlast : (mgr.levelSstables level).getLast? with
    | none => exact Follows.stop mgr
    | some sst =>
        obtain ⟨newer, hfiles⟩ := List.getLast?_eq_some_iff.1 hlast
        obtain ⟨hmerge, hfirst, hsecond⟩ := hsafe sst hlast
        have hwf' : WellFormed cfg (mergeOldest cfg now sst level mgr) :=
          wellFormed_mergeOldest hwf hfiles
        have hmerged := follows_mergeOldest hwf hstrategy (lt_of_le_of_ne hlevel htop) hfiles hmerge
        have hcall := hrecur _ _ hwf' hfirst
        have hsnd := mergeStates_snd cfg now fuel (mergeOldest cfg now sst level mgr) level
        cases hrun : mergeSstables cfg now fuel (mergeOldest cfg now sst level mgr) level with
        | none =>
            rw [hrun] at hsnd
            simp only [hsnd] at hcall ⊢
            exact hmerged.append hcall
        | some r =>
            rw [hrun] at hsnd
            have hwf'' := (outcome_mergeSstables fuel _ level r hwf' hrun).1
            simp only [hsnd, Option.map_some] at hcall ⊢
            exact hmerged.append (hcall.append (hrecur _ _ hwf'' (hsecond r hrun)))

/-- **The lookups stand `merge_sstables`.** -/
theorem follows_mergeStates (fuel : Nat) : ∀ (mgr : SSTableManager) (level : Nat),
    WellFormed cfg mgr → MergesSafe cfg now fuel mgr level →
      Follows (Moves now) mgr (mergeStates cfg now fuel mgr level).1
        (mergeStates cfg now fuel mgr level).2 := by
  induction fuel with
  | zero => exact fun mgr level _ _ => (Follows.stop mgr).lost
  | succ fuel ih =>
      intro mgr level hwf hsafe
      rw [MergesSafe] at hsafe
      rw [mergeStates]
      by_cases hlevel : mgr.maxLevel < level
      · rw [if_pos hlevel]
        exact Follows.stop mgr
      rw [if_neg hlevel]
      have hle := Nat.le_of_not_lt hlevel
      by_cases hshould : shouldMerge cfg mgr level = true
      · have hsafe := hsafe hle hshould
        rw [if_pos hshould]
        cases hstrategy : cfg.mergeStrategy with
        | sizeTieredCompaction =>
            rw [hstrategy] at hsafe
            exact follows_strategy0 hwf (fun h => by rw [hstrategy] at h; cases h) hle ih hsafe
        | levelCompaction =>
            rw [hstrategy] at hsafe
            exact follows_strategy1 hwf hstrategy hle ih hsafe
      · rw [if_neg hshould]
        exact Follows.stop mgr

end Lowering

end SSTableManager

namespace Storage

open SSTableManager (createFromEntries createStates mergeStates WellFormed Moves)

section States

variable (cfg : StorageConfig) (env : Env)

/-- The states of a round of `Storage::flush_memtable_to_sstable`, and what it leaves if it ends. The
memtable goes last, behind its log. -/
def roundStates (st : Storage) : List Storage × Option (Storage × Bool) :=
  match st.immutableMemtables.toList with
  | [] => ([], some (st, false))
  | (filename, imm) :: _ =>
      if imm.size = 0 then
        let st' := { st with immutableMemtables := st.immutableMemtables.erase filename }
        ([st'], some (st', true))
      else
        let entries := imm.getAllEntries
        let created := createFromEntries cfg.sstable entries 0 st.sstableManager
        match created.1 with
        | none => ([], some ({ st with sstableManager := created.2 }, false))
        | some _ =>
            let merges := mergeStates cfg.sstable env.now cfg.mergeFuel created.2 0
            let written : List Storage :=
              (createStates cfg.sstable entries 0 st.sstableManager ++ merges.1).map
                fun mgr => { st with sstableManager := mgr }
            match merges.2 with
            | none => (written, none)
            | some mgr =>
                let cleared : Storage := { st with
                  sstableManager := mgr
                  wal := if cfg.enableWal then st.wal.clear filename else st.wal }
                let st' := { cleared with
                  immutableMemtables := st.immutableMemtables.erase filename }
                (written ++ [cleared, st'], some (st', true))

/-- The states of the loop. -/
def flushStates : Nat → Storage → List Storage × Option Storage
  | 0, st => ([], some st)
  | rounds + 1, st =>
      let round := roundStates cfg env st
      match round.2 with
      | none => (round.1, none)
      | some (st', goOn) =>
          if goOn then
            let rest := flushStates rounds st'
            (round.1 ++ rest.1, rest.2)
          else (round.1, some st')

/-- The states belong to the flush of the model. -/
theorem roundStates_snd (st : Storage) : (roundStates cfg env st).2 = flushOldest cfg env st := by
  rw [roundStates, flushOldest]
  cases st.immutableMemtables.toList with
  | nil => rfl
  | cons e rest =>
      obtain ⟨name, imm⟩ := e
      simp only
      split
      · rfl
      · rw [SSTableManager.createNewSstable]
        obtain ⟨made, mgr⟩ := createFromEntries cfg.sstable imm.getAllEntries 0 st.sstableManager
        cases made with
        | none => rfl
        | some sst =>
            have hsnd := SSTableManager.mergeStates_snd cfg.sstable env.now cfg.mergeFuel mgr 0
            cases hmerge : SSTableManager.mergeSstables cfg.sstable env.now cfg.mergeFuel mgr 0 with
            | none =>
                rw [hmerge] at hsnd
                simp only [hsnd, hmerge]
                rfl
            | some r =>
                rw [hmerge] at hsnd
                simp only [hsnd, hmerge]
                rfl

theorem flushStates_snd (rounds : Nat) : ∀ st : Storage,
    (flushStates cfg env rounds st).2 = flushLoop cfg env rounds st := by
  induction rounds with
  | zero => exact fun _ => rfl
  | succ rounds ih =>
      intro st
      rw [flushStates, flushLoop, roundStates_snd]
      cases flushOldest cfg env st with
      | none => rfl
      | some r =>
          obtain ⟨st', goOn⟩ := r
          cases goOn with
          | true => exact ih st'
          | false => rfl

end States

section Standing

variable {cfg : StorageConfig} {env : Env} {now : Nat} {st st' st'' : Storage}

/-- The versions behind the memtable, in the order of a lookup. -/
def oldDepths (st : Storage) : Nat → Bytes → Option EValue :=
  under st.getFromImmutableMemtables st.sstableManager.depths

/-- A change of the store that the lookups stand. -/
structure Stands (now : Nat) (st st' : Storage) : Prop where
  memtable : st'.memtable = st.memtable
  lowers : Lowers (EValue.isLive now) st.oldDepths st'.oldDepths
  above_max : ∀ i, st'.sstableManager.maxLevel < i → st'.sstableManager.levelSstables i = []

theorem Stands.trans (h : Stands now st st') (h' : Stands now st' st'') : Stands now st st'' :=
  ⟨h'.memtable.trans h.memtable, h.lowers.trans h'.lowers, h'.above_max⟩

theorem stands_of_moves (st : Storage) {mgr mgr' : SSTableManager} (h : Moves now mgr mgr') :
    Stands now { st with sstableManager := mgr } { st with sstableManager := mgr' } :=
  ⟨rfl, h.lowers.under _, h.above_max⟩

variable {name : Bytes} {imm : MemTable} {rest : List (Bytes × MemTable)}

/-- The oldest immutable memtable is read last. -/
theorem getFromImmutableMemtables_split
    (hlist : st.immutableMemtables.toList = (name, imm) :: rest) (key : Bytes) :
    st.getFromImmutableMemtables key =
      (getFromImmutableMemtables
        { st with immutableMemtables := st.immutableMemtables.erase name } key).or (imm.get key) := by
  have hrest := OrderedMap.toList_erase_head _ hlist
  rw [getFromImmutableMemtables, getFromImmutableMemtables, hrest, hlist, List.reverse_cons,
    List.findSome?_append, List.findSome?_singleton]

/-- The oldest immutable memtable goes when the files show what it shows. -/
theorem stands_erase (hlist : st.immutableMemtables.toList = (name, imm) :: rest)
    (habove : ∀ i, st.sstableManager.maxLevel < i → st.sstableManager.levelSstables i = [])
    (hfiles : ∀ key, (first st.sstableManager.depths key).filter (EValue.isLive now) =
      ((imm.get key).or (first st.sstableManager.depths key)).filter (EValue.isLive now)) :
    Stands now st { st with immutableMemtables := st.immutableMemtables.erase name } := by
  have hsplit := getFromImmutableMemtables_split hlist
  refine ⟨rfl, lowers_remove (fun i key hnone => ?_) fun key => ?_, habove⟩
  · cases i with
    | zero =>
        have htop : st.getFromImmutableMemtables key = none := hnone
        rw [hsplit key, Option.or_eq_none_iff] at htop
        exact htop.1
    | succ i => exact hnone
  · rw [oldDepths, oldDepths, first_under, first_under, hsplit key, Option.or_assoc]
    exact filter_or_congr _ (hfiles key)

/-- The entries of a memtable as the layer of its file. -/
theorem getElem?_getAllEntries (imm : MemTable) (key : Bytes) :
    (Std.ExtTreeMap.ofList imm.getAllEntries compare)[key]? = imm.get key := by
  refine Option.ext fun v => ?_
  rw [OrderedMap.getElem?_ofList_iff imm.getAllEntries_distinct, MemTable.mem_getAllEntries_iff]

/-- What the merges of a flush leave. -/
theorem above_max_of_final {mgr mgr' : SSTableManager} (hwf : WellFormed cfg.sstable mgr)
    (h : mgr' = mgr ∨ Moves now mgr mgr') : ∀ i, mgr'.maxLevel < i → mgr'.levelSstables i = [] := by
  rcases h with rfl | h
  · exact hwf.above_max
  · exact h.above_max

theorem shows_of_final {mgr mgr' : SSTableManager} (h : mgr' = mgr ∨ Moves now mgr mgr')
    (key : Bytes) : (first mgr'.depths key).filter (EValue.isLive now) =
      (first mgr.depths key).filter (EValue.isLive now) := by
  rcases h with rfl | h
  · rfl
  · exact h.lowers.shows key

/-- A memtable is written to level 0 while it is still read above it. -/
theorem follows_created (cfg : StorageConfig)
    (hnum : SSTableManager.Numbered st.sstableManager)
    (hlist : st.immutableMemtables.toList = (name, imm) :: rest) :
    Follows (Stands now) st
      ((createStates cfg.sstable imm.getAllEntries 0 st.sstableManager).map
        fun mgr => { st with sstableManager := mgr })
      (some { st with
        sstableManager := (createFromEntries cfg.sstable imm.getAllEntries 0 st.sstableManager).2 }) := by
  have habove := SSTableManager.above_max_created cfg.sstable hnum imm.getAllEntries 0
  rw [createStates]
  split
  · next hnil =>
      have hsame : (createFromEntries cfg.sstable imm.getAllEntries 0 st.sstableManager).2 =
          st.sstableManager := by rw [createFromEntries, dif_pos hnil]
      rw [hsame]
      exact Follows.stop st
  · refine Follows.step (stands_of_moves st (SSTableManager.moves_levels hnum 0))
      (Follows.step ⟨rfl, ?_, habove⟩ (Follows.stop _))
    refine lowers_add (d := 1) (fun key hclear => ?_) fun i hi => ?_
    · have htop : st.getFromImmutableMemtables key = none := hclear 0 Nat.one_pos
      rw [getFromImmutableMemtables_split hlist, Option.or_eq_none_iff] at htop
      have hdepth := SSTableManager.depths_createFromEntries cfg.sstable imm.getAllEntries 0
        st.sstableManager key
      rw [getElem?_getAllEntries, htop.2, Option.none_or] at hdepth
      exact hdepth
    · cases i with
      | zero => rfl
      | succ i =>
          have hi : i ≠ 0 := fun h => hi (by rw [h])
          exact SSTableManager.depths_createFromEntries_of_ne cfg.sstable imm.getAllEntries _ hi

/-- **A round of the flush.** -/
theorem follows_roundStates (hsound : Sound cfg st) (hsafe : SafeRound cfg env st) :
    Follows (Stands env.now) st (roundStates cfg env st).1
      ((roundStates cfg env st).2.map Prod.fst) := by
  rw [roundStates]
  cases hlist : st.immutableMemtables.toList with
  | nil => exact Follows.stop st
  | cons e rest =>
      obtain ⟨name, imm⟩ := e
      have himm : imm.Counted := hsound.inv.counted.immutables name imm
        (Std.ExtTreeMap.mem_toList_iff_getElem?_eq_some.1 (by rw [hlist]; exact List.mem_cons_self))
      simp only
      split
      · next hsize =>
          refine Follows.step (stands_erase hlist hsound.sstables.above_max fun key => ?_)
            (Follows.stop _)
          rw [MemTable.get_eq_none_of_size himm hsize, Option.none_or]
      · next hsize =>
          obtain ⟨sst, hsst⟩ := SSTableManager.createFromEntries_fst cfg.sstable st.sstableManager 0
            (MemTable.getAllEntries_ne_nil himm hsize)
          simp only [hsst]
          have hwf := SSTableManager.wellFormed_createFromEntries hsound.sstables imm.getAllEntries
            fun _ => (Eq.refl 0)
          have hmerges := SSTableManager.follows_mergeStates cfg.mergeFuel _ 0 hwf
            (hsafe (name, imm) (by rw [hlist]; rfl) hsize)
          have hwritten := (follows_created cfg hsound.sstables.numbered hlist).append
            (hmerges.map fun _ _ h => stands_of_moves st h)
          rw [← List.map_append] at hwritten
          split
          · next hlost =>
              rw [hlost] at hwritten
              exact hwritten
          · next mgr hmgr =>
              rw [hmgr] at hwritten hmerges
              have hfinal := hmerges.final fun _ _ _ h h' => h.trans h'
              refine hwritten.append (Follows.step ⟨rfl, Lowers.rfl, ?_⟩ (Follows.step
                (stands_erase hlist ?_ fun key => ?_) (Follows.stop _)))
              · exact above_max_of_final hwf hfinal
              · exact above_max_of_final hwf hfinal
              · -- the merges keep what the new file shows of the key
                have hshows := shows_of_final hfinal key
                cases hget : imm.get key with
                | none => rfl
                | some v =>
                    have hdepth := SSTableManager.depths_createFromEntries cfg.sstable
                      imm.getAllEntries 0 st.sstableManager key
                    rw [getElem?_getAllEntries, hget, Option.some_or] at hdepth
                    rw [first_eq_some (Clear.zero _ key) hdepth] at hshows
                    rw [Option.some_or]
                    exact hshows

/-- **The flush.** -/
theorem follows_flushStates (rounds : Nat) : ∀ st : Storage, Sound cfg st →
    SafeLoop cfg env rounds st →
      Follows (Stands env.now) st (flushStates cfg env rounds st).1
        (flushStates cfg env rounds st).2 := by
  induction rounds with
  | zero => exact fun st _ _ => Follows.stop st
  | succ rounds ih =>
      intro st hsound hsafe
      have hround := follows_roundStates hsound hsafe.1
      rw [flushStates]
      rw [roundStates_snd] at hround ⊢
      cases hrun : flushOldest cfg env st with
      | none =>
          rw [hrun] at hround
          exact hround
      | some r =>
          obtain ⟨st', goOn⟩ := r
          rw [hrun] at hround
          cases goOn with
          | false => exact hround
          | true =>
              have hsound' : Sound cfg st' := ⟨inv_of_flushOldest hsound.inv hrun,
                wellFormed_of_round hsound.inv.counted hsound.sstables hrun⟩
              exact hround.append (ih st' hsound' (hsafe.2 _ hrun rfl))

end Standing

section Reading

/-- `Storage::get` at the second `now` while another thread works: `view n` is the store when the
lookup takes its `n`-th lock, of the memtable, of the immutable ones, of the manager, and of the
levels one after the other. -/
def getDuring (now : Nat) (view : Nat → Storage) (key : Bytes) : Option EyaValue :=
  match (view 0).getFromLatest now key with
  | some v => some v.value
  | none =>
      match (view 1).getFromImmutableMemtables key with
      | some v => if v.isExpired now || v.isDeleted then none else some v.value
      | none =>
          match (List.range ((view 2).sstableManager.maxLevel + 1)).findSome? fun i =>
            ((view (i + 3)).sstableManager.levelSstables i).findSome? fun sst => sst.get key with
          | some v => if v.isExpired now || v.isDeleted then none else some v.value
          | none => none

/-- The store in which the lookup reads a depth. -/
def readAt (view : Nat → Storage) : Nat → Storage
  | 0 => view 1
  | i + 1 => view (i + 3)

variable {cfg : StorageConfig} {env : Env} {now : Nat} {st : Storage} {view : Nat → Storage}

/-- A lookup takes the memtable's version when it is live, and otherwise the first one of the depths
when that is live. -/
theorem getDuring_eq (now : Nat) (view : Nat → Storage) (key : Bytes) :
    getDuring now view key = ((((view 0).memtable.get key).filter (EValue.isLive now)).or
      ((descend (fun d => (readAt view d).oldDepths) ((view 2).sstableManager.maxLevel + 2) key).filter
        (EValue.isLive now))).map EValue.value := by
  have hlatest : (view 0).getFromLatest now key =
      ((view 0).memtable.get key).filter (EValue.isLive now) := by
    rw [getFromLatest]
    cases (view 0).memtable.get key with
    | none => rfl
    | some v => exact isLive_eq_ite now v
  have hlevels : ∀ i, ((view (i + 3)).sstableManager.levelSstables i).findSome?
      (fun sst => sst.get key) = (readAt view (i + 1)).oldDepths (i + 1) key := by
    intro i
    show _ = (view (i + 3)).sstableManager.depths i key
    rw [SSTableManager.depths, SSTableManager.levelLayers, newest, List.findSome?_map]
    rfl
  have hdescend : descend (fun d => (readAt view d).oldDepths)
      ((view 2).sstableManager.maxLevel + 2) key =
        ((view 1).getFromImmutableMemtables key).or
          ((List.range ((view 2).sstableManager.maxLevel + 1)).findSome? fun i =>
            ((view (i + 3)).sstableManager.levelSstables i).findSome? fun sst => sst.get key) := by
    rw [descend, List.range_succ_eq_map, List.findSome?_cons, List.findSome?_map]
    simp only [hlevels]
    have htop : (readAt view 0).oldDepths 0 key = (view 1).getFromImmutableMemtables key := rfl
    rw [htop]
    cases (view 1).getFromImmutableMemtables key <;> rfl
  have hdead : ∀ v : EValue, (if v.isExpired now || v.isDeleted then none else some v.value) =
      ((some v).filter (EValue.isLive now)).map EValue.value := by
    intro v
    rw [← isLive_eq_ite]
    split <;> rfl
  rw [getDuring, hlatest, hdescend]
  cases ((view 0).memtable.get key).filter (EValue.isLive now) with
  | some v => rfl
  | none =>
      rw [Option.none_or]
      cases (view 1).getFromImmutableMemtables key with
      | some v => exact hdead v
      | none =>
          rw [Option.none_or]
          cases (List.range ((view 2).sstableManager.maxLevel + 1)).findSome? fun i =>
            ((view (i + 3)).sstableManager.levelSstables i).findSome? fun sst => sst.get key with
          | some v => exact hdead v
          | none => rfl

/-- Without other threads it is `get`. -/
theorem getDuring_const (now : Nat) (st : Storage) (key : Bytes) :
    getDuring now (fun _ => st) key = st.get now key := by
  rw [getDuring, get]
  cases st.getFromLatest now key with
  | some v => rfl
  | none =>
      simp only [getFromOld, SSTableManager.get]
      cases st.getFromImmutableMemtables key with
      | some v =>
          simp only
          split <;> rfl
      | none =>
          simp only
          cases (List.range (st.sstableManager.maxLevel + 1)).findSome? fun i =>
            (st.sstableManager.levelSstables i).findSome? fun sst => sst.get key with
          | some v =>
              simp only
              split <;> rfl
          | none => rfl

/-- **Lookups beside the background flush.** However the locks that a lookup takes fall between the
changes of a flush and of the merges that it triggers, the lookup returns what it returns before the
flush, when the merges are safe and no level is added between its look at the highest level and its
last read. -/
theorem get_during_flush (hsound : Sound cfg st) (hsafe : FlushSafe cfg env st)
    (hle : env.now ≤ now)
    (hview : Interleaves (st :: (flushStates cfg env (st.immutableMemtables.size + 1) st).1) view)
    (hlevels : (view ((view 2).sstableManager.maxLevel + 3)).sstableManager.maxLevel =
      (view 2).sstableManager.maxLevel) (key : Bytes) :
    getDuring now view key = st.get now key := by
  have hfollows := follows_flushStates _ st hsound hsafe
  have hstates := hfollows.pairwise fun _ _ _ h h' => h.trans h'
  have hstart : ∀ n, view n = st ∨ Stands env.now st (view n) := by
    intro n
    rcases List.mem_cons.1 (hview.mem n) with heq | hmem
    · exact Or.inl heq
    · exact Or.inr (List.rel_of_pairwise_cons hstates hmem)
  have hmemtable : ∀ n, (view n).memtable = st.memtable := by
    intro n
    rcases hstart n with heq | hstands
    · rw [heq]
    · exact hstands.memtable
  have hlowers : ∀ {n m}, n ≤ m → Lowers (EValue.isLive env.now) (view n).oldDepths
      (view m).oldDepths := by
    intro n m hnm
    rcases hview.rel hstates hnm with heq | hstands
    · rw [heq]
      exact Lowers.rfl
    · exact hstands.lowers
  have hfirst : (first (view 1).oldDepths key).filter (EValue.isLive env.now) =
      (first st.oldDepths key).filter (EValue.isLive env.now) := by
    rcases hstart 1 with heq | hstands
    · rw [heq]
    · exact hstands.lowers.shows key
  have habove : ∀ n i, (view n).sstableManager.maxLevel < i →
      (view n).sstableManager.levelSstables i = [] := by
    intro n
    rcases hstart n with heq | hstands
    · rw [heq]
      exact hsound.sstables.above_max
    · exact hstands.above_max
  have hfound : (descend (fun d => (readAt view d).oldDepths)
      ((view 2).sstableManager.maxLevel + 2) key).filter (EValue.isLive env.now) =
        (first (view 1).oldDepths key).filter (EValue.isLive env.now) := by
    refine descend_spec _ (fun d _ => ?_) fun d hd => ?_
    · cases d with
      | zero => exact hlowers (Nat.le_add_left 1 2)
      | succ i => exact hlowers (Nat.le_succ (i + 3))
    · cases d with
      | zero => exact absurd hd (Nat.not_lt_zero _)
      | succ i =>
          have hi : (view ((view 2).sstableManager.maxLevel + 3)).sstableManager.maxLevel < i := by
            rw [hlevels]
            exact Nat.lt_of_succ_lt_succ hd
          exact SSTableManager.depths_eq_none (habove _ i hi) key
  have hconst : descend (fun _ => st.oldDepths) (st.sstableManager.maxLevel + 2) key =
      first st.oldDepths key := by
    refine descend_const fun d hd => ?_
    cases d with
    | zero => exact absurd hd (Nat.not_lt_zero _)
    | succ i =>
        have hi := hsound.sstables.above_max i (Nat.lt_of_succ_lt_succ hd)
        exact SSTableManager.depths_eq_none hi key
  have hread : ∀ d, (readAt (fun _ => st) d).oldDepths = st.oldDepths := by
    intro d
    cases d <;> rfl
  -- the clock of the lookup is behind that of the flush
  rw [← getDuring_const, getDuring_eq, getDuring_eq, hmemtable 0]
  simp only [hread, hconst]
  rw [← filter_isLive_filter hle (descend _ _ key), hfound, hfirst, filter_isLive_filter hle]

/-- Two files in level 0 start a merge. -/
def mergingConfig : StorageConfig :=
  ⟨true, 1, ⟨.sizeTieredCompaction, 2, fun _ _ => false, List.length⟩, 3⟩

/-- The key 97 is in a file of level 0, and the key 98 in a memtable that is to be flushed. -/
def flushing : Storage :=
  { openEmpty mergingConfig (tick 1) with
    immutableMemtables := (∅ : StrMap MemTable).insert []
      ((createNewMemtable mergingConfig).insertNode [98] { value := .string [119] })
    sstableManager := (createFromEntries mergingConfig.sstable [([97], { value := .string [118] })] 0
      SSTableManager.empty).2 }

/-- The states of the flush: two for the file of the memtable, then two for the merged file in
level 1, one without level 0, one without the log, and one without the memtable. -/
def flushingStates : List Storage :=
  flushing :: (flushStates mergingConfig (tick 2) (flushing.immutableMemtables.size + 1) flushing).1

theorem sound_flushing : Sound mergingConfig flushing := by
  have hnormal := MemTable.normal_new (mergingConfig.memtableSize * 1024)
  have hopen := inv_openEmpty mergingConfig (tick 1)
  refine ⟨⟨hopen.memtable, fun name imm h => ?_, fun name imm h => ?_, hopen.walOpen⟩, ?_⟩
  · obtain ⟨-, rfl⟩ := getElem?_first h
    exact MemTable.normal_insertNode hnormal
  · obtain ⟨rfl, -⟩ := getElem?_first h
    decide
  · exact SSTableManager.wellFormed_createFromEntries (SSTableManager.wellFormed_empty _) _
      fun _ => rfl

theorem flushSafe_flushing : FlushSafe mergingConfig (tick 2) flushing := by
  have hhead : flushing.immutableMemtables.toList = [([], (createNewMemtable mergingConfig).insertNode
      [98] { value := .string [119] })] := rfl
  refine ⟨fun e he _ => ?_, fun r hr _ => ⟨fun e he => ?_, fun _ _ _ => trivial⟩⟩
  · rw [hhead] at he
    obtain rfl := Option.some.inj he
    intro _ _
    -- level 0 is the only one, so nothing lies below what the merge drops
    refine fun _ => ⟨?_, fun _ hshould => absurd hshould (by decide)⟩
    rintro key ⟨-, -, hbelow⟩
    cases hbelow
  · have hempty : ∀ r ∈ flushOldest mergingConfig (tick 2) flushing,
        r.1.immutableMemtables.toList = [] := by decide
    rw [hempty r hr] at he
    cases he

/-- A lookup that asks for the highest level when the merge has added level 1. -/
def lateLookup (n : Nat) : Storage :=
  flushingStates.getD (if n < 2 then 0 else if n < 4 then 4 else 5) flushing

theorem get_during_flush_flushing :
    Interleaves flushingStates lateLookup ∧ getDuring 0 lateLookup [97] = some (.string [118]) := by
  have hview : Interleaves flushingStates lateLookup := by
    refine interleaves_getD flushing (fun n m hnm => ?_) fun n => ?_
    · split_ifs <;> omega
    · have hlength : flushingStates.length = 8 := by decide
      simp only [hlength]
      split_ifs <;> omega
  refine ⟨hview, ?_⟩
  rw [get_during_flush sound_flushing flushSafe_flushing (Nat.le_refl 0) hview (by decide) [97]]
  decide

/-- A lookup that asks for the highest level before. -/
def earlyLookup (n : Nat) : Storage := flushingStates.getD (if n < 3 then 0 else 5) flushing

/-- The merge has moved the key to a level that the lookup does not read. -/
theorem get_misses_added_level : Interleaves flushingStates earlyLookup ∧
    getDuring 0 earlyLookup [97] = none ∧ flushing.get 0 [97] = some (.string [118]) := by
  refine ⟨interleaves_getD flushing (fun n m hnm => ?_) fun n => ?_, by decide, by decide⟩
  · split_ifs <;> omega
  · have hlength : flushingStates.length = 8 := by decide
    simp only [hlength]
    split_ifs <;> omega

end Reading

end Storage

end EyaKV.Store
