import EyaKV.Store.Directory

/-!
# Crashes during a merge

A merge writes its new file and then removes the merged files one by one, the newest
first (`mergeLevelSteps`, `mergeOldestSteps`). `LookupIs` says what a restart must find,
whatever the order in which it reads the directory. The file that the first strategy
writes lies one level below the files it replaces, so an older survivor of the level
hides it; the second strategy puts its file in front of the whole next level before the
files it came from are gone. Both drop tombstones whose older versions may survive.

`everyCrash_mergeLevel` and `everyCrash_mergeOldest` give the exact condition on the
files for one merge, and `merge_crash_iff` gives it for a call of either function with
all the merges that follow.
-/

set_option autoImplicit false

namespace EyaKV.Store

open EyaKV.Base EyaKV.Base.Layers EyaKV.Base.Crash

namespace SSTableManager

/-- A restart in the directory `files`, read in any order, finds the versions `found`
at the second `t`. -/
def LookupIs (t : Nat) (found : Bytes → Option EValue) (files : List SSTable) : Prop :=
  ∀ files' : List SSTable, files'.Perm files → ∀ key, (loadAll files').visibleAt t key = found key

section Steps

variable (cfg : SSTableConfig) (now : Nat)

/-- The steps of a merge on the disk: the new file, if there is one, then the removals. -/
def stepsOf (created : Option SSTable) (merged : List SSTable) : List DiskOp :=
  created.toList.map DiskOp.write ++ merged.map DiskOp.remove

/-- The file that `mergeLevel` writes. -/
def mergedLevel (level : Nat) (mgr : SSTableManager) : Option SSTable :=
  (createFromEntries cfg (liveEntries now (mergedMap (mgr.levelSstables level))) (level + 1) mgr).1

/-- The file that `mergeOldest` writes. -/
def mergedOldest (sst : SSTable) (level : Nat) (mgr : SSTableManager) : Option SSTable :=
  (createFromEntries cfg (liveEntries now (mergedMap (sst :: overlapping sst level mgr)))
    (level + 1) mgr).1

def mergeLevelSteps (level : Nat) (mgr : SSTableManager) : List DiskOp :=
  stepsOf (mergedLevel cfg now level mgr) (mgr.levelSstables level)

def mergeOldestSteps (sst : SSTable) (level : Nat) (mgr : SSTableManager) : List DiskOp :=
  stepsOf (mergedOldest cfg now sst level mgr) (sst :: overlapping sst level mgr)

/-- The steps of `merge_sstables_by_strategy_0` on the disk, given those of the call that
follows, and the manager it leaves if it ends. -/
def strategy0Steps (recur : SSTableManager → Nat → List DiskOp × Option SSTableManager)
    (mgr : SSTableManager) (level : Nat) : List DiskOp × Option SSTableManager :=
  if (mgr.levelSstables level).isEmpty then ([], some mgr)
  else
    let rest := recur (mergeLevel cfg now level mgr) (level + 1)
    (mergeLevelSteps cfg now level mgr ++ rest.1, rest.2)

/-- The same of `merge_sstables_by_strategy_1`. -/
def strategy1Steps (recur : SSTableManager → Nat → List DiskOp × Option SSTableManager)
    (mgr : SSTableManager) (level : Nat) : List DiskOp × Option SSTableManager :=
  if level = mgr.maxLevel then strategy0Steps cfg now recur mgr level
  else
    match (mgr.levelSstables level).getLast? with
    | none => ([], some mgr)
    | some sst =>
        let first := recur (mergeOldest cfg now sst level mgr) level
        match first.2 with
        | none => (mergeOldestSteps cfg now sst level mgr ++ first.1, none)
        | some mgr' =>
            let second := recur mgr' (level + 1)
            (mergeOldestSteps cfg now sst level mgr ++ (first.1 ++ second.1), second.2)

/-- The steps of `merge_sstables`, with all the merges it triggers. When the fuel runs
out they are the steps up to that point. -/
def mergeSteps : Nat → SSTableManager → Nat → List DiskOp × Option SSTableManager
  | 0, _, _ => ([], none)
  | fuel + 1, mgr, level =>
      if mgr.maxLevel < level then ([], some mgr)
      else if shouldMerge cfg mgr level then
        match cfg.mergeStrategy with
        | .sizeTieredCompaction => strategy0Steps cfg now (mergeSteps fuel) mgr level
        | .levelCompaction => strategy1Steps cfg now (mergeSteps fuel) mgr level
      else ([], some mgr)

/-- The steps belong to the merges of the model: both leave the same manager. -/
theorem mergeSteps_snd (fuel : Nat) : ∀ (mgr : SSTableManager) (level : Nat),
    (mergeSteps cfg now fuel mgr level).2 =
      (mergeSstables cfg now fuel mgr level).map Prod.snd := by
  induction fuel with
  | zero => exact fun _ _ => rfl
  | succ fuel ih =>
      -- the two strategies call back with less fuel, so the induction hypothesis covers the calls
      have hzero : ∀ mgr level, (strategy0Steps cfg now (mergeSteps cfg now fuel) mgr level).2 =
          (mergeSstablesByStrategy0 cfg now (mergeSstables cfg now fuel) mgr level).map
            Prod.snd := by
        intro mgr level
        simp only [strategy0Steps, mergeSstablesByStrategy0]
        split
        · rfl
        · rw [ih]
          cases mergeSstables cfg now fuel (mergeLevel cfg now level mgr) (level + 1) with
          | none => rfl
          | some r => rfl
      have hone : ∀ mgr level, (strategy1Steps cfg now (mergeSteps cfg now fuel) mgr level).2 =
          (mergeSstablesByStrategy1 cfg now (mergeSstables cfg now fuel) mgr level).map
            Prod.snd := by
        intro mgr level
        simp only [strategy1Steps, mergeSstablesByStrategy1]
        split
        · exact hzero mgr level
        · cases (mgr.levelSstables level).getLast? with
          | none => rfl
          | some sst =>
              simp only [ih]
              cases mergeSstables cfg now fuel (mergeOldest cfg now sst level mgr) level with
              | none => rfl
              | some r =>
                  simp only [Option.map_some, Option.bind_eq_bind, Option.bind_some]
                  cases mergeSstables cfg now fuel r.2 (level + 1) with
                  | none => rfl
                  | some r' => rfl
      intro mgr level
      simp only [mergeSteps, mergeSstables]
      split
      · rfl
      · split
        · cases cfg.mergeStrategy with
          | sizeTieredCompaction => exact hzero mgr level
          | levelCompaction => exact hone mgr level
        · rfl

end Steps

variable {cfg : SSTableConfig} {mgr : SSTableManager} {now t level : Nat} {files : List SSTable}
  {levels : Nat → List SSTable} {found : Bytes → Option EValue}

section Reload

/-- All ways to read one directory find the same. -/
theorem lookupIs_iff (hrep : Represents files levels) (hsorted : ∀ i, NewestFirst (levels i)) :
    LookupIs t found files ↔ ∀ key, (loadAll files).visibleAt t key = found key := by
  constructor
  · intro h
    exact h files (List.Perm.refl _)
  · intro h files' hperm key
    have hrep' := hrep.perm hperm
    have hlevels : (loadAll files').levelSstables = (loadAll files).levelSstables := by
      rw [levelSstables_loadAll hrep hsorted, levelSstables_loadAll hrep' hsorted]
    rw [visibleAt_congr (numbered_loadAll hrep hsorted) (numbered_loadAll hrep' hsorted) hlevels]
    exact h key

/-- A restart without a crash finds what the manager finds. -/
theorem lookupIs_stored (hst : Stored mgr) (hrep : Represents files mgr.levelSstables) :
    LookupIs t (mgr.visibleAt t) files := by
  rw [lookupIs_iff hrep hst.newest_first]
  intro key
  rw [visibleAt_congr hst.numbered (numbered_loadAll hrep hst.newest_first)
    (levelSstables_loadAll hrep hst.newest_first)]

/-- The lists of files after the step that writes `created` and the removal of `gone`. -/
def levelsAfter (created : Option SSTable) (gone : List SSTable) (level : Nat)
    (mgr : SSTableManager) (i : Nat) : List SSTable :=
  without gone ((if i = level then created.toList else []) ++ mgr.levelSstables i)

theorem represents_after (hrep : Represents files mgr.levelSstables) (created : Option SSTable)
    (hlevel : ∀ sst ∈ created.toList, sst.level = level) (gone : List SSTable) :
    Represents ((gone.map DiskOp.remove).foldl DiskOp.apply (created.toList ++ files))
      (levelsAfter created gone level mgr) := by
  have hwritten : Represents (created.toList ++ files)
      fun i => (if i = level then created.toList else []) ++ mgr.levelSstables i := ?_
  · exact represents_remove hwritten gone
  cases created with
  | none => simpa using hrep
  | some sst =>
      obtain rfl := hlevel sst (by simp)
      have hwrite := represents_write hrep sst
      intro i
      have hi := hwrite i
      rw [Function.update_apply] at hi
      by_cases heq : i = sst.level
      · subst heq
        simpa using hi
      · simpa [heq] using hi

/-- A crash of a merge leaves the directory as it was, or with the new file and without
some of the merged ones. -/
theorem everyCrash_stepsOf {P : List SSTable → Prop} (hstart : P files) (created : Option SSTable)
    (merged : List SSTable) :
    EveryCrash DiskOp.apply P files (stepsOf created merged) ↔
      ∀ n, P (((merged.take n).map DiskOp.remove).foldl DiskOp.apply (created.toList ++ files)) := by
  have hremovals : ∀ files : List SSTable,
      EveryCrash DiskOp.apply P files (merged.map DiskOp.remove) ↔
        ∀ n, P (((merged.take n).map DiskOp.remove).foldl DiskOp.apply files) := by
    intro files
    simp only [EveryCrash, List.map_take]
  cases created with
  | none => exact hremovals files
  | some sst =>
      have hsteps : stepsOf (some sst) merged = .write sst :: merged.map DiskOp.remove := rfl
      rw [hsteps, everyCrash_cons, hremovals]
      exact ⟨fun h => h.2, fun h => ⟨hstart, h⟩⟩

/-- The removals leave a list without the removed files as it is. -/
theorem without_eq_self {gone l : List SSTable}
    (h : ∀ sst ∈ l, ∀ old ∈ gone, old.sequenceNumber ≠ sst.sequenceNumber) : without gone l = l := by
  refine List.filter_eq_self.2 fun sst hsst => ?_
  simpa using h sst hsst

theorem without_append (gone l l' : List SSTable) :
    without gone (l ++ l') = without gone l ++ without gone l' := List.filter_append _ _

/-- Removing the first files of a list leaves the rest of it. -/
theorem without_take {l : List SSTable} (hsorted : NewestFirst l) (n : Nat) :
    without (l.take n) l = l.drop n := by
  have hsplit := List.take_append_drop n l
  rw [NewestFirst, ← hsplit, List.pairwise_append] at hsorted
  obtain ⟨-, -, hacross⟩ := hsorted
  have hfirst : without (l.take n) (l.take n) = [] := by
    refine List.filter_eq_nil_iff.2 fun sst hsst => ?_
    simpa using ⟨sst, hsst, rfl⟩
  have hrest : without (l.take n) (l.drop n) = l.drop n :=
    without_eq_self fun sst hsst old hold => Nat.ne_of_gt (hacross old hold sst hsst)
  calc without (l.take n) l = without (l.take n) (l.take n ++ l.drop n) := by rw [hsplit]
    _ = l.drop n := by rw [without_append, hfirst, hrest, List.nil_append]

/-- The files of different levels have different numbers. -/
theorem number_ne (hst : Stored mgr) {i j : Nat} (hij : i ≠ j) {a b : SSTable}
    (ha : a ∈ mgr.levelSstables i) (hb : b ∈ mgr.levelSstables j) :
    a.sequenceNumber ≠ b.sequenceNumber :=
  fun h => hij (hst.number_unique i j a ha b hb h)

/-- No old file has the number of a created one. -/
theorem without_created (hst : Stored mgr) {entries : List (Bytes × EValue)} {gone : List SSTable}
    (hgone : ∀ old ∈ gone, ∃ i, old ∈ mgr.levelSstables i) :
    without gone (createFromEntries cfg entries level mgr).1.toList =
      (createFromEntries cfg entries level mgr).1.toList := by
  refine without_eq_self fun sst hsst old hold => ?_
  obtain ⟨i, hi⟩ := hgone old hold
  rw [(created_spec hsst).2.1]
  exact Nat.ne_of_lt (hst.number_lt i old hi)

/-- What a restart finds when the levels are those of a merge stopped half way. -/
theorem get_loadAll (hst : Stored mgr) {entries : List (Bytes × EValue)}
    {kept next : List SSTable} (hrep : Represents files levels)
    (hlevels : levels = Function.update (Function.update mgr.levelSstables (level + 1)
      ((createFromEntries cfg entries (level + 1) mgr).1.toList ++ next)) level kept)
    (hsorted : ∀ i, NewestFirst (levels i)) (key : Bytes) :
    (loadAll files).get key = newest ((mgr.layersFrom 0 level ++ kept.map SSTable.get) ++
      (fun k => (Std.ExtTreeMap.ofList entries compare)[k]?) ::
        (next.map SSTable.get ++
          mgr.layersFrom (level + 2) (mgr.maxLevel - (level + 1)))) key := by
  rw [get_of_merge (numbered_loadAll hrep hsorted) entries
    ((levelSstables_loadAll hrep hsorted).trans hlevels)
    ((loadAll files).maxLevel + (mgr.maxLevel - (level + 1))) (by omega) key,
    Nat.add_comm (loadAll files).maxLevel,
    layersFrom_extend hst.numbered (level + 2) (mgr.maxLevel - (level + 1)) _ (by omega)]

end Reload

section LevelMerge

/-- A crash at any point of the merge of a whole level changes no lookup at `t`. -/
def LevelCrashSafe (now t : Nat) (mgr : SSTableManager) (level : Nat) : Prop :=
  ∀ key, ¬ Torn (EValue.isLive now) (EValue.isLive t) (mgr.layersFrom 0 level)
    (mgr.levelLayers level) (mgr.layersFrom (level + 1) (mgr.maxLevel - level)) key

/-- The levels after `n` removals of the first strategy. -/
theorem levelsAfter_mergedLevel (hst : Stored mgr) (n : Nat) :
    levelsAfter (mergedLevel cfg now level mgr) ((mgr.levelSstables level).take n) (level + 1) mgr =
      Function.update (Function.update mgr.levelSstables (level + 1)
        ((mergedLevel cfg now level mgr).toList ++ mgr.levelSstables (level + 1))) level
          ((mgr.levelSstables level).drop n) := by
  have hgone : ∀ old ∈ (mgr.levelSstables level).take n, old ∈ mgr.levelSstables level :=
    fun old hold => List.mem_of_mem_take hold
  have hother : ∀ i, i ≠ level →
      without ((mgr.levelSstables level).take n) (mgr.levelSstables i) = mgr.levelSstables i :=
    fun i hi => without_eq_self fun sst hsst old hold => number_ne hst hi.symm (hgone old hold) hsst
  funext i
  rw [levelsAfter, without_append, Function.update_apply, Function.update_apply]
  by_cases hi : i = level
  · subst hi
    rw [if_pos rfl, if_neg (by omega), without_take (hst.newest_first i)]
    rfl
  · rw [if_neg hi, hother i hi]
    split_ifs with hnext
    · subst hnext
      rw [mergedLevel, without_created hst fun old hold => ⟨level, hgone old hold⟩]
    · rfl

theorem newestFirst_after (cfg : SSTableConfig) (level : Nat) (hst : Stored mgr)
    (entries : List (Bytes × EValue)) (gone : List SSTable) (i : Nat) :
    NewestFirst (levelsAfter (createFromEntries cfg entries level mgr).1 gone level mgr i) := by
  refine List.Pairwise.filter _ ?_
  split_ifs
  · exact newestFirst_created hst.numbered (hst.newest_first i) fun sst hsst => hsst
  · exact hst.newest_first i

/-- The layers below a level, the next level set apart. -/
theorem layersFrom_next (hnum : Numbered mgr) (level : Nat) :
    mgr.layersFrom (level + 1) (mgr.maxLevel - level) =
      mgr.levelLayers (level + 1) ++ mgr.layersFrom (level + 2) (mgr.maxLevel - (level + 1)) := by
  by_cases hlevel : level < mgr.maxLevel
  · rw [show mgr.maxLevel - level = mgr.maxLevel - (level + 1) + 1 by omega, layersFrom_succ]
  · have hnil : mgr.levelLayers (level + 1) = [] := by
      rw [levelLayers, hnum.above_max (level + 1) (by omega), List.map_nil]
    rw [show mgr.maxLevel - level = 0 by omega, show mgr.maxLevel - (level + 1) = 0 by omega, hnil]
    rfl

/-- The visible versions, with a level and the levels below it set apart. -/
theorem visibleAt_eq (hnum : Numbered mgr) (t level : Nat) :
    mgr.visibleAt t = visible (EValue.isLive t) (mgr.layersFrom 0 level ++
      (mgr.levelLayers level ++ mgr.layersFrom (level + 1) (mgr.maxLevel - level))) := by
  funext key
  rw [visibleAt, visible, get_eq_newest_of_lt hnum
    (show mgr.maxLevel < level + ((mgr.maxLevel - level) + 1) by omega), layersFrom_add,
    layersFrom_succ, Nat.zero_add]

/-- **A merge of a whole level survives every crash exactly when no key is torn.** -/
theorem everyCrash_mergeLevel (hst : Stored mgr) (hrep : Represents files mgr.levelSstables) :
    EveryCrash DiskOp.apply (LookupIs t (mgr.visibleAt t)) files
      (mergeLevelSteps cfg now level mgr) ↔ LevelCrashSafe now t mgr level := by
  have hstate : ∀ n, LookupIs t (mgr.visibleAt t)
      ((((mgr.levelSstables level).take n).map DiskOp.remove).foldl DiskOp.apply
        ((mergedLevel cfg now level mgr).toList ++ files)) ↔
      ∀ key, visible (EValue.isLive t) (crashed (mgr.layersFrom 0 level) (mgr.levelLayers level)
        (mgr.layersFrom (level + 1) (mgr.maxLevel - level))
        (fun k => (Std.ExtTreeMap.ofList
          (liveEntries now (mergedMap (mgr.levelSstables level))) compare)[k]?) n) key =
        visible (EValue.isLive t) (mgr.layersFrom 0 level ++
          (mgr.levelLayers level ++ mgr.layersFrom (level + 1) (mgr.maxLevel - level))) key := by
    intro n
    have hrep' := represents_after hrep (mergedLevel cfg now level mgr)
      (fun sst hsst => created_level hsst) ((mgr.levelSstables level).take n)
    have hsorted := newestFirst_after cfg (level + 1) hst
      (liveEntries now (mergedMap (mgr.levelSstables level))) ((mgr.levelSstables level).take n)
    rw [lookupIs_iff hrep' hsorted]
    refine forall_congr' fun key => ?_
    rw [visibleAt_eq hst.numbered t level, visibleAt,
      get_loadAll hst hrep' (levelsAfter_mergedLevel hst n) hsorted, crashed,
      layersFrom_next hst.numbered level, List.append_assoc, List.map_drop]
    rfl
  rw [mergeLevelSteps, everyCrash_stepsOf (lookupIs_stored hst hrep)]
  simp only [hstate]
  rw [forall_comm]
  exact forall_congr' fun key => visible_crashed_iff (fun k => getElem?_liveEntries _ k) key

end LevelMerge

section OldestMerge

/-- A crash at any point of the merge of a level's oldest file `sst` into the next level
changes no lookup at `t`: no key is overtaken by the new file in front of the next level,
and none is uncovered, whichever of the merged files of the next level are left. -/
def OldestCrashSafe (now t : Nat) (sst : SSTable) (mgr : SSTableManager) (level : Nat) : Prop :=
  ∀ key,
    ¬ Overtaken (EValue.isLive now) (EValue.isLive t)
      (mgr.layersFrom 0 level ++ (mgr.levelSstables level).dropLast.map SSTable.get) sst.get
      ((overlapping sst level mgr).map SSTable.get) (mgr.levelLayers (level + 1)) key ∧
    ∀ n, ¬ Uncovered (EValue.isLive now) (EValue.isLive t)
      (mgr.layersFrom 0 level ++ (mgr.levelSstables level).dropLast.map SSTable.get) sst.get
      ((overlapping sst level mgr).map SSTable.get) (mgr.levelLayers (level + 1))
      (mgr.layersFrom (level + 2) (mgr.maxLevel - (level + 1)))
      ((without ((overlapping sst level mgr).take n) (mgr.levelSstables (level + 1))).map
        SSTable.get) key

variable {sst : SSTable} {newer : List SSTable}

/-- The levels before the first removal of the second strategy. -/
theorem levelsAfter_nil (created : Option SSTable) :
    levelsAfter created [] (level + 1) mgr =
      Function.update (Function.update mgr.levelSstables (level + 1)
        (created.toList ++ mgr.levelSstables (level + 1))) level (mgr.levelSstables level) := by
  funext i
  rw [levelsAfter, without_nil, Function.update_apply, Function.update_apply]
  by_cases hi : i = level
  · subst hi
    rw [if_pos rfl, if_neg (by omega)]
    rfl
  · rw [if_neg hi]
    split_ifs with hnext
    · rw [hnext]
    · rfl

/-- The levels after the removal of the oldest file and of `n` files of the next level. -/
theorem levelsAfter_mergedOldest (hst : Stored mgr)
    (hfiles : mgr.levelSstables level = newer ++ [sst]) (n : Nat) :
    levelsAfter (mergedOldest cfg now sst level mgr)
        (sst :: (overlapping sst level mgr).take n) (level + 1) mgr =
      Function.update (Function.update mgr.levelSstables (level + 1)
        ((mergedOldest cfg now sst level mgr).toList ++
          without ((overlapping sst level mgr).take n) (mgr.levelSstables (level + 1)))) level
        newer := by
  have hsst : sst ∈ mgr.levelSstables level := by
    rw [hfiles]
    exact List.mem_append_right _ (List.mem_singleton_self sst)
  have hgone : ∀ old ∈ (overlapping sst level mgr).take n, old ∈ mgr.levelSstables (level + 1) :=
    fun old hold => (List.mem_filter.1 (List.mem_of_mem_take hold)).1
  have hall : ∀ old ∈ sst :: (overlapping sst level mgr).take n,
      ∃ i, old ∈ mgr.levelSstables i := by
    intro old hold
    rcases List.mem_cons.1 hold with rfl | hold
    · exact ⟨level, hsst⟩
    · exact ⟨level + 1, hgone old hold⟩
  -- The oldest file lies in `level`, the others in the next level.
  have hfirst : ∀ i, i ≠ level → without [sst] (mgr.levelSstables i) = mgr.levelSstables i := by
    intro i hi
    refine without_eq_self fun s hs old hold => ?_
    obtain rfl := List.mem_singleton.1 hold
    exact number_ne hst hi.symm hsst hs
  have hothers : ∀ i, i ≠ level + 1 → ∀ l : List SSTable, (∀ s ∈ l, s ∈ mgr.levelSstables i) →
      without ((overlapping sst level mgr).take n) l = l := by
    intro i hi l hl
    exact without_eq_self fun s hs old hold => number_ne hst hi.symm (hgone old hold) (hl s hs)
  funext i
  rw [levelsAfter, without_append, Function.update_apply, Function.update_apply]
  by_cases hi : i = level
  · subst hi
    have hkeep : without [sst] (mgr.levelSstables i) = newer := by
      have hdistinct := hst.newest_first i
      rw [hfiles, NewestFirst, List.pairwise_append] at hdistinct
      have hnewer : without [sst] newer = newer := by
        refine without_eq_self fun s hs old hold => ?_
        obtain rfl := List.mem_singleton.1 hold
        exact Nat.ne_of_lt (hdistinct.2.2 s hs old (List.mem_singleton_self old))
      have hlast : without [sst] [sst] = [] := by simp [without]
      rw [hfiles, without_append, hnewer, hlast, List.append_nil]
    have hsub : ∀ s ∈ newer, s ∈ mgr.levelSstables i := by
      intro s hs
      rw [hfiles]
      exact List.mem_append_left _ hs
    rw [if_pos rfl, if_neg (by omega), without_cons sst _ (mgr.levelSstables i), hkeep,
      hothers i (by omega) newer hsub]
    rfl
  · rw [if_neg hi]
    split_ifs with hnext
    · subst hnext
      rw [mergedOldest, without_created hst hall, without_cons, hfirst _ hi]
    · rw [without_cons sst _ (mgr.levelSstables i), hfirst i hi, hothers i hnext _ fun s hs => hs]
      rfl

/-- Files without a version of the key can go. -/
theorem newest_without {gone l : List SSTable} {key : Bytes}
    (h : ∀ s ∈ l, s ∉ without gone l → s.get key = none) :
    newest ((without gone l).map SSTable.get) key = newest (l.map SSTable.get) key := by
  have hone : ∀ s, without gone [s] = [s] ∨ without gone [s] = [] := by
    intro s
    rw [without, List.filter_singleton]
    cases !gone.any fun old => old.sequenceNumber == s.sequenceNumber with
    | true => exact Or.inl rfl
    | false => exact Or.inr rfl
  induction l with
  | nil => rfl
  | cons s l ih =>
      have hsplit : without gone (s :: l) = without gone [s] ++ without gone l :=
        without_append gone [s] l
      have htail := ih fun s' hs' hgone => h s' (List.mem_cons_of_mem s hs') fun hmem =>
        hgone (mem_without.2 ⟨hs', (mem_without.1 hmem).2⟩)
      rw [hsplit, List.map_append, newest_append, htail, List.map_cons, newest_cons]
      rcases hone s with hkept | hdropped
      · rw [hkept, List.map_singleton, newest_cons, newest_nil, Option.or_none]
      · have hnone : s.get key = none := by
          refine h s (List.mem_cons_self ..) fun hmem => ?_
          have hin : s ∈ without gone [s] :=
            mem_without.2 ⟨List.mem_singleton_self s, (mem_without.1 hmem).2⟩
          rw [hdropped] at hin
          cases hin
        rw [hdropped, hnone]
        rfl

/-- **A merge of a level's oldest file survives every crash exactly when no key is
overtaken and none is uncovered.** -/
theorem everyCrash_mergeOldest (cfg : SSTableConfig) (now t : Nat) (hst : Stored mgr) (hrep : Represents files mgr.levelSstables)
    (hfiles : mgr.levelSstables level = newer ++ [sst]) :
    EveryCrash DiskOp.apply (LookupIs t (mgr.visibleAt t)) files
      (mergeOldestSteps cfg now sst level mgr) ↔ OldestCrashSafe now t sst mgr level := by
  have hcreated : ∀ s ∈ (mergedOldest cfg now sst level mgr).toList, s.level = level + 1 :=
    fun s hs => created_level hs
  have hlast : (mgr.levelSstables level).dropLast = newer := by rw [hfiles, List.dropLast_concat]
  have hlevel : mgr.levelLayers level = newer.map SSTable.get ++ [sst.get] := by
    rw [levelLayers, hfiles, List.map_append]
    rfl
  have hvisible : mgr.visibleAt t = visible (EValue.isLive t)
      ((mgr.layersFrom 0 level ++ newer.map SSTable.get) ++ (sst.get ::
        (mgr.levelLayers (level + 1) ++
          mgr.layersFrom (level + 2) (mgr.maxLevel - (level + 1))))) := by
    rw [visibleAt_eq hst.numbered t level, hlevel, layersFrom_next hst.numbered level]
    simp only [List.append_assoc, List.singleton_append]
  -- What a restart finds before the first removal, and after the oldest file is gone.
  have hstart : LookupIs t (mgr.visibleAt t)
      ((([] : List SSTable).map DiskOp.remove).foldl DiskOp.apply
        ((mergedOldest cfg now sst level mgr).toList ++ files)) ↔
      ∀ key, visible (EValue.isLive t) ((mgr.layersFrom 0 level ++ newer.map SSTable.get) ++
        (sst.get :: (fun k => (Std.ExtTreeMap.ofList (liveEntries now
          (mergedMap (sst :: overlapping sst level mgr))) compare)[k]?) ::
            (mgr.levelLayers (level + 1) ++
              mgr.layersFrom (level + 2) (mgr.maxLevel - (level + 1))))) key =
        mgr.visibleAt t key := by
    have hrep' := represents_after hrep (mergedOldest cfg now sst level mgr) hcreated []
    have hsorted := newestFirst_after cfg (level + 1) hst
      (liveEntries now (mergedMap (sst :: overlapping sst level mgr))) []
    rw [lookupIs_iff hrep' hsorted]
    refine forall_congr' fun key => ?_
    rw [visibleAt, get_loadAll hst hrep' (levelsAfter_nil _) hsorted, hfiles, List.map_append,
      List.map_singleton]
    simp only [visible, List.append_assoc, List.singleton_append]
    rfl
  have hrest : ∀ n, LookupIs t (mgr.visibleAt t)
      (((sst :: (overlapping sst level mgr).take n).map DiskOp.remove).foldl DiskOp.apply
        ((mergedOldest cfg now sst level mgr).toList ++ files)) ↔
      ∀ key, visible (EValue.isLive t) ((mgr.layersFrom 0 level ++ newer.map SSTable.get) ++
        (fun k => (Std.ExtTreeMap.ofList (liveEntries now
          (mergedMap (sst :: overlapping sst level mgr))) compare)[k]?) ::
            ((without ((overlapping sst level mgr).take n) (mgr.levelSstables (level + 1))).map
              SSTable.get ++ mgr.layersFrom (level + 2) (mgr.maxLevel - (level + 1)))) key =
        mgr.visibleAt t key := by
    intro n
    have hrep' := represents_after hrep (mergedOldest cfg now sst level mgr) hcreated
      (sst :: (overlapping sst level mgr).take n)
    have hsorted := newestFirst_after cfg (level + 1) hst
      (liveEntries now (mergedMap (sst :: overlapping sst level mgr)))
      (sst :: (overlapping sst level mgr).take n)
    rw [lookupIs_iff hrep' hsorted]
    refine forall_congr' fun key => ?_
    rw [visibleAt, get_loadAll hst hrep' (levelsAfter_mergedOldest hst hfiles n) hsorted]
    rfl
  have hgroup : ∀ s ∈ overlapping sst level mgr, s ∈ mgr.levelSstables (level + 1) :=
    fun s hs => (List.mem_filter.1 hs).1
  rw [mergeOldestSteps, everyCrash_stepsOf (lookupIs_stored hst hrep), ← Nat.and_forall_add_one]
  simp only [List.take_zero, List.take_succ_cons, hstart, hrest]
  rw [forall_comm, ← forall_and, OldestCrashSafe]
  refine forall_congr' fun key => ?_
  rw [hvisible, hlast]
  refine visible_pushed_iff (getElem?_liveEntries _ key) ?_ ?_
  · intro hnone n
    refine newest_without fun s hs hgone => ?_
    -- A file that went is one of the overlapping files, and none of them has the key.
    have hremoved : ∃ old ∈ (overlapping sst level mgr).take n,
        old.sequenceNumber = s.sequenceNumber := by
      by_contra hnot
      refine hgone (mem_without.2 ⟨hs, fun old hold heq => hnot ⟨old, hold, heq⟩⟩)
    obtain ⟨old, hold, hnumber⟩ := hremoved
    have hmem := List.mem_of_mem_take hold
    obtain rfl := NewestFirst.eq_of_number (hst.newest_first (level + 1)) (hgroup old hmem) hs
      hnumber
    exact (newest_eq_none_iff _ key).1 hnone _ (List.mem_map_of_mem hmem)
  · intro hnone
    rw [newest_eq_none_iff] at hnone ⊢
    intro layer hlayer
    obtain ⟨s, hs, rfl⟩ := List.mem_map.1 hlayer
    exact hnone _ (List.mem_map_of_mem (hgroup s hs))

end OldestMerge

section Calls

variable (cfg now t)

/-- The merge that `merge_sstables_by_strategy_0` makes survives every crash, and so do
those that follow it. -/
def Strategy0CrashSafe (safe : SSTableManager → Nat → Prop) (mgr : SSTableManager) (level : Nat) :
    Prop :=
  mgr.levelSstables level ≠ [] →
    LevelCrashSafe now t mgr level ∧ safe (mergeLevel cfg now level mgr) (level + 1)

/-- The merge that `merge_sstables_by_strategy_1` makes survives every crash, and so do
those that follow it. -/
def Strategy1CrashSafe (recur : SSTableManager → Nat → Option (Bool × SSTableManager))
    (safe : SSTableManager → Nat → Prop) (mgr : SSTableManager) (level : Nat) : Prop :=
  if level = mgr.maxLevel then Strategy0CrashSafe cfg now t safe mgr level
  else
    ∀ sst, (mgr.levelSstables level).getLast? = some sst →
      OldestCrashSafe now t sst mgr level ∧ safe (mergeOldest cfg now sst level mgr) level ∧
        ∀ r, recur (mergeOldest cfg now sst level mgr) level = some r → safe r.2 (level + 1)

/-- Each single merge that `merge_sstables` performs survives every crash, in the state in
which it is performed. -/
def MergesCrashSafe : Nat → SSTableManager → Nat → Prop
  | 0, _, _ => True
  | fuel + 1, mgr, level =>
      level ≤ mgr.maxLevel → shouldMerge cfg mgr level = true →
        match cfg.mergeStrategy with
        | .sizeTieredCompaction => Strategy0CrashSafe cfg now t (MergesCrashSafe fuel) mgr level
        | .levelCompaction =>
            Strategy1CrashSafe cfg now t (mergeSstables cfg now fuel) (MergesCrashSafe fuel) mgr level

variable {cfg now t}

/-- What is shown of the steps of a call: a restart finds the old lookups after every crash
exactly when the call is safe, and the directory at the end is that of the manager. -/
def StepsOutcome (t : Nat) (mgr : SSTableManager) (files : List SSTable)
    (steps : List DiskOp × Option SSTableManager) (safe : Prop) : Prop :=
  (EveryCrash DiskOp.apply (LookupIs t (mgr.visibleAt t)) files steps.1 ↔ safe) ∧
    ∀ mgr', steps.2 = some mgr' →
      Stored mgr' ∧ Represents (steps.1.foldl DiskOp.apply files) mgr'.levelSstables

/-- A call that does nothing. -/
theorem stepsOutcome_nil (hst : Stored mgr) (hrep : Represents files mgr.levelSstables) {safe : Prop}
    (hsafe : safe) : StepsOutcome t mgr files ([], some mgr) safe := by
  refine ⟨?_, fun mgr' h => ?_⟩
  · rw [everyCrash_nil]
    exact ⟨fun _ => hsafe, fun _ => lookupIs_stored hst hrep⟩
  · obtain rfl := Option.some.inj h
    exact ⟨hst, hrep⟩

theorem foldl_stepsOf (created : Option SSTable) (merged files : List SSTable) :
    (stepsOf created merged).foldl DiskOp.apply files =
      (merged.map DiskOp.remove).foldl DiskOp.apply (created.toList ++ files) := by
  rw [stepsOf, List.foldl_append]
  cases created with
  | none => rfl
  | some sst => rfl

/-- The directory after all steps of a merge is that of the merged manager. -/
theorem represents_mergeLevel (cfg : SSTableConfig) (now level : Nat) (hst : Stored mgr)
    (hrep : Represents files mgr.levelSstables) :
    Represents ((mergeLevelSteps cfg now level mgr).foldl DiskOp.apply files)
      (mergeLevel cfg now level mgr).levelSstables := by
  have hafter := represents_after hrep (mergedLevel cfg now level mgr)
    (fun sst hsst => created_level hsst) ((mgr.levelSstables level).take
      (mgr.levelSstables level).length)
  rw [levelsAfter_mergedLevel hst, List.take_length, List.drop_length] at hafter
  rw [mergeLevelSteps, foldl_stepsOf, levelSstables_mergeLevel]
  exact hafter

theorem represents_mergeOldest (cfg : SSTableConfig) (now : Nat) (hst : Stored mgr)
    (hrep : Represents files mgr.levelSstables) {newer : List SSTable} {sst : SSTable} (hfiles : mgr.levelSstables level = newer ++ [sst]) :
    Represents ((mergeOldestSteps cfg now sst level mgr).foldl DiskOp.apply files)
      (mergeOldest cfg now sst level mgr).levelSstables := by
  have hafter := represents_after hrep (mergedOldest cfg now sst level mgr)
    (fun s hs => created_level hs) (sst :: (overlapping sst level mgr).take
      (overlapping sst level mgr).length)
  rw [levelsAfter_mergedOldest hst hfiles, List.take_length] at hafter
  rw [mergeOldestSteps, foldl_stepsOf, levelSstables_mergeOldest hst.numbered hfiles,
    ← filter_not_any_filter _ (hst.numbered.number_distinct (level + 1))]
  exact hafter

/-- A call that goes on after some steps. If no crash during these steps is seen, the
manager after them has the old lookups. -/
theorem stepsOutcome_then {mgr' : SSTableManager} {first : List DiskOp}
    {rest : List DiskOp × Option SSTableManager} {safe safe' : Prop}
    (hfirst : EveryCrash DiskOp.apply (LookupIs t (mgr.visibleAt t)) files first ↔ safe)
    (hst' : Stored mgr') (hrep' : Represents (first.foldl DiskOp.apply files) mgr'.levelSstables)
    (hrest : StepsOutcome t mgr' (first.foldl DiskOp.apply files) rest safe') :
    StepsOutcome t mgr files (first ++ rest.1, rest.2) (safe ∧ safe') := by
  refine ⟨?_, fun mgr'' h => ?_⟩
  · rw [everyCrash_append]
    constructor
    · rintro ⟨h, h'⟩
      have hsame : mgr'.visibleAt t = mgr.visibleAt t := by
        funext key
        rw [← lookupIs_stored hst' hrep' _ (List.Perm.refl _) key]
        exact h.final _ (List.Perm.refl _) key
      rw [← hsame] at h'
      exact ⟨hfirst.1 h, hrest.1.1 h'⟩
    · rintro ⟨h, h'⟩
      have hcrash := hfirst.2 h
      have hsame : mgr'.visibleAt t = mgr.visibleAt t := by
        funext key
        rw [← lookupIs_stored hst' hrep' _ (List.Perm.refl _) key]
        exact hcrash.final _ (List.Perm.refl _) key
      rw [← hsame] at hcrash ⊢
      exact ⟨hcrash, hrest.1.2 h'⟩
  · rw [List.foldl_append]
    exact hrest.2 mgr'' h

/-- The outcome of a call only depends on what its safety says. -/
theorem StepsOutcome.congr {steps : List DiskOp × Option SSTableManager} {safe safe' : Prop}
    (h : StepsOutcome t mgr files steps safe) (hiff : safe ↔ safe') :
    StepsOutcome t mgr files steps safe' :=
  ⟨h.1.trans hiff, h.2⟩

variable {steps : SSTableManager → Nat → List DiskOp × Option SSTableManager}
  {recur : SSTableManager → Nat → Option (Bool × SSTableManager)}
  {safe : SSTableManager → Nat → Prop}

theorem outcome_strategy0Steps (hst : Stored mgr) (hrep : Represents files mgr.levelSstables)
    (hrecur : ∀ m l files, Stored m → Represents files m.levelSstables →
      StepsOutcome t m files (steps m l) (safe m l)) (level : Nat) :
    StepsOutcome t mgr files (strategy0Steps cfg now steps mgr level)
      (Strategy0CrashSafe cfg now t safe mgr level) := by
  rw [strategy0Steps]
  by_cases hempty : mgr.levelSstables level = []
  · rw [hempty, List.isEmpty_nil, if_pos rfl]
    exact stepsOutcome_nil hst hrep fun h => absurd hempty h
  · rw [if_neg (by simpa using hempty)]
    have hmerged := represents_mergeLevel cfg now level hst hrep
    have hrest := hrecur (mergeLevel cfg now level mgr) (level + 1) _ (stored_mergeLevel hst) hmerged
    refine (stepsOutcome_then (everyCrash_mergeLevel hst hrep) (stored_mergeLevel hst) hmerged
      hrest).congr ?_
    exact ⟨fun h _ => h, fun h => h hempty⟩

theorem outcome_strategy1Steps (hst : Stored mgr) (hrep : Represents files mgr.levelSstables)
    (hrecur : ∀ m l files, Stored m → Represents files m.levelSstables →
      StepsOutcome t m files (steps m l) (safe m l))
    (hsnd : ∀ m l, (steps m l).2 = (recur m l).map Prod.snd) (level : Nat) :
    StepsOutcome t mgr files (strategy1Steps cfg now steps mgr level)
      (Strategy1CrashSafe cfg now t recur safe mgr level) := by
  rw [strategy1Steps, Strategy1CrashSafe]
  split_ifs with htop
  · exact outcome_strategy0Steps hst hrep hrecur level
  · cases hlast : (mgr.levelSstables level).getLast? with
    | none => exact stepsOutcome_nil hst hrep fun sst h => by cases h
    | some sst =>
        obtain ⟨newer, hfiles⟩ := List.getLast?_eq_some_iff.1 hlast
        have hst' := stored_mergeOldest cfg now hst hfiles
        have hmerged := represents_mergeOldest cfg now hst hrep hfiles
        have hcrash := everyCrash_mergeOldest cfg now t hst hrep hfiles
        have hcall := hrecur _ level _ hst' hmerged
        -- behind the merge of the oldest file come the level again and, if that returns, the next
        cases hend : (steps (mergeOldest cfg now sst level mgr) level).2 with
        | none =>
            have hnone : recur (mergeOldest cfg now sst level mgr) level = none := by
              rw [hsnd, Option.map_eq_none_iff] at hend
              exact hend
            simp only [hend]
            rw [← hend]
            refine (stepsOutcome_then hcrash hst' hmerged hcall).congr ⟨?_, fun h => ?_⟩
            · rintro ⟨h₀, h₁⟩ sst' heq
              obtain rfl := Option.some.inj heq
              refine ⟨h₀, h₁, fun r hr => ?_⟩
              rw [hnone] at hr
              cases hr
            · obtain ⟨h₀, h₁, -⟩ := h sst rfl
              exact ⟨h₀, h₁⟩
        | some mgr' =>
            obtain ⟨hstMid, hrepMid⟩ := hcall.2 mgr' hend
            have hcall' := hrecur mgr' (level + 1) _ hstMid hrepMid
            obtain ⟨r, hr, rfl⟩ : ∃ r, recur (mergeOldest cfg now sst level mgr) level = some r ∧
                r.2 = mgr' := by
              rw [hsnd, Option.map_eq_some_iff] at hend
              exact hend
            simp only [hend]
            have hboth := stepsOutcome_then hcall.1 hstMid hrepMid hcall'
            refine (stepsOutcome_then hcrash hst' hmerged hboth).congr ⟨?_, fun h => ?_⟩
            · rintro ⟨h₀, h₁, h₂⟩ sst' heq
              obtain rfl := Option.some.inj heq
              refine ⟨h₀, h₁, fun r' hr' => ?_⟩
              obtain rfl := Option.some.inj (hr.symm.trans hr')
              exact h₂
            · obtain ⟨h₀, h₁, h₂⟩ := h sst rfl
              exact ⟨h₀, h₁, h₂ r hr⟩

theorem outcome_mergeSteps (fuel : Nat) : ∀ (mgr : SSTableManager) (level : Nat)
    (files : List SSTable), Stored mgr → Represents files mgr.levelSstables →
      StepsOutcome t mgr files (mergeSteps cfg now fuel mgr level)
        (MergesCrashSafe cfg now t fuel mgr level) := by
  induction fuel with
  | zero =>
      intro mgr level files hst hrep
      refine ⟨?_, fun mgr' h => by cases h⟩
      rw [mergeSteps, everyCrash_nil]
      exact ⟨fun _ => trivial, fun _ => lookupIs_stored hst hrep⟩
  | succ fuel ih =>
      intro mgr level files hst hrep
      rw [mergeSteps, MergesCrashSafe]
      by_cases hlevel : mgr.maxLevel < level
      · rw [if_pos hlevel]
        exact stepsOutcome_nil hst hrep fun h => absurd h (Nat.not_le_of_lt hlevel)
      rw [if_neg hlevel, forall_prop_of_true (Nat.le_of_not_lt hlevel)]
      by_cases hshould : shouldMerge cfg mgr level = true
      · rw [if_pos hshould, forall_prop_of_true hshould]
        cases cfg.mergeStrategy with
        | sizeTieredCompaction => exact outcome_strategy0Steps hst hrep ih level
        | levelCompaction =>
            exact outcome_strategy1Steps hst hrep ih (mergeSteps_snd cfg now fuel) level
      · rw [if_neg hshould]
        exact stepsOutcome_nil hst hrep fun h => absurd h hshould

/-- **Crash atomicity of compaction, exactly.** For a call of either merge function in a
stored manager, with all the merges it triggers within the fuel: a restart after any crash
finds at the second `t` what was found before the call if and only if each single merge,
in the state in which it is performed, tears, overtakes and uncovers no key. -/
theorem merge_crash_iff (cfg : SSTableConfig) (now t fuel : Nat) (mgr : SSTableManager)
    (level : Nat) (hst : Stored mgr) :
    (EveryCrash DiskOp.apply (LookupIs t (mgr.visibleAt t)) mgr.files
        (strategy0Steps cfg now (mergeSteps cfg now fuel) mgr level).1 ↔
      Strategy0CrashSafe cfg now t (MergesCrashSafe cfg now t fuel) mgr level) ∧
    (EveryCrash DiskOp.apply (LookupIs t (mgr.visibleAt t)) mgr.files
        (strategy1Steps cfg now (mergeSteps cfg now fuel) mgr level).1 ↔
      Strategy1CrashSafe cfg now t (mergeSstables cfg now fuel)
        (MergesCrashSafe cfg now t fuel) mgr level) := by
  have hrep := represents_files hst
  exact ⟨(outcome_strategy0Steps hst hrep (outcome_mergeSteps fuel) level).1,
    (outcome_strategy1Steps hst hrep (outcome_mergeSteps fuel) (mergeSteps_snd cfg now fuel)
      level).1⟩

/-- Two files of level 0 with a value of the key 1 each. -/
def rewrittenManager : SSTableManager :=
  (createFromEntries pairConfig [([1], { value := .string [8] })] 0
    (createFromEntries pairConfig [([1], { value := .string [7] })] 0 empty).2).2

theorem stored_rewrittenManager : Stored rewrittenManager :=
  stored_createFromEntries (stored_createFromEntries stored_empty _) _

/-- After the write of the merged file and the removal of the newer file, the older one
lies above the merged one. -/
theorem visible_rewrittenManager :
    rewrittenManager.visibleAt 0 [1] = some { value := .string [8] } ∧
      (loadAll (((strategy0Steps pairConfig 0 (mergeSteps pairConfig 0 1) rewrittenManager 0).1.take
        2).foldl DiskOp.apply rewrittenManager.files)).visibleAt 0 [1] =
          some { value := .string [7] } := by
  decide

/-- The overwritten value is back after a crash in the middle of a merge. -/
theorem mergeSteps_stale :
    ¬ ∀ (cfg : SSTableConfig) (now t fuel : Nat) (mgr : SSTableManager) (level : Nat), Stored mgr →
      EveryCrash DiskOp.apply (LookupIs t (mgr.visibleAt t)) mgr.files
        (strategy0Steps cfg now (mergeSteps cfg now fuel) mgr level).1 ∧
      EveryCrash DiskOp.apply (LookupIs t (mgr.visibleAt t)) mgr.files
        (strategy1Steps cfg now (mergeSteps cfg now fuel) mgr level).1 := by
  intro hall
  obtain ⟨hbefore, hafter⟩ := visible_rewrittenManager
  have hcrash := (hall pairConfig 0 0 1 rewrittenManager 0 stored_rewrittenManager).1 2 _
    (List.Perm.refl _) [1]
  rw [hbefore, hafter] at hcrash
  cases hcrash

theorem merge_crash_iff_rewritten :
    ¬ Strategy0CrashSafe pairConfig 0 0 (MergesCrashSafe pairConfig 0 0 1) rewrittenManager 0 := by
  obtain ⟨hbefore, hafter⟩ := visible_rewrittenManager
  intro hsafe
  have hcrash := (merge_crash_iff pairConfig 0 0 1 rewrittenManager 0
    stored_rewrittenManager).1.2 hsafe 2 _ (List.Perm.refl _) [1]
  rw [hbefore, hafter] at hcrash
  cases hcrash

end Calls

end SSTableManager

end EyaKV.Store
