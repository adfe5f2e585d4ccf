import EyaKV.Base.Descent
import EyaKV.Store.Bookkeeping
import Mathlib.Algebra.Order.BigOperators.Group.Finset

/-!
# The end of a compaction

A merge triggers merges. A call of `merge_sstables` returns when no endless chain of merges starts
from its manager (`reaches_of_acc`). With a threshold of two the first strategy lowers the number
of tables with each merge. The second strategy moves a table one level down with each merge, and
only a size that reaches the limit of the highest level makes a new level. The limits grow
geometrically, and the tables of a compaction have one of finitely many sizes, so there is a level
that none passes.

The config check also accepts the threshold one. The first strategy then merges the table that a
merge has just written, alone, into the next level, and so on without an end
(`returns_iff`).
-/

set_option autoImplicit false

namespace EyaKV.Store.SSTableManager

open EyaKV.Base EyaKV.Base.Layers EyaKV.Base.Descent Relation

section Calls

variable {cfg : SSTableConfig} {now level : Nat} {mgr : SSTableManager}

/-- What `check_config` accepts of the merges' settings. The limit of a level is compared in
`double`; the factor two allows for its rounding. -/
structure Accepted (cfg : SSTableConfig) (zeroLevelSize ratio : Nat) : Prop where
  one_le_threshold : 1 ≤ cfg.sstableMergeThreshold
  one_le_zero : 1 ≤ zeroLevelSize
  two_le_ratio : 2 ≤ ratio
  limit : ∀ size level, cfg.sizeReached size level = true →
    zeroLevelSize * 1024 * 1024 * ratio ^ level ≤ 2 * size

/-- The call of `merge_sstables` comes to an end. -/
def Returns (cfg : SSTableConfig) (now : Nat) (mgr : SSTableManager) (level : Nat) : Prop :=
  ∃ fuel, (mergeSstables cfg now fuel mgr level).isSome = true

/-- The call of `merge_sstables_by_strategy_0` comes to an end. -/
def Strategy0Returns (cfg : SSTableConfig) (now : Nat) (mgr : SSTableManager) (level : Nat) :
    Prop :=
  ∃ fuel, (mergeSstablesByStrategy0 cfg now (mergeSstables cfg now fuel) mgr level).isSome = true

section Fuel

variable {recur recur' : SSTableManager → Nat → Option (Bool × SSTableManager)}
  {r : Bool × SSTableManager}

theorem strategy0_extend (hrecur : ∀ m l r, recur m l = some r → recur' m l = some r)
    (h : mergeSstablesByStrategy0 cfg now recur mgr level = some r) :
    mergeSstablesByStrategy0 cfg now recur' mgr level = some r := by
  rw [mergeSstablesByStrategy0] at h ⊢
  split_ifs at h ⊢ with hempty
  · exact h
  · obtain ⟨r', hr', hret⟩ := Option.bind_eq_some_iff.1 h
    exact Option.bind_eq_some_iff.2 ⟨r', hrecur _ _ _ hr', hret⟩

theorem strategy1_extend (hrecur : ∀ m l r, recur m l = some r → recur' m l = some r)
    (h : mergeSstablesByStrategy1 cfg now recur mgr level = some r) :
    mergeSstablesByStrategy1 cfg now recur' mgr level = some r := by
  rw [mergeSstablesByStrategy1] at h ⊢
  split_ifs at h ⊢ with htop
  · exact strategy0_extend hrecur h
  · cases hlast : (mgr.levelSstables level).getLast? with
    | none =>
        rw [hlast] at h
        exact h
    | some sst =>
        rw [hlast] at h
        obtain ⟨r₁, hr₁, h⟩ := Option.bind_eq_some_iff.1 h
        obtain ⟨r₂, hr₂, hret⟩ := Option.bind_eq_some_iff.1 h
        exact Option.bind_eq_some_iff.2 ⟨r₁, hrecur _ _ _ hr₁,
          Option.bind_eq_some_iff.2 ⟨r₂, hrecur _ _ _ hr₂, hret⟩⟩

theorem mergeSstables_extend {fuel fuel' : Nat} (hle : fuel ≤ fuel') :
    ∀ (mgr : SSTableManager) (level : Nat) (r : Bool × SSTableManager),
      mergeSstables cfg now fuel mgr level = some r →
        mergeSstables cfg now fuel' mgr level = some r := by
  induction fuel generalizing fuel' with
  | zero =>
      intro mgr level r h
      cases h
  | succ fuel ih =>
      intro mgr level r h
      obtain ⟨fuel', rfl⟩ := Nat.exists_eq_succ_of_ne_zero (Nat.ne_of_gt (Nat.lt_of_lt_of_le
        (Nat.succ_pos fuel) hle))
      have hrecur := ih (Nat.le_of_succ_le_succ hle)
      rw [mergeSstables] at h ⊢
      split_ifs at h ⊢ with hmax hshould
      · exact h
      · cases hstrategy : cfg.mergeStrategy with
        | sizeTieredCompaction =>
            rw [hstrategy] at h
            exact strategy0_extend hrecur h
        | levelCompaction =>
            rw [hstrategy] at h
            exact strategy1_extend hrecur h
      · exact h

end Fuel

/-- One merge that a call of `merge_sstables` makes. -/
inductive Merge (cfg : SSTableConfig) (now : Nat) (mgr : SSTableManager) : SSTableManager → Prop
  | level {level : Nat} (hlevel : level ≤ mgr.maxLevel) (hshould : shouldMerge cfg mgr level = true)
      (hfiles : mgr.levelSstables level ≠ [])
      (htop : cfg.mergeStrategy = .levelCompaction → level = mgr.maxLevel) :
      Merge cfg now mgr (mergeLevel cfg now level mgr)
  | oldest {level : Nat} {newer : List SSTable} {sst : SSTable} (hlevel : level < mgr.maxLevel)
      (hstrategy : cfg.mergeStrategy = .levelCompaction)
      (hfiles : mgr.levelSstables level = newer ++ [sst]) :
      Merge cfg now mgr (mergeOldest cfg now sst level mgr)

/-- A call that returns a manager that merges reach. -/
def Reaches (cfg : SSTableConfig) (now : Nat) (mgr : SSTableManager) (level : Nat) : Prop :=
  ∃ fuel r, mergeSstables cfg now fuel mgr level = some r ∧
    ReflTransGen (Merge cfg now) mgr r.2

theorem strategy0_reaches (hlevel : level ≤ mgr.maxLevel) (hshould : shouldMerge cfg mgr level = true)
    (htop : cfg.mergeStrategy = .levelCompaction → level = mgr.maxLevel)
    (hrest : mgr.levelSstables level ≠ [] →
      Reaches cfg now (mergeLevel cfg now level mgr) (level + 1)) :
    ∃ fuel r, mergeSstablesByStrategy0 cfg now (mergeSstables cfg now fuel) mgr level = some r ∧
      ReflTransGen (Merge cfg now) mgr r.2 := by
  by_cases hfiles : mgr.levelSstables level = []
  · refine ⟨0, (true, mgr), ?_, ReflTransGen.refl⟩
    rw [mergeSstablesByStrategy0, hfiles, List.isEmpty_nil, if_pos rfl]
  · obtain ⟨fuel, r, hrun, hreach⟩ := hrest hfiles
    refine ⟨fuel, (true, r.2), ?_, ReflTransGen.head (Merge.level hlevel hshould hfiles htop) hreach⟩
    rw [mergeSstablesByStrategy0, if_neg (by simpa using hfiles), hrun]
    rfl

theorem strategy1_reaches
    (ih : ∀ m, TransGen (Merge cfg now) mgr m → ∀ l, Reaches cfg now m l)
    (hstrategy : cfg.mergeStrategy = .levelCompaction) (hlevel : level ≤ mgr.maxLevel)
    (hshould : shouldMerge cfg mgr level = true) :
    ∃ fuel r, mergeSstablesByStrategy1 cfg now (mergeSstables cfg now fuel) mgr level = some r ∧
      ReflTransGen (Merge cfg now) mgr r.2 := by
  unfold mergeSstablesByStrategy1
  by_cases htop : level = mgr.maxLevel
  · simp only [if_pos htop]
    exact strategy0_reaches hlevel hshould (fun _ => htop) fun hfiles =>
      ih _ (TransGen.single (Merge.level hlevel hshould hfiles fun _ => htop)) _
  simp only [if_neg htop]
  cases hlast : (mgr.levelSstables level).getLast? with
  | none => exact ⟨0, (true, mgr), rfl, ReflTransGen.refl⟩
  | some sst =>
      obtain ⟨newer, hfiles⟩ := List.getLast?_eq_some_iff.1 hlast
      have hmerge : Merge cfg now mgr (mergeOldest cfg now sst level mgr) :=
        Merge.oldest (lt_of_le_of_ne hlevel htop) hstrategy hfiles
      obtain ⟨fuel₁, r₁, hrun₁, hreach₁⟩ := ih _ (TransGen.single hmerge) level
      -- the second call starts from the manager that the first one leaves
      have hfirst : TransGen (Merge cfg now) mgr r₁.2 := TransGen.head' hmerge hreach₁
      obtain ⟨fuel₂, r₂, hrun₂, hreach₂⟩ := ih _ hfirst (level + 1)
      refine ⟨max fuel₁ fuel₂, (true, r₂.2), ?_, hfirst.to_reflTransGen.trans hreach₂⟩
      have hext₁ := mergeSstables_extend (le_max_left fuel₁ fuel₂) _ _ _ hrun₁
      have hext₂ := mergeSstables_extend (le_max_right fuel₁ fuel₂) _ _ _ hrun₂
      simp only [hext₁, hext₂, Option.bind_eq_bind, Option.bind_some, Option.pure_def]

/-- A call returns when no endless chain of merges starts from its manager. -/
theorem reaches_of_acc (hacc : Acc (fun m' m => TransGen (Merge cfg now) m m') mgr) :
    ∀ level, Reaches cfg now mgr level := by
  induction hacc with
  | intro mgr _ ih =>
    intro level
    by_cases hmax : mgr.maxLevel < level
    · refine ⟨1, (false, mgr), ?_, ReflTransGen.refl⟩
      rw [mergeSstables, if_pos hmax]
    · by_cases hshould : shouldMerge cfg mgr level = true
      · have hlevel := Nat.le_of_not_lt hmax
        cases hstrategy : cfg.mergeStrategy with
        | sizeTieredCompaction =>
            have hno : cfg.mergeStrategy = .levelCompaction → level = mgr.maxLevel := by
              intro h
              rw [hstrategy] at h
              cases h
            obtain ⟨fuel, r, hrun, hreach⟩ := strategy0_reaches hlevel hshould hno fun hfiles =>
              ih _ (TransGen.single (Merge.level hlevel hshould hfiles hno)) (level + 1)
            refine ⟨fuel + 1, r, ?_, hreach⟩
            rw [mergeSstables, if_neg hmax, if_pos hshould, hstrategy]
            exact hrun
        | levelCompaction =>
            obtain ⟨fuel, r, hrun, hreach⟩ := strategy1_reaches ih hstrategy hlevel hshould
            refine ⟨fuel + 1, r, ?_, hreach⟩
            rw [mergeSstables, if_neg hmax, if_pos hshould, hstrategy]
            exact hrun
      · refine ⟨1, (true, mgr), ?_, ReflTransGen.refl⟩
        rw [mergeSstables, if_neg hmax, if_neg hshould]

end Calls

section Weights

variable {cfg : SSTableConfig} {now : Nat} {mgr : SSTableManager} {level : Nat}

/-- The number of tables below level `n`, each counted with the weight of its level. -/
def weight (w : Nat → Nat) (n : Nat) (mgr : SSTableManager) : Nat :=
  ∑ i ∈ Finset.range n, w i * (mgr.levelSstables i).length

theorem length_le_weight {n i : Nat} (hi : i < n) (mgr : SSTableManager) :
    (mgr.levelSstables i).length ≤ weight (fun _ => 1) n mgr := by
  simp only [weight, Nat.one_mul]
  exact Finset.single_le_sum (f := fun i => (mgr.levelSstables i).length)
    (fun _ _ => Nat.zero_le _) (Finset.mem_range.2 hi)

/-- The levels above the highest one hold no table. -/
theorem weight_eq_tableCount (habove : ∀ i, mgr.maxLevel < i → mgr.levelSstables i = [])
    {top : Nat} (htop : mgr.maxLevel ≤ top) :
    weight (fun _ => 1) (top + 1) mgr = mgr.tableCount := by
  simp only [weight, Nat.one_mul]
  refine (Finset.sum_subset (Finset.range_mono (Nat.succ_le_succ htop)) fun i _ hi => ?_).symm
  rw [Finset.mem_range, Nat.lt_succ_iff] at hi
  rw [habove i (Nat.lt_of_not_le hi), List.length_nil]

/-- A merge takes tables out of two neighbouring levels. -/
theorem weight_replace {w : Nat → Nat} {n : Nat} {mgr' : SSTableManager}
    {kept next : List SSTable} (hlevels : mgr'.levelSstables =
      Function.update (Function.update mgr.levelSstables (level + 1) next) level kept)
    (hn : level + 1 < n) :
    weight w n mgr' + (w level * (mgr.levelSstables level).length +
        w (level + 1) * (mgr.levelSstables (level + 1)).length) =
      weight w n mgr + (w level * kept.length + w (level + 1) * next.length) := by
  have hne : level + 1 ≠ level := Nat.succ_ne_self level
  have hkept : mgr'.levelSstables level = kept := by rw [hlevels, Function.update_self]
  have hnext : mgr'.levelSstables (level + 1) = next := by
    rw [hlevels, Function.update_of_ne hne, Function.update_self]
  have hagree : ∀ j, j ≠ level → j ≠ level + 1 →
      w j * (mgr'.levelSstables j).length = w j * (mgr.levelSstables j).length := by
    intro j h₁ h₂
    rw [hlevels, Function.update_of_ne h₁, Function.update_of_ne h₂]
  have hsum := sum_range_of_agree hn hagree
  rw [hkept, hnext] at hsum
  exact hsum

theorem length_created (cfg : SSTableConfig) (mgr : SSTableManager)
    (entries : List (Bytes × EValue)) (level : Nat) :
    (createFromEntries cfg entries level mgr).1.toList.length ≤ 1 := by
  cases (createFromEntries cfg entries level mgr).1 with
  | none => exact Nat.zero_le 1
  | some sst => exact Nat.le_refl 1

theorem weight_mergeLevel {w : Nat → Nat} {n : Nat} (hn : level + 1 < n) :
    weight w n (mergeLevel cfg now level mgr) + w level * (mgr.levelSstables level).length ≤
      weight w n mgr + w (level + 1) := by
  have hlevels : (mergeLevel cfg now level mgr).levelSstables = _ := levelSstables_mergeLevel
  have hsum := weight_replace (w := w) hlevels hn
  have hone := Nat.mul_le_mul_left (w (level + 1)) (length_created cfg mgr
    (liveEntries now (mergedMap (mgr.levelSstables level))) (level + 1))
  rw [List.length_append, List.length_nil, Nat.mul_add] at hsum
  omega

theorem weight_mergeOldest {w : Nat → Nat} {n : Nat} (hn : level + 1 < n) (hnum : Numbered mgr)
    {newer : List SSTable} {sst : SSTable} (hfiles : mgr.levelSstables level = newer ++ [sst]) :
    weight w n (mergeOldest cfg now sst level mgr) + w level ≤ weight w n mgr + w (level + 1) := by
  have hlevels : (mergeOldest cfg now sst level mgr).levelSstables = _ :=
    levelSstables_mergeOldest hnum hfiles
  have hsum := weight_replace (w := w) hlevels hn
  have hone := Nat.mul_le_mul_left (w (level + 1)) (length_created cfg mgr
    (liveEntries now (mergedMap (sst :: overlapping sst level mgr))) (level + 1))
  have hrest := Nat.mul_le_mul_left (w (level + 1))
    (List.length_filter_le (fun next => !sst.overlaps next) (mgr.levelSstables (level + 1)))
  have hlength : (mgr.levelSstables level).length = newer.length + 1 := by simp [hfiles]
  rw [List.length_append, Nat.mul_add, hlength, Nat.mul_succ] at hsum
  omega

theorem maxLevel_mergeLevel_le :
    (mergeLevel cfg now level mgr).maxLevel ≤ max mgr.maxLevel (level + 1) :=
  (maxLevel_createFromEntries cfg mgr (level + 1) _).2

theorem maxLevel_mergeOldest_le {sst : SSTable} :
    (mergeOldest cfg now sst level mgr).maxLevel ≤ max mgr.maxLevel (level + 1) :=
  (maxLevel_createFromEntries cfg mgr (level + 1) _).2

/-- The room that the first strategy has: it makes at most one level for each table. -/
def Bounded (top : Nat) (mgr : SSTableManager) : Prop :=
  mgr.maxLevel + weight (fun _ => 1) (top + 1) mgr ≤ top

/-- With a threshold of two every merge of the first strategy leaves fewer tables. -/
theorem weight_lt_of_threshold (hstrategy : cfg.mergeStrategy = .sizeTieredCompaction)
    (hthreshold : 2 ≤ cfg.sstableMergeThreshold) {top : Nat} {mgr mgr' : SSTableManager}
    (h : Bounded top mgr) (hmerge : Merge cfg now mgr mgr') :
    Bounded top mgr' ∧ weight (fun _ => 1) (top + 1) mgr' < weight (fun _ => 1) (top + 1) mgr := by
  unfold Bounded at h ⊢
  cases hmerge with
  | oldest _ hother => exact absurd (hstrategy.symm.trans hother) (by decide)
  | @level level hlevel hshould _ _ =>
      simp only [shouldMerge, hstrategy, decide_eq_true_eq] at hshould
      have hlength := length_le_weight (n := top + 1) (i := level) (by omega) mgr
      have hweight : weight (fun _ => 1) (top + 1) (mergeLevel cfg now level mgr) +
          1 * (mgr.levelSstables level).length ≤ weight (fun _ => 1) (top + 1) mgr + 1 :=
        weight_mergeLevel (by omega)
      have hmax : (mergeLevel cfg now level mgr).maxLevel ≤ _ := maxLevel_mergeLevel_le
      omega

end Weights

section Confinement

variable {cfg : SSTableConfig} {now level : Nat} {mgr mgr' : SSTableManager}
  {pool : List (Bytes × EValue)} {size count top : Nat}

/-- What the merges of the second strategy maintain: no level above `top`, at most `count` tables
with at most `size` bytes each, and their entries are among those of `pool`. -/
structure Confined (pool : List (Bytes × EValue)) (size count top : Nat) (mgr : SSTableManager) :
    Prop where
  booked : Booked mgr
  maxLevel_le : mgr.maxLevel ≤ top
  weight_le : weight (fun _ => 1) (top + 1) mgr ≤ count
  size_le : ∀ i, ∀ sst ∈ mgr.levelSstables i, sst.fileSize ≤ size
  entries_mem : ∀ i, ∀ sst ∈ mgr.levelSstables i, ∀ e ∈ sst.entries.toList, e ∈ pool

/-- What a merge writes was in one of the merged tables. -/
theorem mem_of_liveEntries {files : List SSTable} {e : Bytes × EValue}
    (h : e ∈ liveEntries now (mergedMap files)) : ∃ file ∈ files, e ∈ file.entries.toList := by
  have hmap := Std.ExtTreeMap.mem_toList_iff_getElem?_eq_some.1 (List.mem_filter.1 h).1
  rw [getElem?_mergedMap] at hmap
  obtain ⟨layer, hlayer, hkey⟩ := exists_layer_of_newest hmap
  obtain ⟨file, hfile, rfl⟩ := List.mem_map.1 hlayer
  exact ⟨file, hfile, Std.ExtTreeMap.mem_toList_iff_getElem?_eq_some.2 hkey⟩

theorem nodup_liveEntries (map : StrMap EValue) : (liveEntries now map).Nodup :=
  (OrderedMap.nodup_of_ordered map.ordered_keys_toList).filter _

theorem fileSize_created {entries : List (Bytes × EValue)} {sst : SSTable}
    (h : sst ∈ (createFromEntries cfg entries level mgr).1.toList) :
    sst.fileSize = cfg.fileSize entries := by
  unfold createFromEntries at h
  split at h
  · simp at h
  · rw [Option.toList_some, List.mem_singleton] at h
    rw [h]

theorem mem_of_created {map : StrMap EValue} {sst : SSTable}
    (h : sst ∈ (createFromEntries cfg (liveEntries now map) level mgr).1.toList)
    {e : Bytes × EValue} (he : e ∈ sst.entries.toList) : e ∈ liveEntries now map := by
  have hget : sst.get e.1 = some e.2 := Std.ExtTreeMap.mem_toList_iff_getElem?_eq_some.1 he
  rw [(created_spec h).1] at hget
  exact (OrderedMap.getElem?_ofList_iff (map.distinct_keys_toList.filter _) _ _).1 hget

/-- Both merges put a created file in front of a part of the next level and keep a part of their
own level. -/
theorem Confined.of_merge (h : Confined pool size count top mgr) {files kept next : List SSTable}
    (hsize : ∀ l : List (Bytes × EValue), l.Nodup → l ⊆ pool → cfg.fileSize l ≤ size)
    (hbooked : Booked mgr') (hmax : mgr'.maxLevel ≤ top)
    (hweight : weight (fun _ => 1) (top + 1) mgr' ≤ weight (fun _ => 1) (top + 1) mgr)
    (hlevels : mgr'.levelSstables = Function.update (Function.update mgr.levelSstables (level + 1)
      ((createFromEntries cfg (liveEntries now (mergedMap files)) (level + 1) mgr).1.toList ++ next))
      level kept)
    (hfiles : ∀ sst ∈ files, ∃ i, sst ∈ mgr.levelSstables i)
    (hkept : ∀ sst ∈ kept, sst ∈ mgr.levelSstables level)
    (hnext : ∀ sst ∈ next, sst ∈ mgr.levelSstables (level + 1)) :
    Confined pool size count top mgr' := by
  -- a table is an old one or the created one
  have hcases : ∀ i, ∀ sst ∈ mgr'.levelSstables i, (∃ j, sst ∈ mgr.levelSstables j) ∨
      sst ∈ (createFromEntries cfg (liveEntries now (mergedMap files)) (level + 1) mgr).1.toList := by
    intro i sst hsst
    rw [hlevels, Function.update_apply, Function.update_apply] at hsst
    split_ifs at hsst with h₁ h₂
    · exact Or.inl ⟨level, hkept sst hsst⟩
    · rcases List.mem_append.1 hsst with hnew | hold
      · exact Or.inr hnew
      · exact Or.inl ⟨level + 1, hnext sst hold⟩
    · exact Or.inl ⟨i, hsst⟩
  have hpool : liveEntries now (mergedMap files) ⊆ pool := by
    intro e he
    obtain ⟨file, hfile, hmem⟩ := mem_of_liveEntries he
    obtain ⟨i, hi⟩ := hfiles file hfile
    exact h.entries_mem i file hi e hmem
  refine ⟨hbooked, hmax, hweight.trans h.weight_le, fun i sst hsst => ?_, fun i sst hsst e he => ?_⟩
  · rcases hcases i sst hsst with ⟨j, hj⟩ | hnew
    · exact h.size_le j sst hj
    · rw [fileSize_created hnew]
      exact hsize _ (nodup_liveEntries _) hpool
  · rcases hcases i sst hsst with ⟨j, hj⟩ | hnew
    · exact h.entries_mem j sst hj e he
    · exact hpool (mem_of_created hnew he)

theorem totalSize_le {files : List SSTable} (h : ∀ sst ∈ files, sst.fileSize ≤ size) :
    totalSize files ≤ files.length * size := by
  induction files with
  | nil => simp
  | cons sst files ih =>
      rw [List.forall_mem_cons] at h
      rw [totalSize_cons, List.length_cons, Nat.succ_mul]
      have hrest := ih h.2
      omega

theorem Confined.levelSize_le (h : Confined pool size count top mgr) (hlevel : level ≤ top) :
    mgr.levelSstableSize level ≤ count * size := by
  have hlength : (mgr.levelSstables level).length ≤ count :=
    (length_le_weight (Nat.lt_succ_of_le hlevel) mgr).trans h.weight_le
  calc mgr.levelSstableSize level = totalSize (mgr.levelSstables level) := h.booked.sized level
    _ ≤ (mgr.levelSstables level).length * size := totalSize_le (h.size_le level)
    _ ≤ count * size := Nat.mul_le_mul_right size hlength

/-- Every merge of the second strategy moves a table down, and none goes below `top`. -/
theorem Confined.merge (h : Confined pool size count top mgr)
    (hstrategy : cfg.mergeStrategy = .levelCompaction)
    (hsize : ∀ l : List (Bytes × EValue), l.Nodup → l ⊆ pool → cfg.fileSize l ≤ size)
    (htop : ∀ s, s ≤ count * size → cfg.sizeReached s top = false)
    (hmerge : Merge cfg now mgr mgr') :
    Confined pool size count top mgr' ∧
      weight (fun i => top - i) (top + 1) mgr' < weight (fun i => top - i) (top + 1) mgr := by
  cases hmerge with
  | @level level hlevel hshould hfiles _ =>
      -- the size of the level `top` does not reach its limit
      have hlt : level < top := by
        refine lt_of_le_of_ne (hlevel.trans h.maxLevel_le) ?_
        rintro rfl
        simp only [shouldMerge, hstrategy, htop _ (h.levelSize_le (le_refl _))] at hshould
        cases hshould
      have hn : level + 1 < top + 1 := Nat.succ_lt_succ hlt
      have hpos := List.length_pos_iff.2 hfiles
      have hmax : (mergeLevel cfg now level mgr).maxLevel ≤ _ := maxLevel_mergeLevel_le
      have hcount : weight (fun _ => 1) (top + 1) (mergeLevel cfg now level mgr) + _ ≤ _ :=
        weight_mergeLevel hn
      have hdepth : weight (fun i => top - i) (top + 1) (mergeLevel cfg now level mgr) + _ ≤ _ :=
        weight_mergeLevel hn
      refine ⟨h.of_merge hsize (booked_mergeLevel h.booked)
        (hmax.trans (max_le h.maxLevel_le hlt)) (by omega) levelSstables_mergeLevel
        (fun sst hsst => ⟨level, hsst⟩) (fun sst hsst => absurd hsst List.not_mem_nil)
        fun sst hsst => hsst, ?_⟩
      have hmul : top - level ≤ (top - level) * (mgr.levelSstables level).length :=
        Nat.le_mul_of_pos_right _ hpos
      omega
  | @oldest level newer sst hlevel _ hfiles =>
      have hlt : level < top := lt_of_lt_of_le hlevel h.maxLevel_le
      have hn : level + 1 < top + 1 := Nat.succ_lt_succ hlt
      have hnum := h.booked.stored.numbered
      have hmax : (mergeOldest cfg now sst level mgr).maxLevel ≤ _ := maxLevel_mergeOldest_le
      have hcount : weight (fun _ => 1) (top + 1) (mergeOldest cfg now sst level mgr) + _ ≤ _ :=
        weight_mergeOldest hn hnum hfiles
      have hdepth : weight (fun i => top - i) (top + 1) (mergeOldest cfg now sst level mgr) + _ ≤ _ :=
        weight_mergeOldest hn hnum hfiles
      refine ⟨h.of_merge hsize (booked_mergeOldest h.booked hfiles)
        (hmax.trans (max_le h.maxLevel_le hlt)) (by omega)
        (levelSstables_mergeOldest hnum hfiles) (fun file hfile => ?_)
        (fun file hfile => by rw [hfiles]; exact List.mem_append_left _ hfile)
        fun file hfile => (List.mem_filter.1 hfile).1, by omega⟩
      rcases List.mem_cons.1 hfile with rfl | hnext
      · exact ⟨level, by simp [hfiles]⟩
      · exact ⟨level + 1, (List.mem_filter.1 hnext).1⟩

/-- A manager is confined to the entries, the sizes and the number of its own tables. -/
theorem exists_confined (cfg : SSTableConfig) (hbooked : Booked mgr) : ∃ pool size count,
    (∀ l : List (Bytes × EValue), l.Nodup → l ⊆ pool → cfg.fileSize l ≤ size) ∧
      ∀ top, mgr.maxLevel ≤ top → Confined pool size count top mgr := by
  let files := (List.range (mgr.maxLevel + 1)).flatMap mgr.levelSstables
  have hfiles : ∀ i, ∀ sst ∈ mgr.levelSstables i, sst ∈ files := by
    intro i sst hsst
    have hi : i ≤ mgr.maxLevel := by
      by_contra hgt
      rw [hbooked.stored.above_max i (Nat.lt_of_not_le hgt)] at hsst
      cases hsst
    exact List.mem_flatMap.2 ⟨i, List.mem_range.2 (Nat.lt_succ_of_le hi), hsst⟩
  let pool := files.flatMap fun sst => sst.entries.toList
  obtain ⟨size, hsize⟩ := exists_bound_of_nodup cfg.fileSize pool
  refine ⟨pool, size + totalSize files, mgr.tableCount,
    fun l hnodup hsub => (hsize l hnodup hsub).trans (Nat.le_add_right _ _), fun top htop =>
      ⟨hbooked, htop, (weight_eq_tableCount hbooked.stored.above_max htop).le,
        fun i sst hsst => ?_, fun i sst hsst e he => ?_⟩⟩
  · exact (List.le_sum_of_mem (List.mem_map_of_mem (hfiles i sst hsst))).trans
      (Nat.le_add_left _ _)
  · exact List.mem_flatMap.2 ⟨sst, hfiles i sst hsst, he⟩

/-- The limits of the levels pass every size. -/
theorem Accepted.not_reached {zeroLevelSize ratio : Nat} (hcfg : Accepted cfg zeroLevelSize ratio)
    {s bound : Nat} (hs : s ≤ bound) (hlevel : 2 * bound ≤ level) :
    cfg.sizeReached s level = false := by
  rw [Bool.eq_false_iff]
  intro hreached
  have hpow : level < ratio ^ level := Nat.lt_pow_self hcfg.two_le_ratio
  have hpos : 0 < zeroLevelSize * 1024 * 1024 :=
    Nat.mul_pos (Nat.mul_pos hcfg.one_le_zero (by decide)) (by decide)
  have hlimit : ratio ^ level ≤ 2 * s :=
    (Nat.le_mul_of_pos_left _ hpos).trans (hcfg.limit s level hreached)
  omega

theorem acc_of_levelCompaction {zeroLevelSize ratio : Nat}
    (hcfg : Accepted cfg zeroLevelSize ratio) (hbooked : Booked mgr)
    (hstrategy : cfg.mergeStrategy = .levelCompaction) :
    Acc (fun m' m => TransGen (Merge cfg now) m m') mgr := by
  obtain ⟨pool, size, count, hsize, hconfined⟩ := exists_confined cfg hbooked
  -- the sizes never reach the limit of this level
  let top := max mgr.maxLevel (2 * (count * size))
  have htop : ∀ s, s ≤ count * size → cfg.sizeReached s top = false :=
    fun s hs => hcfg.not_reached hs (le_max_right _ _)
  exact acc_of_measure (fun m m' h hmerge => h.merge hstrategy hsize htop hmerge)
    (hconfined top (le_max_left _ _))

theorem acc_of_threshold (habove : ∀ i, mgr.maxLevel < i → mgr.levelSstables i = [])
    (hstrategy : cfg.mergeStrategy = .sizeTieredCompaction)
    (hthreshold : 2 ≤ cfg.sstableMergeThreshold) :
    Acc (fun m' m => TransGen (Merge cfg now) m m') mgr := by
  have hbounded : Bounded (mgr.maxLevel + mgr.tableCount) mgr := by
    rw [Bounded, weight_eq_tableCount habove (Nat.le_add_right _ _)]
  exact acc_of_measure
    (fun m m' h hmerge => weight_lt_of_threshold hstrategy hthreshold h hmerge) hbounded

end Confinement

section Endless

variable {cfg : SSTableConfig} {now level : Nat} {mgr : SSTableManager}

/-- Some key's newest version in the level is live. -/
def LevelLive (now : Nat) (mgr : SSTableManager) (level : Nat) : Prop :=
  ∃ key v, newest (mgr.levelLayers level) key = some v ∧ v.isLive now = true

theorem liveEntries_eq_nil_iff {files : List SSTable} :
    liveEntries now (mergedMap files) = [] ↔
      ∀ key v, newest (files.map SSTable.get) key = some v → v.isLive now = false := by
  rw [liveEntries, OrderedMap.retain, List.filter_eq_nil_iff]
  constructor
  · intro h key v hv
    rw [← getElem?_mergedMap] at hv
    simpa using h (key, v) (Std.ExtTreeMap.mem_toList_iff_getElem?_eq_some.2 hv)
  · intro h e he
    have hv := Std.ExtTreeMap.mem_toList_iff_getElem?_eq_some.1 he
    rw [getElem?_mergedMap] at hv
    simpa using h e.1 e.2 hv

theorem liveEntries_eq_nil_iff_not_live :
    liveEntries now (mergedMap (mgr.levelSstables level)) = [] ↔ ¬ LevelLive now mgr level := by
  rw [liveEntries_eq_nil_iff, LevelLive]
  simp only [not_exists, not_and, Bool.not_eq_true, levelLayers]

theorem LevelLive.nonempty (h : LevelLive now mgr level) : mgr.levelSstables level ≠ [] := by
  obtain ⟨key, v, hv, -⟩ := h
  intro hnil
  rw [levelLayers, hnil] at hv
  cases hv

/-- A merge whose level is live makes the next level live. -/
theorem LevelLive.mergeLevel (h : LevelLive now mgr level) (cfg : SSTableConfig) :
    LevelLive now (mergeLevel cfg now level mgr) (level + 1) ∧
      level + 1 ≤ (mergeLevel cfg now level mgr).maxLevel := by
  have hentries : liveEntries now (mergedMap (mgr.levelSstables level)) ≠ [] :=
    fun hnil => liveEntries_eq_nil_iff_not_live.1 hnil h
  obtain ⟨sst, hsst⟩ := createFromEntries_fst cfg mgr (level + 1) hentries
  have hspec := created_spec (Option.mem_toList.2 hsst)
  obtain ⟨key, v, hv, hlive⟩ := h
  refine ⟨⟨key, v, ?_, hlive⟩, hspec.2.2.2⟩
  have hget : sst.get key = some v := by
    rw [hspec.1, getElem?_liveEntries, Option.filter_eq_some_iff]
    exact ⟨hv, hlive⟩
  rw [levelLayers, levelSstables_mergeLevel, Function.update_of_ne (Nat.succ_ne_self level),
    Function.update_self, hsst, Option.toList_some, List.singleton_append, List.map_cons,
    newest_cons, hget, Option.some_or]

/-- A merge of a level without a live version only empties the level. -/
theorem mergeLevel_of_not_live (h : ¬ LevelLive now mgr level) (cfg : SSTableConfig) :
    (mergeLevel cfg now level mgr).levelSstables = Function.update mgr.levelSstables level [] ∧
      (mergeLevel cfg now level mgr).maxLevel = mgr.maxLevel := by
  have hnil := liveEntries_eq_nil_iff_not_live.2 h
  have hcreate : createFromEntries cfg (liveEntries now (mergedMap (mgr.levelSstables level)))
      (level + 1) mgr = (none, mgr) := by
    rw [hnil, createFromEntries, dif_pos rfl]
  constructor
  · rw [levelSstables_mergeLevel, hcreate, Option.toList_none, List.nil_append,
      Function.update_eq_self]
  · show (createFromEntries _ _ _ _).2.maxLevel = _
    rw [hcreate]

/-- Such a merge leaves the levels below as they are. -/
theorem levelSstables_of_not_live (h : ¬ LevelLive now mgr level) (cfg : SSTableConfig) (i : Nat) :
    (mergeLevel cfg now level mgr).levelSstables (level + 1 + i) =
      mgr.levelSstables (level + (i + 1)) := by
  rw [(mergeLevel_of_not_live h cfg).1, Function.update_of_ne (by omega), Nat.add_assoc,
    Nat.add_comm 1 i]

theorem strategy0Returns_iff : Strategy0Returns cfg now mgr level ↔
    (mgr.levelSstables level ≠ [] → Returns cfg now (mergeLevel cfg now level mgr) (level + 1)) := by
  unfold Strategy0Returns Returns mergeSstablesByStrategy0
  by_cases hfiles : mgr.levelSstables level = []
  · simp [hfiles]
  · simp [hfiles, Option.isSome_bind]

theorem returns_above (hlevel : mgr.maxLevel < level) : Returns cfg now mgr level := by
  refine ⟨1, ?_⟩
  rw [mergeSstables, if_pos hlevel]
  rfl

/-- From the level on, the levels that hold tables hold nothing live, up to the first empty one. -/
def CascadeEnds (now : Nat) (mgr : SSTableManager) (level : Nat) : Prop :=
  ∀ n, (∀ i ≤ n, mgr.levelSstables (level + i) ≠ []) → ¬ LevelLive now mgr (level + n)

section Threshold

variable (hstrategy : cfg.mergeStrategy = .sizeTieredCompaction)
  (hthreshold : cfg.sstableMergeThreshold = 1)

include hstrategy hthreshold

/-- With the threshold one, every level that holds a table is merged. -/
theorem mergeSstables_of_threshold (hlevel : level ≤ mgr.maxLevel)
    (hfiles : mgr.levelSstables level ≠ []) (fuel : Nat) :
    mergeSstables cfg now (fuel + 1) mgr level =
      (mergeSstables cfg now fuel (mergeLevel cfg now level mgr) (level + 1)).map
        fun r => (true, r.2) := by
  have hshould : shouldMerge cfg mgr level = true := by
    simp only [shouldMerge, hstrategy, hthreshold, decide_eq_true_eq]
    exact List.length_pos_iff.2 hfiles
  rw [mergeSstables, if_neg (Nat.not_lt_of_le hlevel), if_pos hshould, hstrategy]
  show mergeSstablesByStrategy0 cfg now (mergeSstables cfg now fuel) mgr level = _
  rw [mergeSstablesByStrategy0, if_neg (by simpa using hfiles)]
  cases mergeSstables cfg now fuel (mergeLevel cfg now level mgr) (level + 1) <;> rfl

/-- A merge of a live level is followed by the merge of the next one, which is live again. -/
theorem endless_of_live (fuel : Nat) : ∀ (mgr : SSTableManager) (level : Nat),
    level ≤ mgr.maxLevel → LevelLive now mgr level → mergeSstables cfg now fuel mgr level = none := by
  induction fuel with
  | zero =>
      intro mgr level _ _
      rfl
  | succ fuel ih =>
      intro mgr level hlevel hlive
      obtain ⟨hnext, hmax⟩ := hlive.mergeLevel cfg
      rw [mergeSstables_of_threshold hstrategy hthreshold hlevel hlive.nonempty,
        ih _ _ hmax hnext, Option.map_none]

theorem endless_of_cascade (n : Nat) : ∀ (fuel : Nat) (mgr : SSTableManager) (level : Nat),
    level + n ≤ mgr.maxLevel → (∀ i ≤ n, mgr.levelSstables (level + i) ≠ []) →
      LevelLive now mgr (level + n) → mergeSstables cfg now fuel mgr level = none := by
  induction n with
  | zero =>
      intro fuel mgr level hlevel _ hlive
      exact endless_of_live hstrategy hthreshold fuel mgr level hlevel hlive
  | succ n ih =>
      intro fuel mgr level hlevel hfiles hlive
      have hle : level ≤ mgr.maxLevel := (Nat.le_add_right _ _).trans hlevel
      by_cases hhere : LevelLive now mgr level
      · exact endless_of_live hstrategy hthreshold fuel mgr level hle hhere
      cases fuel with
      | zero => rfl
      | succ fuel =>
          have hmax := (mergeLevel_of_not_live hhere cfg).2
          have hsame := levelSstables_of_not_live hhere cfg
          have hrest : mergeSstables cfg now fuel (mergeLevel cfg now level mgr) (level + 1) =
              none := by
            refine ih _ _ _ (by omega) (fun i hi => ?_) ?_
            · rw [hsame]
              exact hfiles (i + 1) (Nat.succ_le_succ hi)
            · unfold LevelLive levelLayers at hlive ⊢
              rwa [hsame]
          rw [mergeSstables_of_threshold hstrategy hthreshold hle (hfiles 0 (Nat.zero_le _)),
            hrest, Option.map_none]

/-- Merges of levels without a live version come to an end at the highest level. -/
theorem returns_of_cascadeEnds (n : Nat) : ∀ (mgr : SSTableManager) (level : Nat),
    mgr.maxLevel < level + n → CascadeEnds now mgr level → Returns cfg now mgr level := by
  induction n with
  | zero =>
      intro mgr level hlevel _
      exact returns_above hlevel
  | succ n ih =>
      intro mgr level hlevel hends
      by_cases hmax : mgr.maxLevel < level
      · exact returns_above hmax
      by_cases hfiles : mgr.levelSstables level = []
      · refine ⟨1, ?_⟩
        have hshould : shouldMerge cfg mgr level = false := by
          simp [shouldMerge, hstrategy, hthreshold, hfiles]
        rw [mergeSstables, if_neg hmax, hshould, if_neg Bool.false_ne_true]
        rfl
      have hdead : ¬ LevelLive now mgr level :=
        hends 0 fun i hi => by rwa [Nat.le_zero.1 hi]
      have hsame := (mergeLevel_of_not_live hdead cfg).2
      have hbelow := levelSstables_of_not_live hdead cfg
      have hnext : CascadeEnds now (mergeLevel cfg now level mgr) (level + 1) := by
        intro m hm hlive
        unfold LevelLive levelLayers at hlive
        rw [hbelow] at hlive
        refine hends (m + 1) (fun i hi => ?_) hlive
        cases i with
        | zero => exact hfiles
        | succ i =>
            have hi := hm i (Nat.le_of_succ_le_succ hi)
            rwa [hbelow] at hi
      obtain ⟨fuel, hfuel⟩ := ih _ _ (by omega) hnext
      refine ⟨fuel + 1, ?_⟩
      rw [mergeSstables_of_threshold hstrategy hthreshold (Nat.le_of_not_lt hmax) hfiles,
        Option.isSome_map]
      exact hfuel

theorem returns_alone_iff (habove : ∀ i, mgr.maxLevel < i → mgr.levelSstables i = []) :
    Returns cfg now mgr level ↔ CascadeEnds now mgr level := by
  constructor
  · rintro ⟨fuel, hfuel⟩ n hfiles hlive
    have hlevel : level + n ≤ mgr.maxLevel := by
      by_contra hgt
      exact hfiles n (Nat.le_refl n) (habove _ (Nat.lt_of_not_le hgt))
    rw [endless_of_cascade hstrategy hthreshold n fuel mgr level hlevel hfiles hlive] at hfuel
    cases hfuel
  · exact returns_of_cascadeEnds hstrategy hthreshold (mgr.maxLevel + 1) mgr level (by omega)

theorem strategy0Returns_alone_iff (habove : ∀ i, mgr.maxLevel < i → mgr.levelSstables i = []) :
    Strategy0Returns cfg now mgr level ↔ CascadeEnds now mgr level := by
  rw [strategy0Returns_iff]
  by_cases hfiles : mgr.levelSstables level = []
  · exact ⟨fun _ n h => absurd hfiles (h 0 (Nat.zero_le n)), fun _ h => absurd hfiles h⟩
  have hlevel : level ≤ mgr.maxLevel := by
    by_contra hgt
    exact hfiles (habove _ (Nat.lt_of_not_le hgt))
  have hcall : ∀ fuel, mergeSstables cfg now (fuel + 1) mgr level = _ :=
    mergeSstables_of_threshold hstrategy hthreshold hlevel hfiles
  rw [← returns_alone_iff hstrategy hthreshold habove, forall_prop_of_true hfiles]
  constructor
  · rintro ⟨fuel, hfuel⟩
    exact ⟨fuel + 1, by rwa [hcall, Option.isSome_map]⟩
  · rintro ⟨fuel, hfuel⟩
    cases fuel with
    | zero => cases hfuel
    | succ fuel =>
        rw [hcall, Option.isSome_map] at hfuel
        exact ⟨fuel, hfuel⟩

end Threshold

/-- In every other case no manager has an endless chain of merges. -/
theorem returns_of_not_alone {zeroLevelSize ratio : Nat} (hcfg : Accepted cfg zeroLevelSize ratio)
    (hother : cfg.mergeStrategy = .sizeTieredCompaction → cfg.sstableMergeThreshold ≠ 1)
    (hbooked : Booked mgr) : Returns cfg now mgr level := by
  have hacc : Acc (fun m' m => TransGen (Merge cfg now) m m') mgr := by
    cases hstrategy : cfg.mergeStrategy with
    | sizeTieredCompaction =>
        have hthreshold := hcfg.one_le_threshold
        have hne := hother hstrategy
        exact acc_of_threshold hbooked.stored.above_max hstrategy (by omega)
    | levelCompaction => exact acc_of_levelCompaction hcfg hbooked hstrategy
  obtain ⟨fuel, r, hrun, -⟩ := reaches_of_acc hacc level
  exact ⟨fuel, by rw [hrun]; rfl⟩

/-- **A compaction comes to an end, unless the threshold is one and a live version is met.** Under
every configuration that `check_config` accepts and for every set of tables, a call of
`merge_sstables` or of `merge_sstables_by_strategy_0` returns if and only if the second strategy is
used, or the threshold is at least two, or the levels from the call's level on, up to the first
empty one, hold no live version. -/
theorem returns_iff {zeroLevelSize ratio : Nat} (hcfg : Accepted cfg zeroLevelSize ratio)
    (hbooked : Booked mgr) (now level : Nat) :
    (Returns cfg now mgr level ↔ (cfg.mergeStrategy = .sizeTieredCompaction →
        cfg.sstableMergeThreshold = 1 → CascadeEnds now mgr level)) ∧
      (Strategy0Returns cfg now mgr level ↔ (cfg.mergeStrategy = .sizeTieredCompaction →
        cfg.sstableMergeThreshold = 1 → CascadeEnds now mgr level)) := by
  by_cases halone : cfg.mergeStrategy = .sizeTieredCompaction ∧ cfg.sstableMergeThreshold = 1
  · obtain ⟨hstrategy, hthreshold⟩ := halone
    rw [returns_alone_iff hstrategy hthreshold hbooked.stored.above_max,
      strategy0Returns_alone_iff hstrategy hthreshold hbooked.stored.above_max]
    exact ⟨⟨fun h _ _ => h, fun h => h hstrategy hthreshold⟩,
      fun h _ _ => h, fun h => h hstrategy hthreshold⟩
  · have hother : cfg.mergeStrategy = .sizeTieredCompaction → cfg.sstableMergeThreshold ≠ 1 :=
      fun h₁ h₂ => halone ⟨h₁, h₂⟩
    refine ⟨⟨fun _ h₁ h₂ => absurd h₂ (hother h₁), fun _ => returns_of_not_alone hcfg hother hbooked⟩,
      fun _ h₁ h₂ => absurd h₂ (hother h₁), fun _ => ?_⟩
    exact strategy0Returns_iff.2 fun _ => returns_of_not_alone hcfg hother (booked_mergeLevel hbooked)

/-- The first strategy with the smallest threshold that the config check accepts. -/
def aloneConfig : SSTableConfig :=
  ⟨.sizeTieredCompaction, 1, fun size level => 10 * 1024 * 1024 * 10 ^ level ≤ size, List.length⟩

theorem accepted_aloneConfig : Accepted aloneConfig 10 10 := by
  refine ⟨le_refl _, by decide, by decide, fun size level h => ?_⟩
  have h : 10 * 1024 * 1024 * 10 ^ level ≤ size := of_decide_eq_true h
  omega

/-- The manager of a directory with one table, which holds one value. -/
def oneTable : SSTableManager :=
  (createFromEntries aloneConfig [([1], { value := .string [7] })] 0 empty).2

theorem booked_oneTable : Booked oneTable :=
  booked_createFromEntries aloneConfig ⟨stored_empty, fun _ => rfl⟩ _ 0

theorem not_cascadeEnds_oneTable : ¬ CascadeEnds 0 oneTable 0 := by
  have hlive : LevelLive 0 oneTable 0 := ⟨[1], { value := .string [7] }, by decide, rfl⟩
  intro h
  refine h 0 (fun i hi => ?_) hlive
  rw [Nat.le_zero.1 hi]
  exact hlive.nonempty

theorem returns_iff_oneTable : ¬ Returns aloneConfig 0 oneTable 0 := by
  rw [(returns_iff accepted_aloneConfig booked_oneTable 0 0).1]
  exact fun h => not_cascadeEnds_oneTable (h rfl rfl)

/-- The table is rewritten into one level after the other. -/
theorem merging_never_ends :
    ¬ ∀ (cfg : SSTableConfig) (zeroLevelSize ratio : Nat) (mgr : SSTableManager) (now level : Nat),
      Accepted cfg zeroLevelSize ratio → Booked mgr → Returns cfg now mgr level := by
  intro hall
  have hreturns := hall aloneConfig 10 10 oneTable 0 0 accepted_aloneConfig booked_oneTable
  rw [returns_alone_iff rfl rfl booked_oneTable.stored.above_max] at hreturns
  exact not_cascadeEnds_oneTable hreturns

end Endless

end EyaKV.Store.SSTableManager
