import EyaKV.Base.Layers
import EyaKV.Store.SSTable
import Mathlib.Data.List.Pairwise

/-!
# What a compaction keeps

A lookup in the SSTables is the newest version over the files in level order
(`get_eq_newest`), so a merge is the compaction of a group of layers: the whole of a
level for the first strategy, a level's oldest file with the files of the next
level that it overlaps for the second. A merge writes the live versions only. When
a dropped dead version was hiding a live one further down, the older value
resurfaces; `visible_mergeSstables_iff` states that a call of `mergeSstables` keeps
every key's visible version exactly when none of the merges it performs lets a key
resurface.

For the second strategy the files of one level above level 0 must have disjoint key
ranges. `WellFormed` says so, and every operation of the manager preserves it.
-/

set_option autoImplicit false

namespace EyaKV.Store

open EyaKV.Base EyaKV.Base.Layers

namespace SSTable

variable {sst next : SSTable} {key : Bytes} {v : EValue}

theorem minKey_le (h : sst.get key = some v) : sst.minKey ≤ key := by
  have hmem := Std.ExtTreeMap.mem_toList_iff_getElem?_eq_some.2 h
  have hsorted := sst.entries.ordered_keys_toList
  rw [← List.cons_head_tail sst.nonempty] at hmem hsorted
  rcases List.mem_cons.1 hmem with heq | htail
  · exact Std.le_of_eq (congrArg Prod.fst heq.symm)
  · exact Std.le_of_lt ((compare_eq_lt_iff _ _).1 (List.rel_of_pairwise_cons hsorted htail))

theorem le_maxKey (h : sst.get key = some v) : key ≤ sst.maxKey := by
  have hmem := Std.ExtTreeMap.mem_toList_iff_getElem?_eq_some.2 h
  have hsorted := sst.entries.ordered_keys_toList
  rw [← List.dropLast_append_getLast sst.nonempty] at hmem hsorted
  rcases List.mem_append.1 hmem with hinit | hlast
  · have hlt := (List.pairwise_append.1 hsorted).2.2 _ hinit _ (List.mem_singleton_self _)
    exact Std.le_of_lt ((compare_eq_lt_iff _ _).1 hlt)
  · exact Std.le_of_eq (congrArg Prod.fst (List.mem_singleton.1 hlast))

/-- The bounds of a file are keys of the file. -/
theorem exists_get_minKey (sst : SSTable) : ∃ v, sst.get sst.minKey = some v :=
  ⟨_, Std.ExtTreeMap.mem_toList_iff_getElem?_eq_some.1 (List.head_mem sst.nonempty)⟩

theorem exists_get_maxKey (sst : SSTable) : ∃ v, sst.get sst.maxKey = some v :=
  ⟨_, Std.ExtTreeMap.mem_toList_iff_getElem?_eq_some.1 (List.getLast_mem sst.nonempty)⟩

theorem overlaps_eq_false_iff :
    sst.overlaps next = false ↔ sst.maxKey < next.minKey ∨ next.maxKey < sst.minKey := by
  simp only [overlaps, Bool.not_eq_false', Bool.or_eq_true, strLt_iff]

/-- Files that do not overlap share no key. -/
theorem disjoint_of_not_overlaps (h : sst.overlaps next = false) (key : Bytes) :
    sst.get key = none ∨ next.get key = none := by
  rw [overlaps_eq_false_iff] at h
  cases hsst : sst.get key with
  | none => exact Or.inl rfl
  | some v =>
      cases hnext : next.get key with
      | none => exact Or.inr rfl
      | some w =>
          have h₁ := minKey_le hsst
          have h₂ := le_maxKey hsst
          have h₃ := minKey_le hnext
          have h₄ := le_maxKey hnext
          grind

end SSTable

namespace SSTableManager

section Lookup

variable (mgr : SSTableManager)

/-- The lookups of the files of level `i`, newest first. -/
def levelLayers (i : Nat) : List (Bytes → Option EValue) :=
  (mgr.levelSstables i).map SSTable.get

/-- The lookups of the files of `n` levels from `start` on. -/
def layersFrom (start n : Nat) : List (Bytes → Option EValue) :=
  (List.range' start n).flatMap mgr.levelLayers

/-- The version that `get` finds, a tombstone or an expired version read as
absent. -/
def visibleAt (now : Nat) (key : Bytes) : Option EValue := (mgr.get key).filter (EValue.isLive now)

theorem layersFrom_succ (start n : Nat) :
    mgr.layersFrom start (n + 1) = mgr.levelLayers start ++ mgr.layersFrom (start + 1) n := rfl

theorem layersFrom_add (start m n : Nat) :
    mgr.layersFrom start (m + n) = mgr.layersFrom start m ++ mgr.layersFrom (start + m) n := by
  rw [layersFrom, ← List.range'_append_1, List.flatMap_append]
  rfl

variable {mgr} in
theorem layersFrom_congr {mgr' : SSTableManager} {start n : Nat}
    (h : ∀ i, start ≤ i → i < start + n → mgr.levelSstables i = mgr'.levelSstables i) :
    mgr.layersFrom start n = mgr'.layersFrom start n := by
  refine List.flatMap_congr fun i hi => ?_
  rw [List.mem_range'_1] at hi
  rw [levelLayers, levelLayers, h i hi.1 hi.2]

/-- A lookup reads the levels up to the highest one. -/
theorem get_eq_newest (key : Bytes) :
    mgr.get key = newest (mgr.layersFrom 0 (mgr.maxLevel + 1)) key := by
  rw [get, layersFrom, newest_flatMap, List.range_eq_range']
  congr 1
  funext i
  rw [levelLayers, newest, List.findSome?_map]
  rfl

end Lookup

/-- What every operation of the manager maintains: no file above the highest level,
numbers below the next one and distinct in each level, and for the second strategy
disjoint key ranges in each level above level 0. -/
structure WellFormed (cfg : SSTableConfig) (mgr : SSTableManager) : Prop where
  above_max : ∀ i, mgr.maxLevel < i → mgr.levelSstables i = []
  number_lt : ∀ i, ∀ sst ∈ mgr.levelSstables i, sst.sequenceNumber < mgr.nextSequenceNumber
  number_distinct : ∀ i,
    (mgr.levelSstables i).Pairwise fun a b => a.sequenceNumber ≠ b.sequenceNumber
  disjoint : cfg.mergeStrategy = .levelCompaction → ∀ i, 1 ≤ i →
    (mgr.levelSstables i).Pairwise fun a b => a.overlaps b = false

/-- The part of it that does not depend on the strategy. -/
structure Numbered (mgr : SSTableManager) : Prop where
  above_max : ∀ i, mgr.maxLevel < i → mgr.levelSstables i = []
  number_lt : ∀ i, ∀ sst ∈ mgr.levelSstables i, sst.sequenceNumber < mgr.nextSequenceNumber
  number_distinct : ∀ i,
    (mgr.levelSstables i).Pairwise fun a b => a.sequenceNumber ≠ b.sequenceNumber

theorem WellFormed.numbered {cfg : SSTableConfig} {mgr : SSTableManager}
    (hwf : WellFormed cfg mgr) : Numbered mgr :=
  ⟨hwf.above_max, hwf.number_lt, hwf.number_distinct⟩

section Steps

variable {cfg : SSTableConfig} {mgr : SSTableManager} {now level : Nat}

/-- Levels past the highest one add no layer. -/
theorem layersFrom_extend (hnum : Numbered mgr) (start n m : Nat)
    (h : mgr.maxLevel < start + n) : mgr.layersFrom start (n + m) = mgr.layersFrom start n := by
  have hnil : mgr.layersFrom (start + n) m = [] := by
    refine List.flatMap_eq_nil_iff.2 fun i hi => ?_
    rw [List.mem_range'_1] at hi
    rw [levelLayers, hnum.above_max i (by omega), List.map_nil]
  rw [layersFrom_add, hnil, List.append_nil]

theorem getElem?_mergedMap (files : List SSTable) (key : Bytes) :
    (mergedMap files)[key]? = newest (files.map SSTable.get) key := by
  induction files with
  | nil => simp [mergedMap]
  | cons sst files ih =>
      rw [List.map_cons, newest_cons, ← ih]
      exact Std.ExtTreeMap.getElem?_union

theorem getElem?_liveEntries (files : List SSTable) (key : Bytes) :
    (Std.ExtTreeMap.ofList (liveEntries now (mergedMap files)) compare)[key]? =
      (newest (files.map SSTable.get) key).filter (EValue.isLive now) := by
  rw [liveEntries, OrderedMap.getElem?_ofList_retain, getElem?_mergedMap]

section Create

variable (cfg mgr level) (entries : List (Bytes × EValue))

theorem levelSstables_createFromEntries :
    (createFromEntries cfg entries level mgr).2.levelSstables =
      Function.update mgr.levelSstables level
        ((createFromEntries cfg entries level mgr).1.toList ++ mgr.levelSstables level) := by
  unfold createFromEntries
  split
  · exact (Function.update_eq_self _ _).symm
  · rfl

theorem createFromEntries_fst {entries : List (Bytes × EValue)} (h : entries ≠ []) :
    ∃ sst, (createFromEntries cfg entries level mgr).1 = some sst := by
  rw [createFromEntries, dif_neg h]
  exact ⟨_, rfl⟩

theorem maxLevel_createFromEntries :
    mgr.maxLevel ≤ (createFromEntries cfg entries level mgr).2.maxLevel ∧
      (createFromEntries cfg entries level mgr).2.maxLevel ≤ max mgr.maxLevel level := by
  unfold createFromEntries
  split
  · exact ⟨le_refl _, le_max_left _ _⟩
  · exact ⟨le_max_left _ _, le_refl _⟩

theorem nextSequenceNumber_createFromEntries :
    mgr.nextSequenceNumber ≤ (createFromEntries cfg entries level mgr).2.nextSequenceNumber := by
  unfold createFromEntries
  split
  · exact Nat.le_refl _
  · exact Nat.le_succ _

variable {cfg mgr level entries} in
/-- A created file has the lookups of its entries and takes the next number, in a
manager whose highest level reaches it. -/
theorem created_spec {sst : SSTable}
    (h : sst ∈ (createFromEntries cfg entries level mgr).1.toList) :
    (∀ key, sst.get key = (Std.ExtTreeMap.ofList entries compare)[key]?) ∧
      sst.sequenceNumber = mgr.nextSequenceNumber ∧
      mgr.nextSequenceNumber < (createFromEntries cfg entries level mgr).2.nextSequenceNumber ∧
      level ≤ (createFromEntries cfg entries level mgr).2.maxLevel := by
  unfold createFromEntries at h ⊢
  split
  · next hnil => simp [hnil] at h
  · next hne =>
      simp only [hne, ↓reduceDIte, Option.toList_some, List.mem_singleton] at h
      subst h
      exact ⟨fun _ => rfl, rfl, Nat.lt_succ_self _, le_max_right _ _⟩

/-- The created file, or the absence of one, acts as the layer of the entries. -/
theorem newest_created (rest : List (Bytes → Option EValue)) (key : Bytes) :
    newest ((createFromEntries cfg entries level mgr).1.toList.map SSTable.get ++ rest) key =
      newest ((fun k => (Std.ExtTreeMap.ofList entries compare)[k]?) :: rest) key := by
  unfold createFromEntries
  split
  · next h =>
      subst h
      rw [newest_cons]
      simp
  · rfl

end Create

section Remove

theorem levelSstables_removeMerged (merged : List SSTable) (mgr : SSTableManager) :
    (removeMerged merged level mgr).levelSstables =
      Function.update mgr.levelSstables level
        ((mgr.levelSstables level).filter fun sst =>
          !merged.any fun old => old.sequenceNumber == sst.sequenceNumber) := rfl

/-- Removing the files of a sublist, picked by a test, keeps the files that fail
it: a number identifies a file of the list. -/
theorem filter_not_any_filter {files : List SSTable} (p : SSTable → Bool)
    (hdistinct : files.Pairwise fun a b => a.sequenceNumber ≠ b.sequenceNumber) :
    (files.filter fun sst =>
      !(files.filter p).any fun old => old.sequenceNumber == sst.sequenceNumber) =
      files.filter fun sst => !p sst := by
  have hsymm : Std.Symm fun a b : SSTable => a.sequenceNumber ≠ b.sequenceNumber :=
    ⟨fun _ _ h => h.symm⟩
  refine List.filter_congr fun sst hsst => congrArg Bool.not ?_
  rw [Bool.eq_iff_iff, List.any_eq_true]
  constructor
  · rintro ⟨old, hold, hnum⟩
    rw [List.mem_filter] at hold
    have heq : old = sst := by
      by_contra hne
      exact hdistinct.forall hold.1 hsst hne (beq_iff_eq.1 hnum)
    exact heq ▸ hold.2
  · exact fun hp => ⟨sst, List.mem_filter.2 ⟨hsst, hp⟩, beq_self_eq_true _⟩

end Remove

section SingleMerges

/-- The files of the levels after the first strategy's merge of `level`. -/
theorem levelSstables_mergeLevel :
    (mergeLevel cfg now level mgr).levelSstables =
      Function.update (Function.update mgr.levelSstables (level + 1)
        ((createFromEntries cfg (liveEntries now (mergedMap (mgr.levelSstables level)))
          (level + 1) mgr).1.toList ++ mgr.levelSstables (level + 1))) level [] := by
  have hnil : ((mgr.levelSstables level).filter fun sst =>
      !(mgr.levelSstables level).any fun old => old.sequenceNumber == sst.sequenceNumber) = [] :=
    List.filter_eq_nil_iff.2 fun sst hsst => by simpa using ⟨sst, hsst, rfl⟩
  rw [mergeLevel, levelSstables_removeMerged, levelSstables_createFromEntries,
    Function.update_of_ne (Nat.ne_of_lt (Nat.lt_succ_self level)), hnil]

/-- The files of the levels after the second strategy's merge of the oldest file
of `level`. -/
theorem levelSstables_mergeOldest (hnum : Numbered mgr) {newer : List SSTable} {sst : SSTable}
    (hlevel : mgr.levelSstables level = newer ++ [sst]) :
    (mergeOldest cfg now sst level mgr).levelSstables =
      Function.update (Function.update mgr.levelSstables (level + 1)
        ((createFromEntries cfg
          (liveEntries now (mergedMap (sst :: overlapping sst level mgr))) (level + 1) mgr).1.toList
          ++ (mgr.levelSstables (level + 1)).filter fun next => !sst.overlaps next))
        level newer := by
  have hkeep : ((newer ++ [sst]).filter fun s =>
      !(List.any [sst] fun old => old.sequenceNumber == s.sequenceNumber)) = newer := by
    have hdistinct := hnum.number_distinct level
    rw [hlevel, List.pairwise_append] at hdistinct
    rw [List.filter_append, List.filter_eq_self.2, List.filter_eq_nil_iff.2, List.append_nil]
    · intro s hs
      simp [List.mem_singleton.1 hs]
    · intro s hs
      simpa using (hdistinct.2.2 s hs sst (List.mem_singleton_self _)).symm
  have hnew : ∀ entries, ((createFromEntries cfg entries (level + 1) mgr).1.toList.filter fun s =>
      !(overlapping sst level mgr).any fun old => old.sequenceNumber == s.sequenceNumber) =
        (createFromEntries cfg entries (level + 1) mgr).1.toList := by
    intro entries
    refine List.filter_eq_self.2 fun s hs => ?_
    have hnumber := (created_spec hs).2.1
    simp only [Bool.not_eq_true', List.any_eq_false, beq_iff_eq]
    intro old hold
    exact Nat.ne_of_lt (hnumber ▸ hnum.number_lt _ old (List.mem_filter.1 hold).1)
  rw [mergeOldest, levelSstables_removeMerged, levelSstables_removeMerged,
    levelSstables_createFromEntries, Function.update_of_ne (Nat.ne_of_lt (Nat.lt_succ_self level)),
    Function.update_of_ne (Nat.ne_of_lt (Nat.lt_succ_self level)), hlevel, hkeep,
    Function.update_self, Function.update_idem, List.filter_append, hnew,
    overlapping, filter_not_any_filter _ (hnum.number_distinct (level + 1))]

/-- A level to whose front a created file is added. -/
theorem number_lt_created (hnum : Numbered mgr) {entries : List (Bytes × EValue)} {i : Nat}
    {files : List SSTable} (hsub : ∀ sst ∈ files, sst ∈ mgr.levelSstables i) :
    ∀ sst ∈ (createFromEntries cfg entries level mgr).1.toList ++ files,
      sst.sequenceNumber < (createFromEntries cfg entries level mgr).2.nextSequenceNumber := by
  intro sst hsst
  rcases List.mem_append.1 hsst with hnew | hold
  · obtain ⟨-, hnumber, hlt, -⟩ := created_spec hnew
    exact hnumber ▸ hlt
  · exact lt_of_lt_of_le (hnum.number_lt i sst (hsub sst hold))
      (nextSequenceNumber_createFromEntries cfg mgr level entries)

theorem pairwise_created {R : SSTable → SSTable → Prop} {entries : List (Bytes × EValue)}
    {files : List SSTable} (hfiles : files.Pairwise R)
    (hnew : ∀ sst ∈ (createFromEntries cfg entries level mgr).1.toList, ∀ old ∈ files, R sst old) :
    ((createFromEntries cfg entries level mgr).1.toList ++ files).Pairwise R := by
  refine List.pairwise_append.2 ⟨?_, hfiles, hnew⟩
  cases (createFromEntries cfg entries level mgr).1 with
  | none => exact List.Pairwise.nil
  | some sst => exact List.pairwise_singleton _ _

/-- Both merges put a created file in front of a part of the next level and keep a
part of their own level. -/
theorem wellFormed_of_merge (hwf : WellFormed cfg mgr) {mgr' : SSTableManager}
    (entries : List (Bytes × EValue)) {kept next : List SSTable}
    (hlevels : mgr'.levelSstables = Function.update (Function.update mgr.levelSstables (level + 1)
      ((createFromEntries cfg entries (level + 1) mgr).1.toList ++ next)) level kept)
    (hmax : mgr'.maxLevel = (createFromEntries cfg entries (level + 1) mgr).2.maxLevel)
    (hnumber : mgr'.nextSequenceNumber =
      (createFromEntries cfg entries (level + 1) mgr).2.nextSequenceNumber)
    (hkept : kept.Sublist (mgr.levelSstables level))
    (hnext : next.Sublist (mgr.levelSstables (level + 1)))
    (hdisjoint : cfg.mergeStrategy = .levelCompaction →
      ∀ sst ∈ (createFromEntries cfg entries (level + 1) mgr).1.toList, ∀ old ∈ next,
        sst.overlaps old = false) : WellFormed cfg mgr' := by
  have hmono := maxLevel_createFromEntries cfg mgr (level + 1) entries
  -- every part of the invariant is checked on the level itself, the next one and the others
  have hcases : ∀ i, mgr'.levelSstables i =
      if i = level then kept
      else if i = level + 1 then
        (createFromEntries cfg entries (level + 1) mgr).1.toList ++ next
      else mgr.levelSstables i := by
    intro i
    rw [hlevels, Function.update_apply, Function.update_apply]
  refine ⟨fun i hi => ?_, fun i sst hsst => ?_, fun i => ?_, fun hstrategy i hi => ?_⟩
  · have hold : mgr.levelSstables i = [] := hwf.above_max i (by omega)
    rw [hcases]
    split_ifs with h₁ h₂
    · subst h₁
      exact List.sublist_nil.1 (hold ▸ hkept)
    · subst h₂
      have hnil : next = [] := List.sublist_nil.1 (hold ▸ hnext)
      rw [hnil, List.append_nil]
      refine List.eq_nil_iff_forall_not_mem.2 fun sst hsst => ?_
      have := (created_spec hsst).2.2.2
      omega
    · exact hold
  · rw [hcases] at hsst
    rw [hnumber]
    have hle := nextSequenceNumber_createFromEntries cfg mgr (level + 1) entries
    split_ifs at hsst with h₁ h₂
    · exact lt_of_lt_of_le (hwf.number_lt level sst (hkept.subset hsst)) hle
    · exact number_lt_created hwf.numbered (fun s hs => hnext.subset hs) sst hsst
    · exact lt_of_lt_of_le (hwf.number_lt i sst hsst) hle
  · rw [hcases]
    split_ifs with h₁ h₂
    · exact (hwf.number_distinct level).sublist hkept
    · refine pairwise_created ((hwf.number_distinct _).sublist hnext) fun sst hsst old hold => ?_
      have hlt := hwf.number_lt _ old (hnext.subset hold)
      rw [(created_spec hsst).2.1]
      exact Nat.ne_of_gt hlt
    · exact hwf.number_distinct i
  · rw [hcases]
    split_ifs with h₁ h₂
    · subst h₁
      exact (hwf.disjoint hstrategy i hi).sublist hkept
    · exact pairwise_created ((hwf.disjoint hstrategy _ (Nat.le_add_left 1 level)).sublist hnext)
        (hdisjoint hstrategy)
    · exact hwf.disjoint hstrategy i hi

theorem wellFormed_mergeLevel (hwf : WellFormed cfg mgr)
    (hstrategy : cfg.mergeStrategy = .levelCompaction → mgr.maxLevel ≤ level) :
    WellFormed cfg (mergeLevel cfg now level mgr) := by
  refine wellFormed_of_merge hwf _ levelSstables_mergeLevel rfl rfl (List.nil_sublist _)
    (List.Sublist.refl _) fun h sst _ old hold => ?_
  have hnil := hwf.above_max (level + 1) (Nat.lt_succ_of_le (hstrategy h))
  rw [hnil] at hold
  cases hold

/-- A key of the file that a merge writes is a key of one of the merged files. -/
theorem exists_get_of_created {files : List SSTable} {sst : SSTable}
    (h : sst ∈ (createFromEntries cfg (liveEntries now (mergedMap files)) level mgr).1.toList)
    {key : Bytes} {v : EValue} (hget : sst.get key = some v) :
    ∃ file ∈ files, ∃ w, file.get key = some w := by
  rw [(created_spec h).1, getElem?_liveEntries, Option.filter_eq_some_iff] at hget
  obtain ⟨layer, hlayer, hkey⟩ := exists_layer_of_newest hget.1
  obtain ⟨file, hfile, rfl⟩ := List.mem_map.1 hlayer
  exact ⟨file, hfile, v, hkey⟩

/-- Files whose key ranges are connected through `sst` stay on one side of a file
that none of them overlaps. -/
theorem not_overlaps_created {sst old : SSTable} {next : List SSTable}
    (hsst : sst.overlaps old = false) (hnext : ∀ file ∈ next, sst.overlaps file = true)
    (hold : ∀ file ∈ next, file.overlaps old = false) {new : SSTable}
    (hkeys : ∀ key v, new.get key = some v → ∃ file ∈ sst :: next, ∃ w, file.get key = some w) :
    new.overlaps old = false := by
  have hside : ∀ file ∈ sst :: next, (sst.maxKey < old.minKey → file.maxKey < old.minKey) ∧
      (old.maxKey < sst.minKey → old.maxKey < file.minKey) := by
    intro file hfile
    rcases List.mem_cons.1 hfile with rfl | hfile
    · exact ⟨id, id⟩
    · have h₁ := hnext file hfile
      have h₂ := hold file hfile
      rw [← Bool.not_eq_false, SSTable.overlaps_eq_false_iff] at h₁
      rw [SSTable.overlaps_eq_false_iff] at h₂
      obtain ⟨v, hmin⟩ := old.exists_get_minKey
      have h₃ := SSTable.le_maxKey hmin
      grind
  obtain ⟨vmin, hmin⟩ := new.exists_get_minKey
  obtain ⟨vmax, hmax⟩ := new.exists_get_maxKey
  obtain ⟨fmin, hfmin, wmin, hgetmin⟩ := hkeys _ _ hmin
  obtain ⟨fmax, hfmax, wmax, hgetmax⟩ := hkeys _ _ hmax
  have h₁ := SSTable.minKey_le hgetmin
  have h₂ := SSTable.le_maxKey hgetmax
  have h₃ := hside fmin hfmin
  have h₄ := hside fmax hfmax
  rw [SSTable.overlaps_eq_false_iff] at hsst ⊢
  grind

theorem wellFormed_mergeOldest (hwf : WellFormed cfg mgr) {newer : List SSTable} {sst : SSTable}
    (hlevel : mgr.levelSstables level = newer ++ [sst]) :
    WellFormed cfg (mergeOldest cfg now sst level mgr) := by
  refine wellFormed_of_merge hwf _ (levelSstables_mergeOldest hwf.numbered hlevel) rfl rfl
    (hlevel ▸ List.sublist_append_left _ _) List.filter_sublist fun hstrategy new hnew old hold => ?_
  have hsymm : Std.Symm fun a b : SSTable => a.overlaps b = false := ⟨fun a b h => by
    rw [SSTable.overlaps_eq_false_iff] at h ⊢
    exact h.symm⟩
  rw [List.mem_filter, Bool.not_eq_true'] at hold
  refine not_overlaps_created hold.2 (fun file hfile => (List.mem_filter.1 hfile).2) ?_
    fun key v hget => exists_get_of_created hnew hget
  intro file hfile
  have hfile := List.mem_filter.1 hfile
  refine (hwf.disjoint hstrategy _ (Nat.le_add_left 1 level)).forall hfile.1 hold.1 ?_
  rintro rfl
  rw [hfile.2] at hold
  exact absurd hold.2 (by decide)

end SingleMerges

section Visible

theorem get_eq_newest_of_lt (hnum : Numbered mgr) {n : Nat} (h : mgr.maxLevel < n)
    (key : Bytes) : mgr.get key = newest (mgr.layersFrom 0 n) key := by
  rw [get_eq_newest, show n = mgr.maxLevel + 1 + (n - (mgr.maxLevel + 1)) by omega,
    layersFrom_extend hnum 0 (mgr.maxLevel + 1) _ (by omega)]

/-- The layers of a manager around two adjacent levels. -/
theorem get_eq_newest_around (hnum : Numbered mgr) {n : Nat} (h : mgr.maxLevel < level + 2 + n)
    (key : Bytes) :
    mgr.get key = newest (mgr.layersFrom 0 level ++ (mgr.levelLayers level ++
      (mgr.levelLayers (level + 1) ++ mgr.layersFrom (level + 2) n))) key := by
  rw [get_eq_newest_of_lt hnum h, show level + 2 + n = level + ((n + 1) + 1) by omega,
    layersFrom_add, layersFrom_succ, layersFrom_succ, Nat.zero_add]

/-- The layers after a merge: `kept` of the level, then the created file in front
of `next`. -/
theorem get_of_merge {mgr' : SSTableManager} (hnum : Numbered mgr')
    (entries : List (Bytes × EValue)) {kept next : List SSTable}
    (hlevels : mgr'.levelSstables = Function.update (Function.update mgr.levelSstables (level + 1)
      ((createFromEntries cfg entries (level + 1) mgr).1.toList ++ next)) level kept)
    (n : Nat) (hmax : mgr'.maxLevel < level + 2 + n) (key : Bytes) :
    mgr'.get key = newest ((mgr.layersFrom 0 level ++ kept.map SSTable.get) ++
      (fun k => (Std.ExtTreeMap.ofList entries compare)[k]?) ::
        (next.map SSTable.get ++ mgr.layersFrom (level + 2) n)) key := by
  have hlevel : mgr'.levelLayers level = kept.map SSTable.get := by
    rw [levelLayers, hlevels, Function.update_self]
  have hnext : mgr'.levelLayers (level + 1) =
      (createFromEntries cfg entries (level + 1) mgr).1.toList.map SSTable.get ++
        next.map SSTable.get := by
    rw [levelLayers, hlevels, Function.update_of_ne (Nat.succ_ne_self level),
      Function.update_self, List.map_append]
  have hother : ∀ i, i ≠ level → i ≠ level + 1 →
      mgr'.levelSstables i = mgr.levelSstables i := by
    intro i h₁ h₂
    rw [hlevels, Function.update_of_ne h₁, Function.update_of_ne h₂]
  have habove : mgr'.layersFrom 0 level = mgr.layersFrom 0 level :=
    layersFrom_congr fun i _ hi => hother i (by omega) (by omega)
  have hbelow : mgr'.layersFrom (level + 2) n = mgr.layersFrom (level + 2) n :=
    layersFrom_congr fun i hi _ => hother i (by omega) (by omega)
  rw [get_eq_newest_around hnum hmax, hlevel, hnext, habove, hbelow, List.append_assoc,
    ← List.append_assoc, newest_append, newest_created, ← newest_append]

/-- No key resurfaces in the merge of a whole level. -/
def LevelMergeSafe (now : Nat) (mgr : SSTableManager) (level : Nat) : Prop :=
  ∀ key, ¬ Resurfaces (EValue.isLive now) (mgr.layersFrom 0 level) (mgr.levelLayers level)
    (mgr.layersFrom (level + 1) (mgr.maxLevel - level)) key

/-- No key resurfaces in the merge of a level's oldest file `sst` with the files of
the next level that it overlaps. -/
def OldestMergeSafe (now : Nat) (sst : SSTable) (mgr : SSTableManager) (level : Nat) : Prop :=
  ∀ key, ¬ Resurfaces (EValue.isLive now)
    (mgr.layersFrom 0 level ++ (mgr.levelSstables level).dropLast.map SSTable.get)
    ((sst :: overlapping sst level mgr).map SSTable.get)
    (((mgr.levelSstables (level + 1)).filter fun next => !sst.overlaps next).map SSTable.get ++
      mgr.layersFrom (level + 2) (mgr.maxLevel - (level + 1))) key

theorem uncovers_mergeLevel (hwf : WellFormed cfg mgr)
    (hstrategy : cfg.mergeStrategy = .levelCompaction → mgr.maxLevel ≤ level)
    (hlevel : level ≤ mgr.maxLevel) :
    UncoversUnless (LevelMergeSafe now mgr level) (mgr.visibleAt now)
      ((mergeLevel cfg now level mgr).visibleAt now) := by
  have hmax := (maxLevel_createFromEntries cfg mgr (level + 1)
    (liveEntries now (mergedMap (mgr.levelSstables level)))).2
  have hbefore : mgr.visibleAt now = visible (EValue.isLive now) (mgr.layersFrom 0 level ++
      (mgr.levelLayers level ++ mgr.layersFrom (level + 1) (mgr.maxLevel - level))) := by
    funext key
    rw [visibleAt, visible, get_eq_newest_of_lt hwf.numbered
      (show mgr.maxLevel < level + ((mgr.maxLevel - level) + 1) by omega), layersFrom_add,
      layersFrom_succ, Nat.zero_add]
  have hafter : (mergeLevel cfg now level mgr).visibleAt now = visible (EValue.isLive now)
      (mgr.layersFrom 0 level ++ (fun k => (Std.ExtTreeMap.ofList
        (liveEntries now (mergedMap (mgr.levelSstables level))) compare)[k]?) ::
          mgr.layersFrom (level + 1) (mgr.maxLevel - level)) := by
    funext key
    rw [visibleAt, visible, get_of_merge (wellFormed_mergeLevel hwf hstrategy).numbered _
      levelSstables_mergeLevel (mgr.maxLevel - level) (lt_of_le_of_lt hmax (by omega)),
      List.map_nil, List.append_nil,
      ← layersFrom_extend hwf.numbered (level + 1) (mgr.maxLevel - level) 1 (by omega), layersFrom_succ]
    rfl
  rw [hbefore, hafter]
  exact uncovers_compact fun key => getElem?_liveEntries _ key

/-- The overlapping files of the next level can be read first: they share no key with the others. -/
theorem newest_overlapping (hwf : WellFormed cfg mgr) (hstrategy : cfg.mergeStrategy = .levelCompaction)
    (level : Nat) (sst : SSTable) (key : Bytes) : newest (mgr.levelLayers (level + 1)) key =
      (newest ((overlapping sst level mgr).map SSTable.get) key).or
        (newest (((mgr.levelSstables (level + 1)).filter fun next => !sst.overlaps next).map
          SSTable.get) key) := by
  have hdisjoint : KeyDisjoint (mgr.levelLayers (level + 1)) :=
    List.pairwise_map.2 ((hwf.disjoint hstrategy _ (Nat.le_add_left 1 level)).imp fun h =>
      SSTable.disjoint_of_not_overlaps h)
  have hperm : (mgr.levelLayers (level + 1)).Perm _ :=
    ((List.filter_append_perm sst.overlaps (mgr.levelSstables (level + 1))).map SSTable.get).symm
  rw [newest_perm hperm hdisjoint, List.map_append, newest_append]
  rfl

theorem uncovers_mergeOldest (hwf : WellFormed cfg mgr) (hstrategy : cfg.mergeStrategy = .levelCompaction)
    (hlevel : level < mgr.maxLevel) {newer : List SSTable} {sst : SSTable}
    (hfiles : mgr.levelSstables level = newer ++ [sst]) :
    UncoversUnless (OldestMergeSafe now sst mgr level) (mgr.visibleAt now)
      ((mergeOldest cfg now sst level mgr).visibleAt now) := by
  have hmax := (maxLevel_createFromEntries cfg mgr (level + 1)
    (liveEntries now (mergedMap (sst :: overlapping sst level mgr)))).2
  have hsplit := newest_overlapping hwf hstrategy level sst
  have hbefore : mgr.visibleAt now = visible (EValue.isLive now)
      ((mgr.layersFrom 0 level ++ (mgr.levelSstables level).dropLast.map SSTable.get) ++
        ((sst :: overlapping sst level mgr).map SSTable.get ++
          (((mgr.levelSstables (level + 1)).filter fun next => !sst.overlaps next).map SSTable.get ++
            mgr.layersFrom (level + 2) (mgr.maxLevel - (level + 1))))) := by
    funext key
    have hnewer : mgr.levelLayers level = newer.map SSTable.get ++ [sst.get] := by
      rw [levelLayers, hfiles, List.map_append]
      rfl
    rw [visibleAt, visible, get_eq_newest_around hwf.numbered
      (show mgr.maxLevel < level + 2 + (mgr.maxLevel - (level + 1)) by omega), hnewer, hfiles,
      List.dropLast_concat]
    simp only [newest_append, newest_cons, newest_nil, List.map_cons, hsplit, Option.or_assoc,
      Option.or_none]
  have hafter : (mergeOldest cfg now sst level mgr).visibleAt now = visible (EValue.isLive now)
      ((mgr.layersFrom 0 level ++ (mgr.levelSstables level).dropLast.map SSTable.get) ++
        (fun k => (Std.ExtTreeMap.ofList (liveEntries now
          (mergedMap (sst :: overlapping sst level mgr))) compare)[k]?) ::
          (((mgr.levelSstables (level + 1)).filter fun next => !sst.overlaps next).map SSTable.get ++
            mgr.layersFrom (level + 2) (mgr.maxLevel - (level + 1)))) := by
    funext key
    rw [visibleAt, visible, get_of_merge (wellFormed_mergeOldest hwf hfiles).numbered _
      (levelSstables_mergeOldest hwf.numbered hfiles) (mgr.maxLevel - (level + 1))
      (lt_of_le_of_lt hmax (by omega)), hfiles, List.dropLast_concat]
  rw [hbefore, hafter]
  exact uncovers_compact fun key => getElem?_liveEntries _ key

end Visible

section Cascade

variable (cfg now)

/-- The merge that `merge_sstables_by_strategy_0` makes is safe, and so are those
that follow it. -/
def Strategy0Safe (safe : SSTableManager → Nat → Prop) (mgr : SSTableManager) (level : Nat) :
    Prop :=
  mgr.levelSstables level ≠ [] →
    LevelMergeSafe now mgr level ∧ safe (mergeLevel cfg now level mgr) (level + 1)

/-- The merge that `merge_sstables_by_strategy_1` makes is safe, and so are those
that follow it. -/
def Strategy1Safe (recur : SSTableManager → Nat → Option (Bool × SSTableManager))
    (safe : SSTableManager → Nat → Prop) (mgr : SSTableManager) (level : Nat) : Prop :=
  if level = mgr.maxLevel then Strategy0Safe cfg now safe mgr level
  else
    ∀ sst, (mgr.levelSstables level).getLast? = some sst →
      OldestMergeSafe now sst mgr level ∧ safe (mergeOldest cfg now sst level mgr) level ∧
        ∀ r, recur (mergeOldest cfg now sst level mgr) level = some r → safe r.2 (level + 1)

/-- In each single merge that `merge_sstables` performs, in the state in which it is
performed, no key resurfaces. -/
def MergesSafe : Nat → SSTableManager → Nat → Prop
  | 0, _, _ => True
  | fuel + 1, mgr, level =>
      level ≤ mgr.maxLevel → shouldMerge cfg mgr level = true →
        match cfg.mergeStrategy with
        | .sizeTieredCompaction => Strategy0Safe cfg now (MergesSafe fuel) mgr level
        | .levelCompaction =>
            Strategy1Safe cfg now (mergeSstables cfg now fuel) (MergesSafe fuel) mgr level

variable {cfg now}

/-- What is shown of a call: the manager stays well formed, no visible version is
lost, and none is changed exactly when the call is safe. -/
def CallOutcome (cfg : SSTableConfig) (now : Nat) (mgr mgr' : SSTableManager) (safe : Prop) :
    Prop :=
  WellFormed cfg mgr' ∧ UncoversUnless safe (mgr.visibleAt now) (mgr'.visibleAt now)

theorem outcome_strategy0 (hwf : WellFormed cfg mgr)
    (hstrategy : cfg.mergeStrategy = .levelCompaction → mgr.maxLevel ≤ level)
    (hlevel : level ≤ mgr.maxLevel)
    {recur : SSTableManager → Nat → Option (Bool × SSTableManager)}
    {safe : SSTableManager → Nat → Prop}
    (hrecur : ∀ m l r, WellFormed cfg m → recur m l = some r → CallOutcome cfg now m r.2 (safe m l))
    {r : Bool × SSTableManager} (hrun : mergeSstablesByStrategy0 cfg now recur mgr level = some r) :
    CallOutcome cfg now mgr r.2 (Strategy0Safe cfg now safe mgr level) := by
  rw [mergeSstablesByStrategy0] at hrun
  by_cases hempty : mgr.levelSstables level = []
  · rw [hempty, List.isEmpty_nil, if_pos rfl] at hrun
    obtain rfl := Option.some.inj hrun
    exact ⟨hwf, UncoversUnless.rfl.congr ⟨fun _ h => absurd hempty h, fun _ => trivial⟩⟩
  · rw [if_neg (by simpa using hempty)] at hrun
    obtain ⟨r', hr', hret⟩ := Option.bind_eq_some_iff.1 hrun
    obtain rfl := Option.some.inj hret
    have hmerge : UncoversUnless _ (mgr.visibleAt now) _ := uncovers_mergeLevel hwf hstrategy hlevel
    obtain ⟨hwf', hrest⟩ := hrecur _ _ _ (wellFormed_mergeLevel hwf hstrategy) hr'
    refine ⟨hwf', (hmerge.trans hrest).congr ⟨fun h _ => h, fun h => h hempty⟩⟩

theorem outcome_strategy1 (hwf : WellFormed cfg mgr)
    (hstrategy : cfg.mergeStrategy = .levelCompaction) (hlevel : level ≤ mgr.maxLevel)
    {recur : SSTableManager → Nat → Option (Bool × SSTableManager)}
    {safe : SSTableManager → Nat → Prop}
    (hrecur : ∀ m l r, WellFormed cfg m → recur m l = some r → CallOutcome cfg now m r.2 (safe m l))
    {r : Bool × SSTableManager} (hrun : mergeSstablesByStrategy1 cfg now recur mgr level = some r) :
    CallOutcome cfg now mgr r.2 (Strategy1Safe cfg now recur safe mgr level) := by
  rw [mergeSstablesByStrategy1] at hrun
  unfold Strategy1Safe
  split_ifs at hrun ⊢ with htop
  · exact outcome_strategy0 hwf (fun _ => Nat.le_of_eq htop.symm) hlevel hrecur hrun
  · cases hlast : (mgr.levelSstables level).getLast? with
    | none =>
        rw [hlast] at hrun
        obtain rfl := Option.some.inj hrun
        exact ⟨hwf, UncoversUnless.rfl.congr ⟨fun _ _ h => absurd h (by simp), fun _ => trivial⟩⟩
    | some sst =>
        obtain ⟨newer, hfiles⟩ := List.getLast?_eq_some_iff.1 hlast
        rw [hlast] at hrun
        obtain ⟨r₁, hr₁, hrun⟩ := Option.bind_eq_some_iff.1 hrun
        obtain ⟨r₂, hr₂, hret⟩ := Option.bind_eq_some_iff.1 hrun
        obtain rfl := Option.some.inj hret
        have hmerge : UncoversUnless _ (mgr.visibleAt now) _ := uncovers_mergeOldest hwf hstrategy
          (lt_of_le_of_ne hlevel htop) hfiles
        obtain ⟨hwf₁, hcall₁⟩ := hrecur _ _ _ (wellFormed_mergeOldest hwf hfiles) hr₁
        obtain ⟨hwf₂, hcall₂⟩ := hrecur _ _ _ hwf₁ hr₂
        refine ⟨hwf₂, ((hmerge.trans hcall₁).trans hcall₂).congr ⟨?_, fun h => ?_⟩⟩
        · rintro ⟨⟨h₀, h₁⟩, h₂⟩ sst' heq
          obtain rfl := Option.some.inj heq
          exact ⟨h₀, h₁, fun r hr => Option.some.inj (hr₁.symm.trans hr) ▸ h₂⟩
        · obtain ⟨h₀, h₁, h₂⟩ := h sst rfl
          exact ⟨⟨h₀, h₁⟩, h₂ r₁ hr₁⟩

theorem outcome_mergeSstables (fuel : Nat) : ∀ (mgr : SSTableManager) (level : Nat)
    (r : Bool × SSTableManager), WellFormed cfg mgr →
      mergeSstables cfg now fuel mgr level = some r →
        CallOutcome cfg now mgr r.2 (MergesSafe cfg now fuel mgr level) := by
  induction fuel with
  | zero => intro mgr level r _ hrun; cases hrun
  | succ fuel ih =>
      intro mgr level r hwf hrun
      rw [mergeSstables] at hrun
      rw [MergesSafe]
      by_cases hlevel : mgr.maxLevel < level
      · rw [if_pos hlevel] at hrun
        obtain rfl := Option.some.inj hrun
        exact ⟨hwf, UncoversUnless.rfl.congr
          ⟨fun _ h => absurd h (Nat.not_le_of_lt hlevel), fun _ => trivial⟩⟩
      rw [if_neg hlevel] at hrun
      have hle := Nat.le_of_not_lt hlevel
      by_cases hshould : shouldMerge cfg mgr level = true
      · rw [if_pos hshould] at hrun
        rw [forall_prop_of_true hle, forall_prop_of_true hshould]
        cases hstrategy : cfg.mergeStrategy with
        | sizeTieredCompaction =>
            rw [hstrategy] at hrun
            exact outcome_strategy0 hwf (fun h => by rw [hstrategy] at h; cases h) hle ih hrun
        | levelCompaction =>
            rw [hstrategy] at hrun
            exact outcome_strategy1 hwf hstrategy hle ih hrun
      · rw [if_neg hshould] at hrun
        obtain rfl := Option.some.inj hrun
        exact ⟨hwf, UncoversUnless.rfl.congr ⟨fun _ _ h => absurd h hshould, fun _ => trivial⟩⟩

end Cascade

end Steps

section Reachable

variable {cfg : SSTableConfig} {mgr : SSTableManager} {now level : Nat}

theorem wellFormed_empty (cfg : SSTableConfig) : WellFormed cfg empty :=
  ⟨fun _ _ => rfl, fun _ _ h => absurd h List.not_mem_nil, fun _ => List.Pairwise.nil,
    fun _ _ _ => List.Pairwise.nil⟩

/-- A call whose level is below its limit changes nothing. -/
theorem mergeSstables_quiet {fuel : Nat} (now : Nat) (hfuel : 0 < fuel)
    (hquiet : shouldMerge cfg mgr 0 = false) :
    mergeSstables cfg now fuel mgr 0 = some (true, mgr) := by
  obtain ⟨n, rfl⟩ := Nat.exists_eq_succ_of_ne_zero (Nat.ne_of_gt hfuel)
  rw [mergeSstables, if_neg (Nat.not_lt_zero _), hquiet, if_neg Bool.false_ne_true]

theorem wellFormed_createFromEntries (hwf : WellFormed cfg mgr) (entries : List (Bytes × EValue))
    (hlevel : cfg.mergeStrategy = .levelCompaction → level = 0) :
    WellFormed cfg (createFromEntries cfg entries level mgr).2 := by
  have hmax := maxLevel_createFromEntries cfg mgr level entries
  have hnum := nextSequenceNumber_createFromEntries cfg mgr level entries
  have hcases : ∀ i, (createFromEntries cfg entries level mgr).2.levelSstables i =
      if i = level then
        (createFromEntries cfg entries level mgr).1.toList ++ mgr.levelSstables level
      else mgr.levelSstables i := by
    intro i
    rw [levelSstables_createFromEntries, Function.update_apply]
  refine ⟨fun i hi => ?_, fun i sst hsst => ?_, fun i => ?_, fun hstrategy i hi => ?_⟩
  · have hold : mgr.levelSstables i = [] := hwf.above_max i (by omega)
    rw [hcases]
    split_ifs with h₁
    · subst h₁
      rw [hold, List.append_nil]
      refine List.eq_nil_iff_forall_not_mem.2 fun sst hsst => ?_
      have := (created_spec hsst).2.2.2
      omega
    · exact hold
  · rw [hcases] at hsst
    split_ifs at hsst with h₁
    · exact number_lt_created hwf.numbered (fun s hs => hs) sst hsst
    · exact lt_of_lt_of_le (hwf.number_lt i sst hsst) hnum
  · rw [hcases]
    split_ifs with h₁
    · refine pairwise_created (hwf.number_distinct _) fun sst hsst old hold => ?_
      rw [(created_spec hsst).2.1]
      exact Nat.ne_of_gt (hwf.number_lt _ old hold)
    · exact hwf.number_distinct i
  · rw [hcases, if_neg (by have := hlevel hstrategy; omega)]
    exact hwf.disjoint hstrategy i hi

/-- Every manager that flushes can reach from the empty directory is well formed. -/
theorem wellFormed_createNewSstable (hwf : WellFormed cfg mgr) {fuel : Nat}
    {entries : List (Bytes × EValue)} {r : Option SSTable × SSTableManager}
    (hrun : createNewSstable cfg now fuel entries mgr = some r) : WellFormed cfg r.2 := by
  have hcreate : WellFormed cfg (createFromEntries cfg entries 0 mgr).2 :=
    wellFormed_createFromEntries hwf entries fun _ => rfl
  unfold createNewSstable at hrun
  split at hrun
  · next h =>
      obtain rfl := Option.some.inj hrun
      rw [h] at hcreate
      exact hcreate
  · next h =>
      rw [h] at hcreate
      obtain ⟨r', hr', hret⟩ := Option.bind_eq_some_iff.1 hrun
      obtain rfl := Option.some.inj hret
      exact (outcome_mergeSstables fuel _ _ r' hcreate hr').1

/-- **Compaction keeps the visible versions exactly when nothing resurfaces.** After a
call of `merge_sstables`, with the merges it triggers, every key has the visible
version it had before if and only if in none of these merges a dropped tombstone or
expired version was hiding a live version further down. -/
theorem visible_mergeSstables_iff (fuel : Nat) (ok : Bool) (mgr' : SSTableManager)
    (hwf : WellFormed cfg mgr) (hrun : mergeSstables cfg now fuel mgr level = some (ok, mgr')) :
    (∀ key, mgr'.visibleAt now key = mgr.visibleAt now key) ↔ MergesSafe cfg now fuel mgr level :=
  (outcome_mergeSstables fuel mgr level _ hwf hrun).2.same_iff

/-- Two files in level 0 start a merge. -/
def pairConfig : SSTableConfig := ⟨.sizeTieredCompaction, 2, fun _ _ => false, List.length⟩

/-- A value of the key 1 in level 1, under its tombstone and a file of the key 2 in
level 0. -/
def shadowedManager : SSTableManager :=
  let old := (createFromEntries pairConfig [([1], { value := .string [7] })] 1 empty).2
  let removed := (createFromEntries pairConfig [([1], { deleted := true })] 0 old).2
  (createFromEntries pairConfig [([2], { value := .string [8] })] 0 removed).2

theorem wellFormed_shadowedManager : WellFormed pairConfig shadowedManager := by
  refine wellFormed_createFromEntries (wellFormed_createFromEntries (wellFormed_createFromEntries
    (wellFormed_empty _) _ fun h => ?_) _ fun h => ?_) _ fun h => ?_
  all_goals cases h

theorem visible_shadowedManager :
    shadowedManager.visibleAt 0 [1] = none ∧
      (mergeSstables pairConfig 0 3 shadowedManager 0).map (fun r => r.2.visibleAt 0 [1]) =
        some (some { value := .string [7] }) := by
  decide

/-- The merge of level 0 drops the tombstone, and the value in level 1 resurfaces. -/
theorem mergeSstables_resurfaces :
    ¬ ∀ (cfg : SSTableConfig) (now fuel level : Nat) (ok : Bool) (mgr mgr' : SSTableManager),
      WellFormed cfg mgr → mergeSstables cfg now fuel mgr level = some (ok, mgr') →
        ∀ key, mgr'.visibleAt now key = mgr.visibleAt now key := by
  intro hall
  obtain ⟨hbefore, hafter⟩ := visible_shadowedManager
  obtain ⟨r, hrun, hvisible⟩ := Option.map_eq_some_iff.1 hafter
  rw [hall _ _ _ _ _ _ _ wellFormed_shadowedManager hrun [1], hbefore] at hvisible
  cases hvisible

theorem visible_mergeSstables_iff_shadowed : ¬ MergesSafe pairConfig 0 3 shadowedManager 0 := by
  obtain ⟨hbefore, hafter⟩ := visible_shadowedManager
  obtain ⟨r, hrun, hvisible⟩ := Option.map_eq_some_iff.1 hafter
  intro hsafe
  rw [(visible_mergeSstables_iff 3 _ _ wellFormed_shadowedManager hrun).2 hsafe [1],
    hbefore] at hvisible
  cases hvisible

end Reachable

end SSTableManager

end EyaKV.Store
