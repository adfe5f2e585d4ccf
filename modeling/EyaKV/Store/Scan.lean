import EyaKV.Store.Refinement
import Std.Data.ExtTreeSet

/-!
# Scans of the store

`range` and `keys` do not use the lookup of `get`. Each visits every entry of the
store, the SSTables from the oldest on, then the immutable memtables, then the
memtable, and lets later entries override earlier ones. What they end with for a key
is the last version visited (`lastVisited`), and they list a key exactly when that
version is live (`mem_range_iff`, `mem_keys_iff`).

The immutable memtables are visited from the newest to the oldest, the order in which
`get` looks for the first hit. In a walk that overrides, the oldest one wins. So a scan
agrees with the newest versions exactly when no key of it lies in several immutable
memtables whose oldest version reads differently from the newest
(`scans_newest_iff`).
-/

set_option autoImplicit false

namespace EyaKV.Store

open EyaKV.Base EyaKV.Base.Layers

/-- `SSTable::for_each`, with a callback that never stops the walk. -/
def SSTable.forEach {α : Type} (sst : SSTable) (callback : α → Bytes × EValue → α) (acc : α) : α :=
  sst.entries.toList.foldl callback acc

/-- `MemTable::for_each`. -/
def MemTable.forEach {α : Type} (m : MemTable) (callback : α → Bytes × EValue → α) (acc : α) : α :=
  m.getAllEntries.foldl callback acc

namespace SSTableManager

/-- The files in the order of `for_each_oldest`: levels from the highest down, each
from its oldest file. -/
def oldestFirst (mgr : SSTableManager) : List SSTable :=
  (List.range (mgr.maxLevel + 1)).reverse.flatMap fun i => (mgr.levelSstables i).reverse

/-- `SSTableManager::for_each_oldest`. -/
def forEachOldest {α : Type} (mgr : SSTableManager) (callback : α → Bytes × EValue → α)
    (acc : α) : α :=
  mgr.oldestFirst.foldl (fun acc sst => sst.forEach callback acc) acc

/-- The callback of the range queries: the last version of a key in the range wins. -/
def setWithin (startKey endKey : Bytes) (map : StrMap EValue) (e : Bytes × EValue) :
    StrMap EValue :=
  if !strLt e.1 startKey && !strLt endKey e.1 then map.insert e.1 e.2 else map

/-- `SSTableManager::range_query`. -/
def rangeQuery (mgr : SSTableManager) (startKey endKey : Bytes) : StrMap EValue :=
  mgr.forEachOldest (setWithin startKey endKey) ∅

end SSTableManager

namespace Storage

open SSTableManager (setWithin)

/-- `Storage::range`: the immutable memtables are walked from the newest name to the
oldest. -/
def range (now : Nat) (st : Storage) (startKey endKey : Bytes) : List (Bytes × EyaValue) :=
  let mergedResults := st.sstableManager.rangeQuery startKey endKey
  let mergedResults := st.immutableMemtables.toList.reverse.foldl
    (fun acc imm => imm.2.forEach (setWithin startKey endKey) acc) mergedResults
  let mergedResults := st.memtable.forEach (setWithin startKey endKey) mergedResults
  mergedResults.toList.filterMap fun e =>
    if e.2.isDeleted || e.2.isExpired now then none else some (e.1, e.2.value)

/-- The callback of `Storage::keys`. -/
def collectKey (now : Nat) (regexMatch : Bytes → Bool) (result : Std.ExtTreeSet Bytes compare)
    (e : Bytes × EValue) : Std.ExtTreeSet Bytes compare :=
  if e.2.isDeleted || e.2.isExpired now then result.erase e.1
  else if regexMatch e.1 then result.insert e.1
  else result

/-- `Storage::keys`, for a pattern that compiles to the test `regexMatch`. -/
def keys (now : Nat) (st : Storage) (regexMatch : Bytes → Bool) : Std.ExtTreeSet Bytes compare :=
  let result := st.sstableManager.forEachOldest (collectKey now regexMatch) ∅
  let result := st.immutableMemtables.toList.reverse.foldl
    (fun acc imm => imm.2.forEach (collectKey now regexMatch) acc) result
  st.memtable.forEach (collectKey now regexMatch) result

section Visits

/-- All entries of the store in the order in which the scans visit them. -/
def visited (st : Storage) : List (Bytes × EValue) :=
  st.sstableManager.oldestFirst.flatMap (fun sst => sst.entries.toList) ++
    st.immutableMemtables.toList.reverse.flatMap (fun imm => imm.2.getAllEntries) ++
      st.memtable.getAllEntries

/-- What a reader sees of a version: its value, when it is live. -/
def readOf (now : Nat) (version : Option EValue) : Option EyaValue :=
  (version.filter (EValue.isLive now)).map EValue.value

/-- The version of `key` that a scan visits last. -/
def lastVisited (st : Storage) (key : Bytes) : Option EValue := lastOf st.visited key

variable {now : Nat} {st : Storage}

/-- A walk over a list of parts is one walk over all their entries. -/
theorem foldl_forEach {α ι : Type} (callback : α → Bytes × EValue → α)
    (entries : ι → List (Bytes × EValue)) (l : List ι) (acc : α) :
    l.foldl (fun acc i => (entries i).foldl callback acc) acc =
      (l.flatMap entries).foldl callback acc := by
  rw [List.flatMap, List.foldl_flatten, List.foldl_map]

theorem range_eq (startKey endKey : Bytes) :
    st.range now startKey endKey =
      (st.visited.foldl (setWithin startKey endKey) ∅).toList.filterMap fun e =>
        if e.2.isDeleted || e.2.isExpired now then none else some (e.1, e.2.value) := by
  simp only [range, SSTableManager.rangeQuery, SSTableManager.forEachOldest, SSTable.forEach,
    MemTable.forEach, visited, List.foldl_append, foldl_forEach]

theorem keys_eq (regexMatch : Bytes → Bool) :
    st.keys now regexMatch = st.visited.foldl (collectKey now regexMatch) ∅ := by
  simp only [keys, SSTableManager.forEachOldest, SSTable.forEach, MemTable.forEach, visited,
    List.foldl_append, foldl_forEach]

/-- The files in walk order are the layers of the SSTables in reverse. -/
theorem reverse_oldestFirst (mgr : SSTableManager) :
    mgr.oldestFirst.reverse.map SSTable.get = mgr.layersFrom 0 (mgr.maxLevel + 1) := by
  rw [SSTableManager.oldestFirst, List.reverse_flatMap, List.reverse_reverse, List.map_flatMap,
    SSTableManager.layersFrom, List.range_eq_range']
  refine List.flatMap_congr fun i _ => ?_
  simp [SSTableManager.levelLayers]

/-- The oldest version that an immutable memtable has of a key. -/
def getFromOldestImmutable (st : Storage) (key : Bytes) : Option EValue :=
  st.immutableMemtables.toList.findSome? fun imm => imm.2.get key

/-- A scan prefers the memtable, then the oldest immutable memtable, then the newest
SSTable. -/
theorem lastVisited_eq (st : Storage) (key : Bytes) :
    st.lastVisited key = (st.memtable.get key).or
      ((st.getFromOldestImmutable key).or (st.sstableManager.get key)) := by
  have hsst : ∀ sst : SSTable, Lists sst.entries.toList sst.get :=
    fun sst k v => Std.ExtTreeMap.mem_toList_iff_getElem?_eq_some
  have himm : ∀ m : MemTable, Lists m.getAllEntries m.get :=
    fun m k v => MemTable.mem_getAllEntries_iff
  rw [lastVisited, visited, lastOf_append, lastOf_append, lastOf_of_lists (himm _),
    lastOf_flatMap _ (fun imm => imm.2.get) (fun imm => himm _),
    lastOf_flatMap _ SSTable.get hsst, reverse_oldestFirst, ← SSTableManager.get_eq_newest,
    List.reverse_reverse, newest, List.findSome?_map]
  rfl

end Visits

section Walks

variable {now : Nat} {st : Storage}

/-- What a range walk has collected. -/
theorem getElem?_walk_setWithin (startKey endKey : Bytes) (l : List (Bytes × EValue))
    (key : Bytes) :
    (l.foldl (setWithin startKey endKey) ∅)[key]? =
      if startKey ≤ key ∧ key ≤ endKey then lastOf l key else none := by
  induction l using List.reverseRecOn with
  | nil => simp
  | append_singleton l e ih =>
      have htest : (!strLt e.1 startKey && !strLt endKey e.1) =
          decide (startKey ≤ e.1 ∧ e.1 ≤ endKey) := by
        rw [Bool.eq_iff_iff]
        simp [strLt_iff, ← Bool.not_eq_true]
      rw [List.foldl_append, List.foldl_cons, List.foldl_nil, setWithin, htest, lastOf_concat]
      by_cases hkey : key = e.1
      · subst hkey
        by_cases hin : startKey ≤ e.1 ∧ e.1 ≤ endKey
        · simp [hin]
        · simp only [hin, decide_false, Bool.false_eq_true, ↓reduceIte, ih]
      · rw [if_neg hkey, ← ih]
        split
        · rw [Std.ExtTreeMap.getElem?_insert, if_neg]
          simpa using Ne.symm hkey
        · rfl

/-- What a key walk has collected. -/
theorem mem_walk_collectKey (regexMatch : Bytes → Bool) (l : List (Bytes × EValue))
    (key : Bytes) :
    key ∈ l.foldl (collectKey now regexMatch) ∅ ↔
      regexMatch key = true ∧ ∃ v, lastOf l key = some v ∧ v.isLive now = true := by
  induction l using List.reverseRecOn with
  | nil => simp
  | append_singleton l e ih =>
      rw [List.foldl_append, List.foldl_cons, List.foldl_nil, lastOf_concat]
      -- The entry decides for its own key; for any other key nothing changes.
      by_cases hkey : key = e.1
      · subst hkey
        cases hlive : e.2.isLive now with
        | false =>
            have hdead := EValue.isLive_eq_false_iff.1 hlive
            simp [collectKey, hdead, hlive]
        | true =>
            have hdead := EValue.isLive_eq_true_iff.1 hlive
            cases hmatch : regexMatch e.1 with
            | false => simp [collectKey, hdead, hmatch, ih]
            | true => simp [collectKey, hdead, hmatch, hlive]
      · have hother : compare e.1 key ≠ .eq := by simpa using Ne.symm hkey
        rw [if_neg hkey, ← ih, collectKey]
        split
        · simp [hother]
        · split
          · simp [hother]
          · rfl

/-- **A range lists the live last visited versions, in ascending key order.** -/
theorem mem_range_iff (now : Nat) (st : Storage) (startKey endKey : Bytes) :
    ((st.range now startKey endKey).Pairwise fun a b => a.1 < b.1) ∧
      ∀ key value, (key, value) ∈ st.range now startKey endKey ↔
        startKey ≤ key ∧ key ≤ endKey ∧
          readOf now (st.lastVisited key) = some value := by
  rw [range_eq]
  constructor
  · -- the scan collects into an ordered map, and leaving out the dead versions keeps the order
    refine List.Pairwise.filterMap _ ?_ Std.ExtTreeMap.ordered_keys_toList
    rintro ⟨k, v⟩ ⟨k', v'⟩ hlt b hb b' hb'
    split at hb
    · cases hb
    · split at hb'
      · cases hb'
      · obtain rfl := Option.some.inj hb
        obtain rfl := Option.some.inj hb'
        exact (compare_eq_lt_iff _ _).1 hlt
  · intro key value
    simp only [List.mem_filterMap, Std.ExtTreeMap.mem_toList_iff_getElem?_eq_some, Prod.exists,
      getElem?_walk_setWithin]
    constructor
    · rintro ⟨k, v, hlast, hlive⟩
      split at hlast
      · next hin =>
          split at hlive
          · cases hlive
          · next hdead =>
              obtain ⟨rfl, rfl⟩ := Prod.mk.inj (Option.some.inj hlive)
              have hv : v.isLive now = true :=
                EValue.isLive_eq_true_iff.2 (Bool.eq_false_iff.2 hdead)
              refine ⟨hin.1, hin.2, ?_⟩
              rw [readOf, lastVisited, hlast, Option.filter_some, hv]
              rfl
      · cases hlast
    · rintro ⟨hstart, hend, hvalue⟩
      obtain ⟨v, hv, rfl⟩ := Option.map_eq_some_iff.1 hvalue
      obtain ⟨hlast, hlive⟩ := Option.filter_eq_some_iff.1 hv
      refine ⟨key, v, ?_, ?_⟩
      · rw [if_pos ⟨hstart, hend⟩]
        exact hlast
      · rw [EValue.isLive_eq_true_iff.1 hlive]
        rfl

/-- **The keys that match and whose last visited version is live are listed.** -/
theorem mem_keys_iff (now : Nat) (st : Storage) (regexMatch : Bytes → Bool) (key : Bytes) :
    key ∈ st.keys now regexMatch ↔
      regexMatch key = true ∧ ∃ v, st.lastVisited key = some v ∧ v.isLive now = true := by
  rw [keys_eq, mem_walk_collectKey]
  rfl

end Walks

section Agreement

variable {now : Nat} {st : Storage}

/-- What `Storage::range` is to return: the live newest versions in the range, each
key once and in ascending order. -/
def IsRangeOf (now : Nat) (st : Storage) (startKey endKey : Bytes)
    (listing : List (Bytes × EyaValue)) : Prop :=
  (listing.Pairwise fun a b => a.1 < b.1) ∧
    ∀ key value, (key, value) ∈ listing ↔
      startKey ≤ key ∧ key ≤ endKey ∧
        ∃ v, st.newestOf key = some v ∧ v.isLive now = true ∧ v.value = value

/-- What `Storage::keys` is to return: the matching keys whose newest version is live. -/
def IsKeysOf (now : Nat) (st : Storage) (regexMatch : Bytes → Bool)
    (listing : Std.ExtTreeSet Bytes compare) : Prop :=
  ∀ key, key ∈ listing ↔
    regexMatch key = true ∧ ∃ v, st.newestOf key = some v ∧ v.isLive now = true

/-- The key is not in the memtable, and its newest and its oldest version in the
immutable memtables read differently. -/
def ReadsBackwards (now : Nat) (st : Storage) (key : Bytes) : Prop :=
  st.memtable.get key = none ∧
    readOf now (st.getFromImmutableMemtables key) ≠ readOf now (st.getFromOldestImmutable key)

/-- The key is not in the memtable, and one of its newest and its oldest version in the
immutable memtables is live, the other is not. -/
def ListsBackwards (now : Nat) (st : Storage) (key : Bytes) : Prop :=
  st.memtable.get key = none ∧
    (readOf now (st.getFromImmutableMemtables key)).isSome ≠
      (readOf now (st.getFromOldestImmutable key)).isSome

theorem readOf_eq_some_iff {version : Option EValue} {value : EyaValue} :
    readOf now version = some value ↔
      ∃ v, version = some v ∧ v.isLive now = true ∧ v.value = value := by
  simp only [readOf, Option.map_eq_some_iff, Option.filter_eq_some_iff, and_assoc]

theorem isSome_readOf {version : Option EValue} :
    (readOf now version).isSome = true ↔ ∃ v, version = some v ∧ v.isLive now = true := by
  rw [Option.isSome_iff_exists]
  simp only [readOf_eq_some_iff]
  constructor
  · rintro ⟨_, v, hv, hlive, -⟩
    exact ⟨v, hv, hlive⟩
  · rintro ⟨v, hv, hlive⟩
    exact ⟨v.value, v, hv, hlive, rfl⟩

/-- An immutable memtable with a version of the key exists for both orders or for
neither. -/
theorem getFromOldestImmutable_eq_none_iff (st : Storage) (key : Bytes) :
    st.getFromOldestImmutable key = none ↔ st.getFromImmutableMemtables key = none := by
  rw [getFromOldestImmutable, getFromImmutableMemtables, List.findSome?_eq_none_iff,
    List.findSome?_eq_none_iff]
  simp

/-- For a property of versions that absent and dead versions share, the last visited
version has it as the newest one does, up to the two ends of the immutable
memtables. -/
theorem lastVisited_congr {α : Type} (f : Option EValue → α) (key : Bytes) :
    f (st.lastVisited key) = f (st.newestOf key) ↔
      ¬ (st.memtable.get key = none ∧
        f (st.getFromImmutableMemtables key) ≠ f (st.getFromOldestImmutable key)) := by
  rw [lastVisited_eq, newestOf_eq, newest_olderLayers]
  cases st.memtable.get key with
  | some v => simp
  | none =>
      cases hold : st.getFromOldestImmutable key with
      | none => simp [(getFromOldestImmutable_eq_none_iff st key).1 hold]
      | some w =>
          cases hnew : st.getFromImmutableMemtables key with
          | none =>
              rw [(getFromOldestImmutable_eq_none_iff st key).2 hnew] at hold
              cases hold
          | some u => simp [eq_comm]

theorem isRangeOf_range_iff (startKey endKey : Bytes) :
    IsRangeOf now st startKey endKey (st.range now startKey endKey) ↔
      ∀ key, startKey ≤ key → key ≤ endKey → ¬ st.ReadsBackwards now key := by
  obtain ⟨hsorted, hmem⟩ := mem_range_iff now st startKey endKey
  simp only [IsRangeOf, hsorted, true_and, hmem, ← readOf_eq_some_iff]
  constructor
  · intro h key hstart hend
    refine (lastVisited_congr (readOf now) key).1 (Option.ext fun value => ?_)
    simpa [hstart, hend] using h key value
  · intro h key value
    by_cases hin : startKey ≤ key ∧ key ≤ endKey
    · rw [← (lastVisited_congr (readOf now) key).2 (h key hin.1 hin.2)]
    · constructor
      · rintro ⟨hstart, hend, -⟩
        exact absurd ⟨hstart, hend⟩ hin
      · rintro ⟨hstart, hend, -⟩
        exact absurd ⟨hstart, hend⟩ hin

theorem isKeysOf_keys_iff (regexMatch : Bytes → Bool) :
    IsKeysOf now st regexMatch (st.keys now regexMatch) ↔
      ∀ key, regexMatch key = true → ¬ st.ListsBackwards now key := by
  simp only [IsKeysOf, mem_keys_iff, ← isSome_readOf]
  refine forall_congr' fun key => ?_
  rw [and_congr_right_iff]
  refine imp_congr_right fun _ => ?_
  rw [← Bool.eq_iff_iff]
  exact lastVisited_congr (fun version => (readOf now version).isSome) key

/-- **A scan agrees with the newest versions exactly where the immutable memtables do
not disagree.** In every state, a range is right if and only if no key in it reads
backwards, and a key listing if and only if no matching key lists backwards. -/
theorem scans_newest_iff (now : Nat) (st : Storage) :
    (∀ startKey endKey, IsRangeOf now st startKey endKey (st.range now startKey endKey) ↔
      ∀ key, startKey ≤ key → key ≤ endKey → ¬ st.ReadsBackwards now key) ∧
    (∀ regexMatch, IsKeysOf now st regexMatch (st.keys now regexMatch) ↔
      ∀ key, regexMatch key = true → ¬ st.ListsBackwards now key) :=
  ⟨isRangeOf_range_iff, isKeysOf_keys_iff⟩

/-- A key is written, the memtable is rotated, and both again. -/
def rewrittenScript : List (Env × StoreOp) :=
  [(tick 2, .writeMemtable [107] { value := .string [49] }), (tick 3, .rotateMemtable),
    (tick 4, .writeMemtable [107] { value := .string [50] }), (tick 5, .rotateMemtable)]

theorem runMeets_rewrittenScript :
    RunMeets roomyConfig (openEmpty roomyConfig (tick 1)) rewrittenScript := by
  refine ⟨fun h => absurd h (by decide), fun r hr => ?_⟩
  obtain rfl := Option.some.inj hr
  refine ⟨show FreshName _ _ _ by decide, fun r hr => ?_⟩
  obtain rfl := Option.some.inj hr
  refine ⟨fun h => absurd h (by decide), fun r hr => ?_⟩
  obtain rfl := Option.some.inj hr
  exact ⟨show FreshName _ _ _ by decide, fun r _ => trivial⟩

theorem range_rewrittenScript :
    (run roomyConfig (openEmpty roomyConfig (tick 1)) rewrittenScript).map
      (fun r => (r.1.range 0 [107] [107], r.1.newestOf [107])) =
        some ([([107], .string [49])], some { value := .string [50] }) := by
  decide

/-- The range returns the overwritten value. -/
theorem range_after_rewrite :
    ¬ ∀ (cfg : StorageConfig) (start : Env) (script : List (Env × StoreOp)) (st : Storage)
      (history : List (Nat × StoreOp)), ClockRuns start script →
        RunMeets cfg (openEmpty cfg start) script →
        run cfg (openEmpty cfg start) script = some (st, history) →
          (∀ now startKey endKey,
            IsRangeOf now st startKey endKey (st.range now startKey endKey)) ∧
          ∀ now regexMatch, IsKeysOf now st regexMatch (st.keys now regexMatch) := by
  intro hall
  obtain ⟨r, hrun, hr⟩ := Option.map_eq_some_iff.1 range_rewrittenScript
  obtain ⟨hrange, hnewest⟩ := Prod.mk.inj hr
  have hclock : ClockRuns (tick 1) rewrittenScript := by
    simp [ClockRuns, rewrittenScript, tick]
  obtain ⟨-, hmem⟩ := (hall _ _ _ r.1 r.2 hclock runMeets_rewrittenScript hrun).1 0 [107] [107]
  have hlisted := (hmem [107] (.string [50])).2
    ⟨List.le_refl _, List.le_refl _, _, hnewest, by decide, rfl⟩
  rw [hrange] at hlisted
  exact absurd hlisted (by decide)

end Agreement

end Storage

end EyaKV.Store
