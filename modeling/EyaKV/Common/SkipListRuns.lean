import EyaKV.Base.Runs
import EyaKV.Common.SkipListCopies

/-!
# Runs of operations on skip lists

A program has skip lists in its variables and works on them one operation after the other, with
every outcome of the level generator; a list is copied, moved or read into another one. Beside the
lists run the maps that the operations describe. `Sound` is the invariant of a list as one sees it
along its levels, and `Describes` says that it answers as its map does.

Three operations may break this: `deserialize` into a list with higher nodes, since it does not take
the old ones out; `remove_range_by_key` where `operator>` does not agree with `compare_func_`; and
`handle_value` with a callback that throws. In a run without these every list is sound and describes
its map (`describes_run`), and every memory counter is the sum of what the nodes cost as long as
`deserialize`, which leaves it as it was, reads nodes of the same cost (`accounts_run`).
-/

set_option autoImplicit false

namespace EyaKV.Common.SkipList

open EyaKV.Base EyaKV.Base.Framing EyaKV.Base.LinkedLevels EyaKV.Store

variable {κ ν ε : Type}

section Operations

/-- The skip lists of a program, by variable. -/
abbrev Lists (κ ν : Type) := Nat → SkipList κ ν

/-- An operation on the lists. A copy is that of the constructor or the assignment, and so is a
move. -/
inductive Op (κ ν ε : Type) where
  | insert (x : Nat) (draws : Nat → Bool) (key : κ) (value : ν)
  | handleValue (x : Nat) (key : κ) (valueHandle : SkipListCallback ν ε)
  | remove (x : Nat) (key : κ)
  | removeRangeByKey (x : Nat) (minKey maxKey : κ)
  | clear (x : Nat)
  | copy (x y : Nat)
  | move (x y : Nat)
  | deserialize (x y : Nat)

variable (c : Codecs κ ν)

/-- The lists after an operation; an assignment of a list to itself returns at once. A list that
cannot be read has no result. -/
def step (lists : Lists κ ν) : Op κ ν ε → Option (Lists κ ν)
  | .insert x draws key value =>
      some (Function.update lists x ((lists x).insert draws key value))
  | .handleValue x key valueHandle =>
      some (Function.update lists x ((lists x).handleValue key valueHandle).1)
  | .remove x key => some (Function.update lists x ((lists x).remove key).2)
  | .removeRangeByKey x minKey maxKey =>
      some (Function.update lists x ((lists x).removeRangeByKey minKey maxKey).2)
  | .clear x => some (Function.update lists x (lists x).clear)
  | .copy x y => some (if x = y then lists else Function.update lists x (lists y).copy)
  | .move x y =>
      some (if x = y then lists
        else Function.update (Function.update lists x (lists y).move.1) y (lists y).move.2)
  | .deserialize x y => do
      let (l, _) ← (lists x).deserialize c ((lists y).serialize c)
      return Function.update lists x l

/-- A map with the order of its keys. -/
structure KeyedMap (κ ν : Type) where
  order : κ → κ → Ordering
  entries : κ → Option ν

/-- The map without entries. -/
def KeyedMap.empty (order : κ → κ → Ordering) : KeyedMap κ ν := ⟨order, fun _ => none⟩

/-- A key is set to a value. -/
def KeyedMap.set (key : κ) (value : ν) (m : KeyedMap κ ν) : KeyedMap κ ν :=
  { m with entries := fun k => if m.order key k = .eq then some value else m.entries k }

/-- The entries whose keys pass a test. -/
def KeyedMap.keep (test : κ → Bool) (m : KeyedMap κ ν) : KeyedMap κ ν :=
  { m with entries := fun k => if test k then m.entries k else none }

@[simp] theorem KeyedMap.entries_set (key : κ) (value : ν) (m : KeyedMap κ ν) (k : κ) :
    (m.set key value).entries k = if m.order key k = .eq then some value else m.entries k := rfl

@[simp] theorem KeyedMap.entries_keep (test : κ → Bool) (m : KeyedMap κ ν) (k : κ) :
    (m.keep test).entries k = if test k then m.entries k else none := rfl

/-- What an operation does to the maps. -/
def describe (maps : Nat → KeyedMap κ ν) : Op κ ν ε → Nat → KeyedMap κ ν
  | .insert x _ key value => Function.update maps x ((maps x).set key value)
  | .handleValue x key valueHandle =>
      match (maps x).entries key with
      | some value => Function.update maps x ((maps x).set key (valueHandle value).1)
      | none => maps
  | .remove x key => Function.update maps x ((maps x).keep fun k => !((maps x).order k key == .eq))
  | .removeRangeByKey x minKey maxKey =>
      Function.update maps x ((maps x).keep fun k =>
        !(((maps x).order minKey k).isLE && ((maps x).order k maxKey).isLE))
  | .clear x => Function.update maps x (.empty (maps x).order)
  | .copy x y => Function.update maps x (maps y)
  | .move x y =>
      if x = y then maps
      else Function.update (Function.update maps x (maps y)) y (.empty (maps y).order)
  | .deserialize x y => Function.update maps x { maps x with entries := (maps y).entries }

/-- The nodes along the lowest level. -/
def content (l : SkipList κ ν) : List (SkipListNode κ ν) := (l.nodesOn 0).map l.node

/-- What has been written of `other` can be read into the list: they have the same functions and the
same maximal level, the codecs read every key and value back, the number of nodes fits its field,
and the list has no node on a level above the nodes of the other one. -/
structure Readable (c : Codecs κ ν) (l other : SkipList κ ν) : Prop where
  funcs : l.funcs = other.funcs
  maxLevel : l.maxLevel = other.maxLevel
  reads : ∀ n ∈ other.content, c.Reads n
  length : other.content.length < 2 ^ 32
  notHigher : NotHigher l.content other.content

/-- `operator>` lets the removal of a range through, unless there is nothing to remove. -/
def GuardAgrees (minKey maxKey : κ) (l : SkipList κ ν) : Prop :=
  l.funcs.greater minKey maxKey = true →
    ∀ n ∈ l.content, l.funcs.inRange minKey maxKey n.key = false

/-- The callback returns on the value of the key. -/
def Returns (key : κ) (valueHandle : SkipListCallback ν ε) (l : SkipList κ ν) : Prop :=
  ∀ n ∈ l.content, n.key = key → (valueHandle n.value).2 = none

/-- The operation does not run into one of the three exceptions. -/
def Harmless (lists : Lists κ ν) : Op κ ν ε → Prop
  | .handleValue x key valueHandle => Returns key valueHandle (lists x)
  | .removeRangeByKey x minKey maxKey => GuardAgrees minKey maxKey (lists x)
  | .deserialize x y => Readable c (lists x) (lists y)
  | _ => True

/-- The operation does not run into an exception that matters for the counters: a callback that
throws, or a list that is read into one of other cost. -/
def Accounted (lists : Lists κ ν) : Op κ ν ε → Prop
  | .handleValue x key valueHandle => Returns key valueHandle (lists x)
  | .deserialize x y => Readable c (lists x) (lists y) ∧
      (lists x).funcs.usage (lists x).content = (lists y).funcs.usage (lists y).content
  | _ => True

end Operations

section Meaning

variable (l : SkipList κ ν)

/-- The invariant of a list, along its levels: every level ends, the keys of level 0 ascend
strictly, each level holds the nodes of the one below that have more pointers, the current level
covers all of them, and the size is the number of nodes. -/
structure Sound : Prop where
  ends : ∀ i, (walk (l.next i) (fun _ => true) l.allocated (l.next i head)).2 = none
  sorted : ((l.nodesOn 0).map fun a => (l.node a).key).Pairwise fun k k' => l.funcs.compare k k' = .lt
  levels : ∀ i, l.nodesOn (i + 1) = (l.nodesOn i).filter fun a => decide (i + 1 < (l.node a).level)
  covered : ∀ i, l.nodesOn i ≠ [] → i < l.currentLevel
  size : l.size = (l.nodesOn 0).length

/-- The list answers as the map does: lookups, the listing, and the position of a key in it. -/
structure Describes (m : KeyedMap κ ν) : Prop where
  get : ∀ key, l.get key = match m.entries key with
    | some value => .ok value
    | none => .error "Key not found"
  sorted : l.getAllEntries.Pairwise fun e e' => m.order e.1 e'.1 = .lt
  entries : ∀ key value, (key, value) ∈ l.getAllEntries ↔ m.entries key = some value
  rank : ∀ key, l.rank key = (m.entries key).map fun _ =>
    (l.getAllEntries.filter fun e => m.order e.1 key == .lt).length

variable {l} {nodes : List (SkipListNode κ ν)}

theorem Holds.content (h : l.Holds nodes) : l.content = nodes := by
  obtain ⟨addrs, h, rfl⟩ := h
  rw [SkipList.content, h.nodesOn_zero]

theorem Holds.sound (h : l.Holds nodes) : l.Sound := by
  obtain ⟨addrs, h, -⟩ := h
  constructor
  · intro i
    have hle : (onLevel l.height addrs i).length ≤ l.allocated :=
      (onLevel_sublist _ _ _).length_le.trans (Nat.le_of_lt h.length_lt)
    rw [(h.stacked i).walk_eq hle, List.dropWhile_eq_nil_iff.2 fun _ _ => rfl]
    rfl
  · rw [h.nodesOn_zero]
    exact List.pairwise_map.2 h.sorted
  · intro i
    rw [h.nodesOn_eq, h.nodesOn_eq]
    exact onLevel_succ
  · intro i hne
    rw [h.nodesOn_eq] at hne
    obtain ⟨a, ha⟩ := List.exists_mem_of_ne_nil _ hne
    obtain ⟨ha, hlt⟩ := List.mem_filter.1 ha
    exact (of_decide_eq_true hlt).trans_le (h.height a ha).2
  · rw [h.nodesOn_zero, h.size]

theorem Holds.describes (h : l.Holds nodes) {m : KeyedMap κ ν} (horder : m.order = l.funcs.compare)
    (hlookup : ∀ key, l.funcs.lookup nodes key = m.entries key) : l.Describes m := by
  have hvalid := h.valid
  constructor
  · intro key
    cases hentry : m.entries key with
    | some value => simp only [h.get, hlookup, hentry]
    | none => simp only [h.get, hlookup, hentry]
  · rw [h.getAllEntries, horder]
    exact List.pairwise_map.2 hvalid.sorted
  · intro key value
    rw [h.getAllEntries, ← hlookup, List.mem_map]
    constructor
    · rintro ⟨n, hn, heq⟩
      obtain ⟨rfl, rfl⟩ := Prod.mk.inj heq
      exact hvalid.lookup_eq hn
    · intro hsome
      obtain ⟨n, hn, rfl, rfl⟩ := l.funcs.mem_of_lookup hsome
      exact ⟨n, hn, rfl⟩
  · intro key
    rw [h.rank, hlookup, h.getAllEntries, horder, List.filter_map, List.length_map]
    rfl

end Meaning

section Steps

variable {l : SkipList κ ν} {nodes : List (SkipListNode κ ν)} {key : κ}

/-- The functions and the maximal level of a list stay. -/
def Same (l l' : SkipList κ ν) : Prop := l'.funcs = l.funcs ∧ l'.maxLevel = l.maxLevel

theorem same_insert (draws : Nat → Bool) (key : κ) (value : ν) :
    l.Same (l.insert draws key value) := by
  rw [insert]
  split
  · exact ⟨rfl, rfl⟩
  · exact ⟨rfl, rfl⟩

theorem same_handleValue (key : κ) (valueHandle : SkipListCallback ν ε) :
    l.Same (l.handleValue key valueHandle).1 := by
  rw [handleValue]
  split
  · split
    · exact ⟨rfl, rfl⟩
    · exact ⟨rfl, rfl⟩
  · exact ⟨rfl, rfl⟩

theorem same_remove (key : κ) : l.Same (l.remove key).2 := by
  rw [remove]
  split
  · exact ⟨rfl, rfl⟩
  · exact ⟨rfl, rfl⟩

theorem same_removeLoop (update : Nat → Nat) (maxKey : κ) :
    ∀ (fuel : Nat) (current : Option Nat) (s : SkipList κ ν × Nat × UInt64),
      s.1.Same (removeLoop update maxKey fuel current s).1 := by
  intro fuel
  induction fuel with
  | zero => exact fun _ _ => ⟨rfl, rfl⟩
  | succ fuel ih =>
      intro current s
      cases current with
      | none => exact ⟨rfl, rfl⟩
      | some a =>
          rw [removeLoop]
          split
          · exact ih _ _
          · exact ⟨rfl, rfl⟩

theorem same_removeRangeByKey (minKey maxKey : κ) :
    l.Same (l.removeRangeByKey minKey maxKey).2 := by
  rw [removeRangeByKey]
  split
  · exact ⟨rfl, rfl⟩
  · exact same_removeLoop _ maxKey l.allocated _ (l, 0, 0)

/-- A removal of a range that does nothing, because of its guard. -/
theorem removeRangeByKey_of_greater {minKey maxKey : κ}
    (h : l.funcs.greater minKey maxKey = true) : l.removeRangeByKey minKey maxKey = (0, l) :=
  if_pos h

/-- The list describes the map. -/
def TracksAt (l : SkipList κ ν) (m : KeyedMap κ ν) : Prop :=
  ∃ nodes, l.Holds nodes ∧ m.order = l.funcs.compare ∧
    ∀ key, l.funcs.lookup nodes key = m.entries key

/-- Every list describes its map. -/
def Tracks (lists : Lists κ ν) (maps : Nat → KeyedMap κ ν) : Prop :=
  ∀ x, (lists x).TracksAt (maps x)

theorem Tracks.update {lists : Lists κ ν} {maps : Nat → KeyedMap κ ν} (h : Tracks lists maps)
    (x : Nat) {m : KeyedMap κ ν} (hx : l.TracksAt m) :
    Tracks (Function.update lists x l) (Function.update maps x m) := by
  intro y
  rcases eq_or_ne y x with rfl | hne
  · rw [Function.update_self, Function.update_self]
    exact hx
  · rw [Function.update_of_ne hne, Function.update_of_ne hne]
    exact h y

variable {m : KeyedMap κ ν}

theorem tracksAt_create (f : SkipListFuncs κ ν) (maxLevel : MaxLevel) :
    (create f maxLevel).TracksAt (.empty f.compare) :=
  ⟨[], holds_create f maxLevel, rfl, fun _ => rfl⟩

theorem TracksAt.insert (h : l.TracksAt m) (draws : Nat → Bool) (key : κ) (value : ν) :
    (l.insert draws key value).TracksAt (m.set key value) := by
  obtain ⟨nodes, hholds, horder, hlookup⟩ := h
  refine ⟨_, (hholds.insert draws key value).1, ?_, fun k => ?_⟩
  · rw [(same_insert draws key value).1]
    exact horder
  · rw [(same_insert draws key value).1, l.funcs.lookup_putNode, hlookup, KeyedMap.entries_set,
      horder]

theorem TracksAt.handleValue (h : l.TracksAt m) {valueHandle : SkipListCallback ν ε}
    (hreturns : Returns key valueHandle l) : (l.handleValue key valueHandle).1.TracksAt
      (match m.entries key with
        | some value => m.set key (valueHandle value).1
        | none => m) := by
  obtain ⟨nodes, hholds, horder, hlookup⟩ := h
  cases hentry : m.entries key with
  | none =>
      rw [hholds.handleValue_of_none ((hlookup key).trans hentry)]
      exact ⟨nodes, hholds, horder, hlookup⟩
  | some old =>
      have hsome := (hlookup key).trans hentry
      obtain ⟨n, hn, hkey, rfl⟩ := l.funcs.mem_of_lookup hsome
      have hreturn := hreturns n (hholds.content.symm ▸ hn) hkey
      obtain ⟨-, hholds', -⟩ := hholds.handleValue hsome (Prod.ext rfl hreturn)
      refine ⟨_, hholds', ?_, fun k => ?_⟩
      · rw [(same_handleValue key valueHandle).1]
        exact horder
      · rw [(same_handleValue key valueHandle).1, l.funcs.lookup_setValue, hlookup]
        simp only [KeyedMap.entries_set, horder]
        by_cases hk : l.funcs.compare key k = .eq
        · obtain rfl := l.funcs.compare_eq_iff.1 hk
          simp only [hk, ↓reduceIte, hentry, Option.map_some]
        · rw [if_neg hk, if_neg hk]

theorem TracksAt.remove (h : l.TracksAt m) (key : κ) :
    (l.remove key).2.TracksAt (m.keep fun k => !(m.order k key == .eq)) := by
  obtain ⟨nodes, hholds, horder, hlookup⟩ := h
  refine ⟨_, (hholds.remove key).2.1, ?_, fun k => ?_⟩
  · rw [(same_remove key).1]
    exact horder
  · have hfilter := l.funcs.lookup_filter (fun k => !(l.funcs.compare k key == .eq)) nodes k
    rw [(same_remove key).1, SkipListFuncs.without, hfilter, hlookup,
      KeyedMap.entries_keep, horder]

theorem TracksAt.removeRangeByKey (h : l.TracksAt m) {minKey maxKey : κ}
    (hguard : GuardAgrees minKey maxKey l) : (l.removeRangeByKey minKey maxKey).2.TracksAt
      (m.keep fun k => !((m.order minKey k).isLE && (m.order k maxKey).isLE)) := by
  obtain ⟨nodes, hholds, horder, hlookup⟩ := h
  cases hgreater : l.funcs.greater minKey maxKey with
  | false =>
      refine ⟨_, (hholds.removeRangeByKey hgreater).2.1, ?_, fun k => ?_⟩
      · rw [(same_removeRangeByKey minKey maxKey).1]
        exact horder
      · have hfilter := l.funcs.lookup_filter (fun k => !l.funcs.inRange minKey maxKey k) nodes k
        rw [(same_removeRangeByKey minKey maxKey).1, hfilter, hlookup,
          KeyedMap.entries_keep, horder]
        rfl
  | true =>
      -- The guard stops the removal, and no key would have been removed.
      rw [removeRangeByKey_of_greater hgreater]
      refine ⟨nodes, hholds, horder, fun k => ?_⟩
      rw [hlookup, KeyedMap.entries_keep, horder]
      cases hentry : m.entries k with
      | none => exact (ite_self none).symm
      | some value =>
          obtain ⟨n, hn, rfl, -⟩ := l.funcs.mem_of_lookup ((hlookup k).trans hentry)
          have hout := hguard hgreater n (hholds.content.symm ▸ hn)
          rw [SkipListFuncs.inRange] at hout
          simp only [hout, Bool.not_false, ↓reduceIte]

theorem TracksAt.clear (h : l.TracksAt m) : l.clear.TracksAt (.empty m.order) := by
  obtain ⟨nodes, hholds, horder, -⟩ := h
  exact ⟨[], hholds.clear.1, horder, fun _ => rfl⟩

theorem TracksAt.copy (h : l.TracksAt m) : l.copy.TracksAt m := by
  obtain ⟨nodes, hholds, horder, hlookup⟩ := h
  obtain ⟨hcopy, hfuncs, -, -⟩ := hholds.copy
  refine ⟨nodes, hcopy, ?_, ?_⟩
  · rw [hfuncs]
    exact horder
  · rw [hfuncs]
    exact hlookup

theorem TracksAt.deserialize {c : Codecs κ ν} {other : SkipList κ ν} {m' : KeyedMap κ ν}
    (h : l.TracksAt m) (hother : other.TracksAt m') (hreadable : Readable c l other) :
    ∃ l' rest, l.deserialize c (other.serialize c) = some (l', rest) ∧
      l'.TracksAt { m with entries := m'.entries } := by
  obtain ⟨old, hold, horder, -⟩ := h
  obtain ⟨nodes, hholds, -, hlookup⟩ := hother
  obtain ⟨hfuncs, hmax, hreads, hlength, hlow⟩ := hreadable
  rw [hholds.content] at hreads hlength hlow
  rw [hold.content] at hlow
  obtain ⟨l', hread, hl', hfuncs', -, -⟩ :=
    hold.deserialize_serialize hholds hfuncs hmax hreads hlength hlow []
  rw [List.append_nil] at hread
  refine ⟨l', [], hread, nodes, hl', ?_, ?_⟩
  · rw [hfuncs']
    exact horder
  · rw [hfuncs', hfuncs]
    exact hlookup

/-- **One operation**, on the lists and on the maps. -/
theorem Tracks.step {c : Codecs κ ν} {lists : Lists κ ν} {maps : Nat → KeyedMap κ ν}
    {op : Op κ ν ε} (h : Tracks lists maps) (hop : Harmless c lists op) :
    ∃ lists', step c lists op = some lists' ∧ Tracks lists' (describe maps op) := by
  cases op with
  | insert x draws key value => exact ⟨_, rfl, h.update x ((h x).insert draws key value)⟩
  | handleValue x key valueHandle =>
      refine ⟨_, rfl, ?_⟩
      have hx := h.update x ((h x).handleValue hop)
      rw [describe]
      cases hentry : (maps x).entries key with
      | some value =>
          simp only [hentry] at hx
          exact hx
      | none =>
          simp only [hentry, Function.update_eq_self] at hx
          exact hx
  | remove x key => exact ⟨_, rfl, h.update x ((h x).remove key)⟩
  | removeRangeByKey x minKey maxKey => exact ⟨_, rfl, h.update x ((h x).removeRangeByKey hop)⟩
  | clear x => exact ⟨_, rfl, h.update x (h x).clear⟩
  | copy x y =>
      refine ⟨_, rfl, ?_⟩
      rw [describe]
      split
      · next hxy =>
          rw [hxy, Function.update_eq_self]
          exact h
      · exact h.update x (h y).copy
  | move x y =>
      refine ⟨_, rfl, ?_⟩
      rw [describe]
      split
      · exact h
      · -- the source of a move is left empty, in its own order
        apply (h.update x (h y)).update y
        have hempty := tracksAt_create (lists y).funcs (lists y).maxLevel
        obtain ⟨-, -, horder, -⟩ := h y
        rw [horder]
        exact hempty
  | deserialize x y =>
      obtain ⟨l', rest, hread, hl'⟩ := (h x).deserialize (h y) hop
      refine ⟨Function.update lists x l', ?_, h.update x hl'⟩
      rw [SkipList.step, hread]
      rfl

end Steps

section Counters

variable {l : SkipList κ ν} {nodes : List (SkipListNode κ ν)} {key : κ}

/-- The counter is the base size and what the nodes cost. -/
def AccountsAt (l : SkipList κ ν) : Prop :=
  ∃ nodes, l.Holds nodes ∧
    l.currentSize = baseSize l.funcs l.maxLevel + l.funcs.usage nodes

/-- An operation that changes the counter by what the nodes cost keeps it right. -/
theorem AccountsAt.of_change (h : l.AccountsAt) {l' : SkipList κ ν} (hsame : l.Same l')
    (hop : ∀ nodes, l.Holds nodes → ∃ nodes', l'.Holds nodes' ∧
      l'.currentSize - l.funcs.usage nodes' = l.currentSize - l.funcs.usage nodes) :
    l'.AccountsAt := by
  obtain ⟨nodes, hholds, hsize⟩ := h
  obtain ⟨nodes', hholds', hchange⟩ := hop nodes hholds
  refine ⟨nodes', hholds', ?_⟩
  rw [hsame.1, hsame.2]
  grind

theorem accountsAt_create (f : SkipListFuncs κ ν) (maxLevel : MaxLevel) :
    (create f maxLevel).AccountsAt :=
  ⟨[], holds_create f maxLevel, (UInt64.add_zero _).symm⟩

theorem AccountsAt.insert (h : l.AccountsAt) (draws : Nat → Bool) (key : κ) (value : ν) :
    (l.insert draws key value).AccountsAt :=
  h.of_change (same_insert draws key value) fun _ hholds => ⟨_, hholds.insert draws key value⟩

theorem AccountsAt.handleValue (h : l.AccountsAt) {valueHandle : SkipListCallback ν ε}
    (hreturns : Returns key valueHandle l) : (l.handleValue key valueHandle).1.AccountsAt := by
  apply h.of_change (same_handleValue key valueHandle)
  intro nodes hholds
  cases hlookup : l.funcs.lookup nodes key with
  | none =>
      rw [hholds.handleValue_of_none hlookup]
      exact ⟨nodes, hholds, rfl⟩
  | some old =>
      obtain ⟨n, hn, hkey, rfl⟩ := l.funcs.mem_of_lookup hlookup
      have hreturn := hreturns n (hholds.content.symm ▸ hn) hkey
      exact ⟨_, (hholds.handleValue hlookup (Prod.ext rfl hreturn)).2⟩

theorem AccountsAt.remove (h : l.AccountsAt) (key : κ) : (l.remove key).2.AccountsAt :=
  h.of_change (same_remove key) fun _ hholds => ⟨_, (hholds.remove key).2⟩

theorem AccountsAt.removeRangeByKey (h : l.AccountsAt) (minKey maxKey : κ) :
    (l.removeRangeByKey minKey maxKey).2.AccountsAt := by
  cases hgreater : l.funcs.greater minKey maxKey with
  | false =>
      apply h.of_change (same_removeRangeByKey minKey maxKey)
      exact fun _ hholds => ⟨_, (hholds.removeRangeByKey hgreater).2⟩
  | true =>
      rw [removeRangeByKey_of_greater hgreater]
      exact h

theorem AccountsAt.clear (h : l.AccountsAt) : l.clear.AccountsAt := by
  obtain ⟨nodes, hholds, -⟩ := h
  exact ⟨[], hholds.clear.1, (UInt64.add_zero _).symm⟩

theorem AccountsAt.copy (h : l.AccountsAt) : l.copy.AccountsAt := by
  obtain ⟨nodes, hholds, hsize⟩ := h
  obtain ⟨hcopy, hfuncs, hmax, hcounter⟩ := hholds.copy
  refine ⟨nodes, hcopy, ?_⟩
  rw [hcounter, hfuncs, hmax]
  exact hsize

theorem AccountsAt.deserialize {c : Codecs κ ν} {other : SkipList κ ν} (h : l.AccountsAt)
    (hother : other.AccountsAt) (hreadable : Readable c l other)
    (hcost : l.funcs.usage l.content = other.funcs.usage other.content) :
    ∃ l' rest, l.deserialize c (other.serialize c) = some (l', rest) ∧ l'.AccountsAt := by
  obtain ⟨old, hold, hsize⟩ := h
  obtain ⟨nodes, hholds, -⟩ := hother
  obtain ⟨hfuncs, hmax, hreads, hlength, hlow⟩ := hreadable
  rw [hholds.content] at hreads hlength hlow hcost
  rw [hold.content] at hlow hcost
  obtain ⟨l', hread, hl', hfuncs', hmax', hcounter⟩ :=
    hold.deserialize_serialize hholds hfuncs hmax hreads hlength hlow []
  rw [List.append_nil] at hread
  refine ⟨l', [], hread, nodes, hl', ?_⟩
  rw [hcounter, hfuncs', hmax', hsize, hcost, hfuncs]

theorem accounts_update {lists : Lists κ ν} (h : ∀ x, (lists x).AccountsAt) (x : Nat)
    (hx : l.AccountsAt) : ∀ y, (Function.update lists x l y).AccountsAt := by
  intro y
  rcases eq_or_ne y x with rfl | hne
  · rw [Function.update_self]
    exact hx
  · rw [Function.update_of_ne hne]
    exact h y

/-- One operation keeps every counter right. -/
theorem accounts_step {c : Codecs κ ν} {lists : Lists κ ν} {op : Op κ ν ε}
    (h : ∀ x, (lists x).AccountsAt) (hop : Accounted c lists op) :
    ∃ lists', step c lists op = some lists' ∧ ∀ x, (lists' x).AccountsAt := by
  cases op with
  | insert x draws key value =>
      exact ⟨_, rfl, accounts_update h x ((h x).insert draws key value)⟩
  | handleValue x key valueHandle => exact ⟨_, rfl, accounts_update h x ((h x).handleValue hop)⟩
  | remove x key => exact ⟨_, rfl, accounts_update h x ((h x).remove key)⟩
  | removeRangeByKey x minKey maxKey =>
      exact ⟨_, rfl, accounts_update h x ((h x).removeRangeByKey minKey maxKey)⟩
  | clear x => exact ⟨_, rfl, accounts_update h x (h x).clear⟩
  | copy x y =>
      refine ⟨_, rfl, ?_⟩
      split
      · exact h
      · exact accounts_update h x (h y).copy
  | move x y =>
      refine ⟨_, rfl, ?_⟩
      split
      · exact h
      · exact accounts_update (accounts_update h x (h y)) y (accountsAt_create _ _)
  | deserialize x y =>
      obtain ⟨l', rest, hread, hl'⟩ := (h x).deserialize (h y) hop.1 hop.2
      refine ⟨Function.update lists x l', ?_, accounts_update h x hl'⟩
      rw [SkipList.step, hread]
      rfl

/-- The bytes of a node: key, value, its pointers and the node itself. -/
def nodeBytes (f : SkipListFuncs κ ν) (n : SkipListNode κ ν) : Nat :=
  (f.calculateKeySize n.key).toNat + (f.calculateValueSize n.value).toNat + 8 * n.level +
    f.nodeSize.toNat

/-- The bytes of a list: those of the head that `init_current_size` counts, and of the nodes. -/
def storedBytes (l : SkipList κ ν) : Nat :=
  (l.funcs.calculateKeySize l.funcs.defaultKey).toNat +
    (l.funcs.calculateValueSize l.funcs.defaultValue).toNat + 8 * l.maxLevel.toNat +
    (l.content.map (nodeBytes l.funcs)).sum

theorem usage_eq (f : SkipListFuncs κ ν) (nodes : List (SkipListNode κ ν))
    (heven : ∀ n ∈ nodes, n.odd = false) :
    f.usage nodes = UInt64.ofNat (nodes.map (nodeBytes f)).sum := by
  induction nodes with
  | nil => rfl
  | cons n ns ih =>
      rw [SkipListFuncs.usage, ih fun m hm => heven m (List.mem_cons_of_mem n hm), List.map_cons,
        List.sum_cons, UInt64.ofNat_add, SkipListNode.cost,
        getValue_of_even (heven n List.mem_cons_self), nodeBytes, UInt64.ofNat_add, UInt64.ofNat_add,
        UInt64.ofNat_add, UInt64.ofNat_mul, UInt64.ofNat_toNat, UInt64.ofNat_toNat,
        UInt64.ofNat_toNat]
      rfl

theorem AccountsAt.memoryUsage (h : l.AccountsAt) : l.memoryUsage = UInt64.ofNat l.storedBytes := by
  obtain ⟨nodes, hholds, hsize⟩ := h
  rw [SkipList.memoryUsage, hsize, usage_eq _ _ hholds.valid.even, storedBytes, hholds.content,
    baseSize, UInt64.ofNat_add, UInt64.ofNat_add, UInt64.ofNat_add, UInt64.ofNat_mul,
    UInt64.ofNat_toNat, UInt64.ofNat_toNat]
  rfl

end Counters

section Runs

open EyaKV.Base.Machine

/-- Newly constructed lists, each with its functions and its maximal level. -/
def newLists (f : Nat → SkipListFuncs κ ν) (maxLevel : Nat → MaxLevel) : Lists κ ν :=
  fun x => create (f x) (maxLevel x)

/-- The empty maps. -/
def newMaps (f : Nat → SkipListFuncs κ ν) : Nat → KeyedMap κ ν := fun x => .empty (f x).compare

/-- **In a run of harmless operations every list is sound and describes its map**, whatever levels
the generator gives, and every operation returns. -/
theorem describes_run (c : Codecs κ ν) (f : Nat → SkipListFuncs κ ν) (maxLevel : Nat → MaxLevel)
    (ops : List (Op κ ν ε)) (hops : RunMeets (step c) (Harmless c) (newLists f maxLevel) ops) :
    ∃ lists, run (step c) (newLists f maxLevel) ops = some lists ∧
      ∀ x, (lists x).Sound ∧ (lists x).Describes (ops.foldl describe (newMaps f) x) := by
  have hstep : ∀ (lists : Lists κ ν) (maps : Nat → KeyedMap κ ν) (op : Op κ ν ε),
      Tracks lists maps → Harmless c lists op →
        ∃ lists', step c lists op = some lists' ∧ Tracks lists' (describe maps op) :=
    fun _ _ _ h hop => h.step hop
  have hnew : Tracks (newLists f maxLevel) (newMaps f) :=
    fun x => tracksAt_create (f x) (maxLevel x)
  obtain ⟨lists, hrun, htracks⟩ := run_simulates hstep ops _ _ hnew hops
  refine ⟨lists, hrun, fun x => ?_⟩
  obtain ⟨nodes, hholds, horder, hlookup⟩ := htracks x
  exact ⟨hholds.sound, hholds.describes horder hlookup⟩

/-- In a run of accounted operations every counter is right, and every operation returns. -/
theorem accounts_run (c : Codecs κ ν) (f : Nat → SkipListFuncs κ ν) (maxLevel : Nat → MaxLevel)
    (ops : List (Op κ ν ε)) (hops : RunMeets (step c) (Accounted c) (newLists f maxLevel) ops) :
    ∃ lists, run (step c) (newLists f maxLevel) ops = some lists ∧
      ∀ x, (lists x).AccountsAt := by
  have hstep : ∀ (lists : Lists κ ν) (op : Op κ ν ε), (∀ x, (lists x).AccountsAt) →
      Accounted c lists op → ∃ lists', step c lists op = some lists' ∧ ∀ x, (lists' x).AccountsAt :=
    fun _ _ h hop => accounts_step h hop
  exact run_progress hstep ops _ (fun x => accountsAt_create (f x) (maxLevel x)) hops

/-- Numbers as keys and values. -/
def numberFuncs : SkipListFuncs Nat Nat where
  compare := compare
  trans := inferInstance
  lawful := inferInstance
  calculateKeySize := fun _ => 4
  calculateValueSize := fun n => UInt64.ofNat n
  greater := fun a b => decide (b < a)
  defaultKey := 0
  defaultValue := 0
  nodeSize := 40

/-- Numbers as `uint32_t` in network order. -/
def numberCodecs : Codecs Nat Nat := ⟨be32, be32, readBe32, readBe32⟩

/-- Lists of at most two levels. -/
def twoLevels : MaxLevel := ⟨2, by decide, by decide⟩

/-- The lists of numbers at the start. -/
def numberLists : Lists Nat Nat := newLists (fun _ => numberFuncs) fun _ => twoLevels

/-- A node that is written is read back. -/
theorem harmless_copy : Harmless numberCodecs
    (Function.update numberLists 0 ((numberLists 0).insert (fun _ => true) 5 50))
    (.deserialize 1 0 : Op Nat Nat Unit) := by
  refine ⟨rfl, rfl, fun n hn => ?_, by decide, fun m hm => absurd hm List.not_mem_nil⟩
  obtain rfl : n = { key := 5, value := 50, level := 2 } := List.mem_singleton.1 hn
  exact ⟨fun rest => decodes_be32 5 (by decide) rest, fun rest => decodes_be32 50 (by decide) rest⟩

/-- A list of one node is read into an empty one. -/
theorem describes_run_of_copy : ∃ lists, run (step numberCodecs) numberLists
    ([.insert 0 (fun _ => true) 5 50, .deserialize 1 0] : List (Op Nat Nat Unit)) = some lists ∧
      ∀ x, (lists x).Sound ∧ (lists x).Describes
        (([.insert 0 (fun _ => true) 5 50, .deserialize 1 0] : List (Op Nat Nat Unit)).foldl describe
          (newMaps fun _ => numberFuncs) x) :=
  describes_run numberCodecs (fun _ => numberFuncs) (fun _ => twoLevels) _
    ⟨trivial, fun _ h => Option.some.inj h ▸ ⟨harmless_copy, fun _ _ => trivial⟩⟩

/-- **An empty list that is read into another one leaves its nodes there**, and the size says that
there are none. -/
theorem deserialize_keeps_nodes : ∃ lists, run (step numberCodecs) numberLists
    ([.insert 0 (fun _ => false) 5 50, .deserialize 0 1] : List (Op Nat Nat Unit)) = some lists ∧
      (lists 0).size = 0 ∧ (lists 0).getAllEntries = [(5, 50)] ∧ (lists 0).get 5 = .ok 50 ∧
      ¬ (lists 0).Sound ∧ ¬ (lists 0).Describes
        (([.insert 0 (fun _ => false) 5 50, .deserialize 0 1] : List (Op Nat Nat Unit)).foldl
          describe (newMaps fun _ => numberFuncs) 0) := by
  refine ⟨_, rfl, by decide, by decide, by decide, fun hsound => ?_, fun hdescribes => ?_⟩
  · exact absurd hsound.size (by decide)
  · exact absurd (hdescribes.get 5) (by decide)

end Runs

end EyaKV.Common.SkipList
