import EyaKV.Base.Recency

/-!
# The LRU cache

`LRUCache` of `common/ds/lru_cache.h`: the items from the most recently used to the least, and
the capacity. The hash index of the source only finds an item in the list.
-/

set_option autoImplicit false

namespace EyaKV.Common

open EyaKV.Base.Recency

variable {κ ν : Type} [DecidableEq κ]

/-- `LRUCache`, without the serializers. -/
structure LRUCache (κ ν : Type) where
  capacity : Nat
  items : List (κ × ν)
  deriving DecidableEq

namespace LRUCache

/-- The constructor. -/
def ofCapacity (capacity : Nat) : LRUCache κ ν := ⟨capacity, []⟩

/-- `LRUCache::get`. An item that is found moves to the front. -/
def get (key : κ) (cache : LRUCache κ ν) : Option ν × LRUCache κ ν :=
  match cache.items.find? fun item => item.1 = key with
  | some item =>
      (some item.2, { cache with items := item :: cache.items.eraseP fun item => item.1 = key })
  | none => (none, cache)

/-- `LRUCache::put`. The least recently used item makes room for a new one. At a capacity of 0
the source takes it out of an empty list, which is undefined; nothing is taken here. -/
def put (key : κ) (value : ν) (cache : LRUCache κ ν) : LRUCache κ ν :=
  if cache.items.any fun item => item.1 = key then
    { cache with items := (key, value) :: cache.items.eraseP fun item => item.1 = key }
  else if cache.capacity ≤ cache.items.length then
    { cache with items := (key, value) :: cache.items.dropLast }
  else { cache with items := (key, value) :: cache.items }

variable {key : κ} {value : ν} {cache : LRUCache κ ν} {item : κ × ν}

theorem mem_of_get (h : (cache.get key).1 = some value) : (key, value) ∈ cache.items := by
  rw [get] at h
  cases hfind : cache.items.find? fun item => item.1 = key with
  | none =>
      rw [hfind] at h
      cases h
  | some found =>
      rw [hfind] at h
      obtain rfl := Option.some.inj h
      have hkey := of_decide_eq_true (@List.find?_some (κ × ν) (fun item => decide (item.1 = key)) _ _ hfind)
      rw [← hkey]
      exact List.mem_of_find?_eq_some hfind

/-- A lookup brings in no item. -/
theorem mem_get (h : item ∈ (cache.get key).2.items) : item ∈ cache.items := by
  rw [get] at h
  cases hfind : cache.items.find? fun item => item.1 = key with
  | none =>
      rw [hfind] at h
      exact h
  | some found =>
      rw [hfind] at h
      rcases List.mem_cons.1 h with rfl | hrest
      · exact List.mem_of_find?_eq_some hfind
      · exact List.mem_of_mem_eraseP hrest

/-- An insertion brings in one. -/
theorem mem_put (h : item ∈ (cache.put key value).items) :
    item = (key, value) ∨ item ∈ cache.items := by
  rw [put] at h
  split at h
  · exact (List.mem_cons.1 h).imp_right List.mem_of_mem_eraseP
  · split at h
    · exact (List.mem_cons.1 h).imp_right (List.dropLast_subset _ ·)
    · exact List.mem_cons.1 h

section Keys

/-- The keys, from the most recently used to the least. -/
def keys (cache : LRUCache κ ν) : List κ := cache.items.map Prod.fst

theorem keys_eraseP (items : List (κ × ν)) :
    (items.eraseP fun item => item.1 = key).map Prod.fst = (items.map Prod.fst).erase key := by
  induction items with
  | nil => rfl
  | cons item rest ih =>
      by_cases h : item.1 = key
      · simp [h]
      · rw [List.eraseP_cons_of_neg (by simpa using h), List.map_cons, ih, List.map_cons,
          List.erase_cons_tail (by simpa using h)]

theorem find?_eq_none : (cache.items.find? fun item => item.1 = key) = none ↔ key ∉ cache.keys := by
  simp only [List.find?_eq_none, decide_eq_true_eq, keys, List.mem_map, not_exists, not_and]

/-- A lookup finds what has a place, and moves it to the front. -/
theorem get_of_mem (h : key ∈ cache.keys) :
    (cache.get key).1.isSome = true ∧ (cache.get key).2.keys = touch key cache.keys := by
  cases hfind : cache.items.find? fun item => item.1 = key with
  | none => exact absurd h (find?_eq_none.1 hfind)
  | some item =>
      have hkey : item.1 = key := by simpa using List.find?_some hfind
      simp only [get, hfind, keys, List.map_cons, keys_eraseP, hkey]
      exact ⟨rfl, rfl⟩

theorem get_of_not_mem (h : key ∉ cache.keys) : cache.get key = (none, cache) := by
  simp only [get, find?_eq_none.2 h]

theorem keys_put_of_mem (h : key ∈ cache.keys) :
    (cache.put key value).keys = touch key cache.keys := by
  have hany : (cache.items.any fun item => item.1 = key) = true := by
    obtain ⟨item, hmem, hkey⟩ := List.mem_map.1 h
    exact List.any_eq_true.2 ⟨item, hmem, by simpa using hkey⟩
  simp only [put, hany, ↓reduceIte, keys, List.map_cons, keys_eraseP]
  rfl

theorem keys_put_of_not_mem (h : key ∉ cache.keys) : (cache.put key value).keys =
    key :: if cache.capacity ≤ cache.keys.length then cache.keys.dropLast else cache.keys := by
  have hany : (cache.items.any fun item => item.1 = key) = false := by
    by_contra hany
    rw [Bool.not_eq_false] at hany
    obtain ⟨item, hmem, hkey⟩ := List.any_eq_true.1 hany
    exact h (List.mem_map.2 ⟨item, hmem, by simpa using hkey⟩)
  simp only [put, hany, keys, List.length_map, Bool.false_eq_true, ↓reduceIte]
  split
  · simp only [List.map_cons, List.map_dropLast]
  · rfl

@[simp] theorem capacity_get : (cache.get key).2.capacity = cache.capacity := by
  rw [get]
  split <;> rfl

@[simp] theorem capacity_put : (cache.put key value).capacity = cache.capacity := by
  rw [put]
  split
  · rfl
  · split <;> rfl

end Keys

section Uses

variable {uses : List κ}

/-- The cache has the keys that were used last, as many as it has places. -/
def Holds (cache : LRUCache κ ν) (uses : List κ) : Prop :=
  cache.keys = uses.take cache.capacity

theorem Holds.get (h : cache.Holds uses) :
    (cache.get key).2.Holds (if (cache.get key).1.isSome then touch key uses else uses) := by
  by_cases hkey : key ∈ cache.keys
  · obtain ⟨hsome, hkeys⟩ := get_of_mem hkey
    rw [Holds] at h
    rw [h] at hkey
    rw [hsome, if_pos rfl, Holds, hkeys, capacity_get, h, take_touch_of_mem hkey]
  · rw [get_of_not_mem hkey]
    exact h

theorem Holds.put (h : cache.Holds uses) (hpos : 0 < cache.capacity) :
    (cache.put key value).Holds (touch key uses) := by
  rw [Holds] at h
  by_cases hkey : key ∈ cache.keys
  · rw [Holds, keys_put_of_mem hkey, capacity_put]
    rw [h] at hkey
    rw [h, take_touch_of_mem hkey]
  · rw [Holds, keys_put_of_not_mem hkey, capacity_put]
    rw [h] at hkey ⊢
    obtain ⟨n, hn⟩ := Nat.exists_eq_succ_of_ne_zero (Nat.ne_of_gt hpos)
    rw [hn] at hkey ⊢
    rw [take_touch_of_not_mem hkey]
    split
    · next hfull =>
        -- the least recently used key makes room
        rw [List.dropLast_eq_take, List.take_take]
        congr 2
        rw [List.length_take] at hfull ⊢
        omega
    · next hroom =>
        have hlen : uses.length ≤ n := by
          rw [List.length_take] at hroom
          omega
        rw [List.take_of_length_le hlen, List.take_of_length_le (Nat.le_succ_of_le hlen)]

end Uses

section Lookups

variable {other : κ}

theorem get_fst (key : κ) (cache : LRUCache κ ν) :
    (cache.get key).1 = (cache.items.find? fun item => item.1 = key).map Prod.snd := by
  rw [get]
  split
  · next item hfind => rw [hfind, Option.map_some]
  · next hfind => rw [hfind, Option.map_none]

theorem find?_eraseP_of_ne (items : List (κ × ν)) (h : other ≠ key) :
    (items.eraseP fun item => item.1 = key).find? (fun item => item.1 = other) =
      items.find? fun item => item.1 = other := by
  induction items with
  | nil => rfl
  | cons item rest ih =>
      by_cases hkey : item.1 = key
      · have hother : ¬ item.1 = other := fun heq => h (heq.symm.trans hkey)
        simp [hkey, Ne.symm h]
      · rw [List.eraseP_cons_of_neg (by simpa using hkey), List.find?_cons, List.find?_cons, ih]

/-- A lookup changes no result. -/
theorem get_get : ((cache.get key).2.get other).1 = (cache.get other).1 := by
  rw [get_fst, get_fst, get]
  split
  · next item hfind =>
      have hkey : item.1 = key := by simpa using List.find?_some hfind
      by_cases h : other = key
      · obtain rfl := h
        simp [hfind, hkey]
      · rw [List.find?_cons_of_neg (by simpa [hkey] using Ne.symm h), find?_eraseP_of_ne _ h]
  · rfl

/-- The result that has been put last is found. -/
theorem get_put_self : ((cache.put key value).get key).1 = some value := by
  rw [get_fst, put]
  split
  · simp
  · split <;> simp

theorem find?_cons_of_ne (value : ν) (items : List (κ × ν)) (h : other ≠ key) :
    ((key, value) :: items).find? (fun item => item.1 = other) =
      items.find? fun item => item.1 = other := by
  rw [List.find?_cons_of_neg]
  simpa using Ne.symm h

/-- A result that is found after a put of another key has been there before. -/
theorem get_of_get_put {found : ν} (hne : other ≠ key)
    (h : ((cache.put key value).get other).1 = some found) :
    (cache.get other).1 = some found := by
  rw [get_fst] at h ⊢
  rw [put] at h
  split at h
  · rwa [find?_cons_of_ne _ _ hne, find?_eraseP_of_ne _ hne] at h
  · split at h
    · rw [find?_cons_of_ne _ _ hne, Option.map_eq_some_iff] at h
      obtain ⟨item, hfind, hvalue⟩ := h
      rw [(List.dropLast_prefix _).find?_eq_some hfind, Option.map_some, hvalue]
    · rwa [find?_cons_of_ne _ _ hne] at h

end Lookups

section Places

variable {n : Nat} {history : List κ}

/-- The cache has the keys of the history that have the first `n` places. A cache that has been
loaded with more items than it has places keeps their number. -/
structure Keeps (n : Nat) (cache : LRUCache κ ν) (history : List κ) : Prop where
  places : max cache.capacity cache.keys.length = n
  keys : cache.keys = (order history).take n

theorem Keeps.of_nodup (h : cache.keys.Nodup) :
    cache.Keeps (max cache.capacity cache.keys.length) cache.keys where
  places := rfl
  keys := by rw [order_of_nodup h, List.take_of_length_le (Nat.le_max_right _ _)]

theorem Keeps.isSome_get (h : cache.Keeps n history) :
    (cache.get key).1.isSome = true ↔ Recent n key history := by
  rw [← mem_take_order, ← h.keys]
  constructor
  · intro hsome
    by_contra hkey
    rw [get_of_not_mem hkey] at hsome
    cases hsome
  · exact fun hkey => (get_of_mem hkey).1

theorem Keeps.get_eq_none (h : cache.Keeps n history) (hold : ¬ Recent n key history) :
    cache.get key = (none, cache) := by
  rw [← mem_take_order, ← h.keys] at hold
  exact get_of_not_mem hold

/-- A lookup that finds its key. -/
theorem Keeps.get (h : cache.Keeps n history) (hrecent : Recent n key history) :
    (cache.get key).2.Keeps n (key :: history) := by
  have hmem := mem_take_order.2 hrecent
  have hkey := hmem
  rw [← h.keys] at hkey
  have hkeys := (get_of_mem hkey).2
  constructor
  · rw [capacity_get, hkeys, length_touch_of_mem hkey, h.places]
  · rw [hkeys, h.keys, ← take_touch_of_mem hmem]
    rfl

theorem Keeps.put (h : cache.Keeps n history) (hpos : 0 < cache.capacity) :
    (cache.put key value).Keeps n (key :: history) := by
  by_cases hkey : key ∈ cache.keys
  · have hmem := hkey
    rw [h.keys] at hmem
    constructor
    · rw [capacity_put, keys_put_of_mem hkey, length_touch_of_mem hkey, h.places]
    · rw [keys_put_of_mem hkey, h.keys, ← take_touch_of_mem hmem]
      rfl
  · have hold := hkey
    rw [h.keys] at hold
    have hplaces := h.places
    obtain ⟨m, rfl⟩ : ∃ m, n = m + 1 := ⟨n - 1, by omega⟩
    have hput : (order (key :: history)).take (m + 1) = key :: (order history).take m :=
      take_touch_of_not_mem hold
    have hlen : cache.keys.length = min (m + 1) (order history).length := by
      rw [h.keys, List.length_take]
    constructor
    · rw [capacity_put, keys_put_of_not_mem hkey, List.length_cons]
      split
      · rw [List.length_dropLast]
        omega
      · omega
    · rw [keys_put_of_not_mem hkey, hput]
      congr 1
      split
      · next hfull =>
          -- the least recently used key makes room
          rw [List.dropLast_eq_take, h.keys, List.take_take, List.length_take]
          congr 1
          omega
      · next hroom =>
          rw [h.keys, List.take_of_length_le (by omega), List.take_of_length_le (by omega)]

end Places

end LRUCache

end EyaKV.Common
