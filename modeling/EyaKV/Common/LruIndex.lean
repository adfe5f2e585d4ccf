import EyaKV.Base.Runs
import EyaKV.Common.LruCache
import EyaKV.Store.Codec

/-!
# The LRU cache with its index

`LRUCache` of `common/ds/lru_cache.h` with both of its structures: the list of items and the hash
index of iterators into it. An iterator of a `std::list` stays with its element, so elements have
numbers here that are never taken again. What the source does through an iterator that has lost its
element, or with the last element of an empty list, has no result.

`Represents` connects it with the list of items alone, and `LruModel` says what the cache is for: at
most as many pairs as it has places, from the most recently used to the least. In a run in which
nothing is put into a cache without places, and nothing is read that has more items than the cache
has places, every cache agrees with its model (`cache_agrees_run`).
-/

set_option autoImplicit false

namespace EyaKV.Common

open EyaKV.Base EyaKV.Base.Framing EyaKV.Base.Machine EyaKV.Base.Recency EyaKV.Store

variable {κ ν : Type} [DecidableEq κ]

section Embedding

/-- `SerializeCommand`. -/
structure SerializeCommand (α : Type) where
  serialize : α → Bytes
  deserialize : Decoder UInt8 α

/-- An element of `items_`, with the number that stands for its address. -/
structure Item (κ ν : Type) where
  id : Nat
  key : κ
  value : ν
  deriving DecidableEq

/-- `LRUCache`. `fresh` is the number of the next element. -/
structure IndexedCache (κ ν : Type) where
  capacity : Nat
  items : List (Item κ ν)
  index : κ → Option Nat
  fresh : Nat
  keySerializer : Option (SerializeCommand κ)
  valueSerializer : Option (SerializeCommand ν)

namespace IndexedCache

omit [DecidableEq κ] in
/-- The constructor. -/
def create (capacity : Nat) : IndexedCache κ ν :=
  { capacity := capacity, items := [], index := fun _ => none, fresh := 0
    keySerializer := none, valueSerializer := none }

/-- The element of an iterator moves to the front, and is changed there. -/
def splice (id : Nat) (change : Item κ ν → Item κ ν) (c : IndexedCache κ ν) :
    Option (IndexedCache κ ν) :=
  (c.items.find? fun item => item.id = id).map fun item =>
    { c with items := change item :: c.items.eraseP fun item => item.id = id }

/-- `LRUCache::get`. -/
def get (key : κ) (c : IndexedCache κ ν) : Option (Option ν × IndexedCache κ ν) :=
  match c.index key with
  | none => some (none, c)
  | some id => do
      let item ← c.items.find? fun item => item.id = id
      let c ← c.splice id fun item => item
      return (some item.value, c)

/-- The least recently used element is taken out. -/
def evict (c : IndexedCache κ ν) : Option (IndexedCache κ ν) :=
  c.items.getLast?.map fun last =>
    { c with items := c.items.dropLast, index := Function.update c.index last.key none }

/-- A new element is put to the front. -/
def pushFront (key : κ) (value : ν) (c : IndexedCache κ ν) : IndexedCache κ ν :=
  { c with
    items := ⟨c.fresh, key, value⟩ :: c.items
    index := Function.update c.index key (some c.fresh)
    fresh := c.fresh + 1 }

/-- `LRUCache::put`. -/
def put (key : κ) (value : ν) (c : IndexedCache κ ν) : Option (IndexedCache κ ν) :=
  match c.index key with
  | some id => c.splice id fun item => { item with value := value }
  | none =>
      if c.capacity ≤ c.items.length then c.evict.map (pushFront key value)
      else some (c.pushFront key value)

/-- `LRUCache::exists`. -/
def existsKey (key : κ) (c : IndexedCache κ ν) : Bool := (c.index key).isSome

/-- `LRUCache::clear`. -/
def clear (c : IndexedCache κ ν) : IndexedCache κ ν := { c with items := [], index := fun _ => none }

/-- `LRUCache::set_key_serializer`. -/
def setKeySerializer (serializer : SerializeCommand κ) (c : IndexedCache κ ν) : IndexedCache κ ν :=
  { c with keySerializer := some serializer }

/-- `LRUCache::set_value_serializer`. -/
def setValueSerializer (serializer : SerializeCommand ν) (c : IndexedCache κ ν) :
    IndexedCache κ ν :=
  { c with valueSerializer := some serializer }

/-- `LRUCache::serialize`: the number of items as a `uint32_t` in host order, and the items from the
front. -/
def serialize (c : IndexedCache κ ν) : Except String Bytes :=
  match c.valueSerializer, c.keySerializer with
  | some valueSerializer, some keySerializer =>
      .ok (le32 (c.items.length % 2 ^ 32) ++ c.items.flatMap fun item =>
        keySerializer.serialize item.key ++ valueSerializer.serialize item.value)
  | _, _ => .error "value_serializer_ or key_serializer_ is null"

/-- The elements that are pushed to the back, in the order in which they are read. -/
def numbered (fresh : Nat) (pairs : List (κ × ν)) : List (Item κ ν) :=
  (pairs.zipIdx fresh).map fun p => ⟨p.2, p.1.1, p.1.2⟩

/-- The loop that builds the index again. -/
def rebuild (items : List (Item κ ν)) : κ → Option Nat :=
  items.foldl (fun index item => Function.update index item.key (some item.id)) fun _ => none

/-- The cache with the pairs that have been read in place of its items. -/
def load (pairs : List (κ × ν)) (c : IndexedCache κ ν) : IndexedCache κ ν :=
  { c with
    items := numbered c.fresh pairs
    index := rebuild (numbered c.fresh pairs)
    fresh := c.fresh + pairs.length }

/-- `LRUCache::deserialize`. The capacity is not looked at. -/
def deserialize (input : Bytes) (c : IndexedCache κ ν) : Option (IndexedCache κ ν × Bytes) := do
  let (size, rest) ← readLe32 input
  let (pairs, rest) ←
    match c.keySerializer, c.valueSerializer with
    | some keySerializer, some valueSerializer =>
        count (Framing.pair keySerializer.deserialize valueSerializer.deserialize) size rest
    | _, _ => if size = 0 then some ([], rest) else none
  return (c.load pairs, rest)

end IndexedCache

end Embedding

section Index

variable {index : κ → Option Nat} {fresh : Nat} {tags : List (Nat × κ)}

/-- The index finds the numbers of the elements by their keys. No number and no key comes twice, and
the numbers have been given out. -/
structure Indexed (index : κ → Option Nat) (fresh : Nat) (tags : List (Nat × κ)) : Prop where
  ids : (tags.map Prod.fst).Nodup
  keys : (tags.map Prod.snd).Nodup
  old : ∀ t ∈ tags, t.1 < fresh
  finds : ∀ key id, index key = some id ↔ (id, key) ∈ tags

namespace Indexed

omit [DecidableEq κ] in
theorem nil (fresh : Nat) : Indexed (fun _ : κ => none) fresh [] where
  ids := List.nodup_nil
  keys := List.nodup_nil
  old := fun _ h => absurd h List.not_mem_nil
  finds := fun _ _ => iff_of_false nofun List.not_mem_nil

variable (h : Indexed index fresh tags)

include h

omit [DecidableEq κ] in
theorem perm {tags' : List (Nat × κ)} (hperm : tags.Perm tags') : Indexed index fresh tags' where
  ids := (hperm.map Prod.fst).nodup_iff.1 h.ids
  keys := (hperm.map Prod.snd).nodup_iff.1 h.keys
  old := fun t ht => h.old t (hperm.mem_iff.2 ht)
  finds := fun key id => (h.finds key id).trans hperm.mem_iff

omit [DecidableEq κ] in
theorem index_eq_none_iff {key : κ} : index key = none ↔ key ∉ tags.map Prod.snd := by
  rw [Option.eq_none_iff_forall_ne_some, List.mem_map]
  constructor
  · rintro hnone ⟨⟨id, k⟩, ht, rfl⟩
    exact hnone id ((h.finds k id).2 ht)
  · exact fun hnot id hid => hnot ⟨(id, key), (h.finds key id).1 hid, rfl⟩

omit [DecidableEq κ] in
/-- Number and key name the same element. -/
theorem id_eq_iff {key : κ} {id : Nat} (hfind : index key = some id) {t : Nat × κ} (ht : t ∈ tags) :
    t.1 = id ↔ t.2 = key := by
  have hmem := (h.finds key id).1 hfind
  constructor
  · exact fun heq => congrArg Prod.snd (List.inj_on_of_nodup_map h.ids ht hmem heq)
  · exact fun heq => congrArg Prod.fst (List.inj_on_of_nodup_map h.keys ht hmem heq)

theorem push {key : κ} (hnew : key ∉ tags.map Prod.snd) :
    Indexed (Function.update index key (some fresh)) (fresh + 1) ((fresh, key) :: tags) where
  ids := by
    refine List.nodup_cons.2 ⟨fun hmem => ?_, h.ids⟩
    obtain ⟨t, ht, heq⟩ := List.mem_map.1 hmem
    exact absurd heq (Nat.ne_of_lt (h.old t ht))
  keys := List.nodup_cons.2 ⟨hnew, h.keys⟩
  old := by
    intro t ht
    rcases List.mem_cons.1 ht with rfl | ht
    · exact Nat.lt_succ_self fresh
    · exact Nat.lt_succ_of_lt (h.old t ht)
  finds := by
    intro k id
    rw [List.mem_cons, Prod.mk.injEq]
    by_cases hk : k = key
    · subst hk
      have hnot : (id, k) ∉ tags := fun ht => hnew (List.mem_map.2 ⟨(id, k), ht, rfl⟩)
      rw [Function.update_self, Option.some.injEq, or_iff_left hnot, and_iff_left rfl, eq_comm]
    · rw [Function.update_of_ne hk, h.finds k id, or_iff_right fun heq => hk heq.2]

theorem pop {last : Nat × κ} {front : List (Nat × κ)} (htags : tags = front ++ [last]) :
    Indexed (Function.update index last.2 none) fresh front := by
  subst htags
  obtain ⟨hids, hkeys, hold, hfinds⟩ := h
  rw [List.map_append] at hids hkeys
  obtain ⟨hids, -, -⟩ := List.nodup_append.1 hids
  obtain ⟨hkeys, -, hne⟩ := List.nodup_append.1 hkeys
  refine ⟨hids, hkeys, fun t ht => hold t (List.mem_append_left _ ht), fun k id => ?_⟩
  by_cases hk : k = last.2
  · rw [hk, Function.update_self]
    refine iff_of_false nofun fun ht => ?_
    exact hne last.2 (List.mem_map.2 ⟨_, ht, rfl⟩) last.2 (List.mem_singleton.2 rfl) rfl
  · rw [Function.update_of_ne hk, hfinds k id, List.mem_append, List.mem_singleton]
    exact or_iff_left fun heq => hk (congrArg Prod.snd heq)

end Indexed

theorem rebuild_finds (hkeys : (tags.map Prod.snd).Nodup) (key : κ) (id : Nat) :
    tags.foldl (fun (index : κ → Option Nat) t => Function.update index t.2 (some t.1)) index key =
        some id ↔
      (id, key) ∈ tags ∨ (key ∉ tags.map Prod.snd ∧ index key = some id) := by
  induction tags generalizing index with
  | nil => exact ⟨fun hid => Or.inr ⟨List.not_mem_nil, hid⟩,
      fun hor => (hor.resolve_left List.not_mem_nil).2⟩
  | cons t tags ih =>
      obtain ⟨hnew, hkeys⟩ := List.nodup_cons.1 hkeys
      rw [List.foldl_cons, ih hkeys, List.mem_cons, List.map_cons, List.mem_cons, not_or]
      by_cases hk : key = t.2
      · subst hk
        have hnot : (id, t.2) ∉ tags := fun ht => hnew (List.mem_map.2 ⟨_, ht, rfl⟩)
        rw [Function.update_self, Option.some.injEq, or_iff_right hnot, and_iff_right hnew,
          or_iff_left fun hand => hand.1.1 rfl, or_iff_left hnot]
        exact ⟨fun heq => Prod.ext heq.symm rfl, fun heq => (congrArg Prod.fst heq).symm⟩
      · rw [Function.update_of_ne hk, or_iff_right (a := (id, key) = t) fun heq =>
          hk (congrArg Prod.snd heq), and_iff_right hk]

end Index

section Refinement

omit [DecidableEq κ] in
/-- Number and key of an element. -/
def Item.tag (item : Item κ ν) : Nat × κ := (item.id, item.key)

omit [DecidableEq κ] in
/-- What the cache stores in an element. -/
def Item.pair (item : Item κ ν) : κ × ν := (item.key, item.value)

/-- The pair is read back, whatever follows. -/
def Reads (k : SerializeCommand κ) (v : SerializeCommand ν) (p : κ × ν) : Prop :=
  (∀ rest, k.deserialize (k.serialize p.1 ++ rest) = some (p.1, rest)) ∧
    ∀ rest, v.deserialize (v.serialize p.2 ++ rest) = some (p.2, rest)

namespace IndexedCache

/-- Index and list are those of a cache without index. -/
structure Represents (k : SerializeCommand κ) (v : SerializeCommand ν) (c : IndexedCache κ ν)
    (cache : LRUCache κ ν) : Prop where
  capacity : c.capacity = cache.capacity
  items : c.items.map Item.pair = cache.items
  indexed : Indexed c.index c.fresh (c.items.map Item.tag)
  keySerializer : c.keySerializer = some k
  valueSerializer : c.valueSerializer = some v

variable {k : SerializeCommand κ} {v : SerializeCommand ν} {c t : IndexedCache κ ν}
  {cache target : LRUCache κ ν} {key : κ} {value : ν} {id : Nat}

omit [DecidableEq κ] in
theorem Represents.keys (h : c.Represents k v cache) :
    (c.items.map Item.tag).map Prod.snd = cache.keys := by
  rw [LRUCache.keys, ← h.items, List.map_map, List.map_map]
  rfl

/-- Looking for the number is looking for the key. -/
theorem find?_eraseP_pair {items : List (Item κ ν)}
    (hiff : ∀ item ∈ items, item.id = id ↔ item.key = key) :
    (items.map Item.pair).find? (fun p => p.1 = key) =
        (items.find? fun item => item.id = id).map Item.pair ∧
      (items.map Item.pair).eraseP (fun p => p.1 = key) =
        (items.eraseP fun item => item.id = id).map Item.pair := by
  induction items with
  | nil => exact ⟨rfl, rfl⟩
  | cons item rest ih =>
      obtain ⟨hfind, herase⟩ := ih fun a ha => hiff a (List.mem_cons_of_mem item ha)
      have hhead := hiff item List.mem_cons_self
      rw [List.map_cons, List.find?_cons, List.find?_cons, List.eraseP_cons, List.eraseP_cons]
      by_cases hid : item.id = id
      · have hkey : item.pair.1 = key := hhead.1 hid
        rw [decide_eq_true hid, decide_eq_true hkey]
        exact ⟨rfl, rfl⟩
      · have hkey : ¬item.pair.1 = key := fun heq => hid (hhead.2 heq)
        rw [decide_eq_false hid, decide_eq_false hkey]
        exact ⟨hfind, congrArg (item.pair :: ·) herase⟩

/-- The element that the index finds for a key. -/
theorem Represents.find (h : c.Represents k v cache) (hindex : c.index key = some id) :
    ∃ item, (c.items.find? fun item => item.id = id) = some item ∧ item.key = key ∧
      (cache.items.find? fun p => p.1 = key) = some item.pair ∧
      (cache.items.eraseP fun p => p.1 = key) =
        (c.items.eraseP fun item => item.id = id).map Item.pair ∧
      c.items.Perm (item :: c.items.eraseP fun item => item.id = id) := by
  have hiff : ∀ item ∈ c.items, item.id = id ↔ item.key = key := fun item hitem =>
    h.indexed.id_eq_iff hindex (List.mem_map_of_mem hitem)
  obtain ⟨hfind, herase⟩ := find?_eraseP_pair hiff
  rw [h.items] at hfind herase
  obtain ⟨found, hfound, htag⟩ := List.mem_map.1 ((h.indexed.finds key id).1 hindex)
  have hid : found.id = id := congrArg Prod.fst htag
  cases hitem : c.items.find? fun item => item.id = id with
  | none => exact absurd (decide_eq_true hid) (List.find?_eq_none.1 hitem found hfound)
  | some item =>
      obtain ⟨hitemId, before, after, heq, hbefore⟩ := List.find?_eq_some_iff_append.1 hitem
      have hmem : item ∈ c.items := List.mem_of_find?_eq_some hitem
      refine ⟨item, rfl, (hiff item hmem).1 (of_decide_eq_true hitemId), ?_, herase, ?_⟩
      · rw [hfind, hitem, Option.map_some]
      · have hrest : (c.items.eraseP fun item => item.id = id) = before ++ after := by
          rw [heq, List.eraseP_append_right _ fun a ha hid => ?_, List.eraseP_cons, hitemId]
          · rfl
          · have hnot := hbefore a ha
            rw [hid] at hnot
            exact absurd hnot Bool.false_ne_true
        rw [hrest, heq]
        exact List.perm_middle

omit [DecidableEq κ] in
theorem splice_eq_some {item : Item κ ν} (hfind : (c.items.find? fun item => item.id = id) = some item)
    (change : Item κ ν → Item κ ν) : c.splice id change = some
      { c with items := change item :: c.items.eraseP fun item => item.id = id } := by
  rw [splice, hfind, Option.map_some]

omit [DecidableEq κ] in
theorem get_eq_some {item : Item κ ν} (hindex : c.index key = some id)
    (hfind : (c.items.find? fun item => item.id = id) = some item) : c.get key = some
      (some item.value, { c with items := item :: c.items.eraseP fun item => item.id = id }) := by
  simp only [IndexedCache.get, hindex, hfind, splice_eq_some hfind, Option.bind_eq_bind,
    Option.bind_some, Option.pure_def]

/-- **`get` refines the lookup of the list.** -/
theorem Represents.get (h : c.Represents k v cache) (key : κ) :
    ∃ c', c.get key = some ((cache.get key).1, c') ∧ c'.Represents k v (cache.get key).2 := by
  cases hindex : c.index key with
  | none =>
      have hkey : key ∉ cache.keys := h.keys ▸ h.indexed.index_eq_none_iff.1 hindex
      rw [LRUCache.get_of_not_mem hkey, IndexedCache.get, hindex]
      exact ⟨c, rfl, h⟩
  | some id =>
      obtain ⟨item, hfind, -, hlookup, herase, hperm⟩ := h.find hindex
      rw [LRUCache.get, hlookup]
      refine ⟨_, get_eq_some hindex hfind, h.capacity, ?_, ?_, h.keySerializer, h.valueSerializer⟩
      · rw [List.map_cons, ← herase]
      · exact h.indexed.perm (hperm.map Item.tag)

theorem evict_eq_some {last : Item κ ν} {front : List (Item κ ν)}
    (hitems : c.items = front ++ [last]) : c.evict = some
      { c with items := front, index := Function.update c.index last.key none } := by
  rw [evict, hitems, List.getLast?_concat, List.dropLast_concat, Option.map_some]

theorem Represents.pushFront (h : c.Represents k v cache) (hkey : key ∉ cache.keys) (value : ν) :
    (c.pushFront key value).Represents k v { cache with items := (key, value) :: cache.items } where
  capacity := h.capacity
  items := congrArg ((key, value) :: ·) h.items
  indexed := h.indexed.push (h.keys ▸ hkey)
  keySerializer := h.keySerializer
  valueSerializer := h.valueSerializer

/-- The oldest element leaves the list and the index. -/
theorem Represents.evict (h : c.Represents k v cache) (hne : cache.items ≠ []) :
    ∃ c', c.evict = some c' ∧ c'.Represents k v { cache with items := cache.items.dropLast } := by
  have hitems : c.items ≠ [] := by
    intro hnil
    rw [← h.items, hnil] at hne
    exact hne rfl
  obtain ⟨front, last, heq⟩ := (List.eq_nil_or_concat' c.items).resolve_left hitems
  have htags : c.items.map Item.tag = front.map Item.tag ++ [last.tag] := by
    rw [heq, List.map_append, List.map_singleton]
  refine ⟨_, evict_eq_some heq, h.capacity, ?_, h.indexed.pop htags, h.keySerializer,
    h.valueSerializer⟩
  rw [← h.items, heq, List.map_append, List.map_singleton, List.dropLast_concat]

/-- **`put` refines the insertion into the list**, as long as there is an element to take out when
one is to be taken out. -/
theorem Represents.put (h : c.Represents k v cache) (key : κ) (value : ν)
    (hroom : key ∉ cache.keys → cache.capacity ≤ cache.items.length → cache.items ≠ []) :
    ∃ c', c.put key value = some c' ∧ c'.Represents k v (cache.put key value) := by
  have hlength : c.items.length = cache.items.length := by rw [← h.items, List.length_map]
  have hany : cache.items.any (fun item => item.1 = key) = true ↔ key ∈ cache.keys := by
    rw [List.any_eq_true, LRUCache.keys, List.mem_map]
    exact exists_congr fun p => and_congr_right fun _ => decide_eq_true_iff
  rw [IndexedCache.put, LRUCache.put]
  cases hindex : c.index key with
  | some id =>
      obtain ⟨item, hfind, hkey, -, herase, hperm⟩ := h.find hindex
      have hmem : key ∈ cache.keys := by
        rw [← h.keys, ← Classical.not_not (a := key ∈ _), ← h.indexed.index_eq_none_iff, hindex]
        exact Option.some_ne_none id
      rw [if_pos (hany.2 hmem)]
      refine ⟨_, splice_eq_some hfind _, h.capacity, ?_, ?_, h.keySerializer, h.valueSerializer⟩
      · rw [List.map_cons, ← herase, ← hkey]
        rfl
      · exact h.indexed.perm (hperm.map Item.tag)
  | none =>
      have hkey : key ∉ cache.keys := h.keys ▸ h.indexed.index_eq_none_iff.1 hindex
      rw [if_neg fun hmem => hkey (hany.1 hmem), h.capacity, hlength]
      by_cases hfull : cache.capacity ≤ cache.items.length
      · obtain ⟨c', hevict, hrepresents⟩ := h.evict (hroom hkey hfull)
        have hkey' : key ∉ LRUCache.keys { cache with items := cache.items.dropLast } := fun hmem =>
          hkey (List.map_subset Prod.fst (List.dropLast_subset cache.items) hmem)
        rw [if_pos hfull, if_pos hfull, hevict]
        exact ⟨_, rfl, hrepresents.pushFront hkey' value⟩
      · rw [if_neg hfull, if_neg hfull]
        exact ⟨_, rfl, h.pushFront hkey value⟩

/-- Without room and without an element `put` takes one out of an empty list. -/
theorem Represents.put_eq_none (h : c.Represents k v cache) (key : κ) (value : ν)
    (hcapacity : cache.capacity = 0) (hnil : cache.items = []) : c.put key value = none := by
  have hitems : c.items = [] := List.map_eq_nil_iff.1 (h.items.trans hnil)
  have hindex : c.index key = none := by
    rw [h.indexed.index_eq_none_iff, h.keys, LRUCache.keys, hnil]
    exact List.not_mem_nil
  rw [IndexedCache.put, hindex, h.capacity, hcapacity, if_pos (Nat.zero_le _), IndexedCache.evict,
    hitems]
  rfl

omit [DecidableEq κ] in
theorem Represents.clear (h : c.Represents k v cache) :
    c.clear.Represents k v { cache with items := [] } where
  capacity := h.capacity
  items := rfl
  indexed := Indexed.nil c.fresh
  keySerializer := h.keySerializer
  valueSerializer := h.valueSerializer

omit [DecidableEq κ] in
theorem Represents.existsKey (h : c.Represents k v cache) (key : κ) :
    c.existsKey key = true ↔ key ∈ cache.keys := by
  rw [IndexedCache.existsKey, Option.isSome_iff_ne_none, ne_eq, h.indexed.index_eq_none_iff, h.keys,
    Classical.not_not]

omit [DecidableEq κ] in
theorem map_pair_numbered (fresh : Nat) (pairs : List (κ × ν)) :
    (numbered fresh pairs).map Item.pair = pairs := by
  rw [numbered, List.map_map]
  exact List.zipIdx_map_fst fresh pairs

omit [DecidableEq κ] in
theorem map_tag_numbered (fresh : Nat) (pairs : List (κ × ν)) :
    ((numbered fresh pairs).map Item.tag).map Prod.fst = List.range' fresh pairs.length ∧
      ((numbered fresh pairs).map Item.tag).map Prod.snd = pairs.map Prod.fst := by
  rw [numbered, List.map_map, List.map_map, List.map_map]
  constructor
  · exact List.zipIdx_map_snd fresh pairs
  · have hkeys := congrArg (List.map Prod.fst) (List.zipIdx_map_fst fresh pairs)
    rw [List.map_map] at hkeys ⊢
    exact hkeys

/-- The index that is built again is right when no key comes twice. -/
theorem indexed_rebuild (fresh : Nat) {pairs : List (κ × ν)} (hkeys : (pairs.map Prod.fst).Nodup) :
    Indexed (rebuild (numbered fresh pairs)) (fresh + pairs.length)
      ((numbered fresh pairs).map Item.tag) := by
  obtain ⟨hids, hnames⟩ := map_tag_numbered fresh pairs
  refine ⟨hids ▸ List.nodup_range', hnames ▸ hkeys, fun t ht => ?_, fun key id => ?_⟩
  · have hmem : t.1 ∈ List.range' fresh pairs.length := hids ▸ List.mem_map_of_mem ht
    exact (List.mem_range'_1.1 hmem).2
  · have hfinds := @rebuild_finds κ _ (fun _ => none) _ (hnames ▸ hkeys) key id
    rw [List.foldl_map] at hfinds
    exact hfinds.trans (or_iff_left fun hand => nomatch hand.2)

/-- **What has been written is read into any cache**, whatever its capacity. -/
theorem Represents.deserialize_serialize (ht : t.Represents k v target) (h : c.Represents k v cache)
    (hkeys : cache.keys.Nodup) (hlength : cache.items.length < 2 ^ 32)
    (hreads : ∀ p ∈ cache.items, Reads k v p) (rest : Bytes) :
    ∃ bytes t', c.serialize = .ok bytes ∧ t.deserialize (bytes ++ rest) = some (t', rest) ∧
      t'.Represents k v { target with items := cache.items } := by
  have hcount : c.items.length = cache.items.length := by rw [← h.items, List.length_map]
  have hdecodes : Decodes (Reads k v) (fun p => k.serialize p.1 ++ v.serialize p.2)
      (Framing.pair k.deserialize v.deserialize) := by
    rintro p ⟨hkey, hvalue⟩ rest
    simp only [Framing.pair, List.append_assoc, hkey, hvalue, Option.bind_eq_bind, Option.bind_some,
      Option.pure_def]
  have hflat : (c.items.flatMap fun item => k.serialize item.key ++ v.serialize item.value) =
      cache.items.flatMap fun p => k.serialize p.1 ++ v.serialize p.2 := by
    rw [← h.items, List.flatMap_map]
    rfl
  have hread := hdecodes.count cache.items hreads rest
  refine ⟨_, t.load cache.items, by rw [serialize, h.keySerializer, h.valueSerializer], ?_, ?_⟩
  · simp only [deserialize, List.append_assoc, hflat, hcount, Nat.mod_eq_of_lt hlength,
      decodes_le32 _ hlength, ht.keySerializer, ht.valueSerializer, hread, Option.bind_eq_bind,
      Option.bind_some, Option.pure_def]
  · exact ⟨ht.capacity, map_pair_numbered t.fresh cache.items, indexed_rebuild t.fresh hkeys,
      ht.keySerializer, ht.valueSerializer⟩

end IndexedCache

end Refinement

section Purpose

/-- What an LRU cache is: at most as many pairs as it has places, no key twice, from the most
recently used one to the least. -/
structure LruModel (κ ν : Type) where
  capacity : Nat
  pairs : List (κ × ν)
  distinct : (pairs.map Prod.fst).Nodup
  bounded : pairs.length ≤ capacity

namespace LruModel

variable (m : LruModel κ ν) {key other : κ} {value : ν}

omit [DecidableEq κ] in
/-- The model without pairs. -/
def empty (capacity : Nat) : LruModel κ ν := ⟨capacity, [], List.nodup_nil, Nat.zero_le _⟩

/-- The value of a key. -/
def lookup (key : κ) : Option ν := (m.pairs.find? fun p => p.1 = key).map Prod.snd

/-- The pairs of the other keys. -/
def others (key : κ) : List (κ × ν) := m.pairs.eraseP fun p => p.1 = key

theorem distinct_cons_others (key : κ) (value : ν) :
    (((key, value) :: m.others key).map Prod.fst).Nodup := by
  rw [List.map_cons, others, LRUCache.keys_eraseP]
  exact List.nodup_cons.2 ⟨m.distinct.not_mem_erase, m.distinct.erase key⟩

/-- The pairs after the use of a key: its own one comes first. -/
def used (key : κ) : List (κ × ν) :=
  match m.pairs.find? fun p => p.1 = key with
  | some p => p :: m.others key
  | none => m.pairs

theorem used_of_some {p : κ × ν} (hfind : (m.pairs.find? fun p => p.1 = key) = some p) :
    m.used key = (key, p.2) :: m.others key := by
  have hkey : p.1 = key := of_decide_eq_true
    (@List.find?_some (κ × ν) (fun p => decide (p.1 = key)) p m.pairs hfind)
  rw [used, hfind, ← hkey]

theorem length_others (hmem : key ∈ m.pairs.map Prod.fst) :
    (m.others key).length + 1 = m.pairs.length := by
  obtain ⟨p, hp, rfl⟩ := List.mem_map.1 hmem
  exact List.length_eraseP_add_one hp (decide_eq_true rfl)

theorem distinct_used (key : κ) : ((m.used key).map Prod.fst).Nodup := by
  cases hfind : m.pairs.find? fun p => p.1 = key with
  | none =>
      rw [used, hfind]
      exact m.distinct
  | some p => exact m.used_of_some hfind ▸ m.distinct_cons_others key p.2

theorem length_used (key : κ) : (m.used key).length = m.pairs.length := by
  rw [used]
  cases hfind : m.pairs.find? fun p => p.1 = key with
  | none => rfl
  | some p =>
      exact List.length_eraseP_add_one (List.mem_of_find?_eq_some hfind)
        (@List.find?_some (κ × ν) (fun p => decide (p.1 = key)) p m.pairs hfind)

/-- A key is used. -/
def use (key : κ) : LruModel κ ν where
  capacity := m.capacity
  pairs := m.used key
  distinct := m.distinct_used key
  bounded := m.length_used key ▸ m.bounded

/-- A value is put first, and what has no place any more is left out. -/
def put (key : κ) (value : ν) : LruModel κ ν where
  capacity := m.capacity
  pairs := ((key, value) :: m.others key).take m.capacity
  distinct := (m.distinct_cons_others key value).sublist ((List.take_sublist _ _).map Prod.fst)
  bounded := (List.length_take_le _ _)

omit [DecidableEq κ] in
/-- The pairs of another model, as far as there are places. -/
def reload (source : LruModel κ ν) : LruModel κ ν where
  capacity := m.capacity
  pairs := source.pairs.take m.capacity
  distinct := source.distinct.sublist ((List.take_sublist _ _).map Prod.fst)
  bounded := List.length_take_le _ _

omit [DecidableEq κ] in
/-- The cache with these items. -/
def toCache : LRUCache κ ν := ⟨m.capacity, m.pairs⟩

theorem get_fst_toCache (key : κ) : (m.toCache.get key).1 = m.lookup key :=
  LRUCache.get_fst key m.toCache

theorem lookup_eq_none_iff : m.lookup key = none ↔ key ∉ m.toCache.keys := by
  rw [lookup, Option.map_eq_none_iff]
  exact @LRUCache.find?_eq_none κ ν _ key m.toCache

/-- A lookup uses the key. -/
theorem get_snd_toCache (key : κ) : (m.toCache.get key).2 = (m.use key).toCache := by
  change _ = LRUCache.mk m.capacity (m.used key)
  rw [LRUCache.get, used, toCache]
  cases m.pairs.find? fun p => p.1 = key with
  | none => rfl
  | some p => rfl

theorem pairs_put : (m.put key value).pairs = ((key, value) :: m.others key).take m.capacity := rfl

theorem others_of_not_mem (hkey : key ∉ m.toCache.keys) : m.others key = m.pairs :=
  List.eraseP_of_forall_not fun p hp hpkey =>
    hkey (List.mem_map.2 ⟨p, hp, of_decide_eq_true hpkey⟩)

theorem put_of_mem (hkey : key ∈ m.toCache.keys) :
    (m.put key value).pairs = (key, value) :: m.others key := by
  refine List.take_of_length_le ?_
  rw [List.length_cons, m.length_others hkey]
  exact m.bounded

/-- A new key takes the place of the last one when all places are taken. -/
theorem put_of_full (hkey : key ∉ m.toCache.keys) (hpos : 0 < m.capacity)
    (hfull : m.capacity ≤ m.pairs.length) :
    (m.put key value).pairs = (key, value) :: m.pairs.dropLast := by
  obtain ⟨n, hn⟩ := Nat.exists_eq_succ_of_ne_zero (Nat.ne_of_gt hpos)
  have hlength : m.pairs.length - 1 = n := by
    have hbounded := m.bounded
    omega
  rw [pairs_put, m.others_of_not_mem hkey, hn, List.take_succ_cons, List.dropLast_eq_take, hlength]

theorem put_of_room (hkey : key ∉ m.toCache.keys) (hroom : m.pairs.length < m.capacity) :
    (m.put key value).pairs = (key, value) :: m.pairs := by
  rw [pairs_put, m.others_of_not_mem hkey]
  exact List.take_of_length_le hroom

/-- A put into the cache is one into the model, as long as there is a place at all. -/
theorem put_toCache (hpos : 0 < m.capacity) (key : κ) (value : ν) :
    m.toCache.put key value = (m.put key value).toCache := by
  rw [LRUCache.put]
  by_cases hkey : key ∈ m.toCache.keys
  · obtain ⟨p, hp, hpkey⟩ := List.mem_map.1 hkey
    rw [if_pos (List.any_eq_true.2 ⟨p, hp, decide_eq_true hpkey⟩)]
    exact congrArg (LRUCache.mk m.capacity) (m.put_of_mem hkey).symm
  · have hany : ¬(m.toCache.items.any fun item => item.1 = key) = true := by
      rintro hany
      obtain ⟨p, hp, hpkey⟩ := List.any_eq_true.1 hany
      exact hkey (List.mem_map.2 ⟨p, hp, of_decide_eq_true hpkey⟩)
    rw [if_neg hany]
    split
    · next hfull => exact congrArg (LRUCache.mk m.capacity) (m.put_of_full hkey hpos hfull).symm
    · next hroom =>
        exact congrArg (LRUCache.mk m.capacity) (m.put_of_room hkey (Nat.lt_of_not_le hroom)).symm

end LruModel

end Purpose

section Runs

open IndexedCache

/-- The caches of a program, by variable. -/
abbrev Caches (κ ν : Type) := Nat → IndexedCache κ ν

/-- An operation on the caches. `deserialize x y` reads into the one what the other has written. -/
inductive CacheOp (κ ν : Type) where
  | put (x : Nat) (key : κ) (value : ν)
  | get (x : Nat) (key : κ)
  | existsKey (x : Nat) (key : κ)
  | clear (x : Nat)
  | deserialize (x y : Nat)

/-- The caches after an operation. -/
def CacheOp.step (caches : Caches κ ν) : CacheOp κ ν → Option (Caches κ ν)
  | .put x key value => ((caches x).put key value).map (Function.update caches x)
  | .get x key => ((caches x).get key).map fun r => Function.update caches x r.2
  | .existsKey _ _ => some caches
  | .clear x => some (Function.update caches x (caches x).clear)
  | .deserialize x y =>
      match (caches y).serialize with
      | .error _ => some caches
      | .ok bytes => ((caches x).deserialize bytes).map fun r => Function.update caches x r.1

/-- What an operation does to the models. -/
def CacheOp.describe (models : Nat → LruModel κ ν) : CacheOp κ ν → Nat → LruModel κ ν
  | .put x key value => Function.update models x ((models x).put key value)
  | .get x key => Function.update models x ((models x).use key)
  | .existsKey _ _ => models
  | .clear x => Function.update models x (.empty (models x).capacity)
  | .deserialize x y => Function.update models x ((models x).reload (models y))

variable (k : SerializeCommand κ) (v : SerializeCommand ν)

/-- A cache that is put into has a place; what is read has no more items than the cache has places,
their number fits its field, and the serializers read them back. -/
def CacheOp.Safe (caches : Caches κ ν) : CacheOp κ ν → Prop
  | .put x _ _ => 0 < (caches x).capacity
  | .deserialize x y => (caches y).items.length ≤ (caches x).capacity ∧
      (caches y).items.length < 2 ^ 32 ∧ ∀ item ∈ (caches y).items, Reads k v item.pair
  | _ => True

/-- The caches at the start. -/
def newCaches (capacity : Nat → Nat) : Caches κ ν := fun x =>
  ((create (capacity x)).setKeySerializer k).setValueSerializer v

/-- Every cache is that of its model. -/
def Tracks (caches : Caches κ ν) (models : Nat → LruModel κ ν) : Prop :=
  ∀ x, (caches x).Represents k v (models x).toCache

variable {k v} {caches : Caches κ ν} {models : Nat → LruModel κ ν}

omit [DecidableEq κ] in
theorem Tracks.update (h : Tracks k v caches models) {x : Nat} {c : IndexedCache κ ν}
    {m : LruModel κ ν} (hc : c.Represents k v m.toCache) :
    Tracks k v (Function.update caches x c) (Function.update models x m) := by
  intro y
  by_cases hy : y = x
  · subst hy
    rw [Function.update_self, Function.update_self]
    exact hc
  · rw [Function.update_of_ne hy, Function.update_of_ne hy]
    exact h y

/-- **A safe operation has a result, and does what it does to the models.** -/
theorem Tracks.step (h : Tracks k v caches models) (op : CacheOp κ ν) (hsafe : op.Safe k v caches) :
    ∃ caches', op.step caches = some caches' ∧ Tracks k v caches' (op.describe models) := by
  cases op with
  | put x key value =>
      have hcapacity : (caches x).capacity = (models x).capacity := (h x).capacity
      have hpos : 0 < (models x).capacity := hcapacity ▸ hsafe
      obtain ⟨c, hput, hc⟩ := (h x).put key value fun _ hfull hnil => by
        rw [hnil] at hfull
        exact Nat.not_le_of_lt hpos hfull
      rw [(models x).put_toCache hpos] at hc
      exact ⟨_, congrArg (Option.map _) hput, h.update hc⟩
  | get x key =>
      obtain ⟨c, hget, hc⟩ := (h x).get key
      rw [(models x).get_snd_toCache] at hc
      exact ⟨_, congrArg (Option.map _) hget, h.update hc⟩
  | existsKey x key => exact ⟨caches, rfl, h⟩
  | clear x => exact ⟨_, rfl, h.update (m := .empty (models x).capacity) (h x).clear⟩
  | deserialize x y =>
      obtain ⟨hroom, hlength, hreads⟩ := hsafe
      have hitems := (h y).items
      have hcount : (caches y).items.length = (models y).pairs.length := by
        rw [← List.length_map (f := Item.pair), hitems]
        rfl
      have hreads' : ∀ p ∈ (models y).toCache.items, Reads k v p := by
        rw [← hitems]
        intro p hp
        obtain ⟨item, hitem, rfl⟩ := List.mem_map.1 hp
        exact hreads item hitem
      have hlength' : (models y).toCache.items.length < 2 ^ 32 := hcount ▸ hlength
      obtain ⟨bytes, c, hserialize, hread, hc⟩ :=
        (h x).deserialize_serialize (h y) (models y).distinct hlength' hreads' []
      -- there is room for all pairs, so reading them back drops none
      have htake : (models y).pairs.take (models x).capacity = (models y).pairs := by
        refine List.take_of_length_le ?_
        have hcapacity := (h x).capacity
        rw [← hcount]
        exact hroom.trans (Nat.le_of_eq hcapacity)
      rw [List.append_nil] at hread
      refine ⟨Function.update caches x c, ?_, h.update ⟨hc.capacity, ?_, hc.indexed,
        hc.keySerializer, hc.valueSerializer⟩⟩
      · rw [CacheOp.step, hserialize]
        exact congrArg (Option.map _) hread
      · exact hc.items.trans htake.symm

/-- A cache agrees with its model: the index finds the elements of the list by their keys, and no
others; the items are those of the model in its order, and not more than there are places; lookups
and tests answer as the model does; and a new key takes the place of the last one when all places
are taken. -/
structure Agrees (c : IndexedCache κ ν) (m : LruModel κ ν) : Prop where
  finds : ∀ key id, c.index key = some id ↔ ∃ item ∈ c.items, item.id = id ∧ item.key = key
  sameKeys : ∀ key, (c.index key).isSome = true ↔ key ∈ c.items.map Item.key
  contents : c.items.map Item.pair = m.pairs
  size : c.items.length ≤ c.capacity
  existsKey : ∀ key, c.existsKey key = (m.lookup key).isSome
  get : ∀ key, ∃ c', c.get key = some (m.lookup key, c')
  evicts : ∀ key value, c.index key = none → 0 < c.capacity → c.items.length = c.capacity →
    ∃ c', c.put key value = some c' ∧
      c'.items.map Item.pair = (key, value) :: (c.items.map Item.pair).dropLast

theorem IndexedCache.Represents.agrees {c : IndexedCache κ ν} {m : LruModel κ ν}
    (h : c.Represents k v m.toCache) : Agrees c m := by
  have hitems : c.items.map Item.pair = m.pairs := h.items
  have hcapacity : c.capacity = m.capacity := h.capacity
  have hlength : c.items.length = m.pairs.length := by rw [← hitems, List.length_map]
  have hkeys : ∀ key, c.index key = none ↔ key ∉ m.toCache.keys := fun key =>
    h.keys ▸ h.indexed.index_eq_none_iff
  refine ⟨fun key id => ?_, fun key => ?_, hitems, ?_, fun key => ?_, fun key => ?_,
    fun key value hindex hpos hfull => ?_⟩
  · rw [h.indexed.finds, List.mem_map]
    exact exists_congr fun item => and_congr_right fun _ => Prod.mk_inj
  · rw [Option.isSome_iff_ne_none, ne_eq, hkeys, Classical.not_not, ← h.keys, List.map_map]
    exact Iff.rfl
  · rw [hlength, hcapacity]
    exact m.bounded
  · rw [Bool.eq_iff_iff, h.existsKey, Option.isSome_iff_ne_none, ne_eq, m.lookup_eq_none_iff,
      Classical.not_not]
  · obtain ⟨c', hget, -⟩ := h.get key
    exact ⟨c', m.get_fst_toCache key ▸ hget⟩
  · rw [hcapacity] at hpos
    obtain ⟨c', hput, hc'⟩ := h.put key value fun _ hfull hnil =>
      Nat.not_le_of_lt hpos (hfull.trans (Nat.le_of_eq (congrArg List.length hnil)))
    refine ⟨c', hput, hc'.items.trans ?_⟩
    rw [m.put_toCache hpos, hitems]
    exact m.put_of_full ((hkeys key).1 hindex) hpos (by omega)

variable (k v)

/-- **In a run of safe operations every cache agrees with its model**, and every operation has a
result. -/
theorem cache_agrees_run (capacity : Nat → Nat) (ops : List (CacheOp κ ν))
    (hops : RunMeets CacheOp.step (CacheOp.Safe k v) (newCaches k v capacity) ops) :
    ∃ caches, run CacheOp.step (newCaches k v capacity) ops = some caches ∧
      ∀ x, Agrees (caches x) (ops.foldl CacheOp.describe (fun y => .empty (capacity y)) x) := by
  have hnew : Tracks k v (newCaches k v capacity) fun y => .empty (capacity y) :=
    fun x => ⟨rfl, rfl, Indexed.nil 0, rfl, rfl⟩
  have hstep : ∀ (caches : Caches κ ν) (models : Nat → LruModel κ ν) (op : CacheOp κ ν),
      Tracks k v caches models → op.Safe k v caches →
        ∃ caches', op.step caches = some caches' ∧ Tracks k v caches' (op.describe models) :=
    fun _ _ op h hsafe => h.step op hsafe
  obtain ⟨caches, hrun, htracks⟩ := run_simulates hstep ops _ _ hnew hops
  exact ⟨caches, hrun, fun x => (htracks x).agrees⟩

/-- Numbers as `uint32_t` in host order. -/
def numberCommand : SerializeCommand Nat := ⟨le32, readLe32⟩

/-- What has been put into one cache is read into another one. -/
theorem cache_agrees_run_of_copy : ∃ caches, run CacheOp.step
    (newCaches numberCommand numberCommand fun _ => 1) [.put 0 5 50, .deserialize 1 0] =
      some caches ∧
    ∀ x, Agrees (caches x) (([.put 0 5 50, .deserialize 1 0] : List (CacheOp Nat Nat)).foldl
      CacheOp.describe (fun _ => .empty 1) x) := by
  refine cache_agrees_run numberCommand numberCommand (fun _ => 1) _ ⟨Nat.zero_lt_one, fun _ h => ?_⟩
  obtain rfl := Option.some.inj h
  refine ⟨⟨by decide, by decide, fun item hitem => ?_⟩, fun _ _ => trivial⟩
  obtain rfl : item = ⟨0, 5, 50⟩ := List.mem_singleton.1 hitem
  exact ⟨fun rest => decodes_le32 5 (by decide) rest, fun rest => decodes_le32 50 (by decide) rest⟩

/-- **A put into a cache without places** takes the last element out of an empty list; **and a cache
takes over more items than it has places.** -/
theorem deserialize_exceeds_capacity :
    run CacheOp.step (newCaches numberCommand numberCommand fun _ => 0) [.put 0 5 50] = none ∧
    ∃ caches, run CacheOp.step (newCaches numberCommand numberCommand fun x => 2 - x)
        [.put 0 5 50, .put 0 6 60, .deserialize 1 0] = some caches ∧
      (caches 1).capacity = 1 ∧ (caches 1).items.map Item.pair = [(6, 60), (5, 50)] ∧
      ¬ Agrees (caches 1) (([.put 0 5 50, .put 0 6 60, .deserialize 1 0] :
        List (CacheOp Nat Nat)).foldl CacheOp.describe (fun x => .empty (2 - x)) 1) := by
  refine ⟨by decide, _, rfl, by decide, by decide, fun hagrees => ?_⟩
  exact absurd hagrees.size (by decide)

end Runs

end EyaKV.Common
