import EyaKV.Base.OrderedMap
import EyaKV.Common.SkipListRuns
import EyaKV.Store.MemTable
import EyaKV.Store.SSTableFile
import Mathlib.Algebra.BigOperators.Fin

/-!
# The shards of a memtable

`MemTable` as it is built: sixteen skip lists, each with a Bloom filter, and one counter. The first
byte of a key chooses its shard, so the shards follow each other in key order; a filter that does
not know a key answers for the list.

`Shows` is the invariant: every list is sound, every key is in the shard of its first byte and known
to the filter there, and the counter is the sum of the sizes. Below the size limit the operations
are those of a finite map, and the listing is its listing (`refines_run`); it is the same for the
memtable with one ordered table that the layers above work with (`agrees_run`).
-/

set_option autoImplicit false

namespace EyaKV.Store

open EyaKV.Base EyaKV.Common EyaKV.Common.SkipList

/-- `calculateStringSize` and `estimateEValueSize`, and the sizes of a node and of a memtable. -/
structure MemTableSizes where
  calculateStringSize : Bytes → UInt64
  estimateEValueSize : EValue → UInt64
  node : UInt64
  memTable : UInt64

/-- The functions of the skip lists: the default comparison of strings and the two sizes. -/
def shardFuncs (sizes : MemTableSizes) : SkipListFuncs Bytes EValue where
  compare := compare
  trans := inferInstance
  lawful := inferInstance
  calculateKeySize := sizes.calculateStringSize
  calculateValueSize := sizes.estimateEValueSize
  greater := fun a b => compare a b == .gt
  defaultKey := []
  defaultValue := {}
  nodeSize := sizes.node

/-- A memtable with its shards. -/
structure ShardedMemTable where
  tables : Fin 16 → SkipList Bytes EValue
  bloomFilters : Fin 16 → BloomFilter
  size : Nat
  memtableSize : UInt64

namespace ShardedMemTable

/-- The filter of an empty shard. -/
def emptyFilter : BloomFilter := BloomFilter.ofExpected (1000000 / 16)

/-- The constructor; the limit is in KB. -/
def new (sizes : MemTableSizes) (memtableSize : UInt64) (skiplistMaxLevel : MaxLevel) :
    ShardedMemTable where
  tables := fun _ => create (shardFuncs sizes) skiplistMaxLevel
  bloomFilters := fun _ => emptyFilter
  size := 0
  memtableSize := memtableSize * 1024

/-- `MemTable::get_shard_index`. -/
def getShardIndex : Bytes → Fin 16
  | [] => 0
  | firstByte :: _ => ⟨min (firstByte.toNat / (256 / 16)) (16 - 1), by omega⟩

/-- `MemTable::memory_usage`. -/
def memoryUsage (sizes : MemTableSizes) (t : ShardedMemTable) : UInt64 :=
  (List.finRange 16).foldl (fun usage i =>
    usage + (t.tables i).memoryUsage + UInt64.ofNat (t.bloomFilters i).bits.length) sizes.memTable

/-- `MemTable::should_flush`. -/
def shouldFlush (sizes : MemTableSizes) (t : ShardedMemTable) : Bool :=
  t.memtableSize != 0 && t.memtableSize ≤ t.memoryUsage sizes

/-- A shard has another list. -/
def setTable (i : Fin 16) (table : SkipList Bytes EValue) (t : ShardedMemTable) :
    ShardedMemTable :=
  { t with tables := Function.update t.tables i table }

/-- A new key is counted and added to the filter of its shard. -/
def countKey (key : Bytes) (t : ShardedMemTable) : ShardedMemTable :=
  { t with
    size := t.size + 1
    bloomFilters := Function.update t.bloomFilters (getShardIndex key)
      ((t.bloomFilters (getShardIndex key)).add key) }

/-- `MemTable::put`, with what the level generator draws. -/
def put (sizes : MemTableSizes) (draws : Nat → Bool) (key : Bytes) (value : EValue)
    (t : ShardedMemTable) : Except String ShardedMemTable :=
  if t.shouldFlush sizes then .error "MemTable size exceeds limit"
  else
    let idx := getShardIndex key
    let table := (t.tables idx).insert draws key value
    .ok (if (t.tables idx).size < table.size then (t.setTable idx table).countKey key
      else t.setTable idx table)

/-- `MemTable::get`. -/
def get (key : Bytes) (t : ShardedMemTable) : Option EValue :=
  let idx := getShardIndex key
  if !(t.bloomFilters idx).mayContain key then none
  else
    match (t.tables idx).get key with
    | .ok value => some value
    | .error _ => none

/-- `MemTable::handle_value`. -/
def handleValue {ε : Type} (key : Bytes) (valueHandle : SkipListCallback EValue ε)
    (t : ShardedMemTable) : ShardedMemTable × Except (SearchError ε) EValue :=
  let idx := getShardIndex key
  if !(t.bloomFilters idx).mayContain key then (t, .error (.outOfRange "Key not found"))
  else
    let (table, result) := (t.tables idx).handleValue key valueHandle
    (t.setTable idx table, result)

/-- The callback of `remove`: it marks the version, and does not throw. -/
def markDeleted : SkipListCallback EValue Empty := fun value => ({ value with deleted := true }, none)

/-- `MemTable::remove`. -/
def remove (draws : Nat → Bool) (key : Bytes) (t : ShardedMemTable) : Bool × ShardedMemTable :=
  let idx := getShardIndex key
  match (t.tables idx).handleValue key markDeleted with
  | (table, .ok _) => (true, t.setTable idx table)
  | (table, .error _) =>
      (false, (t.setTable idx (table.insert draws key { deleted := true })).countKey key)

/-- `MemTable::clear`. -/
def clear (t : ShardedMemTable) : ShardedMemTable :=
  { t with
    tables := fun i => (t.tables i).clear
    bloomFilters := fun _ => emptyFilter
    size := 0 }

/-- `MemTable::get_all_entries`. -/
def getAllEntries (t : ShardedMemTable) : List (Bytes × EValue) :=
  (List.finRange 16).flatMap fun i => (t.tables i).getAllEntries

/-- `MemTable::for_each`, with what the callback does to a state. -/
def forEach {σ : Type} (callback : σ → Bytes → EValue → σ) (init : σ) (t : ShardedMemTable) : σ :=
  t.getAllEntries.foldl (fun s e => callback s e.1 e.2) init

section Order

/-- **The shards follow each other in key order.** -/
theorem getShardIndex_mono {k k' : Bytes} (h : compare k k' = .lt) :
    getShardIndex k ≤ getShardIndex k' := by
  cases k with
  | nil => exact Fin.zero_le _
  | cons b bs =>
      cases k' with
      | nil => cases h
      | cons c cs =>
          have hcons : compare (b :: bs) (c :: cs) = (compare b c).then (compare bs cs) :=
            List.compareLex_cons_cons ..
          have hle : b.toNat ≤ c.toNat := by
            rw [hcons] at h
            cases hbc : compare b c with
            | lt => exact Nat.le_of_lt (UInt8.lt_iff_toNat_lt.1 (Std.compare_eq_lt.1 hbc))
            | eq => exact Nat.le_of_eq (congrArg UInt8.toNat (Std.LawfulEqCmp.eq_of_compare hbc))
            | gt =>
                rw [hbc] at h
                cases h
          rw [getShardIndex, getShardIndex, Fin.mk_le_mk]
          omega

theorem compare_of_getShardIndex_lt {k k' : Bytes} (h : getShardIndex k < getShardIndex k') :
    compare k k' = .lt := by
  cases hcmp : compare k k' with
  | lt => rfl
  | eq =>
      rw [Std.LawfulEqCmp.eq_of_compare hcmp] at h
      exact absurd h (lt_irrefl _)
  | gt => exact absurd (getShardIndex_mono (Std.OrientedCmp.lt_of_gt hcmp)) (not_le_of_gt h)

end Order

section Invariant

/-- The nodes of each shard: they are what its list holds, their keys belong there and are known to
the filter, and the counter counts all of them. -/
structure Shows (sizes : MemTableSizes) (t : ShardedMemTable)
    (nodes : Fin 16 → List (SkipListNode Bytes EValue)) : Prop where
  holds : ∀ i, (t.tables i).Holds (nodes i)
  funcs : ∀ i, (t.tables i).funcs = shardFuncs sizes
  placed : ∀ i, ∀ n ∈ nodes i, getShardIndex n.key = i
  filters : ∀ i, (t.bloomFilters i).bits ≠ []
  contained : ∀ i, ∀ n ∈ nodes i, (t.bloomFilters i).mayContain n.key = true
  size : t.size = ∑ i, (nodes i).length

/-- The value of a key: that of its node in its shard. -/
def look (sizes : MemTableSizes) (nodes : Fin 16 → List (SkipListNode Bytes EValue))
    (key : Bytes) : Option EValue :=
  (shardFuncs sizes).lookup (nodes (getShardIndex key)) key

variable {sizes : MemTableSizes} {t : ShardedMemTable}
variable {nodes : Fin 16 → List (SkipListNode Bytes EValue)} {key : Bytes}

theorem emptyFilter_bits_ne_nil : emptyFilter.bits ≠ [] := by
  rw [emptyFilter, BloomFilter.ofExpected, Ne, List.replicate_eq_nil_iff]
  decide

theorem Shows.mayContain_of_look (h : Shows sizes t nodes) {value : EValue}
    (hlook : look sizes nodes key = some value) :
    (t.bloomFilters (getShardIndex key)).mayContain key = true := by
  obtain ⟨n, hn, rfl, -⟩ := (shardFuncs sizes).mem_of_lookup hlook
  exact h.contained _ n hn

/-- **A filter hides no key.** -/
theorem Shows.get_eq (h : Shows sizes t nodes) (key : Bytes) :
    t.get key = look sizes nodes key := by
  have hget := (h.holds (getShardIndex key)).get key
  rw [h.funcs] at hget
  cases hlook : look sizes nodes key with
  | some value =>
      rw [look] at hlook
      simp only [get, h.mayContain_of_look hlook, Bool.not_true, Bool.false_eq_true, ↓reduceIte,
        hget, hlook]
  | none =>
      rw [look] at hlook
      simp only [get, hget, hlook, ite_self]

/-- The nodes of a shard may change when their keys do not. -/
theorem Shows.setTable (h : Shows sizes t nodes) {i : Fin 16} {table : SkipList Bytes EValue}
    {ns : List (SkipListNode Bytes EValue)} (hholds : table.Holds ns)
    (hsame : (t.tables i).Same table) (hlength : ns.length = (nodes i).length)
    (hkeys : ∀ n ∈ ns, ∃ m ∈ nodes i, m.key = n.key) :
    Shows sizes (t.setTable i table) (Function.update nodes i ns) := by
  have hshard : ∀ j, j = i ∨ j ≠ i := fun j => eq_or_ne j i
  constructor
  · intro j
    rcases hshard j with rfl | hne
    · simpa only [ShardedMemTable.setTable, Function.update_self] using hholds
    · simpa only [ShardedMemTable.setTable, Function.update_of_ne hne] using h.holds j
  · intro j
    rcases hshard j with rfl | hne
    · simpa only [ShardedMemTable.setTable, Function.update_self] using hsame.1.trans (h.funcs j)
    · simpa only [ShardedMemTable.setTable, Function.update_of_ne hne] using h.funcs j
  · intro j n hn
    rcases hshard j with rfl | hne
    · rw [Function.update_self] at hn
      obtain ⟨m, hm, hkey⟩ := hkeys n hn
      rw [← hkey]
      exact h.placed j m hm
    · rw [Function.update_of_ne hne] at hn
      exact h.placed j n hn
  · exact h.filters
  · intro j n hn
    rcases hshard j with rfl | hne
    · rw [Function.update_self] at hn
      obtain ⟨m, hm, hkey⟩ := hkeys n hn
      rw [← hkey]
      exact h.contained j m hm
    · rw [Function.update_of_ne hne] at hn
      exact h.contained j n hn
  · have hlengths : ∀ j, (Function.update nodes i ns j).length = (nodes j).length := by
      intro j
      rcases hshard j with rfl | hne
      · rw [Function.update_self, hlength]
      · rw [Function.update_of_ne hne]
    simp only [hlengths]
    exact h.size

/-- One key more in a shard. -/
theorem Shows.countKey (h : Shows sizes t nodes) {table : SkipList Bytes EValue}
    {ns : List (SkipListNode Bytes EValue)} (hholds : table.Holds ns)
    (hsame : (t.tables (getShardIndex key)).Same table)
    (hlength : ns.length = (nodes (getShardIndex key)).length + 1)
    (hkeys : ∀ n ∈ ns, n.key = key ∨ n ∈ nodes (getShardIndex key)) :
    Shows sizes ((t.setTable (getShardIndex key) table).countKey key)
      (Function.update nodes (getShardIndex key) ns) := by
  -- each part is checked on the shard of the key and on the others
  have hshard : ∀ j, j = getShardIndex key ∨ j ≠ getShardIndex key := fun j => eq_or_ne j _
  constructor
  · intro j
    rcases hshard j with rfl | hne
    · simpa only [ShardedMemTable.countKey, ShardedMemTable.setTable, Function.update_self]
        using hholds
    · simpa only [ShardedMemTable.countKey, ShardedMemTable.setTable, Function.update_of_ne hne]
        using h.holds j
  · intro j
    rcases hshard j with rfl | hne
    · simpa only [ShardedMemTable.countKey, ShardedMemTable.setTable, Function.update_self]
        using hsame.1.trans (h.funcs _)
    · simpa only [ShardedMemTable.countKey, ShardedMemTable.setTable, Function.update_of_ne hne]
        using h.funcs j
  · intro j n hn
    rcases hshard j with rfl | hne
    · rw [Function.update_self] at hn
      rcases hkeys n hn with rfl | hn
      · rfl
      · exact h.placed _ n hn
    · rw [Function.update_of_ne hne] at hn
      exact h.placed j n hn
  · intro j
    rcases hshard j with rfl | hne
    · simp only [ShardedMemTable.countKey, ShardedMemTable.setTable, Function.update_self, Ne,
        ← List.length_eq_zero_iff, BloomFilter.length_add]
      exact fun hnil => h.filters _ (List.length_eq_zero_iff.1 hnil)
    · simpa only [ShardedMemTable.countKey, ShardedMemTable.setTable, Function.update_of_ne hne]
        using h.filters j
  · intro j n hn
    rcases hshard j with rfl | hne
    · rw [Function.update_self] at hn
      simp only [ShardedMemTable.countKey, ShardedMemTable.setTable, Function.update_self]
      rcases hkeys n hn with rfl | hn
      · exact BloomFilter.mayContain_add_self (h.filters _)
      · exact BloomFilter.mayContain_add (h.filters _) (h.contained _ n hn)
    · rw [Function.update_of_ne hne] at hn
      simpa only [ShardedMemTable.countKey, ShardedMemTable.setTable, Function.update_of_ne hne]
        using h.contained j n hn
  · -- one node more in one shard is one more in the sum, as in the counter
    have hsum : ∑ j, (Function.update nodes (getShardIndex key) ns j).length =
        ∑ j, (nodes j).length + 1 := by
      have hlengths : (fun j => (Function.update nodes (getShardIndex key) ns j).length) =
          Function.update (fun j => (nodes j).length) (getShardIndex key) ns.length :=
        Function.comp_update List.length nodes (getShardIndex key) ns
      rw [hlengths, Finset.sum_update_of_mem (Finset.mem_univ _), hlength,
        Finset.sum_eq_add_sum_sdiff_singleton_of_mem (Finset.mem_univ (getShardIndex key))]
      omega
    rw [hsum, ← h.size]
    rfl

/-- Another list of nodes in the shard of a key changes the values of the keys in it. -/
theorem look_update {ns : List (SkipListNode Bytes EValue)} {value : Option EValue}
    (hns : ∀ k, (shardFuncs sizes).lookup ns k = if compare key k = .eq then value
      else (shardFuncs sizes).lookup (nodes (getShardIndex key)) k) (k : Bytes) :
    look sizes (Function.update nodes (getShardIndex key) ns) k =
      if compare key k = .eq then value else look sizes nodes k := by
  rw [look]
  by_cases hshard : getShardIndex k = getShardIndex key
  · rw [hshard, Function.update_self, hns, look, hshard]
  · rw [Function.update_of_ne hshard, if_neg]
    · rfl
    · intro hcmp
      rw [Std.LawfulEqCmp.eq_of_compare hcmp] at hshard
      exact hshard rfl

end Invariant

section Operations

variable {sizes : MemTableSizes} {t : ShardedMemTable}
variable {nodes : Fin 16 → List (SkipListNode Bytes EValue)} {key : Bytes}

/-- **A put that is not refused** sets the value of the key. -/
theorem Shows.put (h : Shows sizes t nodes) (draws : Nat → Bool) (key : Bytes) (value : EValue)
    (hbelow : t.shouldFlush sizes = false) :
    ∃ t' nodes', t.put sizes draws key value = .ok t' ∧ Shows sizes t' nodes' ∧
      ∀ k, look sizes nodes' k = if compare key k = .eq then some value else look sizes nodes k := by
  have hholds := h.holds (getShardIndex key)
  obtain ⟨hinsert, -⟩ := hholds.insert draws key value
  have hsame := same_insert (l := t.tables (getShardIndex key)) draws key value
  rw [h.funcs] at hinsert
  have hlength := (shardFuncs sizes).length_putNode
    { key := key, value := value, level := (t.tables (getShardIndex key)).levelOf draws }
    (nodes (getShardIndex key))
  have hlook := look_update ((shardFuncs sizes).lookup_putNode
    { key := key, value := value, level := (t.tables (getShardIndex key)).levelOf draws }
    (nodes (getShardIndex key)))
  simp only [ShardedMemTable.put, hbelow, Bool.false_eq_true, ↓reduceIte, hholds.size, hinsert.size,
    hlength]
  cases hfound : ((shardFuncs sizes).lookup (nodes (getShardIndex key)) key).isSome with
  | true =>
      simp only [hfound, ↓reduceIte, Nat.lt_irrefl] at hlength ⊢
      refine ⟨_, _, rfl, h.setTable hinsert hsame hlength fun n hn => ?_, hlook⟩
      exact ((shardFuncs sizes).mem_putNode hn).2 hfound
  | false =>
      simp only [hfound, Bool.false_eq_true, ↓reduceIte, Nat.lt_succ_self] at hlength ⊢
      exact ⟨_, _, rfl, h.countKey hinsert hsame hlength fun n hn => ((shardFuncs sizes).mem_putNode hn).1, hlook⟩

/-- A callback that does not throw sets the value of a key that is there. -/
theorem Shows.setValue (h : Shows sizes t nodes) {ε : Type} {old value : EValue}
    (hlook : look sizes nodes key = some old) {valueHandle : SkipListCallback EValue ε}
    (hreturns : valueHandle old = (value, none)) :
    ∃ nodes', ((t.tables (getShardIndex key)).handleValue key valueHandle).2 = .ok old ∧
      Shows sizes (t.setTable (getShardIndex key)
        ((t.tables (getShardIndex key)).handleValue key valueHandle).1) nodes' ∧
      ∀ k, look sizes nodes' k = if compare key k = .eq then some value else look sizes nodes k := by
  have hsome : (t.tables (getShardIndex key)).funcs.lookup (nodes (getShardIndex key)) key =
      some old := by
    rw [h.funcs]
    exact hlook
  obtain ⟨hresult, hholds, -⟩ := (h.holds (getShardIndex key)).handleValue hsome hreturns
  rw [h.funcs] at hholds
  refine ⟨_, hresult, h.setTable hholds (same_handleValue key valueHandle) (List.length_map _)
    fun n hn => ?_, fun k => look_update (fun k => ?_) k⟩
  · obtain ⟨m, hm, rfl⟩ := List.mem_map.1 hn
    refine ⟨m, hm, ?_⟩
    split
    · rfl
    · rfl
  · rw [(shardFuncs sizes).lookup_setValue]
    refine if_ctx_congr Iff.rfl (fun hkey => ?_) fun _ => rfl
    rw [← (shardFuncs sizes).compare_eq_iff.1 hkey]
    exact congrArg (Option.map fun _ => value) hlook

theorem Shows.handleValue_of_none (h : Shows sizes t nodes) {ε : Type}
    (hlook : look sizes nodes key = none) (valueHandle : SkipListCallback EValue ε) :
    (t.tables (getShardIndex key)).handleValue key valueHandle =
      (t.tables (getShardIndex key), .error (.outOfRange "Key not found")) := by
  apply (h.holds (getShardIndex key)).handleValue_of_none
  rw [h.funcs]
  exact hlook

/-- **`remove` leaves a tombstone**, also of a key that was not there. -/
theorem Shows.remove (h : Shows sizes t nodes) (draws : Nat → Bool) (key : Bytes) :
    ∃ nodes', (t.remove draws key).1 = (look sizes nodes key).isSome ∧
      Shows sizes (t.remove draws key).2 nodes' ∧ ∀ k, look sizes nodes' k =
        if compare key k = .eq then some { (look sizes nodes key).getD {} with deleted := true }
        else look sizes nodes k := by
  cases hlook : look sizes nodes key with
  | some old =>
      have hreturns : markDeleted old = ({ old with deleted := true }, none) := rfl
      obtain ⟨nodes', hresult, hshows, hlook'⟩ := h.setValue hlook hreturns
      have hremove : t.remove draws key = (true, t.setTable (getShardIndex key)
          ((t.tables (getShardIndex key)).handleValue key markDeleted).1) := by
        rw [ShardedMemTable.remove, ← Prod.eta
          ((t.tables (getShardIndex key)).handleValue key markDeleted), hresult]
      rw [hremove]
      exact ⟨nodes', rfl, hshows, hlook'⟩
  | none =>
      have hremove : t.remove draws key = (false, (t.setTable (getShardIndex key)
          ((t.tables (getShardIndex key)).insert draws key { deleted := true })).countKey key) := by
        rw [ShardedMemTable.remove, h.handleValue_of_none hlook]
      obtain ⟨hinsert, -⟩ := (h.holds (getShardIndex key)).insert draws key { deleted := true }
      rw [h.funcs] at hinsert
      have hlength := (shardFuncs sizes).length_putNode
        { key := key, value := { deleted := true },
          level := (t.tables (getShardIndex key)).levelOf draws } (nodes (getShardIndex key))
      rw [look] at hlook
      rw [hlook] at hlength
      rw [hremove]
      refine ⟨_, rfl, h.countKey hinsert (same_insert draws key _) hlength
        fun n hn => ((shardFuncs sizes).mem_putNode hn).1, look_update fun k => ?_⟩
      exact (shardFuncs sizes).lookup_putNode _ _ k

theorem Shows.clear (h : Shows sizes t nodes) : Shows sizes t.clear fun _ => [] where
  holds := fun i => (h.holds i).clear.1
  funcs := h.funcs
  placed := fun _ _ hn => absurd hn List.not_mem_nil
  filters := fun _ => emptyFilter_bits_ne_nil
  contained := fun _ _ hn => absurd hn List.not_mem_nil
  size := (Finset.sum_const_zero).symm

theorem shows_new (limit : UInt64) (maxLevel : MaxLevel) :
    Shows sizes (new sizes limit maxLevel) fun _ => [] where
  holds := fun _ => holds_create _ _
  funcs := fun _ => rfl
  placed := fun _ _ hn => absurd hn List.not_mem_nil
  filters := fun _ => emptyFilter_bits_ne_nil
  contained := fun _ _ hn => absurd hn List.not_mem_nil
  size := (Finset.sum_const_zero).symm

end Operations

section Listing

variable {sizes : MemTableSizes} {t : ShardedMemTable}
variable {nodes : Fin 16 → List (SkipListNode Bytes EValue)}

theorem Shows.getAllEntries_eq (h : Shows sizes t nodes) : t.getAllEntries =
    (List.finRange 16).flatMap fun i => (nodes i).map fun n => (n.key, n.value) := by
  rw [ShardedMemTable.getAllEntries]
  congr 1
  funext i
  exact (h.holds i).getAllEntries

/-- **The shards one after the other list the keys in ascending order.** -/
theorem Shows.ascending (h : Shows sizes t nodes) :
    t.getAllEntries.Pairwise fun a b => compare a.1 b.1 = .lt := by
  rw [h.getAllEntries_eq, List.pairwise_flatMap]
  constructor
  · intro i _
    have hsorted := (h.holds i).valid.sorted
    rw [h.funcs] at hsorted
    exact List.pairwise_map.2 hsorted
  · refine (List.pairwise_lt_finRange 16).imp fun {i j} hij e he e' he' => ?_
    obtain ⟨n, hn, rfl⟩ := List.mem_map.1 he
    obtain ⟨n', hn', rfl⟩ := List.mem_map.1 he'
    apply compare_of_getShardIndex_lt
    rw [h.placed i n hn, h.placed j n' hn']
    exact hij

theorem Shows.mem_getAllEntries_iff (h : Shows sizes t nodes) (key : Bytes) (value : EValue) :
    (key, value) ∈ t.getAllEntries ↔ look sizes nodes key = some value := by
  rw [h.getAllEntries_eq, List.mem_flatMap]
  constructor
  · rintro ⟨i, -, he⟩
    obtain ⟨n, hn, heq⟩ := List.mem_map.1 he
    obtain ⟨rfl, rfl⟩ := Prod.mk.inj heq
    have hlookup := (h.holds i).valid.lookup_eq hn
    rw [h.funcs] at hlookup
    rw [look, h.placed i n hn]
    exact hlookup
  · intro hlook
    obtain ⟨n, hn, rfl, rfl⟩ := (shardFuncs sizes).mem_of_lookup hlook
    exact ⟨_, List.mem_finRange _, List.mem_map.2 ⟨n, hn, rfl⟩⟩

theorem Shows.length_getAllEntries (h : Shows sizes t nodes) :
    t.getAllEntries.length = t.size := by
  rw [h.getAllEntries_eq, List.length_flatMap, h.size, Fin.sum_univ_def]
  congr 2
  funext i
  exact List.length_map _

end Listing

section Runs

open EyaKV.Base.Machine

/-- An operation on a memtable. The callback of `handle_value` returns. -/
inductive Op where
  | put (draws : Nat → Bool) (key : Bytes) (value : EValue)
  | remove (draws : Nat → Bool) (key : Bytes)
  | handleValue (key : Bytes) (valueHandle : EValue → EValue)
  | clear

/-- A function as a callback. -/
def returning (valueHandle : EValue → EValue) : SkipListCallback EValue Empty :=
  fun value => (valueHandle value, none)

/-- The table after an operation; a put at the limit throws. -/
def step (sizes : MemTableSizes) (t : ShardedMemTable) : Op → Option ShardedMemTable
  | .put draws key value => (t.put sizes draws key value).toOption
  | .remove draws key => some (t.remove draws key).2
  | .handleValue key valueHandle => some (t.handleValue key (returning valueHandle)).1
  | .clear => some t.clear

/-- A put finds the table below its limit. -/
def Below (sizes : MemTableSizes) (t : ShardedMemTable) : Op → Prop
  | .put _ _ _ => t.shouldFlush sizes = false
  | _ => True

/-- What an operation does to a finite map. -/
def describe (m : StrMap EValue) : Op → StrMap EValue
  | .put _ key value => m.insert key value
  | .remove _ key => m.insert key { m[key]?.getD {} with deleted := true }
  | .handleValue key valueHandle =>
      match m[key]? with
      | some value => m.insert key (valueHandle value)
      | none => m
  | .clear => ∅

/-- The table has the entries of the map. -/
def Refines (sizes : MemTableSizes) (t : ShardedMemTable) (m : StrMap EValue) : Prop :=
  ∃ nodes, Shows sizes t nodes ∧ ∀ key, look sizes nodes key = m[key]?

variable {sizes : MemTableSizes} {t : ShardedMemTable} {m : StrMap EValue}

theorem Refines.step (h : Refines sizes t m) {op : Op} (hop : Below sizes t op) :
    ∃ t', step sizes t op = some t' ∧ Refines sizes t' (describe m op) := by
  obtain ⟨nodes, hshows, hlook⟩ := h
  cases op with
  | put draws key value =>
      obtain ⟨t', nodes', hput, hshows', hlook'⟩ := hshows.put draws key value hop
      refine ⟨t', congrArg Except.toOption hput, nodes', hshows', fun k => ?_⟩
      rw [hlook', hlook, describe, Std.ExtTreeMap.getElem?_insert]
  | remove draws key =>
      obtain ⟨nodes', -, hshows', hlook'⟩ := hshows.remove draws key
      refine ⟨_, rfl, nodes', hshows', fun k => ?_⟩
      rw [hlook', hlook, hlook, describe, Std.ExtTreeMap.getElem?_insert]
  | handleValue key valueHandle =>
      cases hentry : m[key]? with
      | some value =>
          have hsome := (hlook key).trans hentry
          have hreturns : returning valueHandle value = (valueHandle value, none) := rfl
          obtain ⟨nodes', -, hshows', hlook'⟩ := hshows.setValue hsome hreturns
          refine ⟨_, rfl, nodes', ?_, fun k => ?_⟩
          · simp only [ShardedMemTable.handleValue, hshows.mayContain_of_look hsome, Bool.not_true,
              Bool.false_eq_true, ↓reduceIte]
            exact hshows'
          · simp only [hlook', hlook, describe, hentry, Std.ExtTreeMap.getElem?_insert]
      | none =>
          -- Whether the filter answers or the list, nothing changes.
          have hnone := (hlook key).trans hentry
          refine ⟨_, rfl, nodes, ?_, fun k => ?_⟩
          · simp only [ShardedMemTable.handleValue]
            split
            · exact hshows
            · rw [hshows.handleValue_of_none hnone]
              simpa only [ShardedMemTable.setTable, Function.update_eq_self] using hshows
          · simp only [hlook, describe, hentry]
  | clear =>
      refine ⟨_, rfl, _, hshows.clear, fun k => ?_⟩
      rw [describe, Std.ExtTreeMap.getElem?_empty]
      rfl

/-- What one sees of a table is what the map has. -/
theorem Refines.observe (h : Refines sizes t m) : (∀ key, t.get key = m[key]?) ∧
    t.size = m.size ∧ t.getAllEntries = m.toList := by
  obtain ⟨nodes, hshows, hlook⟩ := h
  have hlist : m.toList = t.getAllEntries := by
    apply OrderedMap.toList_eq_of_lookup m _ hshows.ascending
    intro key value
    rw [hshows.mem_getAllEntries_iff, hlook]
  refine ⟨fun key => (hshows.get_eq key).trans (hlook key), ?_, hlist.symm⟩
  rw [← hshows.length_getAllEntries, ← hlist, Std.ExtTreeMap.length_toList]

/-- Operations below the limit have the effect that they have on a map. -/
theorem exists_run (sizes : MemTableSizes) (limit : UInt64) (maxLevel : MaxLevel) (ops : List Op)
    (hops : RunMeets (step sizes) (Below sizes) (new sizes limit maxLevel) ops) :
    ∃ t, run (step sizes) (new sizes limit maxLevel) ops = some t ∧
      Refines sizes t (ops.foldl describe ∅) := by
  have hstep : ∀ (t : ShardedMemTable) (m : StrMap EValue) (op : Op), Refines sizes t m →
      Below sizes t op → ∃ t', step sizes t op = some t' ∧ Refines sizes t' (describe m op) :=
    fun _ _ _ h hop => h.step hop
  have hnew : Refines sizes (new sizes limit maxLevel) ∅ :=
    ⟨_, shows_new limit maxLevel, fun key => Std.ExtTreeMap.getElem?_empty.symm⟩
  exact run_simulates hstep ops _ _ hnew hops

/-- **Below its limit a memtable is a finite map**: after any operations its lookups, its size and
its listing are those of the map, in strictly ascending key order. -/
theorem refines_run (sizes : MemTableSizes) (limit : UInt64) (maxLevel : MaxLevel) (ops : List Op)
    (hops : RunMeets (step sizes) (Below sizes) (new sizes limit maxLevel) ops) :
    ∃ t, run (step sizes) (new sizes limit maxLevel) ops = some t ∧
      (∀ key, t.get key = (ops.foldl describe ∅)[key]?) ∧
      t.size = (ops.foldl describe ∅).size ∧
      t.getAllEntries = (ops.foldl describe ∅).toList ∧
      (t.getAllEntries.Pairwise fun a b => compare a.1 b.1 = .lt) ∧
      ∀ (σ : Type) (callback : σ → Bytes → EValue → σ) (init : σ), t.forEach callback init =
        (ops.foldl describe ∅).toList.foldl (fun s e => callback s e.1 e.2) init := by
  obtain ⟨t, hrun, hrefines⟩ := exists_run sizes limit maxLevel ops hops
  obtain ⟨hget, hsize, hentries⟩ := hrefines.observe
  refine ⟨t, hrun, hget, hsize, hentries, ?_, fun σ callback init => ?_⟩
  · rw [hentries]
    exact Std.ExtTreeMap.ordered_keys_toList
  · rw [forEach, hentries]

/-- The sizes of a 64-bit build, with one size for all versions. -/
def sampleSizes : MemTableSizes := ⟨fun key => UInt64.ofNat (key.length + 32), fun _ => 72, 136, 96⟩

/-- Up to sixteen levels. -/
def sixteenLevels : MaxLevel := ⟨16, by decide, by decide⟩

/-- A key with a first byte above 127, and a tombstone for the empty key. -/
def sampleOps : List Op :=
  [.put (fun _ => true) [200] {}, .remove (fun _ => false) [], .handleValue [200] fun v => v]

/-- A table without a limit. -/
theorem refines_run_of_unlimited :
    ∃ t, run (step sampleSizes) (new sampleSizes 0 sixteenLevels) sampleOps = some t ∧
      (∀ key, t.get key = (sampleOps.foldl describe ∅)[key]?) ∧
      t.size = (sampleOps.foldl describe ∅).size ∧
      t.getAllEntries = (sampleOps.foldl describe ∅).toList ∧
      (t.getAllEntries.Pairwise fun a b => compare a.1 b.1 = .lt) ∧
      ∀ (σ : Type) (callback : σ → Bytes → EValue → σ) (init : σ), t.forEach callback init =
        (sampleOps.foldl describe ∅).toList.foldl (fun s e => callback s e.1 e.2) init :=
  refines_run sampleSizes 0 sixteenLevels sampleOps
    ⟨rfl, fun _ _ => ⟨trivial, fun _ _ => ⟨trivial, fun _ _ => trivial⟩⟩⟩

end Runs

section Agreement

open EyaKV.Base.Machine

/-- An operation on the memtable with one ordered table, which has no limit here. -/
def applyTo (m : MemTable) : Op → MemTable
  | .put _ key value => m.insertNode key value
  | .remove _ key => (m.remove key).2
  | .handleValue key valueHandle => (m.handleValue key fun value => (valueHandle value, none)).1
  | .clear => .new m.memtableSize

/-- The ordered table has the entries of the map. -/
def Matches (m : MemTable) (entries : StrMap EValue) : Prop :=
  m.Normal ∧ ∀ key, m.get key = entries[key]?

theorem Matches.applyTo {m : MemTable} {entries : StrMap EValue} (h : Matches m entries)
    (op : Op) : Matches (applyTo m op) (describe entries op) := by
  obtain ⟨hnormal, hget⟩ := h
  have hinsert : ∀ key value, Matches (m.insertNode key value) (entries.insert key value) := by
    refine fun key value => ⟨MemTable.normal_insertNode hnormal, fun k => ?_⟩
    rw [MemTable.get_insertNode hnormal, hget, Std.ExtTreeMap.getElem?_insert]
    simp only [Std.LawfulEqCmp.compare_eq_iff_eq]
  cases op with
  | put draws key value => exact hinsert key value
  | remove draws key =>
      rw [ShardedMemTable.applyTo, MemTable.remove_eq hnormal, hget]
      exact hinsert key _
  | handleValue key valueHandle =>
      rw [ShardedMemTable.applyTo, describe]
      cases hentry : entries[key]? with
      | some value =>
          rw [MemTable.handleValue_of_some hnormal ((hget key).trans hentry) rfl]
          exact hinsert key _
      | none =>
          rw [MemTable.handleValue_of_none ((hget key).trans hentry)]
          exact ⟨hnormal, hget⟩
  | clear =>
      refine ⟨MemTable.normal_new _, fun key => ?_⟩
      rw [ShardedMemTable.applyTo, describe, MemTable.get_new, Std.ExtTreeMap.getElem?_empty]

theorem Matches.observe {m : MemTable} {entries : StrMap EValue} (h : Matches m entries) :
    (∀ key, m.get key = entries[key]?) ∧ m.size = entries.size ∧
      m.getAllEntries = entries.toList := by
  obtain ⟨hnormal, hget⟩ := h
  have hlist : entries.toList = m.getAllEntries := by
    apply OrderedMap.toList_eq_of_lookup entries
    · exact List.pairwise_map.2 m.table.ordered_keys_toList
    · intro key value
      rw [MemTable.mem_getAllEntries_iff, hget]
  refine ⟨hget, ?_, hlist.symm⟩
  rw [hnormal.counted, ← Std.ExtTreeMap.length_toList, ← Std.ExtTreeMap.length_toList, hlist,
    MemTable.getAllEntries, List.length_map]

theorem matches_run (ops : List Op) : ∀ {m : MemTable} {entries : StrMap EValue},
    Matches m entries → Matches (ops.foldl applyTo m) (ops.foldl describe entries) := by
  induction ops with
  | nil => exact id
  | cons op ops ih => exact fun h => ih (h.applyTo op)

/-- **The shards and the ordered table show the same**, whatever the operations below the limit. -/
theorem agrees_run (sizes : MemTableSizes) (limit : UInt64) (maxLevel : MaxLevel) (ops : List Op)
    (hops : RunMeets (step sizes) (Below sizes) (new sizes limit maxLevel) ops) (limit' : Nat) :
    ∃ t, run (step sizes) (new sizes limit maxLevel) ops = some t ∧
      (∀ key, t.get key = (ops.foldl applyTo (.new limit')).get key) ∧
      t.size = (ops.foldl applyTo (.new limit')).size ∧
      t.getAllEntries = (ops.foldl applyTo (.new limit')).getAllEntries := by
  obtain ⟨t, hrun, hrefines⟩ := exists_run sizes limit maxLevel ops hops
  obtain ⟨hget, hsize, hentries⟩ := hrefines.observe
  have hnew : Matches (.new limit') (∅ : StrMap EValue) :=
    ⟨MemTable.normal_new limit', fun key => by
      rw [MemTable.get_new, Std.ExtTreeMap.getElem?_empty]⟩
  obtain ⟨hget', hsize', hentries'⟩ := (matches_run ops hnew).observe
  refine ⟨t, hrun, fun key => ?_, ?_, ?_⟩
  · rw [hget, hget']
  · rw [hsize, hsize']
  · rw [hentries, hentries']

end Agreement

section Memory

open EyaKV.Base.Machine

/-- The bytes of a memtable: its own, and those of its lists and filters. -/
def storedBytes (sizes : MemTableSizes) (t : ShardedMemTable) : Nat :=
  sizes.memTable.toNat + ((List.finRange 16).map fun i =>
    (t.tables i).storedBytes + (t.bloomFilters i).bits.length).sum

variable {sizes : MemTableSizes} {t : ShardedMemTable}

/-- Every operation works on its list through the operations of the list. -/
theorem accounts_step {op : Op} {t' : ShardedMemTable} (h : ∀ i, (t.tables i).AccountsAt)
    (hstep : step sizes t op = some t') : ∀ i, (t'.tables i).AccountsAt := by
  have hset : ∀ (i : Fin 16) {table : SkipList Bytes EValue}, table.AccountsAt →
      ∀ j, (Function.update t.tables i table j).AccountsAt := by
    intro i table htable j
    rcases eq_or_ne j i with rfl | hne
    · rw [Function.update_self]
      exact htable
    · rw [Function.update_of_ne hne]
      exact h j
  cases op with
  | put draws key value =>
      rw [step, put] at hstep
      split at hstep
      · cases hstep
      · obtain rfl := Option.some.inj hstep
        have hinsert := hset (getShardIndex key) ((h (getShardIndex key)).insert draws key value)
        split
        · exact hinsert
        · exact hinsert
  | remove draws key =>
      obtain rfl := Option.some.inj hstep
      have hmark : ((t.tables (getShardIndex key)).handleValue key markDeleted).1.AccountsAt :=
        (h (getShardIndex key)).handleValue fun _ _ _ => rfl
      rw [remove]
      split
      · next table value heq =>
          rw [heq] at hmark
          exact hset _ hmark
      · next table e heq =>
          rw [heq] at hmark
          exact hset _ (hmark.insert draws key _)
  | handleValue key valueHandle =>
      obtain rfl := Option.some.inj hstep
      rw [handleValue]
      simp only
      split
      · exact h
      · exact hset _ ((h (getShardIndex key)).handleValue fun _ _ _ => rfl)
  | clear =>
      obtain rfl := Option.some.inj hstep
      exact fun i => (h i).clear

/-- The sum over the shards that `memory_usage` makes. -/
theorem foldl_memoryUsage {ι : Type} (usage : ι → UInt64) (bytes bits : ι → Nat)
    (husage : ∀ i, usage i = UInt64.ofNat (bytes i)) (shards : List ι) (start : UInt64) :
    shards.foldl (fun sum i => sum + usage i + UInt64.ofNat (bits i)) start =
      start + UInt64.ofNat (shards.map fun i => bytes i + bits i).sum := by
  induction shards generalizing start with
  | nil => exact (UInt64.add_zero start).symm
  | cons i shards ih =>
      rw [List.foldl_cons, ih, List.map_cons, List.sum_cons, UInt64.ofNat_add, UInt64.ofNat_add,
        husage]
      grind

/-- A memtable whose lists are counted right is counted right. -/
theorem memoryUsage_eq (h : ∀ i, (t.tables i).AccountsAt) :
    t.memoryUsage sizes = UInt64.ofNat (t.storedBytes sizes) := by
  rw [memoryUsage, foldl_memoryUsage _ _ _ fun i => (h i).memoryUsage, storedBytes, UInt64.ofNat_add,
    UInt64.ofNat_toNat]

/-- **In a run of accounted operations the memory counter of a skip list is what its head and its
nodes take**, and a memtable asks to be flushed when what it stores reaches the limit. -/
theorem memoryUsage_run {κ ν ε : Type} (c : Codecs κ ν) (f : Nat → SkipListFuncs κ ν)
    (maxLevel : Nat → MaxLevel) (ops : List (SkipList.Op κ ν ε))
    (hops : RunMeets (SkipList.step c) (Accounted c) (newLists f maxLevel) ops) :
    (∃ lists, run (SkipList.step c) (newLists f maxLevel) ops = some lists ∧
      ∀ x, (lists x).memoryUsage = UInt64.ofNat (lists x).storedBytes ∧
        ((lists x).storedBytes < 2 ^ 64 →
          (lists x).memoryUsage.toNat = (lists x).storedBytes)) ∧
    ∀ (sizes : MemTableSizes) (limit : UInt64) (maxLevel : MaxLevel) (ops : List Op)
      (t : ShardedMemTable), run (step sizes) (new sizes limit maxLevel) ops = some t →
        t.shouldFlush sizes = (t.memtableSize != 0 &&
          decide (t.memtableSize ≤ UInt64.ofNat (t.storedBytes sizes))) := by
  constructor
  · obtain ⟨lists, hrun, haccounts⟩ := accounts_run c f maxLevel ops hops
    refine ⟨lists, hrun, fun x => ?_⟩
    have husage := (haccounts x).memoryUsage
    refine ⟨husage, fun hlt => ?_⟩
    rw [husage, UInt64.toNat_ofNat', Nat.mod_eq_of_lt hlt]
  · intro sizes limit maxLevel ops t hrun
    have haccounts := run_invariant (P := fun t : ShardedMemTable => ∀ i, (t.tables i).AccountsAt)
      (fun _ _ _ h hstep => accounts_step h hstep) ops _ t (fun i => accountsAt_create _ _) hrun
    rw [shouldFlush, memoryUsage_eq haccounts]

/-- Two lists of one node each. -/
theorem accounted_copy : Accounted numberCodecs
    (Function.update (Function.update numberLists 0 ((numberLists 0).insert (fun _ => true) 5 50)) 1
      ((numberLists 1).insert (fun _ => true) 7 50)) (.deserialize 1 0 : SkipList.Op Nat Nat Unit) := by
  refine ⟨⟨rfl, rfl, fun n hn => ?_, by decide, fun m hm => ?_⟩, by decide⟩
  · obtain rfl : n = { key := 5, value := 50, level := 2 } := List.mem_singleton.1 hn
    exact ⟨fun rest => decodes_be32 5 (by decide) rest,
      fun rest => decodes_be32 50 (by decide) rest⟩
  · obtain rfl : m = { key := 7, value := 50, level := 2 } := List.mem_singleton.1 hm
    exact ⟨{ key := 5, value := 50, level := 2 }, List.mem_singleton.2 rfl, Nat.le_refl 2⟩

/-- One list is read into another one of the same cost. -/
theorem memoryUsage_run_of_copy :
    (∃ lists, run (SkipList.step numberCodecs) numberLists
        ([.insert 0 (fun _ => true) 5 50, .insert 1 (fun _ => true) 7 50, .deserialize 1 0] :
          List (SkipList.Op Nat Nat Unit)) = some lists ∧
      ∀ x, (lists x).memoryUsage = UInt64.ofNat (lists x).storedBytes ∧
        ((lists x).storedBytes < 2 ^ 64 →
          (lists x).memoryUsage.toNat = (lists x).storedBytes)) ∧
    ∀ (sizes : MemTableSizes) (limit : UInt64) (maxLevel : MaxLevel) (ops : List Op)
      (t : ShardedMemTable), run (step sizes) (new sizes limit maxLevel) ops = some t →
        t.shouldFlush sizes = (t.memtableSize != 0 &&
          decide (t.memtableSize ≤ UInt64.ofNat (t.storedBytes sizes))) :=
  memoryUsage_run numberCodecs (fun _ => numberFuncs) (fun _ => twoLevels) _
    ⟨trivial, fun _ h => Option.some.inj h ▸ ⟨trivial, fun _ h => Option.some.inj h ▸
      ⟨accounted_copy, fun _ _ => trivial⟩⟩⟩

/-- **A list that is read into an empty one is not counted**, and the removal of its node makes the
counter wrap. -/
theorem remove_underflows :
    (∃ lists, run (SkipList.step numberCodecs) numberLists
        ([.insert 0 (fun _ => true) 5 50, .deserialize 1 0] : List (SkipList.Op Nat Nat Unit)) =
          some lists ∧
      (lists 1).memoryUsage = 20 ∧ (lists 1).storedBytes = 130) ∧
    ∃ lists, run (SkipList.step numberCodecs) numberLists
        ([.insert 0 (fun _ => true) 5 50, .deserialize 1 0, .remove 1 5] :
          List (SkipList.Op Nat Nat Unit)) = some lists ∧
      (lists 1).storedBytes = 20 ∧ (lists 1).memoryUsage.toNat = 2 ^ 64 - 90 :=
  ⟨⟨_, rfl, by decide, by decide⟩, ⟨_, rfl, by decide, by decide⟩⟩

end Memory

end ShardedMemTable

end EyaKV.Store
