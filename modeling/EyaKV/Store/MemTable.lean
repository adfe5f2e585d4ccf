import EyaKV.Store.Value

/-!
# Memtables

A `MemTable` maps keys to skip-list nodes. A node carries its value and the parity
of its sequence number: a callback that throws inside `handle_value` leaves the
number changed by one, and a node with an odd number reads as the default value
(`Node.getValue`). The sixteen shards split the key range in order and the Bloom
filters only skip keys that are absent, so one ordered map stands for them.

The memory in use depends on the random tower heights of the nodes; it is the
parameter `usage` of the operations that compare it with the size limit.

`Normal` is the usual condition of a table: no callback has thrown in it, and the
counter counts its entries. Under it each operation has a lookup equation
(`get_insertNode`, `get_remove`, `handleValue_of_some`), and every operation whose
callback does not throw preserves it.
-/

set_option autoImplicit false

namespace EyaKV.Store

/-- A skip-list node: its value, and whether `seq_` is odd. -/
structure Node where
  value : EValue
  odd : Bool := false
  deriving DecidableEq

/-- `SkipListNode::get_value`: on an odd sequence number the read loop ends
without reading, with a default value. -/
def Node.getValue (node : Node) : EValue := if node.odd then default else node.value

/-- A memtable: the nodes in key order, the entry counter `size_`, and the size
limit `memtable_size_` (0 for none). -/
structure MemTable where
  table : StrMap Node
  size : Nat
  memtableSize : Nat
  deriving DecidableEq

/-- A callback of `handle_value`: the value it leaves behind, and the exception
it ends with, if any. -/
abbrev ValueHandle := EValue → EValue × Option StdException

namespace MemTable

/-- An empty memtable with the given limit. -/
def new (limit : Nat) : MemTable := ⟨∅, 0, limit⟩

/-- `MemTable::should_flush`. -/
def shouldFlush (usage : MemTable → Nat) (m : MemTable) : Bool :=
  m.memtableSize != 0 && m.memtableSize ≤ usage m

/-- `SkipList::insert` with the counter update of its callers: a node that exists
keeps its sequence number. -/
def insertNode (m : MemTable) (key : Bytes) (value : EValue) : MemTable :=
  match m.table[key]? with
  | some node => { m with table := m.table.insert key { node with value := value } }
  | none => { m with table := m.table.insert key { value := value }, size := m.size + 1 }

/-- `MemTable::put`. -/
def put (usage : MemTable → Nat) (m : MemTable) (key : Bytes) (value : EValue) : Result MemTable :=
  if m.shouldFlush usage then .error (.overflowError "MemTable size exceeds limit")
  else .ok (m.insertNode key value)

/-- `MemTable::get`. -/
def get (m : MemTable) (key : Bytes) : Option EValue := m.table[key]?.map Node.getValue

/-- `MemTable::handle_value`. The callback works on the node's value in place, so
the value it leaves stays also when it throws. -/
def handleValue (m : MemTable) (key : Bytes) (valueHandle : ValueHandle) :
    MemTable × Result EValue :=
  match m.table[key]? with
  | none => (m, .error (.outOfRange "Key not found"))
  | some node =>
      match valueHandle node.value with
      | (value, none) =>
          ({ m with table := m.table.insert key { node with value := value } }, .ok node.value)
      | (value, some e) =>
          ({ m with table := m.table.insert key { value := value, odd := !node.odd } }, .error e)

/-- `MemTable::remove`: marks the entry, or inserts a tombstone. -/
def remove (m : MemTable) (key : Bytes) : Bool × MemTable :=
  match m.handleValue key fun v => ({ v with deleted := true }, none) with
  | (m', .ok _) => (true, m')
  | (m', .error _) => (false, m'.insertNode key { deleted := true })

/-- `MemTable::get_all_entries`. -/
def getAllEntries (m : MemTable) : List (Bytes × EValue) :=
  m.table.toList.map fun e => (e.1, e.2.getValue)

/-- `MemTable::cancel_size_limit`. -/
def cancelSizeLimit (m : MemTable) : MemTable := { m with memtableSize := 0 }

/-- `MemTable::set_size_limit`. -/
def setSizeLimit (m : MemTable) (size : Nat) : MemTable := { m with memtableSize := size }

/-- The counter counts the entries, also of a table in which a callback has thrown. -/
def Counted (m : MemTable) : Prop := m.size = m.table.size

/-- No callback has thrown in this table, and the counter counts its entries. -/
structure Normal (m : MemTable) : Prop where
  even : ∀ (key : Bytes) (node : Node), m.table[key]? = some node → node.odd = false
  counted : m.size = m.table.size

section Lookups

variable {usage : MemTable → Nat} {m : MemTable} {key : Bytes} {value : EValue}

@[simp] theorem get_new (limit : Nat) : (new limit).get key = none := by
  simp [new, get]

@[simp] theorem get_cancelSizeLimit : m.cancelSizeLimit.get = m.get := rfl

@[simp] theorem get_setSizeLimit (size : Nat) : (m.setSizeLimit size).get = m.get := rfl

theorem shouldFlush_of_no_limit (h : m.memtableSize = 0) : m.shouldFlush usage = false := by
  rw [shouldFlush, h]
  rfl

theorem normal_new (limit : Nat) : (new limit).Normal :=
  ⟨fun key node h => by simp [new] at h, rfl⟩

theorem put_of_shouldFlush (key : Bytes) (value : EValue)
    (h : m.shouldFlush usage = true) :
    m.put usage key value = .error (.overflowError "MemTable size exceeds limit") := by
  rw [put, if_pos h]

theorem put_of_not_shouldFlush (key : Bytes) (value : EValue)
    (h : m.shouldFlush usage = false) :
    m.put usage key value = .ok (m.insertNode key value) := by
  rw [put, if_neg (by rw [h]; decide)]

theorem get_eq_some_iff (hnormal : m.Normal) :
    m.get key = some value ↔ m.table[key]? = some { value := value } := by
  rw [get, Option.map_eq_some_iff]
  constructor
  · rintro ⟨node, hnode, rfl⟩
    obtain ⟨v, odd⟩ := node
    obtain rfl := hnormal.even key _ hnode
    exact hnode
  · exact fun h => ⟨_, h, rfl⟩

theorem get_eq_none_iff : m.get key = none ↔ m.table[key]? = none := by
  rw [get, Option.map_eq_none_iff]

/-- A table without entries has the counter 0, and conversely. -/
theorem get_eq_none_of_size (hcounted : m.Counted) (h : m.size = 0) (key : Bytes) :
    m.get key = none := by
  rw [hcounted, ← Std.ExtTreeMap.eq_empty_iff_size_eq_zero] at h
  rw [get_eq_none_iff, h, Std.ExtTreeMap.getElem?_empty]

/-- The table after an entry has been set to an even node. -/
theorem get_insert_even {table : StrMap Node} {size limit : Nat} (key' : Bytes) :
    (MemTable.mk (table.insert key { value := value }) size limit).get key' =
      if key = key' then some value else (MemTable.mk table size limit).get key' := by
  simp only [get, Std.ExtTreeMap.getElem?_insert, Std.LawfulEqCmp.compare_eq_iff_eq]
  split
  · rfl
  · rfl

theorem even_insert_even (hnormal : m.Normal) :
    ∀ (key' : Bytes) (node : Node),
      (m.table.insert key { value := value })[key']? = some node → node.odd = false := by
  intro key' node h
  simp only [Std.ExtTreeMap.getElem?_insert] at h
  split at h
  · obtain rfl := Option.some.inj h
    rfl
  · exact hnormal.even key' node h

/-- A put in a normal table sets the entry to an even node and counts a new key. -/
theorem insertNode_eq (key : Bytes) (value : EValue) (hnormal : m.Normal) :
    m.insertNode key value = ⟨m.table.insert key { value := value },
      (m.table.insert key { value := value }).size, m.memtableSize⟩ := by
  unfold insertNode
  rw [Std.ExtTreeMap.size_insert, Std.ExtTreeMap.contains_eq_isSome_getElem?, ← hnormal.counted]
  cases h : m.table[key]? with
  | none => rfl
  | some node =>
      obtain ⟨v, odd⟩ := node
      obtain rfl := hnormal.even key _ h
      rfl

theorem get_insertNode (hnormal : m.Normal) (key' : Bytes) :
    (m.insertNode key value).get key' = if key = key' then some value else m.get key' := by
  rw [insertNode_eq key value hnormal, get_insert_even]
  rfl

theorem normal_insertNode (hnormal : m.Normal) : (m.insertNode key value).Normal := by
  rw [insertNode_eq key value hnormal]
  exact ⟨even_insert_even hnormal, rfl⟩

@[simp] theorem memtableSize_insertNode :
    (m.insertNode key value).memtableSize = m.memtableSize := by
  unfold insertNode
  split
  · rfl
  · rfl

end Lookups

section Handlers

variable {m : MemTable} {key : Bytes} {v v' : EValue} {valueHandle : ValueHandle}

theorem handleValue_of_none (h : m.get key = none) :
    m.handleValue key valueHandle = (m, .error (.outOfRange "Key not found")) := by
  rw [handleValue, get_eq_none_iff.1 h]

/-- On an entry of a normal table, a callback that does not throw has the effect of
a put. -/
theorem handleValue_of_some (hnormal : m.Normal) (h : m.get key = some v)
    (hhandle : valueHandle v = (v', none)) :
    m.handleValue key valueHandle = (m.insertNode key v', .ok v) := by
  have hnode := (get_eq_some_iff hnormal).1 h
  rw [handleValue, hnode]
  simp only [hhandle, insertNode, hnode]

/-- A removal has the effect of a put of the marked version. -/
theorem remove_eq (hnormal : m.Normal) :
    (m.remove key).2 = m.insertNode key { (m.get key).getD {} with deleted := true } := by
  unfold remove
  cases h : m.get key with
  | none => rw [handleValue_of_none h]; rfl
  | some v => rw [handleValue_of_some hnormal h rfl]; rfl

end Handlers

section Counting

variable {m : MemTable} {key : Bytes}

theorem counted_new (limit : Nat) : (new limit).Counted := rfl

theorem counted_insertNode (h : m.Counted) (key : Bytes) (value : EValue) :
    (m.insertNode key value).Counted := by
  unfold insertNode
  cases hnode : m.table[key]? with
  | some node =>
      simp only [Counted, Std.ExtTreeMap.size_insert, Std.ExtTreeMap.contains_eq_isSome_getElem?,
        hnode, Option.isSome_some, ↓reduceIte]
      exact h
  | none =>
      simp only [Counted, Std.ExtTreeMap.size_insert, Std.ExtTreeMap.contains_eq_isSome_getElem?,
        hnode, Option.isSome_none, Bool.false_eq_true, ↓reduceIte]
      exact congrArg Nat.succ h

/-- A node that exists is written again, and nothing else happens to the table. -/
theorem counted_insert_node (h : m.Counted) {node : Node} (hnode : m.table[key]? = some node)
    (node' : Node) : ({ m with table := m.table.insert key node' } : MemTable).Counted := by
  simp only [Counted, Std.ExtTreeMap.size_insert, Std.ExtTreeMap.contains_eq_isSome_getElem?,
    hnode, Option.isSome_some, ↓reduceIte]
  exact h

/-- A callback works on one node, whether it throws or not. -/
theorem counted_handleValue (h : m.Counted) (key : Bytes) (valueHandle : ValueHandle) :
    (m.handleValue key valueHandle).1.Counted := by
  cases hnode : m.table[key]? with
  | none =>
      simp only [handleValue, hnode]
      exact h
  | some node =>
      cases hhandle : valueHandle node.value with
      | mk value thrown =>
      cases thrown with
      | none =>
          simp only [handleValue, hnode, hhandle]
          exact counted_insert_node h hnode _
      | some e =>
          simp only [handleValue, hnode, hhandle]
          exact counted_insert_node h hnode _

@[simp] theorem memtableSize_handleValue (key : Bytes) (valueHandle : ValueHandle) :
    (m.handleValue key valueHandle).1.memtableSize = m.memtableSize := by
  cases hnode : m.table[key]? with
  | none => simp only [handleValue, hnode]
  | some node =>
      cases hhandle : valueHandle node.value with
      | mk value thrown =>
      cases thrown with
      | none => simp only [handleValue, hnode, hhandle]
      | some e => simp only [handleValue, hnode, hhandle]

/-- A removal marks the node with a callback, or inserts one. -/
theorem remove_cases (m : MemTable) (key : Bytes) :
    ∃ f, (m.remove key).2 = (m.handleValue key f).1 ∨
      (m.remove key).2 = (m.handleValue key f).1.insertNode key { deleted := true } := by
  refine ⟨fun v => ({ v with deleted := true }, none), ?_⟩
  cases hresult : m.handleValue key fun v => ({ v with deleted := true }, none) with
  | mk m' result =>
  cases result with
  | ok v =>
      simp only [remove, hresult]
      exact Or.inl trivial
  | error e =>
      simp only [remove, hresult]
      exact Or.inr trivial

end Counting

/-- The listed entries of a memtable are its lookups. -/
theorem mem_getAllEntries_iff {m : MemTable} {key : Bytes} {value : EValue} :
    (key, value) ∈ m.getAllEntries ↔ m.get key = some value := by
  simp only [getAllEntries, List.mem_map, Prod.mk.injEq, get, Option.map_eq_some_iff]
  constructor
  · rintro ⟨⟨k, node⟩, hmem, rfl, rfl⟩
    exact ⟨node, Std.ExtTreeMap.mem_toList_iff_getElem?_eq_some.1 hmem, rfl⟩
  · rintro ⟨node, hnode, rfl⟩
    exact ⟨(key, node), Std.ExtTreeMap.mem_toList_iff_getElem?_eq_some.2 hnode, rfl, rfl⟩

/-- The counter of a table is 0 only when it has no entries. -/
theorem getAllEntries_ne_nil {m : MemTable} (hcounted : m.Counted) (h : m.size ≠ 0) :
    m.getAllEntries ≠ [] := by
  intro hnil
  rw [getAllEntries, List.map_eq_nil_iff] at hnil
  rw [hcounted, ← Std.ExtTreeMap.length_toList, hnil] at h
  exact h rfl

theorem getAllEntries_distinct (m : MemTable) :
    m.getAllEntries.Pairwise fun a b => ¬ compare a.1 b.1 = .eq :=
  List.pairwise_map.2 m.table.distinct_keys_toList

end MemTable

end EyaKV.Store
