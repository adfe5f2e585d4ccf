import EyaKV.Base.LinkedLevels
import EyaKV.Store.Codec

/-!
# The skip list

`SkipList` of `common/ds/skip_list.h` with its nodes at addresses, the head at address 0, and the
pointers of each node on its levels. The loops are those of the source over these pointers; a loop
that follows pointers visits at most as many nodes as have been allocated, which ends it also where
the source would go round a cycle. Addresses are never taken again, so a node that has been deleted
is just not pointed to.

Sizes and levels are numbers, the estimate of the memory in use is a `size_t` that may wrap.

A list that is read after a callback has thrown inside `handle_value` shows what the source shows:
the sequence number of the node is odd, and `get_value` returns a default value.
-/

set_option autoImplicit false

namespace EyaKV.Common

open EyaKV.Base EyaKV.Base.Framing EyaKV.Base.LinkedLevels EyaKV.Store

variable {κ ν : Type}

/-- What a list computes with: `compare_func_`, which is a strict total order, and the two size
functions; and what it takes from the types of keys and values: `operator>`, the value of `K()` and
`V()`, and the size of a node. -/
structure SkipListFuncs (κ ν : Type) where
  compare : κ → κ → Ordering
  trans : Std.TransCmp compare
  lawful : Std.LawfulEqCmp compare
  calculateKeySize : κ → UInt64
  calculateValueSize : ν → UInt64
  greater : κ → κ → Bool
  defaultKey : κ
  defaultValue : ν
  nodeSize : UInt64

instance (f : SkipListFuncs κ ν) : Std.TransCmp f.compare := f.trans

instance (f : SkipListFuncs κ ν) : Std.LawfulEqCmp f.compare := f.lawful

/-- A maximal level with which the head can be built: positive, and an `int`. -/
structure MaxLevel where
  toNat : Nat
  pos : 0 < toNat
  lt : toNat < 2 ^ 31

/-- A node, without its pointers. `odd` is the parity of `seq_`. -/
structure SkipListNode (κ ν : Type) where
  key : κ
  value : ν
  odd : Bool := false
  level : Nat
  deriving DecidableEq

/-- `SkipListNode::get_value`: on an odd sequence number the loop ends without reading, with a
default value. -/
def SkipListNode.getValue (f : SkipListFuncs κ ν) (n : SkipListNode κ ν) : ν :=
  if n.odd then f.defaultValue else n.value

/-- `key_size + value_size + sizeof(std::atomic<SkipListNode *>) * level + sizeof(SkipListNode)`. -/
def SkipListNode.cost (f : SkipListFuncs κ ν) (n : SkipListNode κ ν) : UInt64 :=
  f.calculateKeySize n.key + f.calculateValueSize (n.getValue f) + 8 * UInt64.ofNat n.level +
    f.nodeSize

/-- A skip list. `next i a` is the pointer of the node at `a` on level `i`, and the addresses below
`allocated` are taken. -/
structure SkipList (κ ν : Type) where
  maxLevel : MaxLevel
  funcs : SkipListFuncs κ ν
  currentLevel : Nat
  node : Nat → SkipListNode κ ν
  next : Nat → Nat → Option Nat
  allocated : Nat
  size : Nat
  currentSize : UInt64

/-- What `handle_value` is given: the value that it leaves behind, and the exception that it ends
with, if any. -/
abbrev SkipListCallback (ν ε : Type) := ν → ν × Option ε

/-- What a search for a key ends with when it throws. -/
inductive SearchError (ε : Type) where
  | outOfRange (what : String)
  | callback (thrown : ε)
  deriving DecidableEq

namespace SkipList

/-- The address of `head_`. -/
def head : Nat := 0

/-- What `init_current_size` stores. -/
def baseSize (f : SkipListFuncs κ ν) (maxLevel : MaxLevel) : UInt64 :=
  f.calculateKeySize f.defaultKey + f.calculateValueSize f.defaultValue +
    8 * UInt64.ofNat maxLevel.toNat

/-- The node of the head: `SkipListNode(K(), V(), MAX_LEVEL)`. -/
def headNode (f : SkipListFuncs κ ν) (maxLevel : MaxLevel) : SkipListNode κ ν :=
  { key := f.defaultKey, value := f.defaultValue, level := maxLevel.toNat }

/-- The constructor. -/
def create (f : SkipListFuncs κ ν) (maxLevel : MaxLevel) : SkipList κ ν where
  maxLevel := maxLevel
  funcs := f
  currentLevel := 1
  node := fun _ => headNode f maxLevel
  next := fun _ _ => none
  allocated := 1
  size := 0
  currentSize := baseSize f maxLevel

section Loops

variable (l : SkipList κ ν)

/-- The nodes that a loop along a level meets which ends at a null pointer. -/
def nodesOn (i : Nat) : List Nat :=
  (walk (l.next i) (fun _ => true) l.allocated (l.next i head)).1

/-- The loop from the highest level down, along each level while the next key passes the test: the
node that it ends at, and the vector `update` of the nodes that it leaves the levels at. -/
def find (test : κ → Bool) : Nat × (Nat → Nat) :=
  descend l.next (fun a => test (l.node a).key) l.allocated l.currentLevel head

/-- `compare_func_(next_node->key, key) < 0`. -/
def below (key : κ) : κ → Bool := fun k => l.funcs.compare k key == .lt

/-- `compare_func_(next_node->key, key) <= 0`. -/
def upTo (key : κ) : κ → Bool := fun k => (l.funcs.compare k key).isLE

/-- The node behind the place of the key, when it has the key. -/
def findKey (key : κ) : Option Nat :=
  (l.next 0 (l.find (l.below key)).1).filter fun a => l.funcs.compare (l.node a).key key == .eq

/-- Key and value of a node, as the listing functions copy them. -/
def entry (a : Nat) : κ × ν := ((l.node a).key, (l.node a).getValue l.funcs)

/-- `random_level`: the level rises while the generator draws a number below `PROBABILITY`. -/
def randomLevel (maxLevel : Nat) (draws : Nat → Bool) : Nat → Nat → Nat
  | 0, level => level
  | fuel + 1, level =>
      if draws level && level < maxLevel then randomLevel maxLevel draws fuel (level + 1) else level

/-- The loop that lowers the level while the highest one is empty. -/
def lowerLevel (next : Nat → Nat → Option Nat) : Nat → Nat
  | 0 => 0
  | 1 => 1
  | level + 2 => if next (level + 1) head = none then lowerLevel next (level + 1) else level + 2

end Loops

section Insertion

/-- A new node in memory, its pointers null. Its address is `allocated`. -/
def newNode (key : κ) (value : ν) (level : Nat) (l : SkipList κ ν) : SkipList κ ν :=
  { l with
    node := Function.update l.node l.allocated { key := key, value := value, level := level }
    next := fun i => Function.update (l.next i) l.allocated none
    allocated := l.allocated + 1 }

/-- A value is written to a node, and the counter changes by the difference of the sizes. The
difference is that of the values read and written; `old` is the one read. -/
def writeValue (a : Nat) (old value : ν) (l : SkipList κ ν) : SkipList κ ν :=
  { l with
    node := Function.update l.node a { l.node a with value := value }
    currentSize := l.currentSize + (l.funcs.calculateValueSize value -
      l.funcs.calculateValueSize old) }

/-- The part of `insert` for a key that is not there. -/
def linkNode (update : Nat → Nat) (key : κ) (value : ν) (level : Nat) (l : SkipList κ ν) :
    SkipList κ ν :=
  -- On the levels above the highest one so far the head is the predecessor.
  let update := fun i => if l.currentLevel ≤ i then head else update i
  let l' := l.newNode key value level
  { l' with
    currentLevel := if l.currentLevel < level then level else l.currentLevel
    next := link update l.allocated level l'.next
    size := l.size + 1
    currentSize := l.currentSize + (l.funcs.calculateKeySize key +
      l.funcs.calculateValueSize value + 8 * UInt64.ofNat level + l.funcs.nodeSize) }

/-- `SkipList::insert`, with what the generator draws. -/
def insert (draws : Nat → Bool) (key : κ) (value : ν) (l : SkipList κ ν) : SkipList κ ν :=
  match l.findKey key with
  | some a => l.writeValue a ((l.node a).getValue l.funcs) value
  | none =>
      l.linkNode (l.find (l.below key)).2 key value
        (randomLevel l.maxLevel.toNat draws l.maxLevel.toNat 1)

/-- `SkipList::get`. -/
def get (key : κ) (l : SkipList κ ν) : Except String ν :=
  match l.findKey key with
  | some a => .ok ((l.node a).getValue l.funcs)
  | none => .error "Key not found"

/-- `SkipList::handle_value`. The callback works on the value in place: when it throws, what it has
left stays, `seq_` has been increased once, and the counter is as before. -/
def handleValue {ε : Type} (key : κ) (valueHandle : SkipListCallback ν ε) (l : SkipList κ ν) :
    SkipList κ ν × Except (SearchError ε) ν :=
  match l.findKey key with
  | some a =>
      match valueHandle (l.node a).value with
      | (value, none) => (l.writeValue a (l.node a).value value, .ok (l.node a).value)
      | (value, some thrown) =>
          let left := { l.node a with value := value, odd := !(l.node a).odd }
          ({ l with node := Function.update l.node a left }, .error (.callback thrown))
  | none => (l, .error (.outOfRange "Key not found"))

end Insertion

section Removal

/-- `fetch_sub` of 1 on a `size_t`. -/
def decrement (n : Nat) : Nat := if n = 0 then 2 ^ 64 - 1 else n - 1

/-- A node is taken out of the levels and deleted. -/
def unlinkNode (update : Nat → Nat) (a : Nat) (l : SkipList κ ν) : SkipList κ ν :=
  { l with next := unlink update a l.currentLevel 0 l.next, size := decrement l.size }

/-- The counter and the level after nodes have been deleted. -/
def afterRemoval (subSize : UInt64) (l : SkipList κ ν) : SkipList κ ν :=
  { l with
    currentSize := l.currentSize - subSize
    currentLevel := lowerLevel l.next l.currentLevel }

/-- `SkipList::remove`. -/
def remove (key : κ) (l : SkipList κ ν) : Bool × SkipList κ ν :=
  match l.findKey key with
  | some a =>
      (true, (l.unlinkNode (l.find (l.below key)).2 a).afterRemoval ((l.node a).cost l.funcs))
  | none => (false, l)

/-- The loop of `remove_range_by_key`: the nodes from `current` on up to the maximum are deleted.
It keeps the number of deleted nodes and `sub_size`. -/
def removeLoop (update : Nat → Nat) (maxKey : κ) :
    Nat → Option Nat → SkipList κ ν × Nat × UInt64 → SkipList κ ν × Nat × UInt64
  | 0, _, s => s
  | _ + 1, none, s => s
  | fuel + 1, some a, s =>
      if s.1.upTo maxKey (s.1.node a).key then
        removeLoop update maxKey fuel (s.1.next 0 a)
          (s.1.unlinkNode update a, s.2.1 + 1, s.2.2 + (s.1.node a).cost s.1.funcs)
      else s

/-- `SkipList::remove_range_by_key`. The first test uses `operator>`, the others `compare_func_`. -/
def removeRangeByKey (minKey maxKey : κ) (l : SkipList κ ν) : Nat × SkipList κ ν :=
  if l.funcs.greater minKey maxKey then (0, l)
  else
    let found := l.find (l.below minKey)
    let s := removeLoop found.2 maxKey l.allocated (l.next 0 found.1) (l, 0, 0)
    (s.2.1, s.1.afterRemoval s.2.2)

/-- The loop of `remove_range_by_rank` over the keys on the lowest level: the keys at the two ranks,
as far as the list reaches. -/
def rankKeys (startRank endRank : Nat) : List κ → Nat → κ × κ → κ × κ
  | [], _, found => found
  | key :: keys, index, (minKey, maxKey) =>
      let minKey := if index = startRank then key else minKey
      if index = endRank then (minKey, key)
      else rankKeys startRank endRank keys (index + 1) (minKey, maxKey)

/-- `SkipList::remove_range_by_rank`. The two keys are declared without initializer; `unset` is what
they hold in this call. For a class with a constructor of its own that is `K()` twice; the score of
a `ZSetKey` is whatever the memory held, in each of the two. -/
def removeRangeByRank (unset : κ × κ) (startRank endRank : Nat) (l : SkipList κ ν) :
    Nat × SkipList κ ν :=
  if endRank < startRank then (0, l)
  else
    let keys := rankKeys startRank endRank ((l.nodesOn 0).map fun a => (l.node a).key) 0 unset
    l.removeRangeByKey keys.1 keys.2

/-- `SkipList::clear`. -/
def clear (l : SkipList κ ν) : SkipList κ ν :=
  { l with
    next := fun i => if i < l.maxLevel.toNat then Function.update (l.next i) head none else l.next i
    currentLevel := 1
    size := 0
    currentSize := baseSize l.funcs l.maxLevel }

end Removal

section Reading

variable (l : SkipList κ ν)

/-- The loop of `range_by_rank`. -/
def rankLoop (startRank endRank : Nat) : List (κ × ν) → Nat → List (κ × ν)
  | [], _ => []
  | e :: es, index =>
      if index ≤ endRank then
        if startRank ≤ index then e :: rankLoop startRank endRank es (index + 1)
        else rankLoop startRank endRank es (index + 1)
      else []

/-- `SkipList::range_by_rank`. -/
def rangeByRank (startRank endRank : Nat) : List (κ × ν) :=
  if endRank < startRank then []
  else rankLoop startRank endRank ((l.nodesOn 0).map l.entry) 0

/-- `SkipList::range_by_key`. The search goes on over keys equal to the minimum, and the listing
begins with the node that it ends at. -/
def rangeByKey (minKey maxKey : κ) : List (κ × ν) :=
  if l.funcs.greater minKey maxKey then []
  else (walk (l.next 0) (fun a => l.upTo maxKey (l.node a).key) (l.allocated + 1)
    (some (l.find (l.upTo minKey)).1)).1.map l.entry

/-- `SkipList::rank`. -/
def rank (key : κ) : Option Nat :=
  let (passed, current) :=
    walk (l.next 0) (fun a => l.below key (l.node a).key) l.allocated (l.next 0 head)
  match current with
  | some a => if l.funcs.compare (l.node a).key key = .eq then some passed.length else none
  | none => none

/-- `SkipList::get_all_entries`. -/
def getAllEntries : List (κ × ν) := (l.nodesOn 0).map l.entry

/-- `SkipList::for_each`, with what the callback does to a state. -/
def forEach {σ : Type} (callback : σ → κ → ν → σ) (init : σ) : σ :=
  (l.nodesOn 0).foldl (fun s a => callback s (l.entry a).1 (l.entry a).2) init

/-- `SkipList::memory_usage`. -/
def memoryUsage : UInt64 := l.currentSize

end Reading

section Copies

/-- A node is made and put behind the last nodes of its levels. -/
def appendNode (n : SkipListNode κ ν) (s : (Nat → Nat) × SkipList κ ν) :
    (Nat → Nat) × SkipList κ ν :=
  let l' := s.2.newNode n.key n.value n.level
  let linked := attach s.2.allocated n.level (s.1, l'.next)
  (linked.1, { l' with next := linked.2 })

/-- A node as the copy makes it. -/
def copyNode (l : SkipList κ ν) (a : Nat) : SkipListNode κ ν :=
  { key := (l.node a).key, value := (l.node a).getValue l.funcs, level := (l.node a).level }

/-- A new head, with the level and the counters of another list. -/
def copyStart (other : SkipList κ ν) : SkipList κ ν :=
  { create other.funcs other.maxLevel with
    currentLevel := other.currentLevel
    size := other.size
    currentSize := other.currentSize }

/-- The copy constructor; the assignment of another list ends the same way. -/
def copy (other : SkipList κ ν) : SkipList κ ν :=
  (((other.nodesOn 0).map other.copyNode).foldl (fun s n => appendNode n s)
    (fun _ => head, other.copyStart)).2

/-- The move constructor and the assignment of a list that is moved: the new list, and what is left
of the other one. -/
def move (other : SkipList κ ν) : SkipList κ ν × SkipList κ ν :=
  (other, create other.funcs other.maxLevel)

end Copies

section Serialization

/-- The functions that a caller of `serialize` and `deserialize` passes. -/
structure Codecs (κ ν : Type) where
  serializeKey : κ → Bytes
  serializeValue : ν → Bytes
  deserializeKey : Decoder UInt8 κ
  deserializeValue : Decoder UInt8 ν

variable (c : Codecs κ ν)

/-- The encoding of a node. -/
def serializeNode (n : SkipListNode κ ν) : Bytes :=
  be32 n.level ++ (c.serializeKey n.key ++ c.serializeValue n.value)

/-- `SkipList::serialize`. -/
def serialize (l : SkipList κ ν) : Bytes :=
  be32 l.currentLevel ++ (be32 l.size ++
    ((l.nodesOn 0).map l.copyNode).flatMap (serializeNode c))

/-- Level, key and value of a node. -/
def deserializeNode : Decoder UInt8 (SkipListNode κ ν) := fun input => do
  let (level, rest) ← readBe32 input
  let (key, rest) ← c.deserializeKey rest
  let (value, rest) ← c.deserializeValue rest
  return ({ key := key, value := value, level := level }, rest)

/-- `SkipList::deserialize`. A level above the vector `level_nodes` or above the pointers of the
head writes outside of them. The old nodes are not taken out, and the counter stays. -/
def deserialize (l : SkipList κ ν) : Decoder UInt8 (SkipList κ ν) := fun input => do
  let (level, rest) ← readBe32 input
  let currentLevel := if l.maxLevel.toNat < level then l.maxLevel.toNat else level
  let (size, rest) ← readBe32 rest
  let (nodes, rest) ← count (deserializeNode c) size rest
  if nodes.any fun n => currentLevel + 1 < n.level || l.maxLevel.toNat < n.level then none
  else
    let s := nodes.foldl (fun s n => appendNode n s)
      (fun _ => head, { l with currentLevel := currentLevel })
    return ({ s.2 with size := size }, rest)

end Serialization

end SkipList

end EyaKV.Common
