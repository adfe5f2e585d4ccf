import EyaKV.Base.SortedList
import EyaKV.Store.Codec
import Mathlib.Data.Prod.Lex
import Mathlib.Data.List.Perm.Basic

/-!
# The sorted set and its two structures

A `ZSet` keeps its members twice: in a skip list ordered by score and member, and in a map from
the member to its score. Every operation updates both. `ZSet.Coherent` says that the skip list
holds the pairs of the map and nothing else, each once; the queries then describe one set
(`ZSet.Describes`).

The scores come from a linear order: `LinearScores` gives the operations on `double` that the
comparisons need, on the patterns that are numbers. Two operations do not keep the structures
together in every state. A removal by score erases the member in front of the range from the
map, or the member "" that the sentinel stands for (`CleanRange` says when nothing is erased
too much); and a removal by rank with an end past the last rank removes up to a key that is
never set.
-/

set_option autoImplicit false

namespace EyaKV.Store

open EyaKV.Base EyaKV.Base.Framing

section Queries

variable (F : FloatOps)

/-- `SkipList::rank`. -/
def skipRank (key : ZSetKey) (list : ZSkipList) : Option Nat :=
  let before := list.takeWhile fun node => compareZsetKeys F node.1 key == .lt
  match list[before.length]? with
  | some node => if compareZsetKeys F node.1 key == .eq then some before.length else none
  | none => none

namespace ZSet

/-- `ZSet::zscore`. -/
def zscore (z : ZSet) (member : Bytes) : Option Bytes := z.memberScoreMap[member]?.map F.toString

/-- `ZSet::zrank`. -/
def zrank (z : ZSet) (member : Bytes) : Option Nat :=
  match z.memberScoreMap[member]? with
  | some score => skipRank F ⟨score, member⟩ z.skiplist
  | none => none

/-- `ZSet::for_each`: the calls of the callback. -/
def forEach (z : ZSet) : List (Bytes × Double) :=
  z.skiplist.map fun node => (node.2, node.1.score)

/-- `ZSet::zrange_by_score`. -/
def zrangeByScore (z : ZSet) (minSc maxSc : Bytes) : Result (List (Bytes × Bytes)) := do
  let minScore ← F.stod minSc
  let maxScore ← F.stod maxSc
  return (skipRangeByKey F ⟨minScore, []⟩ ⟨maxScore, [0xff]⟩ z.skiplist).map fun item =>
    (item.2, F.toString item.1.score)

/-- `ZSet::zrange_by_rank`. -/
def zrangeByRank (z : ZSet) (start stop : Nat) : List (Bytes × Bytes) :=
  (skipRangeByRank start stop z.skiplist).map fun item => (item.2, F.toString item.1.score)

/-- `ZSet::zclear`. -/
def zclear (_ : ZSet) : ZSet := ZSet.empty

/-- The copy constructor and the copy assignment: all nodes, with their heights, and the map. -/
def copy (z : ZSet) : ZSet := ⟨z.skiplist, z.memberScoreMap⟩

/-- The move constructor and the move assignment: the object that takes over, and the other
one, which is left with a new head and a map without entries. -/
def move (z : ZSet) : ZSet × ZSet := (⟨z.skiplist, z.memberScoreMap⟩, ⟨[], ∅⟩)

end ZSet

end Queries

section Encoding

/-- The heights of the nodes of a skip list and its current level, which the lists above leave
out. `random_level` stays within `DEFAULT_MAX_LEVEL`, which is 16. -/
structure Towers where
  level : Nat
  height : ZSetKey × Bytes → Nat
  pos : ∀ node, 1 ≤ height node
  le : ∀ node, height node ≤ level
  max : level ≤ 16

/-- Every node on the lowest level only. -/
def Towers.flat : Towers :=
  ⟨1, fun _ => 1, fun _ => Nat.le_refl 1, fun _ => Nat.le_refl 1, by decide⟩

/-- `Serializer::serialize(double)`: the eight bytes in host order. -/
def serializeDouble (d : Double) : Bytes := le32 (d.toNat % 2 ^ 32) ++ le32 (d.toNat / 2 ^ 32)

/-- `Serializer::deserializeDouble`. -/
def deserializeDouble : Decoder UInt8 Double := fun input => do
  let (low, rest) ← readLe32 input
  let (high, rest) ← readLe32 rest
  return (UInt64.ofNat (low + 2 ^ 32 * high), rest)

/-- One round of the loop of `SkipList::serialize`: height, key and value. -/
def serializeTower (tower : Nat × ZSetKey × Bytes) : Bytes :=
  be32 tower.1 ++ (serializeDouble tower.2.1.score ++ (serializeString tower.2.1.member ++
    serializeString tower.2.2))

/-- What one round of the loop of `SkipList::deserialize` reads. -/
def deserializeTower : Decoder UInt8 (Nat × ZSetKey × Bytes) := fun input => do
  let (height, rest) ← readBe32 input
  let (score, rest) ← deserializeDouble rest
  let (member, rest) ← deserializeString rest
  let (value, rest) ← deserializeString rest
  return ((height, ⟨score, member⟩, value), rest)

/-- `SkipList::serialize`. -/
def serializeSkipList (towers : Towers) (list : ZSkipList) : Bytes :=
  be32 towers.level ++ (be32 list.length ++
    list.flatMap fun node => serializeTower (towers.height node, node))

/-- `SkipList::deserialize`. A node is linked on the levels below its height, so a node of
height 0 is lost; a height above the level that has been read runs out of the vector of the
last nodes, and one above 16 out of the head. -/
def deserializeSkipList : Decoder UInt8 ZSkipList := fun input => do
  let (level, rest) ← readBe32 input
  let (size, rest) ← readBe32 rest
  let (nodes, rest) ← count deserializeTower size rest
  if nodes.any fun tower => min level 16 + 1 < tower.1 || 16 < tower.1 then none
  else return ((nodes.filter fun tower => 0 < tower.1).map Prod.snd, rest)

/-- `Serializer::serialize` of the scores. -/
def serializeScores (m : StrMap Double) : Bytes :=
  be32 m.size ++ m.toList.flatMap fun p => serializeString p.1 ++ serializeDouble p.2

/-- The loop of `deserializeZSet` over the scores. -/
def deserializeScores : Decoder UInt8 (StrMap Double) := fun input => do
  let (size, rest) ← readBe32 input
  let (l, rest) ← count (Framing.pair deserializeString deserializeDouble) size rest
  return (l.foldl (fun m p => m.insert p.1 p.2) ∅, rest)

namespace ZSet

/-- `ZSet::serialize`. -/
def serialize (towers : Towers) (z : ZSet) : Bytes :=
  serializeSkipList towers z.skiplist ++ serializeScores z.memberScoreMap

/-- `ZSet::deserialize`. -/
def deserialize : Decoder UInt8 ZSet := fun input => do
  let (skiplist, rest) ← deserializeSkipList input
  let (memberScoreMap, rest) ← deserializeScores rest
  return (⟨skiplist, memberScoreMap⟩, rest)

end ZSet

/-- The lengths and counts fit their prefixes of 32 bits. -/
structure ZSet.Sized (z : ZSet) : Prop where
  nodes : z.skiplist.length < 2 ^ 32
  node : ∀ node ∈ z.skiplist, Store.Sized node.1.member ∧ Store.Sized node.2
  scores : z.memberScoreMap.size < 2 ^ 32
  member : ∀ p ∈ z.memberScoreMap.toList, Store.Sized p.1

theorem decodes_double : Decodes (fun _ => True) serializeDouble deserializeDouble := by
  intro d _ rest
  have hd := d.toNat_lt
  rw [serializeDouble, deserializeDouble, List.append_assoc,
    decodes_le32 _ (Nat.mod_lt _ (by decide))]
  simp only [Option.bind_eq_bind, Option.bind_some]
  rw [decodes_le32 _ (by omega)]
  simp only [Option.bind_some, Option.pure_def, Option.some.injEq, Prod.mk.injEq, and_true]
  rw [Nat.mod_add_div, UInt64.ofNat_toNat]

theorem decodes_tower : Decodes
    (fun tower : Nat × ZSetKey × Bytes =>
      tower.1 < 2 ^ 32 ∧ Sized tower.2.1.member ∧ Sized tower.2.2)
    serializeTower deserializeTower := by
  rintro ⟨height, ⟨score, member⟩, value⟩ ⟨hheight, hmember, hvalue⟩ rest
  simp only [serializeTower, deserializeTower, List.append_assoc, decodes_be32 _ hheight,
    decodes_double _ trivial, decodes_string _ hmember, decodes_string _ hvalue,
    Option.bind_eq_bind, Option.bind_some, Option.pure_def]

theorem deserializeSkipList_serialize (towers : Towers) {list : ZSkipList}
    (hlength : list.length < 2 ^ 32)
    (hsized : ∀ node ∈ list, Sized node.1.member ∧ Sized node.2) (rest : Bytes) :
    deserializeSkipList (serializeSkipList towers list ++ rest) = some (list, rest) := by
  have hlevel := towers.max
  have hcount := decodes_tower.count (list.map fun node => (towers.height node, node)) (by
    intro tower htower
    obtain ⟨node, hnode, rfl⟩ := List.mem_map.1 htower
    have hle := towers.le node
    exact ⟨by omega, hsized node hnode⟩) rest
  rw [List.length_map, List.flatMap_map] at hcount
  have hany : (list.map fun node => (towers.height node, node)).any (fun tower =>
      min towers.level 16 + 1 < tower.1 || 16 < tower.1) = false := by
    rw [List.any_eq_false]
    intro tower htower
    obtain ⟨node, -, rfl⟩ := List.mem_map.1 htower
    have hle := towers.le node
    simp only [Bool.or_eq_true, decide_eq_true_eq]
    omega
  have hfilter : (list.map fun node => (towers.height node, node)).filter
      (fun tower => 0 < tower.1) = list.map fun node => (towers.height node, node) := by
    rw [List.filter_eq_self]
    intro tower htower
    obtain ⟨node, -, rfl⟩ := List.mem_map.1 htower
    exact decide_eq_true (towers.pos node)
  simp only [serializeSkipList, deserializeSkipList, List.append_assoc,
    decodes_be32 _ (show towers.level < 2 ^ 32 by omega), decodes_be32 _ hlength,
    Option.bind_eq_bind, Option.bind_some, hcount, hany, Bool.false_eq_true, ↓reduceIte, hfilter,
    List.map_map, Option.pure_def]
  rw [show (Prod.snd ∘ fun node : ZSetKey × Bytes => (towers.height node, node)) = id from rfl,
    List.map_id]

theorem deserializeScores_serialize {m : StrMap Double} (hsize : m.size < 2 ^ 32)
    (hsized : ∀ p ∈ m.toList, Sized p.1) (rest : Bytes) :
    deserializeScores (serializeScores m ++ rest) = some (m, rest) := by
  have hcount := (decodes_string.pair decodes_double).count m.toList
    (fun p hp => ⟨hsized p hp, trivial⟩) rest
  rw [Std.ExtTreeMap.length_toList] at hcount
  simp only [serializeScores, deserializeScores, List.append_assoc, decodes_be32 _ hsize,
    Option.bind_eq_bind, Option.bind_some, hcount, OrderedMap.foldl_insert_toList, Option.pure_def]

/-- A sorted set is read back as it was written. -/
theorem ZSet.deserialize_serialize (towers : Towers) {z : ZSet} (hsized : z.Sized) (rest : Bytes) :
    ZSet.deserialize (z.serialize towers ++ rest) = some (z, rest) := by
  simp only [ZSet.serialize, ZSet.deserialize, List.append_assoc,
    deserializeSkipList_serialize towers hsized.nodes hsized.node,
    deserializeScores_serialize hsized.scores hsized.member, Option.bind_eq_bind, Option.bind_some,
    Option.pure_def]

end Encoding

section Order

/-- Characters as unsigned bytes. -/
instance linearOrderUInt8 : LinearOrder UInt8 where
  le_refl := UInt8.le_refl
  le_trans _ _ _ := UInt8.le_trans
  lt_iff_le_not_ge _ _ := Std.lt_iff_le_and_not_ge
  le_antisymm _ _ := UInt8.le_antisymm
  le_total := UInt8.le_total
  toDecidableLE := inferInstance

variable {L : Type} [LinearOrder L]

/-- On the patterns that are numbers, the comparisons of `double` are those of a linear order,
in which `value` places each pattern (the two zeros at one place). The pattern 0 is a number. -/
structure LinearScores (F : FloatOps) (number : Double → Prop) (value : Double → L) : Prop where
  lt_iff : ∀ a b, number a → number b → (F.lt a b = true ↔ value a < value b)
  eq_iff : ∀ a b, number a → number b → (F.eq a b = true ↔ value a = value b)
  zero : number 0

/-- The place of a key: scores first, members when the scores are equal. -/
def ZSetKey.place (value : Double → L) (key : ZSetKey) : L ×ₗ Bytes :=
  toLex (value key.score, key.member)

/-- The head of a skip list, with the key and the value of its type's default. -/
def sentinel : ZSetKey × Bytes := (⟨0, []⟩, [])

variable {F : FloatOps} {number : Double → Prop} {value : Double → L}
  {a b key minKey maxKey : ZSetKey} {list : ZSkipList}

theorem ZSetKey.lt_iff (hscores : LinearScores F number value) (ha : number a.score)
    (hb : number b.score) : a.lt F b = true ↔ a.place value < b.place value := by
  rw [ZSetKey.place, ZSetKey.place, Prod.Lex.toLex_lt_toLex, ZSetKey.lt]
  cases heq : F.eq a.score b.score with
  | true =>
      have hvalue := (hscores.eq_iff _ _ ha hb).1 heq
      simp only [Bool.not_true, Bool.false_eq_true, ↓reduceIte, strLt_iff, hvalue, lt_irrefl,
        false_or, true_and]
  | false =>
      have hvalue : value a.score ≠ value b.score := by
        intro h
        rw [(hscores.eq_iff _ _ ha hb).2 h] at heq
        cases heq
      simp only [Bool.not_false, ↓reduceIte, hscores.lt_iff _ _ ha hb, hvalue, false_and, or_false]

/-- `compare_zset_keys` compares the places. -/
theorem compareZsetKeys_of_lt (hscores : LinearScores F number value) (ha : number a.score)
    (hb : number b.score) (h : a.place value < b.place value) : compareZsetKeys F a b = .lt := by
  rw [compareZsetKeys, if_pos ((ZSetKey.lt_iff hscores ha hb).2 h)]

theorem compareZsetKeys_of_gt (hscores : LinearScores F number value) (ha : number a.score)
    (hb : number b.score) (h : b.place value < a.place value) : compareZsetKeys F a b = .gt := by
  rw [compareZsetKeys,
    if_neg (fun hlt => absurd ((ZSetKey.lt_iff hscores ha hb).1 hlt) (not_lt_of_gt h)),
    if_pos ((ZSetKey.lt_iff hscores hb ha).2 h)]

theorem compareZsetKeys_of_eq (hscores : LinearScores F number value) (ha : number a.score)
    (hb : number b.score) (h : a.place value = b.place value) : compareZsetKeys F a b = .eq := by
  rw [compareZsetKeys,
    if_neg (fun hlt => absurd ((ZSetKey.lt_iff hscores ha hb).1 hlt) (not_lt_of_ge (ge_of_eq h))),
    if_neg (fun hlt => absurd ((ZSetKey.lt_iff hscores hb ha).1 hlt) (not_lt_of_ge (le_of_eq h)))]

theorem compareZsetKeys_lt_iff (hscores : LinearScores F number value) (ha : number a.score)
    (hb : number b.score) :
    (compareZsetKeys F a b == .lt) = decide (a.place value < b.place value) := by
  rcases lt_trichotomy (a.place value) (b.place value) with h | h | h
  · rw [compareZsetKeys_of_lt hscores ha hb h, decide_eq_true h]
    rfl
  · rw [compareZsetKeys_of_eq hscores ha hb h, decide_eq_false (not_lt_of_ge (ge_of_eq h))]
    rfl
  · rw [compareZsetKeys_of_gt hscores ha hb h, decide_eq_false (not_lt_of_gt h)]
    rfl

theorem compareZsetKeys_le_iff (hscores : LinearScores F number value) (ha : number a.score)
    (hb : number b.score) :
    (compareZsetKeys F a b != .gt) = decide (a.place value ≤ b.place value) := by
  rcases lt_trichotomy (a.place value) (b.place value) with h | h | h
  · rw [compareZsetKeys_of_lt hscores ha hb h, decide_eq_true (le_of_lt h)]
    rfl
  · rw [compareZsetKeys_of_eq hscores ha hb h, decide_eq_true (le_of_eq h)]
    rfl
  · rw [compareZsetKeys_of_gt hscores ha hb h, decide_eq_false (not_le_of_gt h)]
    rfl

/-- The place of a node. -/
abbrev placeOf (value : Double → L) (node : ZSetKey × Bytes) : L ×ₗ Bytes := node.1.place value

/-- The nodes ascend, and their scores are numbers. -/
structure Ordered (number : Double → Prop) (value : Double → L) (list : ZSkipList) : Prop where
  ascending : Ascending (placeOf value) list
  numbers : ∀ node ∈ list, number node.1.score

theorem Ordered.filter (h : Ordered number value list) (p : ZSetKey × Bytes → Bool) :
    Ordered number value (list.filter p) :=
  ⟨h.ascending.filter p, fun node hnode => h.numbers node (List.mem_of_mem_filter hnode)⟩

theorem Ordered.tail {node : ZSetKey × Bytes} (h : Ordered number value (node :: list)) :
    Ordered number value list :=
  ⟨(List.pairwise_cons.1 h.ascending).2, fun n hn => h.numbers n (List.mem_cons_of_mem _ hn)⟩

theorem mem_skipInsert (hscores : LinearScores F number value) (h : Ordered number value list)
    (hkey : number key.score) (hnew : ∀ node ∈ list, placeOf value node ≠ key.place value)
    (v : Bytes) (node : ZSetKey × Bytes) :
    node ∈ skipInsert F key v list ↔ node = (key, v) ∨ node ∈ list := by
  induction list with
  | nil => exact List.mem_singleton.trans (or_iff_left List.not_mem_nil).symm
  | cons n rest ih =>
      have hn := h.numbers n List.mem_cons_self
      have hne := hnew n List.mem_cons_self
      rw [skipInsert]
      rcases lt_or_gt_of_ne hne with hlt | hgt
      · rw [compareZsetKeys_of_lt hscores hn hkey hlt]
        simp only [List.mem_cons, ih h.tail fun m hm => hnew m (List.mem_cons_of_mem _ hm)]
        exact or_left_comm
      · rw [compareZsetKeys_of_gt hscores hn hkey hgt]
        simp only [List.mem_cons]

theorem ordered_skipInsert (hscores : LinearScores F number value)
    (h : Ordered number value list) (hkey : number key.score)
    (hnew : ∀ node ∈ list, placeOf value node ≠ key.place value) (v : Bytes) :
    Ordered number value (skipInsert F key v list) := by
  refine ⟨?_, fun node hnode => ?_⟩
  · induction list with
    | nil => exact List.pairwise_singleton _ _
    | cons n rest ih =>
        have hn := h.numbers n List.mem_cons_self
        have hne := hnew n List.mem_cons_self
        have hrest : ∀ m ∈ rest, placeOf value m ≠ key.place value :=
          fun m hm => hnew m (List.mem_cons_of_mem _ hm)
        obtain ⟨hhead, htail⟩ := List.pairwise_cons.1 h.ascending
        rw [skipInsert]
        rcases lt_or_gt_of_ne hne with hlt | hgt
        · rw [compareZsetKeys_of_lt hscores hn hkey hlt]
          refine List.pairwise_cons.2 ⟨fun m hm => ?_, ih h.tail hrest⟩
          rcases (mem_skipInsert hscores h.tail hkey hrest v m).1 hm with rfl | hm
          · exact hlt
          · exact hhead m hm
        · rw [compareZsetKeys_of_gt hscores hn hkey hgt]
          refine List.pairwise_cons.2 ⟨fun m hm => ?_, h.ascending⟩
          rcases List.mem_cons.1 hm with rfl | hm
          · exact hgt
          · exact lt_trans hgt (hhead m hm)
  · rcases (mem_skipInsert hscores h hkey hnew v node).1 hnode with rfl | hnode
    · exact hkey
    · exact h.numbers node hnode

/-- `SkipList::remove` takes out the node at the place of the key, if there is one. -/
theorem skipRemove_eq (hscores : LinearScores F number value) (h : Ordered number value list)
    (hkey : number key.score) :
    skipRemove F key list = list.filter fun node => placeOf value node ≠ key.place value := by
  induction list with
  | nil => rfl
  | cons n rest ih =>
      have hn := h.numbers n List.mem_cons_self
      obtain ⟨hhead, -⟩ := List.pairwise_cons.1 h.ascending
      rw [skipRemove]
      rcases lt_trichotomy (placeOf value n) (key.place value) with hlt | heq | hgt
      · rw [compareZsetKeys_of_lt hscores hn hkey hlt,
          List.filter_cons_of_pos (by rw [decide_eq_true_eq]; exact ne_of_lt hlt)]
        exact congrArg (n :: ·) (ih h.tail)
      · rw [compareZsetKeys_of_eq hscores hn hkey heq,
          List.filter_cons_of_neg (by rw [decide_eq_true_eq]; exact fun hne => hne heq)]
        refine (List.filter_eq_self.2 fun m hm => ?_).symm
        rw [decide_eq_true_eq, ← heq]
        exact ne_of_gt (hhead m hm)
      · rw [compareZsetKeys_of_gt hscores hn hkey hgt]
        refine (List.filter_eq_self.2 fun m hm => ?_).symm
        rw [decide_eq_true_eq]
        rcases List.mem_cons.1 hm with rfl | hm
        · exact ne_of_gt hgt
        · exact ne_of_gt (lt_trans hgt (hhead m hm))

theorem lt_closed (bound : L ×ₗ Bytes) (a b : ZSetKey × Bytes)
    (hab : placeOf value a < placeOf value b) (hb : decide (placeOf value b < bound) = true) :
    decide (placeOf value a < bound) = true :=
  decide_eq_true (lt_trans hab (of_decide_eq_true hb))

theorem le_closed (bound : L ×ₗ Bytes) (a b : ZSetKey × Bytes)
    (hab : placeOf value a < placeOf value b) (hb : decide (placeOf value b ≤ bound) = true) :
    decide (placeOf value a ≤ bound) = true :=
  decide_eq_true (le_trans (le_of_lt hab) (of_decide_eq_true hb))

variable (hscores : LinearScores F number value) (h : Ordered number value list)
  (hmin : number minKey.score) (hmax : number maxKey.score)

/-- The node lies between two keys. -/
def Between (value : Double → L) (minKey maxKey : ZSetKey) (node : ZSetKey × Bytes) : Prop :=
  minKey.place value ≤ placeOf value node ∧ placeOf value node ≤ maxKey.place value

instance (value : Double → L) (minKey maxKey : ZSetKey) (node : ZSetKey × Bytes) :
    Decidable (Between value minKey maxKey node) := inferInstanceAs (Decidable (_ ∧ _))

include hscores h hmin hmax

/-- `SkipList::remove_range_by_key` removes the nodes between the keys. -/
theorem skipRemoveRangeByKey_eq : (skipRemoveRangeByKey F minKey maxKey list).2 =
    list.filter fun node => !decide (Between value minKey maxKey node) := by
  rw [skipRemoveRangeByKey]
  by_cases hempty : maxKey.place value < minKey.place value
  · rw [if_pos ((ZSetKey.lt_iff hscores hmax hmin).2 hempty)]
    refine (List.filter_eq_self.2 fun node _ => ?_).symm
    rw [Bool.not_eq_true', decide_eq_false_iff_not]
    exact fun hbetween => absurd (le_trans hbetween.1 hbetween.2) (not_le_of_gt hempty)
  · rw [if_neg fun hlt => hempty ((ZSetKey.lt_iff hscores hmax hmin).1 hlt)]
    have hbefore : ∀ node ∈ list, (compareZsetKeys F node.1 minKey == .lt) =
        decide (placeOf value node < minKey.place value) :=
      fun node hnode => compareZsetKeys_lt_iff hscores (h.numbers node hnode) hmin
    have hupto : ∀ node ∈ list, (compareZsetKeys F node.1 maxKey != .gt) =
        decide (placeOf value node ≤ maxKey.place value) :=
      fun node hnode => compareZsetKeys_le_iff hscores (h.numbers node hnode) hmax
    -- The list falls into the nodes before the range, those in it, and those behind it.
    have hrest := h.filter fun node => !decide (placeOf value node < minKey.place value)
    simp only [takeWhile_congr hbefore, h.ascending.drop_takeWhile_eq_filter (lt_closed _),
      ← List.drop_drop]
    rw [takeWhile_congr fun node hnode => hupto node (List.mem_of_mem_filter hnode),
      hrest.ascending.drop_takeWhile_eq_filter (le_closed _),
      h.ascending.takeWhile_eq_filter (lt_closed _)]
    conv_rhs => rw [← h.ascending.filter_append_filter (lt_closed (minKey.place value))]
    rw [List.filter_append]
    refine congrArg₂ (· ++ ·) (List.filter_eq_self.2 fun node hnode => ?_).symm
      (List.filter_congr fun node hnode => ?_)
    · rw [Bool.not_eq_true', decide_eq_false_iff_not]
      exact fun hbetween => absurd hbetween.1
        (not_le_of_gt (of_decide_eq_true (List.mem_filter.1 hnode).2))
    · have hge := (List.mem_filter.1 hnode).2
      rw [Bool.not_eq_true', decide_eq_false_iff_not, not_lt] at hge
      simp only [Between, hge, true_and]

/-- `SkipList::range_by_key` lists from the last node that is not above `minKey`, or from the
sentinel. -/
theorem skipRangeByKey_eq (hle : minKey.place value ≤ maxKey.place value) :
    skipRangeByKey F minKey maxKey list =
      ((((list.filter fun node => placeOf value node ≤ minKey.place value).getLast?).getD sentinel) ::
        list.filter fun node => !decide (placeOf value node ≤ minKey.place value)).takeWhile
          fun node => compareZsetKeys F node.1 maxKey != .gt := by
  have hupto : ∀ node ∈ list, (compareZsetKeys F node.1 minKey != .gt) =
      decide (placeOf value node ≤ minKey.place value) :=
    fun node hnode => compareZsetKeys_le_iff hscores (h.numbers node hnode) hmin
  rw [skipRangeByKey,
    if_neg fun hlt => absurd ((ZSetKey.lt_iff hscores hmax hmin).1 hlt) (not_lt_of_ge hle)]
  simp only [takeWhile_congr hupto, h.ascending.drop_takeWhile_eq_filter (le_closed _)]
  rw [h.ascending.takeWhile_eq_filter (le_closed _)]
  rfl

/-- With a node that is not above `minKey`, the listing has the last such node in front. -/
theorem skipRangeByKey_of_some (hle : minKey.place value ≤ maxKey.place value)
    {start : ZSetKey × Bytes} (hstart :
      (list.filter fun node => placeOf value node ≤ minKey.place value).getLast? = some start) :
    skipRangeByKey F minKey maxKey list = start :: list.filter fun node =>
      decide (placeOf value node ≤ maxKey.place value) &&
        !decide (placeOf value node ≤ minKey.place value) := by
  obtain ⟨hmem, hbelow⟩ := List.mem_filter.1 (List.mem_of_getLast? hstart)
  have hbelow := of_decide_eq_true hbelow
  have hrest := h.filter fun node => !decide (placeOf value node ≤ minKey.place value)
  have hupto : ∀ node ∈ list, (compareZsetKeys F node.1 maxKey != .gt) =
      decide (placeOf value node ≤ maxKey.place value) :=
    fun node hnode => compareZsetKeys_le_iff hscores (h.numbers node hnode) hmax
  rw [skipRangeByKey_eq hscores h hmin hmax hle, hstart, Option.getD_some,
    List.takeWhile_cons_of_pos (by
      rw [hupto start hmem]
      exact decide_eq_true (le_trans hbelow hle)),
    takeWhile_congr fun node hnode => hupto node (List.mem_of_mem_filter hnode),
    hrest.ascending.takeWhile_eq_filter (le_closed _), List.filter_filter]

/-- Without one, it starts at the sentinel, and ends there when the sentinel is above `maxKey`. -/
theorem skipRangeByKey_of_none (hle : minKey.place value ≤ maxKey.place value)
    (hnone : ∀ node ∈ list, minKey.place value < placeOf value node) :
    skipRangeByKey F minKey maxKey list =
      if placeOf value sentinel ≤ maxKey.place value then
        sentinel :: list.filter fun node => placeOf value node ≤ maxKey.place value
      else [] := by
  have hnil : (list.filter fun node => placeOf value node ≤ minKey.place value) = [] := by
    rw [List.filter_eq_nil_iff]
    intro node hnode hbelow
    exact absurd (of_decide_eq_true hbelow) (not_le_of_gt (hnone node hnode))
  have hall : (list.filter fun node => !decide (placeOf value node ≤ minKey.place value)) = list := by
    rw [List.filter_eq_self]
    intro node hnode
    rw [Bool.not_eq_true', decide_eq_false_iff_not]
    exact not_le_of_gt (hnone node hnode)
  have hupto : ∀ node ∈ list, (compareZsetKeys F node.1 maxKey != .gt) =
      decide (placeOf value node ≤ maxKey.place value) :=
    fun node hnode => compareZsetKeys_le_iff hscores (h.numbers node hnode) hmax
  have hsentinel : (compareZsetKeys F sentinel.1 maxKey != .gt) =
      decide (placeOf value sentinel ≤ maxKey.place value) :=
    compareZsetKeys_le_iff hscores hscores.zero hmax
  rw [skipRangeByKey_eq hscores h hmin hmax hle, hnil, hall, List.getLast?_nil, Option.getD_none]
  by_cases hreach : placeOf value sentinel ≤ maxKey.place value
  · rw [List.takeWhile_cons_of_pos (by rw [hsentinel]; exact decide_eq_true hreach),
      takeWhile_congr hupto, h.ascending.takeWhile_eq_filter (le_closed _), if_pos hreach]
  · rw [List.takeWhile_cons_of_neg (by rw [hsentinel]; exact fun h => hreach (of_decide_eq_true h)),
      if_neg hreach]

end Order

end EyaKV.Store
