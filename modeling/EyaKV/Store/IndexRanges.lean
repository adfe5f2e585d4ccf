import EyaKV.Base.Positions
import EyaKV.Base.Signed
import EyaKV.Store.Overloads
import EyaKV.Store.ZSetCoherence

/-!
# Indexes of lists and ranks of sorted sets

The four operations that take indexes from the end, on signed numbers of 64 bits, with every access
and every signed sum checked. `l_range` and `l_get` count with the unsigned size of the list,
`z_range_by_rank` and `z_rem_by_rank` with the signed number of entries of the score map.

The lists and `z_range_by_rank` clamp the indexes to positions that exist, as long as the skip list
has a node for each entry of the map. The removal turns the two ranks into keys and removes what lies
between the keys, so it also needs the order of the nodes; `indexesExact_iff` is the exact condition,
and a well-formed set meets it for all indexes.
-/

set_option autoImplicit false

namespace EyaKV.Store

open EyaKV.Base

section Texts

namespace DequeProcessor

/-- The start index of `l_range`, and its end index, as it clamps them. -/
def clampIndexes (size : Nat) (start stop : Int64) : Int64 × Int64 :=
  let start := if start < 0 then addSize start size else start
  let stop := if stop < 0 then addSize stop size else stop
  (if start < 0 then 0 else start, if ofSize size ≤ stop then predSize size else stop)

/-- The loop of `l_range` from `i` on; none when it reads outside the list, when `++i` overflows, or
when it needs more than `fuel` tests. -/
def pushRange (dq : List Bytes) (stop : Int64) : Nat → Int64 → List Bytes → Option (List Bytes)
  | 0, _, _ => none
  | fuel + 1, i, res =>
      if i ≤ stop then do
        let element ← dq[i.toUInt64.toNat]?
        let next ← checked (i.toInt + 1)
        pushRange dq stop fuel next (res ++ [element])
      else some res

/-- `DequeProcessor::l_range` on the list that it has found. -/
def rangeOf (dq : List Bytes) (start stop : Int64) : Option (List Bytes) :=
  let indexes := clampIndexes dq.length start stop
  if indexes.2 < indexes.1 then some []
  else pushRange dq indexes.2 (dq.length + 1) indexes.1 []

/-- `DequeProcessor::l_get` on the list that it has found. -/
def getOf (dq : List Bytes) (index : Int64) : Option (Option Bytes) :=
  let index := if index < 0 then addSize index dq.length else index
  if index < 0 ∨ ofSize dq.length ≤ index then some none
  else dq[index.toUInt64.toNat]?.map some

/-- `DequeProcessor::l_range`; `value` is what `Storage::get` returned. -/
def lRange (start stop : Int64) (value : Option EyaValue) : Result (Option (List Bytes)) :=
  readAs lists (some []) (fun dq => .ok (rangeOf dq start stop)) value

/-- `DequeProcessor::l_get`. -/
def lGet (index : Int64) (value : Option EyaValue) : Result (Option (Option Bytes)) :=
  readAs lists (some none) (fun dq => .ok (getOf dq index)) value

end DequeProcessor

/-- `SkipList::remove_range_by_rank`; none when the key of a rank is not set, because there is no
node at the rank. -/
def tryRemoveRangeByRank (F : FloatOps) (startRank endRank : Nat) (list : ZSkipList) :
    Option (Nat × ZSkipList) :=
  if endRank < startRank then some (0, list)
  else do
    let minNode ← list[startRank]?
    let maxNode ← list[endRank]?
    return skipRemoveRangeByKey F minNode.1 maxNode.1 list

/-- `ZSet::zrem_range_by_rank`. -/
def ZSet.tryZremRangeByRank (F : FloatOps) (z : ZSet) (startRank endRank : Nat) :
    Option (Nat × ZSet) :=
  let toRemove := skipRangeByRank startRank endRank z.skiplist
  if endRank < startRank ∨ toRemove = [] then some (0, z)
  else do
    let removed ← tryRemoveRangeByRank F startRank endRank z.skiplist
    return (removed.1, ⟨removed.2, ZSet.eraseMembers toRemove z.memberScoreMap⟩)

namespace ZSetProcessor

/-- A negative rank with the signed size added to it. -/
def countRank (size rank : Int64) : Option Int64 :=
  if rank < 0 then checked (rank.toInt + size.toInt) else some rank

/-- A rank behind the end set to the last one. -/
def cutRank (size rank : Int64) : Option Int64 :=
  if size ≤ rank then checked (size.toInt - 1) else some rank

/-- The clamping of `z_range_by_rank` and `z_rem_by_rank`; none when a signed sum overflows. -/
def clampRanks (size start stop : Int64) : Option (Int64 × Int64) := do
  let start ← countRank size start
  let stop ← countRank size stop
  let start := if start < 0 then 0 else start
  let stop ← cutRank size stop
  return (start, stop)

variable (F : FloatOps)

/-- `ZSetProcessor::z_range_by_rank` on the set that it has found. -/
def rangeOf (z : ZSet) (start stop : Int64) : Option (List (Bytes × Bytes)) := do
  let ranks ← clampRanks (ofSize z.zcard) start stop
  return if ranks.2 < ranks.1 then []
    else z.zrangeByRank F ranks.1.toUInt64.toNat ranks.2.toUInt64.toNat

/-- The text that `ZSetProcessor::z_rem_by_rank` has in its callback and behind it: the number of
removed members and the set. -/
def remOf (z : ZSet) (start stop : Int64) : Option (Nat × ZSet) := do
  let ranks ← clampRanks (ofSize z.zcard) start stop
  if ranks.2 < ranks.1 then return (0, z)
  else z.tryZremRangeByRank F ranks.1.toUInt64.toNat ranks.2.toUInt64.toNat

/-- `ZSetProcessor::z_range_by_rank`; `value` is what `Storage::get` returned. -/
def zRangeByRank (start stop : Int64) (value : Option EyaValue) :
    Result (Option (List (Bytes × Bytes))) :=
  readAs zsets (some []) (fun z => .ok (rangeOf F z start stop)) value

end ZSetProcessor

end Texts

section Clamping

variable {size : Nat} {start stop index : Int64}

theorem toInt_addSize_fromEnd (hsize : size < 2 ^ 63) (index : Int64) :
    (if index < 0 then addSize index size else index).toInt = fromEnd size index.toInt := by
  by_cases hneg : index.toInt < 0
  · rw [if_pos (int64_neg_iff.2 hneg), toInt_addSize hneg hsize, fromEnd, if_pos hneg]
  · rw [if_neg (mt int64_neg_iff.1 hneg), fromEnd, if_neg hneg]

/-- A negative start is set to 0. -/
theorem toInt_firstPosition (hindex : index.toInt = fromEnd size start.toInt) :
    (if index < 0 then 0 else index).toInt = firstPosition size start.toInt := by
  rw [← firstPosition_eq, ← hindex]
  by_cases hneg : index.toInt < 0
  · rw [if_pos (int64_neg_iff.2 hneg), if_pos hneg, Int64.toInt_zero]
  · rw [if_neg (mt int64_neg_iff.1 hneg), if_neg hneg]

theorem ofSize_le_iff (hsize : size < 2 ^ 63) : ofSize size ≤ index ↔ (size : Int) ≤ index.toInt := by
  rw [Int64.le_iff_toInt_le, toInt_ofSize hsize]

/-- What `l_range` makes of its indexes are the first and the last position that they name. -/
theorem toInt_clampIndexes (hsize : size < 2 ^ 63) (start stop : Int64) :
    (DequeProcessor.clampIndexes size start stop).1.toInt = firstPosition size start.toInt ∧
      (DequeProcessor.clampIndexes size start stop).2.toInt = lastPosition size stop.toInt := by
  refine ⟨toInt_firstPosition (toInt_addSize_fromEnd hsize start), ?_⟩
  have hstop := toInt_addSize_fromEnd hsize stop
  rw [DequeProcessor.clampIndexes, ← lastPosition_eq, ← hstop]
  by_cases hend : (size : Int) ≤ (if stop < 0 then addSize stop size else stop).toInt
  · rw [if_pos hend]
    exact (congrArg Int64.toInt (if_pos ((ofSize_le_iff hsize).2 hend))).trans
      (toInt_predSize hsize)
  · rw [if_neg hend]
    exact congrArg Int64.toInt (if_neg (mt (ofSize_le_iff hsize).1 hend))

theorem countRank_eq (hsize : size < 2 ^ 63) (rank : Int64) :
    ∃ counted, ZSetProcessor.countRank (ofSize size) rank = some counted ∧
      counted.toInt = fromEnd size rank.toInt := by
  have hlow := rank.le_toInt
  rw [ZSetProcessor.countRank, toInt_ofSize hsize]
  by_cases hneg : rank.toInt < 0
  · rw [if_pos (int64_neg_iff.2 hneg), fromEnd, if_pos hneg]
    exact checked_of_range (by omega) (by omega)
  · rw [if_neg (mt int64_neg_iff.1 hneg), fromEnd, if_neg hneg]
    exact ⟨rank, rfl, rfl⟩

theorem cutRank_eq (hsize : size < 2 ^ 63) (hindex : index.toInt = fromEnd size stop.toInt) :
    ∃ cut, ZSetProcessor.cutRank (ofSize size) index = some cut ∧
      cut.toInt = lastPosition size stop.toInt := by
  rw [ZSetProcessor.cutRank, toInt_ofSize hsize, ← lastPosition_eq, ← hindex]
  by_cases hend : (size : Int) ≤ index.toInt
  · rw [if_pos ((ofSize_le_iff hsize).2 hend), if_pos hend]
    exact checked_of_range (by omega) (by omega)
  · rw [if_neg (mt (ofSize_le_iff hsize).1 hend), if_neg hend]
    exact ⟨index, rfl, rfl⟩

/-- The sums of the ranks do not overflow, and what becomes of the ranks are the same positions. -/
theorem clampRanks_eq (hsize : size < 2 ^ 63) (start stop : Int64) :
    ∃ ranks, ZSetProcessor.clampRanks (ofSize size) start stop = some ranks ∧
      ranks.1.toInt = firstPosition size start.toInt ∧
        ranks.2.toInt = lastPosition size stop.toInt := by
  obtain ⟨first, hfirst, hfirst'⟩ := countRank_eq hsize start
  obtain ⟨last, hlast, hlast'⟩ := countRank_eq hsize stop
  obtain ⟨cut, hcut, hcut'⟩ := cutRank_eq hsize hlast'
  refine ⟨(if first < 0 then 0 else first, cut), ?_, toInt_firstPosition hfirst', hcut'⟩
  simp only [ZSetProcessor.clampRanks, hfirst, hlast, hcut, Option.bind_eq_bind, Option.bind_some,
    Option.pure_def]

end Clamping

section Lists

variable {dq res : List Bytes} {i stop : Int64} {fuel : Nat}

/-- From a position of the list on, the loop appends the elements up to `stop`, when that is a
position and each round has its fuel. -/
theorem pushRange_eq (hsize : dq.length < 2 ^ 63) (hi : 0 ≤ i.toInt) (hle : i.toInt ≤ stop.toInt + 1)
    (hstop : stop.toInt < dq.length) (hfuel : (stop.toInt + 1 - i.toInt).toNat < fuel) :
    DequeProcessor.pushRange dq stop fuel i res =
      some (res ++ (dq.drop i.toInt.toNat).take (stop.toInt + 1 - i.toInt).toNat) := by
  induction fuel generalizing i res with
  | zero => exact absurd hfuel (Nat.not_lt_zero _)
  | succ fuel ih =>
      rw [DequeProcessor.pushRange]
      by_cases hin : i.toInt ≤ stop.toInt
      · -- `i + 1` is at most the length, so the increment does not overflow
        obtain ⟨next, hnext, hnext'⟩ := @checked_of_range (i.toInt + 1) (by omega) (by omega)
        have hlt : i.toInt.toNat < dq.length := by omega
        have hcount : (stop.toInt + 1 - i.toInt).toNat = (stop.toInt - i.toInt).toNat + 1 := by omega
        rw [if_pos (Int64.le_iff_toInt_le.2 hin), toNat_toUInt64 hi, List.getElem?_eq_getElem hlt]
        simp only [Option.bind_eq_bind, Option.bind_some, hnext]
        rw [ih (by omega) (by omega) (by omega), hnext', List.append_assoc, hcount,
          List.drop_eq_getElem_cons hlt, List.take_succ_cons,
          show (i.toInt + 1).toNat = i.toInt.toNat + 1 by omega,
          show stop.toInt + 1 - (i.toInt + 1) = stop.toInt - i.toInt by omega]
        rfl
      · -- the counter is behind `stop`: the loop ends, and no element is left to append
        rw [if_neg (mt Int64.le_iff_toInt_le.1 hin),
          show (stop.toInt + 1 - i.toInt).toNat = 0 by omega, List.take_zero, List.append_nil]

/-- `l_range` stays inside the list and returns the positions that its indexes name. -/
theorem lRange_positions (hsize : dq.length < 2 ^ 63) (start stop : Int64) :
    ∃ elements, DequeProcessor.rangeOf dq start stop = some elements ∧
      AtPositions dq (firstPosition dq.length start.toInt) (lastPosition dq.length stop.toInt)
        elements := by
  obtain ⟨hfirst, hlast⟩ := toInt_clampIndexes hsize start stop
  have hnonneg := @firstPosition_nonneg dq.length start.toInt
  have hlt := @lastPosition_lt dq.length stop.toInt
  rw [DequeProcessor.rangeOf]
  by_cases hempty : lastPosition dq.length stop.toInt < firstPosition dq.length start.toInt
  · refine ⟨[], if_pos (Int64.lt_iff_toInt_lt.2 ?_), AtPositions.nil hempty⟩
    rwa [hfirst, hlast]
  · -- the goals are the guard, the four conditions of the loop, and what it has appended
    refine ⟨_, (if_neg fun h => hempty ?_).trans (pushRange_eq hsize ?_ ?_ ?_ ?_), ?_⟩
    · rwa [Int64.lt_iff_toInt_lt, hfirst, hlast] at h
    · rwa [hfirst]
    · omega
    · rwa [hlast]
    · omega
    · rw [List.nil_append, hfirst, hlast]
      exact AtPositions.slice hnonneg (Int.not_lt.1 hempty) hlt

/-- `l_get` stays inside the list and returns the element that its index names, if there is one. -/
theorem lGet_position (hsize : dq.length < 2 ^ 63) (index : Int64) :
    DequeProcessor.getOf dq index = some
      (if fromEnd dq.length index.toInt < 0 then none
        else dq[(fromEnd dq.length index.toInt).toNat]?) := by
  have hcounted := toInt_addSize_fromEnd hsize index
  simp only [DequeProcessor.getOf]
  -- from here on only the value of the counted index matters, not how it came about
  generalize (if index < 0 then addSize index dq.length else index) = counted at hcounted
  rw [← hcounted]
  by_cases hneg : counted.toInt < 0
  · rw [if_pos (Or.inl (int64_neg_iff.2 hneg)), if_pos hneg]
  · rw [if_neg hneg]
    by_cases hend : (dq.length : Int) ≤ counted.toInt
    · rw [if_pos (Or.inr ((ofSize_le_iff hsize).2 hend)), List.getElem?_eq_none (by omega)]
    · have hlt : counted.toInt.toNat < dq.length := by omega
      rw [if_neg (not_or.2 ⟨mt int64_neg_iff.1 hneg, mt (ofSize_le_iff hsize).1 hend⟩),
        toNat_toUInt64 (by omega), List.getElem?_eq_getElem hlt, Option.map_some]

end Lists

section Ranks

variable {F : FloatOps} {list nodes : ZSkipList} {i j : Nat} {first last : ZSetKey × Bytes}

/-- The listing by rank is a slice of the list. -/
theorem skipRangeByRank_eq (hij : i ≤ j) :
    skipRangeByRank i j list = (list.drop i).take (j + 1 - i) := by
  rw [skipRangeByRank, if_neg (Nat.not_lt_of_le hij), List.drop_take]

theorem compareZsetKeys_self {key : ZSetKey} (hscore : F.lt key.score key.score = false) :
    compareZsetKeys F key key = .eq := by
  have hmember : strLt key.member key.member = false := by
    rw [← Bool.not_eq_true, strLt_iff]
    exact lt_irrefl _
  have hlt : key.lt F key = false := by
    rw [ZSetKey.lt, hscore, hmember, ite_self]
  rw [compareZsetKeys, hlt]
  rfl

/-- The order of the nodes that the removal by the keys of two ranks needs: the first key is not
above the last one, the nodes before the first rank are below its key, those between the ranks are
not above the key of the last rank, and the node behind is. -/
structure Bordered (F : FloatOps) (list : ZSkipList) (i j : Nat)
    (first last : ZSetKey × Bytes) : Prop where
  atFirst : list[i]? = some first
  atLast : list[j]? = some last
  ordered : last.1.lt F first.1 = false
  before : ∀ k node, k < i → list[k]? = some node → compareZsetKeys F node.1 first.1 = .lt
  between : ∀ k node, i ≤ k → k ≤ j → list[k]? = some node →
    compareZsetKeys F node.1 last.1 ≠ .gt
  behind : ∀ node, list[j + 1]? = some node → compareZsetKeys F node.1 last.1 = .gt

/-- The removal by the keys of two ranks takes out the nodes from one rank to the other in exactly
these lists. -/
theorem skipRemoveRangeByKey_eq_slice_iff (hirrefl : F.lt first.1.score first.1.score = false)
    (hij : i ≤ j) (hfirst : list[i]? = some first) (hlast : list[j]? = some last) :
    skipRemoveRangeByKey F first.1 last.1 list = (j + 1 - i, list.take i ++ list.drop (j + 1)) ↔
      Bordered F list i j first last := by
  have hfail : (compareZsetKeys F first.1 first.1 == .lt) = false := by
    rw [compareZsetKeys_self hirrefl]
    rfl
  -- both scans are a `takeWhile`, the second behind the first
  have hcut := @cut_eq_slice_iff _ list (fun node => compareZsetKeys F node.1 first.1 == .lt)
    (fun node => compareZsetKeys F node.1 last.1 != .gt) i j hij first hfirst hfail
  rw [skipRemoveRangeByKey]
  cases hordered : last.1.lt F first.1 with
  | true =>
      -- keys the wrong way round: the source removes nothing, but there are ranks to remove
      rw [if_pos rfl]
      refine iff_of_false (fun heq => ?_) fun hbordered => ?_
      · have hcount : 0 = j + 1 - i := congrArg Prod.fst heq
        omega
      · rw [hbordered.ordered] at hordered
        cases hordered
  | false =>
      rw [if_neg Bool.false_ne_true, Prod.mk.injEq]
      refine hcut.trans ⟨?_, fun hbordered => ⟨?_, ?_, ?_⟩⟩
      · -- what remains is to read the tests of the scans as comparisons of keys, and back
        rintro ⟨hbefore, hbetween, hbehind⟩
        refine ⟨hfirst, hlast, hordered, fun k node hk hnode => ?_, fun k node hik hkj hnode => ?_,
          fun node hnode => ?_⟩
        · exact beq_iff_eq.1 (hbefore k node hk hnode)
        · obtain ⟨node', hnode', htest⟩ := hbetween k hik hkj
          obtain rfl := Option.some.inj (hnode'.symm.trans hnode)
          exact bne_iff_ne.1 htest
        · exact bne_eq_false_iff_eq.1 (hbehind node hnode)
      · exact fun k node hk hnode => beq_iff_eq.2 (hbordered.before k node hk hnode)
      · intro k hik hkj
        have hlt : k < list.length :=
          Nat.lt_of_le_of_lt hkj (List.getElem?_eq_some_iff.1 hlast).1
        have hnode := List.getElem?_eq_getElem hlt
        exact ⟨_, hnode, bne_iff_ne.2 (hbordered.between k _ hik hkj hnode)⟩
      · exact fun node hnode => bne_eq_false_iff_eq.2 (hbordered.behind node hnode)

/-- With a node at each of the two ranks the keys of the removal are set. -/
theorem tryZremRangeByRank_eq {z : ZSet} (hij : i ≤ j) (hfirst : z.skiplist[i]? = some first)
    (hlast : z.skiplist[j]? = some last) :
    z.tryZremRangeByRank F i j = some
      ((skipRemoveRangeByKey F first.1 last.1 z.skiplist).1,
        ⟨(skipRemoveRangeByKey F first.1 last.1 z.skiplist).2,
          ZSet.eraseMembers ((z.skiplist.drop i).take (j + 1 - i)) z.memberScoreMap⟩) := by
  have hlt : i < z.skiplist.length := (List.getElem?_eq_some_iff.1 hfirst).1
  have hsome : (z.skiplist.drop i).take (j + 1 - i) ≠ [] := by
    rw [← List.length_pos_iff, List.length_take, List.length_drop]
    omega
  rw [ZSet.tryZremRangeByRank, skipRangeByRank_eq hij,
    if_neg (not_or.2 ⟨Nat.not_lt_of_le hij, hsome⟩), tryRemoveRangeByRank,
    if_neg (Nat.not_lt_of_le hij), hfirst, hlast]
  rfl

end Ranks

section Exactness

/-- The pair that a listing shows for a node. -/
def entryOf (F : FloatOps) (node : ZSetKey × Bytes) : Bytes × Bytes :=
  (node.2, F.toString node.1.score)

/-- `z'` is `z` without the nodes from the position `first` on and without their members. -/
structure Removes (z : ZSet) (first : Nat) (nodes : ZSkipList) (z' : ZSet) : Prop where
  skiplist : z'.skiplist = z.skiplist.take first ++ z.skiplist.drop (first + nodes.length)
  memberScoreMap : ∀ member, z'.memberScoreMap[member]? =
    if member ∈ nodes.map Prod.snd then none else z.memberScoreMap[member]?

/-- `z_range_by_rank` lists the nodes at the positions that its ranks name, and `z_rem_by_rank`
removes and counts the nodes that are listed. -/
def RanksExact (F : FloatOps) (z : ZSet) (start stop : Int64) : Prop :=
  ∃ nodes z',
    ZSetProcessor.zRangeByRank F start stop (some (.zset z)) = .ok (some (nodes.map (entryOf F))) ∧
    AtPositions z.skiplist (firstPosition z.zcard start.toInt) (lastPosition z.zcard stop.toInt)
      nodes ∧
    ZSetProcessor.remOf F z start stop = some (nodes.length, z') ∧
    Removes z (firstPosition z.zcard start.toInt).toNat nodes z'

/-- The four operations stay inside their containers, do not overflow, and read and remove the
positions that their indexes name. -/
structure IndexesExact (F : FloatOps) (dq : List Bytes) (z : ZSet) (start stop : Int64) : Prop where
  lRange : ∃ elements, DequeProcessor.lRange start stop (some (.deque dq)) = .ok (some elements) ∧
    AtPositions dq (firstPosition dq.length start.toInt) (lastPosition dq.length stop.toInt) elements
  lGet : DequeProcessor.lGet start (some (.deque dq)) = .ok (some
    (if fromEnd dq.length start.toInt < 0 then none
      else dq[(fromEnd dq.length start.toInt).toNat]?))
  ranks : RanksExact F z start stop

/-- No position lies between the two ranks, or nodes stand at both, and the scans of the removal
find their borders. -/
def RanksBordered (F : FloatOps) (z : ZSet) (start stop : Int64) : Prop :=
  lastPosition z.zcard stop.toInt < firstPosition z.zcard start.toInt ∨
    ∃ first last, Bordered F z.skiplist (firstPosition z.zcard start.toInt).toNat
      (lastPosition z.zcard stop.toInt).toNat first last

variable {F : FloatOps} {dq : List Bytes} {z : ZSet} {start stop : Int64}

theorem rangeOf_eq (hsize : z.zcard < 2 ^ 63) (start stop : Int64) :
    ZSetProcessor.rangeOf F z start stop = some
      (if lastPosition z.zcard stop.toInt < firstPosition z.zcard start.toInt then []
        else z.zrangeByRank F (firstPosition z.zcard start.toInt).toNat
          (lastPosition z.zcard stop.toInt).toNat) := by
  obtain ⟨ranks, hranks, hfirst, hlast⟩ := clampRanks_eq hsize start stop
  have hnonneg := @firstPosition_nonneg z.zcard start.toInt
  rw [ZSetProcessor.rangeOf, hranks, ← hfirst, ← hlast]
  simp only [Option.bind_eq_bind, Option.bind_some, Option.pure_def, Int64.lt_iff_toInt_lt]
  split
  · rfl
  · rw [toNat_toUInt64 (by omega), toNat_toUInt64 (by omega)]

theorem remOf_eq (hsize : z.zcard < 2 ^ 63) (start stop : Int64) :
    ZSetProcessor.remOf F z start stop =
      if lastPosition z.zcard stop.toInt < firstPosition z.zcard start.toInt then some (0, z)
      else z.tryZremRangeByRank F (firstPosition z.zcard start.toInt).toNat
        (lastPosition z.zcard stop.toInt).toNat := by
  obtain ⟨ranks, hranks, hfirst, hlast⟩ := clampRanks_eq hsize start stop
  have hnonneg := @firstPosition_nonneg z.zcard start.toInt
  rw [ZSetProcessor.remOf, hranks, ← hfirst, ← hlast]
  simp only [Option.bind_eq_bind, Option.bind_some, Option.pure_def, Int64.lt_iff_toInt_lt]
  split
  · rfl
  · rw [toNat_toUInt64 (by omega), toNat_toUInt64 (by omega)]

/-- Between no ranks nothing is listed and nothing removed. -/
theorem ranksExact_of_lt (hsize : z.zcard < 2 ^ 63)
    (hempty : lastPosition z.zcard stop.toInt < firstPosition z.zcard start.toInt) :
    RanksExact F z start stop := by
  refine ⟨[], z, ?_, AtPositions.nil hempty, ?_, ?_, fun member => ?_⟩
  · exact congrArg Except.ok ((rangeOf_eq hsize start stop).trans (congrArg some (if_pos hempty)))
  · exact (remOf_eq hsize start stop).trans (if_pos hempty)
  · exact (List.take_append_drop _ _).symm
  · exact (if_neg List.not_mem_nil).symm

/-- The ranks do what they say in exactly these sets. -/
theorem ranksExact_iff
    (hirrefl : ∀ node ∈ z.skiplist, F.lt node.1.score node.1.score = false)
    (hsize : z.zcard < 2 ^ 63) (start stop : Int64) :
    RanksExact F z start stop ↔ RanksBordered F z start stop := by
  have hnonneg := @firstPosition_nonneg z.zcard start.toInt
  rw [RanksBordered]
  by_cases hempty : lastPosition z.zcard stop.toInt < firstPosition z.zcard start.toInt
  · exact iff_of_true (ranksExact_of_lt hsize hempty) (Or.inl hempty)
  have hrange := @rangeOf_eq F z hsize start stop
  have hrem := @remOf_eq F z hsize start stop
  rw [if_neg hempty] at hrange hrem
  rw [or_iff_right hempty, RanksExact]
  -- how the positions are computed is used up; what is left is `0 ≤ i ≤ j`
  generalize firstPosition z.zcard start.toInt = i at *
  generalize lastPosition z.zcard stop.toInt = j at *
  have hij : i.toNat ≤ j.toNat := by omega
  have hcount : (j + 1 - i).toNat = j.toNat + 1 - i.toNat := by omega
  have hbehind : i.toNat + (j.toNat + 1 - i.toNat) = j.toNat + 1 := by omega
  constructor
  · rintro ⟨nodes, z', -, hnodes, hremoved, hremoves⟩
    -- the listing reaches the last position, so both ranks have a node
    have hlt := hnodes.lt_length hnonneg (Int.not_lt.1 hempty)
    have hfirst := List.getElem?_eq_getElem (show i.toNat < z.skiplist.length by omega)
    have hlast := List.getElem?_eq_getElem (show j.toNat < z.skiplist.length by omega)
    rw [hrem, tryZremRangeByRank_eq hij hfirst hlast, Option.some.injEq, Prod.mk.injEq] at hremoved
    obtain ⟨hlength, rfl⟩ := hremoved
    refine ⟨_, _, (skipRemoveRangeByKey_eq_slice_iff (hirrefl _ (List.getElem_mem _)) hij hfirst
      hlast).1 ?_⟩
    have hskiplist := hremoves.skiplist
    rw [hnodes.length, hcount] at hlength hskiplist
    rw [hbehind] at hskiplist
    exact Prod.ext hlength hskiplist
  · rintro ⟨first, last, hbordered⟩
    -- the borders make the removal by keys a removal of positions
    have hslice := (skipRemoveRangeByKey_eq_slice_iff
      (hirrefl _ (List.mem_of_getElem? hbordered.atFirst)) hij hbordered.atFirst
      hbordered.atLast).2 hbordered
    have hlt := (List.getElem?_eq_some_iff.1 hbordered.atLast).1
    have hnodes : AtPositions z.skiplist i j ((z.skiplist.drop i.toNat).take (j + 1 - i).toNat) :=
      AtPositions.slice hnonneg (Int.not_lt.1 hempty) (by omega)
    refine ⟨_, ⟨z.skiplist.take i.toNat ++ z.skiplist.drop (j.toNat + 1), ZSet.eraseMembers
      ((z.skiplist.drop i.toNat).take (j.toNat + 1 - i.toNat)) z.memberScoreMap⟩, ?_, hnodes, ?_, ?_⟩
    · refine congrArg Except.ok (hrange.trans (congrArg some ?_))
      rw [ZSet.zrangeByRank, skipRangeByRank_eq hij, hcount]
      rfl
    · rw [hrem, tryZremRangeByRank_eq hij hbordered.atFirst hbordered.atLast, hslice,
        hnodes.length, hcount]
    · refine ⟨?_, fun member => ?_⟩
      · rw [hnodes.length, hcount, hbehind]
      · rw [getElem?_eraseMembers, hcount]

/-- On every list the indexes are exact, so the ranks decide. -/
theorem indexesExact_iff_ranksExact (hdq : dq.length < 2 ^ 63) (z : ZSet) (start stop : Int64) :
    IndexesExact F dq z start stop ↔ RanksExact F z start stop := by
  constructor
  · exact IndexesExact.ranks
  · intro hranks
    obtain ⟨elements, helements, hpositions⟩ := lRange_positions hdq start stop
    exact ⟨⟨elements, congrArg Except.ok helements, hpositions⟩,
      congrArg Except.ok (lGet_position hdq start), hranks⟩

/-- The four operations are exact for every list, and in exactly the sets in which the removal by
rank finds its borders. -/
theorem indexesExact_iff (hirrefl : ∀ x, F.lt x x = false) (hdq : dq.length < 2 ^ 63)
    (hz : z.zcard < 2 ^ 63) (start stop : Int64) :
    IndexesExact F dq z start stop ↔ RanksBordered F z start stop := by
  rw [indexesExact_iff_ranksExact hdq, ranksExact_iff (fun node _ => hirrefl _) hz]

section Connection

variable {value : Option EyaValue} {n : Nat} {z' : ZSet} {now : Nat} {v : EValue}

/-- The clamped ranks of the operations on integers are the positions. -/
theorem adjustRanks_eq (size : Nat) (start stop : Int) :
    adjustRanks size start stop = (firstPosition size start, lastPosition size stop) :=
  Prod.ext firstPosition_eq lastPosition_eq

/-- On signed numbers `l_range` reads what the commands read, and `l_get` as well. -/
theorem lRange_eq (hsize : ∀ dq, value = some (.deque dq) → dq.length < 2 ^ 63)
    (start stop : Int64) : DequeProcessor.lRange start stop value =
      (lRange value start.toInt stop.toInt).map some := by
  rcases value with _ | _ | dq | _ | _ | _
  · rfl
  · rfl
  · obtain ⟨elements, helements, hpositions⟩ := lRange_positions (hsize dq rfl) start stop
    refine congrArg Except.ok (helements.trans (congrArg some ?_))
    simp only [adjustRanks_eq]
    exact hpositions.eq_slice
  · rfl
  · rfl
  · rfl

theorem lGet_eq (hsize : ∀ dq, value = some (.deque dq) → dq.length < 2 ^ 63) (index : Int64) :
    DequeProcessor.lGet index value = (lGet value index.toInt).map some := by
  rcases value with _ | _ | dq | _ | _ | _
  · rfl
  · rfl
  · exact congrArg Except.ok (lGet_position (hsize dq rfl) index)
  · rfl
  · rfl
  · rfl

theorem zRangeByRank_eq (hsize : ∀ z, value = some (.zset z) → z.zcard < 2 ^ 63)
    (start stop : Int64) : ZSetProcessor.zRangeByRank F start stop value =
      (zRangeByRank F value start.toInt stop.toInt).map some := by
  rcases value with _ | _ | _ | _ | _ | z
  · rfl
  · rfl
  · rfl
  · rfl
  · rfl
  · refine congrArg Except.ok ((rangeOf_eq (hsize z rfl) start stop).trans ?_)
    simp only [adjustRanks_eq]

/-- A removal whose keys are set is the removal. -/
theorem zremRangeByRank_of_some {i j : Nat} {r : Nat × ZSet}
    (h : z.tryZremRangeByRank F i j = some r) : z.zremRangeByRank F i j = r := by
  rw [ZSet.tryZremRangeByRank] at h
  rw [ZSet.zremRangeByRank]
  split at h
  · next hnothing => rw [if_pos hnothing, Option.some.inj h]
  · next hsome =>
      obtain ⟨removed, hremoved, hr⟩ := Option.bind_eq_some_iff.1 h
      rw [tryRemoveRangeByRank, if_neg fun hlt => hsome (Or.inl hlt)] at hremoved
      obtain ⟨minNode, hmin, hremoved⟩ := Option.bind_eq_some_iff.1 hremoved
      obtain ⟨maxNode, hmax, hremoved⟩ := Option.bind_eq_some_iff.1 hremoved
      obtain rfl := Option.some.inj hremoved
      -- both keys are set, so the defaults of the removal do not come in
      rw [if_neg hsome, skipRemoveRangeByRank, if_neg fun hlt => hsome (Or.inl hlt)]
      simp only [hmin, hmax, Option.map_some, Option.getD_some]
      exact Option.some.inj hr

/-- What the checked text makes of a live version is what the write operation makes of it, in the
memtable and below. -/
theorem zRemByRank_of_remOf (hsize : z.zcard < 2 ^ 63) {start stop : Int64}
    (hrem : ZSetProcessor.remOf F z start stop = some (n, z')) (hlive : v.isLive now = true)
    (hv : v.value = .zset z) :
    (zRemByRank F start.toInt stop.toInt).inPlace now v = ({ v with value := .zset z' }, .ok n) ∧
      ((zRemByRank F start.toInt stop.toInt).onOld v).map Prod.fst = .ok n := by
  have hdead := EValue.isLive_eq_true_iff.1 hlive
  have hcontainer : zsets.getIf v.value = some z := by
    rw [hv]
    rfl
  rw [remOf_eq hsize] at hrem
  simp only [zRemByRank, remover, adjustRanks_eq, hdead, hcontainer, Bool.false_eq_true, ↓reduceIte]
  split at hrem
  · next hempty =>
      rw [Option.some.injEq, Prod.mk.injEq] at hrem
      obtain ⟨rfl, rfl⟩ := hrem
      rw [if_pos hempty]
      exact ⟨rfl, rfl⟩
  · next hempty =>
      rw [if_neg hempty, zremRangeByRank_of_some hrem]
      exact ⟨rfl, rfl⟩

end Connection

section WellFormed

variable {L : Type} [LinearOrder L] {number : Double → Prop} {value : Double → L}

/-- In a well-formed set the removal finds its borders for all ranks. -/
theorem ranksBordered_of_wellFormed (hscores : LinearScores F number value)
    (h : z.WellFormed number value) (start stop : Int64) : RanksBordered F z start stop := by
  have hnonneg := @firstPosition_nonneg z.zcard start.toInt
  have hlt := @lastPosition_lt z.zcard stop.toInt
  have hcard := (h.describes hscores).zcard
  rw [RanksBordered]
  by_cases hempty : lastPosition z.zcard stop.toInt < firstPosition z.zcard start.toInt
  · exact Or.inl hempty
  generalize firstPosition z.zcard start.toInt = i at *
  generalize lastPosition z.zcard stop.toInt = j at *
  have hnumber : ∀ {k : Nat} {node : ZSetKey × Bytes}, z.skiplist[k]? = some node →
      number node.1.score := fun hnode => h.ordered.numbers _ (List.mem_of_getElem? hnode)
  have hascending := h.ordered.ascending
  have hfirst := List.getElem?_eq_getElem (show i.toNat < z.skiplist.length by omega)
  have hlast := List.getElem?_eq_getElem (show j.toNat < z.skiplist.length by omega)
  -- each border is the order of the list, read as a comparison of keys
  refine Or.inr ⟨_, _, hfirst, hlast, ?_, fun k node hk hnode => ?_, fun k node _ hk hnode => ?_,
    fun node hnode => ?_⟩
  · rw [← Bool.not_eq_true, ZSetKey.lt_iff hscores (hnumber hlast) (hnumber hfirst), not_lt]
    exact (hascending.le_iff_key_le hfirst hlast).1 (by omega)
  · exact compareZsetKeys_of_lt hscores (hnumber hnode) (hnumber hfirst)
      (hascending.key_lt_of_lt hk hnode hfirst)
  · rw [← bne_iff_ne, compareZsetKeys_le_iff hscores (hnumber hnode) (hnumber hlast)]
    exact decide_eq_true ((hascending.le_iff_key_le hnode hlast).1 hk)
  · exact compareZsetKeys_of_gt hscores (hnumber hnode) (hnumber hlast)
      (hascending.key_lt_of_lt (Nat.lt_succ_self _) hlast hnode)

/-- In every state of a run within the limits of the operations all indexes are exact. -/
theorem indexesExact_run (hscores : LinearScores F number value) (h : z.Reachable F number value)
    (hdq : dq.length < 2 ^ 63) (hz : z.zcard < 2 ^ 63) (start stop : Int64) :
    IndexesExact F dq z start stop := by
  have hwf := h.wellFormed hscores
  rw [indexesExact_iff_ranksExact hdq, ranksExact_iff (fun node hnode => ?_) hz]
  · exact ranksBordered_of_wellFormed hscores hwf start stop
  · -- a score of the list is a number, and no number is below itself
    have hnumber := hwf.ordered.numbers node hnode
    rw [← Bool.not_eq_true, hscores.lt_iff _ _ hnumber hnumber]
    exact lt_irrefl _

end WellFormed

/-- The pattern of a whole number, from that of its absolute value. -/
def signedDouble (negative : Bool) (d : Double) : Double :=
  if negative then d + 0x8000000000000000 else d

/-- The whole number in a pattern. -/
def Double.whole (d : Double) : Int :=
  if d < 0x8000000000000000 then d.natural else -Double.natural (d - 0x8000000000000000)

/-- Floating-point operations on whole numbers, as far as those on natural numbers go. -/
def wholeFloats : FloatOps where
  stod text :=
    if text.head? = some 45 then (naturalFloats.stod text.tail).map (signedDouble true)
    else naturalFloats.stod text
  toString d :=
    if d < 0x8000000000000000 then naturalFloats.toString d
    else 45 :: naturalFloats.toString (d - 0x8000000000000000)
  add a b := signedDouble (decide (a.whole + b.whole < 0)) (naturalDouble (a.whole + b.whole).natAbs)
  eq a b := a.whole == b.whole
  lt a b := decide (a.whole < b.whole)
  unsetScore := 0

theorem linearScores_wholeFloats : LinearScores wholeFloats (fun _ => True) Double.whole where
  lt_iff _ _ _ _ := decide_eq_true_iff
  eq_iff _ _ _ _ := beq_iff_eq
  zero := trivial

/-- Two members, one of them with a negative score. -/
def twoMembers : List ZSetOp :=
  [.zadd (ascii "a") (ascii "-5"), .zadd (ascii "b") (ascii "5")]

theorem indexesExact_twoMembers : IndexesExact wholeFloats [ascii "x", ascii "y", ascii "z"]
    (ZSet.after wholeFloats twoMembers) (-7) (-1) := by
  have hreach : (ZSet.after wholeFloats twoMembers).Reachable wholeFloats (fun _ => True)
      Double.whole :=
    .step (.zadd (ascii "b") (ascii "5")) (.step (.zadd (ascii "a") (ascii "-5")) .empty
      (fun _ _ => trivial) trivial) (fun _ _ => trivial) trivial
  exact (indexesExact_iff (fun _ => decide_eq_false (lt_irrefl _)) (by decide) (by decide) (-7)
    (-1)).2 (ranksBordered_of_wellFormed linearScores_wholeFloats
      (hreach.wellFormed linearScores_wholeFloats) (-7) (-1))

/-- A member whose node is removed by its score, while the map keeps it, and a second member. -/
def keptRun : List ZSetOp :=
  [.zadd (ascii "a") (ascii "-5"), .zremRangeByScore (ascii "-6") (ascii "-4"),
    .zadd (ascii "b") (ascii "5")]

/-- The last of all ranks has no node, so the listing is too short, and the removal has no key for
it. With a score of 0 there it erases the second member from the map only. -/
theorem not_indexesExact_keptRun :
    ¬IndexesExact wholeFloats [] (ZSet.after wholeFloats keptRun) 0 (-1) ∧
      (ZSet.after wholeFloats keptRun).zcard = 2 ∧
      ZSetProcessor.rangeOf wholeFloats (ZSet.after wholeFloats keptRun) 0 (-1) =
        some [(ascii "b", ascii "5.000000")] ∧
      ZSetProcessor.remOf wholeFloats (ZSet.after wholeFloats keptRun) 0 (-1) = none ∧
      (ZSet.after wholeFloats keptRun).zremRangeByRank wholeFloats 0 1 =
        (0, ⟨(ZSet.after wholeFloats keptRun).skiplist,
          (ZSet.after wholeFloats keptRun).memberScoreMap.erase (ascii "b")⟩) := by
  have hrange : ZSetProcessor.rangeOf wholeFloats (ZSet.after wholeFloats keptRun) 0 (-1) =
      some [(ascii "b", ascii "5.000000")] := by decide
  refine ⟨fun hexact => ?_, by decide, hrange, by decide, by decide⟩
  obtain ⟨nodes, z', hlisted, hnodes, -⟩ := hexact.ranks
  -- two positions lie between the ranks, but only one pair is listed
  have htwo : nodes.length = 2 := hnodes.length.trans (by decide)
  have hone : nodes.map (entryOf wholeFloats) = [(ascii "b", ascii "5.000000")] :=
    Option.some.inj ((Except.ok.inj hlisted).symm.trans hrange)
  rw [← List.length_map (entryOf wholeFloats), hone] at htwo
  cases htwo

end Exactness

end EyaKV.Store
