import EyaKV.Store.ZSetCoherence

/-!
# Ranges of scores

`zrange_by_score` and `zrem_range_by_score` turn two scores into keys: the least one with the member
"" and the greatest one with the member "\xff". A member that begins with that byte and goes on
sorts behind the second key, so it is left out at the greatest score. And the listing of a range of
keys begins with the node in front of it, or with the head. So the two operations are right exactly
when no member sorts behind the second key at its score, and there is no such node: the first key
is that of a member, or the whole list lies behind the range and the head with it
(`scoresExact_iff`).
-/

set_option autoImplicit false

namespace EyaKV.Store

open EyaKV.Base

variable {L : Type} [LinearOrder L] {F : FloatOps} {number : Double → Prop} {value : Double → L}
  {z : ZSet} {minScore maxScore : Double} {minKey maxKey : ZSetKey}

/-- The score of the node lies between two scores. -/
def InScores (value : Double → L) (minScore maxScore : Double) (node : ZSetKey × Bytes) : Prop :=
  value minScore ≤ value node.1.score ∧ value node.1.score ≤ value maxScore

instance (value : Double → L) (minScore maxScore : Double) (node : ZSetKey × Bytes) :
    Decidable (InScores value minScore maxScore node) := inferInstanceAs (Decidable (_ ∧ _))

/-- The nodes with a score between two scores, in their order. -/
def ZSet.inScores (value : Double → L) (z : ZSet) (minScore maxScore : Double) : ZSkipList :=
  z.skiplist.filter fun node => InScores value minScore maxScore node

/-- The listing of the scores shows the members between them in their order, and the removal takes
exactly these out of both structures and returns their number. -/
structure ZSet.ScoresExact (F : FloatOps) (value : Double → L) (z : ZSet) (minSc maxSc : Bytes)
    (minScore maxScore : Double) : Prop where
  listed : z.zrangeByScore F minSc maxSc =
    .ok ((z.inScores value minScore maxScore).map fun node => (node.2, F.toString node.1.score))
  removed : ∃ z', z.zremRangeByScore F minSc maxSc =
      .ok ((z.inScores value minScore maxScore).length, z') ∧
    z'.skiplist = z.skiplist.filter (fun node => !decide (InScores value minScore maxScore node)) ∧
    ∀ member, z'.memberScoreMap[member]? =
      if member ∈ (z.inScores value minScore maxScore).map Prod.snd then none
      else z.memberScoreMap[member]?

/-- No member at a score sorts behind "\xff". -/
def NoneAbove (value : Double → L) (score : Double) (list : ZSkipList) : Prop :=
  ∀ node ∈ list, value node.1.score = value score → node.1.member ≤ [0xff]

instance (value : Double → L) (score : Double) (list : ZSkipList) :
    Decidable (NoneAbove value score list) := inferInstanceAs (Decidable (∀ node ∈ list, _))

/-- The keys stand for their scores: no member sorts behind the greatest key at its score; and the
member "" has the least score, or the greatest one lies below 0 and below all members. -/
def CleanScores (value : Double → L) (minScore maxScore : Double) (list : ZSkipList) : Prop :=
  NoneAbove value maxScore list ∧
    ((∃ node ∈ list, value node.1.score = value minScore ∧ node.1.member = []) ∨
      (value maxScore < value 0 ∧ ∀ node ∈ list, value maxScore < value node.1.score))

section Places

theorem nil_le_bytes (b : Bytes) : [] ≤ b := by
  rw [← not_lt]
  intro h
  cases h

theorem start_le_iff (node : ZSetKey × Bytes) :
    (ZSetKey.mk minScore []).place value ≤ placeOf value node ↔
      value minScore ≤ value node.1.score := by
  rw [placeOf, ZSetKey.place, ZSetKey.place, Prod.Lex.toLex_le_toLex,
    le_iff_lt_or_eq (a := value minScore)]
  exact or_congr_right (and_iff_left (nil_le_bytes node.1.member))

theorem le_end_iff {node : ZSetKey × Bytes} :
    placeOf value node ≤ (ZSetKey.mk maxScore [0xff]).place value ↔
      value node.1.score < value maxScore ∨
        value node.1.score = value maxScore ∧ node.1.member ≤ [0xff] := by
  rw [placeOf, ZSetKey.place, ZSetKey.place, Prod.Lex.toLex_le_toLex]

theorem NoneAbove.le_end_iff {list : ZSkipList} (h : NoneAbove value maxScore list)
    {node : ZSetKey × Bytes} (hnode : node ∈ list) :
    placeOf value node ≤ (ZSetKey.mk maxScore [0xff]).place value ↔
      value node.1.score ≤ value maxScore := by
  rw [Store.le_end_iff, le_iff_lt_or_eq (a := value node.1.score)]
  exact or_congr_right (and_iff_left_of_imp (h node hnode))

theorem NoneAbove.between_iff {list : ZSkipList} (h : NoneAbove value maxScore list)
    {node : ZSetKey × Bytes} (hnode : node ∈ list) :
    Between value ⟨minScore, []⟩ ⟨maxScore, [0xff]⟩ node ↔ InScores value minScore maxScore node :=
  and_congr (start_le_iff node) (h.le_end_iff hnode)

/-- With such members aside, what makes a listing exact is a matter of scores. -/
theorem NoneAbove.exactRange_iff {list : ZSkipList} (h : NoneAbove value maxScore list)
    (hle : value minScore ≤ value maxScore) :
    ExactRange value ⟨minScore, []⟩ ⟨maxScore, [0xff]⟩ list ↔
      (∃ node ∈ list, value node.1.score = value minScore ∧ node.1.member = []) ∨
        (value maxScore < value 0 ∧ ∀ node ∈ list, value maxScore < value node.1.score) := by
  have hkeys : ¬(ZSetKey.mk maxScore [0xff]).place value < (ZSetKey.mk minScore []).place value := by
    rw [not_lt]
    exact (start_le_iff (⟨maxScore, [0xff]⟩, [])).2 hle
  have hplace : ∀ node : ZSetKey × Bytes,
      placeOf value node = (ZSetKey.mk minScore []).place value ↔
        value node.1.score = value minScore ∧ node.1.member = [] := by
    intro node
    rw [placeOf, ZSetKey.place, ZSetKey.place, toLex_inj, Prod.mk.injEq]
  have hsentinel : (ZSetKey.mk maxScore [0xff]).place value < placeOf value sentinel ↔
      value maxScore < value 0 := by
    rw [← not_le, ← not_le, not_iff_not, Store.le_end_iff, le_iff_lt_or_eq (a := value 0)]
    exact or_congr_right (and_iff_left (nil_le_bytes [0xff]))
  rw [ExactRange, or_iff_right hkeys, hsentinel]
  refine or_congr (exists_congr fun node => and_congr_right fun _ => hplace node)
    (and_congr_right fun _ => forall₂_congr fun node hnode => ?_)
  have hend : (ZSetKey.mk maxScore [0xff]).place value < placeOf value node ↔
      value maxScore < value node.1.score := by
    rw [← not_le, h.le_end_iff hnode, not_le]
  rw [hend]
  exact and_iff_right_of_imp fun hlt =>
    Prod.Lex.toLex_lt_toLex.2 (Or.inl (lt_of_le_of_lt hle hlt))

end Places

section Listing

variable (hscores : LinearScores F number value) (h : z.WellFormed number value)

include hscores h

/-- A member that is listed is that of a node up to the greatest key, or "". -/
theorem le_of_listed (hmin : number minKey.score) (hmax : number maxKey.score)
    (hle : minKey.place value ≤ maxKey.place value) {node : ZSetKey × Bytes}
    (hnode : node ∈ z.skiplist)
    (hlisted : node.2 ∈ (skipRangeByKey F minKey maxKey z.skiplist).map Prod.snd) :
    placeOf value node ≤ maxKey.place value ∨ node.2 = [] := by
  obtain ⟨n, hn, heq⟩ := List.mem_map.1 hlisted
  by_cases hnone : ∀ node ∈ z.skiplist, minKey.place value < placeOf value node
  · rw [skipRangeByKey_of_none hscores h.ordered hmin hmax hle hnone] at hn
    split at hn
    · rcases List.mem_cons.1 hn with rfl | hn
      · exact Or.inr heq.symm
      · obtain ⟨hn, hbelow⟩ := List.mem_filter.1 hn
        rw [← h.eq_of_member_eq hn hnode heq]
        exact Or.inl (of_decide_eq_true hbelow)
    · cases hn
  · obtain ⟨first, hfirst⟩ := not_forall.1 hnone
    rw [Classical.not_imp, not_lt] at hfirst
    have hbelow : first ∈ z.skiplist.filter fun node => placeOf value node ≤ minKey.place value :=
      List.mem_filter.2 ⟨hfirst.1, decide_eq_true hfirst.2⟩
    obtain ⟨last, hlast⟩ : ∃ last, _ = some last :=
      ⟨_, List.getLast?_eq_some_getLast (List.ne_nil_of_mem hbelow)⟩
    rw [skipRangeByKey_of_some hscores h.ordered hmin hmax hle hlast] at hn
    left
    rcases List.mem_cons.1 hn with rfl | hn
    · obtain ⟨hn, hbelow⟩ := List.mem_filter.1 (List.mem_of_getLast? hlast)
      rw [← h.eq_of_member_eq hn hnode heq]
      exact le_trans (of_decide_eq_true hbelow) hle
    · obtain ⟨hn, hbelow⟩ := List.mem_filter.1 hn
      rw [← h.eq_of_member_eq hn hnode heq]
      rw [Bool.and_eq_true] at hbelow
      exact of_decide_eq_true hbelow.1

/-- **When the listing of a range of scores is right.** -/
theorem listed_iff (hmin : number minScore) (hmax : number maxScore)
    (hle : value minScore ≤ value maxScore) :
    (skipRangeByKey F ⟨minScore, []⟩ ⟨maxScore, [0xff]⟩ z.skiplist).map
        (fun node => (node.2, F.toString node.1.score)) =
      (z.inScores value minScore maxScore).map (fun node => (node.2, F.toString node.1.score)) ↔
        CleanScores value minScore maxScore z.skiplist := by
  let startKey : ZSetKey := ⟨minScore, []⟩
  let endKey : ZSetKey := ⟨maxScore, [0xff]⟩
  have hstart : number startKey.score := hmin
  have hend : number endKey.score := hmax
  have hkeys : startKey.place value ≤ endKey.place value :=
    (start_le_iff (endKey, [])).2 hle
  have hexact := map_skipRangeByKey_eq_iff hscores h.ordered hstart hend fun node =>
    (node.2, F.toString node.1.score)
  have hbetween : NoneAbove value maxScore z.skiplist → z.inScores value minScore maxScore =
      z.skiplist.filter fun node => Between value startKey endKey node := fun habove =>
    List.filter_congr fun node hnode => by rw [decide_eq_decide, habove.between_iff hnode]
  constructor
  · intro heq
    have habove : NoneAbove value maxScore z.skiplist := by
      -- A member behind the greatest key is in the range of scores, and not listed.
      intro node hnode hscore
      by_contra hmember
      have hin : node ∈ z.inScores value minScore maxScore :=
        List.mem_filter.2 ⟨hnode, decide_eq_true ⟨hscore ▸ hle, le_of_eq hscore⟩⟩
      have hmembers := congrArg (List.map Prod.fst) heq
      rw [List.map_map, List.map_map] at hmembers
      have hlisted : node.2 ∈ (skipRangeByKey F startKey endKey z.skiplist).map Prod.snd :=
        hmembers ▸ List.mem_map.2 ⟨node, hin, rfl⟩
      rcases le_of_listed hscores h hstart hend hkeys hnode hlisted with hbelow | hempty
      · rcases le_end_iff.1 hbelow with hlt | ⟨-, hle'⟩
        · exact absurd hscore (ne_of_lt hlt)
        · exact hmember hle'
      · rw [((h.coherent.holds node).1 hnode).1, hempty] at hmember
        exact hmember (nil_le_bytes [0xff])
    rw [hbetween habove, hexact, habove.exactRange_iff hle] at heq
    exact ⟨habove, heq⟩
  · rintro ⟨habove, hrange⟩
    rw [hbetween habove, hexact, habove.exactRange_iff hle]
    exact hrange

end Listing

section Removal

/-- What is removed and what stays make up the list. -/
theorem skipRemoveRangeByKey_length (F : FloatOps) (minKey maxKey : ZSetKey) (list : ZSkipList) :
    (skipRemoveRangeByKey F minKey maxKey list).1 +
      (skipRemoveRangeByKey F minKey maxKey list).2.length = list.length := by
  rw [skipRemoveRangeByKey]
  split
  · exact Nat.zero_add _
  · have hbefore := (List.takeWhile_sublist (l := list) fun node =>
      compareZsetKeys F node.1 minKey == .lt).length_le
    have hremoved := (List.takeWhile_sublist
      (l := list.drop (list.takeWhile fun node => compareZsetKeys F node.1 minKey == .lt).length)
      fun node => compareZsetKeys F node.1 maxKey != .gt).length_le
    rw [List.length_drop] at hremoved
    simp only [List.length_append, List.length_drop]
    omega

/-- **When ranges of scores are right**: the members between two scores are listed, and removed from
both structures, exactly when the keys stand for the scores. -/
theorem scoresExact_iff (hscores : LinearScores F number value) (h : z.WellFormed number value)
    {minSc maxSc : Bytes} (hminSc : F.stod minSc = .ok minScore) (hmaxSc : F.stod maxSc = .ok maxScore)
    (hmin : number minScore) (hmax : number maxScore) (hle : value minScore ≤ value maxScore) :
    z.ScoresExact F value minSc maxSc minScore maxScore ↔
      CleanScores value minScore maxScore z.skiplist := by
  let startKey : ZSetKey := ⟨minScore, []⟩
  let endKey : ZSetKey := ⟨maxScore, [0xff]⟩
  have hstart : number startKey.score := hmin
  have hend : number endKey.score := hmax
  have hlisting : z.zrangeByScore F minSc maxSc =
      .ok ((skipRangeByKey F startKey endKey z.skiplist).map fun node =>
        (node.2, F.toString node.1.score)) := by
    simp only [ZSet.zrangeByScore, hminSc, hmaxSc, bind, Except.bind, pure, Except.pure]
    rfl
  constructor
  · intro hexact
    have heq := hlisting.symm.trans hexact.listed
    exact (listed_iff hscores h hmin hmax hle).1 (Except.ok.inj heq)
  · intro hclean
    refine ⟨hlisting.trans (congrArg _ ((listed_iff hscores h hmin hmax hle).2 hclean)), ?_⟩
    obtain ⟨habove, hrange⟩ := hclean
    -- no member is above the last key, so between the scores is between the keys
    have hin : z.inScores value minScore maxScore =
        z.skiplist.filter fun node => Between value startKey endKey node :=
      List.filter_congr fun node hnode => by rw [decide_eq_decide, habove.between_iff hnode]
    have hout : (z.skiplist.filter fun node => !decide (InScores value minScore maxScore node)) =
        z.skiplist.filter fun node => !decide (Between value startKey endKey node) :=
      List.filter_congr fun node hnode => by rw [decide_eq_decide.2 (habove.between_iff hnode)]
    have hkept := skipRemoveRangeByKey_eq hscores h.ordered hstart hend
    have hlisted : skipRangeByKey F startKey endKey z.skiplist =
        z.inScores value minScore maxScore := by
      have hexact := (map_skipRangeByKey_eq_iff hscores h.ordered hstart hend id).2
        ((habove.exactRange_iff hle).2 hrange)
      rw [List.map_id, List.map_id] at hexact
      rw [hexact, hin]
    -- the count is what the list loses
    have hcount : (skipRemoveRangeByKey F startKey endKey z.skiplist).1 =
        (z.inScores value minScore maxScore).length := by
      have hlength := skipRemoveRangeByKey_length F startKey endKey z.skiplist
      have hsplit := List.length_eq_length_filter_add (l := z.skiplist)
        fun node => decide (Between value startKey endKey node)
      rw [hkept] at hlength
      rw [hin]
      omega
    refine ⟨⟨(skipRemoveRangeByKey F startKey endKey z.skiplist).2,
      ZSet.eraseMembers (skipRangeByKey F startKey endKey z.skiplist) z.memberScoreMap⟩, ?_, ?_, ?_⟩
    · rw [← hcount]
      simp only [ZSet.zremRangeByScore, hminSc, hmaxSc, bind, Except.bind]
      rfl
    · exact hkept.trans hout.symm
    · intro member
      rw [getElem?_eraseMembers, hlisted]

/-- A set with the member "" of score 1 and another one of score 5. -/
def twoScores (member : Bytes) : ZSet :=
  ZSet.after naturalFloats [.zadd [] (ascii "1"), .zadd member (ascii "5")]

theorem wellFormed_twoScores (member : Bytes) :
    (twoScores member).WellFormed (fun d => d.toNat ≤ 0x7ff0000000000000) UInt64.toNat := by
  refine ZSet.Reachable.wellFormed linearScores_naturalFloats
    (.step (.zadd member (ascii "5")) (.step (.zadd [] (ascii "1")) .empty ?_ trivial) ?_ trivial)
  · intro score hscore
    obtain rfl := Except.ok.inj hscore
    decide
  · intro score hscore
    obtain rfl := Except.ok.inj hscore
    decide

/-- A range that begins at the member "" is right. -/
theorem scoresExact_iff_of_empty_member : (twoScores (ascii "a")).ScoresExact naturalFloats
    UInt64.toNat (ascii "1") (ascii "5") (naturalDouble 1) (naturalDouble 5) :=
  (scoresExact_iff linearScores_naturalFloats (wellFormed_twoScores (ascii "a")) rfl rfl (by decide)
    (by decide) (by decide)).2 ⟨by decide, Or.inl ⟨(⟨naturalDouble 1, []⟩, []), by decide, rfl, rfl⟩⟩

/-- **A member of a smaller score is listed**, and erased from the map when the range is removed;
and a member that goes on behind "\xff" is left out at the greatest score. -/
theorem zrangeByScore_wrong :
    (twoScores (ascii "a")).zrangeByScore naturalFloats (ascii "3") (ascii "5") =
        .ok [([], ascii "1.000000"), (ascii "a", ascii "5.000000")] ∧
      (((twoScores (ascii "a")).zremRangeByScore naturalFloats (ascii "3") (ascii "5")).map fun r =>
        (r.1, r.2.zcard, r.2.skiplist.length)) = .ok (1, 0, 1) ∧
      (twoScores [0xff, 0x61]).zrangeByScore naturalFloats (ascii "1") (ascii "5") =
        .ok [([], ascii "1.000000")] ∧
      ¬ (twoScores (ascii "a")).ScoresExact naturalFloats UInt64.toNat (ascii "3") (ascii "5")
        (naturalDouble 3) (naturalDouble 5) ∧
      ¬ (twoScores [0xff, 0x61]).ScoresExact naturalFloats UInt64.toNat (ascii "1") (ascii "5")
        (naturalDouble 1) (naturalDouble 5) := by
  refine ⟨by decide, by decide, by decide, fun hexact => ?_, fun hexact => ?_⟩
  · exact absurd hexact.listed (by decide)
  · exact absurd hexact.listed (by decide)

end Removal

end EyaKV.Store
