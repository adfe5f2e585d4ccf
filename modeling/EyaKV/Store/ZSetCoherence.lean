import EyaKV.Store.ZSets

/-!
# Runs of a sorted set

`ZSet.Coherent` says that the skip list holds the pairs of the score map and nothing else, each
once. An update replaces the node of one member, or filters the list and erases members from
the map; `wellFormed_put` and `coherent_filter_iff` say what each does to the invariant, and
every operation is one of the two.

The range removals collect the members to erase with a listing of their own. By rank the listing
is the removed part as long as both ranks exist. By score it starts at the last node that is not
above the range, or at the sentinel, so it is the removed part only in the states that
`CleanRange` describes. `coherent_run` is the result over whole runs.
-/

set_option autoImplicit false

namespace EyaKV.Store

open EyaKV.Base EyaKV.Base.Framing

section Invariant

/-- The skip list holds exactly the pairs of the score map, each once. -/
structure ZSet.Coherent (z : ZSet) : Prop where
  once : z.skiplist.Nodup
  holds : ∀ node : ZSetKey × Bytes, node ∈ z.skiplist ↔
    node.1.member = node.2 ∧ z.memberScoreMap[node.2]? = some node.1.score

variable {L : Type} [LinearOrder L] {F : FloatOps} {number : Double → Prop} {value : Double → L}
  {z : ZSet} {member : Bytes} {score old : Double}

/-- What every operation keeps: the order of the nodes as well. -/
structure ZSet.WellFormed (number : Double → Prop) (value : Double → L) (z : ZSet) : Prop where
  ordered : Ordered number value z.skiplist
  coherent : z.Coherent

theorem ZSet.wellFormed_empty : ZSet.empty.WellFormed number value := by
  refine ⟨⟨List.Pairwise.nil, fun node hnode => absurd hnode List.not_mem_nil⟩, List.nodup_nil, ?_⟩
  intro node
  apply iff_of_false List.not_mem_nil
  rintro ⟨-, hscore⟩
  rw [ZSet.empty, Std.ExtTreeMap.getElem?_empty] at hscore
  cases hscore

namespace ZSet.WellFormed

variable (h : z.WellFormed number value)

include h

/-- A member has one node. -/
theorem eq_of_member_eq {a b : ZSetKey × Bytes} (ha : a ∈ z.skiplist) (hb : b ∈ z.skiplist)
    (heq : a.2 = b.2) : a = b := by
  obtain ⟨hmember, hscore⟩ := (h.coherent.holds a).1 ha
  obtain ⟨hmember', hscore'⟩ := (h.coherent.holds b).1 hb
  rw [heq, hscore', Option.some.injEq] at hscore
  have hkey : a.1 = b.1 := by
    cases hka : a.1
    cases hkb : b.1
    rw [hka, hkb] at hscore
    rw [hka] at hmember
    rw [hkb] at hmember'
    exact congrArg₂ ZSetKey.mk hscore.symm (hmember.trans (heq.trans hmember'.symm))
  exact Prod.ext hkey heq

theorem number_of_score (hscore : z.memberScoreMap[member]? = some score) : number score :=
  h.ordered.numbers (⟨score, member⟩, member) ((h.coherent.holds _).2 ⟨rfl, hscore⟩)

/-- Taking out the node of a member by its score. -/
theorem skipRemove_member (hscores : LinearScores F number value)
    (hscore : z.memberScoreMap[member]? = some old) :
    skipRemove F ⟨old, member⟩ z.skiplist = z.skiplist.filter fun node => node.2 ≠ member := by
  have hmem : ((⟨old, member⟩, member) : ZSetKey × Bytes) ∈ z.skiplist :=
    (h.coherent.holds _).2 ⟨rfl, hscore⟩
  rw [skipRemove_eq hscores h.ordered (h.number_of_score hscore)]
  refine List.filter_congr fun node hnode => ?_
  rw [decide_eq_decide, not_iff_not]
  constructor
  · intro hplace
    rw [h.ordered.ascending.eq_of_key_eq hnode hmem hplace]
  · intro hmember
    rw [h.eq_of_member_eq hnode hmem hmember]

omit [LinearOrder L] h in
theorem filter_member_of_none (hcoherent : z.Coherent) (hscore : z.memberScoreMap[member]? = none) :
    z.skiplist.filter (fun node => node.2 ≠ member) = z.skiplist := by
  refine List.filter_eq_self.2 fun node hnode => ?_
  rw [decide_eq_true_eq]
  rintro rfl
  rw [((hcoherent.holds node).1 hnode).2] at hscore
  cases hscore

/-- A member with a new node in place of its old one. -/
theorem put (hscores : LinearScores F number value) (hnumber : number score) :
    (⟨skipInsert F ⟨score, member⟩ member (z.skiplist.filter fun node => node.2 ≠ member),
      z.memberScoreMap.insert member score⟩ : ZSet).WellFormed number value := by
  have hordered := h.ordered.filter fun node => node.2 ≠ member
  have hnew : ∀ node ∈ z.skiplist.filter fun node => node.2 ≠ member,
      placeOf value node ≠ (ZSetKey.mk score member).place value := by
    intro node hnode hplace
    obtain ⟨hnode, hne⟩ := List.mem_filter.1 hnode
    have hmember : node.1.member = member := congrArg (fun p => (ofLex p).2) hplace
    rw [((h.coherent.holds node).1 hnode).1] at hmember
    exact of_decide_eq_true hne hmember
  have hkey : number (ZSetKey.mk score member).score := hnumber
  have hlist := ordered_skipInsert hscores hordered hkey hnew member
  refine ⟨hlist, hlist.ascending.nodup, fun node => ?_⟩
  rw [mem_skipInsert hscores hordered hnumber hnew, List.mem_filter, decide_eq_true_eq,
    h.coherent.holds node, Std.ExtTreeMap.getElem?_insert]
  obtain ⟨⟨s, m⟩, v⟩ := node
  by_cases hv : v = member
  · subst hv
    simp only [Std.ReflCmp.compare_self, ↓reduceIte, Option.some.injEq, Prod.mk.injEq,
      ZSetKey.mk.injEq, and_true, ne_eq, not_true_eq_false, and_false, or_false]
    exact ⟨fun heq => ⟨heq.2, heq.1.symm⟩, fun heq => ⟨heq.2.symm, heq.1⟩⟩
  · have hcompare : compare member v ≠ .eq := fun heq => hv (Std.LawfulEqCmp.eq_of_compare heq).symm
    simp only [hcompare, ↓reduceIte, Prod.mk.injEq, hv, and_false, false_or, ne_eq,
      not_false_eq_true, and_true]

end ZSet.WellFormed

theorem getElem?_eraseMembers (nodes : ZSkipList) (m : StrMap Double) (member : Bytes) :
    (ZSet.eraseMembers nodes m)[member]? =
      if member ∈ nodes.map Prod.snd then none else m[member]? := by
  induction nodes generalizing m with
  | nil => rfl
  | cons node rest ih =>
      have hstep : ZSet.eraseMembers (node :: rest) m = ZSet.eraseMembers rest (m.erase node.2) := rfl
      rw [hstep, ih, Std.ExtTreeMap.getElem?_erase, List.map_cons]
      by_cases hrest : member ∈ rest.map Prod.snd
      · rw [if_pos hrest, if_pos (List.mem_cons_of_mem _ hrest)]
      · rw [if_neg hrest]
        by_cases heq : node.2 = member
        · rw [if_pos (Std.LawfulEqCmp.compare_eq_iff_eq.2 heq),
            if_pos (List.mem_cons.2 (Or.inl heq.symm))]
        · rw [if_neg fun h => heq (Std.LawfulEqCmp.eq_of_compare h), if_neg]
          intro hmem
          rcases List.mem_cons.1 hmem with hhead | hmem
          · exact heq hhead.symm
          · exact hrest hmem

/-- Filtering the list and erasing members keeps the structures together exactly when the erased
members are those of the nodes that the filter takes out. -/
theorem coherent_filter_iff (h : z.WellFormed number value) (p : ZSetKey × Bytes → Bool)
    (erased : ZSkipList) :
    (⟨z.skiplist.filter p, ZSet.eraseMembers erased z.memberScoreMap⟩ : ZSet).Coherent ↔
      ∀ node ∈ z.skiplist, p node = false ↔ node.2 ∈ erased.map Prod.snd := by
  constructor
  · intro hcoherent node hnode
    have hscore := ((h.coherent.holds node).1 hnode)
    have hiff := hcoherent.holds node
    rw [List.mem_filter, getElem?_eraseMembers] at hiff
    by_cases herased : node.2 ∈ erased.map Prod.snd
    · rw [if_pos herased] at hiff
      refine iff_of_true (Bool.eq_false_iff.2 fun hp => ?_) herased
      cases (hiff.1 ⟨hnode, hp⟩).2
    · rw [if_neg herased] at hiff
      refine iff_of_false ?_ herased
      rw [(hiff.2 hscore).2]
      exact fun hp => Bool.noConfusion hp
  · intro hexact
    refine ⟨h.coherent.once.filter p, fun node => ?_⟩
    rw [List.mem_filter, getElem?_eraseMembers]
    constructor
    · rintro ⟨hnode, hp⟩
      rw [if_neg fun herased => ?_]
      · exact (h.coherent.holds node).1 hnode
      · rw [(hexact node hnode).2 herased] at hp
        cases hp
    · rintro ⟨hmember, hscore⟩
      split at hscore
      · cases hscore
      · next herased =>
          have hnode := (h.coherent.holds node).2 ⟨hmember, hscore⟩
          refine ⟨hnode, ?_⟩
          rw [← Bool.not_eq_false]
          exact fun hp => herased ((hexact node hnode).1 hp)

end Invariant

section Ranges

variable {L : Type} [LinearOrder L] {F : FloatOps} {number : Double → Prop} {value : Double → L}
  {z : ZSet} {minKey maxKey : ZSetKey} {list : ZSkipList}

/-- What a removal by score erases from the map is what it removes from the list: the range is
empty; or a node stands at its start; or no node is before the range, and then either the listing
goes through the sentinel, and "" is not a member behind the range, or it does not and the range
holds no node. -/
def CleanRange (value : Double → L) (minKey maxKey : ZSetKey) (list : ZSkipList) : Prop :=
  maxKey.place value < minKey.place value ∨
  (∃ node ∈ list, placeOf value node = minKey.place value) ∨
  (∀ node ∈ list, minKey.place value < placeOf value node) ∧
    (placeOf value sentinel ≤ maxKey.place value ∧
        (∀ node ∈ list, node.2 = [] → placeOf value node ≤ maxKey.place value) ∨
      maxKey.place value < placeOf value sentinel ∧
        ∀ node ∈ list, maxKey.place value < placeOf value node)

/-- The listing of a range is the range: the range is empty; or a node stands at its start; or no
node is before it, none in it, and the sentinel is behind it. -/
def ExactRange (value : Double → L) (minKey maxKey : ZSetKey) (list : ZSkipList) : Prop :=
  maxKey.place value < minKey.place value ∨
  (∃ node ∈ list, placeOf value node = minKey.place value) ∨
  maxKey.place value < placeOf value sentinel ∧
    ∀ node ∈ list, minKey.place value < placeOf value node ∧
      maxKey.place value < placeOf value node

theorem not_between_of_lt (hempty : maxKey.place value < minKey.place value)
    (node : ZSetKey × Bytes) : ¬Between value minKey maxKey node :=
  fun hbetween => absurd (le_trans hbetween.1 hbetween.2) (not_le_of_gt hempty)

theorem skipRangeByKey_of_lt (hscores : LinearScores F number value)
    (hmin : number minKey.score) (hmax : number maxKey.score)
    (hempty : maxKey.place value < minKey.place value) :
    skipRangeByKey F minKey maxKey list = [] := by
  rw [skipRangeByKey, if_pos ((ZSetKey.lt_iff hscores hmax hmin).2 hempty)]

/-- Without a node at the start of the range, the last node that is not above it is outside. -/
theorem exists_last_before (hstart : ∀ node ∈ list, placeOf value node ≠ minKey.place value)
    {node : ZSetKey × Bytes} (hnode : node ∈ list)
    (hbefore : placeOf value node ≤ minKey.place value) :
    ∃ start,
      (list.filter fun node => placeOf value node ≤ minKey.place value).getLast? = some start ∧
        start ∈ list ∧ placeOf value start < minKey.place value := by
  have hbelow : node ∈ list.filter fun node => placeOf value node ≤ minKey.place value :=
    List.mem_filter.2 ⟨hnode, decide_eq_true hbefore⟩
  obtain ⟨last, hlast⟩ : ∃ last, _ = some last :=
    ⟨_, List.getLast?_eq_some_getLast (List.ne_nil_of_mem hbelow)⟩
  obtain ⟨hmem, hle⟩ := List.mem_filter.1 (List.mem_of_getLast? hlast)
  exact ⟨last, hlast, hmem, lt_of_le_of_ne (of_decide_eq_true hle) (hstart last hmem)⟩

section

variable (hscores : LinearScores F number value) (h : Ordered number value list)
  (hmin : number minKey.score) (hmax : number maxKey.score)

include hscores h hmin hmax

/-- A node at the start of the range is the first of the listing, and nothing else is listed
that lies outside. -/
theorem skipRangeByKey_of_start (hle : minKey.place value ≤ maxKey.place value)
    {start : ZSetKey × Bytes} (hstart : start ∈ list)
    (hplace : placeOf value start = minKey.place value) :
    skipRangeByKey F minKey maxKey list = list.filter fun node => Between value minKey maxKey node := by
  have hbelow : start ∈ list.filter fun node => placeOf value node ≤ minKey.place value :=
    List.mem_filter.2 ⟨hstart, decide_eq_true (le_of_eq hplace)⟩
  obtain ⟨last, hlast⟩ : ∃ last, _ = some last :=
    ⟨_, List.getLast?_eq_some_getLast (List.ne_nil_of_mem hbelow)⟩
  -- The last node that is not above the start is the one there.
  have heq : last = start := by
    obtain ⟨hmem, hle'⟩ := List.mem_filter.1 (List.mem_of_getLast? hlast)
    refine h.ascending.eq_of_key_eq hmem hstart (le_antisymm ?_ ?_)
    · rw [hplace]
      exact of_decide_eq_true hle'
    · exact (h.filter _).ascending.key_le_getLast hlast hbelow
  subst heq
  rw [skipRangeByKey_of_some hscores h hmin hmax hle hlast]
  refine @Ascending.eq_of_mem_iff _ _ _ (placeOf value) _ _ ?_ (h.filter _).ascending fun node => ?_
  · refine List.pairwise_cons.2 ⟨fun node hnode => ?_, (h.filter _).ascending⟩
    have habove := (List.mem_filter.1 hnode).2
    rw [Bool.and_eq_true, Bool.not_eq_true', decide_eq_false_iff_not, not_le] at habove
    rw [hplace]
    exact habove.2
  · rw [List.mem_cons, List.mem_filter, List.mem_filter, Bool.and_eq_true, Bool.not_eq_true',
      decide_eq_false_iff_not, not_le, decide_eq_true_eq, decide_eq_true_eq, Between]
    constructor
    · rintro (rfl | ⟨hnode, hbelow, habove⟩)
      · exact ⟨hstart, ge_of_eq hplace, le_trans (le_of_eq hplace) hle⟩
      · exact ⟨hnode, le_of_lt habove, hbelow⟩
    · rintro ⟨hnode, habove, hbelow⟩
      rcases lt_or_eq_of_le habove with hlt | heq
      · exact Or.inr ⟨hnode, hbelow, hlt⟩
      · exact Or.inl (h.ascending.eq_of_key_eq hnode hstart (heq.symm.trans hplace.symm))

/-- What a listing shows is the range in exactly these states. In every other state it has one
item too many or misses the whole range. -/
theorem map_skipRangeByKey_eq_iff {β : Type} (f : ZSetKey × Bytes → β) :
    (skipRangeByKey F minKey maxKey list).map f =
        (list.filter fun node => Between value minKey maxKey node).map f ↔
      ExactRange value minKey maxKey list := by
  -- the cases are those of where the listing starts
  rcases lt_or_ge (maxKey.place value) (minKey.place value) with hempty | hle
  · refine iff_of_true (congrArg (List.map f) ?_) (Or.inl hempty)
    rw [skipRangeByKey_of_lt hscores hmin hmax hempty]
    refine (List.filter_eq_nil_iff.2 fun node _ hbetween => ?_).symm
    exact not_between_of_lt hempty node (of_decide_eq_true hbetween)
  by_cases hstart : ∃ node ∈ list, placeOf value node = minKey.place value
  · refine iff_of_true (congrArg (List.map f) ?_) (Or.inr (Or.inl hstart))
    obtain ⟨start, hmem, hplace⟩ := hstart
    exact skipRangeByKey_of_start hscores h hmin hmax hle hmem hplace
  have hne : ∀ node ∈ list, placeOf value node ≠ minKey.place value :=
    fun node hnode heq => hstart ⟨node, hnode, heq⟩
  -- a listing with one node in front of the range has another length
  have hlonger : ∀ start : ZSetKey × Bytes, ∀ rest : ZSkipList,
      (start :: rest).map f ≠ rest.map f := by
    intro start rest heq
    have hlength := congrArg List.length heq
    rw [List.map_cons, List.length_cons] at hlength
    exact absurd hlength (Nat.succ_ne_self _)
  by_cases hnone : ∀ node ∈ list, minKey.place value < placeOf value node
  · have hfilter : (list.filter fun node => decide (Between value minKey maxKey node)) =
        list.filter fun node => decide (placeOf value node ≤ maxKey.place value) := by
      refine List.filter_congr fun node hnode => ?_
      rw [decide_eq_decide, Between, and_iff_right (le_of_lt (hnone node hnode))]
    rw [skipRangeByKey_of_none hscores h hmin hmax hle hnone, hfilter]
    by_cases hreach : placeOf value sentinel ≤ maxKey.place value
    · rw [if_pos hreach]
      refine iff_of_false (hlonger _ _) ?_
      rintro (hlt | hmem | ⟨hlt, -⟩)
      · exact absurd hlt (not_lt_of_ge hle)
      · exact hstart hmem
      · exact absurd hlt (not_lt_of_ge hreach)
    · rw [if_neg hreach, List.map_nil, eq_comm, List.map_eq_nil_iff, List.filter_eq_nil_iff]
      constructor
      · intro hall
        refine Or.inr (Or.inr ⟨lt_of_not_ge hreach, fun node hnode => ⟨hnone node hnode, ?_⟩⟩)
        exact lt_of_not_ge fun hbelow => hall node hnode (decide_eq_true hbelow)
      · rintro (hlt | hmem | ⟨-, hall⟩) node hnode hbelow
        · exact absurd hlt (not_lt_of_ge hle)
        · exact hstart hmem
        · exact absurd (of_decide_eq_true hbelow) (not_le_of_gt (hall node hnode).2)
  · rw [not_forall] at hnone
    obtain ⟨node, hnone⟩ := hnone
    rw [Classical.not_imp, not_lt] at hnone
    obtain ⟨start, hlast, -, -⟩ := exists_last_before hne hnone.1 hnone.2
    have hfilter : (list.filter fun node => decide (Between value minKey maxKey node)) =
        list.filter fun node => decide (placeOf value node ≤ maxKey.place value) &&
          !decide (placeOf value node ≤ minKey.place value) := by
      refine List.filter_congr fun n hn => ?_
      have hlt : minKey.place value ≤ placeOf value n ↔ ¬placeOf value n ≤ minKey.place value :=
        ⟨fun hge hle' => hne n hn (le_antisymm hle' hge), fun hnot => le_of_lt (lt_of_not_ge hnot)⟩
      rw [← decide_not, ← Bool.decide_and, decide_eq_decide, Between, hlt, and_comm]
    rw [skipRangeByKey_of_some hscores h hmin hmax hle hlast, hfilter]
    refine iff_of_false (hlonger _ _) ?_
    rintro (hlt' | hmem | ⟨-, hall⟩)
    · exact absurd hlt' (not_lt_of_ge hle)
    · exact hstart hmem
    · exact absurd (hall node hnone.1).1 (not_lt_of_ge hnone.2)

end

/-- The members that a removal by score erases are those of the removed nodes in exactly these
states. -/
theorem erased_iff_between_iff (hscores : LinearScores F number value)
    (h : z.WellFormed number value) (hmin : number minKey.score) (hmax : number maxKey.score) :
    (∀ node ∈ z.skiplist, Between value minKey maxKey node ↔
      node.2 ∈ (skipRangeByKey F minKey maxKey z.skiplist).map Prod.snd) ↔
        CleanRange value minKey maxKey z.skiplist := by
  -- members are unique in the list, so a node is listed when its member is
  have hlisted : ∀ {nodes : ZSkipList}, (∀ n ∈ nodes, n ∈ z.skiplist) → ∀ node ∈ z.skiplist,
      (node.2 ∈ nodes.map Prod.snd ↔ node ∈ nodes) := by
    intro nodes hnodes node hnode
    refine List.mem_map.trans ⟨?_, fun hmem => ⟨node, hmem, rfl⟩⟩
    rintro ⟨n, hn, heq⟩
    rwa [← h.eq_of_member_eq (hnodes n hn) hnode heq]
  -- the listing has a form of its own in each of four cases: bounds the wrong way round, a node
  -- at the start, only nodes behind the start, and a node in front of it
  rcases lt_or_ge (maxKey.place value) (minKey.place value) with hempty | hle
  · refine iff_of_true (fun node _ => ?_) (Or.inl hempty)
    rw [skipRangeByKey_of_lt hscores hmin hmax hempty]
    exact iff_of_false (not_between_of_lt hempty node) List.not_mem_nil
  by_cases hstart : ∃ node ∈ z.skiplist, placeOf value node = minKey.place value
  · refine iff_of_true (fun node hnode => ?_) (Or.inr (Or.inl hstart))
    obtain ⟨start, hmem, hplace⟩ := hstart
    rw [skipRangeByKey_of_start hscores h.ordered hmin hmax hle hmem hplace,
      hlisted (fun n hn => List.mem_of_mem_filter hn) node hnode, List.mem_filter,
      decide_eq_true_eq, and_iff_right hnode]
  have hne : ∀ node ∈ z.skiplist, placeOf value node ≠ minKey.place value :=
    fun node hnode heq => hstart ⟨node, hnode, heq⟩
  by_cases hnone : ∀ node ∈ z.skiplist, minKey.place value < placeOf value node
  · have hbetween : ∀ node ∈ z.skiplist,
        (Between value minKey maxKey node ↔ placeOf value node ≤ maxKey.place value) :=
      fun node hnode => and_iff_right (le_of_lt (hnone node hnode))
    have hfiltered := @hlisted (z.skiplist.filter fun node =>
      placeOf value node ≤ maxKey.place value) fun n hn => List.mem_of_mem_filter hn
    rw [skipRangeByKey_of_none hscores h.ordered hmin hmax hle hnone]
    -- here the listing starts at the head node, which is listed when its key is not above the end
    by_cases hreach : placeOf value sentinel ≤ maxKey.place value
    · rw [if_pos hreach]
      constructor
      · intro hall
        refine Or.inr (Or.inr ⟨hnone, Or.inl ⟨hreach, fun node hnode hmember => ?_⟩⟩)
        rw [← hbetween node hnode, hall node hnode, hmember]
        exact List.mem_cons_self
      · rintro (hlt | hmem | ⟨-, ⟨-, hmember⟩ | ⟨hlt, -⟩⟩) node hnode
        · exact absurd hlt (not_lt_of_ge hle)
        · exact absurd hmem hstart
        · rw [hbetween node hnode, List.map_cons, List.mem_cons, hfiltered node hnode,
            List.mem_filter, decide_eq_true_eq, and_iff_right hnode]
          exact ⟨Or.inr, fun hor => hor.elim (hmember node hnode) id⟩
        · exact absurd hlt (not_lt_of_ge hreach)
    · rw [if_neg hreach]
      constructor
      · intro hall
        refine Or.inr (Or.inr ⟨hnone, Or.inr ⟨lt_of_not_ge hreach, fun node hnode => ?_⟩⟩)
        refine lt_of_not_ge fun hbelow => ?_
        exact List.not_mem_nil ((hall node hnode).1 ((hbetween node hnode).2 hbelow))
      · rintro (hlt | hmem | ⟨-, ⟨hle', -⟩ | ⟨-, hall⟩⟩) node hnode
        · exact absurd hlt (not_lt_of_ge hle)
        · exact absurd hmem hstart
        · exact absurd hle' hreach
        · rw [hbetween node hnode]
          exact iff_of_false (not_le_of_gt (hall node hnode)) List.not_mem_nil
  · rw [not_forall] at hnone
    obtain ⟨node, hnone⟩ := hnone
    rw [Classical.not_imp, not_lt] at hnone
    obtain ⟨start, hlast, hmem, hlt⟩ := exists_last_before hne hnone.1 hnone.2
    -- the listing starts at a node in front of the range, whose member is erased, too
    have hstarted : start ∈ skipRangeByKey F minKey maxKey z.skiplist := by
      rw [skipRangeByKey_of_some hscores h.ordered hmin hmax hle hlast]
      exact List.mem_cons_self
    refine iff_of_false (fun hall => ?_) ?_
    · have hin := (hall start hmem).2 (List.mem_map.2 ⟨start, hstarted, rfl⟩)
      exact absurd hin.1 (not_le_of_gt hlt)
    · rintro (hlt' | hin | ⟨hall, -⟩)
      · exact absurd hlt' (not_lt_of_ge hle)
      · exact hstart hin
      · exact absurd (hall node hnone.1) (not_lt_of_ge hnone.2)

end Ranges

section Operations

/-- The operations that write a sorted set or hand it on. -/
inductive ZSetOp where
  | zadd (member sc : Bytes)
  | zrem (member : Bytes)
  | zincrby (member incr : Bytes)
  | zremRangeByScore (minSc maxSc : Bytes)
  | zremRangeByRank (start stop : Nat)
  | zclear
  | copy
  | moveTo
  | movedFrom
  | reload (towers : Towers)

variable (F : FloatOps)

/-- The set after an operation. A score that does not parse throws before anything is written. -/
def ZSetOp.apply (z : ZSet) : ZSetOp → ZSet
  | .zadd member sc => ((z.zadd F member sc).toOption).getD z
  | .zrem member => (z.zrem F member).2
  | .zincrby member incr => ((z.zincrby F member incr).toOption.map Prod.snd).getD z
  | .zremRangeByScore minSc maxSc => ((z.zremRangeByScore F minSc maxSc).toOption.map Prod.snd).getD z
  | .zremRangeByRank start stop => (z.zremRangeByRank F start stop).2
  | .zclear => z.zclear
  | .copy => z.copy
  | .moveTo => z.move.1
  | .movedFrom => z.move.2
  | .reload towers => ((ZSet.deserialize (z.serialize towers)).map Prod.fst).getD z

variable {L : Type} [LinearOrder L] (number : Double → Prop) (value : Double → L)

/-- The scores that the operation brings in are numbers. -/
def ZSetOp.Numeric (z : ZSet) : ZSetOp → Prop
  | .zadd _ sc => ∀ score, F.stod sc = .ok score → number score
  | .zincrby member incr => ∀ increment old, F.stod incr = .ok increment →
      z.memberScoreMap[member]? = some old → number (F.add old increment)
  | .zremRangeByScore minSc maxSc => ∀ minScore maxScore, F.stod minSc = .ok minScore →
      F.stod maxSc = .ok maxScore → number minScore ∧ number maxScore
  | .zrem _ | .zremRangeByRank _ _ | .zclear | .copy | .moveTo | .movedFrom | .reload _ => True

/-- The operation stays away from the cases in which the two structures part: the erased members
of a removal by score are those of the range; the ranks of a removal by rank exist, or it removes
nothing; and what is written to the disk fits its length prefixes. -/
def ZSetOp.Clean (z : ZSet) : ZSetOp → Prop
  | .zremRangeByScore minSc maxSc => ∀ minScore maxScore, F.stod minSc = .ok minScore →
      F.stod maxSc = .ok maxScore → CleanRange value ⟨minScore, []⟩ ⟨maxScore, [0xff]⟩ z.skiplist
  | .zremRangeByRank start stop =>
      stop < start ∨ z.skiplist.length ≤ start ∨ stop < z.skiplist.length
  | .reload _ => z.Sized
  | .zadd _ _ | .zrem _ | .zincrby _ _ | .zclear | .copy | .moveTo | .movedFrom => True

variable {F number value} {z : ZSet} {minKey maxKey : ZSetKey}

theorem wellFormed_zadd (hscores : LinearScores F number value) (h : z.WellFormed number value)
    {member sc : Bytes} {score : Double} (hsc : F.stod sc = .ok score) (hnumber : number score) :
    ∃ z', z.zadd F member sc = .ok z' ∧ z'.WellFormed number value := by
  have hput := @h.put _ _ _ _ _ _ member _ hscores hnumber
  simp only [ZSet.zadd, hsc, bind, Except.bind]
  cases hold : z.memberScoreMap[member]? with
  | none =>
      rw [ZSet.WellFormed.filter_member_of_none h.coherent hold] at hput
      exact ⟨_, rfl, hput⟩
  | some old =>
      rw [← h.skipRemove_member hscores hold] at hput
      by_cases heq : F.eq old score = true
      · exact ⟨z, if_pos heq, h⟩
      · exact ⟨_, if_neg heq, hput⟩

theorem wellFormed_zincrby (hscores : LinearScores F number value) (h : z.WellFormed number value)
    {member incr : Bytes} {increment : Double} (hincr : F.stod incr = .ok increment)
    (hnumber : ∀ old, z.memberScoreMap[member]? = some old → number (F.add old increment)) :
    ∃ reply z', z.zincrby F member incr = .ok (reply, z') ∧ z'.WellFormed number value := by
  simp only [ZSet.zincrby, hincr, bind, Except.bind]
  cases hold : z.memberScoreMap[member]? with
  | none => exact ⟨none, z, rfl, h⟩
  | some old =>
      have hput := @h.put _ _ _ _ _ _ member _ hscores (hnumber old hold)
      rw [← h.skipRemove_member hscores hold] at hput
      exact ⟨_, _, rfl, hput⟩

theorem wellFormed_zrem (hscores : LinearScores F number value) (h : z.WellFormed number value)
    (member : Bytes) : (z.zrem F member).2.WellFormed number value := by
  rw [ZSet.zrem]
  cases hold : z.memberScoreMap[member]? with
  | none => exact h
  | some score =>
      simp only [h.skipRemove_member hscores hold]
      refine ⟨h.ordered.filter _, (coherent_filter_iff h _ [(⟨score, member⟩, member)]).2 ?_⟩
      intro node _
      rw [decide_eq_false_iff_not, not_not, List.map_singleton, List.mem_singleton]

/-- A removal by key after the members of `erased` have gone from the map. -/
theorem coherent_removeRange_iff (hscores : LinearScores F number value)
    (h : z.WellFormed number value) (hmin : number minKey.score) (hmax : number maxKey.score)
    (erased : ZSkipList) :
    (⟨(skipRemoveRangeByKey F minKey maxKey z.skiplist).2,
        ZSet.eraseMembers erased z.memberScoreMap⟩ : ZSet).Coherent ↔
      ∀ node ∈ z.skiplist, Between value minKey maxKey node ↔ node.2 ∈ erased.map Prod.snd := by
  rw [skipRemoveRangeByKey_eq hscores h.ordered hmin hmax, coherent_filter_iff h]
  simp only [Bool.not_eq_false', decide_eq_true_eq]

theorem ordered_removeRange (hscores : LinearScores F number value)
    (h : z.WellFormed number value) (hmin : number minKey.score) (hmax : number maxKey.score) :
    Ordered number value (skipRemoveRangeByKey F minKey maxKey z.skiplist).2 := by
  rw [skipRemoveRangeByKey_eq hscores h.ordered hmin hmax]
  exact h.ordered.filter _

/-- A removal by score keeps the structures together in exactly the states of `CleanRange`. -/
theorem coherent_zremRangeByScore_iff (hscores : LinearScores F number value)
    (h : z.WellFormed number value) {minSc maxSc : Bytes} {minScore maxScore : Double}
    (hminSc : F.stod minSc = .ok minScore) (hmaxSc : F.stod maxSc = .ok maxScore)
    (hmin : number minScore) (hmax : number maxScore) :
    ∃ removed z', z.zremRangeByScore F minSc maxSc = .ok (removed, z') ∧
      Ordered number value z'.skiplist ∧
        (z'.Coherent ↔ CleanRange value ⟨minScore, []⟩ ⟨maxScore, [0xff]⟩ z.skiplist) := by
  let startKey : ZSetKey := ⟨minScore, []⟩
  let endKey : ZSetKey := ⟨maxScore, [0xff]⟩
  have hstart : number startKey.score := hmin
  have hend : number endKey.score := hmax
  refine ⟨(skipRemoveRangeByKey F startKey endKey z.skiplist).1,
    ⟨(skipRemoveRangeByKey F startKey endKey z.skiplist).2,
      ZSet.eraseMembers (skipRangeByKey F startKey endKey z.skiplist) z.memberScoreMap⟩,
    ?_, ordered_removeRange hscores h hstart hend, ?_⟩
  · simp only [ZSet.zremRangeByScore, hminSc, hmaxSc, bind, Except.bind]
    rfl
  · rw [coherent_removeRange_iff hscores h hstart hend,
      erased_iff_between_iff hscores h hstart hend]

theorem wellFormed_zremRangeByRank (hscores : LinearScores F number value)
    (h : z.WellFormed number value) {start stop : Nat}
    (hranks : stop < start ∨ z.skiplist.length ≤ start ∨ stop < z.skiplist.length) :
    (z.zremRangeByRank F start stop).2.WellFormed number value := by
  rw [ZSet.zremRangeByRank]
  by_cases hnothing : stop < start ∨ skipRangeByRank start stop z.skiplist = []
  · rw [if_pos hnothing]
    exact h
  · rw [if_neg hnothing]
    rw [not_or] at hnothing
    obtain ⟨hle, hsome⟩ := hnothing
    have hslice : skipRangeByRank start stop z.skiplist = (z.skiplist.take (stop + 1)).drop start :=
      if_neg hle
    have hstart : start < z.skiplist.length := by
      by_contra hnot
      rw [hslice, List.drop_eq_nil_iff, List.length_take] at hsome
      omega
    have hstop : stop < z.skiplist.length := by omega
    have ha := List.getElem?_eq_getElem hstart
    have hb := List.getElem?_eq_getElem hstop
    have hmin := h.ordered.numbers _ (List.getElem_mem hstart)
    have hmax := h.ordered.numbers _ (List.getElem_mem hstop)
    have hremoved : skipRemoveRangeByRank F start stop z.skiplist =
        skipRemoveRangeByKey F z.skiplist[start].1 z.skiplist[stop].1 z.skiplist := by
      rw [skipRemoveRangeByRank, if_neg hle]
      simp only [ha, hb, Option.map_some, Option.getD_some]
    rw [hremoved]
    refine ⟨ordered_removeRange hscores h hmin hmax,
      (coherent_removeRange_iff hscores h hmin hmax _).2 fun node hnode => ?_⟩
    have hmem := h.ordered.ascending.mem_slice_iff ha hb
    rw [hslice, List.mem_map]
    constructor
    · exact fun hbetween => ⟨node, (hmem node).2 ⟨hnode, hbetween⟩, rfl⟩
    · rintro ⟨n, hn, heq⟩
      obtain ⟨hlisted, hbetween⟩ := (hmem n).1 hn
      rwa [← h.eq_of_member_eq hlisted hnode heq]

/-- Every operation within its limits keeps the invariant. -/
theorem wellFormed_apply (hscores : LinearScores F number value) (h : z.WellFormed number value)
    (op : ZSetOp) (hnumeric : op.Numeric F number z) (hclean : op.Clean F value z) :
    (op.apply F z).WellFormed number value := by
  cases op with
  | zadd member sc =>
      cases hsc : F.stod sc with
      | error e =>
          rw [ZSetOp.apply, ZSet.zadd, hsc]
          exact h
      | ok score =>
          obtain ⟨z', hz', hwf⟩ :=
            wellFormed_zadd hscores h hsc (hnumeric score hsc)
          rw [ZSetOp.apply, hz']
          exact hwf
  | zrem member => exact wellFormed_zrem hscores h member
  | zincrby member incr =>
      cases hincr : F.stod incr with
      | error e =>
          rw [ZSetOp.apply, ZSet.zincrby, hincr]
          exact h
      | ok increment =>
          obtain ⟨reply, z', hz', hwf⟩ :=
            wellFormed_zincrby hscores h hincr fun old hold => hnumeric increment old hincr hold
          rw [ZSetOp.apply, hz']
          exact hwf
  | zremRangeByScore minSc maxSc =>
      cases hminSc : F.stod minSc with
      | error e =>
          rw [ZSetOp.apply, ZSet.zremRangeByScore, hminSc]
          exact h
      | ok minScore =>
          cases hmaxSc : F.stod maxSc with
          | error e =>
              rw [ZSetOp.apply, ZSet.zremRangeByScore, hminSc]
              simp only [bind, Except.bind, hmaxSc]
              exact h
          | ok maxScore =>
              obtain ⟨hmin, hmax⟩ := hnumeric minScore maxScore hminSc hmaxSc
              obtain ⟨removed, z', hz', hordered, hcoherent⟩ :=
                coherent_zremRangeByScore_iff hscores h hminSc hmaxSc hmin hmax
              rw [ZSetOp.apply, hz']
              exact ⟨hordered, hcoherent.2 (hclean minScore maxScore hminSc hmaxSc)⟩
  | zremRangeByRank start stop => exact wellFormed_zremRangeByRank hscores h hclean
  | zclear => exact ZSet.wellFormed_empty
  | copy => exact h
  | moveTo => exact h
  | movedFrom => exact ZSet.wellFormed_empty
  | reload towers =>
      have hread := ZSet.deserialize_serialize towers hclean []
      rw [List.append_nil] at hread
      rw [ZSetOp.apply, hread]
      exact h

end Operations

section Queries

variable {L : Type} [LinearOrder L] (F : FloatOps) (number : Double → Prop) (value : Double → L)

/-- Every query reports the pairs of one and the same listing: the cardinality is its length, a
score that of the member's node, a rank the position of that node, `for_each` goes through it, a
range of ranks is the slice of it, and a range of scores the part of it between the bounds, in the
states where the listing of a range is the range. -/
structure ZSet.Describes (z : ZSet) : Prop where
  zcard : z.zcard = z.skiplist.length
  zscore : ∀ member text, z.zscore F member = some text ↔
    ∃ node ∈ z.skiplist, node.2 = member ∧ F.toString node.1.score = text
  zrank : ∀ member rank, z.zrank F member = some rank ↔
    ∃ node, z.skiplist[rank]? = some node ∧ node.2 = member
  forEach : z.forEach.Perm z.memberScoreMap.toList
  zrangeByRank : ∀ start stop item, item ∈ z.zrangeByRank F start stop ↔
    z.zscore F item.1 = some item.2 ∧
      ∃ rank, start ≤ rank ∧ rank ≤ stop ∧ z.zrank F item.1 = some rank
  zrangeByScore : ∀ minSc maxSc minScore maxScore, F.stod minSc = .ok minScore →
    F.stod maxSc = .ok maxScore → number minScore → number maxScore →
      (z.zrangeByScore F minSc maxSc = .ok
          ((z.skiplist.filter fun node =>
            Between value ⟨minScore, []⟩ ⟨maxScore, [0xff]⟩ node).map fun node =>
              (node.2, F.toString node.1.score)) ↔
        ExactRange value ⟨minScore, []⟩ ⟨maxScore, [0xff]⟩ z.skiplist)

variable {F number value} {z : ZSet}

/-- The rank of the key of a node is its position. -/
theorem skipRank_of_getElem? {list : ZSkipList} (hscores : LinearScores F number value)
    (h : Ordered number value list) {rank : Nat} {node : ZSetKey × Bytes}
    (hnode : list[rank]? = some node) : skipRank F node.1 list = some rank := by
  have hnumber := h.numbers node (List.mem_of_getElem? hnode)
  have hbefore : ∀ n ∈ list, (compareZsetKeys F n.1 node.1 == .lt) =
      decide (placeOf value n < placeOf value node) :=
    fun n hn => compareZsetKeys_lt_iff hscores (h.numbers n hn) hnumber
  rw [skipRank, takeWhile_congr hbefore, h.ascending.length_takeWhile_lt hnode]
  simp only [hnode, compareZsetKeys_of_eq hscores hnumber hnumber rfl, beq_self_eq_true, ↓reduceIte]

namespace ZSet.WellFormed

theorem zscore_iff (h : z.WellFormed number value) (member text : Bytes) :
    z.zscore F member = some text ↔
      ∃ node ∈ z.skiplist, node.2 = member ∧ F.toString node.1.score = text := by
  rw [ZSet.zscore, Option.map_eq_some_iff]
  constructor
  · rintro ⟨score, hscore, rfl⟩
    exact ⟨(⟨score, member⟩, member), (h.coherent.holds _).2 ⟨rfl, hscore⟩, rfl, rfl⟩
  · rintro ⟨node, hnode, rfl, rfl⟩
    exact ⟨node.1.score, ((h.coherent.holds node).1 hnode).2, rfl⟩

theorem zrank_iff (hscores : LinearScores F number value) (h : z.WellFormed number value)
    (member : Bytes) (rank : Nat) : z.zrank F member = some rank ↔
      ∃ node, z.skiplist[rank]? = some node ∧ node.2 = member := by
  constructor
  · intro hrank
    rw [ZSet.zrank] at hrank
    cases hscore : z.memberScoreMap[member]? with
    | none =>
        rw [hscore] at hrank
        cases hrank
    | some score =>
        have hmem := (h.coherent.holds (⟨score, member⟩, member)).2 ⟨rfl, hscore⟩
        obtain ⟨i, hi⟩ := List.mem_iff_getElem?.1 hmem
        have hskip := skipRank_of_getElem? hscores h.ordered hi
        simp only [hscore, hskip, Option.some.injEq] at hrank
        subst hrank
        exact ⟨_, hi, rfl⟩
  · rintro ⟨node, hnode, rfl⟩
    obtain ⟨hmember, hscore⟩ := (h.coherent.holds node).1 (List.mem_of_getElem? hnode)
    have hskip := skipRank_of_getElem? hscores h.ordered hnode
    rw [ZSet.zrank, hscore, ← hmember]
    exact hskip

theorem forEach_perm (h : z.WellFormed number value) :
    z.forEach.Perm z.memberScoreMap.toList := by
  refine (List.perm_ext_iff_of_nodup ?_ ?_).2 ?_
  · refine h.coherent.once.map_on fun a ha b hb heq => ?_
    exact h.eq_of_member_eq ha hb (Prod.mk.inj heq).1
  · exact OrderedMap.nodup_of_ordered z.memberScoreMap.ordered_keys_toList
  · rintro ⟨member, score⟩
    rw [Std.ExtTreeMap.mem_toList_iff_getElem?_eq_some, ZSet.forEach, List.mem_map]
    constructor
    · rintro ⟨node, hnode, heq⟩
      obtain ⟨rfl, rfl⟩ := Prod.mk.inj heq
      exact ((h.coherent.holds node).1 hnode).2
    · intro hscore
      exact ⟨(⟨score, member⟩, member), (h.coherent.holds _).2 ⟨rfl, hscore⟩, rfl⟩

theorem zrangeByRank_iff (hscores : LinearScores F number value) (h : z.WellFormed number value)
    (start stop : Nat) (item : Bytes × Bytes) : item ∈ z.zrangeByRank F start stop ↔
      z.zscore F item.1 = some item.2 ∧
        ∃ rank, start ≤ rank ∧ rank ≤ stop ∧ z.zrank F item.1 = some rank := by
  rw [ZSet.zrangeByRank, List.mem_map]
  constructor
  · rintro ⟨node, hnode, rfl⟩
    have hslice : node ∈ (z.skiplist.take (stop + 1)).drop start := by
      rw [skipRangeByRank] at hnode
      split at hnode
      · cases hnode
      · exact hnode
    obtain ⟨rank, hstart, hstop, hrank⟩ := (mem_drop_take_iff node).1 hslice
    refine ⟨(h.zscore_iff _ _).2 ⟨node, List.mem_of_getElem? hrank, rfl, rfl⟩, rank, hstart, hstop, ?_⟩
    exact (h.zrank_iff hscores _ _).2 ⟨node, hrank, rfl⟩
  · rintro ⟨hscore, rank, hstart, hstop, hrank⟩
    obtain ⟨node, hnode, hmember⟩ := (h.zrank_iff hscores _ _).1 hrank
    obtain ⟨node', hnode', hmember', htext⟩ := (h.zscore_iff _ _).1 hscore
    have heq := h.eq_of_member_eq hnode' (List.mem_of_getElem? hnode) (hmember'.trans hmember.symm)
    subst heq
    refine ⟨node', ?_, Prod.ext hmember htext⟩
    rw [skipRangeByRank, if_neg (Nat.not_lt_of_le (Nat.le_trans hstart hstop))]
    exact (mem_drop_take_iff node').2 ⟨rank, hstart, hstop, hnode⟩

theorem describes (hscores : LinearScores F number value) (h : z.WellFormed number value) :
    z.Describes F number value := by
  refine ⟨?_, h.zscore_iff, h.zrank_iff hscores, h.forEach_perm, h.zrangeByRank_iff hscores, ?_⟩
  · have hlength := h.forEach_perm.length_eq
    rw [ZSet.forEach, List.length_map, Std.ExtTreeMap.length_toList] at hlength
    exact hlength.symm
  · intro minSc maxSc minScore maxScore hminSc hmaxSc hmin hmax
    let startKey : ZSetKey := ⟨minScore, []⟩
    let endKey : ZSetKey := ⟨maxScore, [0xff]⟩
    have hstart : number startKey.score := hmin
    have hend : number endKey.score := hmax
    rw [← map_skipRangeByKey_eq_iff hscores h.ordered hstart hend fun node =>
      (node.2, F.toString node.1.score)]
    simp only [ZSet.zrangeByScore, hminSc, hmaxSc, bind, Except.bind, pure, Except.pure,
      Except.ok.injEq]
    exact Iff.rfl

end ZSet.WellFormed

end Queries

section Runs

variable {L : Type} [LinearOrder L] (F : FloatOps) (number : Double → Prop) (value : Double → L)

/-- The states of the runs whose operations bring in numbers and stay within their limits. -/
inductive ZSet.Reachable : ZSet → Prop where
  | empty : ZSet.Reachable ZSet.empty
  | step {z : ZSet} (op : ZSetOp) : ZSet.Reachable z → op.Numeric F number z →
      op.Clean F value z → ZSet.Reachable (op.apply F z)

variable {F number value} {z : ZSet}

theorem ZSet.Reachable.wellFormed (hscores : LinearScores F number value)
    (h : z.Reachable F number value) : z.WellFormed number value := by
  induction h with
  | empty => exact ZSet.wellFormed_empty
  | step op _ hnumeric hclean ih => exact wellFormed_apply hscores ih op hnumeric hclean

/-- In every state of such a run the skip list holds the pairs of the map, each once, and the
queries describe them. -/
theorem coherent_run (hscores : LinearScores F number value) (h : z.Reachable F number value) :
    z.Coherent ∧ z.Describes F number value :=
  ⟨(h.wellFormed hscores).coherent, (h.wellFormed hscores).describes hscores⟩

/-- The pattern of a natural number below 2 ^ 53. -/
def naturalDouble (n : Nat) : Double :=
  if n = 0 then 0
  else UInt64.ofNat ((1023 + n.log2) * 2 ^ 52 + (n - 2 ^ n.log2) * 2 ^ (52 - n.log2))

/-- The natural number in a pattern, for whole numbers below 2 ^ 53. -/
def Double.natural (d : Double) : Nat :=
  if d = 0 then 0
  else (2 ^ 52 + d.toNat % 2 ^ 52) / 2 ^ (52 - (d.toNat / 2 ^ 52 - 1023))

/-- Floating-point operations on natural numbers, as far as decimal digits and small sums go. -/
def naturalFloats : FloatOps where
  stod text :=
    let digits := text.takeWhile fun c => 48 ≤ c && c ≤ 57
    if digits = [] then .error (.invalidArgument "stod")
    else .ok (naturalDouble (digits.foldl (fun n c => 10 * n + (c.toNat - 48)) 0))
  toString d := ascii (toString d.natural ++ ".000000")
  add a b := naturalDouble (a.natural + b.natural)
  eq a b := a == b
  lt a b := a < b
  unsetScore := 0

theorem linearScores_naturalFloats :
    LinearScores naturalFloats (fun d => d.toNat ≤ 0x7ff0000000000000) UInt64.toNat where
  lt_iff a b _ _ := decide_eq_true_iff.trans UInt64.lt_iff_toNat_lt
  eq_iff a b _ _ := beq_iff_eq.trans UInt64.toNat_inj.symm
  zero := by decide

/-- Two members, of which the first is removed by its rank and the other one by its score. -/
def removedRun : List ZSetOp :=
  [.zadd (ascii "a") (ascii "1"), .zadd (ascii "b") (ascii "5"), .zremRangeByRank 0 0,
    .zremRangeByScore (ascii "0") (ascii "10")]

/-- Two members, and a removal by score of the second. -/
def scoredRun : List ZSetOp :=
  [.zadd (ascii "a") (ascii "1"), .zadd (ascii "b") (ascii "5"),
    .zremRangeByScore (ascii "3") (ascii "10")]

/-- The set after a run. -/
def ZSet.after (F : FloatOps) (ops : List ZSetOp) : ZSet :=
  ops.foldl (fun z op => op.apply F z) ZSet.empty

theorem coherent_run_removed : (ZSet.after naturalFloats removedRun).Coherent ∧
    (ZSet.after naturalFloats removedRun).Describes naturalFloats
      (fun d => d.toNat ≤ 0x7ff0000000000000) UInt64.toNat := by
  refine coherent_run linearScores_naturalFloats
    (.step (.zremRangeByScore (ascii "0") (ascii "10")) (.step (.zremRangeByRank 0 0)
      (.step (.zadd (ascii "b") (ascii "5")) (.step (.zadd (ascii "a") (ascii "1")) .empty
        ?_ trivial) ?_ trivial) trivial ?_) ?_ ?_)
  · intro score hscore
    obtain rfl := Except.ok.inj hscore
    decide
  · intro score hscore
    obtain rfl := Except.ok.inj hscore
    decide
  · exact Or.inr (Or.inr (by decide))
  · intro minScore maxScore hmin hmax
    obtain rfl := Except.ok.inj hmin
    obtain rfl := Except.ok.inj hmax
    decide
  · intro minScore maxScore hmin hmax
    obtain rfl := Except.ok.inj hmin
    obtain rfl := Except.ok.inj hmax
    refine Or.inr (Or.inr ⟨by decide, Or.inl ⟨by decide, by decide⟩⟩)

/-- The removal erases the member before the range from the map only. -/
theorem zremRangeByScore_parts : ¬(ZSet.after naturalFloats scoredRun).Coherent ∧
    (ZSet.after naturalFloats scoredRun).zcard = 0 ∧
      (ZSet.after naturalFloats scoredRun).forEach = [(ascii "a", naturalDouble 1)] := by
  have hmap : (ZSet.after naturalFloats scoredRun).memberScoreMap[ascii "a"]? = none := by decide
  have hlist : (⟨naturalDouble 1, ascii "a"⟩, ascii "a") ∈
      (ZSet.after naturalFloats scoredRun).skiplist := by decide
  refine ⟨fun hcoherent => ?_, by decide, by decide⟩
  have hscore := ((hcoherent.holds _).1 hlist).2
  rw [hmap] at hscore
  cases hscore

end Runs

end EyaKV.Store
