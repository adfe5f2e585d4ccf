import EyaKV.Base.SortedList
import EyaKV.Common.SkipListRuns

/-!
# Ranges of a skip list

What `range_by_key` lists is not what `remove_range_by_key` deletes. The search of the listing goes
on over keys equal to the minimum, and the listing begins with the node that it ends at: the last
one up to the minimum, or the head when there is none. So the two agree on a range exactly when the
minimum is a key of the list, or the range is empty and the key of the head lies above it
(`rangeExact_iff`).

`remove_range_by_rank` looks for the keys at the two ranks and removes the range between them. A
rank behind the last node has no key, and its variable keeps what it held without initializer; the
two variables need not hold the same (`rankExact_iff`).
-/

set_option autoImplicit false

namespace EyaKV.Common.SkipList

open EyaKV.Base EyaKV.Base.LinkedLevels

variable {κ ν : Type} {l : SkipList κ ν} {nodes : List (SkipListNode κ ν)}

section Keys

/-- Key and value of a node. -/
def pair (n : SkipListNode κ ν) : κ × ν := (n.key, n.value)

/-- A key is that of a node, between the smaller and the greater ones, or lies between nodes. -/
theorem Valid.split {f : SkipListFuncs κ ν} {currentLevel : Nat} (h : Valid f currentLevel nodes)
    (key : κ) :
    (∃ ns n ms, nodes = ns ++ n :: ms ∧ n.key = key ∧ (∀ m ∈ ns, f.compare m.key key = .lt) ∧
      ∀ m ∈ ms, f.compare key m.key = .lt) ∨
    (∃ ns ms, nodes = ns ++ ms ∧ (∀ m ∈ ns, f.compare m.key key = .lt) ∧
      ∀ m ∈ ms, f.compare key m.key = .lt) := by
  have hsorted := h.sorted
  clear h
  induction nodes with
  | nil => exact Or.inr ⟨[], [], rfl, fun _ hm => absurd hm List.not_mem_nil,
      fun _ hm => absurd hm List.not_mem_nil⟩
  | cons n ns ih =>
      obtain ⟨hn, hns⟩ := List.pairwise_cons.1 hsorted
      cases hcmp : f.compare n.key key with
      | lt =>
          -- The node belongs to the smaller ones, whatever the rest is.
          have hfront : ∀ (ls : List (SkipListNode κ ν)), (∀ m ∈ ls, f.compare m.key key = .lt) →
              ∀ m ∈ n :: ls, f.compare m.key key = .lt := fun ls hls m hm =>
            (List.mem_cons.1 hm).elim (fun heq => heq ▸ hcmp) (hls m)
          rcases ih hns with ⟨ls, m, ms, rfl, hkey, hls, hms⟩ | ⟨ls, ms, rfl, hls, hms⟩
          · exact Or.inl ⟨n :: ls, m, ms, rfl, hkey, hfront ls hls, hms⟩
          · exact Or.inr ⟨n :: ls, ms, rfl, hfront ls hls, hms⟩
      | eq =>
          obtain rfl := f.compare_eq_iff.1 hcmp
          exact Or.inl ⟨[], n, ns, rfl, rfl, fun _ hm => absurd hm List.not_mem_nil, hn⟩
      | gt =>
          have hlt : f.compare key n.key = .lt := Std.OrientedCmp.lt_of_gt hcmp
          refine Or.inr ⟨[], n :: ns, rfl, fun _ hm => absurd hm List.not_mem_nil, fun m hm => ?_⟩
          rcases List.mem_cons.1 hm with rfl | hm
          · exact hlt
          · exact Std.TransCmp.lt_trans hlt (hn m hm)

theorem not_isLE_of_lt {f : SkipListFuncs κ ν} {a b : κ} (h : f.compare a b = .lt) :
    (f.compare b a).isLE = false := by
  have hgt : f.compare b a = .gt := Std.OrientedCmp.gt_of_lt h
  rw [hgt]
  rfl

theorem isLE_eq_false_iff {f : SkipListFuncs κ ν} {a b : κ} :
    (f.compare a b).isLE = false ↔ f.compare b a = .lt := by
  constructor
  · intro h
    cases hcmp : f.compare a b with
    | lt => rw [hcmp] at h; cases h
    | eq => rw [hcmp] at h; cases h
    | gt => exact Std.OrientedCmp.lt_of_gt hcmp
  · exact not_isLE_of_lt

end Keys

section ByKey

variable {minKey maxKey : κ}

/-- Where the listing of a range begins: the last node up to the minimum, or the head. -/
def startNode (l : SkipList κ ν) (minKey : κ) (nodes : List (SkipListNode κ ν)) :
    SkipListNode κ ν :=
  ((nodes.filter fun n => l.upTo minKey n.key).getLast?).getD (headNode l.funcs l.maxLevel)

/-- **What `range_by_key` lists**: the node that it begins with and those above the minimum, as far
as the maximum. -/
theorem Holds.rangeByKey (h : l.Holds nodes) (hguard : l.funcs.greater minKey maxKey = false) :
    l.rangeByKey minKey maxKey = if l.upTo maxKey (l.startNode minKey nodes).key then
      pair (l.startNode minKey nodes) ::
        (nodes.filter fun n => !l.upTo minKey n.key && l.upTo maxKey n.key).map pair
      else [] := by
  obtain ⟨addrs, h, rfl⟩ := h
  have hclosed : ∀ k k', l.funcs.compare k k' = .lt → l.upTo minKey k' = true →
      l.upTo minKey k = true := fun k k' => upTo_of_lt
  obtain ⟨htake, hdrop⟩ := takeWhile_eq_filter (p := fun a => l.upTo minKey (l.node a).key)
    (h.sorted.imp fun {a b} hab => hclosed _ _ hab)
  have hfind := (h.find_eq hclosed).1
  rw [htake] at hfind
  have hsplit : addrs = addrs.filter (fun a => l.upTo minKey (l.node a).key) ++
      addrs.filter (fun a => !l.upTo minKey (l.node a).key) := by
    rw [← htake, ← hdrop, List.takeWhile_append_dropWhile]
  have hchain := h.stacked 0
  rw [onLevel_zero fun a ha => (h.height a ha).1] at hchain
  nth_rewrite 1 [hsplit] at hchain
  rw [chain_append, ← hfind] at hchain
  have hfuel : (addrs.filter fun a => !l.upTo minKey (l.node a).key).length ≤ l.allocated :=
    (List.length_filter_le _ _).trans (Nat.le_of_lt h.length_lt)
  have hrest := hchain.2.walk_eq (p := fun a => l.upTo maxKey (l.node a).key) hfuel
  -- The node at the place is the last one of the part before it, or the head.
  have hstart : l.node (l.find (l.upTo minKey)).1 = l.startNode minKey (addrs.map l.node) := by
    rw [hfind, startNode, List.filter_map, List.getLast?_map, ← h.sentinel,
      List.getLastD_eq_getLast?]
    change l.node ((addrs.filter fun a => l.upTo minKey (l.node a).key).getLast?.getD head) =
      ((addrs.filter fun a => l.upTo minKey (l.node a).key).getLast?.map l.node).getD (l.node head)
    cases (addrs.filter fun a => l.upTo minKey (l.node a).key).getLast? with
    | none => rfl
    | some a => rfl
  have heven : (l.startNode minKey (addrs.map l.node)).odd = false := by
    rw [← hstart]
    have hmem : (l.find (l.upTo minKey)).1 ∈
        head :: addrs.filter fun a => l.upTo minKey (l.node a).key := by
      rw [hfind]
      exact List.getLastD_mem_cons
    rcases List.mem_cons.1 hmem with heq | hmem
    · rw [heq, h.sentinel]
      rfl
    · exact h.even _ (List.mem_filter.1 hmem).1
  have hentry : l.entry (l.find (l.upTo minKey)).1 = pair (l.startNode minKey (addrs.map l.node)) := by
    rw [entry, hstart, getValue_of_even heven, pair]
  have hafter : (addrs.filter fun a => !l.upTo minKey (l.node a).key).Pairwise fun a b =>
      l.upTo maxKey (l.node b).key = true → l.upTo maxKey (l.node a).key = true :=
    (h.sorted.imp fun {a b} hab => upTo_of_lt hab).filter _
  rw [SkipList.rangeByKey, hguard, if_neg Bool.false_ne_true, walk, hstart, hrest,
    (takeWhile_eq_filter hafter).1, List.filter_filter]
  split
  · rw [List.map_cons, hentry, h.entries_eq fun a ha => (List.mem_filter.1 ha).1, List.filter_map]
    simp only [Function.comp_def, Bool.and_comm]
    rfl
  · rfl

/-- The listing of a range and its removal agree: the one lists and the other deletes exactly the
entries between the bounds, and their number is returned. -/
def RangeExact (l : SkipList κ ν) (minKey maxKey : κ) : Prop :=
  l.rangeByKey minKey maxKey =
      (l.getAllEntries.filter fun e => l.funcs.inRange minKey maxKey e.1) ∧
    (l.removeRangeByKey minKey maxKey).2.getAllEntries =
      (l.getAllEntries.filter fun e => !l.funcs.inRange minKey maxKey e.1) ∧
    (l.removeRangeByKey minKey maxKey).1 =
      (l.getAllEntries.filter fun e => l.funcs.inRange minKey maxKey e.1).length

theorem filter_map_pair (p : κ → Bool) (nodes : List (SkipListNode κ ν)) :
    (nodes.map pair).filter (fun e => p e.1) = (nodes.filter fun n => p n.key).map pair := by
  rw [List.filter_map]
  rfl

/-- A range that `operator>` does not let through is neither listed nor removed. -/
theorem Holds.rangeExact_of_greater (h : l.Holds nodes)
    (hguard : l.funcs.greater minKey maxKey = true) :
    l.RangeExact minKey maxKey ↔ ∀ n ∈ nodes, l.funcs.inRange minKey maxKey n.key = false := by
  have hentries : l.getAllEntries = nodes.map pair := h.getAllEntries
  have hfilter := filter_map_pair (l.funcs.inRange minKey maxKey) nodes
  have hrange : l.rangeByKey minKey maxKey = [] := if_pos hguard
  rw [RangeExact, removeRangeByKey_of_greater hguard, hrange, hentries, hfilter]
  constructor
  · rintro ⟨hnil, -, -⟩ n hn
    have hnone := List.map_eq_nil_iff.1 hnil.symm
    exact Bool.eq_false_iff.2 (List.filter_eq_nil_iff.1 hnone n hn)
  · intro hall
    have hnone : (nodes.filter fun n => l.funcs.inRange minKey maxKey n.key) = [] :=
      List.filter_eq_nil_iff.2 fun n hn => Bool.eq_false_iff.1 (hall n hn)
    refine ⟨by rw [hnone]; rfl, (List.filter_eq_self.2 fun e he => ?_).symm, by rw [hnone]; rfl⟩
    obtain ⟨n, hn, rfl⟩ := List.mem_map.1 he
    rw [pair, hall n hn]
    rfl

/-- The removal of a range that `operator>` lets through is always right, so the listing decides. -/
theorem Holds.rangeExact_of_not_greater (h : l.Holds nodes)
    (hguard : l.funcs.greater minKey maxKey = false) :
    l.RangeExact minKey maxKey ↔ l.rangeByKey minKey maxKey =
      (nodes.filter fun n => l.funcs.inRange minKey maxKey n.key).map pair := by
  have hentries : l.getAllEntries = nodes.map pair := h.getAllEntries
  obtain ⟨hcount, hholds, -⟩ := h.removeRangeByKey hguard
  have hremoved : (l.removeRangeByKey minKey maxKey).2.getAllEntries = _ := hholds.getAllEntries
  have hin := filter_map_pair (l.funcs.inRange minKey maxKey) nodes
  have hout := filter_map_pair (fun k => !l.funcs.inRange minKey maxKey k) nodes
  rw [RangeExact, hremoved, hcount, hentries, hin, hout, List.length_map]
  exact and_iff_left ⟨rfl, rfl⟩

theorem upTo_of_compare {key k : κ} (h : l.funcs.compare k key = .lt) : l.upTo key k = true := by
  rw [upTo, h]
  rfl

theorem upTo_of_lt_compare {key k : κ} (h : l.funcs.compare key k = .lt) : ¬l.upTo key k = true := by
  rw [upTo, not_isLE_of_lt h]
  exact Bool.false_ne_true

theorem not_upTo_iff {key k : κ} : ¬l.upTo key k = true ↔ l.funcs.compare key k = .lt := by
  rw [Bool.not_eq_true]
  exact isLE_eq_false_iff

theorem inRange_eq {k : κ} : l.funcs.inRange minKey maxKey k =
    ((l.funcs.compare minKey k).isLE && l.upTo maxKey k) := rfl

/-- When the minimum is a key, the listing begins with its node, and is right. -/
theorem rangeByKey_of_mem {ns ms : List (SkipListNode κ ν)} {n : SkipListNode κ ν}
    (h : l.Holds (ns ++ n :: ms)) (hguard : l.funcs.greater n.key maxKey = false)
    (hle : (l.funcs.compare n.key maxKey).isLE = true)
    (hns : ∀ m ∈ ns, l.funcs.compare m.key n.key = .lt)
    (hms : ∀ m ∈ ms, l.funcs.compare n.key m.key = .lt) : l.rangeByKey n.key maxKey =
      ((ns ++ n :: ms).filter fun m => l.funcs.inRange n.key maxKey m.key).map pair := by
  have hself : l.funcs.compare n.key n.key = .eq := l.funcs.compare_eq_iff.2 rfl
  have hup : l.upTo n.key n.key = true := by
    rw [upTo, hself]
    rfl
  -- up to the minimum are the nodes before it and the node itself, where the walk begins
  have hbefore : (ns ++ n :: ms).filter (fun m => l.upTo n.key m.key) = ns ++ [n] := by
    rw [List.filter_append, List.filter_cons, if_pos hup,
      List.filter_eq_self.2 fun m hm => upTo_of_compare (hns m hm),
      List.filter_eq_nil_iff.2 fun m hm => upTo_of_lt_compare (hms m hm)]
  have hstart : l.startNode n.key (ns ++ n :: ms) = n := by
    rw [startNode, hbefore, List.getLast?_concat]
    rfl
  -- behind it only the upper bound decides
  have hafter : (ns ++ n :: ms).filter (fun m => !l.upTo n.key m.key && l.upTo maxKey m.key) =
      ms.filter fun m => l.upTo maxKey m.key := by
    rw [List.filter_append, List.filter_eq_nil_iff.2 fun m hm => ?_, List.nil_append,
      List.filter_cons_of_neg]
    · refine List.filter_congr fun m hm => ?_
      rw [upTo, not_isLE_of_lt (hms m hm)]
      rfl
    · rw [hup]
      exact Bool.false_ne_true
    · rw [upTo_of_compare (hns m hm)]
      exact Bool.false_ne_true
  have hin : (ns ++ n :: ms).filter (fun m => l.funcs.inRange n.key maxKey m.key) =
      n :: ms.filter fun m => l.upTo maxKey m.key := by
    rw [List.filter_append, List.filter_eq_nil_iff.2 fun m hm => ?_, List.nil_append,
      List.filter_cons_of_pos]
    · refine congrArg (n :: ·) (List.filter_congr fun m hm => ?_)
      rw [inRange_eq, hms m hm]
      rfl
    · rw [inRange_eq, hself]
      exact hle
    · rw [inRange_eq, not_isLE_of_lt (hns m hm)]
      exact Bool.false_ne_true
  have hupTo : l.upTo maxKey n.key = true := hle
  rw [h.rangeByKey hguard, hstart, hafter, hin, if_pos hupTo, List.map_cons]

/-- When the minimum is no key, the listing begins with a node outside of the range. -/
theorem rangeByKey_of_not_mem {ns ms : List (SkipListNode κ ν)} (h : l.Holds (ns ++ ms))
    (hguard : l.funcs.greater minKey maxKey = false)
    (hns : ∀ m ∈ ns, l.funcs.compare m.key minKey = .lt)
    (hms : ∀ m ∈ ms, l.funcs.compare minKey m.key = .lt) :
    (l.rangeByKey minKey maxKey =
        ((ns ++ ms).filter fun m => l.funcs.inRange minKey maxKey m.key).map pair) ↔
      l.funcs.compare maxKey (ns.getLast?.getD (headNode l.funcs l.maxLevel)).key = .lt ∧
        ∀ m ∈ ms, l.funcs.compare maxKey m.key = .lt := by
  have hbefore : (ns ++ ms).filter (fun m => l.upTo minKey m.key) = ns := by
    rw [List.filter_append, List.filter_eq_self.2 fun m hm => upTo_of_compare (hns m hm),
      List.filter_eq_nil_iff.2 fun m hm => upTo_of_lt_compare (hms m hm), List.append_nil]
  have hafter : (ns ++ ms).filter (fun m => !l.upTo minKey m.key && l.upTo maxKey m.key) =
      ms.filter fun m => l.upTo maxKey m.key := by
    rw [List.filter_append, List.filter_eq_nil_iff.2 fun m hm => ?_, List.nil_append]
    · refine List.filter_congr fun m hm => ?_
      rw [upTo, not_isLE_of_lt (hms m hm)]
      rfl
    · rw [upTo_of_compare (hns m hm)]
      exact Bool.false_ne_true
  have hin : (ns ++ ms).filter (fun m => l.funcs.inRange minKey maxKey m.key) =
      ms.filter fun m => l.upTo maxKey m.key := by
    rw [List.filter_append, List.filter_eq_nil_iff.2 fun m hm => ?_, List.nil_append]
    · refine List.filter_congr fun m hm => ?_
      rw [inRange_eq, hms m hm]
      rfl
    · rw [inRange_eq, not_isLE_of_lt (hns m hm)]
      exact Bool.false_ne_true
  rw [h.rangeByKey hguard, startNode, hbefore, hafter, hin, ← isLE_eq_false_iff, ← upTo]
  cases l.upTo maxKey (ns.getLast?.getD (headNode l.funcs l.maxLevel)).key with
  | true =>
      rw [if_pos rfl]
      constructor
      · exact fun heq => absurd heq (List.cons_ne_self _ _)
      · exact fun hfalse => absurd hfalse.1 (Bool.true_eq_false ▸ not_false)
  | false =>
      rw [if_neg Bool.false_ne_true, eq_comm, List.map_eq_nil_iff, List.filter_eq_nil_iff]
      exact Iff.trans (forall₂_congr fun m _ => not_upTo_iff) (and_iff_right rfl).symm

/-- **When listing and removal of a range agree.** If `operator>` does not let the bounds through,
there must be nothing between them. If it does, the minimum must be a key; or all keys, and the
default key of the head with them, must lie above the maximum. -/
theorem rangeExact_iff (h : l.Holds nodes) (hle : (l.funcs.compare minKey maxKey).isLE = true) :
    l.RangeExact minKey maxKey ↔
      if l.funcs.greater minKey maxKey then
        ∀ n ∈ nodes, l.funcs.inRange minKey maxKey n.key = false
      else (∃ n ∈ nodes, n.key = minKey) ∨
        (l.funcs.compare maxKey l.funcs.defaultKey = .lt ∧
          ∀ n ∈ nodes, l.funcs.compare maxKey n.key = .lt) := by
  cases hguard : l.funcs.greater minKey maxKey with
  | true =>
      rw [if_pos rfl]
      exact h.rangeExact_of_greater hguard
  | false =>
      rw [if_neg Bool.false_ne_true, h.rangeExact_of_not_greater hguard]
      rcases h.valid.split minKey with ⟨ns, n, ms, rfl, rfl, hns, hms⟩ | ⟨ns, ms, rfl, hns, hms⟩
      · refine iff_of_true (rangeByKey_of_mem h hguard hle hns hms) (Or.inl ?_)
        exact ⟨n, List.mem_append_right ns List.mem_cons_self, rfl⟩
      · have hnot : ¬ ∃ n ∈ ns ++ ms, n.key = minKey := by
          rintro ⟨n, hn, rfl⟩
          have hself : l.funcs.compare n.key n.key = .eq := l.funcs.compare_eq_iff.2 rfl
          rcases List.mem_append.1 hn with hn | hn
          · rw [hns n hn] at hself
            cases hself
          · rw [hms n hn] at hself
            cases hself
        rw [rangeByKey_of_not_mem h hguard hns hms, or_iff_right hnot]
        cases hlast : ns.getLast? with
        | none =>
            rw [List.getLast?_eq_none_iff.1 hlast]
            exact Iff.rfl
        | some n =>
            -- A smaller node is in front of the range, and not above its maximum.
            have hn := List.mem_of_getLast? hlast
            have hup : l.upTo maxKey n.key = true := by
              rw [upTo]
              exact Std.TransCmp.isLE_trans (Ordering.isLE_of_eq_lt (hns n hn)) hle
            have hnlt : l.funcs.compare maxKey n.key ≠ .lt := by
              intro hlt
              rw [upTo, not_isLE_of_lt hlt] at hup
              cases hup
            constructor
            · exact fun hand => absurd hand.1 hnlt
            · exact fun hand => absurd (hand.2 n (List.mem_append_left ms hn)) hnlt

/-- A list with one key. -/
def tenList : SkipList Nat Nat := (create numberFuncs twoLevels).insert (fun _ => true) 10 100

theorem tenList_holds : tenList.Holds [{ key := 10, value := 100, level := 2 }] :=
  ((holds_create numberFuncs twoLevels).insert (fun _ => true) 10 100).1

/-- Four keys, which do not come in order, with towers of one and of two levels. -/
def fourList : SkipList Nat Nat :=
  ((((create numberFuncs twoLevels).insert (fun _ => false) 30 300).insert (fun _ => true) 10
    100).insert (fun _ => true) 40 400).insert (fun _ => false) 20 200

/-- The nodes of the four keys. -/
def fourNodes : List (SkipListNode Nat Nat) :=
  [{ key := 10, value := 100, level := 2 }, { key := 20, value := 200, level := 1 },
    { key := 30, value := 300, level := 1 }, { key := 40, value := 400, level := 2 }]

theorem fourList_holds : fourList.Holds fourNodes :=
  (((((holds_create numberFuncs twoLevels).insert (fun _ => false) 30 300).1.insert (fun _ => true)
    10 100).1.insert (fun _ => true) 40 400).1.insert (fun _ => false) 20 200).1

/-- A range that begins at a key is right, also when its end is no key. -/
theorem rangeExact_iff_of_four : fourList.RangeExact 20 35 ∧
    fourList.rangeByKey 20 35 = [(20, 200), (30, 300)] := by
  refine ⟨(rangeExact_iff fourList_holds (by decide)).2 (Or.inl ?_), by decide⟩
  exact ⟨{ key := 20, value := 200, level := 1 }, List.mem_cons_of_mem _ List.mem_cons_self, rfl⟩

/-- **The head or a smaller key is listed** when the minimum is no key. The removal of the same
range deletes only what lies in it. -/
theorem rangeByKey_lists_smaller : tenList.Holds [{ key := 10, value := 100, level := 2 }] ∧
    tenList.rangeByKey 5 15 = [(0, 0), (10, 100)] ∧ tenList.rangeByKey 20 30 = [(10, 100)] ∧
      (tenList.removeRangeByKey 20 30).2.getAllEntries = [(10, 100)] ∧
      ¬ tenList.RangeExact 5 15 ∧ ¬ tenList.RangeExact 20 30 := by
  refine ⟨tenList_holds, by decide, by decide, by decide, fun hexact => ?_, fun hexact => ?_⟩
  · exact absurd hexact.1 (by decide)
  · exact absurd hexact.1 (by decide)

end ByKey

section ByRank

variable {unset : κ × κ} {startRank endRank : Nat}

/-- Listing and removal of ranks agree: the one lists and the other deletes exactly the entries from
the first rank to the second, as far as the list reaches, and their number is returned. -/
def RankExact (l : SkipList κ ν) (unset : κ × κ) (startRank endRank : Nat) : Prop :=
  l.rangeByRank startRank endRank = (l.getAllEntries.take (endRank + 1)).drop startRank ∧
    (l.removeRangeByRank unset startRank endRank).2.getAllEntries =
      l.getAllEntries.take startRank ++ l.getAllEntries.drop (endRank + 1) ∧
    (l.removeRangeByRank unset startRank endRank).1 =
      ((l.getAllEntries.take (endRank + 1)).drop startRank).length

/-- The keys of the nodes. -/
def keysOf (nodes : List (SkipListNode κ ν)) : List κ := nodes.map SkipListNode.key

/-- The loop finds the keys at the two ranks, where the list has them. -/
theorem rankKeys_eq (keys : List κ) {index : Nat} (hstart : startRank ≤ endRank)
    (hindex : index ≤ endRank) (found : κ × κ) : rankKeys startRank endRank keys index found =
      ((if index ≤ startRank then keys[startRank - index]?.getD found.1 else found.1),
        keys[endRank - index]?.getD found.2) := by
  obtain ⟨minKey, maxKey⟩ := found
  induction keys generalizing index minKey maxKey with
  | nil =>
      rw [rankKeys, List.getElem?_nil, List.getElem?_nil]
      split
      · rfl
      · rfl
  | cons key keys ih =>
      rw [rankKeys]
      by_cases hend : index = endRank
      · subst hend
        rw [if_pos rfl, Nat.sub_self, List.getElem?_cons_zero]
        by_cases heq : index = startRank
        · rw [if_pos heq, heq, if_pos (Nat.le_refl _), Nat.sub_self, List.getElem?_cons_zero]
          rfl
        · rw [if_neg heq, if_neg fun hle => heq (Nat.le_antisymm hle hstart)]
          rfl
      · have hsucc : index + 1 ≤ endRank := Nat.lt_of_le_of_ne hindex hend
        rw [if_neg hend, ih hsucc]
        have hnext : endRank - index = (endRank - (index + 1)) + 1 := by omega
        rw [hnext, List.getElem?_cons_succ]
        rcases Nat.lt_trichotomy index startRank with hlt | rfl | hgt
        · have hstep : startRank - index = (startRank - (index + 1)) + 1 := by omega
          have hle : index + 1 ≤ startRank := hlt
          rw [if_pos hle, if_pos (Nat.le_of_lt hlt), if_neg (Nat.ne_of_lt hlt), hstep,
            List.getElem?_cons_succ]
        · rw [if_neg (Nat.not_succ_le_self _), if_pos (Nat.le_refl _), if_pos rfl, Nat.sub_self,
            List.getElem?_cons_zero]
          rfl
        · rw [if_neg (Nat.not_le_of_lt (Nat.lt_succ_of_lt hgt)), if_neg (Nat.not_le_of_lt hgt),
            if_neg (Nat.ne_of_gt hgt)]

/-- The bounds that `remove_range_by_rank` removes between. -/
theorem Holds.removeRangeByRank (h : l.Holds nodes) (hle : startRank ≤ endRank) :
    l.removeRangeByRank unset startRank endRank =
      l.removeRangeByKey ((keysOf nodes)[startRank]?.getD unset.1)
        ((keysOf nodes)[endRank]?.getD unset.2) := by
  have hkeys : ((l.nodesOn 0).map fun a => (l.node a).key) = keysOf nodes := by
    obtain ⟨addrs, h, rfl⟩ := h
    rw [h.nodesOn_zero, keysOf, List.map_map]
    rfl
  rw [SkipList.removeRangeByRank, if_neg (Nat.not_lt_of_le hle), hkeys,
    rankKeys_eq (keysOf nodes) hle (Nat.zero_le endRank), if_pos (Nat.zero_le startRank),
    Nat.sub_zero, Nat.sub_zero]

theorem Valid.isLE_iff {f : SkipListFuncs κ ν} {currentLevel : Nat}
    (h : Valid f currentLevel nodes) {i j : Nat} {a b : κ} (hi : (keysOf nodes)[i]? = some a)
    (hj : (keysOf nodes)[j]? = some b) : (f.compare a b).isLE = true ↔ i ≤ j := by
  have hsorted : (keysOf nodes).Pairwise fun a b => f.compare a b = .lt :=
    List.pairwise_map.2 h.sorted
  rw [List.pairwise_iff_getElem] at hsorted
  obtain ⟨hi', rfl⟩ := List.getElem?_eq_some_iff.1 hi
  obtain ⟨hj', rfl⟩ := List.getElem?_eq_some_iff.1 hj
  rcases Nat.lt_trichotomy i j with hlt | rfl | hgt
  · rw [hsorted i j hi' hj' hlt]
    exact iff_of_true rfl (Nat.le_of_lt hlt)
  · exact iff_of_true (Ordering.isLE_of_eq_eq (f.compare_eq_iff.2 rfl)) (Nat.le_refl i)
  · refine iff_of_false ?_ (Nat.not_le_of_lt hgt)
    rw [not_isLE_of_lt (hsorted j i hj' hi' hgt)]
    exact Bool.false_ne_true

theorem Holds.entries_nodup (h : l.Holds nodes) : (nodes.map pair).Nodup := by
  refine List.pairwise_map.2 (h.valid.sorted.imp fun {a b} hlt heq => ?_)
  have hkey : a.key = b.key := congrArg Prod.fst heq
  rw [hkey, l.funcs.compare_eq_iff.2 rfl] at hlt
  cases hlt

/-- When `operator>` stops the removal, the ranks must be behind the list. -/
theorem Holds.rankExact_of_greater (h : l.Holds nodes) (hle : startRank ≤ endRank)
    (hguard : l.funcs.greater ((keysOf nodes)[startRank]?.getD unset.1)
      ((keysOf nodes)[endRank]?.getD unset.2) = true) :
    l.RankExact unset startRank endRank ↔ nodes.length ≤ startRank := by
  have hentries : l.getAllEntries = nodes.map pair := h.getAllEntries
  have hslice : ((l.getAllEntries.take (endRank + 1)).drop startRank).length =
      min (endRank + 1) nodes.length - startRank := by
    rw [List.length_drop, List.length_take, hentries, List.length_map]
  have hlist := h.rangeByRank hle
  rw [RankExact, h.removeRangeByRank hle, removeRangeByKey_of_greater hguard, hslice]
  constructor
  · rintro ⟨-, -, hcount⟩
    omega
  · intro hlen
    have hlen' : l.getAllEntries.length ≤ startRank := by rwa [hentries, List.length_map]
    refine ⟨?_, ?_, by omega⟩
    · rw [hlist, hentries, ← List.map_take, ← List.map_drop]
      rfl
    · rw [List.take_of_length_le hlen', List.drop_of_length_le (by omega), List.append_nil]

/-- When it does not, the range between the keys must hold the entries at the ranks. -/
theorem Holds.rankExact_of_not_greater (h : l.Holds nodes) (hle : startRank ≤ endRank)
    {minKey maxKey : κ}
    (hmin : (keysOf nodes)[startRank]?.getD unset.1 = minKey)
    (hmax : (keysOf nodes)[endRank]?.getD unset.2 = maxKey)
    (hguard : l.funcs.greater minKey maxKey = false) :
    l.RankExact unset startRank endRank ↔ ∀ n k, (keysOf nodes)[n]? = some k →
      (l.funcs.inRange minKey maxKey k = true ↔ startRank ≤ n ∧ n ≤ endRank) := by
  have hentries : l.getAllEntries = nodes.map pair := h.getAllEntries
  obtain ⟨hcount, hholds, -⟩ := h.removeRangeByKey hguard
  have hremoved : (l.removeRangeByKey minKey maxKey).2.getAllEntries = _ := hholds.getAllEntries
  have hout := filter_map_pair (fun k => !l.funcs.inRange minKey maxKey k) nodes
  have hin := filter_map_pair (l.funcs.inRange minKey maxKey) nodes
  have hpositions : (∀ n k, (keysOf nodes)[n]? = some k →
        (l.funcs.inRange minKey maxKey k = true ↔ startRank ≤ n ∧ n ≤ endRank)) ↔
      ∀ n e, (nodes.map pair)[n]? = some e →
        (l.funcs.inRange minKey maxKey e.1 = true ↔ startRank ≤ n ∧ n ≤ endRank) := by
    simp only [keysOf, List.getElem?_map, Option.map_eq_some_iff]
    constructor
    · rintro hall n e ⟨m, hm, rfl⟩
      exact hall n m.key ⟨m, hm, rfl⟩
    · rintro hall n k ⟨m, hm, rfl⟩
      exact hall n (pair m) ⟨m, hm, rfl⟩
  have hlist : l.rangeByRank startRank endRank = _ := h.rangeByRank hle
  rw [RankExact, h.removeRangeByRank hle, hmin, hmax, hremoved, hcount, hentries, hpositions,
    ← filter_not_eq_iff h.entries_nodup hle (p := fun e => l.funcs.inRange minKey maxKey e.1), hout]
  constructor
  · exact fun hexact => hexact.2.1
  · intro hrest
    refine ⟨?_, hrest, ?_⟩
    · rw [hlist, ← List.map_take, ← List.map_drop]
      rfl
    · rw [← hout, filter_not_eq_iff h.entries_nodup hle] at hrest
      rw [← filter_eq_slice hle hrest, hin, List.length_map]

theorem inRange_iff_isLE {f : SkipListFuncs κ ν} {minKey maxKey k : κ} :
    f.inRange minKey maxKey k = true ↔
      (f.compare minKey k).isLE = true ∧ (f.compare k maxKey).isLE = true := by
  rw [← Bool.and_eq_true]
  rfl

theorem Holds.rankExact_of_both (h : l.Holds nodes) (hle : startRank ≤ endRank) {minKey maxKey : κ}
    (hstart : (keysOf nodes)[startRank]? = some minKey)
    (hend : (keysOf nodes)[endRank]? = some maxKey) :
    l.RankExact unset startRank endRank ↔ l.funcs.greater minKey maxKey = false := by
  cases hguard : l.funcs.greater minKey maxKey with
  | true =>
      refine iff_of_false (fun hexact => ?_) nofun
      have hlen := (h.rankExact_of_greater hle (by rw [hstart, hend]; exact hguard)).1 hexact
      have hlt := (List.getElem?_eq_some_iff.1 hstart).1
      rw [keysOf, List.length_map] at hlt
      exact Nat.not_le_of_lt hlt hlen
  | false =>
      refine iff_of_true ?_ rfl
      rw [h.rankExact_of_not_greater hle (by rw [hstart]; rfl) (by rw [hend]; rfl) hguard]
      intro n k hn
      rw [inRange_iff_isLE, h.valid.isLE_iff hstart hn, h.valid.isLE_iff hn hend]

theorem Holds.rankExact_of_first (h : l.Holds nodes) (hle : startRank ≤ endRank) {minKey : κ}
    (hstart : (keysOf nodes)[startRank]? = some minKey) (hend : (keysOf nodes)[endRank]? = none) :
    l.RankExact unset startRank endRank ↔ l.funcs.greater minKey unset.2 = false ∧
      ∀ k ∈ keysOf nodes, (l.funcs.compare k unset.2).isLE = true := by
  have hlt := (List.getElem?_eq_some_iff.1 hstart).1
  have hlen := List.getElem?_eq_none_iff.1 hend
  cases hguard : l.funcs.greater minKey unset.2 with
  | true =>
      refine iff_of_false (fun hexact => ?_) nofun
      have hge := (h.rankExact_of_greater hle (by rw [hstart, hend]; exact hguard)).1 hexact
      rw [keysOf, List.length_map] at hlt
      exact Nat.not_le_of_lt hlt hge
  | false =>
      rw [h.rankExact_of_not_greater hle (by rw [hstart]; rfl) (by rw [hend]; rfl) hguard,
        and_iff_right rfl]
      constructor
      · -- The first key is in the range, so the smaller ones lie below its end, too.
        intro hall k hk
        obtain ⟨n, hn⟩ := List.mem_iff_getElem?.1 hk
        have hn' := (List.getElem?_eq_some_iff.1 hn).1
        rcases Nat.le_total startRank n with hge | hge
        · exact (inRange_iff_isLE.1 ((hall n k hn).2 ⟨hge, by omega⟩)).2
        · have hfirst := (hall startRank minKey hstart).2 ⟨Nat.le_refl startRank, hle⟩
          exact Std.TransCmp.isLE_trans ((h.valid.isLE_iff hn hstart).2 hge)
            (inRange_iff_isLE.1 hfirst).2
      · intro hall n k hn
        have hn' := (List.getElem?_eq_some_iff.1 hn).1
        have hnle : n ≤ endRank := by omega
        rw [inRange_iff_isLE, h.valid.isLE_iff hstart hn,
          and_iff_left (hall k (List.mem_of_getElem? hn)), and_iff_left hnle]

theorem Holds.rankExact_of_none (h : l.Holds nodes) (hle : startRank ≤ endRank)
    (hstart : (keysOf nodes)[startRank]? = none) : l.RankExact unset startRank endRank ↔
      l.funcs.greater unset.1 unset.2 = true ∨
        ∀ k ∈ keysOf nodes, l.funcs.inRange unset.1 unset.2 k = false := by
  have hlen := List.getElem?_eq_none_iff.1 hstart
  have hend : (keysOf nodes)[endRank]? = none := List.getElem?_eq_none (hlen.trans hle)
  cases hguard : l.funcs.greater unset.1 unset.2 with
  | true =>
      rw [keysOf, List.length_map] at hlen
      exact iff_of_true
        ((h.rankExact_of_greater hle (by rw [hstart, hend]; exact hguard)).2 hlen) (Or.inl rfl)
  | false =>
      rw [h.rankExact_of_not_greater hle (by rw [hstart]; rfl) (by rw [hend]; rfl) hguard,
        or_iff_right Bool.false_ne_true]
      constructor
      · intro hall k hmem
        obtain ⟨n, hn⟩ := List.mem_iff_getElem?.1 hmem
        rw [← Bool.not_eq_true, hall n k hn]
        intro hin
        exact Nat.not_le_of_lt (List.getElem?_eq_some_iff.1 hn).1 (hlen.trans hin.1)
      · intro hnot n k hn
        refine iff_of_false (fun hin => ?_) fun hin => ?_
        · rw [hnot k (List.mem_of_getElem? hn)] at hin
          cases hin
        · exact Nat.not_le_of_lt (List.getElem?_eq_some_iff.1 hn).1 (hlen.trans hin.1)

/-- The keys of the ranks say which entries are meant. Two keys must not be stopped by `operator>`;
where only the first rank has a key, what the second variable holds must not lie below any key;
where neither has one, no key may lie between what the two variables hold. -/
def RanksKnown (f : SkipListFuncs κ ν) (keys : List κ) (unset : κ × κ) (startRank endRank : Nat) :
    Prop :=
  match keys[startRank]?, keys[endRank]? with
  | some minKey, some maxKey => f.greater minKey maxKey = false
  | some minKey, none =>
      f.greater minKey unset.2 = false ∧ ∀ k ∈ keys, (f.compare k unset.2).isLE = true
  | none, _ => f.greater unset.1 unset.2 = true ∨ ∀ k ∈ keys, f.inRange unset.1 unset.2 k = false

/-- **When listing and removal of ranks agree**, for whatever the two variables hold. -/
theorem rankExact_iff (h : l.Holds nodes) (unset : κ × κ) (hle : startRank ≤ endRank) :
    l.RankExact unset startRank endRank ↔
      RanksKnown l.funcs (keysOf nodes) unset startRank endRank := by
  rw [RanksKnown]
  cases hstart : (keysOf nodes)[startRank]? with
  | none => exact h.rankExact_of_none hle hstart
  | some minKey =>
      cases hend : (keysOf nodes)[endRank]? with
      | none => exact h.rankExact_of_first hle hstart hend
      | some maxKey => exact h.rankExact_of_both hle hstart hend

/-- Ranks that the list reaches are removed, and so are those up to the end when the second variable
holds a greater key. -/
theorem rankExact_iff_of_four : fourList.RankExact (0, 0) 1 2 ∧ fourList.RankExact (7, 50) 2 9 := by
  refine ⟨(rankExact_iff fourList_holds (0, 0) (by decide)).2 rfl,
    (rankExact_iff fourList_holds (7, 50) (by decide)).2 ⟨rfl, ?_⟩⟩
  decide

/-- **A last rank behind the list removes nothing** where the second variable holds a key below the
first one, and a first rank behind it removes what lies between the two variables. -/
theorem removeRangeByRank_past_end : tenList.Holds [{ key := 10, value := 100, level := 2 }] ∧
    tenList.rangeByRank 0 1 = [(10, 100)] ∧ (tenList.removeRangeByRank (0, 0) 0 1).1 = 0 ∧
      (tenList.removeRangeByRank (0, 0) 0 1).2.getAllEntries = [(10, 100)] ∧
      ¬ tenList.RankExact (0, 0) 0 1 ∧ tenList.rangeByRank 1 1 = [] ∧
      (tenList.removeRangeByRank (3, 12) 1 1).1 = 1 ∧ ¬ tenList.RankExact (3, 12) 1 1 := by
  refine ⟨tenList_holds, by decide, by decide, by decide, fun hexact => ?_, by decide, by decide,
    fun hexact => ?_⟩
  · exact absurd hexact.2.1 (by decide)
  · exact absurd hexact.2.1 (by decide)

end ByRank

end EyaKV.Common.SkipList
