import EyaKV.Common.SkipList
import Mathlib.Data.List.Pairwise

/-!
# The invariant of the skip list

`Represents l addrs`: the addresses are those of the nodes in key order, the pointers of each level
lead through the nodes that are high enough, and `current_level_` and `size_` fit. `Holds l nodes`
forgets the addresses. Each operation has one theorem that says which nodes the list holds
afterwards and that the memory counter changes by what the nodes cost (`Holds.insert`,
`Holds.handleValue`, `Holds.remove`, `Holds.removeRangeByKey`, `Holds.clear`, `Holds.copy`).

The searches share one fact (`Represents.find_eq`): for a test that the smaller keys pass, the
descent ends at the last node that passes it and leaves every level at the last such node there.
-/

set_option autoImplicit false

namespace EyaKV.Common

open EyaKV.Base EyaKV.Base.Framing EyaKV.Base.LinkedLevels EyaKV.Store

variable {κ ν : Type}

/-- What the nodes cost together. -/
def SkipListFuncs.usage (f : SkipListFuncs κ ν) : List (SkipListNode κ ν) → UInt64
  | [] => 0
  | n :: ns => n.cost f + f.usage ns

theorem SkipListFuncs.usage_append (f : SkipListFuncs κ ν) (ns ms : List (SkipListNode κ ν)) :
    f.usage (ns ++ ms) = f.usage ns + f.usage ms := by
  induction ns with
  | nil => exact (UInt64.zero_add _).symm
  | cons n ns ih => rw [List.cons_append, usage, usage, ih, UInt64.add_assoc]

theorem SkipListFuncs.compare_eq_iff (f : SkipListFuncs κ ν) {k k' : κ} :
    f.compare k k' = .eq ↔ k = k' :=
  Std.LawfulEqCmp.compare_eq_iff_eq

namespace SkipListFuncs

variable (f : SkipListFuncs κ ν)

/-- The nodes after a value has been written to the one with the key. -/
def setValue (key : κ) (value : ν) (nodes : List (SkipListNode κ ν)) : List (SkipListNode κ ν) :=
  nodes.map fun n => if f.compare n.key key = .eq then { n with value := value } else n

/-- The nodes after one has been inserted: in key order, or by its value when the key is there. -/
def putNode (n : SkipListNode κ ν) (nodes : List (SkipListNode κ ν)) : List (SkipListNode κ ν) :=
  if nodes.any fun m => f.compare m.key n.key == .eq then f.setValue n.key n.value nodes
  else (nodes.takeWhile fun m => f.compare m.key n.key == .lt) ++
    n :: nodes.dropWhile fun m => f.compare m.key n.key == .lt

/-- The nodes with other keys. -/
def without (key : κ) (nodes : List (SkipListNode κ ν)) : List (SkipListNode κ ν) :=
  nodes.filter fun n => !(f.compare n.key key == .eq)

/-- The key lies between the bounds. -/
def inRange (minKey maxKey key : κ) : Bool :=
  (f.compare minKey key).isLE && (f.compare key maxKey).isLE

/-- The value of the node with the key. -/
def lookup (nodes : List (SkipListNode κ ν)) (key : κ) : Option ν :=
  (nodes.find? fun n => f.compare n.key key == .eq).map SkipListNode.value

/-- A split into elements that pass a test and elements that fail it. -/
theorem takeWhile_dropWhile_append {α : Type} {p : α → Bool} {xs ys : List α}
    (hxs : ∀ a ∈ xs, p a = true) (hys : ∀ a ∈ ys, p a = false) :
    (xs ++ ys).takeWhile p = xs ∧ (xs ++ ys).dropWhile p = ys := by
  rw [List.takeWhile_append_of_pos hxs, List.dropWhile_append_of_pos hxs]
  cases ys with
  | nil => exact ⟨List.append_nil xs, rfl⟩
  | cons b bs =>
      have hb : ¬ p b = true := by
        rw [hys b List.mem_cons_self]
        exact Bool.false_ne_true
      rw [List.takeWhile_cons_of_neg hb, List.dropWhile_cons_of_neg hb]
      exact ⟨List.append_nil xs, rfl⟩

/-- A node goes between the smaller ones and the greater ones. -/
theorem putNode_append {n : SkipListNode κ ν} {ns ms : List (SkipListNode κ ν)}
    (hns : ∀ m ∈ ns, f.compare m.key n.key = .lt) (hms : ∀ m ∈ ms, f.compare n.key m.key = .lt) :
    f.putNode n (ns ++ ms) = ns ++ n :: ms := by
  have hgreater : ∀ m ∈ ms, f.compare m.key n.key = .gt := fun m hm =>
    Std.OrientedCmp.gt_of_lt (hms m hm)
  have hany : ¬ (ns ++ ms).any (fun m => f.compare m.key n.key == .eq) = true := by
    rw [List.any_eq_true]
    rintro ⟨m, hm, hcmp⟩
    rw [beq_iff_eq] at hcmp
    rcases List.mem_append.1 hm with hm | hm
    · rw [hns m hm] at hcmp
      cases hcmp
    · rw [hgreater m hm] at hcmp
      cases hcmp
  obtain ⟨htake, hdrop⟩ := takeWhile_dropWhile_append
    (p := fun m : SkipListNode κ ν => f.compare m.key n.key == .lt)
    (fun m hm => beq_iff_eq.2 (hns m hm)) (fun m hm => by rw [hgreater m hm]; rfl)
  rw [putNode, if_neg hany, htake, hdrop]

section Lookups

variable {nodes : List (SkipListNode κ ν)}

theorem lookup_eq_none_iff {key : κ} : f.lookup nodes key = none ↔ ∀ n ∈ nodes, n.key ≠ key := by
  rw [lookup, Option.map_eq_none_iff, List.find?_eq_none]
  refine forall₂_congr fun n _ => not_congr ?_
  rw [beq_iff_eq, f.compare_eq_iff]

theorem isSome_lookup (key : κ) :
    (f.lookup nodes key).isSome = nodes.any fun n => f.compare n.key key == .eq := by
  rw [Bool.eq_iff_iff, lookup, Option.isSome_map, List.find?_isSome, List.any_eq_true]

theorem mem_of_lookup {key : κ} {value : ν} (h : f.lookup nodes key = some value) :
    ∃ n ∈ nodes, n.key = key ∧ n.value = value := by
  rw [lookup, Option.map_eq_some_iff] at h
  obtain ⟨n, hn, hvalue⟩ := h
  have hkey := List.find?_some hn
  rw [beq_iff_eq, f.compare_eq_iff] at hkey
  exact ⟨n, List.mem_of_find?_eq_some hn, hkey, hvalue⟩

theorem lookup_append (ns ms : List (SkipListNode κ ν)) (key : κ) :
    f.lookup (ns ++ ms) key = (f.lookup ns key).or (f.lookup ms key) := by
  rw [lookup, List.find?_append, Option.map_or]
  rfl

theorem lookup_cons (n : SkipListNode κ ν) (ns : List (SkipListNode κ ν)) (key : κ) :
    f.lookup (n :: ns) key =
      if f.compare n.key key = .eq then some n.value else f.lookup ns key := by
  rw [lookup, List.find?_cons]
  cases f.compare n.key key with
  | lt => rfl
  | eq => rfl
  | gt => rfl

/-- Only the nodes whose keys pass a test are left. -/
theorem lookup_filter (p : κ → Bool) (nodes : List (SkipListNode κ ν)) (key : κ) :
    f.lookup (nodes.filter fun n => p n.key) key =
      if p key then f.lookup nodes key else none := by
  induction nodes with
  | nil => exact (ite_self none).symm
  | cons n ns ih =>
      rw [List.filter_cons, lookup_cons]
      by_cases hkey : f.compare n.key key = .eq
      · obtain rfl := f.compare_eq_iff.1 hkey
        cases hp : p n.key with
        | true => simp only [↓reduceIte, lookup_cons, hkey]
        | false => simp only [Bool.false_eq_true, ↓reduceIte, ih, hp]
      · cases hp : p n.key with
        | true => simp only [↓reduceIte, lookup_cons, hkey, ih]
        | false => simp only [Bool.false_eq_true, ↓reduceIte, hkey, ih]

theorem lookup_setValue (key : κ) (value : ν) (nodes : List (SkipListNode κ ν)) (k : κ) :
    f.lookup (f.setValue key value nodes) k =
      if f.compare key k = .eq then (f.lookup nodes k).map fun _ => value
      else f.lookup nodes k := by
  induction nodes with
  | nil => exact (ite_self none).symm
  | cons n ns ih =>
      rw [setValue, List.map_cons, ← setValue]
      by_cases hkey : f.compare n.key key = .eq
      · rw [if_pos hkey, lookup_cons, lookup_cons, ih]
        obtain rfl := f.compare_eq_iff.1 hkey
        split
        · rfl
        · rfl
      · rw [if_neg hkey, lookup_cons, lookup_cons, ih]
        by_cases hk : f.compare n.key k = .eq
        · -- The node with the key that is looked up is not the one that has changed.
          have hne : ¬ f.compare key k = .eq := by
            intro heq
            rw [f.compare_eq_iff] at heq hk
            exact hkey (f.compare_eq_iff.2 (hk.trans heq.symm))
          rw [if_pos hk, if_neg hne, if_pos hk]
        · rw [if_neg hk, if_neg hk]

theorem lookup_putNode (n : SkipListNode κ ν) (nodes : List (SkipListNode κ ν)) (k : κ) :
    f.lookup (f.putNode n nodes) k =
      if f.compare n.key k = .eq then some n.value else f.lookup nodes k := by
  rw [putNode]
  split
  · next hany =>
      obtain ⟨m, hm, hkey⟩ := List.any_eq_true.1 hany
      rw [beq_iff_eq, f.compare_eq_iff] at hkey
      rw [lookup_setValue]
      split
      · next hk =>
          obtain rfl := f.compare_eq_iff.1 hk
          cases hlookup : f.lookup nodes n.key with
          | none => exact absurd hkey (f.lookup_eq_none_iff.1 hlookup m hm)
          | some _ => rfl
      · rfl
  · next hany =>
      have hsplit := List.takeWhile_append_dropWhile
        (p := fun m : SkipListNode κ ν => f.compare m.key n.key == .lt) (l := nodes)
      have hnone : f.lookup nodes n.key = none := by
        rw [f.lookup_eq_none_iff]
        intro m hm hkey
        apply hany
        rw [List.any_eq_true]
        exact ⟨m, hm, beq_iff_eq.2 (f.compare_eq_iff.2 hkey)⟩
      rw [lookup_append, lookup_cons]
      split
      · next hk =>
          obtain rfl := f.compare_eq_iff.1 hk
          rw [← hsplit, lookup_append, Option.or_eq_none_iff] at hnone
          rw [hnone.1]
          rfl
      · rw [← lookup_append, hsplit]

/-- An insertion keeps the number of nodes when the key is there, and adds one otherwise. -/
theorem length_putNode (n : SkipListNode κ ν) (nodes : List (SkipListNode κ ν)) :
    (f.putNode n nodes).length =
      if (f.lookup nodes n.key).isSome then nodes.length else nodes.length + 1 := by
  rw [putNode, isSome_lookup]
  split
  · exact List.length_map _
  · rw [List.length_append, List.length_cons, ← Nat.add_assoc, ← List.length_append,
      List.takeWhile_append_dropWhile]

/-- The keys after an insertion. -/
theorem mem_putNode {n m : SkipListNode κ ν} (hm : m ∈ f.putNode n nodes) :
    (m.key = n.key ∨ m ∈ nodes) ∧
      ((f.lookup nodes n.key).isSome = true → ∃ m' ∈ nodes, m'.key = m.key) := by
  rw [isSome_lookup]
  rw [putNode] at hm
  split at hm
  · obtain ⟨m', hm', rfl⟩ := List.mem_map.1 hm
    split
    · next hkey => exact ⟨Or.inl (f.compare_eq_iff.1 hkey), fun _ => ⟨m', hm', rfl⟩⟩
    · exact ⟨Or.inr hm', fun _ => ⟨m', hm', rfl⟩⟩
  · next hany =>
      have hmem : m = n ∨ m ∈ nodes := by
        rcases List.mem_append.1 hm with hm | hm
        · exact Or.inr ((List.takeWhile_prefix _).subset hm)
        · exact (List.mem_cons.1 hm).imp id fun hm => (List.dropWhile_suffix _).subset hm
      exact ⟨hmem.imp (congrArg SkipListNode.key) id, fun hsome => absurd hsome hany⟩

end Lookups

end SkipListFuncs

namespace SkipList

/-- The level of the node at an address. -/
def height (l : SkipList κ ν) (a : Nat) : Nat := (l.node a).level

/-- The nodes at the addresses, in key order, are the content of the list. -/
structure Represents (l : SkipList κ ν) (addrs : List Nat) : Prop where
  stacked : Stacked l.height head l.next addrs
  nodup : (head :: addrs).Nodup
  taken : ∀ a ∈ head :: addrs, a < l.allocated
  height : ∀ a ∈ addrs, 1 ≤ l.height a ∧ l.height a ≤ l.currentLevel
  level : 1 ≤ l.currentLevel ∧ l.currentLevel ≤ l.maxLevel.toNat
  sorted : addrs.Pairwise fun a b => l.funcs.compare (l.node a).key (l.node b).key = .lt
  even : ∀ a ∈ addrs, (l.node a).odd = false
  size : l.size = addrs.length
  sentinel : l.node head = headNode l.funcs l.maxLevel

/-- The list holds the nodes, in this order. -/
def Holds (l : SkipList κ ν) (nodes : List (SkipListNode κ ν)) : Prop :=
  ∃ addrs, l.Represents addrs ∧ addrs.map l.node = nodes

variable {l : SkipList κ ν} {addrs : List Nat} {nodes : List (SkipListNode κ ν)} {key : κ}

section Searches

/-- A scan finds the elements that pass a test when the test is closed downwards. -/
theorem takeWhile_eq_filter {α : Type} {p : α → Bool} {xs : List α}
    (h : xs.Pairwise fun a b => p b = true → p a = true) :
    xs.takeWhile p = xs.filter p ∧ xs.dropWhile p = xs.filter fun a => !p a := by
  induction xs with
  | nil => exact ⟨rfl, rfl⟩
  | cons x xs ih =>
      obtain ⟨hx, hxs⟩ := List.pairwise_cons.1 h
      cases hpx : p x with
      | true =>
          simp only [List.takeWhile_cons, List.dropWhile_cons, List.filter_cons, hpx, ↓reduceIte,
            Bool.not_true, Bool.false_eq_true]
          exact ⟨congrArg (x :: ·) (ih hxs).1, (ih hxs).2⟩
      | false =>
          have hnone : ∀ a ∈ xs, p a = false := by
            intro a ha
            rw [Bool.eq_false_iff]
            intro hpa
            rw [hx a ha hpa] at hpx
            cases hpx
          simp only [List.takeWhile_cons, List.dropWhile_cons, List.filter_cons, hpx,
            Bool.false_eq_true, ↓reduceIte, Bool.not_false]
          constructor
          · exact (List.filter_eq_nil_iff.2 fun a ha => Bool.eq_false_iff.1 (hnone a ha)).symm
          · refine congrArg (x :: ·) (List.filter_eq_self.2 fun a ha => ?_).symm
            rw [hnone a ha]
            rfl

/-- What follows the first element that fails a test fails it when the test is closed downwards. -/
theorem eq_false_of_mem_dropWhile {α : Type} {p : α → Bool} {xs : List α}
    (h : xs.Pairwise fun a b => p b = true → p a = true) :
    ∀ a ∈ xs.dropWhile p, p a = false := by
  rw [(takeWhile_eq_filter h).2]
  intro a ha
  exact Bool.not_eq_true' _ ▸ (List.mem_filter.1 ha).2

namespace Represents

theorem length_lt (h : l.Represents addrs) : addrs.length < l.allocated := by
  have hsub : (head :: addrs) ⊆ List.range l.allocated := fun a ha => List.mem_range.2 (h.taken a ha)
  have hle := h.nodup.length_le_of_subset hsub
  rwa [List.length_range] at hle

/-- The nodes whose keys pass a test that is closed downwards come first. -/
theorem test_eq_false (h : l.Represents addrs) {test : κ → Bool}
    (htest : ∀ k k', l.funcs.compare k k' = .lt → test k' = true → test k = true) :
    ∀ a ∈ addrs.dropWhile fun a => test (l.node a).key, test (l.node a).key = false := by
  refine eq_false_of_mem_dropWhile (h.sorted.imp fun {a b} hab => ?_)
  exact htest _ _ hab

/-- **The descent ends at the last node that passes the test**, and leaves each level at the last
such node there. -/
theorem find_eq (h : l.Represents addrs) {test : κ → Bool}
    (htest : ∀ k k', l.funcs.compare k k' = .lt → test k' = true → test k = true) :
    (l.find test).1 = (addrs.takeWhile fun a => test (l.node a).key).getLastD head ∧
      ∀ i < l.currentLevel, (l.find test).2 i =
        lastOn l.height head (addrs.takeWhile fun a => test (l.node a).key) i := by
  have hsplit := List.takeWhile_append_dropWhile (p := fun a => test (l.node a).key) (l := addrs)
  have hmem : ∀ a ∈ addrs.takeWhile fun a => test (l.node a).key, a ∈ addrs :=
    fun a ha => (List.takeWhile_prefix _).subset ha
  have hstacked := h.stacked
  rw [← hsplit] at hstacked
  have hfuel := Nat.le_of_lt h.length_lt
  rw [← hsplit] at hfuel
  have hdescend := hstacked.descend_eq (fun a ha => List.mem_takeWhile_imp ha)
    (h.test_eq_false htest) hfuel l.currentLevel
  rw [lastOn_of_height_le fun a ha => (h.height a (hmem a ha)).2] at hdescend
  refine ⟨?_, hdescend.2⟩
  rw [find, hdescend.1, lastOn, onLevel_zero fun a ha => (h.height a (hmem a ha)).1]

/-- On the lowest level every node follows the one before it. -/
theorem next_zero (h : l.Represents addrs) {pre post : List Nat} (heq : addrs = pre ++ post) :
    l.next 0 (pre.getLastD head) = post.head? := by
  have hchain := h.stacked 0
  rw [onLevel_zero fun a ha => (h.height a ha).1, heq, chain_append] at hchain
  exact hchain.2.next_head

theorem nodesOn_eq (h : l.Represents addrs) (i : Nat) : l.nodesOn i = onLevel l.height addrs i := by
  have hlength := (onLevel_sublist l.height addrs i).length_le
  have hwalk := (h.stacked i).walk_eq (p := fun _ => true)
    (hlength.trans (Nat.le_of_lt h.length_lt))
  rw [nodesOn, hwalk]
  exact List.takeWhile_eq_self_iff.2 fun _ _ => rfl

theorem nodesOn_zero (h : l.Represents addrs) : l.nodesOn 0 = addrs := by
  rw [h.nodesOn_eq, onLevel_zero fun a ha => (h.height a ha).1]

/-- Different nodes have different keys. -/
theorem key_inj (h : l.Represents addrs) {a b : Nat} (ha : a ∈ addrs) (hb : b ∈ addrs)
    (hkey : (l.node a).key = (l.node b).key) : a = b := by
  refine List.inj_on_of_nodup_map (f := fun a => (l.node a).key) ?_ ha hb hkey
  refine List.pairwise_map.2 (h.sorted.imp fun {a b} hab heq => ?_)
  rw [l.funcs.compare_eq_iff.2 heq] at hab
  cases hab

end Represents

/-- The keys below a key are closed downwards, and so are those up to it. -/
theorem below_of_lt {k k' : κ} (hlt : l.funcs.compare k k' = .lt) (h : l.below key k' = true) :
    l.below key k = true := by
  simp only [below, beq_iff_eq] at h ⊢
  exact Std.TransCmp.lt_trans hlt h

theorem upTo_of_lt {k k' : κ} (hlt : l.funcs.compare k k' = .lt) (h : l.upTo key k' = true) :
    l.upTo key k = true := by
  simp only [upTo] at h ⊢
  exact Std.TransCmp.isLE_trans (Ordering.isLE_of_eq_lt hlt) h

namespace Represents

/-- What the search for a key finds: the nodes before the place of the key and those from it on. -/
theorem find_below (h : l.Represents addrs) (key : κ) : ∃ pre post, addrs = pre ++ post ∧
    (∀ a ∈ pre, l.funcs.compare (l.node a).key key = .lt) ∧
    (∀ a ∈ post, l.funcs.compare (l.node a).key key ≠ .lt) ∧
    l.next 0 (l.find (l.below key)).1 = post.head? ∧
    ∀ i < l.currentLevel, (l.find (l.below key)).2 i = lastOn l.height head pre i := by
  have hclosed : ∀ k k', l.funcs.compare k k' = .lt → l.below key k' = true →
      l.below key k = true := fun k k' => below_of_lt
  obtain ⟨hend, hpred⟩ := h.find_eq hclosed
  refine ⟨addrs.takeWhile fun a => l.below key (l.node a).key,
    addrs.dropWhile fun a => l.below key (l.node a).key,
    List.takeWhile_append_dropWhile.symm, ?_, ?_, ?_, hpred⟩
  · intro a ha
    have hbelow := List.mem_takeWhile_imp ha
    simpa only [below, beq_iff_eq] using hbelow
  · intro a ha hlt
    have hnot := h.test_eq_false hclosed a ha
    rw [below, hlt] at hnot
    cases hnot
  · rw [hend]
    exact h.next_zero List.takeWhile_append_dropWhile.symm

/-- The search finds the node with the key. -/
theorem findKey_eq_some (h : l.Represents addrs) {a : Nat} (ha : l.findKey key = some a) :
    (l.node a).key = key ∧ ∃ pre post, addrs = pre ++ a :: post ∧
      ∀ i < l.currentLevel, (l.find (l.below key)).2 i = lastOn l.height head pre i := by
  obtain ⟨pre, post, heq, -, -, hnext, hpred⟩ := h.find_below key
  rw [findKey, Option.filter_eq_some_iff, hnext] at ha
  obtain ⟨hhead, hkey⟩ := ha
  refine ⟨l.funcs.compare_eq_iff.1 (beq_iff_eq.1 hkey), pre, post.tail, ?_, hpred⟩
  rw [heq, ← List.cons_head?_tail hhead]
  rfl

/-- When the search finds no node, no node has the key. -/
theorem findKey_eq_none (h : l.Represents addrs) (hnone : l.findKey key = none) :
    ∃ pre post, addrs = pre ++ post ∧
      (∀ a ∈ pre, l.funcs.compare (l.node a).key key = .lt) ∧
      (∀ a ∈ post, l.funcs.compare key (l.node a).key = .lt) ∧
      ∀ i < l.currentLevel, (l.find (l.below key)).2 i = lastOn l.height head pre i := by
  obtain ⟨pre, post, heq, hpre, hpost, hnext, hpred⟩ := h.find_below key
  refine ⟨pre, post, heq, hpre, ?_, hpred⟩
  rw [findKey, hnext, Option.filter_eq_none_iff] at hnone
  cases post with
  | nil => exact fun a ha => absurd ha List.not_mem_nil
  | cons b rest =>
      -- The first node of the rest is not equal, so it is greater, and all others are behind it.
      have hb : l.funcs.compare key (l.node b).key = .lt := by
        have hne := hnone b rfl
        have hnlt := hpost b List.mem_cons_self
        cases hcmp : l.funcs.compare (l.node b).key key with
        | lt => exact absurd hcmp hnlt
        | eq => exact absurd (beq_iff_eq.2 hcmp) hne
        | gt => exact Std.OrientedCmp.lt_of_gt hcmp
      intro a ha
      rcases List.mem_cons.1 ha with rfl | ha
      · exact hb
      · have hsorted := h.sorted
        rw [heq] at hsorted
        have hrest := (List.pairwise_cons.1 (List.pairwise_append.1 hsorted).2.1).1 a ha
        exact Std.TransCmp.lt_trans hb hrest

end Represents

end Searches

section Insertion

variable {value : ν} {level : Nat}

/-- Nodes may change as long as their keys, levels and parities do not. -/
theorem Represents.setNodes (h : l.Represents addrs) {node' : Nat → SkipListNode κ ν} (c : UInt64)
    (hkey : ∀ a, (node' a).key = (l.node a).key) (hlevel : ∀ a, (node' a).level = (l.node a).level)
    (hodd : ∀ a, (node' a).odd = (l.node a).odd) (hhead : node' head = l.node head) :
    ({ l with node := node', currentSize := c } : SkipList κ ν).Represents addrs where
  stacked := h.stacked.congr (fun a _ => hlevel a) fun _ _ _ => rfl
  nodup := h.nodup
  taken := h.taken
  height := by
    intro a ha
    have hheight := h.height a ha
    simp only [SkipList.height, hlevel] at hheight ⊢
    exact hheight
  level := h.level
  sorted := by
    simp only [hkey]
    exact h.sorted
  even := by
    intro a ha
    simp only [hodd]
    exact h.even a ha
  size := h.size
  sentinel := hhead.trans h.sentinel

theorem getValue_of_even {f : SkipListFuncs κ ν} {n : SkipListNode κ ν} (h : n.odd = false) :
    n.getValue f = n.value := by
  rw [SkipListNode.getValue, h]
  rfl

/-- A new value for a node, and the counter changes by the difference of the sizes. -/
theorem Represents.writeValue (h : l.Represents addrs) {pre post : List Nat} {a : Nat}
    (heq : addrs = pre ++ a :: post) (hkey : (l.node a).key = key) (value : ν) :
    (l.writeValue a (l.node a).value value).Represents addrs ∧
      addrs.map (l.writeValue a (l.node a).value value).node =
        l.funcs.setValue key value (addrs.map l.node) ∧
      (l.writeValue a (l.node a).value value).currentSize -
          l.funcs.usage (l.funcs.setValue key value (addrs.map l.node)) =
        l.currentSize - l.funcs.usage (addrs.map l.node) := by
  have ha : a ∈ addrs := by
    rw [heq]
    exact List.mem_append_right pre List.mem_cons_self
  have hother : ∀ b ∈ addrs, b ≠ a → ¬ l.funcs.compare (l.node b).key key = .eq := by
    intro b hb hne hcmp
    rw [← hkey, l.funcs.compare_eq_iff] at hcmp
    exact hne (h.key_inj hb ha hcmp)
  have hself : l.funcs.compare (l.node a).key key = .eq := l.funcs.compare_eq_iff.2 hkey
  have hrepresents : (l.writeValue a (l.node a).value value).Represents addrs := by
    apply h.setNodes
    · intro b
      rcases eq_or_ne b a with rfl | hne
      · rw [Function.update_self]
      · rw [Function.update_of_ne hne]
    · intro b
      rcases eq_or_ne b a with rfl | hne
      · rw [Function.update_self]
      · rw [Function.update_of_ne hne]
    · intro b
      rcases eq_or_ne b a with rfl | hne
      · rw [Function.update_self]
      · rw [Function.update_of_ne hne]
    · apply Function.update_of_ne
      rintro rfl
      exact (List.nodup_cons.1 h.nodup).1 ha
  refine ⟨hrepresents, ?_, ?_⟩
  · rw [SkipListFuncs.setValue, List.map_map]
    apply List.map_congr_left
    intro b hb
    rw [Function.comp_apply]
    rcases eq_or_ne b a with rfl | hne
    · rw [if_pos hself]
      exact Function.update_self _ _ _
    · rw [if_neg (hother b hb hne)]
      exact Function.update_of_ne hne _ _
  · -- Only the node with the key costs something else afterwards.
    have hsame : ∀ xs : List Nat, (∀ b ∈ xs, b ∈ addrs ∧ b ≠ a) →
        l.funcs.setValue key value (xs.map l.node) = xs.map l.node := by
      intro xs hxs
      rw [SkipListFuncs.setValue, List.map_map]
      apply List.map_congr_left
      intro b hb
      exact if_neg (hother b (hxs b hb).1 (hxs b hb).2)
    have hnodup := h.nodup
    rw [heq, ← List.cons_append] at hnodup
    obtain ⟨-, hpost, hdisjoint⟩ := List.nodup_append.1 hnodup
    have hpre := hsame pre fun b hb => ⟨heq ▸ List.mem_append_left _ hb, fun hba =>
      hdisjoint b (List.mem_cons_of_mem head hb) a List.mem_cons_self hba⟩
    have hrest := hsame post fun b hb =>
      ⟨heq ▸ List.mem_append_right pre (List.mem_cons_of_mem a hb), fun hba =>
        (List.nodup_cons.1 hpost).1 (hba ▸ hb)⟩
    have hsplit : l.funcs.setValue key value (addrs.map l.node) =
        pre.map l.node ++ { l.node a with value := value } :: post.map l.node := by
      rw [heq, List.map_append, List.map_cons]
      simp only [SkipListFuncs.setValue, List.map_append, List.map_cons, if_pos hself] at *
      rw [hpre, hrest]
    have heven := h.even a ha
    rw [hsplit, heq, List.map_append, List.map_cons]
    simp only [SkipListFuncs.usage_append, SkipListFuncs.usage, SkipListNode.cost,
      SkipListNode.getValue, heven, SkipList.writeValue, Bool.false_eq_true, ↓reduceIte]
    grind

theorem level_linkNode (l : SkipList κ ν) (update : Nat → Nat) (key : κ) (value : ν) (level : Nat) :
    l.currentLevel ≤ (l.linkNode update key value level).currentLevel ∧
      level ≤ (l.linkNode update key value level).currentLevel := by
  simp only [linkNode]
  split <;> omega

/-- A new node between the smaller keys and the greater ones. -/
theorem Represents.linkNode (h : l.Represents addrs) {pre post : List Nat} {update : Nat → Nat}
    (heq : addrs = pre ++ post) (hpre : ∀ a ∈ pre, l.funcs.compare (l.node a).key key = .lt)
    (hpost : ∀ a ∈ post, l.funcs.compare key (l.node a).key = .lt)
    (hupdate : ∀ i < l.currentLevel, update i = lastOn l.height head pre i)
    (hlevel : 1 ≤ level ∧ level ≤ l.maxLevel.toNat) (value : ν) :
    (l.linkNode update key value level).Represents (pre ++ l.allocated :: post) := by
  subst heq
  have hfresh : l.allocated ∉ head :: (pre ++ post) := fun hmem =>
    Nat.lt_irrefl _ (h.taken _ hmem)
  have hold : ∀ a ∈ pre ++ post, a ≠ l.allocated := by
    rintro a ha rfl
    exact hfresh (List.mem_cons_of_mem head ha)
  have hnode : (l.linkNode update key value level).node l.allocated =
      { key := key, value := value, level := level } := Function.update_self _ _ _
  have hnodes : ∀ a ∈ pre ++ post, (l.linkNode update key value level).node a = l.node a :=
    fun a ha => Function.update_of_ne (hold a ha) _ _
  have hheights : ∀ a ∈ pre ++ post, (l.linkNode update key value level).height a = l.height a :=
    fun a ha => congrArg SkipListNode.level (hnodes a ha)
  have hheight : (l.linkNode update key value level).height l.allocated = level :=
    congrArg SkipListNode.level hnode
  obtain ⟨hcurrent, htop⟩ := l.level_linkNode update key value level
  have hmem : ∀ {a : Nat}, a ∈ pre ++ l.allocated :: post → a = l.allocated ∨ a ∈ pre ++ post := by
    intro a ha
    rcases List.mem_append.1 ha with ha | ha
    · exact Or.inr (List.mem_append_left post ha)
    · exact (List.mem_cons.1 ha).imp id (List.mem_append_right pre)
  constructor
  · -- The pointers of the new node are null before it is linked.
    have hstacked : Stacked (l.linkNode update key value level).height head
        (l.newNode key value level).next (pre ++ post) := by
      apply h.stacked.congr hheights
      intro i a ha
      apply Function.update_of_ne
      rintro rfl
      exact hfresh ha
    have hpred : ∀ i < (l.linkNode update key value level).height l.allocated,
        (fun i => if l.currentLevel ≤ i then head else update i) i =
          lastOn (l.linkNode update key value level).height head pre i := by
      intro i _
      rw [lastOn, onLevel_congr fun a ha => hheights a (List.mem_append_left post ha), ← lastOn]
      beta_reduce
      split
      · next hle =>
          refine (lastOn_of_height_le fun a ha => ?_).symm
          exact (h.height a (List.mem_append_left post ha)).2.trans hle
      · next hlt => exact hupdate i (Nat.lt_of_not_le hlt)
    have hlink := hstacked.link h.nodup hfresh hpred
    rw [hheight] at hlink
    exact hlink
  · have hperm : (head :: (pre ++ l.allocated :: post)).Perm
        (l.allocated :: head :: (pre ++ post)) :=
      (List.perm_middle.cons head).trans (List.Perm.swap _ _ _)
    rw [hperm.nodup_iff]
    exact List.nodup_cons.2 ⟨hfresh, h.nodup⟩
  · intro a ha
    have hlt : a ≤ l.allocated := by
      rcases List.mem_cons.1 ha with rfl | ha
      · exact Nat.le_of_lt (h.taken _ List.mem_cons_self)
      · rcases hmem ha with rfl | ha
        · exact Nat.le_refl _
        · exact Nat.le_of_lt (h.taken a (List.mem_cons_of_mem head ha))
    exact Nat.lt_succ_of_le hlt
  · intro a ha
    rcases hmem ha with rfl | ha
    · rw [hheight]
      exact ⟨hlevel.1, htop⟩
    · rw [hheights a ha]
      exact ⟨(h.height a ha).1, (h.height a ha).2.trans hcurrent⟩
  · refine ⟨h.level.1.trans hcurrent, ?_⟩
    simp only [SkipList.linkNode]
    split
    · exact hlevel.2
    · exact h.level.2
  · have hsorted := List.pairwise_append.1 h.sorted
    refine List.pairwise_append.2 ⟨?_, List.pairwise_cons.2 ⟨?_, ?_⟩, ?_⟩
    · refine hsorted.1.imp_of_mem fun {a b} ha hb hab => ?_
      rw [hnodes a (List.mem_append_left post ha), hnodes b (List.mem_append_left post hb)]
      exact hab
    · intro a ha
      rw [hnode, hnodes a (List.mem_append_right pre ha)]
      exact hpost a ha
    · refine hsorted.2.1.imp_of_mem fun {a b} ha hb hab => ?_
      rw [hnodes a (List.mem_append_right pre ha), hnodes b (List.mem_append_right pre hb)]
      exact hab
    · intro a ha b hb
      rw [hnodes a (List.mem_append_left post ha)]
      rcases List.mem_cons.1 hb with rfl | hb
      · rw [hnode]
        exact hpre a ha
      · rw [hnodes b (List.mem_append_right pre hb)]
        exact hsorted.2.2 a ha b hb
  · intro a ha
    rcases hmem ha with rfl | ha
    · rw [hnode]
    · rw [hnodes a ha]
      exact h.even a ha
  · have hsize := h.size
    simp only [List.length_append, List.length_cons] at hsize ⊢
    rw [← Nat.add_assoc, ← hsize]
    rfl
  · refine Eq.trans (Function.update_of_ne ?_ _ _) h.sentinel
    exact Nat.ne_of_lt (h.taken head List.mem_cons_self)

theorem randomLevel_range (maxLevel : Nat) (draws : Nat → Bool) (fuel level : Nat)
    (h : 1 ≤ level ∧ level ≤ maxLevel) : 1 ≤ randomLevel maxLevel draws fuel level ∧
      randomLevel maxLevel draws fuel level ≤ maxLevel := by
  induction fuel generalizing level with
  | zero => exact h
  | succ fuel ih =>
      rw [randomLevel]
      split
      · next hrise =>
          rw [Bool.and_eq_true, decide_eq_true_eq] at hrise
          exact ih (level + 1) ⟨Nat.le_add_left 1 level, hrise.2⟩
      · exact h

/-- The level that an insertion gives a new node. -/
def levelOf (draws : Nat → Bool) (l : SkipList κ ν) : Nat :=
  randomLevel l.maxLevel.toNat draws l.maxLevel.toNat 1

/-- **`insert` puts a node**, whatever its level is. -/
theorem Holds.insert (h : l.Holds nodes) (draws : Nat → Bool) (key : κ) (value : ν) :
    (l.insert draws key value).Holds
        (l.funcs.putNode { key := key, value := value, level := l.levelOf draws } nodes) ∧
      (l.insert draws key value).currentSize - l.funcs.usage
          (l.funcs.putNode { key := key, value := value, level := l.levelOf draws } nodes) =
        l.currentSize - l.funcs.usage nodes := by
  obtain ⟨addrs, h, rfl⟩ := h
  cases hfind : l.findKey key with
  | some a =>
      obtain ⟨hkey, pre, post, heq, -⟩ := h.findKey_eq_some hfind
      have ha : a ∈ addrs := heq ▸ List.mem_append_right pre List.mem_cons_self
      have hany : (addrs.map l.node).any (fun m => l.funcs.compare m.key key == .eq) = true := by
        rw [List.any_map, List.any_eq_true]
        exact ⟨a, ha, beq_iff_eq.2 (l.funcs.compare_eq_iff.2 hkey)⟩
      have hput : l.funcs.putNode { key := key, value := value, level := l.levelOf draws }
          (addrs.map l.node) = l.funcs.setValue key value (addrs.map l.node) := if_pos hany
      have hinsert : l.insert draws key value = l.writeValue a (l.node a).value value := by
        rw [SkipList.insert, hfind, ← getValue_of_even (h.even a ha)]
      obtain ⟨hrepresents, hnodes, husage⟩ := h.writeValue heq hkey value
      rw [hput, hinsert]
      exact ⟨⟨addrs, hrepresents, hnodes⟩, husage⟩
  | none =>
      obtain ⟨pre, post, heq, hpre, hpost, hupdate⟩ := h.findKey_eq_none hfind
      have hlevel := randomLevel_range l.maxLevel.toNat draws l.maxLevel.toNat 1
        ⟨Nat.le_refl 1, l.maxLevel.pos⟩
      have hrepresents := h.linkNode heq hpre hpost hupdate hlevel value
      have hput : l.funcs.putNode { key := key, value := value, level := l.levelOf draws }
          (addrs.map l.node) = pre.map l.node ++
            { key := key, value := value, level := l.levelOf draws } :: post.map l.node := by
        rw [heq, List.map_append]
        apply l.funcs.putNode_append
        · exact List.forall_mem_map.2 hpre
        · exact List.forall_mem_map.2 hpost
      have hinsert : l.insert draws key value =
          l.linkNode (l.find (l.below key)).2 key value (l.levelOf draws) := by
        rw [SkipList.insert, hfind]
        rfl
      rw [hput, hinsert]
      refine ⟨⟨_, hrepresents, ?_⟩, ?_⟩
      · -- The old nodes are where they were.
        have hsame : ∀ xs : List Nat, (∀ a ∈ xs, a ∈ addrs) → xs.map
            (l.linkNode (l.find (l.below key)).2 key value (l.levelOf draws)).node =
              xs.map l.node := by
          intro xs hxs
          apply List.map_congr_left
          intro a ha
          apply Function.update_of_ne
          exact Nat.ne_of_lt (h.taken a (List.mem_cons_of_mem head (hxs a ha)))
        rw [List.map_append, List.map_cons,
          hsame pre fun a ha => heq ▸ List.mem_append_left post ha,
          hsame post fun a ha => heq ▸ List.mem_append_right pre ha]
        exact congrArg (fun n => pre.map l.node ++ n :: post.map l.node)
          (Function.update_self _ _ _)
      · rw [heq, List.map_append]
        simp only [SkipListFuncs.usage_append, SkipListFuncs.usage, SkipListNode.cost,
          SkipListNode.getValue, linkNode, Bool.false_eq_true, ↓reduceIte]
        grind

/-- The search finds the node that a lookup finds. -/
theorem Represents.lookup_eq (h : l.Represents addrs) (key : κ) :
    l.funcs.lookup (addrs.map l.node) key = (l.findKey key).map fun a => (l.node a).value := by
  cases hfind : l.findKey key with
  | some a =>
      obtain ⟨hkey, pre, post, heq, -⟩ := h.findKey_eq_some hfind
      have ha : a ∈ addrs := heq ▸ List.mem_append_right pre List.mem_cons_self
      cases hlookup : l.funcs.lookup (addrs.map l.node) key with
      | none => exact absurd hkey (l.funcs.lookup_eq_none_iff.1 hlookup _ (List.mem_map_of_mem ha))
      | some value =>
          obtain ⟨n, hn, hkey', rfl⟩ := l.funcs.mem_of_lookup hlookup
          obtain ⟨b, hb, rfl⟩ := List.mem_map.1 hn
          rw [h.key_inj hb ha (hkey'.trans hkey.symm)]
          rfl
  | none =>
      obtain ⟨pre, post, heq, hpre, hpost, -⟩ := h.findKey_eq_none hfind
      rw [Option.map_none, l.funcs.lookup_eq_none_iff, heq]
      rintro n hn hkey
      obtain ⟨a, ha, rfl⟩ := List.mem_map.1 hn
      rcases List.mem_append.1 ha with ha | ha
      · have hlt := hpre a ha
        rw [l.funcs.compare_eq_iff.2 hkey] at hlt
        cases hlt
      · have hlt := hpost a ha
        rw [l.funcs.compare_eq_iff.2 hkey.symm] at hlt
        cases hlt

/-- **`get` is the lookup.** -/
theorem Holds.get (h : l.Holds nodes) (key : κ) : l.get key =
    match l.funcs.lookup nodes key with
    | some value => .ok value
    | none => .error "Key not found" := by
  obtain ⟨addrs, h, rfl⟩ := h
  rw [SkipList.get, h.lookup_eq]
  cases hfind : l.findKey key with
  | none => rfl
  | some a =>
      obtain ⟨-, pre, post, heq, -⟩ := h.findKey_eq_some hfind
      have heven := h.even a (heq ▸ List.mem_append_right pre List.mem_cons_self)
      simp only [getValue_of_even heven, Option.map_some]

theorem Holds.handleValue_of_none {ε : Type} (h : l.Holds nodes)
    (hnone : l.funcs.lookup nodes key = none) (valueHandle : SkipListCallback ν ε) :
    l.handleValue key valueHandle = (l, .error (.outOfRange "Key not found")) := by
  obtain ⟨addrs, h, rfl⟩ := h
  rw [h.lookup_eq, Option.map_eq_none_iff] at hnone
  rw [SkipList.handleValue, hnone]

/-- **A callback that returns writes the value of the node.** -/
theorem Holds.handleValue {ε : Type} (h : l.Holds nodes) {old value : ν}
    (hsome : l.funcs.lookup nodes key = some old) {valueHandle : SkipListCallback ν ε}
    (hreturns : valueHandle old = (value, none)) :
    (l.handleValue key valueHandle).2 = .ok old ∧
      (l.handleValue key valueHandle).1.Holds (l.funcs.setValue key value nodes) ∧
      (l.handleValue key valueHandle).1.currentSize -
          l.funcs.usage (l.funcs.setValue key value nodes) =
        l.currentSize - l.funcs.usage nodes := by
  obtain ⟨addrs, h, rfl⟩ := h
  rw [h.lookup_eq, Option.map_eq_some_iff] at hsome
  obtain ⟨a, hfind, rfl⟩ := hsome
  obtain ⟨hkey, pre, post, heq, -⟩ := h.findKey_eq_some hfind
  have hhandle : l.handleValue key valueHandle =
      (l.writeValue a (l.node a).value value, .ok (l.node a).value) := by
    rw [SkipList.handleValue, hfind]
    simp only [hreturns]
  obtain ⟨hrepresents, hnodes, husage⟩ := h.writeValue heq hkey value
  rw [hhandle]
  exact ⟨rfl, ⟨addrs, hrepresents, hnodes⟩, husage⟩

end Insertion

section Removal

/-- A node is taken out; the level stays for now. -/
theorem Represents.unlinkNode {pre post : List Nat} {a : Nat} {update : Nat → Nat}
    (h : l.Represents (pre ++ a :: post))
    (hupdate : ∀ i < l.currentLevel, update i = lastOn l.height head pre i) :
    (l.unlinkNode update a).Represents (pre ++ post) := by
  have hsub : (pre ++ post).Sublist (pre ++ a :: post) :=
    (List.sublist_cons_self a post).append_left pre
  have hmem : a ∈ pre ++ a :: post := List.mem_append_right pre List.mem_cons_self
  constructor
  · exact h.stacked.unlink h.nodup (h.height a hmem).2 hupdate
  · exact h.nodup.sublist (hsub.cons_cons head)
  · exact fun b hb => h.taken b ((hsub.cons_cons head).subset hb)
  · exact fun b hb => h.height b (hsub.subset hb)
  · exact h.level
  · exact h.sorted.sublist hsub
  · exact fun b hb => h.even b (hsub.subset hb)
  · have hsize := h.size
    rw [List.length_append, List.length_cons, ← Nat.add_assoc, ← List.length_append] at hsize
    simp only [SkipList.unlinkNode, hsize]
    rfl
  · exact h.sentinel

/-- The loop lowers the level as far as no node is above it. -/
theorem lowerLevel_spec {height : Nat → Nat} {next : Nat → Nat → Option Nat}
    (h : Stacked height head next addrs) (level : Nat) (hlevel : 1 ≤ level)
    (hheight : ∀ a ∈ addrs, height a ≤ level) :
    1 ≤ lowerLevel next level ∧ lowerLevel next level ≤ level ∧
      ∀ a ∈ addrs, height a ≤ lowerLevel next level := by
  induction level with
  | zero => exact absurd hlevel (Nat.not_succ_le_zero 0)
  | succ level ih =>
      cases level with
      | zero => exact ⟨Nat.le_refl 1, Nat.le_refl 1, hheight⟩
      | succ level =>
          rw [lowerLevel]
          split
          · next hnone =>
              -- The pointer of the head is null, so the level has no nodes.
              have hhead := (h (level + 1)).next_head
              rw [hnone, eq_comm, List.head?_eq_none_iff, onLevel, List.filter_eq_nil_iff] at hhead
              obtain ⟨hpos, hle, hall⟩ := ih (Nat.le_add_left 1 level) fun a ha => by
                have hnot := hhead a ha
                rw [decide_eq_true_eq] at hnot
                omega
              exact ⟨hpos, Nat.le_succ_of_le hle, hall⟩
          · exact ⟨hlevel, Nat.le_refl _, hheight⟩

theorem Represents.afterRemoval (h : l.Represents addrs) (subSize : UInt64) :
    (l.afterRemoval subSize).Represents addrs := by
  obtain ⟨hpos, hle, hall⟩ := lowerLevel_spec h.stacked l.currentLevel h.level.1
    fun a ha => (h.height a ha).2
  constructor
  · exact h.stacked
  · exact h.nodup
  · exact h.taken
  · exact fun a ha => ⟨(h.height a ha).1, hall a ha⟩
  · exact ⟨hpos, hle.trans h.level.2⟩
  · exact h.sorted
  · exact h.even
  · exact h.size
  · exact h.sentinel

/-- **`remove` takes the node with the key out**, if there is one. -/
theorem Holds.remove (h : l.Holds nodes) (key : κ) :
    (l.remove key).1 = (l.funcs.lookup nodes key).isSome ∧
      (l.remove key).2.Holds (l.funcs.without key nodes) ∧
      (l.remove key).2.currentSize - l.funcs.usage (l.funcs.without key nodes) =
        l.currentSize - l.funcs.usage nodes := by
  obtain ⟨addrs, h, rfl⟩ := h
  rw [h.lookup_eq, SkipList.remove]
  cases hfind : l.findKey key with
  | none =>
      have hlookup := h.lookup_eq key
      rw [hfind, Option.map_none, l.funcs.lookup_eq_none_iff] at hlookup
      have hsame : l.funcs.without key (addrs.map l.node) = addrs.map l.node := by
        rw [SkipListFuncs.without, List.filter_eq_self]
        intro n hn
        have hne := hlookup n hn
        simpa only [Bool.not_eq_true', beq_eq_false_iff_ne, ne_eq, l.funcs.compare_eq_iff] using hne
      rw [hsame]
      exact ⟨rfl, ⟨addrs, h, rfl⟩, rfl⟩
  | some a =>
      obtain ⟨hkey, pre, post, heq, hupdate⟩ := h.findKey_eq_some hfind
      subst heq
      have hself : l.funcs.compare (l.node a).key key = .eq := l.funcs.compare_eq_iff.2 hkey
      have hnodup := (List.nodup_cons.1 h.nodup).2
      -- keys are unique, so the filter takes out this node and no other
      have hother : ∀ b ∈ pre ++ post, l.funcs.compare (l.node b).key key ≠ .eq := by
        intro b hb heq
        rw [← hkey, l.funcs.compare_eq_iff] at heq
        have hb' : b ∈ pre ++ a :: post :=
          ((List.sublist_cons_self a post).append_left pre).subset hb
        have hab := h.key_inj hb' (List.mem_append_right pre List.mem_cons_self) heq
        rw [List.nodup_middle] at hnodup
        exact (List.nodup_cons.1 hnodup).1 (hab ▸ hb)
      have hkeep : ∀ xs : List Nat, (∀ b ∈ xs, b ∈ pre ++ post) →
          l.funcs.without key (xs.map l.node) = xs.map l.node := by
        intro xs hxs
        rw [SkipListFuncs.without, List.filter_eq_self]
        rintro n hn
        obtain ⟨b, hb, rfl⟩ := List.mem_map.1 hn
        have hne := hother b (hxs b hb)
        simpa only [Bool.not_eq_true', beq_eq_false_iff_ne, ne_eq] using hne
      have hwithout : l.funcs.without key ((pre ++ a :: post).map l.node) =
          (pre ++ post).map l.node := by
        have hpre := hkeep pre fun b hb => List.mem_append_left post hb
        have hpost := hkeep post fun b hb => List.mem_append_right pre hb
        rw [SkipListFuncs.without] at hpre hpost ⊢
        rw [List.map_append, List.map_cons, List.filter_append, List.filter_cons_of_neg, hpre, hpost,
          List.map_append]
        rw [hself]
        decide
      rw [hwithout]
      refine ⟨rfl, ⟨pre ++ post, (h.unlinkNode hupdate).afterRemoval _, rfl⟩, ?_⟩
      simp only [List.map_append, List.map_cons, SkipListFuncs.usage_append, SkipListFuncs.usage,
        SkipList.afterRemoval, SkipList.unlinkNode]
      grind

/-- The deletion loop takes the nodes up to the maximum out and adds up what they cost. -/
theorem removeLoop_spec {pre : List Nat} {update : Nat → Nat} (maxKey : κ) :
    ∀ (fuel : Nat) (post : List Nat) (l : SkipList κ ν) (count : Nat) (sub : UInt64),
      l.Represents (pre ++ post) →
      (∀ i < l.currentLevel, update i = lastOn l.height head pre i) → post.length ≤ fuel →
      ∃ next size, removeLoop update maxKey fuel post.head? (l, count, sub) =
          ({ l with next := next, size := size },
            count + (post.takeWhile fun a => l.upTo maxKey (l.node a).key).length,
            sub + l.funcs.usage
              ((post.takeWhile fun a => l.upTo maxKey (l.node a).key).map l.node)) ∧
        ({ l with next := next, size := size } : SkipList κ ν).Represents
          (pre ++ post.dropWhile fun a => l.upTo maxKey (l.node a).key) := by
  intro fuel
  induction fuel with
  | zero =>
      intro post l count sub h hupdate hfuel
      obtain rfl := List.length_eq_zero_iff.1 (Nat.le_zero.1 hfuel)
      refine ⟨l.next, l.size, ?_, h⟩
      exact Prod.ext rfl (Prod.ext rfl (UInt64.add_zero sub).symm)
  | succ fuel ih =>
      intro post l count sub h hupdate hfuel
      cases post with
      | nil =>
          refine ⟨l.next, l.size, ?_, h⟩
          exact Prod.ext rfl (Prod.ext rfl (UInt64.add_zero sub).symm)
      | cons a post =>
          rw [List.head?_cons, removeLoop, List.takeWhile_cons, List.dropWhile_cons]
          cases hup : l.upTo maxKey (l.node a).key with
          | false =>
              simp only [Bool.false_eq_true, ↓reduceIte, List.length_nil, List.map_nil,
                SkipListFuncs.usage]
              refine ⟨l.next, l.size, ?_, h⟩
              exact Prod.ext rfl (Prod.ext rfl (UInt64.add_zero sub).symm)
          | true =>
              -- The next node is read before the pointers of this one are taken over.
              have hnext : l.next 0 a = post.head? := by
                have hzero := h.next_zero (List.append_cons pre a post)
                rwa [List.getLastD_concat] at hzero
              obtain ⟨next, size, hloop, hrepresents⟩ := ih post (l.unlinkNode update a)
                (count + 1) (sub + (l.node a).cost l.funcs) (h.unlinkNode hupdate) hupdate
                (Nat.le_of_succ_le_succ hfuel)
              refine ⟨next, size, ?_, hrepresents⟩
              simp only [↓reduceIte, hnext]
              refine hloop.trans (Prod.ext rfl (Prod.ext ?_ ?_))
              · rw [List.length_cons]
                exact Nat.add_right_comm count 1 _
              · exact UInt64.add_assoc sub _ _

theorem inRange_iff {minKey maxKey k : κ} : l.funcs.inRange minKey maxKey k =
    (!(l.below minKey k) && l.upTo maxKey k) := by
  have hswap : l.funcs.compare minKey k = (l.funcs.compare k minKey).swap := Std.OrientedCmp.eq_swap
  rw [SkipListFuncs.inRange, below, upTo, hswap]
  cases l.funcs.compare k minKey <;> rfl

/-- **`remove_range_by_key` takes the nodes between the bounds out**, unless `operator>` finds them
in the wrong order. -/
theorem Holds.removeRangeByKey (h : l.Holds nodes) {minKey maxKey : κ}
    (hguard : l.funcs.greater minKey maxKey = false) :
    (l.removeRangeByKey minKey maxKey).1 =
        (nodes.filter fun n => l.funcs.inRange minKey maxKey n.key).length ∧
      (l.removeRangeByKey minKey maxKey).2.Holds
        (nodes.filter fun n => !l.funcs.inRange minKey maxKey n.key) ∧
      (l.removeRangeByKey minKey maxKey).2.currentSize -
          l.funcs.usage (nodes.filter fun n => !l.funcs.inRange minKey maxKey n.key) =
        l.currentSize - l.funcs.usage nodes := by
  obtain ⟨addrs, h, rfl⟩ := h
  obtain ⟨pre, post, rfl, hpre, hpost, hnext, hupdate⟩ := h.find_below minKey
  have hfuel : post.length ≤ l.allocated := by
    have hlt := h.length_lt
    rw [List.length_append] at hlt
    omega
  obtain ⟨next, size, hloop, hrepresents⟩ :=
    removeLoop_spec maxKey l.allocated post l 0 0 h hupdate hfuel
  have hclosed : post.Pairwise fun a b =>
      l.upTo maxKey (l.node b).key = true → l.upTo maxKey (l.node a).key = true :=
    (List.pairwise_append.1 h.sorted).2.1.imp fun {a b} hab => upTo_of_lt hab
  obtain ⟨htake, hdrop⟩ := takeWhile_eq_filter hclosed
  -- Before the place no key is in the range, and from it on the maximum decides.
  have hpre' : ∀ a ∈ pre, l.funcs.inRange minKey maxKey (l.node a).key = false := by
    intro a ha
    rw [inRange_iff, below, hpre a ha]
    rfl
  have hpost' : ∀ a ∈ post, l.funcs.inRange minKey maxKey (l.node a).key =
      l.upTo maxKey (l.node a).key := by
    intro a ha
    rw [inRange_iff, below, beq_eq_false_iff_ne.2 (hpost a ha)]
    rfl
  have hin : ((pre ++ post).map l.node).filter (fun n => l.funcs.inRange minKey maxKey n.key) =
      (post.takeWhile fun a => l.upTo maxKey (l.node a).key).map l.node := by
    rw [List.filter_map, List.filter_append, htake, List.filter_eq_nil_iff.2 fun a ha => ?_,
      List.nil_append]
    · exact congrArg _ (List.filter_congr hpost')
    · exact Bool.eq_false_iff.1 (hpre' a ha)
  have hout : ((pre ++ post).map l.node).filter (fun n => !l.funcs.inRange minKey maxKey n.key) =
      (pre ++ post.dropWhile fun a => l.upTo maxKey (l.node a).key).map l.node := by
    rw [List.filter_map, List.filter_append, hdrop, List.filter_eq_self.2 fun a ha => ?_]
    · refine congrArg (fun xs => List.map l.node (pre ++ xs)) (List.filter_congr fun a ha => ?_)
      exact congrArg (!·) (hpost' a ha)
    · rw [Function.comp_apply, hpre' a ha]
      rfl
  have husage : l.funcs.usage ((pre ++ post).map l.node) =
      l.funcs.usage ((post.takeWhile fun a => l.upTo maxKey (l.node a).key).map l.node) +
        l.funcs.usage ((pre ++ post.dropWhile fun a => l.upTo maxKey (l.node a).key).map l.node) := by
    have hsplit := List.takeWhile_append_dropWhile
      (p := fun a => l.upTo maxKey (l.node a).key) (l := post)
    nth_rewrite 1 [← hsplit]
    simp only [List.map_append, SkipListFuncs.usage_append]
    grind
  have hrun : l.removeRangeByKey minKey maxKey =
      (0 + (post.takeWhile fun a => l.upTo maxKey (l.node a).key).length,
        SkipList.afterRemoval (0 + l.funcs.usage
          ((post.takeWhile fun a => l.upTo maxKey (l.node a).key).map l.node))
            { l with next := next, size := size }) := by
    simp only [SkipList.removeRangeByKey, hguard, Bool.false_eq_true, ↓reduceIte, hnext, hloop]
  rw [hrun, hin, hout, List.length_map, Nat.zero_add, UInt64.zero_add]
  refine ⟨rfl, ⟨_, hrepresents.afterRemoval _, rfl⟩, ?_⟩
  rw [husage]
  simp only [SkipList.afterRemoval]
  grind

theorem holds_create (f : SkipListFuncs κ ν) (maxLevel : MaxLevel) :
    (create f maxLevel).Holds [] := by
  refine ⟨[], ?_, rfl⟩
  constructor
  · exact fun i => rfl
  · exact List.nodup_singleton _
  · exact fun a ha => List.mem_singleton.1 ha ▸ Nat.zero_lt_one
  · exact fun a ha => absurd ha List.not_mem_nil
  · exact ⟨Nat.le_refl 1, maxLevel.pos⟩
  · exact List.Pairwise.nil
  · exact fun a ha => absurd ha List.not_mem_nil
  · rfl
  · rfl

/-- **`clear` leaves the list as the constructor makes it.** -/
theorem Holds.clear (h : l.Holds nodes) :
    l.clear.Holds [] ∧ l.clear.currentSize = baseSize l.funcs l.maxLevel := by
  obtain ⟨addrs, h, -⟩ := h
  refine ⟨⟨[], ?_, rfl⟩, rfl⟩
  constructor
  · intro i
    change (if i < l.maxLevel.toNat then Function.update (l.next i) head none else l.next i) head =
      none
    split
    · exact Function.update_self _ _ _
    · next hi =>
        have hnone := (h.stacked i).next_head
        rwa [onLevel_eq_nil fun a ha => (h.height a ha).2.trans
          (h.level.2.trans (Nat.le_of_not_lt hi))] at hnone
  · exact List.nodup_singleton _
  · exact fun a ha => h.taken a (List.mem_singleton.1 ha ▸ List.mem_cons_self)
  · exact fun a ha => absurd ha List.not_mem_nil
  · exact ⟨Nat.le_refl 1, l.maxLevel.pos⟩
  · exact List.Pairwise.nil
  · exact fun a ha => absurd ha List.not_mem_nil
  · rfl
  · exact h.sentinel

end Removal

section Reading

/-- What the nodes are in key order. -/
structure Valid (f : SkipListFuncs κ ν) (currentLevel : Nat) (nodes : List (SkipListNode κ ν)) :
    Prop where
  sorted : nodes.Pairwise fun m n => f.compare m.key n.key = .lt
  level : ∀ n ∈ nodes, 1 ≤ n.level ∧ n.level ≤ currentLevel
  even : ∀ n ∈ nodes, n.odd = false

/-- A node is what the lookup of its key finds. -/
theorem Valid.lookup_eq {f : SkipListFuncs κ ν} {currentLevel : Nat}
    (h : Valid f currentLevel nodes) {n : SkipListNode κ ν} (hn : n ∈ nodes) :
    f.lookup nodes n.key = some n.value := by
  obtain ⟨ns, ms, rfl⟩ := List.append_of_mem hn
  have hns : f.lookup ns n.key = none := by
    rw [f.lookup_eq_none_iff]
    intro m hm heq
    have hlt := (List.pairwise_append.1 h.sorted).2.2 m hm n List.mem_cons_self
    rw [f.compare_eq_iff.2 heq] at hlt
    cases hlt
  rw [f.lookup_append, hns, f.lookup_cons, if_pos (f.compare_eq_iff.2 rfl)]
  rfl

theorem Holds.valid (h : l.Holds nodes) : Valid l.funcs l.currentLevel nodes := by
  obtain ⟨addrs, h, rfl⟩ := h
  constructor
  · exact List.pairwise_map.2 h.sorted
  · exact List.forall_mem_map.2 h.height
  · exact List.forall_mem_map.2 h.even

theorem Represents.entries_eq (h : l.Represents addrs) {xs : List Nat} (hxs : ∀ a ∈ xs, a ∈ addrs) :
    xs.map l.entry = (xs.map l.node).map fun n => (n.key, n.value) := by
  rw [List.map_map]
  apply List.map_congr_left
  intro a ha
  rw [entry, getValue_of_even (h.even a (hxs a ha))]
  rfl

/-- **`get_all_entries` lists the nodes.** -/
theorem Holds.getAllEntries (h : l.Holds nodes) :
    l.getAllEntries = nodes.map fun n => (n.key, n.value) := by
  obtain ⟨addrs, h, rfl⟩ := h
  rw [SkipList.getAllEntries, h.nodesOn_zero, h.entries_eq fun _ ha => ha]

theorem Holds.size (h : l.Holds nodes) : l.size = nodes.length := by
  obtain ⟨addrs, h, rfl⟩ := h
  rw [List.length_map, h.size]

/-- On each level the nodes are those that are high enough. -/
theorem Holds.nodesOn (h : l.Holds nodes) (i : Nat) :
    (l.nodesOn i).map l.node = nodes.filter fun n => decide (i < n.level) := by
  obtain ⟨addrs, h, rfl⟩ := h
  rw [h.nodesOn_eq, List.filter_map]
  rfl

theorem Represents.walk_eq (h : l.Represents addrs) (p : Nat → Bool) :
    walk (l.next 0) p l.allocated (l.next 0 head) =
      (addrs.takeWhile p, (addrs.dropWhile p).head?) := by
  have hchain := h.stacked 0
  rw [onLevel_zero fun a ha => (h.height a ha).1] at hchain
  exact hchain.walk_eq (Nat.le_of_lt h.length_lt)

/-- **`rank` is the number of the smaller keys**, when the key is there. -/
theorem Holds.rank (h : l.Holds nodes) (key : κ) : l.rank key = (l.funcs.lookup nodes key).map
    fun _ => (nodes.filter fun n => l.funcs.compare n.key key == .lt).length := by
  obtain ⟨addrs, h, rfl⟩ := h
  have hclosed : ∀ k k', l.funcs.compare k k' = .lt → l.below key k' = true →
      l.below key k = true := fun k k' => below_of_lt
  -- The walk ends at the node that the search for the key ends at.
  have hnext := h.next_zero (List.takeWhile_append_dropWhile
    (p := fun a => l.below key (l.node a).key) (l := addrs)).symm
  rw [← (h.find_eq hclosed).1] at hnext
  have hsorted : addrs.Pairwise fun a b => l.below key (l.node b).key = true →
      l.below key (l.node a).key = true := h.sorted.imp fun {a b} hab => below_of_lt hab
  rw [h.lookup_eq, Option.map_map, findKey, hnext, SkipList.rank, h.walk_eq, List.filter_map,
    List.length_map, (takeWhile_eq_filter hsorted).1]
  cases (addrs.dropWhile fun a => l.below key (l.node a).key).head? with
  | none => rfl
  | some a =>
      cases hcmp : l.funcs.compare (l.node a).key key <;>
        simp [hcmp, Option.filter, below, Function.comp_def]

theorem rankLoop_eq (startRank endRank : Nat) (es : List (κ × ν)) (index : Nat) :
    rankLoop startRank endRank es index =
      (es.take (endRank + 1 - index)).drop (startRank - index) := by
  induction es generalizing index with
  | nil => rw [List.take_nil, List.drop_nil]; rfl
  | cons e es ih =>
      rw [rankLoop, ih]
      split
      · next hle =>
          rw [show endRank + 1 - index = endRank + 1 - (index + 1) + 1 by omega, List.take_succ_cons]
          split
          · next hstart =>
              rw [show startRank - index = 0 by omega, List.drop_zero,
                show startRank - (index + 1) = 0 by omega, List.drop_zero]
          · next hstart =>
              rw [show startRank - index = startRank - (index + 1) + 1 by omega,
                List.drop_succ_cons]
      · next hlt =>
          rw [show endRank + 1 - index = 0 by omega, List.take_zero, List.drop_nil]

/-- **`range_by_rank` lists the nodes at the ranks.** -/
theorem Holds.rangeByRank (h : l.Holds nodes) {startRank endRank : Nat}
    (hle : startRank ≤ endRank) : l.rangeByRank startRank endRank =
      ((nodes.take (endRank + 1)).drop startRank).map fun n => (n.key, n.value) := by
  have hentries := h.getAllEntries
  rw [SkipList.getAllEntries] at hentries
  rw [SkipList.rangeByRank, if_neg (Nat.not_lt_of_le hle), hentries, rankLoop_eq, Nat.sub_zero,
    Nat.sub_zero, ← List.map_take, ← List.map_drop]

end Reading

end SkipList

end EyaKV.Common
