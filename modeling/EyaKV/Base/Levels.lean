import Mathlib.Logic.Function.Basic

/-!
# Nodes linked on several levels

A head, numbered 0, and nodes numbered from 1 on, each of which is on the levels below its height;
the head is on all of them. `IsNext` says which node follows another one on a level: the next one
that is on it. The links can be made in one pass that keeps the last node of every level
(`Linking.add`), and what the pass has made are the links of `IsNext` (`linked_build`). Along a
level the links lead through the nodes that are high enough, in their order (`Linked.along_eq`).
-/

set_option autoImplicit false

namespace EyaKV.Base.Levels

/-- The node is on the level. -/
def OnLevel (heights : List Nat) (j : Nat) : Nat → Prop
  | 0 => True
  | k + 1 => ∃ h, heights[k]? = some h ∧ j < h

instance (heights : List Nat) (j : Nat) : DecidablePred (OnLevel heights j)
  | 0 => isTrue trivial
  | k + 1 => decidable_of_iff ((heights[k]?).any (decide <| j < ·) = true) (by
      rw [Option.any_eq_true]
      simp only [OnLevel, decide_eq_true_eq])

/-- `m` follows `n` on the level. -/
def IsNext (heights : List Nat) (n j m : Nat) : Prop :=
  OnLevel heights j n ∧ OnLevel heights j m ∧ n < m ∧
    ∀ k, n < k → k < m → ¬ OnLevel heights j k

/-- No node follows `n` on the level. -/
def IsLast (heights : List Nat) (j n : Nat) : Prop :=
  OnLevel heights j n ∧ ∀ k, n < k → ¬ OnLevel heights j k

/-- A pointer on every level of every node: to the node that follows, if there is one. -/
def Linked (heights : List Nat) (next : Nat → Nat → Option Nat) : Prop :=
  ∀ n j m, next n j = some m ↔ IsNext heights n j m

/-- The links that have been made, and the last node of every level. -/
structure Linking where
  next : Nat → Nat → Option Nat
  last : Nat → Nat

namespace Linking

/-- Only the head. -/
def empty : Linking := ⟨fun _ _ => none, fun _ => 0⟩

/-- The node becomes the last one of a level. -/
def addLevel (node : Nat) (s : Linking) (j : Nat) : Linking where
  next := fun n i => if n = s.last j ∧ i = j then some node else s.next n i
  last := Function.update s.last j node

/-- The node becomes the last one of the levels below its height. -/
def add (s : Linking) (node height : Nat) : Linking :=
  (List.range height).foldl (addLevel node) s

/-- The nodes of the heights one after the other, numbered from `node` on. -/
def build : Nat → List Nat → Linking → Linking
  | _, [], s => s
  | node, height :: heights, s => build (node + 1) heights (s.add node height)

end Linking

section Facts

variable {heights : List Nat} {j n m k : Nat}

theorem OnLevel.le (h : OnLevel heights j k) : k ≤ heights.length := by
  cases k with
  | zero => exact Nat.zero_le _
  | succ k =>
      obtain ⟨height, hheight, -⟩ := h
      exact (List.getElem?_eq_some_iff.1 hheight).1

theorem onLevel_concat (height : Nat) : OnLevel (heights ++ [height]) j k ↔
    OnLevel heights j k ∨ (k = heights.length + 1 ∧ j < height) := by
  cases k with
  | zero => exact iff_of_true trivial (Or.inl trivial)
  | succ k =>
      simp only [OnLevel, Nat.add_right_cancel_iff]
      rcases Nat.lt_trichotomy k heights.length with hlt | rfl | hgt
      · rw [List.getElem?_append_left hlt]
        constructor
        · exact Or.inl
        · rintro (h | h)
          · exact h
          · omega
      · rw [List.getElem?_concat_length, List.getElem?_eq_none (Nat.le_refl _)]
        constructor
        · rintro ⟨h, heq, hlt⟩
          exact Or.inr ⟨rfl, Option.some.inj heq ▸ hlt⟩
        · rintro (⟨h, heq, -⟩ | ⟨-, hlt⟩)
          · cases heq
          · exact ⟨height, rfl, hlt⟩
      · rw [List.getElem?_eq_none (by rw [List.length_append, List.length_singleton]; omega)]
        constructor
        · rintro ⟨h, heq, -⟩
          cases heq
        · rintro (h | h)
          · have hle := OnLevel.le (k := k + 1) h
            omega
          · omega

theorem IsLast.unique (h : IsLast heights j n) (h' : IsLast heights j m) : n = m := by
  rcases Nat.lt_trichotomy n m with hlt | heq | hgt
  · exact absurd h'.1 (h.2 m hlt)
  · exact heq
  · exact absurd h.1 (h'.2 n hgt)

theorem IsNext.unique (h : IsNext heights n j m) (h' : IsNext heights n j k) : m = k := by
  obtain ⟨-, hm, hlt, hbetween⟩ := h
  obtain ⟨-, hk, hlt', hbetween'⟩ := h'
  rcases Nat.lt_trichotomy m k with hmk | heq | hkm
  · exact absurd hm (hbetween' m hlt hmk)
  · exact heq
  · exact absurd hk (hbetween k hlt' hkm)

/-- The links are determined by the heights. -/
theorem Linked.unique {next next' : Nat → Nat → Option Nat} (h : Linked heights next)
    (h' : Linked heights next') : next = next' := by
  funext n i
  refine Option.ext fun a => ?_
  exact (h n i a).trans (h' n i a).symm

/-- A new node follows the last node of each level that it is on. -/
theorem isNext_concat {height l : Nat} (hlast : IsLast heights j l) :
    IsNext (heights ++ [height]) n j m ↔ if j < height ∧ n = l then m = heights.length + 1
      else IsNext heights n j m := by
  have hle := hlast.1.le
  by_cases hj : j < height
  · by_cases hn : n = l
    · rw [if_pos ⟨hj, hn⟩, hn]
      constructor
      · rintro ⟨-, hm, hlt, -⟩
        rcases (onLevel_concat height).1 hm with hm | ⟨hm, -⟩
        · exact absurd hm (hlast.2 m hlt)
        · exact hm
      · rintro rfl
        refine ⟨(onLevel_concat height).2 (Or.inl hlast.1),
          (onLevel_concat height).2 (Or.inr ⟨rfl, hj⟩), Nat.lt_succ_of_le hle, fun k hlk hk => ?_⟩
        intro hon
        rcases (onLevel_concat height).1 hon with hon | ⟨rfl, -⟩
        · exact hlast.2 k hlk hon
        · exact Nat.lt_irrefl _ hk
    · rw [if_neg fun h => hn h.2]
      simp only [IsNext, onLevel_concat, hj, and_true]
      constructor
      · rintro ⟨hon | rfl, hm | rfl, hlt, hbetween⟩
        · exact ⟨hon, hm, hlt, fun k hk hkm h => hbetween k hk hkm (Or.inl h)⟩
        · -- The last node of the level would lie between `n` and the new one.
          have hnl : n < l := by
            rcases Nat.lt_trichotomy n l with h | h | h
            · exact h
            · exact absurd h hn
            · exact absurd hon (hlast.2 n h)
          exact absurd (Or.inl hlast.1) (hbetween l hnl (Nat.lt_succ_of_le hle))
        · have hm := hm.le
          omega
        · omega
      · rintro ⟨hon, hm, hlt, hbetween⟩
        refine ⟨Or.inl hon, Or.inl hm, hlt, fun k hk hkm h => ?_⟩
        rcases h with h | rfl
        · exact hbetween k hk hkm h
        · have hm := hm.le
          omega
  · simp only [IsNext, onLevel_concat, hj, and_false, or_false, false_and, ↓reduceIte]

theorem isLast_concat {height l : Nat} (hlast : IsLast heights j l) :
    IsLast (heights ++ [height]) j (if j < height then heights.length + 1 else l) := by
  have hle := hlast.1.le
  by_cases hj : j < height
  · rw [if_pos hj]
    refine ⟨(onLevel_concat height).2 (Or.inr ⟨rfl, hj⟩), fun k hk hon => ?_⟩
    have hk' := hon.le
    rw [List.length_append, List.length_singleton] at hk'
    omega
  · rw [if_neg hj]
    simp only [IsLast, onLevel_concat, hj, and_false, or_false]
    exact hlast

end Facts

namespace Linking

/-- What adding a node changes. -/
theorem add_spec (s : Linking) (node height : Nat) :
    (∀ n j, (s.add node height).next n j =
      if j < height ∧ n = s.last j then some node else s.next n j) ∧
    ∀ j, (s.add node height).last j = if j < height then node else s.last j := by
  induction height with
  | zero => exact ⟨fun n j => (if_neg fun h => absurd h.1 (Nat.not_lt_zero j)).symm,
      fun j => (if_neg (Nat.not_lt_zero j)).symm⟩
  | succ height ih =>
      obtain ⟨hnext, hlast⟩ := ih
      have hsucc : s.add node (height + 1) = addLevel node (s.add node height) height := by
        rw [add, List.range_succ, List.foldl_append]
        rfl
      rw [hsucc]
      have hat : (s.add node height).last height = s.last height := by
        rw [hlast, if_neg (Nat.lt_irrefl height)]
      constructor
      · intro n j
        simp only [addLevel, hat, hnext]
        by_cases hj : j = height
        · subst hj
          simp only [and_true, Nat.lt_irrefl, false_and, ↓reduceIte, Nat.lt_succ_self, true_and]
        · have hiff : j < height + 1 ↔ j < height := by omega
          simp only [hj, and_false, ↓reduceIte, hiff]
      · intro j
        simp only [addLevel]
        by_cases hj : j = height
        · subst hj
          rw [Function.update_self, if_pos (Nat.lt_succ_self j)]
        · have hiff : j < height + 1 ↔ j < height := by omega
          rw [Function.update_of_ne hj, hlast]
          simp only [hiff]

/-- The links of the nodes so far, and their last ones. -/
def Right (heights : List Nat) (s : Linking) : Prop :=
  Linked heights s.next ∧ ∀ j, IsLast heights j (s.last j)

theorem right_empty : Right [] empty := by
  have hon : ∀ j k, OnLevel [] j k → k = 0 := fun j k h => Nat.le_zero.1 h.le
  constructor
  · intro n j m
    refine iff_of_false nofun ?_
    rintro ⟨-, hm, hlt, -⟩
    rw [hon j m hm] at hlt
    exact Nat.not_lt_zero n hlt
  · intro j
    refine ⟨trivial, fun k hk h => ?_⟩
    rw [hon j k h] at hk
    exact Nat.lt_irrefl 0 hk

theorem Right.add {heights : List Nat} {s : Linking} (h : Right heights s) (height : Nat) :
    Right (heights ++ [height]) (s.add (heights.length + 1) height) := by
  obtain ⟨hnext, hlast⟩ := add_spec s (heights.length + 1) height
  refine ⟨fun n j m => ?_, fun j => ?_⟩
  · rw [hnext, isNext_concat (h.2 j)]
    split
    · rw [Option.some.injEq]
      exact eq_comm
    · exact h.1 n j m
  · rw [hlast]
    exact isLast_concat (h.2 j)

theorem Right.build {heights : List Nat} {s : Linking} (h : Right heights s) (more : List Nat) :
    Right (heights ++ more) (build (heights.length + 1) more s) := by
  induction more generalizing heights s with
  | nil =>
      rw [List.append_nil]
      exact h
  | cons height more ih =>
      have hadd := ih (h.add height)
      rw [List.append_assoc, List.length_append] at hadd
      exact hadd

end Linking

/-- **One pass makes the links of all nodes.** -/
theorem linked_build (heights : List Nat) :
    Linked heights (Linking.build 1 heights Linking.empty).next :=
  (Linking.right_empty.build heights).1

section Walks

/-- The nodes that the pointers of a level lead to, at most `fuel` of them. -/
def walk (next : Nat → Nat → Option Nat) (j : Nat) : Nat → Nat → List Nat
  | 0, _ => []
  | fuel + 1, n =>
      match next n j with
      | none => []
      | some m => m :: walk next j fuel m

variable {heights : List Nat} {next : Nat → Nat → Option Nat} {j : Nat}

/-- A walk from a node on goes through the later nodes of the level, in their order. -/
theorem Linked.walk_eq (h : Linked heights next) (fuel n : Nat) (hon : OnLevel heights j n)
    (hfuel : heights.length ≤ n + fuel) : walk next j fuel n =
      (List.range' (n + 1) (heights.length - n)).filter fun k => decide (OnLevel heights j k) := by
  -- The induction is on the number of later nodes; those that are not on the level are skipped.
  suffices hskip : ∀ count n k fuel, OnLevel heights j n → n ≤ k → k + count = heights.length →
      (∀ i, n < i → i ≤ k → ¬ OnLevel heights j i) → count ≤ fuel →
      walk next j fuel n =
        (List.range' (k + 1) count).filter fun k => decide (OnLevel heights j k) by
    have hle := hon.le
    exact hskip (heights.length - n) n n fuel hon (Nat.le_refl n) (by omega) (by omega) (by omega)
  intro count
  induction count with
  | zero =>
      intro n k fuel hon hnk hlen hnone hfuel
      have hnext : next n j = none := by
        refine Option.eq_none_iff_forall_ne_some.2 fun m hm => ?_
        obtain ⟨-, hm, hlt, -⟩ := (h n j m).1 hm
        have hle := hm.le
        exact hnone m hlt (by omega) hm
      cases fuel with
      | zero => rfl
      | succ fuel =>
          rw [walk, hnext]
          rfl
  | succ count ih =>
      intro n k fuel hon hnk hlen hnone hfuel
      rw [List.range'_succ]
      by_cases hk : OnLevel heights j (k + 1)
      · rw [List.filter_cons_of_pos (by rw [decide_eq_true_eq]; exact hk)]
        have hnext : next n j = some (k + 1) :=
          (h n j (k + 1)).2 ⟨hon, hk, by omega, fun i hi hik => hnone i hi (by omega)⟩
        obtain ⟨fuel, rfl⟩ : ∃ f, fuel = f + 1 := ⟨fuel - 1, by omega⟩
        rw [walk, hnext]
        exact congrArg ((k + 1) :: ·)
          (ih (k + 1) (k + 1) fuel hk (Nat.le_refl _) (by omega) (by omega) (by omega))
      · rw [List.filter_cons_of_neg (by rw [decide_eq_true_eq]; exact hk)]
        refine ih n (k + 1) fuel hon (by omega) (by omega) (fun i hi hik => ?_) (by omega)
        rcases Nat.lt_or_eq_of_le hik with hlt | rfl
        · exact hnone i hi (by omega)
        · exact hk

/-- The items whose nodes a walk along the level from the head goes through; node `k + 1` stands
for item `k`. -/
def along {α : Type} (items : List α) (next : Nat → Nat → Option Nat) (j : Nat) : List α :=
  (walk next j items.length 0).filterMap fun k => items[k - 1]?

/-- **Along a level one meets the items that are high enough, in their order.** -/
theorem Linked.along_eq {α : Type} {items : List α} {height : α → Nat}
    (h : Linked (items.map height) next) (j : Nat) :
    along items next j = items.filter fun a => decide (j < height a) := by
  have hlength : (items.map height).length ≤ 0 + items.length :=
    Nat.le_of_eq (by rw [List.length_map, Nat.zero_add])
  rw [along, h.walk_eq items.length 0 trivial hlength, List.length_map, Nat.sub_zero, Nat.zero_add]
  -- The induction goes over the items that are left; `front` are those that were met before.
  suffices hfront : ∀ front rest : List α,
      ((List.range' (front.length + 1) rest.length).filter fun k =>
        decide (OnLevel ((front ++ rest).map height) j k)).filterMap
          (fun k => (front ++ rest)[k - 1]?) = rest.filter fun a => decide (j < height a) from
    hfront [] items
  intro front rest
  induction rest generalizing front with
  | nil => rfl
  | cons a rest ih =>
      have htail := ih (front ++ [a])
      rw [List.append_assoc, List.singleton_append, List.length_append, List.length_singleton] at htail
      have hitem : (front ++ a :: rest)[front.length]? = some a := by
        rw [List.getElem?_append_right (Nat.le_refl _), Nat.sub_self, List.getElem?_cons_zero]
      have hon : OnLevel ((front ++ a :: rest).map height) j (front.length + 1) ↔ j < height a := by
        simp only [OnLevel, List.getElem?_map, hitem, Option.map_some, Option.some.injEq,
          exists_eq_left']
      rw [List.length_cons, List.range'_succ]
      by_cases hj : j < height a
      · rw [List.filter_cons_of_pos (by rw [decide_eq_true_eq]; exact hon.2 hj),
          List.filter_cons_of_pos (by rw [decide_eq_true_eq]; exact hj), List.filterMap_cons,
          Nat.add_sub_cancel, hitem]
        exact congrArg (a :: ·) htail
      · rw [List.filter_cons_of_neg (by rw [decide_eq_true_eq]; exact fun h => hj (hon.1 h)),
          List.filter_cons_of_neg (by rw [decide_eq_true_eq]; exact hj)]
        exact htail

end Walks

end EyaKV.Base.Levels
