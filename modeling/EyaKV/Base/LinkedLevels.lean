import Mathlib.Data.List.Basic
import Mathlib.Data.List.TakeWhile
import Mathlib.Logic.Function.Basic

/-!
# Linked lists on several levels

Nodes at addresses, with a pointer on each level, behind a head. `Chain next a xs t` says that the
pointers lead from `a` through the addresses of `xs` and from the last of them to `t`; assigning to
one pointer inserts an address into a chain or takes one out (`Chain.insert`, `Chain.erase`).

`Stacked` is the invariant of the levels: the chain of a level leads through the nodes that are
high enough, in the order of the list of all nodes. The loops of a skip list are here as functions:
`walk` and `advance` along a level, `descend` through the levels with the predecessors of every
level, and the loops that assign the pointers of a node on its levels (`link`, `unlink`, `attach`).
What each of them does to the invariant is one theorem about the list of all nodes
(`Stacked.descend_eq`, `Stacked.link`, `Stacked.unlink`, `Growing.attach`).
-/

set_option autoImplicit false

namespace EyaKV.Base.LinkedLevels

variable {α : Type*}

section Chains

/-- From `a` the pointers lead through the list, and from the last of its addresses to `t`. -/
def Chain (next : α → Option α) : α → List α → Option α → Prop
  | a, [], t => next a = t
  | a, b :: bs, t => next a = some b ∧ Chain next b bs t

variable {next next' : α → Option α} {a a' node : α} {xs ys : List α} {t : Option α}

theorem getLastD_append : (xs ++ ys).getLastD a = ys.getLastD (xs.getLastD a) := by
  induction xs generalizing a with
  | nil => rfl
  | cons b bs ih => rw [List.cons_append, List.getLastD_cons, List.getLastD_cons, ih]

theorem Chain.next_head (h : Chain next a xs none) : next a = xs.head? := by
  cases xs with
  | nil => exact h
  | cons b bs => exact h.1

theorem chain_append : Chain next a (xs ++ ys) t ↔
    Chain next a xs (next (xs.getLastD a)) ∧ Chain next (xs.getLastD a) ys t := by
  induction xs generalizing a with
  | nil => exact (and_iff_right rfl).symm
  | cons b bs ih =>
      rw [List.cons_append, List.getLastD_cons]
      simp only [Chain, ih, and_assoc]

/-- A chain only depends on the pointers of its addresses. -/
theorem Chain.move (h : Chain next a ys t) (hfirst : next' a' = next a)
    (hrest : ∀ b ∈ ys, next' b = next b) : Chain next' a' ys t := by
  induction ys generalizing a a' with
  | nil => exact hfirst.trans h
  | cons b bs ih =>
      refine ⟨hfirst.trans h.1, ih h.2 (hrest b List.mem_cons_self) fun c hc => ?_⟩
      exact hrest c (List.mem_cons_of_mem b hc)

theorem Chain.congr (h : Chain next a ys t) (heq : ∀ b ∈ a :: ys, next' b = next b) :
    Chain next' a ys t := by
  apply h.move
  · exact heq a List.mem_cons_self
  · exact fun b hb => heq b (List.mem_cons_of_mem a hb)

variable [DecidableEq α]

/-- The pointer of the last address may be assigned to. -/
theorem Chain.setLast (h : Chain next a xs t) (hnodup : (a :: xs).Nodup) (t' : Option α) :
    Chain (Function.update next (xs.getLastD a) t') a xs t' := by
  induction xs generalizing a with
  | nil => exact Function.update_self a t' next
  | cons b bs ih =>
      rw [List.getLastD_cons]
      obtain ⟨hnot, htail⟩ := List.nodup_cons.1 hnodup
      refine ⟨?_, ih h.2 htail⟩
      rw [Function.update_of_ne]
      · exact h.1
      · intro heq
        apply hnot
        rw [heq]
        exact List.getLastD_mem_cons

/-- A new address gets the pointer of its predecessor, which then points to it. -/
theorem Chain.insert (h : Chain next a (xs ++ ys) t) (hnodup : (a :: (xs ++ ys)).Nodup)
    (hnode : node ∉ a :: (xs ++ ys)) :
    Chain (Function.update (Function.update next node (next (xs.getLastD a))) (xs.getLastD a)
      (some node)) a (xs ++ node :: ys) t := by
  obtain ⟨hxs, hys⟩ := chain_append.1 h
  have hlast : xs.getLastD a ∈ a :: xs := List.getLastD_mem_cons
  rw [← List.cons_append] at hnodup hnode
  have hdisjoint := List.nodup_append.1 hnodup
  rw [List.mem_append, not_or] at hnode
  have hne : node ≠ xs.getLastD a := fun heq => hnode.1 (heq ▸ hlast)
  rw [chain_append, Function.update_self]
  refine ⟨?_, rfl.trans (Function.update_self _ _ _), ?_⟩
  · -- Before the new address only the last pointer has changed.
    apply Chain.setLast _ hdisjoint.1 (some node)
    · exact next (xs.getLastD a)
    · apply hxs.congr
      intro b hb
      apply Function.update_of_ne
      rintro rfl
      exact hnode.1 hb
  · -- The new address leads where its predecessor led before.
    apply hys.move
    · rw [Function.update_of_ne hne, Function.update_self]
    · intro b hb
      rw [Function.update_of_ne, Function.update_of_ne]
      · exact fun heq => hnode.2 (heq ▸ hb)
      · exact fun heq => hdisjoint.2.2 _ hlast _ hb heq.symm

/-- The predecessor of an address gets its pointer, and the address is out of the chain. -/
theorem Chain.erase (h : Chain next a (xs ++ node :: ys) t)
    (hnodup : (a :: (xs ++ node :: ys)).Nodup) :
    Chain (Function.update next (xs.getLastD a) (next node)) a (xs ++ ys) t := by
  obtain ⟨hxs, -, hys⟩ := chain_append.1 h
  have hlast : xs.getLastD a ∈ a :: xs := List.getLastD_mem_cons
  rw [← List.cons_append] at hnodup
  have hdisjoint := List.nodup_append.1 hnodup
  rw [chain_append, Function.update_self]
  refine ⟨hxs.setLast hdisjoint.1 (next node), ?_⟩
  apply hys.move
  · exact Function.update_self _ _ _
  · intro b hb
    apply Function.update_of_ne
    exact fun heq => hdisjoint.2.2 _ hlast _ (List.mem_cons_of_mem node hb) heq.symm

end Chains

section Loops

variable (next : α → Option α) (p : α → Bool)

/-- The loop that goes on from `current` while there is a node and it passes the test: the nodes it
has passed and the one it stops at. `fuel` bounds the number of nodes. -/
def walk : Nat → Option α → List α × Option α
  | 0, current => ([], current)
  | _ + 1, none => ([], none)
  | fuel + 1, some a =>
      if p a then
        let rest := walk fuel (next a)
        (a :: rest.1, rest.2)
      else ([], some a)

/-- The loop that goes on to the next node while that one passes the test. -/
def advance : Nat → α → α
  | 0, a => a
  | fuel + 1, a =>
      match next a with
      | none => a
      | some b => if p b then advance fuel b else a

variable {next p} {a : α} {xs ys : List α}

theorem Chain.walk_eq (h : Chain next a xs none) {fuel : Nat} (hfuel : xs.length ≤ fuel) :
    walk next p fuel (next a) = (xs.takeWhile p, (xs.dropWhile p).head?) := by
  induction xs generalizing a fuel with
  | nil =>
      rw [show next a = none from h]
      cases fuel with
      | zero => rfl
      | succ fuel => rfl
  | cons b bs ih =>
      obtain ⟨hb, hbs⟩ := h
      obtain ⟨fuel, rfl⟩ := Nat.exists_eq_add_of_le' (Nat.lt_of_lt_of_le (Nat.succ_pos _) hfuel)
      rw [hb, walk, List.takeWhile_cons, List.dropWhile_cons]
      cases hp : p b with
      | true =>
          have hrest := ih hbs (Nat.le_of_succ_le_succ hfuel)
          simp only [↓reduceIte, hrest]
      | false => simp only [Bool.false_eq_true, ↓reduceIte, List.head?_cons]

theorem Chain.advance_eq (h : Chain next a xs none) {fuel : Nat} (hfuel : xs.length ≤ fuel) :
    advance next p fuel a = (xs.takeWhile p).getLastD a := by
  induction xs generalizing a fuel with
  | nil =>
      cases fuel with
      | zero => rfl
      | succ fuel =>
          rw [advance, show next a = none from h]
          rfl
  | cons b bs ih =>
      obtain ⟨hb, hbs⟩ := h
      obtain ⟨fuel, rfl⟩ := Nat.exists_eq_add_of_le' (Nat.lt_of_lt_of_le (Nat.succ_pos _) hfuel)
      rw [advance, hb, List.takeWhile_cons]
      cases hp : p b with
      | true =>
          simp only [hp, ↓reduceIte, List.getLastD_cons]
          exact ih hbs (Nat.le_of_succ_le_succ hfuel)
      | false => simp only [hp, Bool.false_eq_true, ↓reduceIte, List.getLastD_nil]

end Loops

section Levels

variable (height : α → Nat) (head : α)

/-- The nodes that are on a level. -/
def onLevel (xs : List α) (i : Nat) : List α := xs.filter fun a => decide (i < height a)

/-- The last node that is on a level, or the head. -/
def lastOn (xs : List α) (i : Nat) : α := (onLevel height xs i).getLastD head

/-- On every level the pointers lead through the nodes that are high enough. -/
def Stacked (next : Nat → α → Option α) (xs : List α) : Prop :=
  ∀ i, Chain (next i) head (onLevel height xs i) none

variable {height head} {xs ys : List α} {node : α} {i : Nat}

theorem onLevel_append : onLevel height (xs ++ ys) i = onLevel height xs i ++ onLevel height ys i :=
  List.filter_append xs ys

theorem onLevel_cons_of_lt (h : i < height node) :
    onLevel height (node :: ys) i = node :: onLevel height ys i :=
  List.filter_cons_of_pos (decide_eq_true h)

theorem onLevel_cons_of_le (h : height node ≤ i) :
    onLevel height (node :: ys) i = onLevel height ys i :=
  List.filter_cons_of_neg (by rw [decide_eq_true_eq]; exact Nat.not_lt_of_le h)

theorem onLevel_sublist (height : α → Nat) (xs : List α) (i : Nat) :
    (onLevel height xs i).Sublist xs := List.filter_sublist

theorem onLevel_eq_nil (h : ∀ a ∈ xs, height a ≤ i) : onLevel height xs i = [] := by
  rw [onLevel, List.filter_eq_nil_iff]
  intro a ha
  rw [decide_eq_true_eq]
  exact Nat.not_lt_of_le (h a ha)

theorem lastOn_of_height_le (h : ∀ a ∈ xs, height a ≤ i) : lastOn height head xs i = head := by
  rw [lastOn, onLevel_eq_nil h, List.getLastD_nil]

theorem onLevel_zero (h : ∀ a ∈ xs, 1 ≤ height a) : onLevel height xs 0 = xs := by
  rw [onLevel, List.filter_eq_self]
  exact fun a ha => decide_eq_true (h a ha)

/-- The level above holds the nodes of this level that are higher. -/
theorem onLevel_succ : onLevel height xs (i + 1) =
    (onLevel height xs i).filter fun a => decide (i + 1 < height a) := by
  rw [onLevel, onLevel, List.filter_filter]
  apply List.filter_congr
  intro a _
  rw [← Bool.decide_and]
  apply decide_eq_decide.2
  constructor
  · exact fun h => ⟨h, Nat.lt_of_succ_lt h⟩
  · exact And.left

/-- The last node of a level lies on the level below, and only some nodes of that level follow. -/
theorem exists_after_last (d : α) (xs : List α) (i : Nat) :
    ∃ l r, onLevel height xs i = l ++ r ∧ l.getLastD d = lastOn height d xs (i + 1) := by
  induction xs generalizing d with
  | nil => exact ⟨[], [], rfl, rfl⟩
  | cons a as ih =>
      rcases Nat.lt_or_ge (i + 1) (height a) with hhigh | hlow
      · obtain ⟨l, r, heq, hlast⟩ := ih a
        refine ⟨a :: l, r, ?_, ?_⟩
        · rw [onLevel_cons_of_lt (Nat.lt_of_succ_lt hhigh), heq, List.cons_append]
        · rw [lastOn, onLevel_cons_of_lt hhigh, List.getLastD_cons, List.getLastD_cons, hlast,
            lastOn]
      · obtain ⟨l, r, heq, hlast⟩ := ih d
        rw [lastOn, onLevel_cons_of_le hlow, ← lastOn, ← hlast]
        rcases Nat.lt_or_ge i (height a) with hon | hoff
        · rw [onLevel_cons_of_lt hon, heq]
          cases l with
          | nil => exact ⟨[], a :: r, rfl, rfl⟩
          | cons b bs => exact ⟨a :: b :: bs, r, rfl, by simp only [List.getLastD_cons]⟩
        · rw [onLevel_cons_of_le hoff, heq]
          exact ⟨l, r, rfl, rfl⟩

variable {next : Nat → α → Option α}

theorem onLevel_congr {height' : α → Nat} (heq : ∀ a ∈ xs, height' a = height a) :
    onLevel height' xs i = onLevel height xs i := by
  apply List.filter_congr
  intro a ha
  rw [heq a ha]

/-- The levels only depend on the heights of the nodes and on the pointers of these and the head. -/
theorem Stacked.congr (h : Stacked height head next xs) {height' : α → Nat}
    {next' : Nat → α → Option α} (heq : ∀ a ∈ xs, height' a = height a)
    (hnext : ∀ i, ∀ a ∈ head :: xs, next' i a = next i a) : Stacked height' head next' xs := by
  intro i
  rw [onLevel_congr heq]
  apply (h i).congr
  intro a ha
  apply hnext i a
  rcases List.mem_cons.1 ha with rfl | ha
  · exact List.mem_cons_self
  · exact List.mem_cons_of_mem head ((onLevel_sublist _ _ _).subset ha)

end Levels

section Descent

/-- The loop from level `n - 1` down to level 0, on each as far as the test passes: the node it
ends at, and the node at which it leaves each level. -/
def descend (next : Nat → α → Option α) (p : α → Bool) (fuel : Nat) :
    Nat → α → α × (Nat → α)
  | 0, a => (a, fun _ => a)
  | i + 1, a =>
      let b := advance (next i) p fuel a
      let below := descend next p fuel i b
      (below.1, Function.update below.2 i b)

variable {next : Nat → α → Option α} {height : α → Nat} {head : α} {p : α → Bool} {fuel : Nat}
variable {pre post : List α}

/-- One level down, from the last node on the level above. -/
theorem Stacked.advance_eq (h : Stacked height head next (pre ++ post)) (hpre : ∀ a ∈ pre, p a)
    (hpost : ∀ a ∈ post, p a = false) (hfuel : (pre ++ post).length ≤ fuel) (i : Nat) :
    advance (next i) p fuel (lastOn height head pre (i + 1)) = lastOn height head pre i := by
  obtain ⟨l, r, heq, hlast⟩ := exists_after_last head pre i
  have hchain := h i
  rw [onLevel_append, heq, List.append_assoc, chain_append, hlast] at hchain
  -- All that is left of the level before the place passes the test, and nothing behind it.
  have hr : ∀ a ∈ r, p a = true := by
    intro a ha
    apply hpre
    apply (onLevel_sublist _ _ _).subset
    rw [heq]
    exact List.mem_append_right l ha
  have hstop : (onLevel height post i).takeWhile p = [] := by
    cases hon : onLevel height post i with
    | nil => rfl
    | cons b bs =>
        apply List.takeWhile_cons_of_neg
        rw [hpost b ((onLevel_sublist _ _ _).subset (hon ▸ List.mem_cons_self))]
        exact Bool.false_ne_true
  have hlength : (r ++ onLevel height post i).length ≤ fuel := by
    have hsub := (onLevel_sublist height (pre ++ post) i).length_le
    rw [onLevel_append, heq, List.append_assoc, List.length_append] at hsub
    omega
  rw [hchain.2.advance_eq hlength, List.takeWhile_append_of_pos hr, hstop, List.append_nil, ← hlast,
    lastOn, heq, getLastD_append]

/-- **The descent leaves every level at the last node before the place.** -/
theorem Stacked.descend_eq (h : Stacked height head next (pre ++ post)) (hpre : ∀ a ∈ pre, p a)
    (hpost : ∀ a ∈ post, p a = false) (hfuel : (pre ++ post).length ≤ fuel) (n : Nat) :
    (descend next p fuel n (lastOn height head pre n)).1 = lastOn height head pre 0 ∧
      ∀ i < n,
        (descend next p fuel n (lastOn height head pre n)).2 i = lastOn height head pre i := by
  induction n with
  | zero => exact ⟨rfl, fun i hi => absurd hi (Nat.not_lt_zero i)⟩
  | succ n ih =>
      rw [descend, h.advance_eq hpre hpost hfuel n]
      refine ⟨ih.1, fun i hi => ?_⟩
      rcases Nat.lt_or_eq_of_le (Nat.le_of_lt_succ hi) with hlt | rfl
      · simp only [Function.update_of_ne (Nat.ne_of_lt hlt)]
        exact ih.2 i hlt
      · exact Function.update_self _ _ _

end Descent

section Assignments

variable [DecidableEq α]

/-- The loop over the levels below `n` that assigns on each of them one pointer. The value may
depend on the pointers of the level. -/
def setLinks (src : Nat → α) (val : Nat → (α → Option α) → Option α) :
    Nat → (Nat → α → Option α) → Nat → α → Option α
  | 0, next => next
  | n + 1, next =>
      let next' := setLinks src val n next
      Function.update next' n (Function.update (next' n) (src n) (val n (next' n)))

/-- The two loops that link a new node: its pointers are those of its predecessors, and then the
predecessors point to it. -/
def link (pred : Nat → α) (node : α) (height : Nat) (next : Nat → α → Option α) :
    Nat → α → Option α :=
  setLinks pred (fun _ _ => some node) height
    (setLinks (fun _ => node) (fun i level => level (pred i)) height next)

/-- The loop from level `i` on over `n` levels that takes a node out: it ends at the first level on
which the predecessor does not point to the node. -/
def unlink (pred : Nat → α) (node : α) :
    Nat → Nat → (Nat → α → Option α) → Nat → α → Option α
  | 0, _, next => next
  | n + 1, i, next =>
      if next i (pred i) = some node then
        unlink pred node n (i + 1)
          (Function.update next i (Function.update (next i) (pred i) (next i node)))
      else next

/-- The loop over the levels below `n` that puts a node behind the last nodes so far and makes it
the last one. -/
def attach (node : α) : Nat → (Nat → α) × (Nat → α → Option α) → (Nat → α) × (Nat → α → Option α)
  | 0, s => s
  | n + 1, s =>
      let s' := attach node n s
      (Function.update s'.1 n node,
        Function.update s'.2 n (Function.update (s'.2 n) (s'.1 n) (some node)))

variable {pred : Nat → α} {node : α} {next : Nat → α → Option α} {height : α → Nat} {head : α}
variable {pre post : List α}

/-- The assignments on different levels do not meet. -/
theorem setLinks_apply (src : Nat → α) (val : Nat → (α → Option α) → Option α) (n : Nat)
    (next : Nat → α → Option α) (i : Nat) : setLinks src val n next i =
      if i < n then Function.update (next i) (src i) (val i (next i)) else next i := by
  induction n with
  | zero => exact (if_neg (Nat.not_lt_zero i)).symm
  | succ n ih =>
      rcases Nat.lt_trichotomy i n with hlt | rfl | hgt
      · rw [setLinks, Function.update_of_ne (Nat.ne_of_lt hlt), ih, if_pos hlt,
          if_pos (Nat.lt_succ_of_lt hlt)]
      · rw [setLinks, Function.update_self, ih, if_neg (Nat.lt_irrefl i),
          if_pos (Nat.lt_succ_self i)]
      · rw [setLinks, Function.update_of_ne (Nat.ne_of_gt hgt), ih, if_neg (Nat.lt_asymm hgt),
          if_neg (by omega)]

theorem link_apply (n i : Nat) : link pred node n next i =
    if i < n then Function.update (Function.update (next i) node (next i (pred i))) (pred i)
      (some node) else next i := by
  rw [link, setLinks_apply, setLinks_apply]
  split
  · rfl
  · rfl

/-- **A new node is linked on its levels behind the last nodes before its place.** -/
theorem Stacked.link (h : Stacked height head next (pre ++ post))
    (hnodup : (head :: (pre ++ post)).Nodup) (hnode : node ∉ head :: (pre ++ post))
    (hpred : ∀ i < height node, pred i = lastOn height head pre i) :
    Stacked height head (link pred node (height node) next) (pre ++ node :: post) := by
  intro i
  have hchain := h i
  rw [onLevel_append] at hchain
  rw [link_apply, onLevel_append]
  rcases Nat.lt_or_ge i (height node) with hon | hoff
  · have hsub : (head :: (onLevel height pre i ++ onLevel height post i)).Sublist
        (head :: (pre ++ post)) :=
      List.Sublist.cons_cons head ((onLevel_sublist _ _ _).append (onLevel_sublist _ _ _))
    rw [if_pos hon, onLevel_cons_of_lt hon, hpred i hon]
    exact hchain.insert (hnodup.sublist hsub) fun hmem => hnode (hsub.subset hmem)
  · rw [if_neg (Nat.not_lt_of_le hoff), onLevel_cons_of_le hoff]
    exact hchain

/-- When the predecessors point to the node on the levels below its height, the loop assigns on
these. -/
theorem unlink_apply (n i top : Nat)
    (hpoint : ∀ j, i ≤ j → j < i + n → (next j (pred j) = some node ↔ j < top)) (j : Nat) :
    unlink pred node n i next j = if i ≤ j ∧ j < i + n ∧ j < top then
      Function.update (next j) (pred j) (next j node) else next j := by
  induction n generalizing i next with
  | zero => exact (if_neg (by omega)).symm
  | succ n ih =>
      rw [unlink]
      by_cases hi : i < top
      · rw [if_pos ((hpoint i (Nat.le_refl i) (by omega)).2 hi), ih]
        · rcases Nat.lt_trichotomy j i with hlt | rfl | hgt
          · rw [if_neg (by omega), if_neg (by omega), Function.update_of_ne (Nat.ne_of_lt hlt)]
          · rw [if_neg (by omega), if_pos (by omega), Function.update_self]
          · simp only [Function.update_of_ne (Nat.ne_of_gt hgt)]
            refine if_congr ?_ rfl rfl
            omega
        · intro j hj hjn
          rw [Function.update_of_ne (by omega)]
          exact hpoint j (by omega) (by omega)
      · rw [if_neg fun heq => hi ((hpoint i (Nat.le_refl i) (by omega)).1 heq), if_neg (by omega)]

/-- **A node is taken out of its levels.** -/
theorem Stacked.unlink (h : Stacked height head next (pre ++ node :: post))
    (hnodup : (head :: (pre ++ node :: post)).Nodup) {n : Nat} (hheight : height node ≤ n)
    (hpred : ∀ i < n, pred i = lastOn height head pre i) :
    Stacked height head (unlink pred node n 0 next) (pre ++ post) := by
  have hpoint : ∀ j, 0 ≤ j → j < 0 + n → (next j (pred j) = some node ↔ j < height node) := by
    intro j _ hj
    rw [hpred j (by omega)]
    have hchain := h j
    rw [onLevel_append, chain_append] at hchain
    have hnext := hchain.2.next_head
    rw [← lastOn] at hnext
    rw [hnext]
    constructor
    · intro hhead
      by_contra hoff
      rw [onLevel_cons_of_le (Nat.le_of_not_lt hoff)] at hhead
      -- Behind its place the node does not come again.
      have hmem := (onLevel_sublist _ _ _).subset (List.mem_of_mem_head? hhead)
      have htail := (List.nodup_append.1 (List.nodup_cons.1 hnodup).2).2.1
      exact (List.nodup_cons.1 htail).1 hmem
    · intro hon
      rw [onLevel_cons_of_lt hon, List.head?_cons]
  intro i
  have hchain := h i
  rw [onLevel_append] at hchain
  rw [unlink_apply n 0 (height node) hpoint, onLevel_append]
  rcases Nat.lt_or_ge i (height node) with hon | hoff
  · rw [onLevel_cons_of_lt hon] at hchain
    have hsub : (head :: (onLevel height pre i ++ node :: onLevel height post i)).Sublist
        (head :: (pre ++ node :: post)) :=
      List.Sublist.cons_cons head ((onLevel_sublist _ _ _).append
        (List.Sublist.cons_cons node (onLevel_sublist _ _ _)))
    rw [if_pos (by omega), hpred i (by omega)]
    exact hchain.erase (hnodup.sublist hsub)
  · rw [onLevel_cons_of_le hoff] at hchain
    rw [if_neg (by omega)]
    exact hchain

theorem attach_apply (n : Nat) (s : (Nat → α) × (Nat → α → Option α)) (i : Nat) :
    (attach node n s).1 i = (if i < n then node else s.1 i) ∧
      (attach node n s).2 i =
        if i < n then Function.update (s.2 i) (s.1 i) (some node) else s.2 i := by
  induction n with
  | zero => exact ⟨(if_neg (Nat.not_lt_zero i)).symm, (if_neg (Nat.not_lt_zero i)).symm⟩
  | succ n ih =>
      obtain ⟨htails, hlinks⟩ := ih
      rcases Nat.lt_trichotomy i n with hlt | rfl | hgt
      · simp only [attach, Function.update_of_ne (Nat.ne_of_lt hlt), htails, hlinks, hlt,
          Nat.lt_succ_of_lt hlt, ↓reduceIte, and_self]
      · simp only [attach, Function.update_self, htails, hlinks, Nat.lt_irrefl, Nat.lt_succ_self,
          ↓reduceIte, and_self]
      · have hnot : ¬ i < n + 1 := by omega
        simp only [attach, Function.update_of_ne (Nat.ne_of_gt hgt), htails, hlinks,
          Nat.lt_asymm hgt, hnot, ↓reduceIte, and_self]

/-- The nodes so far stand one behind the other, with the last node of each level at hand. The
pointers of the head that have not been assigned to yet are the old ones. -/
structure Growing (height : α → Nat) (head : α) (old : Nat → Option α)
    (s : (Nat → α) × (Nat → α → Option α)) (xs : List α) : Prop where
  tails : ∀ i, s.1 i = lastOn height head xs i
  chains : ∀ i, Chain (s.2 i) head (onLevel height xs i)
    (if onLevel height xs i = [] then old i else none)

omit [DecidableEq α] in
theorem Growing.nil {old : Nat → Option α} (hold : ∀ i, next i head = old i) :
    Growing height head old (fun _ => head, next) [] :=
  ⟨fun _ => rfl, hold⟩

omit [DecidableEq α] in
theorem Growing.congr {old : Nat → Option α} {s : (Nat → α) × (Nat → α → Option α)} {xs : List α}
    (h : Growing height head old s xs) {height' : α → Nat} {next' : Nat → α → Option α}
    (heq : ∀ a ∈ xs, height' a = height a) (hnext : ∀ i, ∀ a ∈ head :: xs, next' i a = s.2 i a) :
    Growing height' head old (s.1, next') xs := by
  constructor
  · intro i
    rw [lastOn, onLevel_congr heq]
    exact h.tails i
  · intro i
    rw [onLevel_congr heq]
    apply (h.chains i).congr
    intro a ha
    apply hnext i a
    rcases List.mem_cons.1 ha with rfl | ha
    · exact List.mem_cons_self
    · exact List.mem_cons_of_mem head ((onLevel_sublist _ _ _).subset ha)

/-- **A node that is put behind all others extends the chains of its levels.** -/
theorem Growing.attach {old : Nat → Option α} {s : (Nat → α) × (Nat → α → Option α)} {xs : List α}
    (h : Growing height head old s xs) (hnodup : (head :: xs).Nodup) (hnode : node ∉ head :: xs)
    (hnull : ∀ i, s.2 i node = none) :
    Growing height head old (attach node (height node) s) (xs ++ [node]) := by
  constructor
  · intro i
    rw [(attach_apply (height node) s i).1, lastOn, onLevel_append]
    rcases Nat.lt_or_ge i (height node) with hon | hoff
    · rw [if_pos hon, onLevel_cons_of_lt hon, getLastD_append, List.getLastD_cons]
      rfl
    · rw [if_neg (Nat.not_lt_of_le hoff), onLevel_cons_of_le hoff, h.tails i, lastOn]
      exact congrArg (fun l => List.getLastD l head) (List.append_nil _).symm
  · intro i
    rw [(attach_apply (height node) s i).2, onLevel_append]
    rcases Nat.lt_or_ge i (height node) with hon | hoff
    · have hsub : (head :: onLevel height xs i).Sublist (head :: xs) :=
        List.Sublist.cons_cons head (onLevel_sublist _ _ _)
      have hne : node ≠ lastOn height head xs i := by
        intro heq
        apply hnode
        rw [heq]
        exact hsub.subset List.getLastD_mem_cons
      have hmore : onLevel height xs i ++ onLevel height [node] i ≠ [] := by
        rw [onLevel_cons_of_lt hon]
        exact List.append_ne_nil_of_right_ne_nil _ (List.cons_ne_nil _ _)
      rw [if_pos hon, if_neg hmore, h.tails i, onLevel_cons_of_lt hon, chain_append, ← lastOn]
      refine ⟨?_, ?_⟩
      · rw [Function.update_self]
        exact (h.chains i).setLast (hnodup.sublist hsub) (some node)
      · refine ⟨Function.update_self _ _ _, ?_⟩
        exact (Function.update_of_ne hne _ _).trans (hnull i)
    · rw [if_neg (Nat.not_lt_of_le hoff), onLevel_cons_of_le hoff]
      have hsame : onLevel height xs i ++ onLevel height [] i = onLevel height xs i :=
        List.append_nil _
      rw [hsame]
      exact h.chains i

omit [DecidableEq α] in
/-- The chains are complete when the old pointers of the levels without nodes lead nowhere. -/
theorem Growing.stacked {old : Nat → Option α} {s : (Nat → α) × (Nat → α → Option α)} {xs : List α}
    (h : Growing height head old s xs) (hold : ∀ i, onLevel height xs i = [] → old i = none) :
    Stacked height head s.2 xs := by
  intro i
  have hchain := h.chains i
  split at hchain
  · next hnil =>
      rw [hold i hnil] at hchain
      exact hchain
  · exact hchain

end Assignments

end EyaKV.Base.LinkedLevels
