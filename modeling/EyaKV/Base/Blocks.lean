import EyaKV.Base.SortedList

/-!
# Sorted lists in blocks

An ascending list is cut into blocks, and an index holds the first key of each block. The block
to look in for a key is the last one whose first key is not above it (`Blocked.locates`): all
elements before that block are below the key, all behind it are above. A lookup in the whole list
is the lookup in that block, and a range begins there (`Locates.find?_flatten`,
`Locates.filter_flatten`). The index is searched by bisection (`partitionPoint`).
-/

set_option autoImplicit false

namespace EyaKV.Base

section Bisection

/-- The end of the positions from `left` on that pass the test, by bisection. -/
def partitionPoint (p : Nat → Bool) (left right : Nat) : Nat :=
  if left < right then
    let mid := left + (right - left) / 2
    if p mid then partitionPoint p (mid + 1) right else partitionPoint p left mid
  else left
termination_by right - left

theorem partitionPoint_of_true {p : Nat → Bool} {left right : Nat} (hlt : left < right)
    (hmid : p (left + (right - left) / 2) = true) :
    partitionPoint p left right = partitionPoint p (left + (right - left) / 2 + 1) right := by
  rw [partitionPoint, if_pos hlt]
  exact if_pos hmid

theorem partitionPoint_of_false {p : Nat → Bool} {left right : Nat} (hlt : left < right)
    (hmid : ¬p (left + (right - left) / 2) = true) :
    partitionPoint p left right = partitionPoint p left (left + (right - left) / 2) := by
  rw [partitionPoint, if_pos hlt]
  exact if_neg hmid

theorem partitionPoint_of_not_lt {p : Nat → Bool} {left right : Nat} (hnot : ¬left < right) :
    partitionPoint p left right = left := by
  rw [partitionPoint, if_neg hnot]

/-- A test that fails from some position on is bisected at that position. -/
theorem partitionPoint_spec {p : Nat → Bool} {left right : Nat} (hle : left ≤ right)
    (hdown : ∀ i j, i ≤ j → j < right → p j = true → p i = true) :
    left ≤ partitionPoint p left right ∧ partitionPoint p left right ≤ right ∧
      (∀ i, left ≤ i → i < partitionPoint p left right → p i = true) ∧
      ∀ i, partitionPoint p left right ≤ i → i < right → p i = false := by
  induction left, right using partitionPoint.induct p with
  | case1 left right hlt mid hmid ih =>
      have hlow : left ≤ mid := Nat.le_add_right _ _
      have hhigh : mid < right := by omega
      obtain ⟨hfrom, hto, hbefore, hbehind⟩ := ih hhigh hdown
      rw [partitionPoint_of_true hlt hmid]
      refine ⟨Nat.le_trans (Nat.le_succ_of_le hlow) hfrom, hto, fun i hi hlt => ?_, hbehind⟩
      rcases Nat.lt_or_ge mid i with hgt | hle
      · exact hbefore i hgt hlt
      · exact hdown i mid hle hhigh hmid
  | case2 left right hlt mid hmid ih =>
      have hlow : left ≤ mid := Nat.le_add_right _ _
      have hhigh : mid < right := by omega
      obtain ⟨hfrom, hto, hbefore, hbehind⟩ :=
        ih hlow fun i j hij hj => hdown i j hij (Nat.lt_trans hj hhigh)
      rw [partitionPoint_of_false hlt hmid]
      refine ⟨hfrom, Nat.le_trans hto (Nat.le_of_lt hhigh), hbefore, fun i hi hlt => ?_⟩
      rcases Nat.lt_or_ge i mid with hgt | hle
      · exact hbehind i hi hgt
      · -- A position behind `mid` that passed would make `mid` pass.
        cases hpi : p i with
        | false => rfl
        | true => exact absurd (hdown mid i hle hlt hpi) hmid
  | case3 left right hnot =>
      rw [partitionPoint_of_not_lt hnot]
      exact ⟨Nat.le_refl _, hle, fun i hi hlt => absurd hlt (Nat.not_lt_of_le hi),
        fun i hi hlt => absurd (Nat.lt_of_le_of_lt hi hlt) hnot⟩

end Bisection

section Blocks

variable {α κ : Type} [LinearOrder κ] {key : α → κ} {blocks : List (List α)} {k : κ} {i : Nat}

/-- No block is empty, and the keys ascend through all of them. -/
structure Blocked (key : α → κ) (blocks : List (List α)) : Prop where
  nonempty : ∀ block ∈ blocks, block ≠ []
  ascending : Ascending key blocks.flatten

/-- The block at `i` is the only one in which the key can be. -/
structure Locates (key : α → κ) (blocks : List (List α)) (k : κ) (i : Nat) : Prop where
  before : ∀ a ∈ (blocks.take i).flatten, key a < k
  behind : ∀ a ∈ (blocks.drop (i + 1)).flatten, k < key a

theorem Blocked.first_le (h : Blocked key blocks) {block : List α} (hblock : block ∈ blocks)
    {first a : α} (hfirst : block.head? = some first) (ha : a ∈ block) : key first ≤ key a := by
  obtain ⟨rest, rfl⟩ := List.head?_eq_some_iff.1 hfirst
  have hsorted : Ascending key (first :: rest) :=
    List.Pairwise.sublist (List.sublist_flatten_of_mem hblock) h.ascending
  rcases List.mem_cons.1 ha with rfl | ha
  · exact le_refl _
  · exact le_of_lt ((List.pairwise_cons.1 hsorted).1 a ha)

/-- The first keys ascend. -/
theorem Blocked.first_le_first (h : Blocked key blocks) {i j : Nat} (hij : i ≤ j)
    {block block' : List α} (hi : blocks[i]? = some block) (hj : blocks[j]? = some block')
    {first first' : α} (hfirst : block.head? = some first) (hfirst' : block'.head? = some first') :
    key first ≤ key first' := by
  rcases Nat.eq_or_lt_of_le hij with rfl | hlt
  · obtain rfl := Option.some.inj (hi.symm.trans hj)
    obtain rfl := Option.some.inj (hfirst.symm.trans hfirst')
    exact le_refl _
  · obtain ⟨hi', rfl⟩ := List.getElem?_eq_some_iff.1 hi
    obtain ⟨hj', rfl⟩ := List.getElem?_eq_some_iff.1 hj
    have hpairs := (List.pairwise_flatten.1 h.ascending).2
    exact le_of_lt (List.pairwise_iff_getElem.1 hpairs i j hi' hj' hlt first
      (List.mem_of_mem_head? hfirst) first' (List.mem_of_mem_head? hfirst'))

theorem flatten_split (blocks : List (List α)) (i : Nat) :
    blocks.flatten = (blocks.take i).flatten ++ (blocks.drop i).flatten := by
  rw [← List.flatten_append, List.take_append_drop]

/-- The last of the first `n` blocks locates the key when the first keys of these are not above it
and those of the others are. With `n = 0` it is the first block. -/
theorem Blocked.locates (h : Blocked key blocks) {n : Nat} (hn : n ≤ blocks.length)
    (hle : ∀ j, j < n → ∀ block, blocks[j]? = some block →
      ∃ first, block.head? = some first ∧ key first ≤ k)
    (hgt : ∀ j, n ≤ j → ∀ block, blocks[j]? = some block →
      ∃ first, block.head? = some first ∧ k < key first) : Locates key blocks k (n - 1) := by
  refine ⟨fun a ha => ?_, fun a ha => ?_⟩
  · have hpos : 0 < n - 1 := by
      by_contra hzero
      rw [Nat.eq_zero_of_not_pos hzero, List.take_zero, List.flatten_nil] at ha
      cases ha
    have hlast := List.getElem?_eq_getElem (show n - 1 < blocks.length by omega)
    obtain ⟨first, hfirst, hk⟩ := hle (n - 1) (by omega) _ hlast
    have hmem : first ∈ (blocks.drop (n - 1)).flatten := by
      refine List.mem_flatten.2 ⟨_, ?_, List.mem_of_mem_head? hfirst⟩
      exact List.mem_of_getElem? (i := 0) (by rw [List.getElem?_drop, Nat.add_zero]; exact hlast)
    have hordered := h.ascending
    rw [flatten_split blocks (n - 1)] at hordered
    exact lt_of_lt_of_le ((List.pairwise_append.1 hordered).2.2 a ha first hmem) hk
  · obtain ⟨block, hblock, ha⟩ := List.mem_flatten.1 ha
    obtain ⟨j, hj⟩ := List.mem_iff_getElem?.1 hblock
    rw [List.getElem?_drop] at hj
    obtain ⟨first, hfirst, hk⟩ := hgt _ (by omega) block hj
    exact lt_of_lt_of_le hk (h.first_le (List.mem_of_getElem? hj) hfirst ha)

/-- A key is located in the block that has it. -/
theorem Locates.eq_of_mem (h : Locates key blocks k i) {j : Nat} {block : List α}
    (hblock : blocks[j]? = some block) {a : α} (ha : a ∈ block) (hk : key a = k) : i = j := by
  rcases Nat.lt_trichotomy i j with hlt | heq | hgt
  · have hdrop : (blocks.drop (i + 1))[j - (i + 1)]? = some block := by
      rw [List.getElem?_drop, Nat.add_sub_cancel' hlt, hblock]
    have hmem := List.mem_flatten.2 ⟨block, List.mem_of_getElem? hdrop, ha⟩
    exact absurd hk (ne_of_gt (h.behind a hmem))
  · exact heq
  · have htake : (blocks.take i)[j]? = some block := by
      rw [List.getElem?_take_of_lt hgt, hblock]
    have hmem := List.mem_flatten.2 ⟨block, List.mem_of_getElem? htake, ha⟩
    exact absurd hk (ne_of_lt (h.before a hmem))

/-- A lookup in the list is a lookup in the located block. -/
theorem Locates.find?_flatten (h : Locates key blocks k i) {block : List α}
    (hblock : blocks[i]? = some block) {p : α → Bool} (hp : ∀ a, p a = true → key a = k) :
    blocks.flatten.find? p = block.find? p := by
  have hdrop : blocks.drop i = block :: blocks.drop (i + 1) := by
    obtain ⟨hi, rfl⟩ := List.getElem?_eq_some_iff.1 hblock
    exact List.drop_eq_getElem_cons hi
  have hbefore : (blocks.take i).flatten.find? p = none :=
    List.find?_eq_none.2 fun a ha hpa => absurd (hp a hpa) (ne_of_lt (h.before a ha))
  have hbehind : (blocks.drop (i + 1)).flatten.find? p = none :=
    List.find?_eq_none.2 fun a ha hpa => absurd (hp a hpa) (ne_of_gt (h.behind a ha))
  rw [flatten_split blocks i, hdrop, List.flatten_cons, List.find?_append, List.find?_append,
    hbefore, hbehind, Option.none_or, Option.or_none]

/-- A range begins in the block that locates its lower bound. -/
theorem Locates.filter_flatten (h : Locates key blocks k i) {p : α → Bool}
    (hp : ∀ a, p a = true → k ≤ key a) :
    blocks.flatten.filter p = (blocks.drop i).flatten.filter p := by
  rw [flatten_split blocks i, List.filter_append, List.filter_eq_nil_iff.2, List.nil_append]
  intro a ha hpa
  exact absurd (hp a hpa) (not_le_of_gt (h.before a ha))

/-- Behind a block whose first key is above the upper bound there is nothing of the range. -/
theorem Blocked.filter_eq_nil (h : Blocked key blocks) {block : List α}
    (hblock : blocks.head? = some block) {first : α} (hfirst : block.head? = some first)
    {p : α → Bool} (hp : ∀ a, p a = true → key a < key first) : blocks.flatten.filter p = [] := by
  obtain ⟨rest, rfl⟩ := List.head?_eq_some_iff.1 hblock
  obtain ⟨tail, rfl⟩ := List.head?_eq_some_iff.1 hfirst
  refine List.filter_eq_nil_iff.2 fun a ha hpa => ?_
  have hsorted := h.ascending
  rw [List.flatten_cons, List.cons_append] at ha hsorted
  rcases List.mem_cons.1 ha with rfl | ha
  · exact lt_irrefl _ (hp a hpa)
  · exact lt_asymm (hp a hpa) ((List.pairwise_cons.1 hsorted).1 a ha)

theorem Blocked.drop (h : Blocked key blocks) (i : Nat) : Blocked key (blocks.drop i) := by
  refine ⟨fun block hblock => h.nonempty block (List.mem_of_mem_drop hblock), ?_⟩
  have hsorted := h.ascending
  rw [flatten_split blocks i] at hsorted
  exact (List.pairwise_append.1 hsorted).2.1

/-- The scan of a sorted list for the elements between two keys, which stops behind the second. -/
def scanRange (key : α → κ) (s e : κ) : List α → List α
  | [] => []
  | a :: rest =>
      if s ≤ key a ∧ key a ≤ e then a :: scanRange key s e rest
      else if e < key a then [] else scanRange key s e rest

theorem scanRange_eq_filter {s e : κ} {l : List α} (h : Ascending key l) :
    scanRange key s e l = l.filter fun a => decide (s ≤ key a ∧ key a ≤ e) := by
  induction l with
  | nil => rfl
  | cons a rest ih =>
      obtain ⟨hhead, htail⟩ := List.pairwise_cons.1 h
      rw [scanRange]
      by_cases hin : s ≤ key a ∧ key a ≤ e
      · rw [if_pos hin, List.filter_cons_of_pos (by rw [decide_eq_true_eq]; exact hin), ih htail]
      · rw [if_neg hin, List.filter_cons_of_neg (by rw [decide_eq_true_eq]; exact hin)]
        by_cases hbehind : e < key a
        · rw [if_pos hbehind]
          refine (List.filter_eq_nil_iff.2 fun b hb hbetween => ?_).symm
          exact absurd (of_decide_eq_true hbetween).2 (not_le_of_gt (lt_trans hbehind (hhead b hb)))
        · rw [if_neg hbehind, ih htail]

end Blocks

end EyaKV.Base
