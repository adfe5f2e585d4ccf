import Mathlib.Data.Finset.Card
import Mathlib.Order.Defs.LinearOrder

/-!
# Majorities of a finite set

Two majorities of one set share a member. Of values that are sorted in descending order, the one
at position `i` is the greatest that more than `i` of them reach (`le_getElem_mergeSort_iff`), so
that the one in the middle is the greatest that a majority reaches.
-/

set_option autoImplicit false

namespace EyaKV.Base

universe u

variable {α : Type u} [DecidableEq α]

/-- `quorum` is a part of `members` with more than half of them. -/
def IsMajority (members quorum : Finset α) : Prop :=
  quorum ⊆ members ∧ members.card < 2 * quorum.card

theorem IsMajority.exists_common {members q q' : Finset α} (h : IsMajority members q)
    (h' : IsMajority members q') : ∃ a, a ∈ q ∧ a ∈ q' := by
  have hunion : (q ∪ q').card ≤ members.card :=
    Finset.card_le_card (Finset.union_subset h.1 h'.1)
  have hcount := Finset.card_union_add_card_inter q q'
  have hpos : 0 < (q ∩ q').card := by
    have := h.2
    have := h'.2
    omega
  obtain ⟨a, ha⟩ := Finset.card_pos.1 hpos
  exact ⟨a, Finset.mem_inter.1 ha⟩

section Ranking

universe v

variable {β : Type v} [LinearOrder β]

/-- In a descending list, `m` is at most the value at a position exactly when more values than
stand before the position are at least `m`. -/
theorem le_getElem_iff_of_descending (m : β) {l : List β} (h : l.Pairwise fun a b => b ≤ a)
    {i : Nat} (hi : i < l.length) : m ≤ l[i] ↔ i < l.countP fun a => m ≤ a := by
  induction l generalizing i with
  | nil => simp at hi
  | cons x rest ih =>
      obtain ⟨hx, hrest⟩ := List.pairwise_cons.1 h
      by_cases hm : m ≤ x
      · rw [List.countP_cons_of_pos (by simpa using hm)]
        cases i with
        | zero => simp [hm]
        | succ i =>
            simp only [List.length_cons, Nat.add_lt_add_iff_right] at hi
            simp only [List.getElem_cons_succ, Nat.add_lt_add_iff_right]
            exact ih hrest hi
      · -- no value is at least `m`
        have hbelow : ∀ a ∈ x :: rest, ¬ m ≤ a := by
          intro a ha hle
          rcases List.mem_cons.1 ha with rfl | ha
          · exact hm hle
          · exact hm (hle.trans (hx a ha))
        have hcount : ((x :: rest).countP fun a => m ≤ a) = 0 := by
          rw [List.countP_eq_zero]
          exact fun a ha => by simpa using hbelow a ha
        rw [hcount]
        refine ⟨fun hle => absurd hle (hbelow _ (List.getElem_mem hi)), fun hlt => ?_⟩
        exact absurd hlt (Nat.not_lt_zero i)

/-- **Order statistics.** -/
theorem le_getElem_mergeSort_iff (m : β) (l : List β) {i : Nat}
    (hi : i < (l.mergeSort fun a b => b ≤ a).length) :
    m ≤ (l.mergeSort fun a b => b ≤ a)[i] ↔ i < l.countP fun a => m ≤ a := by
  have hsorted : (l.mergeSort fun a b => b ≤ a).Pairwise fun a b => b ≤ a := by
    refine (List.pairwise_mergeSort (fun a b c hab hbc => ?_) (fun a b => ?_) l).imp fun h => ?_
    · simp only [decide_eq_true_eq] at hab hbc ⊢
      exact hbc.trans hab
    · simp only [Bool.or_eq_true, decide_eq_true_eq]
      exact le_total b a
    · simpa using h
  rw [le_getElem_iff_of_descending m hsorted hi, (List.mergeSort_perm l _).countP_eq]

end Ranking

end EyaKV.Base
