import Mathlib.Algebra.BigOperators.Group.Finset.Basic
import Mathlib.Algebra.Order.BigOperators.Group.List
import Mathlib.Algebra.Order.Group.Nat
import Mathlib.Data.List.Permutation
import Mathlib.Data.List.Sublists
import Mathlib.Logic.Relation

/-!
# Descent

Tools for a recursion that follows a step relation: no endless chain of steps starts from a state
with an invariant under which every step lowers a measure (`acc_of_measure`). A measure that sums
over places changes with a step only where the step acts (`sum_range_of_agree`), and a function of
lists is bounded on the lists without repetition over a finite supply (`exists_bound_of_nodup`).
-/

set_option autoImplicit false

namespace EyaKV.Base.Descent

open Relation

section Accessible

variable {σ : Type*} {r : σ → σ → Prop} {P : σ → Prop} {μ : σ → Nat}

/-- Chains of steps keep the invariant and lower the measure. -/
theorem lt_of_transGen (hstep : ∀ s s', P s → r s s' → P s' ∧ μ s' < μ s) {s s' : σ} (h : P s)
    (hchain : TransGen r s s') : P s' ∧ μ s' < μ s := by
  induction hchain with
  | single hs => exact hstep _ _ h hs
  | tail _ hs ih =>
      obtain ⟨hP, hlt⟩ := hstep _ _ ih.1 hs
      exact ⟨hP, hlt.trans ih.2⟩

/-- No endless chain starts from a state with an invariant under which every step lowers a
measure. -/
theorem acc_of_measure (hstep : ∀ s s', P s → r s s' → P s' ∧ μ s' < μ s) {s : σ} (h : P s) :
    Acc (fun s' s => TransGen r s s') s := by
  induction hμ : μ s using Nat.strong_induction_on generalizing s with
  | _ n ih =>
    refine Acc.intro s fun s' hchain => ?_
    obtain ⟨hP, hlt⟩ := lt_of_transGen hstep h hchain
    exact ih (μ s') (hμ ▸ hlt) hP rfl

end Accessible

/-- Two sums over places that agree everywhere but at two neighbours. -/
theorem sum_range_of_agree {f g : Nat → Nat} {i n : Nat} (hi : i + 1 < n)
    (hagree : ∀ j, j ≠ i → j ≠ i + 1 → f j = g j) :
    ∑ j ∈ Finset.range n, f j + (g i + g (i + 1)) =
      ∑ j ∈ Finset.range n, g j + (f i + f (i + 1)) := by
  have hpair : ({i, i + 1} : Finset Nat) ⊆ Finset.range n := by
    intro j hj
    simp only [Finset.mem_insert, Finset.mem_singleton] at hj
    rw [Finset.mem_range]
    omega
  have hne : i ≠ i + 1 := Nat.ne_of_lt (Nat.lt_succ_self i)
  have hrest : ∑ j ∈ Finset.range n \ {i, i + 1}, f j =
      ∑ j ∈ Finset.range n \ {i, i + 1}, g j := by
    refine Finset.sum_congr rfl fun j hj => ?_
    simp only [Finset.mem_sdiff, Finset.mem_insert, Finset.mem_singleton, not_or] at hj
    exact hagree j hj.2.1 hj.2.2
  rw [← Finset.sum_sdiff hpair, ← Finset.sum_sdiff hpair, Finset.sum_pair hne,
    Finset.sum_pair hne, hrest]
  omega

/-- There are only finitely many lists without repetition over a finite supply. -/
theorem exists_bound_of_nodup {α : Type*} (f : List α → Nat) (pool : List α) :
    ∃ B, ∀ l : List α, l.Nodup → l ⊆ pool → f l ≤ B := by
  refine ⟨((pool.sublists.flatMap List.permutations).map f).sum, fun l hnodup hsub => ?_⟩
  obtain ⟨l', hperm, hl'⟩ := List.subperm_of_subset hnodup hsub
  apply List.le_sum_of_mem
  refine List.mem_map_of_mem (List.mem_flatMap.2 ⟨l', List.mem_sublists.2 hl', ?_⟩)
  exact List.mem_permutations.2 hperm.symm

end EyaKV.Base.Descent
