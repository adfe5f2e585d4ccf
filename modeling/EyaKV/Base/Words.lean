import EyaKV.Base.SortedList
import Mathlib.Data.List.Basic
import Mathlib.Data.Prod.Basic

/-!
# Words between separators

The words of a list are its maximal runs of elements that are no separators, in their order
(`AreWords`). A scan from the left knows the runs that have ended and the start of the one that has
not (`Scanned`). An element that is no separator changes neither (`Scanned.extend`), and a
separator ends the open run unless it is empty (`Scanned.close`), as the end of the list does
(`Scanned.finish`). A list has its words once (`AreWords.unique`).
-/

set_option autoImplicit false

namespace EyaKV.Base

universe u

variable {α : Type u} (sep : α → Bool)

section Definitions

/-- The elements from `i` on and before `j`. -/
def slice (l : List α) (i j : Nat) : List α := (l.drop i).take (j - i)

/-- The positions from `i` on and before `j` hold no separator, and the positions next to them, if
there are any, do. -/
structure MaximalRun (l : List α) (i j : Nat) : Prop where
  nonempty : i < j
  inside : ∀ k, i ≤ k → k < j → ∃ a, l[k]? = some a ∧ sep a = false
  left : ∀ k a, k + 1 = i → l[k]? = some a → sep a = true
  right : ∀ a, l[j]? = some a → sep a = true

/-- Each run ends before the next one begins. -/
def Apart (runs : List (Nat × Nat)) : Prop := runs.Pairwise fun r r' => r.2 < r'.1

/-- The words are the maximal runs, in their order. -/
def AreWords (l : List α) (words : List (List α)) : Prop :=
  ∃ runs : List (Nat × Nat), Apart runs ∧ (∀ i j, (i, j) ∈ runs ↔ MaximalRun sep l i j) ∧
    words = runs.map fun r => slice l r.1 r.2

/-- What a scan knows in front of position `n`: the runs that ended before `start`, and that no
separator stands between `start`, which is 0 or comes behind one, and `n`. -/
structure Scanned (l : List α) (n : Nat) (runs : List (Nat × Nat)) (start : Nat) : Prop where
  le : start ≤ n
  inside : ∀ k, start ≤ k → k < n → ∃ a, l[k]? = some a ∧ sep a = false
  left : ∀ k, k + 1 = start → ∃ a, l[k]? = some a ∧ sep a = true
  apart : Apart runs
  holds : ∀ i j, (i, j) ∈ runs ↔ MaximalRun sep l i j ∧ j < start

/-- The runs of a scan with the open one, unless it is empty. -/
def closed (runs : List (Nat × Nat)) (start n : Nat) : List (Nat × Nat) :=
  if start < n then runs ++ [(start, n)] else runs

end Definitions

variable {sep} {l : List α} {n start : Nat} {runs : List (Nat × Nat)}

section Slices

@[simp] theorem slice_self (l : List α) (i : Nat) : slice l i i = [] := by
  simp [slice]

theorem slice_succ {a : α} (hle : start ≤ n) (ha : l[n]? = some a) :
    slice l start (n + 1) = slice l start n ++ [a] := by
  have hget : (l.drop start)[n - start]? = some a := by
    rw [List.getElem?_drop, Nat.add_sub_cancel' hle, ha]
  rw [slice, slice, Nat.succ_sub hle, List.take_add_one, hget, Option.toList_some]

theorem slice_eq_nil_iff (hn : n ≤ l.length) : slice l start n = [] ↔ n ≤ start := by
  rw [slice, ← List.length_eq_zero_iff, List.length_take, List.length_drop]
  omega

theorem MaximalRun.le_length {i j : Nat} (h : MaximalRun sep l i j) : j ≤ l.length := by
  obtain ⟨a, ha, -⟩ := h.inside (j - 1) (by have := h.nonempty; omega) (by have := h.nonempty; omega)
  have hlt := (List.getElem?_eq_some_iff.1 ha).1
  omega

theorem MaximalRun.slice_ne_nil {i j : Nat} (h : MaximalRun sep l i j) : slice l i j ≠ [] := by
  intro hnil
  have hle := (slice_eq_nil_iff h.le_length).1 hnil
  exact absurd h.nonempty (Nat.not_lt_of_le hle)

end Slices

namespace Scanned

theorem zero (l : List α) : Scanned sep l 0 [] 0 := by
  constructor
  case le => exact Nat.le_refl 0
  case inside =>
    intro k _ hk
    cases hk
  case left =>
    intro k hk
    cases hk
  case apart => exact List.Pairwise.nil
  case holds =>
    intro i j
    apply iff_of_false List.not_mem_nil
    exact fun h => Nat.not_lt_zero j h.2

/-- An element that is no separator goes on with the open run. -/
theorem extend (h : Scanned sep l n runs start) {a : α} (ha : l[n]? = some a)
    (hsep : sep a = false) : Scanned sep l (n + 1) runs start where
  le := Nat.le_succ_of_le h.le
  inside k hstart hk := by
    rcases Nat.lt_succ_iff_lt_or_eq.1 hk with hlt | rfl
    · exact h.inside k hstart hlt
    · exact ⟨a, ha, hsep⟩
  left := h.left
  apart := h.apart
  holds := h.holds

/-- A maximal run that ends behind the start of the open one, and not behind `n`, is the open one
when it ends at `n`. -/
theorem eq_open (h : Scanned sep l n runs start) {i j : Nat} (hrun : MaximalRun sep l i j)
    (hstart : start ≤ j) (hj : j ≤ n) : i = start ∧ j = n := by
  have hlt := hrun.nonempty
  -- Inside the open run stands no separator, so the run cannot end there.
  have hend : j = n := by
    apply Nat.le_antisymm hj
    apply Nat.le_of_not_lt
    intro hjn
    obtain ⟨a, ha, hsep⟩ := h.inside j hstart hjn
    rw [hrun.right a ha] at hsep
    cases hsep
  refine ⟨Nat.le_antisymm ?_ ?_, hend⟩
  · apply Nat.le_of_not_lt
    intro hi
    -- a run that starts later would have a separator in front of it, inside the open run
    obtain ⟨a, ha, hsep⟩ := h.inside (i - 1) (by omega) (by omega)
    rw [hrun.left (i - 1) a (by omega) ha] at hsep
    cases hsep
  · apply Nat.le_of_not_lt
    intro hi
    -- a run that starts earlier would hold the separator in front of the open run
    obtain ⟨a, ha, hsep⟩ := h.left (start - 1) (by omega)
    obtain ⟨b, hb, hsep'⟩ := hrun.inside (start - 1) (by omega) (by omega)
    rw [ha, Option.some.injEq] at hb
    rw [← hb, hsep] at hsep'
    cases hsep'

/-- The open run is maximal when nothing but a separator follows. -/
theorem open_maximal (h : Scanned sep l n runs start) (hlt : start < n)
    (hright : ∀ a, l[n]? = some a → sep a = true) : MaximalRun sep l start n where
  nonempty := hlt
  inside := h.inside
  left k a hk ha := by
    obtain ⟨b, hb, hsep⟩ := h.left k hk
    rw [ha, Option.some.injEq] at hb
    rwa [hb]
  right := hright

/-- With the open run, the runs are those that end at `n` or before. -/
theorem mem_closed (h : Scanned sep l n runs start)
    (hright : ∀ a, l[n]? = some a → sep a = true) (i j : Nat) :
    (i, j) ∈ closed runs start n ↔ MaximalRun sep l i j ∧ j ≤ n := by
  have hle := h.le
  constructor
  · intro hmem
    rw [closed] at hmem
    split at hmem
    · next hlt =>
        rcases List.mem_append.1 hmem with hmem | hmem
        · obtain ⟨hrun, hj⟩ := (h.holds i j).1 hmem
          exact ⟨hrun, by omega⟩
        · obtain ⟨rfl, rfl⟩ := Prod.mk.inj (List.mem_singleton.1 hmem)
          exact ⟨h.open_maximal hlt hright, Nat.le_refl _⟩
    · obtain ⟨hrun, hj⟩ := (h.holds i j).1 hmem
      exact ⟨hrun, by omega⟩
  · rintro ⟨hrun, hj⟩
    rw [closed]
    rcases Nat.lt_or_ge j start with hbefore | hbehind
    · have hmem := (h.holds i j).2 ⟨hrun, hbefore⟩
      split
      · exact List.mem_append_left _ hmem
      · exact hmem
    · -- behind the start of the open run there is only the open run
      obtain ⟨rfl, rfl⟩ := h.eq_open hrun hbehind hj
      rw [if_pos hrun.nonempty]
      exact List.mem_append_right _ List.mem_cons_self

theorem apart_closed (h : Scanned sep l n runs start) : Apart (closed runs start n) := by
  rw [closed]
  split
  · refine List.pairwise_append.2 ⟨h.apart, List.pairwise_singleton _ _, ?_⟩
    rintro ⟨i, j⟩ hmem r hr
    rw [List.mem_singleton.1 hr]
    exact ((h.holds i j).1 hmem).2
  · exact h.apart

/-- A separator ends the open run. -/
theorem close (h : Scanned sep l n runs start) {a : α} (ha : l[n]? = some a) (hsep : sep a = true) :
    Scanned sep l (n + 1) (closed runs start n) (n + 1) where
  le := Nat.le_refl _
  inside k hle hlt := absurd hlt (Nat.not_lt_of_le hle)
  left k hk := by
    rw [Nat.succ.inj hk]
    exact ⟨a, ha, hsep⟩
  apart := h.apart_closed
  holds i j := by
    -- what follows the open run is the separator just read
    rw [h.mem_closed, Nat.lt_succ_iff]
    intro b hb
    rw [ha, Option.some.injEq] at hb
    rwa [← hb]

/-- The end of the list does, too. -/
theorem finish (h : Scanned sep l l.length runs start) :
    AreWords sep l ((closed runs start l.length).map fun r => slice l r.1 r.2) := by
  refine ⟨_, h.apart_closed, fun i j => ?_, rfl⟩
  rw [h.mem_closed, and_iff_left_iff_imp]
  · exact fun hrun => hrun.le_length
  · -- nothing follows the end of the list
    intro a ha
    rw [List.getElem?_eq_none (Nat.le_refl _)] at ha
    cases ha

end Scanned

namespace AreWords

variable {words words' : List (List α)}

theorem unique (h : AreWords sep l words) (h' : AreWords sep l words') : words = words' := by
  obtain ⟨runs, hapart, hruns, rfl⟩ := h
  obtain ⟨runs', hapart', hruns', rfl⟩ := h'
  -- The runs ascend by their starts, and both lists hold the same ones.
  have hascending : ∀ {rs : List (Nat × Nat)}, Apart rs →
      (∀ i j, (i, j) ∈ rs ↔ MaximalRun sep l i j) → Ascending Prod.fst rs := by
    intro rs hap hrs
    apply List.Pairwise.imp_of_mem _ hap
    rintro ⟨i, j⟩ r hmem - hlt
    exact Nat.lt_trans ((hrs i j).1 hmem).nonempty hlt
  have heq : runs = runs' := by
    apply (hascending hapart hruns).eq_of_mem_iff (hascending hapart' hruns')
    rintro ⟨i, j⟩
    rw [hruns, hruns']
  rw [heq]

theorem nil_not_mem (h : AreWords sep l words) : [] ∉ words := by
  obtain ⟨runs, -, hruns, rfl⟩ := h
  rw [List.mem_map]
  rintro ⟨⟨i, j⟩, hmem, hnil⟩
  exact ((hruns i j).1 hmem).slice_ne_nil hnil

/-- A list of separators has no words. -/
theorem eq_nil_of_blank (h : AreWords sep l words) (hblank : ∀ a ∈ l, sep a = true) : words = [] := by
  obtain ⟨runs, -, hruns, rfl⟩ := h
  rw [List.map_eq_nil_iff, List.eq_nil_iff_forall_not_mem]
  rintro ⟨i, j⟩ hmem
  have hrun := (hruns i j).1 hmem
  obtain ⟨a, ha, hsep⟩ := hrun.inside i (Nat.le_refl i) hrun.nonempty
  rw [hblank a (List.mem_of_getElem? ha)] at hsep
  cases hsep

end AreWords

end EyaKV.Base
