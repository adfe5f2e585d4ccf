import EyaKV.Base.SortedList
import Mathlib.Algebra.Order.Ring.Int
import Mathlib.Order.Lattice

/-!
# Positions of a list

`AtPositions l i j xs` says that every position from `i` to `j` is one of the list and that `xs` are
the elements there; the positions are integers, and an interval may be empty. Two indexes, of which
negative ones count from the end of `n` elements, name the positions from `firstPosition` to
`lastPosition`. On a list that is scanned from the left, `length_takeWhile_eq_iff` says where a scan
stops, and `cut_eq_slice_iff` when two scans, one behind the other, cut out the elements between two
positions.
-/

set_option autoImplicit false

namespace EyaKV.Base

universe u

variable {α : Type u} {l xs : List α}

/-- The elements at the positions from `i` to `j`, each of which is a position of the list. -/
structure AtPositions (l : List α) (i j : Int) (xs : List α) : Prop where
  length : xs.length = (j + 1 - i).toNat
  get : ∀ (k : Nat) (a : α), xs[k]? = some a → l[i.toNat + k]? = some a

namespace AtPositions

variable {i j : Int}

theorem nil (h : j < i) : AtPositions l i j [] where
  length := by
    rw [List.length_nil]
    omega
  get k a ha := by
    rw [List.getElem?_nil] at ha
    cases ha

theorem slice (hi : 0 ≤ i) (hij : i ≤ j) (hj : j < l.length) :
    AtPositions l i j ((l.drop i.toNat).take (j + 1 - i).toNat) where
  length := by
    rw [List.length_take, List.length_drop]
    omega
  get k a ha := by
    rw [List.getElem?_take] at ha
    split at ha
    · rwa [List.getElem?_drop] at ha
    · cases ha

/-- The last position of an interval that is not empty is one of the list. -/
theorem lt_length (h : AtPositions l i j xs) (hi : 0 ≤ i) (hij : i ≤ j) : j < l.length := by
  have hlength := h.length
  have hlast : xs[xs.length - 1]? = some xs[xs.length - 1] :=
    List.getElem?_eq_getElem (by omega)
  have hget := (List.getElem?_eq_some_iff.1 (h.get _ _ hlast)).1
  omega

theorem eq_slice (h : AtPositions l i j xs) :
    xs = (l.drop i.toNat).take (j + 1 - i).toNat := by
  have hlength := h.length
  apply List.ext_getElem?
  intro k
  rcases Nat.lt_or_ge k xs.length with hlt | hge
  · have hk : xs[k]? = some xs[k] := List.getElem?_eq_getElem hlt
    rw [hk, List.getElem?_take, if_pos (by omega), List.getElem?_drop, h.get k _ hk]
  · rw [List.getElem?_eq_none hge, List.getElem?_eq_none]
    rw [List.length_take]
    omega

end AtPositions

section Indexes

/-- An index with `n` added when it is negative. -/
def fromEnd (n : Nat) (index : Int) : Int := if index < 0 then index + n else index

/-- The first position of a list of `n` elements that a start index names. -/
def firstPosition (n : Nat) (start : Int) : Int := max 0 (fromEnd n start)

/-- The last position of a list of `n` elements that an end index names. -/
def lastPosition (n : Nat) (stop : Int) : Int := min (n - 1) (fromEnd n stop)

variable {n : Nat} {start stop index : Int}

theorem firstPosition_nonneg : 0 ≤ firstPosition n start := le_max_left _ _

theorem lastPosition_lt : lastPosition n stop < n :=
  lt_of_le_of_lt (min_le_left _ _) (sub_one_lt _)

/-- The position of a start index when a negative sum is set to 0. -/
theorem firstPosition_eq : (if fromEnd n start < 0 then 0 else fromEnd n start) =
    firstPosition n start := by
  rw [firstPosition]
  split
  · omega
  · omega

/-- The position of an end index when one behind the end is set to the last position. -/
theorem lastPosition_eq : (if n ≤ fromEnd n stop then (n : Int) - 1 else fromEnd n stop) =
    lastPosition n stop := by
  rw [lastPosition]
  split
  · omega
  · omega

end Indexes

section Scans

variable {p q : α → Bool} {i j : Nat}

/-- A scan stops at the first element that fails the test, or at the end. -/
theorem length_takeWhile_eq_iff : ∀ {l : List α} {i : Nat}, (l.takeWhile p).length = i ↔
    (∀ k, k < i → ∃ a, l[k]? = some a ∧ p a = true) ∧ ∀ a, l[i]? = some a → p a = false := by
  intro l
  induction l with
  | nil =>
      intro i
      cases i with
      | zero => simp
      | succ i =>
          apply iff_of_false
          · simp
          · rintro ⟨hbefore, -⟩
            obtain ⟨a, ha, -⟩ := hbefore 0 (Nat.succ_pos i)
            rw [List.getElem?_nil] at ha
            cases ha
  | cons b l ih =>
      intro i
      cases hb : p b with
      | false =>
          -- the scan stops at the head, so 0 is the only length
          rw [List.takeWhile_cons_of_neg (by rw [hb]; exact Bool.false_ne_true)]
          cases i with
          | zero => simp [hb]
          | succ i =>
              apply iff_of_false
              · simp
              · rintro ⟨hbefore, -⟩
                obtain ⟨a, ha, hpa⟩ := hbefore 0 (Nat.succ_pos i)
                rw [List.getElem?_cons_zero, Option.some.injEq] at ha
                rw [← ha, hb] at hpa
                cases hpa
      | true =>
          -- the head passes, and the rest is the tail one position on
          rw [List.takeWhile_cons_of_pos hb, List.length_cons]
          cases i with
          | zero => simp [hb]
          | succ i =>
              rw [Nat.add_right_cancel_iff, ih, List.getElem?_cons_succ]
              refine and_congr_left fun _ => ?_
              constructor
              · intro hbefore k hk
                cases k with
                | zero => exact ⟨b, List.getElem?_cons_zero, hb⟩
                | succ k => exact hbefore k (Nat.lt_of_succ_lt_succ hk)
              · intro hbefore k hk
                exact hbefore (k + 1) (Nat.succ_lt_succ hk)

/-- Two scans cut out the elements from one position to another when they stop there. The element
at the first position fails the first test. -/
theorem cut_eq_slice_iff (hij : i ≤ j) {first : α} (hfirst : l[i]? = some first)
    (hfail : p first = false) :
    (((l.drop (l.takeWhile p).length).takeWhile q).length = j + 1 - i ∧
      l.takeWhile p ++ l.drop ((l.takeWhile p).length +
        ((l.drop (l.takeWhile p).length).takeWhile q).length) = l.take i ++ l.drop (j + 1)) ↔
      (∀ k a, k < i → l[k]? = some a → p a = true) ∧
        (∀ k, i ≤ k → k ≤ j → ∃ a, l[k]? = some a ∧ q a = true) ∧
          ∀ a, l[j + 1]? = some a → q a = false := by
  have hlt : i < l.length := (List.getElem?_eq_some_iff.1 hfirst).1
  have htake : l.takeWhile p = l.take (l.takeWhile p).length :=
    List.prefix_iff_eq_take.1 (List.takeWhile_prefix p)
  -- Where the first scan stops, and where the second one does behind it.
  obtain ⟨hbefore, -⟩ := (length_takeWhile_eq_iff (p := p) (l := l)).1 rfl
  -- the element at `i` fails the first test, so the scan is over there at the latest
  have hle : (l.takeWhile p).length ≤ i := by
    by_contra hnot
    obtain ⟨a, ha, hpa⟩ := hbefore i (Nat.lt_of_not_le hnot)
    rw [hfirst, Option.some.injEq] at ha
    rw [← ha, hfail] at hpa
    cases hpa
  have hsecond : ∀ n r : Nat, ((l.drop n).takeWhile q).length = r ↔
      (∀ k, n ≤ k → k < n + r → ∃ a, l[k]? = some a ∧ q a = true) ∧
        ∀ a, l[n + r]? = some a → q a = false := by
    intro n r
    rw [length_takeWhile_eq_iff]
    simp only [List.getElem?_drop]
    refine and_congr_left fun _ => ?_
    constructor
    · intro h k hnk hk
      have hk' := h (k - n) (by omega)
      rwa [Nat.add_sub_cancel' hnk] at hk'
    · intro h k hk
      exact h (n + k) (Nat.le_add_right n k) (by omega)
  constructor
  · rintro ⟨hlength, hrest⟩
    rw [hlength] at hrest
    obtain ⟨hremoved, hstop⟩ := (hsecond _ _).1 hlength
    -- If the first scan stopped early, the element there would be removed, and stand behind, too.
    have heq : (l.takeWhile p).length = i := by
      apply Nat.le_antisymm hle
      by_contra hnot
      obtain ⟨a, ha, hqa⟩ := hremoved _ (Nat.le_refl _) (by omega)
      -- what stands at that position behind the cut is the element where the second scan stopped
      have hget := congrArg (fun xs => xs[(l.takeWhile p).length]?) hrest
      rw [List.getElem?_append_right (Nat.le_refl _), Nat.sub_self, List.getElem?_drop,
        Nat.add_zero, List.getElem?_append_left (by rw [List.length_take]; omega),
        List.getElem?_take_of_lt (by omega), ha] at hget
      rw [hstop a hget] at hqa
      cases hqa
    -- with the first scan stopped at `i`, the conditions are those of the two scans
    rw [heq] at hremoved hstop hbefore
    refine ⟨fun k a hk ha => ?_, fun k hik hkj => hremoved k hik (by omega), ?_⟩
    · obtain ⟨b, hb, hpb⟩ := hbefore k hk
      rw [ha, Option.some.injEq] at hb
      rwa [hb]
    · intro a ha
      exact hstop a (by rwa [show i + (j + 1 - i) = j + 1 by omega])
  · rintro ⟨hbefore', hbetween, hbehind⟩
    have heq : (l.takeWhile p).length = i := by
      rw [length_takeWhile_eq_iff]
      refine ⟨fun k hk => ?_, fun a ha => ?_⟩
      · have hget : l[k]? = some l[k] := List.getElem?_eq_getElem (Nat.lt_trans hk hlt)
        exact ⟨_, hget, hbefore' k _ hk hget⟩
      · rw [hfirst, Option.some.injEq] at ha
        rwa [← ha]
    -- the second scan starts at `i`, passes up to `j` and stops behind
    have hlength : ((l.drop i).takeWhile q).length = j + 1 - i := by
      rw [hsecond]
      refine ⟨fun k hik hk => hbetween k hik (by omega), fun a ha => hbehind a ?_⟩
      rwa [show i + (j + 1 - i) = j + 1 by omega] at ha
    rw [htake, heq, List.length_take_of_le (Nat.le_of_lt hlt), hlength]
    exact ⟨rfl, by rw [show i + (j + 1 - i) = j + 1 by omega]⟩

end Scans

end EyaKV.Base
