import Mathlib.Tactic.Common

/-!
# Crash points

An operation that changes a disk in several steps is a list of steps. A crash lets a
prefix of them happen, so a property of the disk that is to survive a crash at any
point is one that holds after every prefix (`EveryCrash`). The rules below take such
a property apart along the list of steps.
-/

set_option autoImplicit false

namespace EyaKV.Base.Crash

universe u v

variable {σ : Type u} {α : Type v} {apply : σ → α → σ} {P : σ → Prop}

/-- `P` holds after every prefix of `steps`, taken from the state `s`. -/
def EveryCrash (apply : σ → α → σ) (P : σ → Prop) (s : σ) (steps : List α) : Prop :=
  ∀ n, P ((steps.take n).foldl apply s)

theorem everyCrash_nil (s : σ) : EveryCrash apply P s [] ↔ P s := by
  constructor
  · intro h
    exact h 0
  · intro h n
    rw [List.take_nil]
    exact h

theorem everyCrash_cons (s : σ) (a : α) (steps : List α) :
    EveryCrash apply P s (a :: steps) ↔ P s ∧ EveryCrash apply P (apply s a) steps := by
  constructor
  · intro h
    exact ⟨h 0, fun n => h (n + 1)⟩
  · rintro ⟨hfirst, hrest⟩ n
    cases n with
    | zero => exact hfirst
    | succ n => exact hrest n

theorem EveryCrash.start {s : σ} {steps : List α} (h : EveryCrash apply P s steps) : P s := h 0

theorem EveryCrash.final {s : σ} {steps : List α} (h : EveryCrash apply P s steps) :
    P (steps.foldl apply s) := by
  have hlast := h steps.length
  rwa [List.take_length] at hlast

/-- A crash during two operations in a row happens in the first one, or in the second
one started from where the first one ended. -/
theorem everyCrash_append (s : σ) (first second : List α) :
    EveryCrash apply P s (first ++ second) ↔
      EveryCrash apply P s first ∧ EveryCrash apply P (first.foldl apply s) second := by
  induction first generalizing s with
  | nil =>
      rw [List.nil_append, List.foldl_nil, everyCrash_nil]
      exact ⟨fun h => ⟨h.start, h⟩, fun h => h.2⟩
  | cons a first ih =>
      rw [List.cons_append, everyCrash_cons, everyCrash_cons, ih, List.foldl_cons, and_assoc]

end EyaKV.Base.Crash
