import EyaKV.Base.Reading
import Mathlib.Computability.Language
import Mathlib.Order.ConditionallyCompleteLattice.Basic
import Mathlib.Order.CompletePartialOrder

/-!
# The layouts that readers follow

The words that a reader uses up form a language, and this file says for each way of putting readers
together which language that is: `Recognizes` when what follows does not depend on what was read,
`RecognizesAt` when it does. A reader has a result on a list exactly when the list begins with a
word of its language (`Recognizes.isSome_iff`), and by `reads_lt_iff` it then stays within the list.
-/

set_option autoImplicit false

namespace EyaKV.Base.Reader

variable {σ α β : Type}

/-- The reader uses up exactly the words of the language. -/
def Recognizes (r : Reader σ α) (L : Language σ) : Prop :=
  ∀ input rest, (∃ a, r.run input = some (a, rest)) ↔ ∃ p ∈ L, input = p ++ rest

/-- With the result `a` the reader uses up exactly the words of `L a`. -/
def RecognizesAt (r : Reader σ α) (L : α → Language σ) : Prop :=
  ∀ input a rest, r.run input = some (a, rest) ↔ ∃ p ∈ L a, input = p ++ rest

theorem recognizes_pure (a : α) : Recognizes (pure a : Reader σ α) 1 := by
  intro input rest
  constructor
  · rintro ⟨b, hrun⟩
    obtain ⟨-, rfl⟩ := Prod.mk.inj (Option.some.inj hrun)
    exact ⟨[], Language.nil_mem_one, rfl⟩
  · rintro ⟨p, hp, rfl⟩
    obtain rfl := (Language.mem_one p).1 hp
    exact ⟨a, rfl⟩

theorem recognizesAt_symbol : RecognizesAt (symbol : Reader σ σ) fun s => {[s]} := by
  intro input s rest
  constructor
  · intro hrun
    cases input with
    | nil => cases hrun
    | cons t tail =>
        obtain ⟨rfl, rfl⟩ := Prod.mk.inj (Option.some.inj hrun)
        exact ⟨[t], rfl, rfl⟩
  · rintro ⟨p, rfl, rfl⟩
    rfl

theorem recognizes_symbols (n : Nat) :
    Recognizes (symbols n : Reader σ (List σ)) {l | l.length = n} := by
  intro input rest
  constructor
  · rintro ⟨l, hrun⟩
    rw [run_symbols] at hrun
    obtain ⟨hle, heq⟩ := Option.ite_none_left_eq_some.1 hrun
    obtain ⟨rfl, rfl⟩ := Prod.mk.inj (Option.some.inj heq)
    exact ⟨input.take n, List.length_take_of_le (Nat.le_of_not_lt hle),
      (List.take_append_drop n input).symm⟩
  · rintro ⟨p, hp, rfl⟩
    obtain rfl : p.length = n := hp
    refine ⟨p, ?_⟩
    rw [run_symbols, if_neg (by rw [List.length_append]; omega), List.take_left, List.drop_left]

/-- One reader after the other, when the second one's language depends on what the first one
read. -/
theorem RecognizesAt.bind {r : Reader σ α} {f : α → Reader σ β} {L : α → Language σ}
    {L' : α → Language σ} (hr : RecognizesAt r L) (hf : ∀ a, Recognizes (f a) (L' a)) :
    Recognizes (r >>= f) (⨆ a, L a * L' a) := by
  intro input rest
  constructor
  · rintro ⟨b, hrun⟩
    rw [run_bind] at hrun
    obtain ⟨⟨a, middle⟩, ha, hb⟩ := Option.bind_eq_some_iff.1 hrun
    obtain ⟨p, hp, rfl⟩ := (hr input a middle).1 ha
    obtain ⟨q, hq, rfl⟩ := (hf a middle rest).1 ⟨b, hb⟩
    exact ⟨p ++ q, Language.mem_iSup.2 ⟨a, Language.append_mem_mul hp hq⟩,
      (List.append_assoc p q rest).symm⟩
  · rintro ⟨word, hword, rfl⟩
    obtain ⟨a, hword⟩ := Language.mem_iSup.1 hword
    obtain ⟨p, hp, q, hq, rfl⟩ := Language.mem_mul.1 hword
    have ha := (hr (p ++ (q ++ rest)) a (q ++ rest)).2 ⟨p, hp, rfl⟩
    obtain ⟨b, hb⟩ := (hf a (q ++ rest) rest).2 ⟨q, hq, rfl⟩
    exact ⟨b, by rw [run_bind, List.append_assoc, ha, Option.bind_some, hb]⟩

/-- One reader after the other. -/
theorem Recognizes.bind {r : Reader σ α} {f : α → Reader σ β} {L L' : Language σ}
    (hr : Recognizes r L) (hf : ∀ a, Recognizes (f a) L') : Recognizes (r >>= f) (L * L') := by
  intro input rest
  constructor
  · rintro ⟨b, hrun⟩
    rw [run_bind] at hrun
    obtain ⟨⟨a, middle⟩, ha, hb⟩ := Option.bind_eq_some_iff.1 hrun
    obtain ⟨p, hp, rfl⟩ := (hr input middle).1 ⟨a, ha⟩
    obtain ⟨q, hq, rfl⟩ := (hf a middle rest).1 ⟨b, hb⟩
    exact ⟨p ++ q, Language.append_mem_mul hp hq, (List.append_assoc p q rest).symm⟩
  · rintro ⟨word, hword, rfl⟩
    obtain ⟨p, hp, q, hq, rfl⟩ := Language.mem_mul.1 hword
    obtain ⟨a, ha⟩ := (hr (p ++ (q ++ rest)) (q ++ rest)).2 ⟨p, hp, rfl⟩
    obtain ⟨b, hb⟩ := (hf a (q ++ rest) rest).2 ⟨q, hq, rfl⟩
    exact ⟨b, by rw [run_bind, List.append_assoc, ha, Option.bind_some, hb]⟩

/-- The last part of a record. -/
theorem Recognizes.last {r : Reader σ α} {L : Language σ} (hr : Recognizes r L) (f : α → β) :
    Recognizes (r >>= fun a => pure (f a)) L := by
  have hbind := hr.bind fun a => recognizes_pure (σ := σ) (f a)
  rwa [mul_one] at hbind

theorem Recognizes.count {r : Reader σ α} {L : Language σ} (hr : Recognizes r L) (n : Nat) :
    Recognizes (r.count n) (L ^ n) := by
  induction n with
  | zero => exact recognizes_pure ([] : List α)
  | succ n ih =>
      rw [pow_succ']
      exact hr.bind fun a => ih.last (a :: ·)

/-- **A reader has a result exactly on the lists that begin with a word of its language.** -/
theorem Recognizes.isSome_iff {r : Reader σ α} {L : Language σ} (hr : Recognizes r L)
    (input : List σ) : (r.run input).isSome = true ↔ ∃ p ∈ L, p <+: input := by
  rw [Option.isSome_iff_exists]
  constructor
  · rintro ⟨⟨a, rest⟩, hrun⟩
    obtain ⟨p, hp, rfl⟩ := (hr input rest).1 ⟨a, hrun⟩
    exact ⟨p, hp, List.prefix_append p rest⟩
  · rintro ⟨p, hp, rest, rfl⟩
    obtain ⟨a, ha⟩ := (hr (p ++ rest) rest).2 ⟨p, hp, rfl⟩
    exact ⟨(a, rest), ha⟩

end EyaKV.Base.Reader
