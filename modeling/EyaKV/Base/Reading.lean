import EyaKV.Base.Framing

/-!
# Readers of a memory

A reader asks for one symbol after the other and goes on with what it got, until it has its
result. It can be run on a list, where it stops without a result when the list is used up
(`run`), or on a memory that has a symbol at every position (`value`), where nothing stops it;
then `reads` are the positions that it looks at. `reads_lt_iff` says that a reader stays
within the first symbols of a memory exactly when it has a result on the list of them.
-/

set_option autoImplicit false

namespace EyaKV.Base

open EyaKV.Base.Framing

/-- Asks for symbols until it has a result. -/
inductive Reader (σ α : Type) where
  | done (a : α)
  | next (k : σ → Reader σ α)

namespace Reader

variable {σ α β : Type}

/-- One reader after the other. -/
def bind : Reader σ α → (α → Reader σ β) → Reader σ β
  | .done a, f => f a
  | .next k, f => .next fun s => (k s).bind f

instance : Monad (Reader σ) where
  pure := .done
  bind := bind

/-- One symbol. -/
def symbol : Reader σ σ := .next .done

/-- `n` symbols. -/
def symbols : Nat → Reader σ (List σ)
  | 0 => .done []
  | n + 1 => .next fun s => (symbols n).bind fun rest => .done (s :: rest)

/-- `n` results one after the other. -/
def count (r : Reader σ α) : Nat → Reader σ (List α)
  | 0 => .done []
  | n + 1 => r.bind fun a => (r.count n).bind fun as => .done (a :: as)

section Lists

/-- The reader on a list. -/
def run : Reader σ α → Decoder σ α
  | .done a, input => some (a, input)
  | .next _, [] => none
  | .next k, s :: rest => (k s).run rest

@[simp] theorem run_pure (a : α) (input : List σ) :
    (pure a : Reader σ α).run input = some (a, input) := rfl

@[simp] theorem run_bind (r : Reader σ α) (f : α → Reader σ β) (input : List σ) :
    (r >>= f).run input = (r.run input).bind fun p => (f p.1).run p.2 := by
  induction r generalizing input with
  | done a => rfl
  | next k ih =>
      cases input with
      | nil => rfl
      | cons s rest => exact ih s rest

theorem run_symbols (n : Nat) (input : List σ) : (symbols n).run input =
    if input.length < n then none else some (input.take n, input.drop n) := by
  induction n generalizing input with
  | zero => rfl
  | succ n ih =>
      cases input with
      | nil => rfl
      | cons s rest =>
          have hbind : (symbols (n + 1)).run (s :: rest) =
              ((symbols n).run rest).bind fun p => some (s :: p.1, p.2) := run_bind _ _ _
          rw [hbind, ih]
          by_cases hlt : rest.length < n
          · simp only [List.length_cons, Nat.add_lt_add_iff_right, hlt, ↓reduceIte,
              Option.bind_none]
          · simp only [List.length_cons, Nat.add_lt_add_iff_right, hlt, ↓reduceIte,
              List.take_succ_cons, List.drop_succ_cons, Option.bind_some]

theorem run_count (r : Reader σ α) (n : Nat) : (r.count n).run = Framing.count r.run n := by
  induction n with
  | zero => rfl
  | succ n ih =>
      funext input
      have hbind : (r.count (n + 1)).run input = (r.run input).bind fun p =>
          ((r.count n).run p.2).bind fun q => some (p.1 :: q.1, q.2) := by
        refine (run_bind r _ input).trans (congrArg _ (funext fun p => ?_))
        exact run_bind _ _ _
      rw [hbind, ih]
      rfl

/-- What a reader yields, from what its parts yield. -/
theorem yields_bind {P : α → Prop} {Q : β → Prop} {r : Reader σ α} {f : α → Reader σ β}
    (hr : Yields P r.run) (hf : ∀ a, P a → Yields Q (f a).run) : Yields Q (r >>= f).run := by
  intro input b rest h
  rw [run_bind] at h
  obtain ⟨⟨a, rest'⟩, ha, hb⟩ := Option.bind_eq_some_iff.1 h
  exact hf a (hr _ a _ ha) _ b _ hb

theorem yields_pure {P : α → Prop} {a : α} (h : P a) : Yields P (pure a : Reader σ α).run := by
  rintro input b rest heq
  obtain ⟨rfl, -⟩ := Prod.mk.inj (Option.some.inj heq)
  exact h

theorem yields_symbols (n : Nat) :
    Yields (fun l : List σ => l.length = n) (symbols n).run := by
  intro input l rest h
  rw [run_symbols] at h
  obtain ⟨hle, heq⟩ := Option.ite_none_left_eq_some.1 h
  obtain ⟨rfl, -⟩ := Prod.mk.inj (Option.some.inj heq)
  rw [List.length_take]
  omega

theorem yields_count {P : α → Prop} {r : Reader σ α} (h : Yields P r.run) (n : Nat) :
    Yields (fun as => as.length = n ∧ ∀ a ∈ as, P a) (r.count n).run := by
  rw [run_count]
  exact h.count n

end Lists

section Memories

variable (memory : Nat → σ)

/-- The result on a memory, from a position on. -/
def value : Reader σ α → Nat → α
  | .done a, _ => a
  | .next k, i => (k (memory i)).value (i + 1)

/-- The positions that the reader looks at. -/
def reads : Reader σ α → Nat → List Nat
  | .done _, _ => []
  | .next k, i => i :: (k (memory i)).reads (i + 1)

variable {memory}

/-- The memory has the symbols of the list, from a position on. -/
def Holds (memory : Nat → σ) (start : Nat) (input : List σ) : Prop :=
  ∀ i s, input[i]? = some s → memory (start + i) = s

theorem Holds.tail {start : Nat} {s : σ} {rest : List σ} (h : Holds memory start (s :: rest)) :
    memory start = s ∧ Holds memory (start + 1) rest := by
  refine ⟨h 0 s rfl, fun i t hi => ?_⟩
  rw [Nat.add_assoc, Nat.add_comm 1 i]
  exact h (i + 1) t hi

/-- **A reader stays within the symbols of a list exactly when it has a result on them.** -/
theorem reads_lt_iff (r : Reader σ α) {start : Nat} {input : List σ}
    (hholds : Holds memory start input) :
    (∀ i ∈ r.reads memory start, i < start + input.length) ↔ (r.run input).isSome = true := by
  induction r generalizing start input with
  | done a =>
      refine iff_of_true (fun i hi => absurd hi List.not_mem_nil) rfl
  | next k ih =>
      cases input with
      | nil =>
          refine iff_of_false (fun h => ?_) nofun
          exact Nat.lt_irrefl start (h start List.mem_cons_self)
      | cons s rest =>
          obtain ⟨hs, hrest⟩ := hholds.tail
          have htail := ih s hrest
          rw [List.length_cons]
          have hpos : start < start + (rest.length + 1) := Nat.lt_add_of_pos_right (Nat.succ_pos _)
          simp only [reads, hs, List.forall_mem_cons, hpos, true_and, run]
          rw [← htail, Nat.add_assoc, Nat.add_comm 1 rest.length]

/-- Within the symbols the memory gives the result of the list. -/
theorem value_of_run (r : Reader σ α) {start : Nat} {input rest : List σ} {a : α}
    (hholds : Holds memory start input) (hrun : r.run input = some (a, rest)) :
    r.value memory start = a := by
  induction r generalizing start input with
  | done b =>
      obtain ⟨rfl, -⟩ := Prod.mk.inj (Option.some.inj hrun)
      rfl
  | next k ih =>
      cases input with
      | nil => cases hrun
      | cons s tail =>
          obtain ⟨hs, htail⟩ := hholds.tail
          rw [value, hs]
          exact ih s htail hrun

end Memories

end Reader

end EyaKV.Base
