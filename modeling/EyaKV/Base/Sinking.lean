import Mathlib.Data.List.Pairwise
import Mathlib.Data.Nat.Find
import Mathlib.Data.Option.Basic
import Mathlib.Order.Monotone.Basic
import Mathlib.Tactic.Common

/-!
# Versions that sink under a reader

Versions lie at depths, and the least depth with a version of a key decides what the key reads
(`first`). One thread moves versions to greater depths and drops dead ones; another one reads one
depth after the other, from 0 on, and takes the first version that it meets (`descend`). It never
sees the depths of one state.

It finds what it should all the same when every step of the mover only sinks versions (`Lowers`):
where a key has no version above a depth, none appears there, and what the key reads stays the
same. So a reader that has come to a depth without a version has missed nothing, unless the mover
has opened depths that the reader does not visit (`descend_spec`).

The mover does not look at the reader, so its states are a list that does not depend on the
interleaving (`Follows`), and an interleaving is a way for the reader to go along the list
(`Interleaves`).
-/

set_option autoImplicit false

namespace EyaKV.Base.Sinking

universe u v

variable {κ : Type u} {ν : Type v}

section Depths

/-- The key has no version above the depth. -/
def Clear (s : Nat → κ → Option ν) (d : Nat) (k : κ) : Prop := ∀ i < d, s i k = none

open Classical in
/-- The version at the least depth that has one. -/
noncomputable def first (s : Nat → κ → Option ν) (k : κ) : Option ν :=
  if h : ∃ d, s d k ≠ none then s (Nat.find h) k else none

variable {s s' s'' : Nat → κ → Option ν} {d : Nat} {k : κ}

theorem Clear.zero (s : Nat → κ → Option ν) (k : κ) : Clear s 0 k := fun _ h => absurd h (Nat.not_lt_zero _)

theorem Clear.succ (h : Clear s d k) (hd : s d k = none) : Clear s (d + 1) k := by
  intro i hi
  rcases Nat.lt_succ_iff_lt_or_eq.1 hi with hi | rfl
  · exact h i hi
  · exact hd

theorem Clear.mono {e : Nat} (h : Clear s d k) (he : e ≤ d) : Clear s e k :=
  fun i hi => h i (Nat.lt_of_lt_of_le hi he)

theorem first_eq_none (h : ∀ d, s d k = none) : first s k = none := by
  rw [first, dif_neg]
  rintro ⟨d, hd⟩
  exact hd (h d)

theorem first_eq_some (h : Clear s d k) {v : ν} (hv : s d k = some v) : first s k = some v := by
  classical
  have hex : ∃ d, s d k ≠ none := ⟨d, by rw [hv]; exact Option.some_ne_none v⟩
  have hfind : Nat.find hex = d := by
    rw [Nat.find_eq_iff]
    exact ⟨by rw [hv]; exact Option.some_ne_none v, fun i hi hne => hne (h i hi)⟩
  rw [first, dif_pos hex, hfind, hv]

/-- A key has no version, or it has a first one. -/
theorem first_cases (s : Nat → κ → Option ν) (k : κ) :
    (∀ d, s d k = none) ∨ ∃ d v, Clear s d k ∧ s d k = some v := by
  classical
  by_cases hex : ∃ d, s d k ≠ none
  · obtain ⟨v, hv⟩ := Option.ne_none_iff_exists'.1 (Nat.find_spec hex)
    exact Or.inr ⟨Nat.find hex, v, fun i hi => not_not.1 (Nat.find_min hex hi), hv⟩
  · exact Or.inl fun d => not_not.1 fun hd => hex ⟨d, hd⟩

theorem first_congr (h : ∀ d, s' d k = s d k) : first s' k = first s k := by
  rcases first_cases s k with hnone | ⟨d, v, hclear, hv⟩
  · rw [first_eq_none hnone, first_eq_none fun d => (h d).trans (hnone d)]
  · rw [first_eq_some hclear hv,
      first_eq_some (fun i hi => (h i).trans (hclear i hi)) ((h d).trans hv)]

/-- What lies below a version does not matter. -/
theorem first_of_not_clear (h : ∀ i < d, s' i k = s i k) (hd : ¬ Clear s d k) :
    first s' k = first s k := by
  rcases first_cases s k with hnone | ⟨e, v, hclear, hv⟩
  · exact absurd (fun i _ => hnone i) hd
  · have he : e < d := by
      by_contra hge
      exact hd (hclear.mono (Nat.le_of_not_lt hge))
    rw [first_eq_some hclear hv,
      first_eq_some (fun i hi => (h i (Nat.lt_trans hi he)).trans (hclear i hi)) ((h e he).trans hv)]

/-- One more depth on top. -/
def under (top : κ → Option ν) (s : Nat → κ → Option ν) : Nat → κ → Option ν
  | 0 => top
  | d + 1 => s d

theorem clear_under {top : κ → Option ν} :
    Clear (under top s) (d + 1) k ↔ top k = none ∧ Clear s d k := by
  constructor
  · intro h
    exact ⟨h 0 (Nat.succ_pos d), fun i hi => h (i + 1) (Nat.succ_lt_succ hi)⟩
  · rintro ⟨htop, h⟩ i hi
    cases i with
    | zero => exact htop
    | succ i => exact h i (Nat.lt_of_succ_lt_succ hi)

theorem first_under (top : κ → Option ν) (s : Nat → κ → Option ν) (k : κ) :
    first (under top s) k = (top k).or (first s k) := by
  cases htop : top k with
  | some v => rw [first_eq_some (Clear.zero _ k) htop, Option.some_or]
  | none =>
      rw [Option.none_or]
      rcases first_cases s k with hnone | ⟨d, v, hclear, hv⟩
      · rw [first_eq_none hnone, first_eq_none]
        intro d
        cases d with
        | zero => exact htop
        | succ d => exact hnone d
      · rw [first_eq_some hclear hv, first_eq_some (clear_under.2 ⟨htop, hclear⟩) hv]

end Depths

section Moving

variable {live : ν → Bool} {s s' s'' : Nat → κ → Option ν} {d : Nat}

/-- Versions sink only, and every key reads the same. -/
structure Lowers (live : ν → Bool) (s s' : Nat → κ → Option ν) : Prop where
  sinks : ∀ d k, Clear s d k → Clear s' d k
  shows : ∀ k, (first s' k).filter live = (first s k).filter live

theorem Lowers.rfl : Lowers live s s := ⟨fun _ _ h => h, fun _ => Eq.refl _⟩

theorem Lowers.trans (h : Lowers live s s') (h' : Lowers live s' s'') : Lowers live s s'' :=
  ⟨fun d k hclear => h'.sinks d k (h.sinks d k hclear), fun k => (h'.shows k).trans (h.shows k)⟩

/-- Versions are added at a depth, under others of their keys. -/
theorem lowers_add (hd : ∀ k, Clear s d k → s' d k = s d k) (hother : ∀ i, i ≠ d → s' i = s i) :
    Lowers live s s' := by
  have habove : ∀ k, ∀ i < d, s' i k = s i k :=
    fun k i hi => congrFun (hother i (Nat.ne_of_lt hi)) k
  have hall : ∀ k, Clear s d k → ∀ i, s' i k = s i k := by
    intro k hclear i
    by_cases hi : i = d
    · rw [hi]
      exact hd k hclear
    · exact congrFun (hother i hi) k
  constructor
  · intro e k hclear i hi
    by_cases hle : e ≤ d
    · rw [habove k i (Nat.lt_of_lt_of_le hi hle)]
      exact hclear i hi
    · rw [hall k (hclear.mono (Nat.le_of_not_le hle)) i]
      exact hclear i hi
  · intro k
    by_cases hclear : Clear s d k
    · rw [first_congr (hall k hclear)]
    · rw [first_of_not_clear (habove k) hclear]

/-- Versions are dropped that do not decide. -/
theorem lowers_remove (hgone : ∀ i k, s i k = none → s' i k = none)
    (hshows : ∀ k, (first s' k).filter live = (first s k).filter live) : Lowers live s s' :=
  ⟨fun _ k hclear i hi => hgone i k (hclear i hi), hshows⟩

/-- The depths sink under one that stays. -/
theorem Lowers.under (h : Lowers live s s') (top : κ → Option ν) :
    Lowers live (under top s) (under top s') := by
  constructor
  · intro d k hclear
    cases d with
    | zero => exact Clear.zero _ k
    | succ d =>
        rw [clear_under] at hclear ⊢
        exact ⟨hclear.1, h.sinks d k hclear.2⟩
  · intro k
    rw [first_under, first_under]
    cases top k with
    | some v => rw [Option.some_or, Option.some_or]
    | none =>
        rw [Option.none_or, Option.none_or]
        exact h.shows k

end Moving

section Reading

/-- A reader of the depths below `n`: it reads the depth `d` in the state `seen d`. -/
def descend (seen : Nat → Nat → κ → Option ν) (n : Nat) (k : κ) : Option ν :=
  (List.range n).findSome? fun d => seen d d k

variable {live : ν → Bool} {seen : Nat → Nat → κ → Option ν} {k : κ}

theorem descend_succ (seen : Nat → Nat → κ → Option ν) (n : Nat) (k : κ) :
    descend seen (n + 1) k = (descend seen n k).or (seen n n k) := by
  rw [descend, List.range_succ, List.findSome?_append, List.findSome?_singleton]
  rfl

/-- The reader has found what the key reads, or there is no version any more down to where it is. -/
theorem descend_cases (n : Nat) (hlowers : ∀ d < n, Lowers live (seen d) (seen (d + 1))) :
    (∃ v, descend seen (n + 1) k = some v ∧ (some v).filter live = (first (seen 0) k).filter live) ∨
      (descend seen (n + 1) k = none ∧ Clear (seen n) (n + 1) k ∧
        (first (seen n) k).filter live = (first (seen 0) k).filter live) := by
  have hread : ∀ n, Clear (seen n) n k → descend seen n k = none →
      (first (seen n) k).filter live = (first (seen 0) k).filter live →
      (∃ v, descend seen (n + 1) k = some v ∧
        (some v).filter live = (first (seen 0) k).filter live) ∨
        (descend seen (n + 1) k = none ∧ Clear (seen n) (n + 1) k ∧
          (first (seen n) k).filter live = (first (seen 0) k).filter live) := by
    intro n hclear hnone hshows
    rw [descend_succ, hnone, Option.none_or]
    cases hread : seen n n k with
    | some v =>
        refine Or.inl ⟨v, rfl, ?_⟩
        rw [← first_eq_some hclear hread]
        exact hshows
    | none => exact Or.inr ⟨rfl, hclear.succ hread, hshows⟩
  induction n with
  | zero => exact hread 0 (Clear.zero _ k) rfl rfl
  | succ n ih =>
      rcases ih fun d hd => hlowers d (Nat.lt_succ_of_lt hd) with
        ⟨v, hfound, hv⟩ | ⟨hnone, hclear, hshows⟩
      · rw [descend_succ, hfound, Option.some_or]
        exact Or.inl ⟨v, rfl, hv⟩
      · -- what has sunk between the two reads has not come above the reader
        have hstep := hlowers n (Nat.lt_succ_self n)
        exact hread (n + 1) (hstep.sinks _ k hclear) hnone ((hstep.shows k).trans hshows)

/-- **A reader among sinking versions.** It finds what the key read when it began, if no depth that
it does not visit has a version when it visits the last one. -/
theorem descend_spec (n : Nat) (hlowers : ∀ d < n, Lowers live (seen d) (seen (d + 1)))
    (hbeyond : ∀ d, n < d → seen n d k = none) :
    (descend seen (n + 1) k).filter live = (first (seen 0) k).filter live := by
  rcases descend_cases n hlowers with ⟨v, hfound, hv⟩ | ⟨hnone, hclear, hshows⟩
  · rw [hfound]
    exact hv
  · rw [hnone, ← hshows, first_eq_none]
    intro d
    by_cases hd : d < n + 1
    · exact hclear d hd
    · exact hbeyond d (Nat.lt_of_not_le fun hle => hd (Nat.lt_succ_of_le hle))

/-- A reader of a state that nobody changes. -/
theorem descend_const {s : Nat → κ → Option ν} {n : Nat} (hbeyond : ∀ d, n < d → s d k = none) :
    descend (fun _ => s) (n + 1) k = first s k := by
  have hfound := @descend_spec κ ν (fun _ => true) (fun _ => s) k n (fun _ _ => Lowers.rfl) hbeyond
  have hall : ∀ o : Option ν, o.filter (fun _ => true) = o := by
    intro o
    cases o <;> rfl
  rwa [hall, hall] at hfound

end Reading

section Tracing

variable {σ : Type u} {R : σ → σ → Prop}

/-- The states of a thread from `s` on, each in the relation to the one before, and the last one if
the thread ends. -/
def Follows (R : σ → σ → Prop) : σ → List σ → Option σ → Prop
  | s, [], final => ∀ s' ∈ final, s' = s
  | s, m :: rest, final => R s m ∧ Follows R m rest final

theorem Follows.stop (s : σ) : Follows R s [] (some s) := fun _ h => (Option.some.inj h).symm

theorem Follows.step {s m : σ} {rest : List σ} {final : Option σ} (h : R s m)
    (hrest : Follows R m rest final) : Follows R s (m :: rest) final := ⟨h, hrest⟩

theorem Follows.append {s m : σ} {l l' : List σ} {final : Option σ} (h : Follows R s l (some m))
    (h' : Follows R m l' final) : Follows R s (l ++ l') final := by
  induction l generalizing s with
  | nil =>
      obtain rfl := h m rfl
      exact h'
  | cons m' rest ih => exact ⟨h.1, ih h.2⟩

/-- A thread that does not end. -/
theorem Follows.lost {s : σ} {l : List σ} {final : Option σ} (h : Follows R s l final) :
    Follows R s l none := by
  induction l generalizing s with
  | nil => exact fun _ h => by cases h
  | cons m rest ih => exact ⟨h.1, ih h.2⟩

/-- The last state is the first one, or in the relation to it. -/
theorem Follows.final (htrans : ∀ a b c, R a b → R b c → R a c) {s s' : σ} {l : List σ}
    (h : Follows R s l (some s')) : s' = s ∨ R s s' := by
  induction l generalizing s with
  | nil => exact Or.inl (h s' rfl)
  | cons m rest ih =>
      rcases ih h.2 with rfl | hrest
      · exact Or.inr h.1
      · exact Or.inr (htrans s m s' h.1 hrest)

theorem Follows.map {τ : Type v} {Q : τ → τ → Prop} {f : σ → τ} (hf : ∀ a b, R a b → Q (f a) (f b))
    {s : σ} {l : List σ} {final : Option σ} (h : Follows R s l final) :
    Follows Q (f s) (l.map f) (final.map f) := by
  induction l generalizing s with
  | nil =>
      intro t ht
      obtain ⟨s', hs', rfl⟩ := Option.map_eq_some_iff.1 ht
      rw [h s' hs']
  | cons m rest ih => exact ⟨hf s m h.1, ih h.2⟩

theorem Follows.pairwise (htrans : ∀ a b c, R a b → R b c → R a c) {s : σ} {l : List σ}
    {final : Option σ} (h : Follows R s l final) : (s :: l).Pairwise R := by
  induction l generalizing s with
  | nil => exact List.pairwise_singleton R s
  | cons m rest ih =>
      have hrest := ih h.2
      refine List.pairwise_cons.2 ⟨fun a ha => ?_, hrest⟩
      rcases List.mem_cons.1 ha with rfl | ha
      · exact h.1
      · exact htrans s m a h.1 (List.rel_of_pairwise_cons hrest ha)

/-- Another thread goes along the states: its `n`-th access finds the state `view n`. -/
def Interleaves (states : List σ) (view : Nat → σ) : Prop :=
  ∃ position : Nat → Nat, Monotone position ∧ ∀ n, states[position n]? = some (view n)

theorem interleaves_getD {states : List σ} {position : Nat → Nat} (d : σ) (hmono : Monotone position)
    (hlt : ∀ n, position n < states.length) :
    Interleaves states fun n => states.getD (position n) d := by
  refine ⟨position, hmono, fun n => ?_⟩
  have hfound := List.getElem?_eq_getElem (hlt n)
  simp only [List.getD_eq_getElem?_getD, hfound, Option.getD_some]

theorem Interleaves.mem {states : List σ} {view : Nat → σ} (h : Interleaves states view) (n : Nat) :
    view n ∈ states := by
  obtain ⟨position, -, hview⟩ := h
  exact List.mem_of_getElem? (hview n)

theorem Interleaves.rel {states : List σ} {view : Nat → σ} (h : Interleaves states view)
    (hstates : states.Pairwise R) {n m : Nat} (hnm : n ≤ m) : view n = view m ∨ R (view n) (view m) := by
  obtain ⟨position, hmono, hview⟩ := h
  obtain ⟨hn, hstate⟩ := List.getElem?_eq_some_iff.1 (hview n)
  obtain ⟨hm, hstate'⟩ := List.getElem?_eq_some_iff.1 (hview m)
  rcases Nat.lt_or_eq_of_le (hmono hnm) with hlt | heq
  · right
    rw [← hstate, ← hstate']
    exact List.pairwise_iff_getElem.1 hstates _ _ hn hm hlt
  · left
    rw [← hstate, ← hstate']
    exact getElem_congr_idx heq

end Tracing

end EyaKV.Base.Sinking
