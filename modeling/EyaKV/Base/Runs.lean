import Mathlib.Data.Option.Basic
import Mathlib.Data.List.Basic

/-!
# Runs of a machine

A machine takes a step from a state by an action, when the action is possible there. A run
is a list of actions, and a condition on steps is met by a run when every step of the run
is taken in a state in which the condition holds. What every such step keeps, the run keeps
(`run_induction`); and a run that does not meet a condition has a first step that violates
it (`exists_violation`).
-/

set_option autoImplicit false

namespace EyaKV.Base.Machine

variable {σ α : Type*} (step : σ → α → Option σ)

/-- A run of actions. -/
def run : σ → List α → Option σ
  | s, [] => some s
  | s, a :: rest => (step s a).bind fun s' => run s' rest

/-- Every step of the run meets a condition, in the state in which it is taken. -/
def RunMeets (meets : σ → α → Prop) : σ → List α → Prop
  | _, [] => True
  | s, a :: rest => meets s a ∧ ∀ s', step s a = some s' → RunMeets meets s' rest

instance decidableRunMeets (meets : σ → α → Prop) [∀ s a, Decidable (meets s a)] :
    ∀ s actions, Decidable (RunMeets step meets s actions)
  | _, [] => isTrue trivial
  | s, a :: rest =>
      match h : step s a with
      | none => decidable_of_iff (meets s a)
          ⟨fun ha => ⟨ha, fun _ hs => by rw [h] at hs; cases hs⟩, fun ha => ha.1⟩
      | some s' =>
          have := decidableRunMeets meets s' rest
          decidable_of_iff (meets s a ∧ RunMeets step meets s' rest)
            ⟨fun ha => ⟨ha.1, fun _ hs => by rw [h] at hs; cases hs; exact ha.2⟩,
              fun ha => ⟨ha.1, ha.2 s' h⟩⟩

variable {step} {meets : σ → α → Prop}

theorem run_cons_eq_some {s s' : σ} {a : α} {rest : List α} :
    run step s (a :: rest) = some s' ↔
      ∃ t, step s a = some t ∧ run step t rest = some s' :=
  Option.bind_eq_some_iff

/-- **Invariants of runs.** What every step keeps that meets the condition, a run keeps whose
steps all meet it. -/
theorem run_induction {P : σ → Prop}
    (hstep : ∀ s a s', P s → meets s a → step s a = some s' → P s') (actions : List α) :
    ∀ s s', P s → RunMeets step meets s actions → run step s actions = some s' → P s' := by
  induction actions with
  | nil =>
      intro s s' hs _ hrun
      exact Option.some.inj hrun ▸ hs
  | cons a rest ih =>
      intro s s' hs ⟨ha, hrest⟩ hrun
      obtain ⟨t, hone, hmore⟩ := run_cons_eq_some.1 hrun
      exact ih t s' (hstep s a t hs ha hone) (hrest t hone) hmore

/-- What every step keeps, every run keeps. -/
theorem run_invariant {P : σ → Prop} (hstep : ∀ s a s', P s → step s a = some s' → P s')
    (actions : List α) : ∀ s s', P s → run step s actions = some s' → P s' := by
  induction actions with
  | nil =>
      intro s s' hs hrun
      exact Option.some.inj hrun ▸ hs
  | cons a rest ih =>
      intro s s' hs hrun
      obtain ⟨t, hone, hmore⟩ := run_cons_eq_some.1 hrun
      exact ih t s' (hstep s a t hs hone) hmore

/-- **A machine beside a specification.** When every step that meets the condition is possible and
does what the specification does, then so is every run whose steps all meet it. -/
theorem run_simulates {τ : Type*} {next : τ → α → τ} {R : σ → τ → Prop}
    (hstep : ∀ s t a, R s t → meets s a → ∃ s', step s a = some s' ∧ R s' (next t a))
    (actions : List α) : ∀ s t, R s t → RunMeets step meets s actions →
      ∃ s', run step s actions = some s' ∧ R s' (actions.foldl next t) := by
  induction actions with
  | nil => exact fun s t hst _ => ⟨s, rfl, hst⟩
  | cons a rest ih =>
      intro s t hst ⟨ha, hrest⟩
      obtain ⟨s', hone, hst'⟩ := hstep s t a hst ha
      obtain ⟨s'', hmore, hend⟩ := ih s' (next t a) hst' (hrest s' hone)
      exact ⟨s'', run_cons_eq_some.2 ⟨s', hone, hmore⟩, hend⟩

/-- What every step that meets the condition can be taken with, every such run can. -/
theorem run_progress {P : σ → Prop}
    (hstep : ∀ s a, P s → meets s a → ∃ s', step s a = some s' ∧ P s') (actions : List α) (s : σ)
    (hs : P s) (hmeets : RunMeets step meets s actions) :
    ∃ s', run step s actions = some s' ∧ P s' :=
  @run_simulates σ α step meets Unit (fun _ _ => ()) (fun s _ => P s)
    (fun s _ a h ha => hstep s a h ha) actions s () hs hmeets

/-- The condition holds where the last action of a run is taken. -/
theorem RunMeets.last {a : α} (actions : List α) :
    ∀ s s', RunMeets step meets s (actions ++ [a]) → run step s actions = some s' →
      meets s' a := by
  induction actions with
  | nil =>
      intro s s' hmeets hrun
      exact Option.some.inj hrun ▸ hmeets.1
  | cons first rest ih =>
      intro s s' hmeets hrun
      obtain ⟨t, hone, hmore⟩ := run_cons_eq_some.1 hrun
      exact ih t s' (hmeets.2 t hone) hmore

/-- Two conditions on steps are the same for a run, when they are the same for every step from
a state with an invariant that the steps keep under the first condition. -/
theorem runMeets_congr {P : σ → Prop} {meets' : σ → α → Prop}
    (hiff : ∀ s a s', P s → step s a = some s' → (meets s a ↔ meets' s a))
    (hkeep : ∀ s a s', P s → meets s a → step s a = some s' → P s') (actions : List α) :
    ∀ s s', P s → run step s actions = some s' →
      (RunMeets step meets s actions ↔ RunMeets step meets' s actions) := by
  induction actions with
  | nil =>
      intro s s' _ _
      exact Iff.rfl
  | cons a rest ih =>
      intro s s' hs hrun
      obtain ⟨t, hone, hmore⟩ := run_cons_eq_some.1 hrun
      have hstep := hiff s a t hs hone
      have hrest (ha : meets s a) :
          (∀ t', step s a = some t' → RunMeets step meets t' rest) ↔
            ∀ t', step s a = some t' → RunMeets step meets' t' rest := by
        refine forall_congr' fun t' => forall_congr' fun ht' => ?_
        obtain rfl := Option.some.inj (hone.symm.trans ht')
        exact ih t s' (hkeep s a t hs ha hone) hmore
      constructor
      · rintro ⟨ha, hmeets⟩
        exact ⟨hstep.1 ha, (hrest ha).1 hmeets⟩
      · rintro ⟨ha, hmeets⟩
        exact ⟨hstep.2 ha, (hrest (hstep.2 ha)).2 hmeets⟩

/-- A run that does not meet a condition has a step that violates it, in a state that the run
reaches. -/
theorem exists_violation (actions : List α) :
    ∀ s s', run step s actions = some s' → ¬ RunMeets step meets s actions →
      ∃ before a after t t', run step s before = some t ∧ ¬ meets t a ∧ step t a = some t' ∧
        run step t' after = some s' := by
  induction actions with
  | nil =>
      intro s s' _ hnot
      exact absurd trivial hnot
  | cons a rest ih =>
      intro s s' hrun hnot
      obtain ⟨t, hone, hmore⟩ := run_cons_eq_some.1 hrun
      by_cases ha : meets s a
      · -- the first step meets the condition, so the rest does not
        have hrest : ¬ RunMeets step meets t rest := by
          intro hrest
          refine hnot ⟨ha, fun t' ht' => ?_⟩
          obtain rfl := Option.some.inj (hone.symm.trans ht')
          exact hrest
        obtain ⟨before, b, after, u, u', hbefore, hb, hstep, hafter⟩ := ih t s' hmore hrest
        exact ⟨a :: before, b, after, u, u', run_cons_eq_some.2 ⟨t, hone, hbefore⟩, hb, hstep,
          hafter⟩
      · exact ⟨[], a, rest, s, t, rfl, ha, hone, hmore⟩

end EyaKV.Base.Machine
