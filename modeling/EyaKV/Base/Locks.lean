import Mathlib.Logic.Function.Basic
import Mathlib.Logic.Relation
import Mathlib.Data.List.Basic

/-!
# Threads and locks

A thread is what it has left to do and the locks it holds. It takes locks in shared or
exclusive mode, releases them, changes the data that all threads share, and decides on what
to do next by looking at the data. When it is done it begins another program. The threads
are any number, and one step is a step of one of them.

Two things can go wrong: a thread requests a lock that is not recursive and that it holds
itself (`SelfRequest`), or threads wait for each other in a cycle (`Cycle`). No two threads
hold a lock in conflicting modes (`Reachable.exclusion`). A number that grows along the
waits of threads that wait themselves rules out cycles (`not_cycle_of_potential`).
-/

set_option autoImplicit false

namespace EyaKV.Base.Locks

universe u

/-- The mode in which a lock is taken. -/
inductive Mode where
  | shared
  | exclusive
  deriving DecidableEq, Repr

/-- Two threads cannot hold a lock in these modes. -/
def Conflicts (m m' : Mode) : Prop := m = .exclusive ∨ m' = .exclusive

/-- A command of a program over locks `L` and shared data `S`. -/
inductive Cmd (L S : Type u) where
  | acquire (l : L) (m : Mode)
  | release (l : L) (m : Mode)
  | update (f : S → S)
  | choose (f : S → List (Cmd L S))

/-- A thread: the locks it holds, the last one first, and what it has left to do. -/
structure Thread (L S : Type u) where
  held : List (L × Mode) := []
  todo : List (Cmd L S) := []

/-- The threads and the data they share. -/
structure State (ι L S : Type u) where
  threads : ι → Thread L S
  data : S

variable {ι L S : Type u} {s s' : State ι L S} {t u : ι}

section Waiting

/-- A thread requests a lock. -/
def Requests (s : State ι L S) (t : ι) (l : L) (m : Mode) : Prop :=
  ∃ rest, (s.threads t).todo = .acquire l m :: rest

/-- A thread waits for another one, which holds the lock that it requests. -/
def Waits (s : State ι L S) (t u : ι) : Prop :=
  ∃ l m m', Requests s t l m ∧ u ≠ t ∧ (l, m') ∈ (s.threads u).held ∧ Conflicts m m'

/-- A thread requests a lock that is not recursive and that it holds. -/
def SelfRequest (isRecursive : L → Bool) (s : State ι L S) (t : ι) : Prop :=
  ∃ l m m', Requests s t l m ∧ isRecursive l = false ∧ (l, m') ∈ (s.threads t).held

/-- Threads wait for each other in a cycle. -/
def Cycle (s : State ι L S) : Prop := ∃ t, Relation.TransGen (Waits s) t t

theorem waits_of_mutual (h : Waits s t u) (h' : Waits s u t) : Cycle s :=
  ⟨t, .tail (.single h) h'⟩

/-- A number that grows from each waiting thread to the waiting thread that it waits for
rules out cycles. -/
theorem not_cycle_of_potential (potential : ι → Nat)
    (h : ∀ t u v, Waits s t u → Waits s u v → potential t < potential u) : ¬ Cycle s := by
  rintro ⟨t, hcycle⟩
  have hgrows : ∀ u, Relation.TransGen (Waits s) t u → ∀ v, Waits s u v → potential t < potential u := by
    intro u hpath
    induction hpath with
    | single hwait => exact fun v hv => h _ _ v hwait hv
    | tail hpath hwait ih => exact fun v hv => Nat.lt_trans (ih _ hwait) (h _ _ v hwait hv)
  obtain ⟨v, hv, -⟩ := Relation.TransGen.head'_iff.1 hcycle
  exact Nat.lt_irrefl _ (hgrows t hcycle v hv)

end Waiting

section Steps

variable [DecidableEq ι]

/-- The state in which a thread goes on. -/
def State.goOn (s : State ι L S) (t : ι) (held : List (L × Mode)) (todo : List (Cmd L S)) :
    State ι L S :=
  { s with threads := Function.update s.threads t ⟨held, todo⟩ }

/-- What holds of every thread after a step, when it holds of a thread that takes one. -/
theorem forall_goOn {P : Thread L S → Prop} (h : ∀ u, P (s.threads u)) {held : List (L × Mode)}
    {todo : List (Cmd L S)} (ht : P ⟨held, todo⟩) (u : ι) : P ((s.goOn t held todo).threads u) := by
  by_cases hu : u = t
  · subst hu
    show P (Function.update s.threads u _ u)
    rw [Function.update_self]
    exact ht
  · show P (Function.update s.threads t _ u)
    rw [Function.update_of_ne hu]
    exact h u

/-- No two threads hold a lock in conflicting modes. -/
def Exclusion (s : State ι L S) : Prop :=
  ∀ t u l m m', t ≠ u → (l, m) ∈ (s.threads t).held → (l, m') ∈ (s.threads u).held →
    ¬ Conflicts m m'

/-- A thread that goes on with no lock that it did not hold keeps the exclusion. -/
theorem Exclusion.goOn (h : Exclusion s) {held : List (L × Mode)} {todo : List (Cmd L S)}
    (hheld : ∀ x ∈ held, x ∈ (s.threads t).held) : Exclusion (s.goOn t held todo) := by
  have hmem : ∀ u x, x ∈ ((s.goOn t held todo).threads u).held → x ∈ (s.threads u).held := by
    intro u x hx
    by_cases hu : u = t
    · subst hu
      simp only [State.goOn, Function.update_self] at hx
      exact hheld x hx
    · simp only [State.goOn, Function.update_of_ne hu] at hx
      exact hx
  intro a b l m m' hab ha hb
  exact h a b l m m' hab (hmem a _ ha) (hmem b _ hb)

theorem conflicts_comm {m m' : Mode} (h : Conflicts m m') : Conflicts m' m := Or.symm h

variable [DecidableEq L]

/-- One step of one thread. -/
inductive Step (isRecursive : L → Bool) (programs : List (Cmd L S) → Prop) :
    State ι L S → State ι L S → Prop where
  | begin (s : State ι L S) (t : ι) (program : List (Cmd L S)) (hdone : (s.threads t).todo = [])
      (hprogram : programs program) :
      Step isRecursive programs s (s.goOn t (s.threads t).held program)
  | acquire (s : State ι L S) (t : ι) (l : L) (m : Mode) (rest : List (Cmd L S))
      (htodo : (s.threads t).todo = .acquire l m :: rest)
      (hfree : ∀ u, ¬ Waits s t u)
      (hself : isRecursive l = true ∨ ∀ m', (l, m') ∉ (s.threads t).held) :
      Step isRecursive programs s (s.goOn t ((l, m) :: (s.threads t).held) rest)
  | release (s : State ι L S) (t : ι) (l : L) (m : Mode) (rest : List (Cmd L S))
      (htodo : (s.threads t).todo = .release l m :: rest) :
      Step isRecursive programs s (s.goOn t ((s.threads t).held.erase (l, m)) rest)
  | update (s : State ι L S) (t : ι) (f : S → S) (rest : List (Cmd L S))
      (htodo : (s.threads t).todo = .update f :: rest) :
      Step isRecursive programs s { s.goOn t (s.threads t).held rest with data := f s.data }
  | choose (s : State ι L S) (t : ι) (f : S → List (Cmd L S)) (rest : List (Cmd L S))
      (htodo : (s.threads t).todo = .choose f :: rest) :
      Step isRecursive programs s (s.goOn t (s.threads t).held (f s.data ++ rest))

/-- The states of every interleaving: at first no thread holds a lock or has anything to do. -/
inductive Reachable (isRecursive : L → Bool) (programs : List (Cmd L S) → Prop) (data : S) :
    State ι L S → Prop where
  | init : Reachable isRecursive programs data ⟨fun _ => {}, data⟩
  | step {s s' : State ι L S} (h : Reachable isRecursive programs data s)
      (hstep : Step isRecursive programs s s') : Reachable isRecursive programs data s'

variable {isRecursive : L → Bool} {programs : List (Cmd L S) → Prop} {data : S}

theorem Step.exclusion (hstep : Step isRecursive programs s s') (h : Exclusion s) :
    Exclusion s' := by
  cases hstep with
  | begin t program hdone hprogram => exact h.goOn fun _ hx => hx
  | release t l m rest htodo => exact h.goOn fun _ hx => List.mem_of_mem_erase hx
  | update t f rest htodo =>
      have hgo : Exclusion (s.goOn t (s.threads t).held rest) := h.goOn fun _ hx => hx
      exact hgo
  | choose t f rest htodo => exact h.goOn fun _ hx => hx
  | acquire t l m rest htodo hfree hself =>
      -- the lock that is taken is held by no other thread in a conflicting mode
      have hnew : ∀ u m', u ≠ t → (l, m') ∈ (s.threads u).held → ¬ Conflicts m m' :=
        fun u m' hu hheld hconflict => hfree u ⟨l, m, m', ⟨rest, htodo⟩, hu, hheld, hconflict⟩
      intro a b k n n' hab ha hb
      by_cases hat : a = t
      · subst hat
        have hba : b ≠ a := fun hd => hab hd.symm
        simp only [State.goOn, Function.update_self, Function.update_of_ne hba] at ha hb
        rcases List.mem_cons.1 ha with heq | ha
        · cases heq
          exact hnew b n' hba hb
        · exact h a b k n n' hab ha hb
      · by_cases hbt : b = t
        · subst hbt
          simp only [State.goOn, Function.update_self, Function.update_of_ne hat] at ha hb
          rcases List.mem_cons.1 hb with heq | hb
          · cases heq
            exact fun hd => hnew a n hat ha (conflicts_comm hd)
          · exact h a b k n n' hab ha hb
        · simp only [State.goOn, Function.update_of_ne hat, Function.update_of_ne hbt] at ha hb
          exact h a b k n n' hab ha hb

theorem Reachable.exclusion (h : Reachable isRecursive programs data s) : Exclusion s := by
  induction h with
  | init =>
      intro t u l m m' _ ht
      exact absurd ht List.not_mem_nil
  | step h hstep ih => exact hstep.exclusion ih

/-- A property of threads that programs begin with and that each command keeps holds of the
threads of every reachable state. -/
theorem Reachable.forall_threads (h : Reachable isRecursive programs data s)
    {P : Thread L S → Prop} (hidle : P {})
    (hbegin : ∀ held program, P ⟨held, []⟩ → programs program → P ⟨held, program⟩)
    (hacquire : ∀ held l m rest, P ⟨held, .acquire l m :: rest⟩ →
      (isRecursive l = true ∨ ∀ m', (l, m') ∉ held) → P ⟨(l, m) :: held, rest⟩)
    (hrelease : ∀ held l m rest, P ⟨held, .release l m :: rest⟩ → P ⟨held.erase (l, m), rest⟩)
    (hupdate : ∀ held f rest, P ⟨held, .update f :: rest⟩ → P ⟨held, rest⟩)
    (hchoose : ∀ held f rest d, P ⟨held, .choose f :: rest⟩ → P ⟨held, f d ++ rest⟩)
    (t : ι) : P (s.threads t) := by
  have hat : ∀ {s : State ι L S} {t : ι} {todo : List (Cmd L S)}, (s.threads t).todo = todo →
      P (s.threads t) → P ⟨(s.threads t).held, todo⟩ := by
    intro s t todo htodo hP
    rw [← htodo]
    exact hP
  induction h generalizing t with
  | init => exact hidle
  | step h hstep ih =>
      cases hstep with
      | begin v program hdone hprogram =>
          exact forall_goOn ih (hbegin _ _ (hat hdone (ih v)) hprogram) t
      | acquire v l m rest htodo hfree hself =>
          exact forall_goOn ih (hacquire _ _ _ _ (hat htodo (ih v)) hself) t
      | release v l m rest htodo => exact forall_goOn ih (hrelease _ _ _ _ (hat htodo (ih v))) t
      | update v f rest htodo => exact forall_goOn ih (hupdate _ _ _ (hat htodo (ih v))) t
      | choose v f rest htodo => exact forall_goOn ih (hchoose _ _ _ _ (hat htodo (ih v))) t

/-- A step of a thread when the others hold nothing. -/
def soloStep (isRecursive : L → Bool) : Thread L S × S → Option (Thread L S × S)
  | (⟨_, []⟩, _) => none
  | (⟨held, .acquire l m :: rest⟩, d) =>
      if isRecursive l || held.all (fun x => x.1 ≠ l) then some (⟨(l, m) :: held, rest⟩, d) else none
  | (⟨held, .release l m :: rest⟩, d) => some (⟨held.erase (l, m), rest⟩, d)
  | (⟨held, .update f :: rest⟩, d) => some (⟨held, rest⟩, f d)
  | (⟨held, .choose f :: rest⟩, d) => some (⟨held, f d ++ rest⟩, d)

/-- A number of steps of one thread when the others hold nothing. -/
def soloRun (isRecursive : L → Bool) : Nat → Thread L S × S → Option (Thread L S × S)
  | 0, x => some x
  | n + 1, x => (soloStep isRecursive x).bind (soloRun isRecursive n)

theorem Reachable.soloStep (h : Reachable isRecursive programs data s)
    (hothers : ∀ u, u ≠ t → (s.threads u).held = []) {x : Thread L S × S}
    (hstep : Locks.soloStep isRecursive (s.threads t, s.data) = some x) :
    Reachable isRecursive programs data ⟨Function.update s.threads t x.1, x.2⟩ := by
  generalize hthread : s.threads t = thread at hstep
  rcases thread with ⟨held, _ | ⟨cmd, rest⟩⟩
  · cases hstep
  · have hheld : (s.threads t).held = held := by rw [hthread]
    have htodo : (s.threads t).todo = cmd :: rest := by rw [hthread]
    cases cmd with
    | acquire l m =>
        simp only [Locks.soloStep] at hstep
        split at hstep
        · rename_i hgranted
          cases hstep
          -- the other threads hold nothing, so only the thread itself could stand in its way
          have hfree : ∀ u, ¬ Waits s t u := by
            rintro u ⟨k, n, n', -, hne, hmem, -⟩
            rw [hothers u hne] at hmem
            cases hmem
          have hself : isRecursive l = true ∨ ∀ m', (l, m') ∉ (s.threads t).held := by
            rcases Bool.or_eq_true_iff.1 hgranted with hrec | hnone
            · exact Or.inl hrec
            · refine Or.inr fun m' hmem => ?_
              rw [hheld] at hmem
              exact of_decide_eq_true (List.all_eq_true.1 hnone _ hmem) rfl
          have hnext := h.step (.acquire s t l m rest htodo hfree hself)
          rw [hheld] at hnext
          exact hnext
        · cases hstep
    | release l m =>
        cases hstep
        have hnext := h.step (.release s t l m rest htodo)
        rw [hheld] at hnext
        exact hnext
    | update f =>
        cases hstep
        have hnext := h.step (.update s t f rest htodo)
        rw [hheld] at hnext
        exact hnext
    | choose f =>
        cases hstep
        have hnext := h.step (.choose s t f rest htodo)
        rw [hheld] at hnext
        exact hnext

/-- What one thread does while the others hold nothing is an interleaving. -/
theorem Reachable.soloRun (h : Reachable isRecursive programs data s)
    (hothers : ∀ u, u ≠ t → (s.threads u).held = []) {n : Nat} {x : Thread L S × S}
    (hrun : Locks.soloRun isRecursive n (s.threads t, s.data) = some x) :
    Reachable isRecursive programs data ⟨Function.update s.threads t x.1, x.2⟩ := by
  induction n generalizing s with
  | zero =>
      cases hrun
      rw [Function.update_eq_self]
      exact h
  | succ n ih =>
      rw [Locks.soloRun, Option.bind_eq_some_iff] at hrun
      obtain ⟨y, hy, hrun⟩ := hrun
      have hothers' : ∀ u, u ≠ t → (Function.update s.threads t y.1 u).held = [] := by
        intro u hu
        rw [Function.update_of_ne hu]
        exact hothers u hu
      have hself : Function.update s.threads t y.1 t = y.1 := Function.update_self _ _ _
      have hnext := ih (h.soloStep hothers hy) hothers' (by simp only [hself]; exact hrun)
      simp only [Function.update_idem] at hnext
      exact hnext

end Steps

end EyaKV.Base.Locks
