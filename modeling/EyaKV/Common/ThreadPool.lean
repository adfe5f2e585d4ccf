import Mathlib.Algebra.BigOperators.Fin
import Mathlib.Data.List.Nodup
import EyaKV.Base.Runs

/-!
# The thread pool

Any number of threads submit tasks to a bounded queue, a fixed number of workers takes them
out, and `stop` waits until every worker has left its loop. A step is what a thread does while
it holds the queue's mutex, or one access to the flag `stop_` outside it. What a step does to a
thread that waits does not depend on whether it was woken on purpose, so the condition
variables have no steps of their own.

Without any condition the queue keeps its bound, a rejected task is not executed and no task is
executed twice (`Counted`). That an accepted task has been executed when `stop` has returned
(`Delivered`) needs more. `submit` looks at the flag before it takes the lock, and not again
when there is room; so the last worker can leave in between, and the task stays in the queue
though `submit` returns true. And a call of `stop` that finds the flag set returns at once,
while the call that has set it still waits.
-/

set_option autoImplicit false

namespace EyaKV.Common.ThreadPool

open EyaKV.Base

/-- `ThreadPool::Config`, less the time that a submitter waits. -/
structure Config where
  threadCount : UInt32
  queueSize : UInt32

/-- A task, by the call of `submit` that brings it. An empty `std::function` is not callable. -/
structure Task where
  id : Nat
  callable : Bool
  deriving DecidableEq, Repr

/-- A call of `submit` that has found the flag clear: it waits for the mutex, or it has seen a
full queue and waits for room. -/
inductive Submission where
  | entered (task : Task)
  | waiting (task : Task)
  deriving DecidableEq, Repr

/-- A worker waits for a task, has one in its hands, or has left its loop. -/
inductive Worker where
  | idle
  | holding (task : Task)
  | exited
  deriving DecidableEq, Repr

variable {σ : Type*}

/-- The pool and the threads that use it. The last six fields are not in the code: the number
of calls of `submit`, the calls that have returned true and false, the tasks that workers have
called and the empty ones that they have skipped, and whether a call of `stop` has returned. -/
structure State (σ : Type*) (config : Config) where
  stop : Bool := false
  queue : List Task := []
  submitters : σ → Option Submission := fun _ => none
  workers : Fin config.threadCount.toNat → Worker := fun _ => .idle
  /-- The call of `stop` that has set the flag is waiting for the workers. -/
  joining : Bool := false
  calls : Nat := 0
  accepted : List Nat := []
  rejected : List Nat := []
  executed : List Nat := []
  skipped : List Nat := []
  stopReturned : Bool := false

/-- A step of one thread. -/
inductive Action (σ : Type*) (config : Config) where
  | submit (i : σ) (callable : Bool)
  | lock (i : σ)
  | take (w : Fin config.threadCount.toNat)
  | execute (w : Fin config.threadCount.toNat)
  | stop
  | join

section Steps

variable {config : Config} [DecidableEq σ]

/-- The task of a call. -/
def Submission.task : Submission → Task
  | .entered t | .waiting t => t

/-- The queue has a free slot. -/
def State.HasRoom (s : State σ config) : Prop := s.queue.length < config.queueSize.toNat

instance (s : State σ config) : Decidable s.HasRoom :=
  inferInstanceAs (Decidable (_ < _))

/-- Every worker has left its loop. -/
def State.AllExited (s : State σ config) : Prop := ∀ w, s.workers w = .exited

instance (s : State σ config) : Decidable s.AllExited :=
  inferInstanceAs (Decidable (∀ w, s.workers w = .exited))

def State.setSubmitter (s : State σ config) (i : σ) (sub : Option Submission) :
    State σ config :=
  { s with submitters := Function.update s.submitters i sub }

def State.setWorker (s : State σ config) (w : Fin config.threadCount.toNat) (new : Worker) :
    State σ config :=
  { s with workers := Function.update s.workers w new }

/-- `submit` returns true, with the task at the end of the queue. -/
def State.enqueue (s : State σ config) (i : σ) (t : Task) : State σ config :=
  { s.setSubmitter i none with queue := s.queue ++ [t], accepted := t.id :: s.accepted }

/-- `submit` returns false. -/
def State.reject (s : State σ config) (i : σ) (t : Task) : State σ config :=
  { s.setSubmitter i none with rejected := t.id :: s.rejected }

/-- `submit` with the mutex in its hands. When there is room at first it does not look at the
flag again. A submitter that has waited does, and one that finds neither room nor the flag set
goes on only because its time is over. -/
def State.locked (s : State σ config) (i : σ) : Submission → State σ config
  | .entered t =>
      if s.HasRoom then s.enqueue i t
      else if s.stop then s.reject i t
      else s.setSubmitter i (some (.waiting t))
  | .waiting t =>
      if s.stop then s.reject i t
      else if s.HasRoom then s.enqueue i t
      else s.reject i t

/-- A worker with the mutex in its hands: it takes the first task, leaves its loop when there is
none and the flag is set, and waits otherwise. -/
def State.taken (s : State σ config) (w : Fin config.threadCount.toNat) :
    Option (State σ config) :=
  match s.queue with
  | t :: rest => some { s.setWorker w (.holding t) with queue := rest }
  | [] => if s.stop then some (s.setWorker w .exited) else none

/-- A worker calls its task, when there is something to call. -/
def State.called (s : State σ config) (w : Fin config.threadCount.toNat) (t : Task) :
    State σ config :=
  if t.callable then { s.setWorker w .idle with executed := t.id :: s.executed }
  else { s.setWorker w .idle with skipped := t.id :: s.skipped }

/-- One step. -/
def step (s : State σ config) : Action σ config → Option (State σ config)
  | .submit i callable =>
      match s.submitters i with
      | some _ => none
      | none =>
          let t : Task := ⟨s.calls, callable⟩
          if s.stop then some { s.reject i t with calls := s.calls + 1 }
          else some { s.setSubmitter i (some (.entered t)) with calls := s.calls + 1 }
  | .lock i => (s.submitters i).map (s.locked i)
  | .take w => if s.workers w = .idle then s.taken w else none
  | .execute w =>
      match s.workers w with
      | .holding t => some (s.called w t)
      | _ => none
  | .stop =>
      -- only the call whose exchange succeeds goes on to wait for the workers
      if s.stop then some { s with stopReturned := true }
      else some { s with stop := true, joining := true }
  | .join =>
      if s.joining ∧ s.AllExited then some { s with joining := false, stopReturned := true }
      else none

/-- `submit` puts the task into the queue when it has the lock: there is room, and the flag is
clear or the call has not had to wait. -/
def State.Admits (s : State σ config) (sub : Submission) : Prop :=
  s.HasRoom ∧ (s.stop = true → sub = .entered sub.task)

instance (s : State σ config) (sub : Submission) : Decidable (s.Admits sub) :=
  inferInstanceAs (Decidable (_ ∧ _))

/-- A task that comes into the queue can be called, and some worker is there to take it out; a
call of `stop` that finds the flag set finds no worker left. -/
def Served (s : State σ config) : Action σ config → Prop
  | .lock i => ∀ sub ∈ s.submitters i, s.Admits sub → ¬ s.AllExited ∧ sub.task.callable = true
  | .stop => s.stop = true → s.AllExited
  | _ => True

instance (s : State σ config) : ∀ a, Decidable (Served s a)
  | .lock i => inferInstanceAs (Decidable (∀ sub ∈ s.submitters i, _))
  | .stop => inferInstanceAs (Decidable (_ → _))
  | .submit _ _ | .take _ | .execute _ | .join => isTrue trivial

/-- Every task that `submit` has accepted is executed exactly once before `stop` returns, none
that it has rejected is executed, and the queue keeps its bound. -/
structure Delivered (s : State σ config) : Prop where
  accepted : s.stopReturned = true → ∀ id ∈ s.accepted, s.executed.count id = 1
  rejected : ∀ id ∈ s.rejected, id ∉ s.executed
  bound : s.queue.length ≤ config.queueSize.toNat

end Steps

section Inversion

variable {config : Config} [DecidableEq σ] {s s' : State σ config} {i : σ}
  {w : Fin config.threadCount.toNat}

theorem submit_eq_some {callable : Bool} (h : step s (.submit i callable) = some s') :
    s' = ({ s with calls := s.calls + 1 } : State σ config).reject i ⟨s.calls, callable⟩ ∨
      s' = ({ s with calls := s.calls + 1 } : State σ config).setSubmitter i
        (some (.entered ⟨s.calls, callable⟩)) := by
  cases hi : s.submitters i with
  | some _ => simp [step, hi] at h
  | none =>
      cases hstop : s.stop with
      | true =>
          simp only [step, hi, hstop, if_true, Option.some.injEq] at h
          exact .inl (h ▸ by simp [State.reject, State.setSubmitter, hstop])
      | false =>
          simp only [step, hi, hstop, Bool.false_eq_true, if_false, Option.some.injEq] at h
          exact .inr (h ▸ by simp [State.setSubmitter, hstop])

/-- What a call of `submit` does when it has the lock. -/
theorem locked_cases (s : State σ config) (i : σ) (sub : Submission) :
    (s.Admits sub ∧ s.locked i sub = s.enqueue i sub.task) ∨
      s.locked i sub = s.reject i sub.task ∨
      s.locked i sub = s.setSubmitter i (some (.waiting sub.task)) := by
  cases sub with
  | entered t =>
      by_cases hroom : s.HasRoom
      · exact .inl ⟨⟨hroom, fun _ => rfl⟩, by simp [State.locked, hroom, Submission.task]⟩
      · cases hstop : s.stop with
        | true => exact .inr (.inl (by simp [State.locked, hroom, hstop, Submission.task]))
        | false => exact .inr (.inr (by simp [State.locked, hroom, hstop, Submission.task]))
  | waiting t =>
      cases hstop : s.stop with
      | true => exact .inr (.inl (by simp [State.locked, hstop, Submission.task]))
      | false =>
          by_cases hroom : s.HasRoom
          · refine .inl ⟨⟨hroom, fun h => by cases hstop.symm.trans h⟩, ?_⟩
            simp [State.locked, hroom, hstop, Submission.task]
          · exact .inr (.inl (by simp [State.locked, hroom, hstop, Submission.task]))

theorem take_eq_some (h : step s (.take w) = some s') :
    s.workers w = .idle ∧
      ((∃ t rest, s.queue = t :: rest ∧ s' = { s.setWorker w (.holding t) with queue := rest }) ∨
        (s.queue = [] ∧ s' = s.setWorker w .exited)) := by
  by_cases hidle : s.workers w = .idle
  · refine ⟨hidle, ?_⟩
    simp only [step, hidle, if_true] at h
    match hq : s.queue with
    | t :: rest =>
        simp only [State.taken, hq, Option.some.injEq] at h
        exact .inl ⟨t, rest, rfl, h.symm⟩
    | [] =>
        cases hstop : s.stop with
        | true =>
            simp only [State.taken, hq, hstop, if_true, Option.some.injEq] at h
            exact .inr ⟨rfl, h.symm⟩
        | false => simp [State.taken, hq, hstop] at h
  · simp [step, hidle] at h

theorem execute_eq_some (h : step s (.execute w) = some s') :
    ∃ t, s.workers w = .holding t ∧ s' = s.called w t := by
  match hw : s.workers w with
  | .idle | .exited => simp [step, hw] at h
  | .holding t =>
      simp only [step, hw, Option.some.injEq] at h
      exact ⟨t, rfl, h.symm⟩

theorem stop_eq_some (h : step s .stop = some s') :
    (s.stop = true ∧ s' = { s with stopReturned := true }) ∨
      s' = { s with stop := true, joining := true } := by
  by_cases hstop : s.stop
  · rw [step, if_pos hstop] at h
    exact .inl ⟨hstop, (Option.some.inj h).symm⟩
  · rw [step, if_neg hstop] at h
    exact .inr (Option.some.inj h).symm

theorem join_eq_some (h : step s .join = some s') :
    s.AllExited ∧ s' = { s with joining := false, stopReturned := true } := by
  by_cases hjoin : s.joining ∧ s.AllExited
  · rw [step, if_pos hjoin] at h
    exact ⟨hjoin.2, (Option.some.inj h).symm⟩
  · rw [step, if_neg hjoin] at h
    cases h

end Inversion

section Counting

variable {config : Config}

/-- How often a worker has the task of a call in its hands. -/
def Worker.count (id : Nat) : Worker → Nat
  | .holding t => if t.id = id then 1 else 0
  | _ => 0

/-- How often the workers have the task of a call in their hands. -/
def State.held (s : State σ config) (id : Nat) : Nat := ∑ w, (s.workers w).count id

/-- How often the task of a call is in the queue. -/
def State.queued (s : State σ config) (id : Nat) : Nat := (s.queue.map Task.id).count id

theorem sum_update {n : Nat} {W : Type*} (g : Fin n → W) (f : W → Nat) (w : Fin n) (new : W) :
    ∑ v, f (Function.update g w new v) + f (g w) = ∑ v, f (g v) + f new := by
  have hrest : ∑ v ∈ Finset.univ.erase w, f (Function.update g w new v) =
      ∑ v ∈ Finset.univ.erase w, f (g v) :=
    Finset.sum_congr rfl fun v hv => by rw [Function.update_of_ne (Finset.ne_of_mem_erase hv)]
  rw [← Finset.add_sum_erase _ _ (Finset.mem_univ w),
    ← Finset.add_sum_erase Finset.univ (fun v => f (g v)) (Finset.mem_univ w), hrest,
    Function.update_self]
  omega

/-- When one worker changes, the count changes by what that worker holds. -/
theorem held_setWorker (s : State σ config) (w : Fin config.threadCount.toNat) (new : Worker)
    (id : Nat) :
    (s.setWorker w new).held id + (s.workers w).count id = s.held id + new.count id :=
  sum_update s.workers (Worker.count id) w new

/-- What holds in every state of a run: an accepted task is in one place, and the calls of
`submit` are told apart by their numbers. -/
structure Counted (s : State σ config) : Prop where
  bound : s.queue.length ≤ config.queueSize.toNat
  balance : ∀ id, s.accepted.count id =
    s.queued id + s.held id + s.executed.count id + s.skipped.count id
  nodup : s.accepted.Nodup
  apart : ∀ id ∈ s.rejected, id ∉ s.accepted
  old : ∀ id, id ∈ s.accepted ∨ id ∈ s.rejected → id < s.calls
  pending : ∀ i sub, s.submitters i = some sub →
    sub.task.id < s.calls ∧ sub.task.id ∉ s.accepted ∧ sub.task.id ∉ s.rejected
  distinct : ∀ i j a b, s.submitters i = some a → s.submitters j = some b →
    a.task.id = b.task.id → i = j

theorem counted_init : Counted ({} : State σ config) where
  bound := Nat.zero_le _
  balance := fun id => by simp [State.queued, State.held, Worker.count]
  nodup := List.nodup_nil
  apart := fun _ h => by cases h
  old := fun _ h => by rcases h with h | h <;> cases h
  pending := fun _ _ h => by cases h
  distinct := fun _ _ _ _ h => by cases h

/-- A task belongs to one call, and nothing has become of it yet. -/
structure Owned (s : State σ config) (i : σ) (t : Task) : Prop where
  old : t.id < s.calls
  not_accepted : t.id ∉ s.accepted
  not_rejected : t.id ∉ s.rejected
  only : ∀ j sub, s.submitters j = some sub → sub.task.id = t.id → j = i

variable {s s' : State σ config} {i : σ} {t : Task}

theorem Counted.owned {sub : Submission} (h : Counted s) (hi : s.submitters i = some sub) :
    Owned s i sub.task :=
  have hp := h.pending i sub hi
  ⟨hp.1, hp.2.1, hp.2.2, fun j b hj heq => h.distinct j i b sub hj hi heq⟩

/-- A call of `submit` gets the next number. -/
theorem Counted.newCall (h : Counted s) : Counted { s with calls := s.calls + 1 } :=
  { h with
    old := fun id hid => Nat.lt_succ_of_lt (h.old id hid)
    pending := fun i sub hi =>
      ⟨Nat.lt_succ_of_lt (h.pending i sub hi).1, (h.pending i sub hi).2⟩ }

theorem Counted.owned_newCall (h : Counted s) (i : σ) (callable : Bool) :
    Owned { s with calls := s.calls + 1 } i ⟨s.calls, callable⟩ where
  old := Nat.lt_succ_self _
  not_accepted := fun hid => Nat.lt_irrefl _ (h.old _ (.inl hid))
  not_rejected := fun hid => Nat.lt_irrefl _ (h.old _ (.inr hid))
  only := fun j sub hj heq => absurd (h.pending j sub hj).1 (by simp [heq])

variable [DecidableEq σ]

/-- A submitter that is there after one has left was there before, and is another one. -/
theorem submitters_of_leave {j : σ} {sub : Submission}
    (h : (s.setSubmitter i none).submitters j = some sub) : j ≠ i ∧ s.submitters j = some sub := by
  by_cases hj : j = i
  · subst hj
    simp [State.setSubmitter] at h
  · refine ⟨hj, ?_⟩
    simpa [State.setSubmitter, Function.update_of_ne hj] using h

theorem Counted.enqueue (h : Counted s) (ht : Owned s i t) (hroom : s.HasRoom) :
    Counted (s.enqueue i t) where
  bound := by
    have hlen : s.queue.length < config.queueSize.toNat := hroom
    simp only [State.enqueue, List.length_append, List.length_singleton]
    omega
  balance := by
    intro id
    have hbal := h.balance id
    have hheld : (s.enqueue i t).held id = s.held id := rfl
    have hqueued : (s.enqueue i t).queued id = s.queued id + if t.id = id then 1 else 0 := by
      simp [State.queued, State.enqueue, List.count_append, List.count_singleton]
    rw [hheld, hqueued]
    simp only [State.enqueue, State.setSubmitter, List.count_cons, beq_iff_eq]
    omega
  nodup := List.nodup_cons.2 ⟨ht.not_accepted, h.nodup⟩
  apart := by
    intro id hid hmem
    rcases List.mem_cons.1 hmem with rfl | hold
    · exact ht.not_rejected hid
    · exact h.apart id hid hold
  old := by
    rintro id (hmem | hid)
    · rcases List.mem_cons.1 hmem with rfl | hold
      · exact ht.old
      · exact h.old id (.inl hold)
    · exact h.old id (.inr hid)
  pending := by
    intro j sub hj
    obtain ⟨hne, hj⟩ := submitters_of_leave hj
    obtain ⟨hlt, hacc, hrej⟩ := h.pending j sub hj
    refine ⟨hlt, fun hmem => ?_, hrej⟩
    rcases List.mem_cons.1 hmem with heq | hold
    · exact hne (ht.only j sub hj heq)
    · exact hacc hold
  distinct := fun j k a b hj hk =>
    h.distinct j k a b (submitters_of_leave hj).2 (submitters_of_leave hk).2

theorem Counted.reject (h : Counted s) (ht : Owned s i t) : Counted (s.reject i t) where
  bound := h.bound
  balance := h.balance
  nodup := h.nodup
  apart := by
    intro id hid
    rcases List.mem_cons.1 hid with rfl | hold
    · exact ht.not_accepted
    · exact h.apart id hold
  old := by
    rintro id (hid | hmem)
    · exact h.old id (.inl hid)
    · rcases List.mem_cons.1 hmem with rfl | hold
      · exact ht.old
      · exact h.old id (.inr hold)
  pending := by
    intro j sub hj
    obtain ⟨hne, hj⟩ := submitters_of_leave hj
    obtain ⟨hlt, hacc, hrej⟩ := h.pending j sub hj
    refine ⟨hlt, hacc, fun hmem => ?_⟩
    rcases List.mem_cons.1 hmem with heq | hold
    · exact hne (ht.only j sub hj heq)
    · exact hrej hold
  distinct := fun j k a b hj hk =>
    h.distinct j k a b (submitters_of_leave hj).2 (submitters_of_leave hk).2

/-- A call that goes on keeps its task. -/
theorem Counted.goOn (h : Counted s) (sub : Submission) (ht : Owned s i sub.task) :
    Counted (s.setSubmitter i (some sub)) :=
  have hat (j : σ) (a : Submission) (hj : (s.setSubmitter i (some sub)).submitters j = some a) :
      (j = i ∧ a = sub) ∨ s.submitters j = some a := by
    by_cases hji : j = i
    · subst hji
      exact .inl ⟨rfl, by simpa [State.setSubmitter] using hj.symm⟩
    · exact .inr (by simpa [State.setSubmitter, Function.update_of_ne hji] using hj)
  { h with
    pending := by
      intro j a hj
      rcases hat j a hj with ⟨rfl, rfl⟩ | hold
      · exact ⟨ht.old, ht.not_accepted, ht.not_rejected⟩
      · exact h.pending j a hold
    distinct := by
      intro j k a b hj hk heq
      rcases hat j a hj with ⟨rfl, rfl⟩ | hjold
      · rcases hat k b hk with ⟨rfl, rfl⟩ | hkold
        · rfl
        · exact (ht.only k b hkold heq.symm).symm
      · rcases hat k b hk with ⟨rfl, rfl⟩ | hkold
        · exact ht.only j a hjold heq
        · exact h.distinct j k a b hjold hkold heq }

section Workers

variable {w : Fin config.threadCount.toNat}

omit [DecidableEq σ] in
theorem Counted.take {rest : List Task} (h : Counted s) (hidle : s.workers w = .idle)
    (hq : s.queue = t :: rest) : Counted { s.setWorker w (.holding t) with queue := rest } := by
  have hbound := h.bound
  refine { h with bound := ?_, balance := fun id => ?_ }
  · rw [hq, List.length_cons] at hbound
    exact Nat.le_of_succ_le hbound
  · -- the task goes from the queue into the hands of the worker
    have hbal := h.balance id
    have hheld := held_setWorker s w (.holding t) id
    have hqueued : s.queued id = (rest.map Task.id).count id + if t.id = id then 1 else 0 := by
      simp [State.queued, hq, List.count_cons]
    rw [hqueued] at hbal
    rw [hidle] at hheld
    simp only [Worker.count, Nat.add_zero] at hheld
    have hheld' : ({ s.setWorker w (.holding t) with queue := rest } : State σ config).held id =
        (s.setWorker w (.holding t)).held id := rfl
    rw [hheld']
    simp only [State.queued, State.setWorker] at hheld ⊢
    omega

omit [DecidableEq σ] in
theorem Counted.leave (h : Counted s) (hidle : s.workers w = .idle) :
    Counted (s.setWorker w .exited) := by
  refine { h with balance := fun id => ?_ }
  have hbal := h.balance id
  have hheld := held_setWorker s w .exited id
  rw [hidle] at hheld
  simp only [Worker.count, Nat.add_zero] at hheld
  rw [hheld]
  exact hbal

omit [DecidableEq σ] in
theorem Counted.called (h : Counted s) (hw : s.workers w = .holding t) :
    Counted (s.called w t) := by
  have hmove (id : Nat) : (s.setWorker w .idle).held id + (if t.id = id then 1 else 0) =
      s.held id := by
    have hheld := held_setWorker s w .idle id
    rw [hw] at hheld
    simpa [Worker.count] using hheld
  have hbal := h.balance
  unfold State.called
  split
  · refine { h with balance := fun id => ?_ }
    have hone := hmove id
    have hall := hbal id
    simp only [State.held, State.queued, State.setWorker, List.count_cons, beq_iff_eq] at *
    omega
  · refine { h with balance := fun id => ?_ }
    have hone := hmove id
    have hall := hbal id
    simp only [State.held, State.queued, State.setWorker, List.count_cons, beq_iff_eq] at *
    omega

end Workers

/-- Every step keeps the counts, whatever the condition. -/
theorem Counted.step {a : Action σ config} (h : Counted s) (hstep : step s a = some s') :
    Counted s' := by
  cases a with
  | submit i callable =>
      have ht := h.owned_newCall i callable
      rcases submit_eq_some hstep with rfl | rfl
      · exact h.newCall.reject ht
      · exact h.newCall.goOn (.entered ⟨s.calls, callable⟩) ht
  | lock i =>
      obtain ⟨sub, hi, rfl⟩ := Option.map_eq_some_iff.1 hstep
      have ht := h.owned hi
      rcases locked_cases s i sub with ⟨hadmits, heq⟩ | heq | heq
      · exact heq ▸ h.enqueue ht hadmits.1
      · exact heq ▸ h.reject ht
      · exact heq ▸ h.goOn (.waiting sub.task) ht
  | take w =>
      obtain ⟨hidle, ⟨t, rest, hq, rfl⟩ | ⟨_, rfl⟩⟩ := take_eq_some hstep
      · exact h.take hidle hq
      · exact h.leave hidle
  | execute w =>
      obtain ⟨t, hw, rfl⟩ := execute_eq_some hstep
      exact h.called hw
  | stop =>
      rcases stop_eq_some hstep with ⟨_, rfl⟩ | rfl
      · exact { h with }
      · exact { h with }
  | join =>
      obtain ⟨_, rfl⟩ := join_eq_some hstep
      exact { h with }

end Counting

section Delivery

variable {config : Config}

/-- What holds in every state of a run whose steps are `Served`: every task can be called, and
when the workers have left, nothing is in the queue and nothing comes into it. -/
structure Drained (s : State σ config) : Prop where
  queue : ∀ t ∈ s.queue, t.callable = true
  holding : ∀ w t, s.workers w = .holding t → t.callable = true
  skipped : s.skipped = []
  empty : s.AllExited → s.queue = []
  stopped : s.stopReturned = true → s.AllExited

theorem drained_init : Drained ({} : State σ config) where
  queue := fun _ h => by cases h
  holding := fun _ _ h => by cases h
  skipped := rfl
  empty := fun _ => rfl
  stopped := fun h => by cases h

variable {s s' : State σ config} {i : σ} {t : Task} {w : Fin config.threadCount.toNat}

/-- When all workers have left, no task is in anybody's hands. -/
theorem held_of_allExited (h : s.AllExited) (id : Nat) : s.held id = 0 :=
  Finset.sum_eq_zero fun w _ => by rw [h w]; rfl

/-- **What the counts say** once the workers have left. -/
theorem Drained.delivered (h : Drained s) (hc : Counted s) : Delivered s where
  accepted := by
    intro hstop id hid
    have hexited := h.stopped hstop
    have hbal := hc.balance id
    have hqueued : s.queued id = 0 := by simp [State.queued, h.empty hexited]
    rw [hqueued, held_of_allExited hexited, h.skipped, List.count_nil, Nat.zero_add,
      Nat.add_zero] at hbal
    rw [← hbal]
    exact List.count_eq_one_of_mem hc.nodup hid
  rejected := by
    intro id hid hmem
    have hbal := hc.balance id
    have hpos : 0 < s.executed.count id := List.count_pos_iff.2 hmem
    have hzero : s.accepted.count id = 0 := List.count_eq_zero.2 (hc.apart id hid)
    omega
  bound := hc.bound

/-- A worker that changes its hands, not out of its loop, was not out of it. -/
theorem allExited_of_setWorker {new : Worker} (hnew : new ≠ .exited)
    (h : (s.setWorker w new).AllExited) : False := by
  have hw : Function.update s.workers w new w = .exited := h w
  rw [Function.update_self] at hw
  exact hnew hw

theorem holding_of_setWorker {new : Worker} {v : Fin config.threadCount.toNat} {u : Task}
    (h : (s.setWorker w new).workers v = .holding u) :
    new = .holding u ∨ s.workers v = .holding u := by
  by_cases hv : v = w
  · subst hv
    exact .inl (by simpa [State.setWorker] using h)
  · exact .inr (by simpa [State.setWorker, Function.update_of_ne hv] using h)

theorem Drained.called (h : Drained s) (hw : s.workers w = .holding t) :
    Drained (s.called w t) := by
  have hcallable := h.holding w t hw
  have hbusy (hstop : s.stopReturned = true) : False := by
    have := h.stopped hstop w
    rw [hw] at this
    cases this
  simp only [State.called, hcallable, if_true]
  refine { h with holding := ?_, empty := ?_, stopped := ?_ }
  · intro v u hv
    rcases holding_of_setWorker hv with hnew | hold
    · cases hnew
    · exact h.holding v u hold
  · exact fun hexited => (allExited_of_setWorker (by simp) hexited).elim
  · exact fun hstop => (hbusy hstop).elim

theorem Drained.take {rest : List Task} (h : Drained s) (hidle : s.workers w = .idle)
    (hq : s.queue = t :: rest) :
    Drained { s.setWorker w (.holding t) with queue := rest } := by
  have hthere := h.queue
  rw [hq] at hthere
  refine { h with queue := ?_, holding := ?_, empty := ?_, stopped := ?_ }
  · exact fun u hu => hthere u (List.mem_cons_of_mem _ hu)
  · intro v u hv
    rcases holding_of_setWorker hv with hnew | hold
    · obtain rfl : t = u := Worker.holding.inj hnew
      exact hthere t List.mem_cons_self
    · exact h.holding v u hold
  · exact fun hexited => (allExited_of_setWorker (by simp) hexited).elim
  · intro hstop
    have := h.stopped hstop w
    rw [hidle] at this
    cases this

theorem Drained.leave (h : Drained s) (hq : s.queue = []) : Drained (s.setWorker w .exited) := by
  refine { h with holding := ?_, empty := fun _ => hq, stopped := ?_ }
  · intro v u hv
    rcases holding_of_setWorker hv with hnew | hold
    · cases hnew
    · exact h.holding v u hold
  · intro hstop v
    by_cases hv : v = w
    · subst hv
      simp [State.setWorker]
    · simpa [State.setWorker, Function.update_of_ne hv] using h.stopped hstop v

variable [DecidableEq σ]

theorem Drained.enqueue (h : Drained s) (hserved : ¬ s.AllExited ∧ t.callable = true) :
    Drained (s.enqueue i t) :=
  { h with
    queue := by
      intro u hu
      rcases List.mem_append.1 hu with hold | hnew
      · exact h.queue u hold
      · exact List.mem_singleton.1 hnew ▸ hserved.2
    empty := fun hexited => absurd hexited hserved.1 }

/-- A step keeps the workers with the tasks when it is `Served`. -/
theorem Drained.step {a : Action σ config} (h : Drained s) (hserved : Served s a)
    (hstep : step s a = some s') : Drained s' := by
  cases a with
  | submit i callable =>
      rcases submit_eq_some hstep with rfl | rfl
      · exact { h with }
      · exact { h with }
  | lock i =>
      obtain ⟨sub, hi, rfl⟩ := Option.map_eq_some_iff.1 hstep
      rcases locked_cases s i sub with ⟨hadmits, heq⟩ | heq | heq
      · exact heq ▸ h.enqueue (hserved sub hi hadmits)
      · exact heq ▸ { h with }
      · exact heq ▸ { h with }
  | take w =>
      obtain ⟨hidle, ⟨t, rest, hq, rfl⟩ | ⟨hq, rfl⟩⟩ := take_eq_some hstep
      · exact h.take hidle hq
      · exact h.leave hq
  | execute w =>
      obtain ⟨t, hw, rfl⟩ := execute_eq_some hstep
      exact h.called hw
  | stop =>
      rcases stop_eq_some hstep with ⟨hset, rfl⟩ | rfl
      · exact { h with stopped := fun _ => hserved hset }
      · exact { h with }
  | join =>
      obtain ⟨hexited, rfl⟩ := join_eq_some hstep
      exact { h with stopped := fun _ => hexited }

/-- In every run, with any threads in any order, the queue keeps its bound, no rejected task is
executed, and none is executed twice. -/
theorem counted_run (actions : List (Action σ config)) (s : State σ config)
    (hrun : Machine.run step {} actions = some s) : Counted s :=
  Machine.run_invariant (fun _ _ _ hs hstep => hs.step hstep) actions _ s counted_init hrun

/-- **Delivery.** In every run whose steps are served, what the pool has accepted is executed
exactly once before `stop` returns. -/
theorem submit_delivered (actions : List (Action σ config)) (s : State σ config)
    (hserved : Machine.RunMeets step Served ({} : State σ config) actions)
    (hrun : Machine.run step {} actions = some s) : Delivered s := by
  have hdrained : Drained s := Machine.run_induction (P := Drained)
    (fun _ _ _ hs hmeets hstep => hs.step hmeets hstep) actions _ s drained_init hserved hrun
  exact hdrained.delivered (counted_run actions s hrun)

/-- One task is accepted, a second one does not fit and is rejected, and the pool stops. -/
theorem submit_delivered_two :
    ∃ s : State Bool ⟨1, 1⟩, s.accepted = [0] ∧ s.rejected = [1] ∧ Delivered s :=
  let actions : List (Action Bool ⟨1, 1⟩) :=
    [.submit false true, .submit true true, .lock false, .lock true, .lock true, .stop,
      .take ⟨0, by decide⟩, .execute ⟨0, by decide⟩, .take ⟨0, by decide⟩, .join]
  have hserved : Machine.RunMeets step Served ({} : State Bool ⟨1, 1⟩) actions := by decide
  ⟨(Machine.run step {} actions).get (by decide), by decide, by decide,
    submit_delivered actions _ hserved (Option.some_get _).symm⟩

/-- The worker leaves between the test of the flag and the enqueue: the task is accepted, `stop`
has returned, and nobody executes the task. -/
theorem submit_not_delivered :
    ∃ (actions : List (Action Bool ⟨1, 1⟩)) (s : State Bool ⟨1, 1⟩),
      Machine.run step {} actions = some s ∧ s.accepted = [0] ∧ ¬ Delivered s := by
  let actions : List (Action Bool ⟨1, 1⟩) :=
    [.submit false true, .stop, .take ⟨0, by decide⟩, .lock false, .join]
  let s : State Bool ⟨1, 1⟩ := (Machine.run step {} actions).get (by decide)
  refine ⟨actions, s, (Option.some_get _).symm, by decide, fun h => ?_⟩
  have hone : s.executed.count 0 = 1 := h.accepted (by decide) 0 (by decide)
  have hnone : s.executed = [] := by decide
  rw [hnone] at hone
  cases hone

end Delivery

end EyaKV.Common.ThreadPool
