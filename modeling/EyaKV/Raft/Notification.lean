import EyaKV.Raft.Replies

/-!
# The notification of submitted commands

The loop over the committed entries executes an entry and then tells the call that is
registered under its index. `correct_iff` says of every step that it leaves the calls correct
exactly under `Meets`, and `replies_iff` says so of runs.
-/

set_option autoImplicit false

namespace EyaKV.Raft

open EyaKV.Base EyaKV.Store

namespace Replies

variable {σ : Type} (execute : Bytes → σ → Response × σ) (cfg : RaftNodeConfig)
  (s : Replies σ)

section Loop

variable {execute cfg s} {s' : Replies σ} {w : ApplyWork}

/-- A piece of the loop that leaves the calls and their executions. -/
structure LoopStep (s s' : Replies σ) : Prop where
  logArray : s'.node.logArray = s.node.logArray
  owners : s'.owners = s.owners
  calls : s'.calls = s.calls
  pending : s'.pending = s.pending
  executions : s'.executions = s.executions
  nextIndex : s.nextIndex ≤ s'.nextIndex
  working : ∀ w, s'.work = some w →
    w.lastApplied = s'.node.state.lastApplied ∧
      ∀ owner response, w.stage ≠ .executed owner response

theorem LoopStep.inv (h : LoopStep s s') (hi : Inv execute s) : Inv execute s' where
  fresh := by
    rw [h.calls]
    exact hi.fresh
  owned := by
    rw [h.owners, h.calls, h.logArray]
    exact hi.owned
  registered := by
    rw [h.pending, h.calls]
    exact hi.registered
  recorded := by
    rw [h.executions, h.calls]
    exact hi.recorded
  unique := by
    rw [h.executions]
    exact hi.unique
  reached := by
    intro x hx
    rw [h.executions] at hx
    exact Nat.lt_of_lt_of_le (hi.reached x hx) h.nextIndex
  working := fun w hw => (h.working w hw).1
  executed := fun w owner response hw hstage =>
    absurd hstage ((h.working w hw).2 owner response)

theorem LoopStep.correct (h : LoopStep s s') (hcorrect : Correct execute s)
    (hquiet : ∀ x ∈ s.executions, x.inTime = true → ¬ s.Notifies x.call) : Correct execute s' where
  own := by
    rw [h.calls, h.executions]
    exact hcorrect.own
  returned := by
    rw [h.calls]
    exact hcorrect.returned
  told := by
    intro x hx hin
    rw [h.executions] at hx
    rw [h.calls]
    obtain ⟨htime, htold⟩ := hcorrect.told x hx hin
    exact ⟨htime, htold.imp_right fun hnot => absurd hnot (hquiet x hx hin)⟩

theorem next_ne_executed (owner : Option Nat) (response : Response) :
    ApplyStage.next ≠ .executed owner response := by
  intro hexec
  cases hexec

theorem marked_ne_executed (owner : Option Nat) (response : Response) :
    ApplyStage.marked ≠ .executed owner response := by
  intro hexec
  cases hexec

theorem next_startApply (hi : Inv execute s) (h : Correct execute s)
    (hstep : step execute cfg s .startApply = some s') :
    Inv execute s' ∧ Correct execute s' := by
  simp only [step] at hstep
  split at hstep
  · next hwork =>
      split at hstep
      · obtain rfl := Option.some.inj hstep
        exact ⟨hi, h⟩
      · obtain rfl := Option.some.inj hstep
        have hloop : LoopStep s { s with
            work := some ⟨s.node.state.lastApplied, s.node.state.commitIndex, .next⟩ } := by
          refine ⟨rfl, rfl, rfl, rfl, rfl, ?_, ?_⟩
          · simp only [nextIndex, hwork, Nat.le_refl]
          · intro w hw
            obtain rfl := Option.some.inj hw
            exact ⟨rfl, next_ne_executed⟩
        refine ⟨hloop.inv hi, hloop.correct h ?_⟩
        rintro x - - ⟨w, response, hw, -⟩
        rw [hwork] at hw
        cases hw
  · cases hstep

/-- No call is to be told in another stage. -/
theorem not_notifies (hwork : s.work = some w)
    (hstage : ∀ owner response, w.stage ≠ .executed owner response) (c : Nat) :
    ¬ s.Notifies c := by
  rintro ⟨w', response, hw, hexec⟩
  obtain rfl := Option.some.inj (hwork.symm.trans hw)
  exact hstage _ _ hexec

/-- The head of the loop. -/
theorem next_head (hi : Inv execute s) (h : Correct execute s) (hwork : s.work = some w)
    (hstage : w.stage = .next) :
    Inv execute (s.advance execute w) ∧ Correct execute (s.advance execute w) := by
  have hlast := hi.working w hwork
  have hloop : LoopStep s (s.advance execute w) := by
    simp only [advance, hstage]
    split
    · refine ⟨rfl, rfl, rfl, rfl, rfl, ?_, ?_⟩
      · simp only [nextIndex, hwork, hstage, Nat.le_refl]
      · intro w' hw
        obtain rfl := Option.some.inj hw
        exact ⟨rfl, marked_ne_executed⟩
    · refine ⟨rfl, rfl, rfl, rfl, rfl, ?_, ?_⟩
      · simp only [nextIndex, hwork, hstage, hlast, Node.savePersistentState, Nat.le_refl]
      · intro w' hw
        cases hw
  refine ⟨hloop.inv hi, hloop.correct h fun x _ _ => not_notifies hwork ?_ x.call⟩
  rw [hstage]
  exact next_ne_executed

/-- What an execution adds for the owner of the entry. -/
theorem mem_executions {executions : List (Execution σ)} {owner : Option Nat}
    {f : Nat → Execution σ} {x : Execution σ} :
    x ∈ executions ++ owner.toList.map f ↔
      x ∈ executions ∨ ∃ c, owner = some c ∧ x = f c := by
  simp only [List.mem_append, List.mem_map, Option.mem_toList, eq_comm]

/-- At a marked entry: every execution has a smaller index, and no call is to be told. -/
theorem marked_spec (hi : Inv execute s) (hwork : s.work = some w) (hstage : w.stage = .marked) :
    (∀ x ∈ s.executions, x.index < w.lastApplied) ∧ ∀ c, ¬ s.Notifies c := by
  constructor
  · intro x hx
    simpa only [nextIndex, hwork, hstage] using hi.reached x hx
  · refine not_notifies hwork ?_
    rw [hstage]
    exact marked_ne_executed

/-- An index whose entry cannot be read. -/
theorem next_missing (hi : Inv execute s) (h : Correct execute s) (hwork : s.work = some w)
    (hstage : w.stage = .marked) (hget : s.node.logArray.get w.lastApplied = none) :
    Inv execute (s.advance execute w) ∧ Correct execute (s.advance execute w) := by
  obtain ⟨hnew, hquiet⟩ := marked_spec hi hwork hstage
  simp only [advance, hstage, executeEntry, hget]
  refine ⟨⟨hi.fresh, hi.owned, hi.registered, hi.recorded, hi.unique, ?_, ?_, ?_⟩,
    h.own, h.returned, ?_⟩
  · intro x hx
    exact Nat.lt_succ_of_lt (hnew x hx)
  · intro w' hw
    obtain rfl := Option.some.inj hw
    exact hi.working w hwork
  · intro w' owner response hw hexec
    obtain rfl := Option.some.inj hw
    obtain ⟨rfl, -⟩ := ApplyStage.executed.inj hexec
    refine ⟨fun x hx hindex => absurd hindex (Nat.ne_of_lt (hnew x hx)), ?_⟩
    intro c hc
    cases hc
  · intro x hx hin
    exact (h.told x hx hin).imp_right fun h => h.imp_right fun hnot =>
      absurd hnot (hquiet x.call)

/-- The execution of an entry. Its index is new, so its call has no execution yet. -/
theorem next_found {e : LogEntry} (hi : Inv execute s) (h : Correct execute s)
    (hwork : s.work = some w) (hstage : w.stage = .marked)
    (hget : s.node.logArray.get w.lastApplied = some e) :
    Inv execute (s.advance execute w) ∧ Correct execute (s.advance execute w) := by
  obtain ⟨hnew, hquiet⟩ := marked_spec hi hwork hstage
  have howner : ∀ c, s.owners w.lastApplied = some c →
      (s.calls c).stage.index = some w.lastApplied ∧ e.cmd = (s.calls c).cmd := by
    intro c hc
    obtain ⟨hindex, e', he', hcmd⟩ := hi.owned _ c hc
    obtain rfl := Option.some.inj (hget.symm.trans he')
    exact ⟨hindex, hcmd⟩
  have hfirst : ∀ c, s.owners w.lastApplied = some c → ∀ x ∈ s.executions, x.call ≠ c := by
    rintro c hc x hx rfl
    have hindex := Option.some.inj ((hi.recorded x hx).1.symm.trans (howner x.call hc).1)
    exact absurd hindex (Nat.ne_of_lt (hnew x hx))
  simp only [advance, hstage, executeEntry, hget]
  refine ⟨⟨hi.fresh, hi.owned, hi.registered, ?_, ?_, ?_, ?_, ?_⟩, ?_, h.returned, ?_⟩
  · -- recorded
    intro x hx
    rcases mem_executions.1 hx with hx | ⟨c, hc, rfl⟩
    · exact hi.recorded x hx
    · exact ⟨(howner c hc).1, fun hlate => by simpa using hlate⟩
  · -- unique
    intro x hx y hy hindex
    rcases mem_executions.1 hx with hx | ⟨c, hc, rfl⟩
    · rcases mem_executions.1 hy with hy | ⟨d, hd, rfl⟩
      · exact hi.unique x hx y hy hindex
      · exact absurd hindex (Nat.ne_of_lt (hnew x hx))
    · rcases mem_executions.1 hy with hy | ⟨d, hd, rfl⟩
      · exact absurd hindex.symm (Nat.ne_of_lt (hnew y hy))
      · obtain rfl := Option.some.inj (hc.symm.trans hd)
        rfl
  · -- reached
    intro x hx
    rcases mem_executions.1 hx with hx | ⟨c, hc, rfl⟩
    · exact Nat.lt_succ_of_lt (hnew x hx)
    · exact Nat.lt_succ_self _
  · intro w' hw
    obtain rfl := Option.some.inj hw
    exact hi.working w hwork
  · -- executed
    intro w' owner response hw hexec
    obtain rfl := Option.some.inj hw
    obtain ⟨rfl, rfl⟩ := ApplyStage.executed.inj hexec
    constructor
    · intro x hx hindex
      rcases mem_executions.1 hx with hx | ⟨c, hc, rfl⟩
      · exact absurd hindex (Nat.ne_of_lt (hnew x hx))
      · exact hc
    · intro c hc
      refine ⟨?_, _, mem_executions.2 (Or.inr ⟨c, hc, rfl⟩), rfl, rfl, ?_⟩
      · refine Option.eq_none_iff_forall_ne_some.2 fun response hp => ?_
        obtain ⟨x, hx, hxc, -⟩ := h.own c response hp
        exact hfirst c hc x hx hxc
      · rw [(howner c hc).2]
  · intro c response hp
    obtain ⟨x, hx, hresponse⟩ := h.own c response hp
    exact ⟨x, mem_executions.2 (Or.inl hx), hresponse⟩
  · intro x hx hin
    rcases mem_executions.1 hx with hx | ⟨c, hc, rfl⟩
    · exact (h.told x hx hin).imp_right fun h => h.imp_right fun hnot =>
        absurd hnot (hquiet x.call)
    · refine ⟨by simpa using hin, Or.inr ⟨_, (execute e.cmd s.storage).1, rfl, ?_⟩⟩
      simp only [hc]

end Loop

section Notification

variable {execute cfg s} {w : ApplyWork} {owner : Option Nat} {response : Response}

theorem meets_advance (hwork : s.work = some w) (hstage : w.stage = .executed owner response) :
    s.Meets .advance ↔
      (∀ c ∈ owner, (s.calls c).stage.timedOut = false →
        s.node.role = .leader ∧ s.pending w.lastApplied = some c) ∧
      (s.node.role = .leader → ∀ c ∈ s.pending w.lastApplied, owner = some c) := by
  simp only [Meets, hwork, hstage, ApplyStage.owner, Option.mem_def, Option.some.injEq, forall_eq']

/-- The execution that the loop is about to tell: of a call in time, or of one whose time was
over. -/
theorem executed_spec (hi : Inv execute s) (hwork : s.work = some w)
    (hstage : w.stage = .executed owner response) {c : Nat} (hc : owner = some c) :
    (s.calls c).promise = none ∧ ∃ x ∈ s.executions, x.call = c ∧ x.index = w.lastApplied ∧
      (execute (s.calls c).cmd x.before).1 = response ∧
      ((s.calls c).stage.timedOut = false → x.inTime = true) := by
  obtain ⟨hnone, x, hx, rfl, hindex, hresponse⟩ := (hi.executed w owner response hwork hstage).own c hc
  refine ⟨hnone, x, hx, rfl, hindex, hresponse, fun htime => ?_⟩
  by_contra hlate
  rw [(hi.recorded x hx).2 (by simpa using hlate)] at htime
  cases htime

/-- The loop goes on without telling any call. -/
theorem next_untold (hi : Inv execute s) (h : Correct execute s) (hwork : s.work = some w)
    (hstage : w.stage = .executed owner response)
    (hnone : ∀ c, ¬ (s.node.role = .leader ∧ s.pending w.lastApplied = some c))
    (heq : s.advance execute w = { s with work := some { w with stage := .next } }) :
    Inv execute (s.advance execute w) ∧
      (Correct execute (s.advance execute w) ↔ s.Meets .advance) := by
  have hloop : LoopStep s (s.advance execute w) := by
    rw [heq]
    refine ⟨rfl, rfl, rfl, rfl, rfl, ?_, ?_⟩
    · simp only [nextIndex, hwork, hstage, Nat.le_refl]
    · intro w' hw
      obtain rfl := Option.some.inj hw
      exact ⟨hi.working w hwork, next_ne_executed⟩
  refine ⟨hloop.inv hi, Iff.trans ?_ (meets_advance hwork hstage).symm⟩
  constructor
  · intro h'
    refine ⟨fun c hc htime => ?_, fun hrole c hc => absurd ⟨hrole, hc⟩ (hnone c)⟩
    obtain ⟨hpromise, x, hx, rfl, -, -, hin⟩ := executed_spec hi hwork hstage hc
    -- the call is not told later either
    rcases (h'.told x (hloop.executions ▸ hx) (hin htime)).2 with htold | hnot
    · rw [hloop.calls, hpromise] at htold
      cases htold
    · exact absurd hnot (not_notifies (w := { w with stage := .next }) (by rw [heq])
        next_ne_executed _)
  · rintro ⟨hmeets, -⟩
    refine hloop.correct h ?_
    rintro x hx hin ⟨w', r, hw, hexec⟩
    obtain rfl := Option.some.inj (hwork.symm.trans hw)
    obtain ⟨rfl, -⟩ := ApplyStage.executed.inj (hstage.symm.trans hexec)
    exact hnone x.call (hmeets x.call rfl (h.told x hx hin).1)

/-- The loop tells the call `c`, which is registered at the index. -/
structure Tells (s s' : Replies σ) (w : ApplyWork) (c : Nat) (response : Response) : Prop where
  node : s'.node = s.node
  owners : s'.owners = s.owners
  executions : s'.executions = s.executions
  work : s'.work = some { w with stage := .next }
  pending : s'.pending = Function.update s.pending w.lastApplied none
  self : s'.calls c = { s.calls c with promise := some response }
  other : ∀ k, k ≠ c → s'.calls k = s.calls k

variable {s' : Replies σ} {c : Nat}

theorem Tells.stage (h : Tells s s' w c response) (k : Nat) :
    (s'.calls k).stage = (s.calls k).stage ∧ (s'.calls k).cmd = (s.calls k).cmd := by
  by_cases hk : k = c
  · rw [hk, h.self]
    exact ⟨rfl, rfl⟩
  · rw [h.other k hk]
    exact ⟨rfl, rfl⟩

theorem Tells.not_notifies (h : Tells s s' w c response) (k : Nat) : ¬ s'.Notifies k :=
  Replies.not_notifies h.work next_ne_executed k

/-- A registered call has its entry at the index, and no response yet. -/
theorem registered_spec (hi : Inv execute s) {i : Nat} (hc : s.pending i = some c) :
    (s.calls c).stage.index = some i ∧ (s.calls c).stage.registered = true ∧
      (s.calls c).promise = none := by
  obtain ⟨hreg, hnone⟩ := hi.registered i c hc
  rcases hreg with hwait | hover
  · rw [hwait]
    exact ⟨rfl, rfl, hnone⟩
  · rw [hover]
    exact ⟨rfl, rfl, hnone⟩

theorem Tells.inv (h : Tells s s' w c response) (hi : Inv execute s) (hwork : s.work = some w)
    (hstage : w.stage = .executed owner response) (hc : s.pending w.lastApplied = some c) :
    Inv execute s' := by
  obtain ⟨hindex, hreg, hpromise⟩ := registered_spec hi hc
  refine ⟨?_, ?_, ?_, ?_, ?_, ?_, ?_, ?_⟩
  · -- fresh
    intro k hfresh
    rw [(h.stage k).1] at hfresh
    have hk : k ≠ c := by
      rintro rfl
      rw [hreg] at hfresh
      cases hfresh
    rw [h.other k hk]
    exact hi.fresh k hfresh
  · -- owned
    intro i k hk
    rw [h.owners] at hk
    rw [(h.stage k).1, (h.stage k).2, h.node]
    exact hi.owned i k hk
  · -- registered
    intro i k hk
    rw [h.pending] at hk
    by_cases hi' : i = w.lastApplied
    · obtain rfl := hi'
      simp at hk
    · have hold : s.pending i = some k := by simpa [hi'] using hk
      have hk : k ≠ c := by
        rintro rfl
        exact hi' (Option.some.inj ((registered_spec hi hold).1.symm.trans hindex))
      rw [h.other k hk]
      exact hi.registered i k hold
  · -- recorded
    intro x hx
    rw [h.executions] at hx
    rw [(h.stage x.call).1]
    exact hi.recorded x hx
  · rw [h.executions]
    exact hi.unique
  · -- reached
    intro x hx
    rw [h.executions] at hx
    have hlt := hi.reached x hx
    simp only [nextIndex, hwork, hstage] at hlt
    simpa only [nextIndex, h.work] using hlt
  · intro w' hw
    obtain rfl := Option.some.inj (h.work.symm.trans hw)
    rw [h.node]
    exact hi.working w hwork
  · intro w' o r hw hexec
    obtain rfl := Option.some.inj (h.work.symm.trans hw)
    cases hexec

/-- Correct calls show that the one that has been told is the owner of the entry. -/
theorem Tells.owner_eq (h : Tells s s' w c response) (hi : Inv execute s)
    (hwork : s.work = some w) (hstage : w.stage = .executed owner response)
    (hc : s.pending w.lastApplied = some c) (h' : Correct execute s') : owner = some c := by
  obtain ⟨hindex, -, -⟩ := registered_spec hi hc
  obtain ⟨x, hx, rfl, -⟩ := h'.own c response (by rw [h.self])
  rw [h.executions] at hx
  have hxi := Option.some.inj ((hi.recorded x hx).1.symm.trans hindex)
  exact (hi.executed w owner response hwork hstage).only x hx hxi

/-- They show that the owner, when its time is not over, is the one that has been told. -/
theorem Tells.eq_of_owner (h : Tells s s' w c response) (hi : Inv execute s)
    (hwork : s.work = some w) (hstage : w.stage = .executed owner response) {k : Nat}
    (hk : owner = some k) (htime : (s.calls k).stage.timedOut = false)
    (h' : Correct execute s') : k = c := by
  obtain ⟨hnone, x, hx, rfl, -, -, hin⟩ := executed_spec hi hwork hstage hk
  have htold := (h'.told x (h.executions ▸ hx) (hin htime)).2.resolve_right
    (h.not_notifies x.call)
  by_contra hne
  rw [h.other _ hne, hnone] at htold
  cases htold

theorem Tells.correct (h : Tells s s' w c response) (hi : Inv execute s)
    (hcorrect : Correct execute s) (hwork : s.work = some w)
    (hstage : w.stage = .executed owner response) (hc : s.pending w.lastApplied = some c)
    (howner : owner = some c) : Correct execute s' := by
  obtain ⟨hindex, -, hpromise⟩ := registered_spec hi hc
  obtain ⟨-, x, hx, hxc, hxi, hresponse, -⟩ := executed_spec hi hwork hstage howner
  constructor
  · intro k r hp
    rw [(h.stage k).2, h.executions]
    by_cases hk : k = c
    · obtain rfl := hk
      rw [h.self] at hp
      exact ⟨x, hx, hxc, hresponse.trans (Option.some.inj hp)⟩
    · rw [h.other k hk] at hp
      exact hcorrect.own k r hp
  · intro k i r hret
    rw [(h.stage k).1] at hret
    have hold := hcorrect.returned k i r hret
    have hk : k ≠ c := by
      rintro rfl
      rw [hpromise] at hold
      cases hold
    rw [h.other k hk]
    exact hold
  · intro y hy hin
    rw [h.executions] at hy
    rw [(h.stage y.call).1, (h.stage y.call).2]
    obtain ⟨htime, htold⟩ := hcorrect.told y hy hin
    refine ⟨htime, Or.inl ?_⟩
    by_cases hk : y.call = c
    · -- the call has one execution
      have hyi := (hi.recorded y hy).1
      rw [hk, hindex] at hyi
      obtain rfl := hi.unique x hx y hy (hxi.trans (Option.some.inj hyi))
      rw [hk, h.self, hresponse]
    · rw [h.other _ hk]
      refine htold.resolve_right ?_
      rintro ⟨w', r, hw, hexec⟩
      obtain rfl := Option.some.inj (hwork.symm.trans hw)
      obtain ⟨hy', -⟩ := ApplyStage.executed.inj (hstage.symm.trans hexec)
      exact hk (Option.some.inj (hy'.symm.trans howner))

theorem tells_advance (hi : Inv execute s) (hstage : w.stage = .executed owner response)
    (hrole : s.node.role = .leader) (hc : s.pending w.lastApplied = some c) :
    Tells s (s.advance execute w) w c response := by
  obtain ⟨-, -, hpromise⟩ := registered_spec hi hc
  simp only [advance, hstage, hrole, ↓reduceIte, notifyRequestApplied, hc]
  refine ⟨rfl, rfl, rfl, rfl, rfl, ?_, ?_⟩
  · refine (Function.update_self c _ s.calls).trans ?_
    rw [hpromise]
    rfl
  · intro k hk
    exact Function.update_of_ne hk _ s.calls

/-- The loop tells a call. -/
theorem next_told (hi : Inv execute s) (h : Correct execute s) (hwork : s.work = some w)
    (hstage : w.stage = .executed owner response) (hrole : s.node.role = .leader)
    (hc : s.pending w.lastApplied = some c) :
    Inv execute (s.advance execute w) ∧
      (Correct execute (s.advance execute w) ↔ s.Meets .advance) := by
  have htells := tells_advance hi hstage hrole hc
  refine ⟨htells.inv hi hwork hstage hc, Iff.trans ?_ (meets_advance hwork hstage).symm⟩
  constructor
  · intro h'
    refine ⟨fun k hk htime => ⟨hrole, ?_⟩, fun _ k hk => ?_⟩
    · rw [htells.eq_of_owner hi hwork hstage hk htime h']
      exact hc
    · obtain rfl := Option.some.inj (hc.symm.trans hk)
      exact htells.owner_eq hi hwork hstage hc h'
  · rintro ⟨-, honly⟩
    exact htells.correct hi h hwork hstage hc (honly hrole c hc)

/-- The notification. -/
theorem next_executed (hi : Inv execute s) (h : Correct execute s) (hwork : s.work = some w)
    (hstage : w.stage = .executed owner response) :
    Inv execute (s.advance execute w) ∧
      (Correct execute (s.advance execute w) ↔ s.Meets .advance) := by
  by_cases hrole : s.node.role = .leader
  · cases hc : s.pending w.lastApplied with
    | some c =>
        exact next_told hi h hwork hstage hrole hc
    | none =>
        refine next_untold hi h hwork hstage ?_ ?_
        · rintro c ⟨-, hc'⟩
          cases hc.symm.trans hc'
        · simp only [advance, hstage, hrole, ↓reduceIte, notifyRequestApplied, hc]
  · refine next_untold hi h hwork hstage ?_ ?_
    · rintro c ⟨hrole', -⟩
      exact hrole hrole'
    · simp only [advance, hstage, hrole, ↓reduceIte]

end Notification

section Runs

variable {execute : Bytes → σ → Response × σ} {cfg : RaftNodeConfig} {s s' : Replies σ}

/-- The loop. -/
theorem next_advance (hi : Inv execute s) (h : Correct execute s)
    (hstep : step execute cfg s .advance = some s') :
    Inv execute s' ∧ (Correct execute s' ↔ s.Meets .advance) := by
  obtain ⟨w, hwork, rfl⟩ := Option.map_eq_some_iff.1 hstep
  have hmeets (hstage : ∀ owner response, w.stage ≠ .executed owner response) :
      s.Meets .advance := by
    intro w' hw owner howner
    obtain rfl := Option.some.inj (hwork.symm.trans hw)
    obtain ⟨response, hexec⟩ := ApplyStage.executed_of_owner howner
    exact absurd hexec (hstage owner response)
  cases hstage : w.stage with
  | next =>
      obtain ⟨hi', h'⟩ := next_head hi h hwork hstage
      exact ⟨hi', iff_of_true h' (hmeets (by rw [hstage]; exact next_ne_executed))⟩
  | marked =>
      have hmet := hmeets (by rw [hstage]; exact marked_ne_executed)
      cases hget : s.node.logArray.get w.lastApplied with
      | none =>
          obtain ⟨hi', h'⟩ := next_missing hi h hwork hstage hget
          exact ⟨hi', iff_of_true h' hmet⟩
      | some e =>
          obtain ⟨hi', h'⟩ := next_found hi h hwork hstage hget
          exact ⟨hi', iff_of_true h' hmet⟩
  | executed owner response => exact next_executed hi h hwork hstage

/-- **One step.** From correct calls it leaves the calls correct exactly under the condition. -/
theorem correct_iff {act : ReplyAction} (hi : Inv execute s) (h : Correct execute s)
    (hstep : step execute cfg s act = some s') :
    Inv execute s' ∧ (Correct execute s' ↔ s.Meets act) := by
  have free (hnext : Inv execute s' ∧ Correct execute s') (hmeets : s.Meets act) :
      Inv execute s' ∧ (Correct execute s' ↔ s.Meets act) :=
    ⟨hnext.1, iff_of_true hnext.2 hmeets⟩
  cases act with
  | submit c cmd => exact free (next_submit hi h hstep) trivial
  | append c => exact free (next_append hi h hstep) trivial
  | register c => exact free (next_register hi h hstep) trivial
  | wake c => exact free (next_wake hi h hstep) trivial
  | expire c => exact next_expire hi h hstep
  | erase c => exact free (next_erase hi h hstep) trivial
  | batchAppend entries =>
      simp only [step] at hstep
      split at hstep
      · obtain rfl := Option.some.inj hstep
        exact free (next_setNode hi h rfl) trivial
      · cases hstep
  | handle handler =>
      simp only [step] at hstep
      split at hstep
      · obtain rfl := Option.some.inj hstep
        exact free (next_setNode hi h (lastApplied_handle cfg s.node handler)) trivial
      · cases hstep
  | startApply => exact free (next_startApply hi h hstep) trivial
  | advance => exact next_advance hi h hstep

theorem inv_start (node : Node) (storage : σ) : Inv execute (start node storage) where
  fresh := fun _ _ => rfl
  owned := fun i c h => by cases h
  registered := fun i c h => by cases h
  recorded := fun x hx => absurd hx List.not_mem_nil
  unique := fun x hx => absurd hx List.not_mem_nil
  reached := fun x hx => absurd hx List.not_mem_nil
  working := fun w h => by cases h
  executed := fun w owner response h => by cases h

theorem correct_start (node : Node) (storage : σ) : Correct execute (start node storage) where
  own := fun c response h => by cases h
  returned := fun c index response h => by cases h
  told := fun x hx => absurd hx List.not_mem_nil

/-- **Replies.** In every run of the calls, of the handlers of the node and of the loop, from
any node, every step leaves the calls correct exactly when every step is taken under the
condition: the loop tells only registered calls of a leader, each about its own entry. -/
theorem replies_iff (execute : Bytes → σ → Response × σ) (cfg : RaftNodeConfig) (node : Node)
    (storage : σ) (actions : List ReplyAction) (s : Replies σ)
    (hrun : Machine.run (step execute cfg) (start node storage) actions = some s) :
    Machine.RunMeets (step execute cfg) (Answers execute cfg) (start node storage) actions ↔
      Machine.RunMeets (step execute cfg) Meets (start node storage) actions := by
  have hone : ∀ t act t', Inv execute t ∧ Correct execute t → step execute cfg t act = some t' →
      (Answers execute cfg t act ↔ t.Meets act) := by
    rintro t act t' ⟨hi, h⟩ hstep
    constructor
    · intro hanswers
      exact (correct_iff hi h hstep).2.1 (hanswers t' hstep)
    · intro hmeets t'' hstep'
      exact (correct_iff hi h hstep').2.2 hmeets
  refine Machine.runMeets_congr hone ?_ actions _ s
    ⟨inv_start node storage, correct_start node storage⟩ hrun
  rintro t act t' ⟨hi, h⟩ hanswers hstep
  exact ⟨(correct_iff hi h hstep).1, hanswers t' hstep⟩

end Runs

section Solo

/-- A storage that answers each command with the number of those before it. -/
def numbering (cmd : Bytes) (done : List Bytes) : Response × List Bytes :=
  (.count done.length, done ++ [cmd])

/-- A leader without followers executes a command. -/
def answered : List ReplyAction :=
  [.handle .becomeLeader, .submit 1 [1], .append 1, .register 1, .handle .advanceCommit,
    .startApply, .advance, .advance, .advance, .wake 1]

/-- In the run every step leaves the calls correct, and the call returns the response of its
command. -/
theorem replies_iff_answered :
    ∃ s, Machine.run (step numbering Cluster.plainConfig) (start {} []) answered = some s ∧
      (s.calls 1).stage = .returned 1 (some (.count 0)) ∧
      Machine.RunMeets (step numbering Cluster.plainConfig)
        (Answers numbering Cluster.plainConfig) (start {} []) answered := by
  obtain ⟨s, hrun, hstage⟩ : ∃ s ∈ Machine.run (step numbering Cluster.plainConfig)
      (start {} []) answered, (s.calls 1).stage = .returned 1 (some (.count 0)) := by
    decide +kernel
  have hmeets : Machine.RunMeets (step numbering Cluster.plainConfig) Meets (start {} [])
      answered := by
    decide +kernel
  exact ⟨s, hrun, hstage, (replies_iff _ _ _ _ _ s hrun).2 hmeets⟩

/-- The call 1 has appended its entry and not registered yet, when the call 2 commits both
entries and executes the first. -/
def unregistered : List ReplyAction :=
  [.handle .becomeLeader, .submit 1 [1], .append 1, .submit 2 [2], .append 2, .register 2,
    .handle .advanceCommit, .startApply, .advance, .advance]

set_option maxRecDepth 10000 in
/-- The loop goes on, and the call 1 registers too late: its time gets over. -/
theorem not_answers_unregistered :
    ¬ ∀ (execute : Bytes → List Bytes → Response × List Bytes) (cfg : RaftNodeConfig)
      (node : Node) (storage : List Bytes) (actions : List ReplyAction)
      (s : Replies (List Bytes)), cfg.needMajorityConfirm = true →
      Machine.run (step execute cfg) (start node storage) actions = some s →
      Machine.RunMeets (step execute cfg) (Answers execute cfg) (start node storage) actions := by
  intro h
  obtain ⟨s, hrun, t, hstep, hexec, hpromise, hwork⟩ :
      ∃ s ∈ Machine.run (step numbering Cluster.plainConfig) (start {} []) unregistered,
      ∃ t ∈ step numbering Cluster.plainConfig s .advance,
        (∃ x ∈ t.executions, x.call = 1 ∧ x.inTime = true) ∧ (t.calls 1).promise = none ∧
          ∀ w ∈ t.work, w.stage.owner = none := by
    decide +kernel
  obtain ⟨u, hall⟩ := Option.isSome_iff_exists.1
    (show (Machine.run (step numbering Cluster.plainConfig) (start {} [])
      (unregistered ++ [.advance])).isSome by decide +kernel)
  have hcorrect := (h _ _ _ _ _ u rfl hall).last unregistered _ s hrun t hstep
  obtain ⟨x, hx, hcall, hin⟩ := hexec
  obtain ⟨-, htold | ⟨w, response, hw, hstage⟩⟩ := hcorrect.told x hx hin
  · rw [hcall, hpromise] at htold
    cases htold
  · have hnone := hwork w hw
    rw [hstage] at hnone
    cases hnone

/-- The call then waits until its time is over, though its command has been executed. -/
example : ∃ s ∈ Machine.run (step numbering Cluster.plainConfig) (start {} [])
    (unregistered ++ [.advance, .register 1, .expire 1, .erase 1]),
    (s.calls 1).stage = .returned 1 none ∧ s.storage = [[1]] := by
  decide +kernel

end Solo

end Replies

end EyaKV.Raft
