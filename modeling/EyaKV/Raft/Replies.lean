import EyaKV.Base.Runs
import EyaKV.Raft.Applying
import EyaKV.Store.Commands

/-!
# The replies to submitted commands

With `need_majority_confirm` on, a call of `submit_command` appends its entry, registers under
the index of the entry, and waits until the loop that applies the entries sets its promise or
until its time is over. The calls, the loop and everything else that the node does are the
steps of one machine, whose node is the `Node` with its handlers. What a command does to the
storage, and what it answers, is the parameter `execute`.

A call is a number that its client has not used before. Two fields are not part of the source:
`owners` says which call appended the entry at an index, and `executions` remembers the
executions of the entries that calls have appended.
-/

set_option autoImplicit false

namespace EyaKV.Raft

open EyaKV.Base EyaKV.Store

section Data

/-- Where a call of `submit_command` is. -/
inductive CallStage where
  /-- The call has not begun. -/
  | idle
  /-- Behind the check of the role. -/
  | checked
  /-- Behind the append of the entry. -/
  | appended (index : Nat)
  /-- Behind the registration in `pending_requests_`. -/
  | waiting (index : Nat)
  /-- `wait_for` has returned `timeout`. -/
  | expired (index : Nat)
  /-- With what the promise holds, or with `command timeout`. -/
  | returned (index : Nat) (result : Option Response)
  deriving DecidableEq

/-- The index of the entry of a call. -/
def CallStage.index : CallStage → Option Nat
  | .idle => none
  | .checked => none
  | .appended index => some index
  | .waiting index => some index
  | .expired index => some index
  | .returned index _ => some index

/-- The call has registered. -/
def CallStage.registered : CallStage → Bool
  | .waiting _ => true
  | .expired _ => true
  | .returned _ _ => true
  | _ => false

/-- The time of the call is over. -/
def CallStage.timedOut : CallStage → Bool
  | .expired _ => true
  | .returned _ none => true
  | _ => false

/-- A call: the term that it read for its entry, the command, and the `PendingRequest`. -/
structure Call where
  term : Nat := 0
  cmd : Bytes := []
  stage : CallStage := .idle
  promise : Option Response := none

/-- The loop of `apply_committed_entries_nolock`. -/
inductive ApplyStage where
  | next
  /-- Behind the store to `last_applied_`. -/
  | marked
  /-- Behind `execute_command`, with the call that appended the entry, and the response. -/
  | executed (owner : Option Nat) (response : Response)

/-- Whose entry the loop has executed, until it goes on. -/
def ApplyStage.owner : ApplyStage → Option (Option Nat)
  | .executed owner _ => some owner
  | _ => none

theorem ApplyStage.executed_of_owner {stage : ApplyStage} {owner : Option Nat}
    (h : stage.owner = some owner) : ∃ response, stage = .executed owner response := by
  cases stage with
  | next => cases h
  | marked => cases h
  | executed o response =>
      obtain rfl := Option.some.inj h
      exact ⟨response, rfl⟩

/-- The thread that is in the loop, with its local variables. -/
structure ApplyWork where
  lastApplied : Nat
  commitIndex : Nat
  stage : ApplyStage

/-- An execution of the entry of a call: the storage that it found, and whether the call had
not timed out. -/
structure Execution (σ : Type) where
  index : Nat
  call : Nat
  cmd : Bytes
  before : σ
  inTime : Bool

/-- A node with its storage and the calls of its clients. -/
structure Replies (σ : Type) where
  node : Node
  storage : σ
  owners : Nat → Option Nat := fun _ => none
  calls : Nat → Call := fun _ => {}
  pending : Nat → Option Nat := fun _ => none
  work : Option ApplyWork := none
  executions : List (Execution σ) := []

/-- The steps: the pieces of `submit_command` of one call, the appends of others, what the
owners of the node's mutex do, and the loop over the committed entries. -/
inductive ReplyAction where
  | submit (call : Nat) (cmd : Bytes)
  | append (call : Nat)
  | register (call : Nat)
  | wake (call : Nat)
  | expire (call : Nat)
  | erase (call : Nat)
  | batchAppend (entries : List LogEntry)
  | handle (h : Handler)
  | startApply
  | advance

end Data

namespace RaftLogArray

variable {cfg : RaftLogConfig} {log : RaftLogArray} {index : Nat} {e : LogEntry}

theorem get_of_dropFront {count : Nat} (h : (log.dropFront count).get index = some e) :
    log.get index = some e := by
  have hbase : ¬ index < log.baseIndex + count := by
    intro hlt
    simp only [get, dropFront, hlt, ↓reduceIte] at h
    cases h
  have hindex : count + (index - (log.baseIndex + count)) = index - log.baseIndex := by omega
  simp only [get, dropFront, hbase, ↓reduceIte, List.getElem?_drop, hindex] at h
  rw [get, if_neg (by omega)]
  exact h

/-- A truncation from the front that follows an append brings in no entry. -/
theorem get_of_batchAppend {cmds : List LogEntry} (hne : cmds ≠ [])
    (h : (log.batchAppend cfg cmds).1.get index = some e) :
    (log.extend cmds).get index = some e := by
  simp only [batchAppend, if_neg hne] at h
  split at h
  · split at h
    · next htrunc =>
        simp only [truncateBefore] at htrunc
        split at htrunc
        · cases htrunc
        · split at htrunc
          · obtain rfl := Option.some.inj htrunc
            exact h
          · obtain rfl := Option.some.inj htrunc
            exact get_of_dropFront h
    · exact h
  · exact h

end RaftLogArray

namespace Replies

variable {σ : Type} (execute : Bytes → σ → Response × σ) (cfg : RaftNodeConfig)
  (s : Replies σ)

section Steps

/-- The call at a stage, with its `PendingRequest` as it is. -/
def setStage (c : Nat) (stage : CallStage) : Replies σ :=
  { s with calls := Function.update s.calls c { s.calls c with stage := stage } }

/-- The number `c` begins as a call. -/
def begin (c : Nat) (call : Call) : Replies σ :=
  { s with calls := Function.update s.calls c call }

/-- The node changes; an entry that stays where it is keeps its owner. -/
def setNode (n : Node) : Replies σ :=
  { s with
    node := n
    owners := fun i => if n.logArray.get i = s.node.logArray.get i then s.owners i else none }

/-- The entry of a call is at an index of the log. -/
def addEntry (c index : Nat) (log : RaftLogArray) : Replies σ :=
  let s' := (s.setNode { s.node with logArray := log }).setStage c (.appended index)
  let owner := if (log.get index).isSome then some c else none
  { s' with owners := Function.update s'.owners index owner }

/-- `append` of the entry of a call. -/
def append (c : Nat) : Option (Replies σ) :=
  let call := s.calls c
  let index := s.node.logArray.baseIndex + s.node.logArray.entries.length
  let (log, returned) := s.node.logArray.batchAppend cfg.logConfig [⟨call.term, 0, call.cmd⟩]
  -- an append that does not return keeps the mutex of the log, and no entry is read after it
  if returned then some (s.addEntry c index log) else none

/-- `promise.set_value`, which throws when the promise has a value. -/
def setPromise (c : Nat) (response : Response) : Replies σ :=
  let call := s.calls c
  let promise := call.promise.or (some response)
  { s with calls := Function.update s.calls c { call with promise := promise } }

/-- `notify_request_applied`. -/
def notifyRequestApplied (index : Nat) (response : Response) : Replies σ :=
  match s.pending index with
  | some c => { s.setPromise c response with pending := Function.update s.pending index none }
  | none => s

/-- `log_array_->get` and `execute_command` for the entry at an index. -/
def executeEntry (w : ApplyWork) : Replies σ :=
  match s.node.logArray.get w.lastApplied with
  | some e =>
      let owner := s.owners w.lastApplied
      let answer := execute e.cmd s.storage
      { s with
        storage := answer.2
        work := some { w with stage := .executed owner answer.1 }
        executions := s.executions ++ owner.toList.map fun c =>
          ⟨w.lastApplied, c, e.cmd, s.storage, !(s.calls c).stage.timedOut⟩ }
  | none =>
      { s with work := some { w with stage := .executed none (.error "log read error") } }

/-- The next piece of the loop. -/
def advance (w : ApplyWork) : Replies σ :=
  match w.stage with
  | .next =>
      if w.lastApplied < w.commitIndex then
        { s with
          node := s.node.setLastApplied (w.lastApplied + 1)
          work := some { w with lastApplied := w.lastApplied + 1, stage := .marked } }
      else { s with node := s.node.savePersistentState, work := none }
  | .marked => s.executeEntry execute w
  | .executed _ response =>
      let s' : Replies σ := if s.node.role = .leader then
        s.notifyRequestApplied w.lastApplied response else s
      { s' with work := some { w with stage := .next } }

/-- One step. A handler and the loop need the mutex of the node; the pieces of a call do not,
except where they are handlers. -/
def step (s : Replies σ) : ReplyAction → Option (Replies σ)
  | .submit c cmd =>
      if (s.calls c).stage = .idle ∧ s.node.role = .leader then
        some (s.begin c { term := s.node.state.currentTerm, cmd := cmd, stage := .checked })
      else none
  | .append c => if (s.calls c).stage = .checked then s.append cfg c else none
  | .register c =>
      match (s.calls c).stage with
      | .appended index =>
          if cfg.needMajorityConfirm then
            some { s.setStage c (.waiting index) with
              pending := Function.update s.pending index (some c) }
          else none
      | _ => none
  | .wake c =>
      match (s.calls c).stage, (s.calls c).promise with
      | .waiting index, some response =>
          some (s.setStage c (.returned index (some response)))
      | _, _ => none
  | .expire c =>
      match (s.calls c).stage, (s.calls c).promise with
      | .waiting index, none => some (s.setStage c (.expired index))
      | _, _ => none
  | .erase c =>
      match (s.calls c).stage with
      | .expired index =>
          some { s.setStage c (.returned index none) with
            pending := Function.update s.pending index none }
      | _ => none
  | .batchAppend entries =>
      let (log, returned) := s.node.logArray.batchAppend cfg.logConfig entries
      if returned then some (s.setNode { s.node with logArray := log }) else none
  | .handle h =>
      match s.work with
      | none => some (s.setNode (s.node.handle cfg h))
      | some _ => none
  | .startApply =>
      match s.work with
      | none =>
          let state := s.node.state
          if state.commitIndex ≤ state.lastApplied then some s
          else some { s with work := some ⟨state.lastApplied, state.commitIndex, .next⟩ }
      | some _ => none
  | .advance => s.work.map fun w => s.advance execute w

/-- A node with no calls. -/
def start (node : Node) (storage : σ) : Replies σ := { node := node, storage := storage }

end Steps

section Laws

/-- The loop has executed the entry of a call, and has not told it. -/
def Notifies (c : Nat) : Prop :=
  ∃ w response, s.work = some w ∧ w.stage = .executed (some c) response

/-- What the calls hold and return. A promise has the response of the command of its call,
executed at the entry of the call; a call returns what its promise has; and when the entry was
executed before the time of the call was over, the time does not get over, and the promise has
the response as soon as the loop is past the entry. -/
structure Correct : Prop where
  own : ∀ c response, (s.calls c).promise = some response →
    ∃ x ∈ s.executions, x.call = c ∧ (execute (s.calls c).cmd x.before).1 = response
  returned : ∀ c index response, (s.calls c).stage = .returned index (some response) →
    (s.calls c).promise = some response
  told : ∀ x ∈ s.executions, x.inTime = true →
    (s.calls x.call).stage.timedOut = false ∧
      ((s.calls x.call).promise = some (execute (s.calls x.call).cmd x.before).1 ∨
        s.Notifies x.call)

/-- An action leaves the calls correct, when it is possible. -/
def Answers (act : ReplyAction) : Prop :=
  ∀ s', step execute cfg s act = some s' → Correct execute s'

/-- The condition on a step. When the loop tells the call at an index about an execution, the
node is the leader still, the call whose entry it was is registered, unless its time is over,
and no other call is. A time does not get over between the execution and the notification. -/
def Meets : ReplyAction → Prop
  | .advance => ∀ w ∈ s.work, ∀ owner ∈ w.stage.owner,
      (∀ c ∈ owner, (s.calls c).stage.timedOut = false →
        s.node.role = .leader ∧ s.pending w.lastApplied = some c) ∧
      (s.node.role = .leader → ∀ c ∈ s.pending w.lastApplied, owner = some c)
  | .expire c => ∀ w ∈ s.work, w.stage.owner ≠ some (some c)
  | _ => True

instance decidableMeets : ∀ act, Decidable (s.Meets act)
  | .advance => inferInstanceAs (Decidable (∀ w ∈ s.work, ∀ owner ∈ w.stage.owner,
      (∀ c ∈ owner, (s.calls c).stage.timedOut = false →
        s.node.role = .leader ∧ s.pending w.lastApplied = some c) ∧
      (s.node.role = .leader → ∀ c ∈ s.pending w.lastApplied, owner = some c)))
  | .expire c => inferInstanceAs (Decidable (∀ w ∈ s.work, w.stage.owner ≠ some (some c)))
  | .submit _ _ | .append _ | .register _ | .wake _ | .erase _ | .batchAppend _ | .handle _
  | .startApply => isTrue trivial

/-- The next index that the loop can execute. -/
def nextIndex : Nat :=
  match s.work with
  | none => s.node.state.lastApplied + 1
  | some w =>
      match w.stage with
      | .marked => w.lastApplied
      | _ => w.lastApplied + 1

/-- The state behind the execution of the entry at an index. -/
structure Executed (index : Nat) (owner : Option Nat) (response : Response) : Prop where
  only : ∀ x ∈ s.executions, x.index = index → owner = some x.call
  own : ∀ c, owner = some c → (s.calls c).promise = none ∧
    ∃ x ∈ s.executions, x.call = c ∧ x.index = index ∧
      (execute (s.calls c).cmd x.before).1 = response

/-- What holds in every run, as long as the calls are correct. -/
structure Inv : Prop where
  fresh : ∀ c, (s.calls c).stage.registered = false → (s.calls c).promise = none
  owned : ∀ i c, s.owners i = some c → (s.calls c).stage.index = some i ∧
    ∃ e, s.node.logArray.get i = some e ∧ e.cmd = (s.calls c).cmd
  registered : ∀ i c, s.pending i = some c →
    ((s.calls c).stage = .waiting i ∨ (s.calls c).stage = .expired i) ∧
      (s.calls c).promise = none
  recorded : ∀ x ∈ s.executions, (s.calls x.call).stage.index = some x.index ∧
    (x.inTime = false → (s.calls x.call).stage.timedOut = true)
  unique : ∀ x ∈ s.executions, ∀ y ∈ s.executions, x.index = y.index → x = y
  reached : ∀ x ∈ s.executions, x.index < s.nextIndex
  working : ∀ w, s.work = some w → w.lastApplied = s.node.state.lastApplied
  executed : ∀ w owner response, s.work = some w → w.stage = .executed owner response →
    Executed execute s w.lastApplied owner response

/-- Calls go on: the entry and the command of a call that has an entry stay, a call that has
registered has registered, and a time that is over stays over. -/
structure Continues (s s' : Replies σ) : Prop where
  registered : ∀ c, (s.calls c).stage.registered = true → (s'.calls c).stage.registered = true
  index : ∀ c i, (s.calls c).stage.index = some i →
    (s'.calls c).stage.index = some i ∧ (s'.calls c).cmd = (s.calls c).cmd
  timedOut : ∀ c, (s.calls c).stage.timedOut = true → (s'.calls c).stage.timedOut = true

end Laws

section Frames

variable {execute cfg s} {s' : Replies σ}

theorem Continues.refl (hcalls : s'.calls = s.calls) : Continues s s' := by
  constructor
  · intro c hr
    rwa [hcalls]
  · intro c i hi
    rw [hcalls]
    exact ⟨hi, rfl⟩
  · intro c ht
    rwa [hcalls]

/-- One call goes on. -/
theorem Continues.update {c : Nat} {call : Call}
    (hcalls : s'.calls = Function.update s.calls c call)
    (hreg : (s.calls c).stage.registered = true → call.stage.registered = true)
    (hindex : ∀ i, (s.calls c).stage.index = some i →
      call.stage.index = some i ∧ call.cmd = (s.calls c).cmd)
    (htimed : (s.calls c).stage.timedOut = true → call.stage.timedOut = true) :
    Continues s s' := by
  constructor
  · rw [hcalls]
    refine (Function.forall_update_iff s.calls fun k call =>
      (s.calls k).stage.registered = true → call.stage.registered = true).2 ⟨hreg, ?_⟩
    intro k _ hr
    exact hr
  · rw [hcalls]
    refine (Function.forall_update_iff s.calls fun k call => ∀ i,
      (s.calls k).stage.index = some i →
        call.stage.index = some i ∧ call.cmd = (s.calls k).cmd).2 ⟨hindex, ?_⟩
    intro k _ i hi
    exact ⟨hi, rfl⟩
  · rw [hcalls]
    refine (Function.forall_update_iff s.calls fun k call =>
      (s.calls k).stage.timedOut = true → call.stage.timedOut = true).2 ⟨htimed, ?_⟩
    intro k _ ht
    exact ht

/-- A step that leaves the loop and the promises as they are. -/
theorem Inv.of_continues (h : Inv execute s) (hc : Continues s s')
    (hpromise : ∀ c, (s'.calls c).promise = (s.calls c).promise)
    (hlast : s'.node.state.lastApplied = s.node.state.lastApplied)
    (hwork : s'.work = s.work) (hexec : s'.executions = s.executions)
    (howned : ∀ i c, s'.owners i = some c → (s'.calls c).stage.index = some i ∧
      ∃ e, s'.node.logArray.get i = some e ∧ e.cmd = (s'.calls c).cmd)
    (hregistered : ∀ i c, s'.pending i = some c →
      ((s'.calls c).stage = .waiting i ∨ (s'.calls c).stage = .expired i) ∧
        (s'.calls c).promise = none) : Inv execute s' where
  fresh := by
    intro c hfresh
    rw [hpromise]
    -- a call that is not registered afterwards was not before
    refine h.fresh c (Bool.eq_false_iff.2 fun hr => ?_)
    rw [hc.registered c hr] at hfresh
    cases hfresh
  owned := howned
  registered := hregistered
  recorded := by
    intro x hx
    rw [hexec] at hx
    obtain ⟨hindex, hlate⟩ := h.recorded x hx
    exact ⟨(hc.index x.call x.index hindex).1, fun hl => hc.timedOut x.call (hlate hl)⟩
  unique := by
    rw [hexec]
    exact h.unique
  reached := by
    rw [hexec, nextIndex, hwork, hlast]
    exact h.reached
  working := by
    rw [hwork, hlast]
    exact h.working
  executed := by
    intro w owner response hw hstage
    rw [hwork] at hw
    obtain ⟨honly, hown⟩ := h.executed w owner response hw hstage
    constructor
    · rw [hexec]
      exact honly
    · intro c hco
      obtain ⟨hnone, x, hx, rfl, hindex, hresponse⟩ := hown c hco
      rw [hpromise, hexec, (hc.index x.call x.index (h.recorded x hx).1).2]
      exact ⟨hnone, x, hx, rfl, hindex, hresponse⟩

theorem Correct.of_continues (h : Correct execute s) (hi : Inv execute s)
    (hc : Continues s s') (hpromise : ∀ c, (s'.calls c).promise = (s.calls c).promise)
    (hwork : s'.work = s.work) (hexec : s'.executions = s.executions)
    (hreturned : ∀ c index response, (s'.calls c).stage = .returned index (some response) →
      (s'.calls c).promise = some response)
    (hlate : ∀ x ∈ s.executions, x.inTime = true → (s'.calls x.call).stage.timedOut = false) :
    Correct execute s' where
  own := by
    intro c response hp
    rw [hpromise] at hp
    obtain ⟨x, hx, rfl, hresponse⟩ := h.own c response hp
    rw [hexec, (hc.index x.call x.index (hi.recorded x hx).1).2]
    exact ⟨x, hx, rfl, hresponse⟩
  returned := hreturned
  told := by
    intro x hx hin
    rw [hexec] at hx
    rw [hpromise, (hc.index x.call x.index (hi.recorded x hx).1).2]
    refine ⟨hlate x hx hin, (h.told x hx hin).2.imp_right ?_⟩
    rintro ⟨w, response, hw, hstage⟩
    exact ⟨w, response, hwork.trans hw, hstage⟩

end Frames

section Calls

variable {execute cfg s} {s' : Replies σ} {c : Nat} {call : Call}

/-- What a piece of `submit_command` changes: one call, whose promise it leaves. -/
structure CallStep (s s' : Replies σ) (c : Nat) (call : Call) : Prop where
  lastApplied : s'.node.state.lastApplied = s.node.state.lastApplied
  work : s'.work = s.work
  executions : s'.executions = s.executions
  calls : s'.calls = Function.update s.calls c call
  promise : call.promise = (s.calls c).promise
  continues : Continues s s'

theorem CallStep.promises (h : CallStep s s' c call) (k : Nat) :
    (s'.calls k).promise = (s.calls k).promise := by
  rw [h.calls]
  by_cases hk : k = c
  · obtain rfl := hk
    rw [Function.update_self]
    exact h.promise
  · rw [Function.update_of_ne hk]

theorem CallStep.owned (h : CallStep s s' c call) (hi : Inv execute s)
    (hnode : s'.node = s.node) (howners : s'.owners = s.owners) (i k : Nat)
    (hk : s'.owners i = some k) : (s'.calls k).stage.index = some i ∧
      ∃ e, s'.node.logArray.get i = some e ∧ e.cmd = (s'.calls k).cmd := by
  rw [howners] at hk
  obtain ⟨hindex, e, he, hcmd⟩ := hi.owned i k hk
  obtain ⟨hindex', hcmd'⟩ := h.continues.index k i hindex
  rw [hnode, hcmd']
  exact ⟨hindex', e, he, hcmd⟩

theorem CallStep.inv (h : CallStep s s' c call) (hi : Inv execute s)
    (howned : ∀ i k, s'.owners i = some k → (s'.calls k).stage.index = some i ∧
      ∃ e, s'.node.logArray.get i = some e ∧ e.cmd = (s'.calls k).cmd)
    (hregistered : ∀ i k, s'.pending i = some k →
      ((s'.calls k).stage = .waiting i ∨ (s'.calls k).stage = .expired i) ∧
        (s'.calls k).promise = none) : Inv execute s' :=
  hi.of_continues h.continues h.promises h.lastApplied h.work h.executions howned hregistered

/-- The calls stay correct, unless the step is the end of the time of a call that has been
executed. -/
theorem CallStep.correct (h : CallStep s s' c call) (hi : Inv execute s)
    (hcorrect : Correct execute s)
    (hreturned : ∀ index response, call.stage = .returned index (some response) →
      call.promise = some response)
    (hlate : call.stage.timedOut = true → (s.calls c).stage.timedOut = false →
      ∀ x ∈ s.executions, x.call = c → x.inTime = false) : Correct execute s' := by
  refine hcorrect.of_continues hi h.continues h.promises h.work h.executions ?_ ?_
  · rw [h.calls]
    refine (Function.forall_update_iff s.calls fun k call => ∀ index response,
      call.stage = .returned index (some response) → call.promise = some response).2
      ⟨hreturned, ?_⟩
    intro k _
    exact hcorrect.returned k
  · intro x hx hin
    obtain ⟨htime, -⟩ := hcorrect.told x hx hin
    rw [h.calls]
    by_cases hk : x.call = c
    · rw [hk, Function.update_self]
      by_contra hover
      rw [hk] at htime
      rw [hlate (by simpa using hover) htime x hx hk] at hin
      cases hin
    · rw [Function.update_of_ne hk]
      exact htime

/-- A registration of another call is as it was. -/
theorem CallStep.registered_of_ne (h : CallStep s s' c call) (hi : Inv execute s) {i k : Nat}
    (hk : s.pending i = some k) (hne : k ≠ c) :
    ((s'.calls k).stage = .waiting i ∨ (s'.calls k).stage = .expired i) ∧
      (s'.calls k).promise = none := by
  rw [h.calls, Function.update_of_ne hne]
  exact hi.registered i k hk

/-- A call moves on to a stage with the same entry. -/
theorem callStep_setStage {stage : CallStage} (index : Nat) (pending : Nat → Option Nat)
    (hindex : (s.calls c).stage.index = some index) (hindex' : stage.index = some index)
    (hreg : stage.registered = true)
    (htimed : (s.calls c).stage.timedOut = true → stage.timedOut = true) :
    CallStep s { s.setStage c stage with pending := pending } c
      { s.calls c with stage := stage } where
  lastApplied := rfl
  work := rfl
  executions := rfl
  calls := rfl
  promise := rfl
  continues := by
    refine .update rfl (fun _ => hreg) (fun i hi => ?_) htimed
    rw [hindex] at hi
    exact ⟨hindex'.trans hi, rfl⟩

theorem next_submit {cmd : Bytes} (hi : Inv execute s) (h : Correct execute s)
    (hstep : step execute cfg s (.submit c cmd) = some s') :
    Inv execute s' ∧ Correct execute s' := by
  simp only [step] at hstep
  split at hstep
  · next hcond =>
      obtain ⟨hidle, -⟩ := hcond
      obtain rfl := Option.some.inj hstep
      have hfresh : (s.calls c).promise = none := hi.fresh c (by rw [hidle]; rfl)
      have hcall : CallStep s (s.begin c ⟨s.node.state.currentTerm, cmd, .checked, none⟩) c
          ⟨s.node.state.currentTerm, cmd, .checked, none⟩ := by
        refine ⟨rfl, rfl, rfl, rfl, hfresh.symm, .update rfl ?_ ?_ ?_⟩
        · intro hr
          rw [hidle] at hr
          cases hr
        · intro i hindex
          rw [hidle] at hindex
          cases hindex
        · intro ht
          rw [hidle] at ht
          cases ht
      refine ⟨hcall.inv hi (hcall.owned hi rfl rfl) ?_, hcall.correct hi h ?_ ?_⟩
      · intro i k hk
        refine hcall.registered_of_ne hi hk ?_
        rintro rfl
        rcases (hi.registered i k hk).1 with hstage | hstage
        · exact absurd (hidle.symm.trans hstage) (by simp)
        · exact absurd (hidle.symm.trans hstage) (by simp)
      · intro index response hret
        cases hret
      · intro hover
        cases hover
  · cases hstep

theorem next_register (hi : Inv execute s) (h : Correct execute s)
    (hstep : step execute cfg s (.register c) = some s') :
    Inv execute s' ∧ Correct execute s' := by
  simp only [step] at hstep
  split at hstep
  · next index hstage =>
      split at hstep
      · obtain rfl := Option.some.inj hstep
        have hcall : CallStep s { s.setStage c (.waiting index) with
            pending := Function.update s.pending index (some c) } c _ :=
          callStep_setStage index _ (by rw [hstage]; rfl) rfl rfl
            (fun ht => by rw [hstage] at ht; cases ht)
        refine ⟨hcall.inv hi (hcall.owned hi rfl rfl) ?_, hcall.correct hi h ?_ ?_⟩
        · intro i k hk
          by_cases hindex : i = index
          · -- the registration of the call itself
            obtain rfl := hindex
            obtain rfl : c = k := by simpa using hk
            rw [hcall.promises, hcall.calls, Function.update_self]
            exact ⟨Or.inl rfl, hi.fresh c (by rw [hstage]; rfl)⟩
          · have hold : s.pending i = some k := by simpa [hindex] using hk
            refine hcall.registered_of_ne hi hold ?_
            rintro rfl
            rcases (hi.registered i k hold).1 with hother | hother
            · exact absurd (hstage.symm.trans hother) (by simp)
            · exact absurd (hstage.symm.trans hother) (by simp)
        · intro index response hret
          cases hret
        · intro hover
          cases hover
      · cases hstep
  · cases hstep

theorem next_wake (hi : Inv execute s) (h : Correct execute s)
    (hstep : step execute cfg s (.wake c) = some s') :
    Inv execute s' ∧ Correct execute s' := by
  simp only [step] at hstep
  split at hstep
  · next index response hstage hpromise =>
      obtain rfl := Option.some.inj hstep
      have hcall : CallStep s (s.setStage c (.returned index (some response))) c _ :=
        callStep_setStage index s.pending (by rw [hstage]; rfl) rfl rfl
          (fun ht => by rw [hstage] at ht; cases ht)
      refine ⟨hcall.inv hi (hcall.owned hi rfl rfl) ?_, hcall.correct hi h ?_ ?_⟩
      · intro i k hk
        refine hcall.registered_of_ne hi hk ?_
        rintro rfl
        -- a call that has been told is not registered
        rw [(hi.registered i k hk).2] at hpromise
        cases hpromise
      · intro index response hret
        cases hret
        exact hpromise
      · intro hover
        cases hover
  · cases hstep

theorem next_erase (hi : Inv execute s) (h : Correct execute s)
    (hstep : step execute cfg s (.erase c) = some s') :
    Inv execute s' ∧ Correct execute s' := by
  simp only [step] at hstep
  split at hstep
  · next index hstage =>
      obtain rfl := Option.some.inj hstep
      have hcall : CallStep s { s.setStage c (.returned index none) with
          pending := Function.update s.pending index none } c _ :=
        callStep_setStage index _ (by rw [hstage]; rfl) rfl rfl (fun _ => rfl)
      refine ⟨hcall.inv hi (hcall.owned hi rfl rfl) ?_, hcall.correct hi h ?_ ?_⟩
      · intro i k hk
        by_cases hindex : i = index
        · obtain rfl := hindex
          simp at hk
        · have hold : s.pending i = some k := by simpa [hindex] using hk
          refine hcall.registered_of_ne hi hold ?_
          rintro rfl
          rcases (hi.registered i k hold).1 with hother | hother
          · exact absurd (hstage.symm.trans hother) (by simp)
          · exact hindex (CallStage.expired.inj (hstage.symm.trans hother)).symm
      · intro index response hret
        cases hret
      · intro _ hbefore
        rw [hstage] at hbefore
        cases hbefore
  · cases hstep

/-- The end of the time of a call. -/
theorem next_expire (hi : Inv execute s) (h : Correct execute s)
    (hstep : step execute cfg s (.expire c) = some s') :
    Inv execute s' ∧ (Correct execute s' ↔ s.Meets (.expire c)) := by
  simp only [step] at hstep
  split at hstep
  · next index hstage hpromise =>
      obtain rfl := Option.some.inj hstep
      have hcall : CallStep s (s.setStage c (.expired index)) c _ :=
        callStep_setStage index s.pending (by rw [hstage]; rfl) rfl rfl
          (fun _ => rfl)
      refine ⟨hcall.inv hi (hcall.owned hi rfl rfl) ?_, ?_, ?_⟩
      · intro i k hk
        by_cases hc : k = c
        · obtain rfl := hc
          obtain ⟨hold, hnone⟩ := hi.registered i k hk
          rw [hcall.promises, hcall.calls, Function.update_self]
          refine ⟨Or.inr ?_, hnone⟩
          rcases hold with hwait | hover
          · obtain rfl := CallStage.waiting.inj (hstage.symm.trans hwait)
            rfl
          · exact absurd (hstage.symm.trans hover) (by simp)
        · exact hcall.registered_of_ne hi hk hc
      · intro h' w hw howner
        obtain ⟨response, hexec⟩ := ApplyStage.executed_of_owner howner
        -- the loop has executed the entry of the call in time
        obtain ⟨-, x, hx, rfl, -⟩ := (hi.executed w _ response hw hexec).own c rfl
        have hin : x.inTime = true := by
          by_contra hlate
          have hover := (hi.recorded x hx).2 (by simpa using hlate)
          rw [hstage] at hover
          cases hover
        have htime := (h'.told x hx hin).1
        rw [hcall.calls, Function.update_self] at htime
        cases htime
      · intro hmeets
        refine hcall.correct hi h ?_ ?_
        · intro index response hret
          cases hret
        · intro _ _ x hx hxc
          by_contra hin
          obtain rfl := hxc
          rcases (h.told x hx (by simpa using hin)).2 with htold | ⟨w, response, hw, hexec⟩
          · rw [hpromise] at htold
            cases htold
          · refine hmeets w hw ?_
            rw [hexec]
            rfl
  · cases hstep

end Calls

section Nodes

variable {execute cfg s} {s' : Replies σ} {n : Node}

/-- The entry that an append has put at the end of the log, when it is still there. -/
theorem cmd_of_append {log : RaftLogArray} {e e' : LogEntry}
    (h : (log.batchAppend cfg.logConfig [e]).1.get (log.baseIndex + log.entries.length) =
      some e') : e'.cmd = e.cmd := by
  have hextend : (log.extend [e]).get (log.baseIndex + log.entries.length) = some e' :=
    RaftLogArray.get_of_batchAppend (by simp) h
  simp only [RaftLogArray.get, RaftLogArray.extend, Nat.not_lt_of_le (Nat.le_add_right _ _),
    ↓reduceIte, Nat.add_sub_cancel_left, List.mapIdx_cons, List.mapIdx_nil,
    List.getElem?_concat_length, Option.some.injEq] at hextend
  rw [← hextend]

theorem lastApplied_handle (cfg : RaftNodeConfig) (n : Node) (h : Handler) :
    (n.handle cfg h).state.lastApplied = n.state.lastApplied := by
  rcases handle_cases cfg n h with ⟨origin, msg, rfl⟩ | rfl | ⟨j, rfl⟩ | hsame
  · exact (handleAppendEntries_progress cfg n origin msg).1
  · exact (advanceCommit_spec n).2.1
  · exact (follow_spec n j).2.1
  · exact hsame.lastApplied

/-- The entries that have an owner after the node has changed. -/
theorem owned_setNode (hi : Inv execute s) {i c : Nat}
    (ho : (s.setNode n).owners i = some c) :
    (s.calls c).stage.index = some i ∧
      ∃ e, n.logArray.get i = some e ∧ e.cmd = (s.calls c).cmd := by
  simp only [setNode] at ho
  split at ho
  · next hget =>
      rw [hget]
      exact hi.owned i c ho
  · cases ho

/-- A change of the node that is none of the calls' and none of the loop's. -/
theorem next_setNode (hi : Inv execute s) (h : Correct execute s)
    (hlast : n.state.lastApplied = s.node.state.lastApplied) :
    Inv execute (s.setNode n) ∧ Correct execute (s.setNode n) := by
  have hc : Continues s (s.setNode n) := .refl rfl
  refine ⟨hi.of_continues hc (fun _ => rfl) hlast rfl rfl (fun i c ho => owned_setNode hi ho)
    hi.registered, ?_⟩
  exact h.of_continues hi hc (fun _ => rfl) rfl rfl h.returned fun x hx hin =>
    (h.told x hx hin).1

theorem callStep_addEntry {c : Nat} (index : Nat) (log : RaftLogArray)
    (hstage : (s.calls c).stage = .checked) :
    CallStep s (s.addEntry c index log) c { s.calls c with stage := .appended index } where
  lastApplied := rfl
  work := rfl
  executions := rfl
  calls := rfl
  promise := rfl
  continues := by
    refine .update rfl ?_ ?_ ?_
    · intro hr
      rw [hstage] at hr
      cases hr
    · intro i hindex
      rw [hstage] at hindex
      cases hindex
    · intro ht
      rw [hstage] at ht
      cases ht

theorem owners_addEntry_of_ne {c index i : Nat} {log : RaftLogArray} (h : i ≠ index) :
    (s.addEntry c index log).owners i = (s.setNode { s.node with logArray := log }).owners i :=
  Function.update_of_ne h _ _

theorem next_append {c : Nat} (hi : Inv execute s) (h : Correct execute s)
    (hstep : step execute cfg s (.append c) = some s') :
    Inv execute s' ∧ Correct execute s' := by
  simp only [step] at hstep
  split at hstep
  · next hstage =>
      simp only [append] at hstep
      split at hstep
      · obtain rfl := Option.some.inj hstep
        have hcall := callStep_addEntry
          (s.node.logArray.baseIndex + s.node.logArray.entries.length)
          (s.node.logArray.batchAppend cfg.logConfig
            [⟨(s.calls c).term, 0, (s.calls c).cmd⟩]).1 hstage
        refine ⟨hcall.inv hi ?_ ?_, hcall.correct hi h ?_ ?_⟩
        · intro i k hk
          by_cases hindex : i = s.node.logArray.baseIndex + s.node.logArray.entries.length
          · -- the entry that has been added
            obtain rfl := hindex
            simp only [addEntry, Function.update_self, Option.ite_none_right_eq_some,
              Option.isSome_iff_exists, Option.some.injEq] at hk
            obtain ⟨⟨e, he⟩, rfl⟩ := hk
            rw [hcall.calls, Function.update_self]
            exact ⟨rfl, e, he, cmd_of_append he⟩
          · rw [owners_addEntry_of_ne hindex] at hk
            obtain ⟨hk, e, he, hcmd⟩ := owned_setNode hi hk
            obtain ⟨hk', hcmd'⟩ := hcall.continues.index k i hk
            exact ⟨hk', e, he, hcmd.trans hcmd'.symm⟩
        · intro i k hk
          refine hcall.registered_of_ne hi hk ?_
          rintro rfl
          rcases (hi.registered i k hk).1 with hother | hother
          · exact absurd (hstage.symm.trans hother) (by simp)
          · exact absurd (hstage.symm.trans hother) (by simp)
        · intro index response hret
          cases hret
        · intro hover
          cases hover
      · cases hstep
  · cases hstep

end Nodes

end Replies

end EyaKV.Raft
