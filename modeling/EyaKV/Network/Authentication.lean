import EyaKV.Base.Runs
import EyaKV.Network.Connections
import EyaKV.Network.Protocol
import Mathlib.Data.List.Infix

/-!
# Authentication

A server with a password makes a random key. A client gets it in answer to the password and shows
it with every command; a connection that does not authenticate within two seconds is closed. All
of this goes by the number of the socket: the task of a request, its answer, the entry in
`connections_without_auth_` and the monitor's list of sockets to close. The number can have a new
owner by the time it is used, since a socket may be closed while a request of it is under way.

The machine has the acceptor and the threads that activate connections, the readers, the workers,
the threads in `close_socket` and the monitor at each of their critical sections and system calls.
A command is executed for a party that knows the password, or for one that has been handed the
answer to another connection, which had the same number before (`executed_authorized`).
-/

set_option autoImplicit false

namespace EyaKV.Network

open EyaKV.Store

/-- `Response::success` of a string. -/
def Response.success (data : Bytes) : Response := ⟨1, .string data, [], []⟩

/-- `Response::error`. -/
def Response.error (errorMsg : Bytes) : Response := ⟨0, .monostate, errorMsg, []⟩

namespace Authentication

open EyaKV.Base.Machine Connections

section Machine

/-- A connection, by the number of calls of `accept` that have returned before its own. -/
abbrev Peer := Nat

/-- The members of `EyaServer` that a request is checked against. -/
structure EyaServer where
  password : Bytes
  authKey : Bytes

/-- The constructor of `EyaServer`; `random` is what `generate_random_string` returns. -/
def EyaServer.create (password random : Bytes) : EyaServer :=
  ⟨password, if password = [] then [] else random⟩

/-- A request with `client_sock`, and the connection that it has come from. -/
structure Task where
  request : Request
  sock : Socket
  origin : Peer
  deriving DecidableEq, Repr

/-- What is sent in answer to a request: a response, or the responses to a batch. -/
inductive Answer where
  | response (r : Response)
  | batch (id : Bytes) (responses : List (Bytes × Response))

/-- The answer to a task, and whether the worker closes the socket behind it. -/
structure Reply where
  task : Task
  answer : Answer
  close : Bool := false

/-- A thread that brings in a connection. -/
inductive Joiner where
  /-- In `assign_to_slave`, between the insertion of the session and `add_socket`. -/
  | inserted (sock : Socket)
  /-- Before the insertion into `connections_without_auth_`. -/
  | assigned (sock : Socket)
  deriving DecidableEq, Repr

/-- A thread in `close_socket`. -/
inductive Closer where
  | called (sock : Socket)
  /-- It has erased the entry of `connections_without_auth_`. -/
  | erased (sock : Socket)
  /-- It has erased the session. -/
  | removed (sock : Socket)
  deriving DecidableEq, Repr

/-- The server and the threads that work on it, with `descriptors` as the system's own table. Four
fields are not in the code: the results of `accept`, the commands that have been submitted to
Raft, the answers that have gone out with the connection that got them, and the AUTH requests that
were accepted while the table had a session under their number. -/
structure State where
  /-- In milliseconds. -/
  now : Nat := 0
  descriptors : Socket → Option Peer := fun _ => none
  allSessions : Socket → Option Peer := fun _ => none
  /-- Accepted, and in the hands of a thread or in the wait queue. -/
  arriving : List (Socket × Peer) := []
  joining : List Joiner := []
  closing : List Closer := []
  connectionsWithoutAuth : List (Socket × Nat) := []
  socketsToClose : List Socket := []
  /-- The calls of `handle_client_read` that have found a session. -/
  readers : List Socket := []
  /-- Received, and not yet submitted to the pool. -/
  received : List Task := []
  tasks : List Task := []
  replies : List Reply := []
  /-- Replies that have found a session. -/
  sending : List Reply := []
  accepted : List Socket := []
  executed : List Task := []
  delivered : List (Peer × Reply) := []
  excused : List (Peer × Task) := []

/-- A step of one thread; an index says which of the threads or items of a kind. -/
inductive Action where
  | tick (ms : Nat)
  | accept (sock : Socket)
  | reject (i : Nat)
  | assign (i : Nat)
  | join (i : Nat) (added : Bool)
  | read (sock : Socket)
  | receive (i : Nat) (request : Request)
  | leave (i : Nat)
  | submit (i : Nat) (submitted : Bool)
  | work (i : Nat) (raft : Answer)
  | send (i : Nat)
  | flush (i : Nat) (sent : Bool)
  | close (sock : Socket)
  | closer (i : Nat)
  | monitor
  | kick

/-- `connections_without_auth_.erase({sock})`. -/
def State.eraseEntry (s : State) (sock : Socket) : State :=
  { s with connectionsWithoutAuth := s.connectionsWithoutAuth.filter (·.1 ≠ sock) }

/-- `connections_without_auth_.insert({sock, now})`; an entry that is there stays. -/
def State.insertEntry (s : State) (sock : Socket) : State :=
  if sock ∈ s.connectionsWithoutAuth.map Prod.fst then s
  else { s with connectionsWithoutAuth := (sock, s.now) :: s.connectionsWithoutAuth }

def State.reply (s : State) (r : Reply) : State := { s with replies := s.replies ++ [r] }

/-- A thread that brings in a connection goes on. -/
def State.joined (s : State) (added : Bool) : Joiner → State
  | .inserted sock =>
      if added then { s with joining := s.joining ++ [.assigned sock] }
      else
        -- the socket is closed next
        { s with
          allSessions := Function.update s.allSessions sock none
          closing := s.closing ++ [.removed sock] }
  | .assigned sock => s.insertEntry sock

/-- A thread in `close_socket` goes on. Behind `CLOSE_SOCKET` it may bring in a connection from
the wait queue. -/
def State.closed (s : State) : Closer → State
  | .called sock => { s.eraseEntry sock with closing := s.closing ++ [.erased sock] }
  | .erased sock =>
      if s.allSessions sock = none then s
      else
        { s with
          allSessions := Function.update s.allSessions sock none
          closing := s.closing ++ [.removed sock] }
  | .removed sock => { s with descriptors := Function.update s.descriptors sock none }

/-- The task of `handle_request`; `raft` is the answer of the Raft node, or of the handlers of
exceptions. -/
def State.handle (server : EyaServer) (s : State) (task : Task) (raft : Answer) : State :=
  match task.request.type with
  | .auth =>
      if task.request.password = server.password then
        { s.eraseEntry task.sock with
          excused := s.excused ++ (s.allSessions task.sock).toList.map (·, task) }.reply
            ⟨task, .response (.success server.authKey), false⟩
      else s.reply ⟨task, .response (.error (ascii "Authentication failed")), false⟩
  | .command | .batchCommand =>
      if server.password ≠ [] ∧ task.request.authKey ≠ server.authKey then
        s.reply ⟨task, .response (.error (ascii "Authentication required")), true⟩
      else { s with executed := s.executed ++ [task] }.reply ⟨task, raft, false⟩
  | _ => s.reply ⟨task, .response (.error (ascii "Unknown request type")), false⟩

/-- The look-up of `async_send`. A worker that has to close the socket goes on to do so when some
of the answer may still be in the buffer. -/
def State.sent (s : State) (r : Reply) : State :=
  { s with
    sending := if s.allSessions r.task.sock = none then s.sending else s.sending ++ [r]
    closing := if r.close then s.closing ++ [.called r.task.sock] else s.closing }

/-- The answer goes to whoever has the number. -/
def State.flushed (s : State) (r : Reply) : State :=
  { s with delivered := s.delivered ++ (s.descriptors r.task.sock).toList.map (·, r) }

/-- The monitor has the mutex: entries of more than two seconds are on its list of sockets. -/
def State.collect (s : State) : State :=
  { s with
    socketsToClose := (s.connectionsWithoutAuth.filter fun c => 2000 < s.now - c.2).map Prod.fst
    connectionsWithoutAuth := s.connectionsWithoutAuth.filter fun c => ¬ 2000 < s.now - c.2 }

/-- The steps of the server. -/
def step (server : EyaServer) (s : State) : Action → Option State
  | .tick ms => some { s with now := s.now + ms }
  | .accept sock =>
      if s.descriptors sock = none then
        some { s with
          descriptors := Function.update s.descriptors sock (some s.accepted.length)
          arriving := s.arriving ++ [(sock, s.accepted.length)]
          accepted := s.accepted ++ [sock] }
      else none
  | .reject i => s.arriving[i]?.map fun c =>
      { s with
        arriving := s.arriving.eraseIdx i
        descriptors := Function.update s.descriptors c.1 none }
  | .assign i => s.arriving[i]?.map fun c =>
      { s with
        arriving := s.arriving.eraseIdx i
        allSessions := Function.update s.allSessions c.1 (some c.2)
        joining := s.joining ++ [.inserted c.1] }
  | .join i added => s.joining[i]?.map fun j =>
      { s with joining := s.joining.eraseIdx i }.joined added j
  | .read sock =>
      if s.allSessions sock = none then none else some { s with readers := s.readers ++ [sock] }
  | .receive i request => s.readers[i]?.bind fun sock => (s.descriptors sock).map fun peer =>
      { s with received := s.received ++ [⟨request, sock, peer⟩] }
  | .leave i => some { s with readers := s.readers.eraseIdx i }
  | .submit i submitted => s.received[i]?.map fun task =>
      let s := { s with received := s.received.eraseIdx i }
      if submitted then { s with tasks := s.tasks ++ [task] }
      else s.reply ⟨task, .response (.error (ascii "Server busy,please try again")), false⟩
  | .work i raft => s.tasks[i]?.map fun task =>
      { s with tasks := s.tasks.eraseIdx i }.handle server task raft
  | .send i => s.replies[i]?.map fun r => { s with replies := s.replies.eraseIdx i }.sent r
  | .flush i sent => s.sending[i]?.map fun r =>
      let s := { s with sending := s.sending.eraseIdx i }
      if sent then s.flushed r else s
  | .close sock => some { s with closing := s.closing ++ [.called sock] }
  | .closer i => s.closing[i]?.map fun c => { s with closing := s.closing.eraseIdx i }.closed c
  | .monitor => if s.socketsToClose = [] then some s.collect else none
  | .kick =>
      match s.socketsToClose with
      | [] => none
      | sock :: rest =>
          some { s with socketsToClose := rest, closing := s.closing ++ [.called sock] }

end Machine

section Statement

/-- The request shows what it has to: the password, or the key. -/
def Task.Authorized (server : EyaServer) (t : Task) : Prop :=
  match t.request.type with
  | .auth => t.request.password = server.password
  | .command | .batchCommand => server.password = [] ∨ t.request.authKey = server.authKey
  | _ => False

/-- The texts of the errors that the server makes itself. -/
def serverErrors : List Bytes :=
  [ascii "Authentication failed", ascii "Authentication required", ascii "Unknown request type",
    ascii "Server busy,please try again"]

/-- The answer could hold the key. -/
def Answer.Telling (a : Answer) : Prop := ∀ text ∈ serverErrors, a ≠ .response (.error text)

theorem telling_batch (id : Bytes) (responses : List (Bytes × Response)) :
    (Answer.batch id responses).Telling := by
  intro text _ h
  cases h

/-- An error has no data. -/
theorem telling_of_data {r : Response} (h : r.data ≠ .monostate) : (Answer.response r).Telling := by
  intro text _ heq
  exact h (congrArg Response.data (Answer.response.inj heq))

theorem telling_iff_not_error (code : Int32) (errorMsg requestId : Bytes) :
    (Answer.response ⟨code, .monostate, errorMsg, requestId⟩).Telling ↔
      ¬ (code = 0 ∧ serverErrors.any (· = errorMsg) = true ∧ requestId = []) := by
  simp only [List.any_eq_true, decide_eq_true_eq]
  constructor
  · rintro h ⟨rfl, ⟨text, htext, rfl⟩, rfl⟩
    exact h text htext rfl
  · intro h text htext heq
    cases heq
    exact h ⟨rfl, ⟨_, htext, rfl⟩, rfl⟩

instance : DecidablePred Answer.Telling
  | .response ⟨_, .string _, _, _⟩ | .response ⟨_, .strings _, _, _⟩ | .response ⟨_, .pairs _, _, _⟩
  | .response ⟨_, .value _, _, _⟩ => isTrue (telling_of_data (by simp))
  | .response ⟨code, .monostate, errorMsg, requestId⟩ =>
      decidable_of_iff _ (telling_iff_not_error code errorMsg requestId).symm
  | .batch id responses => isTrue (telling_batch id responses)

/-- The answer went to a connection whose socket has the number that the connection of the request
had before it. -/
structure Misdelivered (server : EyaServer) (s : State) (d : Peer × Reply) : Prop where
  later : d.2.task.origin < d.1
  origin : s.accepted[d.2.task.origin]? = some d.2.task.sock
  receiver : s.accepted[d.1]? = some d.2.task.sock
  authorized : d.2.task.Authorized server

variable (server : EyaServer) {Party : Type*} (party : Peer → Party) (members : Party → Prop)

/-- The party has been sent an answer that could hold the key. -/
def Informed (s : State) (p : Party) : Prop :=
  ∃ d ∈ s.delivered, party d.1 = p ∧ d.2.answer.Telling

instance [DecidableEq Party] (s : State) (p : Party) : Decidable (Informed party s p) :=
  inferInstanceAs (Decidable (∃ d ∈ s.delivered, _))

/-- Only members have the password, and nobody guesses the key. -/
def Honest (s : State) : Action → Prop
  | .receive i request => ∀ sock ∈ s.readers[i]?, ∀ peer ∈ s.descriptors sock,
      (request.type = .auth → request.password = server.password → members (party peer)) ∧
      (request.type = .command ∨ request.type = .batchCommand →
        request.authKey = server.authKey → Informed party s (party peer))
  | _ => True

instance [DecidableEq Party] [DecidablePred members] (s : State) :
    DecidablePred (Honest server party members s)
  | .receive i _ => inferInstanceAs (Decidable (∀ sock ∈ s.readers[i]?, ∀ peer ∈ _, _ ∧ _))
  | .tick _ | .accept _ | .reject _ | .assign _ | .join _ _ | .read _ | .leave _ | .submit _ _
  | .work _ _ | .send _ | .flush _ _ | .close _ | .closer _ | .monitor | .kick => isTrue trivial

/-- A request that has not been answered. -/
inductive State.Open (s : State) : Task → Prop
  | received {t : Task} : t ∈ s.received → s.Open t
  | queued {t : Task} : t ∈ s.tasks → s.Open t
  | replied {r : Reply} : r ∈ s.replies → s.Open r.task
  | sending {r : Reply} : r ∈ s.sending → s.Open r.task

/-- The step closes the socket. -/
def Frees (s : State) (sock : Socket) : Action → Prop
  | .reject i => ∃ peer, s.arriving[i]? = some (sock, peer)
  | .closer i => s.closing[i]? = some (.removed sock)
  | _ => False

/-- No socket is closed under a request that has not been answered. -/
def Answered (s : State) (a : Action) : Prop :=
  ∀ sock, Frees s sock a → ∀ t, s.Open t → t.sock ≠ sock

/-- A party that may have its commands executed: a member, or the party of a connection that got an
answer to another one. -/
def Trusted (s : State) (p : Party) : Prop :=
  members p ∨ ∃ d ∈ s.delivered, party d.1 = p ∧ Misdelivered server s d

end Statement

section Steps

/-- A request that the server has taken. -/
inductive State.Taken (s : State) : Task → Prop
  | opened {t : Task} : s.Open t → s.Taken t
  | executed {t : Task} : t ∈ s.executed → s.Taken t
  | delivered {d : Peer × Reply} : d ∈ s.delivered → s.Taken d.2.task

/-- An answer of the server. -/
inductive State.Made (s : State) : Reply → Prop
  | replied {r : Reply} : r ∈ s.replies → s.Made r
  | sending {r : Reply} : r ∈ s.sending → s.Made r
  | delivered {d : Peer × Reply} : d ∈ s.delivered → s.Made d.2

variable {server : EyaServer} {s s' : State} {a : Action}

theorem State.Made.taken {r : Reply} (h : s.Made r) : s.Taken r.task := by
  cases h with
  | replied hr => exact .opened (.replied hr)
  | sending hr => exact .opened (.sending hr)
  | delivered hd => exact .delivered hd

/-- What a step does to the requests, the answers and the owners of numbers. -/
structure Spec (server : EyaServer) (s : State) (a : Action) (s' : State) : Prop where
  accepted : s.accepted <+: s'.accepted
  kept : s.delivered ⊆ s'.delivered
  owned : ∀ sock peer, s'.descriptors sock = some peer →
    s.descriptors sock = some peer ∨ peer = s.accepted.length ∧ s'.accepted[peer]? = some sock
  owns : ∀ sock peer, s.descriptors sock = some peer →
    s'.descriptors sock = some peer ∨ Frees s sock a
  received : ∀ t ∈ s'.received, t ∈ s.received ∨ ∃ i, a = .receive i t.request ∧
    s.readers[i]? = some t.sock ∧ s.descriptors t.sock = some t.origin
  tasks : ∀ t ∈ s'.tasks, s.Open t
  executed : ∀ t ∈ s'.executed, t ∈ s.executed ∨ s.Open t ∧ t.Authorized server
  replies : ∀ r ∈ s'.replies, r ∈ s.replies ∨
    s.Open r.task ∧ (r.answer.Telling → r.task.Authorized server)
  sending : ∀ r ∈ s'.sending, r ∈ s.sending ∨ r ∈ s.replies
  delivered : ∀ d ∈ s'.delivered, d ∈ s.delivered ∨
    d.2 ∈ s.sending ∧ s.descriptors d.2.task.sock = some d.1
  excused : ∀ e ∈ s'.excused, e ∈ s.excused ∨ s.Open e.2 ∧ e.2.request.type = .auth ∧
    e.2.request.password = server.password ∧ s.allSessions e.2.sock = some e.1

theorem Spec.made (h : Spec server s a s') {r : Reply} (hr : s'.Made r) :
    s.Made r ∨ s.Open r.task ∧ (r.answer.Telling → r.task.Authorized server) := by
  cases hr with
  | replied hr => exact (h.replies r hr).imp_left .replied
  | sending hr => exact .inl ((h.sending r hr).elim .sending .replied)
  | delivered hd => exact .inl ((h.delivered _ hd).elim .delivered fun hnew => .sending hnew.1)

/-- An open request was open, or it has just been received. -/
theorem Spec.opened (h : Spec server s a s') {t : Task} (ht : s'.Open t) :
    s.Open t ∨ ∃ i, a = .receive i t.request ∧
      s.readers[i]? = some t.sock ∧ s.descriptors t.sock = some t.origin := by
  cases ht with
  | received ht => exact (h.received t ht).imp_left .received
  | queued ht => exact .inl (h.tasks t ht)
  | replied hr => exact .inl ((h.replies _ hr).elim .replied And.left)
  | sending hr => exact .inl ((h.sending _ hr).elim .sending .replied)

theorem Spec.taken (h : Spec server s a s') {t : Task} (ht : s'.Taken t) :
    s.Taken t ∨ ∃ i, a = .receive i t.request ∧
      s.readers[i]? = some t.sock ∧ s.descriptors t.sock = some t.origin := by
  cases ht with
  | opened ht => exact (h.opened ht).imp_left .opened
  | executed ht => exact .inl ((h.executed t ht).elim .executed fun hnew => .opened hnew.1)
  | delivered hd =>
      exact .inl ((h.delivered _ hd).elim .delivered fun hnew => .opened (.sending hnew.1))

theorem Spec.refl (server : EyaServer) (s : State) (a : Action) : Spec server s a s where
  accepted := List.prefix_rfl
  kept _ hd := hd
  owned _ _ hpeer := .inl hpeer
  owns _ _ hpeer := .inl hpeer
  received _ ht := .inl ht
  tasks _ ht := .queued ht
  executed _ ht := .inl ht
  replies _ hr := .inl hr
  sending _ hr := .inl hr
  delivered _ hd := .inl hd
  excused _ he := .inl he

theorem not_telling_error {text : Bytes} (h : text ∈ serverErrors) :
    ¬ (Answer.response (.error text)).Telling := fun htelling => htelling text h rfl

/-- What a task does: it is refused, it is an AUTH with the password, or its command is
submitted. -/
theorem handle_cases (server : EyaServer) (s : State) (task : Task) (raft : Answer) :
    (∃ r : Reply, r.task = task ∧ ¬ r.answer.Telling ∧ s.handle server task raft = s.reply r) ∨
    (task.request.type = .auth ∧ task.request.password = server.password ∧
      s.handle server task raft = { s.eraseEntry task.sock with
        excused := s.excused ++ (s.allSessions task.sock).toList.map (·, task) }.reply
          ⟨task, .response (.success server.authKey), false⟩) ∨
    (task.Authorized server ∧ s.handle server task raft =
      { s with executed := s.executed ++ [task] }.reply ⟨task, raft, false⟩) := by
  have hcommand (htype : task.request.type = .command ∨ task.request.type = .batchCommand)
      (hgate : ¬ (server.password ≠ [] ∧ task.request.authKey ≠ server.authKey)) :
      task.Authorized server := by
    have hkey : server.password = [] ∨ task.request.authKey = server.authKey := by
      rw [not_and_or, not_not, not_not] at hgate
      exact hgate
    rcases htype with htype | htype <;> simpa only [Task.Authorized, htype] using hkey
  have hrefused (text : Bytes) (close : Bool) (htext : text ∈ serverErrors)
      (heq : s.handle server task raft = s.reply ⟨task, .response (.error text), close⟩) :
      ∃ r : Reply, r.task = task ∧ ¬ r.answer.Telling ∧ s.handle server task raft = s.reply r :=
    ⟨_, rfl, not_telling_error htext, heq⟩
  rcases htype : task.request.type with _ | _ | _ | _ | n
  case auth =>
    by_cases hpassword : task.request.password = server.password
    · exact .inr (.inl ⟨rfl, hpassword, by simp only [State.handle, htype, if_pos hpassword]⟩)
    · refine .inl (hrefused (ascii "Authentication failed") false ?_
        (by simp only [State.handle, htype, if_neg hpassword]))
      simp [serverErrors]
  case command | batchCommand =>
    all_goals
      by_cases hgate : server.password ≠ [] ∧ task.request.authKey ≠ server.authKey
      · refine .inl (hrefused (ascii "Authentication required") true ?_
          (by simp only [State.handle, htype, if_pos hgate]))
        simp [serverErrors]
      · exact .inr (.inr ⟨hcommand (by simp [htype]) hgate,
          by simp only [State.handle, htype, if_neg hgate]⟩)
  case none | other =>
    all_goals
      refine .inl (hrefused (ascii "Unknown request type") false ?_
        (by simp only [State.handle, htype]))
      simp [serverErrors]

theorem Spec.work {i : Nat} {task : Task} {raft : Answer} (h : s.tasks[i]? = some task) :
    Spec server s a ({ s with tasks := s.tasks.eraseIdx i }.handle server task raft) := by
  have hrefl := Spec.refl server s a
  have htask : s.Open task := .queued (List.mem_of_getElem? h)
  have htasks : ∀ t ∈ s.tasks.eraseIdx i, s.Open t := fun t ht =>
    .queued (List.mem_of_mem_eraseIdx ht)
  have hreplies {r : Reply} (hr : r.task = task) (hauthorized : r.answer.Telling →
      task.Authorized server) : ∀ r' ∈ s.replies ++ [r], r' ∈ s.replies ∨
        s.Open r'.task ∧ (r'.answer.Telling → r'.task.Authorized server) := by
    intro r' hr'
    rcases List.mem_append.1 hr' with hold | hnew
    · exact .inl hold
    · obtain rfl := List.mem_singleton.1 hnew
      exact .inr (hr ▸ ⟨htask, hauthorized⟩)
  rcases handle_cases server { s with tasks := s.tasks.eraseIdx i } task raft with
    ⟨r, hr, htelling, heq⟩ | ⟨htype, hpassword, heq⟩ | ⟨hauthorized, heq⟩
  all_goals rw [heq]
  case inl =>
    exact { hrefl with
      tasks := htasks
      replies := hreplies hr fun htell => absurd htell htelling }
  case inr.inl =>
    have hauthorized : task.Authorized server := by simpa only [Task.Authorized, htype]
    refine { hrefl with
      tasks := htasks
      replies := hreplies rfl fun _ => hauthorized
      excused := ?_ }
    intro e he
    rcases List.mem_append.1 he with hold | hnew
    · exact .inl hold
    · -- the session that the table has under the number
      obtain ⟨peer, hpeer, rfl⟩ := List.mem_map.1 hnew
      exact .inr ⟨htask, htype, hpassword, Option.mem_toList.1 hpeer⟩
  case inr.inr =>
    refine { hrefl with
      tasks := htasks
      replies := hreplies rfl fun _ => hauthorized
      executed := ?_ }
    intro t ht
    rcases List.mem_append.1 ht with hold | hnew
    · exact .inl hold
    · obtain rfl := List.mem_singleton.1 hnew
      exact .inr ⟨htask, hauthorized⟩

theorem Spec.submit {i : Nat} {task : Task} {submitted : Bool} (h : s.received[i]? = some task) :
    Spec server s a (
      let s := { s with received := s.received.eraseIdx i }
      if submitted then { s with tasks := s.tasks ++ [task] }
      else s.reply ⟨task, .response (.error (ascii "Server busy,please try again")), false⟩) := by
  have hrefl := Spec.refl server s a
  have htask : s.Open task := .received (List.mem_of_getElem? h)
  have hreceived : ∀ t ∈ s.received.eraseIdx i, t ∈ s.received := fun t =>
    List.mem_of_mem_eraseIdx
  cases submitted with
  | true =>
      refine { hrefl with received := fun t ht => .inl (hreceived t ht), tasks := ?_ }
      intro t ht
      rcases List.mem_append.1 ht with hold | hnew
      · exact .queued hold
      · exact List.mem_singleton.1 hnew ▸ htask
  | false =>
      refine { hrefl with received := fun t ht => .inl (hreceived t ht), replies := ?_ }
      intro r hr
      rcases List.mem_append.1 hr with hold | hnew
      · exact .inl hold
      · obtain rfl := List.mem_singleton.1 hnew
        refine .inr ⟨htask, fun htelling => absurd htelling (not_telling_error ?_)⟩
        simp [serverErrors]

theorem Spec.send {i : Nat} {r : Reply} (h : s.replies[i]? = some r) :
    Spec server s a ({ s with replies := s.replies.eraseIdx i }.sent r) := by
  refine { Spec.refl server s a with
    replies := fun _ hr => .inl (List.mem_of_mem_eraseIdx hr)
    sending := ?_ }
  intro r' hr'
  simp only [State.sent] at hr'
  split at hr'
  · exact .inl hr'
  · rcases List.mem_append.1 hr' with hold | hnew
    · exact .inl hold
    · exact .inr (List.mem_singleton.1 hnew ▸ List.mem_of_getElem? h)

theorem Spec.flush {i : Nat} {r : Reply} {sent : Bool} (h : s.sending[i]? = some r) :
    Spec server s a (
      let s := { s with sending := s.sending.eraseIdx i }
      if sent then s.flushed r else s) := by
  have hsending : ∀ r ∈ s.sending.eraseIdx i, r ∈ s.sending ∨ r ∈ s.replies := fun _ hr =>
    .inl (List.mem_of_mem_eraseIdx hr)
  cases sent with
  | true =>
      refine { Spec.refl server s a with
        kept := List.subset_append_left _ _
        sending := hsending
        delivered := ?_ }
      intro d hd
      rcases List.mem_append.1 hd with hold | hnew
      · exact .inl hold
      · -- whoever has the number
        obtain ⟨peer, hpeer, rfl⟩ := List.mem_map.1 hnew
        exact .inr ⟨List.mem_of_getElem? h, Option.mem_toList.1 hpeer⟩
  | false => exact { Spec.refl server s a with sending := hsending }

theorem Spec.receive {i : Nat} {request : Request} {sock : Socket} {peer : Peer}
    (hreader : s.readers[i]? = some sock) (hpeer : s.descriptors sock = some peer) :
    Spec server s (.receive i request)
      { s with received := s.received ++ [⟨request, sock, peer⟩] } := by
  refine { Spec.refl server s (.receive i request) with received := ?_ }
  intro t ht
  rcases List.mem_append.1 ht with hold | hnew
  · exact .inl hold
  · obtain rfl := List.mem_singleton.1 hnew
    exact .inr ⟨i, rfl, hreader, hpeer⟩

/-- A closed number has no owner, and the others keep theirs. -/
theorem Spec.free {sock : Socket} (hfrees : Frees s sock a) (arriving : List (Socket × Peer))
    (closing : List Closer) : Spec server s a { s with
      arriving := arriving
      closing := closing
      descriptors := Function.update s.descriptors sock none } := by
  refine { Spec.refl server s a with
    owned := fun sock' peer hpeer => .inl ?_
    owns := fun sock' peer hpeer => ?_ }
  · by_cases hsock : sock' = sock
    · subst hsock
      simp at hpeer
    · simpa [Function.update_of_ne hsock] using hpeer
  · by_cases hsock : sock' = sock
    · exact .inr (hsock ▸ hfrees)
    · exact .inl (by simpa [Function.update_of_ne hsock] using hpeer)

theorem Spec.accept {sock : Socket} (hfree : s.descriptors sock = none) : Spec server s a { s with
    descriptors := Function.update s.descriptors sock (some s.accepted.length)
    arriving := s.arriving ++ [(sock, s.accepted.length)]
    accepted := s.accepted ++ [sock] } := by
  refine { Spec.refl server s a with
    accepted := List.prefix_append _ _
    owned := fun sock' peer hpeer => ?_
    owns := fun sock' peer hpeer => .inl ?_ }
  · by_cases hsock : sock' = sock
    · subst hsock
      obtain rfl : s.accepted.length = peer := by simpa using hpeer
      exact .inr ⟨rfl, by simp⟩
    · exact .inl (by simpa [Function.update_of_ne hsock] using hpeer)
  · have hsock : sock' ≠ sock := by
      rintro rfl
      rw [hfree] at hpeer
      cases hpeer
    simpa [Function.update_of_ne hsock] using hpeer

theorem Spec.join (joining : List Joiner) (added : Bool) (j : Joiner) :
    Spec server s a ({ s with joining := joining }.joined added j) := by
  have hrefl := Spec.refl server s a
  cases j with
  | inserted sock => cases added <;> exact { hrefl with }
  | assigned sock =>
      simp only [State.joined, State.insertEntry]
      split <;> exact { hrefl with }

theorem Spec.close {i : Nat} {c : Closer} (h : s.closing[i]? = some c) :
    Spec server s (.closer i) ({ s with closing := s.closing.eraseIdx i }.closed c) := by
  have hrefl := Spec.refl server s (.closer i)
  cases c with
  | called sock => exact { hrefl with }
  | erased sock =>
      simp only [State.closed]
      split <;> exact { hrefl with }
  | removed sock =>
      have hfrees : Frees s sock (.closer i) := h
      exact Spec.free hfrees _ _

/-- **What a step does.** -/
theorem step_spec (h : step server s a = some s') : Spec server s a s' := by
  have hrefl := Spec.refl server s a
  cases a with
  | tick ms => exact Option.some.inj h ▸ { hrefl with }
  | accept sock =>
      simp only [step] at h
      split at h
      · exact Option.some.inj h ▸ Spec.accept ‹_›
      · cases h
  | reject i =>
      obtain ⟨c, hc, rfl⟩ := Option.map_eq_some_iff.1 h
      have hfrees : Frees s c.1 (.reject i) := ⟨c.2, hc⟩
      exact Spec.free hfrees _ _
  | assign i =>
      obtain ⟨c, -, rfl⟩ := Option.map_eq_some_iff.1 h
      exact { hrefl with }
  | join i added =>
      obtain ⟨j, -, rfl⟩ := Option.map_eq_some_iff.1 h
      exact Spec.join _ added j
  | read sock =>
      simp only [step] at h
      split at h
      · cases h
      · exact Option.some.inj h ▸ { hrefl with }
  | receive i request =>
      obtain ⟨sock, hreader, h⟩ := Option.bind_eq_some_iff.1 h
      obtain ⟨peer, hpeer, rfl⟩ := Option.map_eq_some_iff.1 h
      exact Spec.receive hreader hpeer
  | leave i => exact Option.some.inj h ▸ { hrefl with }
  | submit i submitted =>
      obtain ⟨task, htask, rfl⟩ := Option.map_eq_some_iff.1 h
      exact Spec.submit htask
  | work i raft =>
      obtain ⟨task, htask, rfl⟩ := Option.map_eq_some_iff.1 h
      exact Spec.work htask
  | send i =>
      obtain ⟨r, hr, rfl⟩ := Option.map_eq_some_iff.1 h
      exact Spec.send hr
  | flush i sent =>
      obtain ⟨r, hr, rfl⟩ := Option.map_eq_some_iff.1 h
      exact Spec.flush hr
  | close sock => exact Option.some.inj h ▸ { hrefl with }
  | closer i =>
      obtain ⟨c, hc, rfl⟩ := Option.map_eq_some_iff.1 h
      exact Spec.close hc
  | monitor =>
      simp only [step] at h
      split at h
      · exact Option.some.inj h ▸ { hrefl with }
      · cases h
  | kick =>
      simp only [step] at h
      split at h
      · cases h
      · exact Option.some.inj h ▸ { hrefl with }

end Steps

section Authorization

variable {server : EyaServer} {Party : Type*} {party : Peer → Party} {members : Party → Prop}
  {s s' : State} {a : Action}

/-- The number of a connection stays the same. -/
theorem Spec.number (h : Spec server s a s') {peer : Peer} {sock : Socket}
    (hnumber : s.accepted[peer]? = some sock) : s'.accepted[peer]? = some sock := by
  obtain ⟨rest, hrest⟩ := h.accepted
  obtain ⟨hlt, -⟩ := List.getElem?_eq_some_iff.1 hnumber
  rw [← hrest, List.getElem?_append_left hlt]
  exact hnumber

theorem Misdelivered.mono (h : Spec server s a s') {d : Peer × Reply}
    (hd : Misdelivered server s d) : Misdelivered server s' d :=
  ⟨hd.later, h.number hd.origin, h.number hd.receiver, hd.authorized⟩

theorem Trusted.mono (h : Spec server s a s') {p : Party}
    (hp : Trusted server party members s p) : Trusted server party members s' p := by
  rcases hp with hp | ⟨d, hd, hparty, hmis⟩
  · exact .inl hp
  · exact .inr ⟨d, h.kept hd, hparty, hmis.mono h⟩

/-- What is known of a request that the server has taken. -/
structure TaskInv (s : State) (t : Task) : Prop where
  number : s.accepted[t.origin]? = some t.sock
  /-- Who has the number has come with the request, or later. -/
  before : ∀ peer, s.descriptors t.sock = some peer → t.origin ≤ peer

theorem TaskInv.mono (h : Spec server s a s') {t : Task} (ht : TaskInv s t) : TaskInv s' t where
  number := h.number ht.number
  before peer hpeer := by
    obtain ⟨hlt, -⟩ := List.getElem?_eq_some_iff.1 ht.number
    rcases h.owned _ _ hpeer with hold | ⟨rfl, -⟩
    · exact ht.before peer hold
    · exact Nat.le_of_lt hlt

/-- What holds of the requests and the answers, whatever the clients send. -/
structure Inv (server : EyaServer) (s : State) : Prop where
  descriptors : ∀ sock peer, s.descriptors sock = some peer → s.accepted[peer]? = some sock
  taken : ∀ t, s.Taken t → TaskInv s t
  made : ∀ r, s.Made r → r.answer.Telling → r.task.Authorized server
  executed : ∀ t ∈ s.executed, t.Authorized server
  delivered : ∀ d ∈ s.delivered,
    s.accepted[d.1]? = some d.2.task.sock ∧ d.2.task.origin ≤ d.1
  excused : ∀ e ∈ s.excused, e.2.request.type = .auth ∧
    e.2.request.password = server.password ∧ s.accepted[e.2.origin]? = some e.2.sock

theorem not_taken_start (t : Task) : ¬ ({} : State).Taken t := by
  rintro ((h | h | h | h) | h | h)
  all_goals cases h

theorem inv_start : Inv server {} where
  descriptors _ _ h := by cases h
  taken t ht := absurd ht (not_taken_start t)
  made r hr := absurd hr.taken (not_taken_start r.task)
  executed _ h := by cases h
  delivered _ h := by cases h
  excused _ h := by cases h

theorem Inv.step (h : Inv server s) (hspec : Spec server s a s') : Inv server s' where
  descriptors sock peer hpeer := by
    rcases hspec.owned sock peer hpeer with hold | ⟨-, hnew⟩
    · exact hspec.number (h.descriptors sock peer hold)
    · exact hnew
  taken t ht := by
    rcases hspec.taken ht with hold | ⟨i, rfl, -, howner⟩
    · exact (h.taken t hold).mono hspec
    · have hnew : TaskInv s t :=
        ⟨h.descriptors _ _ howner, fun peer hpeer =>
          Nat.le_of_eq (Option.some.inj (howner.symm.trans hpeer))⟩
      exact hnew.mono hspec
  made r hr htelling := by
    rcases hspec.made hr with hold | ⟨-, hauthorized⟩
    · exact h.made r hold htelling
    · exact hauthorized htelling
  executed t ht := (hspec.executed t ht).elim (h.executed t) And.right
  delivered d hd := by
    rcases hspec.delivered d hd with hold | ⟨hmade, howner⟩
    · obtain ⟨hreceiver, hle⟩ := h.delivered d hold
      exact ⟨hspec.number hreceiver, hle⟩
    · -- the owner of the number when the answer goes out
      have htask := h.taken _ (.opened (.sending hmade))
      exact ⟨hspec.number (h.descriptors _ _ howner), htask.before _ howner⟩
  excused e he := by
    rcases hspec.excused e he with hold | ⟨hopen, htype, hpassword, -⟩
    · obtain ⟨htype, hpassword, hnumber⟩ := h.excused e hold
      exact ⟨htype, hpassword, hspec.number hnumber⟩
    · exact ⟨htype, hpassword, hspec.number (h.taken _ (.opened hopen)).number⟩

theorem inv_run (actions : List Action) (s : State)
    (hrun : run (step server) {} actions = some s) : Inv server s :=
  run_invariant (fun _ _ _ h hs => h.step (step_spec hs)) actions {} s inv_start hrun

/-- A request that shows what it has to comes from a party that may. -/
def Authority (server : EyaServer) (party : Peer → Party) (members : Party → Prop) (s : State) :
    Prop :=
  ∀ t, s.Taken t → t.Authorized server → Trusted server party members s (party t.origin)

/-- An answer that could hold the key belongs to a request that had what it takes. So a party that
has got one is the party of that request, or has got it in place of another. -/
theorem Authority.informed (hauthority : Authority server party members s) (h : Inv server s)
    {p : Party} (hp : Informed party s p) : Trusted server party members s p := by
  obtain ⟨d, hd, rfl, htelling⟩ := hp
  have hauthorized := h.made d.2 (.delivered hd) htelling
  obtain ⟨hreceiver, hle⟩ := h.delivered d hd
  rcases Nat.eq_or_lt_of_le hle with heq | hlt
  · exact heq ▸ hauthority _ (.delivered hd) hauthorized
  · have hnumber := (h.taken d.2.task (.delivered hd)).number
    exact .inr ⟨d, hd, rfl, hlt, hnumber, hreceiver, hauthorized⟩

/-- A request that has just been received shows only what its party knows. -/
theorem Authority.received (hauthority : Authority server party members s) (h : Inv server s)
    (hpassword : server.password ≠ []) {i : Nat} {t : Task}
    (hhonest : Honest server party members s (.receive i t.request))
    (hreader : s.readers[i]? = some t.sock) (howner : s.descriptors t.sock = some t.origin)
    (hauthorized : t.Authorized server) : Trusted server party members s (party t.origin) := by
  obtain ⟨hauth, hcommand⟩ := hhonest _ hreader _ howner
  have hkey (htype : t.request.type = .command ∨ t.request.type = .batchCommand)
      (hshown : server.password = [] ∨ t.request.authKey = server.authKey) :
      Trusted server party members s (party t.origin) :=
    hauthority.informed h (hcommand htype (hshown.resolve_left hpassword))
  rcases htype : t.request.type with _ | _ | _ | _ | n
  all_goals simp only [Task.Authorized, htype] at hauthorized
  case auth => exact .inl (hauth htype hauthorized)
  case command => exact hkey (.inl htype) hauthorized
  case batchCommand => exact hkey (.inr htype) hauthorized

theorem Authority.step (hauthority : Authority server party members s) (h : Inv server s)
    (hpassword : server.password ≠ []) (hhonest : Honest server party members s a)
    (hspec : Spec server s a s') : Authority server party members s' := by
  intro t ht hauthorized
  rcases hspec.taken ht with hold | ⟨i, rfl, hreader, howner⟩
  · exact (hauthority t hold hauthorized).mono hspec
  · exact (hauthority.received h hpassword hhonest hreader howner hauthorized).mono hspec

/-- Every open request comes from the owner of its number, and every answer went where it
belongs. -/
structure Matched (s : State) : Prop where
  owner : ∀ t, s.Open t → s.descriptors t.sock = some t.origin
  delivered : ∀ d ∈ s.delivered, d.1 = d.2.task.origin

theorem matched_start : Matched {} where
  owner t ht := absurd (.opened ht) (not_taken_start t)
  delivered _ h := by cases h

theorem Matched.step (h : Matched s) (hanswered : Answered s a) (hspec : Spec server s a s') :
    Matched s' where
  owner t ht := by
    have howner : s.descriptors t.sock = some t.origin := by
      rcases hspec.opened ht with hold | ⟨i, -, -, hnew⟩
      · exact h.owner t hold
      · exact hnew
    rcases hspec.owns _ _ howner with hkept | hfrees
    · exact hkept
    · rcases hspec.opened ht with hold | ⟨i, rfl, -, -⟩
      · exact absurd rfl (hanswered _ hfrees t hold)
      · -- a step that receives closes nothing
        exact hfrees.elim
  delivered d hd := by
    rcases hspec.delivered d hd with hold | ⟨hsending, howner⟩
    · exact h.delivered d hold
    · exact Option.some.inj (howner.symm.trans (h.owner _ (.sending hsending)))

/-- A server with a password, a request with it, and one with the key. -/
def guarded : EyaServer := .create (ascii "pw") (ascii "key")

def login : Request := .auth [] (ascii "pw")

def getKey : Request := .createCommand [] (ascii "get k") (ascii "key")

/-- A client authenticates and hangs up; the next one gets its number before the answer is out. -/
def handedOver : List Action :=
  [.accept 5, .assign 0, .join 0 true, .join 0 true, .read 5, .receive 0 login, .submit 0 true,
    .work 0 (.response (.success [])), .send 0, .leave 0, .close 5, .closer 0, .closer 0, .closer 0,
    .accept 5, .assign 0, .join 0 true, .flush 0 true, .join 0 true, .read 5, .receive 0 getKey,
    .submit 0 true, .work 0 (.response (.success []))]

end Authorization

end Authentication

end EyaKV.Network
