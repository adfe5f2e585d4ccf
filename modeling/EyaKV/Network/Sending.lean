import EyaKV.Base.Carriage
import EyaKV.Base.Runs
import EyaKV.Network.Reassembly

/-!
# What a client receives

The threads of the server send frames to one connection. `async_send` and `send_and_close` append
a frame to the session's buffer, and the buffer is flushed under its mutex, by any thread and in
as many writes as the socket likes. `send_connection_state` takes neither: it writes its frame
to the socket itself, until the frame is written or the socket stays full for a second.

The client receives whole frames, the replies of a thread in the order in which it queued them
(`ReceivesWhole`), as long as no write and no close falls into a frame that another thread has
begun, and no notification is given up after its beginning (`Whole`). The frames that the buffer
holds keep out of each other's way by its mutex; a notification does not.

A session names its connection by the number of a descriptor, and so does a notification. A thread
may hold a session when the connection has been closed, and another one may have been accepted
with the same number: the thread then writes to that one, or closes it. So a state has all
connections that have had one number, and each of them takes what is written while it is the last.

A step is one call of the system, or what a thread does when it has taken a mutex.
-/

set_option autoImplicit false

namespace EyaKV.Network.Sending

open EyaKV.Base EyaKV.Store EyaKV.Wire

/-- `ConnectionState`. -/
inductive ConnectionState where
  | waiting
  | ready
  deriving DecidableEq, Repr

/-- `std::to_string` of the enumerator's number. -/
def ConnectionState.text : ConnectionState → Bytes
  | .waiting => [48]
  | .ready => [49]

/-- The body of a notification. -/
def ConnectionState.body (state : ConnectionState) : Bytes :=
  serializeString [] ++ (putInt32 1 ++ ((1 :: serializeString state.text) ++ serializeString []))

/-- It is a successful `Response` with the number as its data. -/
theorem ConnectionState.serialize_body (listing : Listing) (towersOf : ZSet → Towers)
    (state : ConnectionState) :
    (⟨1, .string state.text, [], []⟩ : Response).serialize listing towersOf = state.body := rfl

/-- `build_header` and the body. -/
def frame (body : Bytes) : Bytes :=
  ProtocolHeader.serialize { length := .ofNat body.length } ++ body

/-- What a thread sends: a reply through the buffer, or a notification. -/
inductive Message where
  | reply (body : Bytes)
  | notice (state : ConnectionState)
  deriving DecidableEq, Repr

def Message.isReply : Message → Bool
  | .reply _ => true
  | .notice _ => false

def Message.frame : Message → Bytes
  | .reply body => Sending.frame body
  | .notice state => Sending.frame state.body

/-- What a call of `::send` returns: the number of bytes that the socket took, nothing, an error
that says to try again, or another error. -/
inductive SendResult where
  | took (n : Nat)
  | nothing
  | wouldBlock
  | interrupted
  | failed
  deriving DecidableEq, Repr

/-- A thread has found the session and waits for `write_mutex`, to append a reply and perhaps to
have the connection closed after it, or only to flush; it is in the loop of `flush_send_buffer`;
or it is in the loop of `send_data`. -/
inductive Task where
  | idle
  | found (reply : Option (Bytes × Bool))
  | flushing
  | sending (state : ConnectionState) (totalSent : Nat)
  deriving DecidableEq, Repr

/-- A connection, its `TcpSession` and the threads that send to it. The last two fields are not
in the code: what the threads have asked to send to it, and the replies that have been appended. -/
structure Connection (σ : Type*) where
  /-- What the socket has taken. -/
  wire : Bytes := []
  isOpen : Bool := true
  /-- Whether `all_sessions_` has the session. -/
  listed : Bool := false
  sendBuffer : Bytes := []
  closeAfterSend : Bool := false
  writeMutex : Option σ := none
  tasks : σ → Task := fun _ => .idle
  asked : List (σ × Message) := []
  queued : List (σ × Message) := []

/-- What a step does to the descriptor: the bytes that it writes, and whether `close_socket` is
called. -/
structure Effect where
  written : Bytes := []
  closes : Bool := false
  deriving DecidableEq, Repr

/-- What a thread goes on with: it takes the mutex of the session that it has found, it calls
`::send` in `flush_send_buffer`, or in `send_data`. -/
inductive Move (σ : Type*) where
  | lock (t : σ)
  | write (t : σ) (result : SendResult)
  | direct (t : σ) (result : SendResult) (polled : Bool)
  deriving DecidableEq, Repr

/-- A step of one thread. What is begun goes by the number of the descriptor, so it is about the
present connection; what goes on may be about that one or an earlier one. -/
inductive Action (σ : Type*) where
  | accept
  | assign
  | send (t : σ) (body : Bytes) (close : Bool)
  | writable (t : σ)
  | notify (t : σ) (state : ConnectionState)
  | close
  | drop
  | present (m : Move σ)
  | past (i : Nat) (m : Move σ)
  deriving DecidableEq, Repr

/-- The connections that have had a descriptor, in their order. -/
structure Descriptor (σ : Type*) where
  past : List (Connection σ) := []
  present : Connection σ := {}

section Steps

variable {σ : Type*} [DecidableEq σ]

def Connection.setTask (c : Connection σ) (t : σ) (task : Task) : Connection σ :=
  { c with tasks := Function.update c.tasks t task }

/-- `close_socket`: only for a socket with a session. -/
def Connection.closeSocket (c : Connection σ) : Connection σ :=
  if c.listed then { c with listed := false, isOpen := false } else c

/-- The connection that has the descriptor takes the bytes, or is closed. -/
def Connection.undergo (c : Connection σ) (effect : Effect) : Connection σ :=
  let c := if c.isOpen then { c with wire := c.wire ++ effect.written } else c
  if effect.closes then c.closeSocket else c

/-- The thread leaves `flush_send_buffer` and its caller. -/
def Connection.leave (c : Connection σ) (t : σ) : Connection σ :=
  { c.setTask t .idle with writeMutex := none }

/-- A connection with nothing left to send is closed when that is wanted. The interest in
`EPOLLOUT` has no part here: a socket may be reported writable at any time. -/
def Connection.finish (c : Connection σ) (t : σ) : Connection σ × Effect :=
  (c.leave t, { closes := c.sendBuffer = [] ∧ c.closeAfterSend })

/-- The session of a thread that has the mutex, with the reply that it brings. -/
def Connection.append (c : Connection σ) (t : σ) : Option (Bytes × Bool) → Connection σ
  | none => c
  | some (body, close) =>
      { c with
        sendBuffer := c.sendBuffer ++ frame body
        closeAfterSend := c.closeAfterSend || close
        queued := c.queued ++ [(t, .reply body)] }

/-- Into `flush_send_buffer`, which has nothing to do for an empty buffer. -/
def Connection.enter (c : Connection σ) (t : σ) (reply : Option (Bytes × Bool)) :
    Connection σ × Effect :=
  let c := c.append t reply
  if c.sendBuffer = [] then c.finish t
  else ({ c.setTask t .flushing with writeMutex := some t }, {})

/-- One round of the loop of `flush_send_buffer`. -/
def Connection.flushRound (c : Connection σ) (t : σ) : SendResult → Option (Connection σ × Effect)
  | .took n =>
      if 0 < n ∧ n ≤ c.sendBuffer.length then
        let written := c.sendBuffer.take n
        let c := { c with sendBuffer := c.sendBuffer.drop n }
        some (if c.sendBuffer = [] then ((c.finish t).1, { (c.finish t).2 with written := written })
          else (c, { written := written }))
      else none
  -- `break`: what is left waits for the next flush
  | .nothing | .wouldBlock | .interrupted => some (c.finish t)
  -- `return`: a connection that was to be closed stays open
  | .failed => some (c.leave t, {})

/-- `data_len` of `send_data`. -/
def dataLen (data : Bytes) : Nat := data.length % 2 ^ 32

/-- One round of the loop of `send_data`. When the socket is full, `polled` says whether it
became writable within a second. -/
def Connection.sendRound (c : Connection σ) (t : σ) (state : ConnectionState) (totalSent : Nat)
    (polled : Bool) : SendResult → Option (Connection σ × Effect)
  | .took n =>
      let data := frame state.body
      if 0 < n ∧ totalSent + n ≤ dataLen data then
        some (c.setTask t (if totalSent + n < dataLen data then .sending state (totalSent + n)
          else .idle), { written := (data.drop totalSent).take n })
      else none
  | .interrupted => some (c, {})
  -- after a second of waiting it gives up, wherever it is in the frame
  | .wouldBlock => some (if polled then c else c.setTask t .idle, {})
  | .nothing | .failed => some (c.setTask t .idle, {})

/-- A thread goes on with what it does for a connection. -/
def Connection.move (c : Connection σ) : Move σ → Option (Connection σ × Effect)
  | .lock t =>
      match c.tasks t, c.writeMutex with
      | .found reply, none => some (c.enter t reply)
      | _, _ => none
  | .write t result => if c.tasks t = .flushing then c.flushRound t result else none
  | .direct t result polled =>
      match c.tasks t with
      | .sending state totalSent => c.sendRound t state totalSent polled result
      | _ => none

/-- A thread is busy with no connection. -/
def Descriptor.Idle (d : Descriptor σ) (t : σ) : Prop :=
  d.present.tasks t = .idle ∧ ∀ c ∈ d.past, c.tasks t = .idle

instance (d : Descriptor σ) (t : σ) : Decidable (d.Idle t) := inferInstanceAs (Decidable (_ ∧ _))

/-- The steps of the threads. The system gives a number to a new connection when it is free. -/
def step (d : Descriptor σ) : Action σ → Option (Descriptor σ)
  | .accept => if d.present.isOpen then none else some ⟨d.past ++ [d.present], {}⟩
  | .assign =>
      if d.present.isOpen ∧ ¬ d.present.listed then
        some { d with present := { d.present with listed := true } }
      else none
  | .send t body close =>
      if d.Idle t then
        let c := { d.present with asked := d.present.asked ++ [(t, Message.reply body)] }
        some { d with present := if c.listed then c.setTask t (.found (some (body, close))) else c }
      else none
  | .writable t =>
      if d.Idle t ∧ d.present.listed then
        some { d with present := d.present.setTask t (.found none) }
      else none
  -- `send_data` asks for no session and takes no mutex
  | .notify t state =>
      if d.Idle t then
        let c := { d.present with asked := d.present.asked ++ [(t, Message.notice state)] }
        some { d with present := c.setTask t (.sending state 0) }
      else none
  | .close => if d.present.listed then some { d with present := d.present.closeSocket } else none
  | .drop =>
      if d.present.isOpen ∧ ¬ d.present.listed then
        some { d with present := { d.present with isOpen := false } }
      else none
  | .present m => do
      let (c, effect) ← d.present.move m
      some { d with present := c.undergo effect }
  -- the thread has the number only, so the bytes go to the present connection
  | .past i m => do
      let c ← d.past[i]?
      let (c, effect) ← c.move m
      some ⟨d.past.set i c, d.present.undergo effect⟩

end Steps

section Statement

variable {σ : Type*}

/-- A notification has been written in part. -/
def Task.Begun : Task → Prop
  | .sending _ totalSent => 0 < totalSent
  | _ => False

instance : DecidablePred Task.Begun
  | .sending _ totalSent => inferInstanceAs (Decidable (0 < totalSent))
  | .idle | .found _ | .flushing => isFalse id

abbrev enc (m : σ × Message) : Bytes := m.2.frame

/-- No notification has been written in part. -/
def Connection.NoneBegun (c : Connection σ) : Prop := ∀ t, ¬ (c.tasks t).Begun

/-- The buffer begins with a whole frame, if it is not empty. -/
def Connection.AtBoundary (c : Connection σ) : Prop :=
  ∃ k, k < c.queued.length + 1 ∧ c.sendBuffer = (c.queued.drop k).flatMap enc

/-- A flush would find nothing to send, and close the connection. -/
def Connection.Ending (c : Connection σ) : Prop := c.sendBuffer = [] ∧ c.closeAfterSend

instance (c : Connection σ) : Decidable c.Ending := inferInstanceAs (Decidable (_ ∧ _))

/-- No frame is cut when a thread goes on for the present connection: what it writes does not fall
into a frame that another thread has begun, and neither a close nor the end of `send_data` leaves
one behind. -/
def Connection.Whole (c : Connection σ) : Move σ → Prop
  | .lock _ => c.Ending → c.NoneBegun
  | .write _ (.took _) => c.NoneBegun
  | .write _ .failed => True
  | .write _ _ => c.Ending → c.NoneBegun
  | .direct t (.took _) _ => c.AtBoundary ∧ ∀ t', t' ≠ t → ¬ (c.tasks t').Begun
  | .direct _ .interrupted _ | .direct _ .wouldBlock true => True
  | .direct t _ _ => ¬ (c.tasks t).Begun

/-- When a thread goes on for an earlier connection, it writes nothing to the present one, and
closes it between two frames or not at all. -/
def Connection.Apart (present c : Connection σ) : Move σ → Prop
  | .lock _ => c.Ending → present.AtBoundary ∧ present.NoneBegun
  | .write _ (.took _) => False
  | .write _ .failed => True
  | .write _ _ => c.Ending → present.AtBoundary ∧ present.NoneBegun
  | .direct _ (.took _) _ => False
  | .direct _ _ _ => True

/-- No frame of the present connection is cut by the step, if it is open. -/
def Whole (d : Descriptor σ) : Action σ → Prop
  | .close | .drop => d.present.AtBoundary ∧ d.present.NoneBegun
  | .present m => d.present.isOpen → d.present.Whole m
  | .past i m => d.present.isOpen → ∀ c ∈ d.past[i]?, d.present.Apart c m
  | _ => True

/-- The messages of a thread, either its replies or its notifications. -/
def ofThread [DecidableEq σ] (t : σ) (reply : Bool) (m : σ × Message) : Bool :=
  m.1 = t && m.2.isReply == reply

/-- What is missing of a frame is the next to be written, from the buffer or by the thread in
`send_data`. -/
def Connection.Pending (c : Connection σ) (rest : Bytes) : Prop :=
  rest <+: c.sendBuffer ∨
    ∃ t state totalSent, c.tasks t = .sending state totalSent ∧
      rest = (frame state.body).drop totalSent

/-- The client has received whole frames, the last of which may be under way as long as the
connection is open. Each has been sent once, and the replies of a thread are in order. -/
def Connection.ReceivesWhole [DecidableEq σ] (c : Connection σ) : Prop :=
  ∃ sent rest, Carries enc c.wire sent rest ∧ (rest = [] ∨ c.isOpen ∧ c.Pending rest) ∧
    ∀ t reply, (sent.filter (ofThread t reply)).Sublist (c.asked.filter (ofThread t reply))

end Statement

section Invariant

theorem frame_ne_nil (body : Bytes) : frame body ≠ [] :=
  List.append_ne_nil_of_left_ne_nil (List.cons_ne_nil _ _) body

theorem enc_ne_nil {σ : Type*} : ∀ m : σ × Message, enc m ≠ []
  | (_, .reply body) => frame_ne_nil body
  | (_, .notice state) => frame_ne_nil state.body

/-- The length of a notification is that of its frame. -/
theorem dataLen_body (state : ConnectionState) :
    dataLen (frame state.body) = (frame state.body).length := by
  cases state <;> rfl

variable {σ : Type*} [DecidableEq σ] {c : Connection σ} {t : σ}

/-- The replies of the thread that its task still has to append. -/
def Task.replies (t : σ) : Task → List (σ × Message)
  | .found (some (body, _)) => [(t, .reply body)]
  | _ => []

/-- The notifications of the thread that its task still has to begin. -/
def Task.notices (t : σ) : Task → List (σ × Message)
  | .sending state 0 => [(t, .notice state)]
  | _ => []

/-- Whose turn it is to write, with `k` of the replies begun: nobody's after a close; whoever
flushes the buffer, which holds the rest of what has been flushed in part; or a thread that has
begun a notification. -/
inductive Turn (c : Connection σ) (rest : Bytes) (k : Nat) : Prop
  | closed (hopen : c.isOpen = false) (hrest : rest = [])
  | queue (hopen : c.isOpen) (flushed : Bytes)
      (hcarries : Carries enc flushed (c.queued.take k) rest)
      (hbuffer : c.sendBuffer = rest ++ (c.queued.drop k).flatMap enc) (hnone : c.NoneBegun)
  | notice (hopen : c.isOpen) (t : σ) (state : ConnectionState) (totalSent : Nat)
      (htask : c.tasks t = .sending state totalSent) (hbegun : 0 < totalSent)
      (hrest : rest = (frame state.body).drop totalSent)
      (hbuffer : c.sendBuffer = (c.queued.drop k).flatMap enc)
      (hothers : ∀ t', t' ≠ t → ¬ (c.tasks t').Begun)

/-- What has been sent: the first `k` replies, and notifications that have been asked for. -/
structure Sent (c : Connection σ) (sent : List (σ × Message)) (rest : Bytes) (k : Nat) :
    Prop where
  le : k ≤ c.queued.length
  carries : Carries enc c.wire sent rest
  replies : sent.filter (fun m => m.2.isReply) = c.queued.take k
  notices : ∀ t, (sent.filter (ofThread t false) ++ (c.tasks t).notices t).Sublist
    (c.asked.filter (ofThread t false))

structure Inv (c : Connection σ) : Prop where
  isReply : ∀ m ∈ c.queued, m.2.isReply
  order : ∀ t, (c.queued.filter (ofThread t true) ++ (c.tasks t).replies t).Sublist
    (c.asked.filter (ofThread t true))
  sent : ∃ sent rest k, Sent c sent rest k ∧ Turn c rest k

theorem inv_start : Inv ({} : Connection σ) where
  isReply _ hm := nomatch hm
  order _ := List.Sublist.refl _
  sent := ⟨[], [], 0, ⟨Nat.le_refl 0, Carries.nil, rfl, fun _ => List.Sublist.refl _⟩,
    .queue rfl [] Carries.nil rfl fun _ => id⟩

/-- **What the client receives.** -/
theorem Inv.receivesWhole (h : Inv c) : c.ReceivesWhole := by
  obtain ⟨sent, rest, k, hsent, hturn⟩ := h.sent
  refine ⟨sent, rest, hsent.carries, ?_, fun t reply => ?_⟩
  · cases hturn with
    | closed _ hrest => exact .inl hrest
    | queue hopen _ _ hbuffer _ => exact .inr ⟨hopen, .inl ⟨_, hbuffer.symm⟩⟩
    | notice hopen t state n htask _ hrest _ _ => exact .inr ⟨hopen, .inr ⟨t, state, n, htask, hrest⟩⟩
  · cases reply with
    | false => exact (List.sublist_append_left _ _).trans (hsent.notices t)
    | true =>
        have hfilter : sent.filter (ofThread t true) =
            (c.queued.take k).filter (ofThread t true) := by
          rw [← hsent.replies, List.filter_filter]
          refine List.filter_congr fun m _ => ?_
          cases hm : m.2.isReply <;> simp [ofThread, hm]
        rw [hfilter]
        exact ((List.take_sublist k _).filter _).trans
          ((List.sublist_append_left _ _).trans (h.order t))

theorem tasks_setTask_self {task : Task} : (c.setTask t task).tasks t = task :=
  Function.update_self ..

theorem tasks_setTask_of_ne {task : Task} {t' : σ} (h : t' ≠ t) :
    (c.setTask t task).tasks t' = c.tasks t' := Function.update_of_ne h ..

theorem not_begun_setTask {task : Task} (hnew : ¬ task.Begun) {t' : σ}
    (h : t' ≠ t → ¬ (c.tasks t').Begun) : ¬ ((c.setTask t task).tasks t').Begun := by
  by_cases ht : t' = t
  · subst ht
    rwa [tasks_setTask_self]
  · rw [tasks_setTask_of_ne ht]
    exact h ht

omit [DecidableEq σ] in
/-- What a turn depends on. -/
theorem Turn.congr {c' : Connection σ} {rest : Bytes} {k : Nat} (h : Turn c rest k)
    (hopen : c'.isOpen = c.isOpen) (hbuffer : c'.sendBuffer = c.sendBuffer)
    (htasks : c'.tasks = c.tasks) (hqueued : c'.queued = c.queued) : Turn c' rest k := by
  cases h with
  | closed hclosed hrest => exact .closed (hopen.trans hclosed) hrest
  | queue h₁ flushed h₂ h₃ h₄ =>
      refine .queue (hopen.trans h₁) flushed (hqueued ▸ h₂) ?_ fun t => htasks ▸ h₄ t
      rw [hbuffer, hqueued, h₃]
  | notice h₁ t₀ state n h₂ h₃ h₄ h₅ h₆ =>
      refine .notice (hopen.trans h₁) t₀ state n (htasks ▸ h₂) h₃ h₄ ?_ fun t ht => htasks ▸ h₆ t ht
      rw [hbuffer, hqueued, h₅]

/-- A thread whose notification has not begun does something else that is none. When the connection
is closed, it may be anything. -/
theorem Turn.setTask {rest : Bytes} {k : Nat} {task : Task} (h : Turn c rest k)
    (hold : c.isOpen → ¬ (c.tasks t).Begun) (hnew : c.isOpen → ¬ task.Begun) :
    Turn (c.setTask t task) rest k := by
  cases h with
  | closed hopen hrest => exact .closed hopen hrest
  | queue hopen flushed hcarries hbuffer hnone =>
      exact .queue hopen flushed hcarries hbuffer fun t' =>
        not_begun_setTask (hnew hopen) fun _ => hnone t'
  | notice hopen t₀ state n htask hbegun hrest hbuffer hothers =>
      have hne : t₀ ≠ t := by
        rintro rfl
        have hnot := hold hopen
        rw [htask] at hnot
        exact hnot hbegun
      refine .notice hopen t₀ state n ((tasks_setTask_of_ne hne).trans htask) hbegun hrest hbuffer ?_
      exact fun t' ht' => not_begun_setTask (hnew hopen) fun _ => hothers t' ht'

/-- A thread gives up what it has asked for, or does something that sends nothing. -/
theorem Inv.setTask {task : Task} (h : Inv c) (hold : c.isOpen → ¬ (c.tasks t).Begun)
    (hnew : c.isOpen → ¬ task.Begun) (hreplies : task.replies t = [])
    (hnotices : task.notices t = []) :
    Inv (c.setTask t task) where
  isReply := h.isReply
  order t' := by
    by_cases ht : t' = t
    · subst ht
      rw [tasks_setTask_self, hreplies, List.append_nil]
      exact (List.sublist_append_left _ _).trans (h.order t')
    · rw [tasks_setTask_of_ne ht]
      exact h.order t'
  sent := by
    obtain ⟨sent, rest, k, hsent, hturn⟩ := h.sent
    refine ⟨sent, rest, k, ⟨hsent.le, hsent.carries, hsent.replies, fun t' => ?_⟩,
      hturn.setTask hold hnew⟩
    by_cases ht : t' = t
    · subst ht
      rw [tasks_setTask_self, hnotices, List.append_nil]
      exact (List.sublist_append_left _ _).trans (hsent.notices t')
    · rw [tasks_setTask_of_ne ht]
      exact hsent.notices t'

/-- What the invariant does not speak of. -/
theorem Inv.others (h : Inv c) (listed : Bool) (writeMutex : Option σ) :
    Inv { c with listed := listed, writeMutex := writeMutex } := by
  obtain ⟨hreply, horder, sent, rest, k, ⟨hle, hcarries, hreplies, hnotices⟩, hturn⟩ := h
  exact ⟨hreply, horder, sent, rest, k, ⟨hle, hcarries, hreplies, hnotices⟩,
    hturn.congr rfl rfl rfl rfl⟩

/-- A close between two frames. -/
theorem Inv.close (h : Inv c) (hmeets : c.isOpen → c.AtBoundary ∧ c.NoneBegun) (listed : Bool) :
    Inv { c with listed := listed, isOpen := false } := by
  obtain ⟨hreply, horder, sent, rest, k, ⟨hle, hcarries, hreplies, hnotices⟩, hturn⟩ := h
  refine ⟨hreply, horder, sent, rest, k, ⟨hle, hcarries, hreplies, hnotices⟩, .closed rfl ?_⟩
  cases hturn with
  | closed _ hrest => exact hrest
  | queue hopen flushed hcarries hbuffer _ =>
      obtain ⟨k', _, hk'⟩ := (hmeets hopen).1
      exact hcarries.rest_eq_nil hle (hbuffer.symm.trans hk')
  | notice hopen t₀ state n htask hbegun _ _ _ =>
      have hnot := (hmeets hopen).2 t₀
      rw [htask] at hnot
      exact absurd hbegun hnot

theorem Inv.closeSocket (h : Inv c) (hmeets : c.isOpen → c.AtBoundary ∧ c.NoneBegun) :
    Inv c.closeSocket := by
  rw [Connection.closeSocket]
  split
  · exact h.close hmeets false
  · exact h

omit [DecidableEq σ] in
theorem atBoundary_of_nil (h : c.sendBuffer = []) : c.AtBoundary :=
  ⟨c.queued.length, Nat.lt_succ_self _, by rw [h, List.drop_length, List.flatMap_nil]⟩

theorem Inv.leave (h : Inv c) (hold : ¬ (c.tasks t).Begun) : Inv (c.leave t) :=
  (h.setTask (fun _ => hold) (fun _ => id) rfl rfl).others _ _

omit [DecidableEq σ] in
/-- What a closed connection takes is lost, and to write nothing does nothing. -/
theorem undergo_eq {effect : Effect} (h : c.isOpen → effect.written = []) :
    c.undergo effect = if effect.closes then c.closeSocket else c := by
  have hsame : (if c.isOpen then { c with wire := c.wire ++ effect.written } else c) = c := by
    split
    · next hopen => rw [h hopen, List.append_nil]
    · rfl
  rw [Connection.undergo, hsame]

theorem ofThread_self (t : σ) (m : Message) (reply : Bool) :
    ofThread t reply (t, m) = (m.isReply == reply) := by
  rw [ofThread, decide_eq_true rfl, Bool.true_and]

theorem ofThread_of_ne {t' : σ} (h : t' ≠ t) (m : Message) (reply : Bool) :
    ofThread t' reply (t, m) = false := by
  rw [ofThread, decide_eq_false (Ne.symm h), Bool.false_and]

/-- What a thread newly asks for is what its task has still to do, or it is lost. -/
theorem Inv.ask {task : Task} {m : Message} (h : Inv c) (htask : c.tasks t = .idle)
    (hnew : ¬ task.Begun)
    (hreplies : (task.replies t).Sublist ([(t, m)].filter (ofThread t true)))
    (hnotices : (task.notices t).Sublist ([(t, m)].filter (ofThread t false))) :
    Inv ({ c with asked := c.asked ++ [(t, m)] }.setTask t task) := by
  have hold : ¬ (c.tasks t).Begun := by
    rw [htask]
    exact id
  have hlater (t' : σ) (reply : Bool) {l l' : List (σ × Message)}
      (hl : l.Sublist (c.asked.filter (ofThread t' reply)))
      (hl' : l'.Sublist ([(t, m)].filter (ofThread t' reply))) :
      (l ++ l').Sublist ((c.asked ++ [(t, m)]).filter (ofThread t' reply)) := by
    rw [List.filter_append]
    exact hl.append hl'
  refine ⟨h.isReply, fun t' => ?_, ?_⟩
  · by_cases ht : t' = t
    · subst ht
      rw [tasks_setTask_self]
      exact hlater t' true ((List.sublist_append_left _ _).trans (h.order t')) hreplies
    · rw [tasks_setTask_of_ne ht, ← List.append_nil (_ ++ _)]
      exact hlater t' true (h.order t') (List.nil_sublist _)
  · obtain ⟨sent, rest, k, hsent, hturn⟩ := h.sent
    refine ⟨sent, rest, k, ⟨hsent.le, hsent.carries, hsent.replies, fun t' => ?_⟩,
      (hturn.setTask (fun _ => hold) fun _ => hnew).congr rfl rfl rfl rfl⟩
    by_cases ht : t' = t
    · subst ht
      rw [tasks_setTask_self]
      exact hlater t' false ((List.sublist_append_left _ _).trans (hsent.notices t')) hnotices
    · rw [tasks_setTask_of_ne ht, ← List.append_nil (_ ++ _)]
      exact hlater t' false (hsent.notices t') (List.nil_sublist _)

/-- A reply that is asked for when there is no session is lost. -/
theorem Inv.unlisted (h : Inv c) (m : σ × Message) : Inv { c with asked := c.asked ++ [m] } := by
  have hlater (t : σ) (reply : Bool) :
      (c.asked.filter (ofThread t reply)).Sublist ((c.asked ++ [m]).filter (ofThread t reply)) :=
    (List.sublist_append_left _ _).filter _
  obtain ⟨hreply, horder, sent, rest, k, ⟨hle, hcarries, hreplies, hnotices⟩, hturn⟩ := h
  exact ⟨hreply, fun t => (horder t).trans (hlater t true), sent, rest, k,
    ⟨hle, hcarries, hreplies, fun t => (hnotices t).trans (hlater t false)⟩,
    hturn.congr rfl rfl rfl rfl⟩

/-- A reply comes to the end of the buffer, and the thread is left with nothing to append. -/
theorem Inv.append {body : Bytes} {close : Bool} {task : Task} (h : Inv c)
    (htask : c.tasks t = .found (some (body, close))) (hnew : ¬ task.Begun)
    (hreplies : task.replies t = []) (hnotices : task.notices t = []) :
    Inv ((c.append t (some (body, close))).setTask t task) := by
  have hold : ¬ (c.tasks t).Begun := by
    rw [htask]
    exact id
  have hreply (t' : σ) : ofThread t' true (t, .reply body) = decide (t = t') := by
    rw [ofThread, Message.isReply, beq_self_eq_true, Bool.and_true]
  refine ⟨fun m hm => ?_, fun t' => ?_, ?_⟩
  · rcases List.mem_append.1 hm with hm | hm
    · exact h.isReply m hm
    · rw [List.mem_singleton.1 hm]
      rfl
  · -- the reply was the next thing that the thread had to say, so its order is kept
    have horder := h.order t'
    by_cases ht : t' = t
    · subst ht
      rw [htask] at horder
      rw [tasks_setTask_self, hreplies, List.append_nil]
      show ((c.queued ++ [(t', Message.reply body)]).filter _).Sublist _
      rwa [List.filter_append, List.filter_cons_of_pos (by rw [hreply, decide_eq_true rfl])]
    · rw [tasks_setTask_of_ne ht]
      show ((c.queued ++ [(t, Message.reply body)]).filter _ ++ _).Sublist _
      rwa [List.filter_append, List.filter_cons_of_neg, List.filter_nil, List.append_nil]
      rw [hreply, decide_eq_false (Ne.symm ht)]
      exact Bool.false_ne_true
  · obtain ⟨sent, rest, k, hsent, hturn⟩ := h.sent
    -- what has been flushed is a part of the old queue; the rest of the buffer grows
    have htake : (c.queued ++ [(t, Message.reply body)]).take k = c.queued.take k :=
      List.take_append_of_le_length hsent.le
    have hdrop : (c.queued ++ [(t, Message.reply body)]).drop k =
        c.queued.drop k ++ [(t, .reply body)] := List.drop_append_of_le_length hsent.le
    have hbuffer (more : Bytes) (hmore : c.sendBuffer = more ++ (c.queued.drop k).flatMap enc) :
        c.sendBuffer ++ frame body =
          more ++ ((c.queued ++ [(t, Message.reply body)]).drop k).flatMap enc := by
      rw [hdrop, List.flatMap_append, List.flatMap_singleton, hmore, List.append_assoc]
      rfl
    refine ⟨sent, rest, k, ⟨?_, hsent.carries, hsent.replies.trans htake.symm, fun t' => ?_⟩, ?_⟩
    · exact hsent.le.trans (List.length_append ▸ Nat.le_add_right _ _)
    · by_cases ht : t' = t
      · subst ht
        rw [tasks_setTask_self, hnotices, List.append_nil]
        exact (List.sublist_append_left _ _).trans (hsent.notices t')
      · rw [tasks_setTask_of_ne ht]
        exact hsent.notices t'
    · refine Turn.setTask ?_ (fun _ => hold) fun _ => hnew
      cases hturn with
      | closed hopen hrest => exact .closed hopen hrest
      | queue hopen flushed hcarries hqueue hnone =>
          exact .queue hopen flushed (htake ▸ hcarries) (hbuffer rest hqueue) hnone
      | notice hopen t₀ state n htask₀ hbegun hrest hqueue hothers =>
          exact .notice hopen t₀ state n htask₀ hbegun hrest (hbuffer [] hqueue) hothers

/-- The session of a thread that has taken the mutex. -/
theorem Inv.enter {reply : Option (Bytes × Bool)} (h : Inv c)
    (htask : c.tasks t = .found reply) : Inv (c.enter t reply).1 := by
  have hold : ¬ (c.tasks t).Begun := by
    rw [htask]
    exact id
  rw [Connection.enter]
  cases reply with
  | none =>
      split
      · exact h.leave hold
      · exact (h.setTask (fun _ => hold) (fun _ => id) rfl rfl).others _ _
  | some reply =>
      obtain ⟨body, close⟩ := reply
      split
      · next hnil => exact absurd (List.append_eq_nil_iff.1 hnil).2 (frame_ne_nil body)
      · exact (h.append htask id rfl rfl).others _ _

/-- The buffer is flushed by some bytes. -/
theorem Inv.flushed (h : Inv c) (hopen : c.isOpen) (hnone : c.NoneBegun) {n : Nat}
    (hn : n ≤ c.sendBuffer.length) :
    Inv { c with wire := c.wire ++ c.sendBuffer.take n, sendBuffer := c.sendBuffer.drop n } := by
  obtain ⟨sent, rest, k, hsent, hturn⟩ := h.sent
  cases hturn with
  | closed hclosed _ => exact absurd (hopen.symm.trans hclosed) Bool.noConfusion
  | notice _ t₀ state m htask hbegun _ _ _ =>
      have hnot := hnone t₀
      rw [htask] at hnot
      exact absurd hbegun hnot
  | queue _ flushed hcarries hbuffer _ =>
      rw [hbuffer] at hn
      obtain ⟨j, rest', hj, hdrop, hmore⟩ := Carries.take enc_ne_nil (c.queued.drop k) rest n hn
      rw [← hbuffer] at hdrop hmore
      rw [List.drop_drop] at hdrop
      rw [List.length_drop] at hj
      have htake : c.queued.take (k + j) = c.queued.take k ++ (c.queued.drop k).take j := List.take_add
      have hreply : ∀ m ∈ (c.queued.drop k).take j, m.2.isReply = true := fun m hm =>
        h.isReply m (List.mem_of_mem_drop (List.mem_of_mem_take hm))
      refine ⟨h.isReply, h.order, sent ++ (c.queued.drop k).take j, rest', k + j,
        ⟨?_, hmore _ _ hsent.carries, ?_, fun t => ?_⟩, ?_⟩
      · have hle := hsent.le
        show k + j ≤ c.queued.length
        omega
      · rw [List.filter_append, hsent.replies, List.filter_eq_self.2 hreply]
        exact htake.symm
      · have hnone' : ((c.queued.drop k).take j).filter (ofThread t false) = [] :=
          List.filter_eq_nil_iff.2 fun m hm => by
            rw [ofThread, hreply m hm, show (true == false) = false from rfl, Bool.and_false]
            exact Bool.false_ne_true
        rw [List.filter_append, hnone', List.append_nil]
        exact hsent.notices t
      · exact .queue hopen _ (htake ▸ hmore _ _ hcarries) hdrop hnone

/-- What a session of a closed connection still had to send goes elsewhere. -/
theorem Inv.drained (h : Inv c) (hclosed : c.isOpen = false) (sendBuffer : Bytes) :
    Inv { c with sendBuffer := sendBuffer } := by
  obtain ⟨hreply, horder, sent, rest, k, ⟨hle, hcarries, hreplies, hnotices⟩, hturn⟩ := h
  refine ⟨hreply, horder, sent, rest, k, ⟨hle, hcarries, hreplies, hnotices⟩, .closed hclosed ?_⟩
  cases hturn with
  | closed _ hrest => exact hrest
  | queue hopen _ _ _ _ | notice hopen _ _ _ _ _ _ _ _ =>
      exact absurd (hopen.symm.trans hclosed) Bool.noConfusion

/-- A part of a notification is written, the first one of it or a later one. The frames are then
those from before and this one. -/
theorem Inv.part {state : ConnectionState} {totalSent n : Nat} (h : Inv c) (hopen : c.isOpen)
    (htask : c.tasks t = .sending state totalSent) (hboundary : c.AtBoundary)
    (hothers : ∀ t', t' ≠ t → ¬ (c.tasks t').Begun) (hn : 0 < n)
    (hlen : totalSent + n ≤ (frame state.body).length) :
    ∃ sent k, k ≤ c.queued.length ∧ c.sendBuffer = (c.queued.drop k).flatMap enc ∧
      Carries enc (c.wire ++ ((frame state.body).drop totalSent).take n) sent
        ((frame state.body).drop (totalSent + n)) ∧
      sent.filter (fun m => m.2.isReply) = c.queued.take k ∧
      (sent.filter (ofThread t false)).Sublist (c.asked.filter (ofThread t false)) ∧
      ∀ t', t' ≠ t → (sent.filter (ofThread t' false) ++ (c.tasks t').notices t').Sublist
        (c.asked.filter (ofThread t' false)) := by
  obtain ⟨sent, rest, k, hsent, hturn⟩ := h.sent
  have hsplit : (frame state.body).drop totalSent =
      ((frame state.body).drop totalSent).take n ++ (frame state.body).drop (totalSent + n) := by
    rw [← List.drop_drop, List.take_append_drop]
  cases hturn with
  | closed hclosed _ => exact absurd (hopen.symm.trans hclosed) Bool.noConfusion
  | queue _ flushed hcarries hbuffer hnone =>
      -- nothing is missing of the last frame, and the notification begins
      obtain ⟨k', _, hk'⟩ := hboundary
      obtain rfl : rest = [] := hcarries.rest_eq_nil hsent.le (hbuffer.symm.trans hk')
      obtain rfl : totalSent = 0 := by
        have hnot := hnone t
        rw [htask] at hnot
        exact Nat.eq_zero_of_not_pos hnot
      refine ⟨sent ++ [(t, .notice state)], k, hsent.le, hbuffer, ?_, ?_, ?_, fun t' ht => ?_⟩
      · refine hsent.carries.begin hsplit fun hnil => ?_
        have hzero := congrArg List.length hnil
        rw [List.length_take, List.length_drop, List.length_nil] at hzero
        omega
      · rw [List.filter_append, hsent.replies]
        exact List.append_nil _
      · have hnotices := hsent.notices t
        rw [htask] at hnotices
        rwa [List.filter_append, List.filter_cons_of_pos (by rw [ofThread_self]; rfl)]
      · rw [List.filter_append, List.filter_cons_of_neg, List.filter_nil, List.append_nil]
        · exact hsent.notices t'
        · rw [ofThread_of_ne ht]
          exact Bool.false_ne_true
  | notice _ t₀ state₀ m htask₀ hbegun hrest hbuffer _ =>
      -- the notification that has begun is this one
      obtain rfl : t₀ = t := by
        by_contra hne
        have hnot := hothers t₀ hne
        rw [htask₀] at hnot
        exact hnot hbegun
      cases htask₀.symm.trans htask
      refine ⟨sent, k, hsent.le, hbuffer, ?_, hsent.replies,
        (List.sublist_append_left _ _).trans (hsent.notices t₀), fun t' _ => hsent.notices t'⟩
      rw [hrest, hsplit] at hsent
      exact hsent.carries.goOn

/-- After that part the thread goes on with its notification, or it has written all of it. -/
theorem Inv.sent_part {state : ConnectionState} {totalSent n : Nat} {wire : Bytes}
    {sent : List (σ × Message)} {k : Nat} (h : Inv c) (hopen : c.isOpen)
    (hothers : ∀ t', t' ≠ t → ¬ (c.tasks t').Begun) (hn : 0 < n) (hk : k ≤ c.queued.length)
    (hbuffer : c.sendBuffer = (c.queued.drop k).flatMap enc)
    (hcarries : Carries enc wire sent ((frame state.body).drop (totalSent + n)))
    (hreplies : sent.filter (fun m => m.2.isReply) = c.queued.take k)
    (hnotices : (sent.filter (ofThread t false)).Sublist (c.asked.filter (ofThread t false)))
    (hother : ∀ t', t' ≠ t → (sent.filter (ofThread t' false) ++ (c.tasks t').notices t').Sublist
      (c.asked.filter (ofThread t' false))) :
    Inv ({ c with wire := wire }.setTask t
      (if totalSent + n < (frame state.body).length then .sending state (totalSent + n)
        else .idle)) := by
  obtain ⟨m, rfl⟩ : ∃ m, n = m + 1 := ⟨n - 1, by omega⟩
  refine ⟨h.isReply, fun t' => ?_, sent, _, k, ⟨hk, hcarries, hreplies, fun t' => ?_⟩, ?_⟩
  · by_cases ht : t' = t
    · subst ht
      rw [tasks_setTask_self]
      refine List.Sublist.trans ?_ (h.order t')
      split <;> exact (List.append_nil _).symm ▸ List.sublist_append_left _ _
    · rw [tasks_setTask_of_ne ht]
      exact h.order t'
  · by_cases ht : t' = t
    · subst ht
      rw [tasks_setTask_self]
      split <;> exact (List.append_nil _).symm ▸ hnotices
    · rw [tasks_setTask_of_ne ht]
      exact hother t' ht
  · split
    · refine .notice hopen t state _ tasks_setTask_self (Nat.succ_pos _) rfl hbuffer fun t' ht => ?_
      rw [tasks_setTask_of_ne ht]
      exact hothers t' ht
    · next hall =>
        rw [List.drop_eq_nil_of_le (Nat.le_of_not_lt hall)]
        exact .queue hopen _ (Carries.whole enc_ne_nil _) hbuffer fun t' =>
          not_begun_setTask id (hothers t')

/-- The move writes bytes to the descriptor. -/
def Move.Takes : Move σ → Prop
  | .write _ (.took _) | .direct _ (.took _) _ => True
  | _ => False

/-- The move comes to the end of `flush_send_buffer` without a write. -/
def Move.Ends : Move σ → Prop
  | .lock _ | .write _ .nothing | .write _ .wouldBlock | .write _ .interrupted => True
  | _ => False

omit [DecidableEq σ] in
theorem some_pair {α β : Type*} {p : α × β} {a : α} {b : β} (h : some p = some (a, b)) :
    a = p.1 ∧ b = p.2 := by
  obtain rfl := Option.some.inj h
  exact ⟨rfl, rfl⟩

section Moves

variable {m : Move σ} {c' : Connection σ} {effect : Effect}

omit [DecidableEq σ] in
theorem Move.Ends.not_takes (h : m.Ends) : ¬ m.Takes := by
  intro htakes
  cases m with
  | lock t => exact htakes
  | write t result =>
      cases result with
      | took n => exact h
      | nothing | wouldBlock | interrupted | failed => exact htakes
  | direct t result polled => exact h

/-- What a thread does when it goes on, to its session and to the descriptor: into
`flush_send_buffer`; a part of the buffer is written, the last one or another; the end of the
loop, or the way out of it on an error; a part of a notification is written, it is tried again, or
it is over. -/
inductive Moved (c : Connection σ) : Move σ → Connection σ → Effect → Prop where
  | enter (t : σ) (reply : Option (Bytes × Bool)) (htask : c.tasks t = .found reply) :
      Moved c (.lock t) (c.enter t reply).1 (c.enter t reply).2
  | drain (t : σ) (n : Nat) (htask : c.tasks t = .flushing) (hlen : n ≤ c.sendBuffer.length)
      (hnil : c.sendBuffer.drop n = []) :
      Moved c (.write t (.took n)) ({ c with sendBuffer := c.sendBuffer.drop n }.leave t)
        { ({ c with sendBuffer := c.sendBuffer.drop n }.finish t).2 with
          written := c.sendBuffer.take n }
  | flush (t : σ) (n : Nat) (htask : c.tasks t = .flushing) (hlen : n ≤ c.sendBuffer.length) :
      Moved c (.write t (.took n)) { c with sendBuffer := c.sendBuffer.drop n }
        { written := c.sendBuffer.take n }
  | finish (t : σ) (result : SendResult) (htask : c.tasks t = .flushing)
      (hends : (Move.write t result).Ends) :
      Moved c (.write t result) (c.leave t) (c.finish t).2
  | fail (t : σ) (htask : c.tasks t = .flushing) : Moved c (.write t .failed) (c.leave t) {}
  | part (t : σ) (n : Nat) (polled : Bool) (state : ConnectionState) (totalSent : Nat)
      (htask : c.tasks t = .sending state totalSent) (hn : 0 < n)
      (hlen : totalSent + n ≤ (frame state.body).length) :
      Moved c (.direct t (.took n) polled)
        (c.setTask t (if totalSent + n < (frame state.body).length then
          .sending state (totalSent + n) else .idle))
        { written := ((frame state.body).drop totalSent).take n }
  | again (t : σ) (result : SendResult) (polled : Bool)
      (hresult : ¬ (Move.direct t result polled).Takes) : Moved c (.direct t result polled) c {}
  | stop (t : σ) (result : SendResult) (polled : Bool)
      (hresult : ¬ (Move.direct t result polled).Takes)
      (hwhole : c.Whole (.direct t result polled) → ¬ (c.tasks t).Begun) :
      Moved c (.direct t result polled) (c.setTask t .idle) {}

theorem moved_of_move (hmove : c.move m = some (c', effect)) : Moved c m c' effect := by
  cases m with
  | lock t =>
      rw [Connection.move] at hmove
      split at hmove
      · next reply htask _ =>
          obtain ⟨rfl, rfl⟩ := some_pair hmove
          exact .enter t reply htask
      · cases hmove
  | write t result =>
      rw [Connection.move] at hmove
      split at hmove
      · next htask =>
          cases result with
          | took n =>
              rw [Connection.flushRound] at hmove
              split at hmove
              · next hcan =>
                  dsimp only at hmove
                  split at hmove
                  · next hnil =>
                      obtain ⟨rfl, rfl⟩ := some_pair hmove
                      exact .drain t n htask hcan.2 hnil
                  · obtain ⟨rfl, rfl⟩ := some_pair hmove
                    exact .flush t n htask hcan.2
              · cases hmove
          | nothing | wouldBlock | interrupted =>
              obtain ⟨rfl, rfl⟩ := some_pair hmove
              exact .finish t _ htask trivial
          | failed =>
              obtain ⟨rfl, rfl⟩ := some_pair hmove
              exact .fail t htask
      · cases hmove
  | direct t result polled =>
      rw [Connection.move] at hmove
      split at hmove
      · next state totalSent htask =>
          cases result with
          | took n =>
              rw [Connection.sendRound, dataLen_body] at hmove
              split at hmove
              · next hcan =>
                  obtain ⟨rfl, rfl⟩ := some_pair hmove
                  exact .part t n polled state totalSent htask hcan.1 hcan.2
              · cases hmove
          | interrupted =>
              obtain ⟨rfl, rfl⟩ := some_pair hmove
              exact .again t _ polled id
          | wouldBlock =>
              obtain ⟨rfl, rfl⟩ := some_pair hmove
              cases polled with
              | true => exact .again t _ true id
              | false => exact .stop t _ false id id
          | nothing | failed =>
              obtain ⟨rfl, rfl⟩ := some_pair hmove
              exact .stop t _ polled id id
      · cases hmove

/-- **What a thread keeps of its session.** It goes on without a write to an open connection. -/
theorem Inv.moved_session (h : Inv c) (hsilent : c.isOpen → c.Whole m ∧ ¬ m.Takes)
    (hmoved : Moved c m c' effect) : Inv c' := by
  have hclosed (htakes : m.Takes) : c.isOpen = false :=
    Bool.eq_false_of_not_eq_true fun hopen => (hsilent hopen).2 htakes
  cases hmoved with
  | enter t reply htask => exact h.enter htask
  | drain t n htask => exact (h.drained (hclosed trivial) _).leave (by rw [htask]; exact id)
  | flush t n => exact h.drained (hclosed trivial) _
  | finish t result htask => exact h.leave (by rw [htask]; exact id)
  | fail t htask => exact h.leave (by rw [htask]; exact id)
  | part t n polled state totalSent htask hn =>
      obtain ⟨k, rfl⟩ : ∃ k, n = k + 1 := ⟨n - 1, by omega⟩
      have hnot (hopen : c.isOpen = true) : False := (hsilent hopen).2 trivial
      apply h.setTask (fun hopen => (hnot hopen).elim) (fun hopen => (hnot hopen).elim)
      · split <;> rfl
      · split <;> rfl
  | again => exact h
  | stop t result polled _ hwhole =>
      exact h.setTask (fun hopen => hwhole (hsilent hopen).1) (fun _ => id) rfl rfl

omit [DecidableEq σ] in
theorem not_closes (written : Bytes) : ({ written := written } : Effect).closes ≠ true :=
  Bool.false_ne_true

/-- **What a thread does to the descriptor** when it writes nothing: it has the connection closed
when the session is to end. -/
theorem moved_effect (hsilent : ¬ m.Takes) (hmoved : Moved c m c' effect) :
    effect.written = [] ∧
      (effect.closes → m.Ends ∧ c.Ending ∧ ∃ t, c' = c.leave t) := by
  cases hmoved with
  | enter t reply htask =>
      rw [Connection.enter]
      split
      · next hnil =>
          cases reply with
          | none => exact ⟨rfl, fun hcloses => ⟨trivial, of_decide_eq_true hcloses, t, rfl⟩⟩
          | some reply => exact absurd (List.append_eq_nil_iff.1 hnil).2 (frame_ne_nil reply.1)
      · exact ⟨rfl, fun hcloses => absurd hcloses (not_closes [])⟩
  | drain | flush | part => exact absurd trivial hsilent
  | finish t result _ hends =>
      exact ⟨rfl, fun hcloses => ⟨hends, of_decide_eq_true hcloses, t, rfl⟩⟩
  | fail | again | stop => exact ⟨rfl, fun hcloses => absurd hcloses (not_closes [])⟩

/-- A thread does not open or close a connection in its session. -/
theorem isOpen_moved (hmoved : Moved c m c' effect) : c'.isOpen = c.isOpen := by
  cases hmoved with
  | enter t reply =>
      rw [Connection.enter]
      cases reply <;> split <;> rfl
  | drain | flush | finish | fail | part | again | stop => rfl

/-- What is written to an open connection, which is then closed between two frames, if at all. -/
theorem Inv.undergo (hopen : c.isOpen = true) (h : Inv { c with wire := c.wire ++ effect.written })
    (hcloses : effect.closes → c.AtBoundary ∧ c.NoneBegun) : Inv (c.undergo effect) := by
  rw [Connection.undergo, if_pos hopen]
  split
  · next hclose => exact h.closeSocket fun _ => hcloses hclose
  · exact h

/-- Nothing is written to the connection. -/
theorem Inv.undergo_silent (h : Inv c) (hwritten : c.isOpen → effect.written = [])
    (hcloses : c.isOpen → effect.closes → c.AtBoundary ∧ c.NoneBegun) :
    Inv (c.undergo effect) := by
  rw [undergo_eq hwritten]
  split
  · next hclose => exact h.closeSocket fun hopen => hcloses hopen hclose
  · exact h

/-- A connection that is to be closed holds nothing more, so it is closed between two frames. -/
theorem between_leave (hnil : c.sendBuffer = []) (hnone : c.NoneBegun) (t : σ) :
    (c.leave t).AtBoundary ∧ (c.leave t).NoneBegun :=
  ⟨atBoundary_of_nil (c := c.leave t) hnil, fun t' => not_begun_setTask id fun _ => hnone t'⟩

/-- A thread writes to its open connection. -/
theorem Inv.moved_takes (h : Inv c) (hopen : c.isOpen = true) (hwhole : c.Whole m)
    (htakes : m.Takes) (hmoved : Moved c m c' effect) : Inv (c'.undergo effect) := by
  cases hmoved with
  | drain t n htask hlen hnil =>
      have hold : ¬ (c.tasks t).Begun := by
        rw [htask]
        exact id
      exact Inv.undergo hopen ((h.flushed hopen hwhole hlen).leave hold) fun _ =>
        between_leave (c := { c with sendBuffer := c.sendBuffer.drop n }) hnil hwhole t
  | flush t n _ hlen =>
      exact Inv.undergo hopen (h.flushed hopen hwhole hlen) fun hcloses =>
        absurd hcloses (not_closes _)
  | part t n polled state totalSent htask hn hlen =>
      obtain ⟨hboundary, hothers⟩ := hwhole
      obtain ⟨sent, k, hk, hbuffer, hcarries, hreplies, hnotices, hother⟩ :=
        h.part hopen htask hboundary hothers hn hlen
      exact Inv.undergo hopen
        (h.sent_part hopen hothers hn hk hbuffer hcarries hreplies hnotices hother) fun hcloses =>
          absurd hcloses (not_closes _)
  | enter | fail => exact htakes.elim
  | finish _ _ _ hends => exact absurd htakes hends.not_takes
  | again _ _ _ hresult | stop _ _ _ hresult => exact absurd htakes hresult

omit [DecidableEq σ] in
/-- Where a session ends, no notification has begun. -/
theorem noneBegun_of_whole (hwhole : c.Whole m) (hends : m.Ends) (hend : c.Ending) :
    c.NoneBegun := by
  cases m with
  | lock t => exact hwhole hend
  | write t result =>
      cases result with
      | nothing | wouldBlock | interrupted => exact hwhole hend
      | took _ | failed => exact hends.elim
  | direct t result polled => exact hends.elim

omit [DecidableEq σ] in
/-- Where the session of an earlier connection ends, the present one is between two frames. -/
theorem between_of_apart {present : Connection σ} (hapart : present.Apart c m) (hends : m.Ends)
    (hend : c.Ending) : present.AtBoundary ∧ present.NoneBegun := by
  cases m with
  | lock t => exact hapart hend
  | write t result =>
      cases result with
      | nothing | wouldBlock | interrupted => exact hapart hend
      | took _ | failed => exact hends.elim
  | direct t result polled => exact hends.elim

/-- **A thread goes on for the present connection.** -/
theorem Inv.move (h : Inv c) (hwhole : c.isOpen → c.Whole m)
    (hmove : c.move m = some (c', effect)) : Inv (c'.undergo effect) := by
  have hmoved := moved_of_move hmove
  by_cases htakes : c.isOpen ∧ m.Takes
  · exact h.moved_takes htakes.1 (hwhole htakes.1) htakes.2 hmoved
  · have hsilent (hopen : c.isOpen = true) : ¬ m.Takes := fun hm => htakes ⟨hopen, hm⟩
    have hsame := isOpen_moved hmoved
    apply (h.moved_session (fun hopen => ⟨hwhole hopen, hsilent hopen⟩) hmoved).undergo_silent
    · exact fun hopen => (moved_effect (hsilent (hsame ▸ hopen)) hmoved).1
    · intro hopen hclose
      rw [hsame] at hopen
      obtain ⟨hends, hend, t, rfl⟩ := (moved_effect (hsilent hopen) hmoved).2 hclose
      exact between_leave hend.1 (noneBegun_of_whole (hwhole hopen) hends hend) t

end Moves

variable {d d' : Descriptor σ}

/-- The connections before the last one are closed. -/
structure AllInv (d : Descriptor σ) : Prop where
  present : Inv d.present
  past : ∀ c ∈ d.past, Inv c ∧ c.isOpen = false

/-- **A thread goes on for an earlier connection**, and leaves the present one whole. -/
theorem AllInv.move_past {i : Nat} {m : Move σ} {c c' : Connection σ} {effect : Effect}
    (h : AllInv d) (hc : d.past[i]? = some c)
    (hapart : d.present.isOpen → d.present.Apart c m) (hmove : c.move m = some (c', effect)) :
    AllInv ⟨d.past.set i c', d.present.undergo effect⟩ := by
  have hmoved := moved_of_move hmove
  obtain ⟨hinv, hclosed⟩ := h.past c (List.mem_of_getElem? hc)
  have hsilent (hopen : d.present.isOpen = true) : ¬ m.Takes := by
    have hmeets := hapart hopen
    intro htakes
    cases m with
    | lock t => exact htakes
    | write t result | direct t result _ =>
        cases result with
        | took n => exact hmeets
        | nothing | wouldBlock | interrupted | failed => exact htakes
  constructor
  · apply h.present.undergo_silent
    · exact fun hopen => (moved_effect (hsilent hopen) hmoved).1
    · intro hopen hcloses
      obtain ⟨hends, hend, -⟩ := (moved_effect (hsilent hopen) hmoved).2 hcloses
      exact between_of_apart (hapart hopen) hends hend
  · intro other hother
    rcases List.mem_or_eq_of_mem_set hother with hold | rfl
    · exact h.past other hold
    · refine ⟨hinv.moved_session (fun hopen => ?_) hmoved, (isOpen_moved hmoved).trans hclosed⟩
      exact absurd (hopen.symm.trans hclosed) Bool.noConfusion

theorem AllInv.step {act : Action σ} (h : AllInv d) (hwhole : Whole d act)
    (hstep : step d act = some d') : AllInv d' := by
  cases act with
  | accept =>
      rw [Sending.step] at hstep
      split at hstep
      · cases hstep
      · next hclosed =>
          obtain rfl := Option.some.inj hstep
          refine ⟨inv_start, fun c hc => ?_⟩
          rcases List.mem_append.1 hc with hc | hc
          · exact h.past c hc
          · obtain rfl := List.mem_singleton.1 hc
            exact ⟨h.present, Bool.eq_false_of_not_eq_true hclosed⟩
  | assign =>
      rw [Sending.step] at hstep
      split at hstep
      · obtain rfl := Option.some.inj hstep
        exact ⟨h.present.others true d.present.writeMutex, h.past⟩
      · cases hstep
  | send t body close =>
      rw [Sending.step] at hstep
      split at hstep
      · next hidle =>
          obtain rfl := Option.some.inj hstep
          refine ⟨?_, h.past⟩
          dsimp only
          split
          · refine h.present.ask hidle.1 id ?_ (List.nil_sublist _)
            rw [List.filter_cons_of_pos (by rw [ofThread_self]; rfl)]
            exact List.Sublist.refl _
          · exact h.present.unlisted _
      · cases hstep
  | writable t =>
      rw [Sending.step] at hstep
      split at hstep
      · next hcan =>
          obtain rfl := Option.some.inj hstep
          refine ⟨h.present.setTask (fun _ => ?_) (fun _ => id) rfl rfl, h.past⟩
          rw [hcan.1.1]
          exact id
      · cases hstep
  | notify t state =>
      rw [Sending.step] at hstep
      split at hstep
      · next hidle =>
          obtain rfl := Option.some.inj hstep
          refine ⟨h.present.ask hidle.1 (Nat.lt_irrefl 0) (List.nil_sublist _) ?_, h.past⟩
          rw [List.filter_cons_of_pos (by rw [ofThread_self]; rfl)]
          exact List.Sublist.refl _
      · cases hstep
  | close =>
      rw [Sending.step] at hstep
      split at hstep
      · obtain rfl := Option.some.inj hstep
        exact ⟨h.present.closeSocket fun _ => hwhole, h.past⟩
      · cases hstep
  | drop =>
      rw [Sending.step] at hstep
      split at hstep
      · obtain rfl := Option.some.inj hstep
        exact ⟨h.present.close (fun _ => hwhole) d.present.listed, h.past⟩
      · cases hstep
  | present m =>
      obtain ⟨⟨c, effect⟩, hmove, hsome⟩ := Option.bind_eq_some_iff.1 hstep
      obtain rfl := Option.some.inj hsome
      exact ⟨h.present.move hwhole hmove, h.past⟩
  | past i m =>
      obtain ⟨c, hc, hrest⟩ := Option.bind_eq_some_iff.1 hstep
      obtain ⟨⟨c', effect⟩, hmove, hsome⟩ := Option.bind_eq_some_iff.1 hrest
      obtain rfl := Option.some.inj hsome
      exact h.move_past hc (fun hopen => hwhole hopen c hc) hmove

/-- **Whole frames on the wire.** In every run whose steps cut no frame, the clients of all
connections that have had the descriptor have received whole frames in every state. -/
theorem receivesWhole_of_whole (actions : List (Action σ)) (d : Descriptor σ)
    (hmeets : Machine.RunMeets step Whole {} actions)
    (hrun : Machine.run step {} actions = some d) :
    ∀ c ∈ d.past ++ [d.present], c.ReceivesWhole := by
  have hstart : AllInv ({} : Descriptor σ) := ⟨inv_start, fun c hc => by cases hc⟩
  have hinv : AllInv d := by
    apply Machine.run_induction (P := AllInv) _ actions {} d hstart hmeets hrun
    intro d a d' h hwhole hstep
    exact h.step hwhole hstep
  intro c hc
  rcases List.mem_append.1 hc with hc | hc
  · exact (hinv.past c hc).1.receivesWhole
  · obtain rfl := List.mem_singleton.1 hc
    exact hinv.present.receivesWhole

/-- The stream begins with a message that was asked for, or with a part of one. -/
theorem Connection.ReceivesWhole.begins (h : c.ReceivesWhole) :
    c.wire = [] ∨ ∃ m ∈ c.asked, enc m <+: c.wire ∨ c.wire <+: enc m := by
  obtain ⟨sent, rest, hcarries, -, horder⟩ := h
  cases sent with
  | nil => exact .inl hcarries.of_nil.1
  | cons m sent =>
      have hm : m ∈ c.asked := by
        have hfirst : m ∈ (m :: sent).filter (ofThread m.1 m.2.isReply) :=
          List.mem_filter.2 ⟨List.mem_cons_self, by rw [ofThread_self, beq_self_eq_true]⟩
        exact (List.mem_filter.1 ((horder m.1 m.2.isReply).subset hfirst)).1
      refine .inr ⟨m, hm, ?_⟩
      have heq : enc m <+: c.wire ++ rest := by
        rw [hcarries.eq, List.flatMap_cons]
        exact List.prefix_append _ _
      exact List.prefix_or_prefix_of_prefix heq (List.prefix_append _ _)

end Invariant

section Runs

instance {σ : Type*} [Fintype σ] (c : Connection σ) : Decidable c.NoneBegun :=
  inferInstanceAs (Decidable (∀ t, ¬ (c.tasks t).Begun))

instance {σ : Type*} [DecidableEq σ] (c : Connection σ) : Decidable c.AtBoundary :=
  inferInstanceAs (Decidable (∃ k, k < c.queued.length + 1 ∧
    c.sendBuffer = (c.queued.drop k).flatMap enc))

instance {σ : Type*} [Fintype σ] [DecidableEq σ] (c : Connection σ) : DecidablePred c.Whole
  | .lock _ => inferInstanceAs (Decidable (_ → _))
  | .write _ (.took _) => inferInstanceAs (Decidable c.NoneBegun)
  | .write _ .failed => isTrue trivial
  | .write _ .nothing | .write _ .wouldBlock | .write _ .interrupted =>
      inferInstanceAs (Decidable (_ → _))
  | .direct t (.took _) _ =>
      inferInstanceAs (Decidable (c.AtBoundary ∧ ∀ t', t' ≠ t → ¬ (c.tasks t').Begun))
  | .direct _ .interrupted _ | .direct _ .wouldBlock true => isTrue trivial
  | .direct _ .wouldBlock false | .direct _ .nothing _ | .direct _ .failed _ =>
      inferInstanceAs (Decidable (¬ _))

instance {σ : Type*} [Fintype σ] [DecidableEq σ] (present c : Connection σ) :
    DecidablePred (present.Apart c)
  | .lock _ | .write _ .nothing | .write _ .wouldBlock | .write _ .interrupted =>
      inferInstanceAs (Decidable (_ → _ ∧ _))
  | .write _ (.took _) | .direct _ (.took _) _ => isFalse id
  | .write _ .failed | .direct _ .interrupted _ | .direct _ .wouldBlock _ | .direct _ .nothing _
  | .direct _ .failed _ => isTrue trivial

instance {σ : Type*} [Fintype σ] [DecidableEq σ] (d : Descriptor σ) : DecidablePred (Whole d)
  | .close | .drop => inferInstanceAs (Decidable (_ ∧ _))
  | .present _ => inferInstanceAs (Decidable (_ → _))
  | .past i m => inferInstanceAs (Decidable (_ → ∀ c ∈ d.past[i]?, d.present.Apart c m))
  | .accept | .assign | .send .. | .writable _ | .notify .. => isTrue trivial

/-- A reply that the socket takes in two parts, and a notification behind it. A thread has found
the session for another reply when the connection is closed, and fails to send it when the number
is another connection's. -/
def behind : List (Action Bool) :=
  [.assign, .send true [1] false, .present (.lock true), .present (.write true (.took 9)),
    .present (.write true .wouldBlock), .writable true, .present (.lock true),
    .present (.write true (.took 1)), .notify false .ready, .present (.direct false (.took 27) false),
    .send true [2] false, .close, .accept, .assign, .past 0 (.lock true),
    .past 0 (.write true .failed), .notify false .ready,
    .present (.direct false (.took 20) false), .present (.direct false (.took 7) false)]

theorem receivesWhole_behind : ∃ d, Machine.run step {} behind = some d ∧
    d.past.length = 1 ∧ ∀ c ∈ d.past ++ [d.present], c.ReceivesWhole :=
  ⟨_, rfl, rfl, receivesWhole_of_whole behind _ (by decide) rfl⟩

/-- The notification comes when the header of the reply has been written. -/
def overtaken : List (Action Bool) :=
  [.assign, .send true [1] false, .present (.lock true), .present (.write true (.took 9)),
    .present (.write true .wouldBlock), .notify false .ready,
    .present (.direct false (.took 27) false)]

theorem not_receivesWhole_overtaken : ¬ ∀ (actions : List (Action Bool)) d,
    Machine.run step {} actions = some d → ∀ c ∈ d.past ++ [d.present], c.ReceivesWhole := by
  intro h
  have hbegins := (h overtaken _ rfl _ (List.mem_append_right _ List.mem_cons_self)).begins
  revert hbegins
  decide

end Runs

end EyaKV.Network.Sending
