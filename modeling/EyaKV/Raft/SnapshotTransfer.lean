import Mathlib.Logic.Relation
import EyaKV.Raft.Messages
import EyaKV.Raft.Node

/-!
# The transfer of a snapshot

A leader sends its snapshot in chunks, one after each acknowledgement, and a follower collects
the chunks in a file. The follower sends its acknowledgements on the socket of `follower_client_`,
but by `TCPServer::send`, which looks for a session of that socket. Only accepted sockets have
one, so the acknowledgements are dropped, and the exchange is over after one chunk, whatever the
snapshot and the size of the chunks (`ends_begin`). No transfer ever succeeds
(`transfersAll_iff`).

It would not do to send them. The follower acknowledges the offset at which a chunk begins, and
the leader compares it with its own, which it has already moved to the end of the chunk: an answer
to a chunk with something in it is taken for a mismatch (`handleSnapshotResponse_sender`). Besides,
a follower that still has the file of an earlier transfer skips the first chunk, as if it had it
already (`handleInstallSnapshot_skip`).

The writes to the file succeed. Each transfer is begun by `trigger_log_sync`, in any state that
the leader has got into by then.
-/

set_option autoImplicit false

namespace EyaKV.Raft.Snapshot

open EyaKV.Store EyaKV.Raft.Protocol

/-- `SnapshotTransferState`, with the contents of the file that it reads. -/
structure TransferState where
  offset : UInt64 := 0
  isSending : Bool := false
  file : Bytes := []
  lastIncludedIndex : Nat := 0
  lastIncludedTerm : Nat := 0

/-- A leader with its entry of `snapshot_state_` for the connection. -/
structure Leader where
  node : Node
  snapshotState : Option TransferState := none

/-- A follower with its temporary file, the socket of `follower_client_` and the sockets of
`all_sessions_`, which are those that its server has accepted. Both are open, so their numbers
differ. The last field is not in the code: the contents of the file at each call of
`restore_from_checkpoint`. -/
structure Follower where
  node : Node
  temp : Option Bytes := none
  clientSocket : Conn
  allSessions : List Conn := []
  connected : clientSocket ∉ allSessions
  restored : List Bytes := []

section Sending

/-- The index and the term of a snapshot that is taken now. A term that the log does not have
any more is replaced by the current one. -/
def snapshotInfo (n : Node) : Nat × Nat :=
  let index := n.state.lastApplied
  let term := n.logArray.getTerm index
  (index, if term = 0 ∧ 0 < index then n.state.currentTerm else term)

/-- The state after `create_checkpoint`. -/
def openSnapshot (n : Node) (snapshot : Bytes) : TransferState where
  offset := 0
  isSending := true
  file := snapshot
  lastIncludedIndex := (snapshotInfo n).1
  lastIncludedTerm := (snapshotInfo n).2

/-- `send_snapshot_chunk`, with the snapshot that `create_checkpoint` makes if it is called. -/
def sendSnapshotChunk (chunkSize : UInt64) (checkpoint : Option Bytes) (l : Leader) :
    Leader × Option SnapshotInstallData :=
  let state := l.snapshotState.getD {}
  let opened :=
    if state.isSending then some state else checkpoint.map (openSnapshot l.node)
  match opened with
  | none => ({ l with snapshotState := some state }, none)
  | some state =>
      let chunk := (state.file.drop state.offset.toNat).take chunkSize.toNat
      -- a file of whole chunks takes one more, which is empty
      let done := decide (chunk.length < chunkSize.toNat)
      ({ l with snapshotState := some { state with
          offset := state.offset + .ofNat chunk.length
          isSending := !done } },
        some ⟨chunk, state.offset.toUInt32, done, .ofNat state.lastIncludedIndex,
          .ofNat state.lastIncludedTerm⟩)

/-- `trigger_log_sync` for a follower whose next entry is not in the log. -/
def triggerLogSync (chunkSize : UInt64) (checkpoint : Option Bytes) (l : Leader) :
    Leader × Option SnapshotInstallData :=
  sendSnapshotChunk chunkSize checkpoint { l with snapshotState := some {} }

/-- `handle_snapshot_response` on a connection. -/
def handleSnapshotResponse (chunkSize : UInt64) (checkpoint : Option Bytes) (conn : Conn)
    (resp : SnapshotInstallResponseData) (l : Leader) : Leader × Option SnapshotInstallData :=
  match l.snapshotState with
  | none => (l, none)
  | some state =>
      -- the offset of the response is where a chunk begins, that of the state where it ends
      if resp.success ∧ resp.offset.toUInt64 = state.offset then
        if state.isSending then sendSnapshotChunk chunkSize checkpoint l
        else
          ({ node := { l.node with
              matchIndex := l.node.matchIndex.insert conn state.lastIncludedIndex
              nextIndex := l.node.nextIndex.insert conn (state.lastIncludedIndex + 1) } }, none)
      else (l, none)

end Sending

section Receiving

/-- `restore_from_checkpoint`, by the log whose commands the restored state machine has
executed, and the rest of `handle_install_snapshot`. -/
def Follower.restore (restoreFromCheckpoint : Bytes → Option (List LogEntry)) (index : Nat)
    (file : Bytes) (f : Follower) : Follower :=
  { f with
    restored := f.restored ++ [file]
    node := match restoreFromCheckpoint file with
      | some content => f.node.installSnapshot index content
      | none => f.node }

/-- `TCPServer::send` by `async_send`: what is sent, and on which socket. -/
def Follower.send {α : Type*} (f : Follower) (body : α) (socket : Conn) : List (Conn × α) :=
  if socket ∈ f.allSessions then [(socket, body)] else []

/-- `handle_install_snapshot`. The stream is still open when the file is restored: `buffered` says
how many bytes of a chunk `fwrite` leaves in it until then. -/
def handleInstallSnapshot (restoreFromCheckpoint : Bytes → Option (List LogEntry))
    (buffered : Bytes → Nat) (data : SnapshotInstallData) (f : Follower) :
    Follower × List (Conn × SnapshotInstallResponseData) :=
  let response := f.send ⟨true, data.offset⟩ f.clientSocket
  -- the file may be that of an earlier transfer: nothing removes it
  if data.offset.toNat < (f.temp.getD []).length then (f, response)
  else
    let before := if data.offset = 0 then [] else f.temp.getD []
    let written := data.snapshotData.length - buffered data.snapshotData
    let f := { f with temp := some (before ++ data.snapshotData) }
    (if data.done then
      f.restore restoreFromCheckpoint data.lastIncludedIndex.toNat
        (before ++ data.snapshotData.take written)
    else f, response)

end Receiving

/-- The two nodes and the messages between them, in order. -/
structure System where
  leader : Leader
  follower : Follower
  toFollower : List SnapshotInstallData := []
  toLeader : List SnapshotInstallResponseData := []

section Exchange

variable (chunkSize : UInt64) (restoreFromCheckpoint : Bytes → Option (List LogEntry))
  (buffered : Bytes → Nat) (conn : Conn)

/-- The next message is delivered. The leader is at the other end of `follower_client_`. -/
def step (s : System) : Option System :=
  match s.toFollower, s.toLeader with
  | data :: rest, _ =>
      let (f, sent) := handleInstallSnapshot restoreFromCheckpoint buffered data s.follower
      let answers := (sent.filter fun m => m.1 = f.clientSocket).map Prod.snd
      some { s with follower := f, toFollower := rest, toLeader := s.toLeader ++ answers }
  | [], resp :: rest =>
      let (l, data) := handleSnapshotResponse chunkSize none conn resp s.leader
      some { s with leader := l, toFollower := data.toList, toLeader := rest }
  | [], [] => none

/-- The leader, in the state that it is in by now, begins to send a snapshot. -/
def begin (node : Node) (snapshot : Bytes) (s : System) : System :=
  let (l, data) := triggerLogSync chunkSize (some snapshot) { s.leader with node := node }
  { leader := l, follower := s.follower, toFollower := data.toList }

/-- The exchange of messages comes to an end. -/
def Ends (s s' : System) : Prop :=
  Relation.ReflTransGen
      (fun a b => step chunkSize restoreFromCheckpoint buffered conn a = some b) s s' ∧
    step chunkSize restoreFromCheckpoint buffered conn s' = none

/-- The transfer of a snapshot ends: the follower has restored it from a file with its bytes,
and the leader, which is done with it, has moved the follower's indices behind it. -/
structure Transferred (node : Node) (snapshot : Bytes) (s s' : System) : Prop where
  ends : Ends chunkSize restoreFromCheckpoint buffered conn (begin chunkSize node snapshot s) s'
  restored : s'.follower.restored = s.follower.restored ++ [snapshot]
  done : s'.leader.snapshotState = none
  matchIndex : s'.leader.node.matchIndex[conn]? = some (snapshotInfo node).1
  nextIndex : s'.leader.node.nextIndex[conn]? = some ((snapshotInfo node).1 + 1)

/-- Transfers one after the other, each of which succeeds. -/
def TransfersAll : List (Node × Bytes) → System → Prop
  | [], _ => True
  | (node, snapshot) :: later, s =>
      ∃ s', Transferred chunkSize restoreFromCheckpoint buffered conn node snapshot s s' ∧
        TransfersAll later s'

end Exchange

section Transfers

variable {chunkSize : UInt64} {restoreFromCheckpoint : Bytes → Option (List LogEntry)}
  {buffered : Bytes → Nat} {conn : Conn}

/-- There is one order of delivery, so there is one end. -/
theorem Ends.unique {s a b : System} (ha : Ends chunkSize restoreFromCheckpoint buffered conn s a)
    (hb : Ends chunkSize restoreFromCheckpoint buffered conn s b) : a = b := by
  have hdet : Relator.RightUnique fun a b : System =>
      step chunkSize restoreFromCheckpoint buffered conn a = some b :=
    fun s a b h h' => Option.some.inj (h.symm.trans h')
  rcases Relation.ReflTransGen.total_of_right_unique hdet ha.1 hb.1 with h | h
  · rcases h.cases_head with heq | ⟨c, hc, _⟩
    · exact heq
    · rw [ha.2] at hc
      cases hc
  · rcases h.cases_head with heq | ⟨c, hc, _⟩
    · exact heq.symm
    · rw [hb.2] at hc
      cases hc

/-- The first chunk of a snapshot. -/
def firstChunk (chunkSize : UInt64) (node : Node) (snapshot : Bytes) : SnapshotInstallData :=
  ⟨snapshot.take chunkSize.toNat, 0,
    decide ((snapshot.take chunkSize.toNat).length < chunkSize.toNat),
    .ofNat (snapshotInfo node).1, .ofNat (snapshotInfo node).2⟩

/-- The leader that has sent it. -/
def sender (chunkSize : UInt64) (node : Node) (snapshot : Bytes) : Leader where
  node := node
  snapshotState := some { openSnapshot node snapshot with
    offset := .ofNat (snapshot.take chunkSize.toNat).length
    isSending := !decide ((snapshot.take chunkSize.toNat).length < chunkSize.toNat) }

theorem begin_eq (node : Node) (snapshot : Bytes) (s : System) :
    begin chunkSize node snapshot s =
      { leader := sender chunkSize node snapshot, follower := s.follower,
        toFollower := [firstChunk chunkSize node snapshot] } := by
  have hzero (n : UInt64) : 0 + n = n := UInt64.zero_add n
  simp only [begin, triggerLogSync, sendSnapshotChunk, openSnapshot, Option.getD_some,
    Bool.false_eq_true, if_false, Option.map_some, hzero]
  rfl

/-- **No answer is sent**: the socket has no session. -/
theorem handleInstallSnapshot_snd (data : SnapshotInstallData) (f : Follower) :
    (handleInstallSnapshot restoreFromCheckpoint buffered data f).2 = [] := by
  have hdropped (body : SnapshotInstallResponseData) : f.send body f.clientSocket = [] :=
    if_neg f.connected
  simp only [handleInstallSnapshot, hdropped]
  split <;> rfl

/-- The leader's offset is that of the first chunk only when there is nothing in it. -/
theorem offset_eq_iff (snapshot : Bytes) (hpos : 0 < chunkSize) :
    (0 : UInt32).toUInt64 = .ofNat (snapshot.take chunkSize.toNat).length ↔ snapshot = [] := by
  have hpos : 0 < chunkSize.toNat := UInt64.lt_iff_toNat_lt.1 hpos
  have hlt : (snapshot.take chunkSize.toNat).length < 2 ^ 64 := by
    have hsize := chunkSize.toNat_lt
    rw [List.length_take]
    omega
  constructor
  · intro h
    have hnat := congrArg UInt64.toNat h
    rw [UInt64.toNat_ofNat_of_lt' hlt, List.length_take] at hnat
    change 0 = min chunkSize.toNat snapshot.length at hnat
    exact List.eq_nil_of_length_eq_zero (by omega)
  · rintro rfl
    rw [List.take_nil]
    rfl

/-- The leader that has finished a transfer. -/
def finished (conn : Conn) (node : Node) : Leader where
  node := { node with
    matchIndex := node.matchIndex.insert conn (snapshotInfo node).1
    nextIndex := node.nextIndex.insert conn ((snapshotInfo node).1 + 1) }

/-- The answer to the first chunk ends the transfer of an empty snapshot. Otherwise it is taken
for a mismatch. -/
theorem handleSnapshotResponse_sender (node : Node) (snapshot : Bytes) (hpos : 0 < chunkSize) :
    handleSnapshotResponse chunkSize none conn ⟨true, 0⟩ (sender chunkSize node snapshot) =
      (if snapshot = [] then finished conn node else sender chunkSize node snapshot, none) := by
  have hoffset := offset_eq_iff snapshot hpos
  by_cases hnil : snapshot = []
  · subst hnil
    have hlast : ([].take chunkSize.toNat : Bytes).length < chunkSize.toNat := by
      rw [List.take_nil]
      exact UInt64.lt_iff_toNat_lt.1 hpos
    rw [if_pos rfl, handleSnapshotResponse, sender]
    simp only [hoffset.2 rfl, hlast, and_self, if_true, decide_true, Bool.not_true,
      Bool.false_eq_true, if_false]
    rfl
  · rw [if_neg hnil, handleSnapshotResponse, sender]
    simp only [hoffset, hnil, and_false, if_false]

/-- A follower that has a file skips the first chunk. -/
theorem handleInstallSnapshot_skip (node : Node) (snapshot : Bytes) {f : Follower}
    (htemp : f.temp.getD [] ≠ []) :
    (handleInstallSnapshot restoreFromCheckpoint buffered
      (firstChunk chunkSize node snapshot) f).1 = f := by
  have hskip : (firstChunk chunkSize node snapshot).offset.toNat < (f.temp.getD []).length :=
    List.length_pos_iff.2 htemp
  rw [handleInstallSnapshot, if_pos hskip]

/-- **The exchange is over after one chunk.** The follower has handled it, and the leader waits
for the answer. -/
theorem ends_begin (node : Node) (snapshot : Bytes) (s : System) :
    Ends chunkSize restoreFromCheckpoint buffered conn (begin chunkSize node snapshot s)
      { leader := sender chunkSize node snapshot
        follower := (handleInstallSnapshot restoreFromCheckpoint buffered
          (firstChunk chunkSize node snapshot) s.follower).1 } := by
  refine ⟨?_, rfl⟩
  rw [begin_eq]
  apply Relation.ReflTransGen.single
  simp only [step, handleInstallSnapshot_snd]
  rfl

/-- **When transfers succeed**: never, unless there are none. -/
theorem transfersAll_iff (chunkSize : UInt64)
    (restoreFromCheckpoint : Bytes → Option (List LogEntry)) (buffered : Bytes → Nat) (conn : Conn)
    (transfers : List (Node × Bytes)) (s : System) :
    TransfersAll chunkSize restoreFromCheckpoint buffered conn transfers s ↔ transfers = [] := by
  cases transfers with
  | nil => exact ⟨fun _ => rfl, fun _ => trivial⟩
  | cons first later =>
      obtain ⟨node, snapshot⟩ := first
      constructor
      · rintro ⟨s', htransferred, -⟩
        have hdone := htransferred.done
        rw [htransferred.ends.unique (ends_begin node snapshot s)] at hdone
        cases hdone
      · intro hnone
        cases hnone

/-- A snapshot of one byte is not transferred to a follower without a file. -/
theorem not_transfersAll_byte : ¬ ∀ (chunkSize : UInt64)
    (restoreFromCheckpoint : Bytes → Option (List LogEntry)) (buffered : Bytes → Nat)
    (conn : Conn) (transfers : List (Node × Bytes)) (s : System), 0 < chunkSize →
      TransfersAll chunkSize restoreFromCheckpoint buffered conn transfers s := by
  intro h
  obtain ⟨s', htransferred, -⟩ := h 65536 (fun _ => none) (fun _ => 0) 5 [({}, [7])]
    ⟨⟨{}, none⟩, { node := {}, clientSocket := 4, connected := by decide }, [], []⟩ (by decide)
  have hdone := htransferred.done
  rw [htransferred.ends.unique (ends_begin _ _ _)] at hdone
  cases hdone

end Transfers

end EyaKV.Raft.Snapshot
