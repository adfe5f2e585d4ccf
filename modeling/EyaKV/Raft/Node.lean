import EyaKV.Raft.LogArray
import Mathlib.Data.Finset.Basic
import Mathlib.Data.Finset.Card
import Std.Data.ExtTreeMap

/-!
# A Raft node

The state of a node and its handlers. Each definition is what one holder of the
node's mutex does; a handler that releases the mutex half way is several definitions,
and the part that is still to come is a `Task`. `state` is the persistent state in
memory, `disk` the copy that the last `save_persistent_state` wrote. Two handlers save
without the mutex, and what they write is what they have serialized before. `committed` is
not part of the source: it remembers the longest log that has been committed, and no handler
reads it.

Terms and indices have 32 bits in the source and are natural numbers here. A term comes round
in `become_candidate`, the only place that counts it up; for an index the difference is 2³²
entries away. The entries leave out the command type, the timestamp and the request id: no
handler decides anything by them, and the cache of results by request has a model of its own.
A connection is a number that is never used again, where the
source uses the file descriptor of the socket: a closed descriptor is erased from every table.
-/

set_option autoImplicit false

namespace EyaKV.Raft

open EyaKV.Store

section Data

/-- `Address`. A node is known by the address at which it listens. -/
structure Address where
  host : Bytes
  port : Nat
  deriving DecidableEq, Repr

/-- The address that a node records when it votes for itself: `127.0.0.1` with its own
port. -/
def Address.loopback (a : Address) : Address :=
  ⟨[49, 50, 55, 46, 48, 46, 48, 46, 49], a.port⟩

/-- `RaftRole`. -/
inductive RaftRole where
  | leader | follower | candidate
  deriving DecidableEq, Repr

/-- A connection. -/
abbrev Conn := Nat

/-- `RaftNodeConfig`, the part that the handlers read, and `is_trust`. -/
structure RaftNodeConfig where
  logConfig : RaftLogConfig
  appendEntriesMaxBatch : Nat
  needMajorityConfirm : Bool
  isTrust : Address → Bool

/-- `append_entries_max_batch`, a `uint32_t`, as the `int` that `get_entries_from` takes. -/
def RaftNodeConfig.maxCount (cfg : RaftNodeConfig) : Int :=
  Int.bmod cfg.appendEntriesMaxBatch (2 ^ 32)

/-- `PersistentState`, with the leader and the nodes of `ClusterMetadata`. -/
structure PersistentState where
  currentTerm : Nat := 0
  votedFor : Option Address := none
  currentLeader : Option Address := none
  clusterNodes : Finset Address := ∅
  logSnapshotIndex : Nat := 0
  commitIndex : Nat := 0
  lastApplied : Nat := 0
  deriving DecidableEq

/-- A `save_persistent_state` without the mutex: there is none, it is still to come, or it has
serialized a state and not written it yet. -/
inductive Saving where
  | none
  | due
  | serialized (state : PersistentState)
  deriving DecidableEq

/-- A save that is still to come, if one is asked for. -/
def Saving.when (save : Bool) : Saving := if save then .due else .none

/-- How far the election thread is: waiting; woken by the timer while not leader; after
`become_candidate`; after it has read the last log entry for the vote request. -/
inductive ElectionPhase where
  | waiting
  | timedOut
  | candidacy
  | campaign (lastLogIndex lastLogTerm : Nat)
  deriving DecidableEq, Repr

/-- What is left to do of a handler that has released the mutex. -/
inductive Task where
  /-- Write commands after the role check; a term is read for each entry in turn. -/
  | submit (cmds : List Bytes) (entries : List LogEntry)
  /-- The end of `handle_append_entries` for a message on `origin`: save, and reply. -/
  | appendReply (origin : Conn) (save : Saving) (term : Nat) (success : Bool) (logIndex : Nat)
  /-- The end of `remove_node`: save. -/
  | save (save : Saving)
  /-- The end of `handle_join_cluster`. -/
  | admitNode (addr : Address) (conn : Conn)
  /-- `broadcast_new_master_with_check` after a won election. -/
  | broadcast (term : Nat)
  /-- `handle_new_master` after the comparison of the terms. -/
  | newMaster (leader : Address) (term : Nat) (newer : Bool)
  /-- A call of `become_follower`. -/
  | follow (leader : Address) (term : Nat) (commitIndex : Nat)
  deriving DecidableEq

/-- The pending connection of `become_follower`. -/
structure Joining where
  conn : Conn
  leader : Address
  term : Nat
  commitIndex : Nat
  deriving DecidableEq, Repr

/-- A table of indices by connection. -/
abbrev IndexTable := Std.ExtTreeMap Conn Nat compare

/-- The state of a node. -/
structure Node where
  state : PersistentState := {}
  disk : PersistentState := {}
  role : RaftRole := .leader
  grantedVotes : Nat := 0
  election : ElectionPhase := .waiting
  logArray : RaftLogArray := {}
  committed : List LogEntry := []
  nextIndex : IndexTable := ∅
  matchIndex : IndexTable := ∅
  followerSockets : Finset Conn := ∅
  followerAddressMap : Address → Option Conn := fun _ => none
  followerClient : Option Conn := none
  joining : Option Joining := none
  tasks : List Task := []

end Data

namespace Node

variable (cfg : RaftNodeConfig) (n : Node)

section Basics

/-- `save_persistent_state`. -/
def savePersistentState : Node := { n with disk := n.state }

/-- `to_follower`. -/
def toFollower : Node := { n with role := .follower }

/-- `to_candidate`: not from the role of a leader. -/
def toCandidate : Node := if n.role = .leader then n else { n with role := .candidate }

/-- `to_leader`. -/
def toLeader : Node := { n with role := .leader, followerClient := none }

/-- The node with one more task. -/
def addTask (t : Task) : Node := { n with tasks := t :: n.tasks }

/-- The write of a `save_persistent_state` that has serialized `saved`. -/
def writePersistentState (saved : PersistentState) : Node := { n with disk := saved }

/-- A higher term, in which the node has not voted. -/
def adoptTerm (term : Nat) : Node :=
  { n with state := { n.state with currentTerm := term, votedFor := none } }

/-- The log up to the commit index is committed. -/
def noteCommit : Node :=
  let log := n.logArray.full.take n.state.commitIndex
  { n with committed := if n.committed.length < log.length then log else n.committed }

/-- `become_leader`. -/
def becomeLeader : Node :=
  let n := n.toLeader
  savePersistentState { n with state := { n.state with clusterNodes := ∅ } }

end Basics

section Elections

/-- `become_candidate` of the node at `self`. The term is a `uint32_t`. -/
def becomeCandidate (self : Address) : Node :=
  let state := { n.state with
    currentTerm := (n.state.currentTerm + 1) % 2 ^ 32, votedFor := some self.loopback }
  let n := savePersistentState { n with state := state }
  toCandidate { n with grantedVotes := 1, election := .candidacy }

/-- The vote request data of `RaftMessage::request_vote`. -/
structure RequestVote where
  term : Nat
  lastLogIndex : Nat
  lastLogTerm : Nat
  deriving DecidableEq, Repr

/-- The freshness rule of `handle_request_vote`. -/
def logIsOk (msg : RequestVote) : Bool :=
  let info := n.logArray.getLastInfo
  info.2 < msg.lastLogTerm || (msg.lastLogTerm == info.2 && info.1 ≤ msg.lastLogIndex)

/-- `handle_request_vote` for a request from the peer address `peer`: the term and the
vote of the response. -/
def handleRequestVote (msg : RequestVote) (peer : Address) : Node × Nat × Bool :=
  if msg.term < n.state.currentTerm then (n, n.state.currentTerm, false)
  else
    let n := if n.state.currentTerm < msg.term then
        toFollower (savePersistentState (n.adoptTerm msg.term))
      else n
    -- the candidate is known by the address of its socket, not by that at which it listens
    let canVote := n.state.votedFor = none ∨ n.state.votedFor = some peer
    if canVote ∧ n.logIsOk msg = true then
      let state := { n.state with votedFor := some peer }
      (savePersistentState { n with state := state }, state.currentTerm, true)
    else (n, n.state.currentTerm, false)

/-- The votes that `handle_request_vote_response` asks for. -/
def majority : Nat := (n.state.clusterNodes.card + 1) / 2 + 1

/-- The end of `handle_request_vote_response` in an election that is won: the cluster
nodes that `become_leader` clears are put back, and a thread is to announce the leader. -/
def winElection : Node :=
  let n' := n.becomeLeader
  let n' := { n' with state := { n'.state with clusterNodes := n.state.clusterNodes } }
  n'.savePersistentState.addTask (.broadcast n.state.currentTerm)

/-- `handle_request_vote_response`. -/
def handleRequestVoteResponse (term : Nat) (voteGranted : Bool) : Node :=
  if term < n.state.currentTerm then n
  else if n.state.currentTerm < term then toFollower (savePersistentState (n.adoptTerm term))
  else if n.role ≠ .candidate then n
  else if voteGranted then
    let n := { n with grantedVotes := n.grantedVotes + 1 }
    -- the votes are counted, not the voters
    if n.majority ≤ n.grantedVotes then n.winElection else n
  else n

end Elections

section Replication

/-- The data of `RaftMessage::append_entries`, with or without entries. -/
structure AppendEntries where
  term : Nat
  prevLogIndex : Nat
  prevLogTerm : Nat
  entries : List LogEntry
  leaderCommit : Nat
  deriving DecidableEq, Repr

/-- `send_append_entries_nolock` on a connection. The table is read with `operator[]`,
which adds the connection with index 0 when it is missing. -/
def sendAppendEntries (conn : Conn) : Node × Option AppendEntries :=
  if n.role ≠ .leader then (n, none)
  else
    let nextIdx := (n.nextIndex[conn]?).getD 0
    let prevLogIndex := nextIdx - 1
    let entries := if nextIdx ≤ n.logArray.getLastIndex then
        n.logArray.getEntriesFrom nextIdx cfg.maxCount
      else []
    ({ n with nextIndex := n.nextIndex.insert conn nextIdx },
      some ⟨n.state.currentTerm, prevLogIndex, n.logArray.getTerm prevLogIndex, entries,
        n.state.commitIndex⟩)

/-- What came of the loop over the entries of a message: the log, the number of appended
entries, and whether every call of the log returned. -/
structure Appended where
  log : RaftLogArray
  appended : Nat
  returned : Bool

/-- The loop of `handle_append_entries`. -/
def appendLoop : RaftLogArray → Nat → List LogEntry → Appended
  | log, appended, [] => ⟨log, appended, true⟩
  | log, appended, e :: rest =>
      let append (log : RaftLogArray) :=
        match log.batchAppend cfg.logConfig [e] with
        | (log', true) => appendLoop log' (appended + 1) rest
        | (log', false) => ⟨log', appended, false⟩
      match log.get e.index with
      -- an index below the base is missing too, and its entry goes to the end of the log
      | none => append log
      | some existing =>
          if existing.term = e.term then appendLoop log appended rest
          else
            match log.truncateFrom cfg.logConfig e.index with
            | some log' => append log'
            | none => ⟨log, appended, false⟩

/-- What the loop does behind an append: it goes on, or returns. -/
def afterAppend (appended : Nat) (rest : List LogEntry) (result : RaftLogArray × Bool) : Appended :=
  match result with
  | (log', true) => appendLoop cfg log' (appended + 1) rest
  | (log', false) => ⟨log', appended, false⟩

theorem appendLoop_cons (log : RaftLogArray) (appended : Nat) (e : LogEntry)
    (rest : List LogEntry) : appendLoop cfg log appended (e :: rest) =
      match log.get e.index with
      | none => afterAppend cfg appended rest (log.batchAppend cfg.logConfig [e])
      | some existing =>
          if existing.term = e.term then appendLoop cfg log appended rest
          else
            match log.truncateFrom cfg.logConfig e.index with
            | some log' => afterAppend cfg appended rest (log'.batchAppend cfg.logConfig [e])
            | none => ⟨log, appended, false⟩ := by
  rw [appendLoop]
  rfl

/-- The check of the entry before the new ones. -/
def prevMatches (msg : AppendEntries) : Bool :=
  if msg.prevLogIndex = 0 then true
  else
    match n.logArray.get msg.prevLogIndex with
    | none => false
    | some e => e.term == msg.prevLogTerm

/-- The commit index of a follower whose log has just been checked. -/
def followerCommit (leaderCommit : Nat) : Nat :=
  max n.state.commitIndex (min leaderCommit n.logArray.getLastIndex)

/-- A follower of the term of a message. -/
def followTerm (term : Nat) : Node :=
  { n.toFollower with state := { n.state with currentTerm := term } }

/-- `handle_append_entries` after the loop over the entries: the commit index, and the reply
with the last index of the log. -/
def reportAppended (origin : Conn) (msg : AppendEntries) (raised : Bool) (appended : Nat) : Node :=
  let commit := n.followerCommit msg.leaderCommit
  let save := Saving.when (raised || decide (0 < appended) ||
    decide (n.state.commitIndex < commit))
  let n := noteCommit { n with state := { n.state with commitIndex := commit } }
  n.addTask (.appendReply origin save msg.term true n.logArray.getLastIndex)

/-- `handle_append_entries` up to the release of the mutex, for a message on `origin`. The
rest is a task, unless a call of the log did not return. -/
def handleAppendEntries (origin : Conn) (msg : AppendEntries) : Node :=
  if msg.term < n.state.currentTerm then
    n.addTask (.appendReply origin .none n.state.currentTerm false n.logArray.getLastIndex)
  else
    let raised := decide (n.state.currentTerm < msg.term)
    let n := n.followTerm msg.term
    if n.prevMatches msg then
      let r := appendLoop cfg n.logArray 0 msg.entries
      let n := { n with logArray := r.log }
      if r.returned then n.reportAppended origin msg raised r.appended else n
    else n.addTask (.appendReply origin (.when raised) msg.term false n.logArray.getLastIndex)

/-- `handle_append_entries_response` up to the release of the mutex. -/
def handleAppendEntriesResponse (conn : Conn) (success : Bool) (logIndex : Nat) : Node :=
  if success then
    let newMatch := max ((n.matchIndex[conn]?).getD 0) logIndex
    { n with
      matchIndex := n.matchIndex.insert conn newMatch
      nextIndex := n.nextIndex.insert conn (newMatch + 1) }
  else { n with nextIndex := n.nextIndex.insert conn ((n.nextIndex[conn]?).getD 0 - 1) }

end Replication

section Committing

/-- The entries that `apply_committed_entries_nolock` executes, with their indices. An
index that the log does not hold is passed over. -/
def committedEntries : List (Nat × Bytes) :=
  (List.range' (n.state.lastApplied + 1) (n.state.commitIndex - n.state.lastApplied)).filterMap
    fun i => (n.logArray.get i).map fun e => (i, e.cmd)

/-- `apply_committed_entries_nolock`. -/
def applyCommittedEntries : Node :=
  if n.state.commitIndex ≤ n.state.lastApplied then n
  else savePersistentState { n with state := { n.state with lastApplied := n.state.commitIndex } }

/-- The match indices that `try_commit_entries` sorts in descending order: its own last
index, and the table. -/
def matchIndexes : List Nat :=
  (n.logArray.getLastIndex :: n.matchIndex.values).mergeSort fun a b => b ≤ a

/-- The index in the middle. -/
def majorityIndex : Nat := (n.matchIndexes[n.matchIndexes.length / 2]?).getD 0

/-- The commit of `try_commit_entries`, when there is one. -/
def advanceCommit : Node :=
  if n.state.commitIndex < n.majorityIndex ∧
      n.logArray.getTerm n.majorityIndex = n.state.currentTerm then
    let n := noteCommit { n with state := { n.state with commitIndex := n.majorityIndex } }
    n.savePersistentState
  else n

/-- `try_commit_entries`: the node, and the executed entries. -/
def tryCommitEntries : Node × List (Nat × Bytes) :=
  if n.logArray.getLastIndex ≤ n.state.commitIndex then (n, [])
  else
    let n := n.advanceCommit
    (n.applyCommittedEntries, n.committedEntries)

/-- `commit_entries`, used when no majority has to confirm. -/
def commitEntries : Node × List (Nat × Bytes) :=
  if n.logArray.getLastIndex ≤ n.state.commitIndex then (n, [])
  else
    let n := noteCommit { n with
      state := { n.state with commitIndex := n.logArray.getLastIndex } }
    (savePersistentState { n with state := { n.state with lastApplied := n.state.commitIndex } },
      n.committedEntries)

end Committing

section Membership

/-- `close_socket`. -/
def closeSocket (conn : Conn) : Node :=
  { n with
    followerSockets := n.followerSockets.erase conn
    nextIndex := n.nextIndex.erase conn
    matchIndex := n.matchIndex.erase conn
    followerAddressMap := fun a =>
      if n.followerAddressMap a = some conn then none else n.followerAddressMap a }

/-- `remove_node`, up to the save. -/
def removeNode (node : Address) : Node :=
  if node ∉ n.state.clusterNodes then n
  else
    let state := { n.state with clusterNodes := n.state.clusterNodes.erase node }
    -- `operator[]` gives the descriptor 0 to an address that is not in the map
    let conn := (n.followerAddressMap node).getD 0
    addTask { n with
      state := state
      followerSockets := n.followerSockets.erase conn
      nextIndex := n.nextIndex.erase conn
      matchIndex := n.matchIndex.erase conn
      followerAddressMap := Function.update n.followerAddressMap node none } (.save .due)

/-- The reply to `become_follower`'s join request. -/
inductive JoinReply where
  | joined (term : Nat) (clusterNodes : Finset Address)
  | rejected (term : Nat)
  | redirect (leader : Option Address)
  deriving DecidableEq

/-- `handle_join_cluster` of a leader for a new connection, up to the task that admits
the node. -/
def handleJoinCluster (addr : Address) (conn : Conn) (lastIndex : Nat) : Node × JoinReply :=
  if n.role ≠ .leader then (n, .redirect n.state.currentLeader)
  else if !cfg.isTrust addr then (n, .rejected n.state.currentTerm)
  else
    let drop (t : IndexTable) : IndexTable :=
      match n.followerAddressMap addr with
      | none => t
      | some old => t.erase old
    let n := { n with
      nextIndex := (drop n.nextIndex).insert conn (lastIndex + 1)
      matchIndex := (drop n.matchIndex).insert conn 0 }
    (n.addTask (.admitNode addr conn), .joined n.state.currentTerm n.state.clusterNodes)

/-- The end of `handle_join_cluster`. -/
def admitNode (addr : Address) (conn : Conn) : Node :=
  let state := { n.state with clusterNodes := insert addr n.state.clusterNodes }
  savePersistentState { n with
    state := state
    followerSockets := insert conn n.followerSockets
    followerAddressMap := Function.update n.followerAddressMap addr (some conn) }

/-- `handle_join_cluster_response` of the node at `self`, a follower. -/
def handleJoinClusterResponse (self : Address) (term : Nat) (clusterNodes : Finset Address) :
    Node :=
  let nodes := (match n.state.currentLeader with
    | some leader => insert leader clusterNodes
    | none => clusterNodes).erase self
  -- the term of the reply is stored without a comparison, and the vote is kept
  savePersistentState { n with
    state := { n.state with currentTerm := term, clusterNodes := nodes } }

/-- What `become_follower` does with the reply to its request, before it handles the
message. -/
def follow (j : Joining) : Node :=
  let n := { n.toFollower with state := { n.state with
    currentLeader := some j.leader, clusterNodes := ∅, commitIndex := j.commitIndex } }
  let n := if n.state.currentTerm < j.term then n.adoptTerm j.term else n
  { savePersistentState n with
    nextIndex := ∅
    matchIndex := ∅
    followerSockets := ∅
    followerAddressMap := fun _ => none
    joining := none }

/-- `handle_new_node_join` and `handle_leave_node` for another node. -/
def setMember (self node : Address) (isMember : Bool) : Node :=
  if node = self then (if isMember then n else n.becomeLeader)
  else
    let nodes := if isMember then insert node n.state.clusterNodes
      else n.state.clusterNodes.erase node
    savePersistentState { n with state := { n.state with clusterNodes := nodes } }

/-- The reset of `SETMASTER` before it becomes a follower, with the log that is found when the
array is opened again. -/
def clearForMaster (found : RaftLogArray) : Node :=
  savePersistentState { n with
    logArray := found
    committed := []
    state := { n.state with
      lastApplied := 0, commitIndex := 0, currentTerm := 0, logSnapshotIndex := 0 } }

/-- `handle_new_master` after the comparison of the terms. -/
def storeNewMaster (leader : Address) (term : Nat) (newer : Bool) : Node :=
  let n := if newer then n.adoptTerm term else n
  savePersistentState { n with state := { n.state with currentLeader := some leader } }

end Membership

section Snapshots

/-- The end of `handle_install_snapshot`, when the last chunk has been restored: a state
machine that has applied the log `content`. -/
def installSnapshot (lastIncludedIndex : Nat) (content : List LogEntry) : Node :=
  let n := savePersistentState { n with state := { n.state with
    logSnapshotIndex := lastIncludedIndex
    commitIndex := lastIncludedIndex
    lastApplied := lastIncludedIndex } }
  noteCommit { n with
    logArray := .reset (lastIncludedIndex + 1) (Nat.le_add_left 1 _) content }

/-- A restart: the persistent state and the log come from the disk, the role is leader,
and the commit index is cut at the last index of the log that is found. -/
def restart (found : RaftLogArray) : Node where
  state := { n.disk with commitIndex := min n.disk.commitIndex found.getLastIndex }
  disk := n.disk
  logArray := found
  committed := n.committed

end Snapshots

end Node

end EyaKV.Raft
