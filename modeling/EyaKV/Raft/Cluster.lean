import EyaKV.Raft.Node

/-!
# A cluster of nodes

A `Cluster` is the nodes by address, the messages in flight and the history of what
has happened. `step` is one action: a handler of one node up to the release of its
mutex, a task that a handler left, an expired timer, a lost connection or a restart.
An action that is not possible has no result. Runs are lists of actions in any order,
so they include every interleaving of the threads of the nodes.

A message stays in flight until it is handled, and one that is lost is never handled.
The messages of log replication can be handled again (`again`). `try_commit_entries` and
`apply_committed_entries` are called from several threads, so they are possible at any
time. A restart and `SETMASTER` open the log again, and `found` is what they find. The history
records votes, won elections, the logs of their winners, created entries,
accepted messages and executed commands; no handler reads it.
-/

set_option autoImplicit false

namespace EyaKV.Raft

open EyaKV.Store

section Messages

/-- The two nodes of a connection: the one that opened it, and the one that accepted
it. -/
structure Endpoints where
  follower : Address
  leader : Address
  deriving DecidableEq, Repr

/-- A vote request for `voter`, queued or on its own connection of the campaign `conn`. -/
structure Ballot where
  conn : Conn
  candidate : Address
  voter : Address
  msg : Node.RequestVote
  deriving DecidableEq, Repr

/-- The response to a ballot. -/
structure VoteReply where
  conn : Conn
  candidate : Address
  voter : Address
  term : Nat
  voteGranted : Bool
  deriving DecidableEq, Repr

/-- A message of log replication, with the log of the sender. -/
structure AppendMessage where
  conn : Conn
  msg : Node.AppendEntries
  source : List LogEntry
  deriving DecidableEq, Repr

/-- The response to the message that came on `origin`. -/
structure AppendReply where
  conn : Conn
  origin : Conn
  term : Nat
  success : Bool
  logIndex : Nat
  deriving DecidableEq, Repr

/-- The request of `become_follower`. -/
structure JoinRequest where
  conn : Conn
  lastIndex : Nat
  deriving DecidableEq, Repr

/-- The other messages of a leader to a follower: a member that joins or leaves, and the
address of another leader. -/
inductive Notice where
  | member (node : Address) (isMember : Bool)
  | queryLeader (leader : Address)
  deriving DecidableEq, Repr

/-- A snapshot of one chunk: the only kind that is ever completed, because the leader
compares the offset in a response with an offset that it has already moved on. The
snapshot is of a state machine that has applied `content`. -/
structure Snapshot where
  conn : Conn
  lastIncludedIndex : Nat
  content : List LogEntry
  deriving DecidableEq, Repr

/-- The announcement of a leader to a node. -/
structure NewMaster where
  node : Address
  leader : Address
  term : Nat
  deriving DecidableEq, Repr

/-- The messages in flight. -/
structure Network where
  ballots : Finset Ballot := ∅
  voteReplies : Finset VoteReply := ∅
  appends : Finset AppendMessage := ∅
  appendReplies : Finset AppendReply := ∅
  joins : Finset JoinRequest := ∅
  joinReplies : Finset (Conn × Node.JoinReply) := ∅
  notices : Finset (Conn × Notice) := ∅
  newMasters : Finset NewMaster := ∅
  snapshots : Finset Snapshot := ∅

end Messages

section Histories

/-- A vote of `voter` for `candidate`, which it knows by the address `peer`. -/
structure Vote where
  voter : Address
  term : Nat
  candidate : Address
  peer : Address
  deriving DecidableEq, Repr

/-- A won election: the nodes that granted their vote, and the cluster nodes of the
winner. -/
structure Election where
  leader : Address
  term : Nat
  voters : Finset Address
  clusterNodes : Finset Address
  deriving DecidableEq

/-- A created entry, and what its creator was when it added it to its log. -/
structure Creation where
  node : Address
  entry : LogEntry
  role : RaftRole
  currentTerm : Nat
  deriving DecidableEq, Repr

/-- An accepted message of the term `term`: it verifies the log up to `index`. -/
structure Accepted where
  node : Address
  term : Nat
  index : Nat
  deriving DecidableEq, Repr

/-- A command that the state machine of a node executed for an index. -/
structure Applied where
  node : Address
  index : Nat
  cmd : Bytes
  deriving DecidableEq, Repr

/-- What has happened. `counted` are the nodes whose vote a node has counted since it last
became a candidate, and `leaderLog` is the log with which a leader won the election of a
term, followed by the entries that were created in the term. -/
structure History where
  votes : List Vote := []
  counted : Address → Finset Address := fun _ => ∅
  elections : List Election := []
  leaderLog : Nat → List LogEntry := fun _ => []
  created : List Creation := []
  accepted : List Accepted := []
  applied : List Applied := []

end Histories

/-- A cluster. A connection below `started` of a node was opened before the node's last
restart. -/
structure Cluster where
  nodes : Address → Node := fun _ => {}
  ends : Conn → Endpoints := fun _ => ⟨⟨[], 0⟩, ⟨[], 0⟩⟩
  nextConn : Conn := 1
  started : Address → Conn := fun _ => 1
  net : Network := {}
  history : History := {}

/-- The actions. -/
inductive Action where
  | electionTimeout (a : Address)
  | becomeCandidate (a : Address)
  | readLastInfo (a : Address)
  | sendRequestVote (a : Address)
  | requestVote (b : Ballot) (peer : Address)
  | voteReply (r : VoteReply)
  | sendAppendEntries (conn : Conn)
  | appendEntries (m : AppendMessage) (again : Bool)
  | appendReply (r : AppendReply) (again : Bool)
  | tryCommitEntries (a : Address)
  | commitEntries (a : Address)
  | applyCommittedEntries (a : Address)
  | submit (a : Address) (cmds : List Bytes)
  | task (a : Address) (t : Task)
  | reconnect (a : Address)
  | joinRequest (j : JoinRequest)
  | joinReply (conn : Conn) (r : Node.JoinReply)
  | closeSocket (conn : Conn)
  | removeNode (a node : Address)
  | notice (conn : Conn) (m : Notice)
  | setMaster (a leader : Address) (found : RaftLogArray)
  | newMaster (m : NewMaster)
  | sendSnapshot (conn : Conn)
  | installSnapshot (m : Snapshot)
  | restart (a : Address) (found : RaftLogArray)
  deriving DecidableEq

namespace Cluster

variable (cfg : RaftNodeConfig) (c : Cluster)

/-- The connection is known, and the process that accepted it still runs. -/
def Open (conn : Conn) : Prop :=
  c.started (c.ends conn).leader ≤ conn ∧ conn < c.nextConn

instance (conn : Conn) : Decidable (c.Open conn) := inferInstanceAs (Decidable (_ ∧ _))

/-- The cluster with another state of one node. -/
def setNode (a : Address) (n : Node) : Cluster := { c with nodes := Function.update c.nodes a n }

/-- The commands that a node has executed. -/
def recordApplied (a : Address) (entries : List (Nat × Bytes)) : Cluster :=
  { c with history := { c.history with
      applied := entries.map (fun e => ⟨a, e.1, e.2⟩) ++ c.history.applied } }

section Elections

/-- `become_candidate`, when the timer has run out. -/
def becomeCandidate (a : Address) : Cluster :=
  let n := (c.nodes a).becomeCandidate a
  { c.setNode a n with history := { c.history with
      votes := ⟨a, n.state.currentTerm, a, a.loopback⟩ :: c.history.votes
      counted := Function.update c.history.counted a ∅ } }

/-- The part of `send_request_vote` under the mutex, and the tasks that it submits. -/
def sendRequestVote (a : Address) (lastLogIndex lastLogTerm : Nat) : Cluster :=
  let n := c.nodes a
  let msg : Node.RequestVote := ⟨n.state.currentTerm, lastLogIndex, lastLogTerm⟩
  { c.setNode a { n with election := .waiting } with
    nextConn := c.nextConn + 1
    net := { c.net with
      ballots := c.net.ballots ∪ n.state.clusterNodes.image fun v => ⟨c.nextConn, a, v, msg⟩ } }

/-- A vote request reaches its voter from the address `peer`. -/
def requestVote (b : Ballot) (peer : Address) : Cluster :=
  let r := (c.nodes b.voter).handleRequestVote b.msg peer
  { c.setNode b.voter r.1 with
    net := { c.net with
      ballots := c.net.ballots.erase b
      voteReplies := insert ⟨b.conn, b.candidate, b.voter, r.2.1, r.2.2⟩ c.net.voteReplies }
    history := { c.history with
      votes := if r.2.2 then ⟨b.voter, r.2.1, b.candidate, peer⟩ :: c.history.votes
        else c.history.votes } }

/-- The response of a voter is counted. -/
def Counts (n : Node) (r : VoteReply) : Prop :=
  r.term = n.state.currentTerm ∧ n.role = .candidate ∧ r.voteGranted = true

instance (n : Node) (r : VoteReply) : Decidable (Counts n r) :=
  inferInstanceAs (Decidable (_ ∧ _ ∧ _))

/-- The response of a voter makes the candidate leader. -/
def Wins (n : Node) (r : VoteReply) : Prop := Counts n r ∧ n.majority ≤ n.grantedVotes + 1

instance (n : Node) (r : VoteReply) : Decidable (Wins n r) :=
  inferInstanceAs (Decidable (_ ∧ _))

/-- A vote response reaches its candidate. -/
def voteReply (r : VoteReply) : Cluster :=
  let n := c.nodes r.candidate
  let counted := if Counts n r then insert r.voter (c.history.counted r.candidate)
    else c.history.counted r.candidate
  { c.setNode r.candidate (n.handleRequestVoteResponse r.term r.voteGranted) with
    net := { c.net with voteReplies := c.net.voteReplies.erase r }
    history := { c.history with
      counted := Function.update c.history.counted r.candidate counted
      elections := if Wins n r then
          ⟨r.candidate, r.term, counted, n.state.clusterNodes⟩ :: c.history.elections
        else c.history.elections
      leaderLog := if Wins n r then
          Function.update c.history.leaderLog r.term n.logArray.full
        else c.history.leaderLog } }

end Elections

section Replication

/-- `send_append_entries` on a connection. -/
def sendAppendEntries (conn : Conn) : Cluster :=
  let a := (c.ends conn).leader
  let r := (c.nodes a).sendAppendEntries cfg conn
  { c.setNode a r.1 with net := { c.net with
      appends := match r.2 with
        | none => c.net.appends
        | some msg => insert ⟨conn, msg, (c.nodes a).logArray.full⟩ c.net.appends } }

/-- The message passes the checks of `handle_append_entries`, and every call of the log
returns. -/
def Accepts (n : Node) (msg : Node.AppendEntries) : Prop :=
  n.state.currentTerm ≤ msg.term ∧ n.prevMatches msg = true ∧
    (Node.appendLoop cfg n.logArray 0 msg.entries).returned = true

instance (n : Node) (msg : Node.AppendEntries) : Decidable (Accepts cfg n msg) :=
  inferInstanceAs (Decidable (_ ∧ _ ∧ _))

/-- A message of log replication reaches its follower. -/
def appendEntries (m : AppendMessage) (again : Bool) : Cluster :=
  let a := (c.ends m.conn).follower
  let n := c.nodes a
  { c.setNode a (n.handleAppendEntries cfg m.conn m.msg) with
    net := { c.net with appends := if again then c.net.appends else c.net.appends.erase m }
    history := { c.history with
      accepted := if Accepts cfg n m.msg then
          ⟨a, m.msg.term, m.msg.prevLogIndex + m.msg.entries.length⟩ :: c.history.accepted
        else c.history.accepted } }

/-- The response of a follower reaches the leader. -/
def appendReply (r : AppendReply) (again : Bool) : Cluster :=
  let a := (c.ends r.conn).leader
  { c.setNode a ((c.nodes a).handleAppendEntriesResponse r.conn r.success r.logIndex) with
    net := { c.net with
      appendReplies := if again then c.net.appendReplies else c.net.appendReplies.erase r } }

/-- The entries of a write are added to the log of the node `n` at `a`. -/
def append (a : Address) (n : Node) (entries : List LogEntry) : Cluster :=
  let log := (n.logArray.batchAppend cfg.logConfig entries).1
  let created := (n.logArray.extend entries).entries.drop n.logArray.entries.length
  { c.setNode a { n with logArray := log } with
    history := { c.history with
      leaderLog := Function.update c.history.leaderLog n.state.currentTerm
        (c.history.leaderLog n.state.currentTerm ++ created)
      created := created.map (fun e => ⟨a, e, n.role, n.state.currentTerm⟩) ++
        c.history.created } }

end Replication

section Membership

/-- The messages of a leader to the followers on its sockets. -/
def toFollowers (n : Node) (m : Notice) : Finset (Conn × Notice) :=
  n.followerSockets.image fun conn => (conn, m)

/-- `become_follower` of the node `n` at `a` connects to the leader and asks to join. -/
def connect (a : Address) (n : Node) (leader : Address) (term commitIndex : Nat) : Cluster :=
  let conn := c.nextConn
  let n := { n with
    followerClient := some conn, joining := some ⟨conn, leader, term, commitIndex⟩ }
  { c.setNode a n with
    ends := Function.update c.ends conn ⟨a, leader⟩
    nextConn := conn + 1
    net := { c.net with joins := insert ⟨conn, commitIndex⟩ c.net.joins } }

/-- A join request reaches the node that accepted the connection. -/
def joinRequest (j : JoinRequest) : Cluster :=
  let e := c.ends j.conn
  let n := c.nodes e.leader
  let r := n.handleJoinCluster cfg e.follower j.conn j.lastIndex
  { c.setNode e.leader r.1 with
    net := { c.net with
      joins := c.net.joins.erase j
      joinReplies := insert (j.conn, r.2) c.net.joinReplies
      notices := match r.2 with
        | .joined _ _ => c.net.notices ∪ toFollowers n (.member e.follower true)
        | _ => c.net.notices } }

/-- `become_follower` receives the reply to its request. -/
def joinReply (a : Address) (j : Joining) (r : Node.JoinReply) : Cluster :=
  let n := (c.nodes a).follow j
  let n' := match r with
    | .joined term nodes => n.handleJoinClusterResponse a term nodes
    | .rejected _ => n.becomeLeader
    | .redirect none => n
    | .redirect (some leader) =>
        if leader = a then n.becomeLeader else n.addTask (.follow leader 0 0)
  { c.setNode a n' with net := { c.net with
      joinReplies := c.net.joinReplies.erase (j.conn, r)
      notices := c.net.notices ∪ toFollowers (c.nodes a) (.queryLeader j.leader) } }

/-- A notice reaches a follower. -/
def notice (conn : Conn) (m : Notice) : Cluster :=
  let a := (c.ends conn).follower
  let n := c.nodes a
  let n' := match m with
    | .member node isMember => n.setMember a node isMember
    | .queryLeader leader =>
        if leader = a then n.becomeLeader else n.addTask (.follow leader 0 0)
  { c.setNode a n' with net := { c.net with notices := c.net.notices.erase (conn, m) } }

/-- `REMOVENODE` on a leader. -/
def removeNode (a node : Address) : Cluster :=
  let n := c.nodes a
  { c.setNode a (n.removeNode node) with net := { c.net with
      notices := if node ∈ n.state.clusterNodes then
          c.net.notices ∪ toFollowers n (.member node false)
        else c.net.notices } }

/-- `SETMASTER` on a leader. -/
def setMaster (a leader : Address) (found : RaftLogArray) : Cluster :=
  let n := c.nodes a
  if n.state.currentLeader = some leader then
    if n.followerClient.isSome then c
    else c.setNode a (n.addTask (.follow leader n.state.currentTerm n.state.commitIndex))
  else
    c.setNode a ((n.clearForMaster found).addTask (.follow leader 0 0))

/-- The comparison of the terms in `handle_new_master`. -/
def newMaster (m : NewMaster) : Cluster :=
  let n := c.nodes m.node
  let c := { c with net := { c.net with newMasters := c.net.newMasters.erase m } }
  if m.term < n.state.currentTerm ∨ n.role = .leader ∧ m.term = n.state.currentTerm ∨
      m.node = m.leader then c
  else
    let newer := decide (n.state.currentTerm < m.term)
    c.setNode m.node (n.addTask (.newMaster m.leader m.term newer))

end Membership

section Snapshots

/-- A snapshot for a follower whose next entry the leader no longer holds. -/
def sendSnapshot (conn : Conn) : Cluster :=
  let n := c.nodes (c.ends conn).leader
  let snapshot : Snapshot :=
    ⟨conn, n.state.lastApplied, n.logArray.full.take n.state.lastApplied⟩
  { c with net := { c.net with snapshots := insert snapshot c.net.snapshots } }

/-- A snapshot reaches a follower, which restores it. -/
def installSnapshot (m : Snapshot) : Cluster :=
  let a := (c.ends m.conn).follower
  { c.setNode a ((c.nodes a).installSnapshot m.lastIncludedIndex m.content) with
    net := { c.net with snapshots := c.net.snapshots.erase m } }

end Snapshots

section Steps

/-- A task of a node goes on. -/
def runTask (a : Address) (t : Task) : Cluster :=
  let n := c.nodes a
  let n := { n with tasks := n.tasks.erase t }
  match t with
  | .submit [] entries => append cfg c a n entries
  | .submit (cmd :: cmds) entries =>
      c.setNode a (n.addTask (.submit cmds (entries ++ [⟨n.state.currentTerm, 0, cmd⟩])))
  -- the state is serialized and written in two steps, and nothing keeps other threads out
  | .appendReply origin .due term success logIndex =>
      c.setNode a (n.addTask (.appendReply origin (.serialized n.state) term success logIndex))
  | .appendReply origin (.serialized saved) term success logIndex =>
      c.setNode a ((n.writePersistentState saved).addTask
        (.appendReply origin .none term success logIndex))
  | .save .due => c.setNode a (n.addTask (.save (.serialized n.state)))
  | .save (.serialized saved) => c.setNode a (n.writePersistentState saved)
  | .save .none => c.setNode a n
  | .appendReply origin .none term success logIndex =>
      let c := c.setNode a n
      match n.followerClient with
      | none => c
      | some conn => { c with net := { c.net with
          appendReplies := insert ⟨conn, origin, term, success, logIndex⟩ c.net.appendReplies } }
  | .admitNode addr conn => c.setNode a (n.admitNode addr conn)
  | .broadcast term =>
      let c := c.setNode a n
      if n.state.currentTerm = term ∧ n.role = .leader then
        { c with net := { c.net with
          newMasters := c.net.newMasters ∪ n.state.clusterNodes.image fun b => ⟨b, a, term⟩ } }
      else c
  | .newMaster leader term newer =>
      let n := n.storeNewMaster leader term newer
      c.setNode a (n.addTask (.follow leader term n.state.commitIndex))
  | .follow leader term commitIndex => connect c a n leader term commitIndex

/-- A submission of write commands to a node, after the check of the role. The leader that
it followed before is forgotten. -/
def submit (a : Address) (cmds : List Bytes) : Cluster :=
  let n := c.nodes a
  let n := if n.state.currentLeader = none then n
    else Node.savePersistentState { n with state := { n.state with currentLeader := none } }
  c.setNode a (n.addTask (.submit cmds []))

/-- One action. -/
def step : Action → Option Cluster
  | .electionTimeout a =>
      let n := c.nodes a
      if n.role ≠ .leader ∧ n.election = .waiting then
        some (c.setNode a { n with election := .timedOut })
      else none
  | .becomeCandidate a =>
      if (c.nodes a).election = .timedOut then some (c.becomeCandidate a) else none
  | .readLastInfo a =>
      let n := c.nodes a
      if n.election = .candidacy then
        let info := n.logArray.getLastInfo
        some (c.setNode a { n with election := .campaign info.1 info.2 })
      else none
  | .sendRequestVote a =>
      match (c.nodes a).election with
      | .campaign lastLogIndex lastLogTerm =>
          some (c.sendRequestVote a lastLogIndex lastLogTerm)
      | _ => none
  | .requestVote b peer => if b ∈ c.net.ballots then some (c.requestVote b peer) else none
  | .voteReply r =>
      if r ∈ c.net.voteReplies ∧ c.started r.candidate ≤ r.conn then some (c.voteReply r)
      else none
  | .sendAppendEntries conn =>
      if c.Open conn then some (c.sendAppendEntries cfg conn) else none
  | .appendEntries m again =>
      let n := c.nodes (c.ends m.conn).follower
      if m ∈ c.net.appends ∧ n.followerClient = some m.conn ∧ n.joining = none then
        some (c.appendEntries cfg m again)
      else none
  | .appendReply r again =>
      if r ∈ c.net.appendReplies ∧ c.Open r.conn then some (c.appendReply r again) else none
  | .tryCommitEntries a =>
      if cfg.needMajorityConfirm then
        let r := (c.nodes a).tryCommitEntries
        some ((c.setNode a r.1).recordApplied a r.2)
      else none
  | .commitEntries a =>
      if cfg.needMajorityConfirm then none
      else
        let r := (c.nodes a).commitEntries
        some ((c.setNode a r.1).recordApplied a r.2)
  | .applyCommittedEntries a =>
      let n := c.nodes a
      some ((c.setNode a n.applyCommittedEntries).recordApplied a n.committedEntries)
  | .submit a cmds =>
      if (c.nodes a).role = .leader ∧ cmds ≠ [] then some (c.submit a cmds) else none
  | .task a t => if t ∈ (c.nodes a).tasks then some (c.runTask cfg a t) else none
  | .reconnect a =>
      let n := c.nodes a
      match n.state.currentLeader with
      | none => none
      | some leader =>
          some (c.setNode a (n.addTask (.follow leader n.state.currentTerm n.state.commitIndex)))
  | .joinRequest j => if j ∈ c.net.joins then some (c.joinRequest cfg j) else none
  | .joinReply conn r =>
      let a := (c.ends conn).follower
      match (c.nodes a).joining with
      | none => none
      | some j =>
          if j.conn = conn ∧ (conn, r) ∈ c.net.joinReplies then some (c.joinReply a j r)
          else none
  | .closeSocket conn =>
      let a := (c.ends conn).leader
      some (c.setNode a ((c.nodes a).closeSocket conn))
  | .removeNode a node =>
      if (c.nodes a).role = .leader then some (c.removeNode a node) else none
  | .notice conn m =>
      if (conn, m) ∈ c.net.notices ∧
          (c.nodes (c.ends conn).follower).followerClient = some conn then
        some (c.notice conn m)
      else none
  | .setMaster a leader found =>
      if (c.nodes a).role = .leader then some (c.setMaster a leader found) else none
  | .newMaster m => if m ∈ c.net.newMasters then some (c.newMaster m) else none
  | .sendSnapshot conn =>
      let n := c.nodes (c.ends conn).leader
      if c.Open conn ∧ (n.nextIndex[conn]?).getD 0 < n.logArray.baseIndex then
        some (c.sendSnapshot conn)
      else none
  | .installSnapshot m =>
      if m ∈ c.net.snapshots ∧
          (c.nodes (c.ends m.conn).follower).followerClient = some m.conn then
        some (c.installSnapshot m)
      else none
  | .restart a found =>
      some { c.setNode a ((c.nodes a).restart found) with
        started := Function.update c.started a c.nextConn }

/-- An action that is possible under a condition has its result. -/
theorem of_guard {p : Prop} [Decidable p] {c c' : Cluster}
    (h : (if p then some c else none) = some c') : p ∧ c' = c := by
  split at h
  · next hp => exact ⟨hp, (Option.some.inj h).symm⟩
  · cases h

theorem of_guard_not {p : Prop} [Decidable p] {c c' : Cluster}
    (h : (if p then none else some c) = some c') : ¬ p ∧ c' = c := by
  split at h
  · cases h
  · next hp => exact ⟨hp, (Option.some.inj h).symm⟩

/-- A run of actions. -/
def run (c : Cluster) : List Action → Option Cluster
  | [] => some c
  | a :: rest => (step cfg c a).bind fun c' => run c' rest

/-- Every step of the run meets a condition, in the state in which it is taken. -/
def RunMeets (meets : Cluster → Action → Prop) : Cluster → List Action → Prop
  | _, [] => True
  | c, a :: rest => meets c a ∧ ∀ c', step cfg c a = some c' → RunMeets meets c' rest

instance decidableRunMeets (meets : Cluster → Action → Prop) [∀ c a, Decidable (meets c a)] :
    ∀ c actions, Decidable (RunMeets cfg meets c actions)
  | _, [] => isTrue trivial
  | c, a :: rest =>
      match h : step cfg c a with
      | none => decidable_of_iff (meets c a)
          ⟨fun ha => ⟨ha, fun _ hc => by rw [h] at hc; cases hc⟩, fun ha => ha.1⟩
      | some c' =>
          have := decidableRunMeets meets c' rest
          decidable_of_iff (meets c a ∧ RunMeets cfg meets c' rest)
            ⟨fun ha => ⟨ha.1, fun _ hc => by rw [h] at hc; cases hc; exact ha.2⟩,
              fun ha => ⟨ha.1, ha.2 c' h⟩⟩

variable {cfg} in
/-- **Invariants of runs.** What every step keeps that meets the condition, a run keeps
whose steps all meet it. -/
theorem run_induction {P : Cluster → Prop} {meets : Cluster → Action → Prop}
    (hstep : ∀ c a c', P c → meets c a → c.step cfg a = some c' → P c') (actions : List Action) :
    ∀ c c', P c → RunMeets cfg meets c actions → c.run cfg actions = some c' → P c' := by
  induction actions with
  | nil =>
      intro c c' hc _ hrun
      exact Option.some.inj hrun ▸ hc
  | cons a rest ih =>
      intro c c' hc ⟨ha, hrest⟩ hrun
      obtain ⟨c'', hone, hmore⟩ := Option.bind_eq_some_iff.1 hrun
      exact ih c'' c' (hstep c a c'' hc ha hone) (hrest c'' hone) hmore

end Steps

section ThreeNodes

/-- A configuration without truncation of the log, in which a majority has to confirm. -/
def plainConfig : RaftNodeConfig := ⟨⟨100, fun _ => 0, true⟩, 10, true, fun _ => true⟩

/-- The node at port `i`. -/
def node (i : Nat) : Address := ⟨[UInt8.ofNat i], i⟩

/-- The nodes 2 and 3 join node 1, on the connections 1 and 2. -/
def threeNodes : List Action :=
  [.setMaster (node 2) (node 1) {}, .task (node 2) (.follow (node 1) 0 0), .joinRequest ⟨1, 0⟩,
    .joinReply 1 (.joined 0 ∅), .task (node 1) (.admitNode (node 2) 1),
    .setMaster (node 3) (node 1) {}, .task (node 3) (.follow (node 1) 0 0), .joinRequest ⟨2, 0⟩,
    .joinReply 2 (.joined 0 {node 2}), .task (node 1) (.admitNode (node 3) 2),
    .notice 1 (.member (node 3) true)]

/-- Node `i` becomes a candidate and asks for votes. -/
def campaign (i : Nat) : List Action :=
  [.electionTimeout (node i), .becomeCandidate (node i), .readLastInfo (node i),
    .sendRequestVote (node i)]

end ThreeNodes

end Cluster

end EyaKV.Raft
