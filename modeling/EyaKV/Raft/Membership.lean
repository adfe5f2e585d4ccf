import EyaKV.Base.Runs
import EyaKV.Raft.Node

/-!
# Joining a leader

A call of `handle_join_cluster` is four steps: it announces the new node to the followers on
the sockets, it answers with a copy of the cluster metadata, it inserts the node into
`cluster_nodes_`, and it inserts the socket into `follower_sockets_`. Calls for different
connections run in different threads, and their steps interleave. A connection delivers its
messages in order: the response first, because the socket is not among the followers before,
and then the announcements.

`Membership` is a leader with the nodes that join it. The handlers of the nodes are those of
`Node`; `admitNode_eq` and `handleJoinCluster_eq` compare the four steps with the two of a
`Cluster`, in which the announcement and the answer are one step.
-/

set_option autoImplicit false

namespace EyaKV.Raft

open EyaKV.Base EyaKV.Store

namespace Node

section Handlers

variable (n : Node)

/-- `handle_join_cluster` under the mutex before the answer: the indices of the new
follower. -/
def prepareFollower (addr : Address) (conn : Conn) (lastIndex : Nat) : Node :=
  let drop (t : IndexTable) : IndexTable :=
    match n.followerAddressMap addr with
    | none => t
    | some old => t.erase old
  { n with
    nextIndex := (drop n.nextIndex).insert conn (lastIndex + 1)
    matchIndex := (drop n.matchIndex).insert conn 0 }

/-- The insertion into `cluster_nodes_`. -/
def listNode (addr : Address) : Node :=
  savePersistentState { n with
    state := { n.state with clusterNodes := insert addr n.state.clusterNodes } }

/-- The insertion into `follower_sockets_`. -/
def registerSocket (addr : Address) (conn : Conn) : Node :=
  { n with
    followerSockets := insert conn n.followerSockets
    followerAddressMap := Function.update n.followerAddressMap addr (some conn) }

theorem admitNode_eq (addr : Address) (conn : Conn) :
    n.admitNode addr conn = (n.listNode addr).registerSocket addr conn := rfl

theorem handleJoinCluster_eq {cfg : RaftNodeConfig} {addr : Address} {conn : Conn}
    {lastIndex : Nat} (hrole : n.role = .leader) (htrust : cfg.isTrust addr = true) :
    n.handleJoinCluster cfg addr conn lastIndex =
      ((n.prepareFollower addr conn lastIndex).addTask (.admitNode addr conn),
        .joined n.state.currentTerm n.state.clusterNodes) := by
  have htrusted : ¬ (!cfg.isTrust addr) = true := by rw [htrust]; exact Bool.false_ne_true
  rw [handleJoinCluster, if_neg (not_not.2 hrole), if_neg htrusted]
  rfl

end Handlers

end Node

/-- A message of the leader on the connection of a node that joins. -/
inductive JoinMessage where
  | reply (r : Node.JoinReply)
  | newNode (node : Address)
  deriving DecidableEq

/-- `handle_leader_message`, for the messages of the membership. -/
def Node.handleLeaderMessage (n : Node) (self : Address) : JoinMessage → Node
  | .newNode node => n.setMember self node true
  | .reply (.joined term nodes) =>
      if n.role = .follower then n.handleJoinClusterResponse self term nodes else n
  | .reply (.rejected _) => if n.role = .follower then n.becomeLeader else n
  | .reply (.redirect none) => n
  | .reply (.redirect (some leader)) =>
      if leader = self then n.becomeLeader else n.addTask (.follow leader 0 0)

/-- The next message on the connection of a node. `become_follower` waits for a reply, and
passes over other messages. -/
def Node.receive (n : Node) (self : Address) (msg : JoinMessage) : Node :=
  match n.joining, msg with
  | some j, .reply r => (n.follow j).handleLeaderMessage self (.reply r)
  | some _, .newNode _ => n
  | none, msg => n.handleLeaderMessage self msg

/-- How far a call of `handle_join_cluster` is. -/
inductive JoinStage where
  | requested | announced | answered | listed | registered | refused
  deriving DecidableEq, Repr

/-- The node has been announced to the followers. -/
def JoinStage.isAnnounced : JoinStage → Bool
  | .announced | .answered | .listed | .registered => true
  | _ => false

/-- The node has been sent the cluster metadata. -/
def JoinStage.isAnswered : JoinStage → Bool
  | .answered | .listed | .registered => true
  | _ => false

/-- The node is in `cluster_nodes_`. -/
def JoinStage.isListed : JoinStage → Bool
  | .listed | .registered => true
  | _ => false

/-- The call is between its announcement and the insertion of its socket. -/
def JoinStage.isOpen : JoinStage → Bool
  | .announced | .answered | .listed => true
  | _ => false

/-- A call of `handle_join_cluster` for the node at `addr`. -/
structure JoinCall where
  addr : Address
  lastIndex : Nat
  stage : JoinStage
  deriving DecidableEq, Repr

/-- A leader and the nodes that join it. The calls are by connection, and a channel has the
messages that the leader has sent and the node has not yet received, the oldest first. -/
structure Membership where
  nodes : Address → Node := fun _ => {}
  calls : Conn → Option JoinCall := fun _ => none
  channel : Conn → List JoinMessage := fun _ => []
  nextConn : Conn := 1

/-- The steps. `become_follower` is called with a term and a commit index. -/
inductive JoinAction where
  | connect (a : Address) (term commitIndex : Nat)
  | announce (conn : Conn)
  | answer (conn : Conn)
  | list (conn : Conn)
  | register (conn : Conn)
  | deliver (conn : Conn)
  deriving DecidableEq, Repr

namespace Membership

section Actions

variable (cfg : RaftNodeConfig) (leader : Address) (m : Membership)

/-- Another state of one node. -/
def setNode (a : Address) (n : Node) : Membership :=
  { m with nodes := Function.update m.nodes a n }

/-- A call goes on to a stage. -/
def setStage (conn : Conn) (call : JoinCall) (stage : JoinStage) : Membership :=
  { m with calls := Function.update m.calls conn (some { call with stage := stage }) }

/-- One more message on a connection. -/
def send (conn : Conn) (msg : JoinMessage) : Membership :=
  { m with channel := Function.update m.channel conn (m.channel conn ++ [msg]) }

/-- `broadcast_to_followers` of a leader with these sockets. -/
def broadcast (sockets : Finset Conn) (msg : JoinMessage) : Membership :=
  { m with channel := fun conn =>
      if conn ∈ sockets then m.channel conn ++ [msg] else m.channel conn }

/-- `become_follower` of the node at `a` connects to the leader and asks to join. -/
def connect (a : Address) (term commitIndex : Nat) : Membership :=
  { m.setNode a { m.nodes a with
      followerClient := some m.nextConn
      joining := some ⟨m.nextConn, leader, term, commitIndex⟩ } with
    calls := Function.update m.calls m.nextConn (some ⟨a, commitIndex, .requested⟩)
    nextConn := m.nextConn + 1 }

/-- `handle_join_cluster` up to the broadcast. -/
def announce (conn : Conn) (call : JoinCall) : Membership :=
  let n := m.nodes leader
  if n.role ≠ .leader then
    (m.send conn (.reply (.redirect n.state.currentLeader))).setStage conn call .refused
  else if !cfg.isTrust call.addr then
    (m.send conn (.reply (.rejected n.state.currentTerm))).setStage conn call .refused
  else (m.broadcast n.followerSockets (.newNode call.addr)).setStage conn call .announced

/-- The answer, with a copy of the metadata. -/
def answer (conn : Conn) (call : JoinCall) : Membership :=
  let n := m.nodes leader
  let m := m.setNode leader (n.prepareFollower call.addr conn call.lastIndex)
  (m.send conn (.reply (.joined n.state.currentTerm n.state.clusterNodes))).setStage conn call
    .answered

/-- The insertion into `cluster_nodes_`. -/
def list (conn : Conn) (call : JoinCall) : Membership :=
  (m.setNode leader ((m.nodes leader).listNode call.addr)).setStage conn call .listed

/-- The insertion into `follower_sockets_`, with which the call ends. -/
def register (conn : Conn) (call : JoinCall) : Membership :=
  (m.setNode leader ((m.nodes leader).registerSocket call.addr conn)).setStage conn call
    .registered

/-- The first message of a channel reaches the node. -/
def deliver (conn : Conn) (a : Address) (msg : JoinMessage) (rest : List JoinMessage) :
    Membership :=
  { m.setNode a ((m.nodes a).receive a msg) with
    channel := Function.update m.channel conn rest }

/-- A call that is at a stage goes on. -/
def whenAt (conn : Conn) (stage : JoinStage) (next : JoinCall → Membership) : Option Membership :=
  match m.calls conn with
  | none => none
  | some call => if call.stage = stage then some (next call) else none

/-- One step. A node only receives on the connection that it opened last. -/
def step : JoinAction → Option Membership
  | .connect a term commitIndex =>
      if a = leader then none else some (m.connect leader a term commitIndex)
  | .announce conn => m.whenAt conn .requested (m.announce cfg leader conn)
  | .answer conn => m.whenAt conn .announced (m.answer leader conn)
  | .list conn => m.whenAt conn .answered (m.list leader conn)
  | .register conn => m.whenAt conn .listed (m.register leader conn)
  | .deliver conn =>
      match m.calls conn, m.channel conn with
      | some call, msg :: rest =>
          if (m.nodes call.addr).followerClient = some conn then
            some (m.deliver conn call.addr msg rest)
          else none
      | _, _ => none

end Actions

section Calls

variable {leader : Address} {m m' : Membership}

/-- A call for the node at `a` is at a stage of a kind. -/
def HasCall (m : Membership) (kind : JoinStage → Bool) (a : Address) : Prop :=
  ∃ conn call, m.calls conn = some call ∧ call.addr = a ∧ kind call.stage = true

/-- The node at `a` belongs to the cluster: it is the leader, or it has joined. -/
def IsMember (leader : Address) (m : Membership) (a : Address) : Prop :=
  a = leader ∨ m.HasCall (fun stage => stage == .registered) a

/-- Every member knows exactly the other members. -/
def Converged (leader : Address) (m : Membership) : Prop :=
  ∀ a, IsMember leader m a →
    ∀ b, b ∈ (m.nodes a).state.clusterNodes ↔ IsMember leader m b ∧ b ≠ a

/-- No call is going on, and no message is in flight on the connection of a node. -/
def AtRest (m : Membership) : Prop :=
  ∀ conn < m.nextConn, ∀ call ∈ m.calls conn,
    (call.stage = .registered ∨ call.stage = .refused) ∧
      ((m.nodes call.addr).followerClient = some conn → m.channel conn = [])

instance (m : Membership) : Decidable (AtRest m) :=
  inferInstanceAs (Decidable (∀ conn < m.nextConn, ∀ call ∈ m.calls conn, _ ∧ _))

/-- No node joins twice. -/
def JoinedOnce (m : Membership) : Prop :=
  ∀ conn call conn' call', m.calls conn = some call → m.calls conn' = some call' →
    call.addr = call'.addr → conn = conn'

/-- No other call is open when a call makes its announcement. -/
def Alone (cfg : RaftNodeConfig) (m : Membership) : JoinAction → Prop
  | .announce conn => ∀ call ∈ m.calls conn, cfg.isTrust call.addr = true →
      ∀ conn' < m.nextConn, ∀ call' ∈ m.calls conn', call'.stage.isOpen = false
  | _ => True

instance (cfg : RaftNodeConfig) (m : Membership) : ∀ act, Decidable (Alone cfg m act)
  | .announce _ => inferInstanceAs (Decidable (∀ call ∈ _, _ → ∀ conn' < _, ∀ call' ∈ _, _))
  | .connect _ _ _ | .answer _ | .list _ | .register _ | .deliver _ => isTrue trivial

theorem whenAt_eq_some {conn : Conn} {stage : JoinStage} {next : JoinCall → Membership} :
    m.whenAt conn stage next = some m' ↔
      ∃ call, m.calls conn = some call ∧ call.stage = stage ∧ next call = m' := by
  simp only [whenAt]
  cases m.calls conn with
  | none =>
      constructor
      · intro h
        cases h
      · rintro ⟨call, hcall, -⟩
        cases hcall
  | some call =>
      simp only [Option.ite_none_right_eq_some, Option.some.injEq, exists_eq_left']

variable {conn : Conn} {call : JoinCall} {stage : JoinStage}

/-- A call goes on, in the calls after a step. -/
theorem calls_setStage {k : Conn} {c : JoinCall}
    (hcalls : m'.calls = Function.update m.calls conn (some { call with stage := stage })) :
    m'.calls k = some c ↔
      k ≠ conn ∧ m.calls k = some c ∨ k = conn ∧ c = { call with stage := stage } := by
  rw [hcalls, Function.update_apply]
  split
  · next h => simp only [h, ne_eq, not_true_eq_false, false_and, false_or, true_and,
      Option.some.injEq, eq_comm]
  · next h => simp only [ne_eq, h, not_false_eq_true, true_and, false_and, or_false]

/-- The calls of a kind, when the call that goes on is of the kind before and after, or not. -/
theorem hasCall_same {kind : JoinStage → Bool} {a : Address} (hcall : m.calls conn = some call)
    (hcalls : m'.calls = Function.update m.calls conn (some { call with stage := stage }))
    (hkind : kind stage = kind call.stage) : m'.HasCall kind a ↔ m.HasCall kind a := by
  constructor
  · rintro ⟨k, c, hc, ha, hk⟩
    rcases (calls_setStage hcalls).1 hc with ⟨-, hold⟩ | ⟨rfl, rfl⟩
    · exact ⟨k, c, hold, ha, hk⟩
    · exact ⟨k, call, hcall, ha, hkind.symm.trans hk⟩
  · rintro ⟨k, c, hc, ha, hk⟩
    by_cases hkc : k = conn
    · subst hkc
      obtain rfl := Option.some.inj (hcall.symm.trans hc)
      exact ⟨k, _, (calls_setStage hcalls).2 (Or.inr ⟨rfl, rfl⟩), ha, hkind.trans hk⟩
    · exact ⟨k, c, (calls_setStage hcalls).2 (Or.inl ⟨hkc, hc⟩), ha, hk⟩

/-- The calls of a kind, when the call that goes on becomes one of them. -/
theorem hasCall_new {kind : JoinStage → Bool} {a : Address} (hcall : m.calls conn = some call)
    (hcalls : m'.calls = Function.update m.calls conn (some { call with stage := stage }))
    (hnew : kind stage = true) (hold : kind call.stage = false) :
    m'.HasCall kind a ↔ a = call.addr ∨ m.HasCall kind a := by
  constructor
  · rintro ⟨k, c, hc, ha, hk⟩
    rcases (calls_setStage hcalls).1 hc with ⟨-, hc⟩ | ⟨rfl, rfl⟩
    · exact Or.inr ⟨k, c, hc, ha, hk⟩
    · exact Or.inl ha.symm
  · rintro (rfl | ⟨k, c, hc, ha, hk⟩)
    · exact ⟨conn, _, (calls_setStage hcalls).2 (Or.inr ⟨rfl, rfl⟩), rfl, hnew⟩
    · refine ⟨k, c, (calls_setStage hcalls).2 (Or.inl ⟨?_, hc⟩), ha, hk⟩
      rintro rfl
      obtain rfl := Option.some.inj (hcall.symm.trans hc)
      rw [hold] at hk
      cases hk

/-- A new connection. -/
theorem calls_connect {a : Address} {term commitIndex : Nat} {k : Conn} {c : JoinCall} :
    (m.connect leader a term commitIndex).calls k = some c ↔
      k ≠ m.nextConn ∧ m.calls k = some c ∨
        k = m.nextConn ∧ c = ⟨a, commitIndex, .requested⟩ := by
  simp only [connect, Function.update_apply]
  split
  · next h => simp only [h, ne_eq, not_true_eq_false, false_and, false_or, true_and,
      Option.some.injEq, eq_comm]
  · next h => simp only [ne_eq, h, not_false_eq_true, true_and, false_and, or_false]

theorem hasCall_connect {kind : JoinStage → Bool} {a x : Address} {term commitIndex : Nat}
    (hfresh : m.calls m.nextConn = none) (hkind : kind .requested = false) :
    (m.connect leader a term commitIndex).HasCall kind x ↔ m.HasCall kind x := by
  constructor
  · rintro ⟨k, c, hc, ha, hk⟩
    rcases calls_connect.1 hc with ⟨-, hc⟩ | ⟨-, rfl⟩
    · exact ⟨k, c, hc, ha, hk⟩
    · rw [hkind] at hk
      cases hk
  · rintro ⟨k, c, hc, ha, hk⟩
    refine ⟨k, c, calls_connect.2 (Or.inl ⟨?_, hc⟩), ha, hk⟩
    rintro rfl
    rw [hfresh] at hc
    cases hc

end Calls

end Membership

end EyaKV.Raft
