import EyaKV.Raft.Election

/-!
# Terms

A node's term never falls, a term that is raised comes without the vote of an earlier one,
and a message of a higher term is obeyed: `TermLaw` says this of one step. Most handlers do
not write the term at all (`step_term`). Those that write it are compared with the law one
by one: `termLaw_iff` gives for each action, in the state in which it is taken, exactly when
its step keeps the law, and `terms_iff` follows a whole run.

Two of the handlers of elections keep the law always. The others do not: a candidacy in the
last of the 32-bit terms comes round to 0, the follower's handler of log replication raises the
term and keeps the vote, the leader's does not look at the term of a response, the handlers of a
join response and of `SETMASTER` store a term that may be lower, `handle_new_master` stores a
term that it compared before it took the mutex, and a restart finds the term that was saved last.
-/

set_option autoImplicit false

namespace EyaKV.Raft

open EyaKV.Store

namespace Node

section Keeping

variable (cfg : RaftNodeConfig) (n : Node)

/-! The handlers that do not write the term. -/

theorem sendAppendEntries_term (conn : Conn) :
    (n.sendAppendEntries cfg conn).1.state.currentTerm = n.state.currentTerm := by
  simp only [sendAppendEntries]
  split
  · rfl
  · rfl

theorem handleAppendEntriesResponse_term (conn : Conn) (success : Bool) (logIndex : Nat) :
    (n.handleAppendEntriesResponse conn success logIndex).state.currentTerm =
      n.state.currentTerm := by
  cases success with
  | true => rfl
  | false => rfl

theorem applyCommittedEntries_term :
    n.applyCommittedEntries.state.currentTerm = n.state.currentTerm := by
  simp only [applyCommittedEntries]
  split
  · rfl
  · rfl

theorem advanceCommit_term : n.advanceCommit.state.currentTerm = n.state.currentTerm := by
  simp only [advanceCommit]
  split
  · rfl
  · rfl

theorem tryCommitEntries_term :
    n.tryCommitEntries.1.state.currentTerm = n.state.currentTerm := by
  simp only [tryCommitEntries]
  split
  · rfl
  · exact (applyCommittedEntries_term _).trans (advanceCommit_term n)

theorem commitEntries_term : n.commitEntries.1.state.currentTerm = n.state.currentTerm := by
  simp only [commitEntries]
  split
  · rfl
  · rfl

theorem removeNode_term (node : Address) :
    (n.removeNode node).state.currentTerm = n.state.currentTerm := by
  simp only [removeNode]
  split
  · rfl
  · rfl

theorem handleJoinCluster_term (addr : Address) (conn : Conn) (lastIndex : Nat) :
    (n.handleJoinCluster cfg addr conn lastIndex).1.state.currentTerm = n.state.currentTerm := by
  simp only [handleJoinCluster]
  split
  · rfl
  · split
    · rfl
    · rfl

theorem setMember_term (self node : Address) (isMember : Bool) :
    (n.setMember self node isMember).state.currentTerm = n.state.currentTerm := by
  simp only [setMember]
  split
  · split
    · rfl
    · rfl
  · rfl

end Keeping

section Writing

variable (cfg : RaftNodeConfig) (n : Node)

/-! What the others write. -/

/-- A message of log replication that is not refused sets the term and leaves the vote. -/
theorem handleAppendEntries_state (origin : Conn) (msg : AppendEntries) :
    (n.handleAppendEntries cfg origin msg).state.currentTerm =
        max n.state.currentTerm msg.term ∧
      (n.handleAppendEntries cfg origin msg).state.votedFor = n.state.votedFor := by
  by_cases hlow : msg.term < n.state.currentTerm
  · simp only [handleAppendEntries, hlow, ↓reduceIte]
    exact ⟨(max_eq_left hlow.le).symm, rfl⟩
  · simp only [handleAppendEntries, hlow, ↓reduceIte]
    rw [max_eq_right (not_lt.1 hlow)]
    split
    · split
      · exact ⟨rfl, rfl⟩
      · exact ⟨rfl, rfl⟩
    · exact ⟨rfl, rfl⟩

/-- A request of a higher term is obeyed, and the only vote of the new term is the one that
the response grants. -/
theorem handleRequestVote_state (msg : RequestVote) (peer : Address) :
    (n.handleRequestVote msg peer).1.state.currentTerm = max n.state.currentTerm msg.term ∧
      (n.state.currentTerm < msg.term →
        ((n.handleRequestVote msg peer).2.2 = false ∧
            (n.handleRequestVote msg peer).1.state.votedFor = none) ∨
          ((n.handleRequestVote msg peer).2 = (msg.term, true) ∧
            (n.handleRequestVote msg peer).1.state.votedFor = some peer)) := by
  by_cases hlow : msg.term < n.state.currentTerm
  · simp only [handleRequestVote, hlow, ↓reduceIte]
    exact ⟨(max_eq_left hlow.le).symm, fun h => absurd h (by omega)⟩
  · simp only [handleRequestVote, hlow, ↓reduceIte]
    rw [max_eq_right (not_lt.1 hlow)]
    by_cases hraise : n.state.currentTerm < msg.term
    · simp only [hraise, ↓reduceIte]
      split
      · exact ⟨rfl, fun _ => Or.inr ⟨rfl, rfl⟩⟩
      · exact ⟨rfl, fun _ => Or.inl ⟨rfl, rfl⟩⟩
    · have heq : n.state.currentTerm = msg.term := by omega
      simp only [hraise, ↓reduceIte]
      split
      · exact ⟨heq, fun h => h.elim⟩
      · exact ⟨heq, fun h => h.elim⟩

theorem handleRequestVoteResponse_state (term : Nat) (granted : Bool) :
    (n.handleRequestVoteResponse term granted).state.currentTerm = max n.state.currentTerm term ∧
      (n.state.currentTerm < term →
        (n.handleRequestVoteResponse term granted).state.votedFor = none) := by
  by_cases hlow : term < n.state.currentTerm
  · simp only [handleRequestVoteResponse, hlow, ↓reduceIte]
    exact ⟨(max_eq_left hlow.le).symm, fun h => absurd h (by omega)⟩
  · rw [max_eq_right (not_lt.1 hlow)]
    by_cases hraise : n.state.currentTerm < term
    · simp only [handleRequestVoteResponse, hlow, hraise, ↓reduceIte]
      exact ⟨rfl, fun _ => rfl⟩
    · have heq : n.state.currentTerm = term := by omega
      simp only [handleRequestVoteResponse, hlow, hraise, ↓reduceIte]
      refine ⟨?_, fun h => h.elim⟩
      split
      · exact heq
      · split
        · split
          · exact heq
          · exact heq
        · exact heq

/-- `become_follower` raises the term to the one it was called with, and then clears the
vote. -/
theorem follow_state (j : Joining) :
    (n.follow j).state.currentTerm = max n.state.currentTerm j.term ∧
      (n.follow j).state.votedFor =
        if n.state.currentTerm < j.term then none else n.state.votedFor := by
  by_cases hraise : n.state.currentTerm < j.term
  · simp only [follow, toFollower, hraise, ↓reduceIte]
    exact ⟨(max_eq_right hraise.le).symm, rfl⟩
  · simp only [follow, toFollower, hraise, ↓reduceIte]
    exact ⟨(max_eq_left (not_lt.1 hraise)).symm, rfl⟩

end Writing

end Node

namespace Cluster

variable {cfg : RaftNodeConfig} {c c' : Cluster}

section Law

/-- The comparison of `handle_new_master` ends the handling of the message. -/
def Ignores (n : Node) (m : NewMaster) : Prop :=
  m.term < n.state.currentTerm ∨ n.role = .leader ∧ m.term = n.state.currentTerm ∨
    m.node = m.leader

instance (n : Node) (m : NewMaster) : Decidable (Ignores n m) :=
  inferInstanceAs (Decidable (_ ∨ _ ∨ _))

/-- The node that has processed a message after an action, and the term of the message. The
messages that are left out are sent without a term. -/
def processed (c : Cluster) : Action → Option (Address × Nat)
  | .requestVote b _ => some (b.voter, b.msg.term)
  | .voteReply r => some (r.candidate, r.term)
  | .appendEntries m _ => some ((c.ends m.conn).follower, m.msg.term)
  | .appendReply r _ => some ((c.ends r.conn).leader, r.term)
  | .joinReply conn (.joined term _) => some ((c.ends conn).follower, term)
  | .joinReply conn (.rejected term) => some ((c.ends conn).follower, term)
  | .newMaster m => if Ignores (c.nodes m.node) m then some (m.node, m.term) else none
  | .task a (.newMaster _ term _) => some (a, term)
  | _ => none

/-- A step leaves the node `a` without the vote of an earlier term: with none, or with the
one that it has given in the step, to itself or to the sender of a request. -/
def VoteCleared (c c' : Cluster) (a : Address) : Prop :=
  (c'.nodes a).state.votedFor = none ∨
    ∃ v : Vote, c'.history.votes = v :: c.history.votes ∧ v.voter = a ∧
      v.term = (c'.nodes a).state.currentTerm ∧ (c'.nodes a).state.votedFor = some v.peer

/-- The node has obeyed a message of the term `term`. -/
def Obeyed (n : Node) (term : Nat) : Prop :=
  term ≤ n.state.currentTerm ∧
    ¬ ((n.role = .leader ∨ n.role = .candidate) ∧ n.state.currentTerm < term)

/-- The law of terms for the step from `c` to `c'` by an action. -/
structure TermLaw (c : Cluster) (act : Action) (c' : Cluster) : Prop where
  monotone : ∀ a, (c.nodes a).state.currentTerm ≤ (c'.nodes a).state.currentTerm
  cleared : ∀ a, (c.nodes a).state.currentTerm < (c'.nodes a).state.currentTerm →
    VoteCleared c c' a
  obeyed : ∀ a term, processed c act = some (a, term) → (c.nodes a).state.currentTerm < term →
    Obeyed (c'.nodes a) term

theorem obeyed_iff {n : Node} {term : Nat} : Obeyed n term ↔ term ≤ n.state.currentTerm :=
  ⟨fun h => h.1, fun h => ⟨h, fun hlt => absurd hlt.2 (not_lt.2 h)⟩⟩

/-- The law for one node that gives no vote, and perhaps has processed a message of the term
`msg`. -/
structure NodeLaw (n n' : Node) (msg : Option Nat) : Prop where
  monotone : n.state.currentTerm ≤ n'.state.currentTerm
  cleared : n.state.currentTerm < n'.state.currentTerm → n'.state.votedFor = none
  obeyed : ∀ term ∈ msg, n.state.currentTerm < term → term ≤ n'.state.currentTerm

/-- A step that changes one node and records no vote. -/
theorem termLaw_node_iff {act : Action} {a : Address} {n : Node} (msg : Option Nat)
    (hnodes : c'.nodes = Function.update c.nodes a n)
    (hvotes : c'.history.votes = c.history.votes)
    (hmsg : processed c act = msg.map fun term => (a, term)) :
    TermLaw c act c' ↔ NodeLaw (c.nodes a) n msg := by
  have hself : c'.nodes a = n := by rw [hnodes, Function.update_self]
  have hother : ∀ x, x ≠ a → c'.nodes x = c.nodes x := by
    intro x hx
    rw [hnodes, Function.update_of_ne hx]
  constructor
  · intro h
    refine ⟨hself ▸ h.monotone a, fun hraise => ?_, fun term hterm hlt => ?_⟩
    · rw [← hself] at hraise ⊢
      rcases h.cleared a hraise with hnone | ⟨v, hv, -⟩
      · exact hnone
      · -- no vote has been given
        rw [hvotes] at hv
        exact absurd hv.symm (List.cons_ne_self v _)
    · have hproc : processed c act = some (a, term) := by
        rw [hmsg, Option.mem_def.1 hterm]
        rfl
      rw [← hself]
      exact (h.obeyed a term hproc hlt).1
  · intro h
    refine ⟨fun x => ?_, fun x hraise => ?_, fun x term hterm hlt => ?_⟩
    · by_cases hx : x = a
      · rw [hx, hself]
        exact h.monotone
      · rw [hother x hx]
    · by_cases hx : x = a
      · rw [hx, hself] at hraise
        exact Or.inl (by rw [hx, hself]; exact h.cleared hraise)
      · rw [hother x hx] at hraise
        exact absurd hraise (lt_irrefl _)
    · rw [hmsg] at hterm
      obtain ⟨t, ht, heq⟩ := Option.map_eq_some_iff.1 hterm
      obtain ⟨rfl, rfl⟩ := Prod.mk.inj heq
      rw [hself, obeyed_iff]
      exact h.obeyed t ht hlt

/-- A step that writes no term and ends the handling of no message of a higher term. -/
theorem termLaw_of_same {act : Action}
    (hsame : ∀ x, (c'.nodes x).state.currentTerm = (c.nodes x).state.currentTerm)
    (hmsg : processed c act = none) : TermLaw c act c' := by
  refine ⟨fun x => (hsame x).ge, fun x hraise => ?_, fun x term hterm => ?_⟩
  · rw [hsame x] at hraise
    exact absurd hraise (lt_irrefl _)
  · rw [hmsg] at hterm
    cases hterm

end Law

section Conditions

/-- A join reply to `become_follower` of a node, called with the term of `j`. A join response
does not carry a lower term, and a higher one only to a node without a vote, which
`become_follower` leaves when it raises the term itself; and a rejection carries no term
that is higher than the two. -/
def JoinMeets (n : Node) (j : Joining) : Node.JoinReply → Prop
  | .joined term _ => n.state.currentTerm ≤ term ∧
      (n.state.currentTerm < j.term ∨ n.state.votedFor = none ∨ term = n.state.currentTerm)
  | .rejected term => term ≤ max n.state.currentTerm j.term
  | .redirect _ => True

instance (n : Node) (j : Joining) : ∀ r, Decidable (JoinMeets n j r)
  | .joined _ _ => inferInstanceAs (Decidable (_ ∧ _))
  | .rejected _ => inferInstanceAs (Decidable (_ ≤ _))
  | .redirect _ => isTrue trivial

/-- When an action keeps the law of terms. -/
def TermMeets (c : Cluster) : Action → Prop
  | .becomeCandidate a => (c.nodes a).state.currentTerm + 1 < 2 ^ 32
  | .appendEntries m _ =>
      (c.nodes (c.ends m.conn).follower).state.currentTerm < m.msg.term →
        (c.nodes (c.ends m.conn).follower).state.votedFor = none
  | .appendReply r _ => r.term ≤ (c.nodes (c.ends r.conn).leader).state.currentTerm
  | .joinReply conn r =>
      ∀ j ∈ (c.nodes (c.ends conn).follower).joining,
        JoinMeets (c.nodes (c.ends conn).follower) j r
  | .setMaster a leader _ =>
      (c.nodes a).state.currentLeader = some leader ∨ (c.nodes a).state.currentTerm = 0
  | .newMaster m => m.node = m.leader → m.term ≤ (c.nodes m.node).state.currentTerm
  | .task a (.newMaster _ term newer) =>
      if newer then (c.nodes a).state.currentTerm ≤ term
      else term ≤ (c.nodes a).state.currentTerm
  | .restart a _ => (c.nodes a).state.currentTerm ≤ (c.nodes a).disk.currentTerm ∧
      ((c.nodes a).state.currentTerm < (c.nodes a).disk.currentTerm →
        (c.nodes a).disk.votedFor = none)
  | _ => True

instance (c : Cluster) : ∀ act, Decidable (TermMeets c act)
  | .becomeCandidate _ => inferInstanceAs (Decidable (_ < _))
  | .appendEntries _ _ => inferInstanceAs (Decidable (_ → _))
  | .appendReply _ _ => inferInstanceAs (Decidable (_ ≤ _))
  | .joinReply conn r =>
      match h : (c.nodes (c.ends conn).follower).joining with
      | none => isTrue fun j hj => by rw [h] at hj; cases hj
      | some j => decidable_of_iff (JoinMeets (c.nodes (c.ends conn).follower) j r)
          ⟨fun hm j' hj' => by rw [h] at hj'; cases hj'; exact hm, fun hm => hm j h⟩
  | .setMaster _ _ _ => inferInstanceAs (Decidable (_ ∨ _))
  | .newMaster _ => inferInstanceAs (Decidable (_ → _))
  | .task _ (.newMaster _ _ _) => by unfold TermMeets; infer_instance
  | .restart _ _ => inferInstanceAs (Decidable (_ ∧ _))
  | .task _ (.submit _ _) | .task _ (.appendReply _ _ _ _ _) | .task _ (.admitNode _ _)
  | .task _ (.broadcast _) | .task _ (.follow _ _ _) | .task _ (.save _)
  | .electionTimeout _ | .readLastInfo _ | .sendRequestVote _
  | .requestVote _ _ | .voteReply _ | .sendAppendEntries _ | .tryCommitEntries _
  | .commitEntries _ | .applyCommittedEntries _ | .submit _ _ | .reconnect _ | .joinRequest _
  | .closeSocket _ | .removeNode _ _ | .notice _ _ | .sendSnapshot _ | .installSnapshot _ =>
      isTrue trivial

/-- The actions that write a term or end the handling of a message with a term. -/
def Terms : Action → Prop
  | .becomeCandidate _ | .requestVote _ _ | .voteReply _ | .appendEntries _ _
  | .appendReply _ _ | .joinReply _ _ | .setMaster _ _ _ | .newMaster _
  | .task _ (.newMaster _ _ _) | .restart _ _ => True
  | _ => False

/-- The terms of a cluster with one node replaced by one of the same term. -/
theorem term_of_node {a : Address} {n : Node} (hnodes : c'.nodes = Function.update c.nodes a n)
    (hn : n.state.currentTerm = (c.nodes a).state.currentTerm) (x : Address) :
    (c'.nodes x).state.currentTerm = (c.nodes x).state.currentTerm := by
  rw [hnodes]
  by_cases hx : x = a
  · rw [hx, Function.update_self]
    exact hn
  · rw [Function.update_of_ne hx]

theorem runTask_term {a : Address} {t : Task} (hother : ¬ Terms (.task a t)) (x : Address) :
    ((c.runTask cfg a t).nodes x).state.currentTerm = (c.nodes x).state.currentTerm := by
  cases t with
  | submit cmds entries =>
      cases cmds with
      | nil => exact term_of_node rfl (by rfl) x
      | cons cmd cmds => exact term_of_node rfl (by rfl) x
  | appendReply origin save term success logIndex =>
      cases save with
      | due => exact term_of_node rfl (by rfl) x
      | serialized saved => exact term_of_node rfl (by rfl) x
      | none =>
          simp only [runTask]
          split
          · exact term_of_node rfl (by rfl) x
          · exact term_of_node rfl (by rfl) x
  | save save =>
      cases save with
      | due => exact term_of_node rfl (by rfl) x
      | serialized saved => exact term_of_node rfl (by rfl) x
      | none => exact term_of_node rfl (by rfl) x
  | admitNode addr conn => exact term_of_node rfl (by rfl) x
  | broadcast term =>
      simp only [runTask]
      split
      · exact term_of_node rfl (by rfl) x
      · exact term_of_node rfl (by rfl) x
  | newMaster leader term newer => exact absurd trivial hother
  | follow leader term commitIndex => exact term_of_node rfl (by rfl) x

/-- The other actions write no term. -/
theorem step_term {act : Action} (hother : ¬ Terms act) (hstep : c.step cfg act = some c')
    (x : Address) : (c'.nodes x).state.currentTerm = (c.nodes x).state.currentTerm := by
  cases act with
  | becomeCandidate a => exact absurd trivial hother
  | requestVote b peer => exact absurd trivial hother
  | voteReply r => exact absurd trivial hother
  | appendEntries m again => exact absurd trivial hother
  | appendReply r again => exact absurd trivial hother
  | joinReply conn r => exact absurd trivial hother
  | setMaster a leader found => exact absurd trivial hother
  | newMaster m => exact absurd trivial hother
  | restart a found => exact absurd trivial hother
  | electionTimeout a =>
      obtain ⟨-, rfl⟩ := of_guard hstep
      exact term_of_node rfl (by rfl) x
  | readLastInfo a =>
      obtain ⟨-, rfl⟩ := of_guard hstep
      exact term_of_node rfl (by rfl) x
  | sendRequestVote a =>
      simp only [step] at hstep
      split at hstep
      · obtain rfl := Option.some.inj hstep
        exact term_of_node rfl (by rfl) x
      · cases hstep
  | sendAppendEntries conn =>
      obtain ⟨-, rfl⟩ := of_guard hstep
      exact term_of_node rfl (Node.sendAppendEntries_term cfg _ conn) x
  | tryCommitEntries a =>
      obtain ⟨-, rfl⟩ := of_guard hstep
      exact term_of_node rfl (Node.tryCommitEntries_term _) x
  | commitEntries a =>
      obtain ⟨-, rfl⟩ := of_guard_not hstep
      exact term_of_node rfl (Node.commitEntries_term _) x
  | applyCommittedEntries a =>
      obtain rfl := Option.some.inj hstep
      exact term_of_node rfl (Node.applyCommittedEntries_term _) x
  | submit a cmds =>
      obtain ⟨-, rfl⟩ := of_guard hstep
      refine term_of_node rfl ?_ x
      split
      · rfl
      · rfl
  | task a t =>
      obtain ⟨-, rfl⟩ := of_guard hstep
      exact runTask_term hother x
  | reconnect a =>
      simp only [step] at hstep
      split at hstep
      · cases hstep
      · obtain rfl := Option.some.inj hstep
        exact term_of_node rfl (by rfl) x
  | joinRequest j =>
      obtain ⟨-, rfl⟩ := of_guard hstep
      exact term_of_node rfl (Node.handleJoinCluster_term cfg _ _ _ _) x
  | closeSocket conn =>
      obtain rfl := Option.some.inj hstep
      exact term_of_node rfl (by rfl) x
  | removeNode a node =>
      obtain ⟨-, rfl⟩ := of_guard hstep
      exact term_of_node rfl (Node.removeNode_term _ node) x
  | notice conn m =>
      obtain ⟨-, rfl⟩ := of_guard hstep
      cases m with
      | member node isMember => exact term_of_node rfl (Node.setMember_term _ _ node isMember) x
      | queryLeader leader =>
          refine term_of_node rfl ?_ x
          simp only
          split
          · rfl
          · rfl
  | sendSnapshot conn =>
      obtain ⟨-, rfl⟩ := of_guard hstep
      rfl
  | installSnapshot m =>
      obtain ⟨-, rfl⟩ := of_guard hstep
      exact term_of_node rfl (by rfl) x

end Conditions

section Steps

/-- A node that takes over the term of a message. -/
theorem nodeLaw_max_iff {n n' : Node} {term : Nat}
    (hterm : n'.state.currentTerm = max n.state.currentTerm term) :
    NodeLaw n n' (some term) ↔ (n.state.currentTerm < term → n'.state.votedFor = none) := by
  constructor
  · intro h hlt
    apply h.cleared
    rw [hterm]
    exact lt_max_of_lt_right hlt
  · intro h
    refine ⟨?_, fun hlt => ?_, fun t ht _ => ?_⟩
    · rw [hterm]
      exact le_max_left _ _
    · rw [hterm] at hlt
      exact h ((lt_max_iff.1 hlt).resolve_left (lt_irrefl _))
    · obtain rfl := Option.some.inj ht
      rw [hterm]
      exact le_max_right _ _

/-- A node that keeps its term. -/
theorem nodeLaw_same_iff {n n' : Node} {term : Nat}
    (hterm : n'.state.currentTerm = n.state.currentTerm) :
    NodeLaw n n' (some term) ↔ term ≤ n.state.currentTerm := by
  constructor
  · intro h
    by_contra hlt
    have hle := h.obeyed term rfl (not_le.1 hlt)
    rw [hterm] at hle
    exact hlt hle
  · intro h
    refine ⟨hterm.ge, fun hlt => ?_, fun t ht hlt => ?_⟩
    · rw [hterm] at hlt
      exact absurd hlt (lt_irrefl _)
    · obtain rfl := Option.some.inj ht
      exact absurd hlt (not_lt.2 h)

/-- Without a message. -/
theorem nodeLaw_none_iff {n n' : Node} :
    NodeLaw n n' none ↔ n.state.currentTerm ≤ n'.state.currentTerm ∧
      (n.state.currentTerm < n'.state.currentTerm → n'.state.votedFor = none) :=
  ⟨fun h => ⟨h.monotone, h.cleared⟩, fun h => ⟨h.1, h.2, fun _ ht => by cases ht⟩⟩

/-- `become_candidate` raises the term unless it comes round, and the vote of the new term is
its own. -/
theorem termLaw_becomeCandidate_iff (a : Address) :
    TermLaw c (.becomeCandidate a) (c.becomeCandidate a) ↔
      TermMeets c (.becomeCandidate a) := by
  obtain ⟨hterm, hvote, -, -, -⟩ := becomeCandidate_spec (c.nodes a) a
  have hnodes : (c.becomeCandidate a).nodes =
      Function.update c.nodes a ((c.nodes a).becomeCandidate a) := rfl
  constructor
  · intro h
    have hle := h.monotone a
    rw [hnodes, Function.update_self, hterm] at hle
    show (c.nodes a).state.currentTerm + 1 < 2 ^ 32
    omega
  · intro hmeets
    refine ⟨fun x => ?_, fun x hraise => ?_, fun x term hmsg => by cases hmsg⟩
    · rw [hnodes, Function.update_apply]
      split
      · next hx =>
          rw [hx, becomeCandidate_term hmeets a]
          exact Nat.le_succ _
      · exact le_rfl
    · by_cases hx : x = a
      · subst hx
        refine Or.inr ⟨_, rfl, rfl, ?_, ?_⟩
        · rw [hnodes, Function.update_self]
        · rw [hnodes, Function.update_self]
          exact hvote
      · rw [hnodes, Function.update_of_ne hx] at hraise
        exact absurd hraise (lt_irrefl _)

/-- `handle_request_vote` clears the vote of the earlier term before it may grant the new
one. -/
theorem termLaw_requestVote (b : Ballot) (peer : Address) :
    TermLaw c (.requestVote b peer) (c.requestVote b peer) := by
  obtain ⟨hterm, hvote⟩ := (c.nodes b.voter).handleRequestVote_state b.msg peer
  have hself : (c.requestVote b peer).nodes b.voter =
      ((c.nodes b.voter).handleRequestVote b.msg peer).1 := Function.update_self _ _ _
  have hother : ∀ x, x ≠ b.voter → (c.requestVote b peer).nodes x = c.nodes x :=
    fun x hx => Function.update_of_ne hx _ _
  refine ⟨fun x => ?_, fun x hraise => ?_, fun x term hmsg hlt => ?_⟩
  · by_cases hx : x = b.voter
    · rw [hx, hself, hterm]
      exact le_max_left _ _
    · rw [hother x hx]
  · by_cases hx : x = b.voter
    · subst hx
      rw [hself, hterm] at hraise
      have hlt := (lt_max_iff.1 hraise).resolve_left (lt_irrefl _)
      rcases hvote hlt with ⟨-, hnone⟩ | ⟨hgranted, hsome⟩
      · exact Or.inl (by rw [hself]; exact hnone)
      · refine Or.inr ⟨⟨b.voter, b.msg.term, b.candidate, peer⟩, ?_, rfl, ?_, ?_⟩
        · simp only [requestVote, hgranted, ↓reduceIte]
        · rw [hself, hterm, max_eq_right hlt.le]
        · rw [hself]
          exact hsome
    · rw [hother x hx] at hraise
      exact absurd hraise (lt_irrefl _)
  · obtain ⟨rfl, rfl⟩ := Prod.mk.inj (Option.some.inj hmsg)
    rw [hself, obeyed_iff, hterm]
    exact le_max_right _ _

/-- `become_follower` before the reply is handled, for a node that comes after it. -/
theorem follow_cleared {n n' : Node} {j : Joining}
    (hterm : n'.state.currentTerm = (n.follow j).state.currentTerm)
    (hvote : n'.state.votedFor = (n.follow j).state.votedFor)
    (hraise : n.state.currentTerm < n'.state.currentTerm) : n'.state.votedFor = none := by
  obtain ⟨hfterm, hfvote⟩ := n.follow_state j
  rw [hterm, hfterm] at hraise
  rw [hvote, hfvote, if_pos ((lt_max_iff.1 hraise).resolve_left (lt_irrefl _))]

theorem termLaw_joined_iff {conn : Conn} {j : Joining} {term : Nat} {nodes : Finset Address} :
    TermLaw c (.joinReply conn (.joined term nodes))
        (c.joinReply (c.ends conn).follower j (.joined term nodes)) ↔
      JoinMeets (c.nodes (c.ends conn).follower) j (.joined term nodes) := by
  refine Iff.trans (termLaw_node_iff (some term) rfl rfl rfl) ?_
  obtain ⟨-, hvote⟩ := (c.nodes (c.ends conn).follower).follow_state j
  -- the response's term and the vote that `become_follower` leaves
  constructor
  · intro h
    refine ⟨h.monotone, ?_⟩
    rcases Nat.eq_or_lt_of_le h.monotone with heq | hlt
    · exact Or.inr (Or.inr heq.symm)
    · have hnone := h.cleared hlt
      by_cases hj : (c.nodes (c.ends conn).follower).state.currentTerm < j.term
      · exact Or.inl hj
      · rw [if_neg hj] at hvote
        exact Or.inr (Or.inl (hvote.symm.trans hnone))
  · rintro ⟨hle, hfree⟩
    refine ⟨hle, fun hlt => hvote.trans ?_, fun t ht _ => (Option.some.inj ht).ge⟩
    rcases hfree with hj | hnone | heq
    · exact if_pos hj
    · rw [hnone, ite_self]
    · rw [← heq] at hlt
      exact absurd hlt (lt_irrefl _)

theorem termLaw_rejected_iff {conn : Conn} {j : Joining} {term : Nat} :
    TermLaw c (.joinReply conn (.rejected term))
        (c.joinReply (c.ends conn).follower j (.rejected term)) ↔
      JoinMeets (c.nodes (c.ends conn).follower) j (.rejected term) := by
  refine Iff.trans (termLaw_node_iff (some term) rfl rfl rfl) ?_
  obtain ⟨hterm, -⟩ := (c.nodes (c.ends conn).follower).follow_state j
  constructor
  · intro h
    by_contra hgt
    have hlt := not_le.1 hgt
    have hle := h.obeyed term rfl ((le_max_left _ _).trans_lt hlt)
    exact hgt (hle.trans hterm.le)
  · intro h
    refine ⟨?_, follow_cleared rfl rfl, fun t ht _ => ?_⟩
    · exact hterm.symm ▸ le_max_left _ _
    · obtain rfl := Option.some.inj ht
      exact hterm.symm ▸ h

theorem termLaw_redirect {conn : Conn} {j : Joining} {leader : Option Address} :
    TermLaw c (.joinReply conn (.redirect leader))
      (c.joinReply (c.ends conn).follower j (.redirect leader)) := by
  obtain ⟨hterm, -⟩ := (c.nodes (c.ends conn).follower).follow_state j
  have hle : (c.nodes (c.ends conn).follower).state.currentTerm ≤
      ((c.nodes (c.ends conn).follower).follow j).state.currentTerm := hterm ▸ le_max_left _ _
  cases leader with
  | none =>
      refine Iff.mpr (termLaw_node_iff none rfl rfl rfl) (nodeLaw_none_iff.2 ⟨hle, ?_⟩)
      exact follow_cleared rfl rfl
  | some leader =>
      have hsame : ∀ n : Node, (if leader = (c.ends conn).follower then n.becomeLeader
            else n.addTask (.follow leader 0 0)).state.currentTerm = n.state.currentTerm ∧
          (if leader = (c.ends conn).follower then n.becomeLeader
            else n.addTask (.follow leader 0 0)).state.votedFor = n.state.votedFor := by
        intro n
        split
        · exact ⟨rfl, rfl⟩
        · exact ⟨rfl, rfl⟩
      refine Iff.mpr (termLaw_node_iff none rfl rfl rfl) (nodeLaw_none_iff.2 ⟨?_, ?_⟩)
      · exact hle.trans (hsame _).1.ge
      · exact follow_cleared (hsame _).1 (hsame _).2

theorem termLaw_setMaster_iff {a leader : Address} {found : RaftLogArray} :
    TermLaw c (.setMaster a leader found) (c.setMaster a leader found) ↔
      TermMeets c (.setMaster a leader found) := by
  simp only [setMaster, TermMeets]
  split
  · next hleader =>
      refine iff_of_true (termLaw_of_same (fun x => ?_) rfl) (Or.inl hleader)
      split
      · rfl
      · exact term_of_node rfl (by rfl) x
  · next hleader =>
      refine Iff.trans (termLaw_node_iff none rfl rfl rfl) (nodeLaw_none_iff.trans ?_)
      -- the node has the term 0 now
      constructor
      · rintro ⟨hle, -⟩
        exact Or.inr (Nat.le_zero.1 hle)
      · intro h
        have hzero := h.resolve_left hleader
        exact ⟨hzero.le, fun hlt => absurd hlt (Nat.not_lt_zero _)⟩

theorem termLaw_newMaster_iff {m : NewMaster} :
    TermLaw c (.newMaster m) (c.newMaster m) ↔ TermMeets c (.newMaster m) := by
  by_cases hignore : Ignores (c.nodes m.node) m
  · have hsame : c.newMaster m =
        { c with net := { c.net with newMasters := c.net.newMasters.erase m } } := if_pos hignore
    have hmsg : processed c (.newMaster m) = (some m.term).map fun term => (m.node, term) :=
      if_pos hignore
    rw [hsame]
    refine Iff.trans
      (termLaw_node_iff (some m.term) (Function.update_eq_self m.node _).symm rfl hmsg) ?_
    refine Iff.trans (nodeLaw_same_iff rfl) ?_
    refine ⟨fun h _ => h, fun h => ?_⟩
    rcases hignore with hlow | ⟨-, heq⟩ | hself
    · exact hlow.le
    · exact heq.le
    · exact h hself
  · have hmsg : processed c (.newMaster m) = none := if_neg hignore
    refine iff_of_true (termLaw_of_same (fun x => ?_) hmsg)
      fun hself => absurd (Or.inr (Or.inr hself)) hignore
    rw [show c.newMaster m = _ from if_neg hignore]
    exact term_of_node rfl (by rfl) x

theorem termLaw_storeNewMaster_iff {a leader : Address} {term : Nat} {newer : Bool} :
    TermLaw c (.task a (.newMaster leader term newer))
        (c.runTask cfg a (.newMaster leader term newer)) ↔
      TermMeets c (.task a (.newMaster leader term newer)) := by
  refine Iff.trans (termLaw_node_iff (some term) rfl rfl rfl) ?_
  cases newer with
  | true =>
      constructor
      · intro h
        exact h.monotone
      · intro h
        exact ⟨h, fun _ => rfl, fun t ht _ => (Option.some.inj ht).ge⟩
  | false => exact nodeLaw_same_iff rfl

/-- **The law of one step.** A step keeps the law of terms exactly under `TermMeets`. -/
theorem termLaw_iff {act : Action} (hstep : c.step cfg act = some c') :
    TermLaw c act c' ↔ TermMeets c act := by
  -- the actions that write a term one by one; the others keep terms and votes
  by_cases hterms : Terms act
  · cases act with
    | becomeCandidate a =>
        obtain ⟨-, rfl⟩ := of_guard hstep
        exact termLaw_becomeCandidate_iff a
    | requestVote b peer =>
        obtain ⟨-, rfl⟩ := of_guard hstep
        exact iff_of_true (termLaw_requestVote b peer) trivial
    | voteReply r =>
        obtain ⟨-, rfl⟩ := of_guard hstep
        obtain ⟨hterm, hvote⟩ :=
          (c.nodes r.candidate).handleRequestVoteResponse_state r.term r.voteGranted
        refine iff_of_true (Iff.mpr (termLaw_node_iff (some r.term) rfl rfl rfl) ?_) trivial
        exact (nodeLaw_max_iff hterm).2 hvote
    | appendEntries m again =>
        obtain ⟨-, rfl⟩ := of_guard hstep
        obtain ⟨hterm, hvote⟩ :=
          (c.nodes (c.ends m.conn).follower).handleAppendEntries_state cfg m.conn m.msg
        refine Iff.trans (termLaw_node_iff (some m.msg.term) rfl rfl rfl) ?_
        rw [nodeLaw_max_iff hterm, hvote]
        rfl
    | appendReply r again =>
        obtain ⟨-, rfl⟩ := of_guard hstep
        refine Iff.trans (termLaw_node_iff (some r.term) rfl rfl rfl) ?_
        exact nodeLaw_same_iff (Node.handleAppendEntriesResponse_term _ _ _ _)
    | joinReply conn r =>
        simp only [step] at hstep
        split at hstep
        · cases hstep
        · next j hj =>
            obtain ⟨-, rfl⟩ := of_guard hstep
            have hmeets : TermMeets c (.joinReply conn r) ↔
                JoinMeets (c.nodes (c.ends conn).follower) j r := by
              simp only [TermMeets, hj, Option.mem_some_iff, forall_eq']
            rw [hmeets]
            cases r with
            | joined term nodes => exact termLaw_joined_iff
            | rejected term => exact termLaw_rejected_iff
            | redirect leader => exact iff_of_true termLaw_redirect trivial
    | setMaster a leader found =>
        obtain ⟨-, rfl⟩ := of_guard hstep
        exact termLaw_setMaster_iff
    | newMaster m =>
        obtain ⟨-, rfl⟩ := of_guard hstep
        exact termLaw_newMaster_iff
    | task a t =>
        cases t with
        | newMaster leader term newer =>
            obtain ⟨-, rfl⟩ := of_guard hstep
            exact termLaw_storeNewMaster_iff
        | _ => exact absurd hterms id
    | restart a found =>
        obtain rfl := Option.some.inj hstep
        exact Iff.trans (termLaw_node_iff none rfl rfl rfl) nodeLaw_none_iff
    | _ => exact absurd hterms id
  · have hlaw : TermLaw c act c' := by
      refine termLaw_of_same (step_term hterms hstep) ?_
      cases act with
      | task a t =>
          cases t with
          | newMaster leader term newer => exact absurd trivial hterms
          | _ => rfl
      | joinReply conn r => exact absurd trivial hterms
      | requestVote b peer => exact absurd trivial hterms
      | voteReply r => exact absurd trivial hterms
      | appendEntries m again => exact absurd trivial hterms
      | appendReply r again => exact absurd trivial hterms
      | newMaster m => exact absurd trivial hterms
      | _ => rfl
    -- and for those the condition asks for nothing
    refine iff_of_true hlaw ?_
    cases act with
    | task a t =>
        cases t with
        | newMaster leader term newer => exact absurd trivial hterms
        | _ => trivial
    | joinReply conn r => exact absurd trivial hterms
    | appendEntries m again => exact absurd trivial hterms
    | appendReply r again => exact absurd trivial hterms
    | newMaster m => exact absurd trivial hterms
    | becomeCandidate a => exact absurd trivial hterms
    | setMaster a leader found => exact absurd trivial hterms
    | restart a found => exact absurd trivial hterms
    | _ => trivial

end Steps

section Runs

/-- An action keeps the law of terms, when it is possible. -/
def KeepsTerms (cfg : RaftNodeConfig) (c : Cluster) (act : Action) : Prop :=
  ∀ c', c.step cfg act = some c' → TermLaw c act c'

theorem runMeets_congr {meets meets' : Cluster → Action → Prop}
    (hiff : ∀ c act c', c.step cfg act = some c' → (meets c act ↔ meets' c act))
    (actions : List Action) :
    ∀ c c', run cfg c actions = some c' →
      (RunMeets cfg meets c actions ↔ RunMeets cfg meets' c actions) := by
  induction actions with
  | nil =>
      intro c c' _
      exact Iff.rfl
  | cons act rest ih =>
      intro c c' hrun
      obtain ⟨c'', hone, hmore⟩ := Option.bind_eq_some_iff.1 hrun
      refine and_congr (hiff c act c'' hone) (forall_congr' fun d => forall_congr' fun hd => ?_)
      obtain rfl := Option.some.inj (hone.symm.trans hd)
      exact ih c'' c' hmore

/-- The condition holds where the last action of a run is taken. -/
theorem RunMeets.last {meets : Cluster → Action → Prop} {act : Action} (actions : List Action) :
    ∀ c c', RunMeets cfg meets c (actions ++ [act]) → run cfg c actions = some c' →
      meets c' act := by
  induction actions with
  | nil =>
      intro c c' hmeets hrun
      exact Option.some.inj hrun ▸ hmeets.1
  | cons first rest ih =>
      intro c c' hmeets hrun
      obtain ⟨c'', hone, hmore⟩ := Option.bind_eq_some_iff.1 hrun
      exact ih c'' c' (hmeets.2 c'' hone) hmore

/-- **Terms.** In every run, from any cluster, every step keeps the law of terms exactly when
every step is taken under `TermMeets`. -/
theorem terms_iff (cfg : RaftNodeConfig) (start c : Cluster) (actions : List Action)
    (hrun : run cfg start actions = some c) :
    RunMeets cfg (KeepsTerms cfg) start actions ↔ RunMeets cfg TermMeets start actions := by
  refine runMeets_congr (fun d act d' hstep => ?_) actions start c hrun
  constructor
  · intro h
    exact (termLaw_iff hstep).1 (h d' hstep)
  · intro h d'' hstep'
    exact (termLaw_iff hstep').2 h

set_option maxRecDepth 10000 in
/-- In the run in which node 3 of three nodes wins term 1, every step keeps the law. -/
theorem terms_iff_elected :
    ∃ c, run plainConfig {} elected = some c ∧
      RunMeets plainConfig (KeepsTerms plainConfig) {} elected := by
  obtain ⟨c, hrun, -⟩ : ∃ c ∈ run plainConfig {} elected, c.history.elections.length = 1 := by
    decide
  have hmeets : RunMeets plainConfig TermMeets {} elected := by decide
  exact ⟨c, hrun, (terms_iff plainConfig {} c elected hrun).2 hmeets⟩

/-- After the election of node 3, node 1 still sends a message to node 2 as the leader of
the term 0. -/
def staleLeader : List Action :=
  elected ++ [.sendAppendEntries 1, .appendEntries ⟨1, ⟨0, 0, 0, [], 0⟩, []⟩ false,
    .task (node 2) (.appendReply 1 .none 1 false 0)]

/-- The response of node 2 carries its term 1. -/
def staleReply : Action := .appendReply ⟨1, 1, 1, false, 0⟩ false

set_option maxRecDepth 10000 in
/-- A leader does not look at the term of a response, and stays the leader of a smaller term. -/
theorem not_keepsTerms_staleLeader :
    ¬ ∀ (cfg : RaftNodeConfig) (start c : Cluster) (actions : List Action),
      run cfg start actions = some c → RunMeets cfg (KeepsTerms cfg) start actions := by
  intro h
  obtain ⟨c, hrun, c', hstep, hmsg, hterm, hstale⟩ : ∃ c ∈ run plainConfig {} staleLeader,
      ∃ c' ∈ c.step plainConfig staleReply, processed c staleReply = some (node 1, 1) ∧
        (c.nodes (node 1)).state.currentTerm = 0 ∧
          (c'.nodes (node 1)).role = .leader ∧ (c'.nodes (node 1)).state.currentTerm = 0 := by
    decide
  obtain ⟨d, hall⟩ := Option.isSome_iff_exists.1
    (show (run plainConfig {} (staleLeader ++ [staleReply])).isSome by decide)
  have hkeeps := (h plainConfig {} d _ hall).last staleLeader {} c hrun
  have hobeyed := (hkeeps c' hstep).obeyed (node 1) 1 hmsg (by rw [hterm]; exact Nat.one_pos)
  exact hobeyed.2 ⟨Or.inl hstale.1, by rw [hstale.2]; exact Nat.one_pos⟩

end Runs

end Cluster

end EyaKV.Raft
