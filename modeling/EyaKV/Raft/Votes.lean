import EyaKV.Base.Quorum
import EyaKV.Raft.Cluster

/-!
# Votes and elections

Which votes a node gives and which elections it wins depends on few of its fields: the
term and the vote in memory and on disk, the role, the vote counter and the phase of
the election thread. `Quiet` says that a change of a node leaves the votes alone: the
term only rises, the vote changes only with it, and no candidacy begins. Every handler
but those of the election is quiet, as long as it does not lower the term
(`step_quiet`).

Three handlers do lower it. `handle_join_cluster_response` and `SETMASTER` store a term
without looking at the current one, and `handle_new_master` stores one that it compared
before it took the mutex. A candidacy comes round to the term 0, and a state that is saved
without the mutex can be older than the one on the disk. `VoteMeets` lists these and what
else an election relies on, and `election_safety` is what holds of a run whose steps all
meet it.
-/

set_option autoImplicit false

namespace EyaKV.Raft

open EyaKV.Base EyaKV.Store

section Later

/-- The term of `s'` is higher, or both have the same term and vote. -/
def Later (s s' : PersistentState) : Prop :=
  (s'.currentTerm = s.currentTerm ∧ s'.votedFor = s.votedFor) ∨ s.currentTerm < s'.currentTerm

variable {s s' s'' : PersistentState}

instance (s s' : PersistentState) : Decidable (Later s s') :=
  inferInstanceAs (Decidable (_ ∨ _))

theorem Later.rfl : Later s s := Or.inl ⟨Eq.refl _, Eq.refl _⟩

theorem Later.term_le (h : Later s s') : s.currentTerm ≤ s'.currentTerm := by
  rcases h with ⟨h, -⟩ | h
  · omega
  · omega

theorem Later.trans (h : Later s s') (h' : Later s' s'') : Later s s'' := by
  rcases h with ⟨ht, hv⟩ | h
  · rcases h' with ⟨ht', hv'⟩ | h'
    · exact Or.inl ⟨ht'.trans ht, hv'.trans hv⟩
    · exact Or.inr (by omega)
  · exact Or.inr (lt_of_lt_of_le h h'.term_le)

end Later

/-- The election thread has begun a candidacy for which it has not yet sent requests. -/
def ElectionPhase.Pending : ElectionPhase → Prop
  | .candidacy => True
  | .campaign _ _ => True
  | _ => False

/-- A change of a node that gives no vote and begins no candidacy. -/
structure Quiet (n n' : Node) : Prop where
  state : Later n.state n'.state
  disk : Later n.disk n'.disk ∨ Later n.state n'.disk
  candidate : n'.role = .candidate →
    n.role = .candidate ∧ n'.state.currentTerm = n.state.currentTerm ∧
      n'.grantedVotes = n.grantedVotes
  pending : n'.election.Pending → n.election.Pending

namespace Quiet

variable {n n' n'' : Node}

theorem rfl : Quiet n n := ⟨Later.rfl, Or.inl Later.rfl, fun h => ⟨h, Eq.refl _, Eq.refl _⟩, id⟩

theorem trans (h : Quiet n n') (h' : Quiet n' n'') : Quiet n n'' := by
  refine ⟨h.state.trans h'.state, ?_, fun hc => ?_, fun hp => h.pending (h'.pending hp)⟩
  · rcases h'.disk with hd | hd
    · exact h.disk.imp (fun h => h.trans hd) fun h => h.trans hd
    · exact Or.inr (h.state.trans hd)
  · obtain ⟨hr', ht', hg'⟩ := h'.candidate hc
    obtain ⟨hr, ht, hg⟩ := h.candidate hr'
    exact ⟨hr, ht'.trans ht, hg'.trans hg⟩

/-- A change of other fields, which may end a candidacy and may be saved. -/
theorem of_same (hterm : n'.state.currentTerm = n.state.currentTerm)
    (hvote : n'.state.votedFor = n.state.votedFor)
    (hdisk : n'.disk = n.disk ∨ n'.disk = n'.state ∨ Later n.state n'.disk)
    (hrole : n'.role = n.role ∨ n'.role ≠ .candidate)
    (hgranted : n'.grantedVotes = n.grantedVotes)
    (hphase : n'.election.Pending → n.election.Pending) : Quiet n n' := by
  refine ⟨Or.inl ⟨hterm, hvote⟩, ?_, fun hc => ?_, hphase⟩
  · rcases hdisk with h | h | h
    · exact Or.inl (h ▸ Later.rfl)
    · rw [h]
      exact Or.inr (Or.inl ⟨hterm, hvote⟩)
    · exact Or.inr h
  · rcases hrole with h | h
    · exact ⟨h ▸ hc, hterm, hgranted⟩
    · exact absurd hc h

/-- A higher term, which ends a candidacy. -/
theorem of_raise (hterm : n.state.currentTerm < n'.state.currentTerm)
    (hdisk : n'.disk = n.disk ∨ n'.disk = n'.state) (hrole : n'.role ≠ .candidate)
    (hphase : n'.election.Pending → n.election.Pending) : Quiet n n' := by
  refine ⟨Or.inr hterm, ?_, fun hc => absurd hc hrole, hphase⟩
  rcases hdisk with h | h
  · exact Or.inl (h ▸ Later.rfl)
  · rw [h]
    exact Or.inr (Or.inr hterm)

theorem savePersistentState (n : Node) : Quiet n n.savePersistentState :=
  of_same (Eq.refl _) (Eq.refl _) (Or.inr (Or.inl (Eq.refl _))) (Or.inl (Eq.refl _)) (Eq.refl _) id

/-- The write of a state that is not older than the one on the disk. -/
theorem writePersistentState {saved : PersistentState} (h : Later n.disk saved) :
    Quiet n (n.writePersistentState saved) :=
  ⟨Later.rfl, Or.inl h, fun hc => ⟨hc, Eq.refl _, Eq.refl _⟩, id⟩

theorem addTask (n : Node) (t : Task) : Quiet n (n.addTask t) :=
  of_same (Eq.refl _) (Eq.refl _) (Or.inl (Eq.refl _)) (Or.inl (Eq.refl _)) (Eq.refl _) id

theorem becomeLeader (n : Node) : Quiet n n.becomeLeader :=
  of_same (Eq.refl _) (Eq.refl _) (Or.inr (Or.inl (Eq.refl _)))
    (Or.inr (by intro h; cases h)) (Eq.refl _) id

/-- Log replication gives no votes; a higher term makes the node a follower. -/
theorem handleAppendEntries (cfg : RaftNodeConfig) (n : Node) (origin : Conn)
    (msg : Node.AppendEntries) : Quiet n (n.handleAppendEntries cfg origin msg) := by
  unfold Node.handleAppendEntries
  split
  · exact addTask n _
  · next hterm =>
      have hraise : ∀ n' : Node, n'.state.currentTerm = msg.term →
          n'.state.votedFor = n.state.votedFor → n'.disk = n.disk → n'.role = .follower →
          n'.election = n.election → Quiet n n' := by
        intro n' ht hv hd hr he
        refine ⟨?_, Or.inl (hd ▸ Later.rfl), fun hc => ?_, fun hp => he ▸ hp⟩
        · by_cases h : n.state.currentTerm = msg.term
          · exact Or.inl ⟨ht.trans h.symm, hv⟩
          · exact Or.inr (by omega)
        · rw [hr] at hc
          cases hc
      simp only
      split
      · split
        · exact hraise _ (Eq.refl _) (Eq.refl _) (Eq.refl _) (Eq.refl _) (Eq.refl _)
        · exact hraise _ (Eq.refl _) (Eq.refl _) (Eq.refl _) (Eq.refl _) (Eq.refl _)
      · exact hraise _ (Eq.refl _) (Eq.refl _) (Eq.refl _) (Eq.refl _) (Eq.refl _)

theorem sendAppendEntries (cfg : RaftNodeConfig) (n : Node) (conn : Conn) :
    Quiet n (n.sendAppendEntries cfg conn).1 := by
  unfold Node.sendAppendEntries
  split
  · exact rfl
  · exact of_same (Eq.refl _) (Eq.refl _) (Or.inl (Eq.refl _)) (Or.inl (Eq.refl _)) (Eq.refl _) id

theorem handleAppendEntriesResponse (n : Node) (conn : Conn) (success : Bool) (logIndex : Nat) :
    Quiet n (n.handleAppendEntriesResponse conn success logIndex) := by
  unfold Node.handleAppendEntriesResponse
  split
  · exact of_same (Eq.refl _) (Eq.refl _) (Or.inl (Eq.refl _)) (Or.inl (Eq.refl _)) (Eq.refl _) id
  · exact of_same (Eq.refl _) (Eq.refl _) (Or.inl (Eq.refl _)) (Or.inl (Eq.refl _)) (Eq.refl _) id

theorem applyCommittedEntries (n : Node) : Quiet n n.applyCommittedEntries := by
  unfold Node.applyCommittedEntries
  split
  · exact rfl
  · exact of_same (Eq.refl _) (Eq.refl _) (Or.inr (Or.inl (Eq.refl _))) (Or.inl (Eq.refl _))
      (Eq.refl _) id

theorem tryCommitEntries (n : Node) : Quiet n n.tryCommitEntries.1 := by
  unfold Node.tryCommitEntries
  split
  · exact rfl
  · refine trans (?_ : Quiet n n.advanceCommit) (applyCommittedEntries _)
    unfold Node.advanceCommit
    split
    · exact of_same (Eq.refl _) (Eq.refl _) (Or.inr (Or.inl (Eq.refl _))) (Or.inl (Eq.refl _))
        (Eq.refl _) id
    · exact rfl

theorem commitEntries (n : Node) : Quiet n n.commitEntries.1 := by
  unfold Node.commitEntries
  split
  · exact rfl
  · exact of_same (Eq.refl _) (Eq.refl _) (Or.inr (Or.inl (Eq.refl _))) (Or.inl (Eq.refl _))
      (Eq.refl _) id

theorem removeNode (n : Node) (node : Address) : Quiet n (n.removeNode node) := by
  unfold Node.removeNode
  split
  · exact rfl
  · exact of_same (Eq.refl _) (Eq.refl _) (Or.inl (Eq.refl _)) (Or.inl (Eq.refl _))
      (Eq.refl _) id

theorem handleJoinCluster (cfg : RaftNodeConfig) (n : Node) (addr : Address) (conn : Conn)
    (lastIndex : Nat) : Quiet n (n.handleJoinCluster cfg addr conn lastIndex).1 := by
  unfold Node.handleJoinCluster
  split
  · exact rfl
  · split
    · exact rfl
    · exact of_same (Eq.refl _) (Eq.refl _) (Or.inl (Eq.refl _)) (Or.inl (Eq.refl _))
        (Eq.refl _) id

theorem follow (n : Node) (j : Joining) : Quiet n (n.follow j) := by
  unfold Node.follow
  by_cases h : n.state.currentTerm < j.term
  · refine of_raise ?_ (Or.inr ?_) ?_ ?_
    all_goals simp only [Node.toFollower, h, ↓reduceIte, Node.adoptTerm, Node.savePersistentState]
    · intro hc
      cases hc
    · exact id
  · refine of_same ?_ ?_ (Or.inr (Or.inl ?_)) (Or.inr ?_) ?_ ?_
    all_goals simp only [Node.toFollower, h, ↓reduceIte, Node.savePersistentState]
    · intro hc
      cases hc
    · exact id

theorem setMember (n : Node) (self node : Address) (isMember : Bool) :
    Quiet n (n.setMember self node isMember) := by
  unfold Node.setMember
  split
  · split
    · exact rfl
    · exact becomeLeader n
  · exact of_same (Eq.refl _) (Eq.refl _) (Or.inr (Or.inl (Eq.refl _))) (Or.inl (Eq.refl _))
      (Eq.refl _) id

end Quiet

/-- A change of a node that begins no candidacy and counts no vote. -/
structure Steady (n n' : Node) : Prop where
  term : n.state.currentTerm ≤ n'.state.currentTerm
  pending : n'.election.Pending → n.election.Pending
  candidate : n'.role = .candidate →
    n.role = .candidate ∧ n'.state.currentTerm = n.state.currentTerm ∧
      n'.grantedVotes = n.grantedVotes

theorem Steady.rfl {n : Node} : Steady n n := ⟨Nat.le_refl _, id, fun h => ⟨h, Eq.refl _, Eq.refl _⟩⟩

theorem Quiet.steady {n n' : Node} (h : Quiet n n') : Steady n n' :=
  ⟨h.state.term_le, h.pending, h.candidate⟩

namespace Cluster

variable {cfg : RaftNodeConfig} {c c' : Cluster}

theorem setNode_nodes (a x : Address) (n : Node) :
    (c.setNode a n).nodes x = if x = a then n else c.nodes x :=
  Function.update_apply _ _ _ _

/-- What an election relies on, for an action in the state `c`. The requests that reach a
node in one term come from the address of one candidate each; a candidate's cluster nodes,
when it asks for votes and when it wins, are the other members of a set that the term has
in common; no handler lowers the term of a node, or changes it during a candidacy; and no
write without the mutex takes the saved term or vote back. -/
def VoteMeets (members : Nat → Finset Address) (c : Cluster) : Action → Prop
  | .becomeCandidate a => (c.nodes a).state.currentTerm + 1 < 2 ^ 32
  | .requestVote b peer => ∀ w ∈ c.history.votes,
      w.voter = b.voter → w.term = b.msg.term → w.peer = peer → w.candidate = b.candidate
  | .sendRequestVote a =>
      a ∈ members (c.nodes a).state.currentTerm ∧
        (c.nodes a).state.clusterNodes = (members (c.nodes a).state.currentTerm).erase a
  | .voteReply r => Wins (c.nodes r.candidate) r →
      r.candidate ∈ members r.term ∧
        (c.nodes r.candidate).state.clusterNodes = (members r.term).erase r.candidate
  | .joinReply conn r => ∀ (j : Joining) (term : Nat) (nodes : Finset Address),
      (c.nodes (c.ends conn).follower).joining = some j → r = .joined term nodes →
        ((c.nodes (c.ends conn).follower).follow j).state.currentTerm ≤ term
  | .setMaster a leader _ =>
      (c.nodes a).state.currentLeader = some leader ∨ (c.nodes a).state.currentTerm = 0
  | .task a (.newMaster _ term newer) => newer = true →
      (c.nodes a).state.currentTerm < term ∧ (c.nodes a).role ≠ .candidate
  | .task a (.appendReply _ (.serialized saved) _ _ _) => Later (c.nodes a).disk saved
  | .task a (.save (.serialized saved)) => Later (c.nodes a).disk saved
  | _ => True

/-- The term of a join response is compared with the one after `follow`. -/
instance decidableJoinMeets (n : Node) (r : Node.JoinReply) :
    Decidable (∀ (j : Joining) (term : Nat) (nodes : Finset Address),
      n.joining = some j → r = .joined term nodes → (n.follow j).state.currentTerm ≤ term) :=
  match h : n.joining, r with
  | none, _ => isTrue fun _ _ _ hj => by cases hj
  | some j, .joined term nodes =>
      decidable_of_iff ((n.follow j).state.currentTerm ≤ term)
        ⟨fun hle _ _ _ hj hr => by cases hj; cases hr; exact hle,
          fun hm => hm j term nodes rfl rfl⟩
  | some _, .rejected _ => isTrue fun _ _ _ _ hr => by cases hr
  | some _, .redirect _ => isTrue fun _ _ _ _ hr => by cases hr

instance (members : Nat → Finset Address) (c : Cluster) :
    ∀ act, Decidable (VoteMeets members c act)
  | .becomeCandidate _ => inferInstanceAs (Decidable (_ < _))
  | .requestVote _ _ => by unfold VoteMeets; infer_instance
  | .sendRequestVote _ => inferInstanceAs (Decidable (_ ∧ _))
  | .voteReply _ => inferInstanceAs (Decidable (_ → _))
  | .joinReply _ _ => decidableJoinMeets _ _
  | .setMaster _ _ _ => inferInstanceAs (Decidable (_ ∨ _))
  | .task _ (.newMaster _ _ _) => by unfold VoteMeets; infer_instance
  | .task a (.appendReply _ (.serialized saved) _ _ _) =>
      inferInstanceAs (Decidable (Later (c.nodes a).disk saved))
  | .task a (.save (.serialized saved)) =>
      inferInstanceAs (Decidable (Later (c.nodes a).disk saved))
  | .task _ (.appendReply _ .none _ _ _) | .task _ (.appendReply _ .due _ _ _)
  | .task _ (.save .none) | .task _ (.save .due) | .task _ (.submit _ _)
  | .task _ (.admitNode _ _) | .task _ (.broadcast _) | .task _ (.follow _ _ _)
  | .electionTimeout _ | .readLastInfo _ | .sendAppendEntries _
  | .appendEntries _ _ | .appendReply _ _ | .tryCommitEntries _ | .commitEntries _
  | .applyCommittedEntries _ | .submit _ _ | .reconnect _ | .joinRequest _ | .closeSocket _
  | .removeNode _ _ | .notice _ _ | .newMaster _ | .sendSnapshot _ | .installSnapshot _
  | .restart _ _ => isTrue trivial

/-- The actions of an election, and a restart. -/
def Elects : Action → Prop
  | .becomeCandidate _ => True
  | .sendRequestVote _ => True
  | .requestVote _ _ => True
  | .voteReply _ => True
  | .restart _ _ => True
  | _ => False

/-- What the other actions leave: every node changes quietly, and no vote is under way that
was not before. -/
structure QuietStep (c c' : Cluster) : Prop where
  nodes : ∀ x, Quiet (c.nodes x) (c'.nodes x)
  ballots : c'.net.ballots = c.net.ballots
  voteReplies : c'.net.voteReplies = c.net.voteReplies
  votes : c'.history.votes = c.history.votes
  counted : c'.history.counted = c.history.counted
  elections : c'.history.elections = c.history.elections
  started : c'.started = c.started
  nextConn : c.nextConn ≤ c'.nextConn

/-- A step that changes one node quietly, and nothing that concerns votes. -/
theorem QuietStep.of_node {a : Address} {n : Node}
    (hnodes : c'.nodes = Function.update c.nodes a n) (hn : Quiet (c.nodes a) n)
    (hballots : c'.net.ballots = c.net.ballots)
    (hreplies : c'.net.voteReplies = c.net.voteReplies)
    (hvotes : c'.history.votes = c.history.votes)
    (hcounted : c'.history.counted = c.history.counted)
    (helections : c'.history.elections = c.history.elections)
    (hstarted : c'.started = c.started) (hnext : c.nextConn ≤ c'.nextConn) : QuietStep c c' := by
  refine ⟨fun x => ?_, hballots, hreplies, hvotes, hcounted, helections, hstarted, hnext⟩
  rw [hnodes, Function.update_apply]
  split
  · next h =>
      rw [h]
      exact hn
  · exact Quiet.rfl

/-- The cluster with one node changed. -/
theorem QuietStep.setNode {a : Address} {n : Node} (hn : Quiet (c.nodes a) n) :
    QuietStep c (c.setNode a n) :=
  .of_node rfl hn rfl rfl rfl rfl rfl rfl (Nat.le_refl _)

theorem QuietStep.rfl : QuietStep c c :=
  ⟨fun _ => Quiet.rfl, Eq.refl _, Eq.refl _, Eq.refl _, Eq.refl _, Eq.refl _, Eq.refl _,
    Nat.le_refl _⟩

theorem quiet_runTask {members : Nat → Finset Address} {a : Address} {t : Task}
    (hmeets : VoteMeets members c (.task a t)) : QuietStep c (c.runTask cfg a t) := by
  have herase : Quiet (c.nodes a) { c.nodes a with tasks := (c.nodes a).tasks.erase t } :=
    .of_same rfl rfl (Or.inl rfl) (Or.inl rfl) rfl id
  cases t with
  | submit cmds entries =>
      cases cmds with
      | nil =>
          have happend : ∀ n : Node, Quiet n { n with
              logArray := (n.logArray.batchAppend cfg.logConfig entries).1 } := fun n =>
            .of_same rfl rfl (Or.inl rfl) (Or.inl rfl) rfl id
          exact .of_node rfl (herase.trans (happend _)) rfl rfl rfl rfl rfl rfl (Nat.le_refl _)
      | cons cmd cmds => exact .setNode (herase.trans (.addTask _ _))
  | appendReply origin save term success logIndex =>
      cases save with
      | due => exact .setNode (herase.trans (.addTask _ _))
      | serialized saved =>
          exact .setNode ((herase.trans (.writePersistentState hmeets)).trans (.addTask _ _))
      | none =>
          unfold runTask
          simp only
          split
          · exact .setNode herase
          · exact .of_node rfl herase rfl rfl rfl rfl rfl rfl (Nat.le_refl _)
  | save save =>
      cases save with
      | due => exact .setNode (herase.trans (.addTask _ _))
      | serialized saved => exact .setNode (herase.trans (.writePersistentState hmeets))
      | none => exact .setNode herase
  | admitNode addr conn =>
      refine .setNode (herase.trans ?_)
      exact .of_same rfl rfl (Or.inr (Or.inl rfl)) (Or.inl rfl) rfl id
  | broadcast term =>
      unfold runTask
      simp only
      split
      · exact .of_node rfl herase rfl rfl rfl rfl rfl rfl (Nat.le_refl _)
      · exact .setNode herase
  | newMaster leader term newer =>
      refine .setNode ((herase.trans ?_).trans (.addTask _ _))
      unfold Node.storeNewMaster
      split
      · next h =>
          obtain ⟨hlt, hrole⟩ := hmeets h
          exact .of_raise hlt (Or.inr rfl) hrole id
      · exact .of_same rfl rfl (Or.inr (Or.inl rfl)) (Or.inl rfl) rfl id
  | follow leader term commitIndex =>
      have hconnect : ∀ n : Node, Quiet n { n with
          followerClient := some c.nextConn
          joining := some ⟨c.nextConn, leader, term, commitIndex⟩ } := fun n =>
        .of_same rfl rfl (Or.inl rfl) (Or.inl rfl) rfl id
      exact .of_node rfl (herase.trans (hconnect _)) rfl rfl rfl rfl rfl rfl (Nat.le_succ _)

/-- Receiving the reply to a join request lowers no term that the request did not. -/
theorem quiet_joinReply {a : Address} {j : Joining} {r : Node.JoinReply}
    (hterm : ∀ (term : Nat) (nodes : Finset Address), r = .joined term nodes →
      ((c.nodes a).follow j).state.currentTerm ≤ term) : QuietStep c (c.joinReply a j r) := by
  have hfollow := Quiet.follow (c.nodes a) j
  have hrole : ((c.nodes a).follow j).role = .follower := by
    unfold Node.follow
    simp only
    split
    · rfl
    · rfl
  cases r with
  | joined term nodes =>
      refine .of_node rfl (hfollow.trans ⟨?_, Or.inr ?_, fun hc => ?_, id⟩) rfl rfl rfl rfl rfl rfl
        (Nat.le_refl _)
      · rcases Nat.eq_or_lt_of_le (hterm term nodes rfl) with h | h
        · exact Or.inl ⟨h.symm, rfl⟩
        · exact Or.inr h
      · rcases Nat.eq_or_lt_of_le (hterm term nodes rfl) with h | h
        · exact Or.inl ⟨h.symm, rfl⟩
        · exact Or.inr h
      · rw [show (((c.nodes a).follow j).handleJoinClusterResponse a term nodes).role =
          ((c.nodes a).follow j).role from rfl, hrole] at hc
        cases hc
  | rejected _ =>
      exact .of_node rfl (hfollow.trans (.becomeLeader _)) rfl rfl rfl rfl rfl rfl (Nat.le_refl _)
  | redirect leader =>
      cases leader with
      | none => exact .of_node rfl hfollow rfl rfl rfl rfl rfl rfl (Nat.le_refl _)
      | some leader =>
          have hquiet : ∀ n : Node, Quiet n
              (if leader = a then n.becomeLeader else n.addTask (.follow leader 0 0)) := by
            intro n
            split
            · exact .becomeLeader n
            · exact .addTask n _
          exact .of_node rfl (hfollow.trans (hquiet _)) rfl rfl rfl rfl rfl rfl (Nat.le_refl _)

theorem quiet_setMaster {a leader : Address} {found : RaftLogArray}
    (hterm : (c.nodes a).state.currentLeader = some leader ∨ (c.nodes a).state.currentTerm = 0) :
    QuietStep c (c.setMaster a leader found) := by
  unfold setMaster
  simp only
  split
  · split
    · exact .rfl
    · exact .setNode (.addTask _ _)
  · next hleader =>
      have hzero := hterm.resolve_left hleader
      refine .setNode (Quiet.trans ?_ (.addTask _ _))
      exact .of_same hzero.symm rfl (Or.inr (Or.inl rfl)) (Or.inl rfl) rfl id

/-- Apart from the actions of an election and restarts, every step that does not lower a
term is quiet. -/
theorem step_quiet {members : Nat → Finset Address} {act : Action} (hother : ¬ Elects act)
    (hmeets : VoteMeets members c act) (hstep : c.step cfg act = some c') : QuietStep c c' := by
  cases act with
  | becomeCandidate a => exact absurd trivial hother
  | sendRequestVote a => exact absurd trivial hother
  | requestVote b peer => exact absurd trivial hother
  | voteReply r => exact absurd trivial hother
  | restart a found => exact absurd trivial hother
  | electionTimeout a =>
      obtain ⟨-, rfl⟩ := of_guard hstep
      exact .setNode (.of_same rfl rfl (Or.inl rfl) (Or.inl rfl) rfl fun h => absurd h id)
  | readLastInfo a =>
      obtain ⟨hphase, rfl⟩ := of_guard hstep
      refine .setNode (.of_same rfl rfl (Or.inl rfl) (Or.inl rfl) rfl fun _ => ?_)
      rw [hphase]
      trivial
  | sendAppendEntries conn =>
      obtain ⟨-, rfl⟩ := of_guard hstep
      exact .of_node rfl (.sendAppendEntries cfg _ conn) rfl rfl rfl rfl rfl rfl (Nat.le_refl _)
  | appendEntries m again =>
      obtain ⟨-, rfl⟩ := of_guard hstep
      exact .of_node rfl (.handleAppendEntries cfg _ _ _) rfl rfl rfl rfl rfl rfl (Nat.le_refl _)
  | appendReply r again =>
      obtain ⟨-, rfl⟩ := of_guard hstep
      exact .of_node rfl (.handleAppendEntriesResponse _ _ _ _) rfl rfl rfl rfl rfl rfl
        (Nat.le_refl _)
  | tryCommitEntries a =>
      obtain ⟨-, rfl⟩ := of_guard hstep
      exact .of_node rfl (.tryCommitEntries _) rfl rfl rfl rfl rfl rfl (Nat.le_refl _)
  | commitEntries a =>
      obtain ⟨-, rfl⟩ := of_guard_not hstep
      exact .of_node rfl (.commitEntries _) rfl rfl rfl rfl rfl rfl (Nat.le_refl _)
  | applyCommittedEntries a =>
      obtain rfl := Option.some.inj hstep
      exact .of_node rfl (.applyCommittedEntries _) rfl rfl rfl rfl rfl rfl (Nat.le_refl _)
  | submit a cmds =>
      obtain ⟨-, rfl⟩ := of_guard hstep
      refine .setNode (Quiet.trans ?_ (.addTask _ _))
      split
      · exact .rfl
      · exact .of_same rfl rfl (Or.inr (Or.inl rfl)) (Or.inl rfl) rfl id
  | task a t =>
      obtain ⟨-, rfl⟩ := of_guard hstep
      exact quiet_runTask hmeets
  | reconnect a =>
      simp only [step] at hstep
      split at hstep
      · cases hstep
      · obtain rfl := Option.some.inj hstep
        exact .setNode (.addTask _ _)
  | joinRequest j =>
      obtain ⟨-, rfl⟩ := of_guard hstep
      exact .of_node rfl (.handleJoinCluster cfg _ _ _ _) rfl rfl rfl rfl rfl rfl (Nat.le_refl _)
  | joinReply conn r =>
      simp only [step] at hstep
      split at hstep
      · cases hstep
      · next j hj =>
          obtain ⟨-, rfl⟩ := of_guard hstep
          exact quiet_joinReply fun term nodes hr => hmeets j term nodes hj hr
  | closeSocket conn =>
      obtain rfl := Option.some.inj hstep
      exact .setNode (.of_same rfl rfl (Or.inl rfl) (Or.inl rfl) rfl id)
  | removeNode a node =>
      obtain ⟨-, rfl⟩ := of_guard hstep
      exact .of_node rfl (.removeNode _ node) rfl rfl rfl rfl rfl rfl (Nat.le_refl _)
  | notice conn m =>
      obtain ⟨-, rfl⟩ := of_guard hstep
      refine .of_node rfl ?_ rfl rfl rfl rfl rfl rfl (Nat.le_refl _)
      cases m with
      | member node isMember => exact .setMember _ _ _ _
      | queryLeader leader =>
          simp only
          split
          · exact .becomeLeader _
          · exact .addTask _ _
  | setMaster a leader found =>
      obtain ⟨-, rfl⟩ := of_guard hstep
      exact quiet_setMaster hmeets
  | newMaster m =>
      obtain ⟨-, rfl⟩ := of_guard hstep
      unfold newMaster
      simp only
      split
      · exact ⟨fun _ => .rfl, rfl, rfl, rfl, rfl, rfl, rfl, Nat.le_refl _⟩
      · exact .of_node rfl (.addTask _ _) rfl rfl rfl rfl rfl rfl (Nat.le_refl _)
  | sendSnapshot conn =>
      obtain ⟨-, rfl⟩ := of_guard hstep
      exact ⟨fun _ => .rfl, rfl, rfl, rfl, rfl, rfl, rfl, Nat.le_refl _⟩
  | installSnapshot m =>
      obtain ⟨-, rfl⟩ := of_guard hstep
      refine .of_node rfl ?_ rfl rfl rfl rfl rfl rfl (Nat.le_refl _)
      exact .of_same rfl rfl (Or.inr (Or.inl rfl)) (Or.inl rfl) rfl id

end Cluster

end EyaKV.Raft
