import EyaKV.Raft.Votes

/-!
# Handlers that leave the log

Most handlers do not touch the log of a node, what it has committed, or the successes that
it is about to report. `Idle` says so for one node, and `IdleStep` for a step of the
cluster (`step_idle`): no log, log message or recorded entry is new. The actions that do
more are those of `Replicates`.

`Bounded` collects the places in which a node keeps a commit index: in memory, on the disk,
in a state that it is about to write there, and in what it has kept for a later
`become_follower`.
-/

set_option autoImplicit false

namespace EyaKV.Raft

open EyaKV.Store

/-- The state that a task is about to write. -/
def Task.serialized : Task → Option PersistentState
  | .appendReply _ (.serialized saved) _ _ _ => some saved
  | .save (.serialized saved) => some saved
  | _ => none

/-- A reply that the loop of `handle_append_entries` leaves has nothing serialized yet. -/
theorem Task.serialized_reply (origin : Conn) (save : Bool) (term : Nat) (success : Bool)
    (index : Nat) :
    (Task.appendReply origin (.when save) term success index).serialized = none := by
  cases save <;> rfl

/-- Every commit index that the node keeps is at most `k`. -/
structure Node.Bounded (n : Node) (k : Nat) : Prop where
  commitIndex : n.state.commitIndex ≤ k
  lastApplied : n.state.lastApplied ≤ k
  diskCommit : n.disk.commitIndex ≤ k
  diskApplied : n.disk.lastApplied ≤ k
  follow : ∀ leader term commitIndex, Task.follow leader term commitIndex ∈ n.tasks →
    commitIndex ≤ k
  serialized : ∀ t ∈ n.tasks, ∀ saved ∈ t.serialized,
    saved.commitIndex ≤ k ∧ saved.lastApplied ≤ k
  joining : ∀ j, n.joining = some j → j.commitIndex ≤ k

/-- A change of a node that leaves the log, and reports and commits nothing. -/
structure Idle (n n' : Node) : Prop where
  logArray : n'.logArray = n.logArray
  committed : n'.committed = n.committed
  acks : ∀ origin save term index, Task.appendReply origin save term true index ∈ n'.tasks →
    ∃ save', Task.appendReply origin save' term true index ∈ n.tasks
  client : ∀ conn, n'.followerClient = some conn → n.followerClient = some conn
  bounded : ∀ k, n.Bounded k → n'.Bounded k

namespace Idle

variable {n n' n'' : Node}

theorem rfl : Idle n n :=
  ⟨Eq.refl _, Eq.refl _, fun _ save _ _ h => ⟨save, h⟩, fun _ h => h, fun _ h => h⟩

theorem trans (h : Idle n n') (h' : Idle n' n'') : Idle n n'' :=
  ⟨h'.logArray.trans h.logArray, h'.committed.trans h.committed,
    fun o s t i hk => (h'.acks o s t i hk).elim fun s' hs' => h.acks o s' t i hs',
    fun conn hc => h.client conn (h'.client conn hc),
    fun k hk => h'.bounded k (h.bounded k hk)⟩

/-- A change that keeps the commit index and the last applied one, and may save them. -/
theorem of_state (hlog : n'.logArray = n.logArray) (hcommitted : n'.committed = n.committed)
    (htasks : ∀ t ∈ n'.tasks, t ∈ n.tasks)
    (hclient : n'.followerClient = n.followerClient ∨ n'.followerClient = none)
    (hjoining : n'.joining = n.joining ∨ n'.joining = none)
    (hcommit : n'.state.commitIndex = n.state.commitIndex)
    (happlied : n'.state.lastApplied = n.state.lastApplied)
    (hdisk : n'.disk = n.disk ∨ n'.disk = n'.state) : Idle n n' := by
  refine ⟨hlog, hcommitted, fun o s t i h => ⟨s, htasks _ h⟩, fun conn h => ?_, fun k hk => ?_⟩
  · rcases hclient with hc | hc
    · exact hc ▸ h
    · rw [hc] at h
      cases h
  · refine ⟨hcommit ▸ hk.commitIndex, happlied ▸ hk.lastApplied, ?_, ?_,
      fun l t ci h => hk.follow l t ci (htasks _ h), fun t ht => hk.serialized t (htasks t ht),
      fun j h => ?_⟩
    · rcases hdisk with hd | hd
      · exact hd ▸ hk.diskCommit
      · rw [hd, hcommit]
        exact hk.commitIndex
    · rcases hdisk with hd | hd
      · exact hd ▸ hk.diskApplied
      · rw [hd, happlied]
        exact hk.lastApplied
    · rcases hjoining with hj | hj
      · exact hk.joining j (hj ▸ h)
      · rw [hj] at h
        cases h

theorem savePersistentState (n : Node) : Idle n n.savePersistentState :=
  of_state (Eq.refl _) (Eq.refl _) (fun _ h => h) (Or.inl (Eq.refl _)) (Or.inl (Eq.refl _))
    (Eq.refl _) (Eq.refl _) (Or.inr (Eq.refl _))

/-- A task is done. -/
theorem eraseTask (n : Node) (t : Task) : Idle n { n with tasks := n.tasks.erase t } :=
  of_state (Eq.refl _) (Eq.refl _) (fun _ h => List.mem_of_mem_erase h) (Or.inl (Eq.refl _))
    (Or.inl (Eq.refl _)) (Eq.refl _) (Eq.refl _) (Or.inl (Eq.refl _))

/-- A task that reports no success, and takes along no commit index but the node's own. -/
theorem addTask (n : Node) {t : Task}
    (hack : ∀ origin save term index, t ≠ .appendReply origin save term true index)
    (hfollow : ∀ leader term commitIndex, t = .follow leader term commitIndex →
      commitIndex ≤ n.state.commitIndex)
    (hserialized : ∀ saved ∈ t.serialized, saved = n.state) : Idle n (n.addTask t) := by
  refine ⟨Eq.refl _, Eq.refl _, fun o s t' i h => ?_, fun _ h => h, fun k hk => ?_⟩
  · rcases List.mem_cons.1 h with h | h
    · exact absurd h.symm (hack o s t' i)
    · exact ⟨s, h⟩
  · refine ⟨hk.commitIndex, hk.lastApplied, hk.diskCommit, hk.diskApplied, fun l t' ci h => ?_,
      fun t' h saved hsaved => ?_, hk.joining⟩
    · rcases List.mem_cons.1 h with h | h
      · exact (hfollow l t' ci h.symm).trans hk.commitIndex
      · exact hk.follow l t' ci h
    · rcases List.mem_cons.1 h with rfl | h
      · rw [hserialized saved hsaved]
        exact ⟨hk.commitIndex, hk.lastApplied⟩
      · exact hk.serialized t' h saved hsaved

/-- A task of another kind. -/
theorem addOther (n : Node) {t : Task}
    (hack : ∀ origin save term index, t ≠ .appendReply origin save term true index)
    (hfollow : ∀ leader term commitIndex, t ≠ .follow leader term commitIndex)
    (hserialized : t.serialized = none) : Idle n (n.addTask t) :=
  addTask n hack (fun l t' ci h => absurd h (hfollow l t' ci)) fun _ h => by
    rw [hserialized] at h
    cases h

/-- A call of `become_follower` with the node's own commit index, or without one. -/
theorem addFollow (n : Node) (leader : Address) (term : Nat) {commitIndex : Nat}
    (h : commitIndex ≤ n.state.commitIndex) : Idle n (n.addTask (.follow leader term commitIndex)) :=
  addTask n (fun _ _ _ _ h => by cases h) (fun _ _ _ heq => by cases heq; exact h)
    fun _ h => by cases h

/-- A state that was serialized before is written. -/
theorem writePersistentState (n : Node) {t : Task} {saved : PersistentState} (ht : t ∈ n.tasks)
    (hsaved : t.serialized = some saved) :
    Idle n (Node.writePersistentState { n with tasks := n.tasks.erase t } saved) := by
  refine ⟨Eq.refl _, Eq.refl _, fun o s t' i h => ⟨s, List.mem_of_mem_erase h⟩, fun _ h => h,
    fun k hk => ?_⟩
  obtain ⟨hcommit, happlied⟩ := hk.serialized t ht saved hsaved
  exact ⟨hk.commitIndex, hk.lastApplied, hcommit, happlied,
    fun l t' ci h => hk.follow l t' ci (List.mem_of_mem_erase h),
    fun t' h => hk.serialized t' (List.mem_of_mem_erase h), hk.joining⟩

/-- The reply of `handle_append_entries` goes on waiting. -/
theorem addReply {n n' : Node} {origin : Conn} {save save' : Saving} {term index : Nat}
    {success : Bool} (h : Idle n n') (ht : .appendReply origin save term success index ∈ n.tasks)
    (hserialized : ∀ saved, save' = .serialized saved → saved = n'.state) :
    Idle n (n'.addTask (.appendReply origin save' term success index)) := by
  refine ⟨h.logArray, h.committed, fun o s t i hmem => ?_, h.client, fun k hk => ?_⟩
  · rcases List.mem_cons.1 hmem with heq | hmem
    · simp only [Task.appendReply.injEq] at heq
      obtain ⟨rfl, -, rfl, rfl, rfl⟩ := heq
      exact ⟨save, ht⟩
    · exact h.acks o s t i hmem
  · obtain ⟨hcommit, happlied, hdisk, hdisk', hfollow, hsaved, hjoining⟩ := h.bounded k hk
    refine ⟨hcommit, happlied, hdisk, hdisk', fun l t ci hmem => ?_, fun t hmem saved hs => ?_,
      hjoining⟩
    · rcases List.mem_cons.1 hmem with heq | hmem
      · cases heq
      · exact hfollow l t ci hmem
    · rcases List.mem_cons.1 hmem with rfl | hmem
      · cases save' with
        | serialized s =>
            obtain rfl := Option.some.inj hs
            rw [hserialized s (Eq.refl _)]
            exact ⟨hcommit, happlied⟩
        | none => cases hs
        | due => cases hs
      · exact hsaved t hmem saved hs

theorem becomeLeader (n : Node) : Idle n n.becomeLeader :=
  of_state (Eq.refl _) (Eq.refl _) (fun _ h => h) (Or.inr (Eq.refl _)) (Or.inl (Eq.refl _))
    (Eq.refl _) (Eq.refl _) (Or.inr (Eq.refl _))

theorem toCandidate (n : Node) : Idle n n.toCandidate := by
  unfold Node.toCandidate
  split
  · exact rfl
  · exact of_state (Eq.refl _) (Eq.refl _) (fun _ h => h) (Or.inl (Eq.refl _))
      (Or.inl (Eq.refl _)) (Eq.refl _) (Eq.refl _) (Or.inl (Eq.refl _))

theorem becomeCandidate (n : Node) (self : Address) : Idle n (n.becomeCandidate self) := by
  have hvote : ∀ n' : Node, n'.logArray = n.logArray → n'.committed = n.committed →
      n'.tasks = n.tasks → n'.followerClient = n.followerClient → n'.joining = n.joining →
      n'.state.commitIndex = n.state.commitIndex → n'.state.lastApplied = n.state.lastApplied →
      n'.disk = n'.state → Idle n n' := fun n' hlog hcommitted htasks hclient hjoining hcommit
      happlied hdisk =>
    of_state hlog hcommitted (fun _ h => htasks ▸ h) (Or.inl hclient) (Or.inl hjoining) hcommit
      happlied (Or.inr hdisk)
  refine Idle.trans (hvote _ ?_ ?_ ?_ ?_ ?_ ?_ ?_ ?_) (toCandidate _)
  all_goals exact Eq.refl _

theorem handleRequestVote (n : Node) (msg : Node.RequestVote) (peer : Address) :
    Idle n (n.handleRequestVote msg peer).1 := by
  have hraise : ∀ n : Node, Idle n (n.adoptTerm msg.term).savePersistentState.toFollower :=
    fun n => of_state (Eq.refl _) (Eq.refl _) (fun _ h => h) (Or.inl (Eq.refl _))
      (Or.inl (Eq.refl _)) (Eq.refl _) (Eq.refl _) (Or.inr (Eq.refl _))
  have hvote : ∀ n : Node, Idle n
      (Node.savePersistentState { n with state := { n.state with votedFor := some peer } }) :=
    fun n => of_state (Eq.refl _) (Eq.refl _) (fun _ h => h) (Or.inl (Eq.refl _))
      (Or.inl (Eq.refl _)) (Eq.refl _) (Eq.refl _) (Or.inr (Eq.refl _))
  unfold Node.handleRequestVote
  split
  · exact rfl
  · simp only
    split
    · split
      · exact (hraise n).trans (hvote _)
      · exact hraise n
    · split
      · exact hvote n
      · exact rfl

theorem winElection (n : Node) : Idle n n.winElection := by
  have hrestore : ∀ n' : Node, Idle n' (Node.savePersistentState { n' with
      state := { n'.state with clusterNodes := n.state.clusterNodes } }) := fun _ =>
    of_state (Eq.refl _) (Eq.refl _) (fun _ h => h) (Or.inl (Eq.refl _)) (Or.inl (Eq.refl _))
      (Eq.refl _) (Eq.refl _) (Or.inr (Eq.refl _))
  refine ((becomeLeader n).trans (hrestore _)).trans (addOther _ ?_ ?_ (Eq.refl _))
  · intro _ _ _ _ h
    cases h
  · intro _ _ _ h
    cases h

theorem handleRequestVoteResponse (n : Node) (term : Nat) (voteGranted : Bool) :
    Idle n (n.handleRequestVoteResponse term voteGranted) := by
  have hcount : Idle n { n with grantedVotes := n.grantedVotes + 1 } :=
    of_state (Eq.refl _) (Eq.refl _) (fun _ h => h) (Or.inl (Eq.refl _)) (Or.inl (Eq.refl _))
      (Eq.refl _) (Eq.refl _) (Or.inl (Eq.refl _))
  unfold Node.handleRequestVoteResponse
  split
  · exact rfl
  · split
    · exact of_state (Eq.refl _) (Eq.refl _) (fun _ h => h) (Or.inl (Eq.refl _))
        (Or.inl (Eq.refl _)) (Eq.refl _) (Eq.refl _) (Or.inr (Eq.refl _))
    · split
      · exact rfl
      · split
        · simp only
          split
          · exact hcount.trans (winElection _)
          · exact hcount
        · exact rfl

theorem sendAppendEntries (cfg : RaftNodeConfig) (n : Node) (conn : Conn) :
    Idle n (n.sendAppendEntries cfg conn).1 := by
  unfold Node.sendAppendEntries
  split
  · exact rfl
  · exact of_state (Eq.refl _) (Eq.refl _) (fun _ h => h) (Or.inl (Eq.refl _))
      (Or.inl (Eq.refl _)) (Eq.refl _) (Eq.refl _) (Or.inl (Eq.refl _))

theorem handleAppendEntriesResponse (n : Node) (conn : Conn) (success : Bool) (logIndex : Nat) :
    Idle n (n.handleAppendEntriesResponse conn success logIndex) := by
  have htables : ∀ next matched : IndexTable,
      Idle n { n with nextIndex := next, matchIndex := matched } := fun _ _ =>
    of_state (Eq.refl _) (Eq.refl _) (fun _ h => h) (Or.inl (Eq.refl _)) (Or.inl (Eq.refl _))
      (Eq.refl _) (Eq.refl _) (Or.inl (Eq.refl _))
  unfold Node.handleAppendEntriesResponse
  split
  · exact htables _ _
  · exact htables _ n.matchIndex

/-- What has been applied has been committed. -/
theorem applyCommittedEntries (n : Node) : Idle n n.applyCommittedEntries := by
  unfold Node.applyCommittedEntries
  split
  · exact rfl
  · exact ⟨Eq.refl _, Eq.refl _, fun _ save _ _ h => ⟨save, h⟩, fun _ h => h, fun k hk =>
      ⟨hk.commitIndex, hk.commitIndex, hk.commitIndex, hk.commitIndex, hk.follow, hk.serialized,
        hk.joining⟩⟩

theorem removeNode (n : Node) (node : Address) : Idle n (n.removeNode node) := by
  unfold Node.removeNode
  split
  · exact rfl
  · simp only
    refine Idle.trans ?_ (addOther _ ?_ ?_ (Eq.refl _))
    · exact of_state (Eq.refl _) (Eq.refl _) (fun _ h => h) (Or.inl (Eq.refl _))
        (Or.inl (Eq.refl _)) (Eq.refl _) (Eq.refl _) (Or.inl (Eq.refl _))
    · intro _ _ _ _ h
      cases h
    · intro _ _ _ h
      cases h

theorem handleJoinCluster (cfg : RaftNodeConfig) (n : Node) (addr : Address) (conn : Conn)
    (lastIndex : Nat) : Idle n (n.handleJoinCluster cfg addr conn lastIndex).1 := by
  unfold Node.handleJoinCluster
  split
  · exact rfl
  · split
    · exact rfl
    · simp only
      refine Idle.trans ?_ (addOther _ ?_ ?_ (Eq.refl _))
      · exact of_state (Eq.refl _) (Eq.refl _) (fun _ h => h) (Or.inl (Eq.refl _))
          (Or.inl (Eq.refl _)) (Eq.refl _) (Eq.refl _) (Or.inl (Eq.refl _))
      · intro _ _ _ _ h
        cases h
      · intro _ _ _ h
        cases h

/-- `become_follower` takes the commit index that its caller has read. -/
theorem follow {j : Joining} (hj : n.joining = some j) : Idle n (n.follow j) := by
  have hcommit : (n.follow j).state.commitIndex = j.commitIndex := by
    unfold Node.follow
    simp only
    split
    · exact Eq.refl _
    · exact Eq.refl _
  have happlied : (n.follow j).state.lastApplied = n.state.lastApplied := by
    unfold Node.follow
    simp only
    split
    · exact Eq.refl _
    · exact Eq.refl _
  have hrest : (n.follow j).logArray = n.logArray ∧ (n.follow j).committed = n.committed ∧
      (n.follow j).tasks = n.tasks ∧ (n.follow j).followerClient = n.followerClient ∧
      (n.follow j).disk = (n.follow j).state ∧ (n.follow j).joining = none := by
    unfold Node.follow
    by_cases h : n.state.currentTerm < j.term
    all_goals simp only [Node.toFollower, h, ↓reduceIte, Node.adoptTerm,
      Node.savePersistentState, and_self]
  obtain ⟨hlog, hcommitted, htasks, hclient, hdisk, hjoining⟩ := hrest
  refine ⟨hlog, hcommitted, fun _ s _ _ h => ⟨s, htasks ▸ h⟩, fun _ h => hclient ▸ h,
    fun k hk => ?_⟩
  refine ⟨?_, ?_, ?_, ?_, fun l t ci h => hk.follow l t ci (htasks ▸ h),
    fun t h => hk.serialized t (htasks ▸ h), fun j' h => ?_⟩
  · rw [hcommit]
    exact hk.joining j hj
  · rw [happlied]
    exact hk.lastApplied
  · rw [hdisk, hcommit]
    exact hk.joining j hj
  · rw [hdisk, happlied]
    exact hk.lastApplied
  · rw [hjoining] at h
    cases h

theorem setMember (n : Node) (self node : Address) (isMember : Bool) :
    Idle n (n.setMember self node isMember) := by
  unfold Node.setMember
  split
  · split
    · exact rfl
    · exact becomeLeader n
  · exact of_state (Eq.refl _) (Eq.refl _) (fun _ h => h) (Or.inl (Eq.refl _))
      (Or.inl (Eq.refl _)) (Eq.refl _) (Eq.refl _) (Or.inr (Eq.refl _))

theorem storeNewMaster (n : Node) (leader : Address) (term : Nat) (newer : Bool) :
    Idle n (n.storeNewMaster leader term newer) := by
  have hterm : Idle n (if newer then n.adoptTerm term else n) := by
    split
    · exact of_state (Eq.refl _) (Eq.refl _) (fun _ h => h) (Or.inl (Eq.refl _))
        (Or.inl (Eq.refl _)) (Eq.refl _) (Eq.refl _) (Or.inl (Eq.refl _))
    · exact rfl
  refine hterm.trans ?_
  exact of_state (Eq.refl _) (Eq.refl _) (fun _ h => h) (Or.inl (Eq.refl _))
    (Or.inl (Eq.refl _)) (Eq.refl _) (Eq.refl _) (Or.inr (Eq.refl _))

/-- The node is its own leader, or follows the one that it is told of. -/
theorem redirect (n : Node) (self leader : Address) : Idle n
    (if leader = self then n.becomeLeader else n.addTask (.follow leader 0 0)) := by
  split
  · exact becomeLeader n
  · exact addFollow n leader 0 (Nat.zero_le _)

end Idle

namespace Cluster

variable {cfg : RaftNodeConfig} {c c' : Cluster}

/-- A step that makes no log, no log message and no entry, and wins no election. -/
structure IdleStep (c c' : Cluster) : Prop where
  nodes : ∀ x, Idle (c.nodes x) (c'.nodes x)
  appends : c'.net.appends = c.net.appends
  snapshots : c'.net.snapshots = c.net.snapshots
  appendReplies : c'.net.appendReplies ⊆ c.net.appendReplies
  elections : c'.history.elections = c.history.elections
  leaderLog : c'.history.leaderLog = c.history.leaderLog
  created : c'.history.created = c.history.created
  accepted : c'.history.accepted = c.history.accepted
  applied : c'.history.applied = c.history.applied
  ends : c'.ends = c.ends
  nextConn : c.nextConn ≤ c'.nextConn

theorem idle_update {a : Address} {n : Node} (hn : Idle (c.nodes a) n) (x : Address) :
    Idle (c.nodes x) (Function.update c.nodes a n x) := by
  rw [Function.update_apply]
  split
  · next h =>
      rw [h]
      exact hn
  · exact Idle.rfl

/-- A step that changes one node, and other parts of the network and the history. -/
theorem IdleStep.of_node {a : Address} {n : Node}
    (hnodes : c'.nodes = Function.update c.nodes a n) (hn : Idle (c.nodes a) n)
    (happends : c'.net.appends = c.net.appends)
    (hsnapshots : c'.net.snapshots = c.net.snapshots)
    (hreplies : c'.net.appendReplies ⊆ c.net.appendReplies)
    (helections : c'.history.elections = c.history.elections)
    (hleaderLog : c'.history.leaderLog = c.history.leaderLog)
    (hcreated : c'.history.created = c.history.created)
    (haccepted : c'.history.accepted = c.history.accepted)
    (happlied : c'.history.applied = c.history.applied)
    (hends : c'.ends = c.ends) (hnext : c.nextConn ≤ c'.nextConn) : IdleStep c c' :=
  ⟨fun x => hnodes ▸ idle_update hn x, happends, hsnapshots, hreplies, helections, hleaderLog,
    hcreated, haccepted, happlied, hends, hnext⟩

theorem IdleStep.setNode {a : Address} {n : Node} (hn : Idle (c.nodes a) n) :
    IdleStep c (c.setNode a n) :=
  .of_node rfl hn rfl rfl (Finset.Subset.refl _) rfl rfl rfl rfl rfl rfl (Nat.le_refl _)

theorem IdleStep.rfl : IdleStep c c :=
  ⟨fun _ => Idle.rfl, Eq.refl _, Eq.refl _, Finset.Subset.refl _, Eq.refl _, Eq.refl _, Eq.refl _,
    Eq.refl _, Eq.refl _, Eq.refl _, Nat.le_refl _⟩

/-- The actions that send, receive or report entries, commit or apply them, win an election,
open a connection, or lose the memory of a node. -/
def Replicates : Action → Prop
  | .voteReply _ => True
  | .sendAppendEntries _ => True
  | .appendEntries _ _ => True
  | .tryCommitEntries _ => True
  | .commitEntries _ => True
  | .applyCommittedEntries _ => True
  | .task _ (.submit [] _) => True
  | .task _ (.appendReply _ .none _ _ _) => True
  | .task _ (.follow _ _ _) => True
  | .setMaster _ _ _ => True
  | .sendSnapshot _ => True
  | .installSnapshot _ => True
  | .restart _ _ => True
  | _ => False

theorem idle_runTask {a : Address} {t : Task} (ht : t ∈ (c.nodes a).tasks)
    (hother : ¬ Replicates (.task a t)) : IdleStep c (c.runTask cfg a t) := by
  have herase := Idle.eraseTask (c.nodes a) t
  cases t with
  | submit cmds entries =>
      cases cmds with
      | nil => exact absurd trivial hother
      | cons cmd cmds =>
          refine .setNode (herase.trans (.addOther _ ?_ ?_ rfl))
          · intro _ _ _ _ h
            cases h
          · intro _ _ _ h
            cases h
  | appendReply origin save term success logIndex =>
      cases save with
      | none => exact absurd trivial hother
      | due => exact .setNode (herase.addReply ht fun _ h => (Saving.serialized.inj h).symm)
      | serialized saved =>
          have hwrite := Idle.writePersistentState (c.nodes a) ht rfl
          exact .setNode (hwrite.addReply ht fun _ h => by cases h)
  | save save =>
      cases save with
      | none => exact .setNode herase
      | due =>
          refine .setNode (herase.trans (.addTask _ ?_ ?_ ?_))
          · intro _ _ _ _ h
            cases h
          · intro _ _ _ h
            cases h
          · exact fun _ h => (Option.some.inj h).symm
      | serialized saved => exact .setNode (.writePersistentState (c.nodes a) ht rfl)
  | follow leader term commitIndex => exact absurd trivial hother
  | admitNode addr conn =>
      refine .setNode (herase.trans ?_)
      exact .of_state rfl rfl (fun _ h => h) (Or.inl rfl) (Or.inl rfl) rfl rfl (Or.inr rfl)
  | broadcast term =>
      unfold runTask
      simp only
      split
      · exact .of_node rfl herase rfl rfl (Finset.Subset.refl _) rfl rfl rfl rfl rfl rfl
          (Nat.le_refl _)
      · exact .setNode herase
  | newMaster leader term newer =>
      exact .setNode ((herase.trans (.storeNewMaster _ leader term newer)).trans
        (.addFollow _ leader term (Nat.le_refl _)))

theorem idle_joinReply {a : Address} {j : Joining} (hj : (c.nodes a).joining = some j)
    (r : Node.JoinReply) : IdleStep c (c.joinReply a j r) := by
  have hfollow := Idle.follow hj
  have hreply : ∀ n', Idle (c.nodes a) n' → (c.joinReply a j r).nodes = (c.setNode a n').nodes →
      IdleStep c (c.joinReply a j r) := by
    intro n' hidle hnodes
    exact .of_node hnodes hidle rfl rfl (Finset.Subset.refl _) rfl rfl rfl rfl rfl rfl (Nat.le_refl _)
  cases r with
  | joined term nodes =>
      refine hreply _ (hfollow.trans ?_) rfl
      exact .of_state rfl rfl (fun _ h => h) (Or.inl rfl) (Or.inl rfl) rfl rfl (Or.inr rfl)
  | rejected _ => exact hreply _ (hfollow.trans (.becomeLeader _)) rfl
  | redirect leader =>
      cases leader with
      | none => exact hreply _ hfollow rfl
      | some leader => exact hreply _ (hfollow.trans (.redirect _ a leader)) rfl

/-- Apart from the actions of `Replicates`, every step is idle. -/
theorem step_idle {act : Action} (hother : ¬ Replicates act) (hstep : c.step cfg act = some c') :
    IdleStep c c' := by
  cases act with
  | voteReply r => exact absurd trivial hother
  | sendAppendEntries conn => exact absurd trivial hother
  | appendEntries m again => exact absurd trivial hother
  | tryCommitEntries a => exact absurd trivial hother
  | commitEntries a => exact absurd trivial hother
  | applyCommittedEntries a => exact absurd trivial hother
  | setMaster a leader found => exact absurd trivial hother
  | sendSnapshot conn => exact absurd trivial hother
  | installSnapshot m => exact absurd trivial hother
  | restart a found => exact absurd trivial hother
  | electionTimeout a =>
      obtain ⟨-, rfl⟩ := of_guard hstep
      refine .setNode ?_
      exact .of_state rfl rfl (fun _ h => h) (Or.inl rfl) (Or.inl rfl) rfl rfl (Or.inl rfl)
  | becomeCandidate a =>
      obtain ⟨-, rfl⟩ := of_guard hstep
      exact .of_node rfl (.becomeCandidate _ a) rfl rfl (Finset.Subset.refl _) rfl rfl rfl rfl rfl
        rfl (Nat.le_refl _)
  | readLastInfo a =>
      obtain ⟨-, rfl⟩ := of_guard hstep
      refine .setNode ?_
      exact .of_state rfl rfl (fun _ h => h) (Or.inl rfl) (Or.inl rfl) rfl rfl (Or.inl rfl)
  | sendRequestVote a =>
      simp only [step] at hstep
      split at hstep
      · obtain rfl := Option.some.inj hstep
        refine .of_node rfl ?_ rfl rfl (Finset.Subset.refl _) rfl rfl rfl rfl rfl rfl
          (Nat.le_succ _)
        exact .of_state rfl rfl (fun _ h => h) (Or.inl rfl) (Or.inl rfl) rfl rfl (Or.inl rfl)
      · cases hstep
  | requestVote b peer =>
      obtain ⟨-, rfl⟩ := of_guard hstep
      exact .of_node rfl (.handleRequestVote _ b.msg peer) rfl rfl (Finset.Subset.refl _) rfl rfl
        rfl rfl rfl rfl (Nat.le_refl _)
  | appendReply r again =>
      obtain ⟨-, rfl⟩ := of_guard hstep
      refine .of_node rfl (.handleAppendEntriesResponse _ r.conn r.success r.logIndex) rfl rfl ?_
        rfl rfl rfl rfl rfl rfl (Nat.le_refl _)
      unfold appendReply
      cases again
      · exact Finset.erase_subset r c.net.appendReplies
      · exact Finset.Subset.refl _
  | submit a cmds =>
      obtain ⟨-, rfl⟩ := of_guard hstep
      have hforget : ∀ n : Node, Idle n (if n.state.currentLeader = none then n
          else Node.savePersistentState { n with
            state := { n.state with currentLeader := none } }) := by
        intro n
        split
        · exact .rfl
        · exact .of_state rfl rfl (fun _ h => h) (Or.inl rfl) (Or.inl rfl) rfl rfl (Or.inr rfl)
      refine .setNode ((hforget _).trans (.addOther _ ?_ ?_ rfl))
      · intro _ _ _ _ h
        cases h
      · intro _ _ _ h
        cases h
  | task a t =>
      obtain ⟨ht, rfl⟩ := of_guard hstep
      exact idle_runTask ht hother
  | reconnect a =>
      simp only [step] at hstep
      split at hstep
      · cases hstep
      · obtain rfl := Option.some.inj hstep
        exact .setNode (.addFollow _ _ _ (Nat.le_refl _))
  | joinRequest j =>
      obtain ⟨-, rfl⟩ := of_guard hstep
      exact .of_node rfl (.handleJoinCluster cfg _ _ _ _) rfl rfl (Finset.Subset.refl _) rfl rfl
        rfl rfl rfl rfl (Nat.le_refl _)
  | joinReply conn r =>
      simp only [step] at hstep
      split at hstep
      · cases hstep
      · next j hj =>
          obtain ⟨-, rfl⟩ := of_guard hstep
          exact idle_joinReply hj r
  | closeSocket conn =>
      obtain rfl := Option.some.inj hstep
      refine .setNode ?_
      exact .of_state rfl rfl (fun _ h => h) (Or.inl rfl) (Or.inl rfl) rfl rfl (Or.inl rfl)
  | removeNode a node =>
      obtain ⟨-, rfl⟩ := of_guard hstep
      exact .of_node rfl (.removeNode _ node) rfl rfl (Finset.Subset.refl _) rfl rfl rfl rfl rfl
        rfl (Nat.le_refl _)
  | notice conn m =>
      obtain ⟨-, rfl⟩ := of_guard hstep
      refine .of_node rfl ?_ rfl rfl (Finset.Subset.refl _) rfl rfl rfl rfl rfl rfl (Nat.le_refl _)
      cases m with
      | member node isMember => exact .setMember _ _ node isMember
      | queryLeader leader => exact .redirect _ _ leader
  | newMaster m =>
      obtain ⟨-, rfl⟩ := of_guard hstep
      unfold newMaster
      simp only
      split
      · exact ⟨fun _ => .rfl, rfl, rfl, Finset.Subset.refl _, rfl, rfl, rfl, rfl, rfl, rfl,
          Nat.le_refl _⟩
      · refine .of_node rfl (.addOther _ ?_ ?_ rfl) rfl rfl (Finset.Subset.refl _) rfl rfl rfl rfl
          rfl rfl (Nat.le_refl _)
        · intro _ _ _ _ h
          cases h
        · intro _ _ _ h
          cases h

end Cluster

end EyaKV.Raft
