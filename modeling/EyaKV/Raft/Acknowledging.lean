import EyaKV.Raft.Progress

/-!
# The table of match indices

A follower answers a message with the last index of its log, and the leader keeps in
`match_index_` the greatest index that it has heard on each connection. It looks neither at the
term of an answer nor at what is left in the table from earlier terms.

`AckInv` follows an acknowledgement from the follower's handler to the leader's table. In a run
that meets the conditions the table is right (`match_sound`): what it says of a follower, a
follower in the leader's term has.
-/

set_option autoImplicit false

namespace EyaKV.Raft

open EyaKV.Base EyaKV.Store

/-- A change of a node that enters no index but 0 in its table `match_index_`, and reads no last
entry for a campaign. -/
structure Bystander (n n' : Node) : Prop where
  row : ∀ (conn : Conn) (m : Nat), n'.matchIndex[conn]? = some m →
    n.matchIndex[conn]? = some m ∨ m = 0
  campaign : ∀ i t, n'.election = .campaign i t → n.election = .campaign i t

namespace Bystander

variable {n n' n'' : Node}

theorem of_eq (h : n'.matchIndex = n.matchIndex ∧ n'.election = n.election) : Bystander n n' := by
  refine ⟨fun conn m hm => Or.inl ?_, fun i t hi => ?_⟩
  · rwa [h.1] at hm
  · rwa [h.2] at hi

/-- The election thread goes on to something else. -/
theorem of_phase (h : n'.matchIndex = n.matchIndex) (hphase : ∀ i t, n'.election ≠ .campaign i t) :
    Bystander n n' := by
  refine ⟨fun conn m hm => Or.inl ?_, fun i t hi => absurd hi (hphase i t)⟩
  rwa [h] at hm

theorem trans (h : Bystander n n') (h' : Bystander n' n'') : Bystander n n'' := by
  refine ⟨fun conn m hm => ?_, fun i t hi => h.campaign i t (h'.campaign i t hi)⟩
  rcases h'.row conn m hm with hm | hm
  · exact h.row conn m hm
  · exact Or.inr hm

theorem of_erase {conn : Conn} (h : n'.matchIndex = n.matchIndex.erase conn)
    (helection : n'.election = n.election) : Bystander n n' := by
  refine ⟨fun x m hm => ?_, fun i t hi => by rwa [helection] at hi⟩
  rw [h, Std.ExtTreeMap.getElem?_erase] at hm
  split at hm
  · cases hm
  · exact Or.inl hm

theorem of_empty (h : n'.matchIndex = ∅)
    (helection : ∀ i t, n'.election = .campaign i t → n.election = .campaign i t) :
    Bystander n n' := by
  refine ⟨fun x m hm => ?_, helection⟩
  rw [h] at hm
  exact absurd hm (by simp)

theorem becomeLeader (n : Node) : Bystander n n.becomeLeader := of_eq ⟨rfl, rfl⟩

theorem becomeCandidate (n : Node) (self : Address) : Bystander n (n.becomeCandidate self) := by
  refine of_phase ?_ fun i t hi => ?_
  · unfold Node.becomeCandidate Node.toCandidate
    simp only
    split
    · rfl
    · rfl
  · rw [(Cluster.becomeCandidate_spec n self).2.2.2.2] at hi
    cases hi

theorem handleRequestVote (n : Node) (msg : Node.RequestVote) (peer : Address) :
    Bystander n (n.handleRequestVote msg peer).1 := by
  apply of_eq
  unfold Node.handleRequestVote
  split
  · exact ⟨rfl, rfl⟩
  · simp only
    split
    · split
      · exact ⟨rfl, rfl⟩
      · exact ⟨rfl, rfl⟩
    · split
      · exact ⟨rfl, rfl⟩
      · exact ⟨rfl, rfl⟩

theorem handleRequestVoteResponse (n : Node) (term : Nat) (granted : Bool) :
    Bystander n (n.handleRequestVoteResponse term granted) := by
  apply of_eq
  unfold Node.handleRequestVoteResponse
  split
  · exact ⟨rfl, rfl⟩
  · split
    · exact ⟨rfl, rfl⟩
    · split
      · exact ⟨rfl, rfl⟩
      · split
        · simp only
          split
          · exact ⟨rfl, rfl⟩
          · exact ⟨rfl, rfl⟩
        · exact ⟨rfl, rfl⟩

theorem sendAppendEntries (cfg : RaftNodeConfig) (n : Node) (conn : Conn) :
    Bystander n (n.sendAppendEntries cfg conn).1 := by
  apply of_eq
  unfold Node.sendAppendEntries
  split
  · exact ⟨rfl, rfl⟩
  · exact ⟨rfl, rfl⟩

theorem handleAppendEntries (cfg : RaftNodeConfig) (n : Node) (origin : Conn)
    (msg : Node.AppendEntries) : Bystander n (n.handleAppendEntries cfg origin msg) := by
  apply of_eq
  rcases @handleAppendEntries_cases cfg n origin msg with ⟨-, h⟩ | ⟨-, -, h⟩ | ⟨-, -, -, h⟩ |
    ⟨-, -, -, h⟩
  all_goals
    rw [h]
    exact ⟨rfl, rfl⟩

theorem applyCommittedEntries (n : Node) : Bystander n n.applyCommittedEntries := by
  apply of_eq
  unfold Node.applyCommittedEntries
  split
  · exact ⟨rfl, rfl⟩
  · exact ⟨rfl, rfl⟩

theorem tryCommitEntries (n : Node) : Bystander n n.tryCommitEntries.1 := by
  have hadvance : Bystander n n.advanceCommit := by
    apply of_eq
    unfold Node.advanceCommit
    split
    · exact ⟨rfl, rfl⟩
    · exact ⟨rfl, rfl⟩
  unfold Node.tryCommitEntries
  split
  · exact of_eq ⟨rfl, rfl⟩
  · exact hadvance.trans (applyCommittedEntries _)

theorem commitEntries (n : Node) : Bystander n n.commitEntries.1 := by
  apply of_eq
  unfold Node.commitEntries
  split
  · exact ⟨rfl, rfl⟩
  · exact ⟨rfl, rfl⟩

theorem removeNode (n : Node) (node : Address) : Bystander n (n.removeNode node) := by
  unfold Node.removeNode
  split
  · exact of_eq ⟨rfl, rfl⟩
  · exact of_erase rfl rfl

theorem handleJoinCluster (cfg : RaftNodeConfig) (n : Node) (addr : Address) (conn : Conn)
    (lastIndex : Nat) : Bystander n (n.handleJoinCluster cfg addr conn lastIndex).1 := by
  unfold Node.handleJoinCluster
  split
  · exact of_eq ⟨rfl, rfl⟩
  · split
    · exact of_eq ⟨rfl, rfl⟩
    · have hinsert : ∀ (t : IndexTable) (n' : Node), n'.matchIndex = t.insert conn 0 →
          n'.election = n.election → Bystander { n with matchIndex := t } n' := by
        intro t n' h helection
        refine ⟨fun x m hm => ?_, fun i t hi => helection ▸ hi⟩
        rw [h, Std.ExtTreeMap.getElem?_insert] at hm
        split at hm
        · exact Or.inr (Option.some.inj hm).symm
        · exact Or.inl hm
      cases h : n.followerAddressMap addr with
      | none => exact hinsert n.matchIndex _ rfl rfl
      | some old =>
          have herase : Bystander n { n with matchIndex := n.matchIndex.erase old } :=
            of_erase rfl rfl
          exact herase.trans (hinsert (n.matchIndex.erase old) _ rfl rfl)

theorem follow (n : Node) (j : Joining) : Bystander n (n.follow j) := by
  refine of_empty rfl fun i t hi => ?_
  simp only [Node.follow, Node.savePersistentState] at hi
  split at hi
  · exact hi
  · exact hi

theorem setMember (n : Node) (self node : Address) (isMember : Bool) :
    Bystander n (n.setMember self node isMember) := by
  unfold Node.setMember
  split
  · split
    · exact of_eq ⟨rfl, rfl⟩
    · exact of_eq ⟨rfl, rfl⟩
  · exact of_eq ⟨rfl, rfl⟩

theorem storeNewMaster (n : Node) (leader : Address) (term : Nat) (newer : Bool) :
    Bystander n (n.storeNewMaster leader term newer) := by
  apply of_eq
  unfold Node.storeNewMaster
  split
  · exact ⟨rfl, rfl⟩
  · exact ⟨rfl, rfl⟩

end Bystander

namespace Cluster

variable {cfg : RaftNodeConfig} {members : Nat → Finset Address} {boot : Address}
  {c c' : Cluster}

section Answers

/-- A new row of a table is 0 or comes from an answer, and a candidate reads its last entry from
its log. -/
theorem bystander_step {act : Action} (hstep : c.step cfg act = some c') (x : Address) :
    Bystander (c.nodes x) (c'.nodes x) ∨
      (act = .readLastInfo x ∧ c'.nodes x = { c.nodes x with
        election := .campaign (c.nodes x).logArray.getLastInfo.1
          (c.nodes x).logArray.getLastInfo.2 }) ∨
      ∃ r again, act = .appendReply r again ∧ r.success = true ∧
        c.Open r.conn ∧ r ∈ c.net.appendReplies ∧ x = (c.ends r.conn).leader ∧
        c'.nodes x = (c.nodes x).handleAppendEntriesResponse r.conn true r.logIndex := by
  have hnode : ∀ {a : Address} {n : Node}, c'.nodes = Function.update c.nodes a n →
      Bystander (c.nodes a) n → Bystander (c.nodes x) (c'.nodes x) := by
    intro a n hnodes hstander
    rw [hnodes, Function.update_apply]
    split
    · next h => exact h ▸ hstander
    · exact .of_eq ⟨rfl, rfl⟩
  cases act with
  | electionTimeout a =>
      obtain ⟨-, rfl⟩ := of_guard hstep
      exact Or.inl (hnode rfl (.of_phase rfl fun i t hi => by cases hi))
  | becomeCandidate a =>
      obtain ⟨-, rfl⟩ := of_guard hstep
      exact Or.inl (hnode rfl (.becomeCandidate _ a))
  | readLastInfo a =>
      obtain ⟨-, rfl⟩ := of_guard hstep
      by_cases hx : x = a
      · exact hx ▸ Or.inr (Or.inl ⟨rfl, by simp [setNode_nodes]⟩)
      · exact Or.inl (.of_eq (by simp [setNode_nodes, hx]))
  | sendRequestVote a =>
      simp only [step] at hstep
      split at hstep
      · obtain rfl := Option.some.inj hstep
        exact Or.inl (hnode rfl (.of_phase rfl fun i t hi => by cases hi))
      · cases hstep
  | requestVote b peer =>
      obtain ⟨-, rfl⟩ := of_guard hstep
      exact Or.inl (hnode rfl (.handleRequestVote _ b.msg peer))
  | voteReply r =>
      obtain ⟨-, rfl⟩ := of_guard hstep
      exact Or.inl (hnode rfl (.handleRequestVoteResponse _ r.term r.voteGranted))
  | sendAppendEntries conn =>
      obtain ⟨-, rfl⟩ := of_guard hstep
      exact Or.inl (hnode rfl (.sendAppendEntries cfg _ conn))
  | appendEntries m again =>
      obtain ⟨-, rfl⟩ := of_guard hstep
      exact Or.inl (hnode rfl (.handleAppendEntries cfg _ _ _))
  | appendReply r again =>
      obtain ⟨⟨hr, hopen⟩, rfl⟩ := of_guard hstep
      cases hsuccess : r.success with
      | false =>
          refine Or.inl (hnode rfl (.of_eq ?_))
          simp only [Node.handleAppendEntriesResponse, hsuccess, Bool.false_eq_true, ↓reduceIte,
            and_self]
      | true =>
          by_cases hx : x = (c.ends r.conn).leader
          · refine Or.inr (Or.inr ⟨r, again, rfl, hsuccess, hopen, hr, hx, ?_⟩)
            simp only [appendReply, setNode_nodes, hx, ↓reduceIte, hsuccess]
          · refine Or.inl (.of_eq ?_)
            simp only [appendReply, setNode_nodes, hx, ↓reduceIte, and_self]
  | tryCommitEntries a =>
      obtain ⟨-, rfl⟩ := of_guard hstep
      exact Or.inl (hnode rfl (.tryCommitEntries _))
  | commitEntries a =>
      obtain ⟨-, rfl⟩ := of_guard_not hstep
      exact Or.inl (hnode rfl (.commitEntries _))
  | applyCommittedEntries a =>
      obtain rfl := Option.some.inj hstep
      exact Or.inl (hnode rfl (.applyCommittedEntries _))
  | submit a cmds =>
      obtain ⟨-, rfl⟩ := of_guard hstep
      refine Or.inl (hnode rfl (.of_eq ?_))
      split
      · exact ⟨rfl, rfl⟩
      · exact ⟨rfl, rfl⟩
  | task a t =>
      obtain ⟨-, rfl⟩ := of_guard hstep
      cases t with
      | submit cmds entries =>
          cases cmds with
          | nil => exact Or.inl (hnode rfl (.of_eq ⟨rfl, rfl⟩))
          | cons cmd cmds => exact Or.inl (hnode rfl (.of_eq ⟨rfl, rfl⟩))
      | appendReply origin save term success logIndex =>
          cases save with
          | none =>
              obtain ⟨c', rfl, hnodes, -⟩ := runTask_appendReply cfg c a origin term success logIndex
              exact Or.inl (hnode hnodes (.of_eq ⟨rfl, rfl⟩))
          | due => exact Or.inl (hnode rfl (.of_eq ⟨rfl, rfl⟩))
          | serialized saved => exact Or.inl (hnode rfl (.of_eq ⟨rfl, rfl⟩))
      | save save =>
          cases save with
          | none => exact Or.inl (hnode rfl (.of_eq ⟨rfl, rfl⟩))
          | due => exact Or.inl (hnode rfl (.of_eq ⟨rfl, rfl⟩))
          | serialized saved => exact Or.inl (hnode rfl (.of_eq ⟨rfl, rfl⟩))
      | admitNode addr conn => exact Or.inl (hnode rfl (.of_eq ⟨rfl, rfl⟩))
      | broadcast term =>
          have hnodes : (c.runTask cfg a (.broadcast term)).nodes = Function.update c.nodes a
              { c.nodes a with tasks := (c.nodes a).tasks.erase (.broadcast term) } := by
            unfold runTask
            simp only
            split
            · rfl
            · rfl
          exact Or.inl (hnode hnodes (.of_eq ⟨rfl, rfl⟩))
      | newMaster leader term newer =>
          have htasks : Bystander (c.nodes a) { c.nodes a with
            tasks := (c.nodes a).tasks.erase (.newMaster leader term newer) } := .of_eq ⟨rfl, rfl⟩
          exact Or.inl (hnode rfl ((htasks.trans (.storeNewMaster _ leader term newer)).trans
            (.of_eq ⟨rfl, rfl⟩)))
      | follow leader term commitIndex => exact Or.inl (hnode rfl (.of_eq ⟨rfl, rfl⟩))
  | reconnect a =>
      simp only [step] at hstep
      split at hstep
      · cases hstep
      · obtain rfl := Option.some.inj hstep
        exact Or.inl (hnode rfl (.of_eq ⟨rfl, rfl⟩))
  | joinRequest j =>
      obtain ⟨-, rfl⟩ := of_guard hstep
      exact Or.inl (hnode rfl (.handleJoinCluster cfg _ _ _ _))
  | joinReply conn r =>
      simp only [step] at hstep
      split at hstep
      · cases hstep
      · next j hj =>
          obtain ⟨-, rfl⟩ := of_guard hstep
          have hfollow : ∀ n : Node, n.matchIndex = ∅ →
              n.election = ((c.nodes (c.ends conn).follower).follow j).election →
              Bystander (c.nodes (c.ends conn).follower) n := fun n hmatch helection =>
            .of_empty hmatch fun i t hi =>
              (Bystander.follow (c.nodes (c.ends conn).follower) j).campaign i t (helection ▸ hi)
          cases r with
          | joined term nodes => exact Or.inl (hnode rfl (hfollow _ rfl rfl))
          | rejected term => exact Or.inl (hnode rfl (hfollow _ rfl rfl))
          | redirect leader =>
              refine Or.inl (hnode rfl (hfollow _ ?_ ?_))
              all_goals cases leader with
              | none => rfl
              | some leader =>
                  simp only
                  split
                  · rfl
                  · rfl
  | closeSocket conn =>
      obtain rfl := Option.some.inj hstep
      exact Or.inl (hnode rfl (.of_erase rfl rfl))
  | removeNode a node =>
      obtain ⟨-, rfl⟩ := of_guard hstep
      exact Or.inl (hnode rfl (.removeNode _ node))
  | notice conn m =>
      obtain ⟨-, rfl⟩ := of_guard hstep
      cases m with
      | member node isMember => exact Or.inl (hnode rfl (.setMember _ _ node isMember))
      | queryLeader leader =>
          refine Or.inl (hnode rfl (.of_eq ?_))
          simp only
          split
          · exact ⟨rfl, rfl⟩
          · exact ⟨rfl, rfl⟩
  | setMaster a leader found =>
      obtain ⟨-, rfl⟩ := of_guard hstep
      rcases setMaster_cases c a leader found with h | ⟨term, commitIndex, -, h⟩ | ⟨hleader, h⟩
      · rw [h]
        exact Or.inl (.of_eq ⟨rfl, rfl⟩)
      · rw [h] at hnode ⊢
        exact Or.inl (hnode rfl (.of_eq ⟨rfl, rfl⟩))
      · rw [h] at hnode ⊢
        exact Or.inl (hnode rfl (.of_eq ⟨rfl, rfl⟩))
  | newMaster m =>
      obtain ⟨-, rfl⟩ := of_guard hstep
      unfold newMaster
      simp only
      split
      · exact Or.inl (.of_eq ⟨rfl, rfl⟩)
      · refine Or.inl (.of_eq ?_)
        rw [setNode_nodes]
        split
        · next h =>
            rw [h]
            exact ⟨rfl, rfl⟩
        · exact ⟨rfl, rfl⟩
  | sendSnapshot conn =>
      obtain ⟨-, rfl⟩ := of_guard hstep
      exact Or.inl (.of_eq ⟨rfl, rfl⟩)
  | installSnapshot m =>
      obtain ⟨-, rfl⟩ := of_guard hstep
      exact Or.inl (hnode rfl (.of_eq ⟨rfl, rfl⟩))
  | restart a found =>
      obtain rfl := Option.some.inj hstep
      exact Or.inl (hnode rfl (.of_empty rfl fun i t hi => by cases hi))

/-- A success that a follower is about to report names the last index of its log. -/
theorem handleAppendEntries_acks {n : Node} {conn origin : Conn} {msg : Node.AppendEntries}
    {save : Saving} {t i : Nat}
    (h : Task.appendReply origin save t true i ∈ (n.handleAppendEntries cfg conn msg).tasks) :
    Task.appendReply origin save t true i ∈ n.tasks ∨ Accepts cfg n msg ∧ t = msg.term ∧
      i = (Node.appendLoop cfg n.logArray 0 msg.entries).log.getLastIndex := by
  rcases @handleAppendEntries_cases cfg n conn msg with ⟨-, heq⟩ | ⟨-, -, heq⟩ | ⟨-, -, -, heq⟩ |
    ⟨hle, hprev, hret, heq⟩
  all_goals rw [heq] at h
  · rcases List.mem_cons.1 h with h | h
    · cases h
    · exact Or.inl h
  · rcases List.mem_cons.1 h with h | h
    · cases h
    · exact Or.inl h
  · exact Or.inl h
  · rcases List.mem_cons.1 h with h | h
    · injection h with _ _ hterm _ hindex
      exact Or.inr ⟨⟨hle, hprev, hret⟩, hterm, hindex⟩
    · exact Or.inl h

/-- Committing changes the state, its saved copy and nothing else that a handler reads. -/
theorem tryCommitEntries_with (n : Node) : ∃ state disk committed, n.tryCommitEntries.1 =
    { n with state := state, disk := disk, committed := committed } := by
  have hadvance : ∃ state disk committed, n.advanceCommit =
      { n with state := state, disk := disk, committed := committed } := by
    unfold Node.advanceCommit
    split
    · exact ⟨_, _, _, rfl⟩
    · exact ⟨_, _, _, rfl⟩
  obtain ⟨state, disk, committed, h⟩ := hadvance
  unfold Node.tryCommitEntries
  split
  · exact ⟨_, _, _, rfl⟩
  · simp only [h]
    unfold Node.applyCommittedEntries
    split
    · exact ⟨_, _, _, rfl⟩
    · exact ⟨_, _, _, rfl⟩

theorem commitEntries_with (n : Node) : ∃ state disk committed, n.commitEntries.1 =
    { n with state := state, disk := disk, committed := committed } := by
  unfold Node.commitEntries
  split
  · exact ⟨_, _, _, rfl⟩
  · exact ⟨_, _, _, rfl⟩

/-- What a step can do to connections and answers. -/
structure AnswerStep (c c' : Cluster) : Prop where
  nextConn : c.nextConn ≤ c'.nextConn
  ends : ∀ conn < c.nextConn, c'.ends conn = c.ends conn
  client : ∀ x conn, (c'.nodes x).followerClient = some conn →
    (c.nodes x).followerClient = some conn ∨ conn < c'.nextConn ∧ (c'.ends conn).follower = x
  task : ∀ x origin save t i, Task.appendReply origin save t true i ∈ (c'.nodes x).tasks →
    (∃ save', Task.appendReply origin save' t true i ∈ (c.nodes x).tasks) ∨ Acked c' x t i
  reply : ∀ r ∈ c'.net.appendReplies, r ∈ c.net.appendReplies ∨ ∃ x save,
    (c.nodes x).followerClient = some r.conn ∧
      Task.appendReply r.origin save r.term r.success r.logIndex ∈ (c.nodes x).tasks

theorem AnswerStep.of_idle (h : IdleStep c c') : AnswerStep c c' :=
  ⟨h.nextConn, fun _ _ => by rw [h.ends], fun x conn hc => Or.inl ((h.nodes x).client conn hc),
    fun x o s t i hk => Or.inl ((h.nodes x).acks o s t i hk),
    fun _ hr => Or.inl (h.appendReplies hr)⟩

/-- A step that changes one node, which sends no answer, and opens no connection. -/
theorem AnswerStep.of_node {a : Address} {n : Node}
    (hnodes : c'.nodes = Function.update c.nodes a n)
    (hclient : ∀ conn, n.followerClient = some conn → (c.nodes a).followerClient = some conn)
    (htask : ∀ origin save t i, Task.appendReply origin save t true i ∈ n.tasks →
      (∃ save', Task.appendReply origin save' t true i ∈ (c.nodes a).tasks) ∨ Acked c' a t i)
    (hends : c'.ends = c.ends) (hnext : c'.nextConn = c.nextConn)
    (hreplies : c'.net.appendReplies = c.net.appendReplies) : AnswerStep c c' := by
  refine ⟨hnext.ge, fun _ _ => by rw [hends], fun x conn hc => Or.inl ?_, fun x o s t i hk => ?_,
    fun r hr => Or.inl (hreplies ▸ hr)⟩
  · rw [hnodes, Function.update_apply] at hc
    split at hc
    · next h => exact h ▸ hclient conn hc
    · exact hc
  · rw [hnodes, Function.update_apply] at hk
    split at hk
    · next h => exact h ▸ htask o s t i hk
    · exact Or.inl ⟨s, hk⟩

theorem AnswerStep.of_idleNode {a : Address} {n : Node} (hidle : Idle (c.nodes a) n)
    (hnodes : c'.nodes = Function.update c.nodes a n) (hends : c'.ends = c.ends)
    (hnext : c'.nextConn = c.nextConn) (hreplies : c'.net.appendReplies = c.net.appendReplies) :
    AnswerStep c c' :=
  .of_node hnodes hidle.client (fun o s t i hk => Or.inl (hidle.acks o s t i hk)) hends hnext
    hreplies

theorem answer_step {act : Action} (hmeets : AckMeets cfg boot c act)
    (hstep : c.step cfg act = some c') : AnswerStep c c' := by
  by_cases hother : Replicates act
  · cases act with
    | voteReply r =>
        obtain ⟨-, rfl⟩ := of_guard hstep
        exact .of_idleNode (.handleRequestVoteResponse _ r.term r.voteGranted) rfl rfl rfl rfl
    | sendAppendEntries conn =>
        obtain ⟨-, rfl⟩ := of_guard hstep
        exact .of_idleNode (.sendAppendEntries cfg _ conn) rfl rfl rfl rfl
    | appendEntries m again =>
        obtain ⟨-, rfl⟩ := of_guard hstep
        refine .of_node rfl (fun conn hc => ?_) (fun o s t i hk => ?_) rfl rfl rfl
        · rcases @handleAppendEntries_cases cfg (c.nodes (c.ends m.conn).follower) m.conn m.msg
            with ⟨-, h⟩ | ⟨-, -, h⟩ | ⟨-, -, -, h⟩ | ⟨-, -, -, h⟩
          all_goals
            rw [h] at hc
            exact hc
        · rcases handleAppendEntries_acks hk with hk | ⟨haccepts, rfl, rfl⟩
          · exact Or.inl ⟨s, hk⟩
          · refine Or.inr (Or.inl ?_)
            simp only [appendEntries, haccepts, ↓reduceIte, List.mem_cons]
            rcases hmeets haccepts with hle | ⟨r, hr, hnode, hterm, hle⟩
            · exact ⟨_, Or.inl rfl, rfl, rfl, hle⟩
            · exact ⟨r, Or.inr hr, hnode, hterm, hle⟩
    | tryCommitEntries a =>
        obtain ⟨-, rfl⟩ := of_guard hstep
        obtain ⟨state, disk, committed, h⟩ := tryCommitEntries_with (c.nodes a)
        exact .of_node rfl (fun conn hc => by rw [h] at hc; exact hc)
          (fun o s t i hk => by rw [h] at hk; exact Or.inl ⟨s, hk⟩) rfl rfl rfl
    | commitEntries a =>
        obtain ⟨-, rfl⟩ := of_guard_not hstep
        obtain ⟨state, disk, committed, h⟩ := commitEntries_with (c.nodes a)
        exact .of_node rfl (fun conn hc => by rw [h] at hc; exact hc)
          (fun o s t i hk => by rw [h] at hk; exact Or.inl ⟨s, hk⟩) rfl rfl rfl
    | applyCommittedEntries a =>
        obtain rfl := Option.some.inj hstep
        exact .of_idleNode (.applyCommittedEntries _) rfl rfl rfl rfl
    | task a t =>
        obtain ⟨htask, rfl⟩ := of_guard hstep
        by_cases hreplicates : Replicates (.task a t)
        · cases t with
          | submit cmds entries =>
              cases cmds with
              | nil =>
                  exact .of_node rfl (fun conn hc => hc)
                    (fun o s t i hk => Or.inl ⟨s, List.mem_of_mem_erase hk⟩) rfl rfl rfl
              | cons cmd cmds => exact absurd hreplicates id
          | appendReply origin save term success logIndex =>
              cases save with
              | due => exact absurd hreplicates id
              | serialized saved => exact absurd hreplicates id
              | none =>
                  obtain ⟨c', rfl, hnodes, -, hends, hnext, -, -, hreplies⟩ :=
                    runTask_appendReply cfg c a origin term success logIndex
                  refine ⟨hnext.ge, fun _ _ => by rw [hends], fun x conn hc => Or.inl ?_,
                    fun x o s t i hk => Or.inl ⟨s, ?_⟩, fun r hr => (hreplies r hr).imp id ?_⟩
                  · rw [hnodes, Function.update_apply] at hc
                    split at hc
                    · next h => rwa [h]
                    · exact hc
                  · rw [hnodes, Function.update_apply] at hk
                    split at hk
                    · next h => exact h ▸ List.mem_of_mem_erase hk
                    · exact hk
                  · rintro ⟨conn, hclient, rfl⟩
                    exact ⟨a, .none, hclient, htask⟩
          | save save => exact absurd hreplicates id
          | follow leader term commitIndex =>
              have hself : ((c.runTask cfg a (.follow leader term commitIndex)).nodes a).tasks =
                  (c.nodes a).tasks.erase (.follow leader term commitIndex) := by
                simp only [runTask, connect, setNode_nodes, ↓reduceIte]
              refine ⟨Nat.le_succ _, fun conn hlt => Function.update_of_ne (Nat.ne_of_lt hlt) _ _,
                fun x conn hc => ?_, fun x o s t i hk => Or.inl ⟨s, ?_⟩, fun r hr => Or.inl hr⟩
              · simp only [runTask, connect, setNode_nodes] at hc ⊢
                split at hc
                · next h =>
                    obtain rfl := Option.some.inj hc
                    exact Or.inr ⟨Nat.lt_succ_self _, by rw [Function.update_self]; exact h.symm⟩
                · exact Or.inl hc
              · by_cases h : x = a
                · rw [h, hself] at hk
                  exact h ▸ List.mem_of_mem_erase hk
                · have hx : (c.runTask cfg a (.follow leader term commitIndex)).nodes x = c.nodes x :=
                    Function.update_of_ne h _ _
                  rwa [hx] at hk
          | admitNode addr conn => exact absurd hreplicates id
          | broadcast term => exact absurd hreplicates id
          | newMaster leader term newer => exact absurd hreplicates id
        · exact .of_idle (idle_runTask htask hreplicates)
    | setMaster a leader found =>
        obtain ⟨-, rfl⟩ := of_guard hstep
        rcases setMaster_cases c a leader found with h | ⟨term, commitIndex, hle, h⟩ | ⟨hleader, h⟩
        · rw [h]
          exact .of_idle .rfl
        · rw [h]
          exact .of_idleNode (.addFollow _ leader term hle) rfl rfl rfl rfl
        · rw [h]
          refine .of_node rfl (fun conn hc => hc) (fun o s t i hk => Or.inl ⟨s, ?_⟩) rfl rfl rfl
          rcases List.mem_cons.1 hk with hk | hk
          · cases hk
          · exact hk
    | sendSnapshot conn =>
        obtain ⟨-, rfl⟩ := of_guard hstep
        exact ⟨Nat.le_refl _, fun _ _ => rfl, fun x conn hc => Or.inl hc,
          fun x o s t i hk => Or.inl ⟨s, hk⟩, fun r hr => Or.inl hr⟩
    | installSnapshot m =>
        obtain ⟨-, rfl⟩ := of_guard hstep
        exact .of_node rfl (fun conn hc => hc) (fun o s t i hk => Or.inl ⟨s, hk⟩) rfl rfl rfl
    | restart a found =>
        obtain rfl := Option.some.inj hstep
        exact .of_node rfl (fun conn hc => by cases hc) (fun o s t i hk => by cases hk) rfl rfl rfl
    | _ => exact absurd hother id
  · exact .of_idle (step_idle hother hstep)

end Answers

section Invariant

/-- What a node has acknowledged is a part of the log of a term that has a leader; and while the
node is in this term it has this part. -/
structure Upheld (c : Cluster) (v : Address) (t k : Nat) : Prop where
  term_le : t ≤ (c.nodes v).state.currentTerm
  hasLeader : HasLeader c t
  length : k ≤ (c.history.leaderLog t).length
  held : (c.nodes v).state.currentTerm = t →
    (c.history.leaderLog t).take k <+: (c.nodes v).logArray.full

/-- The invariant of the acknowledgements: those that a node is about to send or has sent, and
those in the table of the leader of a term, have been given. -/
structure AckInv (boot : Address) (c : Cluster) : Prop where
  upheld : ∀ v t k, Acked c v t k → Upheld c v t k
  client : ∀ a conn, (c.nodes a).followerClient = some conn →
    conn < c.nextConn ∧ (c.ends conn).follower = a
  task : ∀ a origin save t i, Task.appendReply origin save t true i ∈ (c.nodes a).tasks →
    Acked c a t i
  reply : ∀ r ∈ c.net.appendReplies, r.conn < c.nextConn ∧
    (r.success = true → Acked c (c.ends r.conn).follower r.term r.logIndex)
  row : ∀ a, Led boot c (c.nodes a).state.currentTerm a → ∀ (conn : Conn) (m : Nat),
    (c.nodes a).matchIndex[conn]? = some m → m = 0 ∨ conn < c.nextConn ∧
      Acked c (c.ends conn).follower (c.nodes a).state.currentTerm m

theorem ackInv_init : AckInv boot {} := by
  refine ⟨fun v t k h => ?_, fun a conn h => (by cases h), fun a o s t i h => (by cases h),
    fun r hr => absurd hr (Finset.notMem_empty r), fun a _ conn m h => ?_⟩
  · rcases h with ⟨r, hr, -⟩ | ⟨r, hr, -⟩
    · cases hr
    · cases hr
  · exact absurd h (by simp)

theorem Upheld.step {v : Address} {t k : Nat} (h : Upheld c v t k) (hprogress : Progress c c') :
    Upheld c' v t k := by
  have htake : (c'.history.leaderLog t).take k = (c.history.leaderLog t).take k :=
    take_shorten (hprogress.leaderLog t) h.length
  refine ⟨h.term_le.trans (hprogress.term v), h.hasLeader.mono hprogress.elections,
    h.length.trans (hprogress.leaderLog t).length_le, fun hterm => ?_⟩
  have hle := hprogress.term v
  have hsame : (c.nodes v).state.currentTerm = t := Nat.le_antisymm (by omega) h.term_le
  rw [htake]
  rcases hprogress.log v with hlog | ⟨u, hlow, hhigh, -, hkept, -⟩
  · rw [hlog]
    exact h.held hsame
  · obtain rfl : u = t := by omega
    exact hkept _ (h.held hsame) (List.take_prefix _ _)

/-- An election is won by counting a vote. -/
theorem elections_step {act : Action} (hvote : VoteMeets members c act)
    (hstep : c.step cfg act = some c') (e : Election) (he : e ∈ c'.history.elections) :
    e ∈ c.history.elections ∨ ∃ r, act = .voteReply r ∧ Wins (c.nodes r.candidate) r ∧
      e = ⟨r.candidate, r.term, insert r.voter (c.history.counted r.candidate),
        (c.nodes r.candidate).state.clusterNodes⟩ := by
  by_cases helects : Elects act
  · cases act with
    | becomeCandidate a =>
        obtain ⟨-, rfl⟩ := of_guard hstep
        exact Or.inl he
    | sendRequestVote a =>
        simp only [step] at hstep
        split at hstep
        · obtain rfl := Option.some.inj hstep
          exact Or.inl he
        · cases hstep
    | requestVote b peer =>
        obtain ⟨-, rfl⟩ := of_guard hstep
        exact Or.inl he
    | voteReply r =>
        obtain ⟨-, rfl⟩ := of_guard hstep
        by_cases hwins : Wins (c.nodes r.candidate) r
        · simp only [voteReply, hwins, hwins.1, ↓reduceIte, List.mem_cons] at he
          rcases he with he | he
          · exact Or.inr ⟨r, rfl, hwins, he⟩
          · exact Or.inl he
        · simp only [voteReply, hwins, ↓reduceIte] at he
          exact Or.inl he
    | restart a found =>
        obtain rfl := Option.some.inj hstep
        exact Or.inl he
    | _ => exact absurd helects id
  · rw [(step_quiet helects hvote hstep).elections] at he
    exact Or.inl he

/-- The leader of a term after a step was so before, or has just won. -/
theorem led_step {act : Action} (hterm : TermInv members c) (hvote : VoteMeets members c act)
    (hstep : c.step cfg act = some c') (hprogress : Progress c c') {a : Address}
    (hled : Led boot c' (c'.nodes a).state.currentTerm a) :
    ((c'.nodes a).state.currentTerm = (c.nodes a).state.currentTerm ∧
        Led boot c (c.nodes a).state.currentTerm a) ∨
      ∃ r, act = .voteReply r ∧ Wins (c.nodes r.candidate) r ∧ a = r.candidate := by
  have hle := hprogress.term a
  have hold : ∀ e ∈ c.history.elections, e.term = (c'.nodes a).state.currentTerm → e.leader = a →
      (c'.nodes a).state.currentTerm = (c.nodes a).state.currentTerm ∧
        Led boot c (c.nodes a).state.currentTerm a := by
    intro e he ht ha
    have hknown := election_term_le hterm.vote hterm.campaign he
    rw [ha] at hknown
    have hsame : (c'.nodes a).state.currentTerm = (c.nodes a).state.currentTerm := by omega
    exact ⟨hsame, Or.inr ⟨e, he, ht.trans hsame, ha⟩⟩
  rcases hled with ⟨hzero, ha⟩ | ⟨e, he, ht, ha⟩
  · have hsame : (c'.nodes a).state.currentTerm = (c.nodes a).state.currentTerm := by omega
    exact Or.inl ⟨hsame, Or.inl ⟨by omega, ha⟩⟩
  · rcases elections_step hvote hstep e he with he | ⟨r, hact, hwins, rfl⟩
    · exact Or.inl (hold e he ht ha)
    · exact Or.inr ⟨r, hact, hwins, ha.symm⟩

theorem ackInv_step {act : Action} (hinv : AckInv boot c) (hterm : TermInv members c)
    (hvote : VoteMeets members c act) (hprogress : Progress c c') (hmeets : AckMeets cfg boot c act)
    (hstep : c.step cfg act = some c') : AckInv boot c' := by
  have hanswer := answer_step hmeets hstep
  refine ⟨fun v t k h => ?_, fun a conn h => ?_, fun a o s t i h => ?_, fun r hr => ?_,
    fun a hled conn m hrow => ?_⟩
  · rcases hprogress.new v t k h with h | h
    · exact (hinv.upheld v t k h).step hprogress
    · exact ⟨h.term.ge, h.hasLeader.mono hprogress.elections, h.length, fun _ => h.held⟩
  · rcases hanswer.client a conn h with h | h
    · obtain ⟨hlt, hends⟩ := hinv.client a conn h
      exact ⟨hlt.trans_le hanswer.nextConn, by rw [hanswer.ends conn hlt, hends]⟩
    · exact h
  · rcases hanswer.task a o s t i h with ⟨s', h⟩ | h
    · exact hprogress.acked _ _ _ (hinv.task a o s' t i h)
    · exact h
  · rcases hanswer.reply r hr with hr | ⟨a, save, hclient, htask⟩
    · obtain ⟨hlt, hacked⟩ := hinv.reply r hr
      exact ⟨hlt.trans_le hanswer.nextConn, fun h => by
        rw [hanswer.ends _ hlt]
        exact hprogress.acked _ _ _ (hacked h)⟩
    · obtain ⟨hlt, hends⟩ := hinv.client a _ hclient
      refine ⟨hlt.trans_le hanswer.nextConn, fun h => ?_⟩
      rw [hanswer.ends _ hlt, hends]
      rw [h] at htask
      exact hprogress.acked _ _ _ (hinv.task a _ _ _ _ htask)
  · rcases led_step hterm hvote hstep hprogress hled with ⟨hsame, hled⟩ | ⟨r, rfl, hwins, rfl⟩
    · rw [hsame]
      have hold : ∀ (conn : Conn) (m : Nat), (c.nodes a).matchIndex[conn]? = some m →
          m = 0 ∨ conn < c'.nextConn ∧
            Acked c' (c'.ends conn).follower (c.nodes a).state.currentTerm m := by
        intro conn m hrow
        rcases hinv.row a hled conn m hrow with h | ⟨hlt, h⟩
        · exact Or.inl h
        · refine Or.inr ⟨hlt.trans_le hanswer.nextConn, ?_⟩
          rw [hanswer.ends conn hlt]
          exact hprogress.acked _ _ _ h
      rcases bystander_step hstep a with hstander | ⟨-, hnode⟩ |
        ⟨r, again, rfl, hsuccess, hopen, hr, rfl, hnode⟩
      · rcases hstander.row conn m hrow with h | h
        · exact hold conn m h
        · exact Or.inl h
      · rw [hnode] at hrow
        exact hold conn m hrow
      · rw [hnode] at hrow
        simp only [Node.handleAppendEntriesResponse, ↓reduceIte] at hrow
        rw [Std.ExtTreeMap.getElem?_insert] at hrow
        split at hrow
        · next hconn =>
            -- the answer is one of the leader's term
            obtain rfl := Std.compare_eq_iff_eq.1 hconn
            obtain rfl := Option.some.inj hrow
            have hterms := hmeets hsuccess hled
            have hnew := (hinv.reply r hr).2 hsuccess
            rw [hterms] at hnew
            rcases Nat.le_total (((c.nodes (c.ends r.conn).leader).matchIndex[r.conn]?).getD 0)
              r.logIndex with hle | hle
            · rw [max_eq_right hle]
              refine Or.inr ⟨hopen.2.trans_le hanswer.nextConn, ?_⟩
              rw [hanswer.ends _ hopen.2]
              exact hprogress.acked _ _ _ hnew
            · rw [max_eq_left hle]
              cases hrow : (c.nodes (c.ends r.conn).leader).matchIndex[r.conn]? with
              | none => exact Or.inl rfl
              | some old => exact hold _ old hrow
        · exact hold conn m hrow
    · -- the winner's table is empty, or full of zeros
      rcases bystander_step hstep r.candidate with hstander | ⟨hact, -⟩ | ⟨r', again, hact, -⟩
      · rcases hstander.row conn m hrow with h | h
        · exact Or.inl (hmeets hwins m (OrderedMap.mem_values_of_getElem? h))
        · exact Or.inl h
      · cases hact
      · cases hact

end Invariant

section Soundness

/-- The invariants of elections, logs, messages and acknowledgements. -/
structure ReplicationInv (members : Nat → Finset Address) (boot : Address) (c : Cluster) :
    Prop where
  term : TermInv members c
  log : LogInv boot c
  leader : LeaderInv c
  ack : AckInv boot c

/-- What replication relies on: the conditions of elections, of log matching and of
acknowledgements. -/
def ReplicationMeets (cfg : RaftNodeConfig) (members : Nat → Finset Address) (boot : Address)
    (c : Cluster) (act : Action) : Prop :=
  VoteMeets members c act ∧ LogMeets boot c act ∧ AckMeets cfg boot c act

instance (cfg : RaftNodeConfig) (members : Nat → Finset Address) (boot : Address) (c : Cluster)
    (act : Action) : Decidable (ReplicationMeets cfg members boot c act) :=
  inferInstanceAs (Decidable (_ ∧ _ ∧ _))

theorem replicationInv_init : ReplicationInv members boot {} :=
  ⟨termInv_init, logInv_init, leaderInv_init, ackInv_init⟩

theorem ReplicationInv.progress {act : Action} (hinv : ReplicationInv members boot c)
    (hmeets : ReplicationMeets cfg members boot c act) (hstep : c.step cfg act = some c') :
    Progress c c' :=
  progress_step hinv.term hinv.log hinv.leader hmeets.1 hmeets.2.1 hmeets.2.2 hstep

theorem replicationInv_step {act : Action} (hinv : ReplicationInv members boot c)
    (hmeets : ReplicationMeets cfg members boot c act) (hstep : c.step cfg act = some c') :
    ReplicationInv members boot c' := by
  have hprogress := hinv.progress hmeets hstep
  obtain ⟨hvote, hlog, hack⟩ := hmeets
  exact ⟨termInv_step hinv.term hvote hstep, logInv_step hinv.log hinv.term hvote hlog hstep,
    leaderInv_step hinv.leader hinv.log hprogress hack hstep,
    ackInv_step hinv.ack hinv.term hvote hprogress hack hstep⟩

/-- The table of a leader is right: a row names no entry that the leader does not have, and a
follower in the leader's term has the leader's entries up to its row. -/
def MatchSound (boot : Address) (c : Cluster) : Prop :=
  ∀ a, Leads boot c a → ∀ (conn : Conn) (m : Nat), (c.nodes a).matchIndex[conn]? = some m →
    m ≤ (c.nodes a).logArray.full.length ∧
      ((c.nodes (c.ends conn).follower).state.currentTerm = (c.nodes a).state.currentTerm →
        m ≤ (c.nodes (c.ends conn).follower).logArray.full.length ∧
          (c.nodes (c.ends conn).follower).logArray.full.take m =
            (c.nodes a).logArray.full.take m)

theorem ReplicationInv.matchSound (hinv : ReplicationInv members boot c) : MatchSound boot c := by
  rintro a ⟨-, hled, hfull⟩ conn m hrow
  rcases hinv.ack.row a hled conn m hrow with rfl | ⟨-, hacked⟩
  · exact ⟨Nat.zero_le _, fun _ => ⟨Nat.zero_le _, rfl⟩⟩
  · obtain ⟨-, -, hlen, hheld⟩ := hinv.ack.upheld _ _ _ hacked
    rw [hfull]
    refine ⟨hlen, fun hterm => ?_⟩
    have hprefix := hheld hterm
    have hle := hprefix.length_le
    rw [List.length_take_of_le hlen] at hle
    refine ⟨hle, ?_⟩
    rw [take_shorten hprefix (by rw [List.length_take_of_le hlen]), List.take_take, min_self]

/-- Node 2 saves its state and answers in the term 0 that it has `logIndex` entries. -/
def answer (saved : PersistentState) (logIndex : Nat) : List Action :=
  [.task (node 2) (.appendReply 1 .due 0 true logIndex),
    .task (node 2) (.appendReply 1 (.serialized saved) 0 true logIndex),
    .task (node 2) (.appendReply 1 .none 0 true logIndex),
    .appendReply ⟨1, 1, 0, true, logIndex⟩ false]

/-- The state of node 2 as a follower of node 1. -/
def following : PersistentState :=
  { currentLeader := some (node 1), clusterNodes := {node 3, node 1} }

/-- Node 2 answers for the entry that it has from node 1. -/
def answered : List Action := replicated ++ answer following 1

end Soundness

end Cluster

end EyaKV.Raft
