import EyaKV.Raft.Completeness

/-!
# Agreement of the state machines

A leader commits the index in the middle of its table, its own last index included, when the entry
there is of its term (`tryCommitEntries`). When the table has a row for enough members and no
follower has two rows, the index is reached by a majority of the members (`chosen_of_commits`).

From then on commit indices are only handed on: in the messages of the leader, in snapshots, on the
disk. `CommitInv` says that whatever a node, a message or a snapshot counts as committed is a part
of a chosen prefix (`Settled`). By leader completeness two such parts never disagree, and
`state_machine_safety` says that no two nodes ever execute different commands for one index.
-/

set_option autoImplicit false

namespace EyaKV.Raft

open EyaKV.Base EyaKV.Store

namespace Node

variable {n : Node}

section Median

/-- The index in the middle is the greatest that more than half of the table and the log reach. -/
theorem le_majorityIndex_iff (m : Nat) : m ≤ n.majorityIndex ↔
    (n.matchIndex.values.length + 1) / 2 <
      (n.logArray.getLastIndex :: n.matchIndex.values).countP fun i => m ≤ i := by
  have hlen : n.matchIndexes.length = n.matchIndex.values.length + 1 := by
    rw [matchIndexes, List.length_mergeSort, List.length_cons]
  have hmid : n.matchIndexes.length / 2 < n.matchIndexes.length := by omega
  have hget : n.majorityIndex = n.matchIndexes[n.matchIndexes.length / 2] := by
    rw [majorityIndex, List.getElem?_eq_getElem hmid, Option.getD_some]
  rw [hget, ← hlen]
  exact le_getElem_mergeSort_iff m _ hmid

/-- The node with a raised commit index. -/
def commitAt (n : Node) (index : Nat) : Node :=
  (noteCommit { n with state := { n.state with commitIndex := index } }).savePersistentState

theorem advanceCommit_eq_commitAt (h : n.state.commitIndex < n.majorityIndex ∧
    n.logArray.getTerm n.majorityIndex = n.state.currentTerm) :
    n.advanceCommit = n.commitAt n.majorityIndex := by
  rw [advanceCommit, if_pos h]
  rfl

/-- `try_commit_entries` raises the commit index. -/
def Commits (n : Node) : Prop :=
  n.state.commitIndex < n.logArray.getLastIndex ∧ n.state.commitIndex < n.majorityIndex ∧
    n.logArray.getTerm n.majorityIndex = n.state.currentTerm

instance (n : Node) : Decidable n.Commits := inferInstanceAs (Decidable (_ ∧ _ ∧ _))

/-- The entries that are executed are those of the log, up to the commit index. -/
theorem mem_committedEntries {i : Nat} {cmd : Bytes} (h : (i, cmd) ∈ n.committedEntries) :
    0 < i ∧ i ≤ n.state.commitIndex ∧ ∃ e, n.logArray.get i = some e ∧ e.cmd = cmd := by
  obtain ⟨j, hj, hentry⟩ := List.mem_filterMap.1 h
  obtain ⟨e, he, hpair⟩ := Option.map_eq_some_iff.1 hentry
  obtain ⟨rfl, rfl⟩ := Prod.mk.inj hpair
  rw [List.mem_range'_1] at hj
  exact ⟨by omega, by omega, e, he, rfl⟩

theorem Bounded.mono {k k' : Nat} (h : n.Bounded k) (hle : k ≤ k') : n.Bounded k' :=
  ⟨h.commitIndex.trans hle, h.lastApplied.trans hle, h.diskCommit.trans hle,
    h.diskApplied.trans hle, fun l t i hi => (h.follow l t i hi).trans hle,
    fun t ht saved hs => (h.serialized t ht saved hs).imp (·.trans hle) (·.trans hle),
    fun j hj => (h.joining j hj).trans hle⟩

theorem bounded_applyCommittedEntries {k : Nat} (h : n.Bounded k) :
    n.applyCommittedEntries.Bounded k :=
  (Idle.applyCommittedEntries n).bounded k h

theorem bounded_advanceCommit {k : Nat} (h : n.Bounded k)
    (hlow : n.state.commitIndex < n.logArray.getLastIndex)
    (hcommits : n.Commits → n.majorityIndex ≤ k) : n.advanceCommit.Bounded k := by
  unfold advanceCommit
  split
  · next hraise =>
      have hle := hcommits ⟨hlow, hraise⟩
      exact ⟨hle, h.lastApplied, hle, h.lastApplied, h.follow, h.serialized, h.joining⟩
  · exact h

/-- What `try_commit_entries` counts as committed, and what it executes. -/
theorem tryCommitEntries_spec {k : Nat} (h : n.Bounded k)
    (hcommits : n.Commits → n.majorityIndex ≤ k) : n.tryCommitEntries.1.Bounded k ∧
      ∀ i cmd, (i, cmd) ∈ n.tryCommitEntries.2 →
        0 < i ∧ i ≤ k ∧ ∃ e, n.logArray.get i = some e ∧ e.cmd = cmd := by
  unfold tryCommitEntries
  split
  · exact ⟨h, fun i cmd hi => by cases hi⟩
  · next hlow =>
      have hadvance := bounded_advanceCommit h (not_le.1 hlow) hcommits
      refine ⟨bounded_applyCommittedEntries hadvance, fun i cmd hi => ?_⟩
      obtain ⟨hpos, hle, e, he, hcmd⟩ := mem_committedEntries hi
      refine ⟨hpos, hle.trans hadvance.commitIndex, e, ?_, hcmd⟩
      rw [(advanceCommit_spec n).1] at he
      exact he

end Median

end Node

namespace Cluster

variable {cfg : RaftNodeConfig} {members : Nat → Finset Address} {boot : Address}
  {c c' : Cluster}

section Committing

/-- What the commit of a leader relies on, for an action in the state `c`. The node that commits
leads its term; its table has rows for different followers, all of them members of the term, and
for enough of them; and a snapshot does not come from a leader of a later term than the
follower's. -/
def CommitMeets (members : Nat → Finset Address) (boot : Address) (c : Cluster) : Action → Prop
  | .tryCommitEntries a =>
      let n := c.nodes a
      n.Commits → Leads boot c a ∧ a ∈ members n.state.currentTerm ∧
        (n.matchIndex.toList.map fun p => (c.ends p.1).follower).Nodup ∧
        (∀ p ∈ n.matchIndex.toList,
          (c.ends p.1).follower ∈ (members n.state.currentTerm).erase a) ∧
        (members n.state.currentTerm).card < 2 * ((n.matchIndex.values.length + 1) / 2 + 1)
  | .installSnapshot s => (c.nodes (c.ends s.conn).leader).state.currentTerm ≤
      (c.nodes (c.ends s.conn).follower).state.currentTerm
  | _ => True

instance (members : Nat → Finset Address) (boot : Address) (c : Cluster) :
    ∀ act, Decidable (CommitMeets members boot c act)
  | .tryCommitEntries _ => inferInstanceAs (Decidable (_ → _ ∧ _ ∧ _ ∧ _ ∧ _))
  | .installSnapshot _ => inferInstanceAs (Decidable (_ ≤ _))
  | .electionTimeout _ | .becomeCandidate _ | .readLastInfo _ | .sendRequestVote _
  | .requestVote _ _ | .voteReply _ | .sendAppendEntries _ | .appendEntries _ _ | .appendReply _ _
  | .commitEntries _ | .applyCommittedEntries _ | .submit _ _ | .task _ _ | .reconnect _
  | .joinRequest _ | .joinReply _ _ | .closeSocket _ | .removeNode _ _ | .notice _ _
  | .setMaster _ _ _ | .newMaster _ | .sendSnapshot _ | .restart _ _ => isTrue trivial

/-- The node and the followers whose row reaches `m`. -/
def reaching (c : Cluster) (a : Address) (m : Nat) : Finset Address :=
  insert a (((c.nodes a).matchIndex.toList.filter fun p => m ≤ p.2).map
    fun p => (c.ends p.1).follower).toFinset

theorem mem_reaching {a v : Address} {m : Nat} : v ∈ c.reaching a m ↔ v = a ∨
    ∃ (conn : Conn) (i : Nat), (c.nodes a).matchIndex[conn]? = some i ∧ m ≤ i ∧
      v = (c.ends conn).follower := by
  rw [reaching, Finset.mem_insert, List.mem_toFinset, List.mem_map]
  refine or_congr Iff.rfl ⟨?_, ?_⟩
  · rintro ⟨⟨conn, i⟩, hp, rfl⟩
    obtain ⟨hrow, hle⟩ := List.mem_filter.1 hp
    exact ⟨conn, i, Std.ExtTreeMap.mem_toList_iff_getElem?_eq_some.1 hrow, by simpa using hle, rfl⟩
  · rintro ⟨conn, i, hrow, hle, rfl⟩
    exact ⟨(conn, i), List.mem_filter.2
      ⟨Std.ExtTreeMap.mem_toList_iff_getElem?_eq_some.2 hrow, by simpa using hle⟩, rfl⟩

/-- With one row for each follower these are as many as the values that reach `m`. -/
theorem card_reaching {a : Address} {m : Nat} {others : Finset Address} (ha : a ∉ others)
    (hnodup : ((c.nodes a).matchIndex.toList.map fun p => (c.ends p.1).follower).Nodup)
    (hothers : ∀ p ∈ (c.nodes a).matchIndex.toList, (c.ends p.1).follower ∈ others) :
    (c.reaching a m).card = ((c.nodes a).matchIndex.values.countP fun i => m ≤ i) + 1 := by
  have hsub : (((c.nodes a).matchIndex.toList.filter fun p => m ≤ p.2).map
      fun p => (c.ends p.1).follower).Nodup := hnodup.sublist (List.filter_sublist.map _)
  rw [reaching, Finset.card_insert_of_notMem, List.toFinset_card_of_nodup hsub, List.length_map,
    OrderedMap.values_eq, List.countP_map, List.countP_eq_length_filter]
  · rfl
  · rw [List.mem_toFinset, List.mem_map]
    rintro ⟨p, hp, rfl⟩
    exact ha (hothers p (List.mem_filter.1 hp).1)

/-- A leader has acknowledged the entries of its term. -/
theorem acked_of_leads (hinv : ReplicationInv members boot c) {a : Address}
    (hleads : Leads boot c a) {k : Nat} {e : LogEntry}
    (he : (c.history.leaderLog (c.nodes a).state.currentTerm)[k]? = some e)
    (hterm : e.term = (c.nodes a).state.currentTerm) :
    Acked c a (c.nodes a).state.currentTerm (k + 1) := by
  have hgood := hinv.log.good _ (.leader (c.nodes a).state.currentTerm)
  obtain ⟨r, hr, rfl⟩ := hgood.created e (List.mem_of_getElem? he)
  obtain ⟨-, -, hled⟩ := hinv.log.creator r hr
  rw [hterm] at hled
  exact Or.inr ⟨r, hr, hled.unique hinv.term hleads.2.1, hterm, (hgood.indexed k _ he).ge⟩

/-- **The commit of a leader.** What a leader commits is chosen. -/
theorem chosen_of_commits (hinv : ReplicationInv members boot c) {a : Address}
    (hmeets : CommitMeets members boot c (.tryCommitEntries a)) (hcommits : (c.nodes a).Commits) :
    Chosen members c (c.nodes a).state.currentTerm (c.nodes a).majorityIndex ∧
      (c.nodes a).majorityIndex ≤ (c.nodes a).logArray.full.length := by
  obtain ⟨hleads, hmember, hnodup, hothers, henough⟩ := hmeets hcommits
  obtain ⟨-, hraise, hentry⟩ := hcommits
  have hpos : 0 < (c.nodes a).majorityIndex := Nat.zero_lt_of_lt hraise
  have hcount := (Node.le_majorityIndex_iff _).1 (Nat.le_refl (c.nodes a).majorityIndex)
  -- some value reaches the index, and none is behind the end of the log
  have hlen : (c.nodes a).majorityIndex ≤ (c.nodes a).logArray.full.length := by
    obtain ⟨i, hi, hle⟩ := List.countP_pos_iff.1 (Nat.zero_lt_of_lt hcount)
    rw [decide_eq_true_eq] at hle
    refine hle.trans ?_
    rcases List.mem_cons.1 hi with rfl | hi
    · exact (hinv.log.aligned a).getLastIndex_le
    · rw [OrderedMap.values_eq] at hi
      obtain ⟨⟨conn, i⟩, hrow, rfl⟩ := List.mem_map.1 hi
      exact (hinv.matchSound a hleads conn i
        (Std.ExtTreeMap.mem_toList_iff_getElem?_eq_some.1 hrow)).1
  have hlen' := hlen
  rw [hleads.2.2] at hlen'
  obtain ⟨e, he⟩ : ∃ e, (c.history.leaderLog (c.nodes a).state.currentTerm)[
      (c.nodes a).majorityIndex - 1]? = some e := ⟨_, List.getElem?_eq_getElem (by omega)⟩
  have hterm : e.term = (c.nodes a).state.currentTerm := by
    unfold RaftLogArray.getTerm at hentry
    split at hentry
    · -- a missing entry counts as one of term 0, and then so is this one
      have := hinv.leader.leaderTerm _ e (List.mem_of_getElem? he)
      omega
    · next e' hget =>
        have := ((hinv.log.aligned a).get_some hget).2.2
        rw [hleads.2.2, he] at this
        rwa [Option.some.inj this]
  refine ⟨⟨hpos, ⟨e, he, hterm⟩, c.reaching a (c.nodes a).majorityIndex, ⟨fun v hv => ?_, ?_⟩,
    fun v hv => ?_⟩, hlen⟩
  · rcases mem_reaching.1 hv with rfl | ⟨conn, i, hrow, -, rfl⟩
    · exact hmember
    · exact Finset.mem_of_mem_erase
        (hothers (conn, i) (Std.ExtTreeMap.mem_toList_iff_getElem?_eq_some.2 hrow))
  · rw [card_reaching (Finset.notMem_erase _ _) hnodup hothers]
    rw [List.countP_cons] at hcount
    split at hcount
    · omega
    · omega
  · rcases mem_reaching.1 hv with rfl | ⟨conn, i, hrow, hle, rfl⟩
    · have := acked_of_leads hinv hleads he hterm
      rwa [Nat.sub_add_cancel hpos] at this
    · rcases hinv.ack.row a hleads.2.1 conn i hrow with rfl | ⟨-, hacked⟩
      · omega
      · exact hacked.le hle

end Committing

section Settling

/-- The entries are a part of a prefix that was chosen in the term `t` or before. -/
def Settled (members : Nat → Finset Address) (c : Cluster) (t : Nat) (log : List LogEntry) : Prop :=
  log = [] ∨ ∃ u k, u ≤ t ∧ Chosen members c u k ∧ log <+: (c.history.leaderLog u).take k

variable {t t' : Nat} {log log' : List LogEntry}

theorem Settled.shorten (h : Settled members c t log) (hpre : log' <+: log) :
    Settled members c t log' := by
  rcases h with rfl | ⟨u, k, hle, hchosen, hlog⟩
  · exact Or.inl (List.prefix_nil.1 hpre)
  · exact Or.inr ⟨u, k, hle, hchosen, hpre.trans hlog⟩

theorem Settled.step (h : Settled members c t log) (hprogress : Progress c c') (hle : t ≤ t') :
    Settled members c' t' log := by
  rcases h with rfl | ⟨u, k, hu, hchosen, hlog⟩
  · exact Or.inl rfl
  · refine Or.inr ⟨u, k, hu.trans hle, hchosen.step hprogress, ?_⟩
    rw [take_shorten (hprogress.leaderLog u) hchosen.length_le]
    exact hlog

/-- Something is chosen only in a term that has a leader. -/
theorem Chosen.hasLeader {k : Nat} (h : Chosen members c t k) (hack : AckInv boot c) :
    HasLeader c t := by
  obtain ⟨q, hq, hacked⟩ := h.majority
  have hpos : 0 < q.card := by
    have := hq.2
    omega
  obtain ⟨v, hv⟩ := Finset.card_pos.1 hpos
  exact (hack.upheld v t k (hacked v hv)).hasLeader

/-- The leaders of later terms have what is settled. -/
theorem Settled.leaderLog (h : Settled members c t log) (hcomplete : CompleteInv members c)
    (hle : t ≤ t') (hleader : HasLeader c t') : log <+: c.history.leaderLog t' := by
  rcases h with rfl | ⟨u, k, hu, hchosen, hlog⟩
  · exact List.nil_prefix
  · exact hlog.trans ((hchosen.kept hcomplete).leaderLog (hu.trans hle) hleader)

/-- Of two settled pieces one is a prefix of the other. -/
theorem Settled.comparable (h : Settled members c t log) (h' : Settled members c t' log')
    (hcomplete : CompleteInv members c) (hack : AckInv boot c) : log <+: log' ∨ log' <+: log := by
  rcases h with rfl | ⟨u, k, -, hchosen, hlog⟩
  · exact Or.inl List.nil_prefix
  · rcases h' with rfl | ⟨u', k', -, hchosen', hlog'⟩
    · exact Or.inr List.nil_prefix
    · -- both are in the log of the later one of the two terms
      have hpre : ∀ v, u ≤ v → HasLeader c v → log <+: c.history.leaderLog v := fun v hle hv =>
        hlog.trans ((hchosen.kept hcomplete).leaderLog hle hv)
      have hpre' : ∀ v, u' ≤ v → HasLeader c v → log' <+: c.history.leaderLog v := fun v hle hv =>
        hlog'.trans ((hchosen'.kept hcomplete).leaderLog hle hv)
      rcases Nat.le_total u u' with hle | hle
      · have hl := hchosen'.hasLeader hack
        exact List.prefix_or_prefix_of_prefix (hpre u' hle hl) (hpre' u' (Nat.le_refl _) hl)
      · have hl := hchosen.hasLeader hack
        exact List.prefix_or_prefix_of_prefix (hpre u (Nat.le_refl _) hl) (hpre' u hle hl)

/-- The invariant of what counts as committed: it is settled, in the logs of the nodes up to the
commit indices that they keep, in the messages up to that of the sender, and in the snapshots; and
the executed commands are those of chosen entries. -/
structure CommitInv (members : Nat → Finset Address) (c : Cluster) : Prop where
  node : ∀ a, ∃ k ≤ (c.nodes a).logArray.full.length, (c.nodes a).Bounded k ∧
    Settled members c (c.nodes a).state.currentTerm ((c.nodes a).logArray.full.take k)
  message : ∀ m ∈ c.net.appends, m.msg.leaderCommit ≤ m.source.length ∧
    Settled members c m.msg.term (m.source.take m.msg.leaderCommit)
  snapshot : ∀ s ∈ c.net.snapshots, s.conn < c.nextConn ∧
    Settled members c (c.nodes (c.ends s.conn).leader).state.currentTerm s.content
  applied : ∀ r ∈ c.history.applied, 0 < r.index ∧ ∃ t log e, Settled members c t log ∧
    log[r.index - 1]? = some e ∧ e.cmd = r.cmd

theorem commitInv_init : CommitInv members {} := by
  refine ⟨fun a => ⟨0, Nat.zero_le _, ⟨Nat.le_refl 0, Nat.le_refl 0, Nat.le_refl 0, Nat.le_refl 0,
    fun _ _ _ h => (by cases h), fun _ h => (by cases h), fun _ h => (by cases h)⟩, Or.inl rfl⟩,
    fun m hm => absurd hm (Finset.notMem_empty m), fun s hs => absurd hs (Finset.notMem_empty s),
    fun r hr => (by cases hr)⟩

/-- A step leaves the settled part of a log. -/
theorem take_kept {a : Address} {k : Nat} (hk : k ≤ (c.nodes a).logArray.full.length)
    (h : Settled members c (c.nodes a).state.currentTerm ((c.nodes a).logArray.full.take k))
    (hcomplete : CompleteInv members c) (hprogress : Progress c c') :
    k ≤ (c'.nodes a).logArray.full.length ∧
      (c'.nodes a).logArray.full.take k = (c.nodes a).logArray.full.take k := by
  have hpre : (c.nodes a).logArray.full.take k <+: (c'.nodes a).logArray.full := by
    rcases hprogress.log a with hlog | ⟨u, hlow, -, hleader, hkept, -⟩
    · rw [hlog]
      exact List.take_prefix _ _
    · exact hkept _ (List.take_prefix _ _) (h.leaderLog hcomplete hlow hleader)
  have hle := hpre.length_le
  rw [List.length_take_of_le hk] at hle
  refine ⟨hle, ?_⟩
  rw [take_shorten hpre (by rw [List.length_take_of_le hk]), List.take_take, min_self]

end Settling

section Steps

/-- A message raises the commit index to that of the leader, or to the end of the log. -/
theorem bounded_handleAppendEntries {n : Node} {origin : Conn} {msg : Node.AppendEntries} {k : Nat}
    (h : n.Bounded k) : (n.handleAppendEntries cfg origin msg).Bounded k ∨ Accepts cfg n msg ∧
      (n.handleAppendEntries cfg origin msg).Bounded (max k (min msg.leaderCommit
        (n.handleAppendEntries cfg origin msg).logArray.getLastIndex)) := by
  have htask : ∀ {o : Conn} {save : Saving} {u : Nat} {success : Bool} {j : Nat} (l : Address)
      (t i : Nat), Task.follow l t i ∈ Task.appendReply o save u success j :: n.tasks → i ≤ k :=
    fun l t i hi => h.follow l t i ((List.mem_cons.1 hi).resolve_left fun h => by cases h)
  -- the save of the reply has nothing serialized yet
  have hsaved : ∀ {o : Conn} {save : Bool} {u : Nat} {success : Bool} {j : Nat},
      ∀ t ∈ Task.appendReply o (.when save) u success j :: n.tasks, ∀ saved ∈ t.serialized,
        saved.commitIndex ≤ k ∧ saved.lastApplied ≤ k := by
    intro o save u success j t ht saved hs
    rcases List.mem_cons.1 ht with rfl | ht
    · rw [Task.serialized_reply] at hs
      cases hs
    · exact h.serialized t ht saved hs
  rcases @handleAppendEntries_cases cfg n origin msg with ⟨-, heq⟩ | ⟨-, -, heq⟩ | ⟨-, -, -, heq⟩ |
    ⟨hle, hprev, hret, heq⟩
  all_goals rw [heq]
  · exact Or.inl ⟨h.commitIndex, h.lastApplied, h.diskCommit, h.diskApplied, htask,
      @hsaved _ false _ _ _, h.joining⟩
  · exact Or.inl ⟨h.commitIndex, h.lastApplied, h.diskCommit, h.diskApplied, htask, hsaved,
      h.joining⟩
  · exact Or.inl ⟨h.commitIndex, h.lastApplied, h.diskCommit, h.diskApplied, h.follow,
      h.serialized, h.joining⟩
  · have hmax := h.mono (le_max_left k (min msg.leaderCommit
      (Node.appendLoop cfg n.logArray 0 msg.entries).log.getLastIndex))
    exact Or.inr ⟨⟨hle, hprev, hret⟩, max_le_max h.commitIndex (Nat.le_refl _), hmax.lastApplied,
      hmax.diskCommit, hmax.diskApplied, fun l t i hi => (htask l t i hi).trans (le_max_left _ _),
      fun t ht saved hs => (hsaved t ht saved hs).imp (·.trans (le_max_left _ _))
        (·.trans (le_max_left _ _)), hmax.joining⟩

/-- Only a message, a commit or a snapshot raises a commit index that a node keeps. -/
theorem bounded_step {act : Action} (hconfirm : cfg.needMajorityConfirm = true)
    (hstep : c.step cfg act = some c') (x : Address) :
    (∀ k, (c.nodes x).Bounded k → (c'.nodes x).Bounded k) ∨
      (∃ m again, act = .appendEntries m again ∧ x = (c.ends m.conn).follower) ∨
      act = .tryCommitEntries x ∨ ∃ s, act = .installSnapshot s ∧ x = (c.ends s.conn).follower := by
  have hupdate : ∀ {a : Address} {n : Node}, c'.nodes = Function.update c.nodes a n →
      (x = a → ∀ k, (c.nodes a).Bounded k → n.Bounded k) →
      ∀ k, (c.nodes x).Bounded k → (c'.nodes x).Bounded k := by
    intro a n hnodes hn k hk
    rw [hnodes, Function.update_apply]
    split
    · next h => exact hn h k (h ▸ hk)
    · exact hk
  have hidle : ∀ {a : Address} {n : Node}, c'.nodes = Function.update c.nodes a n →
      Idle (c.nodes a) n → ∀ k, (c.nodes x).Bounded k → (c'.nodes x).Bounded k :=
    fun hnodes hn => hupdate hnodes fun _ => hn.bounded
  by_cases hother : Replicates act
  · cases act with
    | voteReply r =>
        obtain ⟨-, rfl⟩ := of_guard hstep
        exact Or.inl (hidle rfl (.handleRequestVoteResponse _ r.term r.voteGranted))
    | sendAppendEntries conn =>
        obtain ⟨-, rfl⟩ := of_guard hstep
        exact Or.inl (hidle rfl (.sendAppendEntries cfg _ conn))
    | appendEntries m again =>
        obtain ⟨-, rfl⟩ := of_guard hstep
        by_cases hx : x = (c.ends m.conn).follower
        · exact Or.inr (Or.inl ⟨m, again, rfl, hx⟩)
        · exact Or.inl (hupdate rfl fun h => absurd h hx)
    | tryCommitEntries a =>
        obtain ⟨-, rfl⟩ := of_guard hstep
        by_cases hx : x = a
        · exact Or.inr (Or.inr (Or.inl (by rw [hx])))
        · exact Or.inl (hupdate rfl fun h => absurd h hx)
    | commitEntries a => exact absurd hconfirm (of_guard_not hstep).1
    | applyCommittedEntries a =>
        obtain rfl := Option.some.inj hstep
        exact Or.inl (hidle rfl (.applyCommittedEntries _))
    | task a t =>
        obtain ⟨htask, rfl⟩ := of_guard hstep
        by_cases hreplicates : Replicates (.task a t)
        · cases t with
          | submit cmds entries =>
              cases cmds with
              | nil =>
                  refine Or.inl (hupdate rfl fun _ k hk => ?_)
                  exact ⟨hk.commitIndex, hk.lastApplied, hk.diskCommit, hk.diskApplied,
                    fun l t i hi => hk.follow l t i (List.mem_of_mem_erase hi),
                    fun t ht => hk.serialized t (List.mem_of_mem_erase ht), hk.joining⟩
              | cons cmd cmds => exact absurd hreplicates id
          | appendReply origin save term success logIndex =>
              cases save with
              | none =>
                  obtain ⟨c', rfl, hnodes, -⟩ :=
                    runTask_appendReply cfg c a origin term success logIndex
                  exact Or.inl (hidle hnodes (.eraseTask _ _))
              | due => exact absurd hreplicates id
              | serialized saved => exact absurd hreplicates id
          | save save => exact absurd hreplicates id
          | follow leader term commitIndex =>
              refine Or.inl (hupdate rfl fun _ k hk => ?_)
              refine ⟨hk.commitIndex, hk.lastApplied, hk.diskCommit, hk.diskApplied,
                fun l t i hi => hk.follow l t i (List.mem_of_mem_erase hi),
                fun t ht => hk.serialized t (List.mem_of_mem_erase ht), fun j hj => ?_⟩
              -- the index that the task took along
              obtain rfl := Option.some.inj hj
              exact hk.follow leader term commitIndex htask
          | admitNode addr conn => exact absurd hreplicates id
          | broadcast term => exact absurd hreplicates id
          | newMaster leader term newer => exact absurd hreplicates id
        · exact Or.inl ((idle_runTask htask hreplicates).nodes x).bounded
    | setMaster a leader found =>
        obtain ⟨-, rfl⟩ := of_guard hstep
        rcases setMaster_cases c a leader found with h | ⟨term, commitIndex, hle, h⟩ | ⟨hleader, h⟩
        · rw [h]
          exact Or.inl fun k hk => hk
        · rw [h] at hidle ⊢
          exact Or.inl (hidle rfl (.addFollow _ leader term hle))
        · rw [h] at hupdate ⊢
          refine Or.inl (hupdate rfl fun _ k hk => ?_)
          refine ⟨Nat.zero_le k, Nat.zero_le k, Nat.zero_le k, Nat.zero_le k, fun l t i hi => ?_,
            fun t ht saved hs => ?_, hk.joining⟩
          · rcases List.mem_cons.1 hi with hi | hi
            · cases hi
              exact Nat.zero_le k
            · exact hk.follow l t i hi
          · rcases List.mem_cons.1 ht with rfl | ht
            · cases hs
            · exact hk.serialized t ht saved hs
    | sendSnapshot conn =>
        obtain ⟨-, rfl⟩ := of_guard hstep
        exact Or.inl fun k hk => hk
    | installSnapshot s =>
        obtain ⟨-, rfl⟩ := of_guard hstep
        by_cases hx : x = (c.ends s.conn).follower
        · exact Or.inr (Or.inr (Or.inr ⟨s, rfl, hx⟩))
        · exact Or.inl (hupdate rfl fun h => absurd h hx)
    | restart a found =>
        obtain rfl := Option.some.inj hstep
        refine Or.inl (hupdate rfl fun _ k hk => ?_)
        exact ⟨(min_le_left _ _).trans hk.diskCommit, hk.diskApplied, hk.diskCommit,
          hk.diskApplied, fun l t i hi => (by cases hi), fun t ht => (by cases ht),
          fun j hj => (by cases hj)⟩
    | _ => exact absurd hother id
  · exact Or.inl ((step_idle hother hstep).nodes x).bounded

/-- A snapshot was under way before, or a leader has just made it of what it has applied. -/
theorem snapshots_step {act : Action} (hstep : c.step cfg act = some c') (s : Snapshot)
    (hs : s ∈ c'.net.snapshots) : s ∈ c.net.snapshots ∨ c.Open s.conn ∧
      s.content = (c.nodes (c.ends s.conn).leader).logArray.full.take
        (c.nodes (c.ends s.conn).leader).state.lastApplied := by
  by_cases hother : Replicates act
  · cases act with
    | voteReply r =>
        obtain ⟨-, rfl⟩ := of_guard hstep
        exact Or.inl hs
    | sendAppendEntries conn =>
        obtain ⟨-, rfl⟩ := of_guard hstep
        exact Or.inl hs
    | appendEntries m again =>
        obtain ⟨-, rfl⟩ := of_guard hstep
        exact Or.inl hs
    | tryCommitEntries a =>
        obtain ⟨-, rfl⟩ := of_guard hstep
        exact Or.inl hs
    | commitEntries a =>
        obtain ⟨-, rfl⟩ := of_guard_not hstep
        exact Or.inl hs
    | applyCommittedEntries a =>
        obtain rfl := Option.some.inj hstep
        exact Or.inl hs
    | task a t =>
        obtain ⟨ht, rfl⟩ := of_guard hstep
        by_cases hreplicates : Replicates (.task a t)
        · cases t with
          | submit cmds entries =>
              cases cmds with
              | nil => exact Or.inl hs
              | cons cmd cmds => exact absurd hreplicates id
          | appendReply origin save term success logIndex =>
              cases save with
              | none =>
                  obtain ⟨c', rfl, -, -, -, -, -, hsnapshots, -⟩ :=
                    runTask_appendReply cfg c a origin term success logIndex
                  rw [hsnapshots] at hs
                  exact Or.inl hs
              | due => exact absurd hreplicates id
              | serialized saved => exact absurd hreplicates id
          | save save => exact absurd hreplicates id
          | follow leader term commitIndex => exact Or.inl hs
          | admitNode addr conn => exact absurd hreplicates id
          | broadcast term => exact absurd hreplicates id
          | newMaster leader term newer => exact absurd hreplicates id
        · rw [(idle_runTask ht hreplicates).snapshots] at hs
          exact Or.inl hs
    | setMaster a leader found =>
        obtain ⟨-, rfl⟩ := of_guard hstep
        rcases setMaster_cases c a leader found with h | ⟨term, commitIndex, -, h⟩ | ⟨hleader, h⟩
        all_goals
          rw [h] at hs
          exact Or.inl hs
    | sendSnapshot conn =>
        obtain ⟨⟨hopen, -⟩, rfl⟩ := of_guard hstep
        rcases Finset.mem_insert.1 hs with rfl | hs
        · exact Or.inr ⟨hopen, rfl⟩
        · exact Or.inl hs
    | installSnapshot m =>
        obtain ⟨-, rfl⟩ := of_guard hstep
        exact Or.inl (Finset.mem_of_mem_erase hs)
    | restart a found =>
        obtain rfl := Option.some.inj hstep
        exact Or.inl hs
    | _ => exact absurd hother id
  · rw [(step_idle hother hstep).snapshots] at hs
    exact Or.inl hs

/-- An executed command was so before, or a node has just executed it. -/
theorem applied_step {act : Action} (hconfirm : cfg.needMajorityConfirm = true)
    (hstep : c.step cfg act = some c') (r : Applied) (hr : r ∈ c'.history.applied) :
    r ∈ c.history.applied ∨
      (act = .tryCommitEntries r.node ∧
        (r.index, r.cmd) ∈ (c.nodes r.node).tryCommitEntries.2) ∨
      act = .applyCommittedEntries r.node ∧
        (r.index, r.cmd) ∈ (c.nodes r.node).committedEntries := by
  have hrecord : ∀ {a : Address} {entries : List (Nat × Bytes)},
      r ∈ entries.map (fun e => (⟨a, e.1, e.2⟩ : Applied)) ++ c.history.applied →
      r ∈ c.history.applied ∨ a = r.node ∧ (r.index, r.cmd) ∈ entries := by
    intro a entries h
    rcases List.mem_append.1 h with h | h
    · obtain ⟨e, he, rfl⟩ := List.mem_map.1 h
      exact Or.inr ⟨rfl, he⟩
    · exact Or.inl h
  by_cases hother : Replicates act
  · cases act with
    | voteReply r =>
        obtain ⟨-, rfl⟩ := of_guard hstep
        exact Or.inl hr
    | sendAppendEntries conn =>
        obtain ⟨-, rfl⟩ := of_guard hstep
        exact Or.inl hr
    | appendEntries m again =>
        obtain ⟨-, rfl⟩ := of_guard hstep
        exact Or.inl hr
    | tryCommitEntries a =>
        obtain ⟨-, rfl⟩ := of_guard hstep
        rcases hrecord hr with h | ⟨rfl, h⟩
        · exact Or.inl h
        · exact Or.inr (Or.inl ⟨rfl, h⟩)
    | commitEntries a => exact absurd hconfirm (of_guard_not hstep).1
    | applyCommittedEntries a =>
        obtain rfl := Option.some.inj hstep
        rcases hrecord hr with h | ⟨rfl, h⟩
        · exact Or.inl h
        · exact Or.inr (Or.inr ⟨rfl, h⟩)
    | task a t =>
        obtain ⟨ht, rfl⟩ := of_guard hstep
        by_cases hreplicates : Replicates (.task a t)
        · cases t with
          | submit cmds entries =>
              cases cmds with
              | nil => exact Or.inl hr
              | cons cmd cmds => exact absurd hreplicates id
          | appendReply origin save term success logIndex =>
              cases save with
              | none =>
                  obtain ⟨c', rfl, -, hhistory, -⟩ :=
                    runTask_appendReply cfg c a origin term success logIndex
                  rw [hhistory] at hr
                  exact Or.inl hr
              | due => exact absurd hreplicates id
              | serialized saved => exact absurd hreplicates id
          | save save => exact absurd hreplicates id
          | follow leader term commitIndex => exact Or.inl hr
          | admitNode addr conn => exact absurd hreplicates id
          | broadcast term => exact absurd hreplicates id
          | newMaster leader term newer => exact absurd hreplicates id
        · rw [(idle_runTask ht hreplicates).applied] at hr
          exact Or.inl hr
    | setMaster a leader found =>
        obtain ⟨-, rfl⟩ := of_guard hstep
        rcases setMaster_cases c a leader found with h | ⟨term, commitIndex, -, h⟩ | ⟨hleader, h⟩
        all_goals
          rw [h] at hr
          exact Or.inl hr
    | sendSnapshot conn =>
        obtain ⟨-, rfl⟩ := of_guard hstep
        exact Or.inl hr
    | installSnapshot m =>
        obtain ⟨-, rfl⟩ := of_guard hstep
        exact Or.inl hr
    | restart a found =>
        obtain rfl := Option.some.inj hstep
        exact Or.inl hr
    | _ => exact absurd hother id
  · rw [(step_idle hother hstep).applied] at hr
    exact Or.inl hr

end Steps

section Invariant

/-- A longer piece of a log is one of two. -/
theorem settled_max {t i j : Nat} {log : List LogEntry} (hi : Settled members c t (log.take i))
    (hj : Settled members c t (log.take j)) : Settled members c t (log.take (max i j)) := by
  rcases Nat.le_total i j with h | h
  · rw [max_eq_right h]
    exact hj
  · rw [max_eq_left h]
    exact hi

/-- What a leader commits is settled, and what it executes is a part of it. -/
theorem settled_tryCommitEntries (hinv : ReplicationInv members boot c) {a : Address}
    (hmeets : CommitMeets members boot c (.tryCommitEntries a)) {k : Nat}
    (hk : k ≤ (c.nodes a).logArray.full.length) (hbounded : (c.nodes a).Bounded k)
    (hsettled : Settled members c (c.nodes a).state.currentTerm
      ((c.nodes a).logArray.full.take k)) :
    ∃ k' ≤ (c.nodes a).logArray.full.length, (c.nodes a).tryCommitEntries.1.Bounded k' ∧
      Settled members c (c.nodes a).state.currentTerm ((c.nodes a).logArray.full.take k') ∧
        ∀ i cmd, (i, cmd) ∈ (c.nodes a).tryCommitEntries.2 → 0 < i ∧
          ∃ e, ((c.nodes a).logArray.full.take k')[i - 1]? = some e ∧ e.cmd = cmd := by
  have hread : ∀ k' i cmd, 0 < i ∧ i ≤ k' ∧
      (∃ e, (c.nodes a).logArray.get i = some e ∧ e.cmd = cmd) →
      0 < i ∧ ∃ e, ((c.nodes a).logArray.full.take k')[i - 1]? = some e ∧ e.cmd = cmd := by
    rintro k' i cmd ⟨hpos, hle, e, he, hcmd⟩
    refine ⟨hpos, e, ?_, hcmd⟩
    rw [List.getElem?_take_of_lt (by omega)]
    exact ((hinv.log.aligned a).get_some he).2.2
  by_cases hcommits : (c.nodes a).Commits
  · obtain ⟨hchosen, hlen⟩ := chosen_of_commits hinv hmeets hcommits
    have hfull := (hmeets hcommits).1.2.2
    have hnew : Settled members c (c.nodes a).state.currentTerm
        ((c.nodes a).logArray.full.take (c.nodes a).majorityIndex) :=
      Or.inr ⟨_, _, Nat.le_refl _, hchosen, by rw [hfull]⟩
    obtain ⟨hbounded', hexecuted⟩ := Node.tryCommitEntries_spec
      (hbounded.mono (le_max_left k (c.nodes a).majorityIndex)) fun _ => le_max_right _ _
    exact ⟨_, max_le hk hlen, hbounded', settled_max hsettled hnew,
      fun i cmd hi => hread _ i cmd (hexecuted i cmd hi)⟩
  · obtain ⟨hbounded', hexecuted⟩ := Node.tryCommitEntries_spec hbounded
      fun h => absurd h hcommits
    exact ⟨k, hk, hbounded', hsettled, fun i cmd hi => hread _ i cmd (hexecuted i cmd hi)⟩

/-- The commit index that a message brings is settled: up to it the follower has the log of the
message's leader, behind the last entry of the message too. -/
theorem settled_appendEntries (hinv : ReplicationInv members boot c) {m : AppendMessage}
    {again : Bool} (hinv' : ReplicationInv members boot (c.appendEntries cfg m again))
    (hm : m ∈ c.net.appends) (hmeets : AckMeets cfg boot c (.appendEntries m again))
    (hprogress : Progress c (c.appendEntries cfg m again))
    (haccepts : Accepts cfg (c.nodes (c.ends m.conn).follower) m.msg)
    (hlen : m.msg.leaderCommit ≤ m.source.length)
    (hsettled : Settled members c m.msg.term (m.source.take m.msg.leaderCommit)) :
    Settled members (c.appendEntries cfg m again)
      ((c.appendEntries cfg m again).nodes (c.ends m.conn).follower).state.currentTerm
      (((c.appendEntries cfg m again).nodes (c.ends m.conn).follower).logArray.full.take
        (min m.msg.leaderCommit
          ((c.appendEntries cfg m again).nodes (c.ends m.conn).follower).logArray.getLastIndex)) ∧
    ((c.appendEntries cfg m again).nodes (c.ends m.conn).follower).logArray.getLastIndex ≤
      ((c.appendEntries cfg m again).nodes (c.ends m.conn).follower).logArray.full.length := by
  have hself : (c.appendEntries cfg m again).nodes (c.ends m.conn).follower =
      (c.nodes (c.ends m.conn).follower).handleAppendEntries cfg m.conn m.msg :=
    Function.update_self _ _ _
  have hterm : ((c.appendEntries cfg m again).nodes (c.ends m.conn).follower).state.currentTerm =
      m.msg.term := by
    rw [hself, (Node.handleAppendEntries_state cfg _ m.conn m.msg).1, max_eq_right haccepts.1]
  have hlog : ((c.appendEntries cfg m again).nodes (c.ends m.conn).follower).logArray =
      (Node.appendLoop cfg (c.nodes (c.ends m.conn).follower).logArray 0 m.msg.entries).log := by
    rcases @handleAppendEntries_cases cfg (c.nodes (c.ends m.conn).follower) m.conn m.msg
      with ⟨hlow, -⟩ | ⟨-, hprev, -⟩ | ⟨-, -, hret, -⟩ | ⟨-, -, -, h⟩
    · exact absurd haccepts.1 (Nat.not_le.2 hlow)
    · exact absurd (haccepts.2.1.symm.trans hprev) (by decide)
    · exact absurd (haccepts.2.2.symm.trans hret) (by decide)
    · rw [hself, h]
      rfl
  -- the follower acknowledges all of its log
  have hacked : Acked (c.appendEntries cfg m again) (c.ends m.conn).follower m.msg.term
      ((c.appendEntries cfg m again).nodes (c.ends m.conn).follower).logArray.getLastIndex := by
    refine Or.inl ?_
    rw [hlog]
    simp only [appendEntries, haccepts, ↓reduceIte, List.mem_cons]
    rcases hmeets haccepts with hle | ⟨r, hr, hnode, hrterm, hle⟩
    · exact ⟨_, Or.inl rfl, rfl, rfl, hle⟩
    · exact ⟨r, Or.inr hr, hnode, hrterm, hle⟩
  have hupheld := hinv'.ack.upheld _ _ _ hacked
  have hheld := hupheld.held hterm
  refine ⟨?_, (hinv'.log.aligned _).getLastIndex_le⟩
  have hsource := (hinv.leader.message m hm).source
  rw [take_shorten hheld (by rw [List.length_take_of_le hupheld.length]; exact min_le_right _ _),
    List.take_take, min_eq_left (min_le_right _ _)]
  refine (hsettled.step hprogress hterm.ge).shorten ?_
  show (c.history.leaderLog m.msg.term).take _ <+: _
  rw [take_shorten hsource ((min_le_left _ _).trans hlen)]
  exact List.take_prefix_take_left (min_le_left _ _)

theorem commitNode_step {act : Action} (hcommit : CommitInv members c)
    (hinv : CompletenessInv members boot c) (hinv' : ReplicationInv members boot c')
    (hconfirm : cfg.needMajorityConfirm = true) (hack : AckMeets cfg boot c act)
    (hmeets : CommitMeets members boot c act) (hprogress : Progress c c')
    (hstep : c.step cfg act = some c') (x : Address) :
    ∃ k ≤ (c'.nodes x).logArray.full.length, (c'.nodes x).Bounded k ∧
      Settled members c' (c'.nodes x).state.currentTerm ((c'.nodes x).logArray.full.take k) := by
  obtain ⟨k, hk, hbounded, hsettled⟩ := hcommit.node x
  obtain ⟨hk', htake⟩ := take_kept hk hsettled hinv.complete hprogress
  have hsettled' : Settled members c' (c'.nodes x).state.currentTerm
      ((c'.nodes x).logArray.full.take k) :=
    htake ▸ hsettled.step hprogress (hprogress.term x)
  rcases bounded_step hconfirm hstep x with h | ⟨m, again, rfl, rfl⟩ | rfl | ⟨s, rfl, rfl⟩
  · exact ⟨k, hk', h k hbounded, hsettled'⟩
  · obtain ⟨⟨hm, -⟩, rfl⟩ := of_guard hstep
    have hself : (c.appendEntries cfg m again).nodes (c.ends m.conn).follower =
        (c.nodes (c.ends m.conn).follower).handleAppendEntries cfg m.conn m.msg :=
      Function.update_self _ _ _
    rcases @bounded_handleAppendEntries cfg _ m.conn m.msg _ hbounded with h | ⟨haccepts, h⟩
    · exact ⟨k, hk', hself ▸ h, hsettled'⟩
    · obtain ⟨hlen, hmessage⟩ := hcommit.message m hm
      obtain ⟨hnew, hlast⟩ := settled_appendEntries hinv.replication hinv' hm hack hprogress
        haccepts hlen hmessage
      exact ⟨_, max_le hk' ((min_le_right _ _).trans hlast), hself ▸ h, settled_max hsettled' hnew⟩
  · obtain ⟨-, rfl⟩ := of_guard hstep
    obtain ⟨k', hle, hbounded', hnew, -⟩ :=
      settled_tryCommitEntries hinv.replication hmeets hk hbounded hsettled
    have hself : ((c.setNode x (c.nodes x).tryCommitEntries.1).recordApplied x
        (c.nodes x).tryCommitEntries.2).nodes x = (c.nodes x).tryCommitEntries.1 :=
      Function.update_self _ _ _
    have hlog := tryCommitEntries_logArray (c.nodes x)
    have hkept := hnew.step hprogress (hprogress.term x)
    rw [hself] at hkept
    refine ⟨k', ?_, ?_, ?_⟩
    · rw [hself, hlog]
      exact hle
    · rw [hself]
      exact hbounded'
    · rw [hself, hlog]
      exact hkept
  · obtain ⟨⟨hs, -⟩, rfl⟩ := of_guard hstep
    have hself : (c.installSnapshot s).nodes (c.ends s.conn).follower =
        (c.nodes (c.ends s.conn).follower).installSnapshot s.lastIncludedIndex s.content :=
      Function.update_self _ _ _
    have hlength := hinv.replication.log.snapshot s hs
    have hfull : ((c.installSnapshot s).nodes (c.ends s.conn).follower).logArray.full =
        s.content := by
      rw [hself]
      exact (RaftLogArray.aligned_reset _ (Nat.le_add_left 1 _) s.content (by rw [hlength])).2
    -- what was to be followed up before is no longer than the old log
    have hold := hbounded.mono (hk.trans hack.1)
    refine ⟨s.content.length, by rw [hfull], ?_, ?_⟩
    · rw [hself]
      exact ⟨hlength.ge, hlength.ge, hlength.ge, hlength.ge, hold.follow, hold.serialized,
        hold.joining⟩
    · rw [hfull, List.take_length]
      exact (hcommit.snapshot s hs).2.step hprogress (hmeets.trans (hprogress.term _))

theorem commitInv_step {act : Action} (hcommit : CommitInv members c)
    (hinv : CompletenessInv members boot c) (hinv' : ReplicationInv members boot c')
    (hconfirm : cfg.needMajorityConfirm = true) (hack : AckMeets cfg boot c act)
    (hmeets : CommitMeets members boot c act) (hprogress : Progress c c')
    (hstep : c.step cfg act = some c') : CommitInv members c' := by
  have hanswer := answer_step hack hstep
  refine ⟨commitNode_step hcommit hinv hinv' hconfirm hack hmeets hprogress hstep, fun m hm => ?_,
    fun s hs => ?_, fun r hr => ?_⟩
  · rcases appends_step hinv.replication.log hack hstep m hm with hm |
      ⟨-, a, hsource, hterm, hindex⟩
    · obtain ⟨hlen, hsettled⟩ := hcommit.message m hm
      exact ⟨hlen, hsettled.step hprogress (Nat.le_refl _)⟩
    · obtain ⟨k, hk, hbounded, hsettled⟩ := hcommit.node a
      rw [hsource, hterm, hindex]
      refine ⟨hbounded.commitIndex.trans hk, ?_⟩
      exact (hsettled.shorten (List.take_prefix_take_left hbounded.commitIndex)).step hprogress
        (Nat.le_refl _)
  · rcases snapshots_step hstep s hs with hs | ⟨hopen, hcontent⟩
    · obtain ⟨hlt, hsettled⟩ := hcommit.snapshot s hs
      rw [hanswer.ends _ hlt]
      exact ⟨hlt.trans_le hanswer.nextConn, hsettled.step hprogress (hprogress.term _)⟩
    · obtain ⟨k, hk, hbounded, hsettled⟩ := hcommit.node (c.ends s.conn).leader
      rw [hanswer.ends _ hopen.2, hcontent]
      refine ⟨hopen.2.trans_le hanswer.nextConn, ?_⟩
      exact (hsettled.shorten (List.take_prefix_take_left hbounded.lastApplied)).step hprogress
        (hprogress.term _)
  · rcases applied_step hconfirm hstep r hr with hr | ⟨rfl, hr⟩ | ⟨rfl, hr⟩
    · obtain ⟨hpos, t, log, e, hsettled, h⟩ := hcommit.applied r hr
      exact ⟨hpos, t, log, e, hsettled.step hprogress (Nat.le_refl _), h⟩
    · obtain ⟨k, hk, hbounded, hsettled⟩ := hcommit.node r.node
      obtain ⟨k', -, -, hnew, hexecuted⟩ :=
        settled_tryCommitEntries hinv.replication hmeets hk hbounded hsettled
      obtain ⟨hpos, e, he⟩ := hexecuted r.index r.cmd hr
      exact ⟨hpos, _, _, e, hnew.step hprogress (Nat.le_refl _), he⟩
    · obtain ⟨k, hk, hbounded, hsettled⟩ := hcommit.node r.node
      obtain ⟨hpos, hle, e, he, hcmd⟩ := Node.mem_committedEntries hr
      refine ⟨hpos, _, _, e, hsettled.step hprogress (Nat.le_refl _), ?_, hcmd⟩
      have := hbounded.commitIndex
      rw [List.getElem?_take_of_lt (by omega)]
      exact ((hinv.replication.log.aligned _).get_some he).2.2

end Invariant

section Safety

/-- What the state machines rely on: the conditions of leader completeness, and that of commits. -/
def SafetyMeets (cfg : RaftNodeConfig) (members : Nat → Finset Address) (boot : Address)
    (c : Cluster) (act : Action) : Prop :=
  CompletenessMeets cfg members boot c act ∧ CommitMeets members boot c act

instance (cfg : RaftNodeConfig) (members : Nat → Finset Address) (boot : Address) (c : Cluster)
    (act : Action) : Decidable (SafetyMeets cfg members boot c act) :=
  inferInstanceAs (Decidable (_ ∧ _))

/-- The log of a node up to its commit index. -/
def committedLog (c : Cluster) (a : Address) : List LogEntry :=
  (c.nodes a).logArray.full.take (c.nodes a).state.commitIndex

/-- All nodes execute the same commands: one command for each index, wherever and whenever it is
executed; of two committed logs one is a prefix of the other; and a leader has what is committed
in the nodes of its term and of earlier ones. -/
structure StateMachineSafe (boot : Address) (c : Cluster) : Prop where
  applied : ∀ r ∈ c.history.applied, ∀ r' ∈ c.history.applied, r.index = r'.index → r.cmd = r'.cmd
  committed : ∀ a b, c.committedLog a <+: c.committedLog b ∨ c.committedLog b <+: c.committedLog a
  leads : ∀ a b, Leads boot c a → (c.nodes b).state.currentTerm ≤ (c.nodes a).state.currentTerm →
    c.committedLog b <+: (c.nodes a).logArray.full

theorem CommitInv.settled_committedLog (h : CommitInv members c) (a : Address) :
    Settled members c (c.nodes a).state.currentTerm (c.committedLog a) := by
  obtain ⟨k, -, hbounded, hsettled⟩ := h.node a
  exact hsettled.shorten (List.take_prefix_take_left hbounded.commitIndex)

theorem CommitInv.stateMachineSafe (hcommit : CommitInv members c)
    (hinv : CompletenessInv members boot c) : StateMachineSafe boot c := by
  have hack := hinv.replication.ack
  refine ⟨fun r hr r' hr' hindex => ?_, fun a b => ?_, fun a b hleads hle => ?_⟩
  · obtain ⟨-, t, log, e, hsettled, he, hcmd⟩ := hcommit.applied r hr
    obtain ⟨-, t', log', e', hsettled', he', hcmd'⟩ := hcommit.applied r' hr'
    rw [← hindex] at he'
    have hsame : e = e' := by
      rcases hsettled.comparable hsettled' hinv.complete hack with hpre | hpre
      · exact Option.some.inj ((getElem?_shorten hpre he).symm.trans he')
      · exact Option.some.inj (he.symm.trans (getElem?_shorten hpre he'))
    rw [← hcmd, ← hcmd', hsame]
  · exact (hcommit.settled_committedLog a).comparable (hcommit.settled_committedLog b)
      hinv.complete hack
  · rw [hleads.2.2]
    exact (hcommit.settled_committedLog b).leaderLog hinv.complete hle hleads.2.1.hasLeader

theorem run_append (actions more : List Action) :
    ∀ c, run cfg c (actions ++ more) = (run cfg c actions).bind fun c' => run cfg c' more := by
  induction actions with
  | nil => exact fun c => rfl
  | cons act rest ih =>
      intro c
      simp only [List.cons_append, run, ih, Option.bind_assoc]

theorem RunMeets.append {meets : Cluster → Action → Prop} {more : List Action}
    (actions : List Action) : ∀ c, RunMeets cfg meets c actions →
      (∀ c', run cfg c actions = some c' → RunMeets cfg meets c' more) →
        RunMeets cfg meets c (actions ++ more) := by
  induction actions with
  | nil => exact fun c _ hmore => hmore c rfl
  | cons act rest ih =>
      intro c hmeets hmore
      refine ⟨hmeets.1, fun c' hstep => ih c' (hmeets.2 c' hstep) fun c'' hrun => hmore c'' ?_⟩
      simp only [run, hstep, Option.bind_some, hrun]

/-- Node 1 sends the commit index 1 to node 2, which executes the entry. -/
def heard : List Action :=
  [.sendAppendEntries 1, .appendEntries ⟨1, ⟨0, 1, 0, [], 1⟩, [⟨0, 1, [65]⟩]⟩ false,
    .applyCommittedEntries (node 2)]

/-- The cluster after node 1 has committed the index 1. -/
def committedOne (c : Cluster) : Cluster :=
  let n := (c.nodes (node 1)).commitAt 1
  (c.setNode (node 1) n.applyCommittedEntries).recordApplied (node 1) n.committedEntries

end Safety

end Cluster

end EyaKV.Raft
