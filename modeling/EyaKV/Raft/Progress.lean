import EyaKV.Raft.LogMatching
import EyaKV.Raft.Terms

/-!
# What a step does to logs and acknowledgements

A follower that accepts a message of a term has its leader's log up to the last entry of the
message, and so has the leader that creates an entry: they have `Acked` this much of the log of
the term. `Progress` says what a step can do to the terms, the logs and what is acknowledged: no
term falls, the log of a term only grows, and a node's log changes after the log of a term that is
no earlier than its own. The invariants of the developments above are derived from it.

`AckMeets` is what this relies on, and what the answers of the followers rely on.
-/

set_option autoImplicit false

namespace EyaKV.Raft

open EyaKV.Base EyaKV.Store

namespace Cluster

variable {cfg : RaftNodeConfig} {members : Nat → Finset Address} {boot : Address}
  {c c' : Cluster}

section Acknowledging

/-- A term that has had a leader: the first one, or one that was won. -/
def HasLeader (c : Cluster) (t : Nat) : Prop := t = 0 ∨ ∃ e ∈ c.history.elections, e.term = t

theorem HasLeader.mono {t : Nat} (h : HasLeader c t)
    (helections : ∀ e ∈ c.history.elections, e ∈ c'.history.elections) : HasLeader c' t :=
  h.imp id fun ⟨e, he, ht⟩ => ⟨e, helections e he, ht⟩

theorem Led.hasLeader {t : Nat} {a : Address} (h : Led boot c t a) : HasLeader c t :=
  h.imp And.left fun ⟨e, he, ht, _⟩ => ⟨e, he, ht⟩

/-- The node has acknowledged the first `k` entries of the log of the term `t`: it has accepted a
message of the term that reaches to `k`, or created an entry there. -/
def Acked (c : Cluster) (v : Address) (t k : Nat) : Prop :=
  (∃ r ∈ c.history.accepted, r.node = v ∧ r.term = t ∧ k ≤ r.index) ∨
    ∃ r ∈ c.history.created, r.node = v ∧ r.entry.term = t ∧ k ≤ r.entry.index

instance (c : Cluster) (v : Address) (t k : Nat) : Decidable (Acked c v t k) :=
  inferInstanceAs (Decidable (_ ∨ _))

theorem Acked.le {v : Address} {t k i : Nat} (h : Acked c v t k) (hi : i ≤ k) : Acked c v t i := by
  rcases h with ⟨r, hr, hnode, hterm, hk⟩ | ⟨r, hr, hnode, hterm, hk⟩
  · exact Or.inl ⟨r, hr, hnode, hterm, hi.trans hk⟩
  · exact Or.inr ⟨r, hr, hnode, hterm, hi.trans hk⟩

theorem Acked.mono {v : Address} {t k : Nat} (h : Acked c v t k)
    (haccepted : ∀ r ∈ c.history.accepted, r ∈ c'.history.accepted)
    (hcreated : ∀ r ∈ c.history.created, r ∈ c'.history.created) : Acked c' v t k :=
  h.imp (fun ⟨r, hr, h⟩ => ⟨r, haccepted r hr, h⟩) fun ⟨r, hr, h⟩ => ⟨r, hcreated r hr, h⟩

/-- What acknowledgements rely on, for an action in the state `c`. A message is sent by the leader
of the term, after an entry that it holds; a follower that accepts a message has nothing left
behind it, unless an earlier message of the term reaches to there; the leader of a term counts
answers of its term only, and wins with an empty table; a node is reset while its log is empty; a
snapshot is a piece of the log of the follower's term that is no shorter than what it replaces;
and a restart finds the term and the whole log on the disk. -/
def AckMeets (cfg : RaftNodeConfig) (boot : Address) (c : Cluster) : Action → Prop
  | .sendAppendEntries conn =>
      let n := c.nodes (c.ends conn).leader
      let nextIdx := (n.nextIndex[conn]?).getD 0
      n.role = .leader → Leads boot c (c.ends conn).leader ∧
        (1 < nextIdx → (n.logArray.get (nextIdx - 1)).isSome)
  | .appendEntries m _ =>
      let n := c.nodes (c.ends m.conn).follower
      let last := (Node.appendLoop cfg n.logArray 0 m.msg.entries).log.getLastIndex
      Accepts cfg n m.msg → last ≤ m.msg.prevLogIndex + m.msg.entries.length ∨
        ∃ r ∈ c.history.accepted, r.node = (c.ends m.conn).follower ∧ r.term = m.msg.term ∧
          last ≤ r.index
  | .appendReply r _ =>
      let a := (c.ends r.conn).leader
      r.success = true → Led boot c (c.nodes a).state.currentTerm a →
        r.term = (c.nodes a).state.currentTerm
  | .voteReply r => Wins (c.nodes r.candidate) r →
      ∀ m ∈ (c.nodes r.candidate).matchIndex.values, m = 0
  | .setMaster a leader _ => (c.nodes a).state.currentLeader = some leader ∨
      (c.nodes a).logArray.entries = [] ∧ (c.nodes a).logArray.baseIndex = 1
  | .installSnapshot m =>
      let n := c.nodes (c.ends m.conn).follower
      n.logArray.full.length ≤ m.content.length ∧
        m.content <+: c.history.leaderLog n.state.currentTerm
  | .restart a found => found.full = (c.nodes a).logArray.full ∧
      (c.nodes a).state.currentTerm ≤ (c.nodes a).disk.currentTerm
  | _ => True

instance (cfg : RaftNodeConfig) (boot : Address) (c : Cluster) :
    ∀ act, Decidable (AckMeets cfg boot c act)
  | .sendAppendEntries _ => inferInstanceAs (Decidable (_ → _ ∧ (_ → _)))
  | .appendEntries _ _ => inferInstanceAs (Decidable (_ → _ ∨ _))
  | .appendReply _ _ => inferInstanceAs (Decidable (_ → _ → _))
  | .voteReply _ => inferInstanceAs (Decidable (_ → _))
  | .setMaster _ _ _ => inferInstanceAs (Decidable (_ ∨ _))
  | .installSnapshot _ => inferInstanceAs (Decidable (_ ∧ _))
  | .restart _ _ => inferInstanceAs (Decidable (_ ∧ _))
  | .electionTimeout _ | .becomeCandidate _ | .readLastInfo _ | .sendRequestVote _
  | .requestVote _ _ | .tryCommitEntries _ | .commitEntries _ | .applyCommittedEntries _
  | .submit _ _ | .task _ _ | .reconnect _ | .joinRequest _ | .joinReply _ _ | .closeSocket _
  | .removeNode _ _ | .notice _ _ | .newMaster _ | .sendSnapshot _ => isTrue trivial

end Acknowledging

section Terms

/-- No step lowers a term, when a restart finds it on the disk. -/
theorem term_le_step {act : Action} (hvote : VoteMeets members c act)
    (hmeets : AckMeets cfg boot c act) (hstep : c.step cfg act = some c') (x : Address) :
    (c.nodes x).state.currentTerm ≤ (c'.nodes x).state.currentTerm := by
  have hupdate : ∀ (a : Address) (n : Node),
      (c.nodes a).state.currentTerm ≤ n.state.currentTerm → c'.nodes = Function.update c.nodes a n →
      (c.nodes x).state.currentTerm ≤ (c'.nodes x).state.currentTerm := by
    intro a n hle hnodes
    rw [hnodes, Function.update_apply]
    split
    · next h => exact h ▸ hle
    · exact Nat.le_refl _
  by_cases helects : Elects act
  · cases act with
    | becomeCandidate a =>
        obtain ⟨-, rfl⟩ := of_guard hstep
        exact hupdate a _ (by rw [becomeCandidate_term hvote a]; exact Nat.le_succ _) rfl
    | sendRequestVote a =>
        simp only [step] at hstep
        split at hstep
        · obtain rfl := Option.some.inj hstep
          exact hupdate a { c.nodes a with election := .waiting } (Nat.le_refl _) rfl
        · cases hstep
    | requestVote b peer =>
        obtain ⟨-, rfl⟩ := of_guard hstep
        exact hupdate b.voter _
          (by rw [(Node.handleRequestVote_state _ b.msg peer).1]; exact le_max_left _ _) rfl
    | voteReply r =>
        obtain ⟨-, rfl⟩ := of_guard hstep
        exact hupdate r.candidate _
          (handleRequestVoteResponse_later _ r.term r.voteGranted).1.term_le rfl
    | restart a found =>
        obtain rfl := Option.some.inj hstep
        exact hupdate a _ hmeets.2 rfl
    | _ => exact absurd helects id
  · exact ((step_quiet helects hvote hstep).nodes x).state.term_le

end Terms

section Leading

/-- A message carries a log of the leader of its term, and names the entry before its entries. -/
structure FromLeader (c : Cluster) (m : AppendMessage) : Prop where
  source : m.source <+: c.history.leaderLog m.msg.term
  hasLeader : HasLeader c m.msg.term
  verified : m.Verified

/-- The logs of the leaders ascend, and no log has an entry of a term that is later than its own or
its node's. -/
structure LeaderInv (c : Cluster) : Prop where
  hasLeader : ∀ t, c.history.leaderLog t ≠ [] → HasLeader c t
  ascending : ∀ t, AscendingBy LogEntry.term (c.history.leaderLog t)
  leaderTerm : ∀ t, ∀ e ∈ c.history.leaderLog t, e.term ≤ t
  nodeTerm : ∀ a, ∀ e ∈ (c.nodes a).logArray.full, e.term ≤ (c.nodes a).state.currentTerm
  message : ∀ m ∈ c.net.appends, FromLeader c m

theorem leaderInv_init : LeaderInv {} := by
  refine ⟨fun t h => absurd rfl h, fun t => List.Pairwise.nil, fun t e he => ?_, fun a e he => ?_,
    fun m hm => absurd hm (Finset.notMem_empty m)⟩
  · cases he
  · cases he

/-- **What an accepted message brings.** The follower has the leader's log up to the last entry
of the message. -/
theorem accepted_log (hinv : LogInv boot c) {m : AppendMessage} (hm : m ∈ c.net.appends)
    (hverified : m.Verified) {again : Bool} (hmeets : LogMeets boot c (.appendEntries m again))
    (haccepts : Accepts cfg (c.nodes (c.ends m.conn).follower) m.msg) :
    m.msg.prevLogIndex + m.msg.entries.length ≤ m.source.length ∧
      m.source.take (m.msg.prevLogIndex + m.msg.entries.length) <+:
        (Node.appendLoop cfg (c.nodes (c.ends m.conn).follower).logArray 0 m.msg.entries).log.full := by
  obtain ⟨-, hprev, hret⟩ := haccepts
  have hal := hinv.aligned (c.ends m.conn).follower
  have hlog := hinv.good _ (.node (c.ends m.conn).follower)
  have hsource := hinv.good _ (.source hm)
  by_cases hzero : m.msg.prevLogIndex = 0 ∧ m.msg.entries = []
  · rw [hzero.1, hzero.2]
    exact ⟨Nat.zero_le _, List.nil_prefix⟩
  · obtain ⟨hagree, hlen, hlen', hnext⟩ := agrees_of_prevMatches hal hlog hsource hverified hprev
      fun h => hmeets h fun hnil => hzero ⟨h, hnil⟩
    have hpiece := (hinv.sent m hm).1.length_le
    rw [List.length_drop] at hpiece
    obtain ⟨-, -, hresult⟩ := @appendLoop_merged cfg _ hsource.indexed m.msg.entries
      _ 0 m.msg.prevLogIndex hal (fun k x y hx hy hterm =>
        hlog.canonical.matching hsource.canonical hx hy hterm) hagree hlen hlen' hnext
        (hinv.sent m hm).1
    refine ⟨by omega, ?_⟩
    rcases hresult hret with ⟨hsame, -, htake⟩ | htake
    · rw [hsame, ← htake]
      exact List.take_prefix _ _
    · rw [htake]

end Leading

section Progress

/-- The log of a node stays, or it is made after the log of a term that has a leader: what it
shares with this log stays, and new entries come from it. -/
def LogKept (c c' : Cluster) (x : Address) : Prop :=
  (c'.nodes x).logArray.full = (c.nodes x).logArray.full ∨
    ∃ t, (c.nodes x).state.currentTerm ≤ t ∧ t ≤ (c'.nodes x).state.currentTerm ∧ HasLeader c t ∧
      (∀ shared, shared <+: (c.nodes x).logArray.full → shared <+: c.history.leaderLog t →
        shared <+: (c'.nodes x).logArray.full) ∧
      ∀ e ∈ (c'.nodes x).logArray.full,
        e ∈ (c.nodes x).logArray.full ∨ e ∈ c'.history.leaderLog t

/-- A node acknowledges the first `k` entries of the log of its term, and has them. -/
structure AcksNow (c c' : Cluster) (x : Address) (t k : Nat) : Prop where
  term_le : (c.nodes x).state.currentTerm ≤ t
  term : (c'.nodes x).state.currentTerm = t
  hasLeader : HasLeader c t
  length : k ≤ (c'.history.leaderLog t).length
  held : (c'.history.leaderLog t).take k <+: (c'.nodes x).logArray.full

/-- **What a step can do** to the terms, the logs and what is acknowledged. -/
structure Progress (c c' : Cluster) : Prop where
  term : ∀ x, (c.nodes x).state.currentTerm ≤ (c'.nodes x).state.currentTerm
  elections : ∀ e ∈ c.history.elections, e ∈ c'.history.elections
  leaderLog : ∀ t, c.history.leaderLog t <+: c'.history.leaderLog t
  grown : ∀ t, c'.history.leaderLog t = c.history.leaderLog t ∨ HasLeader c' t ∧
    AscendingBy LogEntry.term (c'.history.leaderLog t) ∧ ∀ e ∈ c'.history.leaderLog t, e.term ≤ t
  log : ∀ x, LogKept c c' x
  acked : ∀ x t k, Acked c x t k → Acked c' x t k
  new : ∀ x t k, Acked c' x t k → Acked c x t k ∨ AcksNow c c' x t k

/-- A step that leaves the logs and acknowledges nothing. -/
theorem Progress.of_same (hterm : ∀ x, (c.nodes x).state.currentTerm ≤
      (c'.nodes x).state.currentTerm)
    (hlog : ∀ x, (c'.nodes x).logArray.full = (c.nodes x).logArray.full)
    (helections : c'.history.elections = c.history.elections)
    (hleaderLog : c'.history.leaderLog = c.history.leaderLog)
    (haccepted : c'.history.accepted = c.history.accepted)
    (hcreated : c'.history.created = c.history.created) : Progress c c' := by
  have hsame : ∀ x t k, Acked c' x t k ↔ Acked c x t k := by
    intro x t k
    simp only [Acked, haccepted, hcreated]
  exact ⟨hterm, by rw [helections]; exact fun _ h => h, fun t => by rw [hleaderLog],
    fun t => Or.inl (by rw [hleaderLog]), fun x => Or.inl (hlog x), fun x t k => (hsame x t k).2,
    fun x t k h => Or.inl ((hsame x t k).1 h)⟩

theorem Progress.of_idle (hidle : IdleStep c c') (hterm : ∀ x, (c.nodes x).state.currentTerm ≤
    (c'.nodes x).state.currentTerm) : Progress c c' :=
  .of_same hterm (fun x => by rw [(hidle.nodes x).logArray]) hidle.elections hidle.leaderLog
    hidle.accepted hidle.created

/-- The election of a term is won only once. -/
theorem not_hasLeader_of_wins (hterm : TermInv members c) {r : VoteReply}
    (hwins : Wins (c.nodes r.candidate) r) (hterm' : TermInv members (c.voteReply r)) :
    ¬ HasLeader c r.term := by
  obtain ⟨hpos, hnever⟩ := hterm.running.candidate r.candidate hwins.1.2.1
  rw [← hwins.1.1] at hpos hnever
  rintro (hzero | ⟨e, he, het⟩)
  · omega
  · have hnew : (⟨r.candidate, r.term, insert r.voter (c.history.counted r.candidate),
        (c.nodes r.candidate).state.clusterNodes⟩ : Election) ∈
          (c.voteReply r).history.elections := by
      simp only [voteReply, hwins, hwins.1, ↓reduceIte, List.mem_cons, true_or]
    have hold : e ∈ (c.voteReply r).history.elections := by
      simp only [voteReply, hwins, ↓reduceIte, List.mem_cons]
      exact Or.inr he
    exact hnever e he ((electionSafe_of_inv hterm').leader e hold _ hnew het) het

theorem progress_voteReply (hlog : LogInv boot c) (hinv : LeaderInv c) (hterm : TermInv members c)
    {r : VoteReply} (hterm' : TermInv members (c.voteReply r))
    (hle : ∀ x, (c.nodes x).state.currentTerm ≤ ((c.voteReply r).nodes x).state.currentTerm) :
    Progress c (c.voteReply r) := by
  have hfull : ∀ x, ((c.voteReply r).nodes x).logArray.full = (c.nodes x).logArray.full := by
    intro x
    have hidle := idle_update (c := c)
      (Idle.handleRequestVoteResponse (c.nodes r.candidate) r.term r.voteGranted) x
    exact congrArg RaftLogArray.full hidle.logArray
  by_cases hwins : Wins (c.nodes r.candidate) r
  · have hleaderLog : (c.voteReply r).history.leaderLog = Function.update c.history.leaderLog
        r.term (c.nodes r.candidate).logArray.full := by
      simp only [voteReply, hwins, ↓reduceIte]
    have helections : ∀ e, e ∈ (c.voteReply r).history.elections ↔
        e = ⟨r.candidate, r.term, insert r.voter (c.history.counted r.candidate),
          (c.nodes r.candidate).state.clusterNodes⟩ ∨ e ∈ c.history.elections := by
      intro e
      simp only [voteReply, hwins, hwins.1, ↓reduceIte, List.mem_cons]
    have hnil : c.history.leaderLog r.term = [] := by
      by_contra hne
      exact not_hasLeader_of_wins hterm hwins hterm' (hinv.hasLeader _ hne)
    refine ⟨hle, fun e he => (helections e).2 (Or.inr he), fun t => ?_, fun t => ?_,
      fun x => Or.inl (hfull x), fun x t k h => h, fun x t k h => Or.inl h⟩
    all_goals rw [hleaderLog, Function.update_apply]
    · split
      · next h =>
          rw [h, hnil]
          exact List.nil_prefix
      · exact List.prefix_rfl
    · split
      · next h =>
          rw [h]
          refine Or.inr ⟨Or.inr ⟨_, (helections _).2 (Or.inl rfl), rfl⟩, ?_, fun e he => ?_⟩
          · exact (hlog.good _ (.node r.candidate)).canonical.ascending hinv.ascending
          · rw [hwins.1.1]
            exact hinv.nodeTerm r.candidate e he
      · exact Or.inl rfl
  · refine .of_same hle hfull ?_ ?_ rfl rfl
    · simp only [voteReply, hwins, ↓reduceIte]
    · simp only [voteReply, hwins, ↓reduceIte]

/-- A message of log replication: what is taken over comes from the log of its term. -/
theorem progress_appendEntries (hinv : LogInv boot c) (hlead : LeaderInv c) {m : AppendMessage}
    {again : Bool} (hm : m ∈ c.net.appends)
    (hmeets : LogMeets boot c (.appendEntries m again)) :
    Progress c (c.appendEntries cfg m again) := by
  have hfrom := hlead.message m hm
  have hnodes : ∀ x, x ≠ (c.ends m.conn).follower →
      (c.appendEntries cfg m again).nodes x = c.nodes x := fun x hx => Function.update_of_ne hx _ _
  have hself : (c.appendEntries cfg m again).nodes (c.ends m.conn).follower =
      (c.nodes (c.ends m.conn).follower).handleAppendEntries cfg m.conn m.msg :=
    Function.update_self _ _ _
  have hterm : ((c.appendEntries cfg m again).nodes (c.ends m.conn).follower).state.currentTerm =
      max (c.nodes (c.ends m.conn).follower).state.currentTerm m.msg.term := by
    rw [hself, (Node.handleAppendEntries_state cfg _ m.conn m.msg).1]
  have haccepted : ∀ r, r ∈ (c.appendEntries cfg m again).history.accepted ↔
      (Accepts cfg (c.nodes (c.ends m.conn).follower) m.msg ∧ r = ⟨(c.ends m.conn).follower,
        m.msg.term, m.msg.prevLogIndex + m.msg.entries.length⟩) ∨ r ∈ c.history.accepted := by
    intro r
    simp only [appendEntries]
    split
    · next h => simp only [List.mem_cons, h, true_and]
    · next h => simp only [h, false_and, false_or]
  refine ⟨fun x => ?_, fun e he => he, fun t => List.prefix_rfl, fun t => Or.inl rfl, fun x => ?_,
    fun x t k h => ?_, fun x t k h => ?_⟩
  · by_cases hx : x = (c.ends m.conn).follower
    · rw [hx, hterm]
      exact le_max_left _ _
    · rw [hnodes x hx]
  · by_cases hx : x = (c.ends m.conn).follower
    · subst hx
      have hmerged : ∀ log, (Node.appendLoop cfg (c.nodes (c.ends m.conn).follower).logArray 0
          m.msg.entries).log = log → (c.nodes (c.ends m.conn).follower).prevMatches m.msg = true →
          Merged LogEntry.term (c.nodes (c.ends m.conn).follower).logArray.full m.source
            log.full := by
        rintro log rfl hprev
        exact (appendLoop_message (hinv.aligned _) (hinv.good _ (.node _)) (hinv.good _ (.source hm))
          (hinv.sent m hm) hprev hmeets).2
      have htaken : (c.nodes (c.ends m.conn).follower).state.currentTerm ≤ m.msg.term →
          Merged LogEntry.term (c.nodes (c.ends m.conn).follower).logArray.full m.source
            ((c.appendEntries cfg m again).nodes (c.ends m.conn).follower).logArray.full →
          LogKept c (c.appendEntries cfg m again) (c.ends m.conn).follower := by
        intro hle h
        refine Or.inr ⟨m.msg.term, hle, by rw [hterm]; exact le_max_right _ _, hfrom.hasLeader,
          fun shared hlog hleader => h.shorten hlog ?_, fun e he => (h.mem he).imp id ?_⟩
        · exact List.prefix_or_prefix_of_prefix hleader hfrom.source
        · exact fun h => hfrom.source.subset h
      rcases @handleAppendEntries_cases cfg (c.nodes (c.ends m.conn).follower) m.conn m.msg
        with ⟨-, h⟩ | ⟨-, -, h⟩ | ⟨hle, hprev, -, h⟩ | ⟨hle, hprev, -, h⟩
      · exact Or.inl (by rw [hself, h]; rfl)
      · exact Or.inl (by rw [hself, h]; rfl)
      · exact htaken hle (by rw [hself, h]; exact hmerged _ rfl hprev)
      · exact htaken hle (by rw [hself, h]; exact hmerged _ rfl hprev)
    · exact Or.inl (by rw [hnodes x hx])
  · exact h.mono (fun r hr => (haccepted r).2 (Or.inr hr)) fun r hr => hr
  · rcases h with ⟨r, hr, rfl, rfl, hk⟩ | h
    · rcases (haccepted r).1 hr with ⟨haccepts, rfl⟩ | hr
      · obtain ⟨hlen, hheld⟩ := accepted_log hinv hm hfrom.verified hmeets haccepts
        have hresult : ((c.appendEntries cfg m again).nodes (c.ends m.conn).follower).logArray =
            (Node.appendLoop cfg (c.nodes (c.ends m.conn).follower).logArray 0 m.msg.entries).log := by
          rcases @handleAppendEntries_cases cfg (c.nodes (c.ends m.conn).follower) m.conn m.msg
            with ⟨hlow, -⟩ | ⟨-, hprev, -⟩ | ⟨-, -, hret, -⟩ | ⟨-, -, -, h⟩
          · exact absurd haccepts.1 (Nat.not_le.2 hlow)
          · exact absurd (haccepts.2.1.symm.trans hprev) (by decide)
          · exact absurd (haccepts.2.2.symm.trans hret) (by decide)
          · rw [hself, h]
            rfl
        refine Or.inr ⟨haccepts.1, hterm.trans (max_eq_right haccepts.1), hfrom.hasLeader, ?_, ?_⟩
        · exact (hk.trans hlen).trans hfrom.source.length_le
        · rw [hresult]
          show (c.history.leaderLog m.msg.term).take k <+: _
          rw [take_shorten hfrom.source (hk.trans hlen)]
          exact (List.take_prefix_take_left hk).trans hheld
      · exact Or.inl (Or.inl ⟨r, hr, rfl, rfl, hk⟩)
    · exact Or.inl (Or.inr h)

/-- A leader that adds the entries of a write has the log of its term before and after. -/
theorem progress_append (hinv : LogInv boot c) (hlead : LeaderInv c) {a : Address} {n : Node}
    {entries : List LogEntry}
    (hstate : n.state = (c.nodes a).state) (hlog : n.logArray = (c.nodes a).logArray)
    (hleads : Leads boot c a) (hterm : ∀ e ∈ entries, e.term = (c.nodes a).state.currentTerm) :
    Progress c (append cfg c a n entries) := by
  obtain ⟨-, hled, hfull⟩ := hleads
  obtain ⟨new, hnew, -, hfull', hterms, hindex⟩ :=
    @append_entries cfg _ (hlog ▸ hinv.aligned a : n.logArray.Aligned) entries
  rw [hlog] at hfull' hindex
  have hleaderLog : (append cfg c a n entries).history.leaderLog =
      Function.update c.history.leaderLog (c.nodes a).state.currentTerm
        (c.history.leaderLog (c.nodes a).state.currentTerm ++ new) := by
    simp only [append, hnew, hstate]
  have hcreated : ∀ r, r ∈ (append cfg c a n entries).history.created ↔
      (∃ e ∈ new, ⟨a, e, n.role, n.state.currentTerm⟩ = r) ∨ r ∈ c.history.created := by
    intro r
    simp only [append, hnew, List.mem_append, List.mem_map]
  have hnodes : ∀ x, x ≠ a → (append cfg c a n entries).nodes x = c.nodes x := fun x hx =>
    Function.update_of_ne hx _ _
  have hself : (append cfg c a n entries).nodes a =
      { n with logArray := (n.logArray.batchAppend cfg.logConfig entries).1 } :=
    Function.update_self _ _ _
  have hselfTerm : ((append cfg c a n entries).nodes a).state.currentTerm =
      (c.nodes a).state.currentTerm := by
    rw [hself, ← hstate]
  have hselfLog : ((append cfg c a n entries).nodes a).logArray.full =
      c.history.leaderLog (c.nodes a).state.currentTerm ++ new := by
    rw [hself, ← hfull, ← hfull', hlog]
  have hgrown : ((append cfg c a n entries).nodes a).logArray.full =
      (append cfg c a n entries).history.leaderLog (c.nodes a).state.currentTerm := by
    rw [hselfLog, hleaderLog, Function.update_self]
  have hnewTerm : ∀ e ∈ new, e.term = (c.nodes a).state.currentTerm := by
    intro e he
    obtain ⟨e', he', het⟩ := hterms e he
    exact het.trans (hterm e' he')
  refine ⟨fun x => ?_, fun e he => he, fun t => ?_, fun t => ?_, fun x => ?_, fun x t k h => ?_,
    fun x t k h => ?_⟩
  · by_cases hx : x = a
    · rw [hx, hselfTerm]
    · rw [hnodes x hx]
  · rw [hleaderLog, Function.update_apply]
    split
    · next h =>
        rw [h]
        exact List.prefix_append _ _
    · exact List.prefix_rfl
  · rw [hleaderLog, Function.update_apply]
    split
    · next h =>
        rw [h]
        refine Or.inr ⟨hled.hasLeader, (hlead.ascending _).append (hlead.leaderTerm _) hnewTerm,
          fun e he => ?_⟩
        rcases List.mem_append.1 he with he | he
        · exact hlead.leaderTerm _ e he
        · exact (hnewTerm e he).le
    · exact Or.inl rfl
  · by_cases hx : x = a
    · refine Or.inr ⟨(c.nodes a).state.currentTerm, by rw [hx], by rw [hx, hselfTerm],
        hled.hasLeader, fun shared _ hleader => ?_, fun e he => Or.inr ?_⟩
      · rw [hx, hselfLog]
        exact hleader.trans (List.prefix_append _ _)
      · rw [hx, hgrown] at he
        exact he
    · exact Or.inl (by rw [hnodes x hx])
  · exact h.mono (fun r hr => hr) fun r hr => (hcreated r).2 (Or.inr hr)
  · rcases h with h | ⟨r, hr, rfl, rfl, hk⟩
    · exact Or.inl (Or.inl h)
    · rcases (hcreated r).1 hr with ⟨e, he, rfl⟩ | hr
      · have heterm := hnewTerm e he
        obtain ⟨i, hi⟩ := List.mem_iff_getElem?.1 he
        have hilt := (List.getElem?_eq_some_iff.1 hi).1
        have hlast := hindex i e hi
        refine Or.inr ⟨?_, ?_, ?_, ?_, ?_⟩
        all_goals simp only [heterm]
        · exact Nat.le_refl _
        · exact hselfTerm
        · exact hled.hasLeader
        · rw [← hgrown, hselfLog, List.length_append, ← hfull]
          simp only at hk
          omega
        · rw [← hgrown]
          exact List.take_prefix _ _
      · exact Or.inl (Or.inr ⟨r, hr, rfl, rfl, hk⟩)

/-- Of a log without entries an empty one is found. -/
theorem full_of_recovers {log found : RaftLogArray} (hal : log.Aligned) (hnil : log.entries = [])
    (hbase : log.baseIndex = 1) (h : log.Recovers found) : found.full = log.full := by
  unfold RaftLogArray.Aligned at hal
  have holder : log.older = [] := List.length_eq_zero_iff.1 (by omega)
  have hfull : log.full = [] := by
    rw [RaftLogArray.full, hnil, holder]
    rfl
  have hpre := h.isPrefix
  rw [hfull] at hpre ⊢
  exact List.prefix_nil.1 hpre

theorem progress_installSnapshot (hinv : LogInv boot c) (hlead : LeaderInv c) {s : Snapshot}
    (hs : s ∈ c.net.snapshots) (hmeets : AckMeets cfg boot c (.installSnapshot s)) :
    Progress c (c.installSnapshot s) := by
  obtain ⟨hlen, hpre⟩ := hmeets
  have hnodes : ∀ x, x ≠ (c.ends s.conn).follower → (c.installSnapshot s).nodes x = c.nodes x :=
    fun x hx => Function.update_of_ne hx _ _
  have hself : (c.installSnapshot s).nodes (c.ends s.conn).follower =
      (c.nodes (c.ends s.conn).follower).installSnapshot s.lastIncludedIndex s.content :=
    Function.update_self _ _ _
  have hselfLog : ((c.installSnapshot s).nodes (c.ends s.conn).follower).logArray.full =
      s.content := by
    rw [hself]
    exact (RaftLogArray.aligned_reset _ (Nat.le_add_left 1 _) s.content
      (by rw [hinv.snapshot s hs])).2
  have hselfTerm : ((c.installSnapshot s).nodes (c.ends s.conn).follower).state.currentTerm =
      (c.nodes (c.ends s.conn).follower).state.currentTerm := by
    rw [hself]
    rfl
  refine ⟨fun x => ?_, fun e he => he, fun t => List.prefix_rfl, fun t => Or.inl rfl, fun x => ?_,
    fun x t k h => h, fun x t k h => Or.inl h⟩
  · by_cases hx : x = (c.ends s.conn).follower
    · rw [hx, hselfTerm]
    · rw [hnodes x hx]
  · by_cases hx : x = (c.ends s.conn).follower
    · subst hx
      by_cases hnil : s.content = []
      · refine Or.inl ?_
        rw [hnil, List.length_nil, Nat.le_zero, List.length_eq_zero_iff] at hlen
        rw [hselfLog, hnil, hlen]
      · refine Or.inr ⟨_, Nat.le_refl _, hselfTerm.ge, hlead.hasLeader _ fun h => ?_,
          fun shared hlog hleader => ?_, fun e he => Or.inr ?_⟩
        · rw [h] at hpre
          exact hnil (List.prefix_nil.1 hpre)
        · rw [hselfLog]
          exact List.prefix_of_prefix_length_le hleader hpre (hlog.length_le.trans hlen)
        · rw [hselfLog] at he
          exact hpre.subset he
    · exact Or.inl (by rw [hnodes x hx])

/-- The end of `handle_append_entries`: the answer of the node goes out on the connection to its
leader. -/
theorem runTask_appendReply (cfg : RaftNodeConfig) (c : Cluster) (a : Address) (origin : Conn)
    (term : Nat) (success : Bool) (logIndex : Nat) :
    ∃ c', c.runTask cfg a (.appendReply origin .none term success logIndex) = c' ∧
      c'.nodes = Function.update c.nodes a { c.nodes a with
        tasks := (c.nodes a).tasks.erase (.appendReply origin .none term success logIndex) } ∧
      c'.history = c.history ∧ c'.ends = c.ends ∧ c'.nextConn = c.nextConn ∧
      c'.net.appends = c.net.appends ∧ c'.net.snapshots = c.net.snapshots ∧
      ∀ r ∈ c'.net.appendReplies, r ∈ c.net.appendReplies ∨
        ∃ conn, (c.nodes a).followerClient = some conn ∧
          r = ⟨conn, origin, term, success, logIndex⟩ := by
  refine ⟨_, rfl, ?_⟩
  unfold runTask
  simp only
  split
  · exact ⟨rfl, rfl, rfl, rfl, rfl, rfl, fun r hr => Or.inl hr⟩
  · next conn hclient =>
      refine ⟨rfl, rfl, rfl, rfl, rfl, rfl, fun r hr => ?_⟩
      rcases Finset.mem_insert.1 hr with h | h
      · exact Or.inr ⟨conn, hclient, h⟩
      · exact Or.inl h

/-- What `SETMASTER` can do: nothing, call `become_follower`, or reset the node before. -/
theorem setMaster_cases (c : Cluster) (a leader : Address) (found : RaftLogArray) :
    c.setMaster a leader found = c ∨
    (∃ term commitIndex, commitIndex ≤ (c.nodes a).state.commitIndex ∧
      c.setMaster a leader found =
        c.setNode a ((c.nodes a).addTask (.follow leader term commitIndex))) ∨
    ((c.nodes a).state.currentLeader ≠ some leader ∧ c.setMaster a leader found =
      c.setNode a (((c.nodes a).clearForMaster found).addTask (.follow leader 0 0))) := by
  unfold setMaster
  simp only
  split
  · split
    · exact Or.inl rfl
    · exact Or.inr (Or.inl ⟨_, _, Nat.le_refl _, rfl⟩)
  · next h => exact Or.inr (Or.inr ⟨h, rfl⟩)

theorem progress_step {act : Action} (hterm : TermInv members c) (hinv : LogInv boot c)
    (hlead : LeaderInv c) (hvote : VoteMeets members c act) (hlog : LogMeets boot c act)
    (hmeets : AckMeets cfg boot c act) (hstep : c.step cfg act = some c') : Progress c c' := by
  have hle := term_le_step hvote hmeets hstep
  have hterm' := termInv_step hterm hvote hstep
  have hsame : ∀ {a : Address} {n : Node}, c'.nodes = Function.update c.nodes a n →
      n.logArray.full = (c.nodes a).logArray.full →
      ∀ x, (c'.nodes x).logArray.full = (c.nodes x).logArray.full := by
    intro a n hnodes hfull x
    rw [hnodes, Function.update_apply]
    split
    · next h => rw [h, hfull]
    · rfl
  by_cases hother : Replicates act
  · cases act with
    | voteReply r =>
        obtain ⟨-, rfl⟩ := of_guard hstep
        exact progress_voteReply hinv hlead hterm hterm' hle
    | sendAppendEntries conn =>
        obtain ⟨-, rfl⟩ := of_guard hstep
        refine .of_same hle (hsame rfl ?_) rfl rfl rfl rfl
        rw [(Idle.sendAppendEntries cfg _ conn).logArray]
    | appendEntries m again =>
        obtain ⟨⟨hm, -⟩, rfl⟩ := of_guard hstep
        exact progress_appendEntries hinv hlead hm hlog
    | tryCommitEntries a =>
        obtain ⟨-, rfl⟩ := of_guard hstep
        refine .of_same hle (hsame rfl ?_) rfl rfl rfl rfl
        rw [tryCommitEntries_logArray]
    | commitEntries a =>
        obtain ⟨-, rfl⟩ := of_guard_not hstep
        refine .of_same hle (hsame rfl ?_) rfl rfl rfl rfl
        rw [commitEntries_logArray]
    | applyCommittedEntries a =>
        obtain rfl := Option.some.inj hstep
        refine .of_same hle (hsame rfl ?_) rfl rfl rfl rfl
        rw [(Idle.applyCommittedEntries _).logArray]
    | task a t =>
        obtain ⟨ht, rfl⟩ := of_guard hstep
        by_cases hreplicates : Replicates (.task a t)
        · cases t with
          | submit cmds entries =>
              cases cmds with
              | nil => exact progress_append hinv hlead rfl rfl hlog.1 hlog.2
              | cons cmd cmds => exact absurd hreplicates id
          | appendReply origin save term success logIndex =>
              cases save with
              | none =>
                  obtain ⟨c', rfl, hnodes, hhistory, -⟩ :=
                    runTask_appendReply cfg c a origin term success logIndex
                  exact .of_same hle (hsame hnodes rfl) (by rw [hhistory]) (by rw [hhistory])
                    (by rw [hhistory]) (by rw [hhistory])
              | due => exact absurd hreplicates id
              | serialized saved => exact absurd hreplicates id
          | save save => exact absurd hreplicates id
          | follow leader term commitIndex =>
              exact .of_same hle (hsame rfl rfl) rfl rfl rfl rfl
          | admitNode addr conn => exact absurd hreplicates id
          | broadcast term => exact absurd hreplicates id
          | newMaster leader term newer => exact absurd hreplicates id
        · exact .of_idle (idle_runTask ht hreplicates) hle
    | setMaster a leader found =>
        obtain ⟨-, rfl⟩ := of_guard hstep
        rcases setMaster_cases c a leader found with h | ⟨term, commitIndex, -, h⟩ | ⟨hleader, h⟩
        · rw [h]
          exact .of_idle .rfl fun x => Nat.le_refl _
        · rw [h] at hle hsame ⊢
          exact .of_same hle (hsame rfl rfl) rfl rfl rfl rfl
        · rw [h] at hle hsame ⊢
          refine .of_same hle (hsame rfl ?_) rfl rfl rfl rfl
          obtain ⟨hnil, hbase⟩ := hmeets.resolve_left hleader
          exact full_of_recovers (hinv.aligned a) hnil hbase (hlog.resolve_left hleader)
    | sendSnapshot conn =>
        obtain ⟨-, rfl⟩ := of_guard hstep
        exact .of_same hle (fun x => rfl) rfl rfl rfl rfl
    | installSnapshot s =>
        obtain ⟨⟨hs, -⟩, rfl⟩ := of_guard hstep
        exact progress_installSnapshot hinv hlead hs hmeets
    | restart a found =>
        obtain rfl := Option.some.inj hstep
        exact .of_same hle (hsame rfl hmeets.1) rfl rfl rfl rfl
    | _ => exact absurd hother id
  · exact .of_idle (step_idle hother hstep) hle

end Progress

section Messages

theorem FromLeader.mono {m : AppendMessage} (h : FromLeader c m) (hprogress : Progress c c') :
    FromLeader c' m :=
  ⟨h.source.trans (hprogress.leaderLog _), h.hasLeader.mono hprogress.elections, h.verified⟩

/-- A leader sends its log, after an entry that it holds. -/
theorem fromLeader_sendAppendEntries (hinv : LogInv boot c) {conn : Conn}
    (hmeets : AckMeets cfg boot c (.sendAppendEntries conn)) {msg : Node.AppendEntries}
    (hmsg : ((c.nodes (c.ends conn).leader).sendAppendEntries cfg conn).2 = some msg) :
    FromLeader c ⟨conn, msg, (c.nodes (c.ends conn).leader).logArray.full⟩ ∧
      msg.term = (c.nodes (c.ends conn).leader).state.currentTerm ∧
        msg.leaderCommit = (c.nodes (c.ends conn).leader).state.commitIndex := by
  unfold Node.sendAppendEntries at hmsg
  split at hmsg
  · cases hmsg
  · next hrole =>
      obtain rfl := Option.some.inj hmsg
      obtain ⟨⟨-, hled, hfull⟩, hheld⟩ := hmeets (not_not.1 hrole)
      refine ⟨⟨?_, hled.hasLeader, ?_⟩, rfl, rfl⟩
      · simp only [hfull]
        exact List.prefix_rfl
      · by_cases hnext : 1 < ((c.nodes (c.ends conn).leader).nextIndex[conn]?).getD 0
        · obtain ⟨e, he⟩ := Option.isSome_iff_exists.1 (hheld hnext)
          refine Or.inr ⟨e, ((hinv.aligned _).get_some he).2.2, ?_⟩
          simp only [RaftLogArray.getTerm, he]
        · exact Or.inl (by simp only; omega)

/-- A message that is in flight after a step was so before, or its sender has just sent it. -/
theorem appends_step {act : Action} (hinv : LogInv boot c) (hmeets : AckMeets cfg boot c act)
    (hstep : c.step cfg act = some c') (m : AppendMessage) (hm : m ∈ c'.net.appends) :
    m ∈ c.net.appends ∨ FromLeader c m ∧ ∃ a, m.source = (c.nodes a).logArray.full ∧
      m.msg.term = (c.nodes a).state.currentTerm ∧
        m.msg.leaderCommit = (c.nodes a).state.commitIndex := by
  by_cases hother : Replicates act
  · cases act with
    | voteReply r =>
        obtain ⟨-, rfl⟩ := of_guard hstep
        exact Or.inl hm
    | sendAppendEntries conn =>
        obtain ⟨-, rfl⟩ := of_guard hstep
        cases hmsg : ((c.nodes (c.ends conn).leader).sendAppendEntries cfg conn).2 with
        | none =>
            simp only [sendAppendEntries, hmsg] at hm
            exact Or.inl hm
        | some msg =>
            simp only [sendAppendEntries, hmsg, Finset.mem_insert] at hm
            rcases hm with rfl | hm
            · obtain ⟨hfrom, hterm, hcommit⟩ := fromLeader_sendAppendEntries hinv hmeets hmsg
              exact Or.inr ⟨hfrom, _, rfl, hterm, hcommit⟩
            · exact Or.inl hm
    | appendEntries m' again =>
        obtain ⟨-, rfl⟩ := of_guard hstep
        unfold appendEntries at hm
        cases again
        · exact Or.inl (Finset.mem_of_mem_erase hm)
        · exact Or.inl hm
    | tryCommitEntries a =>
        obtain ⟨-, rfl⟩ := of_guard hstep
        exact Or.inl hm
    | commitEntries a =>
        obtain ⟨-, rfl⟩ := of_guard_not hstep
        exact Or.inl hm
    | applyCommittedEntries a =>
        obtain rfl := Option.some.inj hstep
        exact Or.inl hm
    | task a t =>
        obtain ⟨ht, rfl⟩ := of_guard hstep
        by_cases hreplicates : Replicates (.task a t)
        · cases t with
          | submit cmds entries =>
              cases cmds with
              | nil => exact Or.inl hm
              | cons cmd cmds => exact absurd hreplicates id
          | appendReply origin save term success logIndex =>
              cases save with
              | none =>
                  obtain ⟨c', rfl, -, -, -, -, happends, -⟩ :=
                    runTask_appendReply cfg c a origin term success logIndex
                  rw [happends] at hm
                  exact Or.inl hm
              | due => exact absurd hreplicates id
              | serialized saved => exact absurd hreplicates id
          | save save => exact absurd hreplicates id
          | follow leader term commitIndex => exact Or.inl hm
          | admitNode addr conn => exact absurd hreplicates id
          | broadcast term => exact absurd hreplicates id
          | newMaster leader term newer => exact absurd hreplicates id
        · rw [(idle_runTask ht hreplicates).appends] at hm
          exact Or.inl hm
    | setMaster a leader found =>
        obtain ⟨-, rfl⟩ := of_guard hstep
        rcases setMaster_cases c a leader found with h | ⟨term, commitIndex, -, h⟩ | ⟨hleader, h⟩
        all_goals
          rw [h] at hm
          exact Or.inl hm
    | sendSnapshot conn =>
        obtain ⟨-, rfl⟩ := of_guard hstep
        exact Or.inl hm
    | installSnapshot s =>
        obtain ⟨-, rfl⟩ := of_guard hstep
        exact Or.inl hm
    | restart a found =>
        obtain rfl := Option.some.inj hstep
        exact Or.inl hm
    | _ => exact absurd hother id
  · rw [(step_idle hother hstep).appends] at hm
    exact Or.inl hm

theorem leaderInv_step {act : Action} (hlead : LeaderInv c) (hinv : LogInv boot c)
    (hprogress : Progress c c') (hmeets : AckMeets cfg boot c act)
    (hstep : c.step cfg act = some c') : LeaderInv c' := by
  have hleaderTerm : ∀ t, ∀ e ∈ c'.history.leaderLog t, e.term ≤ t := by
    intro t
    rcases hprogress.grown t with h | ⟨-, -, h⟩
    · rw [h]
      exact hlead.leaderTerm t
    · exact h
  refine ⟨fun t hne => ?_, fun t => ?_, hleaderTerm, fun a e he => ?_, fun m hm => ?_⟩
  · rcases hprogress.grown t with h | ⟨h, -⟩
    · rw [h] at hne
      exact (hlead.hasLeader t hne).mono hprogress.elections
    · exact h
  · rcases hprogress.grown t with h | ⟨-, h, -⟩
    · rw [h]
      exact hlead.ascending t
    · exact h
  · rcases hprogress.log a with h | ⟨t, -, hle, -, -, hmem⟩
    · rw [h] at he
      exact (hlead.nodeTerm a e he).trans (hprogress.term a)
    · rcases hmem e he with he | he
      · exact (hlead.nodeTerm a e he).trans (hprogress.term a)
      · exact (hleaderTerm t e he).trans hle
  · rcases appends_step hinv hmeets hstep m hm with h | ⟨h, -⟩
    · exact (hlead.message m h).mono hprogress
    · exact h.mono hprogress

end Messages

end Cluster

end EyaKV.Raft
