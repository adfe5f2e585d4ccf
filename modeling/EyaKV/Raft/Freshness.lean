import EyaKV.Base.Runs
import EyaKV.Raft.Appending

/-!
# The freshness of votes

A vote is granted to a candidate whose log is not older than the last entry in memory, and a
candidate sends the last entry that it has in memory. When a snapshot or a truncation has emptied
the memory, both go by index 0 and term 0, whatever the node has committed.

The committed history of a node is `committed`; it holds the entries that a snapshot stands for,
and those that have been truncated from the front. `votes_fresh` says that votes are given, and
votes are asked for, by this history exactly when something is in memory or nothing has been
committed, as long as nothing takes committed entries away and the terms of the log ascend.
-/

set_option autoImplicit false

namespace EyaKV.Raft

section Orders

/-- Terms that ascend. -/
def TermsAscend (log : List LogEntry) : Prop := log.Pairwise fun a b => a.term ≤ b.term

/-- The index and the term are not older than the last entry of a history. -/
def NotOlder (history : List LogEntry) (index term : Nat) : Prop :=
  ∀ e, history.getLast? = some e →
    e.term < term ∨ (e.term = term ∧ history.length ≤ index)

theorem notOlder_nil (index term : Nat) : NotOlder [] index term := fun _ h => by cases h

theorem TermsAscend.of_isPrefix {log log' : List LogEntry} (h : TermsAscend log)
    (hpre : log' <+: log) : TermsAscend log' := List.Pairwise.sublist hpre.sublist h

/-- A later index and a later term. -/
theorem NotOlder.mono {history : List LogEntry} {index index' term term' : Nat}
    (h : NotOlder history index term) (hterm : term < term' ∨ (term = term' ∧ index ≤ index')) :
    NotOlder history index' term' := by
  intro e he
  have := h e he
  omega

/-- The last entry of a log with ascending terms is not older than a part of the log. -/
theorem TermsAscend.notOlder {log history : List LogEntry} (h : TermsAscend log)
    (hpre : history <+: log) {last : LogEntry} (hlast : log.getLast? = some last) :
    NotOlder history log.length last.term := by
  intro e he
  obtain ⟨more, rfl⟩ := hpre
  rcases more.eq_nil_or_concat with rfl | ⟨front, x, rfl⟩
  · rw [List.append_nil] at hlast ⊢
    rw [he] at hlast
    obtain rfl := Option.some.inj hlast
    exact .inr ⟨rfl, Nat.le_refl _⟩
  · -- the last entry is behind the history
    rw [List.concat_eq_append, ← List.append_assoc, List.getLast?_append_of_ne_nil _ (by simp),
      List.getLast?_singleton] at hlast
    obtain rfl := Option.some.inj hlast
    have hmem : e ∈ history := List.mem_of_getLast? he
    have hle : e.term ≤ x.term := by
      refine (List.pairwise_append.1 h).2.2 e hmem x ?_
      rw [List.concat_eq_append]
      exact List.mem_append_right _ List.mem_cons_self
    rcases Nat.lt_or_eq_of_le hle with hlt | heq
    · exact .inl hlt
    · refine .inr ⟨heq, ?_⟩
      rw [List.length_append]
      exact Nat.le_add_right _ _

theorem TermsAscend.snoc {log : List LogEntry} {e : LogEntry} (h : TermsAscend log)
    (hlast : ∀ x ∈ log, x.term ≤ e.term) : TermsAscend (log ++ [e]) := by
  refine List.pairwise_append.2 ⟨h, List.pairwise_singleton _ _, fun x hx y hy => ?_⟩
  obtain rfl := List.mem_singleton.1 hy
  exact hlast x hx

/-- All terms are at most the last one. -/
theorem TermsAscend.le_last {log : List LogEntry} (h : TermsAscend log) {i : Nat}
    {last x : LogEntry} (hlast : log[i]? = some last) (hx : x ∈ log.take (i + 1)) :
    x.term ≤ last.term := by
  obtain ⟨j, hj⟩ := List.getElem?_of_mem hx
  have hlt := (List.getElem?_eq_some_iff.1 hj).1
  rw [List.length_take] at hlt
  rw [List.getElem?_take_of_lt (by omega)] at hj
  rcases Nat.lt_or_ge j i with hless | hge
  · obtain ⟨hjlen, rfl⟩ := List.getElem?_eq_some_iff.1 hj
    obtain ⟨hilen, rfl⟩ := List.getElem?_eq_some_iff.1 hlast
    exact List.pairwise_iff_getElem.1 h j i hjlen hilen hless
  · obtain rfl : j = i := by omega
    rw [hj] at hlast
    rw [Option.some.inj hlast]

end Orders

section Loop

variable {cfg : RaftNodeConfig} {log : RaftLogArray}

/-- A message as a leader makes it, for a log that does not begin later: the entries are those
behind `prev`, and their terms ascend from that of the entry there. -/
structure InOrder (log : RaftLogArray) (prev : Nat) (entries : List LogEntry) : Prop where
  base : log.baseIndex ≤ prev + 1
  consecutive : Consecutive prev entries
  ascending : TermsAscend entries
  above : ∀ e ∈ entries, ∀ x ∈ log.full.take prev, x.term ≤ e.term

theorem InOrder.index_head {prev : Nat} {e : LogEntry} {rest : List LogEntry}
    (h : InOrder log prev (e :: rest)) : e.index = prev + 1 := h.consecutive 0 e rfl

/-- The rest of a message, once its first entry is in the log. -/
theorem InOrder.tail {prev : Nat} {e : LogEntry} {rest : List LogEntry} {log' : RaftLogArray}
    (h : InOrder log prev (e :: rest)) (hbase : log'.baseIndex ≤ prev + 2)
    (hfull : ∀ x ∈ log'.full.take (prev + 1), x ∈ log.full.take prev ∨ x.term = e.term) :
    InOrder log' (prev + 1) rest := by
  refine ⟨hbase, fun i x hx => ?_, (List.pairwise_cons.1 h.ascending).2, fun x hx y hy => ?_⟩
  · have hindex := h.consecutive (i + 1) x hx
    omega
  · rcases hfull y hy with hbefore | hsame
    · exact h.above x (List.mem_cons_of_mem e hx) y hbefore
    · rw [hsame]
      exact (List.pairwise_cons.1 h.ascending).1 x hx

/-- The terms of a log ascend after a message in order. -/
theorem ascending_appendLoop (entries : List LogEntry) :
    ∀ (log : RaftLogArray) (count prev : Nat), log.Aligned → TermsAscend log.full →
      prev ≤ log.full.length → InOrder log prev entries →
      TermsAscend (Node.appendLoop cfg log count entries).log.full := by
  induction entries with
  | nil => exact fun _ _ _ _ hlog _ _ => hlog
  | cons e rest ih =>
      intro log count prev hal hlog hprev hmsg
      have hindex := hmsg.index_head
      -- an append behind the entry `prev`, and the rest of the message
      have append {log₁ : RaftLogArray} (hal₁ : log₁.Aligned)
          (hfull : log₁.full = log.full.take prev) :
          TermsAscend (Node.afterAppend cfg count rest
            (log₁.batchAppend cfg.logConfig [e])).log.full := by
        have hlen : log₁.full.length = prev := by rw [hfull, List.length_take_of_le hprev]
        obtain ⟨hal₂, hfull₂⟩ := @RaftLogArray.batchAppend_spec cfg.logConfig log₁ hal₁ [e]
        have hnext := hal₁.next
        have hsame : (log₁.batchAppend cfg.logConfig [e]).1.full = log.full.take prev ++ [e] := by
          rw [hfull₂, RaftLogArray.full_extend, hfull, List.mapIdx_cons, List.mapIdx_nil,
            Nat.add_zero, hnext, hlen, ← hindex]
        have hascending : TermsAscend (log.full.take prev ++ [e]) :=
          (hlog.of_isPrefix (List.take_prefix prev log.full)).snoc
            (hmsg.above e List.mem_cons_self)
        unfold Node.afterAppend
        split
        · next log₂ heq =>
            rw [heq] at hal₂ hsame
            simp only at hal₂ hsame
            have hlen₂ : log₂.full.length = prev + 1 := by
              rw [hsame, List.length_append, List.length_take_of_le hprev, List.length_singleton]
            refine ih log₂ (count + 1) (prev + 1) hal₂ (hsame ▸ hascending) hlen₂.ge
              (hmsg.tail ?_ fun x hx => ?_)
            · have := hal₂.next
              omega
            · rw [hsame] at hx
              rcases List.mem_append.1 (List.mem_of_mem_take hx) with hx | hx
              · exact .inl hx
              · exact .inr (congrArg LogEntry.term (List.mem_singleton.1 hx))
        · next log₂ heq =>
            rw [heq] at hsame
            simp only at hsame
            rw [hsame]
            exact hascending
      rw [Node.appendLoop_cons]
      cases hget : log.get e.index with
      | none =>
          have hshort := hal.get_none (hindex ▸ hmsg.base) hget
          refine append hal ?_
          rw [List.take_of_length_le (by omega)]
      | some existing =>
          obtain ⟨hbase, hlen, hentry⟩ := hal.get_some hget
          simp only
          split
          · -- the entry is there already
            next hterm =>
              refine ih log count (prev + 1) hal hlog (hindex ▸ hlen) (hmsg.tail ?_ fun x hx => ?_)
              · omega
              · rw [hindex, Nat.add_sub_cancel] at hentry
                rw [List.take_add_one, hentry] at hx
                rcases List.mem_append.1 hx with hx | hx
                · exact .inl hx
                · rw [Option.toList_some, List.mem_singleton] at hx
                  exact .inr (hx ▸ hterm)
          · split
            · next log₁ htrunc =>
                obtain ⟨hal₁, hfull₁⟩ := truncateFrom_full hal hbase hlen htrunc
                refine append hal₁ ?_
                rw [hfull₁, hindex, Nat.add_sub_cancel]
            · exact hlog

end Loop

section Voting

variable {n : Node}

/-- The last entry in memory is the last of the whole log. -/
theorem getLastInfo_of_ne {log : RaftLogArray} (hal : log.Aligned) (hne : log.entries ≠ []) :
    ∃ last, log.full.getLast? = some last ∧ log.getLastInfo = (log.full.length, last.term) := by
  refine ⟨log.entries.getLast hne, ?_, ?_⟩
  · rw [RaftLogArray.full, List.getLast?_append_of_ne_nil _ hne, List.getLast?_eq_some_getLast hne]
  · rw [RaftLogArray.getLastInfo, List.getLast?_eq_some_getLast hne]
    have hlast := hal.getLastIndex hne
    rw [RaftLogArray.getLastIndex, if_neg hne] at hlast
    simp only [hlast]

theorem getLastInfo_of_eq {log : RaftLogArray} (h : log.entries = []) :
    log.getLastInfo = (0, 0) := by
  rw [RaftLogArray.getLastInfo, h]
  rfl

/-- A vote is granted to a log that is not older than the last entry in memory. -/
theorem logIsOk_of_granted {msg : Node.RequestVote} {peer : Address}
    (h : (n.handleRequestVote msg peer).2.2 = true) : n.logIsOk msg = true := by
  rw [Node.handleRequestVote] at h
  split at h
  · cases h
  · simp only at h
    -- the log is the same in a new term
    split at h
    · split at h
      · next hvote => exact hvote.2
      · cases h
    · split at h
      · next hvote => exact hvote.2
      · cases h

/-- In a new term the vote is given to every log that is not older. -/
theorem granted_of_logIsOk {msg : Node.RequestVote} (peer : Address)
    (hterm : n.state.currentTerm < msg.term) (hok : n.logIsOk msg = true) :
    (n.handleRequestVote msg peer).2.2 = true := by
  rw [Node.handleRequestVote, if_neg (by omega)]
  simp only [if_pos hterm]
  rw [if_pos ⟨.inl rfl, hok⟩]

theorem logIsOk_iff {msg : Node.RequestVote} : n.logIsOk msg = true ↔
    n.logArray.getLastInfo.2 < msg.lastLogTerm ∨
      (n.logArray.getLastInfo.2 = msg.lastLogTerm ∧
        n.logArray.getLastInfo.1 ≤ msg.lastLogIndex) := by
  simp only [Node.logIsOk, Bool.or_eq_true, Bool.and_eq_true, decide_eq_true_eq, beq_iff_eq,
    @eq_comm _ msg.lastLogTerm]

end Voting

section Frames

/-- The log, what has been committed and the campaign that is prepared are as they were. -/
structure SameHistory (n n' : Node) : Prop where
  logArray : n'.logArray = n.logArray
  committed : n'.committed = n.committed
  campaign : ∀ index term, n'.election = .campaign index term → n.election = .campaign index term

theorem SameHistory.of_eq {n n' : Node} (hlog : n'.logArray = n.logArray)
    (hcommitted : n'.committed = n.committed) (helection : n'.election = n.election) :
    SameHistory n n' := ⟨hlog, hcommitted, fun _ _ h => helection ▸ h⟩

/-- A handler other than those of log replication. -/
theorem sameHistory_handle (cfg : RaftNodeConfig) (n : Node) (hd : Handler) :
    (∃ origin msg, hd = .appendEntries origin msg) ∨ hd = .advanceCommit ∨
      SameHistory n (n.handle cfg hd) := by
  -- most handlers write neither the log, nor what is known as committed, nor the campaign
  have same {n' : Node} (hlog : n'.logArray = n.logArray) (hcommitted : n'.committed = n.committed)
      (helection : n'.election = n.election) :
      (∃ origin msg, hd = .appendEntries origin msg) ∨ hd = .advanceCommit ∨ SameHistory n n' :=
    .inr (.inr (.of_eq hlog hcommitted helection))
  cases hd with
  | appendEntries origin msg => exact .inl ⟨origin, msg, rfl⟩
  | advanceCommit => exact .inr (.inl rfl)
  | electionTimeout => exact .inr (.inr ⟨rfl, rfl, fun _ _ h => by cases h⟩)
  | sendRequestVote => exact .inr (.inr ⟨rfl, rfl, fun _ _ h => by cases h⟩)
  | becomeCandidate self =>
      refine .inr (.inr ?_)
      rw [Node.handle, Node.becomeCandidate, Node.toCandidate]
      split <;> exact ⟨rfl, rfl, fun _ _ h => by cases h⟩
  | requestVote msg peer =>
      rw [Node.handle, Node.handleRequestVote]
      split
      · exact same rfl rfl rfl
      · simp only
        split
        · split <;> exact same rfl rfl rfl
        · split <;> exact same rfl rfl rfl
  | voteReply term voteGranted =>
      rw [Node.handle, Node.handleRequestVoteResponse]
      split
      · exact same rfl rfl rfl
      · split
        · exact same rfl rfl rfl
        · split
          · exact same rfl rfl rfl
          · split
            · simp only
              split <;> exact same rfl rfl rfl
            · exact same rfl rfl rfl
  | sendAppendEntries conn =>
      rw [Node.handle, Node.sendAppendEntries]
      split <;> exact same rfl rfl rfl
  | appendReply conn success logIndex =>
      rw [Node.handle, Node.handleAppendEntriesResponse]
      split <;> exact same rfl rfl rfl
  | joinRequest addr conn lastIndex =>
      rw [Node.handle, Node.handleJoinCluster]
      split
      · exact same rfl rfl rfl
      · split <;> exact same rfl rfl rfl
  | follow j =>
      rw [Node.handle, Node.follow]
      simp only
      split <;> exact same rfl rfl rfl
  | setMember self node isMember =>
      rw [Node.handle, Node.setMember]
      split
      · split <;> exact same rfl rfl rfl
      · exact same rfl rfl rfl
  | removeNode node =>
      rw [Node.handle, Node.removeNode]
      split <;> exact same rfl rfl rfl
  | newMaster leader term newer =>
      rw [Node.handle, Node.storeNewMaster]
      cases newer <;> exact same rfl rfl rfl
  | forgetLeader | admitNode | connect | joinResponse | becomeLeader | closeSocket =>
      exact same rfl rfl rfl

/-- What is noted as committed is a part of the whole log. -/
theorem committed_noteCommit {n : Node} (h : n.committed <+: n.logArray.full) :
    n.noteCommit.committed <+: n.logArray.full := by
  rw [Node.noteCommit]
  simp only
  split
  · exact List.take_prefix _ _
  · exact h

/-- What a message of log replication leaves. -/
theorem handleAppendEntries_history (cfg : RaftNodeConfig) (n : Node) (origin : Conn)
    (msg : Node.AppendEntries) :
    (n.handleAppendEntries cfg origin msg).election = n.election ∧
      (((n.handleAppendEntries cfg origin msg).logArray = n.logArray ∧
          (n.handleAppendEntries cfg origin msg).committed = n.committed) ∨
        (n.prevMatches msg = true ∧
          (n.handleAppendEntries cfg origin msg).logArray =
            (Node.appendLoop cfg n.logArray 0 msg.entries).log ∧
          (n.committed <+: (Node.appendLoop cfg n.logArray 0 msg.entries).log.full →
            (n.handleAppendEntries cfg origin msg).committed <+:
              (Node.appendLoop cfg n.logArray 0 msg.entries).log.full))) := by
  rcases @handleAppendEntries_cases cfg n origin msg with
    ⟨-, h⟩ | ⟨-, -, h⟩ | ⟨-, hprev, -, h⟩ | ⟨-, hprev, -, h⟩
  · rw [h]
    exact ⟨rfl, .inl ⟨rfl, rfl⟩⟩
  · rw [h]
    exact ⟨rfl, .inl ⟨rfl, rfl⟩⟩
  · rw [h]
    exact ⟨rfl, .inr ⟨hprev, rfl, fun hpre => hpre⟩⟩
  · rw [h]
    refine ⟨rfl, .inr ⟨hprev, rfl, fun hpre => ?_⟩⟩
    exact committed_noteCommit hpre

end Frames

namespace Applier

section Statement

/-- A step of a node, or of the thread that prepares a campaign: `send_request_vote` reads the
last entry before it takes the mutex. -/
inductive VoterEvent where
  | step (ev : Event)
  | readLastInfo

variable (cfg : RaftNodeConfig) (s : Applier)

/-- One step of a voter. -/
def voterStep : VoterEvent → Option Applier
  | .step ev => s.step cfg ev
  | .readLastInfo =>
      if s.node.election = .candidacy then
        let info := s.node.logArray.getLastInfo
        some { s with node := { s.node with election := .campaign info.1 info.2 } }
      else none

/-- The storage is not being emptied by `SETMASTER`. -/
def Unwiped : Prop := Replacement.cleared ∉ s.replacing

/-- Something is in memory, unless nothing has been committed. -/
def HasLast : Prop := s.node.committed = [] ∨ s.node.logArray.entries ≠ []

/-- The condition on a step of the node: the terms of the log ascend, and no committed entry is
taken away. -/
def HistoryMeets : Event → Prop
  -- a leader's entries begin in the log, are in order and do not contradict a committed one
  | .handle (.appendEntries _ msg) => s.node.prevMatches msg = true → msg.entries ≠ [] →
      s.node.logArray.baseIndex ≤ msg.prevLogIndex + 1 ∧
        Consecutive msg.prevLogIndex msg.entries ∧ TermsAscend msg.entries ∧
        (∀ e ∈ msg.entries, msg.prevLogIndex ≠ 0 → msg.prevLogTerm ≤ e.term) ∧
        Agrees s.node.committed.length s.node.logArray msg.entries
  | .submit entries => TermsAscend (s.node.logArray.full ++ entries)
  -- a snapshot stands for the entries up to its index, with the committed ones
  | .advance => ∀ lastIncludedIndex content,
      s.work = some (.install lastIncludedIndex content) →
        content.length = lastIncludedIndex ∧ TermsAscend content ∧ s.node.committed <+: content
  -- what is found of the log is its beginning, up to the end of the committed history
  | .clear empty found => empty = true → s.node.logArray.Recovers found
  | .restart _ found => s.node.logArray.Recovers found ∧ (s.node.committed = [] ∨
      (s.Unwiped ∧ s.node.committed.length ≤ found.getLastIndex))
  | _ => True

/-- **The condition on a step.** -/
def VoteMeets : VoterEvent → Prop
  | .step ev => s.HistoryMeets ev ∧
      -- nothing is committed between the reading of the last entry and the vote requests
      ∀ s', s.step cfg ev = some s' → s'.node.committed = s.node.committed ∨
        s'.node.committed = [] ∨ ∀ index term, s.node.election ≠ .campaign index term
  | .readLastInfo => s.Unwiped ∧ s.HasLast

/-- The invariant. -/
structure Remembers : Prop where
  aligned : s.node.logArray.Aligned
  ascending : TermsAscend s.node.logArray.full
  known : s.Unwiped → s.node.committed <+: s.node.logArray.full
  campaign : s.Unwiped → ∀ index term, s.node.election = .campaign index term →
    NotOlder s.node.committed index term

end Statement

section Invariant

variable {cfg : RaftNodeConfig} {s s' : Applier}

theorem remembers_new : Remembers {} where
  aligned := rfl
  ascending := .nil
  known _ := List.nil_prefix
  campaign _ _ _ h := by cases h

/-- A step that leaves the history. -/
theorem Remembers.carry (h : s.Remembers) (hsame : SameHistory s.node s'.node)
    (hreplacing : s'.Unwiped → s.Unwiped) : s'.Remembers := by
  refine ⟨?_, ?_, fun hwipe => ?_, fun hwipe index term hcampaign => ?_⟩
  · rw [hsame.logArray]
    exact h.aligned
  · rw [hsame.logArray]
    exact h.ascending
  · rw [hsame.committed, hsame.logArray]
    exact h.known (hreplacing hwipe)
  · rw [hsame.committed]
    exact h.campaign (hreplacing hwipe) index term (hsame.campaign index term hcampaign)

/-- What the condition says of a campaign that is prepared. -/
theorem Remembers.campaign_step (h : s.Remembers) (hreplacing : s'.Unwiped → s.Unwiped)
    (helection : s'.node.election = s.node.election)
    (hmeets : s'.node.committed = s.node.committed ∨ s'.node.committed = [] ∨
      ∀ index term, s.node.election ≠ .campaign index term) :
    s'.Unwiped → ∀ index term, s'.node.election = .campaign index term →
      NotOlder s'.node.committed index term := by
  intro hwipe index term hcampaign
  rw [helection] at hcampaign
  rcases hmeets with hsame | hnil | hnone
  · rw [hsame]
    exact h.campaign (hreplacing hwipe) index term hcampaign
  · rw [hnil]
    exact notOlder_nil index term
  · exact absurd hcampaign (hnone index term)

/-- A log with no entries that stand before it in the history. -/
theorem agrees_zero {log : RaftLogArray} (hal : log.Aligned) (entries : List LogEntry) :
    Agrees 0 log entries := by
  intro e _ hindex existing hget
  have hbase := (hal.get_some hget).1
  have hpos := log.base_pos
  omega

/-- An accepted message whose terms ascend from that of the entry it names is in order. -/
theorem inOrder_of_prevMatches {n : Node} {msg : Node.AppendEntries} (hal : n.logArray.Aligned)
    (hlog : TermsAscend n.logArray.full) (hprev : n.prevMatches msg = true)
    (hbase : n.logArray.baseIndex ≤ msg.prevLogIndex + 1)
    (hcons : Consecutive msg.prevLogIndex msg.entries) (hascending : TermsAscend msg.entries)
    (habove : ∀ e ∈ msg.entries, msg.prevLogIndex ≠ 0 → msg.prevLogTerm ≤ e.term) :
    msg.prevLogIndex ≤ n.logArray.full.length ∧
      InOrder n.logArray msg.prevLogIndex msg.entries := by
  rw [Node.prevMatches] at hprev
  split at hprev
  · next hzero =>
      rw [hzero] at hbase hcons ⊢
      exact ⟨Nat.zero_le _, hbase, hcons, hascending, fun _ _ x hx => absurd hx List.not_mem_nil⟩
  · next hpos =>
      split at hprev
      · cases hprev
      · next x hget =>
          obtain ⟨-, hlen, hentry⟩ := hal.get_some hget
          refine ⟨hlen, hbase, hcons, hascending, fun e he y hy => ?_⟩
          have hle := hlog.le_last hentry (by rwa [Nat.sub_add_cancel (Nat.pos_of_ne_zero hpos)])
          exact hle.trans ((beq_iff_eq.1 hprev).le.trans (habove e he hpos))

theorem Remembers.appendEntries (h : s.Remembers) (origin : Conn) (msg : Node.AppendEntries)
    (hmeets : s.HistoryMeets (.handle (.appendEntries origin msg)))
    (hcommit : (s.node.handleAppendEntries cfg origin msg).committed = s.node.committed ∨
      (s.node.handleAppendEntries cfg origin msg).committed = [] ∨
      ∀ index term, s.node.election ≠ .campaign index term) :
    Remembers { s with node := s.node.handleAppendEntries cfg origin msg } := by
  obtain ⟨helection, hlog | ⟨hprev, hlog, hcommitted⟩⟩ :=
    handleAppendEntries_history cfg s.node origin msg
  · exact h.carry (.of_eq hlog.1 hlog.2 helection) id
  · have hcampaign := @Remembers.campaign_step s
      { s with node := s.node.handleAppendEntries cfg origin msg } h id helection hcommit
    have hkeeps {k : Nat} (hk : k ≤ s.node.logArray.full.length)
        (hagrees : Agrees k s.node.logArray msg.entries) : KeepsFirst k s.node.logArray
          (Node.appendLoop cfg s.node.logArray 0 msg.entries).log :=
      .appendLoop _ _ _ h.aligned hk hagrees
    by_cases hnil : msg.entries = []
    · -- the loop does nothing
      have hloop : (Node.appendLoop cfg s.node.logArray 0 msg.entries).log = s.node.logArray := by
        rw [hnil]
        rfl
      rw [hloop] at hlog hcommitted
      refine ⟨?_, ?_, fun hwipe => ?_, hcampaign⟩
      · show (s.node.handleAppendEntries cfg origin msg).logArray.Aligned
        rw [hlog]
        exact h.aligned
      · show TermsAscend (s.node.handleAppendEntries cfg origin msg).logArray.full
        rw [hlog]
        exact h.ascending
      · show _ <+: (s.node.handleAppendEntries cfg origin msg).logArray.full
        rw [hlog]
        exact hcommitted (h.known hwipe)
    · obtain ⟨hbase, hcons, hascending, habove, hagrees⟩ := hmeets hprev hnil
      have horder := inOrder_of_prevMatches h.aligned h.ascending hprev hbase hcons hascending
        habove
      refine ⟨?_, ?_, fun hwipe => ?_, hcampaign⟩
      · show (s.node.handleAppendEntries cfg origin msg).logArray.Aligned
        rw [hlog]
        exact (hkeeps (Nat.zero_le _) (agrees_zero h.aligned _)).aligned
      · show TermsAscend (s.node.handleAppendEntries cfg origin msg).logArray.full
        rw [hlog]
        exact ascending_appendLoop _ _ 0 _ h.aligned h.ascending horder.1 horder.2
      · show _ <+: (s.node.handleAppendEntries cfg origin msg).logArray.full
        rw [hlog]
        have hknown := h.known hwipe
        have hkept := hkeeps hknown.length_le hagrees
        refine hcommitted ?_
        rw [List.prefix_iff_eq_take.1 hknown, ← hkept.take]
        exact List.take_prefix _ _

theorem Remembers.handle (h : s.Remembers) (hd : Handler)
    (hmeets : s.HistoryMeets (.handle hd))
    (hcommit : (s.node.handle cfg hd).committed = s.node.committed ∨
      (s.node.handle cfg hd).committed = [] ∨
      ∀ index term, s.node.election ≠ .campaign index term) :
    Remembers { s with node := s.node.handle cfg hd } := by
  rcases sameHistory_handle cfg s.node hd with ⟨origin, msg, rfl⟩ | rfl | hsame
  · exact h.appendEntries origin msg hmeets hcommit
  · -- the leader's commit index
    have hlog := (advanceCommit_spec s.node).1
    have helection : s.node.advanceCommit.election = s.node.election := by
      rw [Node.advanceCommit]
      split <;> rfl
    refine ⟨?_, ?_, fun hwipe => ?_, @Remembers.campaign_step s _ h id helection hcommit⟩
    · show s.node.advanceCommit.logArray.Aligned
      rw [hlog]
      exact h.aligned
    · show TermsAscend s.node.advanceCommit.logArray.full
      rw [hlog]
      exact h.ascending
    · show s.node.advanceCommit.committed <+: s.node.advanceCommit.logArray.full
      have hknown := h.known hwipe
      rw [hlog, Node.advanceCommit]
      split
      · exact committed_noteCommit hknown
      · exact hknown
  · exact h.carry hsame id

theorem Remembers.submit (h : s.Remembers) {entries : List LogEntry}
    (hmeets : s.HistoryMeets (.submit entries)) :
    Remembers { s with node := { s.node with
      logArray := (s.node.logArray.batchAppend cfg.logConfig entries).1 } } := by
  obtain ⟨hal, hfull⟩ := @RaftLogArray.batchAppend_spec cfg.logConfig s.node.logArray h.aligned
    entries
  rw [RaftLogArray.full_extend] at hfull
  refine ⟨hal, ?_, fun hwipe => ?_, h.campaign⟩
  · show TermsAscend (s.node.logArray.batchAppend cfg.logConfig entries).1.full
    rw [hfull]
    -- the indices of the entries are rewritten, the terms are not
    have hterms : ∀ (start : Nat) (entries : List LogEntry),
        (entries.mapIdx fun i e => { e with index := start + i }).map LogEntry.term =
          entries.map LogEntry.term := by
      intro start entries
      apply List.ext_getElem?
      intro i
      simp only [List.getElem?_map, List.getElem?_mapIdx, Option.map_map]
      rfl
    have hmap : ∀ log : List LogEntry, TermsAscend log ↔ (log.map LogEntry.term).Pairwise (· ≤ ·) :=
      fun log => List.pairwise_map.symm
    rw [hmap, List.map_append, hterms, ← List.map_append, ← hmap]
    exact hmeets
  · show _ <+: (s.node.logArray.batchAppend cfg.logConfig entries).1.full
    rw [hfull]
    exact (h.known hwipe).trans (List.prefix_append _ _)

theorem Remembers.clear (h : s.Remembers) {empty : Bool} {found : RaftLogArray}
    (hmeets : s.HistoryMeets (.clear empty found)) : (s.clear empty found).Remembers := by
  have hwiped : ¬ (s.clear empty found).Unwiped := fun hwipe => hwipe List.mem_cons_self
  refine ⟨?_, ?_, fun hwipe => absurd hwipe hwiped, fun hwipe => absurd hwipe hwiped⟩
  · show (if empty then found else ({} : RaftLogArray)).Aligned
    split
    · next hempty => exact (hmeets hempty).aligned
    · rfl
  · show TermsAscend (if empty then found else ({} : RaftLogArray)).full
    split
    · next hempty => exact h.ascending.of_isPrefix (hmeets hempty).isPrefix
    · exact .nil

theorem Remembers.restart (h : s.Remembers) {kept : Nat} {found : RaftLogArray}
    (hmeets : s.HistoryMeets (.restart kept found)) : (s.restart kept found).Remembers := by
  obtain ⟨hfound, hreach⟩ := hmeets
  refine ⟨hfound.aligned, h.ascending.of_isPrefix hfound.isPrefix, fun _ => ?_,
    fun _ index term hcampaign => by cases hcampaign⟩
  show s.node.committed <+: found.full
  rcases hreach with hnil | ⟨hwipe, hreach⟩
  · rw [hnil]
    exact List.nil_prefix
  · obtain ⟨htake, -⟩ := take_of_recovers hfound hreach
    rw [List.prefix_iff_eq_take.1 (h.known hwipe), ← htake]
    exact List.take_prefix _ _

/-- The log that begins behind a snapshot. -/
theorem Remembers.resetLog (h : s.Remembers) {index : Nat} {content : List LogEntry}
    (hwork : s.work = some (.install index content)) (hmeets : s.HistoryMeets .advance)
    (hcommit : (s.node.resetLog index content).committed = s.node.committed ∨
      (s.node.resetLog index content).committed = [] ∨
      ∀ index term, s.node.election ≠ .campaign index term) :
    Remembers { s with node := s.node.resetLog index content, work := none } := by
  obtain ⟨hlen, hascending, hknown⟩ := hmeets index content hwork
  obtain ⟨hal, hfull⟩ := RaftLogArray.aligned_reset (index + 1) (Nat.le_add_left 1 _) content
    (by rw [hlen])
  refine ⟨hal, ?_, fun _ => ?_, @Remembers.campaign_step s _ h id rfl hcommit⟩
  · show TermsAscend (RaftLogArray.reset (index + 1) (Nat.le_add_left 1 _) content).full
    rw [hfull]
    exact hascending
  · apply committed_noteCommit
    show s.node.committed <+: (RaftLogArray.reset (index + 1) (Nat.le_add_left 1 _) content).full
    rw [hfull]
    exact hknown

/-- A piece of the work of the mutex's owner. -/
theorem Remembers.advance (h : s.Remembers) {w : Work} (hwork : s.work = some w)
    (hmeets : s.HistoryMeets .advance)
    (hcommit : (s.advance w).node.committed = s.node.committed ∨
      (s.advance w).node.committed = [] ∨ ∀ index term, s.node.election ≠ .campaign index term) :
    (s.advance w).Remembers := by
  have hexecute (index : Nat) : (s.execute index).node = s.node ∧
      (s.execute index).replacing = s.replacing := by
    rw [execute]
    split <;> exact ⟨rfl, rfl⟩
  have hwipe {index : Nat} {s' : Applier} (hs' : s'.replacing = (s.execute index).replacing) :
      s'.Unwiped → s.Unwiped := by
    intro hwipe
    rwa [Unwiped, hs', (hexecute index).2] at hwipe
  cases w with
  | apply l c marked =>
      cases marked with
      | true =>
          have hnode := (hexecute l).1
          refine h.carry ?_ (hwipe rfl)
          show SameHistory s.node (s.execute l).node
          rw [hnode]
          exact .of_eq rfl rfl rfl
      | false =>
          rw [Applier.advance]
          split <;> exact h.carry (.of_eq rfl rfl rfl) id
  | commit l c =>
      rw [Applier.advance]
      split
      · have hnode := (hexecute (l + 1)).1
        refine h.carry ?_ (hwipe rfl)
        show SameHistory s.node (s.execute (l + 1)).node
        rw [hnode]
        exact .of_eq rfl rfl rfl
      · exact h.carry (.of_eq rfl rfl rfl) id
  | install index content => exact h.resetLog hwork hmeets hcommit

theorem Remembers.replace (h : s.Remembers) (r : Replacement) : (s.replace r).Remembers := by
  cases r with
  | restored index content =>
      refine h.carry (.of_eq rfl rfl rfl) fun hwipe hcleared => hwipe ?_
      exact (List.mem_erase_of_ne (by simp)).2 hcleared
  | cleared =>
      -- nothing is committed any more
      refine ⟨h.aligned, h.ascending, fun _ => List.nil_prefix, fun _ index term _ => ?_⟩
      exact notOlder_nil index term

theorem Remembers.step (h : s.Remembers) {ev : Event} (hmeets : s.VoteMeets cfg (.step ev))
    (hstep : s.step cfg ev = some s') : s'.Remembers := by
  obtain ⟨hevent, hcommit⟩ := hmeets
  replace hcommit := hcommit s' hstep
  cases ev with
  | handle hd =>
      obtain ⟨-, hs⟩ := Option.ite_none_right_eq_some.1 hstep
      obtain rfl := Option.some.inj hs
      exact h.handle hd hevent hcommit
  | serialize =>
      obtain rfl := Option.some.inj hstep
      exact h.carry (.of_eq rfl rfl rfl) id
  | write saved =>
      obtain ⟨-, hs⟩ := Option.ite_none_right_eq_some.1 hstep
      obtain rfl := Option.some.inj hs
      exact h.carry (.of_eq rfl rfl rfl) id
  | submit entries =>
      obtain rfl := Option.some.inj hstep
      exact h.submit hevent
  | startApply =>
      obtain ⟨-, hs⟩ := Option.ite_none_right_eq_some.1 hstep
      split at hs
      · obtain rfl := Option.some.inj hs
        exact h
      · obtain rfl := Option.some.inj hs
        exact h.carry (.of_eq rfl rfl rfl) id
  | startCommit =>
      obtain ⟨-, hs⟩ := Option.ite_none_right_eq_some.1 hstep
      split at hs
      · obtain rfl := Option.some.inj hs
        exact h
      · obtain rfl := Option.some.inj hs
        -- the start of a commit notes what it commits; log and campaign stay
        exact ⟨h.aligned, h.ascending, fun hwipe => committed_noteCommit (h.known hwipe),
          h.campaign_step id rfl hcommit⟩
  | advance =>
      obtain ⟨w, hwork, rfl⟩ := Option.map_eq_some_iff.1 hstep
      exact h.advance hwork hevent hcommit
  | restore index content =>
      obtain rfl := Option.some.inj hstep
      exact h.carry (.of_eq rfl rfl rfl) fun hwipe hcleared =>
        hwipe (List.mem_cons_of_mem _ hcleared)
  | clear empty found =>
      obtain rfl := Option.some.inj hstep
      exact h.clear hevent
  | replace r =>
      obtain ⟨-, hs⟩ := Option.ite_none_right_eq_some.1 hstep
      obtain rfl := Option.some.inj hs
      exact h.replace r
  | restart kept found =>
      obtain rfl := Option.some.inj hstep
      exact h.restart hevent
  | sanitize =>
      obtain ⟨-, hs⟩ := Option.ite_none_right_eq_some.1 hstep
      obtain rfl := Option.some.inj hs
      exact h.carry (.of_eq rfl rfl rfl) id

/-- What is read for a campaign is not older than the history exactly when there is something in
memory to read, or no history. -/
theorem Remembers.lastInfo_iff (h : s.Remembers) (hwipe : s.Unwiped) :
    NotOlder s.node.committed s.node.logArray.getLastInfo.1 s.node.logArray.getLastInfo.2 ↔
      s.HasLast := by
  constructor
  · intro hinfo
    by_contra hnot
    rw [HasLast, not_or, not_not] at hnot
    obtain ⟨e, he⟩ : ∃ e, s.node.committed.getLast? = some e :=
      ⟨_, List.getLast?_eq_some_getLast hnot.1⟩
    have hpos := List.length_pos_iff.2 hnot.1
    rw [getLastInfo_of_eq hnot.2] at hinfo
    have := hinfo e he
    omega
  · rintro (hnil | hne)
    · rw [hnil]
      exact notOlder_nil _ _
    · obtain ⟨last, hlast, hinfo⟩ := getLastInfo_of_ne h.aligned hne
      rw [hinfo]
      exact h.ascending.notOlder (h.known hwipe) hlast

theorem Remembers.voterStep (h : s.Remembers) {ev : VoterEvent} (hmeets : s.VoteMeets cfg ev)
    (hstep : s.voterStep cfg ev = some s') : s'.Remembers := by
  cases ev with
  | step ev => exact h.step hmeets hstep
  | readLastInfo =>
      obtain ⟨-, hs⟩ := Option.ite_none_right_eq_some.1 hstep
      obtain rfl := Option.some.inj hs
      refine ⟨h.aligned, h.ascending, h.known, fun hwipe index term hcampaign => ?_⟩
      obtain ⟨rfl, rfl⟩ := ElectionPhase.campaign.inj hcampaign
      exact (h.lastInfo_iff hwipe).2 hmeets.2

/-- The votes that a node can grant are for logs that are not older than its history. -/
theorem Remembers.grants_iff (h : s.Remembers) (hwipe : s.Unwiped) :
    (∀ msg peer, (s.node.handleRequestVote msg peer).2.2 = true →
      NotOlder s.node.committed msg.lastLogIndex msg.lastLogTerm) ↔ s.HasLast := by
  rw [← h.lastInfo_iff hwipe]
  constructor
  · -- a candidate of the next term with exactly the entry in memory gets the vote
    intro hgrants
    refine hgrants ⟨s.node.state.currentTerm + 1, _, _⟩ ⟨[], 0⟩
      (granted_of_logIsOk _ (Nat.lt_succ_self _) ?_)
    exact logIsOk_iff.2 (.inr ⟨rfl, Nat.le_refl _⟩)
  · intro hinfo msg peer hgranted
    exact hinfo.mono (logIsOk_iff.1 (logIsOk_of_granted hgranted))

end Invariant

section Results

/-- **Freshness.** In every run whose steps meet the condition, and outside a wipe, a node votes by
its committed history, and prepares a campaign by it, exactly when something is in memory or
nothing has been committed; and what it has read for a campaign is not older. -/
theorem votes_fresh (cfg : RaftNodeConfig) (events : List VoterEvent) (s : Applier)
    (hmeets : Base.Machine.RunMeets (voterStep cfg) (VoteMeets cfg) {} events)
    (hrun : Base.Machine.run (voterStep cfg) {} events = some s) (hwipe : s.Unwiped) :
    ((∀ msg peer, (s.node.handleRequestVote msg peer).2.2 = true →
        NotOlder s.node.committed msg.lastLogIndex msg.lastLogTerm) ↔ s.HasLast) ∧
      (NotOlder s.node.committed s.node.logArray.getLastInfo.1 s.node.logArray.getLastInfo.2 ↔
        s.HasLast) ∧
      ∀ index term, s.node.election = .campaign index term →
        NotOlder s.node.committed index term := by
  have h : s.Remembers := Base.Machine.run_induction
    (fun _ _ _ h hmeets hstep => Remembers.voterStep h hmeets hstep) events {} s remembers_new
    hmeets hrun
  exact ⟨h.grants_iff hwipe, h.lastInfo_iff hwipe, h.campaign hwipe⟩

/-- A write that is committed, and a campaign. -/
def campaigns : List VoterEvent := [.step (.submit [⟨1, 0, [1]⟩]), .step .startCommit,
  .step .advance, .step .advance, .step (.handle .electionTimeout),
  .step (.handle (.becomeCandidate ⟨[1], 1⟩)), .readLastInfo]

theorem votes_fresh_campaigns : ∃ s,
    Base.Machine.run (voterStep Cluster.plainConfig) {} campaigns = some s ∧
      s.node.election = .campaign 1 1 ∧ s.node.committed = [⟨1, 1, [1]⟩] ∧
      (∀ msg peer, (s.node.handleRequestVote msg peer).2.2 = true →
        NotOlder s.node.committed msg.lastLogIndex msg.lastLogTerm) ∧
      NotOlder s.node.committed 1 1 := by
  -- the log and the campaign meet the condition at every step
  have hmeets : Base.Machine.RunMeets (voterStep Cluster.plainConfig)
      (VoteMeets Cluster.plainConfig) {} campaigns := by
    have idle {s : Applier} (h : s.node.election = .waiting ∨ s.node.election = .timedOut)
        (s' : Applier) : s'.node.committed = s.node.committed ∨ s'.node.committed = [] ∨
          ∀ index term, s.node.election ≠ .campaign index term := by
      refine .inr (.inr fun index term hcampaign => ?_)
      rw [hcampaign] at h
      rcases h with h | h <;> cases h
    refine ⟨⟨List.pairwise_singleton _ _, fun s' _ => idle (.inl rfl) s'⟩, fun s₁ h₁ => ?_⟩
    obtain rfl := Option.some.inj h₁
    refine ⟨⟨trivial, fun s' _ => idle (.inl rfl) s'⟩, fun s₂ h₂ => ?_⟩
    obtain rfl := Option.some.inj h₂
    refine ⟨⟨fun _ _ h => (by cases h), fun s' _ => idle (.inl rfl) s'⟩, fun s₃ h₃ => ?_⟩
    obtain rfl := Option.some.inj h₃
    refine ⟨⟨fun _ _ h => (by cases h), fun s' _ => idle (.inl rfl) s'⟩, fun s₄ h₄ => ?_⟩
    obtain rfl := Option.some.inj h₄
    refine ⟨⟨trivial, fun s' _ => idle (.inl rfl) s'⟩, fun s₅ h₅ => ?_⟩
    obtain rfl := Option.some.inj h₅
    refine ⟨⟨trivial, fun s' _ => idle (.inr rfl) s'⟩, fun s₆ h₆ => ?_⟩
    obtain rfl := Option.some.inj h₆
    exact ⟨⟨List.not_mem_nil, .inr (List.cons_ne_nil _ _)⟩, fun _ _ => trivial⟩
  have h := votes_fresh Cluster.plainConfig campaigns _ hmeets rfl List.not_mem_nil
  exact ⟨_, rfl, rfl, rfl, h.1.2 (.inr (List.cons_ne_nil _ _)), h.2.2 1 1 rfl⟩

/-- A node whose snapshot covers an entry of term 1 votes for a candidate with an empty log, and
asks for votes as one. -/
theorem not_votes_fresh_installed : ∃ s, Base.Machine.run (voterStep Cluster.plainConfig) {}
      [.step (.restore 1 [⟨1, 1, [1]⟩]), .step (.replace (.restored 1 [⟨1, 1, [1]⟩])),
        .step .advance] = some s ∧
    s.node.committed = [⟨1, 1, [1]⟩] ∧ s.node.logArray.getLastInfo = (0, 0) ∧
    (s.node.handleRequestVote ⟨2, 0, 0⟩ ⟨[2], 2⟩).2.2 = true ∧
    ¬ NotOlder s.node.committed 0 0 := by
  refine ⟨_, rfl, rfl, rfl, rfl, fun h => ?_⟩
  have hlast := h ⟨1, 1, [1]⟩ rfl
  exact absurd hlast (by decide)

end Results

end Applier

end EyaKV.Raft
