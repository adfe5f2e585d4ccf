import EyaKV.Raft.Appending

/-!
# Replication behind a snapshot

The log of a follower that has installed a snapshot begins with the entry behind it, and so does
the log of a leader that has truncated what the snapshot covers. The last entry of the snapshot is
in neither of them, and its term is not kept. `handle_append_entries` therefore rejects the first
message behind a snapshot, and a leader sends 0 for the term that it does not know. So replication
resumes behind a snapshot exactly when there is nothing in it (`resumes_iff`).
-/

set_option autoImplicit false

namespace EyaKV.Raft

variable {cfg : RaftNodeConfig}

/-- The message is accepted, and its first entry is stored behind the one that it names. -/
def Resumes (cfg : RaftNodeConfig) (n : Node) (origin : Conn) (msg : Node.AppendEntries) : Prop :=
  (∃ save logIndex, (n.handleAppendEntries cfg origin msg).tasks =
      .appendReply origin save msg.term true logIndex :: n.tasks) ∧
    ∀ e rest, msg.entries = e :: rest →
      (n.handleAppendEntries cfg origin msg).logArray.get (msg.prevLogIndex + 1) = some e

/-- The leader names entry `s` with the term `t` before its next message. -/
def Names (cfg : RaftNodeConfig) (l : Node) (conn : Conn) (s t : Nat) : Prop :=
  ∃ msg, (l.sendAppendEntries cfg conn).2 = some msg ∧ msg.prevLogIndex = s ∧ msg.prevLogTerm = t

/-- The term of an entry of the whole log, which may be before the base. Index 0 has term 0. -/
def TermAt (log : RaftLogArray) (s t : Nat) : Prop :=
  (s = 0 ∧ t = 0) ∨ (0 < s ∧ ∃ e, log.full[s - 1]? = some e ∧ e.term = t)

/-- A log that begins behind an entry does not know its term. -/
theorem getTerm_of_base {log : RaftLogArray} {s : Nat} (h : log.baseIndex = s + 1) :
    log.getTerm s = 0 := by
  rw [RaftLogArray.getTerm, RaftLogArray.get_of_lt (by omega)]

theorem names_iff {l : Node} {conn : Conn} {s : Nat} (t : Nat) (hrole : l.role = .leader)
    (hbase : l.logArray.baseIndex = s + 1) (hnext : l.nextIndex[conn]? = some (s + 1)) :
    Names cfg l conn s t ↔ t = 0 := by
  have hsend : (l.sendAppendEntries cfg conn).2.map (fun msg => (msg.prevLogIndex, msg.prevLogTerm)) =
      some (s, 0) := by
    rw [Node.sendAppendEntries, if_neg (fun hne => hne hrole), hnext]
    simp only [Option.getD_some, Nat.add_sub_cancel, Option.map_some, getTerm_of_base hbase]
  obtain ⟨msg, hmsg, hpair⟩ := Option.map_eq_some_iff.1 hsend
  have hindex : msg.prevLogIndex = s := congrArg Prod.fst hpair
  have hterm : msg.prevLogTerm = 0 := congrArg Prod.snd hpair
  constructor
  · rintro ⟨msg', hmsg', -, ht⟩
    obtain rfl := Option.some.inj (hmsg.symm.trans hmsg')
    rw [← ht, hterm]
  · rintro rfl
    exact ⟨msg, hmsg, hindex, hterm⟩

/-- The first entry behind a snapshot is found in no log that has just been reset. -/
theorem prevMatches_installSnapshot (n : Node) (s : Nat) (content : List LogEntry)
    (msg : Node.AppendEntries) (hprev : msg.prevLogIndex = s) :
    (n.installSnapshot s content).prevMatches msg = decide (s = 0) := by
  rw [Node.prevMatches, hprev]
  split
  · next hzero => exact (decide_eq_true hzero).symm
  · next hpos =>
      have hget : (n.installSnapshot s content).logArray.get s = none :=
        RaftLogArray.get_of_lt (Nat.lt_succ_self s)
      rw [hget]
      exact (decide_eq_false hpos).symm

theorem resumes_installSnapshot_iff (cfg : RaftNodeConfig) (n : Node) (s t : Nat)
    (content : List LogEntry) (origin : Conn) (entries : List LogEntry) (leaderCommit : Nat)
    (hcons : Consecutive s entries) :
    Resumes cfg (n.installSnapshot s content) origin
        ⟨n.state.currentTerm, s, t, entries, leaderCommit⟩ ↔
      s = 0 ∧ cfg.logConfig.QuietTo 0 entries.length := by
  have hmatches := prevMatches_installSnapshot n s content
    ⟨n.state.currentTerm, s, t, entries, leaderCommit⟩ rfl
  rcases @handleAppendEntries_cases cfg (n.installSnapshot s content) origin
      ⟨n.state.currentTerm, s, t, entries, leaderCommit⟩
    with ⟨hold, -⟩ | ⟨-, hprev, heq⟩ | ⟨-, hprev, hret, heq⟩ | ⟨-, hprev, hret, heq⟩
  · exact absurd hold (Nat.lt_irrefl _)
  · -- the message is rejected
    have hpos : s ≠ 0 := by
      rw [hmatches] at hprev
      exact of_decide_eq_false hprev
    refine ⟨?_, fun h => absurd h.1 hpos⟩
    rintro ⟨⟨save, logIndex, htasks⟩, -⟩
    rw [heq] at htasks
    have hhead := (List.cons.inj htasks).1
    simp only [Task.appendReply.injEq, Bool.false_eq_true, false_and, and_false] at hhead
  all_goals
    obtain rfl : s = 0 := by
      rw [hmatches] at hprev
      exact of_decide_eq_true hprev
    have hcontinues : Continues (n.installSnapshot 0 content).logArray entries := by
      intro i e hi
      rw [hcons i e hi]
      rfl
    have hzero : (0 : Nat) + entries.length = entries.length := Nat.zero_add _
  · -- a call of the log does not return
    constructor
    · rintro ⟨⟨save, logIndex, htasks⟩, -⟩
      rw [heq] at htasks
      exact absurd htasks.symm (List.cons_ne_self _ _)
    · rintro ⟨-, hquiet⟩
      rw [← hzero] at hquiet
      rw [(appendLoop_quiet entries _ 0 hcontinues hquiet).1] at hret
      cases hret
  · have hlog : ((n.installSnapshot 0 content).handleAppendEntries cfg origin
          ⟨n.state.currentTerm, 0, t, entries, leaderCommit⟩).logArray =
        (Node.appendLoop cfg (n.installSnapshot 0 content).logArray 0 entries).log := by
      rw [heq]
      rfl
    rw [Resumes, hlog]
    constructor
    · rintro ⟨-, hfirst⟩
      refine ⟨rfl, ?_⟩
      by_contra hloud
      cases entries with
      | nil => exact hloud fun s hs hle => absurd (hs.trans_le hle) (Nat.lt_irrefl 0)
      | cons e rest =>
          rw [← hzero] at hloud
          rcases appendLoop_loud (e :: rest) _ 0 hcontinues hloud with hstop | hlater
          · rw [hret] at hstop
            cases hstop
          · have hget := (hfirst e rest rfl).symm.trans (RaftLogArray.get_of_lt hlater)
            cases hget
    · rintro ⟨-, hquiet⟩
      rw [← hzero] at hquiet
      obtain ⟨-, hbase, hentries⟩ := appendLoop_quiet entries _ 0 hcontinues hquiet
      refine ⟨?_, fun e rest hcons => ?_⟩
      · rw [heq]
        exact ⟨_, _, rfl⟩
      · refine (RaftLogArray.get_of_le hbase.le).trans ?_
        rw [hbase, hentries, Nat.sub_self]
        exact (congrArg (fun l : List LogEntry => l[0]?) hcons).trans rfl

/-- **Replication behind a snapshot.** It resumes exactly behind the empty snapshot, when the
follower can append the first entries without a truncation. -/
theorem resumes_iff (cfg : RaftNodeConfig) (n l : Node) (s t : Nat) (content : List LogEntry)
    (origin conn : Conn) (entries : List LogEntry) (leaderCommit : Nat)
    (hcons : Consecutive s entries) (hrole : l.role = .leader)
    (hbase : l.logArray.baseIndex = s + 1) (hnext : l.nextIndex[conn]? = some (s + 1))
    (hterm : TermAt l.logArray s t) :
    (Resumes cfg (n.installSnapshot s content) origin
        ⟨n.state.currentTerm, s, t, entries, leaderCommit⟩ ∧ Names cfg l conn s t) ↔
      s = 0 ∧ cfg.logConfig.QuietTo 0 entries.length := by
  rw [resumes_installSnapshot_iff cfg n s t content origin entries leaderCommit hcons,
    names_iff t hrole hbase hnext]
  constructor
  · exact And.left
  · rintro ⟨rfl, hquiet⟩
    rcases hterm with ⟨-, ht⟩ | ⟨hpos, -⟩
    · exact ⟨⟨rfl, hquiet⟩, ht⟩
    · exact absurd hpos (Nat.lt_irrefl 0)

/-- A leader from the start, and a follower with the empty snapshot. -/
theorem resumes_start : Resumes Cluster.plainConfig (Node.installSnapshot {} 0 []) 3
      ⟨0, 0, 0, [⟨0, 1, [7]⟩], 0⟩ ∧
    Names Cluster.plainConfig { nextIndex := (∅ : IndexTable).insert 2 1 } 2 0 0 :=
  (resumes_iff Cluster.plainConfig {} { nextIndex := (∅ : IndexTable).insert 2 1 } 0 0 [] 3 2
    [⟨0, 1, [7]⟩] 0 (consecutive_singleton rfl) rfl rfl Std.ExtTreeMap.getElem?_insert_self
    (.inl ⟨rfl, rfl⟩)).2 ⟨rfl, fun _ _ _ => .inr (.inl rfl)⟩

/-- A log with one entry of term 1. -/
def shortLog : RaftLogArray where
  entries := [⟨1, 1, [7]⟩]
  indexed := by
    intro i e hi
    match i with
    | 0 => exact Option.some.inj hi ▸ rfl
    | i + 1 => cases hi

/-- A leader that has truncated it. -/
def truncatedLeader : Node where
  logArray := shortLog.dropFront 1
  nextIndex := (∅ : IndexTable).insert 2 2

/-- Behind a snapshot of one entry neither side goes on. -/
theorem not_resumes_truncated : ¬ ∀ (cfg : RaftNodeConfig) (n l : Node) (s t : Nat)
    (content : List LogEntry) (origin conn : Conn) (entries : List LogEntry) (leaderCommit : Nat),
    Consecutive s entries → l.role = .leader → l.logArray.baseIndex = s + 1 →
    l.nextIndex[conn]? = some (s + 1) → TermAt l.logArray s t →
    Resumes cfg (n.installSnapshot s content) origin
      ⟨n.state.currentTerm, s, t, entries, leaderCommit⟩ ∧ Names cfg l conn s t := by
  intro h
  have hnext : truncatedLeader.nextIndex[2]? = some 2 := by
    rw [truncatedLeader]
    exact Std.ExtTreeMap.getElem?_insert_self
  have hnames := (h Cluster.plainConfig {} truncatedLeader 1 1 [⟨1, 1, [7]⟩] 3 2 [⟨1, 2, [8]⟩] 0
    (consecutive_singleton rfl) rfl rfl hnext (.inr ⟨by decide, ⟨1, 1, [7]⟩, rfl, rfl⟩)).2
  exact absurd ((names_iff 1 rfl rfl hnext).1 hnames) (by decide)

end EyaKV.Raft
