import EyaKV.Base.ReplicatedLog
import EyaKV.Raft.Election
import EyaKV.Raft.Idle

/-!
# Log matching

The loop of `handle_append_entries` makes of the follower's log and the leader's what
`Merged` says (`appendLoop_merged`), when the log of the follower agrees with the leader's
up to the entry before the new ones. That agreement is what the check of this entry is
for: two logs that are canonical for the logs of the leaders match wherever their terms do.

`LogInv` is the invariant. Every log in the cluster, in a node, a message or a snapshot, is
canonical for `leaderLog`, carries its indices, and holds only entries that a leader of
their term created. It relies on `LogMeets`: that the role and the term of a node are still
those of a leader when its entries are added, and that messages do not begin at an entry
that is no longer in memory.
-/

set_option autoImplicit false

namespace EyaKV.Raft

open EyaKV.Base EyaKV.Store

section Appending

variable {cfg : RaftNodeConfig} {log : RaftLogArray} {source : List LogEntry}

/-- The entries of a log carry the indices of their positions. -/
def Indexed (log : List LogEntry) : Prop := ∀ i e, log[i]? = some e → e.index = i + 1

theorem Indexed.shorten {log log' : List LogEntry} (h : Indexed log') (hpre : log <+: log') :
    Indexed log := fun i e hi => h i e (getElem?_shorten hpre hi)

theorem Indexed.merged {log source result : List LogEntry}
    (h : Merged LogEntry.term log source result) (hlog : Indexed log) (hsource : Indexed source) :
    Indexed result := by
  cases h with
  | kept => exact hlog
  | extended i j => exact hsource.shorten (List.take_prefix j source)
  | replaced i j => exact hsource.shorten (List.take_prefix j source)

/-- The entries of a message, from the position `i` of the leader's log on. -/
theorem entries_cons {i : Nat} {e : LogEntry} {rest : List LogEntry}
    (h : e :: rest <+: source.drop i) :
    source[i]? = some e ∧ rest <+: source.drop (i + 1) := by
  obtain ⟨tail, htail⟩ := h
  constructor
  · rw [← Nat.add_zero i, ← List.getElem?_drop, ← htail]
    rfl
  · refine ⟨tail, ?_⟩
    rw [← List.tail_drop, ← htail]
    rfl

/-- One more entry of the leader's log, at the end of a log that is the leader's so far. -/
theorem batchAppend_next (hal : log.Aligned) (hidx : Indexed source) {i : Nat} {e : LogEntry}
    (hlog : log.full = source.take i) (hi : source[i]? = some e) :
    (log.batchAppend cfg.logConfig [e]).1.Aligned ∧
      (log.batchAppend cfg.logConfig [e]).1.full = source.take (i + 1) := by
  obtain ⟨hal', hfull⟩ := @RaftLogArray.batchAppend_spec cfg.logConfig _ hal [e]
  have hlt : i < source.length := (List.getElem?_eq_some_iff.1 hi).1
  have hnext : log.baseIndex + log.entries.length = e.index := by
    rw [hal.next, hlog, List.length_take_of_le (Nat.le_of_lt hlt), hidx i e hi]
  refine ⟨hal', ?_⟩
  rw [hfull, RaftLogArray.full_extend, hlog, List.take_add_one, hi]
  simp only [List.mapIdx_cons, List.mapIdx_nil, Nat.add_zero, hnext, Option.toList_some]

/-- A log that is the leader's up to a position holds no entry there. -/
theorem get_past_end (hal : log.Aligned) {i index : Nat} (hlog : log.full = source.take i)
    (hlen : i ≤ source.length) (hindex : index = i + 1) : log.get index = none := by
  have hnext := hal.next
  rw [hlog, List.length_take_of_le hlen] at hnext
  rw [hindex, hal.get (by omega), Nat.add_sub_cancel, hlog,
    List.getElem?_take_eq_none (Nat.le_refl i)]

/-- `truncate_from`, when it returns, keeps what comes before the index. -/
theorem truncateFrom_full {log' : RaftLogArray} (hal : log.Aligned) {index : Nat}
    (hbase : log.baseIndex ≤ index) (hlen : index ≤ log.full.length)
    (htrunc : log.truncateFrom cfg.logConfig index = some log') :
    log'.Aligned ∧ log'.full = log.full.take (index - 1) := by
  have := hal.next
  unfold RaftLogArray.truncateFrom at htrunc
  rw [if_neg (by omega)] at htrunc
  split at htrunc
  · obtain rfl := Option.some.inj htrunc
    exact ⟨hal.keepBelow index, hal.full_keepBelow hbase⟩
  · cases htrunc

/-- At the end of the log, the loop adds the entries one by one. It stops early when a call
of the log does not return. -/
theorem appendLoop_extend (hidx : Indexed source) (entries : List LogEntry) :
    ∀ (log : RaftLogArray) (count i : Nat), log.Aligned → log.full = source.take i →
      i ≤ source.length → entries <+: source.drop i →
      ∃ j, i ≤ j ∧ (Node.appendLoop cfg log count entries).log.full = source.take j ∧
        (Node.appendLoop cfg log count entries).log.Aligned ∧
        ((Node.appendLoop cfg log count entries).returned = true → j = i + entries.length) := by
  induction entries with
  | nil =>
      intro log count i hal hlog _ _
      exact ⟨i, Nat.le_refl i, hlog, hal, fun _ => rfl⟩
  | cons e rest ih =>
      intro log count i hal hlog hlen hent
      obtain ⟨hi, hrest⟩ := entries_cons hent
      obtain ⟨hal', hlog'⟩ := @batchAppend_next cfg _ _ hal hidx _ _ hlog hi
      have hlt : i < source.length := (List.getElem?_eq_some_iff.1 hi).1
      rw [Node.appendLoop, get_past_end hal hlog hlen (hidx i e hi)]
      simp only
      split
      · next log' hone =>
          rw [hone] at hal' hlog'
          obtain ⟨j, hij, hfull, halj, hret⟩ := ih log' (count + 1) (i + 1) hal' hlog' hlt hrest
          refine ⟨j, by omega, hfull, halj, fun h => ?_⟩
          rw [hret h, List.length_cons]
          omega
      · next log' hone =>
          rw [hone] at hal' hlog'
          exact ⟨i + 1, Nat.le_succ i, hlog', hal', fun h => by cases h⟩

/-- What the loop of `handle_append_entries` makes of a log that agrees with the leader's
before the new entries. When every call of the log returns, the log agrees with the
leader's up to the last of them, and goes on only if it did before. -/
theorem appendLoop_merged (hidx : Indexed source) (entries : List LogEntry) :
    ∀ (log : RaftLogArray) (count i : Nat), log.Aligned →
      (∀ k x y, log.full[k]? = some x → source[k]? = some y → x.term = y.term →
        log.full.take (k + 1) = source.take (k + 1)) →
      log.full.take i = source.take i → i ≤ log.full.length → i ≤ source.length →
      log.baseIndex ≤ i + 1 → entries <+: source.drop i →
      (Node.appendLoop cfg log count entries).log.Aligned ∧
        Merged LogEntry.term log.full source (Node.appendLoop cfg log count entries).log.full ∧
        ((Node.appendLoop cfg log count entries).returned = true →
          ((Node.appendLoop cfg log count entries).log.full = log.full ∧
              i + entries.length ≤ log.full.length ∧
              log.full.take (i + entries.length) = source.take (i + entries.length)) ∨
            (Node.appendLoop cfg log count entries).log.full =
              source.take (i + entries.length)) := by
  induction entries with
  | nil =>
      intro log count i hal _ hsame hlog _ _ _
      exact ⟨hal, .kept, fun _ => Or.inl ⟨rfl, hlog, hsame⟩⟩
  | cons e rest ih =>
      intro log count i hal hmatch hsame hlen hsource hbase hent
      obtain ⟨hi, hrest⟩ := entries_cons hent
      have hlt : i < source.length := (List.getElem?_eq_some_iff.1 hi).1
      have hindex := hidx i e hi
      have hpos : log.baseIndex ≤ e.index := by omega
      -- past the end of the log: from here on the loop only appends
      cases hget : log.get e.index with
      | none =>
          have hlog : log.full = source.take i := by
            have := hal.get_none hpos hget
            rw [← hsame, List.take_of_length_le (by omega)]
          obtain ⟨j, hij, hfull, hal', hret⟩ :=
            @appendLoop_extend cfg _ hidx (e :: rest) log count i hal hlog hsource hent
          rw [hfull]
          exact ⟨hal', .extended i j hij hlog, fun h => Or.inr (by rw [hret h])⟩
      | some existing =>
          obtain ⟨-, hle, hexisting⟩ := hal.get_some hget
          rw [hindex, Nat.add_sub_cancel] at hexisting
          by_cases hterm : existing.term = e.term
          · -- the same term: the logs agree one entry further, and the loop goes on
            have hagree := hmatch i existing e hexisting hi hterm
            rw [Node.appendLoop, hget]
            simp only [hterm, ↓reduceIte]
            obtain ⟨hal', hmerged, hret⟩ := ih log count (i + 1) hal hmatch hagree (by omega) hlt
              (by omega) hrest
            refine ⟨hal', hmerged, fun h => ?_⟩
            rw [List.length_cons, show i + (rest.length + 1) = i + 1 + rest.length by omega]
            exact hret h
          · rw [Node.appendLoop, hget]
            simp only [hterm, ↓reduceIte]
            split
            · next log' htrunc =>
                -- another term: the tail is cut off, and the loop appends the rest
                obtain ⟨hal', hlog'⟩ := truncateFrom_full hal (by omega) (by omega) htrunc
                rw [hindex, Nat.add_sub_cancel, hsame] at hlog'
                have hloop := @appendLoop_extend cfg _ hidx (e :: rest) log' count i hal'
                  hlog' hsource hent
                rw [Node.appendLoop, get_past_end hal' hlog' hsource hindex] at hloop
                obtain ⟨j, hij, hfull, hal'', hret⟩ := hloop
                refine ⟨hal'', ?_, fun h => Or.inr (hfull.trans (by rw [hret h]))⟩
                rw [show _ = source.take j from hfull]
                exact .replaced i j existing e hij hsame hexisting hi hterm
            · exact ⟨hal, .kept, fun h => by cases h⟩

/-- What `handle_append_entries` can do: refuse, in the old term or the message's; stop in a
call of the log; or take over the entries. -/
theorem handleAppendEntries_cases (n : Node) (origin : Conn) (msg : Node.AppendEntries) :
    (msg.term < n.state.currentTerm ∧ n.handleAppendEntries cfg origin msg =
      n.addTask (.appendReply origin .none n.state.currentTerm false n.logArray.getLastIndex)) ∨
    (n.state.currentTerm ≤ msg.term ∧ n.prevMatches msg = false ∧
      n.handleAppendEntries cfg origin msg =
        (n.followTerm msg.term).addTask (.appendReply origin
          (.when (decide (n.state.currentTerm < msg.term))) msg.term false
          n.logArray.getLastIndex)) ∨
    (n.state.currentTerm ≤ msg.term ∧ n.prevMatches msg = true ∧
      (Node.appendLoop cfg n.logArray 0 msg.entries).returned = false ∧
      n.handleAppendEntries cfg origin msg = { n.followTerm msg.term with
        logArray := (Node.appendLoop cfg n.logArray 0 msg.entries).log }) ∨
    (n.state.currentTerm ≤ msg.term ∧ n.prevMatches msg = true ∧
      (Node.appendLoop cfg n.logArray 0 msg.entries).returned = true ∧
      n.handleAppendEntries cfg origin msg = Node.reportAppended { n.followTerm msg.term with
          logArray := (Node.appendLoop cfg n.logArray 0 msg.entries).log }
        origin msg (decide (n.state.currentTerm < msg.term))
        (Node.appendLoop cfg n.logArray 0 msg.entries).appended) := by
  have hsame : (n.followTerm msg.term).prevMatches msg = n.prevMatches msg := rfl
  have hlog : (n.followTerm msg.term).logArray = n.logArray := rfl
  unfold Node.handleAppendEntries
  by_cases hterm : msg.term < n.state.currentTerm
  · exact Or.inl ⟨hterm, if_pos hterm⟩
  · have hle : n.state.currentTerm ≤ msg.term := by omega
    rw [if_neg hterm]
    cases hprev : n.prevMatches msg with
    | false =>
        simp only [hsame, hprev, Bool.false_eq_true, ↓reduceIte, hlog]
        exact Or.inr (Or.inl ⟨hle, trivial, trivial⟩)
    | true =>
        simp only [hsame, hprev, ↓reduceIte, hlog]
        cases hret : (Node.appendLoop cfg n.logArray 0 msg.entries).returned with
        | false =>
            simp only [Bool.false_eq_true, ↓reduceIte]
            exact Or.inr (Or.inr (Or.inl ⟨hle, trivial, trivial, trivial⟩))
        | true =>
            simp only [↓reduceIte]
            exact Or.inr (Or.inr (Or.inr ⟨hle, trivial, trivial, trivial⟩))

/-- The entry before the entries of a message is the one that the message says. -/
def AppendMessage.Verified (m : AppendMessage) : Prop :=
  m.msg.prevLogIndex = 0 ∨
    ∃ e, m.source[m.msg.prevLogIndex - 1]? = some e ∧ e.term = m.msg.prevLogTerm

/-- The entries of a message come from the log of its sender, after an entry that has been
looked up. -/
def AppendMessage.Sent (m : AppendMessage) : Prop :=
  m.msg.entries <+: m.source.drop m.msg.prevLogIndex ∧ (m.msg.entries ≠ [] → m.Verified)

end Appending

namespace Cluster

variable {cfg : RaftNodeConfig} {members : Nat → Finset Address} {boot : Address}
  {c c' : Cluster}

section Leaders

/-- `a` is the leader of the term `t`: it has won the term, or it is the first leader. -/
def Led (boot : Address) (c : Cluster) (t : Nat) (a : Address) : Prop :=
  (t = 0 ∧ a = boot) ∨ ∃ e ∈ c.history.elections, e.term = t ∧ e.leader = a

instance (boot : Address) (c : Cluster) (t : Nat) (a : Address) : Decidable (Led boot c t a) :=
  inferInstanceAs (Decidable (_ ∨ _))

/-- The node is the leader of its term, and its log is the one with which it won, followed
by the entries that it has created. -/
def Leads (boot : Address) (c : Cluster) (a : Address) : Prop :=
  (c.nodes a).role = .leader ∧ Led boot c (c.nodes a).state.currentTerm a ∧
    (c.nodes a).logArray.full = c.history.leaderLog (c.nodes a).state.currentTerm

instance (boot : Address) (c : Cluster) (a : Address) : Decidable (Leads boot c a) :=
  inferInstanceAs (Decidable (_ ∧ _ ∧ _))

theorem Led.mono {t : Nat} {a : Address} (h : Led boot c t a)
    (helections : ∀ e ∈ c.history.elections, e ∈ c'.history.elections) : Led boot c' t a := by
  rcases h with h | ⟨e, he, h⟩
  · exact Or.inl h
  · exact Or.inr ⟨e, helections e he, h⟩

/-- **One leader.** A term has one leader. -/
theorem Led.unique (hinv : TermInv members c) {t : Nat} {a b : Address} (h : Led boot c t a)
    (h' : Led boot c t b) : a = b := by
  rcases h with ⟨ht, rfl⟩ | ⟨e, he, ht, rfl⟩
  · rcases h' with ⟨-, rfl⟩ | ⟨e', he', ht', rfl⟩
    · rfl
    · have := hinv.running.won e' he'
      omega
  · rcases h' with ⟨ht', rfl⟩ | ⟨e', he', ht', rfl⟩
    · have := hinv.running.won e he
      omega
    · exact (electionSafe_of_inv hinv).leader e he e' he' (ht.trans ht'.symm)

end Leaders

section Invariant

/-- The logs of a cluster: in nodes, messages and snapshots, and those of the leaders. -/
inductive HasLog (c : Cluster) : List LogEntry → Prop where
  | node (a : Address) : HasLog c (c.nodes a).logArray.full
  | source {m : AppendMessage} (h : m ∈ c.net.appends) : HasLog c m.source
  | snapshot {s : Snapshot} (h : s ∈ c.net.snapshots) : HasLog c s.content
  | leader (t : Nat) : HasLog c (c.history.leaderLog t)

/-- A log that is canonical for the logs of the leaders, carries its indices, and has only
created entries. -/
structure GoodLog (c : Cluster) (log : List LogEntry) : Prop where
  canonical : Canonical LogEntry.term c.history.leaderLog log
  indexed : Indexed log
  created : ∀ e ∈ log, ∃ r ∈ c.history.created, r.entry = e

theorem GoodLog.nil : GoodLog c [] :=
  ⟨.nil, fun _ _ h => (by cases h), fun _ h => (by cases h)⟩

theorem GoodLog.shorten {log log' : List LogEntry} (h : GoodLog c log') (hpre : log <+: log') :
    GoodLog c log :=
  ⟨h.canonical.shorten hpre, h.indexed.shorten hpre, fun e he => h.created e (hpre.subset he)⟩

theorem GoodLog.merged {log source result : List LogEntry}
    (h : Merged LogEntry.term log source result) (hlog : GoodLog c log)
    (hsource : GoodLog c source) : GoodLog c result := by
  refine ⟨h.canonical hlog.canonical hsource.canonical, hlog.indexed.merged h hsource.indexed,
    fun e he => ?_⟩
  rcases h.mem he with he | he
  · exact hlog.created e he
  · exact hsource.created e he

theorem GoodLog.of_history {log : List LogEntry} (h : GoodLog c log)
    (hleaderLog : c'.history.leaderLog = c.history.leaderLog)
    (hcreated : c'.history.created = c.history.created) : GoodLog c' log :=
  ⟨hleaderLog ▸ h.canonical, h.indexed, hcreated ▸ h.created⟩

/-- The invariant of the logs. -/
structure LogInv (boot : Address) (c : Cluster) : Prop where
  aligned : ∀ a, (c.nodes a).logArray.Aligned
  good : ∀ log, HasLog c log → GoodLog c log
  creator : ∀ r ∈ c.history.created,
    r.role = .leader ∧ r.currentTerm = r.entry.term ∧ Led boot c r.entry.term r.node
  sent : ∀ m ∈ c.net.appends, m.Sent
  snapshot : ∀ s ∈ c.net.snapshots, s.content.length = s.lastIncludedIndex

/-- What log matching relies on, for an action in the state `c`. A node that adds the
entries of a write is still the leader of the term that they carry; a leader sends entries
only while it holds the entry before them; entries from index 1 on reach a follower whose
log starts there; a snapshot is of entries that the log has held; and a log that is opened
again is found up to some index. -/
def LogMeets (boot : Address) (c : Cluster) : Action → Prop
  | .task a (.submit [] entries) =>
      Leads boot c a ∧ ∀ e ∈ entries, e.term = (c.nodes a).state.currentTerm
  | .sendAppendEntries conn =>
      let n := c.nodes (c.ends conn).leader
      let nextIdx := (n.nextIndex[conn]?).getD 0
      1 < nextIdx → nextIdx ≤ n.logArray.getLastIndex → (n.logArray.get (nextIdx - 1)).isSome
  | .appendEntries m _ => m.msg.prevLogIndex = 0 → m.msg.entries ≠ [] →
      (c.nodes (c.ends m.conn).follower).logArray.baseIndex = 1
  | .sendSnapshot conn =>
      let n := c.nodes (c.ends conn).leader
      n.state.lastApplied < n.logArray.baseIndex + n.logArray.entries.length
  | .setMaster a leader found => (c.nodes a).state.currentLeader = some leader ∨
      (c.nodes a).logArray.Recovers found
  | .restart a found => (c.nodes a).logArray.Recovers found
  | _ => True

instance (boot : Address) (c : Cluster) : ∀ act, Decidable (LogMeets boot c act)
  | .task _ (.submit [] _) => inferInstanceAs (Decidable (_ ∧ _))
  | .task _ (.submit (_ :: _) _) | .task _ (.appendReply _ _ _ _ _) | .task _ (.admitNode _ _)
  | .task _ (.broadcast _) | .task _ (.newMaster _ _ _) | .task _ (.follow _ _ _)
  | .task _ (.save _) => isTrue trivial
  | .sendAppendEntries _ => inferInstanceAs (Decidable (_ → _ → _))
  | .appendEntries _ _ => inferInstanceAs (Decidable (_ → _ → _))
  | .sendSnapshot _ => inferInstanceAs (Decidable (_ < _))
  | .setMaster _ _ _ => inferInstanceAs (Decidable (_ ∨ _))
  | .restart a found => inferInstanceAs (Decidable ((c.nodes a).logArray.Recovers found))
  | .electionTimeout _ | .becomeCandidate _ | .readLastInfo _ | .sendRequestVote _
  | .requestVote _ _ | .voteReply _ | .appendReply _ _ | .tryCommitEntries _ | .commitEntries _
  | .applyCommittedEntries _ | .submit _ _ | .reconnect _ | .joinRequest _ | .joinReply _ _
  | .closeSocket _ | .removeNode _ _ | .notice _ _ | .newMaster _ | .installSnapshot _ =>
      isTrue trivial

theorem logInv_init : LogInv boot {} := by
  refine ⟨fun _ => rfl, fun log h => ?_, fun r hr => (by cases hr), fun m hm => ?_, fun s hs => ?_⟩
  · cases h with
    | node a => exact .nil
    | source h => exact absurd h (Finset.notMem_empty _)
    | snapshot h => exact absurd h (Finset.notMem_empty _)
    | leader t => exact .nil
  · exact absurd hm (Finset.notMem_empty m)
  · exact absurd hs (Finset.notMem_empty s)

/-- A step that creates no entry and wins no election. -/
theorem LogInv.keep (hinv : LogInv boot c)
    (haligned : ∀ a, (c'.nodes a).logArray.Aligned)
    (hnodes : ∀ a, GoodLog c (c'.nodes a).logArray.full)
    (happends : ∀ m ∈ c'.net.appends, m ∈ c.net.appends ∨ GoodLog c m.source ∧ m.Sent)
    (hsnapshots : ∀ s ∈ c'.net.snapshots, s ∈ c.net.snapshots ∨
      GoodLog c s.content ∧ s.content.length = s.lastIncludedIndex)
    (helections : c'.history.elections = c.history.elections)
    (hleaderLog : c'.history.leaderLog = c.history.leaderLog)
    (hcreated : c'.history.created = c.history.created) : LogInv boot c' := by
  refine ⟨haligned, fun log h => ?_, fun r hr => ?_, fun m hm => ?_, fun s hs => ?_⟩
  · refine GoodLog.of_history ?_ hleaderLog hcreated
    cases h with
    | node a => exact hnodes a
    | source h => exact (happends _ h).elim (fun h => hinv.good _ (.source h)) And.left
    | snapshot h => exact (hsnapshots _ h).elim (fun h => hinv.good _ (.snapshot h)) And.left
    | leader t => exact hleaderLog ▸ hinv.good _ (.leader t)
  · rw [hcreated] at hr
    obtain ⟨hrole, hterm, hled⟩ := hinv.creator r hr
    exact ⟨hrole, hterm, hled.mono (by rw [helections]; exact fun _ h => h)⟩
  · exact (happends m hm).elim (hinv.sent m) And.right
  · exact (hsnapshots s hs).elim (hinv.snapshot s) And.right

/-- A step that changes the log of one node. -/
theorem LogInv.node (hinv : LogInv boot c) {a : Address} {n : Node}
    (hnodes : c'.nodes = Function.update c.nodes a n) (haligned : n.logArray.Aligned)
    (hgood : GoodLog c n.logArray.full) (happends : c'.net.appends ⊆ c.net.appends)
    (hsnapshots : c'.net.snapshots ⊆ c.net.snapshots)
    (helections : c'.history.elections = c.history.elections)
    (hleaderLog : c'.history.leaderLog = c.history.leaderLog)
    (hcreated : c'.history.created = c.history.created) : LogInv boot c' := by
  refine hinv.keep (fun x => ?_) (fun x => ?_) (fun m hm => Or.inl (happends hm))
    (fun s hs => Or.inl (hsnapshots hs)) helections hleaderLog hcreated
  all_goals
    rw [hnodes, Function.update_apply]
    split
  · exact haligned
  · exact hinv.aligned x
  · exact hgood
  · exact hinv.good _ (.node x)

/-- A step that leaves the log of the node that it changes. -/
theorem LogInv.same (hinv : LogInv boot c) {a : Address} {n : Node}
    (hnodes : c'.nodes = Function.update c.nodes a n)
    (hlog : n.logArray = (c.nodes a).logArray) (happends : c'.net.appends = c.net.appends)
    (hsnapshots : c'.net.snapshots = c.net.snapshots)
    (helections : c'.history.elections = c.history.elections)
    (hleaderLog : c'.history.leaderLog = c.history.leaderLog)
    (hcreated : c'.history.created = c.history.created) : LogInv boot c' :=
  hinv.node hnodes (hlog ▸ hinv.aligned a) (hlog ▸ hinv.good _ (.node a)) happends.subset
    hsnapshots.subset helections hleaderLog hcreated

theorem logInv_idle (hinv : LogInv boot c) (hidle : IdleStep c c') : LogInv boot c' := by
  refine hinv.keep (fun x => ?_) (fun x => ?_) (fun m hm => Or.inl (hidle.appends ▸ hm))
    (fun s hs => Or.inl (hidle.snapshots ▸ hs)) hidle.elections hidle.leaderLog hidle.created
  · rw [(hidle.nodes x).logArray]
    exact hinv.aligned x
  · rw [(hidle.nodes x).logArray]
    exact hinv.good _ (.node x)

end Invariant

section Steps

/-- The check of the entry before the new ones: the log of the follower is the sender's up
to there. -/
theorem agrees_of_prevMatches {n : Node} {m : AppendMessage} (hal : n.logArray.Aligned)
    (hlog : GoodLog c n.logArray.full) (hsource : GoodLog c m.source) (hverified : m.Verified)
    (hprev : n.prevMatches m.msg = true)
    (hbase : m.msg.prevLogIndex = 0 → n.logArray.baseIndex = 1) :
    n.logArray.full.take m.msg.prevLogIndex = m.source.take m.msg.prevLogIndex ∧
      m.msg.prevLogIndex ≤ n.logArray.full.length ∧ m.msg.prevLogIndex ≤ m.source.length ∧
        n.logArray.baseIndex ≤ m.msg.prevLogIndex + 1 := by
  unfold Node.prevMatches at hprev
  split at hprev
  · next hzero =>
      rw [hzero, List.take_zero, List.take_zero]
      exact ⟨rfl, Nat.zero_le _, Nat.zero_le _, (hbase hzero).le⟩
  · next hpos =>
      split at hprev
      · cases hprev
      · next e hget =>
          obtain ⟨hle, hlen, he⟩ := hal.get_some hget
          obtain ⟨e', he', hterm'⟩ := hverified.resolve_left hpos
          have hterm : e.term = e'.term := by rw [hterm']; simpa using hprev
          have hagree := hlog.canonical.matching hsource.canonical he he' hterm
          rw [Nat.sub_add_cancel (Nat.pos_of_ne_zero hpos)] at hagree
          have := (List.getElem?_eq_some_iff.1 he').1
          exact ⟨hagree, hlen, by omega, by omega⟩

/-- What the loop makes of the log of a follower. -/
theorem appendLoop_message {n : Node} {m : AppendMessage} (hal : n.logArray.Aligned)
    (hlog : GoodLog c n.logArray.full) (hsource : GoodLog c m.source) (hsent : m.Sent)
    (hprev : n.prevMatches m.msg = true)
    (hbase : m.msg.prevLogIndex = 0 → m.msg.entries ≠ [] → n.logArray.baseIndex = 1) :
    (Node.appendLoop cfg n.logArray 0 m.msg.entries).log.Aligned ∧
      Merged LogEntry.term n.logArray.full m.source
        (Node.appendLoop cfg n.logArray 0 m.msg.entries).log.full := by
  by_cases hnil : m.msg.entries = []
  · rw [hnil]
    exact ⟨hal, .kept⟩
  · obtain ⟨hagree, hlen, hlen', hnext⟩ := agrees_of_prevMatches hal hlog hsource
      (hsent.2 hnil) hprev fun h => hbase h hnil
    obtain ⟨hal', hmerged, -⟩ := @appendLoop_merged cfg _ hsource.indexed m.msg.entries
      n.logArray 0 m.msg.prevLogIndex hal (fun k x y hx hy hterm =>
        hlog.canonical.matching hsource.canonical hx hy hterm) hagree hlen hlen' hnext hsent.1
    exact ⟨hal', hmerged⟩

theorem logInv_appendEntries (hinv : LogInv boot c) {m : AppendMessage} {again : Bool}
    (hm : m ∈ c.net.appends) (hmeets : LogMeets boot c (.appendEntries m again)) :
    LogInv boot (c.appendEntries cfg m again) := by
  have hlog := hinv.good _ (.node (c.ends m.conn).follower)
  have hsource := hinv.good _ (.source hm)
  have hal := hinv.aligned (c.ends m.conn).follower
  have hresult : ((c.nodes (c.ends m.conn).follower).handleAppendEntries cfg m.conn
        m.msg).logArray.Aligned ∧ GoodLog c ((c.nodes (c.ends m.conn).follower).handleAppendEntries
        cfg m.conn m.msg).logArray.full := by
    rcases @handleAppendEntries_cases cfg (c.nodes (c.ends m.conn).follower) m.conn m.msg
      with ⟨-, h⟩ | ⟨-, -, h⟩ | ⟨-, hprev, -, h⟩ | ⟨-, hprev, -, h⟩
    · rw [h]
      exact ⟨hal, hlog⟩
    · rw [h]
      exact ⟨hal, hlog⟩
    all_goals
      obtain ⟨hal', hmerged⟩ :=
        @appendLoop_message cfg _ _ _ hal hlog hsource (hinv.sent m hm) hprev hmeets
      rw [h]
      exact ⟨hal', hlog.merged hmerged hsource⟩
  refine hinv.node rfl hresult.1 hresult.2 ?_ (Finset.Subset.refl _) rfl rfl rfl
  unfold appendEntries
  cases again
  · exact Finset.erase_subset m c.net.appends
  · exact Finset.Subset.refl _

/-- A leader sends a piece of its log, after an entry that it holds. -/
theorem sent_sendAppendEntries {n : Node} {conn : Conn} {msg : Node.AppendEntries}
    (hal : n.logArray.Aligned)
    (hmeets : 1 < (n.nextIndex[conn]?).getD 0 →
      (n.nextIndex[conn]?).getD 0 ≤ n.logArray.getLastIndex →
      (n.logArray.get ((n.nextIndex[conn]?).getD 0 - 1)).isSome)
    (hmsg : (n.sendAppendEntries cfg conn).2 = some msg) :
    AppendMessage.Sent ⟨conn, msg, n.logArray.full⟩ := by
  unfold Node.sendAppendEntries at hmsg
  split at hmsg
  · cases hmsg
  · obtain rfl := Option.some.inj hmsg
    by_cases hle : (n.nextIndex[conn]?).getD 0 ≤ n.logArray.getLastIndex
    · have hpiece : n.logArray.getEntriesFrom ((n.nextIndex[conn]?).getD 0) cfg.maxCount <+:
          n.logArray.full.drop ((n.nextIndex[conn]?).getD 0 - 1) := by
        by_cases hbase : n.logArray.baseIndex ≤ (n.nextIndex[conn]?).getD 0
        · exact hal.getEntriesFrom _ hbase
        · rw [RaftLogArray.getEntriesFrom, if_pos (by omega)]
          exact List.nil_prefix
      refine ⟨by simpa only [hle, ↓reduceIte] using hpiece, fun _ => ?_⟩
      by_cases hnext : 1 < (n.nextIndex[conn]?).getD 0
      · obtain ⟨e, he⟩ := Option.isSome_iff_exists.1 (hmeets hnext hle)
        refine Or.inr ⟨e, (hal.get_some he).2.2, ?_⟩
        simp only [RaftLogArray.getTerm, he]
      · exact Or.inl (by simp only; omega)
    · refine ⟨by simp only [hle, ↓reduceIte, List.nil_prefix], fun h => absurd ?_ h⟩
      simp only [hle, ↓reduceIte]

theorem logInv_sendAppendEntries (hinv : LogInv boot c) {conn : Conn}
    (hmeets : LogMeets boot c (.sendAppendEntries conn)) :
    LogInv boot (c.sendAppendEntries cfg conn) := by
  have hidle := fun x =>
    idle_update (c := c) (Idle.sendAppendEntries cfg (c.nodes (c.ends conn).leader) conn) x
  have hal := hinv.aligned (c.ends conn).leader
  refine hinv.keep (fun x => ?_) (fun x => ?_) (fun m hm => ?_) (fun s hs => Or.inl hs) rfl rfl rfl
  · show (Function.update c.nodes _ _ x).logArray.Aligned
    rw [(hidle x).logArray]
    exact hinv.aligned x
  · show GoodLog c (Function.update c.nodes _ _ x).logArray.full
    rw [(hidle x).logArray]
    exact hinv.good _ (.node x)
  · cases hmsg : ((c.nodes (c.ends conn).leader).sendAppendEntries cfg conn).2 with
    | none =>
        simp only [sendAppendEntries, hmsg] at hm
        exact Or.inl hm
    | some msg =>
        simp only [sendAppendEntries, hmsg, Finset.mem_insert] at hm
        rcases hm with rfl | hm
        · exact Or.inr ⟨hinv.good _ (.node _), sent_sendAppendEntries hal hmeets hmsg⟩
        · exact Or.inl hm

/-- The entries that a leader adds to its log. -/
theorem append_entries {n : Node} (hal : n.logArray.Aligned) (entries : List LogEntry) :
    ∃ new, (n.logArray.extend entries).entries.drop n.logArray.entries.length = new ∧
      (n.logArray.batchAppend cfg.logConfig entries).1.Aligned ∧
      (n.logArray.batchAppend cfg.logConfig entries).1.full = n.logArray.full ++ new ∧
      (∀ e ∈ new, ∃ e' ∈ entries, e.term = e'.term) ∧
      ∀ i e, new[i]? = some e → e.index = n.logArray.full.length + i + 1 := by
  refine ⟨entries.mapIdx fun i e =>
      { e with index := n.logArray.baseIndex + n.logArray.entries.length + i }, ?_, ?_, ?_,
    fun e he => ?_, fun i e hi => ?_⟩
  · exact List.drop_left
  · exact (RaftLogArray.batchAppend_spec hal entries).1
  · rw [(RaftLogArray.batchAppend_spec hal entries).2, RaftLogArray.full_extend]
  · obtain ⟨i, hi, rfl⟩ := List.mem_mapIdx.1 he
    exact ⟨entries[i], List.getElem_mem hi, rfl⟩
  · rw [List.getElem?_mapIdx, Option.map_eq_some_iff] at hi
    obtain ⟨e', -, rfl⟩ := hi
    have := hal.next
    simp only
    omega

theorem logInv_append (hinv : LogInv boot c) {a : Address} {n : Node} {entries : List LogEntry}
    (hstate : n.state = (c.nodes a).state) (hrole : n.role = (c.nodes a).role)
    (hlog : n.logArray = (c.nodes a).logArray) (hleads : Leads boot c a)
    (hterm : ∀ e ∈ entries, e.term = (c.nodes a).state.currentTerm) :
    LogInv boot (append cfg c a n entries) := by
  obtain ⟨hleader, hled, hfull⟩ := hleads
  obtain ⟨new, hnew, hal, hfull', hterms, hindex⟩ :=
    @append_entries cfg _ (hlog ▸ hinv.aligned a : n.logArray.Aligned) entries
  rw [hlog] at hal hfull' hindex
  have hold := hinv.good _ (.leader (c.nodes a).state.currentTerm)
  have hnewTerm : ∀ e ∈ new, e.term = (c.nodes a).state.currentTerm := by
    intro e he
    obtain ⟨e', he', heq⟩ := hterms e he
    exact heq.trans (hterm e' he')
  have hleaderLog : (append cfg c a n entries).history.leaderLog =
      Function.update c.history.leaderLog (c.nodes a).state.currentTerm
        (c.history.leaderLog (c.nodes a).state.currentTerm ++ new) := by
    simp only [append, hnew, hstate]
  have hcreated : ∀ r, r ∈ (append cfg c a n entries).history.created ↔
      (∃ e ∈ new, ⟨a, e, n.role, n.state.currentTerm⟩ = r) ∨ r ∈ c.history.created := by
    intro r
    simp only [append, hnew, List.mem_append, List.mem_map]
  -- the logs that were there stay good, and the leader's log is good with the new entries
  have hkeep : ∀ log, GoodLog c log → GoodLog (append cfg c a n entries) log := by
    intro log h
    refine ⟨?_, h.indexed, fun e he => ?_⟩
    · rw [hleaderLog]
      exact h.canonical.grow _ new
    · obtain ⟨r, hr, hre⟩ := h.created e he
      exact ⟨r, (hcreated r).2 (Or.inr hr), hre⟩
  have hgrown : GoodLog (append cfg c a n entries)
      (c.history.leaderLog (c.nodes a).state.currentTerm ++ new) := by
    refine ⟨?_, fun i e hi => ?_, fun e he => ?_⟩
    · rw [hleaderLog]
      exact hold.canonical.append hnewTerm
    · rw [← hfull] at hi
      by_cases hlt : i < (c.nodes a).logArray.full.length
      · rw [List.getElem?_append_left hlt, hfull] at hi
        exact hold.indexed i e hi
      · rw [List.getElem?_append_right (by omega)] at hi
        rw [hindex _ e hi]
        omega
    · rcases List.mem_append.1 he with he | he
      · exact (hkeep _ hold).created e he
      · exact ⟨_, (hcreated _).2 (Or.inl ⟨e, he, rfl⟩), rfl⟩
  have hnodes : ∀ x, x ≠ a → (append cfg c a n entries).nodes x = c.nodes x := fun x hx =>
    Function.update_of_ne hx _ _
  have hself : ((append cfg c a n entries).nodes a).logArray =
      ((c.nodes a).logArray.batchAppend cfg.logConfig entries).1 := by
    simp only [append, setNode_nodes, ↓reduceIte, hlog]
  refine ⟨fun x => ?_, fun log h => ?_, fun r hr => ?_, hinv.sent, hinv.snapshot⟩
  · by_cases hxa : x = a
    · rw [hxa, hself]
      exact hal
    · rw [hnodes x hxa]
      exact hinv.aligned x
  · cases h with
    | node x =>
        by_cases hxa : x = a
        · rw [hxa, hself, hfull', hfull]
          exact hgrown
        · rw [hnodes x hxa]
          exact hkeep _ (hinv.good _ (.node x))
    | source h => exact hkeep _ (hinv.good _ (.source h))
    | snapshot h => exact hkeep _ (hinv.good _ (.snapshot h))
    | leader t =>
        rw [hleaderLog, Function.update_apply]
        split
        · exact hgrown
        · exact hkeep _ (hinv.good _ (.leader t))
  · rcases (hcreated r).1 hr with ⟨e, he, rfl⟩ | hr
    · simp only [hrole, hleader, hstate, hnewTerm e he, true_and]
      exact hled.mono fun _ h => h
    · obtain ⟨hr₁, hr₂, hr₃⟩ := hinv.creator r hr
      exact ⟨hr₁, hr₂, hr₃.mono fun _ h => h⟩

/-- No log has an entry of a term that is won just now. -/
theorem no_entry_of_won (hinv : LogInv boot c) (hterm : TermInv members c)
    {r : VoteReply} (hwins : Wins (c.nodes r.candidate) r)
    (hterm' : TermInv members (c.voteReply r)) {log : List LogEntry} (hlog : HasLog c log) :
    ∀ e ∈ log, e.term ≠ r.term := by
  intro e he heq
  obtain ⟨hpos, hnever⟩ := hterm.running.candidate r.candidate hwins.1.2.1
  rw [← hwins.1.1] at hpos hnever
  obtain ⟨k, hk, rfl⟩ := (hinv.good log hlog).created e he
  obtain ⟨-, -, hled⟩ := hinv.creator k hk
  rcases hled with ⟨hzero, -⟩ | ⟨e', he', hterm', hleader⟩
  · omega
  · have hnew : (⟨r.candidate, r.term, insert r.voter (c.history.counted r.candidate),
        (c.nodes r.candidate).state.clusterNodes⟩ : Election) ∈
          (c.voteReply r).history.elections := by
      simp only [voteReply, hwins, hwins.1, ↓reduceIte, List.mem_cons, true_or]
    have hold : e' ∈ (c.voteReply r).history.elections := by
      simp only [voteReply, hwins, ↓reduceIte, List.mem_cons]
      exact Or.inr he'
    have hsame := (electionSafe_of_inv ‹TermInv members (c.voteReply r)›).leader e' hold _ hnew
      (hterm'.trans heq)
    exact hnever e' he' hsame (hterm'.trans heq)

theorem logInv_voteReply (hinv : LogInv boot c) (hterm : TermInv members c) {r : VoteReply}
    (hterm' : TermInv members (c.voteReply r)) : LogInv boot (c.voteReply r) := by
  have hidle := fun x => idle_update (c := c)
    (Idle.handleRequestVoteResponse (c.nodes r.candidate) r.term r.voteGranted) x
  have hnodes : ∀ x, ((c.voteReply r).nodes x).logArray = (c.nodes x).logArray := fun x =>
    (hidle x).logArray
  by_cases hwins : Wins (c.nodes r.candidate) r
  · have hleaderLog : (c.voteReply r).history.leaderLog = Function.update c.history.leaderLog
        r.term (c.nodes r.candidate).logArray.full := by
      simp only [voteReply, hwins, ↓reduceIte]
    -- the winner's log becomes the leader's log of a term in which no log has an entry yet
    have hkeep : ∀ log, HasLog c log → GoodLog (c.voteReply r) log := by
      intro log h
      refine ⟨?_, (hinv.good log h).indexed, (hinv.good log h).created⟩
      rw [hleaderLog]
      exact (hinv.good log h).canonical.update _ (no_entry_of_won hinv hterm hwins hterm' h)
    refine ⟨fun x => ?_, fun log h => ?_, fun k hk => ?_, hinv.sent, hinv.snapshot⟩
    · rw [hnodes x]
      exact hinv.aligned x
    · cases h with
      | node x =>
          rw [hnodes x]
          exact hkeep _ (.node x)
      | source h => exact hkeep _ (.source h)
      | snapshot h => exact hkeep _ (.snapshot h)
      | leader t =>
          rw [hleaderLog, Function.update_apply]
          split
          · exact hkeep _ (.node _)
          · exact hkeep _ (.leader t)
    · obtain ⟨hrole, hcurrent, hled⟩ := hinv.creator k hk
      refine ⟨hrole, hcurrent, hled.mono fun e he => ?_⟩
      simp only [voteReply, hwins, ↓reduceIte, List.mem_cons]
      exact Or.inr he
  · refine hinv.keep (fun x => ?_) (fun x => ?_) (fun m hm => Or.inl hm) (fun s hs => Or.inl hs)
      ?_ ?_ rfl
    · rw [hnodes x]
      exact hinv.aligned x
    · rw [hnodes x]
      exact hinv.good _ (.node x)
    · simp only [voteReply, hwins, ↓reduceIte]
    · simp only [voteReply, hwins, ↓reduceIte]

/-- Committing leaves the log. -/
theorem tryCommitEntries_logArray (n : Node) : n.tryCommitEntries.1.logArray = n.logArray := by
  have hadvance : n.advanceCommit.logArray = n.logArray := by
    unfold Node.advanceCommit
    split
    · rfl
    · rfl
  unfold Node.tryCommitEntries
  split
  · rfl
  · exact (Idle.applyCommittedEntries _).logArray.trans hadvance

theorem commitEntries_logArray (n : Node) : n.commitEntries.1.logArray = n.logArray := by
  unfold Node.commitEntries
  split
  · rfl
  · rfl

theorem goodLog_recovers (hinv : LogInv boot c) {a : Address} {found : RaftLogArray}
    (h : (c.nodes a).logArray.Recovers found) : found.Aligned ∧ GoodLog c found.full :=
  ⟨h.aligned, (hinv.good _ (.node a)).shorten h.isPrefix⟩

theorem logInv_setMaster (hinv : LogInv boot c) {a leader : Address} {found : RaftLogArray}
    (hmeets : LogMeets boot c (.setMaster a leader found)) :
    LogInv boot (c.setMaster a leader found) := by
  unfold setMaster
  simp only
  split
  · split
    · exact hinv
    · exact hinv.same rfl (Idle.addFollow _ _ _ (Nat.le_refl _)).logArray rfl rfl rfl rfl rfl
  · next hleader =>
      obtain ⟨hal, hgood⟩ := goodLog_recovers hinv (hmeets.resolve_left hleader)
      exact hinv.node rfl hal hgood (Finset.Subset.refl _) (Finset.Subset.refl _) rfl rfl rfl

theorem logInv_sendSnapshot (hinv : LogInv boot c) {conn : Conn}
    (hmeets : LogMeets boot c (.sendSnapshot conn)) : LogInv boot (c.sendSnapshot conn) := by
  have hnext := (hinv.aligned (c.ends conn).leader).next
  refine hinv.keep hinv.aligned (fun x => hinv.good _ (.node x)) (fun m hm => Or.inl hm)
    (fun s hs => ?_) rfl rfl rfl
  simp only [sendSnapshot, Finset.mem_insert] at hs
  rcases hs with rfl | hs
  · have hlen : (c.nodes (c.ends conn).leader).state.lastApplied ≤
        (c.nodes (c.ends conn).leader).logArray.full.length := by
      have hlt : _ < _ := hmeets
      omega
    exact Or.inr ⟨(hinv.good _ (.node _)).shorten (List.take_prefix _ _),
      List.length_take_of_le hlen⟩
  · exact Or.inl hs

theorem logInv_installSnapshot (hinv : LogInv boot c) {s : Snapshot} (hs : s ∈ c.net.snapshots) :
    LogInv boot (c.installSnapshot s) := by
  obtain ⟨hal, hfull⟩ := RaftLogArray.aligned_reset (s.lastIncludedIndex + 1) (Nat.le_add_left 1 _)
    s.content (by rw [hinv.snapshot s hs])
  refine hinv.node rfl hal ?_ (Finset.Subset.refl _) (Finset.erase_subset _ _) rfl rfl rfl
  show GoodLog c (RaftLogArray.reset _ _ s.content).full
  rw [hfull]
  exact hinv.good _ (.snapshot hs)

theorem logInv_runTask (hinv : LogInv boot c) {a : Address} {t : Task}
    (ht : t ∈ (c.nodes a).tasks) (hmeets : LogMeets boot c (.task a t)) :
    LogInv boot (c.runTask cfg a t) := by
  by_cases hother : Replicates (.task a t)
  · cases t with
    | submit cmds entries =>
        cases cmds with
        | nil => exact logInv_append hinv rfl rfl rfl hmeets.1 hmeets.2
        | cons cmd cmds => exact absurd hother id
    | appendReply origin save term success logIndex =>
        cases save with
        | none =>
            unfold runTask
            simp only
            split
            · exact hinv.same rfl rfl rfl rfl rfl rfl rfl
            · exact hinv.same rfl rfl rfl rfl rfl rfl rfl
        | due => exact absurd hother id
        | serialized saved => exact absurd hother id
    | save save => exact absurd hother id
    | follow leader term commitIndex => exact hinv.same rfl rfl rfl rfl rfl rfl rfl
    | admitNode addr conn => exact absurd hother id
    | broadcast term => exact absurd hother id
    | newMaster leader term newer => exact absurd hother id
  · exact logInv_idle hinv (idle_runTask ht hother)

/-- Every step that meets the conditions keeps the invariant of the logs. -/
theorem logInv_step {act : Action} (hinv : LogInv boot c) (hterm : TermInv members c)
    (hvote : VoteMeets members c act) (hmeets : LogMeets boot c act)
    (hstep : c.step cfg act = some c') : LogInv boot c' := by
  have hterm' := termInv_step hterm hvote hstep
  by_cases hother : Replicates act
  · cases act with
    | voteReply r =>
        obtain ⟨-, rfl⟩ := of_guard hstep
        exact logInv_voteReply hinv hterm hterm'
    | sendAppendEntries conn =>
        obtain ⟨-, rfl⟩ := of_guard hstep
        exact logInv_sendAppendEntries hinv hmeets
    | appendEntries m again =>
        obtain ⟨⟨hm, -⟩, rfl⟩ := of_guard hstep
        exact logInv_appendEntries hinv hm hmeets
    | tryCommitEntries a =>
        obtain ⟨-, rfl⟩ := of_guard hstep
        exact hinv.same rfl (tryCommitEntries_logArray _) rfl rfl rfl rfl rfl
    | commitEntries a =>
        obtain ⟨-, rfl⟩ := of_guard_not hstep
        exact hinv.same rfl (commitEntries_logArray _) rfl rfl rfl rfl rfl
    | applyCommittedEntries a =>
        obtain rfl := Option.some.inj hstep
        exact hinv.same rfl (Idle.applyCommittedEntries _).logArray rfl rfl rfl rfl rfl
    | task a t =>
        obtain ⟨ht, rfl⟩ := of_guard hstep
        exact logInv_runTask hinv ht hmeets
    | setMaster a leader found =>
        obtain ⟨-, rfl⟩ := of_guard hstep
        exact logInv_setMaster hinv hmeets
    | sendSnapshot conn =>
        obtain ⟨-, rfl⟩ := of_guard hstep
        exact logInv_sendSnapshot hinv hmeets
    | installSnapshot s =>
        obtain ⟨⟨hs, -⟩, rfl⟩ := of_guard hstep
        exact logInv_installSnapshot hinv hs
    | restart a found =>
        obtain rfl := Option.some.inj hstep
        obtain ⟨hal, hgood⟩ := goodLog_recovers hinv hmeets
        exact hinv.node rfl hal hgood (Finset.Subset.refl _) (Finset.Subset.refl _) rfl rfl rfl
    | _ => exact absurd hother id
  · exact logInv_idle hinv (step_idle hother hstep)

end Steps

section Matching

/-- Log matching of a state: entries of one index and term are the same, and so are the
entries before them that both logs hold; and every entry was created by the leader of its
term, of which there is one. -/
structure LogsMatch (boot : Address) (c : Cluster) : Prop where
  matching : ∀ a b i e e', (c.nodes a).logArray.get i = some e →
    (c.nodes b).logArray.get i = some e' → e.term = e'.term → e.cmd = e'.cmd ∧
      ∀ j ≤ i, ∀ x y, (c.nodes a).logArray.get j = some x →
        (c.nodes b).logArray.get j = some y → x = y
  creator : ∀ a i e, (c.nodes a).logArray.get i = some e → ∃ r ∈ c.history.created,
    r.entry = e ∧ r.role = .leader ∧ r.currentTerm = e.term ∧ Led boot c e.term r.node
  leader : ∀ t a b, Led boot c t a → Led boot c t b → a = b

theorem logsMatch_of_inv (hterm : TermInv members c) (hinv : LogInv boot c) :
    LogsMatch boot c := by
  refine ⟨fun a b i e e' he he' hterms => ?_, fun a i e he => ?_, fun t a b => Led.unique hterm⟩
  · obtain ⟨hbase, -, hi⟩ := (hinv.aligned a).get_some he
    obtain ⟨-, -, hi'⟩ := (hinv.aligned b).get_some he'
    have hpos := (c.nodes a).logArray.base_pos
    have hagree := (hinv.good _ (.node a)).canonical.matching (hinv.good _ (.node b)).canonical
      hi hi' hterms
    rw [Nat.sub_add_cancel (by omega)] at hagree
    have hsame : ∀ j ≤ i, ∀ x y, (c.nodes a).logArray.get j = some x →
        (c.nodes b).logArray.get j = some y → x = y := by
      intro j hj x y hx hy
      obtain ⟨-, -, hx⟩ := (hinv.aligned a).get_some hx
      obtain ⟨hbase', -, hy⟩ := (hinv.aligned b).get_some hy
      have hpos' := (c.nodes b).logArray.base_pos
      have hlt : j - 1 < i := by omega
      rw [← List.getElem?_take_of_lt hlt, hagree, List.getElem?_take_of_lt hlt, hy] at hx
      exact (Option.some.inj hx).symm
    exact ⟨congrArg LogEntry.cmd (hsame i (Nat.le_refl i) e e' he he'), hsame⟩
  · obtain ⟨-, -, hi⟩ := (hinv.aligned a).get_some he
    obtain ⟨r, hr, rfl⟩ := (hinv.good _ (.node a)).created e (List.mem_of_getElem? hi)
    obtain ⟨hrole, hcurrent, hled⟩ := hinv.creator r hr
    exact ⟨r, hr, rfl, hrole, hcurrent, hled⟩

/-- Node `i` writes the command `cmd` in the term `term`. -/
def write (i : Nat) (cmd : Bytes) (term : Nat) : List Action :=
  [.submit (node i) [cmd], .task (node i) (.submit [cmd] []),
    .task (node i) (.submit [] [⟨term, 0, cmd⟩])]

/-- Node 1 writes a command and sends it to node 2. -/
def replicated : List Action :=
  threeNodes ++ write 1 [65] 0 ++
    [.sendAppendEntries 1,
      .appendEntries ⟨1, ⟨0, 0, 0, [⟨0, 1, [65]⟩], 0⟩, [⟨0, 1, [65]⟩]⟩ false]

/-- Node 2 checks its role for a write, joins node 1, and adds the entry as a follower. -/
def demoted : List Action :=
  [.submit (node 2) [[66]]] ++ threeNodes ++
    [.task (node 2) (.submit [[66]] []), .task (node 2) (.submit [] [⟨0, 0, [66]⟩])] ++
    write 1 [65] 0

end Matching

end Cluster

end EyaKV.Raft
