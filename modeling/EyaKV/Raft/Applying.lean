import EyaKV.Raft.LogMatching

/-!
# Applying committed entries

An `Applier` is a node with its storage. The storage is seen through the log entries whose
commands it has executed, in their order; a snapshot is the entries that it covers. The two
loops that execute commands, `apply_committed_entries_nolock` and `commit_entries`, are taken
apart into the pieces between which the process can end or a thread without the node's mutex
can run; a save outside the mutex is two such pieces. Three things are on the disk: the storage
with its own write-ahead log, the persistent state, and the log. What is found of the log is a
parameter of the steps that open it.

`Inv` says what the storage holds at any point, `Meets` which steps keep it.
-/

set_option autoImplicit false

namespace EyaKV.Raft

open EyaKV.Store

section Handlers

/-- What a thread does while it holds the mutex of the node, the loops over committed
entries and the replacement of the storage apart. -/
inductive Handler where
  | electionTimeout
  | becomeCandidate (self : Address)
  | sendRequestVote
  | requestVote (msg : Node.RequestVote) (peer : Address)
  | voteReply (term : Nat) (voteGranted : Bool)
  | sendAppendEntries (conn : Conn)
  | appendEntries (origin : Conn) (msg : Node.AppendEntries)
  | appendReply (conn : Conn) (success : Bool) (logIndex : Nat)
  | advanceCommit
  | forgetLeader
  | joinRequest (addr : Address) (conn : Conn) (lastIndex : Nat)
  | admitNode (addr : Address) (conn : Conn)
  | connect (j : Joining)
  | follow (j : Joining)
  | joinResponse (self : Address) (term : Nat) (clusterNodes : Finset Address)
  | becomeLeader
  | setMember (self node : Address) (isMember : Bool)
  | removeNode (node : Address)
  | closeSocket (conn : Conn)
  | newMaster (leader : Address) (term : Nat) (newer : Bool)

/-- The node after a handler. -/
def Node.handle (cfg : RaftNodeConfig) (n : Node) : Handler → Node
  | .electionTimeout => { n with election := .timedOut }
  | .becomeCandidate self => n.becomeCandidate self
  | .sendRequestVote => { n with election := .waiting }
  | .requestVote msg peer => (n.handleRequestVote msg peer).1
  | .voteReply term voteGranted => n.handleRequestVoteResponse term voteGranted
  | .sendAppendEntries conn => (n.sendAppendEntries cfg conn).1
  | .appendEntries origin msg => n.handleAppendEntries cfg origin msg
  | .appendReply conn success logIndex => n.handleAppendEntriesResponse conn success logIndex
  | .advanceCommit => n.advanceCommit
  | .forgetLeader => savePersistentState { n with state := { n.state with currentLeader := none } }
  | .joinRequest addr conn lastIndex => (n.handleJoinCluster cfg addr conn lastIndex).1
  | .admitNode addr conn => n.admitNode addr conn
  | .connect j => { n with followerClient := some j.conn, joining := some j }
  | .follow j => n.follow j
  | .joinResponse self term clusterNodes => n.handleJoinClusterResponse self term clusterNodes
  | .becomeLeader => n.becomeLeader
  | .setMember self node isMember => n.setMember self node isMember
  | .removeNode node => n.removeNode node
  | .closeSocket conn => n.closeSocket conn
  | .newMaster leader term newer => n.storeNewMaster leader term newer

/-- The node after a start with these files, before the commit index is compared with the
log. -/
def Node.load (disk : PersistentState) (log : RaftLogArray) (committed : List LogEntry) : Node :=
  { state := disk, disk := disk, logArray := log, committed := committed }

/-- The commit index is cut at the last index of the log. -/
def Node.sanitizeCommitIndex (n : Node) : Node :=
  { n with state := { n.state with
      commitIndex := min n.state.commitIndex n.logArray.getLastIndex } }

/-- A restart is the two in turn. -/
theorem Node.sanitizeCommitIndex_load (n : Node) (found : RaftLogArray) :
    (load n.disk found n.committed).sanitizeCommitIndex = n.restart found := rfl

/-- The store to `last_applied_`. -/
def Node.setLastApplied (n : Node) (index : Nat) : Node :=
  { n with state := { n.state with lastApplied := index } }

/-- The store to `commit_index_`. -/
def Node.setCommitIndex (n : Node) (index : Nat) : Node :=
  noteCommit { n with state := { n.state with commitIndex := index } }

/-- The persistent state of a node that has restored a snapshot. -/
def Node.setSnapshotIndex (n : Node) (index : Nat) : Node :=
  savePersistentState { n with state := { n.state with
    logSnapshotIndex := index, commitIndex := index, lastApplied := index } }

/-- The log of a node that has restored a snapshot. -/
def Node.resetLog (n : Node) (index : Nat) (content : List LogEntry) : Node :=
  noteCommit { n with logArray := .reset (index + 1) (Nat.succ_pos index) content }

/-- The end of `handle_install_snapshot` is the two in turn. -/
theorem Node.resetLog_setSnapshotIndex (n : Node) (index : Nat) (content : List LogEntry) :
    (n.setSnapshotIndex index).resetLog index content = n.installSnapshot index content := rfl

/-- The persistent state of a node whose storage `SETMASTER` has emptied. -/
def Node.zeroIndexes (n : Node) : Node :=
  savePersistentState { n with
    committed := []
    state := { n.state with
      lastApplied := 0, commitIndex := 0, currentTerm := 0, logSnapshotIndex := 0 } }

end Handlers

section Appliers

/-- What a thread that owns the mutex of the node is in the middle of, with its local
variables. -/
inductive Work where
  /-- `apply_committed_entries_nolock`; `marked` between the store to `last_applied_` and the
  execution of the entry at that index. -/
  | apply (lastApplied commitIndex : Nat) (marked : Bool)
  /-- `commit_entries`, which stores `last_applied_` after the loop. -/
  | commit (lastApplied lastLogIndex : Nat)
  /-- `handle_install_snapshot`, before it resets the log. -/
  | install (lastIncludedIndex : Nat) (content : List LogEntry)
  deriving DecidableEq, Repr

/-- A replacement of the storage that the persistent state does not show yet. -/
inductive Replacement where
  /-- `handle_install_snapshot` after `restore_from_checkpoint`. -/
  | restored (lastIncludedIndex : Nat) (content : List LogEntry)
  /-- `SETMASTER` after `clear_and_backup_data`. -/
  | cleared
  deriving DecidableEq, Repr

/-- A node and its storage. `store` are the entries whose effects the storage has, `executed`
the indices that have been executed since the storage was last emptied, and `covered` the
index of the last snapshot. `serialized` are the persistent states that threads without the
mutex have still to write. After `moved` the persistent state is written into a directory
that no start reads. The process begins with `starting`, and sanitizes the commit index once. -/
structure Applier where
  node : Node := {}
  store : List LogEntry := []
  executed : List Nat := []
  covered : Nat := 0
  work : Option Work := none
  replacing : List Replacement := []
  serialized : List PersistentState := []
  moved : Bool := false
  starting : Bool := true

/-- The steps of a run. -/
inductive Event where
  | handle (h : Handler)
  | serialize
  | write (saved : PersistentState)
  | submit (entries : List LogEntry)
  | startApply
  | startCommit
  | advance
  | restore (lastIncludedIndex : Nat) (content : List LogEntry)
  | clear (empty : Bool) (found : RaftLogArray)
  | replace (r : Replacement)
  | restart (kept : Nat) (found : RaftLogArray)
  | sanitize

namespace Applier

/-- The entry at `index` is executed. An index that the log does not hold is passed over. -/
def execute (s : Applier) (index : Nat) : Applier :=
  match s.node.logArray.get index with
  | none => s
  | some e => { s with store := s.store ++ [e], executed := s.executed ++ [index] }

/-- The next piece of the work of the mutex's owner. -/
def advance (s : Applier) : Work → Applier
  | .apply lastApplied commitIndex true =>
      { s.execute lastApplied with work := some (.apply lastApplied commitIndex false) }
  | .apply lastApplied commitIndex false =>
      if lastApplied < commitIndex then
        { s with
          node := s.node.setLastApplied (lastApplied + 1)
          work := some (.apply (lastApplied + 1) commitIndex true) }
      else { s with node := s.node.savePersistentState, work := none }
  | .commit lastApplied lastLogIndex =>
      if lastApplied < lastLogIndex then
        { s.execute (lastApplied + 1) with
          work := some (.commit (lastApplied + 1) lastLogIndex) }
      else
        { s with node := (s.node.setLastApplied lastLogIndex).savePersistentState, work := none }
  | .install lastIncludedIndex content =>
      { s with node := s.node.resetLog lastIncludedIndex content, work := none }

/-- The persistent state follows a replacement of the storage. -/
def replace (s : Applier) (r : Replacement) : Applier :=
  match r with
  | .restored lastIncludedIndex content =>
      { s with
        node := s.node.setSnapshotIndex lastIncludedIndex
        covered := lastIncludedIndex
        work := some (.install lastIncludedIndex content)
        replacing := s.replacing.erase r }
  | .cleared =>
      { s with
        node := s.node.zeroIndexes
        executed := []
        covered := 0
        replacing := s.replacing.erase r }

/-- `clear_and_backup_data`, and the log array that is opened after it. The data directory,
which holds the files of the node, is renamed and made again, unless the storage is empty. -/
def clear (s : Applier) (empty : Bool) (found : RaftLogArray) : Applier :=
  let log : RaftLogArray := if empty then found else {}
  { s with
    node := { s.node with logArray := log }
    store := []
    replacing := .cleared :: s.replacing
    moved := s.moved || !empty }

/-- The persistent state that a start reads. -/
def saved (s : Applier) : PersistentState := if s.moved then {} else s.node.disk

/-- The process ends and starts again. Of the executed entries the storage has the first
`kept`, and `found` is what the files of the log hold. -/
def restart (s : Applier) (kept : Nat) (found : RaftLogArray) : Applier :=
  { s with
    node := Node.load s.saved found s.node.committed
    store := s.store.take kept
    work := none
    replacing := []
    serialized := []
    moved := false
    starting := true }

variable (cfg : RaftNodeConfig)

/-- One step. A handler, the start of a loop and the end of a replacement need the mutex of
the node. The persistent state is also serialized and written outside the mutex, entries are
appended and the storage is replaced outside it, and the process can end at any point. -/
def step (s : Applier) : Event → Option Applier
  | .handle h => if s.work = none then some { s with node := s.node.handle cfg h } else none
  | .serialize => some { s with serialized := s.node.state :: s.serialized }
  | .write saved =>
      if saved ∈ s.serialized then
        some { s with
          node := { s.node with disk := saved }, serialized := s.serialized.erase saved }
      else none
  | .submit entries =>
      let log := (s.node.logArray.batchAppend cfg.logConfig entries).1
      some { s with node := { s.node with logArray := log } }
  | .startApply =>
      if s.work = none then
        let state := s.node.state
        if state.commitIndex ≤ state.lastApplied then some s
        else some { s with work := some (.apply state.lastApplied state.commitIndex false) }
      else none
  | .startCommit =>
      if s.work = none then
        let lastLogIndex := s.node.logArray.getLastIndex
        if lastLogIndex ≤ s.node.state.commitIndex then some s
        else some { s with
          node := s.node.setCommitIndex lastLogIndex
          work := some (.commit s.node.state.lastApplied lastLogIndex) }
      else none
  | .advance => s.work.map s.advance
  | .restore lastIncludedIndex content =>
      some { s with
        store := content
        replacing := .restored lastIncludedIndex content :: s.replacing }
  | .clear empty found => some (s.clear empty found)
  | .replace r => if s.work = none ∧ r ∈ s.replacing then some (s.replace r) else none
  | .restart kept found => some (s.restart kept found)
  | .sanitize =>
      if s.starting then some { s with node := s.node.sanitizeCommitIndex, starting := false }
      else none

/-- A run. -/
def run (s : Applier) : List Event → Option Applier
  | [] => some s
  | ev :: rest => (step cfg s ev).bind fun s' => run s' rest

end Applier

end Appliers

section Frames

/-- The log and the progress of a node are as they were. -/
structure SameProgress (n n' : Node) : Prop where
  logArray : n'.logArray = n.logArray
  lastApplied : n'.state.lastApplied = n.state.lastApplied
  commitIndex : n'.state.commitIndex = n.state.commitIndex

theorem SameProgress.handleRequestVote (n : Node) (msg : Node.RequestVote) (peer : Address) :
    SameProgress n (n.handleRequestVote msg peer).1 := by
  rw [Node.handleRequestVote]
  split
  · exact ⟨rfl, rfl, rfl⟩
  · simp only
    split
    · split <;> exact ⟨rfl, rfl, rfl⟩
    · split <;> exact ⟨rfl, rfl, rfl⟩

theorem SameProgress.handleRequestVoteResponse (n : Node) (term : Nat) (voteGranted : Bool) :
    SameProgress n (n.handleRequestVoteResponse term voteGranted) := by
  rw [Node.handleRequestVoteResponse]
  split
  · exact ⟨rfl, rfl, rfl⟩
  · split
    · exact ⟨rfl, rfl, rfl⟩
    · split
      · exact ⟨rfl, rfl, rfl⟩
      · split
        · simp only
          split <;> exact ⟨rfl, rfl, rfl⟩
        · exact ⟨rfl, rfl, rfl⟩

theorem SameProgress.sendAppendEntries (cfg : RaftNodeConfig) (n : Node) (conn : Conn) :
    SameProgress n (n.sendAppendEntries cfg conn).1 := by
  rw [Node.sendAppendEntries]
  split <;> exact ⟨rfl, rfl, rfl⟩

theorem SameProgress.handleAppendEntriesResponse (n : Node) (conn : Conn) (success : Bool)
    (logIndex : Nat) : SameProgress n (n.handleAppendEntriesResponse conn success logIndex) := by
  rw [Node.handleAppendEntriesResponse]
  split <;> exact ⟨rfl, rfl, rfl⟩

theorem SameProgress.handleJoinCluster (cfg : RaftNodeConfig) (n : Node) (addr : Address)
    (conn : Conn) (lastIndex : Nat) :
    SameProgress n (n.handleJoinCluster cfg addr conn lastIndex).1 := by
  rw [Node.handleJoinCluster]
  split
  · exact ⟨rfl, rfl, rfl⟩
  · split <;> exact ⟨rfl, rfl, rfl⟩

theorem SameProgress.setMember (n : Node) (self node : Address) (isMember : Bool) :
    SameProgress n (n.setMember self node isMember) := by
  rw [Node.setMember]
  split
  · split <;> exact ⟨rfl, rfl, rfl⟩
  · exact ⟨rfl, rfl, rfl⟩

theorem SameProgress.removeNode (n : Node) (node : Address) :
    SameProgress n (n.removeNode node) := by
  rw [Node.removeNode]
  split <;> exact ⟨rfl, rfl, rfl⟩

theorem SameProgress.storeNewMaster (n : Node) (leader : Address) (term : Nat) (newer : Bool) :
    SameProgress n (n.storeNewMaster leader term newer) := by
  rw [Node.storeNewMaster]
  cases newer <;> exact ⟨rfl, rfl, rfl⟩

theorem advanceCommit_spec (n : Node) :
    n.advanceCommit.logArray = n.logArray ∧
      n.advanceCommit.state.lastApplied = n.state.lastApplied ∧
      n.state.commitIndex ≤ n.advanceCommit.state.commitIndex := by
  rw [Node.advanceCommit]
  split
  · next h => exact ⟨rfl, rfl, Nat.le_of_lt h.1⟩
  · exact ⟨rfl, rfl, Nat.le_refl _⟩

theorem follow_spec (n : Node) (j : Joining) :
    (n.follow j).logArray = n.logArray ∧ (n.follow j).state.lastApplied = n.state.lastApplied ∧
      (n.follow j).state.commitIndex = j.commitIndex := by
  rw [Node.follow]
  simp only
  split <;> exact ⟨rfl, rfl, rfl⟩

theorem handleAppendEntries_progress (cfg : RaftNodeConfig) (n : Node) (origin : Conn)
    (msg : Node.AppendEntries) :
    (n.handleAppendEntries cfg origin msg).state.lastApplied = n.state.lastApplied ∧
      n.state.commitIndex ≤ (n.handleAppendEntries cfg origin msg).state.commitIndex ∧
      ((n.handleAppendEntries cfg origin msg).logArray = n.logArray ∨
        (n.handleAppendEntries cfg origin msg).logArray =
          (Node.appendLoop cfg n.logArray 0 msg.entries).log) := by
  rcases @handleAppendEntries_cases cfg n origin msg with
    ⟨-, h⟩ | ⟨-, -, h⟩ | ⟨-, -, -, h⟩ | ⟨-, -, -, h⟩
  · rw [h]
    exact ⟨rfl, Nat.le_refl _, Or.inl rfl⟩
  · rw [h]
    exact ⟨rfl, Nat.le_refl _, Or.inl rfl⟩
  · rw [h]
    exact ⟨rfl, Nat.le_refl _, Or.inr rfl⟩
  · rw [h]
    exact ⟨rfl, Nat.le_max_left _ _, Or.inr rfl⟩

/-- What a handler does to the progress of a node: a message of log replication changes the
log and raises the commit index, the leader's commit raises it, and `become_follower` sets
it. The others leave both. -/
theorem handle_cases (cfg : RaftNodeConfig) (n : Node) (h : Handler) :
    (∃ origin msg, h = .appendEntries origin msg) ∨ (h = .advanceCommit) ∨
      (∃ j, h = .follow j) ∨ SameProgress n (n.handle cfg h) := by
  have same {h} (hn : SameProgress n (n.handle cfg h)) :
      (∃ origin msg, h = .appendEntries origin msg) ∨ (h = .advanceCommit) ∨
        (∃ j, h = .follow j) ∨ SameProgress n (n.handle cfg h) := Or.inr (Or.inr (Or.inr hn))
  cases h with
  | electionTimeout => exact same ⟨rfl, rfl, rfl⟩
  | becomeCandidate self =>
      apply same
      rw [Node.handle, Node.becomeCandidate, Node.toCandidate]
      split <;> exact ⟨rfl, rfl, rfl⟩
  | sendRequestVote => exact same ⟨rfl, rfl, rfl⟩
  | requestVote msg peer => exact same (.handleRequestVote n msg peer)
  | voteReply term voteGranted => exact same (.handleRequestVoteResponse n term voteGranted)
  | sendAppendEntries conn => exact same (.sendAppendEntries cfg n conn)
  | appendEntries origin msg => exact Or.inl ⟨origin, msg, rfl⟩
  | appendReply conn success logIndex =>
      exact same (.handleAppendEntriesResponse n conn success logIndex)
  | advanceCommit => exact Or.inr (Or.inl rfl)
  | forgetLeader => exact same ⟨rfl, rfl, rfl⟩
  | joinRequest addr conn lastIndex => exact same (.handleJoinCluster cfg n addr conn lastIndex)
  | admitNode addr conn => exact same ⟨rfl, rfl, rfl⟩
  | connect j => exact same ⟨rfl, rfl, rfl⟩
  | follow j => exact Or.inr (Or.inr (Or.inl ⟨j, rfl⟩))
  | joinResponse self term clusterNodes => exact same ⟨rfl, rfl, rfl⟩
  | becomeLeader => exact same ⟨rfl, rfl, rfl⟩
  | setMember self node isMember => exact same (.setMember n self node isMember)
  | removeNode node => exact same (.removeNode n node)
  | closeSocket conn => exact same ⟨rfl, rfl, rfl⟩
  | newMaster leader term newer => exact same (.storeNewMaster n leader term newer)

end Frames

section Prefixes

variable {cfg : RaftNodeConfig} {k : Nat} {log log' log'' : RaftLogArray}

/-- The first `k` entries of a log stay, and what was truncated from the front stays away. -/
structure KeepsFirst (k : Nat) (log log' : RaftLogArray) : Prop where
  aligned : log'.Aligned
  base : log.baseIndex ≤ log'.baseIndex
  take : log'.full.take k = log.full.take k
  length : k ≤ log'.full.length

theorem KeepsFirst.of_eq (hlog : log' = log) (hal : log.Aligned) (hk : k ≤ log.full.length) :
    KeepsFirst k log log' := by
  rw [hlog]
  exact ⟨hal, Nat.le_refl _, rfl, hk⟩

theorem KeepsFirst.trans (h : KeepsFirst k log log') (h' : KeepsFirst k log' log'') :
    KeepsFirst k log log'' :=
  ⟨h'.aligned, h.base.trans h'.base, h'.take.trans h.take, h'.length⟩

/-- An entry among the first `k` that is in memory was there before. -/
theorem KeepsFirst.get (h : KeepsFirst k log log') (hal : log.Aligned) {index : Nat}
    {e : LogEntry} (hindex : index ≤ k) (hget : log'.get index = some e) :
    log.get index = some e := by
  obtain ⟨hbase, -, he⟩ := h.aligned.get_some hget
  have hpos := log'.base_pos
  have hlt : index - 1 < k := by omega
  rw [hal.get (h.base.trans hbase), ← List.getElem?_take_of_lt hlt, ← h.take,
    List.getElem?_take_of_lt hlt, he]

theorem baseIndex_batchAppend (log : RaftLogArray) (entries : List LogEntry) :
    log.baseIndex ≤ (log.batchAppend cfg.logConfig entries).1.baseIndex := by
  rw [RaftLogArray.batchAppend]
  split
  · exact Nat.le_refl _
  · simp only
    split
    · split
      · next htrunc =>
          rw [RaftLogArray.truncateBefore] at htrunc
          split at htrunc
          · cases htrunc
          · split at htrunc
            · obtain rfl := Option.some.inj htrunc
              exact Nat.le_refl _
            · obtain rfl := Option.some.inj htrunc
              exact Nat.le_add_right _ _
      · exact Nat.le_refl _
    · exact Nat.le_refl _

theorem KeepsFirst.batchAppend (hal : log.Aligned) (hk : k ≤ log.full.length)
    (entries : List LogEntry) :
    KeepsFirst k log (log.batchAppend cfg.logConfig entries).1 := by
  obtain ⟨hal', hfull⟩ := @RaftLogArray.batchAppend_spec cfg.logConfig log hal entries
  refine ⟨hal', baseIndex_batchAppend log entries, ?_, ?_⟩
  · rw [hfull, RaftLogArray.full_extend, List.take_append_of_le_length hk]
  · rw [hfull, RaftLogArray.full_extend, List.length_append]
    exact hk.trans (Nat.le_add_right _ _)

theorem KeepsFirst.truncateFrom (hal : log.Aligned) {index : Nat} {e : LogEntry}
    (hindex : k < index) (hget : log.get index = some e)
    (htrunc : log.truncateFrom cfg.logConfig index = some log') : KeepsFirst k log log' := by
  obtain ⟨hbase, hlen, -⟩ := hal.get_some hget
  obtain ⟨hal', hfull⟩ := truncateFrom_full hal hbase hlen htrunc
  refine ⟨hal', ?_, ?_, ?_⟩
  · rw [RaftLogArray.truncateFrom] at htrunc
    split at htrunc
    · obtain rfl := Option.some.inj htrunc
      exact Nat.le_refl _
    · split at htrunc
      · obtain rfl := Option.some.inj htrunc
        exact Nat.le_refl _
      · cases htrunc
  · rw [hfull, List.take_take, Nat.min_eq_left (by omega)]
  · rw [hfull, List.length_take]
    omega

/-- No entry of a message contradicts one of the first `k` entries of the log. -/
def Agrees (k : Nat) (log : RaftLogArray) (entries : List LogEntry) : Prop :=
  ∀ e ∈ entries, e.index ≤ k → ∀ existing, log.get e.index = some existing →
    existing.term = e.term

theorem Agrees.keeps {entries : List LogEntry} (h : Agrees k log entries) (hal : log.Aligned)
    (hkeeps : KeepsFirst k log log') : Agrees k log' entries :=
  fun e he hindex existing hget => h e he hindex existing (hkeeps.get hal hindex hget)

/-- The loop of `handle_append_entries` keeps what no entry contradicts. -/
theorem KeepsFirst.appendLoop (entries : List LogEntry) :
    ∀ (log : RaftLogArray) (count : Nat), log.Aligned → k ≤ log.full.length →
      Agrees k log entries → KeepsFirst k log (Node.appendLoop cfg log count entries).log := by
  induction entries with
  | nil => exact fun log _ hal hk _ => .of_eq rfl hal hk
  | cons e rest ih =>
      intro log count hal hk hagrees
      have hrest : Agrees k log rest := fun e' he' => hagrees e' (List.mem_cons_of_mem _ he')
      -- what the loop does after a log that keeps the entries
      have append {log₁ : RaftLogArray} (h : KeepsFirst k log log₁) :
          KeepsFirst k log
            (Node.afterAppend cfg count rest (log₁.batchAppend cfg.logConfig [e])).log := by
        have hone := h.trans (@KeepsFirst.batchAppend cfg _ _ h.aligned h.length [e])
        unfold Node.afterAppend
        split
        · next log₂ heq =>
            rw [heq] at hone
            exact hone.trans (ih log₂ (count + 1) hone.aligned hone.length (hrest.keeps hal hone))
        · next log₂ heq =>
            rw [heq] at hone
            exact hone
      rw [Node.appendLoop_cons]
      cases hget : log.get e.index with
      | none => exact append (.of_eq rfl hal hk)
      | some existing =>
          simp only
          split
          · exact ih log count hal hk hrest
          · next hterm =>
              have hindex : k < e.index := by
                by_contra hle
                exact hterm (hagrees e List.mem_cons_self (by omega) existing hget)
              split
              · next log₁ htrunc => exact append (.truncateFrom hal hindex hget htrunc)
              · exact .of_eq rfl hal hk

end Prefixes

section Invariant

/-- The work agrees with the persistent state in memory. -/
def Work.Within (state : PersistentState) : Work → Prop
  | .apply lastApplied commitIndex marked =>
      state.lastApplied = lastApplied ∧ lastApplied ≤ commitIndex ∧
        commitIndex ≤ state.commitIndex ∧ (marked = true → 1 ≤ lastApplied)
  | .commit lastApplied lastLogIndex =>
      state.lastApplied ≤ lastApplied ∧ lastApplied ≤ lastLogIndex ∧
        lastLogIndex ≤ state.commitIndex
  | .install lastIncludedIndex content =>
      state.lastApplied = lastIncludedIndex ∧ content.length = lastIncludedIndex

namespace Applier

variable (s : Applier)

/-- The last index whose entry has been executed, as far as the node knows. -/
def progress : Nat :=
  match s.work with
  | none => s.node.state.lastApplied
  | some (.apply lastApplied _ marked) => if marked then lastApplied - 1 else lastApplied
  | some (.commit lastApplied _) => lastApplied
  | some (.install lastIncludedIndex _) => lastIncludedIndex

/-- The entries that the indices of the node stand for. -/
def source : List LogEntry :=
  match s.work with
  | some (.install _ content) => content
  | _ => s.node.logArray.full

/-- What the storage holds: the first entries, unless it is being replaced. -/
def Stored : Prop :=
  match s.replacing with
  | [] => s.store = s.source.take s.progress ∧ s.progress ≤ s.source.length
  | [.restored lastIncludedIndex content] =>
      s.store = content ∧ content.length = lastIncludedIndex ∧ s.progress ≤ lastIncludedIndex
  | [.cleared] => s.store = []
  | _ => False

/-- The invariant. -/
structure Inv : Prop where
  aligned : s.node.logArray.Aligned
  commit : s.node.state.lastApplied ≤ s.node.state.commitIndex
  within : ∀ w, s.work = some w → w.Within s.node.state
  ordered : s.executed.Pairwise (· < ·)
  bounded : ∀ i ∈ s.executed, i ≤ s.progress
  complete : ∀ i, 1 ≤ i → i ≤ s.progress → i ∈ s.executed ∨ i ≤ s.covered
  stored : s.Stored

/-- The index that the next piece of the work marks or executes. -/
def nextIndex : Option Nat :=
  match s.work with
  | some (.apply lastApplied commitIndex marked) =>
      if marked then some lastApplied
      else if lastApplied < commitIndex then some (lastApplied + 1) else none
  | some (.commit lastApplied lastLogIndex) =>
      if lastApplied < lastLogIndex then some (lastApplied + 1) else none
  | _ => none

/-- The index at which the work ends. -/
def lastIndex : Nat :=
  match s.work with
  | some (.apply _ commitIndex _) => commitIndex
  | some (.commit _ lastLogIndex) => lastLogIndex
  | _ => s.node.state.lastApplied

/-- The work is that of a snapshot whose log is not there yet. -/
def Installing : Prop := ∃ index content, s.work = some (.install index content)

/-- **The condition on a step.** -/
def Meets : Event → Prop
  -- a leader's entries do not contradict an executed one
  | .handle (.appendEntries _ msg) => Agrees s.store.length s.node.logArray msg.entries
  -- `become_follower` gets a commit index that is not below what is applied
  | .handle (.follow j) => s.node.state.lastApplied ≤ j.commitIndex
  -- the log holds the entry to be executed, and the storage is not being replaced
  | .advance => ∀ i, s.nextIndex = some i → s.replacing = [] ∧ (s.node.logArray.get i).isSome
  -- a snapshot holds every entry that it stands for, and not fewer than the storage
  | .restore lastIncludedIndex content => s.replacing = [] ∧
      content.length = lastIncludedIndex ∧ s.store.length ≤ lastIncludedIndex
  | .clear empty found => s.replacing = [] ∧ (empty = true → s.node.logArray.Recovers found)
  -- everything that was executed is in the storage and has been counted, and what is found of
  -- the log is its beginning and reaches as far
  | .restart kept found => s.replacing = [] ∧ ¬ s.Installing ∧ s.store.length ≤ kept ∧
      s.saved.lastApplied = s.store.length ∧ s.saved.lastApplied ≤ s.saved.commitIndex ∧
      s.node.logArray.Recovers found ∧ s.saved.lastApplied ≤ found.getLastIndex
  | .sanitize => s.lastIndex ≤ s.node.logArray.getLastIndex
  | _ => True

/-- Every step of a run meets the condition. -/
def RunMeets (cfg : RaftNodeConfig) : List Event → Applier → Prop
  | [], _ => True
  | ev :: rest, s => s.Meets ev ∧ ∀ s', s.step cfg ev = some s' → RunMeets cfg rest s'

end Applier

end Invariant

section Steps

namespace Applier

variable {cfg : RaftNodeConfig} {s s' : Applier}

theorem Inv.new : Inv {} where
  aligned := rfl
  commit := Nat.le_refl _
  within := fun _ h => by cases h
  ordered := .nil
  bounded := fun _ h => by cases h
  complete := fun i hpos hle => absurd (hpos.trans hle) (Nat.not_succ_le_zero 0)
  stored := ⟨rfl, Nat.le_refl _⟩

theorem stored_nil (hreplacing : s.replacing = []) :
    s.Stored ↔ s.store = s.source.take s.progress ∧ s.progress ≤ s.source.length := by
  rw [Stored, hreplacing]

/-- The storage holds as many entries as have been executed. -/
theorem Inv.length_store (h : s.Inv) (hreplacing : s.replacing = []) :
    s.store.length = s.progress := by
  obtain ⟨hstore, hreach⟩ := (stored_nil hreplacing).1 h.stored
  rw [hstore, List.length_take_of_le hreach]

theorem source_eq (h : ¬ s.Installing) : s.source = s.node.logArray.full := by
  rw [source]
  split
  · next index content hwork => exact absurd ⟨index, content, hwork⟩ h
  · rfl

/-- A step that executes nothing and leaves the storage keeps the invariant, if the log keeps
the entries that have been executed. -/
theorem Inv.carry (h : s.Inv) (hstore : s'.store = s.store) (hexecuted : s'.executed = s.executed)
    (hcovered : s'.covered = s.covered) (hreplacing : s'.replacing = s.replacing)
    (hprogress : s'.progress = s.progress) (hal : s'.node.logArray.Aligned)
    (hcommit : s'.node.state.lastApplied ≤ s'.node.state.commitIndex)
    (hwithin : ∀ w, s'.work = some w → w.Within s'.node.state)
    (hsource : s.replacing = [] → s'.source.take s.progress = s.source.take s.progress ∧
      s.progress ≤ s'.source.length) : s'.Inv := by
  refine ⟨hal, hcommit, hwithin, ?_, ?_, ?_, ?_⟩
  · rw [hexecuted]
    exact h.ordered
  · rw [hexecuted, hprogress]
    exact h.bounded
  · rw [hexecuted, hcovered, hprogress]
    exact h.complete
  · have hstored := h.stored
    rw [Stored, hreplacing, hprogress, hstore]
    rw [Stored] at hstored
    split
    · next hnil =>
        rw [hnil] at hstored
        rw [(hsource hnil).1]
        exact ⟨hstored.1, (hsource hnil).2⟩
    · next index content hone =>
        rw [hone] at hstored
        exact hstored
    · next hone =>
        rw [hone] at hstored
        exact hstored
    · next h₀ h₁ h₂ =>
        split at hstored
        · next hnil => exact absurd hnil h₀
        · next index content hone => exact absurd hone (h₁ index content)
        · next hone => exact absurd hone h₂
        · exact hstored

/-- A change of the node alone. -/
theorem Inv.setNode (h : s.Inv) {n : Node}
    (hlast : n.state.lastApplied = s.node.state.lastApplied)
    (hcommit : n.state.lastApplied ≤ n.state.commitIndex)
    (hwithin : ∀ w, s.work = some w → w.Within n.state) (hal : n.logArray.Aligned)
    (hlog : s.replacing = [] → s.progress ≤ s.node.logArray.full.length →
      KeepsFirst s.progress s.node.logArray n.logArray) :
    Inv { s with node := n } := by
  refine h.carry rfl rfl rfl rfl ?_ hal hcommit hwithin ?_
  · cases hwork : s.work with
    | none => simp only [progress, hwork, hlast]
    | some w => cases w <;> simp only [progress, hwork]
  · intro hnil
    have hreach := ((stored_nil hnil).1 h.stored).2
    by_cases hinstall : s.Installing
    · obtain ⟨index, content, hwork⟩ := hinstall
      have hsame : source { s with node := n } = s.source := by simp only [source, hwork]
      rw [hsame]
      exact ⟨rfl, hreach⟩
    · have hfull' : source { s with node := n } = n.logArray.full := source_eq hinstall
      rw [source_eq hinstall] at hreach
      have hkeeps := hlog hnil hreach
      rw [source_eq hinstall, hfull']
      exact ⟨hkeeps.take, hkeeps.length⟩

theorem Inv.handle (h : s.Inv) (hd : Handler) (hwork : s.work = none)
    (hmeets : s.Meets (.handle hd)) : Inv { s with node := s.node.handle cfg hd } := by
  have hwithin {n : Node} : ∀ w, s.work = some w → w.Within n.state := by
    intro w hw
    rw [hwork] at hw
    cases hw
  rcases handle_cases cfg s.node hd with ⟨origin, msg, rfl⟩ | rfl | ⟨j, rfl⟩ | hsame
  · have hagrees : Agrees s.store.length s.node.logArray msg.entries := hmeets
    obtain ⟨hlast, hcommit, hlog⟩ := handleAppendEntries_progress cfg s.node origin msg
    have keeps {k : Nat} (hk : k ≤ s.node.logArray.full.length)
        (hagrees : Agrees k s.node.logArray msg.entries) : KeepsFirst k s.node.logArray
          (s.node.handleAppendEntries cfg origin msg).logArray := by
      rcases hlog with hlog | hlog
      · exact .of_eq hlog h.aligned hk
      · rw [hlog]
        exact .appendLoop _ _ _ h.aligned hk hagrees
    refine h.setNode hlast (hlast.le.trans (h.commit.trans hcommit)) hwithin ?_ ?_
    · refine (keeps (Nat.zero_le _) fun e _ hindex existing hget => ?_).aligned
      -- the array has no entry at index 0
      have hbase := (h.aligned.get_some hget).1
      have hpos := s.node.logArray.base_pos
      omega
    · intro hnil hk
      rw [h.length_store hnil] at hagrees
      exact keeps hk hagrees
  · obtain ⟨hlog, hlast, hcommit⟩ := advanceCommit_spec s.node
    refine h.setNode hlast (hlast.le.trans (h.commit.trans hcommit)) hwithin ?_ ?_
    · exact hlog ▸ h.aligned
    · exact fun _ hk => .of_eq hlog h.aligned hk
  · obtain ⟨hlog, hlast, hcommit⟩ := follow_spec s.node j
    refine h.setNode hlast (hlast.le.trans ?_) hwithin ?_ ?_
    · exact (show s.node.state.lastApplied ≤ j.commitIndex from hmeets).trans hcommit.ge
    · exact hlog ▸ h.aligned
    · exact fun _ hk => .of_eq hlog h.aligned hk
  · refine h.setNode hsame.lastApplied ?_ hwithin ?_ ?_
    · rw [hsame.lastApplied, hsame.commitIndex]
      exact h.commit
    · rw [hsame.logArray]
      exact h.aligned
    · exact fun _ hk => .of_eq hsame.logArray h.aligned hk

theorem execute_eq (s : Applier) {index : Nat} {e : LogEntry}
    (hget : s.node.logArray.get index = some e) : s.execute index =
      { s with store := s.store ++ [e], executed := s.executed ++ [index] } := by
  rw [execute, hget]

/-- A step that executes the next entry keeps the invariant. -/
theorem Inv.extend (h : s.Inv) {e : LogEntry} (hinstall : ¬ s.Installing)
    (hreplacing : s.replacing = []) (hget : s.node.logArray.get (s.progress + 1) = some e)
    (hnode : s'.node = s.node) (hstore : s'.store = s.store ++ [e])
    (hexecuted : s'.executed = s.executed ++ [s.progress + 1]) (hcovered : s'.covered = s.covered)
    (hreplacing' : s'.replacing = []) (hprogress : s'.progress = s.progress + 1)
    (hinstall' : ¬ s'.Installing) (hwithin : ∀ w, s'.work = some w → w.Within s.node.state) :
    s'.Inv := by
  obtain ⟨-, hlen, he⟩ := h.aligned.get_some hget
  rw [Nat.add_sub_cancel] at he
  have hstored := (stored_nil hreplacing).1 h.stored
  rw [source_eq hinstall] at hstored
  refine ⟨hnode ▸ h.aligned, hnode ▸ h.commit, hnode ▸ hwithin, ?_, ?_, ?_, ?_⟩
  · rw [hexecuted]
    refine List.pairwise_append.2 ⟨h.ordered, List.pairwise_singleton _ _, ?_⟩
    intro i hi j hj
    rw [List.mem_singleton.1 hj]
    exact Nat.lt_succ_of_le (h.bounded i hi)
  · intro i hi
    rw [hexecuted] at hi
    rw [hprogress]
    rcases List.mem_append.1 hi with hi | hi
    · exact Nat.le_succ_of_le (h.bounded i hi)
    · exact (List.mem_singleton.1 hi).le
  · intro i hpos hle
    rw [hexecuted, hcovered]
    rw [hprogress] at hle
    rcases Nat.le_succ_iff.1 hle with hle | rfl
    · exact (h.complete i hpos hle).imp_left (List.mem_append_left _)
    · exact Or.inl (List.mem_append_right _ List.mem_cons_self)
  · rw [stored_nil hreplacing', source_eq hinstall', hprogress, hnode]
    refine ⟨?_, hlen⟩
    rw [hstore, hstored.1, List.take_add_one, he, Option.toList_some]

theorem not_installing {w : Work} (hwork : s.work = some w)
    (hw : ∀ index content, w ≠ .install index content) : ¬ s.Installing := by
  rintro ⟨index, content, hinstall⟩
  rw [hwork] at hinstall
  exact hw index content (Option.some.inj hinstall)

theorem not_installing_none (hwork : s.work = none) : ¬ s.Installing := by
  rintro ⟨index, content, hinstall⟩
  rw [hwork] at hinstall
  cases hinstall

/-- A step of the work that executes nothing, on the log as it is. -/
theorem Inv.resume (h : s.Inv) {n : Node} {work : Option Work} (hlog : n.logArray = s.node.logArray)
    (hinstall : ¬ s.Installing) (hinstall' : ¬ Installing { s with node := n, work := work })
    (hprogress : progress { s with node := n, work := work } = s.progress)
    (hcommit : n.state.lastApplied ≤ n.state.commitIndex)
    (hwithin : ∀ w, work = some w → w.Within n.state) :
    Inv { s with node := n, work := work } := by
  refine h.carry rfl rfl rfl rfl hprogress ?_ hcommit hwithin ?_
  · exact hlog ▸ h.aligned
  · intro hnil
    have hreach := ((stored_nil hnil).1 h.stored).2
    have hsource : source { s with node := n, work := work } = s.source := by
      rw [source_eq hinstall', source_eq hinstall]
      exact congrArg RaftLogArray.full hlog
    rw [hsource]
    exact ⟨rfl, hreach⟩

theorem Inv.advanceApply (h : s.Inv) {l c : Nat} {marked : Bool}
    (hwork : s.work = some (.apply l c marked)) (hmeets : s.Meets .advance) :
    (s.advance (.apply l c marked)).Inv := by
  have hinstall : ¬ s.Installing := not_installing hwork fun _ _ => Work.noConfusion
  obtain ⟨hlast, hle, hcommit, hmarked⟩ := h.within _ hwork
  cases marked with
  | true =>
      have hpos : 1 ≤ l := hmarked rfl
      have hprogress : s.progress + 1 = l := by
        simp only [progress, hwork, ↓reduceIte]
        omega
      obtain ⟨hnil, hsome⟩ := hmeets l (by simp only [nextIndex, hwork, ↓reduceIte])
      obtain ⟨e, hget⟩ := Option.isSome_iff_exists.1 hsome
      rw [advance, execute_eq s hget]
      refine h.extend hinstall hnil (e := e) ?_ rfl rfl ?_ rfl hnil ?_ ?_ ?_
      · rw [hprogress]
        exact hget
      · rw [hprogress]
      · exact hprogress.symm
      · exact not_installing rfl fun _ _ => Work.noConfusion
      · intro w hw
        obtain rfl := Option.some.inj hw
        exact ⟨hlast, hle, hcommit, fun h => by cases h⟩
  | false =>
      have hprogress : s.progress = l := by simp only [progress, hwork, Bool.false_eq_true, if_false]
      rw [advance]
      split
      · next hlt =>
          refine h.resume rfl hinstall ?_ hprogress.symm (hlt.trans_le hcommit) ?_
          · exact not_installing rfl fun _ _ => Work.noConfusion
          · intro w hw
            obtain rfl := Option.some.inj hw
            exact ⟨rfl, hlt, hcommit, fun _ => Nat.le_add_left 1 l⟩
      · refine h.resume rfl hinstall (not_installing_none rfl) ?_ h.commit fun w hw => by cases hw
        exact hlast.trans hprogress.symm

theorem Inv.advanceCommit (h : s.Inv) {l c : Nat} (hwork : s.work = some (.commit l c))
    (hmeets : s.Meets .advance) : (s.advance (.commit l c)).Inv := by
  have hinstall : ¬ s.Installing := not_installing hwork fun _ _ => Work.noConfusion
  obtain ⟨hlast, hle, hcommit⟩ := h.within _ hwork
  have hprogress : s.progress = l := by simp only [progress, hwork]
  rw [advance]
  split
  · next hlt =>
      obtain ⟨hnil, hsome⟩ := hmeets (l + 1) (by simp only [nextIndex, hwork, if_pos hlt])
      obtain ⟨e, hget⟩ := Option.isSome_iff_exists.1 hsome
      rw [execute_eq s hget]
      refine h.extend hinstall hnil (e := e) ?_ rfl rfl ?_ rfl hnil ?_ ?_ ?_
      · rw [hprogress]
        exact hget
      · rw [hprogress]
      · rw [hprogress]
        rfl
      · exact not_installing rfl fun _ _ => Work.noConfusion
      · intro w hw
        obtain rfl := Option.some.inj hw
        exact ⟨Nat.le_succ_of_le hlast, hlt, hcommit⟩
  · next hlt =>
      -- the loop is at its end
      obtain rfl : l = c := by omega
      exact h.resume rfl hinstall (not_installing_none rfl) hprogress.symm hcommit
        fun w hw => by cases hw

theorem Inv.advanceInstall (h : s.Inv) {index : Nat} {content : List LogEntry}
    (hwork : s.work = some (.install index content)) :
    (s.advance (.install index content)).Inv := by
  obtain ⟨hlast, hlen⟩ := h.within _ hwork
  obtain ⟨hal, hfull⟩ := RaftLogArray.aligned_reset (index + 1) (Nat.le_add_left 1 _) content
    (by omega)
  have hprogress : s.progress = index := by simp only [progress, hwork]
  refine h.carry rfl rfl rfl rfl ?_ hal h.commit (fun w hw => by cases hw) ?_
  · exact hlast.trans hprogress.symm
  · intro hnil
    have hreach := ((stored_nil hnil).1 h.stored).2
    have hsource : (s.advance (.install index content)).source = s.source := by
      rw [source_eq (not_installing_none rfl)]
      simp only [source, hwork]
      exact hfull
    rw [hsource]
    exact ⟨rfl, hreach⟩

theorem Inv.advance (h : s.Inv) {w : Work} (hwork : s.work = some w)
    (hmeets : s.Meets .advance) : (s.advance w).Inv := by
  cases w with
  | apply l c marked => exact h.advanceApply hwork hmeets
  | commit l c => exact h.advanceCommit hwork hmeets
  | install index content => exact h.advanceInstall hwork

theorem Inv.startApply (h : s.Inv) (hwork : s.work = none)
    (hlt : ¬ s.node.state.commitIndex ≤ s.node.state.lastApplied) :
    Inv { s with
      work := some (.apply s.node.state.lastApplied s.node.state.commitIndex false) } := by
  refine h.resume rfl (not_installing_none hwork) ?_ ?_ h.commit ?_
  · exact not_installing rfl fun _ _ => Work.noConfusion
  · simp only [progress, hwork, Bool.false_eq_true, if_false]
  · intro w hw
    obtain rfl := Option.some.inj hw
    exact ⟨rfl, by omega, Nat.le_refl _, fun h => by cases h⟩

theorem Inv.startCommit (h : s.Inv) (hwork : s.work = none)
    (hlt : ¬ s.node.logArray.getLastIndex ≤ s.node.state.commitIndex) :
    Inv { s with
      node := s.node.setCommitIndex s.node.logArray.getLastIndex
      work := some (.commit s.node.state.lastApplied s.node.logArray.getLastIndex) } := by
  have hle : s.node.state.lastApplied ≤ s.node.logArray.getLastIndex := by
    have := h.commit
    omega
  refine h.resume rfl (not_installing_none hwork) ?_ ?_ hle ?_
  · exact not_installing rfl fun _ _ => Work.noConfusion
  · simp only [progress, hwork]
  · intro w hw
    obtain rfl := Option.some.inj hw
    exact ⟨Nat.le_refl _, hle, Nat.le_refl _⟩

theorem Inv.restore (h : s.Inv) {index : Nat} {content : List LogEntry}
    (hmeets : s.Meets (.restore index content)) :
    Inv { s with store := content, replacing := .restored index content :: s.replacing } := by
  obtain ⟨hnil, hlen, hle⟩ := hmeets
  rw [h.length_store hnil] at hle
  refine ⟨h.aligned, h.commit, h.within, h.ordered, h.bounded, h.complete, ?_⟩
  rw [hnil]
  exact ⟨rfl, hlen, hle⟩

theorem Inv.clear (h : s.Inv) {empty : Bool} {found : RaftLogArray}
    (hmeets : s.Meets (.clear empty found)) : (s.clear empty found).Inv := by
  obtain ⟨hnil, hfound⟩ := hmeets
  refine ⟨?_, h.commit, h.within, h.ordered, h.bounded, h.complete, ?_⟩
  · cases empty with
    | true => exact (hfound rfl).aligned
    | false => exact rfl
  · rw [Applier.clear, hnil]
    rfl

/-- While the storage is replaced, nothing else replaces it. -/
theorem Inv.replacing_eq (h : s.Inv) {r : Replacement} (hr : r ∈ s.replacing) :
    s.replacing = [r] := by
  have hstored := h.stored
  rw [Stored] at hstored
  split at hstored
  · next hnil =>
      rw [hnil] at hr
      cases hr
  · next hone =>
      rw [hone] at hr
      rw [hone, List.mem_singleton.1 hr]
  · next hone =>
      rw [hone] at hr
      rw [hone, List.mem_singleton.1 hr]
  · exact hstored.elim

theorem Inv.replace (h : s.Inv) {r : Replacement} (hwork : s.work = none)
    (hr : r ∈ s.replacing) : (s.replace r).Inv := by
  have hone := h.replacing_eq hr
  have hnil : s.replacing.erase r = [] := by rw [hone, List.erase_cons_head]
  have hstored := h.stored
  rw [Stored, hone] at hstored
  cases r with
  | restored index content =>
      obtain ⟨hstore, hlen, hprogress⟩ := hstored
      refine ⟨h.aligned, Nat.le_refl _, ?_, h.ordered, ?_, ?_, ?_⟩
      · intro w hw
        obtain rfl := Option.some.inj hw
        exact ⟨rfl, hlen⟩
      · exact fun i hi => (h.bounded i hi).trans hprogress
      · exact fun i _ hi => Or.inr hi
      · refine (stored_nil hnil).2 ⟨?_, hlen.ge⟩
        show s.store = content.take index
        rw [hstore, List.take_of_length_le hlen.le]
  | cleared =>
      have hwork' : (s.replace .cleared).work = none := hwork
      have hprogress : (s.replace .cleared).progress = 0 := by
        rw [progress, hwork']
        rfl
      refine ⟨h.aligned, Nat.le_refl _, ?_, .nil, ?_, ?_, ?_⟩
      · intro w hw
        rw [hwork'] at hw
        cases hw
      · intro i hi
        cases hi
      · intro i hpos hle
        rw [hprogress] at hle
        omega
      · refine (stored_nil hnil).2 ?_
        rw [hprogress, List.take_zero]
        exact ⟨hstored, Nat.zero_le _⟩

/-- What is found of a log begins with the same entries, as far as it reaches. -/
theorem take_of_recovers {log found : RaftLogArray} (h : log.Recovers found) {k : Nat}
    (hk : k ≤ found.getLastIndex) :
    found.full.take k = log.full.take k ∧ k ≤ found.full.length := by
  have hlen := hk.trans h.aligned.getLastIndex_le
  refine ⟨?_, hlen⟩
  rw [List.prefix_iff_eq_take.1 h.isPrefix, List.take_take, Nat.min_eq_left hlen]

theorem Inv.restart (h : s.Inv) {kept : Nat} {found : RaftLogArray}
    (hmeets : s.Meets (.restart kept found)) : (s.restart kept found).Inv := by
  obtain ⟨hnil, hinstall, hkept, hsaved, hcommit, hfound, hlog⟩ := hmeets
  have hprogress : (s.restart kept found).progress = s.progress :=
    hsaved.trans (h.length_store hnil)
  have hstored := (stored_nil hnil).1 h.stored
  rw [source_eq hinstall] at hstored
  rw [hsaved, h.length_store hnil] at hlog
  obtain ⟨htake, hreach⟩ := take_of_recovers hfound hlog
  refine ⟨hfound.aligned, hcommit, fun w hw => (by cases hw), h.ordered, ?_, ?_, ?_⟩
  · rw [hprogress]
    exact h.bounded
  · rw [hprogress]
    exact h.complete
  · refine (stored_nil rfl).2 ?_
    rw [hprogress, source_eq (not_installing_none rfl)]
    refine ⟨?_, hreach⟩
    show s.store.take kept = found.full.take s.progress
    rw [List.take_of_length_le hkept, htake, hstored.1]

theorem Inv.sanitize (h : s.Inv) (hmeets : s.Meets .sanitize) :
    Inv { s with node := s.node.sanitizeCommitIndex, starting := false } := by
  have hlast : s.lastIndex ≤ s.node.logArray.getLastIndex := hmeets
  have hle : s.node.state.lastApplied ≤ s.lastIndex := by
    rw [lastIndex]
    split
    · next hwork =>
        obtain ⟨hlast, hle, -⟩ := h.within _ hwork
        omega
    · next hwork =>
        obtain ⟨hlast, hle, -⟩ := h.within _ hwork
        omega
    · exact Nat.le_refl _
  have hinv : Inv { s with node := s.node.sanitizeCommitIndex } := by
    refine h.setNode rfl (le_min h.commit (hle.trans hlast)) ?_ h.aligned ?_
    · intro w hwork
      have hw := h.within w hwork
      cases w with
      | apply l c marked =>
          rw [lastIndex, hwork] at hlast
          exact ⟨hw.1, hw.2.1, le_min hw.2.2.1 hlast, hw.2.2.2⟩
      | commit l c =>
          rw [lastIndex, hwork] at hlast
          exact ⟨hw.1, hw.2.1, le_min hw.2.2 hlast⟩
      | install index content => exact hw
    · exact fun _ hk => .of_eq rfl h.aligned hk
  exact ⟨hinv.aligned, hinv.commit, hinv.within, hinv.ordered, hinv.bounded, hinv.complete,
    hinv.stored⟩

/-- Every step that meets the condition keeps the invariant. -/
theorem Inv.step {ev : Event} (h : s.Inv) (hmeets : s.Meets ev) (hstep : s.step cfg ev = some s') :
    s'.Inv := by
  cases ev with
  | handle hd =>
      obtain ⟨hwork, hsome⟩ := Option.ite_none_right_eq_some.1 hstep
      obtain rfl := Option.some.inj hsome
      exact h.handle hd hwork hmeets
  | serialize =>
      obtain rfl := Option.some.inj hstep
      exact ⟨h.aligned, h.commit, h.within, h.ordered, h.bounded, h.complete, h.stored⟩
  | write saved =>
      obtain ⟨-, hsome⟩ := Option.ite_none_right_eq_some.1 hstep
      obtain rfl := Option.some.inj hsome
      exact ⟨h.aligned, h.commit, h.within, h.ordered, h.bounded, h.complete, h.stored⟩
  | submit entries =>
      obtain rfl := Option.some.inj hstep
      refine h.setNode rfl h.commit h.within ?_ fun _ hk => .batchAppend h.aligned hk entries
      exact (KeepsFirst.batchAppend h.aligned (Nat.zero_le _) entries).aligned
  | startApply =>
      obtain ⟨hwork, hsome⟩ := Option.ite_none_right_eq_some.1 hstep
      by_cases hle : s.node.state.commitIndex ≤ s.node.state.lastApplied
      · rw [if_pos hle] at hsome
        obtain rfl := Option.some.inj hsome
        exact h
      · rw [if_neg hle] at hsome
        obtain rfl := Option.some.inj hsome
        exact h.startApply hwork hle
  | startCommit =>
      obtain ⟨hwork, hsome⟩ := Option.ite_none_right_eq_some.1 hstep
      by_cases hle : s.node.logArray.getLastIndex ≤ s.node.state.commitIndex
      · rw [if_pos hle] at hsome
        obtain rfl := Option.some.inj hsome
        exact h
      · rw [if_neg hle] at hsome
        obtain rfl := Option.some.inj hsome
        exact h.startCommit hwork hle
  | advance =>
      obtain ⟨w, hwork, rfl⟩ := Option.map_eq_some_iff.1 hstep
      exact h.advance hwork hmeets
  | restore index content =>
      obtain rfl := Option.some.inj hstep
      exact h.restore hmeets
  | clear empty found =>
      obtain rfl := Option.some.inj hstep
      exact h.clear hmeets
  | replace r =>
      obtain ⟨⟨hwork, hr⟩, hsome⟩ := Option.ite_none_right_eq_some.1 hstep
      obtain rfl := Option.some.inj hsome
      exact h.replace hwork hr
  | restart kept found =>
      obtain rfl := Option.some.inj hstep
      exact h.restart hmeets
  | sanitize =>
      obtain ⟨-, hsome⟩ := Option.ite_none_right_eq_some.1 hstep
      obtain rfl := Option.some.inj hsome
      exact h.sanitize hmeets

/-- Every run whose steps meet the condition keeps the invariant. -/
theorem Inv.run (evs : List Event) : ∀ {s s' : Applier}, s.Inv → RunMeets cfg evs s →
    s.run cfg evs = some s' → s'.Inv := by
  induction evs with
  | nil =>
      intro s s' h _ hrun
      exact Option.some.inj hrun ▸ h
  | cons ev rest ih =>
      intro s s' h ⟨hev, hrest⟩ hrun
      obtain ⟨s₁, hstep, hrun⟩ := Option.bind_eq_some_iff.1 hrun
      exact ih (h.step hev hstep) (hrest s₁ hstep) hrun

end Applier

end Steps

section Uninterrupted

namespace Applier

variable {cfg : RaftNodeConfig}

theorem run_cons {s s' : Applier} {ev : Event} (hstep : s.step cfg ev = some s')
    (rest : List Event) : run cfg s (ev :: rest) = run cfg s' rest := by
  rw [run, hstep, Option.bind_some]

/-- The entries that a loop over `count` indices from `start` on executes, with their
indices. -/
def batch (log : RaftLogArray) (start count : Nat) : List (Nat × LogEntry) :=
  (List.range' start count).filterMap fun i => (log.get i).map fun e => (i, e)

theorem batch_succ (log : RaftLogArray) (start count : Nat) :
    batch log start (count + 1) =
      ((log.get start).map fun e => (start, e)).toList ++ batch log (start + 1) count := by
  rw [batch, List.range'_succ, List.filterMap_cons]
  cases log.get start <;> rfl

theorem batch_add_one (log : RaftLogArray) (start count : Nat) :
    batch log start (count + 1) = batch log start 1 ++ batch log (start + 1) count := by
  rw [batch_succ, batch_succ log start 0]
  simp only [batch, List.range'_zero, List.filterMap_nil, List.append_nil]

theorem execute_batch (s : Applier) (index : Nat) : s.execute index =
    { s with
      store := s.store ++ (batch s.node.logArray index 1).map Prod.snd
      executed := s.executed ++ (batch s.node.logArray index 1).map Prod.fst } := by
  rw [batch_succ, execute]
  cases s.node.logArray.get index with
  | none => simp only [batch, List.range'_zero, List.filterMap_nil, Option.map_none,
      Option.toList_none, List.append_nil, List.map_nil]
  | some e => rfl

/-- The loop of `apply_committed_entries_nolock`, when nothing interrupts it. -/
theorem run_apply (count : Nat) : ∀ (s : Applier) (l : Nat), s.node.state.lastApplied = l →
    s.work = some (.apply l (l + count) false) →
    run cfg s (List.replicate (2 * count + 1) .advance) = some { s with
      node := (s.node.setLastApplied (l + count)).savePersistentState
      store := s.store ++ (batch s.node.logArray (l + 1) count).map Prod.snd
      executed := s.executed ++ (batch s.node.logArray (l + 1) count).map Prod.fst
      work := none } := by
  induction count with
  | zero =>
      rintro s l rfl hwork
      have hbatch : batch s.node.logArray (s.node.state.lastApplied + 1) 0 = [] := rfl
      have hdone : s.advance (.apply s.node.state.lastApplied (s.node.state.lastApplied + 0) false)
          = { s with node := s.node.savePersistentState, work := none } := if_neg (by omega)
      rw [List.replicate_succ, run, step, hwork, Option.map_some, hdone, hbatch, List.map_nil,
        List.map_nil, List.append_nil, List.append_nil]
      rfl
  | succ count ih =>
      intro s l hlast hwork
      have hend : l + (count + 1) = l + 1 + count := by omega
      rw [hend] at hwork
      -- the index is stored, and then its entry is executed
      let marked : Applier := { s with
        node := s.node.setLastApplied (l + 1), work := some (.apply (l + 1) (l + 1 + count) true) }
      have hmark : s.advance (.apply l (l + 1 + count) false) = marked := if_pos (by omega)
      have hdone : marked.advance (.apply (l + 1) (l + 1 + count) true) = { marked with
          store := s.store ++ (batch s.node.logArray (l + 1) 1).map Prod.snd
          executed := s.executed ++ (batch s.node.logArray (l + 1) 1).map Prod.fst
          work := some (.apply (l + 1) (l + 1 + count) false) } := by
        rw [advance, execute_batch]
        rfl
      rw [show 2 * (count + 1) + 1 = 2 * count + 1 + 1 + 1 by omega, List.replicate_succ, run, step,
        hwork, Option.map_some, hmark, Option.bind_some, List.replicate_succ, run, step,
        show marked.work = some (.apply (l + 1) (l + 1 + count) true) from rfl, Option.map_some,
        hdone, Option.bind_some, ih _ (l + 1) rfl rfl,
        batch_add_one s.node.logArray (l + 1) count, hend, List.map_append,
        List.map_append, List.append_assoc, List.append_assoc]
      rfl

/-- The loop of `commit_entries`, when nothing interrupts it. -/
theorem run_commit (count : Nat) : ∀ (s : Applier) (l : Nat),
    s.work = some (.commit l (l + count)) →
    run cfg s (List.replicate (count + 1) .advance) = some { s with
      node := (s.node.setLastApplied (l + count)).savePersistentState
      store := s.store ++ (batch s.node.logArray (l + 1) count).map Prod.snd
      executed := s.executed ++ (batch s.node.logArray (l + 1) count).map Prod.fst
      work := none } := by
  induction count with
  | zero =>
      intro s l hwork
      have hbatch : batch s.node.logArray (l + 1) 0 = [] := rfl
      have hdone : s.advance (.commit l (l + 0)) =
          { s with node := (s.node.setLastApplied l).savePersistentState, work := none } :=
        if_neg (by omega)
      rw [List.replicate_succ, run, step, hwork, Option.map_some, hdone, hbatch, List.map_nil,
        List.map_nil, List.append_nil, List.append_nil]
      rfl
  | succ count ih =>
      intro s l hwork
      have hend : l + (count + 1) = l + 1 + count := by omega
      rw [hend] at hwork
      have hone : s.advance (.commit l (l + 1 + count)) = { s with
          store := s.store ++ (batch s.node.logArray (l + 1) 1).map Prod.snd
          executed := s.executed ++ (batch s.node.logArray (l + 1) 1).map Prod.fst
          work := some (.commit (l + 1) (l + 1 + count)) } := by
        rw [advance, if_pos (by omega), execute_batch]
      rw [List.replicate_succ, run, step, hwork, Option.map_some, hone, Option.bind_some,
        ih _ (l + 1) rfl, batch_add_one s.node.logArray (l + 1) count, hend, List.map_append,
        List.map_append,
        List.append_assoc, List.append_assoc]

theorem committedEntries_eq (n : Node) : n.committedEntries =
    (batch n.logArray (n.state.lastApplied + 1) (n.state.commitIndex - n.state.lastApplied)).map
      fun e => (e.1, e.2.cmd) := by
  rw [Node.committedEntries, batch, List.map_filterMap]
  simp only [Option.map_map, Function.comp_def]

/-- `apply_committed_entries` without an interruption is the handler of the cluster model. -/
theorem run_applyCommittedEntries (s : Applier) (hwork : s.work = none)
    (hlt : s.node.state.lastApplied < s.node.state.commitIndex) :
    ∃ events s', run cfg s events = some s' ∧ s'.node = s.node.applyCommittedEntries ∧
      s'.executed = s.executed ++ s.node.committedEntries.map Prod.fst ∧
      s'.store.map LogEntry.cmd =
        s.store.map LogEntry.cmd ++ s.node.committedEntries.map Prod.snd := by
  obtain ⟨count, hcount⟩ := Nat.le.dest hlt.le
  have hstart : step cfg s .startApply = some { s with
      work := some (.apply s.node.state.lastApplied (s.node.state.lastApplied + count) false) } := by
    rw [step, if_pos hwork, if_neg (by omega), hcount]
  have hsub : s.node.state.commitIndex - s.node.state.lastApplied = count := by omega
  refine ⟨_, _, (run_cons hstart _).trans (run_apply count _ _ rfl rfl), ?_, ?_, ?_⟩
  · rw [Node.applyCommittedEntries, if_neg (by omega), ← hcount]
    rfl
  · rw [committedEntries_eq, hsub, List.map_map]
    rfl
  · rw [committedEntries_eq, hsub, List.map_append, List.map_map, List.map_map]
    rfl

/-- `commit_entries` without an interruption is the handler of the cluster model. -/
theorem run_commitEntries (s : Applier) (hwork : s.work = none)
    (happlied : s.node.state.lastApplied ≤ s.node.state.commitIndex)
    (hlt : s.node.state.commitIndex < s.node.logArray.getLastIndex) :
    ∃ events s', run cfg s events = some s' ∧ s'.node = s.node.commitEntries.1 ∧
      s'.executed = s.executed ++ s.node.commitEntries.2.map Prod.fst ∧
      s'.store.map LogEntry.cmd =
        s.store.map LogEntry.cmd ++ s.node.commitEntries.2.map Prod.snd := by
  obtain ⟨count, hcount⟩ := Nat.le.dest (happlied.trans hlt.le)
  have hstart : step cfg s .startCommit = some { s with
      node := s.node.setCommitIndex s.node.logArray.getLastIndex
      work := some (.commit s.node.state.lastApplied (s.node.state.lastApplied + count)) } := by
    rw [step, if_pos hwork, if_neg (by omega), hcount]
  have hcommit : s.node.commitEntries =
      (((s.node.setCommitIndex s.node.logArray.getLastIndex).setLastApplied
        s.node.logArray.getLastIndex).savePersistentState,
        (s.node.setCommitIndex s.node.logArray.getLastIndex).committedEntries) :=
    if_neg (by omega)
  have hentries : (s.node.setCommitIndex s.node.logArray.getLastIndex).committedEntries =
      (batch s.node.logArray (s.node.state.lastApplied + 1) count).map
        fun e => (e.1, e.2.cmd) := by
    have hsub : s.node.logArray.getLastIndex - s.node.state.lastApplied = count := by omega
    rw [committedEntries_eq, ← hsub]
    rfl
  refine ⟨_, _, (run_cons hstart _).trans (run_commit count _ _ rfl), ?_, ?_, ?_⟩
  · rw [hcommit, hcount]
  · rw [hcommit, hentries, List.map_map]
    rfl
  · rw [hcommit, hentries, List.map_append, List.map_map, List.map_map]
    rfl

end Applier

end Uninterrupted

section Results

namespace Applier

variable {cfg : RaftNodeConfig} {s : Applier}

/-- Indices are executed once and in order; what is marked applied has been executed, is about
to be, or came with a snapshot; the commit index is not below it; and outside the loops the
storage holds the effects of exactly the entries up to `last_applied_`. -/
structure Applies (s : Applier) : Prop where
  inOrder : s.executed.Pairwise (· < ·)
  marked : ∀ i, 1 ≤ i → i ≤ s.node.state.lastApplied →
    i ∈ s.executed ∨ i ≤ s.covered ∨ ∃ commitIndex, s.work = some (.apply i commitIndex true)
  committed : s.node.state.lastApplied ≤ s.node.state.commitIndex
  stored : s.work = none → s.replacing = [] →
    s.store = s.node.logArray.full.take s.node.state.lastApplied ∧
      s.store.length = s.node.state.lastApplied

theorem Inv.marked (h : s.Inv) {i : Nat} (hpos : 1 ≤ i) (hle : i ≤ s.node.state.lastApplied) :
    i ∈ s.executed ∨ i ≤ s.covered ∨ ∃ commitIndex, s.work = some (.apply i commitIndex true) := by
  have reached (hi : i ≤ s.progress) : i ∈ s.executed ∨ i ≤ s.covered ∨
      ∃ commitIndex, s.work = some (.apply i commitIndex true) :=
    (h.complete i hpos hi).imp_right Or.inl
  rcases hwork : s.work with _ | w
  · rw [← hwork]
    exact reached (by rwa [progress, hwork])
  · have hwithin := h.within w hwork
    rw [← hwork]
    cases w with
    | apply l c marked =>
        obtain ⟨hlast, -⟩ := hwithin
        cases marked with
        | false =>
            refine reached ?_
            simp only [progress, hwork, Bool.false_eq_true, if_false]
            omega
        | true =>
            -- the last index is marked and not executed yet
            rcases Nat.lt_or_ge i l with hlt | hge
            · refine reached ?_
              simp only [progress, hwork, if_true]
              omega
            · obtain rfl : i = l := by omega
              exact Or.inr (Or.inr ⟨c, hwork⟩)
    | commit l c =>
        refine reached ?_
        simp only [progress, hwork]
        exact hle.trans hwithin.1
    | install index content =>
        refine reached ?_
        simp only [progress, hwork]
        exact hle.trans hwithin.1.le

theorem Inv.applies (h : s.Inv) : s.Applies := by
  refine ⟨h.ordered, fun i => h.marked, h.commit, ?_⟩
  intro hwork hnil
  have hprogress : s.progress = s.node.state.lastApplied := by rw [progress, hwork]
  have hlen := h.length_store hnil
  have hstored := ((stored_nil hnil).1 h.stored).1
  rw [source_eq (not_installing_none hwork), hprogress] at hstored
  exact ⟨hstored, hlen.trans hprogress⟩

/-- **Exactly-once application.** In every run whose steps all meet the condition, each index
is executed at most once and in order, none is marked applied without, the commit index does
not fall below, and outside a loop and after a restart the storage holds exactly the entries
up to `last_applied_`. -/
theorem run_applies (cfg : RaftNodeConfig) {evs : List Event} (hmeets : RunMeets cfg evs {})
    (hrun : run cfg {} evs = some s) :
    s.Applies ∧ ∀ kept found, s.Meets (.restart kept found) →
      (s.restart kept found).store = (s.restart kept found).node.logArray.full.take
        (s.restart kept found).node.state.lastApplied := by
  have h : s.Inv := Inv.run evs Inv.new hmeets hrun
  refine ⟨h.applies, fun kept found hrestart => ?_⟩
  exact ((h.restart hrestart).applies.stored rfl rfl).1

/-- One write on a leader that commits alone. -/
def written : List Event := [.submit [⟨0, 0, [1]⟩], .startCommit, .advance, .advance]

/-- A write is executed once. -/
theorem run_applies_written : ∃ s, run Cluster.plainConfig {} written = some s ∧
    s.executed = [1] ∧ s.Applies := by
  have hmeets : RunMeets Cluster.plainConfig written {} := by
    refine ⟨trivial, ?_⟩
    rintro s₁ hs₁
    obtain rfl := Option.some.inj hs₁
    refine ⟨trivial, ?_⟩
    rintro s₂ hs₂
    obtain rfl := Option.some.inj hs₂
    refine ⟨?_, ?_⟩
    · rintro i hi
      obtain rfl := Option.some.inj hi
      exact ⟨rfl, rfl⟩
    · rintro s₃ hs₃
      obtain rfl := Option.some.inj hs₃
      refine ⟨?_, fun _ _ => trivial⟩
      rintro i hi
      cases hi
  exact ⟨_, rfl, rfl, (run_applies Cluster.plainConfig hmeets rfl).1⟩

/-- A crash after an execution and before `last_applied_` is saved executes the entry again,
though all that the node has written is found, and `become_follower` with its default argument
puts the commit index below what is applied. -/
theorem not_applies_crashed :
    (∃ s, run Cluster.plainConfig {} [.submit [⟨0, 0, [1]⟩], .startCommit, .advance,
        .restart 1 (({} : RaftLogArray).extend [⟨0, 0, [1]⟩]), .sanitize, .startCommit, .advance] =
          some s ∧
      s.executed = [1, 1] ∧ ¬ s.Applies) ∧
    ∃ s, run Cluster.plainConfig {} (written ++ [.handle (.follow ⟨1, ⟨[], 2⟩, 0, 0⟩)]) = some s ∧
      s.node.state.lastApplied = 1 ∧ s.node.state.commitIndex = 0 ∧ ¬ s.Applies := by
  refine ⟨⟨_, rfl, rfl, fun h => ?_⟩, _, rfl, rfl, rfl, fun h => ?_⟩
  · exact absurd h.inOrder (by decide)
  · exact absurd h.committed (by decide)

end Applier

end Results

end EyaKV.Raft
