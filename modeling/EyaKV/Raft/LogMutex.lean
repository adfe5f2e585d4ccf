import EyaKV.Raft.LogDisk

/-!
# The mutex of the log array

What each call of the array does is an equation: the state it returns in, or the state in
which it waits for the mutex that its own thread holds. The two truncations ask for the
last index, `create_snapshot` and the append operations call `truncate_before`, all of
them inside a scope that holds the mutex.
-/

set_option autoImplicit false

namespace EyaKV.Raft.Disk.RaftLogArray

open EyaKV.Store

variable {cfg : Config} {log : RaftLogArray} {α : Type}

section Lock

/-- The thread can take the mutex. -/
def Free (cfg : Config) (log : RaftLogArray) : Prop := log.locked = false ∨ cfg.relock = true

/-- The array while the calling thread holds its mutex. -/
def held (log : RaftLogArray) : RaftLogArray := { log with locked := true }

@[simp] theorem held_locked : log.held.locked = true := rfl
@[simp] theorem held_baseIndex : log.held.baseIndex = log.baseIndex := rfl
@[simp] theorem held_entries : log.held.entries = log.entries := rfl
@[simp] theorem held_held : log.held.held = log.held := rfl

theorem held_restore : { log.held with locked := log.locked } = log := by
  cases log
  rfl

theorem free_held (h : cfg.relock = true) : Free cfg log.held := Or.inr h

theorem withLock_free (h : Free cfg log) (body : RaftLogArray → Reply α) :
    withLock cfg body log =
      (body log.held).andThen fun a log' => .returned a { log' with locked := log.locked } := by
  have hc : (log.locked && !cfg.relock) = false := by
    rcases h with h | h <;> rw [h] <;> simp
  simp only [withLock, hc, Bool.false_eq_true, if_false]
  rfl

theorem withLock_held (h : cfg.relock = false) (body : RaftLogArray → Reply α) :
    withLock cfg body log.held = .blocked log.held := by
  simp only [withLock, held_locked, h, Bool.not_false, Bool.and_self, if_true]

theorem observe_free (h : Free cfg log) (f : RaftLogArray → α) :
    observe cfg f log = .returned (f log.held) log := by
  show withLock cfg _ log = _
  rw [withLock_free h]
  show Reply.returned _ { log.held with locked := log.locked } = _
  rw [held_restore]

theorem observe_held (h : cfg.relock = false) (f : RaftLogArray → α) :
    observe cfg f log.held = .blocked log.held := withLock_held h _

end Lock

section Truncation

/-- The index is that of an entry or the next one. -/
def Covers (log : RaftLogArray) (index : UInt32) : Prop :=
  log.baseIndex ≤ index ∧ index.toNat ≤ log.baseIndex.toNat + log.entries.length

instance (index : UInt32) : Decidable (log.Covers index) := inferInstanceAs (Decidable (_ ∧ _))

theorem covers_iff (log : RaftLogArray) (index : UInt32) :
    log.Covers index ↔
      ¬(index < log.baseIndex ∨ log.baseIndex.toNat + log.entries.length < index.toNat) := by
  rw [not_or, UInt32.not_lt, Nat.not_lt]
  rfl

/-- What `truncate_from` leaves when it returns. -/
def cutFrom (index : UInt32) (log : RaftLogArray) : RaftLogArray :=
  if log.Covers index ∧ index.toNat ≠ log.baseIndex.toNat + log.entries.length then
    log.keepBelow index
  else log

/-- What `truncate_before` leaves when it returns. -/
def cutBefore (index : UInt32) (log : RaftLogArray) : RaftLogArray :=
  if log.Covers index ∧ index ≠ log.baseIndex then log.dropBelow index else log

theorem held_keepBelow (index : UInt32) : log.held.keepBelow index = (log.keepBelow index).held :=
  rfl

theorem held_dropBelow (index : UInt32) : log.held.dropBelow index = (log.dropBelow index).held :=
  rfl

theorem dropBelow_restore (index : UInt32) :
    { (log.dropBelow index).held with locked := log.locked } = log.dropBelow index := by
  cases log
  rfl

theorem keepBelow_restore (index : UInt32) :
    { (log.keepBelow index).held with locked := log.locked } = log.keepBelow index := by
  cases log
  rfl

/-- **`truncate_from`.** Inside the range of the log it asks for the last index. -/
theorem truncateFrom_free (h : Free cfg log) (index : UInt32) :
    truncateFrom cfg index log =
      if log.Covers index then
        if cfg.relock then .returned true (log.cutFrom index) else .blocked log.held
      else .returned false log := by
  show withLock cfg _ log = _
  rw [withLock_free h]
  by_cases hc : log.Covers index
  · rw [if_neg ((covers_iff log.held index).1 hc), if_pos hc]
    cases hr : cfg.relock with
    | false =>
        rw [getLastIndex, observe_held hr]
        rfl
    | true =>
        rw [getLastIndex, observe_free (free_held hr), if_pos rfl]
        by_cases hn : index.toNat = log.baseIndex.toNat + log.entries.length
        · have hcut : log.cutFrom index = log := if_neg (fun hd => hd.2 hn)
          simp only [Reply.andThen]
          rw [hcut,
            if_pos (show index.toNat = log.held.baseIndex.toNat + log.held.entries.length from hn)]
          exact congrArg (Reply.returned true) held_restore
        · have hcut : log.cutFrom index = log.keepBelow index := if_pos ⟨hc, hn⟩
          simp only [Reply.andThen]
          rw [hcut,
            if_neg (show ¬ index.toNat = log.held.baseIndex.toNat + log.held.entries.length from hn),
            held_keepBelow, observe_free (free_held hr)]
          cases cfg.logInfo with
          | false => exact congrArg (Reply.returned true) (keepBelow_restore index)
          | true => exact congrArg (Reply.returned true) (keepBelow_restore index)
  · rw [if_neg hc, if_pos (not_not.1 (fun hd => hc ((covers_iff log.held index).2 hd)))]
    exact congrArg (Reply.returned false) held_restore

/-- **`truncate_before`.** After it has removed entries it asks for the last index, to log
it. -/
theorem truncateBefore_free (h : Free cfg log) (index : UInt32) :
    truncateBefore cfg index log =
      if log.Covers index then
        if index ≠ log.baseIndex ∧ cfg.logInfo = true ∧ cfg.relock = false then
          .blocked (log.dropBelow index).held
        else .returned true (log.cutBefore index)
      else .returned false log := by
  show withLock cfg _ log = _
  rw [withLock_free h]
  by_cases hc : log.Covers index
  · rw [if_neg ((covers_iff log.held index).1 hc), if_pos hc]
    by_cases hb : index = log.baseIndex
    · have hcut : log.cutBefore index = log := if_neg (fun hd => hd.2 hb)
      rw [if_pos (show index = log.held.baseIndex from hb), if_neg (fun hd => hd.1 hb), hcut]
      exact congrArg (Reply.returned true) held_restore
    · have hcut : log.cutBefore index = log.dropBelow index := if_pos ⟨hc, hb⟩
      rw [if_neg (show ¬ index = log.held.baseIndex from hb), hcut, held_dropBelow]
      simp only
      cases hi : cfg.logInfo with
      | false =>
          rw [if_neg Bool.false_ne_true, if_neg (fun hd => Bool.false_ne_true hd.2.1)]
          exact congrArg (Reply.returned true) (dropBelow_restore index)
      | true =>
          rw [if_pos rfl, getLastIndex]
          cases hr : cfg.relock with
          | false =>
              rw [observe_held hr, if_pos ⟨hb, rfl, rfl⟩]
              rfl
          | true =>
              have hn : ¬(index ≠ log.baseIndex ∧ true = true ∧ true = false) :=
                fun hd => Bool.false_ne_true hd.2.2.symm
              rw [observe_free (free_held hr), if_neg hn]
              exact congrArg (Reply.returned true) (dropBelow_restore index)
  · rw [if_neg hc, if_pos (not_not.1 (fun hd => hc ((covers_iff log.held index).2 hd)))]
    exact congrArg (Reply.returned false) held_restore

theorem cutBefore_held (index : UInt32) : log.held.cutBefore index = (log.cutBefore index).held := by
  by_cases hd : log.Covers index ∧ index ≠ log.baseIndex
  · rw [cutBefore, cutBefore, if_pos hd]
    exact if_pos hd
  · rw [cutBefore, cutBefore, if_neg hd]
    exact if_neg hd

theorem cutBefore_locked (log : RaftLogArray) (index : UInt32) :
    (log.cutBefore index).locked = log.locked := by
  rw [cutBefore]
  split <;> rfl

/-- The call of `truncate_before` by a thread that holds the mutex. -/
theorem truncateBefore_held (cfg : Config) (log : RaftLogArray) (index : UInt32) :
    ∃ b, truncateBefore cfg index log.held =
      if cfg.relock then .returned b (log.cutBefore index).held else .blocked log.held := by
  cases hr : cfg.relock with
  | false => exact ⟨true, withLock_held hr _⟩
  | true =>
      simp only [if_true]
      rw [truncateBefore_free (free_held hr), ← cutBefore_held]
      by_cases hc : log.held.Covers index
      · refine ⟨true, ?_⟩
        rw [if_pos hc, if_neg (fun hd => Bool.false_ne_true (hd.2.2.symm.trans hr))]
      · refine ⟨false, ?_⟩
        rw [if_neg hc, cutBefore, if_neg (fun hd => hc hd.1)]

/-- `create_snapshot` finds an entry at its index. -/
def Holds (log : RaftLogArray) (index : UInt32) : Prop :=
  log.baseIndex ≤ index ∧ index.toNat < log.baseIndex.toNat + log.entries.length

instance (index : UInt32) : Decidable (log.Holds index) := inferInstanceAs (Decidable (_ ∧ _))

theorem holds_iff (log : RaftLogArray) (index : UInt32) :
    log.Holds index ↔
      ¬(index < log.baseIndex ∨ log.baseIndex.toNat + log.entries.length ≤ index.toNat) := by
  rw [not_or, UInt32.not_lt, Nat.not_le]
  rfl

/-- **`create_snapshot`.** At the index of an entry it calls `truncate_before`. -/
theorem createSnapshot_free (h : Free cfg log) (index : UInt32) :
    ∃ b, createSnapshot cfg index log =
      if log.Holds index then
        if cfg.relock then .returned b (log.cutBefore (index + 1)) else .blocked log.held
      else .returned false log := by
  obtain ⟨b, hb⟩ := truncateBefore_held cfg log (index + 1)
  refine ⟨b, ?_⟩
  show withLock cfg _ log = _
  rw [withLock_free h]
  by_cases hc : log.Holds index
  · rw [if_pos hc, if_neg ((holds_iff log.held index).1 hc), hb]
    cases cfg.relock with
    | false => rfl
    | true =>
        have hl := cutBefore_locked log (index + 1)
        simp only [Reply.andThen, if_true]
        rw [← hl, held_restore]
  · rw [if_neg hc, if_pos (not_not.1 (fun hd => hc ((holds_iff log.held index).2 hd)))]
    exact congrArg (Reply.returned false) held_restore

end Truncation

section Appending

/-- A log of this size is truncated after an append. -/
def OverThreshold (cfg : Config) (n : Nat) : Prop :=
  cfg.logSizeThreshold < n ∧ 0 < cfg.truncateCount n

instance (n : Nat) : Decidable (OverThreshold cfg n) := inferInstanceAs (Decidable (_ ∧ _))

/-- What the truncation at the end of an append leaves. -/
def shed (cfg : Config) (log : RaftLogArray) : RaftLogArray :=
  if OverThreshold cfg log.entries.length then
    log.cutBefore (log.baseIndex + .ofNat (cfg.truncateCount log.entries.length))
  else log

theorem shed_locked (cfg : Config) (log : RaftLogArray) : (shed cfg log).locked = log.locked := by
  rw [shed]
  split
  · exact cutBefore_locked _ _
  · rfl

/-- **The append operations.** Over the threshold they call `truncate_before`. -/
theorem grow_free (h : Free cfg log) (f : RaftLogArray → RaftLogArray)
    (hheld : f log.held = (f log).held) (hlocked : (f log).locked = log.locked) {n : Nat}
    (hlen : (f log).entries.length = n) :
    withLock cfg (fun log => truncateOverThreshold cfg (f log)) log =
      if OverThreshold cfg n ∧ cfg.relock = false then .blocked (f log).held
      else .returned true (shed cfg (f log)) := by
  subst hlen
  rw [withLock_free h, hheld]
  have hrestore : { (shed cfg (f log)).held with locked := log.locked } = shed cfg (f log) := by
    rw [← hlocked, ← shed_locked cfg (f log), held_restore]
  by_cases ht : OverThreshold cfg (f log).entries.length
  · have hshed : shed cfg (f log) = (f log).cutBefore
        ((f log).baseIndex + .ofNat (cfg.truncateCount (f log).entries.length)) := if_pos ht
    rw [hshed] at hrestore
    obtain ⟨b, hb⟩ := truncateBefore_held cfg (f log)
      ((f log).baseIndex + .ofNat (cfg.truncateCount (f log).entries.length))
    rw [truncateOverThreshold,
      if_pos (show cfg.logSizeThreshold < (f log).held.entries.length from ht.1)]
    simp only
    rw [if_pos (show 0 < cfg.truncateCount (f log).held.entries.length from ht.2),
      held_baseIndex, held_entries, hb]
    -- over the threshold the mutex is taken a second time, which a plain one never grants
    cases hr : cfg.relock with
    | false =>
        have hp : OverThreshold cfg (f log).entries.length ∧ false = false := ⟨ht, rfl⟩
        rw [if_pos hp]
        rfl
    | true =>
        have hn : ¬(OverThreshold cfg (f log).entries.length ∧ true = false) :=
          fun hd => Bool.false_ne_true hd.2.symm
        rw [if_neg hn, hshed]
        exact congrArg (Reply.returned true) hrestore
  · have hshed : shed cfg (f log) = f log := if_neg ht
    rw [hshed] at hrestore
    rw [if_neg (fun hd => ht hd.1), hshed, truncateOverThreshold]
    -- below the threshold, or with nothing to cut: the guards of the source, one after the other
    by_cases hlt : cfg.logSizeThreshold < (f log).entries.length
    · rw [if_pos (show cfg.logSizeThreshold < (f log).held.entries.length from hlt)]
      simp only
      rw [if_neg (show ¬ 0 < cfg.truncateCount (f log).held.entries.length from
        fun hd => ht ⟨hlt, hd⟩)]
      exact congrArg (Reply.returned true) hrestore
    · rw [if_neg (show ¬ cfg.logSizeThreshold < (f log).held.entries.length from hlt)]
      exact congrArg (Reply.returned true) hrestore

end Appending

section Calls

/-- The calls that take the mutex again while they hold it. -/
def Relocks (cfg : Config) (log : RaftLogArray) : Op → Prop
  | .append _ | .appendConst _ => OverThreshold cfg (log.entries.length + 1)
  | .batchAppend entries | .batchAppendConst entries =>
      entries ≠ [] ∧ OverThreshold cfg (log.entries.length + entries.length)
  | .truncateFrom index => log.Covers index
  | .truncateBefore index => log.Covers index ∧ index ≠ log.baseIndex ∧ cfg.logInfo = true
  | .createSnapshot snapshotIndex => log.Holds snapshotIndex
  | .reset _ => False

instance : (op : Op) → Decidable (Relocks cfg log op)
  | .append _ | .appendConst _ => inferInstanceAs (Decidable (OverThreshold _ _))
  | .batchAppend _ | .batchAppendConst _ => inferInstanceAs (Decidable (_ ∧ OverThreshold _ _))
  | .truncateFrom index => inferInstanceAs (Decidable (log.Covers index))
  | .truncateBefore index => inferInstanceAs (Decidable (log.Covers index ∧ _))
  | .createSnapshot snapshotIndex => inferInstanceAs (Decidable (log.Holds snapshotIndex))
  | .reset _ => inferInstanceAs (Decidable False)

/-- What a call has done when it takes the mutex again. -/
def halfway (log : RaftLogArray) : Op → RaftLogArray
  | .append entry => log.appendEntry { entry with index := log.newIndex }
  | .appendConst entry => log.appendEntry entry
  | .batchAppend entries => log.appendEntries (numbered log.newIndex entries)
  | .batchAppendConst entries => log.appendEntries entries
  | .truncateBefore index => log.dropBelow index
  | .truncateFrom _ | .createSnapshot _ | .reset _ => log

/-- What a call leaves when it returns. -/
def effect (cfg : Config) (log : RaftLogArray) : Op → RaftLogArray
  | .append entry => shed cfg (log.halfway (.append entry))
  | .appendConst entry => shed cfg (log.halfway (.appendConst entry))
  | .batchAppend entries =>
      if entries.isEmpty then log else shed cfg (log.halfway (.batchAppend entries))
  | .batchAppendConst entries =>
      if entries.isEmpty then log else shed cfg (log.halfway (.batchAppendConst entries))
  | .truncateFrom index => log.cutFrom index
  | .truncateBefore index => log.cutBefore index
  | .createSnapshot snapshotIndex =>
      if log.Holds snapshotIndex then log.cutBefore (snapshotIndex + 1) else log
  | .reset newStartIndex =>
      { log with
        entries := []
        indexOffsets := []
        baseIndex := newStartIndex
        wal := .create
        indexFile := [] }

theorem appendEntry_length (entry : LogEntry) :
    (log.appendEntry entry).entries.length = log.entries.length + 1 :=
  List.length_append

theorem appendEntries_length (entries : List LogEntry) :
    (log.appendEntries entries).entries.length = log.entries.length + entries.length :=
  List.length_append

theorem numbered_length (startIndex : UInt32) (entries : List LogEntry) :
    (numbered startIndex entries).length = entries.length := by
  induction entries generalizing startIndex with
  | nil => rfl
  | cons e es ih => rw [numbered, List.length_cons, List.length_cons, ih]

/-- **A call.** It waits exactly when it takes the mutex again and may not. -/
theorem call_free (h : Free cfg log) (op : Op) :
    ∃ b, call cfg op log =
      if Relocks cfg log op ∧ cfg.relock = false then .blocked (log.halfway op).held
      else .returned b (log.effect cfg op) := by
  cases op with
  | append entry =>
      exact ⟨true, grow_free h (fun log => log.appendEntry { entry with index := log.newIndex })
        rfl rfl (appendEntry_length _)⟩
  | appendConst entry =>
      exact ⟨true, grow_free h (fun log => log.appendEntry entry) rfl rfl (appendEntry_length _)⟩
  | batchAppend entries =>
      refine ⟨true, ?_⟩
      cases entries with
      | nil => rfl
      | cons e es =>
          have hlen : (log.appendEntries (numbered log.newIndex (e :: es))).entries.length =
              log.entries.length + (e :: es).length := by
            rw [appendEntries_length, numbered_length]
          have hgrow := grow_free h (fun log => log.appendEntries (numbered log.newIndex (e :: es)))
            rfl rfl hlen
          simpa [call, batchAppend, Relocks, halfway, effect] using hgrow
  | batchAppendConst entries =>
      refine ⟨true, ?_⟩
      cases entries with
      | nil => rfl
      | cons e es =>
          have hgrow := grow_free h (fun log => log.appendEntries (e :: es)) rfl rfl
            (appendEntries_length (e :: es))
          simpa [call, batchAppendConst, Relocks, halfway, effect] using hgrow
  | truncateFrom index =>
      refine ⟨decide (log.Covers index), ?_⟩
      show truncateFrom cfg index log = _
      rw [truncateFrom_free h]
      by_cases hc : log.Covers index
      · cases cfg.relock <;> simp [Relocks, halfway, effect, hc]
      · -- an index that the array does not cover returns before the mutex is taken again
        have hcut : log.cutFrom index = log := if_neg (fun hd => hc hd.1)
        simp [Relocks, effect, hc, hcut]
  | truncateBefore index =>
      refine ⟨decide (log.Covers index), ?_⟩
      show truncateBefore cfg index log = _
      rw [truncateBefore_free h]
      by_cases hc : log.Covers index
      · simp [Relocks, halfway, effect, hc, and_assoc]
      · have hcut : log.cutBefore index = log := if_neg (fun hd => hc hd.1)
        simp [Relocks, effect, hc, hcut]
  | createSnapshot snapshotIndex =>
      obtain ⟨b, hb⟩ := createSnapshot_free h snapshotIndex
      refine ⟨b && decide (log.Holds snapshotIndex), ?_⟩
      show createSnapshot cfg snapshotIndex log = _
      rw [hb]
      by_cases hc : log.Holds snapshotIndex
      · cases cfg.relock <;> simp [Relocks, halfway, effect, hc]
      · simp [Relocks, effect, hc]
  | reset newStartIndex =>
      refine ⟨true, ?_⟩
      show reset cfg newStartIndex log = _
      rw [reset, withLock_free h, if_neg (fun hd => hd.1)]
      rfl

/-- A call that returns leaves its effect. -/
theorem call_returned (h : Free cfg log) {op : Op} {b : Bool} {log' : RaftLogArray}
    (hcall : call cfg op log = .returned b log') : log' = log.effect cfg op := by
  obtain ⟨b', hb⟩ := call_free h op
  rw [hb] at hcall
  split at hcall
  · cases hcall
  · cases hcall
    rfl

/-- A call that does not return waits halfway. -/
theorem call_blocked (h : Free cfg log) {op : Op} {log' : RaftLogArray}
    (hcall : call cfg op log = .blocked log') :
    Relocks cfg log op ∧ log' = (log.halfway op).held := by
  obtain ⟨b', hb⟩ := call_free h op
  rw [hb] at hcall
  split at hcall
  · rename_i hr
    cases hcall
    exact ⟨hr.1, rfl⟩
  · cases hcall

theorem effect_locked (op : Op) : (log.effect cfg op).locked = log.locked := by
  cases op with
  | append entry => exact shed_locked cfg _
  | appendConst entry => exact shed_locked cfg _
  | batchAppend entries =>
      cases entries with
      | nil => rfl
      | cons e es => exact shed_locked cfg _
  | batchAppendConst entries =>
      cases entries with
      | nil => rfl
      | cons e es => exact shed_locked cfg _
  | truncateFrom index =>
      show (log.cutFrom index).locked = _
      rw [cutFrom]
      split <;> rfl
  | truncateBefore index => exact cutBefore_locked log index
  | createSnapshot snapshotIndex =>
      show (if log.Holds snapshotIndex then _ else log : RaftLogArray).locked = _
      split
      · exact cutBefore_locked _ _
      · rfl
  | reset newStartIndex => rfl

theorem recover_free (cfg : Config) (log : RaftLogArray) (h : Free cfg log) :
    ∃ log', recover cfg log = .returned true log' ∧ log'.locked = log.locked := by
  rw [recover, withLock_free h]
  simp only
  cases loadEntries log.held.wal log.held.indexFile with
  | none => exact ⟨_, rfl, rfl⟩
  | some entries => exact ⟨_, rfl, rfl⟩

theorem reopen_locked : (log.reopen cfg).locked = false := by
  obtain ⟨log', hlog', hl⟩ := recover_free cfg
    { wal := .openAppend log.wal.content, indexFile := log.indexFile } (Or.inl rfl)
  rw [reopen, hlog']
  exact hl

end Calls

section Runs

/-- The arrays that a process can have between two calls, over restarts too: a process
that waits in a call can only be restarted. -/
inductive Reached (cfg : Config) : RaftLogArray → Prop where
  | new : Reached cfg {}
  | call {log log' : RaftLogArray} {b : Bool} (op : Op) (h : Reached cfg log)
      (hcall : call cfg op log = .returned b log') : Reached cfg log'
  | recover {log log' : RaftLogArray} {b : Bool} (h : Reached cfg log)
      (hcall : recover cfg log = .returned b log') : Reached cfg log'
  | restart {log : RaftLogArray} (h : Reached cfg log) : Reached cfg (log.reopen cfg)
  | kill {log log' : RaftLogArray} (op : Op) (h : Reached cfg log)
      (hcall : RaftLogArray.call cfg op log = .blocked log') : Reached cfg (log'.reopen cfg)

/-- Between two calls nobody holds the mutex. -/
theorem Reached.unlocked (h : Reached cfg log) : log.locked = false := by
  induction h with
  | new => rfl
  | call op h hcall ih => rw [call_returned (Or.inl ih) hcall, effect_locked, ih]
  | recover h hcall ih =>
      obtain ⟨log', hlog', hl⟩ := recover_free cfg _ (Or.inl ih)
      cases hlog'.symm.trans hcall
      rw [hl, ih]
  | restart h ih => exact reopen_locked
  | kill op h hcall ih => exact reopen_locked

/-- **When a call returns.** In every state between two calls, a mutator waits for its own
thread exactly when it takes the mutex again; `recover` and the observers return. -/
theorem reached_blocked_iff (hrelock : cfg.relock = false) (h : Reached cfg log) :
    (∀ op, (call cfg op log).isBlocked = true ↔ Relocks cfg log op) ∧
      (recover cfg log).isBlocked = false ∧
      (∀ index, (get cfg index log).isBlocked = false ∧
        (getTerm cfg index log).isBlocked = false ∧
        (getEntriesFrom cfg index log).isBlocked = false ∧
        ∀ maxCount, (getEntriesFromMax cfg index maxCount log).isBlocked = false) ∧
      (getLast cfg log).isBlocked = false ∧ (getLastInfo cfg log).isBlocked = false ∧
      (getLastIndex cfg log).isBlocked = false ∧ (getBaseIndex cfg log).isBlocked = false ∧
      (size cfg log).isBlocked = false := by
  have hfree : Free cfg log := Or.inl h.unlocked
  have hobserve {α : Type} (f : RaftLogArray → α) : (observe cfg f log).isBlocked = false := by
    rw [observe_free hfree]
    rfl
  have hrecover : (recover cfg log).isBlocked = false := by
    obtain ⟨log', hlog', -⟩ := recover_free cfg log hfree
    rw [hlog']
    rfl
  refine ⟨?_, hrecover, fun index => ⟨hobserve _, hobserve _, hobserve _, fun _ => hobserve _⟩,
    hobserve _, hobserve _, hobserve _, hobserve _, hobserve _⟩
  intro op
  obtain ⟨b, hb⟩ := call_free hfree op
  rw [hb]
  by_cases hr : Relocks cfg log op
  · rw [if_pos ⟨hr, hrelock⟩]
    exact ⟨fun _ => hr, fun _ => rfl⟩
  · rw [if_neg (fun hd => hr hd.1)]
    exact ⟨fun hd => Bool.noConfusion hd, fun hd => absurd hd hr⟩

/-- A threshold of two entries. -/
def tight : Config := ⟨⟨2, fun n => n / 2, false⟩, true⟩

/-- Three entries. -/
def three : Op :=
  .batchAppend [⟨1, 0, 0, [1], 0, []⟩, ⟨1, 0, 0, [2], 0, []⟩, ⟨1, 0, 0, [3], 0, []⟩]

/-- A log over its threshold: the batch waited behind its writes, and the process was restarted. -/
def overfull : RaftLogArray := (call tight three {}).state.reopen tight

/-- The next append takes the mutex again. -/
theorem reached_blocked_iff_overfull :
    Reached tight overfull ∧ overfull.entries.length = 3 ∧
      (call tight (.append ⟨1, 0, 0, [4], 0, []⟩) overfull).isBlocked = true ∧
      ((call tight (.append ⟨1, 0, 0, [4], 0, []⟩) overfull).isBlocked = true ↔
        Relocks tight overfull (.append ⟨1, 0, 0, [4], 0, []⟩)) := by
  have hblocked : call tight three {} = .blocked (call tight three {}).state := rfl
  have hreached : Reached tight overfull := .kill three .new hblocked
  exact ⟨hreached, by decide +kernel, by decide +kernel,
    (reached_blocked_iff rfl hreached).1 (.append ⟨1, 0, 0, [4], 0, []⟩)⟩

/-- `truncate_from` waits, on a new array and at the index after its end. -/
theorem truncateFrom_new_blocked :
    Reached ⟨⟨100, fun n => n / 2, false⟩, true⟩ {} ∧
      (call ⟨⟨100, fun n => n / 2, false⟩, true⟩ (.truncateFrom 1) {}).isBlocked = true :=
  ⟨.new, rfl⟩

end Runs

end EyaKV.Raft.Disk.RaftLogArray
