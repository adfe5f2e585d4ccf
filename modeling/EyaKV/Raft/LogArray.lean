import EyaKV.Store.Value

/-!
# The log array

A `RaftLogArray` holds the entries from `baseIndex` on; what came before has been
truncated from the front or replaced by a snapshot. Its files are not modelled here. An
array that is opened again has whatever `recover` finds in them, and that need not be the
log (`Disk.RaftLogArray.reopen_append_lost`): it is a parameter of the steps that open it.
A log whose entries do not carry consecutive indices is not a value of the type.

Two operations take the mutex of the array again while they hold it: `truncate_from`
asks for the last index before it removes anything, and an append over the size
threshold calls `truncate_before` after it has added the entries. Whether that call
returns is the parameter `relock`. When it does not, the operation ends there and the
array stays as it is at that point.

`older` is not part of the source's array and no operation reads it: it remembers the
entries before the base, so that `full` is the whole log the array stands for.
-/

set_option autoImplicit false

namespace EyaKV.Raft

open EyaKV.Store

/-- `LogEntry`. -/
structure LogEntry where
  term : Nat
  index : Nat
  cmd : Bytes
  deriving DecidableEq, Repr

/-- `RaftLogConfig`: the size that starts a truncation from the front, the number
`size * truncate_ratio` of entries that it removes, and whether the owner of the
array's mutex can take it again. -/
structure RaftLogConfig where
  logSizeThreshold : Nat
  truncateCount : Nat → Nat
  relock : Bool

theorem LogEntry.indexed_nil :
    ∀ (i : Nat) (e : LogEntry), ([] : List LogEntry)[i]? = some e → e.index = 1 + i := by
  simp

/-- `RaftLogArray`. Every entry carries its index. -/
structure RaftLogArray where
  baseIndex : Nat := 1
  entries : List LogEntry := []
  older : List LogEntry := []
  base_pos : 1 ≤ baseIndex := by first | exact Nat.one_pos | decide
  indexed : ∀ i e, entries[i]? = some e → e.index = baseIndex + i := by
    first | exact LogEntry.indexed_nil | simp
  deriving DecidableEq

namespace RaftLogArray

/-- The log from index 1 on. -/
def full (log : RaftLogArray) : List LogEntry := log.older ++ log.entries

variable (cfg : RaftLogConfig) (log : RaftLogArray)

section Reading

/-- `RaftLogArray::get`. -/
def get (index : Nat) : Option LogEntry :=
  if index < log.baseIndex then none else log.entries[index - log.baseIndex]?

/-- `RaftLogArray::get_last_index`. -/
def getLastIndex : Nat :=
  if log.entries = [] then 0 else log.baseIndex + log.entries.length - 1

/-- `RaftLogArray::get_last_info`: the last index and its term. -/
def getLastInfo : Nat × Nat :=
  match log.entries.getLast? with
  -- also when a snapshot stands for the entries before the base
  | none => (0, 0)
  | some e => (log.baseIndex + log.entries.length - 1, e.term)

/-- `RaftLogArray::get_term`. -/
def getTerm (index : Nat) : Nat :=
  match log.get index with
  | none => 0
  | some e => e.term

/-- `RaftLogArray::get_entries_from`. The count is an `int` that is added to a `size_t`. -/
def getEntriesFrom (startIndex : Nat) (maxCount : Int) : List LogEntry :=
  if startIndex < log.baseIndex then []
  else
    let arrayIndex := startIndex - log.baseIndex
    let rest := log.entries.drop arrayIndex
    -- a sum below 0 comes round, and the end is behind every log
    if arrayIndex + maxCount < 0 then rest else rest.take maxCount.toNat

end Reading

section Writing

/-- The array with entries added at its end; their indices are rewritten. -/
def extend (cmds : List LogEntry) : RaftLogArray where
  baseIndex := log.baseIndex
  entries := log.entries ++
    cmds.mapIdx fun i e => { e with index := log.baseIndex + log.entries.length + i }
  older := log.older
  base_pos := log.base_pos
  indexed := by
    intro i e h
    by_cases hi : i < log.entries.length
    · rw [List.getElem?_append_left hi] at h
      exact log.indexed i e h
    · rw [List.getElem?_append_right (by omega), List.getElem?_mapIdx,
        Option.map_eq_some_iff] at h
      obtain ⟨a, -, rfl⟩ := h
      show log.baseIndex + log.entries.length + (i - log.entries.length) = _
      omega

/-- The array without the entries from `index` on. -/
def keepBelow (index : Nat) : RaftLogArray where
  baseIndex := log.baseIndex
  entries := log.entries.take (index - log.baseIndex)
  older := log.older
  base_pos := log.base_pos
  indexed := by
    intro i e h
    rw [List.getElem?_take] at h
    split at h
    · exact log.indexed i e h
    · cases h

/-- The array without its first `count` entries. -/
def dropFront (count : Nat) : RaftLogArray where
  baseIndex := log.baseIndex + count
  entries := log.entries.drop count
  older := log.older ++ log.entries.take count
  base_pos := le_trans log.base_pos (Nat.le_add_right _ _)
  indexed := by
    intro i e h
    rw [List.getElem?_drop] at h
    have := log.indexed _ e h
    omega

/-- `RaftLogArray::truncate_from`; no result when the call does not return. -/
def truncateFrom (index : Nat) : Option RaftLogArray :=
  if index < log.baseIndex ∨ log.baseIndex + log.entries.length < index then some log
  else if cfg.relock then some (log.keepBelow index) else none

/-- `RaftLogArray::truncate_before`, called by an owner of the mutex. -/
def truncateBefore (index : Nat) : Option RaftLogArray :=
  if !cfg.relock then none
  else if index < log.baseIndex ∨ log.baseIndex + log.entries.length < index then some log
  else some (log.dropFront (index - log.baseIndex))

/-- `RaftLogArray::batch_append`, and `append` of a single entry: the array after it,
and whether the call returned. -/
def batchAppend (cmds : List LogEntry) : RaftLogArray × Bool :=
  if cmds = [] then (log, true)
  else
    let log' := log.extend cmds
    let count := cfg.truncateCount log'.entries.length
    if cfg.logSizeThreshold < log'.entries.length ∧ 0 < count then
      match log'.truncateBefore cfg (log'.baseIndex + count) with
      | some log'' => (log'', true)
      -- the entries are in the log and in its files by then
      | none => (log', false)
    else (log', true)

/-- `RaftLogArray::reset`, after a snapshot of the log `older`. -/
def reset (newStartIndex : Nat) (h : 1 ≤ newStartIndex) (older : List LogEntry) :
    RaftLogArray where
  baseIndex := newStartIndex
  older := older
  base_pos := h

end Writing

section WholeLog

/-- The entries before the base are as many as the base says. -/
def Aligned (log : RaftLogArray) : Prop := log.older.length + 1 = log.baseIndex

variable {cfg : RaftLogConfig} {log log' : RaftLogArray}

theorem length_full (log : RaftLogArray) :
    log.full.length = log.older.length + log.entries.length := List.length_append

theorem Aligned.next (h : log.Aligned) :
    log.baseIndex + log.entries.length = log.full.length + 1 := by
  unfold Aligned at h
  rw [length_full]
  omega

/-- Reading an entry that is in memory. -/
theorem Aligned.get (h : log.Aligned) {index : Nat} (hbase : log.baseIndex ≤ index) :
    log.get index = log.full[index - 1]? := by
  unfold Aligned at h
  unfold RaftLogArray.get full
  rw [if_neg (by omega), List.getElem?_append_right (by omega)]
  congr 1
  omega

theorem Aligned.get_some (h : log.Aligned) {index : Nat} {e : LogEntry}
    (hget : log.get index = some e) :
    log.baseIndex ≤ index ∧ index ≤ log.full.length ∧ log.full[index - 1]? = some e := by
  have hbase : log.baseIndex ≤ index := by
    by_contra hlt
    rw [RaftLogArray.get, if_pos (by omega)] at hget
    cases hget
  rw [h.get hbase] at hget
  have hpos := log.base_pos
  have := (List.getElem?_eq_some_iff.1 hget).1
  exact ⟨hbase, by omega, hget⟩

theorem Aligned.get_none (h : log.Aligned) {index : Nat} (hbase : log.baseIndex ≤ index)
    (hget : log.get index = none) : log.full.length < index := by
  rw [h.get hbase, List.getElem?_eq_none_iff] at hget
  have hpos := log.base_pos
  omega

/-- The last index, when the memory holds an entry. -/
theorem Aligned.getLastIndex (h : log.Aligned) (hne : log.entries ≠ []) :
    log.getLastIndex = log.full.length := by
  have := h.next
  rw [RaftLogArray.getLastIndex, if_neg hne]
  omega

theorem Aligned.getLastIndex_le (h : log.Aligned) : log.getLastIndex ≤ log.full.length := by
  by_cases hne : log.entries = []
  · rw [RaftLogArray.getLastIndex, if_pos hne]
    exact Nat.zero_le _
  · exact le_of_eq (h.getLastIndex hne)

/-- The entries for a follower are the first ones of those in memory from there on. -/
theorem getEntriesFrom_isPrefix (log : RaftLogArray) (start : Nat) (maxCount : Int) :
    log.getEntriesFrom start maxCount <+: log.entries.drop (start - log.baseIndex) := by
  unfold getEntriesFrom
  simp only
  split
  · exact List.nil_prefix
  · split
    · exact List.prefix_rfl
    · exact List.take_prefix _ _

theorem getElem?_getEntriesFrom {log : RaftLogArray} {start i : Nat} {maxCount : Int}
    {e : LogEntry} (h : (log.getEntriesFrom start maxCount)[i]? = some e) :
    log.entries[start - log.baseIndex + i]? = some e := by
  obtain ⟨hlt, rfl⟩ := List.getElem?_eq_some_iff.1 h
  rw [← List.getElem?_drop]
  exact List.prefix_iff_getElem?.1 (log.getEntriesFrom_isPrefix start maxCount) i hlt

/-- They have the indices from there on. -/
theorem index_getEntriesFrom {log : RaftLogArray} {start i : Nat} {maxCount : Int} {e : LogEntry}
    (h : (log.getEntriesFrom start maxCount)[i]? = some e) :
    log.baseIndex ≤ start ∧ e.index = start + i := by
  have hbase : log.baseIndex ≤ start := by
    by_contra hless
    rw [getEntriesFrom, if_pos (by omega)] at h
    cases h
  have hindex := log.indexed _ e (getElem?_getEntriesFrom h)
  exact ⟨hbase, by omega⟩

/-- And are a piece of the whole log. -/
theorem Aligned.getEntriesFrom (h : log.Aligned) {start : Nat} (maxCount : Int)
    (hbase : log.baseIndex ≤ start) :
    log.getEntriesFrom start maxCount <+: log.full.drop (start - 1) := by
  have hpos := log.base_pos
  unfold Aligned at h
  have holder : log.older.drop (start - 1) = [] := List.drop_eq_nil_of_le (by omega)
  have hstart : start - 1 - log.older.length = start - log.baseIndex := by omega
  rw [full, List.drop_append, holder, List.nil_append, hstart]
  exact log.getEntriesFrom_isPrefix start maxCount

/-- The entries that an operation adds have the next indices. -/
theorem full_extend (cmds : List LogEntry) :
    (log.extend cmds).full = log.full ++
      cmds.mapIdx fun i e => { e with index := log.baseIndex + log.entries.length + i } := by
  simp only [full, extend, List.append_assoc]

theorem Aligned.extend (h : log.Aligned) (cmds : List LogEntry) : (log.extend cmds).Aligned := h

theorem Aligned.full_keepBelow (h : log.Aligned) {index : Nat} (hbase : log.baseIndex ≤ index) :
    (log.keepBelow index).full = log.full.take (index - 1) := by
  unfold Aligned at h
  have hpos := log.base_pos
  have holder : log.older.take (index - 1) = log.older := List.take_of_length_le (by omega)
  have hindex : index - 1 - log.older.length = index - log.baseIndex := by omega
  simp only [full, RaftLogArray.keepBelow, List.take_append, holder, hindex]

theorem Aligned.keepBelow (h : log.Aligned) (index : Nat) : (log.keepBelow index).Aligned := h

/-- A truncation from the front leaves the whole log. -/
theorem full_dropFront (count : Nat) : (log.dropFront count).full = log.full := by
  simp only [full, dropFront, List.append_assoc, List.take_append_drop]

theorem Aligned.dropFront (h : log.Aligned) {count : Nat} (hcount : count ≤ log.entries.length) :
    (log.dropFront count).Aligned := by
  unfold Aligned at h ⊢
  simp only [RaftLogArray.dropFront, List.length_append, List.length_take]
  omega

theorem truncateBefore_spec (h : log.Aligned) {index : Nat}
    (htrunc : log.truncateBefore cfg index = some log') :
    log'.Aligned ∧ log'.full = log.full := by
  unfold truncateBefore at htrunc
  split at htrunc
  · cases htrunc
  · split at htrunc
    · obtain rfl := Option.some.inj htrunc
      exact ⟨h, rfl⟩
    · next hin =>
        obtain rfl := Option.some.inj htrunc
        exact ⟨h.dropFront (by omega), full_dropFront _⟩

/-- Adding entries: the truncation from the front that may follow leaves the whole log. -/
theorem batchAppend_spec (h : log.Aligned) (cmds : List LogEntry) :
    (log.batchAppend cfg cmds).1.Aligned ∧
      (log.batchAppend cfg cmds).1.full = (log.extend cmds).full := by
  unfold batchAppend
  split
  · next hnil =>
      rw [full_extend, hnil, List.mapIdx_nil, List.append_nil]
      exact ⟨h, rfl⟩
  · simp only
    split
    · split
      · next htrunc => exact truncateBefore_spec (h.extend cmds) htrunc
      · exact ⟨h, rfl⟩
    · exact ⟨h, rfl⟩

/-- The array that has been found in the files is the log up to some index. -/
structure Recovers (log found : RaftLogArray) : Prop where
  aligned : found.Aligned
  isPrefix : found.full <+: log.full

instance (log : RaftLogArray) : Decidable log.Aligned := inferInstanceAs (Decidable (_ = _))

instance (log found : RaftLogArray) : Decidable (log.Recovers found) :=
  decidable_of_iff (found.Aligned ∧ found.full <+: log.full)
    ⟨fun h => ⟨h.1, h.2⟩, fun h => ⟨h.1, h.2⟩⟩

theorem aligned_reset (newStartIndex : Nat) (hpos : 1 ≤ newStartIndex) (older : List LogEntry)
    (hlen : older.length + 1 = newStartIndex) :
    (reset newStartIndex hpos older).Aligned ∧ (reset newStartIndex hpos older).full = older :=
  ⟨hlen, List.append_nil older⟩

end WholeLog

end RaftLogArray

end EyaKV.Raft
