import EyaKV.Base.IndexedLog
import EyaKV.Raft.LogMutex

/-!
# The log array as an indexed log

What the log array is for: an indexed log of entries (`Base.IndexedLog`), each of which
carries its index. `spec` says what each mutator does to it. In a run whose calls stay
inside 32-bit indexes and in which the entries given to the const overloads carry the
indexes they get, the array refines the indexed log (`Refines.run`).

An array that refines an indexed log answers like it, with two exceptions: an emptied
array has the last index 0 wherever its base is, and a negative count can give all
entries (`Refines.answers`).
-/

set_option autoImplicit false

namespace EyaKV.Raft.Disk.RaftLogArray

open EyaKV.Base EyaKV.Store

variable {cfg : Config} {log : RaftLogArray} {abs : IndexedLog LogEntry}

section Spec

/-- The index of an entry. -/
def entryIndex (e : LogEntry) : Nat := e.index.toNat

/-- The entries with the indexes from `n` on. -/
def numberFrom (n : Nat) (entries : List LogEntry) : List LogEntry :=
  entries.mapIdx fun i e => { e with index := .ofNat (n + i) }

/-- The abstract truncation of the oldest entries. -/
def specShed (cfg : Config) (abs : IndexedLog LogEntry) : IndexedLog LogEntry :=
  if OverThreshold cfg abs.items.length then
    abs.dropBelow (abs.base + cfg.truncateCount abs.items.length)
  else abs

/-- What the mutators do to the indexed log. -/
def spec (cfg : Config) (abs : IndexedLog LogEntry) : Op → IndexedLog LogEntry
  | .append entry | .appendConst entry =>
      specShed cfg (abs.append (numberFrom abs.next [entry]))
  | .batchAppend entries | .batchAppendConst entries =>
      if entries.isEmpty then abs else specShed cfg (abs.append (numberFrom abs.next entries))
  | .truncateFrom index => abs.keepBelow index.toNat
  | .truncateBefore index => abs.dropBelow index.toNat
  | .createSnapshot snapshotIndex =>
      if (abs.get? snapshotIndex.toNat).isSome then abs.dropBelow (snapshotIndex.toNat + 1)
      else abs
  | .reset newStartIndex => ⟨newStartIndex.toNat, []⟩

/-- The indexes of `n` more entries have 32 bits, and so has the base after them. -/
def Room (cfg : Config) (abs : IndexedLog LogEntry) (n : Nat) : Prop :=
  abs.next + n ≤ 2 ^ 32 ∧
    (OverThreshold cfg (abs.items.length + n) →
      abs.base + cfg.truncateCount (abs.items.length + n) < 2 ^ 32)

/-- The calls that the array is made for: there is room, and the entries for the const
overloads carry the indexes they get. -/
def Proper (cfg : Config) (abs : IndexedLog LogEntry) : Op → Prop
  | .append _ => Room cfg abs 1
  | .appendConst entry => Room cfg abs 1 ∧ entryIndex entry = abs.next
  | .batchAppend entries => entries ≠ [] → Room cfg abs entries.length
  | .batchAppendConst entries => entries ≠ [] → Room cfg abs entries.length ∧
      ∀ i e, entries[i]? = some e → entryIndex e = abs.next + i
  | .createSnapshot snapshotIndex =>
      (abs.get? snapshotIndex.toNat).isSome → snapshotIndex.toNat + 1 < 2 ^ 32
  | .truncateFrom _ | .truncateBefore _ | .reset _ => True

/-- A run of calls; no result when one of them does not return. -/
def run (cfg : Config) : List Op → RaftLogArray → Option RaftLogArray
  | [], log => some log
  | op :: ops, log =>
      match call cfg op log with
      | .returned _ log' => run cfg ops log'
      | .blocked _ => none

/-- The run of the indexed log. -/
def specRun (cfg : Config) : List Op → IndexedLog LogEntry → IndexedLog LogEntry
  | [], abs => abs
  | op :: ops, abs => specRun cfg ops (spec cfg abs op)

/-- Every call of a run is proper where it is made. -/
def ProperRun (cfg : Config) : List Op → IndexedLog LogEntry → Prop
  | [], _ => True
  | op :: ops, abs => Proper cfg abs op ∧ ProperRun cfg ops (spec cfg abs op)

end Spec

section Refinement

/-- The array stands for the indexed log. -/
structure Refines (log : RaftLogArray) (abs : IndexedLog LogEntry) : Prop where
  base : log.baseIndex.toNat = abs.base
  entries : log.entries = abs.items
  parallel : log.indexOffsets.length = log.entries.length
  labelled : abs.Labelled entryIndex
  room : abs.next ≤ 2 ^ 32

theorem Refines.new : Refines {} ⟨1, []⟩ where
  base := rfl
  entries := rfl
  parallel := rfl
  labelled := .empty 1
  room := by decide

theorem Refines.next (h : Refines log abs) :
    log.baseIndex.toNat + log.entries.length = abs.next := by
  rw [h.base, h.entries, IndexedLog.next]

theorem rewrite_offsets (entries : List LogEntry) (files : File × List Nat) :
    (entries.foldl rewriteEntry files).2.length = files.2.length + entries.length := by
  induction entries generalizing files with
  | nil => rfl
  | cons e es ih =>
      rw [List.foldl_cons, ih, rewriteEntry, List.length_append]
      show files.2.length + 1 + es.length = files.2.length + (es.length + 1)
      omega

theorem truncateWalAndIndex_parallel :
    log.truncateWalAndIndex.indexOffsets.length = log.truncateWalAndIndex.entries.length := by
  show (log.entries.foldl rewriteEntry (File.create, [])).2.length = log.entries.length
  rw [rewrite_offsets]
  exact Nat.zero_add _

theorem Refines.cutFrom (h : Refines log abs) (index : UInt32) :
    Refines (log.cutFrom index) (abs.keepBelow index.toNat) := by
  rw [RaftLogArray.cutFrom]
  split
  · rename_i hc
    have hle : log.baseIndex.toNat ≤ index.toNat := hc.1.1
    have hkeep : abs.keepBelow index.toNat =
        ⟨abs.base, abs.items.take (index - log.baseIndex).toNat⟩ := by
      rw [IndexedLog.keepBelow, if_neg (by rw [← h.base]; omega), ← h.base,
        UInt32.toNat_sub_of_le _ _ hc.1.1]
    refine ⟨?_, ?_, truncateWalAndIndex_parallel, h.labelled.keepBelow _,
      le_trans (abs.next_keepBelow_le _) h.room⟩
    · rw [hkeep]
      exact h.base
    · rw [hkeep, ← h.entries]
      rfl
  · rename_i hc
    have hkeep : abs.keepBelow index.toNat = abs := by
      rw [IndexedLog.keepBelow]
      split
      · rfl
      · rename_i hb
        have hlen : abs.items.length ≤ index.toNat - abs.base := by
          have hn := h.next
          rw [IndexedLog.next, h.base, h.entries] at hn
          by_contra hlt
          apply hc
          refine ⟨⟨?_, ?_⟩, ?_⟩
          · show log.baseIndex.toNat ≤ index.toNat
            rw [h.base]
            omega
          · rw [h.base, h.entries]
            omega
          · rw [h.base, h.entries]
            omega
        rw [List.take_of_length_le hlen]
    rw [hkeep]
    exact h

theorem Refines.cutBefore (h : Refines log abs) (index : UInt32) :
    Refines (log.cutBefore index) (abs.dropBelow index.toNat) := by
  rw [RaftLogArray.cutBefore]
  split
  · rename_i hc
    have hle : log.baseIndex.toNat ≤ index.toNat := hc.1.1
    have hdrop : abs.dropBelow index.toNat =
        ⟨index.toNat, abs.items.drop (index - log.baseIndex).toNat⟩ := by
      have hend := hc.1.2
      rw [h.next] at hend
      rw [IndexedLog.dropBelow, if_neg (by rw [← h.base]; omega), ← h.base,
        UInt32.toNat_sub_of_le _ _ hc.1.1]
    refine ⟨?_, ?_, truncateWalAndIndex_parallel, h.labelled.dropBelow _, ?_⟩
    · rw [hdrop]
      rfl
    · rw [hdrop, ← h.entries]
      rfl
    · rw [IndexedLog.next_dropBelow]
      exact h.room
  · rename_i hc
    have hdrop : abs.dropBelow index.toNat = abs := by
      rw [IndexedLog.dropBelow]
      split
      · rfl
      · rename_i hr
        rw [not_or, Nat.not_lt, Nat.not_lt, ← h.next, ← h.base] at hr
        have heq : index = log.baseIndex := by
          by_contra hne
          exact hc ⟨hr, hne⟩
        rw [heq, h.base, Nat.sub_self, List.drop_zero]
    rw [hdrop]
    exact h

theorem Refines.shed (h : Refines log abs)
    (hroom : OverThreshold cfg abs.items.length →
      abs.base + cfg.truncateCount abs.items.length < 2 ^ 32) :
    Refines (shed cfg log) (specShed cfg abs) := by
  rw [RaftLogArray.shed, specShed, h.entries]
  split
  · rename_i ht
    have hlt := hroom ht
    have hindex : (log.baseIndex + .ofNat (cfg.truncateCount abs.items.length)).toNat =
        abs.base + cfg.truncateCount abs.items.length := by
      rw [UInt32.toNat_add, UInt32.toNat_ofNat', h.base]
      omega
    rw [← hindex]
    exact h.cutBefore _
  · exact h

theorem numbered_eq (n : Nat) (entries : List LogEntry) :
    numbered (.ofNat n) entries = numberFrom n entries := by
  induction entries generalizing n with
  | nil => rfl
  | cons e es ih =>
      rw [numbered, show UInt32.ofNat n + 1 = .ofNat (n + 1) by rw [UInt32.ofNat_add]; rfl, ih]
      simp [numberFrom, List.mapIdx_cons, Nat.add_comm, Nat.add_left_comm]

theorem numberFrom_labels {n : Nat} {entries : List LogEntry} (hroom : n + entries.length ≤ 2 ^ 32) :
    ∀ i e, (numberFrom n entries)[i]? = some e → entryIndex e = n + i := by
  intro i e hi
  have hlt : i < (numberFrom n entries).length := (List.getElem?_eq_some_iff.1 hi).1
  rw [numberFrom, List.length_mapIdx] at hlt
  rw [numberFrom, List.getElem?_mapIdx, Option.map_eq_some_iff] at hi
  obtain ⟨a, -, rfl⟩ := hi
  show (UInt32.ofNat (n + i)).toNat = n + i
  rw [UInt32.toNat_ofNat']
  omega

/-- Entries that carry their indexes are not changed by the numbering. -/
theorem numberFrom_self {n : Nat} {entries : List LogEntry}
    (h : ∀ i e, entries[i]? = some e → entryIndex e = n + i) : numberFrom n entries = entries := by
  apply List.ext_getElem?
  intro i
  rw [numberFrom, List.getElem?_mapIdx]
  cases hi : entries[i]? with
  | none => rfl
  | some e =>
      have hindex : UInt32.ofNat (n + i) = e.index := by
        rw [← h i e hi]
        exact UInt32.ofNat_toNat
      rw [Option.map_some, hindex]

theorem newIndex_eq (h : Refines log abs) : log.newIndex = .ofNat abs.next := by
  rw [newIndex, h.next]

/-- The array after entries have been added refines the log after it. -/
theorem Refines.grow (h : Refines log abs) {log' : RaftLogArray} {entries : List LogEntry}
    (hroom : abs.next + entries.length ≤ 2 ^ 32) (hbase : log'.baseIndex = log.baseIndex)
    (hentries : log'.entries = log.entries ++ numberFrom abs.next entries)
    (hoffsets : log'.indexOffsets.length = log.indexOffsets.length + entries.length) :
    Refines log' (abs.append (numberFrom abs.next entries)) where
  base := by
    rw [hbase]
    exact h.base
  entries := by
    rw [hentries, h.entries]
    rfl
  parallel := by
    rw [hentries, hoffsets, h.parallel, List.length_append, numberFrom, List.length_mapIdx]
  labelled := h.labelled.append (numberFrom_labels hroom)
  room := by
    rw [IndexedLog.next_append, numberFrom, List.length_mapIdx]
    exact hroom

theorem batchOffsets_length (current : Nat) (entries : List LogEntry) :
    (batchOffsets current entries).length = entries.length := by
  induction entries generalizing current with
  | nil => rfl
  | cons e es ih => rw [batchOffsets, List.length_cons, List.length_cons, ih]

theorem Refines.appendEntry (h : Refines log abs) (hroom : abs.next + 1 ≤ 2 ^ 32)
    {entry entry' : LogEntry} (heq : numberFrom abs.next [entry] = [entry']) :
    Refines (log.appendEntry entry') (abs.append (numberFrom abs.next [entry])) := by
  refine h.grow hroom (show (log.appendEntry entry').baseIndex = _ from rfl) ?_ List.length_append
  rw [heq]
  rfl

theorem Refines.appendEntries (h : Refines log abs) {entries entries' : List LogEntry}
    (hroom : abs.next + entries.length ≤ 2 ^ 32) (heq : numberFrom abs.next entries = entries') :
    Refines (log.appendEntries entries') (abs.append (numberFrom abs.next entries)) := by
  subst heq
  refine h.grow hroom (show (log.appendEntries _).baseIndex = _ from rfl) rfl ?_
  show (log.indexOffsets ++ batchOffsets _ _).length = _
  rw [List.length_append, batchOffsets_length, numberFrom, List.length_mapIdx]

theorem specShed_room {entries : List LogEntry} {n : Nat} (hroom : Room cfg abs n)
    (hlen : entries.length = n) :
    OverThreshold cfg (abs.append (numberFrom abs.next entries)).items.length →
      (abs.append (numberFrom abs.next entries)).base +
        cfg.truncateCount (abs.append (numberFrom abs.next entries)).items.length < 2 ^ 32 := by
  have hl : (abs.append (numberFrom abs.next entries)).items.length = abs.items.length + n := by
    rw [← hlen, IndexedLog.append, List.length_append, numberFrom, List.length_mapIdx]
  rw [hl]
  exact hroom.2

theorem get?_isSome_iff (h : Refines log abs) (index : UInt32) :
    (abs.get? index.toNat).isSome = true ↔ log.Holds index := by
  rw [Option.isSome_iff_ne_none, Ne, IndexedLog.get?_eq_none_iff, not_or, Nat.not_lt, Nat.not_le,
    ← h.next, ← h.base]
  rfl

/-- **One call.** The effect of a proper call refines what the call does to the log. -/
theorem Refines.effect (h : Refines log abs) {op : Op} (hop : Proper cfg abs op) :
    Refines (log.effect cfg op) (spec cfg abs op) := by
  cases op with
  | append entry =>
      have hroom : Room cfg abs 1 := hop
      apply Refines.shed _ (specShed_room hroom rfl)
      apply h.appendEntry hroom.1
      rw [newIndex_eq h]
      rfl
  | appendConst entry =>
      obtain ⟨hroom, hindex⟩ := hop
      apply Refines.shed _ (specShed_room hroom rfl)
      apply h.appendEntry hroom.1
      apply numberFrom_self
      intro i e hi
      cases i with
      | zero =>
          cases hi
          exact hindex
      | succ i => cases hi
  | batchAppend entries =>
      cases entries with
      | nil => exact h
      | cons e es =>
          have hroom : Room cfg abs (e :: es).length := hop (List.cons_ne_nil e es)
          apply Refines.shed _ (specShed_room hroom rfl)
          apply h.appendEntries hroom.1
          rw [newIndex_eq h, numbered_eq]
  | batchAppendConst entries =>
      cases entries with
      | nil => exact h
      | cons e es =>
          obtain ⟨hroom, hindex⟩ := hop (List.cons_ne_nil e es)
          apply Refines.shed _ (specShed_room hroom rfl)
          exact h.appendEntries hroom.1 (numberFrom_self hindex)
  | truncateFrom index => exact h.cutFrom index
  | truncateBefore index => exact h.cutBefore index
  | createSnapshot snapshotIndex =>
      -- a snapshot cuts only when the array holds its index
      show Refines (if log.Holds snapshotIndex then _ else log)
        (if (abs.get? snapshotIndex.toNat).isSome then _ else abs)
      by_cases hs : log.Holds snapshotIndex
      · have hsome := (get?_isSome_iff h snapshotIndex).2 hs
        have hlt : snapshotIndex.toNat + 1 < 2 ^ 32 := hop hsome
        rw [if_pos hs, if_pos hsome]
        -- the cut is behind the index, and the successor must not wrap
        have hindex : (snapshotIndex + 1).toNat = snapshotIndex.toNat + 1 := by
          rw [UInt32.toNat_add]
          show (snapshotIndex.toNat + 1) % 2 ^ 32 = _
          omega
        rw [← hindex]
        exact h.cutBefore _
      · rw [if_neg hs, if_neg (fun hd => hs ((get?_isSome_iff h snapshotIndex).1 hd))]
        exact h
  | reset newStartIndex =>
      exact ⟨rfl, rfl, rfl, .empty _, le_of_lt newStartIndex.toNat_lt⟩

/-- **A run.** Proper calls keep the refinement, and nobody holds the mutex after them. -/
theorem Refines.run {ops : List Op} {log' : RaftLogArray} (h : Refines log abs)
    (hfree : log.locked = false) (hproper : ProperRun cfg ops abs)
    (hrun : RaftLogArray.run cfg ops log = some log') :
    Refines log' (specRun cfg ops abs) ∧ log'.locked = false := by
  induction ops generalizing log abs with
  | nil =>
      cases hrun
      exact ⟨h, hfree⟩
  | cons op ops ih =>
      rw [RaftLogArray.run] at hrun
      split at hrun
      · rename_i b next hcall
        have hnext := call_returned (Or.inl hfree) hcall
        subst hnext
        exact ih (h.effect hproper.1) (by rw [effect_locked, hfree]) hproper.2 hrun
      · cases hrun

end Refinement

section Observing

/-- What an array has to answer to stand for an indexed log. The last index, the
information on the last entry and the bounded reading are right under a condition, and
only under it. -/
structure Answers (cfg : Config) (log : RaftLogArray) (abs : IndexedLog LogEntry) : Prop where
  get : ∀ index, (get cfg index log).value = some (abs.get? index.toNat)
  getTerm : ∀ index,
    (getTerm cfg index log).value = some (((abs.get? index.toNat).map LogEntry.term).getD 0)
  getLast : (getLast cfg log).value = some abs.items.getLast?
  getBaseIndex : (getBaseIndex cfg log).value.map UInt32.toNat = some abs.base
  getEntriesFrom : ∀ index, (getEntriesFrom cfg index log).value = some (abs.since index.toNat)
  labelled : ∀ i e, log.entries[i]? = some e → e.index.toNat = log.baseIndex.toNat + i
  parallel : log.indexOffsets.length = log.entries.length
  getLastIndex :
    (getLastIndex cfg log).value.map (fun index => (index.toNat : Int)) = some abs.last ↔
      (abs.items = [] → abs.base = 1)
  getLastInfo :
    (getLastInfo cfg log).value.map (fun info => (info.1, (info.2.1.toNat : Int), info.2.2)) =
        some (!abs.items.isEmpty, abs.last, (abs.items.getLast?.map LogEntry.term).getD 0) ↔
      (abs.items = [] → abs.base = 1)
  getEntriesFromMax : ∀ index maxCount,
    (getEntriesFromMax cfg index maxCount log).value =
        some ((abs.since index.toNat).take maxCount.toInt.toNat) ↔
      0 ≤ maxCount.toInt ∨ abs.since index.toNat = [] ∨
        (abs.base : Int) ≤ index.toNat + maxCount.toInt

theorem observe_value (hfree : log.locked = false) {α : Type} (f : RaftLogArray → α) :
    (observe cfg f log).value = some (f log.held) := by
  rw [observe_free (Or.inl hfree)]
  rfl

/-- The bounds check and the lookup of the observers. -/
theorem Refines.lookup (h : Refines log abs) (index : UInt32) :
    (if index < log.baseIndex ∨ log.baseIndex.toNat + log.entries.length ≤ index.toNat then none
      else log.entries[(index - log.baseIndex).toNat]?) = abs.get? index.toNat := by
  by_cases hlt : index < log.baseIndex
  · rw [if_pos (Or.inl hlt), IndexedLog.get?, if_pos (by rw [← h.base]; exact hlt)]
  · have hle : log.baseIndex ≤ index := UInt32.not_lt.1 hlt
    have hnat : log.baseIndex.toNat ≤ index.toNat := hle
    rw [UInt32.toNat_sub_of_le _ _ hle, h.base, h.entries, IndexedLog.get?,
      if_neg (show ¬ index.toNat < abs.base by rw [← h.base]; omega)]
    split
    · rename_i hr
      symm
      rw [List.getElem?_eq_none_iff]
      rcases hr with hr | hr
      · exact absurd hr hlt
      · omega
    · rfl

theorem Refines.rest (h : Refines log abs) (index : UInt32) :
    (if index < log.baseIndex then [] else log.entries.drop (index - log.baseIndex).toNat) =
      abs.since index.toNat := by
  by_cases hlt : index < log.baseIndex
  · rw [if_pos hlt, IndexedLog.since, if_pos (by rw [← h.base]; exact hlt)]
  · have hle : log.baseIndex ≤ index := UInt32.not_lt.1 hlt
    have hnat : log.baseIndex.toNat ≤ index.toNat := hle
    rw [if_neg hlt, UInt32.toNat_sub_of_le _ _ hle, h.base, h.entries, IndexedLog.since,
      if_neg (by rw [← h.base]; omega)]

/-- The last index as the array computes it. -/
theorem Refines.lastIndex (h : Refines log abs) (hne : abs.items ≠ []) :
    ((UInt32.ofNat (log.baseIndex.toNat + log.entries.length - 1)).toNat : Int) = abs.last := by
  have hpos : 0 < abs.items.length := List.length_pos_iff.2 hne
  have hroom := h.room
  rw [h.next, IndexedLog.last, UInt32.toNat_ofNat']
  rw [IndexedLog.next] at hroom ⊢
  omega

/-- The emptied log has the last index 0 only over the base 1. -/
theorem last_eq_zero_iff (hnil : abs.items = []) : (0 : Int) = abs.last ↔ abs.base = 1 := by
  rw [IndexedLog.last, IndexedLog.next, hnil, List.length_nil]
  omega

/-- The end of the bounded reading: the count becomes a `size_t` in the addition. -/
theorem take_endIndex (entries : List LogEntry) (start : Nat) (maxCount : Int32)
    (hstart : start < 2 ^ 32) (hlen : entries.length ≤ 2 ^ 32) :
    (entries.take ((start + maxCount.toInt) % 2 ^ 64).toNat).drop start =
        (entries.drop start).take maxCount.toInt.toNat ↔
      0 ≤ maxCount.toInt ∨ entries.drop start = [] ∨ 0 ≤ start + maxCount.toInt := by
  have hlow := maxCount.le_toInt
  have hhigh := maxCount.toInt_lt
  by_cases hneg : 0 ≤ maxCount.toInt
  · have hend : ((start + maxCount.toInt) % 2 ^ 64).toNat = start + maxCount.toInt.toNat := by
      omega
    rw [hend, List.drop_take, Nat.add_sub_cancel_left]
    exact ⟨fun _ => Or.inl hneg, fun _ => rfl⟩
  · have hzero : maxCount.toInt.toNat = 0 := by omega
    rw [hzero, List.take_zero]
    by_cases hback : 0 ≤ start + maxCount.toInt
    · -- the end is before the start
      have hend : ((start + maxCount.toInt) % 2 ^ 64).toNat ≤ start := by omega
      refine ⟨fun _ => Or.inr (Or.inr hback), fun _ => ?_⟩
      rw [List.drop_eq_nil_iff, List.length_take]
      omega
    · -- the sum wraps around: the end is far behind every entry
      have hend : entries.length ≤ ((start + maxCount.toInt) % 2 ^ 64).toNat := by omega
      rw [List.take_of_length_le hend]
      exact ⟨fun hnil => Or.inr (Or.inl hnil), fun hd => by
        rcases hd with hd | hd | hd
        · exact absurd hd hneg
        · exact hd
        · exact absurd hd hback⟩

/-- An array that refines an indexed log answers like it. -/
theorem Refines.answers (h : Refines log abs) (hfree : log.locked = false) :
    Answers cfg log abs where
  get := by
    intro index
    rw [RaftLogArray.get, observe_value hfree]
    exact congrArg some (h.lookup index)
  getTerm := by
    intro index
    rw [RaftLogArray.getTerm, observe_value hfree, ← h.lookup index]
    show some (if index < log.baseIndex ∨ log.baseIndex.toNat + log.entries.length ≤ index.toNat
      then 0 else _) = _
    split
    · rfl
    · rfl
  getLast := by
    rw [RaftLogArray.getLast, observe_value hfree, ← h.entries]
    rfl
  getBaseIndex := by
    rw [RaftLogArray.getBaseIndex, observe_value hfree, ← h.base]
    rfl
  getEntriesFrom := by
    intro index
    rw [RaftLogArray.getEntriesFrom, observe_value hfree]
    exact congrArg some (h.rest index)
  labelled := by
    intro i e hi
    rw [h.base]
    rw [h.entries] at hi
    exact IndexedLog.labelled_iff.1 h.labelled i e hi
  parallel := h.parallel
  getLastIndex := by
    rw [RaftLogArray.getLastIndex, observe_value hfree]
    simp only [held_entries, held_baseIndex, List.isEmpty_iff]
    -- an empty array answers 0, which is its last index for the base 1 only
    by_cases hnil : abs.items = []
    · rw [if_pos (by rw [h.entries, hnil])]
      show some (0 : Int) = some abs.last ↔ _
      rw [Option.some_inj, last_eq_zero_iff hnil]
      exact ⟨fun hb _ => hb, fun hb => hb hnil⟩
    · rw [if_neg (by rw [h.entries]; exact hnil), Option.map_some, h.lastIndex hnil]
      exact ⟨fun _ hd => absurd hd hnil, fun _ => rfl⟩
  getLastInfo := by
    rw [RaftLogArray.getLastInfo, observe_value hfree]
    simp only [held_entries, held_baseIndex]
    rw [h.entries]
    -- the same two cases, with the flag that tells them apart
    cases hlast : abs.items.getLast? with
    | none =>
        have hnil : abs.items = [] := List.getLast?_eq_none_iff.1 hlast
        show some (false, (0 : Int), (0 : UInt32)) = some (!abs.items.isEmpty, abs.last, 0) ↔ _
        rw [hnil, Option.some_inj, Prod.mk.injEq, Prod.mk.injEq, last_eq_zero_iff hnil]
        exact ⟨fun hb _ => hb.2.1, fun hb => ⟨rfl, hb rfl, rfl⟩⟩
    | some e =>
        have hne : abs.items ≠ [] := by
          intro hd
          rw [hd] at hlast
          cases hlast
        have hempty : (!abs.items.isEmpty) = true := by
          rw [Bool.not_eq_true', List.isEmpty_eq_false_iff]
          exact hne
        have hindex := h.lastIndex hne
        rw [h.entries] at hindex
        rw [hempty, Option.map_some, hindex]
        exact ⟨fun _ hd => absurd hd hne, fun _ => rfl⟩
  getEntriesFromMax := by
    intro index maxCount
    rw [RaftLogArray.getEntriesFromMax, observe_value hfree, Option.some_inj, ← h.rest index,
      ← h.base]
    show (if index < log.baseIndex then [] else (log.entries.take _).drop _) = _ ↔ _
    by_cases hlt : index < log.baseIndex
    · rw [if_pos hlt, if_pos hlt]
      exact ⟨fun _ => Or.inr (Or.inl rfl), fun _ => List.take_nil.symm⟩
    · -- a negative count becomes a large `size_t` in the end of the slice
      have hle : log.baseIndex ≤ index := UInt32.not_lt.1 hlt
      have hnat : log.baseIndex.toNat ≤ index.toNat := hle
      have hsub := UInt32.toNat_sub_of_le _ _ hle
      have hroom := h.room
      rw [← h.next] at hroom
      have htake := take_endIndex log.entries _ maxCount (index - log.baseIndex).toNat_lt (by omega)
      rw [if_neg hlt, if_neg hlt]
      refine htake.trans ?_
      rw [hsub]
      have hcond : 0 ≤ ((index.toNat - log.baseIndex.toNat : Nat) : Int) + maxCount.toInt ↔
          (log.baseIndex.toNat : Int) ≤ index.toNat + maxCount.toInt := by omega
      rw [hcond]

/-- **The log array is an indexed log.** After every run of proper calls the array answers
as the indexed log does after the same calls. -/
theorem run_answers {ops : List Op} (hproper : ProperRun cfg ops ⟨1, []⟩)
    (hrun : run cfg ops {} = some log) : Answers cfg log (specRun cfg ops ⟨1, []⟩) := by
  obtain ⟨hrefines, hfree⟩ := Refines.new.run rfl hproper hrun
  exact hrefines.answers hfree

/-- A log that starts at 5, and an entry in it. -/
theorem run_answers_reset :
    Answers ⟨⟨100, fun n => n / 2, false⟩, true⟩
      ((effect ⟨⟨100, fun n => n / 2, false⟩, true⟩ {} (.reset 5)).effect
        ⟨⟨100, fun n => n / 2, false⟩, true⟩ (.append ⟨3, 0, 0, [], 0, []⟩))
      (specRun ⟨⟨100, fun n => n / 2, false⟩, true⟩
        [.reset 5, .append ⟨3, 0, 0, [], 0, []⟩] ⟨1, []⟩) :=
  run_answers ⟨trivial, ⟨by decide, fun ht => absurd ht.1 (by decide)⟩, trivial⟩ rfl

/-- A log that starts at 5 and has no entries says that its last index is 0. -/
theorem reset_lastIndex :
    ProperRun ⟨⟨100, fun n => n / 2, false⟩, true⟩ [.reset 5] ⟨1, []⟩ ∧
      ((run ⟨⟨100, fun n => n / 2, false⟩, true⟩ [.reset 5] {}).bind fun log =>
        (getLastIndex ⟨⟨100, fun n => n / 2, false⟩, true⟩ log).value) = some 0 ∧
      (specRun ⟨⟨100, fun n => n / 2, false⟩, true⟩ [.reset 5] ⟨1, []⟩).last = 4 :=
  ⟨⟨trivial, trivial⟩, rfl, rfl⟩

end Observing

end EyaKV.Raft.Disk.RaftLogArray
