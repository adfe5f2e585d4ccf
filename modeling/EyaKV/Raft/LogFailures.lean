import EyaKV.Raft.LogRecovery
import EyaKV.Raft.LogRefinement

/-!
# Failed writes of the log array

A file may take only a part of what an append writes to it. The streams are buffered: `fwrite`
writes some of the bytes that it has so far to the file and leaves the rest in the buffer, and the
`fflush` behind it writes the rest. The array looks at what `fwrite` returns, and not at what
`fflush` does. So of a record that the file does not take, one part fails in `fwrite` and is
reported, and another part fails in `fflush` and is not. What a failing write leaves in the buffer
is discarded.

Here every append comes with the number of bytes that the WAL and the index file still take, and
with what their streams keep back (`Fault`). The other calls are those of `RaftLogArray`, and their
writes succeed.

`FaultyArray` adds the bytes of a record of the index file that was written in part. Without such
bytes, an append whose writes are complete is that of `RaftLogArray` (`call_complete`). In a run
whose steps leave no part of an index record and no entry without its records, the files hold what
is in memory, whatever else fails (`Intact.step`), so that reopening the array gives it back
(`contained_run`).
-/

set_option autoImplicit false

namespace EyaKV.Raft.Disk

open EyaKV.Base EyaKV.Base.Framing EyaKV.Store

section Writing

/-- How a stream writes during a call: how many more bytes its file takes, and how many bytes
`fwrite` writes to the file at once, of those in the buffer and the new ones. -/
structure Outlet where
  room : Nat
  writesOut : Nat → Nat → Nat

/-- The streams of the WAL and of the index file during a call. -/
structure Fault where
  wal : Outlet
  index : Outlet

/-- The file with bytes written to it, if there are any. -/
def File.extend (f : File) (bytes : Bytes) : File := if bytes.isEmpty then f else f.fwrite bytes

/-- A stream during a call: its file, its buffer, and how many bytes the file still takes. -/
structure Stream where
  file : File
  buffer : Bytes
  room : Nat

/-- The first `n` bytes of the buffer are written to the file, if it takes them. If it does not,
the buffer is empty then, too. -/
def Stream.writeOut (s : Stream) (n : Nat) : Bool × Stream :=
  if n ≤ s.room then (true, ⟨s.file.extend (s.buffer.take n), s.buffer.drop n, s.room - n⟩)
  else (false, ⟨s.file.extend (s.buffer.take s.room), [], 0⟩)

/-- `fwrite`, and whether it reports that everything was written. -/
def Stream.fwrite (writesOut : Nat → Nat → Nat) (s : Stream) (bytes : Bytes) : Bool × Stream :=
  { s with buffer := s.buffer ++ bytes }.writeOut
    (min (writesOut s.buffer.length bytes.length) (s.buffer.length + bytes.length))

/-- `fflush`, whose result nobody looks at. -/
def Stream.fflush (s : Stream) : File := (s.writeOut s.buffer.length).2.file

/-- One `fwrite` after the other, until one of them fails. -/
def Stream.fwriteAll (writesOut : Nat → Nat → Nat) : Stream → List Bytes → Bool × Stream
  | s, [] => (true, s)
  | s, bytes :: more =>
      match s.fwrite writesOut bytes with
      | (false, s) => (false, s)
      | (true, s) => s.fwriteAll writesOut more

/-- The writes of a call to one file: those by `fwrite`, and `fflush` if they succeed. -/
def File.writeAll (f : File) (out : Outlet) (pieces : List Bytes) : Bool × File :=
  match Stream.fwriteAll out.writesOut ⟨f, [], out.room⟩ pieces with
  | (false, s) => (false, s.file)
  | (true, s) => (true, s.fflush)

/-- What `write_entry_to_wal` writes: the checksum, the length and the data. -/
def entryPieces (entry : LogEntry) : List Bytes :=
  [le32 (computeChecksum entry.serialize).toNat, le32 entry.serialize.length,
    entry.serialize.take (entry.serialize.length % 2 ^ 32)]

/-- `RaftLogArray::write_entry_to_wal`: the offset if its writes succeed, and the file. -/
def writeEntryUpTo (wal : File) (entry : LogEntry) (out : Outlet) : Option Nat × File :=
  match wal.writeAll out (entryPieces entry) with
  -- the part of a record that the file has got stays there
  | (false, wal') => (none, wal')
  | (true, wal') => (some wal.ftell, wal')

/-- `RaftLogArray::write_batch_to_wal`, with its one write. -/
def writeBatchUpTo (wal : File) (entries : List LogEntry) (out : Outlet) :
    Option (List Nat) × File :=
  match wal.writeAll out [batchBuffer entries] with
  | (false, wal') => (none, wal')
  | (true, wal') => (some (batchOffsets wal.ftell entries), wal')

theorem File.Appends.extend {f : File} (h : f.Appends) (bytes : Bytes) :
    (f.extend bytes).content = f.content ++ bytes ∧ (f.extend bytes).Appends ∧
      (f.AtEnd ∨ bytes ≠ [] → (f.extend bytes).AtEnd) := by
  rw [File.extend]
  cases bytes with
  | nil =>
      rw [List.isEmpty_nil, if_pos rfl, List.append_nil]
      exact ⟨rfl, h, fun hd => hd.resolve_right fun hne => hne rfl⟩
  | cons b bs =>
      obtain ⟨hcontent, hend⟩ := h.fwrite (b :: bs)
      rw [List.isEmpty_cons, if_neg Bool.false_ne_true]
      exact ⟨hcontent, Or.inr hend, fun _ => hend⟩

theorem File.Appends.fwrite_eq {f : File} (h : f.Appends) (bytes : Bytes) :
    f.fwrite bytes = ⟨f.content ++ bytes, (f.content ++ bytes).length, f.append⟩ := by
  obtain ⟨hcontent, hend⟩ := h.fwrite bytes
  have hmode : (f.fwrite bytes).append = f.append := by
    rw [File.fwrite]
    split <;> rfl
  rw [File.AtEnd, hcontent] at hend
  show File.mk (f.fwrite bytes).content (f.fwrite bytes).pos (f.fwrite bytes).append = _
  rw [hend, hcontent, hmode]

theorem File.Appends.fwrite_fwrite {f : File} (h : f.Appends) (first second : Bytes) :
    (f.fwrite first).fwrite second = f.fwrite (first ++ second) := by
  have hfirst : (f.fwrite first).Appends := Or.inr (h.fwrite first).2
  rw [hfirst.fwrite_eq, h.fwrite_eq, h.fwrite_eq, List.append_assoc]

/-- A file takes what is written in two parts. -/
theorem File.Appends.extend_extend {f : File} (h : f.Appends) (first second : Bytes) :
    (f.extend first).extend second = f.extend (first ++ second) := by
  cases first with
  | nil => rfl
  | cons b bs =>
      cases second with
      | nil => rw [List.append_nil]; rfl
      | cons c cs => exact h.fwrite_fwrite (b :: bs) (c :: cs)

/-- How many bytes calls of `fwrite` with these sizes write to the file, when `written` of `total`
bytes have been written before. -/
def pushedFrom (writesOut : Nat → Nat → Nat) : Nat → Nat → List Nat → Nat
  | written, _, [] => written
  | written, total, n :: sizes =>
      pushedFrom writesOut
        (written + min (writesOut (total - written) n) (total - written + n)) (total + n) sizes

/-- All calls of `fwrite` with these sizes report that everything was written. -/
def Outlet.Takes (out : Outlet) (sizes : List Nat) : Prop :=
  pushedFrom out.writesOut 0 0 sizes ≤ out.room

instance (out : Outlet) (sizes : List Nat) : Decidable (out.Takes sizes) :=
  inferInstanceAs (Decidable (_ ≤ _))

theorem le_pushedFrom (writesOut : Nat → Nat → Nat) (sizes : List Nat) (written total : Nat) :
    written ≤ pushedFrom writesOut written total sizes := by
  induction sizes generalizing written total with
  | nil => exact Nat.le_refl _
  | cons n sizes ih => exact (Nat.le_add_right _ _).trans (ih _ _)

theorem pushedFrom_le (writesOut : Nat → Nat → Nat) (sizes : List Nat) {written total : Nat}
    (h : written ≤ total) : pushedFrom writesOut written total sizes ≤ total + sizes.sum := by
  induction sizes generalizing written total with
  | nil => exact h
  | cons n sizes ih =>
      rw [pushedFrom, List.sum_cons, ← Nat.add_assoc]
      apply ih
      omega

/-- A file that takes all bytes takes those that `fwrite` writes. -/
theorem Outlet.takes_of_room {out : Outlet} {sizes : List Nat} (h : sizes.sum ≤ out.room) :
    out.Takes sizes := by
  have hle := pushedFrom_le out.writesOut sizes (Nat.le_refl 0)
  rw [Nat.zero_add] at hle
  exact hle.trans h

/-- A stream that has got `bytes` and has written `written` of them to the file. -/
structure Stream.Behind (f : File) (room : Nat) (bytes : Bytes) (written : Nat) (s : Stream) :
    Prop where
  le : written ≤ bytes.length
  room_le : written ≤ room
  file : s.file = f.extend (bytes.take written)
  buffer : s.buffer = bytes.drop written
  room_eq : s.room = room - written

/-- **Writing to the file.** The stream gets on, or the file is full. -/
theorem Stream.Behind.writeOut {f : File} {room written : Nat} {bytes : Bytes} {s : Stream}
    (hf : f.Appends) (h : s.Behind f room bytes written) {n : Nat} (hn : written + n ≤ bytes.length) :
    if written + n ≤ room then ∃ s', s.writeOut n = (true, s') ∧ s'.Behind f room bytes (written + n)
    else ∃ s', s.writeOut n = (false, s') ∧ s'.file = f.extend (bytes.take room) := by
  have htake (k : Nat) : s.file.extend (s.buffer.take k) = f.extend (bytes.take (written + k)) := by
    rw [h.file, h.buffer, hf.extend_extend, List.take_add]
  have hroom := h.room_eq
  have hle := h.room_le
  split
  · next hfits =>
      rw [Stream.writeOut, if_pos (by omega)]
      refine ⟨_, rfl, hn, hfits, htake n, ?_, ?_⟩
      · rw [h.buffer, List.drop_drop]
      · rw [hroom, Nat.sub_sub]
  · next hfull =>
      rw [Stream.writeOut, if_neg (by omega)]
      refine ⟨_, rfl, ?_⟩
      rw [htake, hroom, Nat.add_sub_cancel' hle]

theorem Stream.Behind.grow {f : File} {room written : Nat} {bytes : Bytes} {s : Stream}
    (h : s.Behind f room bytes written) (more : Bytes) :
    ({ s with buffer := s.buffer ++ more } : Stream).Behind f room (bytes ++ more) written where
  le := h.le.trans (List.length_append ▸ Nat.le_add_right _ _)
  room_le := h.room_le
  file := by rw [List.take_append_of_le_length h.le]; exact h.file
  buffer := by rw [List.drop_append_of_le_length h.le, ← h.buffer]
  room_eq := h.room_eq

theorem Stream.Behind.length_buffer {f : File} {room written : Nat} {bytes : Bytes} {s : Stream}
    (h : s.Behind f room bytes written) : s.buffer.length = bytes.length - written := by
  rw [h.buffer, List.length_drop]

/-- **A row of `fwrite`s.** They report a failure exactly when the file does not take what they
write to it. -/
theorem Stream.Behind.fwriteAll {f : File} {room written : Nat} {bytes : Bytes} {s : Stream}
    (hf : f.Appends) (writesOut : Nat → Nat → Nat) (h : s.Behind f room bytes written)
    (pieces : List Bytes) :
    if pushedFrom writesOut written bytes.length (pieces.map List.length) ≤ room then
      ∃ s' written', s.fwriteAll writesOut pieces = (true, s') ∧
        s'.Behind f room (bytes ++ pieces.flatten) written'
    else ∃ s', s.fwriteAll writesOut pieces = (false, s') ∧
      s'.file = f.extend ((bytes ++ pieces.flatten).take room) := by
  induction pieces generalizing bytes written s with
  | nil =>
      rw [List.map_nil, pushedFrom, if_pos h.room_le, List.flatten_nil, List.append_nil]
      exact ⟨s, written, rfl, h⟩
  | cons piece pieces ih =>
      have hlength := h.length_buffer
      have hle := h.le
      rw [List.map_cons, pushedFrom, List.flatten_cons, ← List.append_assoc,
        ← List.length_append, ← hlength, Stream.fwriteAll, Stream.fwrite]
      have hn : written + min (writesOut s.buffer.length piece.length)
          (s.buffer.length + piece.length) ≤ (bytes ++ piece).length := by
        rw [List.length_append]
        omega
      have hout := (h.grow piece).writeOut hf hn
      split at hout
      · obtain ⟨s', heq, h'⟩ := hout
        rw [heq]
        exact ih h'
      · next hfull =>
          -- the call returns, and what is still to be written does not matter
          obtain ⟨s', heq, hfile⟩ := hout
          have hmore := le_pushedFrom writesOut (pieces.map List.length)
            (written + min (writesOut s.buffer.length piece.length)
              (s.buffer.length + piece.length)) (bytes ++ piece).length
          have hlong : room ≤ (bytes ++ piece).length := (Nat.le_of_not_le hfull).trans hn
          rw [heq, if_neg fun hfits => hfull (hmore.trans hfits)]
          refine ⟨s', rfl, ?_⟩
          rw [hfile, List.take_append_of_le_length hlong]

/-- **The writes of a call.** The file gets what it takes, reported or not. -/
theorem File.writeAll_eq {f : File} (h : f.Appends) (out : Outlet) (pieces : List Bytes) :
    f.writeAll out pieces = (decide (out.Takes (pieces.map List.length)),
      f.extend (pieces.flatten.take out.room)) := by
  have hstart : Stream.Behind f out.room [] 0 ⟨f, [], out.room⟩ :=
    ⟨Nat.le_refl _, Nat.zero_le _, rfl, rfl, rfl⟩
  have hall := hstart.fwriteAll h out.writesOut pieces
  rw [List.nil_append, List.length_nil] at hall
  rw [File.writeAll]
  split at hall
  · next htakes =>
    obtain ⟨s, written, heq, hbehind⟩ := hall
    rw [heq, decide_eq_true (show out.Takes _ from htakes)]
    have hflush := hbehind.writeOut h (n := s.buffer.length) (by
      rw [hbehind.length_buffer, Nat.add_sub_cancel' hbehind.le])
    rw [hbehind.length_buffer, Nat.add_sub_cancel' hbehind.le] at hflush
    have hsame : s.fflush = f.extend (pieces.flatten.take out.room) := by
      rw [Stream.fflush, hbehind.length_buffer]
      split at hflush
      · next hfits =>
          obtain ⟨s', hs', hdone⟩ := hflush
          rw [hs', hdone.file, List.take_length, List.take_of_length_le hfits]
      · obtain ⟨s', hs', hfull⟩ := hflush
        rw [hs', hfull]
    exact Prod.ext rfl hsame
  · next htakes =>
    obtain ⟨s, heq, hfile⟩ := hall
    rw [heq, decide_eq_false (show ¬ out.Takes _ from htakes)]
    exact Prod.ext rfl hfile

/-- The sizes of the three writes of an entry. -/
def entrySizes (entry : LogEntry) : List Nat := (entryPieces entry).map List.length

theorem flatten_entryPieces (entry : LogEntry) : (entryPieces entry).flatten = walRecord entry := by
  rw [entryPieces, List.flatten_cons, List.flatten_cons, List.flatten_singleton, walRecord]

theorem sum_entrySizes (entry : LogEntry) : (entrySizes entry).sum = (walRecord entry).length := by
  rw [← flatten_entryPieces, List.length_flatten, entrySizes]

/-- The three writes of an entry are writes of its record. -/
theorem writeEntryUpTo_eq {wal : File} (h : wal.Appends) (entry : LogEntry) (out : Outlet) :
    writeEntryUpTo wal entry out =
      (if out.Takes (entrySizes entry) then some wal.ftell else none,
        wal.extend ((walRecord entry).take out.room)) := by
  rw [writeEntryUpTo, File.writeAll_eq h, flatten_entryPieces, ← entrySizes]
  by_cases htakes : out.Takes (entrySizes entry)
  · rw [decide_eq_true htakes, if_pos htakes]
  · rw [decide_eq_false htakes, if_neg htakes]

theorem writeBatchUpTo_eq {wal : File} (h : wal.Appends) (entries : List LogEntry)
    (out : Outlet) :
    writeBatchUpTo wal entries out =
      (if out.Takes [(batchBuffer entries).length] then some (batchOffsets wal.ftell entries)
        else none, wal.extend ((batchBuffer entries).take out.room)) := by
  rw [writeBatchUpTo, File.writeAll_eq h, List.flatten_singleton, List.map_singleton]
  by_cases htakes : out.Takes [(batchBuffer entries).length]
  · rw [decide_eq_true htakes, if_pos htakes]
  · rw [decide_eq_false htakes, if_neg htakes]

end Writing

namespace RaftLogArray

section Labels

variable {cfg : Config} {log log' : RaftLogArray}

/-- Each entry in memory carries its index. -/
def Labelled (log : RaftLogArray) : Prop :=
  ∀ i e, log.entries[i]? = some e → e.index = log.baseIndex + .ofNat i

theorem newIndex_eq_add (log : RaftLogArray) :
    log.newIndex = log.baseIndex + .ofNat log.entries.length := by
  rw [newIndex, UInt32.ofNat_add, UInt32.ofNat_toNat]

theorem numbered_index {start : UInt32} {entries : List LogEntry} {i : Nat} {e : LogEntry}
    (h : (numbered start entries)[i]? = some e) : e.index = start + .ofNat i := by
  induction entries generalizing start i with
  | nil => simp [numbered] at h
  | cons a as ih =>
      cases i with
      | zero =>
          obtain rfl := Option.some.inj h
          simp
      | succ i =>
          rw [ih h, UInt32.ofNat_add, UInt32.add_assoc, UInt32.add_comm 1]
          rfl

theorem Labelled.new : Labelled {} := by
  intro i e he
  simp at he

/-- Entries that go on with the numbering. -/
theorem Labelled.grow (h : Labelled log) {more : List LogEntry}
    (hmore : numbered log.newIndex more = more) (hbase : log'.baseIndex = log.baseIndex)
    (hentries : log'.entries = log.entries ++ more) : Labelled log' := by
  intro i e he
  rw [hentries] at he
  rw [hbase]
  by_cases hi : i < log.entries.length
  · rw [List.getElem?_append_left hi] at he
    exact h i e he
  · rw [List.getElem?_append_right (Nat.le_of_not_lt hi), ← hmore] at he
    rw [numbered_index he, newIndex_eq_add, UInt32.add_assoc, ← UInt32.ofNat_add,
      Nat.add_sub_cancel' (Nat.le_of_not_lt hi)]

theorem Labelled.dropBelow (h : Labelled log) (index : UInt32) : Labelled (log.dropBelow index) := by
  intro i e he
  have hdrop : (log.entries.drop (index - log.baseIndex).toNat)[i]? = some e := he
  rw [List.getElem?_drop] at hdrop
  rw [h _ e hdrop, UInt32.ofNat_add, UInt32.ofNat_toNat, ← UInt32.add_assoc]
  show log.baseIndex + (index - log.baseIndex) + _ = index + _
  rw [UInt32.add_comm log.baseIndex, UInt32.sub_add_cancel]

theorem Labelled.keepBelow (h : Labelled log) (index : UInt32) : Labelled (log.keepBelow index) := by
  intro i e he
  have htake : (log.entries.take (index - log.baseIndex).toNat)[i]? = some e := he
  obtain ⟨hi, -⟩ := List.getElem?_eq_some_iff.1 htake
  rw [List.length_take] at hi
  rw [List.getElem?_take_of_lt (by omega)] at htake
  exact h i e htake

theorem Labelled.cutFrom (h : Labelled log) (index : UInt32) : Labelled (log.cutFrom index) := by
  rw [RaftLogArray.cutFrom]
  split
  · exact h.keepBelow index
  · exact h

theorem Labelled.cutBefore (h : Labelled log) (index : UInt32) : Labelled (log.cutBefore index) := by
  rw [RaftLogArray.cutBefore]
  split
  · exact h.dropBelow index
  · exact h

theorem Labelled.shed (h : Labelled log) (cfg : Config) : Labelled (shed cfg log) := by
  rw [RaftLogArray.shed]
  split
  · exact h.cutBefore _
  · exact h

/-- The entries that an append is given, as it stores them. -/
def given (log : RaftLogArray) : Op → Option (List LogEntry)
  | .append entry => some [{ entry with index := log.newIndex }]
  | .appendConst entry => some [entry]
  | .batchAppend entries => some (numbered log.newIndex entries)
  | .batchAppendConst entries => some entries
  | .truncateFrom _ | .truncateBefore _ | .createSnapshot _ | .reset _ => none

/-- The bytes that the call writes to the WAL. -/
def walBytes (log : RaftLogArray) : Op → Bytes
  | .append entry => walRecord { entry with index := log.newIndex }
  | .appendConst entry => walRecord entry
  | .batchAppend entries => batchBuffer (numbered log.newIndex entries)
  | .batchAppendConst entries => batchBuffer entries
  | .truncateFrom _ | .truncateBefore _ | .createSnapshot _ | .reset _ => []

/-- The sizes of the writes of the call to the WAL. -/
def walSizes (log : RaftLogArray) : Op → List Nat
  | .append entry => entrySizes { entry with index := log.newIndex }
  | .appendConst entry => entrySizes entry
  | .batchAppend entries => [(batchBuffer (numbered log.newIndex entries)).length]
  | .batchAppendConst entries => [(batchBuffer entries).length]
  | .truncateFrom _ | .truncateBefore _ | .createSnapshot _ | .reset _ => []

theorem sum_walSizes (log : RaftLogArray) (op : Op) :
    (log.walSizes op).sum = (log.walBytes op).length := by
  cases op with
  | append entry | appendConst entry => exact sum_entrySizes _
  | batchAppend entries | batchAppendConst entries => exact List.sum_singleton
  | truncateFrom _ | truncateBefore _ | createSnapshot _ | reset _ => rfl

/-- An append with entries returns truncated, or waits before it truncates. -/
theorem call_given (h : Free cfg log) {op : Op} {more : List LogEntry}
    (hgiven : log.given op = some more) (hne : more ≠ []) :
    call cfg op log =
      if OverThreshold cfg (log.halfway op).entries.length ∧ cfg.relock = false then
        .blocked (log.halfway op).held
      else .returned true (shed cfg (log.halfway op)) := by
  cases op with
  | append entry =>
      exact grow_free h (fun log => log.appendEntry { entry with index := log.newIndex })
        rfl rfl rfl
  | appendConst entry => exact grow_free h (fun log => log.appendEntry entry) rfl rfl rfl
  | batchAppend entries =>
      cases entries with
      | nil => exact absurd (Option.some.inj hgiven).symm hne
      | cons e es =>
          exact grow_free h (fun log => log.appendEntries (numbered log.newIndex (e :: es)))
            rfl rfl rfl
  | batchAppendConst entries =>
      cases entries with
      | nil => exact absurd (Option.some.inj hgiven).symm hne
      | cons e es => exact grow_free h (fun log => log.appendEntries (e :: es)) rfl rfl rfl
  | truncateFrom _ | truncateBefore _ | createSnapshot _ | reset _ => cases hgiven

/-- The call is one of the two overloads of `append`. -/
def IsSingle : Op → Prop
  | .append _ | .appendConst _ => True
  | .batchAppend _ | .batchAppendConst _ | .truncateFrom _ | .truncateBefore _
  | .createSnapshot _ | .reset _ => False

theorem Labelled.halfway (h : Labelled log) {op : Op}
    (hnum : ∀ more, log.given op = some more → numbered log.newIndex more = more) :
    Labelled (log.halfway op) := by
  cases op with
  | append entry => exact h.grow (hnum _ rfl) rfl rfl
  | appendConst entry => exact h.grow (hnum _ rfl) rfl rfl
  | batchAppend entries => exact h.grow (hnum _ rfl) rfl rfl
  | batchAppendConst entries => exact h.grow (hnum _ rfl) rfl rfl
  | truncateFrom index => exact h
  | truncateBefore index => exact h.dropBelow index
  | createSnapshot snapshotIndex => exact h
  | reset newStartIndex => exact h

theorem Labelled.effect (h : Labelled log) {op : Op}
    (hnum : ∀ more, log.given op = some more → numbered log.newIndex more = more) :
    Labelled (log.effect cfg op) := by
  cases op with
  | append entry => exact (h.halfway hnum).shed cfg
  | appendConst entry => exact (h.halfway hnum).shed cfg
  | batchAppend entries =>
      cases entries with
      | nil => exact h
      | cons e es => exact (h.halfway hnum).shed cfg
  | batchAppendConst entries =>
      cases entries with
      | nil => exact h
      | cons e es => exact (h.halfway hnum).shed cfg
  | truncateFrom index => exact h.cutFrom index
  | truncateBefore index => exact h.cutBefore index
  | createSnapshot snapshotIndex =>
      show Labelled (if log.Holds snapshotIndex then _ else log)
      split
      · exact h.cutBefore _
      · exact h
  | reset newStartIndex =>
      intro i e he
      simp [RaftLogArray.effect] at he

/-- A call leaves or waits in a labelled array. -/
theorem Labelled.call (h : Labelled log) (hfree : Free cfg log) {op : Op}
    (hnum : ∀ more, log.given op = some more → numbered log.newIndex more = more) :
    Labelled (call cfg op log).state := by
  cases hcall : RaftLogArray.call cfg op log with
  | returned b log' =>
      show Labelled log'
      rw [call_returned hfree hcall]
      exact h.effect hnum
  | blocked log' =>
      show Labelled log'
      rw [(call_blocked hfree hcall).2]
      exact h.halfway hnum

theorem Labelled.head (h : Labelled log) {e : LogEntry} (he : log.entries.head? = some e) :
    e.index = log.baseIndex := by
  rw [List.head?_eq_getElem?] at he
  rw [h 0 e he]
  simp

theorem Labelled.reopen (h : Labelled log) (hstored : Stored log) (cfg : Config) :
    Labelled (log.reopen cfg) := by
  rw [hstored.reopen_eq cfg]
  intro i e he
  cases hhead : log.entries.head? with
  | none =>
      rw [List.head?_eq_none_iff] at hhead
      simp [hhead] at he
  | some first =>
      simp only
      rw [h.head hhead]
      exact h i e he

/-- The base that the files give back. -/
theorem Labelled.baseStored_iff (h : Labelled log) :
    log.BaseStored ↔ log.entries ≠ [] ∨ log.baseIndex = 1 := by
  rw [BaseStored]
  cases hhead : log.entries.head? with
  | none =>
      rw [List.head?_eq_none_iff] at hhead
      simp [hhead]
  | some first =>
      have hne : log.entries ≠ [] := by
        rintro hnil
        rw [hnil] at hhead
        cases hhead
      exact ⟨fun _ => Or.inl hne, fun _ => h.head hhead⟩

end Labels

end RaftLogArray

/-- The array with the bytes of the index file behind its last whole record. -/
structure FaultyArray where
  log : RaftLogArray := {}
  torn : Bytes := []
  deriving DecidableEq

/-- What a call does, and the bytes behind the last whole record of the index file after it. -/
abbrev FaultyReply := Reply Bool × Bytes

/-- The state that a call leaves or waits in. -/
def FaultyReply.state (r : FaultyReply) : FaultyArray := ⟨r.1.state, r.2⟩

namespace FaultyArray

variable (cfg : Config)

/-- The write of offsets to the index file: what `fwrite` reports, and the array. The file gets as
many bytes as it takes. Behind a part of a record, they are read together with it. -/
def writeIndex (a : FaultyArray) (offsets : List Nat) (out : Outlet) : Bool × FaultyArray :=
  let records := offsets.flatMap le64
  (((File.openAppend []).writeAll out [records]).1,
    if a.torn = [] then
      { log := { a.log with indexFile := a.log.indexFile ++ complete le64 offsets out.room }
        torn := Framing.torn le64 offsets out.room }
    else
      let bytes := a.torn ++ records.take out.room
      { log := { a.log with indexFile := a.log.indexFile ++ scanAll readLe64 bytes }
        torn := bytes.drop (bytes.length / 8 * 8) })

/-- The common part of both overloads of `append`: whether the WAL was written, and the array. -/
def appendEntry (a : FaultyArray) (entry : LogEntry) (fault : Fault) : Bool × FaultyArray :=
  match writeEntryUpTo a.log.wal entry fault.wal with
  | (none, wal) => (false, { a with log := { a.log with wal := wal } })
  | (some offset, wal) =>
      let added : FaultyArray := { a with log := { a.log with
        wal := wal
        entries := a.log.entries ++ [entry]
        indexOffsets := a.log.indexOffsets ++ [offset] } }
      -- a failure to write the index is logged
      (true, (added.writeIndex [offset] fault.index).2)

/-- The common part of both overloads of `batch_append`: whether both files were written, and the
array. -/
def appendEntries (a : FaultyArray) (entries : List LogEntry) (fault : Fault) :
    Bool × FaultyArray :=
  match writeBatchUpTo a.log.wal entries fault.wal with
  | (none, wal) => (false, { a with log := { a.log with wal := wal } })
  | (some offsets, wal) =>
      match { a with log := { a.log with wal := wal } : FaultyArray }.writeIndex offsets
          fault.index with
      -- the memory is as it was, but the files have records that it does not know
      | (false, b) => (false, b)
      | (true, b) =>
          (true, { b with log := { b.log with
            entries := b.log.entries ++ entries
            indexOffsets := b.log.indexOffsets ++ offsets } })

/-- A scope that holds the mutex. -/
def withLock (body : FaultyArray → FaultyReply) (a : FaultyArray) : FaultyReply :=
  if a.log.locked && !cfg.relock then (.blocked a.log, a.torn)
  else
    let r := body { a with log := { a.log with locked := true } }
    (r.1.andThen fun b log => .returned b { log with locked := a.log.locked }, r.2)

/-- `truncate_before` comes to the files. -/
def CutsBefore (log : RaftLogArray) (index : UInt32) : Prop :=
  log.Covers index ∧ index ≠ log.baseIndex

instance (log : RaftLogArray) (index : UInt32) : Decidable (CutsBefore log index) :=
  inferInstanceAs (Decidable (_ ∧ _))

/-- The end of the append operations. New files have whole records. -/
def truncateOverThreshold (a : FaultyArray) : FaultyReply :=
  let n := a.log.entries.length
  (RaftLogArray.truncateOverThreshold cfg a.log,
    if RaftLogArray.OverThreshold cfg n ∧ cfg.relock = true ∧
        CutsBefore a.log (a.log.baseIndex + .ofNat (cfg.truncateCount n)) then []
    else a.torn)

/-- The scope of the append operations, with what they return when a write fails. -/
def grow (failed : Bool) (write : FaultyArray → Bool × FaultyArray) : FaultyArray → FaultyReply :=
  withLock cfg fun a =>
    match write a with
    | (false, b) => (.returned failed b.log, b.torn)
    | (true, b) => b.truncateOverThreshold cfg

/-- `RaftLogArray::append(LogEntry &)`. When the WAL cannot be written it returns `-1`, which is
`true`. -/
def append (entry : LogEntry) (fault : Fault) : FaultyArray → FaultyReply :=
  grow cfg true fun a => a.appendEntry { entry with index := a.log.newIndex } fault

/-- `RaftLogArray::append(const LogEntry &)`. -/
def appendConst (entry : LogEntry) (fault : Fault) : FaultyArray → FaultyReply :=
  grow cfg true fun a => a.appendEntry entry fault

/-- `RaftLogArray::batch_append(std::vector<LogEntry> &)`. -/
def batchAppend (entries : List LogEntry) (fault : Fault) (a : FaultyArray) : FaultyReply :=
  if entries.isEmpty then (.returned true a.log, a.torn)
  else grow cfg false
    (fun a => a.appendEntries (RaftLogArray.numbered a.log.newIndex entries) fault) a

/-- `RaftLogArray::batch_append(const std::vector<LogEntry> &)`. -/
def batchAppendConst (entries : List LogEntry) (fault : Fault) (a : FaultyArray) : FaultyReply :=
  if entries.isEmpty then (.returned true a.log, a.torn)
  else grow cfg false (fun a => a.appendEntries entries fault) a

/-- The call comes to new files. -/
def Rewrites (log : RaftLogArray) : RaftLogArray.Op → Prop
  | .truncateFrom index => cfg.relock = true ∧ log.Covers index ∧
      index.toNat ≠ log.baseIndex.toNat + log.entries.length
  | .truncateBefore index => CutsBefore log index
  | .createSnapshot snapshotIndex => cfg.relock = true ∧ log.Holds snapshotIndex ∧
      CutsBefore log (snapshotIndex + 1)
  | .reset _ => True
  | .append _ | .appendConst _ | .batchAppend _ | .batchAppendConst _ => False

instance (log : RaftLogArray) : (op : RaftLogArray.Op) → Decidable (Rewrites cfg log op)
  | .truncateFrom _ | .createSnapshot _ => inferInstanceAs (Decidable (_ ∧ _ ∧ _))
  | .truncateBefore index => inferInstanceAs (Decidable (CutsBefore log index))
  | .reset _ => inferInstanceAs (Decidable True)
  | .append _ | .appendConst _ | .batchAppend _ | .batchAppendConst _ =>
      inferInstanceAs (Decidable False)

/-- The call of a mutator. -/
def call (op : RaftLogArray.Op) (fault : Fault) (a : FaultyArray) : FaultyReply :=
  match op with
  | .append entry => append cfg entry fault a
  | .appendConst entry => appendConst cfg entry fault a
  | .batchAppend entries => batchAppend cfg entries fault a
  | .batchAppendConst entries => batchAppendConst cfg entries fault a
  | op => (RaftLogArray.call cfg op a.log, if Rewrites cfg a.log op then [] else a.torn)

/-- The array is closed, or its process ends, and it is opened again. `load_index` reads the whole
records. -/
def reopen (a : FaultyArray) : FaultyArray := { a with log := a.log.reopen cfg }

section Outcomes

variable {cfg} {a : FaultyArray} {log : RaftLogArray} {torn : Bytes} {entry : LogEntry}
  {entries : List LogEntry} {fault : Fault}

theorem appendEntry_failed (h : log.wal.Appends)
    (hfull : ¬ fault.wal.Takes (entrySizes entry)) :
    appendEntry ⟨log, torn⟩ entry fault = (false,
      ⟨{ log with wal := log.wal.extend ((walRecord entry).take fault.wal.room) }, torn⟩) := by
  rw [appendEntry, writeEntryUpTo_eq h, if_neg hfull]

theorem length_offsets (offsets : List Nat) : (offsets.flatMap le64).length = 8 * offsets.length := by
  induction offsets with
  | nil => rfl
  | cons o os ih =>
      rw [List.flatMap_cons, List.length_append, ih, length_le64, List.length_cons]
      omega

theorem writeIndex_fst (offsets : List Nat) (out : Outlet) :
    ((File.openAppend []).writeAll out [offsets.flatMap le64]).1 =
      decide (out.Takes [8 * offsets.length]) := by
  rw [File.writeAll_eq (Or.inl rfl), List.map_singleton, length_offsets]

/-- A write of the index changes the index file only. -/
theorem writeIndex_eq (a : FaultyArray) (offsets : List Nat) (out : Outlet) :
    ∃ index torn, a.writeIndex offsets out =
      (decide (out.Takes [8 * offsets.length]), ⟨{ a.log with indexFile := index }, torn⟩) := by
  rw [writeIndex, writeIndex_fst]
  split
  · exact ⟨_, _, rfl⟩
  · exact ⟨_, _, rfl⟩

theorem writeIndex_complete (log : RaftLogArray) {offsets : List Nat} {out : Outlet}
    (hroom : 8 * offsets.length ≤ out.room) :
    writeIndex ⟨log, []⟩ offsets out =
      (true, ⟨{ log with indexFile := log.indexFile ++ offsets }, []⟩) := by
  have htakes : out.Takes [8 * offsets.length] := Outlet.takes_of_room (by rwa [List.sum_singleton])
  rw [← length_offsets] at hroom
  obtain ⟨hcomplete, hnone⟩ := complete_whole le64 hroom
  rw [writeIndex, if_pos rfl, hcomplete, hnone, writeIndex_fst, decide_eq_true htakes]

/-- Nothing is left behind when the index file takes no byte. -/
theorem writeIndex_none (log : RaftLogArray) {offsets : List Nat} {out : Outlet}
    (hroom : out.room = 0) :
    writeIndex ⟨log, []⟩ offsets out = (decide (out.Takes [8 * offsets.length]), ⟨log, []⟩) := by
  rw [writeIndex, if_pos rfl, writeIndex_fst, hroom]
  cases offsets with
  | nil => simp [complete, Framing.torn]
  | cons o os => simp [complete, Framing.torn, length_le64]

/-- One record is left behind when the index file takes eight bytes. -/
theorem writeIndex_one (log : RaftLogArray) (offset : Nat) (offsets : List Nat) {out : Outlet}
    (hroom : out.room = 8) :
    writeIndex ⟨log, []⟩ (offset :: offsets) out =
      (decide (out.Takes [8 * (offset :: offsets).length]),
        ⟨{ log with indexFile := log.indexFile ++ [offset] }, []⟩) := by
  rw [writeIndex, if_pos rfl, writeIndex_fst, hroom]
  cases offsets with
  | nil => simp [complete, Framing.torn, length_le64]
  | cons o os => simp [complete, Framing.torn, length_le64]

/-- When the writes of the WAL report success, the entry is in memory. -/
theorem appendEntry_memory (h : log.wal.Appends) (htakes : fault.wal.Takes (entrySizes entry)) :
    appendEntry ⟨log, torn⟩ entry fault = (true, (writeIndex ⟨{ log.appendEntry entry with
      wal := log.wal.extend ((walRecord entry).take fault.wal.room)
      indexFile := log.indexFile }, torn⟩ [log.wal.ftell] fault.index).2) := by
  rw [appendEntry, writeEntryUpTo_eq h, if_pos htakes]
  rfl

theorem appendEntry_complete (h : log.wal.Appends)
    (hroom : (walRecord entry).length ≤ fault.wal.room) (hindex : 8 ≤ fault.index.room) :
    appendEntry ⟨log, []⟩ entry fault = (true, ⟨log.appendEntry entry, []⟩) := by
  rw [appendEntry_memory h (Outlet.takes_of_room (sum_entrySizes entry ▸ hroom)),
    List.take_of_length_le hroom, writeIndex_complete _ (by simpa using hindex), File.extend,
    show (walRecord entry).isEmpty = false from rfl, if_neg Bool.false_ne_true]
  rfl

theorem appendEntries_failed (h : log.wal.Appends)
    (hfull : ¬ fault.wal.Takes [(batchBuffer entries).length]) :
    appendEntries ⟨log, torn⟩ entries fault = (false,
      ⟨{ log with wal := log.wal.extend ((batchBuffer entries).take fault.wal.room) }, torn⟩) := by
  rw [appendEntries, writeBatchUpTo_eq h, if_neg hfull]

/-- When the write of the WAL reports success, the offsets are next. -/
theorem appendEntries_written (h : log.wal.Appends)
    (htakes : fault.wal.Takes [(batchBuffer entries).length]) :
    appendEntries ⟨log, torn⟩ entries fault =
      match writeIndex ⟨{ log with
          wal := log.wal.extend ((batchBuffer entries).take fault.wal.room) }, torn⟩
          (batchOffsets log.wal.ftell entries) fault.index with
      | (false, b) => (false, b)
      | (true, b) => (true, { b with log := { b.log with
          entries := b.log.entries ++ entries
          indexOffsets := b.log.indexOffsets ++ batchOffsets log.wal.ftell entries } }) := by
  rw [appendEntries, writeBatchUpTo_eq h, if_pos htakes]

theorem appendEntries_complete (h : log.wal.Appends) (hne : entries ≠ [])
    (hroom : (batchBuffer entries).length ≤ fault.wal.room)
    (hindex : 8 * entries.length ≤ fault.index.room) :
    appendEntries ⟨log, []⟩ entries fault = (true, ⟨log.appendEntries entries, []⟩) := by
  obtain ⟨e, es, rfl⟩ := List.exists_cons_of_ne_nil hne
  rw [appendEntries_written h (Outlet.takes_of_room (by rwa [List.sum_singleton])),
    List.take_of_length_le hroom,
    writeIndex_complete _ (by rwa [RaftLogArray.batchOffsets_length])]
  rfl

theorem appendEntries_none (h : log.wal.Appends)
    (htakes : fault.wal.Takes [(batchBuffer entries).length]) (hroom : fault.index.room = 0)
    (hindex : ¬ fault.index.Takes [8 * entries.length]) :
    appendEntries ⟨log, []⟩ entries fault = (false,
      ⟨{ log with wal := log.wal.extend ((batchBuffer entries).take fault.wal.room) }, []⟩) := by
  rw [appendEntries_written h htakes, writeIndex_none _ hroom,
    RaftLogArray.batchOffsets_length, decide_eq_false hindex]

theorem appendEntries_one {e : LogEntry} (h : log.wal.Appends)
    (htakes : fault.wal.Takes [(batchBuffer (e :: entries)).length]) (hroom : fault.index.room = 8)
    (hindex : ¬ fault.index.Takes [8 * (e :: entries).length]) :
    appendEntries ⟨log, []⟩ (e :: entries) fault = (false,
      ⟨{ log with
        wal := log.wal.extend ((batchBuffer (e :: entries)).take fault.wal.room)
        indexFile := log.indexFile ++ [log.wal.ftell] }, []⟩) := by
  rw [appendEntries_written h htakes, batchOffsets, writeIndex_one _ _ _ hroom, List.length_cons,
    RaftLogArray.batchOffsets_length, ← List.length_cons (a := e), decide_eq_false hindex]

/-- A batch that is reported not to be written leaves the memory as it is. -/
theorem appendEntries_memory (h : log.wal.Appends) (torn : Bytes)
    (htakes : fault.wal.Takes [(batchBuffer entries).length]) :
    ∃ ok index torn', appendEntries ⟨log, torn⟩ entries fault =
      (ok, ⟨{ (if ok then log.appendEntries entries else log) with
        wal := log.wal.extend ((batchBuffer entries).take fault.wal.room)
        indexFile := index }, torn'⟩) := by
  obtain ⟨index, torn', hindex⟩ := writeIndex_eq ⟨{ log with
    wal := log.wal.extend ((batchBuffer entries).take fault.wal.room) }, torn⟩
    (batchOffsets log.wal.ftell entries) fault.index
  refine ⟨decide (fault.index.Takes [8 * (batchOffsets log.wal.ftell entries).length]), index,
    torn', ?_⟩
  rw [appendEntries_written h htakes, hindex]
  cases decide (fault.index.Takes [8 * (batchOffsets log.wal.ftell entries).length]) <;> rfl

theorem withLock_free (h : RaftLogArray.Free cfg a.log) (body : FaultyArray → FaultyReply) :
    withLock cfg body a =
      ((body ⟨a.log.held, a.torn⟩).1.andThen fun b log =>
        .returned b { log with locked := a.log.locked }, (body ⟨a.log.held, a.torn⟩).2) := by
  have hc : (a.log.locked && !cfg.relock) = false := by
    rcases h with h | h <;> rw [h] <;> simp
  simp only [withLock, hc, Bool.false_eq_true, if_false]
  rfl

section Grow

variable {write : FaultyArray → Bool × FaultyArray} {torn' : Bytes} (failed : Bool)
  (log' : RaftLogArray)

/-- After a failed write the call returns. -/
theorem grow_failed (h : RaftLogArray.Free cfg a.log)
    (hwrite : write ⟨a.log.held, a.torn⟩ = (false, ⟨log'.held, torn'⟩))
    (hlocked : log'.locked = a.log.locked) :
    grow cfg failed write a = (.returned failed log', torn') := by
  rw [grow, withLock_free h, hwrite]
  simp only [Reply.andThen]
  rw [← hlocked, RaftLogArray.held_restore]

/-- After the writes the call truncates, as it does without failures. -/
theorem grow_done (h : RaftLogArray.Free cfg a.log)
    (hwrite : write ⟨a.log.held, a.torn⟩ = (true, ⟨log'.held, torn'⟩))
    (hlocked : log'.locked = a.log.locked) :
    (grow cfg failed write a).1 =
        (if RaftLogArray.OverThreshold cfg log'.entries.length ∧ cfg.relock = false then
          .blocked log'.held else .returned true (RaftLogArray.shed cfg log')) ∧
      (torn' = [] → (grow cfg failed write a).2 = []) := by
  have hgrow := RaftLogArray.grow_free h (fun log => { log' with locked := log.locked }) rfl rfl rfl
  rw [← hlocked] at hgrow
  constructor
  · rw [grow, withLock_free h, hwrite, ← hgrow, RaftLogArray.withLock_free h]
    rfl
  · intro htorn
    rw [grow, withLock_free h, hwrite]
    simp only [truncateOverThreshold, htorn, ite_self]

end Grow

/-- Both overloads of `append`. -/
theorem call_single {op : RaftLogArray.Op} (hop : RaftLogArray.IsSingle op) (cfg : Config)
    (fault : Fault) (a : FaultyArray) :
    ∃ e write, a.log.given op = some [e] ∧ a.log.walBytes op = walRecord e ∧
      a.log.walSizes op = entrySizes e ∧ a.log.halfway op = a.log.appendEntry e ∧
      call cfg op fault a = grow cfg true write a ∧
      write ⟨a.log.held, a.torn⟩ = appendEntry ⟨a.log.held, a.torn⟩ e fault := by
  cases op with
  | append entry =>
      exact ⟨_, fun b => b.appendEntry { entry with index := b.log.newIndex } fault,
        rfl, rfl, rfl, rfl, rfl, rfl⟩
  | appendConst entry =>
      exact ⟨_, fun b => b.appendEntry entry fault, rfl, rfl, rfl, rfl, rfl, rfl⟩
  | batchAppend _ | batchAppendConst _ | truncateFrom _ | truncateBefore _ | createSnapshot _
  | reset _ => exact absurd hop id

/-- Both overloads of `batch_append`, with entries. -/
theorem call_batch {op : RaftLogArray.Op} (hop : ¬ RaftLogArray.IsSingle op) {more : List LogEntry}
    (hgiven : a.log.given op = some more) (hne : more ≠ []) (cfg : Config) (fault : Fault) :
    ∃ write, a.log.walBytes op = batchBuffer more ∧
      a.log.walSizes op = [(batchBuffer more).length] ∧
      a.log.halfway op = a.log.appendEntries more ∧
      call cfg op fault a = grow cfg false write a ∧
      write ⟨a.log.held, a.torn⟩ = appendEntries ⟨a.log.held, a.torn⟩ more fault := by
  cases op with
  | batchAppend entries =>
      obtain rfl := Option.some.inj hgiven
      have hentries : entries.isEmpty = false := by
        cases entries with
        | nil => exact absurd rfl hne
        | cons e es => rfl
      refine ⟨fun b => b.appendEntries (RaftLogArray.numbered b.log.newIndex entries) fault,
        rfl, rfl, rfl, ?_, rfl⟩
      rw [call, batchAppend, if_neg (by simp [hentries])]
  | batchAppendConst entries =>
      obtain rfl := Option.some.inj hgiven
      refine ⟨fun b => b.appendEntries entries fault, rfl, rfl, rfl, ?_, rfl⟩
      rw [call, batchAppendConst, if_neg (by simpa using hne)]
  | append _ | appendConst _ => exact absurd trivial hop
  | truncateFrom _ | truncateBefore _ | createSnapshot _ | reset _ => cases hgiven

theorem call_batch_nil {op : RaftLogArray.Op} (hop : ¬ RaftLogArray.IsSingle op)
    (hgiven : a.log.given op = some []) (cfg : Config) (fault : Fault) :
    call cfg op fault a = (.returned true a.log, a.torn) ∧
      RaftLogArray.call cfg op a.log = .returned true a.log := by
  cases op with
  | batchAppend entries =>
      cases entries with
      | nil => exact ⟨rfl, rfl⟩
      | cons e es => cases hgiven
  | batchAppendConst entries =>
      obtain rfl := Option.some.inj hgiven
      exact ⟨rfl, rfl⟩
  | append _ | appendConst _ => exact absurd trivial hop
  | truncateFrom _ | truncateBefore _ | createSnapshot _ | reset _ => cases hgiven

/-- An append whose WAL cannot be written returns `true` nevertheless. -/
theorem call_single_failed {op : RaftLogArray.Op} (hop : RaftLogArray.IsSingle op)
    (hfree : RaftLogArray.Free cfg a.log) (happends : a.log.wal.Appends)
    (hfull : ¬ fault.wal.Takes (a.log.walSizes op)) :
    call cfg op fault a = (.returned true { a.log with
      wal := a.log.wal.extend ((a.log.walBytes op).take fault.wal.room) }, a.torn) := by
  obtain ⟨e, write, -, hbytes, hsizes, -, hcall, hwrite⟩ := call_single hop cfg fault a
  rw [hsizes] at hfull
  rw [hbytes]
  rw [appendEntry_failed (show a.log.held.wal.Appends from happends) hfull] at hwrite
  rw [hcall]
  exact grow_failed _ _ hfree hwrite rfl

/-- An append whose WAL is reported to be written has the entry in memory. -/
theorem call_single_written {op : RaftLogArray.Op} (hop : RaftLogArray.IsSingle op)
    (hfree : RaftLogArray.Free cfg a.log) (happends : a.log.wal.Appends)
    (htakes : fault.wal.Takes (a.log.walSizes op)) :
    ∃ e log', a.log.given op = some [e] ∧ log'.baseIndex = a.log.baseIndex ∧
      log'.entries = a.log.entries ++ [e] ∧ (call cfg op fault a).1 =
        if RaftLogArray.OverThreshold cfg log'.entries.length ∧ cfg.relock = false then
          .blocked log'.held
        else .returned true (RaftLogArray.shed cfg log') := by
  obtain ⟨e, write, hgiven, -, hsizes, -, hcall, hwrite⟩ := call_single hop cfg fault a
  rw [hsizes] at htakes
  rw [appendEntry_memory (show a.log.held.wal.Appends from happends) htakes] at hwrite
  obtain ⟨index, torn, hindex⟩ := writeIndex_eq ⟨{ a.log.held.appendEntry e with
    wal := a.log.held.wal.extend ((walRecord e).take fault.wal.room)
    indexFile := a.log.held.indexFile }, a.torn⟩ [a.log.held.wal.ftell] fault.index
  rw [hindex] at hwrite
  let log' : RaftLogArray := { a.log.appendEntry e with
    wal := a.log.wal.extend ((walRecord e).take fault.wal.room)
    indexFile := index }
  refine ⟨e, log', hgiven, rfl, rfl, ?_⟩
  rw [hcall]
  exact (grow_done _ log' hfree hwrite rfl).1

/-- A batch whose WAL is reported to be written is in memory, or the memory is as it was. -/
theorem call_batch_written {op : RaftLogArray.Op} (hop : ¬ RaftLogArray.IsSingle op)
    {more : List LogEntry} (hgiven : a.log.given op = some more) (hne : more ≠ [])
    (hfree : RaftLogArray.Free cfg a.log) (happends : a.log.wal.Appends)
    (htakes : fault.wal.Takes (a.log.walSizes op)) :
    ∃ log', log'.baseIndex = a.log.baseIndex ∧
      ((log'.entries = a.log.entries ∧ log'.indexOffsets = a.log.indexOffsets ∧
          (call cfg op fault a).1 = .returned false log') ∨
        (log'.entries = a.log.entries ++ more ∧ (call cfg op fault a).1 =
          if RaftLogArray.OverThreshold cfg log'.entries.length ∧ cfg.relock = false then
            .blocked log'.held
          else .returned true (RaftLogArray.shed cfg log'))) := by
  obtain ⟨write, -, hsizes, -, hcall, hwrite⟩ := call_batch hop hgiven hne cfg fault
  rw [hsizes] at htakes
  obtain ⟨ok, index, torn', hmemory⟩ :=
    appendEntries_memory (show a.log.held.wal.Appends from happends) a.torn htakes
  rw [hmemory] at hwrite
  cases ok with
  | false =>
      let log' : RaftLogArray := { a.log with
        wal := a.log.wal.extend ((batchBuffer more).take fault.wal.room)
        indexFile := index }
      refine ⟨log', rfl, Or.inl ⟨rfl, rfl, ?_⟩⟩
      rw [hcall, grow_failed _ log' hfree hwrite rfl]
  | true =>
      let log' : RaftLogArray := { a.log.appendEntries more with
        wal := a.log.wal.extend ((batchBuffer more).take fault.wal.room)
        indexFile := index }
      refine ⟨log', rfl, Or.inr ⟨rfl, ?_⟩⟩
      rw [hcall]
      exact (grow_done _ log' hfree hwrite rfl).1

/-- A batch whose WAL cannot be written. -/
theorem call_batch_failed {op : RaftLogArray.Op} (hop : ¬ RaftLogArray.IsSingle op)
    {more : List LogEntry} (hgiven : a.log.given op = some more) (hne : more ≠ [])
    (hfree : RaftLogArray.Free cfg a.log) (happends : a.log.wal.Appends)
    (hfull : ¬ fault.wal.Takes (a.log.walSizes op)) :
    call cfg op fault a = (.returned false { a.log with
      wal := a.log.wal.extend ((a.log.walBytes op).take fault.wal.room) }, a.torn) := by
  obtain ⟨write, hbytes, hsizes, -, hcall, hwrite⟩ := call_batch hop hgiven hne cfg fault
  rw [hsizes] at hfull
  rw [hbytes]
  rw [appendEntries_failed (show a.log.held.wal.Appends from happends) hfull] at hwrite
  rw [hcall]
  exact grow_failed _ _ hfree hwrite rfl

/-- A batch whose index records are reported not to be written, when none of their bytes is. -/
theorem call_batch_unindexed {op : RaftLogArray.Op} (hop : ¬ RaftLogArray.IsSingle op)
    {more : List LogEntry} (hgiven : a.log.given op = some more) (hne : more ≠ [])
    (hfree : RaftLogArray.Free cfg a.log) (happends : a.log.wal.Appends) (htorn : a.torn = [])
    (htakes : fault.wal.Takes (a.log.walSizes op)) (hroom : fault.index.room = 0)
    (hindex : ¬ fault.index.Takes [8 * more.length]) :
    call cfg op fault a = (.returned false { a.log with
      wal := a.log.wal.extend ((a.log.walBytes op).take fault.wal.room) }, a.torn) := by
  obtain ⟨write, hbytes, hsizes, -, hcall, hwrite⟩ := call_batch hop hgiven hne cfg fault
  rw [hsizes] at htakes
  rw [hbytes]
  rw [htorn, appendEntries_none (show a.log.held.wal.Appends from happends) htakes hroom hindex,
    ← htorn] at hwrite
  rw [hcall]
  exact grow_failed _ _ hfree hwrite rfl

/-- **What a failed batch leaves behind.** When the index file takes one of its records, the record
stays there, and the memory is as it was. -/
theorem call_batch_one {op : RaftLogArray.Op} (hop : ¬ RaftLogArray.IsSingle op) {e : LogEntry}
    {more : List LogEntry} (hgiven : a.log.given op = some (e :: more))
    (hfree : RaftLogArray.Free cfg a.log) (happends : a.log.wal.Appends) (htorn : a.torn = [])
    (htakes : fault.wal.Takes (a.log.walSizes op)) (hroom : fault.index.room = 8)
    (hindex : ¬ fault.index.Takes [8 * (e :: more).length]) :
    call cfg op fault a = (.returned false { a.log with
      wal := a.log.wal.extend ((a.log.walBytes op).take fault.wal.room)
      indexFile := a.log.indexFile ++ [a.log.wal.ftell] }, []) := by
  obtain ⟨write, hbytes, hsizes, -, hcall, hwrite⟩ :=
    call_batch hop hgiven (List.cons_ne_nil _ _) cfg fault
  rw [hsizes] at htakes
  rw [hbytes]
  rw [htorn, appendEntries_one (show a.log.held.wal.Appends from happends) htakes hroom hindex,
    ← htorn] at hwrite
  rw [hcall, ← htorn]
  exact grow_failed _ _ hfree hwrite rfl

/-- Complete writes do what the writes of `RaftLogArray` do. -/
theorem call_complete {op : RaftLogArray.Op} {more : List LogEntry}
    (hgiven : a.log.given op = some more) (hfree : RaftLogArray.Free cfg a.log)
    (happends : a.log.wal.Appends) (htorn : a.torn = [])
    (hroom : (a.log.walBytes op).length ≤ fault.wal.room)
    (hindex : 8 * more.length ≤ fault.index.room) :
    call cfg op fault a = (RaftLogArray.call cfg op a.log, []) := by
  by_cases hop : RaftLogArray.IsSingle op
  · obtain ⟨e, write, hgiven', hbytes, -, hhalfway, hcall, hwrite⟩ := call_single hop cfg fault a
    obtain rfl := Option.some.inj (hgiven.symm.trans hgiven')
    rw [hbytes] at hroom
    rw [htorn, appendEntry_complete (show a.log.held.wal.Appends from happends) hroom
      (by simpa using hindex), ← htorn] at hwrite
    obtain ⟨hreply, hnone⟩ := grow_done true (a.log.appendEntry e) hfree hwrite rfl
    rw [hcall, RaftLogArray.call_given hfree hgiven (List.cons_ne_nil _ _), hhalfway]
    exact Prod.ext hreply (hnone htorn)
  · by_cases hne : more = []
    · subst hne
      obtain ⟨hfaulty, hplain⟩ := call_batch_nil (a := a) hop hgiven cfg fault
      rw [hfaulty, hplain, htorn]
    · obtain ⟨write, hbytes, -, hhalfway, hcall, hwrite⟩ := call_batch hop hgiven hne cfg fault
      rw [hbytes] at hroom
      rw [htorn, appendEntries_complete (show a.log.held.wal.Appends from happends) hne hroom hindex,
        ← htorn] at hwrite
      obtain ⟨hreply, hnone⟩ := grow_done false (a.log.appendEntries more) hfree hwrite rfl
      rw [hcall, RaftLogArray.call_given hfree hgiven hne, hhalfway]
      exact Prod.ext hreply (hnone htorn)

/-- A call that appends nothing. -/
theorem call_other {op : RaftLogArray.Op} (hgiven : a.log.given op = none) (htorn : a.torn = []) :
    call cfg op fault a = (RaftLogArray.call cfg op a.log, []) := by
  cases op with
  | append _ | appendConst _ | batchAppend _ | batchAppendConst _ => cases hgiven
  | truncateFrom _ | truncateBefore _ | createSnapshot _ | reset _ =>
      simp only [call, htorn, ite_self]

end Outcomes

/-- A call with what the files take during it, or a restart. -/
inductive Event where
  | call (op : RaftLogArray.Op) (fault : Fault)
  | reopen

/-- One event. Nothing but a restart follows a call that does not return. -/
def step (a : FaultyArray) : Event → Option FaultyArray
  | .call op fault => if a.log.locked then none else some (call cfg op fault a).state
  | .reopen => some (a.reopen cfg)

/-- A run of events. -/
def events : List Event → FaultyArray → Option FaultyArray
  | [], a => some a
  | ev :: evs, a => (step cfg a ev).bind (events evs)

section Reports

variable {cfg} {a : FaultyArray} {log log' : RaftLogArray} {op : RaftLogArray.Op} {fault : Fault}

/-- Entries have been added, and the front of the log may have been truncated. -/
def Added (log log' : RaftLogArray) (more : List LogEntry) : Prop :=
  ∃ k ≤ (log.entries ++ more).length, log'.entries = (log.entries ++ more).drop k ∧
    log'.baseIndex = log.baseIndex + .ofNat k

/-- The memory is as it was. -/
def SameMemory (log log' : RaftLogArray) : Prop :=
  log'.entries = log.entries ∧ log'.baseIndex = log.baseIndex ∧
    log'.indexOffsets = log.indexOffsets

/-- A call returns `true` only if its entries were added, and `false` only if the memory is as it
was. -/
def Reports (cfg : Config) (a : FaultyArray) (op : RaftLogArray.Op) (fault : Fault) : Prop :=
  ∀ more, a.log.given op = some more →
    ((call cfg op fault a).1.value = some true →
      Added a.log (call cfg op fault a).1.state more) ∧
    ((call cfg op fault a).1.value = some false →
      SameMemory a.log (call cfg op fault a).1.state)

theorem not_added {e : LogEntry} (hentries : log'.entries = log.entries)
    (hbase : log'.baseIndex = log.baseIndex) : ¬ Added log log' [e] := by
  rintro ⟨k, hk, hdrop, hnew⟩
  have hlength := congrArg List.length hdrop
  rw [hentries, List.length_drop] at hlength
  rw [List.length_append, List.length_singleton] at hk hlength
  obtain rfl : k = 1 := by omega
  rw [hbase] at hnew
  simp at hnew

theorem added_cutBefore {more : List LogEntry} (hbase : log'.baseIndex = log.baseIndex)
    (hentries : log'.entries = log.entries ++ more) (index : UInt32) :
    Added log (log'.cutBefore index) more := by
  rw [RaftLogArray.cutBefore]
  split
  · next hcut =>
      refine ⟨(index - log'.baseIndex).toNat, ?_, ?_, ?_⟩
      · have hle := hcut.1.2
        rw [← hentries, UInt32.toNat_sub_of_le _ _ hcut.1.1]
        omega
      · rw [← hentries]
        rfl
      · show index = _
        rw [UInt32.ofNat_toNat, hbase, UInt32.add_comm, UInt32.sub_add_cancel]
  · exact ⟨0, Nat.zero_le _, hentries, by simp [hbase]⟩

theorem added_shed {more : List LogEntry} (hbase : log'.baseIndex = log.baseIndex)
    (hentries : log'.entries = log.entries ++ more) (cfg : Config) :
    Added log (RaftLogArray.shed cfg log') more := by
  rw [RaftLogArray.shed]
  split
  · exact added_cutBefore hbase hentries _
  · exact ⟨0, Nat.zero_le _, hentries, by simp [hbase]⟩

/-- The outcome of the truncation at the end of an append. -/
theorem reports_of_grown {more : List LogEntry} (hbase : log'.baseIndex = log.baseIndex)
    (hentries : log'.entries = log.entries ++ more) {r : Reply Bool}
    (hr : r = if RaftLogArray.OverThreshold cfg log'.entries.length ∧ cfg.relock = false then
        .blocked log'.held else .returned true (RaftLogArray.shed cfg log')) :
    (r.value = some true → Added log r.state more) ∧
      (r.value = some false → SameMemory log r.state) := by
  subst hr
  split
  · constructor
    · intro h
      cases h
    · intro h
      cases h
  · exact ⟨fun _ => added_shed hbase hentries cfg, fun h => absurd (Option.some.inj h) (by decide)⟩

/-- **What an append reports.** It is wrong exactly when a single append is told that it cannot
write the WAL. -/
theorem reports_iff (hfree : RaftLogArray.Free cfg a.log) (happends : a.log.wal.Appends) :
    Reports cfg a op fault ↔
      (RaftLogArray.IsSingle op → fault.wal.Takes (a.log.walSizes op)) := by
  by_cases hop : RaftLogArray.IsSingle op
  · rw [forall_prop_of_true hop]
    constructor
    · intro h
      by_contra hfull
      have hcall : call cfg op fault a = _ := call_single_failed hop hfree happends hfull
      obtain ⟨e, write, hgiven, -⟩ := call_single hop cfg fault a
      have hadded := (h _ hgiven).1 (by rw [hcall]; rfl)
      rw [hcall] at hadded
      exact not_added rfl rfl hadded
    · intro htakes more hmore
      obtain ⟨e, log', hgiven, hbase, hentries, hcall⟩ :=
        call_single_written hop hfree happends htakes
      obtain rfl := Option.some.inj (hmore.symm.trans hgiven)
      exact reports_of_grown hbase hentries hcall
  · refine ⟨fun _ h => absurd h hop, fun _ more hgiven => ?_⟩
    by_cases hne : more = []
    · subst hne
      rw [(call_batch_nil hop hgiven cfg fault).1]
      refine ⟨fun _ => ⟨0, Nat.zero_le _, ?_, ?_⟩, fun h => absurd (Option.some.inj h) (by decide)⟩
      · simp [Reply.state]
      · simp [Reply.state]
    by_cases htakes : fault.wal.Takes (a.log.walSizes op)
    · obtain ⟨log', hbase, hsame | hgrown⟩ :=
        call_batch_written hop hgiven hne hfree happends htakes
      · obtain ⟨hentries, hoffsets, hcall⟩ := hsame
        rw [hcall]
        exact ⟨fun h => absurd (Option.some.inj h) (by decide), fun _ => ⟨hentries, hbase, hoffsets⟩⟩
      · exact reports_of_grown hbase hgrown.1 hgrown.2
    · rw [call_batch_failed hop hgiven hne hfree happends htakes]
      exact ⟨fun h => absurd (Option.some.inj h) (by decide), fun _ => ⟨rfl, rfl, rfl⟩⟩

end Reports

section Runs

variable {cfg} {a : FaultyArray}

/-- What an append with complete writes needs: it is made at the end of the WAL, its entries have
32-bit lengths and go on with the numbering, and the files take all its bytes. -/
def Completes (log : RaftLogArray) (op : RaftLogArray.Op) (fault : Fault) : Prop :=
  log.Keeps (.call op) ∧ ∀ more, log.given op = some more →
    RaftLogArray.numbered log.newIndex more = more ∧
      (log.walBytes op).length ≤ fault.wal.room ∧ 8 * more.length ≤ fault.index.room

/-- A `batch_append` that is told of its failure and leaves no part of its index records: its WAL
is reported not to be written, or its index records are and the index file takes no byte. -/
def FailsClean (log : RaftLogArray) (op : RaftLogArray.Op) (fault : Fault) : Prop :=
  ¬ RaftLogArray.IsSingle op ∧ ∃ more, log.given op = some more ∧
    (fault.wal.Takes (log.walSizes op) →
      fault.index.room = 0 ∧ ¬ fault.index.Takes [8 * more.length])

/-- The condition on an event. -/
def Keeps (a : FaultyArray) : Event → Prop
  | .call op fault => Completes a.log op fault ∨ FailsClean a.log op fault
  | .reopen => True

/-- Every event of a run meets its condition. -/
def KeepsAll (cfg : Config) : List Event → FaultyArray → Prop
  | [], _ => True
  | ev :: evs, a => a.Keeps ev ∧ ∀ a', step cfg a ev = some a' → KeepsAll cfg evs a'

/-- The files hold what is in memory, in whole records, and the entries carry their indexes. -/
structure Intact (a : FaultyArray) : Prop where
  stored : a.log.Stored
  whole : a.torn = []
  labelled : a.log.Labelled

theorem Intact.new : Intact {} := ⟨RaftLogArray.Stored.new, rfl, RaftLogArray.Labelled.new⟩

/-- Bytes that a failed batch leaves in the WAL lie behind the records. -/
theorem Intact.extend (h : Intact a) (bytes : Bytes) :
    Intact ⟨{ a.log with wal := a.log.wal.extend bytes }, a.torn⟩ := by
  obtain ⟨hcontent, happends, -⟩ := h.stored.appends.extend bytes
  refine ⟨⟨h.stored.index, ?_, h.stored.fits, happends⟩, h.whole, h.labelled⟩
  refine h.stored.stands.imp fun offset e hstands => ?_
  show StandsAt (a.log.wal.extend bytes).content offset (walRecord e)
  rw [hcontent]
  exact hstands.grow bytes

theorem Intact.failsClean (h : Intact a) (hfree : RaftLogArray.Free cfg a.log)
    {op : RaftLogArray.Op} {fault : Fault} (hop : FailsClean a.log op fault) :
    Intact (call cfg op fault a).state := by
  obtain ⟨hbatch, more, hgiven, hindex⟩ := hop
  by_cases hne : more = []
  · subst hne
    rw [(call_batch_nil hbatch hgiven cfg fault).1]
    exact h
  by_cases htakes : fault.wal.Takes (a.log.walSizes op)
  · rw [call_batch_unindexed hbatch hgiven hne hfree h.stored.appends h.whole htakes
      (hindex htakes).1 (hindex htakes).2]
    exact h.extend _
  · rw [call_batch_failed hbatch hgiven hne hfree h.stored.appends htakes]
    exact h.extend _

/-- A call without failures keeps what it keeps in `RaftLogArray`. -/
theorem Intact.completes (h : Intact a) (hlocked : a.log.locked = false)
    {op : RaftLogArray.Op} {fault : Fault} (hop : Completes a.log op fault) :
    Intact (call cfg op fault a).state := by
  have hfree : RaftLogArray.Free cfg a.log := Or.inl hlocked
  have hcall : call cfg op fault a = (RaftLogArray.call cfg op a.log, []) := by
    cases hgiven : a.log.given op with
    | none => exact call_other hgiven h.whole
    | some more =>
        obtain ⟨-, hroom, hindex⟩ := hop.2 more hgiven
        exact call_complete hgiven hfree h.stored.appends h.whole hroom hindex
  have hstep : RaftLogArray.step cfg a.log (.call op) =
      some (RaftLogArray.call cfg op a.log).state := by
    rw [RaftLogArray.step, hlocked, if_neg Bool.false_ne_true]
  rw [hcall]
  exact ⟨h.stored.step hop.1 hstep, rfl,
    h.labelled.call hfree fun more hgiven => (hop.2 more hgiven).1⟩

/-- **One event.** -/
theorem Intact.step (h : Intact a) {ev : Event} (hev : a.Keeps ev) {a' : FaultyArray}
    (hstep : FaultyArray.step cfg a ev = some a') : Intact a' := by
  cases ev with
  | reopen =>
      cases hstep
      exact ⟨h.stored.reopen cfg, h.whole, h.labelled.reopen h.stored cfg⟩
  | call op fault =>
      rw [FaultyArray.step] at hstep
      cases hlocked : a.log.locked with
      | true =>
          rw [hlocked, if_pos rfl] at hstep
          cases hstep
      | false =>
          rw [hlocked, if_neg Bool.false_ne_true] at hstep
          cases hstep
          rcases hev with hcomplete | hclean
          · exact h.completes hlocked hcomplete
          · exact h.failsClean (Or.inl hlocked) hclean

/-- **A run of events.** -/
theorem Intact.events (h : Intact a) {evs : List Event} (hevs : KeepsAll cfg evs a)
    {a' : FaultyArray} (hrun : FaultyArray.events cfg evs a = some a') : Intact a' := by
  induction evs generalizing a with
  | nil =>
      cases hrun
      exact h
  | cons ev evs ih =>
      rw [FaultyArray.events, Option.bind_eq_some_iff] at hrun
      obtain ⟨next, hnext, hrun⟩ := hrun
      exact ih (h.step hevs.1 hnext) (hevs.2 next hnext) hrun

/-- **Appends report and contain their failures.** In a run of calls, failing writes and restarts
whose events meet their condition, an append reports its outcome rightly exactly if it is a batch
or its `fwrite`s to the WAL succeed, and at every point, behind failed calls and successful ones,
reopening the array gives the entries and the offsets back, and the base when there are entries or
it is 1. -/
theorem contained_run {evs : List Event} (hevs : KeepsAll cfg evs {})
    (hrun : events cfg evs {} = some a) :
    (a.log.locked = false → ∀ op fault, Reports cfg a op fault ↔
        (RaftLogArray.IsSingle op → fault.wal.Takes (a.log.walSizes op))) ∧
      (a.reopen cfg).log.entries = a.log.entries ∧
      (a.reopen cfg).log.indexOffsets = a.log.indexOffsets ∧
      ((a.reopen cfg).log.baseIndex = a.log.baseIndex ↔
        a.log.entries ≠ [] ∨ a.log.baseIndex = 1) := by
  have h : Intact a := Intact.new.events hevs hrun
  refine ⟨fun hlocked op fault => reports_iff (Or.inl hlocked) h.stored.appends, ?_, ?_, ?_⟩
  · show (a.log.reopen cfg).entries = _
    rw [h.stored.reopen_eq cfg]
  · show (a.log.reopen cfg).indexOffsets = _
    rw [h.stored.reopen_eq cfg]
    exact h.stored.index
  · exact (h.stored.reopen_base cfg).trans h.labelled.baseStored_iff

/-- A stream with a buffer of 4096 bytes over a file that takes `room` more bytes. -/
def blocks (room : Nat) : Outlet :=
  ⟨room, fun held n => if held + n ≤ 4096 then 0 else held + n - (held + n) % 4096⟩

/-- An entry with a command of `n` bytes. -/
@[irreducible] def sample (n : Nat) (byte : UInt8) : LogEntry :=
  ⟨3, 0, 0, List.replicate n byte, 0, []⟩

theorem length_sample (n : Nat) (byte : UInt8) (index : UInt32) :
    (LogEntry.serialize { sample n byte with index := index }).length = 28 + n := by
  rw [LogEntry.length_serialize]
  simp [sample]

theorem entrySizes_sample {n : Nat} (h : 28 + n < 2 ^ 32) (byte : UInt8) (index : UInt32) :
    entrySizes { sample n byte with index := index } = [4, 4, 28 + n] := by
  simp only [entrySizes, entryPieces, List.map_cons, List.map_nil, length_le32, List.length_take,
    length_sample, Nat.mod_eq_of_lt h, Nat.min_self]

/-- A threshold of 100 entries. -/
def quiet : Config := ⟨⟨100, fun n => n / 2, false⟩, true⟩

/-- The array after a batch of one large entry of which the WAL takes five bytes. -/
def afterFailure : FaultyArray :=
  (call quiet (.batchAppend [sample 5000 1]) ⟨blocks 5, blocks 0⟩ {}).state

theorem length_batchBuffer (entries : List LogEntry) :
    (batchBuffer entries).length = (entries.map fun e => 8 + e.serialize.length).sum := by
  induction entries with
  | nil => rfl
  | cons e es ih =>
      rw [batchBuffer, List.flatMap_cons, List.length_append, ← batchBuffer, ih, List.map_cons,
        List.sum_cons]
      simp only [List.length_append, length_le32]
      omega

/-- Such a batch is more than the buffer holds, so `fwrite` finds out. -/
theorem not_takes_large :
    ¬ (blocks 5).Takes (RaftLogArray.walSizes {} (.batchAppend [sample 5000 1])) := by
  have hlength : (batchBuffer (RaftLogArray.numbered 1 [sample 5000 1])).length = 5036 := by
    rw [length_batchBuffer, RaftLogArray.numbered, RaftLogArray.numbered, List.map_singleton,
      List.sum_singleton, length_sample]
  change ¬ (blocks 5).Takes [(batchBuffer (RaftLogArray.numbered 1 [sample 5000 1])).length]
  rw [hlength]
  decide

/-- What the batch leaves: five bytes in the WAL. -/
theorem afterFailure_eq : afterFailure =
    ⟨{ wal := File.extend (.openAppend [])
        ((batchBuffer (RaftLogArray.numbered 1 [sample 5000 1])).take 5) }, []⟩ := by
  have hgiven : RaftLogArray.given {} (.batchAppend [sample 5000 1]) =
      some (RaftLogArray.numbered 1 [sample 5000 1]) := rfl
  have hne : RaftLogArray.numbered 1 [sample 5000 1] ≠ [] := by simp [RaftLogArray.numbered]
  rw [afterFailure, call_batch_failed (a := {}) id hgiven hne (Or.inl rfl) (Or.inl rfl)
    not_takes_large]
  rfl

theorem keepsAll_afterFailure :
    KeepsAll quiet [.call (.batchAppend [sample 5000 1]) ⟨blocks 5, blocks 0⟩,
      .call (.append (sample 1 2)) ⟨blocks 100, blocks 8⟩] {} := by
  refine ⟨Or.inr ⟨id, _, rfl, fun htakes => absurd htakes not_takes_large⟩, fun a' ha' => ?_⟩
  obtain rfl : afterFailure = a' := Option.some.inj ha'
  rw [afterFailure_eq]
  have happends : (File.openAppend []).Appends := Or.inl rfl
  have hend := (happends.extend
    ((batchBuffer (RaftLogArray.numbered 1 [sample 5000 1])).take 5)).2.2
    (Or.inr (List.cons_ne_nil _ _))
  refine ⟨Or.inl ⟨fun _ => ⟨hend, List.forall_mem_singleton.2 ?_⟩, fun more hmore => ?_⟩,
    fun _ _ => trivial⟩
  · show (LogEntry.serialize { sample 1 2 with index := _ }).length < 2 ^ 32
    rw [length_sample]
    decide
  · obtain rfl := Option.some.inj hmore
    exact ⟨rfl, by decide +kernel, by decide⟩

/-- The array with the failed batch and an entry behind it is reopened. -/
theorem contained_run_afterFailure :
    ((call quiet (.append (sample 1 2)) ⟨blocks 100, blocks 8⟩ afterFailure).state.reopen
        quiet).log.entries =
      (call quiet (.append (sample 1 2)) ⟨blocks 100, blocks 8⟩ afterFailure).state.log.entries := by
  have hrun : events quiet [.call (.batchAppend [sample 5000 1]) ⟨blocks 5, blocks 0⟩,
      .call (.append (sample 1 2)) ⟨blocks 100, blocks 8⟩] {} =
        some (call quiet (.append (sample 1 2)) ⟨blocks 100, blocks 8⟩ afterFailure).state := by
    have hfirst : step quiet {} (.call (.batchAppend [sample 5000 1]) ⟨blocks 5, blocks 0⟩) =
      some afterFailure := rfl
    have hlocked : afterFailure.log.locked = false := by rw [afterFailure_eq]
    rw [events, hfirst, Option.bind_some, events, step, hlocked, if_neg Bool.false_ne_true,
      Option.bind_some, events]
  exact (contained_run keepsAll_afterFailure hrun).2.1

/-- Reopening gives nothing, or an entry for each record of the index file. -/
theorem length_reopen (cfg : Config) (log : RaftLogArray) :
    (log.reopen cfg).entries = [] ∨ (log.reopen cfg).entries.length = log.indexFile.length := by
  have hlength (content : Bytes) (offsets : List Nat) (entries : List LogEntry)
      (h : offsets.mapM (readEntryFromWal content) = some entries) :
      entries.length = offsets.length := by
    induction offsets generalizing entries with
    | nil =>
        obtain rfl : entries = [] := by simpa using h.symm
        rfl
    | cons o os ih =>
        rw [List.mapM_cons] at h
        obtain ⟨e, -, hrest⟩ := Option.bind_eq_some_iff.1 h
        obtain ⟨es, hes, hsome⟩ := Option.bind_eq_some_iff.1 hrest
        obtain rfl := Option.some.inj hsome
        rw [List.length_cons, List.length_cons, ih es hes]
  let opened : RaftLogArray := { wal := .openAppend log.wal.content, indexFile := log.indexFile }
  show (RaftLogArray.recover cfg opened).state.entries = [] ∨
    (RaftLogArray.recover cfg opened).state.entries.length = _
  rw [RaftLogArray.recover, RaftLogArray.withLock_free (Or.inl rfl)]
  simp only
  cases hload : RaftLogArray.loadEntries opened.held.wal opened.held.indexFile with
  | none => exact Or.inl rfl
  | some entries => exact Or.inr (hlength _ _ entries hload)

/-- The size of a batch of equal entries. -/
theorem length_batch_sample (start : UInt32) (n size : Nat) (byte : UInt8) :
    (batchBuffer (RaftLogArray.numbered start (List.replicate n (sample size byte)))).length =
      n * (36 + size) := by
  rw [length_batchBuffer]
  induction n generalizing start with
  | zero => simp [RaftLogArray.numbered]
  | succ n ih =>
      rw [List.replicate_succ, RaftLogArray.numbered, List.map_cons, List.sum_cons, ih,
        length_sample, Nat.succ_mul]
      omega

/-- The array after a batch of 600 entries of which the index file takes one record. -/
def afterHalf : RaftLogArray where
  wal := File.extend (.openAppend []) ((batchBuffer (RaftLogArray.numbered 1
    (List.replicate 600 (sample 1 1)))).take 30000)
  indexFile := [0]

theorem call_half :
    call quiet (.batchAppend (List.replicate 600 (sample 1 1))) ⟨blocks 30000, blocks 8⟩ {} =
      (.returned false afterHalf, []) := by
  have hgiven : RaftLogArray.given {} (.batchAppend (List.replicate 600 (sample 1 1))) =
      some ({ sample 1 1 with index := 1 } ::
        RaftLogArray.numbered 2 (List.replicate 599 (sample 1 1))) := rfl
  have htakes : (blocks 30000).Takes (RaftLogArray.walSizes {}
      (.batchAppend (List.replicate 600 (sample 1 1)))) := by
    apply Outlet.takes_of_room
    rw [RaftLogArray.sum_walSizes]
    show (batchBuffer (RaftLogArray.numbered 1 _)).length ≤ 30000
    rw [length_batch_sample]
    decide
  have hindex : ¬ (blocks 8).Takes [8 * 600] := by decide
  rw [call_batch_one (a := {}) id hgiven (Or.inl rfl) (Or.inl rfl) rfl htakes rfl (by
    rw [List.length_cons, RaftLogArray.numbered_length, List.length_replicate]
    exact hindex)]
  rfl

theorem call_behind_half :
    call quiet (.append (sample 1 3)) ⟨blocks 100, blocks 8⟩ ⟨afterHalf, []⟩ =
      (.returned true (afterHalf.appendEntry { sample 1 3 with index := 1 }), []) := by
  have hgiven : afterHalf.given (.append (sample 1 3)) =
    some [{ sample 1 3 with index := 1 }] := rfl
  have happends : afterHalf.wal.Appends :=
    (File.Appends.extend (Or.inl rfl) _).2.1
  have hroom : (afterHalf.walBytes (.append (sample 1 3))).length ≤ 100 := by
    rw [← RaftLogArray.sum_walSizes, RaftLogArray.walSizes, entrySizes_sample (by decide)]
    decide
  rw [call_complete hgiven (Or.inl rfl) happends rfl hroom (by decide),
    RaftLogArray.call_given (Or.inl rfl) hgiven (List.cons_ne_nil _ _), if_neg (by decide)]
  rfl

/-- An append whose WAL takes nothing returns `true` with nothing added, and a batch of which the
index file takes one of 600 records returns `false` and comes back, with its first entry, when the
array is reopened after another append. -/
theorem append_failure_hidden :
    ((call quiet (.append (sample 5000 1)) ⟨blocks 0, blocks 8⟩ {}).1.value = some true ∧
      (call quiet (.append (sample 5000 1)) ⟨blocks 0, blocks 8⟩ {}).state.log.entries = []) ∧
    ((call quiet (.batchAppend (List.replicate 600 (sample 1 1))) ⟨blocks 30000, blocks 8⟩
        {}).1.value = some false ∧
      ∃ a, events quiet
        [.call (.batchAppend (List.replicate 600 (sample 1 1))) ⟨blocks 30000, blocks 8⟩,
          .call (.append (sample 1 3)) ⟨blocks 100, blocks 8⟩] {} = some a ∧
        a.log.entries.length = 1 ∧ (a.reopen quiet).log.entries.length ≠ 1) := by
  constructor
  · have hfull : ¬ (blocks 0).Takes (RaftLogArray.walSizes {} (.append (sample 5000 1))) := by
      rw [RaftLogArray.walSizes, entrySizes_sample (by decide)]
      decide
    have hop : RaftLogArray.IsSingle (.append (sample 5000 1)) := trivial
    rw [call_single_failed (a := {}) hop (Or.inl rfl) (Or.inl rfl) hfull]
    exact ⟨rfl, rfl⟩
  · rw [call_half]
    refine ⟨rfl, ⟨afterHalf.appendEntry { sample 1 3 with index := 1 }, []⟩, ?_, rfl, ?_⟩
    · have hfirst : step quiet {} (.call (.batchAppend (List.replicate 600 (sample 1 1)))
          ⟨blocks 30000, blocks 8⟩) = some ⟨afterHalf, []⟩ := by
        rw [step, call_half]
        rfl
      have hsecond : step quiet ⟨afterHalf, []⟩ (.call (.append (sample 1 3))
          ⟨blocks 100, blocks 8⟩) =
            some ⟨afterHalf.appendEntry { sample 1 3 with index := 1 }, []⟩ := by
        rw [step, call_behind_half]
        rfl
      rw [events, hfirst, Option.bind_some, events, hsecond, Option.bind_some, events]
    · rcases length_reopen quiet (afterHalf.appendEntry { sample 1 3 with index := 1 }) with h | h
      · show (RaftLogArray.reopen quiet _).entries.length ≠ 1
        rw [h]
        decide
      · show (RaftLogArray.reopen quiet _).entries.length ≠ 1
        rw [h]
        decide

end Runs

end FaultyArray

end EyaKV.Raft.Disk
