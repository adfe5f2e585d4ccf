import EyaKV.Raft.LogArray
import EyaKV.Store.Codec

/-!
# The log array with its files and its mutex

`Disk.RaftLogArray` is the class `RaftLogArray` in full: the entries and their offsets in
memory, the WAL and the index file behind them, and the mutex. A file is its bytes with
the position of the stream. A stream that was opened in append mode writes at the end of
the file, while `ftell` reports its position, which is 0 until the first write.

A call locks the mutex, and some calls lock it again on the way. A call that has to wait
for its own thread does not return: it is `blocked`, in the state in which it waits. Under
`relock` a thread may take the mutex again.

Writing a file succeeds here; `FaultyArray` has the failures of the disk.
-/

set_option autoImplicit false

namespace EyaKV.Raft.Disk

open EyaKV.Base EyaKV.Base.Framing EyaKV.Store

section Codec

/-- `LogEntry`, with all its fields. -/
structure LogEntry where
  term : UInt32
  index : UInt32
  commandType : UInt32
  cmd : Bytes
  timestamp : UInt64
  requestId : Bytes
  deriving DecidableEq, Repr

/-- `LogEntry::serialize`. -/
def LogEntry.serialize (e : LogEntry) : Bytes :=
  be32 e.term.toNat ++ (be32 e.index.toNat ++ (be32 e.commandType.toNat ++
    (be32 (e.timestamp.toNat / 2 ^ 32) ++ (be32 (e.timestamp.toNat % 2 ^ 32) ++
      (serializeString e.cmd ++ serializeString e.requestId)))))

/-- `LogEntry::deserialize`. -/
def LogEntry.deserialize : Decoder UInt8 LogEntry := fun input => do
  let (term, rest) ← readBe32 input
  let (index, rest) ← readBe32 rest
  let (commandType, rest) ← readBe32 rest
  let (high, rest) ← readBe32 rest
  let (low, rest) ← readBe32 rest
  let (cmd, rest) ← deserializeString rest
  let (requestId, rest) ← deserializeString rest
  return (⟨.ofNat term, .ofNat index, .ofNat commandType, cmd,
    .ofNat (2 ^ 32 * high + low), requestId⟩, rest)

/-- One entry of `CRC32Strategy::generateTable`. -/
def crcTable (i : UInt32) : UInt32 :=
  (List.range 8).foldl (fun c _ => if c &&& 1 = 1 then (0xEDB88320 : UInt32) ^^^ (c >>> 1) else c >>> 1) i

/-- `CRC32Strategy::update`. -/
def crcUpdate (crc : UInt32) (data : Bytes) : UInt32 :=
  data.foldl (fun crc byte => (crc >>> 8) ^^^ crcTable ((crc ^^^ byte.toUInt32) &&& 0xFF)) crc

/-- `RaftLogArray::compute_checksum`: the CRC32 of the data. -/
def computeChecksum (data : Bytes) : UInt32 := ~~~ crcUpdate 0xFFFFFFFF data

/-- The bytes of an entry in the WAL: checksum, length and data. -/
def walRecord (e : LogEntry) : Bytes :=
  le32 (computeChecksum e.serialize).toNat ++
    (le32 e.serialize.length ++ e.serialize.take (e.serialize.length % 2 ^ 32))

/-- An entry whose encoding has a 32-bit length. -/
def LogEntry.Fits (e : LogEntry) : Prop := e.serialize.length < 2 ^ 32

end Codec

section Files

/-- A stream over a file: the bytes, the position, and whether it was opened in append
mode. -/
structure File where
  content : Bytes
  pos : Nat
  append : Bool
  deriving DecidableEq, Repr

/-- `fopen` with mode `ab+`. -/
def File.openAppend (content : Bytes) : File := ⟨content, 0, true⟩

/-- `fopen` with mode `wb+`. -/
def File.create : File := ⟨[], 0, false⟩

/-- `ftell`. -/
def File.ftell (f : File) : Nat := f.pos

/-- `fwrite` and the `fflush` behind it, when the file takes all bytes; `File.writeAll` is for any
file. -/
def File.fwrite (f : File) (bytes : Bytes) : File :=
  if f.append then
    { f with content := f.content ++ bytes, pos := (f.content ++ bytes).length }
  else
    { f with
      content := f.content.take f.pos ++ bytes ++ f.content.drop (f.pos + bytes.length)
      pos := f.pos + bytes.length }

/-- `RaftLogArray::read_entry_from_wal`; it puts the position back where it was. -/
def readEntryFromWal (content : Bytes) (offset : Nat) : Option LogEntry := do
  let (checksumRead, rest) ← readLe32 (content.drop offset)
  let (length, rest) ← readLe32 rest
  let (data, _) ← readBytes length rest
  if checksumRead = (computeChecksum data).toNat then
    let (entry, _) ← LogEntry.deserialize data
    return entry
  else none

/-- `RaftLogArray::write_entry_to_wal`: the file after it, and the offset. -/
def writeEntryToWal (wal : File) (entry : LogEntry) : File × Nat :=
  (wal.fwrite (walRecord entry), wal.ftell)

/-- The offsets of `RaftLogArray::write_batch_to_wal` for records one after the other. -/
def batchOffsets : Nat → List LogEntry → List Nat
  | _, [] => []
  | current, e :: es =>
      current :: batchOffsets (current + 8 + e.serialize.length % 2 ^ 32) es

/-- The buffer of `RaftLogArray::write_batch_to_wal`. -/
def batchBuffer (entries : List LogEntry) : Bytes :=
  entries.flatMap fun e =>
    le32 (computeChecksum e.serialize).toNat ++ (le32 e.serialize.length ++ e.serialize)

/-- `RaftLogArray::write_batch_to_wal`. -/
def writeBatchToWal (wal : File) (entries : List LogEntry) : File × List Nat :=
  (wal.fwrite (batchBuffer entries), batchOffsets wal.ftell entries)

end Files

/-- `RaftLogConfig` and the log level: `logInfo` says whether the arguments of `LOG_INFO`
are evaluated. -/
structure Config extends RaftLogConfig where
  logInfo : Bool

/-- `RaftLogArray`. The index file is the list of offsets in it; `locked` says that the
calling thread holds the mutex. -/
structure RaftLogArray where
  baseIndex : UInt32 := 1
  entries : List LogEntry := []
  indexOffsets : List Nat := []
  wal : File := .openAppend []
  indexFile : List Nat := []
  locked : Bool := false
  deriving DecidableEq, Repr

/-- What a call does: it returns, or it waits for its own thread. -/
inductive Reply (α : Type) where
  | returned (a : α) (log : RaftLogArray)
  | blocked (log : RaftLogArray)

/-- The state that a call leaves or waits in. -/
def Reply.state {α : Type} : Reply α → RaftLogArray
  | .returned _ log => log
  | .blocked log => log

def Reply.isBlocked {α : Type} : Reply α → Bool
  | .returned _ _ => false
  | .blocked _ => true

/-- What a call returns, if it does. -/
def Reply.value {α : Type} : Reply α → Option α
  | .returned a _ => some a
  | .blocked _ => none

/-- The call goes on when the one before it returns. -/
def Reply.andThen {α β : Type} (r : Reply α) (next : α → RaftLogArray → Reply β) : Reply β :=
  match r with
  | .returned a log => next a log
  | .blocked log => .blocked log

namespace RaftLogArray

variable (cfg : Config)

/-- A scope that holds the mutex. -/
def withLock {α : Type} (body : RaftLogArray → Reply α) (log : RaftLogArray) : Reply α :=
  if log.locked && !cfg.relock then .blocked log
  else (body { log with locked := true }).andThen fun a log' =>
    .returned a { log' with locked := log.locked }

section Observers

/-- A scope that only reads. -/
def observe {α : Type} (f : RaftLogArray → α) (log : RaftLogArray) : Reply α :=
  withLock cfg (fun log => .returned (f log) log) log

/-- `RaftLogArray::get`. -/
def get (index : UInt32) : RaftLogArray → Reply (Option LogEntry) :=
  observe cfg fun log =>
    if index < log.baseIndex ∨ log.baseIndex.toNat + log.entries.length ≤ index.toNat then none
    else log.entries[(index - log.baseIndex).toNat]?

/-- `RaftLogArray::get_last`. -/
def getLast : RaftLogArray → Reply (Option LogEntry) := observe cfg fun log => log.entries.getLast?

/-- `RaftLogArray::size`. -/
def size : RaftLogArray → Reply UInt32 := observe cfg fun log => .ofNat log.entries.length

/-- `RaftLogArray::get_last_info`: whether there is an entry, its index and its term. -/
def getLastInfo : RaftLogArray → Reply (Bool × UInt32 × UInt32) :=
  observe cfg fun log =>
    match log.entries.getLast? with
    | none => (false, 0, 0)
    | some e => (true, .ofNat (log.baseIndex.toNat + log.entries.length - 1), e.term)

/-- `RaftLogArray::get_last_index`. -/
def getLastIndex : RaftLogArray → Reply UInt32 :=
  observe cfg fun log =>
    if log.entries.isEmpty then 0
    else .ofNat (log.baseIndex.toNat + log.entries.length - 1)

/-- `RaftLogArray::get_base_index`. -/
def getBaseIndex : RaftLogArray → Reply UInt32 := observe cfg fun log => log.baseIndex

/-- `RaftLogArray::get_term`. -/
def getTerm (index : UInt32) : RaftLogArray → Reply UInt32 :=
  observe cfg fun log =>
    if index < log.baseIndex ∨ log.baseIndex.toNat + log.entries.length ≤ index.toNat then 0
    else ((log.entries[(index - log.baseIndex).toNat]?).map LogEntry.term).getD 0

/-- `RaftLogArray::get_entries_from(start_index)`. -/
def getEntriesFrom (startIndex : UInt32) : RaftLogArray → Reply (List LogEntry) :=
  observe cfg fun log =>
    if startIndex < log.baseIndex then []
    else log.entries.drop (startIndex - log.baseIndex).toNat

/-- `RaftLogArray::get_entries_from(start_index, max_count)`: the count becomes a
`size_t` in the addition. -/
def getEntriesFromMax (startIndex : UInt32) (maxCount : Int32) :
    RaftLogArray → Reply (List LogEntry) :=
  observe cfg fun log =>
    if startIndex < log.baseIndex then []
    else
      let arrayIndex := (startIndex - log.baseIndex).toNat
      let endIndex := ((arrayIndex + maxCount.toInt) % 2 ^ 64).toNat
      (log.entries.take endIndex).drop arrayIndex

end Observers

section Mutators

/-- One round of the rewriting loop of `truncate_wal_and_index`. -/
def rewriteEntry (files : File × List Nat) (entry : LogEntry) : File × List Nat :=
  let (wal, offset) := writeEntryToWal files.1 entry
  (wal, files.2 ++ [offset])

/-- `RaftLogArray::truncate_wal_and_index`: new files with the entries in memory. -/
def truncateWalAndIndex (log : RaftLogArray) : RaftLogArray :=
  let files := log.entries.foldl rewriteEntry (File.create, [])
  { log with wal := files.1, indexOffsets := files.2, indexFile := files.2 }

/-- Steps 1 and 2 of `RaftLogArray::truncate_from`: the entries from `index` on go. -/
def keepBelow (index : UInt32) (log : RaftLogArray) : RaftLogArray :=
  let arrayIndex := (index - log.baseIndex).toNat
  truncateWalAndIndex { log with
    entries := log.entries.take arrayIndex
    indexOffsets := log.indexOffsets.take arrayIndex }

/-- `RaftLogArray::truncate_from`. -/
def truncateFrom (index : UInt32) : RaftLogArray → Reply Bool :=
  withLock cfg fun log =>
    if index < log.baseIndex ∨ log.baseIndex.toNat + log.entries.length < index.toNat then
      .returned false log
    else
      (getLastIndex cfg log).andThen fun _oldLastIndex log =>
        if index.toNat = log.baseIndex.toNat + log.entries.length then .returned true log
        else
          let log := log.keepBelow index
          if cfg.logInfo then (getLastIndex cfg log).andThen fun _ log => .returned true log
          else .returned true log

/-- Steps 1 and 2 of `RaftLogArray::truncate_before`: the entries below `index` go. -/
def dropBelow (index : UInt32) (log : RaftLogArray) : RaftLogArray :=
  let arrayIndex := (index - log.baseIndex).toNat
  truncateWalAndIndex { log with
    entries := log.entries.drop arrayIndex
    indexOffsets := log.indexOffsets.drop arrayIndex
    baseIndex := index }

/-- `RaftLogArray::truncate_before`. -/
def truncateBefore (index : UInt32) : RaftLogArray → Reply Bool :=
  withLock cfg fun log =>
    if index < log.baseIndex ∨ log.baseIndex.toNat + log.entries.length < index.toNat then
      .returned false log
    else if index = log.baseIndex then .returned true log
    else
      let log := log.dropBelow index
      if cfg.logInfo then (getLastIndex cfg log).andThen fun _ log => .returned true log
      else .returned true log

/-- The end of the append operations: over the threshold, the oldest entries go. -/
def truncateOverThreshold (log : RaftLogArray) : Reply Bool :=
  if cfg.logSizeThreshold < log.entries.length then
    let truncateCount := cfg.truncateCount log.entries.length
    if 0 < truncateCount then
      (truncateBefore cfg (log.baseIndex + .ofNat truncateCount) log).andThen fun _ log =>
        .returned true log
    else .returned true log
  else .returned true log

/-- The index that the next entry gets. -/
def newIndex (log : RaftLogArray) : UInt32 := .ofNat (log.baseIndex.toNat + log.entries.length)

/-- The common part of both overloads of `append`: an entry goes to the end. -/
def appendEntry (log : RaftLogArray) (entry : LogEntry) : RaftLogArray :=
  let (wal, offset) := writeEntryToWal log.wal entry
  { log with
    wal := wal
    entries := log.entries ++ [entry]
    indexOffsets := log.indexOffsets ++ [offset]
    indexFile := log.indexFile ++ [offset] }

/-- `RaftLogArray::append(LogEntry &)`: the entry gets its index. -/
def append (entry : LogEntry) : RaftLogArray → Reply Bool :=
  withLock cfg fun log =>
    truncateOverThreshold cfg (log.appendEntry { entry with index := log.newIndex })

/-- `RaftLogArray::append(const LogEntry &)`: the entry keeps its index. -/
def appendConst (entry : LogEntry) : RaftLogArray → Reply Bool :=
  withLock cfg fun log => truncateOverThreshold cfg (log.appendEntry entry)

/-- The common part of both overloads of `batch_append`. -/
def appendEntries (log : RaftLogArray) (entries : List LogEntry) : RaftLogArray :=
  let (wal, offsets) := writeBatchToWal log.wal entries
  { log with
    wal := wal
    entries := log.entries ++ entries
    indexOffsets := log.indexOffsets ++ offsets
    indexFile := log.indexFile ++ offsets }

/-- The entries with the indexes from `start_index` on. -/
def numbered (startIndex : UInt32) : List LogEntry → List LogEntry
  | [] => []
  | e :: es => { e with index := startIndex } :: numbered (startIndex + 1) es

/-- `RaftLogArray::batch_append(std::vector<LogEntry> &)`. -/
def batchAppend (entries : List LogEntry) (log : RaftLogArray) : Reply Bool :=
  if entries.isEmpty then .returned true log
  else withLock cfg (fun log =>
    truncateOverThreshold cfg (log.appendEntries (numbered log.newIndex entries))) log

/-- `RaftLogArray::batch_append(const std::vector<LogEntry> &)`. -/
def batchAppendConst (entries : List LogEntry) (log : RaftLogArray) : Reply Bool :=
  if entries.isEmpty then .returned true log
  else withLock cfg (fun log => truncateOverThreshold cfg (log.appendEntries entries)) log

/-- `RaftLogArray::create_snapshot`. -/
def createSnapshot (snapshotIndex : UInt32) : RaftLogArray → Reply Bool :=
  withLock cfg fun log =>
    if snapshotIndex < log.baseIndex ∨
        log.baseIndex.toNat + log.entries.length ≤ snapshotIndex.toNat then .returned false log
    else truncateBefore cfg (snapshotIndex + 1) log

/-- `RaftLogArray::reset`. -/
def reset (newStartIndex : UInt32) : RaftLogArray → Reply Bool :=
  withLock cfg fun log =>
    .returned true { log with
      entries := []
      indexOffsets := []
      baseIndex := newStartIndex
      wal := .create
      indexFile := [] }

end Mutators

section Recovery

/-- `RaftLogArray::load_entries`: no result when an entry cannot be read. -/
def loadEntries (wal : File) (offsets : List Nat) : Option (List LogEntry) :=
  offsets.mapM (readEntryFromWal wal.content)

/-- `RaftLogArray::recover` with `load_index`. -/
def recover : RaftLogArray → Reply Bool :=
  withLock cfg fun log =>
    let log := { log with indexOffsets := log.indexFile }
    match loadEntries log.wal log.indexOffsets with
    | none => .returned true { log with entries := [], indexOffsets := [], baseIndex := 1 }
    | some entries =>
        .returned true { log with
          entries := entries
          baseIndex := match entries.head? with
            | some e => e.index
            | none => 1 }

/-- The log object is closed, or its process ends, and it is opened again: the constructor
opens both files in append mode and recovers. -/
def reopen (log : RaftLogArray) : RaftLogArray :=
  (recover cfg { wal := .openAppend log.wal.content, indexFile := log.indexFile }).state

end Recovery

/-- A mutator with its arguments. -/
inductive Op where
  | append (entry : LogEntry)
  | appendConst (entry : LogEntry)
  | batchAppend (entries : List LogEntry)
  | batchAppendConst (entries : List LogEntry)
  | truncateFrom (index : UInt32)
  | truncateBefore (index : UInt32)
  | createSnapshot (snapshotIndex : UInt32)
  | reset (newStartIndex : UInt32)

/-- The call of a mutator. -/
def call : Op → RaftLogArray → Reply Bool
  | .append entry => append cfg entry
  | .appendConst entry => appendConst cfg entry
  | .batchAppend entries => batchAppend cfg entries
  | .batchAppendConst entries => batchAppendConst cfg entries
  | .truncateFrom index => truncateFrom cfg index
  | .truncateBefore index => truncateBefore cfg index
  | .createSnapshot snapshotIndex => createSnapshot cfg snapshotIndex
  | .reset newStartIndex => reset cfg newStartIndex

end RaftLogArray

end EyaKV.Raft.Disk
