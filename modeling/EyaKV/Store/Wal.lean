import EyaKV.Store.Codec

/-!
# The write-ahead log

A `Wal` is the directory of `.wal` files with their bytes and the file that is open
for appending. `appendLog` frames a record and appends it, `recover` reads the files
in name order and stops reading a file at the first record that is incomplete or
whose lengths exceed the sanity limits, and `clear` deletes a file.

Every appended byte reaches the file: the model is of a log that is synchronised on
write. `readRecords_writeRecords` is the round trip of the framing.
-/

set_option autoImplicit false

namespace EyaKV.Store

open EyaKV.Base EyaKV.Base.Framing

/-- The operation types that the write-ahead log records. -/
inductive OperationType where
  | remove | expire | set
  | sAdd | sRem
  | zAdd | zRem | zIncrBy | zRemByRank | zRemByScore
  | lPush | lPop | rPush | rPop | lPopN | rPopN
  | hSet | hDel
  deriving DecidableEq, Repr

/-- The byte of an operation type. -/
def OperationType.code : OperationType → UInt8
  | .remove => 2
  | .expire => 4
  | .set => 6
  | .sAdd => 7
  | .sRem => 8
  | .zAdd => 10
  | .zRem => 11
  | .zIncrBy => 15
  | .zRemByRank => 18
  | .zRemByScore => 19
  | .lPush => 20
  | .lPop => 21
  | .rPush => 22
  | .rPop => 23
  | .lPopN => 27
  | .rPopN => 28
  | .hSet => 29
  | .hDel => 31

/-- The operation type of a byte, for those that the recovery knows. -/
def OperationType.ofCode (code : UInt8) : Option OperationType :=
  [.remove, .expire, .set, .sAdd, .sRem, .zAdd, .zRem, .zIncrBy, .zRemByRank, .zRemByScore,
    .lPush, .lPop, .rPush, .rPop, .lPopN, .rPopN, .hSet, .hDel].find? fun t => t.code == code

theorem OperationType.ofCode_code (t : OperationType) : ofCode t.code = some t := by
  cases t <;> rfl

/-- A record of the log. -/
structure WalRecord where
  type : UInt8
  key : Bytes
  payload : Bytes
  deriving DecidableEq, Repr

section Framing

/-- The limits of `Wal::recover` on the lengths that it reads. -/
def maxKeyLength : Nat := 1024 * 1024

def maxPayloadLength : Nat := 128 * 1024 * 1024

/-- The bytes that `Wal::write_record` appends. The payload is left out when its
32-bit length is 0. -/
def writeRecord (r : WalRecord) : Bytes :=
  r.type :: (le32 r.key.length ++ (r.key ++ (le32 r.payload.length ++
    if r.payload.length % 2 ^ 32 = 0 then [] else r.payload)))

/-- One round of the reading loop of `Wal::recover`; no result ends the loop. -/
def readRecord : Decoder UInt8 WalRecord
  | [] => none
  | type :: rest => do
      let (keyLen, rest) ← readLe32 rest
      if maxKeyLength < keyLen then none
      let (key, rest) ← readBytes keyLen rest
      let (valLen, rest) ← readLe32 rest
      if maxPayloadLength < valLen then none
      let (payload, rest) ← readBytes valLen rest
      return (⟨type, key, payload⟩, rest)

/-- The records that the recovery reads from a file. -/
def readRecords (content : Bytes) : List WalRecord := scan readRecord content.length content

/-- A record within the limits of the recovery. -/
def WalRecord.Readable (r : WalRecord) : Prop :=
  r.key.length ≤ maxKeyLength ∧ r.payload.length ≤ maxPayloadLength

theorem decodes_record : Decodes WalRecord.Readable writeRecord readRecord := by
  rintro ⟨type, key, payload⟩ ⟨hkey, hpayload⟩ rest
  simp only [maxKeyLength, maxPayloadLength] at hkey hpayload
  have hlen : (if payload.length % 2 ^ 32 = 0 then [] else payload) = payload := by
    rw [Nat.mod_eq_of_lt (by omega)]
    split_ifs with h
    · exact (List.length_eq_zero_iff.1 h).symm
    · rfl
  have hk : ¬ maxKeyLength < key.length := by simp only [maxKeyLength]; omega
  have hp : ¬ maxPayloadLength < payload.length := by simp only [maxPayloadLength]; omega
  simp only [writeRecord, hlen, List.cons_append, List.append_assoc, readRecord,
    decodes_le32 key.length (by omega), decodes_le32 payload.length (by omega), readBytes_append,
    Option.bind_eq_bind, Option.bind_some, hk, hp, ↓reduceIte, Option.pure_def]

theorem writeRecord_ne_nil (r : WalRecord) : writeRecord r ≠ [] := List.cons_ne_nil _ _

/-- **Framing round trip.** A file of records within the limits is read back, record
by record. -/
theorem readRecords_writeRecords {l : List WalRecord} (h : ∀ r ∈ l, r.Readable) :
    readRecords (l.flatMap writeRecord) = l := by
  have hlen := length_le_flatMap writeRecord writeRecord_ne_nil l
  obtain ⟨fuel, hfuel⟩ := Nat.exists_eq_add_of_le hlen
  have hscan := decodes_record.scan_append l h fuel []
  rw [List.append_nil] at hscan
  rw [readRecords, hfuel, hscan]
  cases fuel with
  | zero => rw [scan, List.append_nil]
  | succ fuel => rw [scan, readRecord, List.append_nil]

end Framing

section Log

/-- The log directory: the bytes of its files, and the file open for appending. -/
structure Wal where
  files : StrMap Bytes
  walFile : Option Bytes

namespace Wal

/-- `Wal::append_log`. -/
def appendLog (w : Wal) (type : OperationType) (key payload : Bytes) : Bool × Wal :=
  match w.walFile with
  | none => (false, w)
  | some name =>
      let content := (w.files[name]?).getD []
      (true, { w with
        files := w.files.insert name (content ++ writeRecord ⟨type.code, key, payload⟩) })

@[simp] theorem walFile_appendLog (w : Wal) (type : OperationType) (key payload : Bytes) :
    (w.appendLog type key payload).2.walFile = w.walFile := by
  unfold appendLog
  split
  · rfl
  · rfl

/-- A record can be appended exactly when a file is open. -/
theorem appendLog_fst (w : Wal) (type : OperationType) (key payload : Bytes) :
    (w.appendLog type key payload).1 = w.walFile.isSome := by
  unfold appendLog
  split
  · next h => rw [h]; rfl
  · next h => rw [h]; rfl

/-- `Wal::open_wal_file` for a given name; a file that does not exist is created. -/
def openWalFile (w : Wal) (filename : Bytes) : Wal :=
  { files := if filename ∈ w.files then w.files else w.files.insert filename []
    walFile := some filename }

/-- `Wal::generate_unique_filename` at the clock tick `ticks`: `eya_<ticks>.wal`. -/
def generateUniqueFilename (ticks : Nat) : Bytes :=
  [101, 121, 97, 95] ++ decimal ticks ++ [46, 119, 97, 108]

/-- `Wal::clear`. -/
def clear (w : Wal) (filename : Bytes) : Wal :=
  { files := w.files.erase filename
    walFile := if w.walFile = some filename then none else w.walFile }

/-- The calls that `Wal::recover` makes to its callback. -/
def recoverCalls (w : Wal) : List (Bytes × WalRecord) :=
  w.files.toList.flatMap fun file => (readRecords file.2).map fun r => (file.1, r)

/-- The log after `Wal::recover`: no file is open and the empty files are gone. -/
def afterRecover (w : Wal) : Wal :=
  { files := Std.ExtTreeMap.ofList
      (OrderedMap.retain (fun _ content => !content.isEmpty) w.files) compare
    walFile := none }

end Wal

end Log

end EyaKV.Store
