import EyaKV.Base.Layers
import EyaKV.Store.MemTable
import EyaKV.Store.SSTable
import EyaKV.Store.Wal

/-!
# The storage engine

`Storage` puts the parts together: the current memtable with its log file, the
immutable memtables by file name, the SSTables and the write-ahead log. This file
has the write and read paths that all commands share: `writeMemtable`, `remove`,
`setKeyExpire`, `setExpire`, `get` and its parts, the rotation of the memtable and
its flush into an SSTable.

An operation runs in an environment: the clock and the memory use of a memtable. A
function that throws in the source returns the exception with the state it leaves.
-/

set_option autoImplicit false

namespace EyaKV.Store

open EyaKV.Base EyaKV.Base.Layers

/-- The configuration of a store. `mergeFuel` bounds the recursion of one
compaction. -/
structure StorageConfig where
  enableWal : Bool
  memtableSize : Nat
  sstable : SSTableConfig
  mergeFuel : Nat

/-- What an operation finds outside the store: the tick of the system clock, in
nanoseconds, the memory that a memtable uses, and what the `double` holds that the `i`-th
record of a recovery declares and does not set. A command finds the first of these. -/
structure Env where
  ticks : Nat
  usage : MemTable → Nat
  unsetScore : Nat → Double

/-- The clock in seconds. -/
def Env.now (env : Env) : Nat := env.ticks / 10 ^ 9

/-- The state of the storage engine. -/
structure Storage where
  memtable : MemTable
  currentWalFilename : Bytes
  immutableMemtables : StrMap MemTable
  sstableManager : SSTableManager
  wal : Wal

namespace Storage

variable (cfg : StorageConfig) (env : Env)

/-- `Storage::create_new_memtable`; the constructor of `MemTable` scales the limit. -/
def createNewMemtable : MemTable := MemTable.new (cfg.memtableSize * 1024)

/-- The name of the next memtable: that of a new log file, or the tick alone when the
log is disabled. -/
def newFilename : Bytes :=
  if cfg.enableWal then Wal.generateUniqueFilename env.ticks else decimal env.ticks

/-- `Storage::rotate_memtable`. -/
def rotateMemtable (st : Storage) : Storage :=
  { st with
    immutableMemtables := st.immutableMemtables.insert st.currentWalFilename st.memtable
    wal := if cfg.enableWal then st.wal.openWalFile (newFilename cfg env) else st.wal
    currentWalFilename := newFilename cfg env
    memtable := createNewMemtable cfg }

section Writes

/-- `Storage::write_memtable`. -/
def writeMemtable (st : Storage) (key : Bytes) (value : EValue) : Storage × Result Bool :=
  match st.memtable.put env.usage key value with
  | .ok memtable =>
      let st' := { st with memtable := memtable }
      if memtable.shouldFlush env.usage then (rotateMemtable cfg env st', .ok true)
      else (st', .ok true)
  | .error (.overflowError _) =>
      let st' := rotateMemtable cfg env st
      match st'.memtable.put env.usage key value with
      | .ok memtable => ({ st' with memtable := memtable }, .ok true)
      | .error e => (st', .error e)
  | .error _ => (st, .ok false)

/-- One round of the loop of `Storage::remove`: a key whose record cannot be logged is
skipped. -/
def removeKey (st : Storage) (key : Bytes) : Bool × Storage :=
  let (logged, wal) :=
    if cfg.enableWal then st.wal.appendLog .remove key [] else (true, st.wal)
  if logged then
    (true, { st with wal := wal, memtable := (st.memtable.remove key).2 })
  else (false, { st with wal := wal })

/-- `Storage::remove`: the number of removed keys. -/
def remove (st : Storage) (keys : List Bytes) : Storage × Result Nat :=
  if keys = [] then (st, .error (.runtimeError "Remove key failed, missing key"))
  else
    let r := keys.foldl (fun (acc : Nat × Storage) key =>
      let (removed, st') := removeKey cfg acc.2 key
      (if removed then acc.1 + 1 else acc.1, st')) (0, st)
    (r.2, .ok r.1)

end Writes

section Reads

variable (now : Nat) (st : Storage) (key : Bytes)

/-- `Storage::get_from_latest`. -/
def getFromLatest : Option EValue :=
  match st.memtable.get key with
  | some v => if v.isExpired now || v.isDeleted then none else some v
  | none => none

/-- `Storage::get_from_immutable_memtables`: from the newest name to the oldest. -/
def getFromImmutableMemtables : Option EValue :=
  st.immutableMemtables.toList.reverse.findSome? fun e => e.2.get key

/-- `Storage::get_from_old`: the first version found decides. -/
def getFromOld : Option EValue :=
  match st.getFromImmutableMemtables key with
  | some v => if v.isExpired now || v.isDeleted then none else some v
  | none =>
      match st.sstableManager.get key with
      | some v => if v.isExpired now || v.isDeleted then none else some v
      | none => none

/-- `Storage::get`. -/
def get : Option EyaValue :=
  match st.getFromLatest now key with
  | some v => some v.value
  | none =>
      match st.getFromOld now key with
      | some v => some v.value
      | none => none

end Reads

section Expiry

/-- `Storage::set_key_expire`: the second is narrowed to 32 bits. -/
def setKeyExpire (st : Storage) (key : Bytes) (expireTime : UInt64) : Storage × Result Unit :=
  let setExpiry : ValueHandle := fun v =>
    if v.isDeleted || v.isExpired env.now then (v, none)
    else ({ v with expireTime := expireTime.toUInt32 }, none)
  match st.memtable.handleValue key setExpiry with
  | (memtable, .ok _) => ({ st with memtable := memtable }, .ok ())
  | (memtable, .error (.outOfRange _)) =>
      let st := { st with memtable := memtable }
      match st.get env.now key with
      | none => (st, .error (.runtimeError "key not found"))
      | some v =>
          let value : EValue := { value := v, expireTime := expireTime.toUInt32 }
          match st.memtable.put env.usage key value with
          | .ok memtable => ({ st with memtable := memtable }, .ok ())
          | .error (.overflowError _) =>
              let st' := rotateMemtable cfg env st
              match st'.memtable.put env.usage key value with
              | .ok memtable => ({ st' with memtable := memtable }, .ok ())
              | .error e => (st', .error e)
          | .error e => (st, .error e)
  | (memtable, .error e) => ({ st with memtable := memtable }, .error e)

/-- `Storage::set_expire`. -/
def setExpire (st : Storage) (key : Bytes) (aliveTime : UInt64) : Storage × Result Unit :=
  let expireTime := if aliveTime = 0 then 0 else UInt64.ofNat env.now + aliveTime
  let st' := if cfg.enableWal then
      { st with wal := (st.wal.appendLog .expire key (decimal expireTime.toNat)).2 }
    else st
  setKeyExpire cfg env st' key expireTime

end Expiry

section Flush

/-- One round of the loop of `Storage::flush_memtable_to_sstable`: the state after it
and whether the loop goes on. -/
def flushOldest (st : Storage) : Option (Storage × Bool) :=
  match st.immutableMemtables.toList with
  | [] => some (st, false)
  | (filename, imm) :: _ =>
      if imm.size = 0 then
        some ({ st with immutableMemtables := st.immutableMemtables.erase filename }, true)
      else do
        let (created, mgr) ← st.sstableManager.createNewSstable cfg.sstable env.now cfg.mergeFuel
          imm.getAllEntries
        match created with
        | some _ =>
            return ({ st with
              sstableManager := mgr
              wal := if cfg.enableWal then st.wal.clear filename else st.wal
              immutableMemtables := st.immutableMemtables.erase filename }, true)
        | none => return ({ st with sstableManager := mgr }, false)

/-- The loop, for `rounds` rounds at most. -/
def flushLoop : Nat → Storage → Option Storage
  | 0, st => some st
  | rounds + 1, st => do
      let (st', goOn) ← flushOldest cfg env st
      if goOn then flushLoop rounds st' else return st'

/-- `Storage::flush_memtable_to_sstable`. A round removes an immutable memtable or ends
the loop. -/
def flushMemtableToSstable (st : Storage) : Option Storage :=
  flushLoop cfg env (st.immutableMemtables.size + 1) st

end Flush

/-- The store that the constructor leaves in an empty directory. The first memtable
gets its limit from `set_size_limit`, which does not scale it. -/
def openEmpty : Storage :=
  let memtable := (createNewMemtable cfg).cancelSizeLimit.setSizeLimit cfg.memtableSize
  let wal : Wal := ⟨∅, none⟩
  let wal := if cfg.enableWal then wal.openWalFile (newFilename cfg env) else wal
  if memtable.shouldFlush env.usage || !cfg.enableWal then
    ⟨createNewMemtable cfg, newFilename cfg env, (∅ : StrMap MemTable).insert [] memtable,
      SSTableManager.empty, wal⟩
  else ⟨memtable, newFilename cfg env, ∅, SSTableManager.empty, wal⟩

end Storage

end EyaKV.Store
