import EyaKV.Store.Actions
import EyaKV.Store.Commands
import EyaKV.Store.ZSets

/-!
# The two overloads of `Storage::execute`

`Storage::execute` and the five processors are written twice, for arguments that are strings and
for arguments that are views of strings. Both texts are here, with the read commands as well; a
handler whose two texts differ only in conversions between strings and views has one definition.

The overloads agree on every command but for two pairs of handlers. The pushes log another payload,
and the pops with a count parse it with another function. `execute_agrees_iff` says exactly on
which arguments and stores the overloads agree.
-/

set_option autoImplicit false

namespace EyaKV.Store

open EyaKV.Base

section Commands

/-- The read commands of the storage. -/
inductive ReadCommand where
  | keys | exists | get
  | sMembers
  | zScore | zRank | zCard | zRangeByRank | zRangeByScore
  | lRange | lGet | lSize
  | hGet | hKeys | hValues | hEntries
  deriving DecidableEq, Repr

/-- The constants of `OperationType` for the read commands. -/
def ReadCommand.code : ReadCommand → UInt8
  | .keys => 0
  | .exists => 1
  | .get => 5
  | .sMembers => 9
  | .zScore => 12
  | .zRank => 13
  | .zCard => 14
  | .zRangeByRank => 16
  | .zRangeByScore => 17
  | .lRange => 24
  | .lGet => 25
  | .lSize => 26
  | .hGet => 30
  | .hKeys => 32
  | .hValues => 33
  | .hEntries => 34

def ReadCommand.all : List ReadCommand :=
  [.keys, .exists, .get, .sMembers, .zScore, .zRank, .zCard, .zRangeByRank, .zRangeByScore, .lRange,
    .lGet, .lSize, .hGet, .hKeys, .hValues, .hEntries]

/-- A command of the storage; `write_types` has the writes. -/
inductive Command where
  | read (type : ReadCommand)
  | write (type : WriteCommand)
  deriving DecidableEq

/-- The command of an operation type. The types of the cluster, and those above them, have neither a
branch in `Storage::execute` nor a processor. -/
def Command.ofCode (type : UInt8) : Option Command :=
  if type = 3 then some (.write .range)
  else match OperationType.ofCode type with
    | some t => some (.write (.logged t))
    | none => (ReadCommand.all.find? fun c => c.code == type).map .read

end Commands

section Reads

/-- The order in which the unordered containers are walked. -/
structure Iteration where
  set : StrMap Unit → List Bytes
  map : StrMap Bytes → List (Bytes × Bytes)

variable {α ρ : Type}

/-- The shape of the read handlers: a missing key has an answer of its own, and a value of another
type throws. -/
def readAs (c : Container α) (missing : ρ) (f : α → Result ρ) : Option EyaValue → Result ρ
  | none => .ok missing
  | some v =>
      match c.getIf v with
      | none => .error (.runtimeError c.wrongType)
      | some a => f a

variable (F : FloatOps) (iteration : Iteration) (value : Option EyaValue)

/-- `SetProcessor::s_members`. -/
def sMembers : Result (List Bytes) := readAs sets [] (fun s => .ok (iteration.set s)) value

/-- `ZSetProcessor::z_score`. -/
def zScore (member : Bytes) : Result (Option Bytes) :=
  readAs zsets none (fun z => .ok (z.zscore F member)) value

/-- `ZSetProcessor::z_rank`. -/
def zRank (member : Bytes) : Result (Option Nat) :=
  readAs zsets none (fun z => .ok (z.zrank F member)) value

/-- `ZSetProcessor::z_card`. -/
def zCard : Result Nat := readAs zsets 0 (fun z => .ok z.zcard) value

/-- `ZSetProcessor::z_range_by_rank`. -/
def zRangeByRank (start stop : Int) : Result (List (Bytes × Bytes)) :=
  readAs zsets [] (fun z =>
    let ranks := adjustRanks z.zcard start stop
    .ok (if ranks.2 < ranks.1 then [] else z.zrangeByRank F ranks.1.toNat ranks.2.toNat)) value

/-- `ZSetProcessor::z_range_by_score`. -/
def zRangeByScore (min max : Bytes) : Result (List (Bytes × Bytes)) :=
  readAs zsets [] (fun z => z.zrangeByScore F min max) value

/-- `DequeProcessor::l_range`. -/
def lRange (start stop : Int) : Result (List Bytes) :=
  readAs lists [] (fun dq =>
    let ranks := adjustRanks dq.length start stop
    .ok ((dq.drop ranks.1.toNat).take (ranks.2 + 1 - ranks.1).toNat)) value

/-- `DequeProcessor::l_get`. -/
def lGet (index : Int) : Result (Option Bytes) :=
  readAs lists none (fun dq =>
    let i := if index < 0 then index + dq.length else index
    .ok (if i < 0 then none else dq[i.toNat]?)) value

/-- `DequeProcessor::l_size`. -/
def lSize : Result Nat := readAs lists 0 (fun dq => .ok dq.length) value

/-- `HashProcessor::h_get`. -/
def hGet (field : Bytes) : Result (Option Bytes) :=
  readAs hashes none (fun map => .ok map[field]?) value

/-- `HashProcessor::h_keys`. -/
def hKeys : Result (List Bytes) :=
  readAs hashes [] (fun map => .ok ((iteration.map map).map Prod.fst)) value

/-- `HashProcessor::h_values`. -/
def hValues : Result (List Bytes) :=
  readAs hashes [] (fun map => .ok ((iteration.map map).map Prod.snd)) value

/-- `HashProcessor::h_entries`. -/
def hEntries : Result (List (Bytes × Bytes)) :=
  readAs hashes [] (fun map => .ok (iteration.map map)) value

/-- The answer of a handler that may find nothing. -/
def found : Option Bytes → Response
  | some s => .success (.string s)
  | none => .error "not found"

/-- The answer of a handler that finds pairs of strings. -/
def listed (l : List (Bytes × Bytes)) : Response :=
  .success (.entries (l.map fun p => (p.1, .string p.2)))

variable (value : Bytes → Option EyaValue)

/-- `SetProcessor::execute` for its read, in both texts; `value` is `Storage::get`. -/
def SetProcessor.read (type : ReadCommand) (args : List Bytes) : Result Response :=
  match args with
  | [] => .ok (.error "missing key")
  | key :: _ =>
      match type with
      | .sMembers => (sMembers iteration (value key)).map fun l => .success (.strings l)
      | _ => .ok (.error "unsupported type")

/-- `ZSetProcessor::execute` for its reads. -/
def ZSetProcessor.read (type : ReadCommand) (args : List Bytes) : Result Response :=
  match args with
  | [] => .ok (.error "missing key")
  | key :: rest =>
      match type with
      | .zScore =>
          match rest with
          | [] => .ok (.error "missing member")
          | member :: _ => (zScore F (value key) member).map found
      | .zRank =>
          match rest with
          | [] => .ok (.error "missing member")
          | member :: _ => (zRank F (value key) member).map fun rank => found (rank.map decimal)
      | .zCard => (zCard (value key)).map .count
      | .zRangeByRank =>
          match rest with
          | start :: stop :: _ => do
              let s ← stoll start
              let e ← stoll stop
              (zRangeByRank F (value key) s e).map listed
          | _ => .ok (.error "missing start or end")
      | .zRangeByScore =>
          match rest with
          | min :: max :: _ => (zRangeByScore F (value key) min max).map listed
          | _ => .ok (.error "missing min or max")
      | _ => .ok (.error "unsupported type")

/-- `DequeProcessor::execute` for its reads. -/
def DequeProcessor.read (type : ReadCommand) (args : List Bytes) : Result Response :=
  match args with
  | [] => .ok (.error "missing key")
  | key :: rest =>
      match type with
      | .lSize => (lSize (value key)).map .count
      | .lRange =>
          match rest with
          | start :: stop :: _ => do
              let s ← stoll start
              let e ← stoll stop
              (lRange (value key) s e).map fun l => .success (.strings l)
          | _ => .ok (.error "missing start/end")
      | .lGet =>
          match rest with
          | [] => .ok (.error "missing index")
          | index :: _ => (stoll index).bind fun i => (lGet (value key) i).map found
      | _ => .ok (.error "unsupported type")

/-- `HashProcessor::execute` for its reads. -/
def HashProcessor.read (type : ReadCommand) (args : List Bytes) : Result Response :=
  match args with
  | [] => .ok (.error "missing key")
  | key :: rest =>
      match type with
      | .hGet =>
          match rest with
          | [] => .ok (.error "missing field")
          | field :: _ => (hGet (value key) field).map found
      | .hKeys => (hKeys iteration (value key)).map fun l => .success (.strings l)
      | .hValues => (hValues iteration (value key)).map fun l => .success (.strings l)
      | .hEntries => (hEntries iteration (value key)).map listed
      | _ => .ok (.error "unsupported type")

end Reads

namespace Storage

/-- What the reads use outside the store: the floating-point operations, the walks of the unordered
containers, and `std::regex`, which throws on a pattern that it does not know. -/
structure Library where
  F : FloatOps
  iteration : Iteration
  regex : Bytes → Result (Bytes → Bool)

/-- The handler around a processor, for a read. -/
def caughtRead : Result Response → Response
  | .ok response => response
  | .error e => .error e.what

/-- The read commands of `Storage::execute`, in both texts. -/
def read (lib : Library) (now : Nat) (st : Storage) (type : ReadCommand) (args : List Bytes) :
    Response :=
  let value := st.get now
  match type with
  | .keys =>
      if 1 < args.length then .error "too many arguments"
      else
        match lib.regex (args.head?.getD (ascii "^.*$")) with
        | .ok regexMatch => .success (.strings (keys now st regexMatch).toList)
        | .error e => .error (errorText e)
  | .exists =>
      match args with
      | [] => .error "missing key"
      | [key] => .success (.string (if (value key).isSome then [49] else [48]))
      | _ => .error "too many arguments"
  | .get =>
      match args with
      | [] => .error "missing key"
      | [key] => .success ((value key).elim .monostate .value)
      | _ => .error "too many arguments"
  | .sMembers => caughtRead (SetProcessor.read lib.iteration value type args)
  | .zScore | .zRank | .zCard | .zRangeByRank | .zRangeByScore =>
      caughtRead (ZSetProcessor.read lib.F value type args)
  | .lRange | .lGet | .lSize => caughtRead (DequeProcessor.read value type args)
  | .hGet | .hKeys | .hValues | .hEntries =>
      caughtRead (HashProcessor.read lib.iteration value type args)

/-- `Storage::execute` on a store that may be closed or read only: the overload that `form` says. -/
def executeType (cfg : StorageConfig) (env : Env) (lib : Library) (form : Overload)
    (readOnly closed : Bool) (type : UInt8) (args : List Bytes) (st : Storage) :
    Storage × Response :=
  match Command.ofCode type with
  | some (.write c) =>
      if readOnly then (st, .error "read only")
      else if closed then (st, .error "error:storage closed")
      else perform cfg env st (requestOf lib.F form c args)
  | some (.read c) =>
      if closed then (st, .error "error:storage closed")
      else (st, read lib env.now st c args)
  | none =>
      if closed then (st, .error "error:storage closed") else (st, .error "unknown command")

section Frame

variable {ρ : Type} {cfg : StorageConfig} {env : Env} {st : Storage} {key : Bytes}

/-- The store with another log. -/
def withWal (st : Storage) (wal : Wal) : Storage := { st with wal := wal }

/-- What an operation does to the log when it has logged its record: it may open a file, and the
contents stay. -/
def KeepsFiles (f : Wal → Wal) : Prop :=
  ∀ (w : Wal) (name content : Bytes), w.files[name]? = some content →
    (f w).files[name]? = some content

theorem keepsFiles_id : KeepsFiles id := fun _ _ _ h => h

theorem keepsFiles_openWalFile (filename : Bytes) : KeepsFiles (Wal.openWalFile · filename) := by
  intro w name content h
  simp only [Wal.openWalFile]
  split
  case isTrue => exact h
  case isFalse =>
    rename_i hnew
    rw [Std.ExtTreeMap.getElem?_insert, if_neg]
    · exact h
    · intro heq
      obtain rfl := Std.LawfulEqCmp.eq_of_compare heq
      exact hnew (Std.ExtTreeMap.mem_iff_isSome_getElem?.2 (Option.isSome_of_eq_some h))

/-- The rotation of a memtable treats the log alone, whatever it holds. -/
theorem rotateMemtable_withWal (cfg : StorageConfig) (env : Env) (st : Storage) :
    ∃ f, KeepsFiles f ∧ ∀ w, rotateMemtable cfg env (st.withWal w) =
      (rotateMemtable cfg env st).withWal (f w) := by
  cases henabled : cfg.enableWal with
  | true =>
      refine ⟨_, keepsFiles_openWalFile (newFilename cfg env), fun w => ?_⟩
      simp only [rotateMemtable, withWal, henabled, if_true]
  | false =>
      refine ⟨_, keepsFiles_id, fun w => ?_⟩
      simp only [rotateMemtable, withWal, henabled, Bool.false_eq_true, if_false, id_eq]

/-- A write does not read the log. -/
theorem writeMemtable_withWal (cfg : StorageConfig) (env : Env) (st : Storage) (key : Bytes)
    (value : EValue) :
    ∃ f, KeepsFiles f ∧ ∀ w, writeMemtable cfg env (st.withWal w) key value =
      ((writeMemtable cfg env st key value).1.withWal (f w),
        (writeMemtable cfg env st key value).2) := by
  cases hput : st.memtable.put env.usage key value with
  | ok memtable =>
      cases hflush : memtable.shouldFlush env.usage with
      | true =>
          obtain ⟨f, hf, hrotate⟩ := rotateMemtable_withWal cfg env { st with memtable := memtable }
          refine ⟨f, hf, fun w => ?_⟩
          have hrotated := hrotate w
          simp only [withWal] at hrotated
          simp only [writeMemtable, withWal, hput, hflush, if_true, hrotated]
      | false =>
          refine ⟨_, keepsFiles_id, fun w => ?_⟩
          simp only [writeMemtable, withWal, hput, hflush, Bool.false_eq_true, if_false, id_eq]
  | error e =>
      cases e with
      | overflowError what =>
          obtain ⟨f, hf, hrotate⟩ := rotateMemtable_withWal cfg env st
          refine ⟨f, hf, fun w => ?_⟩
          have hrotated := hrotate w
          simp only [withWal] at hrotated
          cases hagain : (rotateMemtable cfg env st).memtable.put env.usage key value with
          | ok memtable => simp only [writeMemtable, withWal, hput, hrotated, hagain]
          | error e => simp only [writeMemtable, withWal, hput, hrotated, hagain]
      | _ =>
          refine ⟨_, keepsFiles_id, fun w => ?_⟩
          simp only [writeMemtable, withWal, hput, id_eq]

/-- The handlers behind the log do not read it. -/
theorem handle_withWal (cfg : StorageConfig) (env : Env) (op : ValueOp ρ) (key : Bytes)
    (st : Storage) :
    ∃ f, KeepsFiles f ∧ ∀ w, handle cfg env op key (st.withWal w) =
      ((handle cfg env op key st).1.withWal (f w), (handle cfg env op key st).2) := by
  cases hhandle : st.memtable.handleValue key (op.valueHandle env.now) with
  | mk memtable outcome =>
  cases outcome with
  | ok v =>
      refine ⟨_, keepsFiles_id, fun w => ?_⟩
      simp only [handle, withWal, hhandle, id_eq]
  | error e =>
      cases e with
      | outOfRange what =>
          -- the older layers are read without the log
          have hold (w : Wal) :
              getFromOld env.now { st with memtable := memtable, wal := w } key =
                getFromOld env.now { st with memtable := memtable } key := rfl
          cases hfall : op.fallback (getFromOld env.now { st with memtable := memtable } key) with
          | error e =>
              refine ⟨_, keepsFiles_id, fun w => ?_⟩
              simp only [handle, withWal, hhandle, hold, hfall, id_eq]
          | ok result =>
              obtain ⟨r, written⟩ := result
              cases written with
              | none =>
                  refine ⟨_, keepsFiles_id, fun w => ?_⟩
                  simp only [handle, withWal, hhandle, hold, hfall, id_eq]
              | some value =>
                  -- only a rotation in `write_memtable` touches the log, to begin a new file
                  obtain ⟨f, hf, hwrite⟩ :=
                    writeMemtable_withWal cfg env { st with memtable := memtable } key value
                  refine ⟨f, hf, fun w => ?_⟩
                  have hwritten := hwrite w
                  simp only [withWal] at hwritten
                  cases hresult :
                    writeMemtable cfg env { st with memtable := memtable } key value with
                  | mk st' result =>
                  rw [hresult] at hwritten
                  cases result with
                  | ok b =>
                      simp only [handle, withWal, hhandle, hold, hfall, hwritten, hresult]
                  | error e =>
                      simp only [handle, withWal, hhandle, hold, hfall, hwritten, hresult]
      | _ =>
          refine ⟨_, keepsFiles_id, fun w => ?_⟩
          simp only [handle, withWal, hhandle, id_eq]

/-- The payload of an operation is for its record only. -/
theorem process_payload (cfg : StorageConfig) (env : Env) (op : ValueOp ρ) (key : Bytes)
    (st : Storage) :
    ∃ f, KeepsFiles f ∧ ∀ payload, process cfg env false { op with payload := payload } key st =
      ((handle cfg env op key st).1.withWal (f (logRecord cfg false op.type key payload st).wal),
        (handle cfg env op key st).2) := by
  obtain ⟨f, hf, hhandle⟩ := handle_withWal cfg env op key st
  refine ⟨f, hf, fun payload => ?_⟩
  have hlogged : logRecord cfg false op.type key payload st =
      st.withWal (logRecord cfg false op.type key payload st).wal := by
    rcases logRecord_cases cfg false op.type key payload st with h | h
    · rw [h]
      rfl
    · rw [h]
      rfl
  rw [← hhandle, ← hlogged]
  rfl

/-- No record is appended: the log is disabled, or no file is open. -/
def LogsNothing (cfg : StorageConfig) (st : Storage) : Prop :=
  cfg.enableWal = false ∨ st.wal.walFile = none

instance (cfg : StorageConfig) (st : Storage) : Decidable (LogsNothing cfg st) :=
  inferInstanceAs (Decidable (_ ∨ _))

theorem logRecord_of_logsNothing (h : LogsNothing cfg st) (type : OperationType)
    (key payload : Bytes) : logRecord cfg false type key payload st = st := by
  rcases h with hdisabled | hclosed
  · simp only [logRecord, hdisabled, Bool.false_and, Bool.false_eq_true, if_false]
  · simp only [logRecord, Wal.appendLog, hclosed, ite_self]

/-- Records whose lengths have different last bytes are different. -/
theorem writeRecord_ne {type : UInt8} {key p q : Bytes}
    (h : p.length % 256 ≠ q.length % 256) :
    writeRecord ⟨type, key, p⟩ ≠ writeRecord ⟨type, key, q⟩ := by
  intro heq
  simp only [writeRecord, List.cons.injEq, List.append_cancel_left_eq, true_and] at heq
  have hlength := (List.append_inj heq (by rw [length_le32, length_le32])).1
  simp only [le32, List.cons.injEq] at hlength
  have hfirst := congrArg UInt8.toNat hlength.1
  rw [UInt8.toNat_ofNat', UInt8.toNat_ofNat'] at hfirst
  exact h hfirst

/-- Two payloads leave the same log only when nothing is logged. -/
theorem logsNothing_of_wal_eq {op : ValueOp ρ} {p q : Bytes} (hne : p.length % 256 ≠ q.length % 256)
    (h : (process cfg env false { op with payload := p } key st).1.wal =
      (process cfg env false { op with payload := q } key st).1.wal) : LogsNothing cfg st := by
  obtain ⟨f, hf, hprocess⟩ := process_payload cfg env op key st
  rw [hprocess, hprocess] at h
  simp only [withWal] at h
  cases henabled : cfg.enableWal with
  | false => exact Or.inl henabled
  | true =>
      cases hfile : st.wal.walFile with
      | none => exact Or.inr hfile
      | some name =>
          have hcontent (payload : Bytes) :
              (f (logRecord cfg false op.type key payload st).wal).files[name]? =
                some ((st.wal.files[name]?).getD [] ++
                  writeRecord ⟨op.type.code, key, payload⟩) := by
            refine hf _ _ _ ?_
            simp only [logRecord, henabled, Bool.not_false, Bool.and_self, if_true, Wal.appendLog,
              hfile, Std.ExtTreeMap.getElem?_insert_self]
          have hsame := (hcontent p).symm.trans ((congrArg (fun w => w.files[name]?) h).trans
            (hcontent q))
          exact absurd (List.append_cancel_left (Option.some.inj hsame)) (writeRecord_ne hne)

end Frame

section Agreement

variable {cfg : StorageConfig} {env : Env} {lib : Library}

/-- Equal responses, equal logical stores from the second `now` on, and equal logs. -/
structure Agree (now : Nat) (a b : Storage × Response) : Prop where
  response : a.2 = b.2
  live : ∀ t, now ≤ t → ∀ key, a.1.get t key = b.1.get t key
  wal : a.1.wal = b.1.wal

theorem Agree.of_eq {now : Nat} {a b : Storage × Response} (h : a = b) : Agree now a b := by
  rw [h]
  exact ⟨rfl, fun _ _ _ => rfl, rfl⟩

/-- The two texts of a handler do the same: a push has no values or nothing is logged, and `stoll`
parses the count of a pop. -/
def TextsAgree (cfg : StorageConfig) (st : Storage) (args : List Bytes) : WriteCommand → Prop
  | .logged .lPush | .logged .rPush => args.length < 2 ∨ LogsNothing cfg st
  | .logged .lPopN | .logged .rPopN => ∀ count ∈ args[1]?, (stoll count).isOk = true
  | _ => True

theorem ofInt_natCast (n : Nat) : UInt64.ofInt n = UInt64.ofNat n := by
  apply UInt64.toNat_inj.1
  rw [UInt64.ofInt, UInt64.toNat_ofNat', UInt64.toNat_ofNat']
  omega

/-- What `stoll` parses, `stoull` parses to the same 64 bits. -/
theorem stoull_of_stoll {s : Bytes} {z : Int} (h : stoll s = .ok z) :
    stoull s = .ok (UInt64.ofInt z) := by
  cases hparse : parseSigned s with
  | none =>
      simp only [stoll, hparse] at h
      cases h
  | some p =>
      obtain ⟨negative, n⟩ := p
      simp only [stoll, hparse] at h
      simp only [stoull, hparse]
      cases negative with
      | true =>
          simp only [if_true] at h ⊢
          split at h
          case isTrue => cases h
          obtain rfl := Except.ok.inj h
          rw [if_neg (by omega), UInt64.ofInt_neg, ofInt_natCast, UInt64.zero_sub]
      | false =>
          simp only [Bool.false_eq_true, if_false] at h ⊢
          split at h
          case isTrue => cases h
          obtain rfl := Except.ok.inj h
          rw [if_neg (by omega), ofInt_natCast]

/-- The errors of `stoll` carry its name. -/
theorem what_stoll {s : Bytes} {e : StdException} (h : stoll s = .error e) : e.what = "stoll" := by
  cases hparse : parseSigned s with
  | none =>
      simp only [stoll, hparse] at h
      obtain rfl := Except.error.inj h
      rfl
  | some p =>
      simp only [stoll, hparse] at h
      by_cases hrange : (if p.1 = true then 2 ^ 63 < p.2 else 2 ^ 63 ≤ p.2)
      · rw [if_pos hrange] at h
        obtain rfl := Except.error.inj h
        rfl
      · rw [if_neg hrange] at h
        cases h

theorem what_stoull {s : Bytes} {e : StdException} (h : stoull s = .error e) :
    e.what = "stoull" := by
  cases hparse : parseSigned s with
  | none =>
      simp only [stoull, hparse] at h
      obtain rfl := Except.error.inj h
      rfl
  | some p =>
      simp only [stoull, hparse] at h
      by_cases hrange : 2 ^ 64 ≤ p.2
      · rw [if_pos hrange] at h
        obtain rfl := Except.error.inj h
        rfl
      · rw [if_neg hrange] at h
        cases h

/-- A write fails with the exception of a full memtable. -/
theorem error_writeMemtable {st : Storage} {key : Bytes} {value : EValue} {e : StdException}
    (h : (writeMemtable cfg env st key value).2 = .error e) :
    e = .overflowError "MemTable size exceeds limit" := by
  by_cases hfull : st.Full env
  · have hput := MemTable.put_of_shouldFlush key value hfull
    simp only [writeMemtable, hput] at h
    cases hfresh : (rotateMemtable cfg env st).memtable.shouldFlush env.usage with
    | false =>
        rw [MemTable.put_of_not_shouldFlush key value hfresh] at h
        cases h
    | true =>
        rw [MemTable.put_of_shouldFlush key value hfresh] at h
        exact (Except.error.inj h).symm
  · have hput := MemTable.put_of_not_shouldFlush key value (Bool.eq_false_iff.2 hfull)
    simp only [writeMemtable, hput] at h
    split at h
    · cases h
    · cases h

/-- A callback that `handle_value` returns from has not thrown. -/
theorem snd_of_handleValue {m m' : MemTable} {key : Bytes} {f : ValueHandle} {v : EValue}
    (h : m.handleValue key f = (m', .ok v)) : (f v).2 = none := by
  cases hnode : m.table[key]? with
  | none =>
      simp only [MemTable.handleValue, hnode] at h
      cases h
  | some node =>
      cases hf : f node.value with
      | mk value thrown =>
      cases thrown with
      | none =>
          simp only [MemTable.handleValue, hnode, hf, Prod.mk.injEq, Except.ok.injEq] at h
          rw [← h.2, hf]
      | some e =>
          simp only [MemTable.handleValue, hnode, hf] at h
          cases h

/-- **The results of a write operation.** What holds of the results of the callback when it returns,
of those of the branches behind it, and of the two exceptions that `handle` itself can end with,
holds of the result of the operation. -/
theorem handle_result {ρ : Type} {op : ValueOp ρ} {key : Bytes} {st : Storage} {P : Result ρ → Prop}
    (hplace : ∀ v, (op.valueHandle env.now v).2 = none → P (op.inPlace env.now v).2)
    (hfall : ∀ o, P ((op.fallback o).map Prod.fst))
    (hfull : P (.error (.overflowError "MemTable size exceeds limit")))
    (hthrown : P (.error .exception)) : P (handle cfg env op key st).2 := by
  cases hhandle : st.memtable.handleValue key (op.valueHandle env.now) with
  | mk memtable outcome =>
  cases outcome with
  | ok v =>
      simp only [handle, hhandle]
      exact hplace v (snd_of_handleValue hhandle)
  | error thrown =>
      cases thrown with
      | outOfRange text =>
          -- only `out_of_range` is caught; behind it the older layers decide
          have hbranch := hfall (getFromOld env.now { st with memtable := memtable } key)
          cases hold : op.fallback (getFromOld env.now { st with memtable := memtable } key) with
          | error e =>
              rw [hold] at hbranch
              simp only [handle, hhandle, hold]
              exact hbranch
          | ok result =>
              obtain ⟨r, written⟩ := result
              rw [hold] at hbranch
              cases written with
              | none =>
                  simp only [handle, hhandle, hold]
                  exact hbranch
              | some value =>
                  cases hresult :
                    writeMemtable cfg env { st with memtable := memtable } key value with
                  | mk st' result =>
                  cases result with
                  | ok b =>
                      simp only [handle, hhandle, hold, hresult]
                      exact hbranch
                  | error e =>
                      obtain rfl := error_writeMemtable (congrArg Prod.snd hresult)
                      simp only [handle, hhandle, hold, hresult]
                      exact hfull
      | _ =>
          simp only [handle, hhandle]
          exact hthrown

/-- The answer to the result of an operation. -/
def answer : Result Response → Response
  | .ok response => response
  | .error e => .error e.what

theorem perform_update_eq (cfg : StorageConfig) (env : Env) (st : Storage) (op : ValueOp Response)
    (key : Bytes) : perform cfg env st (.update op key) =
      ((process cfg env false op key st).1, answer (process cfg env false op key st).2) := by
  cases hresult : process cfg env false op key st with
  | mk st' result =>
      cases result with
      | error e => simp only [perform, hresult, answer]
      | ok response => simp only [perform, hresult, answer]

/-- A removal from a list that is performed is never answered with the text of `stoll`. -/
theorem perform_remover_ne {ρ : Type} {type : OperationType} {payload : Bytes} {nothing : ρ}
    {rem : List Bytes → List Bytes × ρ} {writes : List Bytes → Bool} (f : ρ → ResponseData)
    (key : Bytes) (st : Storage) :
    (perform cfg env st (.call (remover lists type payload nothing
      (fun dq => ((rem dq).1, .ok (rem dq).2)) writes) (fun r => .success (f r)) key)).2 ≠
        .error "stoll" := by
  have hsuccess (r : ρ) : Response.success (f r) ≠ .error "stoll" := by
    intro h
    cases congrArg Response.code h
  rw [Request.call, perform_update_eq]
  refine handle_result (P := fun r => answer r ≠ .error "stoll") ?_ ?_ (by decide) (by decide)
  · intro v hreturned
    -- the callback returns on a dead entry and on a list
    simp only [ValueOp.valueHandle, ValueOp.map, remover] at hreturned ⊢
    split
    · exact hsuccess _
    · rename_i hlive
      rw [if_neg hlive] at hreturned
      cases hget : lists.getIf v.value with
      | none =>
          rw [hget] at hreturned
          cases hreturned
      | some dq => exact hsuccess _
  · intro o
    rw [ValueOp.fallback_map]
    cases o with
    | none => exact hsuccess _
    | some v =>
        simp only [ValueOp.fallback, remover]
        cases hget : lists.getIf v.value with
        | none =>
            simp only [Except.map, answer]
            decide
        | some dq => exact hsuccess _

/-- Two texts of a push that log different payloads agree only where nothing is logged. -/
theorem push_agrees_iff (op : ValueOp Nat) {p q key : Bytes} {now : Nat} {st : Storage}
    (hne : p.length % 256 ≠ q.length % 256) :
    Agree now (perform cfg env st (.call { op with payload := p } .count key))
      (perform cfg env st (.call { op with payload := q } .count key)) ↔ LogsNothing cfg st := by
  have hcall (payload : Bytes) :
      perform cfg env st (.call { op with payload := payload } .count key) =
        let r := process cfg env false { op.map Response.count with payload := payload } key st
        (r.1, answer r.2) :=
    perform_update_eq cfg env st _ key
  rw [hcall, hcall]
  constructor
  · intro h
    exact logsNothing_of_wal_eq hne h.wal
  · intro h
    obtain ⟨f, -, hprocess⟩ := process_payload cfg env (op.map Response.count) key st
    refine Agree.of_eq ?_
    rw [hprocess, hprocess, logRecord_of_logsNothing h, logRecord_of_logsNothing h]

/-- The payloads of the two texts of a push. -/
theorem length_payloads_ne (values : List Bytes) :
    (serializeVector values).length % 256 ≠ (concatStrings values).length % 256 := by
  have hlength : (serializeVector values).length = 4 + (concatStrings values).length := by
    rw [serializeVector, List.length_append]
    rfl
  omega

/-- Two texts of a pop with a count agree exactly when `stoll` parses the count. -/
theorem popN_agrees_iff {pop : Nat → Request} (count : Bytes) (now : Nat) (st : Storage)
    (hne : ∀ n, (perform cfg env st (pop n)).2 ≠ .error "stoll") :
    Agree now
      (perform cfg env st (caught ((stoll count).map fun n => pop (UInt64.ofInt n).toNat)))
      (perform cfg env st (caught ((stoull count).map fun n => pop n.toNat))) ↔
        (stoll count).isOk = true := by
  cases hcount : stoll count with
  | ok n =>
      rw [stoull_of_stoll hcount]
      exact iff_of_true (Agree.of_eq rfl) rfl
  | error e =>
      refine iff_of_false ?_ (by intro h; cases h)
      intro h
      have hresponse : Response.error e.what = _ := h.response
      rw [what_stoll hcount] at hresponse
      cases hview : stoull count with
      | error e' =>
          rw [hview] at hresponse
          have htexts := congrArg Response.errorMsg hresponse
          simp only [caught, Except.map, perform, Response.error, what_stoull hview] at htexts
          exact absurd htexts (by decide)
      | ok n =>
          rw [hview] at hresponse
          exact hne n.toNat hresponse.symm

/-- The two texts of the checks of a write command, carried out. -/
theorem perform_agrees_iff (F : FloatOps) (now : Nat) (c : WriteCommand) (args : List Bytes)
    (st : Storage) :
    Agree now (perform cfg env st (requestOf F .string c args))
      (perform cfg env st (requestOf F .stringView c args)) ↔ TextsAgree cfg st args c := by
  have hsame (h : requestOf F .string c args = requestOf F .stringView c args) :
      Agree now (perform cfg env st (requestOf F .string c args))
        (perform cfg env st (requestOf F .stringView c args)) := Agree.of_eq (by rw [h])
  -- the texts differ for the pushes and the `_N` pops only
  cases c with
  | range => exact iff_of_true (hsame rfl) trivial
  | logged type =>
      cases type with
      | lPush =>
          match args with
          | [] => exact iff_of_true (hsame rfl) (Or.inl (by decide))
          | [_] => exact iff_of_true (hsame rfl) (Or.inl (by simp))
          | key :: v :: rest =>
              refine (push_agrees_iff (lPush (v :: rest)) (length_payloads_ne _)).trans ?_
              simp [TextsAgree]
      | rPush =>
          match args with
          | [] => exact iff_of_true (hsame rfl) (Or.inl (by decide))
          | [_] => exact iff_of_true (hsame rfl) (Or.inl (by simp))
          | key :: v :: rest =>
              refine (push_agrees_iff (rPush (v :: rest)) (length_payloads_ne _)).trans ?_
              simp [TextsAgree]
      | lPopN =>
          match args with
          | [] => exact iff_of_true (hsame rfl) (by simp [TextsAgree])
          | [_] => exact iff_of_true (hsame rfl) (by simp [TextsAgree])
          | key :: count :: _ =>
              have hne (n : Nat) := @perform_remover_ne cfg env _ .lPopN
                (serializeString (decimal n)) [] (fun dq => (dq.drop n, dq.take n))
                (fun _ => true) .strings key st
              refine (popN_agrees_iff count now st hne).trans ?_
              simp [TextsAgree]
      | rPopN =>
          match args with
          | [] => exact iff_of_true (hsame rfl) (by simp [TextsAgree])
          | [_] => exact iff_of_true (hsame rfl) (by simp [TextsAgree])
          | key :: count :: _ =>
              have hne (n : Nat) := @perform_remover_ne cfg env _ .rPopN
                (serializeString (decimal n)) []
                (fun dq => (dq.take (dq.length - n), dq.reverse.take n))
                (fun _ => true) .strings key st
              refine (popN_agrees_iff count now st hne).trans ?_
              simp [TextsAgree]
      | _ => exact iff_of_true (hsame rfl) trivial

/-- **The overloads of `Storage::execute`.** They give the same response, leave the same contents
and append the same bytes to the log, unless an open store that takes writes logs a push, or is
asked for a pop with a count that `stoll` does not parse. -/
theorem execute_agrees_iff (cfg : StorageConfig) (env : Env) (lib : Library)
    (readOnly closed : Bool) (type : UInt8) (args : List Bytes) (st : Storage) :
    Agree env.now (executeType cfg env lib .string readOnly closed type args st)
      (executeType cfg env lib .stringView readOnly closed type args st) ↔
        ∀ c, Command.ofCode type = some (.write c) →
          readOnly = true ∨ closed = true ∨ TextsAgree cfg st args c := by
  simp only [executeType]
  cases hcode : Command.ofCode type with
  | none => exact iff_of_true (Agree.of_eq rfl) (by intro c h; cases h)
  | some command =>
      cases command with
      | read c => exact iff_of_true (Agree.of_eq rfl) (by intro c h; cases h)
      | write c =>
          simp only [Option.some.injEq, Command.write.injEq, forall_eq']
          cases readOnly with
          | true => exact iff_of_true (Agree.of_eq rfl) (Or.inl rfl)
          | false =>
              cases closed with
              | true => exact iff_of_true (Agree.of_eq rfl) (Or.inr (Or.inl rfl))
              | false => simpa using perform_agrees_iff lib.F env.now c args st

-- A count that `stoull` parses and `stoll` does not.
example : (stoll (ascii "9223372036854775808")).isOk = false ∧
    (stoull (ascii "9223372036854775808")).isOk = true := by decide

/-- A library for runs that touch no sorted set and read nothing. -/
def noLibrary : Library := ⟨noFloats, ⟨fun _ => [], fun _ => []⟩, fun _ => .ok fun _ => true⟩

/-- `LPUSH k v` on an empty store with a log. -/
theorem not_agrees_lPush : ¬ ∀ (cfg : StorageConfig) (env : Env) (lib : Library)
    (readOnly closed : Bool) (type : UInt8) (args : List Bytes) (st : Storage),
    Agree env.now (executeType cfg env lib .string readOnly closed type args st)
      (executeType cfg env lib .stringView readOnly closed type args st) := by
  intro h
  have hpush := h roomyConfig (tick 0) noLibrary false false 20 [[107], [118]]
    (openEmpty roomyConfig (tick 0))
  have hcode : Command.ofCode 20 = some (.write (.logged .lPush)) := by decide
  simp only [executeType, hcode, Bool.false_eq_true, if_false] at hpush
  rcases (perform_agrees_iff noLibrary.F _ _ _ _).1 hpush with hlength | hnothing
  · exact absurd hlength (by decide)
  · exact absurd hnothing (by decide)

end Agreement

end Storage

end EyaKV.Store
