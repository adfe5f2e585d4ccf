import EyaKV.Store.UnsetScores

/-!
# The recovery of a store

A restart loads the SSTables and then replays the log: `Storage::recover` reads the files
in name order and hands each record to the processor of its type, which decodes the payload
and calls its own operation with `is_recover`. A file gets a memtable of its own, without a
size limit; when the next file begins, the memtable moves to the immutable ones under the
name of its file.

`recoverAction` is the decoding and `recoverCall` the callback. The records of one file
leave the entries that `Replays` describes (`recoverFile_spec`), and a stack of layers that
is covered by its logs is recovered with all its live versions (`recoverStack_spec`).
-/

set_option autoImplicit false

namespace EyaKV.Store

open EyaKV.Base EyaKV.Base.Layers EyaKV.Base.RedoLogs EyaKV.Base.Framing

section Decoding

/-- A recovered operation: its result is dropped, and it logs nothing. -/
def Action.call {ρ : Type} (op : ValueOp ρ) : Action := .update op.bare

variable (F : FloatOps) (toZset : Decoder UInt8 ZSet) (type : OperationType) (payload : Bytes)

/-- `StringProcessor::recover`. A payload that does not decode has no result. -/
def StringProcessor.recover : Option (Result Action) :=
  match type with
  | .set => (deserialize toZset payload).map fun r => .ok (.set r.1)
  | _ => some (.ok .skip)

/-- `SetProcessor::recover`. -/
def SetProcessor.recover : Option (Result Action) :=
  match type with
  | .sAdd => (readStrings payload).map fun members => .ok (.call (sAdd members))
  | .sRem => (readStrings payload).map fun members => .ok (.call (sRem members))
  | _ => some (.ok .skip)

/-- `ZSetProcessor::recover`. -/
def ZSetProcessor.recover : Option (Result Action) :=
  match type with
  | .zAdd => (readPairs payload).map fun scoreMembers => .ok (.call (zAdd F scoreMembers))
  | .zRem => (readStrings payload).map fun members => .ok (.call (zRem F members))
  | .zIncrBy => do
      let (increment, rest) ← deserializeString payload
      let (member, _) ← deserializeString rest
      return .ok (.call (zIncrBy F increment member))
  | .zRemByRank => do
      let (start, rest) ← deserializeString payload
      let (stop, _) ← deserializeString rest
      return (stoll start).bind fun s => (stoll stop).map fun e => .call (zRemByRank F s e)
  | .zRemByScore => do
      let (min, rest) ← deserializeString payload
      let (max, _) ← deserializeString rest
      return .ok (.call (zRemByScore F min max))
  | _ => some (.ok .skip)

/-- `DequeProcessor::recover`. The values of a push are read as a counted vector, and the
count of a pop as a `long long`, which is passed on as a `size_t`. -/
def DequeProcessor.recover : Option (Result Action) :=
  match type with
  | .lPush => (deserializeVector payload).map fun r => .ok (.call (lPush r.1))
  | .rPush => (deserializeVector payload).map fun r => .ok (.call (rPush r.1))
  | .lPop => some (.ok (.call lPop))
  | .rPop => some (.ok (.call rPop))
  | .lPopN => (deserializeString payload).map fun r =>
      (stoll r.1).map fun n => .call (lPopN (UInt64.ofInt n).toNat)
  | .rPopN => (deserializeString payload).map fun r =>
      (stoll r.1).map fun n => .call (rPopN (UInt64.ofInt n).toNat)
  | _ => some (.ok .skip)

/-- `HashProcessor::recover`. -/
def HashProcessor.recover : Option (Result Action) :=
  match type with
  | .hSet => (readPairs payload).map fun fieldValues => .ok (.call (hSet fieldValues))
  | .hDel => (readStrings payload).map fun fields => .ok (.call (hDel fields))
  | _ => some (.ok .skip)

/-- What the callback of `Storage::recover` makes of a record, before it acts: an action, or
an exception of the decoding. No result means a read past the end of the payload. -/
def recoverAction (r : WalRecord) : Option (Result Action) :=
  match OperationType.ofCode r.type with
  | none => some (.ok .skip)
  | some .remove => some (.ok .remove)
  | some .expire => some ((stoull r.payload).map .expire)
  | some .set => StringProcessor.recover toZset .set r.payload
  | some .sAdd => SetProcessor.recover .sAdd r.payload
  | some .sRem => SetProcessor.recover .sRem r.payload
  | some .zAdd => ZSetProcessor.recover F .zAdd r.payload
  | some .zRem => ZSetProcessor.recover F .zRem r.payload
  | some .zIncrBy => ZSetProcessor.recover F .zIncrBy r.payload
  | some .zRemByRank => ZSetProcessor.recover F .zRemByRank r.payload
  | some .zRemByScore => ZSetProcessor.recover F .zRemByScore r.payload
  | some .lPush => DequeProcessor.recover .lPush r.payload
  | some .lPop => DequeProcessor.recover .lPop r.payload
  | some .rPush => DequeProcessor.recover .rPush r.payload
  | some .rPop => DequeProcessor.recover .rPop r.payload
  | some .lPopN => DequeProcessor.recover .lPopN r.payload
  | some .rPopN => DequeProcessor.recover .rPopN r.payload
  | some .hSet => HashProcessor.recover .hSet r.payload
  | some .hDel => HashProcessor.recover .hDel r.payload

section Regularity

variable {F toZset type payload} {a : Action}

theorem regular_of_map {β : Type} {decoded : Option β} {f : β → Result Action}
    (hf : ∀ b, f b = .ok a → a.Regular) (h : decoded.map f = some (.ok a)) : a.Regular := by
  obtain ⟨b, -, hb⟩ := Option.map_eq_some_iff.1 h
  exact hf b hb

theorem regular_call {ρ : Type} {op : ValueOp ρ} (hop : op.bare.Regular)
    (h : (Except.ok (Action.call op) : Result Action) = .ok a) : a.Regular := by
  cases h
  exact hop

theorem regular_skip (h : some (Except.ok Action.skip : Result Action) = some (.ok a)) :
    a.Regular := by
  cases h
  trivial

/-- A removal of elements that writes every older version back. -/
theorem regular_rewriting {α ρ : Type} {c : Container α} {nothing : ρ} {rem : α → α × Result ρ} :
    (remover c type payload nothing rem fun _ => true).bare.Regular :=
  regular_remover fun _ _ => coherent_remover fun _ hfalse => by cases hfalse

theorem SetProcessor.regular (h : SetProcessor.recover type payload = some (.ok a)) :
    a.Regular := by
  cases type with
  | sAdd => exact regular_of_map (fun _ => regular_call (regular_adder tagged_sets _)) h
  | sRem => exact regular_of_map (fun _ => regular_call regular_rewriting) h
  | _ => exact regular_skip h

theorem ZSetProcessor.regular (h : ZSetProcessor.recover F type payload = some (.ok a)) :
    a.Regular := by
  cases type with
  | zAdd => exact regular_of_map (fun _ => regular_call (regular_adder tagged_zsets _)) h
  | zRem => exact regular_of_map (fun _ => regular_call regular_rewriting) h
  | zIncrBy =>
      obtain ⟨r, -, h⟩ := Option.bind_eq_some_iff.1 h
      obtain ⟨r', -, h⟩ := Option.bind_eq_some_iff.1 h
      exact regular_call (regular_zIncrBy F r.1 r'.1) (Option.some.inj h)
  | zRemByRank =>
      obtain ⟨r, -, h⟩ := Option.bind_eq_some_iff.1 h
      obtain ⟨r', -, h⟩ := Option.bind_eq_some_iff.1 h
      have hranks := Option.some.inj h
      cases hs : stoll r.1 with
      | error e =>
          rw [hs] at hranks
          cases hranks
      | ok s =>
          cases he : stoll r'.1 with
          | error e =>
              rw [hs, he] at hranks
              cases hranks
          | ok e =>
              rw [hs, he] at hranks
              exact regular_call (regular_remover fun _ _ => coherent_zRemByRank) hranks
  | zRemByScore =>
      obtain ⟨r, -, h⟩ := Option.bind_eq_some_iff.1 h
      obtain ⟨r', -, h⟩ := Option.bind_eq_some_iff.1 h
      exact regular_call (regular_zRemByScore F r.1 r'.1) (Option.some.inj h)
  | _ => exact regular_skip h

/-- A pop whose count is a number. -/
theorem regular_popN {ρ : Type} (op : Nat → ValueOp ρ) (hop : ∀ n, (op n).bare.Regular)
    {count : Result Int} (h : (count.map fun n => Action.call (op (UInt64.ofInt n).toNat)) = .ok a) :
    a.Regular := by
  cases count with
  | error e => cases h
  | ok n => exact regular_call (hop _) h

theorem DequeProcessor.regular (h : DequeProcessor.recover type payload = some (.ok a)) :
    a.Regular := by
  cases type with
  | lPush => exact regular_of_map (fun _ => regular_call (regular_adder tagged_lists _)) h
  | rPush => exact regular_of_map (fun _ => regular_call (regular_adder tagged_lists _)) h
  | lPop => exact regular_call (regular_remover fun _ _ => coherent_lPop) (Option.some.inj h)
  | rPop => exact regular_call (regular_remover fun _ _ => coherent_rPop) (Option.some.inj h)
  | lPopN =>
      refine regular_of_map (fun r hr => ?_) h
      exact regular_popN lPopN (fun _ => regular_rewriting) hr
  | rPopN =>
      refine regular_of_map (fun r hr => ?_) h
      exact regular_popN rPopN (fun _ => regular_rewriting) hr
  | _ => exact regular_skip h

theorem HashProcessor.regular (h : HashProcessor.recover type payload = some (.ok a)) :
    a.Regular := by
  cases type with
  | hSet => exact regular_of_map (fun l => regular_call (regular_hSet l)) h
  | hDel => exact regular_of_map (fun _ => regular_call regular_rewriting) h
  | _ => exact regular_skip h

theorem regular_recoverAction {r : WalRecord} (h : recoverAction F toZset r = some (.ok a)) :
    a.Regular := by
  rw [recoverAction] at h
  cases htype : OperationType.ofCode r.type with
  | none =>
      rw [htype] at h
      exact regular_skip h
  | some t =>
      rw [htype] at h
      cases t with
      | remove =>
          cases h
          trivial
      | expire =>
          have hsecond := Option.some.inj h
          cases hs : stoull r.payload with
          | error e =>
              rw [hs] at hsecond
              cases hsecond
          | ok s =>
              rw [hs] at hsecond
              cases hsecond
              trivial
      | set =>
          obtain ⟨v, -, hv⟩ := Option.map_eq_some_iff.1 h
          cases hv
          trivial
      | sAdd => exact SetProcessor.regular h
      | sRem => exact SetProcessor.regular h
      | zAdd => exact ZSetProcessor.regular h
      | zRem => exact ZSetProcessor.regular h
      | zIncrBy => exact ZSetProcessor.regular h
      | zRemByRank => exact ZSetProcessor.regular h
      | zRemByScore => exact ZSetProcessor.regular h
      | lPush => exact DequeProcessor.regular h
      | lPop => exact DequeProcessor.regular h
      | rPush => exact DequeProcessor.regular h
      | rPop => exact DequeProcessor.regular h
      | lPopN => exact DequeProcessor.regular h
      | rPopN => exact DequeProcessor.regular h
      | hSet => exact HashProcessor.regular h
      | hDel => exact HashProcessor.regular h

end Regularity

end Decoding

namespace Storage

section Recovering

variable (cfg : StorageConfig) (env : Env) (F : FloatOps) (toZset : Decoder UInt8 ZSet)

/-- The start of a file in the callback of `Storage::recover`. -/
def switchFile (st : Storage) (filename : Bytes) : Storage :=
  if filename = st.currentWalFilename then st
  else if st.currentWalFilename = [] then { st with currentWalFilename := filename }
  else { st with
    immutableMemtables := st.immutableMemtables.insert st.currentWalFilename st.memtable
    memtable := (createNewMemtable cfg).cancelSizeLimit
    currentWalFilename := filename }

/-- The `try` block of the callback; its handler drops every exception. -/
def recoverRecord (key : Bytes) (st : Storage) : Action → Storage
  | .update op => (process cfg env true op key st).1
  | .set value => (writeMemtable cfg env st key value).1
  | .remove => (remove cfg st [key]).1
  | .expire t => (setKeyExpire cfg env st key t).1
  | .skip => st

/-- The callback of `Storage::recover`, with what it finds in a `double` that is not set. -/
def recoverCall (st : Storage) (call : (Bytes × WalRecord) × Double) : Option Storage :=
  (recoverAction (F.finding call.2) toZset call.1.2).map fun
    | .ok a => recoverRecord cfg env call.1.2.key (switchFile cfg st call.1.1) a
    | .error _ => switchFile cfg st call.1.1

/-- Each call of a recovery finds a `double` that is not set as the memory left it. -/
def findings (calls : List (Bytes × WalRecord)) : List ((Bytes × WalRecord) × Double) :=
  calls.zipIdx.map fun call => (call.1, env.unsetScore call.2)

theorem map_findings (calls : List (Bytes × WalRecord)) :
    (findings env calls).map Prod.fst = calls := by
  rw [findings, List.map_map]
  exact List.zipIdx_map_fst 0 calls

/-- The end of `Storage::recover`: the memtable gets a limit, which is not scaled, and its
file is opened again, or it becomes immutable. -/
def finishRecovery (st : Storage) : Storage :=
  let memtable := st.memtable.setSizeLimit cfg.memtableSize
  if memtable.shouldFlush env.usage || !cfg.enableWal then
    { st with
      immutableMemtables := st.immutableMemtables.insert st.currentWalFilename memtable
      memtable := createNewMemtable cfg
      currentWalFilename := newFilename cfg env
      wal := if cfg.enableWal then st.wal.openWalFile (newFilename cfg env) else st.wal }
  else
    let filename := if st.currentWalFilename = [] then newFilename cfg env
      else st.currentWalFilename
    { st with
      memtable := memtable
      currentWalFilename := filename
      wal := st.wal.openWalFile filename }

/-- `Storage::recover`. -/
def recover (st : Storage) : Option Storage :=
  ((findings env st.wal.recoverCalls).foldlM (recoverCall cfg env F toZset)
    { st with
      memtable := (createNewMemtable cfg).cancelSizeLimit
      currentWalFilename := []
      wal := st.wal.afterRecover }).map (finishRecovery cfg env)

/-- The constructor of `Storage`, on the SSTables of `mgr` and the log files `files`. -/
def restart (mgr : SSTableManager) (files : StrMap Bytes) : Option Storage :=
  recover cfg env F toZset ⟨createNewMemtable cfg, [], ∅, mgr, ⟨files, none⟩⟩

theorem toList_empty {β : Type} : (∅ : StrMap β).toList = [] :=
  Std.ExtTreeMap.toList_eq_nil_iff.2 rfl

/-- In an empty directory the restart gives an empty store. -/
theorem restart_empty : restart cfg env F toZset SSTableManager.empty ∅ =
    some (openEmpty cfg env) := by
  have hcalls : findings env (Wal.mk ∅ none).recoverCalls = [] := by
    rw [Wal.recoverCalls, toList_empty, List.flatMap_nil]
    rfl
  have hafter : (Wal.mk ∅ none).afterRecover = ⟨∅, none⟩ := by
    rw [Wal.afterRecover, OrderedMap.retain, toList_empty, List.filter_nil]
    rfl
  rw [restart, recover, hcalls, hafter, List.foldlM_nil]
  refine congrArg some ?_
  simp only [finishRecovery, openEmpty]
  split
  · rfl
  · next hflush =>
      have henabled : cfg.enableWal = true := by
        rw [Bool.or_eq_true, not_or, Bool.not_eq_true, Bool.not_eq_true'] at hflush
        cases hwal : cfg.enableWal with
        | true => rfl
        | false =>
            rw [hwal] at hflush
            exact absurd rfl hflush.2
      simp only [henabled, ↓reduceIte]

end Recovering

section Entries

variable {ρ : Type} {cfg : StorageConfig} {env : Env} {st : Storage} {key : Bytes}

/-- The memtable `m'` is `m` after a write to the key, if there is one. -/
structure Wrote (m : MemTable) (key : Bytes) (w : Option EValue) (m' : MemTable) : Prop where
  normal : m'.Normal
  limit : m'.memtableSize = m.memtableSize
  get : m'.get = put m.get key w

theorem Wrote.none {m : MemTable} (hnormal : m.Normal) (key : Bytes) : Wrote m key none m :=
  ⟨hnormal, rfl, rfl⟩

theorem wrote_insertNode {m : MemTable} (hnormal : m.Normal) (key : Bytes) (v : EValue) :
    Wrote m key (some v) (m.insertNode key v) := by
  refine ⟨MemTable.normal_insertNode hnormal, MemTable.memtableSize_insertNode, ?_⟩
  funext key'
  rw [MemTable.get_insertNode hnormal, put, Function.update_apply]
  exact if_congr eq_comm rfl rfl

/-- An entry that is put again. -/
theorem wrote_same {m : MemTable} (hnormal : m.Normal) {v : EValue} (h : m.get key = some v) :
    Wrote m key none (m.insertNode key v) := by
  obtain ⟨hnormal', hlimit, hget⟩ := wrote_insertNode hnormal key v
  refine ⟨hnormal', hlimit, hget.trans ?_⟩
  rw [put, put, ← h, Function.update_eq_self]

/-- The state `st'` is `st` with the memtable `m`; when a put has filled the memtable, it is
rotated. -/
def Stores (cfg : StorageConfig) (env : Env) (st : Storage) (key : Bytes) (m : MemTable)
    (st' : Storage) : Prop :=
  st' = { st with memtable := m } ∨
    ((∃ v, st.Fills env key v ∧ m = st.memtable.insertNode key v) ∧
      st' = rotateMemtable cfg env { st with memtable := m })

theorem writeMemtable_entry (cfg : StorageConfig) (hnormal : st.memtable.Normal) (key : Bytes)
    (value : EValue) (hfull : ¬ st.Full env) :
    ∃ m, Wrote st.memtable key (some value) m ∧
      Stores cfg env st key m (writeMemtable cfg env st key value).1 := by
  refine ⟨st.memtable.insertNode key value, wrote_insertNode hnormal key value, ?_⟩
  rcases writeMemtable_cases cfg env st key value with
    ⟨-, -, h⟩ | ⟨-, hfills, h⟩ | ⟨hf, -⟩ | ⟨hf, -⟩
  · rw [h]
    exact Or.inl rfl
  · rw [h]
    exact Or.inr ⟨⟨value, hfills, rfl⟩, rfl⟩
  · exact absurd hf hfull
  · exact absurd hf hfull

/-- An operation whose callback does not throw on the entry of the memtable writes into the
memtable what it makes of the newest version. -/
theorem handle_entry (cfg : StorageConfig) (hnormal : st.memtable.Normal) (op : ValueOp ρ)
    (key : Bytes)
    (hcoherent : ∀ v, st.memtable.get key = some v → op.bare.Coherent env.now v)
    (hfull : st.memtable.get key = none → op.write env.now (st.newestOf key) ≠ none →
      ¬ st.Full env) :
    ∃ m, Wrote st.memtable key (op.write env.now (st.newestOf key)) m ∧
      Stores cfg env st key m (handle cfg env op key st).1 := by
  cases hentry : st.memtable.get key with
  | some v =>
      obtain ⟨r, w, hplace, hfallback⟩ := hcoherent v hentry
      have hwrite : op.write env.now (st.newestOf key) = w := by
        rw [← ValueOp.write_bare, newestOf_eq, hentry, Option.some_or, ValueOp.write, hfallback]
        rfl
      obtain ⟨hvalue, hresult⟩ := Prod.mk.inj hplace
      -- the callback does not throw, so it writes what the operation makes of the value
      have hcallback : op.valueHandle env.now v = (w.getD v, none) := by
        cases hr : (op.inPlace env.now v).2 with
        | error e =>
            rw [hr] at hresult
            cases hresult
        | ok r =>
            simp only [ValueOp.valueHandle, hr]
            exact congrArg (fun u => (u, none)) hvalue
      have hhandle := MemTable.handleValue_of_some hnormal hentry hcallback
      refine ⟨st.memtable.insertNode key (w.getD v), ?_, ?_⟩
      · rw [hwrite]
        cases w with
        | some u => exact wrote_insertNode hnormal key u
        | none => exact wrote_same hnormal hentry
      · left
        simp only [handle, hhandle]
  | none =>
      have hhandle : ∀ f : ValueHandle,
          st.memtable.handleValue key f = (st.memtable, .error (.outOfRange "Key not found")) :=
        fun _ => MemTable.handleValue_of_none hentry
      -- not in the memtable: `handle` reads the older layers and writes through `write_memtable`
      have hold : op.fallback (st.getFromOld env.now key) =
          op.fallback ((st.newestOf key).filter (EValue.isLive env.now)) := by
        rw [getFromOld_eq, visible, newestOf_eq, hentry, Option.none_or]
      have hfull' := hfull hentry
      simp only [handle, hhandle, hold]
      rw [ValueOp.write] at hfull' ⊢
      cases houtcome : op.fallback ((st.newestOf key).filter (EValue.isLive env.now)) with
      | error e => exact ⟨st.memtable, Wrote.none hnormal key, Or.inl rfl⟩
      | ok result =>
          obtain ⟨r, w⟩ := result
          cases w with
          | none => exact ⟨st.memtable, Wrote.none hnormal key, Or.inl rfl⟩
          | some value =>
              rw [houtcome] at hfull'
              obtain ⟨m, hm, hstores⟩ := writeMemtable_entry cfg hnormal key value
                (hfull' (Option.some_ne_none value))
              refine ⟨m, hm, ?_⟩
              cases hwrite : writeMemtable cfg env st key value with
              | mk st' result =>
                  rw [hwrite] at hstores
                  cases result with
                  | ok b =>
                      simp only [hwrite]
                      exact hstores
                  | error e =>
                      simp only [hwrite]
                      exact hstores

/-- A change of the expiry writes into the memtable what it makes of the newest version. -/
theorem setKeyExpire_entry (cfg : StorageConfig) (hnormal : st.memtable.Normal) (t : UInt64)
    (hfull : st.memtable.get key = none →
      Action.write env.now (.expire t) (st.newestOf key) ≠ none → ¬ st.Full env) :
    ∃ m, Wrote st.memtable key (Action.write env.now (.expire t) (st.newestOf key)) m ∧
      (setKeyExpire cfg env st key t).1 = { st with memtable := m } := by
  -- without an entry in the memtable, `get` finds the newest version if it is alive
  have hread : st.memtable.get key = none →
      (st.newestOf key).filter (EValue.isLive env.now) = none ∧ st.get env.now key = none ∨
        ∃ v, (st.newestOf key).filter (EValue.isLive env.now) = some v ∧
          st.get env.now key = some v.value := by
    intro hentry
    rw [visible_layers_of_none env.now hentry]
    cases (st.newestOf key).filter (EValue.isLive env.now) with
    | none => exact Or.inl ⟨rfl, rfl⟩
    | some v => exact Or.inr ⟨v, rfl, rfl⟩
  have hwrite : ∀ v, st.memtable.get key = none → st.get env.now key = some v →
      Action.write env.now (.expire t) (st.newestOf key) = some (withExpiry v t) := by
    intro v hentry hget
    rcases hread hentry with ⟨-, h⟩ | ⟨u, hu, h⟩
    · rw [hget] at h
      cases h
    · rw [hget] at h
      rw [Action.write, hu, Option.some.inj h]
      rfl
  rcases setKeyExpire_cases cfg env hnormal key t with
    ⟨v, hentry, hdead, h⟩ | ⟨v, hentry, hlive, h⟩ | ⟨hentry, hget, h⟩ |
      ⟨hentry, v, hget, -, h⟩ | ⟨hentry, v, hget, hf, -⟩
  · refine ⟨_, ?_, congrArg Prod.fst h⟩
    rw [newestOf_eq, hentry, Option.some_or, Action.write, filter_some_of_dead hdead]
    exact wrote_same hnormal hentry
  · refine ⟨_, ?_, congrArg Prod.fst h⟩
    rw [newestOf_eq, hentry, Option.some_or, Action.write, Option.filter_some, if_pos hlive]
    exact wrote_insertNode hnormal key _
  · refine ⟨st.memtable, ?_, congrArg Prod.fst h⟩
    rcases hread hentry with ⟨hnone, -⟩ | ⟨u, -, hu⟩
    · rw [Action.write, hnone]
      exact Wrote.none hnormal key
    · rw [hget] at hu
      cases hu
  · refine ⟨_, ?_, congrArg Prod.fst h⟩
    rw [hwrite v hentry hget]
    exact wrote_insertNode hnormal key _
  · -- a full memtable would be rotated, which the hypothesis excludes
    refine absurd hf (hfull hentry ?_)
    rw [hwrite v hentry hget]
    exact Option.some_ne_none _

end Entries

section Replay

variable (F : FloatOps) (toZset : Decoder UInt8 ZSet)

/-- What a record writes when it is replayed at the second `t`. -/
def redoWrite (t : Nat) (r : WalRecord) (o : Option EValue) : Option EValue :=
  match recoverAction F toZset r with
  | some (.ok a) => a.write t o
  | _ => none

/-- What the records do when they are replayed at the second `t`. A record works when it is
decoded, does not throw and writes the same, whatever a `double` holds that is not set. -/
def redo (t : Nat) : Redo Bytes EValue WalRecord where
  key r := r.key
  write := redoWrite F toZset t
  accepts r e o := ∀ u, ∃ a, recoverAction (F.finding u) toZset r = some (.ok a) ∧
    (∀ v, e = some v → a.Accepts t v) ∧ a.write t o = redoWrite F toZset t r o

theorem redoWrite_congr {t : Nat} (r : WalRecord) {o o' : Option EValue}
    (h : o.filter (EValue.isLive t) = o'.filter (EValue.isLive t)) :
    redoWrite F toZset t r o = redoWrite F toZset t r o' := by
  simp only [redoWrite]
  split
  · exact Action.write_congr h
  · rfl

theorem readsLive_redo (t : Nat) : (redo F toZset t).ReadsLive (EValue.isLive t) := by
  refine ⟨fun r o o' h => redoWrite_congr F toZset r h, fun r e o o' h haccepts u => ?_⟩
  obtain ⟨a, hdecode, hentry, hwrite⟩ := haccepts u
  refine ⟨a, hdecode, hentry, ?_⟩
  rw [← Action.write_congr h, hwrite]
  exact redoWrite_congr F toZset r h

/-- A store in the course of a recovery. -/
structure Recovering (st : Storage) : Prop where
  memtable : st.memtable.Normal
  unlimited : st.memtable.memtableSize = 0
  names : ∀ (name : Bytes) (imm : MemTable), st.immutableMemtables[name]? = some imm →
    compare name st.currentWalFilename = .lt
  unnamed : st.currentWalFilename = [] → ∀ key, st.memtable.get key = none
  closed : st.wal.walFile = none

variable {F toZset} {cfg : StorageConfig} {env : Env} {st : Storage}

theorem Recovering.not_full (h : Recovering st) (env : Env) : ¬ st.Full env := by
  rw [Full, MemTable.shouldFlush_of_no_limit h.unlimited]
  exact Bool.false_ne_true

theorem Recovering.not_fills (h : Recovering st) (env : Env) (key : Bytes) (v : EValue) :
    ¬ st.Fills env key v := by
  have hlimit : (st.memtable.insertNode key v).memtableSize = 0 :=
    MemTable.memtableSize_insertNode.trans h.unlimited
  rw [Fills, MemTable.shouldFlush_of_no_limit hlimit]
  exact Bool.false_ne_true

/-- Without a limit nothing is rotated. -/
theorem Recovering.stores (h : Recovering st) {key : Bytes} {m : MemTable} {st' : Storage}
    (hstores : Stores cfg env st key m st') : st' = { st with memtable := m } := by
  rcases hstores with h' | ⟨⟨v, hfills, -⟩, -⟩
  · exact h'
  · exact absurd hfills (h.not_fills env key v)

/-- **One record.** A record that is accepted is written into the memtable. -/
theorem recoverRecord_spec (h : Recovering st) (henabled : cfg.enableWal = true) (key : Bytes)
    {a : Action} (hregular : a.Regular)
    (haccepts : ∀ v, st.memtable.get key = some v → a.Accepts env.now v) :
    ∃ m, Wrote st.memtable key (a.write env.now (st.newestOf key)) m ∧
      recoverRecord cfg env key st a = { st with memtable := m } := by
  cases a with
  | update op =>
      have hlog : logRecord cfg true op.type key op.payload st = st := by
        rw [logRecord, Bool.not_true, Bool.and_false, if_neg Bool.false_ne_true]
      obtain ⟨m, hm, hstores⟩ := handle_entry cfg h.memtable op key
        (fun v hv => (hregular.coherent env.now v (haccepts v hv)).map fun _ => ())
        (fun _ _ => h.not_full env)
      refine ⟨m, hm, ?_⟩
      rw [recoverRecord, process, hlog]
      exact h.stores hstores
  | set value =>
      obtain ⟨m, hm, hstores⟩ := writeMemtable_entry cfg h.memtable key value (h.not_full env)
      exact ⟨m, hm, h.stores hstores⟩
  | remove =>
      refine ⟨st.memtable, Wrote.none h.memtable key, ?_⟩
      have hskipped : removeKey cfg st key = (false, st) := by
        simp only [removeKey, henabled, ↓reduceIte, Wal.appendLog, h.closed, Bool.false_eq_true]
      simp only [recoverRecord, remove, List.cons_ne_nil, ↓reduceIte, List.foldl_cons,
        List.foldl_nil, hskipped]
  | expire t => exact setKeyExpire_entry cfg h.memtable t fun _ _ => h.not_full env
  | skip => exact ⟨st.memtable, Wrote.none h.memtable key, rfl⟩

/-- A memtable that takes the place of another one during a recovery. -/
theorem Recovering.wrote (h : Recovering st) (hname : st.currentWalFilename ≠ []) {key : Bytes}
    {w : Option EValue} {m : MemTable} (hm : Wrote st.memtable key w m) :
    Recovering { st with memtable := m } :=
  ⟨hm.normal, hm.limit.trans h.unlimited, h.names, fun heq => absurd heq hname, h.closed⟩

/-- **The records of one file.** They leave in the memtable what their replay over the
layers below leaves, whatever they find in what is not set. -/
theorem recoverFile_spec (h : Recovering st) (henabled : cfg.enableWal = true)
    (hname : st.currentWalFilename ≠ []) {log : List WalRecord} {e : Bytes → Option EValue}
    (hreplays : (redo F toZset env.now).Replays (newest st.olderLayers) st.memtable.get log e)
    (calls : List ((Bytes × WalRecord) × Double))
    (hcalls : calls.map Prod.fst = log.map fun r => (st.currentWalFilename, r)) :
    ∃ m, calls.foldlM (recoverCall cfg env F toZset) st = some { st with memtable := m } ∧
      Recovering { st with memtable := m } ∧ m.get = e := by
  generalize hstart : st.memtable.get = start at hreplays
  induction hreplays generalizing calls with
  | nil =>
      obtain rfl := List.map_eq_nil_iff.1 hcalls
      exact ⟨st.memtable, rfl, h, hstart⟩
  | snoc r _ haccepts ih =>
      rw [List.map_append, List.map_eq_append_iff] at hcalls
      obtain ⟨before, last, rfl, hbefore, hlast⟩ := hcalls
      obtain ⟨call, rfl⟩ := List.length_eq_one_iff.1 (by simpa using congrArg List.length hlast)
      obtain ⟨⟨name, r'⟩, u⟩ := call
      obtain ⟨rfl, rfl⟩ := Prod.mk.inj (List.cons.inj hlast).1
      obtain ⟨m, hfold, hrec, hget⟩ := ih before hbefore
      obtain ⟨a, hdecode, haccepts, hwrite⟩ := haccepts u
      have hnewest : ({ st with memtable := m } : Storage).newestOf =
          overlay m.get (newest st.olderLayers) := by
        funext key
        exact newestOf_eq _ key
      obtain ⟨m', hm', hrecord⟩ := recoverRecord_spec hrec henabled r'.key
        (regular_recoverAction hdecode) fun v hv => haccepts v (by rwa [hget] at hv)
      refine ⟨m', ?_, hrec.wrote hname hm', ?_⟩
      · have hswitch : switchFile cfg { st with memtable := m } st.currentWalFilename =
            { st with memtable := m } := if_pos rfl
        rw [List.foldlM_append, hfold]
        simp only [List.foldlM_cons, List.foldlM_nil, Option.bind_eq_bind, Option.bind_some,
          recoverCall, hdecode, Option.map_some, hswitch, hrecord, Option.pure_def]
      · rw [hm'.get, hnewest, hget]
        exact congrArg (put _ r'.key) hwrite

theorem ne_nil_of_later {a b : Bytes} (h : compare a b = .lt) : b ≠ [] := by
  rintro rfl
  cases a with
  | nil => exact absurd h (by decide)
  | cons c rest => exact absurd h (by simp)

/-- The memtable of a later file starts empty on top of all that has been recovered. -/
theorem recovering_switchFile (cfg : StorageConfig) (h : Recovering st) {name : Bytes}
    (hlater : compare st.currentWalFilename name = .lt) :
    Recovering (switchFile cfg st name) ∧ (switchFile cfg st name).currentWalFilename = name ∧
      (∀ key, (switchFile cfg st name).memtable.get key = none) ∧
      newest (switchFile cfg st name).olderLayers = st.newestOf ∧
      (switchFile cfg st name).sstableManager = st.sstableManager ∧
      (switchFile cfg st name).wal = st.wal := by
  have hne : name ≠ st.currentWalFilename := by
    rintro rfl
    exact absurd (hlater.symm.trans Std.ReflCmp.compare_self) (by decide)
  have hsome := ne_nil_of_later hlater
  -- the first file takes over the empty memtable; a later one pushes the memtable down
  by_cases hunnamed : st.currentWalFilename = []
  · have hswitch : switchFile cfg st name = { st with currentWalFilename := name } := by
      rw [switchFile, if_neg hne, if_pos hunnamed]
    have hempty := h.unnamed hunnamed
    rw [hswitch]
    refine ⟨⟨h.memtable, h.unlimited, fun name' imm himm => ?_, fun _ => hempty, h.closed⟩, rfl,
      hempty, ?_, rfl, rfl⟩
    · exact Std.TransCmp.lt_trans (h.names name' imm himm) hlater
    · funext key
      rw [newestOf_eq, hempty, Option.none_or]
      rfl
  · have hswitch : switchFile cfg st name = { st with
        immutableMemtables := st.immutableMemtables.insert st.currentWalFilename st.memtable
        memtable := (createNewMemtable cfg).cancelSizeLimit
        currentWalFilename := name } := by
      rw [switchFile, if_neg hne, if_neg hunnamed]
    have hempty : ∀ key, ((createNewMemtable cfg).cancelSizeLimit).get key = none :=
      fun key => MemTable.get_new _
    have hnew := MemTable.normal_new (cfg.memtableSize * 1024)
    rw [hswitch]
    refine ⟨⟨⟨hnew.even, hnew.counted⟩, rfl, fun name' imm himm => ?_, fun heq => absurd heq hsome,
      h.closed⟩, rfl, hempty, ?_, rfl, rfl⟩
    · rw [Std.ExtTreeMap.getElem?_insert] at himm
      split at himm
      · next heq => rwa [← Std.LawfulEqCmp.compare_eq_iff_eq.1 heq]
      · exact Std.TransCmp.lt_trans (h.names name' imm himm) hlater
    · have holder : ({ st with
          immutableMemtables := st.immutableMemtables.insert st.currentWalFilename st.memtable
          memtable := (createNewMemtable cfg).cancelSizeLimit
          currentWalFilename := name } : Storage).olderLayers = st.layers :=
        olderLayers_of_insert h.names rfl rfl
      rw [holder]
      rfl

/-- **The next file.** Its records leave, on top of all that has been recovered, what
their replay leaves. -/
theorem recoverNext_spec (h : Recovering st) (henabled : cfg.enableWal = true) {name : Bytes}
    (hlater : compare st.currentWalFilename name = .lt) {log : List WalRecord} (hlog : log ≠ [])
    {e : Bytes → Option EValue}
    (hreplays : (redo F toZset env.now).Replays st.newestOf (fun _ => none) log e)
    (calls : List ((Bytes × WalRecord) × Double))
    (hcalls : calls.map Prod.fst = log.map fun r => (name, r)) :
    ∃ st', calls.foldlM (recoverCall cfg env F toZset) st = some st' ∧
      Recovering st' ∧ st'.currentWalFilename = name ∧ st'.newestOf = overlay e st.newestOf ∧
      st'.sstableManager = st.sstableManager ∧ st'.wal = st.wal := by
  obtain ⟨hrec, hcurrent, hempty, holder, hsst, hwal⟩ := recovering_switchFile cfg h hlater
  have hfirst : calls.foldlM (recoverCall cfg env F toZset) st =
      calls.foldlM (recoverCall cfg env F toZset) (switchFile cfg st name) := by
    obtain ⟨r, rest, rfl⟩ := List.exists_cons_of_ne_nil hlog
    rw [List.map_cons, List.map_eq_cons_iff] at hcalls
    obtain ⟨call, calls', rfl, hcall, -⟩ := hcalls
    have hagain : switchFile cfg (switchFile cfg st name) name = switchFile cfg st name :=
      if_pos hcurrent.symm
    simp only [List.foldlM_cons, recoverCall, hcall, hagain]
  have hname : (switchFile cfg st name).currentWalFilename ≠ [] := by
    rw [hcurrent]
    exact ne_nil_of_later hlater
  have hstart : (fun _ => none) = (switchFile cfg st name).memtable.get := (funext hempty).symm
  rw [← holder, hstart] at hreplays
  obtain ⟨m, hfold, hrec', hget⟩ := recoverFile_spec hrec henabled hname hreplays calls
    (by rw [hcalls, hcurrent])
  refine ⟨{ switchFile cfg st name with memtable := m }, ?_, hrec', hcurrent, ?_, hsst, hwal⟩
  · rw [hfirst]
    exact hfold
  funext key
  rw [newestOf_eq]
  exact congrArg₂ Option.or (congrFun hget key) (congrFun holder key)

/-- The calls for the logs of a stack of layers, the oldest file first. -/
def callsOf (logs : Bytes → List WalRecord) (stack : List (Bytes × (Bytes → Option EValue))) :
    List (Bytes × WalRecord) :=
  stack.reverse.flatMap fun layer => (logs layer.1).map fun r => (layer.1, r)

/-- **A stack of layers.** A stack that is covered by its logs is recovered with all its live
versions, on top of a store that has those of the base. -/
theorem recoverStack_spec {logs : Bytes → List WalRecord} {base : Bytes → Option EValue}
    (h : Recovering st) (henabled : cfg.enableWal = true)
    (hbase : SameLive (EValue.isLive env.now) base st.newestOf)
    (stack : List (Bytes × (Bytes → Option EValue)))
    (hcovers : Covers (redo F toZset env.now) (EValue.isLive env.now) valueIndex logs
      (fun _ _ => none) base stack)
    (hsorted : stack.Pairwise fun a b => compare b.1 a.1 = .lt)
    (hlater : ∀ layer ∈ stack, logs layer.1 ≠ [] → compare st.currentWalFilename layer.1 = .lt)
    (calls : List ((Bytes × WalRecord) × Double)) (hcalls : calls.map Prod.fst = callsOf logs stack) :
    ∃ st', calls.foldlM (recoverCall cfg env F toZset) st = some st' ∧
      Recovering st' ∧ SameLive (EValue.isLive env.now) (stacked stack base) st'.newestOf ∧
      (st'.currentWalFilename = st.currentWalFilename ∨
        ∃ layer ∈ stack, st'.currentWalFilename = layer.1) ∧
      st'.sstableManager = st.sstableManager ∧ st'.wal = st.wal := by
  induction stack generalizing calls with
  | nil =>
      obtain rfl := List.map_eq_nil_iff.1 hcalls
      refine ⟨st, rfl, h, ?_, Or.inl rfl, rfl, rfl⟩
      rw [stacked_nil]
      exact hbase
  | cons layer rest ih =>
      obtain ⟨name, entries⟩ := layer
      obtain ⟨hrest, e, hreplays, hshadows⟩ := hcovers
      rw [List.pairwise_cons] at hsorted
      have hsplit : callsOf logs ((name, entries) :: rest) =
          callsOf logs rest ++ (logs name).map fun r => (name, r) := by
        rw [callsOf, List.reverse_cons, List.flatMap_append, List.flatMap_singleton]
        rfl
      rw [hsplit, List.map_eq_append_iff] at hcalls
      obtain ⟨before, last, rfl, hbefore, hlast⟩ := hcalls
      obtain ⟨mid, hfold, hrec, hsame, hcurrent, hsst, hwal⟩ := ih hrest hsorted.2
        (fun layer hl => hlater layer (List.mem_cons_of_mem _ hl)) before hbefore
      have hafter : logs name ≠ [] → compare mid.currentWalFilename name = .lt := by
        intro hlog
        rcases hcurrent with heq | ⟨layer, hl, heq⟩
        · rw [heq]
          exact hlater (name, entries) List.mem_cons_self hlog
        · rw [heq]
          exact hsorted.1 layer hl
      have hover : SameLive (EValue.isLive env.now) (stacked ((name, entries) :: rest) base)
          (overlay e mid.newestOf) := by
        intro key
        rw [stacked_cons, overlay, overlay, ← (hshadows key).filter_or]
        exact hsame.overlay e key
      by_cases hlog : logs name = []
      · -- A file without records makes no call, so the layer of its memtable is missing.
        rw [hlog] at hreplays hlast
        have hempty := Redo.eq_of_replays_nil hreplays
        obtain rfl := List.map_eq_nil_iff.1 hlast
        refine ⟨mid, ?_, hrec, ?_, ?_, hsst, hwal⟩
        · rw [List.append_nil, hfold]
        · intro key
          rw [hover key, hempty, overlay, Option.none_or]
        · exact hcurrent.imp id (Exists.imp fun layer => And.imp (List.mem_cons_of_mem _) id)
      · obtain ⟨st', hnext, hrec', hname, hnewest, hsst', hwal'⟩ := recoverNext_spec hrec henabled
          (hafter hlog) hlog (hreplays.congr (readsLive_redo F toZset env.now) hsame) last hlast
        refine ⟨st', ?_, hrec', ?_, Or.inr ⟨(name, entries), List.mem_cons_self, hname⟩,
          hsst'.trans hsst, hwal'.trans hwal⟩
        · rw [List.foldlM_append, hfold]
          exact hnext
        · rw [hnewest]
          exact hover

/-- The end of a recovery changes no version. -/
theorem newestOf_finishRecovery (cfg : StorageConfig) (env : Env) (h : Recovering st) :
    (finishRecovery cfg env st).newestOf = st.newestOf := by
  simp only [finishRecovery]
  split
  · funext key
    have holder : ({ st with
        immutableMemtables := st.immutableMemtables.insert st.currentWalFilename
          (st.memtable.setSizeLimit cfg.memtableSize)
        memtable := createNewMemtable cfg
        currentWalFilename := newFilename cfg env
        wal := if cfg.enableWal then st.wal.openWalFile (newFilename cfg env)
          else st.wal } : Storage).olderLayers =
        ({ st with memtable := st.memtable.setSizeLimit cfg.memtableSize } : Storage).layers :=
      olderLayers_of_insert h.names rfl rfl
    rw [newestOf_eq, holder, createNewMemtable, MemTable.get_new, Option.none_or]
    rfl
  · rfl

/-- **The restart.** On SSTables with the live versions of the base and on a log that covers
a stack of layers above it, the restart gives the live versions of the stack. -/
theorem restart_spec (henabled : cfg.enableWal = true) {logs : Bytes → List WalRecord}
    {base : Bytes → Option EValue} {stack : List (Bytes × (Bytes → Option EValue))}
    {mgr : SSTableManager} {files : StrMap Bytes}
    (hbase : SameLive (EValue.isLive env.now) base mgr.get)
    (hcovers : Covers (redo F toZset env.now) (EValue.isLive env.now) valueIndex logs
      (fun _ _ => none) base stack)
    (hsorted : stack.Pairwise fun a b => compare b.1 a.1 = .lt)
    (hnamed : ∀ layer ∈ stack, logs layer.1 ≠ [] → layer.1 ≠ [])
    (hcalls : (Wal.mk files none).recoverCalls = callsOf logs stack) :
    ∃ st', restart cfg env F toZset mgr files = some st' ∧
      ∀ key, st'.live env.now key = (stacked stack base key).filter (EValue.isLive env.now) := by
  have hnew := MemTable.normal_new (cfg.memtableSize * 1024)
  have hempty : ∀ key, ((createNewMemtable cfg).cancelSizeLimit).get key = none :=
    fun key => MemTable.get_new _
  -- The state before the first record: an empty memtable over the SSTables.
  have hstart : Recovering ⟨(createNewMemtable cfg).cancelSizeLimit, [], ∅, mgr,
      (Wal.mk files none).afterRecover⟩ := by
    refine ⟨⟨hnew.even, hnew.counted⟩, rfl, fun name imm h => ?_, fun _ => hempty, rfl⟩
    rw [Std.ExtTreeMap.getElem?_empty] at h
    cases h
  have hnewest : (⟨(createNewMemtable cfg).cancelSizeLimit, [], ∅, mgr,
      (Wal.mk files none).afterRecover⟩ : Storage).newestOf = mgr.get := by
    funext key
    rw [newestOf_eq, hempty, Option.none_or, olderLayers, toList_empty,
      SSTableManager.get_eq_newest]
    rfl
  have hlater : ∀ layer ∈ stack, logs layer.1 ≠ [] → compare ([] : Bytes) layer.1 = .lt := by
    intro layer hl hlog
    obtain ⟨c, rest, hcons⟩ := List.exists_cons_of_ne_nil (hnamed layer hl hlog)
    rw [hcons]
    rfl
  obtain ⟨st', hfold, hrec, hsame, -⟩ := recoverStack_spec hstart henabled (hnewest ▸ hbase) stack
    hcovers hsorted hlater (findings env (Wal.mk files none).recoverCalls)
    ((map_findings env _).trans hcalls)
  refine ⟨finishRecovery cfg env st', ?_, fun key => ?_⟩
  · rw [restart, recover, hfold]
    rfl
  · rw [Storage.live, newestOf_finishRecovery cfg env hrec]
    exact (hsame key).symm

end Replay

end Storage

end EyaKV.Store
