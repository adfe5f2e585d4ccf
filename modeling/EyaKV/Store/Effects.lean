import EyaKV.Store.Overloads

/-!
# What a command can do to the store

Whatever a command does, it edits the memtable and rotates it once at most (`Effect`). This holds of
the commands whose callbacks throw as well, and of the operations that a recovery repeats, so what
follows from it holds of every reachable store: the counters of the memtables are right (`Counted`),
and the immutable memtables have names below the current one (`Named`), as long as the clock that
gives the names goes on.
-/

set_option autoImplicit false

namespace EyaKV.Store

open EyaKV.Base EyaKV.Base.Layers

namespace Storage

section Effects

variable {cfg : StorageConfig} {env : Env} {st st' st'' : Storage}

/-- What an operation changes besides rotations: the entries of the memtable, and the log. -/
structure Edits (st st' : Storage) : Prop where
  immutables : st'.immutableMemtables = st.immutableMemtables
  filename : st'.currentWalFilename = st.currentWalFilename
  sstables : st'.sstableManager = st.sstableManager
  limit : st'.memtable.memtableSize = st.memtable.memtableSize
  counted : st.memtable.Counted → st'.memtable.Counted

/-- What an operation does to the store: it edits the memtable and rotates it once at most, when it
has a limit. -/
def Effect (cfg : StorageConfig) (env : Env) (st st' : Storage) : Prop :=
  Edits st st' ∨ ∃ full, Edits st full ∧ full.memtable.memtableSize ≠ 0 ∧
    Edits (rotateMemtable cfg env full) st'

@[refl] theorem Edits.rfl : Edits st st := ⟨Eq.refl _, Eq.refl _, Eq.refl _, Eq.refl _, id⟩

theorem Edits.trans (h : Edits st st') (h' : Edits st' st'') : Edits st st'' :=
  ⟨h'.immutables.trans h.immutables, h'.filename.trans h.filename, h'.sstables.trans h.sstables,
    h'.limit.trans h.limit, h'.counted ∘ h.counted⟩

/-- An effect whose rotation is that of a full memtable. -/
def Filled (cfg : StorageConfig) (env : Env) (st st' : Storage) : Prop :=
  Edits st st' ∨ ∃ full, Edits st full ∧ full.memtable.shouldFlush env.usage = true ∧
    Edits (rotateMemtable cfg env full) st'

theorem Edits.filled (h : Edits st st') : Filled cfg env st st' := Or.inl h

theorem Filled.after_edits (h : Edits st st') (h' : Filled cfg env st' st'') :
    Filled cfg env st st'' := by
  rcases h' with h' | ⟨full, hfull, hflush, hrest⟩
  · exact Or.inl (h.trans h')
  · exact Or.inr ⟨full, h.trans hfull, hflush, hrest⟩

theorem edits_memtable {m : MemTable} (hlimit : m.memtableSize = st.memtable.memtableSize)
    (hcounted : st.memtable.Counted → m.Counted) : Edits st { st with memtable := m } :=
  ⟨rfl, rfl, rfl, hlimit, hcounted⟩

theorem edits_insertNode (st : Storage) (key : Bytes) (value : EValue) :
    Edits st { st with memtable := st.memtable.insertNode key value } :=
  edits_memtable MemTable.memtableSize_insertNode fun h => MemTable.counted_insertNode h key value

theorem edits_handleValue (st : Storage) (key : Bytes) (f : ValueHandle) :
    Edits st { st with memtable := (st.memtable.handleValue key f).1 } :=
  edits_memtable (MemTable.memtableSize_handleValue key f) fun h =>
    MemTable.counted_handleValue h key f

theorem edits_wal (st : Storage) (wal : Wal) : Edits st { st with wal := wal } :=
  ⟨rfl, rfl, rfl, rfl, id⟩

theorem limit_of_shouldFlush {m : MemTable} (h : m.shouldFlush env.usage = true) :
    m.memtableSize ≠ 0 := by
  intro hzero
  rw [MemTable.shouldFlush_of_no_limit hzero] at h
  cases h

/-- A full memtable has a limit. -/
theorem Filled.effect (h : Filled cfg env st st') : Effect cfg env st st' := by
  rcases h with h | ⟨full, hfull, hflush, hrest⟩
  · exact Or.inl h
  · exact Or.inr ⟨full, hfull, limit_of_shouldFlush hflush, hrest⟩

variable (cfg env st)

theorem filled_writeMemtable (key : Bytes) (value : EValue) :
    Filled cfg env st (writeMemtable cfg env st key value).1 := by
  rcases writeMemtable_cases cfg env st key value with
    ⟨-, -, h⟩ | ⟨-, hfills, h⟩ | ⟨hfull, h⟩ | ⟨hfull, e, h⟩
  · rw [h]
    exact (edits_insertNode st key value).filled
  · rw [h]
    exact Or.inr ⟨_, edits_insertNode st key value, hfills, Edits.rfl⟩
  · rw [h]
    exact Or.inr ⟨st, Edits.rfl, hfull, edits_insertNode _ key value⟩
  · rw [h]
    exact Or.inr ⟨st, Edits.rfl, hfull, Edits.rfl⟩

theorem edits_logRecord (isRecover : Bool) (type : OperationType) (key payload : Bytes) :
    Edits st (logRecord cfg isRecover type key payload st) := by
  rcases logRecord_cases cfg isRecover type key payload st with h | h
  · rw [h]
  · rw [h]
    exact edits_wal st _

theorem filled_handle {ρ : Type} (op : ValueOp ρ) (key : Bytes) :
    Filled cfg env st (handle cfg env op key st).1 := by
  have hplace := edits_handleValue st key (op.valueHandle env.now)
  cases hhandle : st.memtable.handleValue key (op.valueHandle env.now) with
  | mk memtable outcome =>
  rw [hhandle] at hplace
  cases outcome with
  | ok v =>
      simp only [handle, hhandle]
      exact hplace.filled
  | error e =>
      cases e with
      | outOfRange text =>
          -- the branches behind the callback write one version at most
          cases hold : op.fallback (getFromOld env.now { st with memtable := memtable } key) with
          | error e =>
              simp only [handle, hhandle, hold]
              exact hplace.filled
          | ok result =>
              obtain ⟨r, written⟩ := result
              cases written with
              | none =>
                  simp only [handle, hhandle, hold]
                  exact hplace.filled
              | some value =>
                  have hwrite := Filled.after_edits hplace
                    (filled_writeMemtable cfg env { st with memtable := memtable } key value)
                  cases hresult :
                    writeMemtable cfg env { st with memtable := memtable } key value with
                  | mk st' result =>
                  rw [hresult] at hwrite
                  cases result with
                  | ok b =>
                      simp only [handle, hhandle, hold, hresult]
                      exact hwrite
                  | error e =>
                      simp only [handle, hhandle, hold, hresult]
                      exact hwrite
      | _ =>
          simp only [handle, hhandle]
          exact hplace.filled

theorem filled_process {ρ : Type} (isRecover : Bool) (op : ValueOp ρ) (key : Bytes) :
    Filled cfg env st (process cfg env isRecover op key st).1 := by
  apply Filled.after_edits (edits_logRecord cfg st isRecover op.type key op.payload)
  exact filled_handle cfg env _ op key

theorem filled_set (key value : Bytes) (ttl : UInt64) :
    Filled cfg env st (set cfg env key value ttl st).1 := by
  simp only [set]
  have hwrite := Filled.after_edits (edits_logRecord cfg st false .set key _)
    (filled_writeMemtable cfg env (logRecord cfg false .set key
      (serialize (fun _ => []) { value := .string value
                                 expireTime := if ttl = 0 then 0
                                   else (UInt64.ofNat env.now + ttl).toUInt32 }) st) key
      { value := .string value
        expireTime := if ttl = 0 then 0 else (UInt64.ofNat env.now + ttl).toUInt32 })
  split
  · next h =>
      rw [h] at hwrite
      exact hwrite
  · next h =>
      rw [h] at hwrite
      exact hwrite

theorem edits_removeKey (key : Bytes) : Edits st (removeKey cfg st key).2 := by
  obtain ⟨f, hremove⟩ := MemTable.remove_cases st.memtable key
  have hmark : ∀ wal : Wal,
      Edits st { st with wal := wal, memtable := (st.memtable.remove key).2 } := by
    intro wal
    have hplace := edits_handleValue st key f
    rcases hremove with h | h
    · rw [h]
      exact hplace.trans (edits_wal _ wal)
    · rw [h]
      exact (hplace.trans (edits_insertNode _ key _)).trans (edits_wal _ wal)
  cases henabled : cfg.enableWal with
  | false =>
      simp only [removeKey, henabled, Bool.false_eq_true, if_false, if_true]
      exact hmark st.wal
  | true =>
      cases hlogged : (st.wal.appendLog .remove key []).1 with
      | true =>
          simp only [removeKey, henabled, hlogged, if_true]
          exact hmark _
      | false =>
          simp only [removeKey, henabled, hlogged, Bool.false_eq_true, if_true, if_false]
          exact edits_wal st _

theorem edits_remove (keys : List Bytes) : Edits st (remove cfg st keys).1 := by
  have hloop : ∀ (keys : List Bytes) (n : Nat) (st : Storage),
      Edits st (keys.foldl (fun (acc : Nat × Storage) key =>
        ((if (removeKey cfg acc.2 key).1 then acc.1 + 1 else acc.1),
          (removeKey cfg acc.2 key).2)) (n, st)).2 := by
    intro keys
    induction keys with
    | nil => exact fun _ _ => Edits.rfl
    | cons key rest ih =>
        intro n st
        rw [List.foldl_cons]
        exact (edits_removeKey cfg st key).trans (ih _ _)
  rw [remove]
  split
  · exact Edits.rfl
  · exact hloop keys 0 st

theorem filled_setKeyExpire (key : Bytes) (t : UInt64) :
    Filled cfg env st (setKeyExpire cfg env st key t).1 := by
  have hplace := edits_handleValue st key fun v =>
    if v.isDeleted || v.isExpired env.now then (v, none)
    else ({ v with expireTime := t.toUInt32 }, none)
  cases hhandle : st.memtable.handleValue key (fun v =>
    if v.isDeleted || v.isExpired env.now then (v, none)
    else ({ v with expireTime := t.toUInt32 }, none)) with
  | mk memtable outcome =>
  rw [hhandle] at hplace
  cases outcome with
  | ok v =>
      simp only [setKeyExpire, hhandle]
      exact hplace.filled
  | error e =>
      cases e with
      | outOfRange text =>
          cases hget : ({ st with memtable := memtable } : Storage).get env.now key with
          | none =>
              simp only [setKeyExpire, hhandle, hget]
              exact hplace.filled
          | some v =>
              cases hfull : memtable.shouldFlush env.usage with
              | false =>
                  simp only [setKeyExpire, hhandle, hget,
                    MemTable.put_of_not_shouldFlush key _ hfull]
                  exact (hplace.trans (edits_insertNode _ key _)).filled
              | true =>
                  cases hfresh : (rotateMemtable cfg env
                      { st with memtable := memtable }).memtable.shouldFlush env.usage with
                  | false =>
                      simp only [setKeyExpire, hhandle, hget,
                        MemTable.put_of_shouldFlush key _ hfull,
                        MemTable.put_of_not_shouldFlush key _ hfresh]
                      exact Or.inr ⟨_, hplace, hfull, edits_insertNode _ key _⟩
                  | true =>
                      simp only [setKeyExpire, hhandle, hget,
                        MemTable.put_of_shouldFlush key _ hfull,
                        MemTable.put_of_shouldFlush key _ hfresh]
                      exact Or.inr ⟨_, hplace, hfull, Edits.rfl⟩
      | _ =>
          simp only [setKeyExpire, hhandle]
          exact hplace.filled

theorem filled_setExpire (key : Bytes) (aliveTime : UInt64) :
    Filled cfg env st (setExpire cfg env st key aliveTime).1 := by
  simp only [setExpire]
  split
  · exact Filled.after_edits (edits_wal st _) (filled_setKeyExpire cfg env _ key _)
  · exact filled_setKeyExpire cfg env st key _

/-- **What a request does to the store.** It edits the memtable and rotates it once at most. -/
theorem filled_perform (q : Request) : Filled cfg env st (perform cfg env st q).1 := by
  cases q with
  | update op key =>
      rw [perform_update_eq]
      exact filled_process cfg env st false op key
  | set key value ttl =>
      have h := filled_set cfg env st key value ttl
      simp only [perform]
      split
      · next heq => rwa [heq] at h
      · next heq => rwa [heq] at h
  | remove keys =>
      have h : Filled cfg env st (remove cfg st keys).1 := (edits_remove cfg st keys).filled
      simp only [perform]
      split
      · next heq => rwa [heq] at h
      · next heq => rwa [heq] at h
  | expire key aliveTime =>
      have h := filled_setExpire cfg env st key aliveTime
      simp only [perform]
      split
      · next heq => rwa [heq] at h
      · next heq => rwa [heq] at h
  | range startKey endKey => exact Edits.rfl.filled
  | reject errorMsg => exact Edits.rfl.filled

theorem filled_executeType (lib : Library) (form : Overload) (readOnly closed : Bool)
    (type : UInt8) (args : List Bytes) :
    Filled cfg env st (executeType cfg env lib form readOnly closed type args st).1 := by
  simp only [executeType]
  split
  · split
    · exact Edits.rfl.filled
    · split
      · exact Edits.rfl.filled
      · exact filled_perform cfg env st _
  · split <;> exact Edits.rfl.filled
  · split <;> exact Edits.rfl.filled

theorem effect_executeType (lib : Library) (form : Overload) (readOnly closed : Bool)
    (type : UInt8) (args : List Bytes) :
    Effect cfg env st (executeType cfg env lib form readOnly closed type args st).1 :=
  (filled_executeType cfg env st lib form readOnly closed type args).effect

variable {cfg env st}

theorem counted_rotate (h : st.Counted) : (rotateMemtable cfg env st).Counted := by
  refine ⟨MemTable.counted_new _, fun name imm himm => ?_⟩
  simp only [rotateMemtable, Std.ExtTreeMap.getElem?_insert] at himm
  split at himm
  · obtain rfl := Option.some.inj himm
    exact h.memtable
  · exact h.immutables name imm himm

theorem Edits.counted_store (h : Edits st st') (hcounted : st.Counted) : st'.Counted :=
  ⟨h.counted hcounted.memtable, fun name imm himm =>
    hcounted.immutables name imm (h.immutables ▸ himm)⟩

theorem Effect.counted (h : Effect cfg env st st') (hcounted : st.Counted) : st'.Counted := by
  rcases h with h | ⟨full, hfull, -, hrest⟩
  · exact h.counted_store hcounted
  · exact hrest.counted_store (counted_rotate (hfull.counted_store hcounted))

theorem Effect.sstables (h : Effect cfg env st st') :
    st'.sstableManager = st.sstableManager := by
  rcases h with h | ⟨full, hfull, -, hrest⟩
  · exact h.sstables
  · exact hrest.sstables.trans hfull.sstables

/-- The names of the immutable memtables are below the current one. -/
def Named (st : Storage) : Prop := ∀ (name : Bytes) (imm : MemTable),
  st.immutableMemtables[name]? = some imm → compare name st.currentWalFilename = .lt

theorem Edits.named (h : Edits st st') (hnamed : st.Named) : st'.Named := by
  intro name imm himm
  rw [h.filename]
  exact hnamed name imm (h.immutables ▸ himm)

theorem named_rotate (hnamed : st.Named) (hname : FreshName cfg env st) :
    (rotateMemtable cfg env st).Named := by
  intro name imm himm
  simp only [rotateMemtable, Std.ExtTreeMap.getElem?_insert] at himm
  split at himm
  · next heq =>
      obtain rfl := Std.LawfulEqCmp.compare_eq_iff_eq.1 heq
      exact hname
  · exact Std.TransCmp.lt_trans (hnamed name imm himm) hname

theorem Effect.named (h : Effect cfg env st st') (hnamed : st.Named)
    (hname : FreshName cfg env st) : st'.Named := by
  rcases h with h | ⟨full, hfull, -, hrest⟩
  · exact h.named hnamed
  · apply hrest.named
    apply named_rotate (hfull.named hnamed)
    rw [FreshName, hfull.filename]
    exact hname

end Effects

end Storage

end EyaKV.Store
