import EyaKV.Store.Checkpoint
import EyaKV.Store.Failures

/-!
# The cached snapshot

A checkpoint with metadata is cached, and the next one is served from the cache until a command has
written. When it is built, the store has no entries in memory; a read leaves it so, and a write that
does not succeed as well (`drained_execute`), so that the SSTables stay what the archive has. The
operations that replace the SSTables are another matter: neither a restore nor a backup drops the
cache.

`Holds` is what is kept by every step that meets `StepMeets`: the invariants of the store, and an
archive under the cached name that has its contents (`Served`).
-/

set_option autoImplicit false

namespace EyaKV.Store

open EyaKV.Base EyaKV.Base.Layers

section Answers

variable {ρ : Type} {F : FloatOps} {type : OperationType} {args : List Bytes}

theorem code_of_map {op : ValueOp ρ} {answer : ρ → Response}
    (hanswer : ∀ r, (answer r).code ≠ .redirect) {o : Option EValue} {r : Response}
    {w : Option EValue} (h : (op.map answer).fallback o = .ok (r, w)) : r.code ≠ .redirect := by
  rw [ValueOp.fallback_map] at h
  cases hresult : op.fallback o with
  | error e =>
      rw [hresult] at h
      cases h
  | ok s =>
      rw [hresult] at h
      cases h
      exact hanswer s.1

/-- The operation that a request calls answers with a success or an error. -/
def Request.Decides : Request → Prop
  | .update op _ => ∀ o r w, op.fallback o = .ok (r, w) → r.code ≠ .redirect
  | _ => True

theorem decides_calls {q : Request} (h : Calls F type args q) : q.Decides := by
  cases h with
  | set => trivial
  | lPop =>
      refine fun o r w => code_of_map fun s => ?_
      cases s <;> exact fun h => by cases h
  | rPop =>
      refine fun o r w => code_of_map fun s => ?_
      cases s <;> exact fun h => by cases h
  | _ => exact fun o r w => code_of_map fun s h => by cases h

end Answers

namespace Storage

section Drained

variable {cfg : StorageConfig} {env : Env} {st st' : Storage}

theorem Drained.congr (h : st.Drained) (hmem : st'.memtable = st.memtable)
    (himm : st'.immutableMemtables = st.immutableMemtables) : st'.Drained :=
  ⟨hmem ▸ h.memtable, himm ▸ h.immutables⟩

theorem Drained.rotate (h : st.Drained) : (rotateMemtable cfg env st).Drained := by
  refine ⟨fun key => MemTable.get_new _, fun name imm himm => ?_⟩
  simp only [rotateMemtable, Std.ExtTreeMap.getElem?_insert] at himm
  split at himm
  · obtain rfl := Option.some.inj himm
    exact h.memtable
  · exact h.immutables name imm himm

theorem Drained.logRecord (h : st.Drained) (isRecover : Bool) (type : OperationType)
    (key payload : Bytes) : (Storage.logRecord cfg isRecover type key payload st).Drained := by
  rcases logRecord_cases cfg isRecover type key payload st with heq | heq
  · rw [heq]
    exact h
  · rw [heq]
    exact h.congr rfl rfl

/-- Without an entry of the key no callback runs, and the branches behind it have written only when
they answer with a success. -/
theorem Drained.process (h : st.Drained) {op : ValueOp Response} {key : Bytes} (hquiet : op.Quiet)
    (hdecides : ∀ o r w, op.fallback o = .ok (r, w) → r.code ≠ .redirect)
    (hresult : ∀ r, (process cfg env false op key st).2 = .ok r → r.code ≠ .success) :
    (process cfg env false op key st).1.Drained := by
  have hlogged : (Storage.logRecord cfg false op.type key op.payload st).Drained :=
    h.logRecord false op.type key op.payload
  rw [Storage.process] at hresult ⊢
  have hnode := MemTable.get_eq_none_iff.1 (hlogged.memtable key)
  rw [handle_of_none op hnode] at hresult ⊢
  have hfailed : Failed (behind cfg env op key
      (Storage.logRecord cfg false op.type key op.payload st)).2 := by
    cases hbehind : (behind cfg env op key
        (Storage.logRecord cfg false op.type key op.payload st)).2 with
    | error e => trivial
    | ok r =>
        have hne : r.code ≠ .redirect := by
          rw [behind] at hbehind
          split at hbehind
          · next hfall =>
              split at hbehind
              · obtain rfl := Except.ok.inj hbehind
                exact hdecides _ _ _ hfall
              · cases hbehind
          · next hfall =>
              obtain rfl := Except.ok.inj hbehind
              exact hdecides _ _ _ hfall
          · cases hbehind
        show r.code = .error
        cases hcode : r.code with
        | error => rfl
        | success => exact absurd hcode (hresult r hbehind)
        | redirect => exact absurd hcode hne
  rcases behind_of_failed hquiet hfailed with heq | heq
  · rw [heq]
    exact hlogged
  · rw [heq]
    exact hlogged.rotate

/-- A write of a version that throws has rotated the memtable, and no more. -/
theorem Drained.writeMemtable (h : st.Drained) {key : Bytes} {value : EValue} {e : StdException}
    (herror : (writeMemtable cfg env st key value).2 = .error e) :
    (Storage.writeMemtable cfg env st key value).1.Drained := by
  rcases writeMemtable_cases cfg env st key value with
    ⟨-, -, heq⟩ | ⟨-, -, heq⟩ | ⟨-, heq⟩ | ⟨-, e', heq⟩
  · rw [heq] at herror
    cases herror
  · rw [heq] at herror
    cases herror
  · rw [heq] at herror
    cases herror
  · rw [heq]
    exact h.rotate

/-- An expiry that throws has found no live version, or has rotated the memtable. -/
theorem Drained.setKeyExpire (h : st.Drained) {key : Bytes} {t : UInt64} {e : StdException}
    (herror : (setKeyExpire cfg env st key t).2 = .error e) :
    (Storage.setKeyExpire cfg env st key t).1.Drained := by
  have hhandle : ∀ f : ValueHandle,
      st.memtable.handleValue key f = (st.memtable, .error (.outOfRange "Key not found")) :=
    fun f => MemTable.handleValue_of_none (h.memtable key)
  cases hget : st.get env.now key with
  | none =>
      simp only [Storage.setKeyExpire, hhandle, hget]
      exact h
  | some v =>
      cases hfull : st.memtable.shouldFlush env.usage with
      | false =>
          simp only [Storage.setKeyExpire, hhandle, hget,
            MemTable.put_of_not_shouldFlush key _ hfull] at herror
          cases herror
      | true =>
          cases hfresh : (rotateMemtable cfg env st).memtable.shouldFlush env.usage with
          | false =>
              simp only [Storage.setKeyExpire, hhandle, hget,
                MemTable.put_of_shouldFlush key _ hfull,
                MemTable.put_of_not_shouldFlush key _ hfresh] at herror
              cases herror
          | true =>
              simp only [Storage.setKeyExpire, hhandle, hget,
                MemTable.put_of_shouldFlush key _ hfull, MemTable.put_of_shouldFlush key _ hfresh]
              exact h.rotate

theorem Drained.set (h : st.Drained) {key value : Bytes} {ttl : UInt64} {e : StdException}
    (hset : Storage.set cfg env key value ttl st = (st', .error e)) : st'.Drained := by
  simp only [Storage.set] at hset
  split at hset
  · cases hset
  · next heq =>
      obtain ⟨rfl, -⟩ := Prod.mk.inj hset
      have hlogged := @Drained.logRecord cfg st h false .set key
      have hwrite := (hlogged _).writeMemtable (congrArg Prod.snd heq)
      rw [heq] at hwrite
      exact hwrite

theorem Drained.setExpire (h : st.Drained) {key : Bytes} {aliveTime : UInt64} {e : StdException}
    (hset : Storage.setExpire cfg env st key aliveTime = (st', .error e)) : st'.Drained := by
  simp only [Storage.setExpire] at hset
  split at hset
  · have hlogged : ∀ wal : Wal, ({ st with wal := wal } : Storage).Drained :=
      fun wal => h.congr rfl rfl
    have hexpire := (hlogged _).setKeyExpire (congrArg Prod.snd hset)
    rw [hset] at hexpire
    exact hexpire
  · have hexpire := h.setKeyExpire (congrArg Prod.snd hset)
    rw [hset] at hexpire
    exact hexpire

/-- **A request that does not succeed** leaves a drained store drained. -/
theorem Drained.perform (h : st.Drained) {q : Request} (hquiet : q.Quiet) (hdecides : q.Decides)
    (hcode : (perform cfg env st q).2.code ≠ .success) :
    (Storage.perform cfg env st q).1.Drained := by
  cases q with
  | update op key =>
      rw [perform_update_eq] at hcode ⊢
      apply h.process hquiet hdecides
      intro r hr
      rw [hr] at hcode
      exact hcode
  | set key value ttl =>
      cases hset : Storage.set cfg env key value ttl st with
      | mk st' result =>
      cases result with
      | ok written =>
          simp only [Storage.perform, hset] at hcode
          exact absurd rfl hcode
      | error e =>
          simp only [Storage.perform, hset]
          exact h.set hset
  | remove keys =>
      -- only the empty list of keys is answered with an error
      cases keys with
      | nil => exact h
      | cons key rest =>
          simp only [Storage.perform, Storage.remove, List.cons_ne_nil, if_false] at hcode
          exact absurd rfl hcode
  | expire key aliveTime =>
      cases hexpire : Storage.setExpire cfg env st key aliveTime with
      | mk st' result =>
      cases result with
      | ok written =>
          simp only [Storage.perform, hexpire] at hcode
          exact absurd rfl hcode
      | error e =>
          simp only [Storage.perform, hexpire]
          exact h.setExpire hexpire
  | range startKey endKey => exact h
  | reject errorMsg => exact h

theorem decides_requestOf (F : FloatOps) (form : Overload) (c : WriteCommand) (args : List Bytes) :
    (requestOf F form c args).Quiet ∧ (requestOf F form c args).Decides := by
  have hissued : ∀ type : OperationType, Issued F type args (requestOf F form c args) →
      (requestOf F form c args).Quiet ∧ (requestOf F form c args).Decides := by
    rintro type (⟨errorMsg, heq⟩ | hcalls)
    · rw [heq]
      exact ⟨trivial, trivial⟩
    · exact ⟨quiet_calls hcalls, decides_calls hcalls⟩
  have hplain : ∀ q : Request, (∀ op key, q ≠ .update op key) → q.Quiet ∧ q.Decides := by
    intro q hne
    cases q with
    | update op key => exact absurd rfl (hne op key)
    | _ => exact ⟨trivial, trivial⟩
  cases c with
  | range =>
      apply hplain
      cases form <;> simp only [requestOf, request] <;> split <;> intro op key h <;> cases h
  | logged type =>
      by_cases hremove : type = .remove
      · subst hremove
        apply hplain
        cases form <;> simp only [requestOf, request] <;> split <;> intro op key h <;> cases h
      · by_cases hexpire : type = .expire
        · subst hexpire
          apply hplain
          cases form <;> simp only [requestOf, request] <;> split <;>
            first | (split <;> intro op key h <;> cases h) | (intro op key h; cases h)
        · exact hissued type (issued_requestOf F form args hremove hexpire)

/-- **A command that writes nothing.** A read, or a write that does not succeed, leaves a drained
store drained. -/
theorem Drained.execute (h : st.Drained) (lib : Library) (form : Overload) (readOnly closed : Bool)
    (type : UInt8) (args : List Bytes)
    (hcode : ∀ c, Command.ofCode type = some (.write c) →
      (executeType cfg env lib form readOnly closed type args st).2.code ≠ .success) :
    (executeType cfg env lib form readOnly closed type args st).1.Drained := by
  simp only [executeType] at hcode ⊢
  cases hcommand : Command.ofCode type with
  | none =>
      simp only
      split <;> exact h
  | some command =>
      cases command with
      | read c =>
          simp only
          split <;> exact h
      | write c =>
          have hcode' := hcode c hcommand
          simp only [hcommand] at hcode' ⊢
          cases readOnly with
          | true => exact h
          | false =>
              cases closed with
              | true => exact h
              | false =>
                  obtain ⟨hquiet, hdecides⟩ := decides_requestOf lib.F form c args
                  exact h.perform hquiet hdecides hcode'

end Drained

end Storage

namespace Engine

open Storage (FreshName newFilename)
open SSTableManager (WellFormed openDirectory)

section Conditions

variable (cfg : StorageConfig)

/-- The step writes the archive of this name. -/
def Builds (env : Env) (e : Engine) (path : Bytes) : EngineStep → Prop
  | .createCheckpoint extraMetaData packing => ¬ e.Serves extraMetaData ∧
      ∃ e', e.createCheckpoint cfg env extraMetaData packing = some (e', some path)
  | _ => False

/-- The last call of a run that wrote the archive of this name had this metadata. -/
inductive BuiltIn (start : Engine) (path : Bytes) : List (Env × EngineStep) → Bytes → Prop where
  | here {trace : List (Env × EngineStep)} {e : Engine} (env : Env) (extraMetaData : Bytes)
      (packing : Packing) : Run cfg start trace e →
      Builds cfg env e path (.createCheckpoint extraMetaData packing) →
        BuiltIn start path (trace ++ [(env, .createCheckpoint extraMetaData packing)]) extraMetaData
  | later {trace : List (Env × EngineStep)} {e : Engine} {extraMetaData : Bytes} (env : Env)
      (s : EngineStep) : Run cfg start trace e → BuiltIn start path trace extraMetaData →
      ¬ Builds cfg env e path s → BuiltIn start path (trace ++ [(env, s)]) extraMetaData

/-- What a cached snapshot is: the store has nothing in memory, and the archive, if the file is
there, has the contents of the store and the metadata of the call that built it. -/
structure Served (start : Engine) (trace : List (Env × EngineStep)) (e : Engine) : Prop where
  drained : e.storage.Drained
  archive : ∀ archive, e.snapshots[e.snapshotCachePath]? = some archive →
    ∃ dir extraMetaData, archive = .whole dir ∧ dir.Distinct ∧
      dir.extraMeta = some extraMetaData ∧ (∀ t key, dir.live t key = e.storage.live t key) ∧
      BuiltIn cfg start e.snapshotCachePath trace extraMetaData

/-- What holds in the course of a run that meets its conditions. -/
structure Holds (start : Engine) (trace : List (Env × EngineStep)) (e : Engine) : Prop where
  counted : e.storage.Counted
  named : e.storage.Named
  stored : SSTableManager.Stored e.storage.sstableManager
  wellFormed : WellFormed cfg.sstable e.storage.sstableManager
  cache : e.snapshotCacheValid = true → e.snapshotCachePath ≠ [] → Served cfg start trace e

/-- The conditions of a step. A command finds the clock past the name of the current log file. The
archive tool does not leave a bad file behind a checkpoint, and one without metadata does not take
the name of the cached snapshot. A restore finds no snapshot cached, and the tables that it loads
are in order: distinct names, and for the level strategy disjoint files in a level. -/
def StepMeets (env : Env) (e : Engine) : EngineStep → Prop
  | .execute _ _ _ _ _ _ => FreshName cfg env e.storage
  | .flush => True
  | .createCheckpoint extraMetaData packing => e.Serves extraMetaData ∨
      (∀ left, packing ≠ .failed (some left)) ∧ (extraMetaData = [] →
        e.snapshotCacheValid = true → checkpointPath env ≠ e.snapshotCachePath)
  | .restoreFromCheckpoint file ending _ => file = none ∨
      (e.snapshotCacheValid = true → e.snapshotCachePath = []) ∧ ending.left.Distinct ∧
        ∀ mgr, openDirectory cfg.sstable env.now cfg.mergeFuel ending.left = some mgr →
          WellFormed cfg.sstable mgr
  | .removeSnapshot _ => True
  | .clearAndBackupData _ => True

/-- The conditions of an opening: the same of the directory, and the clock is past the names of the
log files. -/
def OpenedMeets (start : Engine) : Prop := ∃ env F toZset dir logs snapshots,
  opening cfg env F toZset dir logs snapshots = some start ∧ TableDir.Distinct dir ∧
    (∀ name ∈ logs, compare name (newFilename cfg env) = .lt) ∧
    WellFormed cfg.sstable start.storage.sstableManager

/-- The runs whose steps all meet their conditions. -/
inductive RunMeets (start : Engine) : List (Env × EngineStep) → Engine → Prop where
  | nil : RunMeets start [] start
  | snoc {trace : List (Env × EngineStep)} {e e' : Engine} (env : Env) (s : EngineStep) :
      RunMeets start trace e → StepMeets cfg env e s → e.step cfg env s = some e' →
        RunMeets start (trace ++ [(env, s)]) e'

variable {cfg} {start e : Engine} {trace : List (Env × EngineStep)}

theorem RunMeets.run (h : RunMeets cfg start trace e) : Run cfg start trace e := by
  induction h with
  | nil => exact Run.nil
  | snoc env s _ _ hstep ih => exact Run.snoc env s ih hstep

end Conditions

section Steps

variable {cfg : StorageConfig} {env : Env} {start e e' : Engine}
  {trace : List (Env × EngineStep)}

/-- A step that leaves the contents, the cache and its file leaves a snapshot that is served. -/
theorem Served.snoc (h : Served cfg start trace e) (hrun : Run cfg start trace e) {s : EngineStep}
    (hbuilds : ¬ Builds cfg env e e.snapshotCachePath s)
    (hpath : e'.snapshotCachePath = e.snapshotCachePath) (hdrained : e'.storage.Drained)
    (hlive : ∀ t key, e'.storage.live t key = e.storage.live t key)
    (hfiles : ∀ archive, e'.snapshots[e.snapshotCachePath]? = some archive →
      e.snapshots[e.snapshotCachePath]? = some archive) :
    Served cfg start (trace ++ [(env, s)]) e' := by
  refine ⟨hdrained, fun archive harchive => ?_⟩
  rw [hpath] at harchive ⊢
  obtain ⟨dir, extraMetaData, hwhole, hdistinct, hmeta, hsame, hbuilt⟩ :=
    h.archive archive (hfiles archive harchive)
  refine ⟨dir, extraMetaData, hwhole, hdistinct, hmeta, fun t key => ?_,
    BuiltIn.later env s hrun hbuilt hbuilds⟩
  rw [hlive, hsame]

/-- Drained stores with the same SSTables have the same contents. -/
theorem live_of_sstables {st st' : Storage} (h : st.Drained) (h' : st'.Drained)
    (hsst : st'.sstableManager = st.sstableManager) (t : Nat) (key : Bytes) :
    st'.live t key = st.live t key := by
  rw [Storage.live_of_drained h, Storage.live_of_drained h', hsst]

@[simp] theorem valid_removeSnapshot (path : Bytes) (e : Engine) :
    (e.removeSnapshot path).2.snapshotCacheValid = e.snapshotCacheValid := by
  simp only [removeSnapshot]
  split_ifs <;> rfl

/-- A write that succeeds drops the cached snapshot, and every other command leaves it. -/
theorem execute_cases (lib : Storage.Library) (form : Overload) (readOnly closed : Bool)
    (type : UInt8) (args : List Bytes) (e : Engine) :
    let r := e.storage.executeType cfg env lib form readOnly closed type args
    (e.execute cfg env lib form readOnly closed type args).1 = { e with storage := r.1 }.dropCache ∨
    (e.execute cfg env lib form readOnly closed type args).1 = { e with storage := r.1 } ∧
      ∀ c, Command.ofCode type = some (.write c) → r.2.code ≠ .success := by
  intro r
  simp only [execute]
  cases hcommand : Command.ofCode type with
  | none => exact Or.inr ⟨rfl, fun c h => by cases h⟩
  | some command =>
      cases command with
      | read c => exact Or.inr ⟨rfl, fun c h => by cases h⟩
      | write c =>
          by_cases hcode : r.2.code = .success
          · exact Or.inl (if_pos hcode)
          · exact Or.inr ⟨if_neg hcode, fun _ _ => hcode⟩

theorem holds_execute (h : Holds cfg start trace e) (hrun : Run cfg start trace e)
    (hname : FreshName cfg env e.storage) (lib : Storage.Library) (form : Overload)
    (readOnly closed : Bool) (type : UInt8) (args : List Bytes) :
    Holds cfg start (trace ++ [(env, .execute lib form readOnly closed type args)])
      (e.execute cfg env lib form readOnly closed type args).1 := by
  have heffect := Storage.effect_executeType cfg env e.storage lib form readOnly closed type args
  have hstorage := @storage_execute cfg env lib form readOnly closed type args e
  refine ⟨?_, ?_, ?_, ?_, ?_⟩
  · rw [hstorage]
    exact heffect.counted h.counted
  · rw [hstorage]
    exact heffect.named h.named hname
  · rw [hstorage, heffect.sstables]
    exact h.stored
  · rw [hstorage, heffect.sstables]
    exact h.wellFormed
  · intro hvalid hpath
    rcases @execute_cases cfg env lib form readOnly closed type args e with heq | ⟨heq, hcode⟩
    · -- the cache is gone
      rw [heq] at hvalid
      simp only [dropCache, valid_removeSnapshot] at hvalid
      cases hvalid
    · rw [heq] at hvalid hpath ⊢
      have hserved := h.cache hvalid hpath
      have hdrained := hserved.drained.execute lib form readOnly closed type args hcode
      exact hserved.snoc hrun id rfl hdrained
        (live_of_sstables hserved.drained hdrained heffect.sstables) fun _ h => h

/-- A step that leaves the contents and the cache, and takes files away at most. -/
theorem Holds.snoc (h : Holds cfg start trace e) (hrun : Run cfg start trace e) {s : EngineStep}
    (hbuilds : ¬ Builds cfg env e e.snapshotCachePath s) (hstorage : e'.storage = e.storage) 
    (hvalid : e'.snapshotCacheValid = e.snapshotCacheValid)
    (hpath : e'.snapshotCachePath = e.snapshotCachePath)
    (hfiles : ∀ archive, e'.snapshots[e.snapshotCachePath]? = some archive →
      e.snapshots[e.snapshotCachePath]? = some archive) :
    Holds cfg start (trace ++ [(env, s)]) e' := by
  refine ⟨hstorage ▸ h.counted, hstorage ▸ h.named, hstorage ▸ h.stored, hstorage ▸ h.wellFormed,
    fun hv hp => ?_⟩
  rw [hvalid] at hv
  rw [hpath] at hp
  have hserved := h.cache hv hp
  refine hserved.snoc hrun hbuilds hpath (hstorage ▸ hserved.drained) (fun t key => ?_) hfiles
  rw [hstorage]

theorem holds_flush (h : Holds cfg start trace e) (hrun : Run cfg start trace e) {st : Storage}
    (hflush : Storage.flushMemtableToSstable cfg env e.storage = some st) :
    Holds cfg start (trace ++ [(env, .flush)]) { e with storage := st } := by
  refine ⟨?_, Storage.flush_named h.counted h.named hflush, ?_, ?_, fun hvalid hpath => ?_⟩
  · exact Storage.flushLoop_invariant (fun _ _ _ => Storage.counted_of_round) _ _ st h.counted
      hflush
  · exact Storage.flush_stored h.counted h.stored hflush
  · exact Storage.flush_wellFormed h.counted h.wellFormed hflush
  · have hserved := h.cache hvalid hpath
    obtain ⟨hdrained, hsst⟩ := Storage.flush_of_drained h.counted hserved.drained hflush
    exact hserved.snoc hrun id rfl hdrained (live_of_sstables hserved.drained hdrained hsst)
      fun _ h => h

/-- What settling leaves of what is kept, when it does not touch the cache. -/
theorem holds_settle (h : Holds cfg start trace e) (hrun : Run cfg start trace e) {st : Storage}
    (hsettle : Storage.settle cfg env e.storage = some st) {s : EngineStep}
    (hbuilds : e.snapshotCacheValid = true → ¬ Builds cfg env e e.snapshotCachePath s) :
    Holds cfg start (trace ++ [(env, s)]) { e with storage := st } := by
  obtain ⟨hdrained, hcounted, hlist⟩ := Storage.drained_of_settle h.counted hsettle
  refine ⟨hcounted, Storage.named_of_toList hlist,
    Storage.stored_of_settle h.counted h.stored hsettle,
    Storage.wellFormed_of_settle h.counted h.wellFormed hsettle, fun hvalid hpath => ?_⟩
  have hserved := h.cache hvalid hpath
  have hsst := Storage.sstables_of_drained h.counted hserved.drained hsettle
  exact hserved.snoc hrun (hbuilds hvalid) rfl hdrained
    (live_of_sstables hserved.drained hdrained hsst) fun _ h => h

/-- **A new archive** has the contents of the store. -/
theorem served_of_written {extraMetaData : Bytes} {packing : Packing}
    (hstored : SSTableManager.Stored e.storage.sstableManager) (hcounted : e.storage.Counted)
    (hrun : Run cfg start trace e) (hserves : ¬ e.Serves extraMetaData)
    (hbuilt : e.createCheckpoint cfg env extraMetaData packing =
      some (e', some (checkpointPath env)))
    (hwritten : Written cfg env extraMetaData packing e e')
    (hpacking : ∀ left, packing ≠ .failed (some left)) (hmeta : extraMetaData ≠ []) :
    Served cfg start (trace ++ [(env, .createCheckpoint extraMetaData packing)]) e' := by
  obtain ⟨hdrained, -, -⟩ := Storage.drained_of_settle hcounted hwritten.settled
  have hst := Storage.stored_of_settle hcounted hstored hwritten.settled
  obtain ⟨-, hpath⟩ := hwritten.cached hmeta
  refine ⟨hdrained, fun archive harchive => ?_⟩
  rw [hpath] at harchive ⊢
  rw [hwritten.file, if_neg hmeta] at harchive
  cases packing with
  | threw => cases harchive
  | failed left =>
      cases left with
      | none => cases harchive
      | some left => exact absurd rfl (hpacking left)
  | done =>
      obtain rfl := Option.some.inj harchive
      refine ⟨_, extraMetaData, rfl, SSTableManager.distinct_files hst, rfl, fun t key => ?_,
        BuiltIn.here env extraMetaData .done hrun ⟨hserves, e', hbuilt⟩⟩
      rw [Storage.live_of_drained hdrained]
      exact congrFun (SSTableManager.visibleAt_loadAll_files hst t) key

theorem holds_createCheckpoint (h : Holds cfg start trace e) (hrun : Run cfg start trace e)
    {extraMetaData : Bytes} {packing : Packing} {path : Option Bytes}
    (hmeets : StepMeets cfg env e (.createCheckpoint extraMetaData packing))
    (hstep : e.createCheckpoint cfg env extraMetaData packing = some (e', path)) :
    Holds cfg start (trace ++ [(env, .createCheckpoint extraMetaData packing)]) e' := by
  rcases createCheckpoint_cases hstep with
    ⟨hserves, rfl, -⟩ | ⟨hserves, ⟨-, rfl, st, hsettle, rfl⟩ | ⟨-, rfl, hwritten⟩⟩
  · exact h.snoc hrun (fun hbuilds => hbuilds.1 hserves) rfl rfl rfl fun _ h => h
  · apply holds_settle h hrun hsettle
    rintro - ⟨-, e'', hbuilt⟩
    rw [hstep] at hbuilt
    cases hbuilt
  · obtain ⟨hpacking, hname⟩ := hmeets.resolve_left hserves
    obtain ⟨hdrained, hcounted, hlist⟩ := Storage.drained_of_settle h.counted hwritten.settled
    refine ⟨hcounted, Storage.named_of_toList hlist,
      Storage.stored_of_settle h.counted h.stored hwritten.settled,
      Storage.wellFormed_of_settle h.counted h.wellFormed hwritten.settled, fun hvalid hpath => ?_⟩
    by_cases hmeta : extraMetaData = []
    · -- the old snapshot stays, under another name
      obtain ⟨hvalid', hpath'⟩ := hwritten.uncached hmeta
      rw [hvalid'] at hvalid
      rw [hpath'] at hpath
      have hne := hname hmeta hvalid
      have hserved := h.cache hvalid hpath
      have hsst := Storage.sstables_of_drained h.counted hserved.drained hwritten.settled
      apply hserved.snoc hrun _ hpath' hdrained
        (live_of_sstables hserved.drained hdrained hsst)
      · intro archive harchive
        rw [← hwritten.others _ hne]
        exact harchive
      · rintro ⟨-, e'', hbuilt⟩
        rw [hstep] at hbuilt
        exact hne (Option.some.inj (Prod.mk.inj (Option.some.inj hbuilt)).2)
    · exact served_of_written h.stored h.counted hrun hserves hstep hwritten hpacking hmeta

theorem holds_restore (h : Holds cfg start trace e) (hrun : Run cfg start trace e)
    {file : Option Archive} {ending : Ending} {out : Bytes} {r : Bool × Bytes × Engine}
    (hmeets : StepMeets cfg env e (.restoreFromCheckpoint file ending out))
    (hstep : e.restoreFromCheckpoint cfg env file ending out = some r) :
    Holds cfg start (trace ++ [(env, .restoreFromCheckpoint file ending out)]) r.2.2 := by
  obtain ⟨ok, out', e'⟩ := r
  rcases restore_cases hstep with
    ⟨-, -, -, rfl⟩ | ⟨archive, st, mgr, rfl, hsettle, hopen, hstorage, hvalid', hpath', -⟩
  · exact h.snoc hrun id rfl rfl rfl fun _ h => h
  · rcases hmeets with hnone | ⟨hcache, hdistinct, hwf⟩
    · cases hnone
    obtain ⟨-, hcounted, hlist⟩ := Storage.drained_of_settle h.counted hsettle
    refine ⟨?_, ?_, ?_, ?_, fun hvalid hpath => ?_⟩
    · rw [hstorage]
      exact ⟨hcounted.memtable, hcounted.immutables⟩
    · rw [hstorage]
      exact Storage.named_of_toList hlist
    · rw [hstorage]
      exact SSTableManager.stored_openDirectory hdistinct hopen
    · rw [hstorage]
      exact hwf mgr hopen
    · rw [hvalid'] at hvalid
      rw [hpath'] at hpath
      exact absurd (hcache hvalid) hpath

theorem holds_removeSnapshot (h : Holds cfg start trace e) (hrun : Run cfg start trace e)
    (env : Env) (path : Bytes) :
    Holds cfg start (trace ++ [(env, .removeSnapshot path)]) (e.removeSnapshot path).2 := by
  have hfiles : ∀ archive, (e.removeSnapshot path).2.snapshots[e.snapshotCachePath]? =
      some archive → e.snapshots[e.snapshotCachePath]? = some archive := by
    intro archive harchive
    simp only [removeSnapshot] at harchive
    split_ifs at harchive with hnil hmem hcached
    · exact harchive
    · exact harchive
    · rw [Std.ExtTreeMap.getElem?_erase] at harchive
      split at harchive
      · cases harchive
      · exact harchive
    · exact harchive
  apply h.snoc hrun id (storage_removeSnapshot path e) (valid_removeSnapshot path e) _ hfiles
  simp only [removeSnapshot]
  split_ifs <;> rfl

theorem holds_clear (h : Holds cfg start trace e) (hrun : Run cfg start trace e) {renamed : Bool}
    {r : Bool × Engine} (hstep : e.clearAndBackupData cfg env renamed = some r) :
    Holds cfg start (trace ++ [(env, .clearAndBackupData renamed)]) r.2 := by
  obtain ⟨ok, e'⟩ := r
  rcases clearAndBackupData_cases hstep with
    rfl | ⟨st, mgr, hsettle, hmem, himm, hmgr, hvalid', hpath', hdir⟩
  · exact h.snoc hrun id rfl rfl rfl fun _ h => h
  · obtain ⟨hdrained, hcounted, hlist⟩ := Storage.drained_of_settle h.counted hsettle
    have hst := Storage.stored_of_settle h.counted h.stored hsettle
    have hwf := Storage.wellFormed_of_settle h.counted h.wellFormed hsettle
    have hdrained' : e'.storage.Drained := hdrained.congr hmem himm
    refine ⟨⟨hmem ▸ hcounted.memtable, himm ▸ hcounted.immutables⟩,
      Storage.named_of_toList (himm ▸ hlist), ?_, ?_, fun hvalid hpath => ?_⟩
    · rw [hmgr]
      rcases hdir with ⟨rfl, -⟩ | ⟨rfl, -⟩
      · exact SSTableManager.stored_loadAll (SSTableManager.distinct_files hst)
      · exact SSTableManager.stored_empty
    · rw [hmgr]
      rcases hdir with ⟨rfl, -⟩ | ⟨rfl, -⟩
      · exact SSTableManager.wellFormed_loadAll_files hst hwf
      · exact SSTableManager.wellFormed_empty cfg.sstable
    · rcases hdir with ⟨rfl, hfiles⟩ | ⟨-, hfiles⟩
      · rw [hvalid'] at hvalid
        rw [hpath'] at hpath
        have hserved := h.cache hvalid hpath
        have hsst := Storage.sstables_of_drained h.counted hserved.drained hsettle
        refine hserved.snoc hrun id hpath' hdrained' (fun t key => ?_) fun archive harchive => ?_
        · rw [Storage.live_of_drained hdrained', Storage.live_of_drained hserved.drained, hmgr,
            SSTableManager.visibleAt_loadAll_files hst, hsst]
        · rw [hfiles] at harchive
          exact harchive
      · -- the snapshot has gone with the data directory
        refine ⟨hdrained', fun archive harchive => ?_⟩
        rw [hfiles, Std.ExtTreeMap.getElem?_empty] at harchive
        cases harchive

/-- **The step lemma.** -/
theorem holds_step (h : Holds cfg start trace e) (hrun : Run cfg start trace e) {s : EngineStep}
    (hmeets : StepMeets cfg env e s) (hstep : e.step cfg env s = some e') :
    Holds cfg start (trace ++ [(env, s)]) e' := by
  cases s with
  | execute lib form readOnly closed type args =>
      obtain rfl := Option.some.inj hstep
      exact holds_execute h hrun hmeets lib form readOnly closed type args
  | flush =>
      obtain ⟨st, hflush, rfl⟩ := Option.map_eq_some_iff.1 hstep
      exact holds_flush h hrun hflush
  | createCheckpoint extraMetaData packing =>
      obtain ⟨r, hcheckpoint, rfl⟩ := Option.map_eq_some_iff.1 hstep
      exact holds_createCheckpoint h hrun hmeets hcheckpoint
  | restoreFromCheckpoint file ending out =>
      obtain ⟨r, hrestore, rfl⟩ := Option.map_eq_some_iff.1 hstep
      exact holds_restore h hrun hmeets hrestore
  | removeSnapshot path =>
      obtain rfl := Option.some.inj hstep
      exact holds_removeSnapshot h hrun env path
  | clearAndBackupData renamed =>
      obtain ⟨r, hclear, rfl⟩ := Option.map_eq_some_iff.1 hstep
      exact holds_clear h hrun hclear

theorem holds_opened (h : OpenedMeets cfg start) : Holds cfg start [] start := by
  obtain ⟨env, F, toZset, dir, logs, snapshots, hopen, hdistinct, hbelow, hwf⟩ := h
  obtain ⟨mgr, hmgr, hopen⟩ := Option.bind_eq_some_iff.1 hopen
  obtain ⟨st, hrestart, hret⟩ := Option.bind_eq_some_iff.1 hopen
  obtain rfl := Option.some.inj hret
  obtain ⟨hcounted, hsst, hnamed⟩ := Storage.restart_opens hrestart
  refine ⟨hcounted, hnamed hbelow, ?_, hwf, fun hvalid => by cases hvalid⟩
  rw [hsst]
  exact SSTableManager.stored_openDirectory hdistinct hmgr

/-- **The run lemma.** Along a run that meets its conditions a cached snapshot has the contents of
the store. -/
theorem holds_run (hstart : OpenedMeets cfg start) (h : RunMeets cfg start trace e) :
    Holds cfg start trace e := by
  induction h with
  | nil => exact holds_opened hstart
  | snoc env s hrun hmeets hstep ih => exact holds_step ih hrun.run hmeets hstep

end Steps

end Engine

end EyaKV.Store
