import EyaKV.Store.Opening

/-!
# Checkpoints and restores

`Engine` is a store with its directory of snapshots: the archives by name, the file
`extra_meta.bin` among the SSTables, and the snapshot that `create_checkpoint` serves again until a
command has written. The archive tool is outside the program: `Packing` and `Ending` say how it
ends, and what it leaves.

A restore deletes the SSTables before it calls the tool, and takes no notice of what the tool
returns. After it the store holds what is left in the directory, whatever it returns
(`live_of_restore`); so it is all or nothing exactly when what is left shows what it should
(`restore_allOrNothing_iff`).
-/

set_option autoImplicit false

namespace EyaKV.Store

open EyaKV.Base EyaKV.Base.Layers EyaKV.Base.Framing

section Archives

/-- A snapshot file: the whole archive of a directory, or one that is empty, cut off or corrupt. -/
inductive Archive where
  | whole (dir : TableDir)
  | damaged

/-- How the packing of a checkpoint ends. When the tool fails, it leaves a file or none; an
exception may come from it, or from the copying of the files before it. -/
inductive Packing where
  | done
  | failed (left : Option Archive)
  | threw

/-- The file that a packing leaves, for the directory that is packed. -/
def Packing.file (dir : TableDir) : Packing → Option Archive
  | .done => some (.whole dir)
  | .failed left => left
  | .threw => none

/-- How a restore goes on after it has deleted the SSTables: the tool returns, or a step throws; in
both cases with what then is in the directory. -/
inductive Ending where
  | finished (extracted : Bool) (left : TableDir)
  | failed (left : TableDir)

/-- What the directory of the SSTables holds in the end. -/
def Ending.left : Ending → TableDir
  | .finished _ left => left
  | .failed left => left

/-- The tool returns true exactly when it has extracted the whole archive. -/
def Ending.Faithful (file : Option Archive) : Ending → Prop
  | .finished extracted left => extracted = true ↔ file = some (.whole left)
  | .failed _ => True

end Archives

/-- A store with what lies around it: a left-over `extra_meta.bin`, the snapshot that is cached, and
the files of the snapshot directory by name. -/
structure Engine where
  storage : Storage
  extraMeta : Option Bytes
  snapshotCacheValid : Bool
  snapshotCachePath : Bytes
  snapshots : StrMap Archive

namespace Engine

open Storage (settle restart executeType newFilename Library)
open SSTableManager (openDirectory)

variable (cfg : StorageConfig) (env : Env)

/-- The name of a new archive: the clock in milliseconds. -/
def checkpointPath : Bytes := ascii "checkpoint_" ++ decimal (env.ticks / 10 ^ 6) ++ ascii ".tar.gz"

/-- The directory of the SSTables of an open store. -/
def tableDir (e : Engine) : TableDir :=
  ⟨e.storage.sstableManager.files, some cfg.sstable.mergeStrategy, e.extraMeta⟩

/-- `Storage::create_checkpoint`: the name of the archive, or nothing when it returns false. -/
def createCheckpoint (extraMetaData : Bytes) (packing : Packing) (e : Engine) :
    Option (Engine × Option Bytes) :=
  if extraMetaData ≠ [] ∧ e.snapshotCacheValid = true ∧ e.snapshotCachePath ≠ [] then
    some (e, some e.snapshotCachePath)
  else do
    let st ← settle cfg env e.storage
    let e := { e with storage := st }
    -- the copy has the left-over metadata as well, which the new one overwrites
    let dir : TableDir := { e.tableDir cfg with
      extraMeta := if extraMetaData = [] then e.extraMeta else some extraMetaData }
    let path := checkpointPath env
    let cached (e : Engine) : Engine :=
      if extraMetaData = [] then e
      else { e with snapshotCachePath := path, snapshotCacheValid := true }
    match packing with
    | .done =>
        return (cached { e with snapshots := e.snapshots.insert path (.whole dir) }, some path)
    -- the result of `compressDir` is not looked at
    | .failed (some left) =>
        return (cached { e with snapshots := e.snapshots.insert path left }, some path)
    | .failed none =>
        return (cached { e with snapshots := e.snapshots.erase path }, some path)
    | .threw => return (e, none)

/-- `Storage::restore_from_checkpoint`, for the file at the given path: what it returns, what it
leaves in `out_extra_meta_data`, and the store. -/
def restoreFromCheckpoint (file : Option Archive) (ending : Ending) (out : Bytes) (e : Engine) :
    Option (Bool × Bytes × Engine) :=
  match file with
  | none => some (false, out, e)
  | some _ => do
      let st ← settle cfg env e.storage
      let mgr ← openDirectory cfg.sstable env.now cfg.mergeFuel ending.left
      let e := { e with storage := { st with sstableManager := mgr } }
      match ending with
      | .finished _ left => return (true, left.extraMeta.getD out, { e with extraMeta := none })
      | .failed left => return (false, out, { e with extraMeta := left.extraMeta })

/-- `Storage::remove_snapshot`; a path outside the directory of snapshots is no name in it. -/
def removeSnapshot (path : Bytes) (e : Engine) : Bool × Engine :=
  if path = [] then (true, e)
  else if path ∈ e.snapshots then
    if path = e.snapshotCachePath ∧ e.snapshotCacheValid = true then (false, e)
    else (true, { e with snapshots := e.snapshots.erase path })
  else (true, e)

/-- The end of a successful write in `Storage::execute`. -/
def dropCache (e : Engine) : Engine :=
  { ({ e with snapshotCacheValid := false }.removeSnapshot e.snapshotCachePath).2 with
    snapshotCachePath := [] }

/-- `Storage::execute`, with the cached snapshot. -/
def execute (lib : Library) (form : Overload) (readOnly closed : Bool) (type : UInt8)
    (args : List Bytes) (e : Engine) : Engine × Response :=
  let (st, response) := executeType cfg env lib form readOnly closed type args e.storage
  let e := { e with storage := st }
  match Command.ofCode type with
  | some (.write _) => (if response.code = .success then e.dropCache else e, response)
  | _ => (e, response)

/-- `Storage::clear_and_backup_data`. When the data directory cannot be renamed it is opened
again. -/
def clearAndBackupData (renamed : Bool) (e : Engine) : Option (Bool × Engine) :=
  if e.storage.sstableManager.sstableCount = 0 ∧ e.storage.memtable.size = 0 ∧
      e.storage.immutableMemtables.toList = [] then some (true, e)
  else do
    let st ← settle cfg env e.storage
    let dir : TableDir := if renamed then ⟨[], none, none⟩
      else { e with storage := st }.tableDir cfg
    let mgr ← openDirectory cfg.sstable env.now cfg.mergeFuel dir
    let wal := st.wal.clear st.currentWalFilename
    let st : Storage := { st with
      sstableManager := mgr
      wal := if cfg.enableWal then wal.openWalFile (newFilename cfg env) else wal
      currentWalFilename :=
        if cfg.enableWal then newFilename cfg env else st.currentWalFilename }
    return (renamed, { e with
      storage := st
      extraMeta := dir.extraMeta
      snapshots := if renamed then ∅ else e.snapshots })

/-- The constructor, on a directory of SSTables, log files and snapshots. -/
def opening (F : FloatOps) (toZset : Decoder UInt8 ZSet) (dir : TableDir) (logs : StrMap Bytes)
    (snapshots : StrMap Archive) : Option Engine := do
  let mgr ← openDirectory cfg.sstable env.now cfg.mergeFuel dir
  let st ← restart cfg env F toZset mgr logs
  return ⟨st, dir.extraMeta, false, [], snapshots⟩

end Engine

/-- What is done with an open store. -/
inductive EngineStep where
  | execute (lib : Storage.Library) (form : Overload) (readOnly closed : Bool) (type : UInt8)
      (args : List Bytes)
  | flush
  | createCheckpoint (extraMetaData : Bytes) (packing : Packing)
  | restoreFromCheckpoint (file : Option Archive) (ending : Ending) (out : Bytes)
  | removeSnapshot (path : Bytes)
  | clearAndBackupData (renamed : Bool)

namespace Engine

open Storage (flushMemtableToSstable)

variable (cfg : StorageConfig)

def step (env : Env) (e : Engine) : EngineStep → Option Engine
  | .execute lib form readOnly closed type args =>
      some (e.execute cfg env lib form readOnly closed type args).1
  | .flush => (flushMemtableToSstable cfg env e.storage).map fun st => { e with storage := st }
  | .createCheckpoint extraMetaData packing =>
      (e.createCheckpoint cfg env extraMetaData packing).map Prod.fst
  | .restoreFromCheckpoint file ending out =>
      (e.restoreFromCheckpoint cfg env file ending out).map fun r => r.2.2
  | .removeSnapshot path => some (e.removeSnapshot path).2
  | .clearAndBackupData renamed => (e.clearAndBackupData cfg env renamed).map Prod.snd

/-- The runs from an opened store, with what has been done in them, the last step at the end. -/
inductive Run (start : Engine) : List (Env × EngineStep) → Engine → Prop where
  | nil : Run start [] start
  | snoc {trace : List (Env × EngineStep)} {e e' : Engine} (env : Env) (s : EngineStep) :
      Run start trace e → e.step cfg env s = some e' → Run start (trace ++ [(env, s)]) e'

/-- A store as the constructor leaves it. -/
def Opened (start : Engine) : Prop := ∃ env F toZset dir logs snapshots,
  opening cfg env F toZset dir logs snapshots = some start

def Reachable (e : Engine) : Prop := ∃ start trace, Opened cfg start ∧ Run cfg start trace e

/-- A checkpoint with this metadata is served from the cache. -/
def Serves (extraMetaData : Bytes) (e : Engine) : Prop :=
  extraMetaData ≠ [] ∧ e.snapshotCacheValid = true ∧ e.snapshotCachePath ≠ []

section Steps

variable {cfg : StorageConfig} {env : Env} {e e' : Engine}

@[simp] theorem storage_removeSnapshot (path : Bytes) (e : Engine) :
    (e.removeSnapshot path).2.storage = e.storage := by
  simp only [removeSnapshot]
  split_ifs <;> rfl

@[simp] theorem storage_dropCache (e : Engine) : e.dropCache.storage = e.storage :=
  storage_removeSnapshot _ _

/-- A command does to the store what `executeType` does. -/
theorem storage_execute (lib : Storage.Library) (form : Overload) (readOnly closed : Bool)
    (type : UInt8) (args : List Bytes) (e : Engine) :
    (e.execute cfg env lib form readOnly closed type args).1.storage =
      (e.storage.executeType cfg env lib form readOnly closed type args).1 := by
  simp only [execute]
  split
  · split
    · exact storage_dropCache _
    · rfl
  · rfl

/-- What a checkpoint leaves that is not served from the cache and does not throw: the file of the
archive tool, which is cached when it has metadata. -/
structure Written (cfg : StorageConfig) (env : Env) (extraMetaData : Bytes) (packing : Packing)
    (e e' : Engine) : Prop where
  settled : Storage.settle cfg env e.storage = some e'.storage
  file : e'.snapshots[checkpointPath env]? = packing.file ⟨e'.storage.sstableManager.files,
    some cfg.sstable.mergeStrategy, if extraMetaData = [] then e.extraMeta else some extraMetaData⟩
  others : ∀ name, checkpointPath env ≠ name → e'.snapshots[name]? = e.snapshots[name]?
  uncached : extraMetaData = [] → e'.snapshotCacheValid = e.snapshotCacheValid ∧
    e'.snapshotCachePath = e.snapshotCachePath
  cached : extraMetaData ≠ [] → e'.snapshotCacheValid = true ∧
    e'.snapshotCachePath = checkpointPath env

/-- The archive is in its place before the cache is set. -/
theorem written_of_files {extraMetaData : Bytes} {packing : Packing} {st : Storage}
    {snapshots : StrMap Archive} (hsettle : Storage.settle cfg env e.storage = some st)
    (hfile : snapshots[checkpointPath env]? = packing.file ⟨st.sstableManager.files,
      some cfg.sstable.mergeStrategy,
      if extraMetaData = [] then e.extraMeta else some extraMetaData⟩)
    (hothers : ∀ name, checkpointPath env ≠ name → snapshots[name]? = e.snapshots[name]?) :
    Written cfg env extraMetaData packing e
      (if extraMetaData = [] then { e with storage := st, snapshots := snapshots }
      else { e with
        storage := st
        snapshots := snapshots
        snapshotCachePath := checkpointPath env
        snapshotCacheValid := true }) := by
  by_cases hmeta : extraMetaData = []
  · rw [if_pos hmeta]
    exact ⟨hsettle, hfile, hothers, fun _ => ⟨rfl, rfl⟩, fun hne => absurd hmeta hne⟩
  · rw [if_neg hmeta]
    exact ⟨hsettle, hfile, hothers, fun heq => absurd heq hmeta, fun _ => ⟨rfl, rfl⟩⟩

/-- A checkpoint is the cached one, or settles the store; then the packing throws, or it leaves its
file. -/
theorem createCheckpoint_cases {extraMetaData : Bytes} {packing : Packing} {path : Option Bytes}
    (h : e.createCheckpoint cfg env extraMetaData packing = some (e', path)) :
    (e.Serves extraMetaData ∧ e' = e ∧ path = some e.snapshotCachePath) ∨
    ¬ e.Serves extraMetaData ∧ ((packing = .threw ∧ path = none ∧
        ∃ st, Storage.settle cfg env e.storage = some st ∧ e' = { e with storage := st }) ∨
      (packing ≠ .threw ∧ path = some (checkpointPath env) ∧
        Written cfg env extraMetaData packing e e')) := by
  rw [createCheckpoint] at h
  split at h
  · next hserves =>
      obtain ⟨rfl, rfl⟩ := Prod.mk.inj (Option.some.inj h)
      exact Or.inl ⟨hserves, rfl, rfl⟩
  · next hserves =>
      obtain ⟨st, hsettle, h⟩ := Option.bind_eq_some_iff.1 h
      refine Or.inr ⟨hserves, ?_⟩
      have hother : ∀ name, checkpointPath env ≠ name →
          ¬ compare (checkpointPath env) name = .eq :=
        fun name hne heq => hne (Std.LawfulEqCmp.compare_eq_iff_eq.1 heq)
      have hinsert : ∀ left : Archive, ∀ name, checkpointPath env ≠ name →
          (e.snapshots.insert (checkpointPath env) left)[name]? = e.snapshots[name]? := by
        intro left name hne
        rw [Std.ExtTreeMap.getElem?_insert, if_neg (hother name hne)]
      -- the outcome of `tar` decides what stands at the path; the other archives stay
      cases packing with
      | threw =>
          obtain ⟨rfl, rfl⟩ := Prod.mk.inj (Option.some.inj h)
          exact Or.inl ⟨rfl, rfl, st, hsettle, rfl⟩
      | done =>
          obtain ⟨rfl, rfl⟩ := Prod.mk.inj (Option.some.inj h)
          refine Or.inr ⟨by simp, rfl, ?_⟩
          apply written_of_files hsettle _ (hinsert _)
          exact Std.ExtTreeMap.getElem?_insert_self
      | failed left =>
          cases left with
          | some left =>
              obtain ⟨rfl, rfl⟩ := Prod.mk.inj (Option.some.inj h)
              refine Or.inr ⟨by simp, rfl, ?_⟩
              apply written_of_files hsettle _ (hinsert _)
              exact Std.ExtTreeMap.getElem?_insert_self
          | none =>
              obtain ⟨rfl, rfl⟩ := Prod.mk.inj (Option.some.inj h)
              refine Or.inr ⟨by simp, rfl, ?_⟩
              apply written_of_files hsettle
              · exact Std.ExtTreeMap.getElem?_erase_self
              · intro name hne
                rw [Std.ExtTreeMap.getElem?_erase, if_neg (hother name hne)]

/-- A checkpoint is the cached one, or settles the store. -/
theorem storage_createCheckpoint {extraMetaData : Bytes} {packing : Packing}
    {path : Option Bytes} (h : e.createCheckpoint cfg env extraMetaData packing = some (e', path)) :
    e' = e ∨ Storage.settle cfg env e.storage = some e'.storage := by
  rcases createCheckpoint_cases h with
    ⟨-, heq, -⟩ | ⟨-, ⟨-, -, st, hsettle, rfl⟩ | ⟨-, -, hwritten⟩⟩
  · exact Or.inl heq
  · exact Or.inr hsettle
  · exact Or.inr hwritten.settled

/-- What a restore does to the store: nothing when there is no file; otherwise it settles the store
and puts what is left in the directory in the place of the SSTables. -/
theorem restore_cases {file : Option Archive} {ending : Ending} {out out' : Bytes} {ok : Bool}
    (h : e.restoreFromCheckpoint cfg env file ending out = some (ok, out', e')) :
    (file = none ∧ ok = false ∧ out' = out ∧ e' = e) ∨
    ∃ archive st mgr, file = some archive ∧ Storage.settle cfg env e.storage = some st ∧
      SSTableManager.openDirectory cfg.sstable env.now cfg.mergeFuel ending.left = some mgr ∧
      e'.storage = { st with sstableManager := mgr } ∧
      e'.snapshotCacheValid = e.snapshotCacheValid ∧
      e'.snapshotCachePath = e.snapshotCachePath ∧ e'.snapshots = e.snapshots ∧
      ((∃ extracted left, ending = .finished extracted left ∧ ok = true ∧
          out' = left.extraMeta.getD out) ∨
        ∃ left, ending = .failed left ∧ ok = false) := by
  cases file with
  | none =>
      obtain ⟨rfl, hrest⟩ := Prod.mk.inj (Option.some.inj h)
      obtain ⟨rfl, rfl⟩ := Prod.mk.inj hrest
      exact Or.inl ⟨rfl, rfl, rfl, rfl⟩
  | some archive =>
      obtain ⟨st, hsettle, h⟩ := Option.bind_eq_some_iff.1 h
      obtain ⟨mgr, hopen, h⟩ := Option.bind_eq_some_iff.1 h
      refine Or.inr ⟨archive, st, mgr, rfl, hsettle, hopen, ?_⟩
      cases ending with
      | finished extracted left =>
          obtain ⟨rfl, hrest⟩ := Prod.mk.inj (Option.some.inj h)
          obtain ⟨rfl, rfl⟩ := Prod.mk.inj hrest
          exact ⟨rfl, rfl, rfl, rfl, Or.inl ⟨extracted, left, rfl, rfl, rfl⟩⟩
      | failed left =>
          obtain ⟨rfl, hrest⟩ := Prod.mk.inj (Option.some.inj h)
          obtain ⟨rfl, rfl⟩ := Prod.mk.inj hrest
          exact ⟨rfl, rfl, rfl, rfl, Or.inr ⟨left, rfl, rfl⟩⟩

/-- The directory that a backup opens, when it cannot rename the data directory, has the SSTables of
the store; otherwise it is empty. -/
theorem clearAndBackupData_cases {renamed ok : Bool}
    (h : e.clearAndBackupData cfg env renamed = some (ok, e')) :
    e' = e ∨ ∃ st mgr, Storage.settle cfg env e.storage = some st ∧
      e'.storage.memtable = st.memtable ∧
      e'.storage.immutableMemtables = st.immutableMemtables ∧
      e'.storage.sstableManager = mgr ∧ e'.snapshotCacheValid = e.snapshotCacheValid ∧
      e'.snapshotCachePath = e.snapshotCachePath ∧
      (mgr = SSTableManager.loadAll st.sstableManager.files ∧ e'.snapshots = e.snapshots ∨
        mgr = SSTableManager.empty ∧ e'.snapshots = ∅) := by
  rw [clearAndBackupData] at h
  split at h
  · exact Or.inl (Prod.mk.inj (Option.some.inj h)).2.symm
  · obtain ⟨st, hsettle, h⟩ := Option.bind_eq_some_iff.1 h
    obtain ⟨mgr, hopen, h⟩ := Option.bind_eq_some_iff.1 h
    obtain ⟨-, rfl⟩ := Prod.mk.inj (Option.some.inj h)
    refine Or.inr ⟨st, mgr, hsettle, rfl, rfl, rfl, rfl, rfl, ?_⟩
    cases renamed with
    | true =>
        refine Or.inr ⟨?_, rfl⟩
        rw [if_pos rfl, SSTableManager.openDirectory, if_neg (by simp)] at hopen
        cases hfuel : cfg.mergeFuel with
        | zero =>
            rw [hfuel] at hopen
            cases hopen
        | succ fuel =>
            rw [hfuel] at hopen
            exact (Option.some.inj hopen).symm
    | false =>
        refine Or.inl ⟨?_, rfl⟩
        rw [if_neg Bool.false_ne_true, SSTableManager.openDirectory] at hopen
        exact (Option.some.inj ((if_pos rfl).symm.trans hopen)).symm

/-- Every step keeps the counters of the memtables right. -/
theorem counted_step (s : EngineStep) (hcounted : e.storage.Counted)
    (h : e.step cfg env s = some e') : e'.storage.Counted := by
  cases s with
  | execute lib form readOnly closed type args =>
      obtain rfl := Option.some.inj h
      rw [storage_execute]
      exact (Storage.effect_executeType cfg env e.storage lib form readOnly closed type
        args).counted hcounted
  | flush =>
      obtain ⟨st, hflush, rfl⟩ := Option.map_eq_some_iff.1 h
      exact Storage.flushLoop_invariant (fun _ _ _ => Storage.counted_of_round) _ _ st hcounted
        hflush
  | createCheckpoint extraMetaData packing =>
      obtain ⟨r, hrun, rfl⟩ := Option.map_eq_some_iff.1 h
      rcases storage_createCheckpoint hrun with heq | hsettle
      · rw [heq]
        exact hcounted
      · exact (Storage.drained_of_settle hcounted hsettle).2.1
  | restoreFromCheckpoint file ending out =>
      obtain ⟨r, hrun, rfl⟩ := Option.map_eq_some_iff.1 h
      rcases restore_cases hrun with ⟨-, -, -, heq⟩ | ⟨_, st, mgr, -, hsettle, -, hstorage, -⟩
      · rw [heq]
        exact hcounted
      · obtain ⟨-, hst, -⟩ := Storage.drained_of_settle hcounted hsettle
        rw [hstorage]
        exact ⟨hst.memtable, hst.immutables⟩
  | removeSnapshot path =>
      obtain rfl := Option.some.inj h
      rw [storage_removeSnapshot]
      exact hcounted
  | clearAndBackupData renamed =>
      obtain ⟨r, hrun, rfl⟩ := Option.map_eq_some_iff.1 h
      rcases clearAndBackupData_cases hrun with heq | ⟨st, _, hsettle, hmem, himm, -⟩
      · rw [heq]
        exact hcounted
      · obtain ⟨-, hst, -⟩ := Storage.drained_of_settle hcounted hsettle
        exact ⟨hmem ▸ hst.memtable, himm ▸ hst.immutables⟩

theorem counted_opened {start : Engine} (h : Opened cfg start) : start.storage.Counted := by
  obtain ⟨env, F, toZset, dir, logs, snapshots, hopen⟩ := h
  obtain ⟨mgr, -, hopen⟩ := Option.bind_eq_some_iff.1 hopen
  obtain ⟨st, hrestart, hret⟩ := Option.bind_eq_some_iff.1 hopen
  obtain rfl := Option.some.inj hret
  exact (Storage.restart_opens hrestart).1

theorem counted_run {start : Engine} {trace : List (Env × EngineStep)}
    (hstart : start.storage.Counted) (h : Run cfg start trace e) : e.storage.Counted := by
  induction h with
  | nil => exact hstart
  | snoc env s _ hstep ih => exact counted_step s ih hstep

theorem counted_of_reachable (h : Reachable cfg e) : e.storage.Counted := by
  obtain ⟨start, trace, hopened, hrun⟩ := h
  exact counted_run (counted_opened hopened) hrun

end Steps

section AllOrNothing

variable {cfg : StorageConfig} {env : Env} {e e' : Engine} {file : Option Archive}
  {ending : Ending} {out out' : Bytes} {ok : Bool}

/-- The opened directory shows the versions, as far as they are live at the second `now`. -/
def Shows (cfg : StorageConfig) (now : Nat) (left : TableDir) (versions : Bytes → Option EValue) :
    Prop :=
  ∀ mgr, SSTableManager.openDirectory cfg.sstable now cfg.mergeFuel left = some mgr →
    ∀ key, mgr.visibleAt now key = versions key

/-- A directory of the same strategy is opened as it is. -/
theorem shows_of_strategy {left : TableDir} (h : left.smeta = some cfg.sstable.mergeStrategy)
    (now : Nat) : Shows cfg now left (left.live now) := by
  intro mgr hopen key
  rw [SSTableManager.openDirectory, if_pos h] at hopen
  obtain rfl := Option.some.inj hopen
  rfl

/-- After a restore the store holds what the opened directory shows, from then on. -/
theorem live_of_restore (hcounted : e.storage.Counted)
    (h : e.restoreFromCheckpoint cfg env file ending out = some (ok, out', e'))
    (hfile : file ≠ none) :
    ∃ mgr, SSTableManager.openDirectory cfg.sstable env.now cfg.mergeFuel ending.left = some mgr ∧
      ∀ t key, e'.storage.live t key = mgr.visibleAt t key := by
  rcases restore_cases h with ⟨hnone, -⟩ | ⟨_, st, mgr, -, hsettle, hopen, hstorage, -⟩
  · exact absurd hnone hfile
  · obtain ⟨hdrained, -, -⟩ := Storage.drained_of_settle hcounted hsettle
    refine ⟨mgr, hopen, fun t key => ?_⟩
    have hdrained' : e'.storage.Drained := by
      rw [hstorage]
      exact ⟨hdrained.memtable, hdrained.immutables⟩
    rw [Storage.live_of_drained hdrained', hstorage]

/-- The restore either gives the contents of the snapshot, or returns false and leaves those of the
store, at every second from then on. -/
def AllOrNothing (now : Nat) (file : Option Archive) (e e' : Engine) (ok : Bool) : Prop :=
  if ok then ∃ dir, file = some (.whole dir) ∧
    ∀ t key, now ≤ t → e'.storage.live t key = dir.live t key
  else ∀ t key, now ≤ t → e'.storage.live t key = e.storage.live t key

/-- There is no file; or what is left in the directory shows what it should: after an extraction
that succeeds the tables show the same under the strategy of the store, after one that fails they
show the contents of the snapshot all the same, and after an exception those of the store. -/
def RestoreMeets (cfg : StorageConfig) (env : Env) (e : Engine) :
    Option Archive → Ending → Prop
  | none, _ => True
  | some _, .finished true left => Shows cfg env.now left (left.live env.now)
  | some archive, .finished false left =>
      ∃ dir, archive = .whole dir ∧ Shows cfg env.now left (dir.live env.now)
  | some _, .failed left => Shows cfg env.now left (e.storage.live env.now)

/-- What is live now decides what is live later. -/
theorem live_later_iff {now : Nat} {older newer : Bytes → Option EValue} :
    (∀ t key, now ≤ t → (newer key).filter (EValue.isLive t) =
      (older key).filter (EValue.isLive t)) ↔
      ∀ key, (newer key).filter (EValue.isLive now) = (older key).filter (EValue.isLive now) := by
  constructor
  · intro h key
    exact h now key (Nat.le_refl now)
  · intro h t key hle
    rw [← Storage.filter_isLive_filter hle, h key, Storage.filter_isLive_filter hle]

/-- **Restores that are all or nothing.** -/
theorem restore_allOrNothing_iff (hreachable : Reachable cfg e) (hfaithful : ending.Faithful file)
    (hrun : e.restoreFromCheckpoint cfg env file ending out = some (ok, out', e')) :
    AllOrNothing env.now file e e' ok ↔ RestoreMeets cfg env e file ending := by
  have hcounted := counted_of_reachable hreachable
  cases file with
  | none =>
      rcases restore_cases hrun with ⟨-, rfl, -, rfl⟩ | ⟨_, _, _, hsome, -⟩
      · exact iff_of_true (fun _ _ _ => rfl) trivial
      · cases hsome
  | some archive =>
      obtain ⟨mgr, hopen, hlive⟩ := live_of_restore hcounted hrun (Option.some_ne_none archive)
      -- the opened directory is the one that the store has now
      have hshows : ∀ versions : Bytes → Option EValue,
          Shows cfg env.now ending.left (fun key => (versions key).filter (EValue.isLive env.now)) ↔
            ∀ t key, env.now ≤ t →
              e'.storage.live t key = (versions key).filter (EValue.isLive t) := by
        intro versions
        have hlater := @live_later_iff env.now versions mgr.get
        simp only [hlive, SSTableManager.visibleAt]
        rw [hlater, Shows]
        constructor
        · exact fun h => h mgr hopen
        · intro h mgr' hopen'
          rw [hopen] at hopen'
          obtain rfl := Option.some.inj hopen'
          exact h
      -- and it shows a snapshot when the store holds the contents of that snapshot
      have hdir : ∀ dir : TableDir, Shows cfg env.now ending.left (dir.live env.now) ↔
          ∀ t key, env.now ≤ t → e'.storage.live t key = dir.live t key :=
        fun dir => hshows (SSTableManager.loadAll dir.tables).get
      rcases restore_cases hrun with ⟨hnone, -⟩ | ⟨_, _, _, -, -, -, -, -, -, -, hends⟩
      · cases hnone
      rcases hends with ⟨extracted, left, rfl, rfl, -⟩ | ⟨left, rfl, rfl⟩
      · -- the tool has returned, and so does the restore, whatever the tool says
        have hwhole : AllOrNothing env.now (some archive) e e' true ↔
            ∃ dir, archive = .whole dir ∧ Shows cfg env.now left (dir.live env.now) := by
          rw [AllOrNothing, if_pos rfl]
          refine exists_congr fun dir => and_congr (by simp) (hdir dir).symm
        rw [hwhole]
        cases extracted with
        | false => exact Iff.rfl
        | true =>
            -- what the tool has extracted is the directory of the archive
            obtain rfl := Option.some.inj (hfaithful.1 rfl)
            simp only [Archive.whole.injEq, exists_eq_left', RestoreMeets]
      · -- a step has thrown, and the directory is opened as it is
        rw [AllOrNothing, if_neg Bool.false_ne_true]
        exact (hshows e.storage.newestOf).symm

/-- The store that the constructor leaves in an empty directory. -/
def fresh (cfg : StorageConfig) (env : Env) : Engine :=
  ⟨Storage.openEmpty cfg env, none, false, [], ∅⟩

theorem opening_empty (cfg : StorageConfig) (env : Env) (hfuel : 0 < cfg.mergeFuel) :
    opening cfg env Storage.noFloats (fun _ => none) ⟨[], none, none⟩ ∅ ∅ =
      some (fresh cfg env) := by
  obtain ⟨fuel, hsucc⟩ := Nat.exists_eq_succ_of_ne_zero (Nat.ne_of_gt hfuel)
  have hopen : SSTableManager.openDirectory cfg.sstable env.now cfg.mergeFuel ⟨[], none, none⟩ =
      some SSTableManager.empty := by
    rw [SSTableManager.openDirectory, if_neg (by simp), hsucc]
    rfl
  simp only [opening, hopen, Option.bind_eq_bind, Option.bind_some, Storage.restart_empty]
  rfl

theorem opened_fresh (cfg : StorageConfig) (env : Env) (hfuel : 0 < cfg.mergeFuel) :
    Opened cfg (fresh cfg env) :=
  ⟨env, Storage.noFloats, fun _ => none, ⟨[], none, none⟩, ∅, ∅, opening_empty cfg env hfuel⟩

theorem reachable_fresh (cfg : StorageConfig) (env : Env) (hfuel : 0 < cfg.mergeFuel) :
    Reachable cfg (fresh cfg env) :=
  ⟨_, [], opened_fresh cfg env hfuel, Run.nil⟩

open Storage (roomyConfig tick)

/-- A snapshot with a value of the key 1. -/
def oneKey : TableDir :=
  ⟨[⟨(∅ : StrMap EValue).insert [1] { value := .string [7] }, 0, 0, 1, by decide⟩],
    some .sizeTieredCompaction, none⟩

/-- A restore on a machine without `tar`: the directory stays empty. -/
theorem restore_without_tar :
    ((fresh roomyConfig (tick 0)).restoreFromCheckpoint roomyConfig (tick 1)
      (some (.whole oneKey)) (.finished false ⟨[], none, none⟩) []).map
        (fun r => (r.1, r.2.1, r.2.2.storage.live 0 [1])) = some (true, [], none) ∧
      oneKey.live 0 [1] ≠ none := by
  decide

theorem restore_not_allOrNothing :
    ¬ ∀ (cfg : StorageConfig) (env : Env) (e e' : Engine) (file : Option Archive)
      (ending : Ending) (out out' : Bytes) (ok : Bool), Reachable cfg e → ending.Faithful file →
        e.restoreFromCheckpoint cfg env file ending out = some (ok, out', e') →
          AllOrNothing env.now file e e' ok := by
  intro h
  obtain ⟨hrun, hkey⟩ := restore_without_tar
  obtain ⟨⟨ok, out', e'⟩, hrestore, hresult⟩ := Option.map_eq_some_iff.1 hrun
  simp only [Prod.mk.injEq] at hresult
  obtain ⟨rfl, rfl, hlost⟩ := hresult
  have hfaithful : (Ending.finished false ⟨[], none, none⟩).Faithful (some (.whole oneKey)) := by
    simp [Ending.Faithful, oneKey]
  obtain ⟨dir, hdir, hlive⟩ := h _ _ _ _ _ _ _ _ _
    (reachable_fresh roomyConfig (tick 0) (by decide)) hfaithful hrestore
  obtain rfl := Archive.whole.inj (Option.some.inj hdir)
  rw [hlive 0 [1] (Nat.zero_le _)] at hlost
  exact hkey hlost

/-- A restore that succeeds, on an empty store. -/
theorem restore_allOrNothing_oneKey : ∃ e',
    (fresh roomyConfig (tick 0)).restoreFromCheckpoint roomyConfig (tick 1)
      (some (.whole oneKey)) (.finished true oneKey) [] = some (true, [], e') ∧
    AllOrNothing (tick 1).now (some (.whole oneKey)) (fresh roomyConfig (tick 0)) e' true := by
  have hrun : ((fresh roomyConfig (tick 0)).restoreFromCheckpoint roomyConfig (tick 1)
      (some (.whole oneKey)) (.finished true oneKey) []).map (fun r => (r.1, r.2.1)) =
        some (true, []) := by decide
  obtain ⟨⟨ok, out', e'⟩, hrestore, hresult⟩ := Option.map_eq_some_iff.1 hrun
  simp only [Prod.mk.injEq] at hresult
  obtain ⟨rfl, rfl⟩ := hresult
  have hfaithful : (Ending.finished true oneKey).Faithful (some (.whole oneKey)) :=
    iff_of_true rfl rfl
  refine ⟨e', hrestore, (restore_allOrNothing_iff
    (reachable_fresh roomyConfig (tick 0) (by decide)) hfaithful hrestore).2 ?_⟩
  exact shows_of_strategy rfl _

end AllOrNothing

end Engine

end EyaKV.Store
