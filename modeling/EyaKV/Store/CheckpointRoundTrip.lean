import EyaKV.Store.SnapshotCache

/-!
# From a checkpoint to another store

What a checkpoint returns is the name of an archive. It was written by this call, or it is the
cached snapshot; in both cases it has the contents that the store has at the call, when the run has
met its conditions (`archive_of_checkpoint`). A restore puts them in the place of everything that
the other store holds; whether it stays there after the next start is a question of the log files
that the restore leaves (`restored_reopens`).
-/

set_option autoImplicit false

namespace EyaKV.Store

open EyaKV.Base EyaKV.Base.Layers EyaKV.Base.Framing

namespace Engine

/-- The next start of a store, on the files that this one has. -/
def reopen (cfg : StorageConfig) (env : Env) (F : FloatOps) (toZset : Decoder UInt8 ZSet)
    (e : Engine) : Option Engine :=
  opening cfg env F toZset (e.tableDir cfg) e.storage.wal.files e.snapshots

/-- The contents of the store are the versions that are live in `e`, from the second `now` on. -/
def Holding (now : Nat) (e restored : Engine) : Prop :=
  ∀ t key, now ≤ t → restored.storage.live t key = e.storage.live t key

/-- What a round trip is: the restored store holds what the other one held, no more and no less,
and does so after every later start; and the metadata are those of the call that has written the
archive. -/
structure RoundTrip (cfgA cfgB : StorageConfig) (now : Nat) (start : Engine)
    (trace : List (Env × EngineStep)) (e restored : Engine) (path out : Bytes) : Prop where
  live : Holding now e restored
  reopened : ∀ env F toZset, ∃ again, restored.reopen cfgB env F toZset = some again ∧
    Holding now e again
  metadata : BuiltIn cfgA start path trace out

/-- The conditions of the checkpoint. It is served from the cache; or the tool does not leave a bad
file, the merges of the flush are safe, and without metadata there are none that have been left
over. -/
def CheckpointMeets (cfg : StorageConfig) (env : Env) (e : Engine) (extraMetaData : Bytes)
    (packing : Packing) (out : Bytes) : Prop :=
  e.Serves extraMetaData ∨ (∀ left, packing ≠ .failed (some left)) ∧
    Storage.SettleSafe cfg env e.storage ∧ (extraMetaData = [] → e.extraMeta.getD out = [])

/-- The conditions of the restore. The extraction succeeds, the opening of the tables shows what
they hold, and every log file with a record is the one of a memtable with entries. -/
def RestoringMeets (cfg : StorageConfig) (env : Env) (b : Engine) : Ending → Prop
  | .finished extracted left => extracted = true ∧
      Shows cfg env.now left (left.live env.now) ∧ Storage.Backed cfg b.storage
  | .failed _ => True

section Archives

variable {cfg : StorageConfig} {env : Env} {start e e' : Engine}
  {trace : List (Env × EngineStep)} {extraMetaData out path : Bytes} {packing : Packing}

/-- **What a checkpoint returns** is an archive of the contents that the store has at the call. -/
theorem archive_of_checkpoint (h : Holds cfg start trace e) (hrun : Run cfg start trace e)
    (hmeets : CheckpointMeets cfg env e extraMetaData packing out)
    (hstep : e.createCheckpoint cfg env extraMetaData packing = some (e', some path))
    {archive : Archive} (harchive : e'.snapshots[path]? = some archive) :
    ∃ dir, archive = .whole dir ∧ dir.Distinct ∧
      (∀ t key, env.now ≤ t → dir.live t key = e.storage.live t key) ∧
      BuiltIn cfg start path (trace ++ [(env, .createCheckpoint extraMetaData packing)])
        (dir.extraMeta.getD out) := by
  rcases createCheckpoint_cases hstep with
    ⟨hserves, rfl, hpath⟩ | ⟨hserves, ⟨-, hnone, -⟩ | ⟨hthrew, hpath, hwritten⟩⟩
  · obtain rfl := Option.some.inj hpath
    -- the cached archive was written for the contents that the store still has
    obtain ⟨dir, metadata, hwhole, hdistinct, hmeta, hsame, hbuilt⟩ :=
      (h.cache hserves.2.1 hserves.2.2).archive archive harchive
    refine ⟨dir, hwhole, hdistinct, fun t key _ => hsame t key, ?_⟩
    rw [hmeta]
    exact BuiltIn.later env _ hrun hbuilt fun hbuilds => hbuilds.1 hserves
  · cases hnone
  · obtain rfl := Option.some.inj hpath
    -- a new archive: the store is settled first, and the files are packed after it
    obtain ⟨hpacking, hsafe, hmeta⟩ := hmeets.resolve_left hserves
    obtain ⟨hdrained, -, -⟩ := Storage.drained_of_settle h.counted hwritten.settled
    have hst := Storage.stored_of_settle h.counted h.stored hwritten.settled
    have hkept := Storage.kept_of_settle h.counted h.named h.wellFormed hsafe hwritten.settled
    rw [hwritten.file] at harchive
    cases packing with
    | threw => exact absurd rfl hthrew
    | failed left =>
        cases left with
        | none => cases harchive
        | some left => exact absurd rfl (hpacking left)
    | done =>
        obtain rfl := Option.some.inj harchive
        refine ⟨_, rfl, SSTableManager.distinct_files hst, fun t key hle => ?_, ?_⟩
        · calc (SSTableManager.loadAll e'.storage.sstableManager.files).visibleAt t key
              = e'.storage.sstableManager.visibleAt t key :=
                congrFun (SSTableManager.visibleAt_loadAll_files hst t) key
            _ = e'.storage.live t key := (Storage.live_of_drained hdrained t key).symm
            _ = e.storage.live t key := live_later_iff.2 (fun key => hkept.live key) t key hle
        · have hbuilt : BuiltIn cfg start (checkpointPath env)
              (trace ++ [(env, .createCheckpoint extraMetaData .done)]) extraMetaData :=
            BuiltIn.here env extraMetaData .done hrun ⟨hserves, e', hstep⟩
          by_cases hnil : extraMetaData = []
          · rw [if_pos hnil, hmeta hnil]
            rw [hnil] at hbuilt ⊢
            exact hbuilt
          · rw [if_neg hnil]
            exact hbuilt

end Archives

section Restoring

variable {cfg : StorageConfig} {env : Env} {b b' : Engine} {file : Option Archive}
  {left : TableDir} {extracted ok : Bool} {out out' : Bytes}

/-- After a restore that leaves no record in the log, every later start gives the same contents. -/
theorem restored_reopens (hcounted : b.storage.Counted) (hdistinct : left.Distinct)
    (hbacked : Storage.Backed cfg b.storage) (hfile : file ≠ none)
    (hrun : b.restoreFromCheckpoint cfg env file (.finished extracted left) out =
      some (ok, out', b')) (env' : Env) (F : FloatOps) (toZset : Decoder UInt8 ZSet) :
    ∃ again, b'.reopen cfg env' F toZset = some again ∧
      ∀ t key, again.storage.live t key = b'.storage.live t key := by
  rcases restore_cases hrun with ⟨hnone, -⟩ | ⟨_, st, mgr, -, hsettle, hopen, hstorage, -⟩
  · exact absurd hnone hfile
  · obtain ⟨hdrained, -, -⟩ := Storage.drained_of_settle hcounted hsettle
    have hunlogged := Storage.unlogged_of_settle hcounted hbacked hsettle
    have hst := SSTableManager.stored_openDirectory hdistinct hopen
    obtain ⟨st', hrestart, hnewest⟩ := Storage.restart_unlogged cfg env' F toZset
      (SSTableManager.loadAll mgr.files) hunlogged
    have hopen' : SSTableManager.openDirectory cfg.sstable env'.now cfg.mergeFuel
        (b'.tableDir cfg) = some (SSTableManager.loadAll mgr.files) := by
      rw [SSTableManager.openDirectory]
      refine (if_pos rfl).trans ?_
      rw [tableDir, hstorage]
    refine ⟨⟨st', b'.extraMeta, false, [], b'.snapshots⟩, ?_, fun t key => ?_⟩
    · rw [reopen, opening, hopen', hstorage, Option.bind_eq_bind, Option.bind_some, hrestart]
      rfl
    · have hdrained' : b'.storage.Drained := by
        rw [hstorage]
        exact ⟨hdrained.memtable, hdrained.immutables⟩
      rw [Storage.live_of_drained hdrained', hstorage, Storage.live, hnewest]
      exact congrFun (SSTableManager.visibleAt_loadAll_files hst t) key

end Restoring

section RoundTrips

variable {cfgA cfgB : StorageConfig} {envA envB : Env} {start e eA b b' : Engine}
  {trace : List (Env × EngineStep)} {extraMetaData path out out' : Bytes} {packing : Packing}
  {ending : Ending}

/-- **The round trip**, along every run that meets its conditions. -/
theorem checkpoint_roundTrip (hstart : OpenedMeets cfgA start) (hrun : RunMeets cfgA start trace e)
    (hmeets : CheckpointMeets cfgA envA e extraMetaData packing out)
    (hcheckpoint : e.createCheckpoint cfgA envA extraMetaData packing = some (eA, some path))
    (hreachable : Reachable cfgB b) (hfaithful : ending.Faithful eA.snapshots[path]?)
    (hrestoring : RestoringMeets cfgB envB b ending)
    (hrestore : b.restoreFromCheckpoint cfgB envB eA.snapshots[path]? ending out =
      some (true, out', b')) :
    RoundTrip cfgA cfgB (max envA.now envB.now) start
      (trace ++ [(envA, .createCheckpoint extraMetaData packing)]) e b' path out' := by
  have hcounted := counted_of_reachable hreachable
  rcases restore_cases hrestore with
    ⟨-, hfalse, -⟩ | ⟨archive, _, _, hfile, -, -, -, -, -, -, hends⟩
  · cases hfalse
  rcases hends with ⟨extracted, left, rfl, -, hout⟩ | ⟨_, -, hfalse⟩
  · obtain ⟨rfl, hshows, hbacked⟩ := hrestoring
    -- what has been extracted is the directory of the archive
    obtain ⟨dir, hwhole, hdistinct, hlive, hbuilt⟩ := archive_of_checkpoint (holds_run hstart hrun)
      hrun.run hmeets hcheckpoint hfile
    rw [hfile, hwhole] at hfaithful
    obtain rfl := Archive.whole.inj (Option.some.inj (hfaithful.1 rfl))
    have hsome : eA.snapshots[path]? ≠ none := by
      rw [hfile]
      exact Option.some_ne_none archive
    have hholding : Holding (max envA.now envB.now) e b' := by
      intro t key hle
      obtain ⟨mgr, hopen, hrestored⟩ := live_of_restore hcounted hrestore hsome
      calc b'.storage.live t key = mgr.visibleAt t key := hrestored t key
        _ = dir.live t key :=
          live_later_iff.2 (hshows mgr hopen) t key (Nat.le_trans (Nat.le_max_right _ _) hle)
        _ = e.storage.live t key := hlive t key (Nat.le_trans (Nat.le_max_left _ _) hle)
    refine ⟨hholding, fun env F toZset => ?_, ?_⟩
    · obtain ⟨again, hreopen, hsame⟩ :=
        restored_reopens hcounted hdistinct hbacked hsome hrestore env F toZset
      refine ⟨again, hreopen, fun t key hle => ?_⟩
      rw [hsame]
      exact hholding t key hle
    · rw [hout]
      exact hbuilt
  · cases hfalse

open Storage (roomyConfig tick)

/-- The snapshot of an empty store. -/
def emptyDir : TableDir := ⟨[], some .sizeTieredCompaction, some (ascii "m")⟩

/-- An empty store with a cached snapshot. -/
def cachedEmpty : Engine :=
  { fresh roomyConfig (tick 0) with
    snapshotCacheValid := true
    snapshotCachePath := checkpointPath (tick 1)
    snapshots := (∅ : StrMap Archive).insert (checkpointPath (tick 1)) (.whole emptyDir) }

/-- The same store, after a restore of a snapshot with one key. -/
def cachedOneKey : Engine :=
  { cachedEmpty with
    storage := { Storage.openEmpty roomyConfig (tick 0) with
      sstableManager := SSTableManager.loadAll oneKey.tables } }

theorem empty_openEmpty : (Storage.openEmpty roomyConfig (tick 0)).memtable.size = 0 ∧
    (Storage.openEmpty roomyConfig (tick 0)).immutableMemtables.toList = [] := by
  decide

theorem settle_openEmpty (env : Env) :
    Storage.settle roomyConfig env (Storage.openEmpty roomyConfig (tick 0)) =
      some (Storage.openEmpty roomyConfig (tick 0)) :=
  if_pos empty_openEmpty

theorem checkpoint_fresh :
    (fresh roomyConfig (tick 0)).createCheckpoint roomyConfig (tick 1) (ascii "m") .done =
      some (cachedEmpty, some (checkpointPath (tick 1))) := by
  rw [createCheckpoint, if_neg (fun h => Bool.false_ne_true h.2.1)]
  show (Storage.settle roomyConfig (tick 1) (Storage.openEmpty roomyConfig (tick 0))).bind _ = _
  rw [settle_openEmpty]
  rfl

theorem snapshot_cachedEmpty :
    cachedEmpty.snapshots[checkpointPath (tick 1)]? = some (.whole emptyDir) :=
  Std.ExtTreeMap.getElem?_insert_self

theorem restore_fresh : (fresh roomyConfig (tick 0)).restoreFromCheckpoint roomyConfig (tick 4)
    (some (.whole emptyDir)) (.finished true emptyDir) [] =
      some (true, ascii "m", { fresh roomyConfig (tick 0) with
        storage := { Storage.openEmpty roomyConfig (tick 0) with
          sstableManager := SSTableManager.loadAll [] } }) := by
  rw [restoreFromCheckpoint, fresh, settle_openEmpty]
  rfl

/-- The store takes a snapshot, restores another one, and serves the first one again. -/
theorem checkpoint_not_roundTrip :
    ¬ ∀ (cfgA cfgB : StorageConfig) (envA envB : Env) (start e eA b b' : Engine)
      (trace : List (Env × EngineStep)) (extraMetaData path out out' : Bytes) (ending : Ending),
        Opened cfgA start → Run cfgA start trace e →
        e.createCheckpoint cfgA envA extraMetaData .done = some (eA, some path) →
        Reachable cfgB b → ending.Faithful eA.snapshots[path]? →
        b.restoreFromCheckpoint cfgB envB eA.snapshots[path]? ending out = some (true, out', b') →
          RoundTrip cfgA cfgB (max envA.now envB.now) start
            (trace ++ [(envA, .createCheckpoint extraMetaData .done)]) e b' path out' := by
  intro h
  have hrun : Run roomyConfig (fresh roomyConfig (tick 0))
      ([] ++ [(tick 1, .createCheckpoint (ascii "m") .done)] ++
        [(tick 2, .restoreFromCheckpoint (some (.whole oneKey)) (.finished true oneKey) [])])
      cachedOneKey := by
    have hfirst : (fresh roomyConfig (tick 0)).step roomyConfig (tick 1)
        (.createCheckpoint (ascii "m") .done) = some cachedEmpty :=
      congrArg (Option.map Prod.fst) checkpoint_fresh
    apply Run.snoc _ _ (Run.snoc _ _ Run.nil hfirst)
    rw [step, restoreFromCheckpoint]
    show Option.map _ ((Storage.settle roomyConfig (tick 2)
      (Storage.openEmpty roomyConfig (tick 0))).bind _) = _
    rw [settle_openEmpty]
    rfl
  have hserved : cachedOneKey.createCheckpoint roomyConfig (tick 3) (ascii "m") .done =
      some (cachedOneKey, some (checkpointPath (tick 1))) :=
    if_pos ⟨by decide, rfl, by decide⟩
  have hfile : cachedOneKey.snapshots[checkpointPath (tick 1)]? = some (.whole emptyDir) :=
    snapshot_cachedEmpty
  have hfaithful : (Ending.finished true emptyDir).Faithful
      cachedOneKey.snapshots[checkpointPath (tick 1)]? := iff_of_true rfl hfile
  have hfuel : 0 < roomyConfig.mergeFuel := by decide
  have hround := h roomyConfig roomyConfig (tick 3) (tick 4) _ _ _ _ _ _ _ _ [] _ _
    (opened_fresh roomyConfig (tick 0) hfuel) hrun hserved
    (reachable_fresh roomyConfig (tick 0) hfuel) hfaithful (by rw [hfile]; exact restore_fresh)
  have hlive := hround.live (max (tick 3).now (tick 4).now) [1] (Nat.le_refl _)
  have hkey : cachedOneKey.storage.live 0 [1] ≠ none := by decide
  exact hkey (hlive.symm.trans (by decide))

/-- `SET` of a key. -/
def setOf (key value : Bytes) : EngineStep :=
  .execute Storage.noLibrary .string false false 6 [key, value]

/-- The store after a `SET`. -/
def afterSet (n : Nat) (key value : Bytes) (e : Engine) : Engine :=
  (e.execute roomyConfig (tick n) Storage.noLibrary .string false false 6 [key, value]).1

/-- A store with the key `k` in its memtable. -/
def oneStored : Engine := afterSet 1 (ascii "k") (ascii "v") (fresh roomyConfig (tick 0))

theorem checkpoint_oneStored :
    (oneStored.createCheckpoint roomyConfig (tick 2) [] .done).isSome = true := by decide

/-- The store after a checkpoint without metadata, with `k` in a table, and with the key `l` in the
memtable. -/
def twoStored : Engine := afterSet 3 (ascii "l") (ascii "w")
  ((oneStored.createCheckpoint roomyConfig (tick 2) [] .done).get checkpoint_oneStored).1

theorem checkpoint_twoStored :
    (twoStored.createCheckpoint roomyConfig (tick 4) (ascii "m") .done).isSome = true := by decide

/-- Another store, with the keys `k` and `j`. -/
def otherStored : Engine :=
  afterSet 2 (ascii "j") (ascii "x") (afterSet 1 (ascii "k") (ascii "y") (fresh roomyConfig (tick 0)))

/-- What has been done in the store. -/
def twoStoredTrace : List (Env × EngineStep) :=
  [] ++ [(tick 1, setOf (ascii "k") (ascii "v"))] ++ [(tick 2, .createCheckpoint [] .done)] ++
    [(tick 3, setOf (ascii "l") (ascii "w"))]

theorem runMeets_twoStored :
    RunMeets roomyConfig (fresh roomyConfig (tick 0)) twoStoredTrace twoStored := by
  have hfirst : RunMeets roomyConfig (fresh roomyConfig (tick 0))
      ([] ++ [(tick 1, setOf (ascii "k") (ascii "v"))]) oneStored :=
    RunMeets.nil.snoc (tick 1) (setOf (ascii "k") (ascii "v"))
      (show Storage.FreshName roomyConfig (tick 1) (fresh roomyConfig (tick 0)).storage by decide)
      rfl
  have huncached : oneStored.snapshotCacheValid = false := by decide
  apply (hfirst.snoc (tick 2) (.createCheckpoint [] .done) _ _).snoc (tick 3) (setOf _ _) _ rfl
  · exact Or.inr ⟨fun left h => (by cases h), fun _ h => absurd (huncached.symm.trans h) (by decide)⟩
  · exact congrArg (Option.map Prod.fst) (Option.some_get checkpoint_oneStored).symm
  · show Storage.FreshName roomyConfig (tick 3) _
    decide

/-- Every record of the other store is in the file of its memtable. -/
theorem backed_otherStored : Storage.Backed roomyConfig otherStored.storage := by
  have hone : otherStored.storage.wal.files.toList.map Prod.fst =
      [otherStored.storage.currentWalFilename] := by decide
  have hsize : 0 < otherStored.storage.memtable.size := by decide
  intro name content hfile
  have hname : name ∈ otherStored.storage.wal.files.toList.map Prod.fst :=
    List.mem_map.2 ⟨_, Std.ExtTreeMap.mem_toList_iff_getElem?_eq_some.2 hfile, rfl⟩
  rw [hone] at hname
  exact Or.inr ⟨rfl, Or.inl ⟨List.mem_singleton.1 hname, hsize⟩⟩

/-- A store with one key in a table and one in its memtable, restored in a store with other keys:
both keys are there, and the key that only the other store had is gone. -/
theorem checkpoint_roundTrip_twoStored : ∃ b', RoundTrip roomyConfig roomyConfig
    (max (tick 4).now (tick 5).now) (fresh roomyConfig (tick 0))
    (twoStoredTrace ++ [(tick 4, .createCheckpoint (ascii "m") .done)]) twoStored b'
    (checkpointPath (tick 4)) (ascii "m") ∧
    otherStored.storage.live 1 (ascii "j") ≠ none ∧
    b'.storage.live 1 (ascii "k") = some { value := .string (ascii "v") } ∧
    b'.storage.live 1 (ascii "l") = some { value := .string (ascii "w") } ∧
    b'.storage.live 1 (ascii "j") = none := by
  have hfuel : 0 < roomyConfig.mergeFuel := by decide
  have hmetadata : ascii "m" ≠ [] := by decide
  have huncached : twoStored.snapshotCacheValid = false := by decide
  have hserves : ¬ twoStored.Serves (ascii "m") :=
    fun h => Bool.false_ne_true (huncached.symm.trans h.2.1)
  have hmanager : (Storage.openEmpty roomyConfig (tick 0)).sstableManager =
      SSTableManager.empty := by
    rw [Storage.openEmpty]
    split <;> rfl
  have hopened : OpenedMeets roomyConfig (fresh roomyConfig (tick 0)) := by
    refine ⟨tick 0, _, _, _, _, _, opening_empty roomyConfig (tick 0) hfuel, List.Pairwise.nil,
      fun name h => absurd h Std.ExtTreeMap.not_mem_empty, ?_⟩
    rw [fresh, hmanager]
    exact SSTableManager.wellFormed_empty _
  have hcounted : twoStored.storage.Counted :=
    counted_run (counted_opened (opened_fresh roomyConfig (tick 0) hfuel)) runMeets_twoStored.run
  have hmeets : CheckpointMeets roomyConfig (tick 4) twoStored (ascii "m") .done [] := by
    refine Or.inr ⟨fun left h => (by cases h), ?_, fun h => absurd h hmetadata⟩
    exact Storage.settleSafe_of_idle hcounted (by decide) (by decide)
  obtain ⟨⟨eA, path⟩, hcheckpoint⟩ := Option.isSome_iff_exists.1 checkpoint_twoStored
  rcases createCheckpoint_cases hcheckpoint with
    ⟨hs, -⟩ | ⟨-, ⟨hthrew, -⟩ | ⟨-, rfl, hwritten⟩⟩
  · exact absurd hs hserves
  · cases hthrew
  -- the archive has the directory that the checkpoint has packed
  generalize hdir : (⟨eA.storage.sstableManager.files, some roomyConfig.sstable.mergeStrategy,
    if ascii "m" = [] then twoStored.extraMeta else some (ascii "m")⟩ : TableDir) = dir at hwritten
  have hfile : eA.snapshots[checkpointPath (tick 4)]? = some (.whole dir) := hdir ▸ hwritten.file
  have hstrategy : dir.smeta = some roomyConfig.sstable.mergeStrategy := by rw [← hdir]
  have hextra : dir.extraMeta = some (ascii "m") := by
    rw [← hdir]
    simp only [hmetadata, if_false]
  obtain ⟨st, hsettle⟩ := Option.isSome_iff_exists.1
    (show (Storage.settle roomyConfig (tick 5) otherStored.storage).isSome = true by decide)
  have hrestore : otherStored.restoreFromCheckpoint roomyConfig (tick 5)
      eA.snapshots[checkpointPath (tick 4)]? (.finished true dir) [] =
        some (true, ascii "m", { otherStored with
          storage := { st with sstableManager := SSTableManager.loadAll dir.tables }
          extraMeta := none }) := by
    simp only [hfile, restoreFromCheckpoint, hsettle, SSTableManager.openDirectory, Ending.left,
      hstrategy, hextra, ↓reduceIte, Option.bind_eq_bind, Option.bind_some, Option.pure_def,
      Option.getD_some]
  have hreachable : Reachable roomyConfig otherStored :=
    ⟨_, _, opened_fresh roomyConfig (tick 0) hfuel,
      (Run.nil.snoc (tick 1) (setOf (ascii "k") (ascii "y")) rfl).snoc (tick 2)
        (setOf (ascii "j") (ascii "x")) rfl⟩
  have hround := checkpoint_roundTrip hopened runMeets_twoStored hmeets hcheckpoint hreachable
    (show (Ending.finished true dir).Faithful _ from iff_of_true rfl hfile)
    ⟨rfl, shows_of_strategy hstrategy _, backed_otherStored⟩ hrestore
  have hlater : max (tick 4).now (tick 5).now ≤ 1 := by decide
  have hother : otherStored.storage.live 1 (ascii "j") ≠ none := by decide
  refine ⟨_, hround, hother, ?_, ?_, ?_⟩
  · exact (hround.live 1 (ascii "k") hlater).trans (by decide)
  · exact (hround.live 1 (ascii "l") hlater).trans (by decide)
  · exact (hround.live 1 (ascii "j") hlater).trans (by decide)

end RoundTrips

end Engine

end EyaKV.Store
