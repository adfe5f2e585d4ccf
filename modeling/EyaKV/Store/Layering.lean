import EyaKV.Store.Compaction
import EyaKV.Store.Storage

/-!
# The store as layers

A key's version is looked up in the memtable, the immutable memtables from the
newest name down, and the SSTables (`layers`). Apart from the early exits of `get`,
`newestOf` is what every operation acts on: a put sets the newest version of its key
(`newestOf_put`), a rotation to a later file name changes none (`newestOf_rotate`),
and neither does a flush that triggers no merge (`newestOf_flush`).

`Inv` is kept by every operation: the memtables are normal, the current file name is
above the names of the immutable memtables, and its log file is open. Each operation
has a lemma that lists all it can do (`writeMemtable_cases`, `setKeyExpire_cases`).
-/

set_option autoImplicit false

namespace EyaKV.Store

open EyaKV.Base EyaKV.Base.Layers

namespace Storage

variable {cfg : StorageConfig} {env : Env} {st : Storage} {key : Bytes} {value : EValue}

section LayerList

/-- The lookups below the memtable, newest first. -/
def olderLayers (st : Storage) : List (Bytes → Option EValue) :=
  st.immutableMemtables.toList.reverse.map (fun e => e.2.get) ++
    st.sstableManager.layersFrom 0 (st.sstableManager.maxLevel + 1)

/-- The lookups of the store, newest first. -/
def layers (st : Storage) : List (Bytes → Option EValue) := st.memtable.get :: st.olderLayers

/-- The newest version of each key. -/
def newestOf (st : Storage) (key : Bytes) : Option EValue := newest st.layers key

theorem newestOf_eq (st : Storage) (key : Bytes) :
    st.newestOf key = (st.memtable.get key).or (newest st.olderLayers key) :=
  newest_cons _ _ _

theorem newest_olderLayers (st : Storage) (key : Bytes) :
    newest st.olderLayers key =
      (st.getFromImmutableMemtables key).or (st.sstableManager.get key) := by
  rw [olderLayers, newest_append, SSTableManager.get_eq_newest, newest, List.findSome?_map]
  rfl

theorem isLive_eq_ite (now : Nat) (v : EValue) :
    (if v.isExpired now || v.isDeleted then none else some v) =
      (some v).filter (EValue.isLive now) := by
  rw [Option.filter_some, EValue.isLive]
  cases v.isExpired now <;> cases v.isDeleted <;> rfl

/-- `get_from_old` finds the visible version below the memtable. -/
theorem getFromOld_eq (now : Nat) (st : Storage) (key : Bytes) :
    st.getFromOld now key = visible (EValue.isLive now) st.olderLayers key := by
  rw [visible, newest_olderLayers, getFromOld]
  cases st.getFromImmutableMemtables key with
  | some v => exact isLive_eq_ite now v
  | none =>
      rw [Option.none_or]
      cases st.sstableManager.get key with
      | some v => exact isLive_eq_ite now v
      | none => rfl

theorem getFromLatest_eq (now : Nat) (st : Storage) (key : Bytes) :
    st.getFromLatest now key = (st.memtable.get key).filter (EValue.isLive now) := by
  rw [getFromLatest]
  cases st.memtable.get key with
  | some v => exact isLive_eq_ite now v
  | none => rfl

/-- `get` returns the live version of the memtable, or else the visible version
below it. -/
theorem get_eq (now : Nat) (st : Storage) (key : Bytes) :
    st.get now key = (((st.memtable.get key).filter (EValue.isLive now)).or
      (visible (EValue.isLive now) st.olderLayers key)).map EValue.value := by
  rw [get, getFromLatest_eq, getFromOld_eq]
  cases (st.memtable.get key).filter (EValue.isLive now) with
  | some v => rfl
  | none =>
      cases visible (EValue.isLive now) st.olderLayers key with
      | some v => rfl
      | none => rfl

end LayerList

/-- The invariant of the store. -/
structure Inv (cfg : StorageConfig) (st : Storage) : Prop where
  memtable : st.memtable.Normal
  immutables : ∀ (name : Bytes) (imm : MemTable),
    st.immutableMemtables[name]? = some imm → imm.Normal
  names : ∀ (name : Bytes) (imm : MemTable),
    st.immutableMemtables[name]? = some imm → compare name st.currentWalFilename = .lt
  walOpen : cfg.enableWal = true → st.wal.walFile = some st.currentWalFilename

/-- The counters of all memtables are right, also where callbacks have thrown. -/
structure Counted (st : Storage) : Prop where
  memtable : st.memtable.Counted
  immutables : ∀ (name : Bytes) (imm : MemTable),
    st.immutableMemtables[name]? = some imm → imm.Counted

theorem Inv.counted (hinv : Inv cfg st) : st.Counted :=
  ⟨hinv.memtable.counted, fun name imm h => (hinv.immutables name imm h).counted⟩

section Rotation

/-- The name that a rotation takes now is above the current one. -/
def FreshName (cfg : StorageConfig) (env : Env) (st : Storage) : Prop :=
  compare st.currentWalFilename (newFilename cfg env) = .lt

instance (cfg : StorageConfig) (env : Env) (st : Storage) : Decidable (FreshName cfg env st) :=
  inferInstanceAs (Decidable (_ = _))

theorem inv_rotate (hinv : Inv cfg st) (hname : FreshName cfg env st) :
    Inv cfg (rotateMemtable cfg env st) := by
  have hcases : ∀ (name : Bytes) (imm : MemTable),
      (st.immutableMemtables.insert st.currentWalFilename st.memtable)[name]? = some imm →
        (st.currentWalFilename = name ∧ imm = st.memtable) ∨
          st.immutableMemtables[name]? = some imm := by
    intro name imm h
    rw [Std.ExtTreeMap.getElem?_insert] at h
    split at h
    · next heq =>
        exact Or.inl ⟨Std.LawfulEqCmp.compare_eq_iff_eq.1 heq, (Option.some.inj h).symm⟩
    · exact Or.inr h
  refine ⟨MemTable.normal_new _, fun name imm h => ?_, fun name imm h => ?_, fun hwal => ?_⟩
  · rcases hcases name imm h with ⟨-, rfl⟩ | h
    · exact hinv.memtable
    · exact hinv.immutables name imm h
  · rcases hcases name imm h with ⟨rfl, -⟩ | h
    · exact hname
    · exact Std.TransCmp.lt_trans (hinv.names name imm h) hname
  · simp only [rotateMemtable, hwal, ↓reduceIte]
    rfl

/-- A memtable that is put among the immutable ones, under a name above theirs, becomes the
first of their layers. -/
theorem olderLayers_of_insert {st' : Storage}
    (hnames : ∀ (name : Bytes) (imm : MemTable), st.immutableMemtables[name]? = some imm →
      compare name st.currentWalFilename = .lt)
    (himm : st'.immutableMemtables =
      st.immutableMemtables.insert st.currentWalFilename st.memtable)
    (hsst : st'.sstableManager = st.sstableManager) : st'.olderLayers = st.layers := by
  have habove : ∀ e ∈ st.immutableMemtables.toList,
      compare e.1 st.currentWalFilename = .lt := fun e he =>
    hnames e.1 e.2 (Std.ExtTreeMap.mem_toList_iff_getElem?_eq_some.1 he)
  simp only [olderLayers, layers, himm, hsst, OrderedMap.toList_insert_above _ _ _ habove,
    List.reverse_append, List.reverse_singleton, List.cons_append, List.nil_append,
    List.map_cons]

/-- The rotated memtable becomes the first immutable layer. -/
theorem olderLayers_rotate (hinv : Inv cfg st) :
    (rotateMemtable cfg env st).olderLayers = st.layers :=
  olderLayers_of_insert hinv.names rfl rfl

theorem newestOf_rotate (hinv : Inv cfg st) :
    (rotateMemtable cfg env st).newestOf = st.newestOf := by
  funext key
  rw [newestOf_eq, olderLayers_rotate hinv]
  exact congrArg (fun o => Option.or o _) (MemTable.get_new _)

end Rotation

section Puts

theorem inv_put (hinv : Inv cfg st) :
    Inv cfg { st with memtable := st.memtable.insertNode key value } :=
  ⟨MemTable.normal_insertNode hinv.memtable, hinv.immutables, hinv.names, hinv.walOpen⟩

theorem newestOf_put (hnormal : st.memtable.Normal) :
    ({ st with memtable := st.memtable.insertNode key value } : Storage).newestOf =
      Function.update st.newestOf key (some value) := by
  funext key'
  rw [newestOf_eq, MemTable.get_insertNode hnormal, Function.update_apply, newestOf_eq]
  by_cases h : key = key'
  · subst h
    rw [if_pos rfl, if_pos rfl, Option.some_or]
  · rw [if_neg h, if_neg (Ne.symm h)]
    rfl

end Puts

section WritePath

/-- A put of the memtable throws now. -/
def Full (env : Env) (st : Storage) : Prop := st.memtable.shouldFlush env.usage = true

/-- The memtable reaches its limit by a put. -/
def Fills (env : Env) (st : Storage) (key : Bytes) (value : EValue) : Prop :=
  (st.memtable.insertNode key value).shouldFlush env.usage = true

instance (env : Env) (st : Storage) : Decidable (st.Full env) := inferInstanceAs (Decidable (_ = _))

instance (env : Env) (st : Storage) (key : Bytes) (value : EValue) :
    Decidable (st.Fills env key value) := inferInstanceAs (Decidable (_ = _))

/-- What `write_memtable` can do: put; put and rotate; rotate and put; or rotate and
throw, when a fresh memtable is over the limit too. -/
theorem writeMemtable_cases (cfg : StorageConfig) (env : Env) (st : Storage) (key : Bytes)
    (value : EValue) :
    (¬ st.Full env ∧ ¬ st.Fills env key value ∧ writeMemtable cfg env st key value =
      ({ st with memtable := st.memtable.insertNode key value }, .ok true)) ∨
    (¬ st.Full env ∧ st.Fills env key value ∧ writeMemtable cfg env st key value =
      (rotateMemtable cfg env { st with memtable := st.memtable.insertNode key value },
        .ok true)) ∨
    (st.Full env ∧ writeMemtable cfg env st key value =
      ({ rotateMemtable cfg env st with
        memtable := (rotateMemtable cfg env st).memtable.insertNode key value }, .ok true)) ∨
    (st.Full env ∧ ∃ e, writeMemtable cfg env st key value =
      (rotateMemtable cfg env st, .error e)) := by
  by_cases hfull : st.Full env
  · have hput := MemTable.put_of_shouldFlush key value hfull
    cases hfresh : (rotateMemtable cfg env st).memtable.shouldFlush env.usage with
    | false =>
        refine Or.inr (Or.inr (Or.inl ⟨hfull, ?_⟩))
        simp only [writeMemtable, hput, MemTable.put_of_not_shouldFlush key value hfresh]
    | true =>
        refine Or.inr (Or.inr (Or.inr ⟨hfull, .overflowError "MemTable size exceeds limit", ?_⟩))
        simp only [writeMemtable, hput, MemTable.put_of_shouldFlush key value hfresh]
  · have hput := MemTable.put_of_not_shouldFlush key value (Bool.eq_false_iff.2 hfull)
    by_cases hfills : st.Fills env key value
    · refine Or.inr (Or.inl ⟨hfull, hfills, ?_⟩)
      have h : (st.memtable.insertNode key value).shouldFlush env.usage = true := hfills
      simp only [writeMemtable, hput, h, ↓reduceIte]
    · refine Or.inl ⟨hfull, hfills, ?_⟩
      have h : (st.memtable.insertNode key value).shouldFlush env.usage = false :=
        Bool.eq_false_iff.2 hfills
      simp only [writeMemtable, hput, h, Bool.false_eq_true, ↓reduceIte]

/-- In a fresh memtable a put sets the newest version of its key as well. -/
theorem newestOf_put_rotate (hinv : Inv cfg st) :
    ({ rotateMemtable cfg env st with
      memtable := (rotateMemtable cfg env st).memtable.insertNode key value } : Storage).newestOf =
        Function.update st.newestOf key (some value) := by
  rw [newestOf_put (MemTable.normal_new _), newestOf_rotate hinv]

/-- An accepted write sets the newest version of its key; one that throws changes
nothing. The name of a new log file matters for later rotations only. -/
theorem writeMemtable_spec (hinv : Inv cfg st) :
    ((st.Full env ∨ st.Fills env key value → FreshName cfg env st) →
      Inv cfg (writeMemtable cfg env st key value).1) ∧
      (((writeMemtable cfg env st key value).2 = .ok true ∧
        (writeMemtable cfg env st key value).1.newestOf =
          Function.update st.newestOf key (some value)) ∨
      ((∃ e, (writeMemtable cfg env st key value).2 = .error e) ∧
        (writeMemtable cfg env st key value).1.newestOf = st.newestOf)) := by
  rcases writeMemtable_cases cfg env st key value with
    ⟨-, -, h⟩ | ⟨-, hfills, h⟩ | ⟨hfull, h⟩ | ⟨hfull, e, h⟩
  · rw [h]
    exact ⟨fun _ => inv_put hinv, Or.inl ⟨rfl, newestOf_put hinv.memtable⟩⟩
  · rw [h]
    refine ⟨fun hname => inv_rotate (inv_put hinv) (hname (Or.inr hfills)), Or.inl ⟨rfl, ?_⟩⟩
    exact (newestOf_rotate (inv_put hinv)).trans (newestOf_put hinv.memtable)
  · rw [h]
    refine ⟨fun hname => ?_, Or.inl ⟨rfl, newestOf_put_rotate hinv⟩⟩
    exact inv_put (inv_rotate hinv (hname (Or.inl hfull)))
  · rw [h]
    exact ⟨fun hname => inv_rotate hinv (hname (Or.inl hfull)),
      Or.inr ⟨⟨e, rfl⟩, newestOf_rotate hinv⟩⟩

end WritePath

section ExpiryPath

/-- A version with a new expiry second. -/
def withExpiry (v : EyaValue) (expireTime : UInt64) : EValue :=
  { value := v, expireTime := expireTime.toUInt32 }

/-- What a new expiry makes of the newest version of a key: a live one takes it. -/
def expireVersion (now : Nat) (t : UInt64) (newestVersion : Option EValue) : Option EValue :=
  match newestVersion.filter (EValue.isLive now) with
  | some v => some (withExpiry v.value t)
  | none => newestVersion

theorem visible_layers_of_none (now : Nat) (h : st.memtable.get key = none) :
    st.get now key = ((st.newestOf key).filter (EValue.isLive now)).map EValue.value := by
  rw [get_eq, newestOf_eq, h]
  rfl

/-- The live value that `get` finds for a key outside the memtable takes the expiry. -/
theorem expireVersion_of_get {now : Nat} (t : UInt64) {v : EyaValue}
    (hentry : st.memtable.get key = none) (hget : st.get now key = some v) :
    expireVersion now t (st.newestOf key) = some (withExpiry v t) := by
  rw [visible_layers_of_none now hentry, Option.map_eq_some_iff] at hget
  obtain ⟨w, hw, rfl⟩ := hget
  simp only [expireVersion, hw]

/-- What `set_key_expire` can do: on an entry of the memtable, leave a dead one or
change the expiry of a live one; otherwise throw for a key without a live value, or
put the value with its expiry as `write_memtable` does. -/
theorem setKeyExpire_cases (cfg : StorageConfig) (env : Env) (hnormal : st.memtable.Normal)
    (key : Bytes) (t : UInt64) :
    (∃ v, st.memtable.get key = some v ∧ v.isLive env.now = false ∧
      setKeyExpire cfg env st key t =
        ({ st with memtable := st.memtable.insertNode key v }, .ok ())) ∨
    (∃ v, st.memtable.get key = some v ∧ v.isLive env.now = true ∧
      setKeyExpire cfg env st key t =
        ({ st with memtable := st.memtable.insertNode key (withExpiry v.value t) }, .ok ())) ∨
    (st.memtable.get key = none ∧ st.get env.now key = none ∧
      setKeyExpire cfg env st key t = (st, .error (.runtimeError "key not found"))) ∨
    (st.memtable.get key = none ∧ ∃ v, st.get env.now key = some v ∧ ¬ st.Full env ∧
      setKeyExpire cfg env st key t =
        ({ st with memtable := st.memtable.insertNode key (withExpiry v t) }, .ok ())) ∨
    (st.memtable.get key = none ∧ ∃ v, st.get env.now key = some v ∧ st.Full env ∧
      (setKeyExpire cfg env st key t = ({ rotateMemtable cfg env st with
          memtable := (rotateMemtable cfg env st).memtable.insertNode key (withExpiry v t) },
          .ok ()) ∨
        (createNewMemtable cfg).shouldFlush env.usage = true ∧
          ∃ e, setKeyExpire cfg env st key t = (rotateMemtable cfg env st, .error e))) := by
  cases hentry : st.memtable.get key with
  | some v =>
      cases hlive : v.isLive env.now with
      | false =>
          have hdead : (v.isDeleted || v.isExpired env.now) = true := EValue.isLive_eq_false_iff.1 hlive
          refine Or.inl ⟨v, rfl, hlive, ?_⟩
          rw [setKeyExpire, MemTable.handleValue_of_some hnormal hentry
            (show _ = (v, none) by simp only [hdead, ↓reduceIte])]
      | true =>
          have hdead : (v.isDeleted || v.isExpired env.now) = false := EValue.isLive_eq_true_iff.1 hlive
          -- a live version is not deleted, so only its expiry changes
          have hvalue : { v with expireTime := t.toUInt32 } = withExpiry v.value t := by
            rw [withExpiry, (EValue.isLive_iff.1 hlive).1]
          refine Or.inr (Or.inl ⟨v, rfl, hlive, ?_⟩)
          rw [setKeyExpire, MemTable.handleValue_of_some hnormal hentry
            (show _ = (withExpiry v.value t, none) by
              simp only [hdead, Bool.false_eq_true, ↓reduceIte, hvalue])]
  | none =>
      have hhandle : ∀ f : ValueHandle,
          st.memtable.handleValue key f = (st.memtable, .error (.outOfRange "Key not found")) :=
        fun _ => MemTable.handleValue_of_none hentry
      refine Or.inr (Or.inr ?_)
      cases hget : st.get env.now key with
      | none =>
          refine Or.inl ⟨rfl, rfl, ?_⟩
          simp only [setKeyExpire, hhandle, hget]
      | some v =>
          refine Or.inr ?_
          by_cases hfull : st.Full env
          · refine Or.inr ⟨rfl, v, rfl, hfull, ?_⟩
            -- the first put throws, the memtable is rotated, and the second put meets the new one
            have hput := MemTable.put_of_shouldFlush key (withExpiry v t) hfull
            cases hfresh : (rotateMemtable cfg env st).memtable.shouldFlush env.usage with
            | false =>
                left
                have hput' := MemTable.put_of_not_shouldFlush key (withExpiry v t) hfresh
                simp only [withExpiry] at hput hput' ⊢
                simp only [setKeyExpire, hhandle, hget, hput, hput']
            | true =>
                right
                have hput' := MemTable.put_of_shouldFlush key (withExpiry v t) hfresh
                refine ⟨hfresh, .overflowError "MemTable size exceeds limit", ?_⟩
                simp only [withExpiry] at hput hput'
                simp only [setKeyExpire, hhandle, hget, hput, hput']
          · refine Or.inl ⟨rfl, v, rfl, hfull, ?_⟩
            have hput := MemTable.put_of_not_shouldFlush key (withExpiry v t)
              (Bool.eq_false_iff.2 hfull)
            simp only [withExpiry] at hput ⊢
            simp only [setKeyExpire, hhandle, hget, hput]

/-- The rotation that `set_key_expire` may need: the key has a live value that is not
in the memtable, and the memtable is full. -/
def ExpiryRotates (env : Env) (st : Storage) (key : Bytes) : Prop :=
  st.memtable.get key = none ∧ (st.get env.now key).isSome ∧ st.Full env

instance (env : Env) (st : Storage) (key : Bytes) : Decidable (st.ExpiryRotates env key) :=
  inferInstanceAs (Decidable (_ ∧ _ ∧ _))

/-- An accepted change of the expiry acts on the newest version of the key; one that
throws changes nothing. -/
theorem setKeyExpire_spec (hinv : Inv cfg st) (key : Bytes) (t : UInt64) :
    ((st.ExpiryRotates env key → FreshName cfg env st) →
      Inv cfg (setKeyExpire cfg env st key t).1) ∧
      (((setKeyExpire cfg env st key t).2 = .ok () ∧
        (setKeyExpire cfg env st key t).1.newestOf =
          Function.update st.newestOf key (expireVersion env.now t (st.newestOf key))) ∨
      ((∃ e, (setKeyExpire cfg env st key t).2 = .error e) ∧
        (setKeyExpire cfg env st key t).1.newestOf = st.newestOf)) := by
  rcases setKeyExpire_cases cfg env hinv.memtable key t with
    ⟨v, hentry, hdead, h⟩ | ⟨v, hentry, hlive, h⟩ | ⟨hentry, hget, h⟩ |
      ⟨hentry, v, hget, hfull, h⟩ | ⟨hentry, v, hget, hfull, h⟩
  · have hnewest : st.newestOf key = some v := by rw [newestOf_eq, hentry, Option.some_or]
    have hexpire : expireVersion env.now t (st.newestOf key) = some v := by
      simp only [expireVersion, hnewest, Option.filter_some, hdead, Bool.false_eq_true, ↓reduceIte]
    rw [h]
    refine ⟨fun _ => inv_put hinv, Or.inl ⟨rfl, ?_⟩⟩
    rw [newestOf_put hinv.memtable, hexpire]
  · have hnewest : st.newestOf key = some v := by rw [newestOf_eq, hentry, Option.some_or]
    have hexpire : expireVersion env.now t (st.newestOf key) = some (withExpiry v.value t) := by
      simp only [expireVersion, hnewest, Option.filter_some, hlive, ↓reduceIte]
    rw [h]
    refine ⟨fun _ => inv_put hinv, Or.inl ⟨rfl, ?_⟩⟩
    rw [newestOf_put hinv.memtable, hexpire]
  · rw [h]
    exact ⟨fun _ => hinv, Or.inr ⟨⟨_, rfl⟩, rfl⟩⟩
  · have hexpire := expireVersion_of_get t hentry hget
    rw [h]
    refine ⟨fun _ => inv_put hinv, Or.inl ⟨rfl, ?_⟩⟩
    rw [newestOf_put hinv.memtable, hexpire]
  · have hexpire := expireVersion_of_get t hentry hget
    have hrotate : (st.ExpiryRotates env key → FreshName cfg env st) →
        Inv cfg (rotateMemtable cfg env st) :=
      fun hname => inv_rotate hinv (hname ⟨hentry, by rw [hget]; rfl, hfull⟩)
    rcases h with h | ⟨-, e, h⟩
    · rw [h]
      refine ⟨fun hname => inv_put (hrotate hname), Or.inl ⟨rfl, ?_⟩⟩
      rw [newestOf_put_rotate hinv, hexpire]
    · rw [h]
      exact ⟨hrotate, Or.inr ⟨⟨e, rfl⟩, newestOf_rotate hinv⟩⟩

end ExpiryPath

section Removal

/-- The version that a removal leaves: the marked entry of the memtable, or a bare
tombstone. -/
def marked (st : Storage) (key : Bytes) : EValue :=
  { (st.memtable.get key).getD {} with deleted := true }

/-- With its log file open, `remove` marks the key. -/
theorem removeKey_eq (hinv : Inv cfg st) (key : Bytes) :
    removeKey cfg st key = (true, { st with
      wal := if cfg.enableWal then (st.wal.appendLog .remove key []).2 else st.wal
      memtable := st.memtable.insertNode key (st.marked key) }) := by
  have hremove : (st.memtable.remove key).2 = _ := MemTable.remove_eq hinv.memtable
  unfold removeKey
  cases hwal : cfg.enableWal with
  | false => simp only [Bool.false_eq_true, ↓reduceIte, hremove, marked]
  | true =>
      have hlogged := Wal.appendLog_fst st.wal .remove key []
      rw [hinv.walOpen hwal] at hlogged
      simp only [↓reduceIte, hlogged, Option.isSome_some, hremove, marked]

/-- Appending to the log changes no invariant and no version. -/
theorem inv_appendLog (hinv : Inv cfg st) (type : OperationType) (key payload : Bytes) :
    Inv cfg { st with wal := (st.wal.appendLog type key payload).2 } :=
  ⟨hinv.memtable, hinv.immutables, hinv.names, fun hwal => by
    rw [Wal.walFile_appendLog, hinv.walOpen hwal]⟩

theorem removeKey_spec (hinv : Inv cfg st) (key : Bytes) :
    (removeKey cfg st key).1 = true ∧ Inv cfg (removeKey cfg st key).2 ∧
      (removeKey cfg st key).2.newestOf =
        Function.update st.newestOf key (some (st.marked key)) := by
  have hlog : Inv cfg { st with
      wal := if cfg.enableWal then (st.wal.appendLog .remove key []).2 else st.wal } := by
    cases cfg.enableWal with
    | false => exact hinv
    | true => exact inv_appendLog hinv .remove key []
  rw [removeKey_eq hinv]
  exact ⟨rfl, inv_put hlog, (newestOf_put hlog.memtable :)⟩

end Removal

section Flushing

/-- Writing the oldest immutable memtable starts no merge. -/
def QuietRound (cfg : StorageConfig) (st : Storage) : Prop :=
  ∀ e ∈ st.immutableMemtables.toList.head?, e.2.size ≠ 0 →
    SSTableManager.shouldMerge cfg.sstable
      (SSTableManager.createFromEntries cfg.sstable e.2.getAllEntries 0 st.sstableManager).2 0 =
        false

instance (cfg : StorageConfig) (st : Storage) : Decidable (QuietRound cfg st) :=
  inferInstanceAs (Decidable (∀ e ∈ st.immutableMemtables.toList.head?, _))

/-- The loop of a flush starts no merge. -/
def QuietLoop (cfg : StorageConfig) (env : Env) : Nat → Storage → Prop
  | 0, _ => True
  | rounds + 1, st => QuietRound cfg st ∧
      ∀ r ∈ flushOldest cfg env st, r.2 = true → QuietLoop cfg env rounds r.1

/-- A flush that starts no merge. -/
def FlushQuiet (cfg : StorageConfig) (env : Env) (st : Storage) : Prop :=
  QuietLoop cfg env (st.immutableMemtables.size + 1) st

/-- A file written to level 0 from a memtable becomes the first layer of the files. -/
theorem layersFrom_created (cfg : SSTableConfig) (mgr : SSTableManager) {imm : MemTable}
    (hentries : imm.getAllEntries ≠ []) :
    let mgr' := (SSTableManager.createFromEntries cfg imm.getAllEntries 0 mgr).2
    mgr'.layersFrom 0 (mgr'.maxLevel + 1) = imm.get :: mgr.layersFrom 0 (mgr.maxLevel + 1) := by
  have hget : (fun key => (Std.ExtTreeMap.ofList imm.getAllEntries compare)[key]?) = imm.get := by
    funext key
    refine Option.ext fun v => ?_
    rw [OrderedMap.getElem?_ofList_iff imm.getAllEntries_distinct, MemTable.mem_getAllEntries_iff]
  have hmax := SSTableManager.maxLevel_createFromEntries cfg mgr 0 imm.getAllEntries
  have hlevels := SSTableManager.levelSstables_createFromEntries cfg mgr 0 imm.getAllEntries
  obtain ⟨sst, hsst⟩ := SSTableManager.createFromEntries_fst cfg mgr 0 hentries
  have hcreated := (SSTableManager.created_spec (Option.mem_toList.2 hsst)).1
  intro mgr'
  have hmax' : mgr'.maxLevel = mgr.maxLevel := by
    rw [Nat.max_eq_left (Nat.zero_le _)] at hmax
    exact Nat.le_antisymm hmax.2 hmax.1
  have hrest : mgr'.layersFrom 1 mgr.maxLevel = mgr.layersFrom 1 mgr.maxLevel := by
    refine SSTableManager.layersFrom_congr fun i hi _ => ?_
    rw [hlevels, Function.update_of_ne (by omega)]
  have hzero : mgr'.levelLayers 0 = imm.get :: mgr.levelLayers 0 := by
    rw [SSTableManager.levelLayers, hlevels, Function.update_self, hsst, ← hget]
    exact congrArg (fun f => f :: _) (funext hcreated)
  rw [hmax', SSTableManager.layersFrom_succ, SSTableManager.layersFrom_succ, hrest, hzero]
  rfl

/-- What a round of a quiet flush does: nothing, when no immutable memtable is left; or
the oldest one goes, written to a file if it has entries. -/
theorem flushOldest_spec (hinv : Inv cfg st) (hfuel : 0 < cfg.mergeFuel)
    (hquiet : QuietRound cfg st) :
    flushOldest cfg env st = some (st, false) ∧ st.immutableMemtables.toList = [] ∨
    ∃ (name : Bytes) (imm : MemTable) (rest : List (Bytes × MemTable)) (st' : Storage),
      st.immutableMemtables.toList = (name, imm) :: rest ∧
      flushOldest cfg env st = some (st', true) ∧
      st'.immutableMemtables = st.immutableMemtables.erase name ∧
      st'.memtable = st.memtable ∧ st'.currentWalFilename = st.currentWalFilename ∧
      (st'.wal = st.wal ∧ imm.size = 0 ∨
        st'.wal = if cfg.enableWal then st.wal.clear name else st.wal) ∧
      newest (st'.sstableManager.layersFrom 0 (st'.sstableManager.maxLevel + 1)) =
        newest (imm.get :: st.sstableManager.layersFrom 0 (st.sstableManager.maxLevel + 1)) := by
  unfold flushOldest
  cases hlist : st.immutableMemtables.toList with
  | nil => exact Or.inl ⟨rfl, rfl⟩
  | cons e rest =>
      obtain ⟨name, imm⟩ := e
      have hnormal : imm.Normal := hinv.immutables name imm
        (Std.ExtTreeMap.mem_toList_iff_getElem?_eq_some.1 (by rw [hlist]; exact List.mem_cons_self))
      right
      by_cases hsize : imm.size = 0
      · simp only [hsize, ↓reduceIte]
        refine ⟨name, imm, rest, _, rfl, rfl, rfl, rfl, rfl, Or.inl ⟨rfl, hsize⟩, ?_⟩
        -- an empty memtable hides nothing
        funext key
        rw [newest_cons, MemTable.get_eq_none_of_size hnormal.counted hsize, Option.none_or]
      · have hentries := MemTable.getAllEntries_ne_nil hnormal.counted hsize
        have hlayers := layersFrom_created cfg.sstable st.sstableManager hentries
        obtain ⟨sst, hsst⟩ :=
          SSTableManager.createFromEntries_fst cfg.sstable st.sstableManager 0 hentries
        -- the round is quiet: the file goes to level 0, and no merge is due
        have hmerge := SSTableManager.mergeSstables_quiet env.now hfuel
          (hquiet (name, imm) (by rw [hlist]; rfl) hsize)
        have hcreate : SSTableManager.createNewSstable cfg.sstable env.now cfg.mergeFuel
            imm.getAllEntries st.sstableManager = some (some sst, (SSTableManager.createFromEntries
              cfg.sstable imm.getAllEntries 0 st.sstableManager).2) := by
          rw [SSTableManager.createNewSstable]
          split
          · next h => rw [h] at hsst; cases hsst
          · next h =>
              rw [h] at hsst hmerge
              obtain rfl := Option.some.inj hsst
              rw [hmerge, h]
              rfl
        simp only [hsize, ↓reduceIte, hcreate, Option.bind_eq_bind, Option.bind_some]
        exact ⟨name, imm, rest, _, rfl, rfl, rfl, rfl, rfl, Or.inr rfl, congrArg newest hlayers⟩

/-- What a flush keeps: the invariant, the memtable with its file name, and the newest
version of every key. -/
structure Flushed (cfg : StorageConfig) (st st' : Storage) : Prop where
  inv : Inv cfg st'
  memtable : st'.memtable = st.memtable
  filename : st'.currentWalFilename = st.currentWalFilename
  newestOf : st'.newestOf = st.newestOf

theorem Flushed.rfl (hinv : Inv cfg st) : Flushed cfg st st := ⟨hinv, Eq.refl _, Eq.refl _, Eq.refl _⟩

theorem Flushed.trans {st' st'' : Storage} (h : Flushed cfg st st') (h' : Flushed cfg st' st'') :
    Flushed cfg st st'' :=
  ⟨h'.inv, h'.memtable.trans h.memtable, h'.filename.trans h.filename,
    h'.newestOf.trans h.newestOf⟩

section Round

variable {st' : Storage} {name : Bytes} {imm : MemTable} {rest : List (Bytes × MemTable)}

/-- A round of a flush keeps the invariant. -/
theorem inv_of_round (hinv : Inv cfg st)
    (hlist : st.immutableMemtables.toList = (name, imm) :: rest)
    (himm : st'.immutableMemtables = st.immutableMemtables.erase name)
    (hmem : st'.memtable = st.memtable) (hfile : st'.currentWalFilename = st.currentWalFilename)
    (hwal : st'.wal = st.wal ∨ st'.wal = if cfg.enableWal then st.wal.clear name else st.wal) :
    Inv cfg st' := by
  have hkeep : ∀ (name' : Bytes) (imm' : MemTable), st'.immutableMemtables[name']? = some imm' →
      st.immutableMemtables[name']? = some imm' := by
    intro name' imm' h
    rw [himm, Std.ExtTreeMap.getElem?_erase] at h
    split at h
    · cases h
    · exact h
  have hbelow : compare name st.currentWalFilename = .lt := hinv.names name imm
    (Std.ExtTreeMap.mem_toList_iff_getElem?_eq_some.1 (by rw [hlist]; exact List.mem_cons_self))
  refine ⟨hmem ▸ hinv.memtable, fun n i h => hinv.immutables n i (hkeep n i h),
    fun n i h => hfile ▸ hinv.names n i (hkeep n i h), fun henabled => ?_⟩
  rcases hwal with h | h
  · rw [h, hfile, hinv.walOpen henabled]
  · have hne : some st.currentWalFilename ≠ some name := by
      rintro heq
      rw [Option.some.inj heq] at hbelow
      exact absurd (hbelow.symm.trans Std.ReflCmp.compare_self) (by decide)
    rw [h, hfile, if_pos henabled, Wal.clear, hinv.walOpen henabled, if_neg hne]

/-- A round moves the layer of the oldest immutable memtable to the SSTables; the layers
above it, which have the version `upper` of the key, stay. -/
theorem newestOf_of_round (hlist : st.immutableMemtables.toList = (name, imm) :: rest)
    (himm : st'.immutableMemtables = st.immutableMemtables.erase name)
    (hmem : st'.memtable = st.memtable) (key : Bytes) :
    ∃ upper : Option EValue,
      st'.newestOf key = upper.or (newest
        (st'.sstableManager.layersFrom 0 (st'.sstableManager.maxLevel + 1)) key) ∧
      st.newestOf key = upper.or (newest
        (imm.get :: st.sstableManager.layersFrom 0 (st.sstableManager.maxLevel + 1)) key) := by
  have hrest : st'.immutableMemtables.toList = rest := by
    rw [himm, OrderedMap.toList_erase_head _ hlist]
  refine ⟨(st.memtable.get key).or (newest (rest.reverse.map fun e => e.2.get) key), ?_, ?_⟩
  · rw [newestOf_eq, hmem, olderLayers, hrest, newest_append, Option.or_assoc]
  · rw [newestOf_eq, olderLayers, hlist, List.reverse_cons, List.map_append, List.append_assoc,
      newest_append, Option.or_assoc]
    rfl

/-- A quiet round keeps the newest versions. -/
theorem flushed_of_round (hinv : Inv cfg st)
    (hlist : st.immutableMemtables.toList = (name, imm) :: rest)
    (himm : st'.immutableMemtables = st.immutableMemtables.erase name)
    (hmem : st'.memtable = st.memtable) (hfile : st'.currentWalFilename = st.currentWalFilename)
    (hwal : st'.wal = st.wal ∨ st'.wal = if cfg.enableWal then st.wal.clear name else st.wal)
    (hlayers : newest (st'.sstableManager.layersFrom 0 (st'.sstableManager.maxLevel + 1)) =
      newest (imm.get :: st.sstableManager.layersFrom 0 (st.sstableManager.maxLevel + 1))) :
    Flushed cfg st st' := by
  refine ⟨inv_of_round hinv hlist himm hmem hfile hwal, hmem, hfile, ?_⟩
  funext key
  obtain ⟨upper, hafter, hbefore⟩ := newestOf_of_round hlist himm hmem key
  rw [hafter, hbefore, hlayers]

end Round

/-- A quiet loop that has a round for each immutable memtable ends, and keeps the
newest versions. -/
theorem flushLoop_spec (hfuel : 0 < cfg.mergeFuel) (rounds : Nat) : ∀ st : Storage,
    Inv cfg st → QuietLoop cfg env rounds st →
      ∃ st', flushLoop cfg env rounds st = some st' ∧ Flushed cfg st st' := by
  induction rounds with
  | zero => exact fun st hinv _ => ⟨st, rfl, Flushed.rfl hinv⟩
  | succ rounds ih =>
      intro st hinv hquiet
      rcases flushOldest_spec hinv hfuel hquiet.1 with
        ⟨h, -⟩ | ⟨name, imm, rest, st', hlist, h, himm, hmem, hfile, hwal, hlayers⟩
      · refine ⟨st, ?_, Flushed.rfl hinv⟩
        rw [flushLoop, h]
        rfl
      · have hround := flushed_of_round hinv hlist himm hmem hfile (hwal.imp And.left id) hlayers
        obtain ⟨st'', hloop, hflushed⟩ := ih st' hround.inv (hquiet.2 (st', true) h rfl)
        refine ⟨st'', ?_, hround.trans hflushed⟩
        rw [flushLoop, h]
        exact hloop

theorem flushMemtableToSstable_spec (hinv : Inv cfg st) (hfuel : 0 < cfg.mergeFuel)
    (hquiet : FlushQuiet cfg env st) :
    ∃ st', flushMemtableToSstable cfg env st = some st' ∧ Flushed cfg st st' :=
  flushLoop_spec hfuel _ st hinv hquiet

end Flushing

section Opening

theorem nil_lt_newFilename (cfg : StorageConfig) (env : Env) :
    compare [] (newFilename cfg env) = .lt := by
  have hne : newFilename cfg env ≠ [] := by
    unfold newFilename
    split
    · exact List.cons_ne_nil _ _
    · exact decimal_ne_nil _
  obtain ⟨c, rest, h⟩ := List.exists_cons_of_ne_nil hne
  rw [h]
  rfl

/-- The first memtable, which has the limit without its scale. -/
def firstMemtable (cfg : StorageConfig) : MemTable :=
  (createNewMemtable cfg).cancelSizeLimit.setSizeLimit cfg.memtableSize

theorem normal_firstMemtable (cfg : StorageConfig) : (firstMemtable cfg).Normal :=
  ⟨(MemTable.normal_new (cfg.memtableSize * 1024)).even,
    (MemTable.normal_new (cfg.memtableSize * 1024)).counted⟩

theorem get_firstMemtable (cfg : StorageConfig) : (firstMemtable cfg).get key = none :=
  MemTable.get_new (cfg.memtableSize * 1024)

/-- The log of a store that has just been opened. -/
def firstWal (cfg : StorageConfig) (env : Env) : Wal :=
  if cfg.enableWal then (Wal.mk ∅ none).openWalFile (newFilename cfg env) else ⟨∅, none⟩

theorem openEmpty_cases (cfg : StorageConfig) (env : Env) :
    openEmpty cfg env = ⟨createNewMemtable cfg, newFilename cfg env,
      (∅ : StrMap MemTable).insert [] (firstMemtable cfg), SSTableManager.empty,
        firstWal cfg env⟩ ∨
    openEmpty cfg env =
      ⟨firstMemtable cfg, newFilename cfg env, ∅, SSTableManager.empty, firstWal cfg env⟩ := by
  unfold openEmpty
  by_cases h : ((firstMemtable cfg).shouldFlush env.usage || !cfg.enableWal) = true
  · exact Or.inl (if_pos h)
  · exact Or.inr (if_neg h)

theorem getElem?_first {name : Bytes} {imm first : MemTable}
    (h : ((∅ : StrMap MemTable).insert [] first)[name]? = some imm) : name = [] ∧ imm = first := by
  rw [Std.ExtTreeMap.getElem?_insert] at h
  split at h
  · next heq =>
      exact ⟨(Std.LawfulEqCmp.compare_eq_iff_eq.1 heq).symm, (Option.some.inj h).symm⟩
  · rw [Std.ExtTreeMap.getElem?_empty] at h
    cases h

theorem inv_openEmpty (cfg : StorageConfig) (env : Env) : Inv cfg (openEmpty cfg env) := by
  have hopen : cfg.enableWal = true →
      (firstWal cfg env).walFile = some (newFilename cfg env) := by
    intro henabled
    rw [firstWal, if_pos henabled]
    rfl
  have hnone : ∀ (name : Bytes) (imm : MemTable), (∅ : StrMap MemTable)[name]? ≠ some imm := by
    intro name imm h
    rw [Std.ExtTreeMap.getElem?_empty] at h
    cases h
  rcases openEmpty_cases cfg env with h | h
  · rw [h]
    refine ⟨MemTable.normal_new _, fun name imm h => ?_, fun name imm h => ?_, hopen⟩
    · obtain ⟨-, rfl⟩ := getElem?_first h
      exact normal_firstMemtable cfg
    · obtain ⟨rfl, -⟩ := getElem?_first h
      exact nil_lt_newFilename cfg env
  · rw [h]
    exact ⟨normal_firstMemtable cfg, fun name imm h => absurd h (hnone name imm),
      fun name imm h => absurd h (hnone name imm), hopen⟩

theorem newestOf_openEmpty (cfg : StorageConfig) (env : Env) (key : Bytes) :
    (openEmpty cfg env).newestOf key = none := by
  have hnil : (∅ : StrMap MemTable).toList = [] := Std.ExtTreeMap.toList_eq_nil_iff.2 rfl
  have hfirst : ((∅ : StrMap MemTable).insert [] (firstMemtable cfg)).toList =
      [([], firstMemtable cfg)] := by
    have habove : ∀ e ∈ (∅ : StrMap MemTable).toList, compare e.1 [] = .lt := by
      intro e he
      rw [hnil] at he
      cases he
    rw [OrderedMap.toList_insert_above _ _ _ habove, hnil]
    rfl
  rcases openEmpty_cases cfg env with h | h
  · rw [h, newestOf_eq, olderLayers, hfirst, createNewMemtable, MemTable.get_new, Option.none_or,
      List.reverse_singleton, List.map_singleton, newest_append, newest_cons, get_firstMemtable]
    rfl
  · rw [h, newestOf_eq, olderLayers, hnil, get_firstMemtable, Option.none_or]
    rfl

end Opening

end Storage

end EyaKV.Store
