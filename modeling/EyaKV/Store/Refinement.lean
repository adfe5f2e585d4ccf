import EyaKV.Store.Layering

/-!
# The store as a map of live keys

What the store is for is a map from keys to values with an expiry second
(`LiveMap`). `contents` forgets the layers of a store: a key's newest version, or
nothing when it is deleted. Along a run of writes, removals, changes of expiry,
rotations and flushes, the contents are the map that the accepted operations make
(`contents_run`).

`get` answers with the contents except in one state (`Uncovers`): the memtable's
entry of the key is dead and the newest version below the memtable is live. There
the early exit of `get_from_latest` falls through to the older layers, and the value
that was removed or has expired appears again (`get_after_remove`).
-/

set_option autoImplicit false

namespace EyaKV.Store

open EyaKV.Base EyaKV.Base.Layers

section LiveMaps

/-- A value with the second after which it is gone (0 for never). -/
structure Stored where
  value : EyaValue
  expireTime : Nat
  deriving DecidableEq

/-- The value has not expired at the second `now`. -/
def Stored.isLive (now : Nat) (s : Stored) : Bool :=
  !(decide (0 < s.expireTime) && decide (s.expireTime < now))

/-- A map from keys to values with an expiry. -/
abbrev LiveMap := Bytes → Option Stored

namespace LiveMap

variable (m : LiveMap) (key : Bytes)

/-- The value of a key at the second `now`. -/
def read (now : Nat) : Option EyaValue := ((m key).filter (Stored.isLive now)).map Stored.value

/-- The latest value of the key. -/
def write (s : Option Stored) : LiveMap := Function.update m key s

/-- A key with a value at the second `now` takes the expiry `t`. -/
def expire (now t : Nat) : LiveMap :=
  match (m key).filter (Stored.isLive now) with
  | some s => m.write key (some { s with expireTime := t })
  | none => m

end LiveMap

end LiveMaps

section Operations

/-- The operations of the storage engine that move versions. -/
inductive StoreOp where
  | writeMemtable (key : Bytes) (value : EValue)
  | remove (key : Bytes)
  | setKeyExpire (key : Bytes) (expireTime : UInt64)
  | rotateMemtable
  | flushMemtableToSstable

/-- The version as a stored value; a tombstone is none. -/
def EValue.stored (v : EValue) : Option Stored :=
  if v.deleted then none else some ⟨v.value, v.expireTime.toNat⟩

/-- What an accepted operation at the second `now` means for the map. -/
def LiveMap.apply (now : Nat) (m : LiveMap) : StoreOp → LiveMap
  | .writeMemtable key value => m.write key value.stored
  | .remove key => m.write key none
  | .setKeyExpire key expireTime => m.expire key now expireTime.toNat
  | .rotateMemtable => m
  | .flushMemtableToSstable => m

/-- The map of a sequence of accepted operations with their seconds. -/
def LiveMap.ofHistory (history : List (Nat × StoreOp)) : LiveMap :=
  history.foldl (fun m e => m.apply e.1 e.2) fun _ => none

namespace Storage

variable (cfg : StorageConfig)

/-- One operation: the state after it, and whether it was accepted. -/
def step (env : Env) (st : Storage) : StoreOp → Option (Storage × Bool)
  | .writeMemtable key value =>
      let r := writeMemtable cfg env st key value
      some (r.1, match r.2 with | .ok written => written | .error _ => false)
  | .remove key =>
      let r := remove cfg st [key]
      some (r.1, match r.2 with | .ok count => count == 1 | .error _ => false)
  | .setKeyExpire key expireTime =>
      let r := setKeyExpire cfg env st key expireTime
      some (r.1, match r.2 with | .ok _ => true | .error _ => false)
  | .rotateMemtable => some (rotateMemtable cfg env st, true)
  | .flushMemtableToSstable => (flushMemtableToSstable cfg env st).map fun st' => (st', true)

/-- A sequence of operations: the last state, and the accepted operations with their
seconds. -/
def run : Storage → List (Env × StoreOp) → Option (Storage × List (Nat × StoreOp))
  | st, [] => some (st, [])
  | st, (env, op) :: rest => do
      let (st', accepted) ← step cfg env st op
      let (st'', history) ← run st' rest
      return (st'', if accepted then (env.now, op) :: history else history)

/-- What one step needs: a rotation takes a new file name, an expiry fits its 32-bit
field, and a flush starts no merge. -/
def StepMeets (env : Env) (st : Storage) : StoreOp → Prop
  | .writeMemtable key value => st.Full env ∨ st.Fills env key value → FreshName cfg env st
  | .remove _ => True
  | .setKeyExpire key expireTime =>
      expireTime.toNat < 2 ^ 32 ∧ (st.ExpiryRotates env key → FreshName cfg env st)
  | .rotateMemtable => FreshName cfg env st
  | .flushMemtableToSstable => FlushQuiet cfg env st

/-- Every step of the run has what it needs, in the state in which it is taken. -/
def RunMeets : Storage → List (Env × StoreOp) → Prop
  | _, [] => True
  | st, (env, op) :: rest =>
      StepMeets cfg env st op ∧ ∀ r ∈ step cfg env st op, RunMeets r.1 rest

end Storage

end Operations

namespace Storage

variable {cfg : StorageConfig} {env : Env} {st : Storage}

section Contents

/-- The map that a store stands for. -/
def contents (st : Storage) : LiveMap := fun key => (st.newestOf key).bind EValue.stored

theorem contents_eq_of_newestOf {st' : Storage} (h : st'.newestOf = st.newestOf) :
    st'.contents = st.contents := by
  funext key
  rw [contents, contents, h]

theorem contents_of_update {st' : Storage} {key : Bytes} {o : Option EValue}
    (h : st'.newestOf = Function.update st.newestOf key o) :
    st'.contents = st.contents.write key (o.bind EValue.stored) := by
  funext key'
  rw [contents, LiveMap.write, h, Function.update_apply, Function.update_apply]
  split
  · rfl
  · rfl

theorem isLive_stored (now : Nat) (v : EValue) :
    Stored.isLive now ⟨v.value, v.expireTime.toNat⟩ = !v.isExpired now := by
  have hpos : (0 < v.expireTime) = (0 < v.expireTime.toNat) := propext UInt32.lt_iff_toNat_lt
  simp only [Stored.isLive, EValue.isExpired, hpos]

/-- A version is live exactly when its stored value is. -/
theorem filter_stored (now : Nat) (o : Option EValue) :
    (o.bind EValue.stored).filter (Stored.isLive now) =
      (o.filter (EValue.isLive now)).bind EValue.stored := by
  cases o with
  | none => rfl
  | some v =>
      rw [Option.bind_some, Option.filter_some, EValue.isLive, EValue.isDeleted, EValue.stored]
      cases hdeleted : v.deleted with
      | true => rfl
      | false =>
          rw [if_neg Bool.false_ne_true, Option.filter_some, isLive_stored, Bool.not_false,
            Bool.true_and]
          split
          · rw [Option.bind_some, EValue.stored, hdeleted, if_neg Bool.false_ne_true]
          · rfl

/-- Reading the contents is reading the newest version, when it is live. -/
theorem read_contents (now : Nat) (st : Storage) (key : Bytes) :
    st.contents.read key now =
      ((st.newestOf key).filter (EValue.isLive now)).map EValue.value := by
  rw [LiveMap.read, contents, filter_stored]
  cases h : (st.newestOf key).filter (EValue.isLive now) with
  | none => rfl
  | some v =>
      have hlive := (Option.filter_eq_some_iff.1 h).2
      rw [Option.bind_some, EValue.stored, (EValue.isLive_iff.1 hlive).1]
      rfl

/-- A change of expiry acts on the contents as on the map. -/
theorem contents_expire {st' : Storage} {key : Bytes} {now : Nat} {t : UInt64}
    (ht : t.toNat < 2 ^ 32)
    (h : st'.newestOf = Function.update st.newestOf key (expireVersion now t (st.newestOf key))) :
    st'.contents = st.contents.expire key now t.toNat := by
  rw [contents_of_update h, LiveMap.expire, contents, filter_stored, expireVersion]
  cases hlive : (st.newestOf key).filter (EValue.isLive now) with
  | none => exact Function.update_eq_self _ _
  | some v =>
      have hv := (Option.filter_eq_some_iff.1 hlive).2
      have htoNat : t.toUInt32.toNat = t.toNat := by
        rw [UInt64.toNat_toUInt32, Nat.mod_eq_of_lt ht]
      rw [Option.bind_some, Option.bind_some, EValue.stored, EValue.stored, withExpiry,
        (EValue.isLive_iff.1 hv).1, htoNat]
      rfl

end Contents

section Simulation

/-- What a step does: it ends, keeps the invariant, and its effect on the contents is
that of the operation when it is accepted, and none otherwise. -/
theorem step_contents (hinv : Inv cfg st) (hfuel : 0 < cfg.mergeFuel) (op : StoreOp)
    (hmeets : StepMeets cfg env st op) :
    ∃ st' accepted, step cfg env st op = some (st', accepted) ∧ Inv cfg st' ∧
      st'.contents = if accepted then st.contents.apply env.now op else st.contents := by
  cases op with
  | writeMemtable key value =>
      obtain ⟨hinv', ⟨hok, hnew⟩ | ⟨⟨e, herr⟩, hnew⟩⟩ := writeMemtable_spec hinv
      · refine ⟨_, true, ?_, hinv' hmeets, contents_of_update hnew⟩
        rw [step, hok]
      · refine ⟨_, false, ?_, hinv' hmeets, contents_eq_of_newestOf hnew⟩
        rw [step, herr]
  | remove key =>
      obtain ⟨hok, hinv', hnew⟩ := removeKey_spec hinv key
      refine ⟨(removeKey cfg st key).2, true, ?_, hinv', ?_⟩
      · simp only [step, remove, List.cons_ne_nil, ↓reduceIte, List.foldl_cons, List.foldl_nil, hok]
        rfl
      · rw [contents_of_update hnew]
        rfl
  | setKeyExpire key t =>
      obtain ⟨hinv', ⟨hok, hnew⟩ | ⟨⟨e, herr⟩, hnew⟩⟩ := setKeyExpire_spec hinv key t
      · refine ⟨_, true, ?_, hinv' hmeets.2, contents_expire hmeets.1 hnew⟩
        rw [step, hok]
      · refine ⟨_, false, ?_, hinv' hmeets.2, contents_eq_of_newestOf hnew⟩
        rw [step, herr]
  | rotateMemtable =>
      exact ⟨_, true, rfl, inv_rotate hinv hmeets, contents_eq_of_newestOf (newestOf_rotate hinv)⟩
  | flushMemtableToSstable =>
      obtain ⟨st', hflush, hflushed⟩ := flushMemtableToSstable_spec hinv hfuel hmeets
      refine ⟨st', true, ?_, hflushed.inv, contents_eq_of_newestOf hflushed.newestOf⟩
      rw [step, hflush]
      rfl

/-- Along a run the contents follow the accepted operations. -/
theorem contents_run (hfuel : 0 < cfg.mergeFuel) (script : List (Env × StoreOp)) :
    ∀ st : Storage, Inv cfg st → RunMeets cfg st script →
      ∃ st' history, run cfg st script = some (st', history) ∧ Inv cfg st' ∧
        st'.contents = history.foldl (fun m e => m.apply e.1 e.2) st.contents := by
  induction script with
  | nil => exact fun st hinv _ => ⟨st, [], rfl, hinv, rfl⟩
  | cons e rest ih =>
      obtain ⟨env, op⟩ := e
      intro st hinv hmeets
      obtain ⟨st', accepted, hstep, hinv', hcontents⟩ := step_contents hinv hfuel op hmeets.1
      obtain ⟨st'', history, hrun, hinv'', hrest⟩ := ih st' hinv' (hmeets.2 _ hstep)
      refine ⟨st'', if accepted then (env.now, op) :: history else history, ?_, hinv'', ?_⟩
      · simp only [run, hstep, hrun, Option.bind_eq_bind, Option.bind_some]
        rfl
      · rw [hrest, hcontents]
        cases accepted with
        | true => rfl
        | false => rfl

end Simulation

section Reading

/-- The memtable's entry of the key is dead, and the newest version below the memtable
is live. -/
def Uncovers (now : Nat) (st : Storage) (key : Bytes) : Prop :=
  (∃ v, st.memtable.get key = some v ∧ v.isLive now = false) ∧
    ∃ w, newest st.olderLayers key = some w ∧ w.isLive now = true

/-- `get` reads the contents exactly when it does not uncover an older version. -/
theorem get_eq_read_iff (now : Nat) (st : Storage) (key : Bytes) :
    st.get now key = st.contents.read key now ↔ ¬ st.Uncovers now key := by
  rw [read_contents, get_eq, newestOf_eq, Uncovers, visible]
  cases hentry : st.memtable.get key with
  | none => simp
  | some v =>
      cases hlive : v.isLive now with
      | true => simp [Option.filter_some, hlive]
      | false =>
          cases holder : newest st.olderLayers key with
          | none => simp [Option.filter_some, hlive]
          | some w => cases hw : w.isLive now <;> simp [Option.filter_some, hlive, hw]

/-- **The store refines the map of live keys, up to one early exit.** A run from the
empty store whose rotations take new file names, whose expiries fit 32 bits and whose
flushes start no merge ends in a state in which `get` of a key is the map's value of
it, if and only if the memtable does not hold a dead version over a live older one. -/
theorem get_run_iff (hfuel : 0 < cfg.mergeFuel) (start : Env) (script : List (Env × StoreOp))
    (hmeets : RunMeets cfg (openEmpty cfg start) script) :
    ∃ st history, run cfg (openEmpty cfg start) script = some (st, history) ∧
      ∀ now key, st.get now key = (LiveMap.ofHistory history).read key now ↔
        ¬ st.Uncovers now key := by
  obtain ⟨st, history, hrun, -, hcontents⟩ :=
    contents_run hfuel script _ (inv_openEmpty cfg start) hmeets
  have hempty : (openEmpty cfg start).contents = fun _ => none := by
    funext key
    rw [contents, newestOf_openEmpty]
    rfl
  refine ⟨st, history, hrun, fun now key => ?_⟩
  rw [LiveMap.ofHistory, ← hempty, ← hcontents]
  exact get_eq_read_iff now st key

/-- The clock does not go back. -/
def ClockRuns (start : Env) (script : List (Env × StoreOp)) : Prop :=
  ((start :: script.map Prod.fst).map Env.ticks).Pairwise (· ≤ ·)

/-- A logged store without a size limit to reach. -/
def roomyConfig : StorageConfig := ⟨true, 1, ⟨.sizeTieredCompaction, 4, fun _ _ => false,
  List.length⟩, 1⟩

/-- The tick `n`, with memtables that use no memory. -/
def tick (n : Nat) : Env := ⟨n, fun _ => 0, fun _ => 0⟩

/-- A key is written, the memtable is rotated, and the key is removed. -/
def removedScript : List (Env × StoreOp) :=
  [(tick 2, .writeMemtable [107] { value := .string [118] }), (tick 3, .rotateMemtable),
    (tick 4, .remove [107])]

theorem runMeets_removedScript :
    RunMeets roomyConfig (openEmpty roomyConfig (tick 1)) removedScript := by
  refine ⟨fun h => absurd h (by decide), fun r hr => ?_⟩
  obtain rfl := Option.some.inj hr
  refine ⟨show FreshName _ _ _ by decide, fun r hr => ?_⟩
  obtain rfl := Option.some.inj hr
  exact ⟨trivial, fun r _ => trivial⟩

theorem get_removedScript :
    (run roomyConfig (openEmpty roomyConfig (tick 1)) removedScript).map
      (fun r => (r.1.get 0 [107], (LiveMap.ofHistory r.2).read [107] 0)) =
        some (some (.string [118]), none) := by
  decide

/-- The removed value appears again from the immutable memtable. -/
theorem get_after_remove :
    ¬ ∀ (cfg : StorageConfig) (start : Env) (script : List (Env × StoreOp)) (st : Storage)
      (history : List (Nat × StoreOp)), 0 < cfg.mergeFuel → ClockRuns start script →
        RunMeets cfg (openEmpty cfg start) script →
        run cfg (openEmpty cfg start) script = some (st, history) →
          ∀ now key, st.get now key = (LiveMap.ofHistory history).read key now := by
  intro hall
  obtain ⟨r, hrun, hr⟩ := Option.map_eq_some_iff.1 get_removedScript
  have hclock : ClockRuns (tick 1) removedScript := by
    simp [ClockRuns, removedScript, tick]
  have h := hall _ _ _ r.1 r.2 Nat.one_pos hclock runMeets_removedScript hrun 0 [107]
  rw [(Prod.mk.inj hr).1, (Prod.mk.inj hr).2] at h
  cases h

theorem get_run_iff_removed :
    ∃ st history, run roomyConfig (openEmpty roomyConfig (tick 1)) removedScript =
      some (st, history) ∧ st.Uncovers 0 [107] := by
  obtain ⟨st, history, hrun, hiff⟩ :=
    get_run_iff Nat.one_pos (tick 1) removedScript runMeets_removedScript
  obtain ⟨r, hrun', hr⟩ := Option.map_eq_some_iff.1 get_removedScript
  obtain rfl := Option.some.inj (hrun.symm.trans hrun')
  refine ⟨st, history, hrun, ?_⟩
  by_contra hnot
  have h := (hiff 0 [107]).2 hnot
  rw [(Prod.mk.inj hr).1, (Prod.mk.inj hr).2] at h
  cases h

end Reading

end Storage

end EyaKV.Store
