import EyaKV.Store.UnsetScores
import Mathlib.Data.List.Sort

/-!
# Replaying the log on two nodes

Every node executes the same log, at its own clock and with its own rotations and
flushes. What a log entry is to do is `Means`, a relation between the newest versions
before it, its response and the newest versions after it, which does not know where a
version is stored. `perform_means` says when the store keeps to it: when a callback does
not throw on the memtable's entry, an expiry does not meet a dead entry, an HSET on a
dead entry has no field twice, and a range reads no key backwards. A removal by rank must
find its ranks as well: past them it reads what the memory of its node holds.

Two nodes agree when every key has the same live version on both at every second from
both clocks on. One entry keeps that and answers the same on both (`means_agree`), when a
key that it reads is not expired on one node only and an expiry is set at the same
second. `replay_agree` puts both together for a whole log.
-/

set_option autoImplicit false

namespace EyaKV.Store

open EyaKV.Base EyaKV.Base.Layers

/-- The newest version of each key. -/
abbrev Versions := Bytes → Option EValue

section Meaning

/-- The listing of the live versions in a range, each key once and in ascending order. -/
def ListsLive (now : Nat) (m : Versions) (startKey endKey : Bytes)
    (listing : List (Bytes × EyaValue)) : Prop :=
  (listing.Pairwise fun a b => a.1 < b.1) ∧
    ∀ key value, (key, value) ∈ listing ↔ startKey ≤ key ∧ key ≤ endKey ∧
      ∃ v, (m key).filter (EValue.isLive now) = some v ∧ v.value = value

/-- The response to an operation of a processor. -/
def respond : Result (Response × Option EValue) → Response
  | .ok r => r.1
  | .error e => .error e.what

/-- What a request at the second `now` means: its response and the newest versions after
it. -/
def Means (now : Nat) (m : Versions) : Request → Response → Versions → Prop
  | .update op key, response, m' =>
      let outcome := op.fallback ((m key).filter (EValue.isLive now))
      response = respond outcome ∧ m' = Storage.afterWrite m key outcome
  | .set key value ttl, response, m' =>
      response = .success (.string [49]) ∧ m' = Function.update m key
        (some { value := .string value, expireTime := (expiryAt now ttl).toUInt32 })
  | .remove keys, response, m' =>
      response = .count keys.length ∧
        (∀ key ∈ keys, ∃ v, m' key = some v ∧ v.deleted = true) ∧ ∀ key ∉ keys, m' key = m key
  | .expire key aliveTime, response, m' =>
      match (m key).filter (EValue.isLive now) with
      | some v => response = .success (.string [49]) ∧ m' = Function.update m key
          (some (Storage.withExpiry v.value (expiryAt now aliveTime)))
      | none => response = .error "key not found" ∧ m' = m
  | .range startKey endKey, response, m' =>
      (∃ listing, response = .success (.entries listing) ∧
        ListsLive now m startKey endKey listing) ∧ m' = m
  | .reject errorMsg, response, m' => response = .error errorMsg ∧ m' = m

end Meaning

section Agreement

/-- The same live versions at every second from both clocks on. -/
def AgreeFrom (now₁ now₂ : Nat) (m₁ m₂ : Versions) : Prop :=
  ∀ t, now₁ ≤ t → now₂ ≤ t → ∀ key,
    (m₁ key).filter (EValue.isLive t) = (m₂ key).filter (EValue.isLive t)

/-- The request reads the version of the key. -/
def Request.Reads : Request → Bytes → Prop
  | .update _ key, k => k = key
  | .expire key _, k => k = key
  | .range startKey endKey, k => startKey ≤ k ∧ k ≤ endKey
  | .set _ _ _, _ => False
  | .remove _, _ => False
  | .reject _, _ => False

/-- The request stores the same expiry at both seconds: it stores none that depends on
the clock, or the clocks show the same second, up to the 32 bits of the field. -/
def Request.SameExpiry (now₁ now₂ : Nat) : Request → Prop
  | .set _ _ ttl => ttl = 0 ∨ now₁ % 2 ^ 32 = now₂ % 2 ^ 32
  | .expire _ aliveTime => aliveTime = 0 ∨ now₁ % 2 ^ 32 = now₂ % 2 ^ 32
  | .update _ _ => True
  | .remove _ => True
  | .range _ _ => True
  | .reject _ => True

variable {now₁ now₂ : Nat} {m₁ m₂ : Versions}

theorem AgreeFrom.mono {now₁' now₂' : Nat} (h : AgreeFrom now₁ now₂ m₁ m₂) (h₁ : now₁ ≤ now₁')
    (h₂ : now₂ ≤ now₂') : AgreeFrom now₁' now₂' m₁ m₂ :=
  fun t ht₁ ht₂ => h t (h₁.trans ht₁) (h₂.trans ht₂)

/-- A key that is not expired on one node only has the same live version on both. -/
theorem AgreeFrom.filter_eq (h : AgreeFrom now₁ now₂ m₁ m₂) {key : Bytes}
    (hboth : ((m₁ key).filter (EValue.isLive now₁)).isSome =
      ((m₂ key).filter (EValue.isLive now₂)).isSome) :
    (m₁ key).filter (EValue.isLive now₁) = (m₂ key).filter (EValue.isLive now₂) := by
  have hone : ∀ {n₁ n₂ : Nat} {a₁ a₂ : Versions}, n₁ ≤ n₂ → AgreeFrom n₁ n₂ a₁ a₂ →
      ((a₁ key).filter (EValue.isLive n₁)).isSome = ((a₂ key).filter (EValue.isLive n₂)).isSome →
      (a₁ key).filter (EValue.isLive n₁) = (a₂ key).filter (EValue.isLive n₂) := by
    intro n₁ n₂ a₁ a₂ hle hagree hsome
    have hlater := hagree n₂ hle (Nat.le_refl n₂) key
    cases hsecond : (a₂ key).filter (EValue.isLive n₂) with
    | none =>
        rw [hsecond] at hsome
        exact Option.not_isSome_iff_eq_none.1 (by rw [hsome]; decide)
    | some v =>
        rw [hsecond] at hlater
        obtain ⟨hv, hlive⟩ := Option.filter_eq_some_iff.1 hlater
        rw [hv, Option.filter_some, if_pos (EValue.isLive_anti hle hlive)]
  rcases Nat.le_total now₁ now₂ with hle | hle
  · exact hone hle h hboth
  · exact (hone hle (fun t h₂ h₁ k => (h t h₁ h₂ k).symm) hboth.symm).symm

theorem AgreeFrom.update (h : AgreeFrom now₁ now₂ m₁ m₂) (key : Bytes) (o : Option EValue) :
    AgreeFrom now₁ now₂ (Function.update m₁ key o) (Function.update m₂ key o) := by
  intro t h₁ h₂ k
  rw [Function.update_apply, Function.update_apply]
  split
  · rfl
  · exact h t h₁ h₂ k

theorem toUInt32_expiryAt {aliveTime : UInt64}
    (h : aliveTime = 0 ∨ now₁ % 2 ^ 32 = now₂ % 2 ^ 32) :
    (expiryAt now₁ aliveTime).toUInt32 = (expiryAt now₂ aliveTime).toUInt32 := by
  rcases h with rfl | h
  · rfl
  · rw [expiryAt, expiryAt]
    split
    · rfl
    · rw [UInt64.toUInt32_add, UInt64.toUInt32_add]
      refine congrArg (fun n => n + aliveTime.toUInt32) (UInt32.toNat_inj.1 ?_)
      simp only [UInt64.toNat_toUInt32, UInt64.toNat_ofNat']
      omega

/-- The live versions in a range determine the listing. -/
theorem ListsLive.unique {startKey endKey : Bytes} {l₁ l₂ : List (Bytes × EyaValue)}
    (h₁ : ListsLive now₁ m₁ startKey endKey l₁) (h₂ : ListsLive now₂ m₂ startKey endKey l₂)
    (hsame : ∀ key, startKey ≤ key → key ≤ endKey →
      (m₁ key).filter (EValue.isLive now₁) = (m₂ key).filter (EValue.isLive now₂)) :
    l₁ = l₂ := by
  have hnodup : ∀ {l : List (Bytes × EyaValue)}, (l.Pairwise fun a b => a.1 < b.1) → l.Nodup := by
    intro l hl
    refine hl.imp fun hlt heq => ?_
    rw [heq] at hlt
    exact List.lt_irrefl _ hlt
  have hperm : l₁.Perm l₂ := by
    refine (List.perm_ext_iff_of_nodup (hnodup h₁.1) (hnodup h₂.1)).2 ?_
    rintro ⟨key, value⟩
    rw [h₁.2, h₂.2]
    refine and_congr_right fun hstart => and_congr_right fun hend => ?_
    rw [hsame key hstart hend]
  refine hperm.eq_of_pairwise ?_ h₁.1 h₂.1
  intro a b _ _ hab hba
  exact absurd hba (List.lt_asymm hab)

/-- **One entry on two nodes.** On stores that agree, a request answers the same on both
and leaves them in agreement, when no key that it reads is expired on one node only and
it stores no expiry at different seconds. -/
theorem means_agree {request : Request} {r₁ r₂ : Response} {m₁' m₂' : Versions}
    (hagree : AgreeFrom now₁ now₂ m₁ m₂)
    (hreads : ∀ key, request.Reads key → ((m₁ key).filter (EValue.isLive now₁)).isSome =
      ((m₂ key).filter (EValue.isLive now₂)).isSome)
    (hexpiry : request.SameExpiry now₁ now₂) (h₁ : Means now₁ m₁ request r₁ m₁')
    (h₂ : Means now₂ m₂ request r₂ m₂') : r₁ = r₂ ∧ AgreeFrom now₁ now₂ m₁' m₂' := by
  cases request with
  | update op key =>
      obtain ⟨rfl, rfl⟩ := h₁
      obtain ⟨rfl, rfl⟩ := h₂
      -- both nodes give the operation the same live version, so the outcome is the same
      rw [hagree.filter_eq (hreads key rfl)]
      refine ⟨rfl, ?_⟩
      cases op.fallback ((m₂ key).filter (EValue.isLive now₂)) with
      | error e => exact hagree
      | ok r =>
          obtain ⟨r, w⟩ := r
          cases w with
          | none => exact hagree
          | some value => exact hagree.update key (some value)
  | set key value ttl =>
      obtain ⟨rfl, rfl⟩ := h₁
      obtain ⟨rfl, rfl⟩ := h₂
      rw [toUInt32_expiryAt hexpiry]
      exact ⟨rfl, hagree.update key _⟩
  | remove keys =>
      obtain ⟨rfl, hin₁, hout₁⟩ := h₁
      obtain ⟨rfl, hin₂, hout₂⟩ := h₂
      refine ⟨rfl, fun t ht₁ ht₂ key => ?_⟩
      by_cases hmem : key ∈ keys
      · obtain ⟨v₁, hv₁, hdel₁⟩ := hin₁ key hmem
        obtain ⟨v₂, hv₂, hdel₂⟩ := hin₂ key hmem
        -- the tombstones of the two nodes may differ, but both are dead
        have hdead : ∀ {v : EValue}, v.deleted = true → v.isLive t = false := by
          intro v hdel
          rw [EValue.isLive, EValue.isDeleted, hdel, Bool.not_true, Bool.false_and]
        rw [hv₁, hv₂, Option.filter_some, Option.filter_some, hdead hdel₁, hdead hdel₂]
        rfl
      · rw [hout₁ key hmem, hout₂ key hmem]
        exact hagree t ht₁ ht₂ key
  | expire key aliveTime =>
      have hsame := hagree.filter_eq (hreads key rfl)
      simp only [Means, hsame] at h₁ h₂
      cases hlive : (m₂ key).filter (EValue.isLive now₂) with
      | none =>
          simp only [hlive] at h₁ h₂
          obtain ⟨rfl, rfl⟩ := h₁
          obtain ⟨rfl, rfl⟩ := h₂
          exact ⟨rfl, hagree⟩
      | some v =>
          simp only [hlive] at h₁ h₂
          obtain ⟨rfl, rfl⟩ := h₁
          obtain ⟨rfl, rfl⟩ := h₂
          refine ⟨rfl, ?_⟩
          rw [Storage.withExpiry, toUInt32_expiryAt hexpiry]
          exact hagree.update key _
  | range startKey endKey =>
      obtain ⟨⟨l₁, rfl, hl₁⟩, rfl⟩ := h₁
      obtain ⟨⟨l₂, rfl, hl₂⟩, rfl⟩ := h₂
      refine ⟨?_, hagree⟩
      rw [hl₁.unique hl₂ fun key hstart hend => hagree.filter_eq (hreads key ⟨hstart, hend⟩)]
  | reject errorMsg =>
      obtain ⟨rfl, rfl⟩ := h₁
      obtain ⟨rfl, rfl⟩ := h₂
      exact ⟨rfl, hagree⟩

end Agreement

namespace Storage

section Execution

variable {cfg : StorageConfig} {env : Env} {st : Storage} {key : Bytes}

/-- A write of the key cannot throw, and a rotation that it makes takes a new file name. -/
def Writes (cfg : StorageConfig) (env : Env) (st : Storage) (key : Bytes) : Prop :=
  Fits cfg env ∧ (st.Rotates env key → FreshName cfg env st)

/-- What an entry needs in the state in which it is executed: its callback does not throw
on the memtable's entry, an HSET on a dead entry has no field twice, an expiry does not
meet a dead entry, a range reads no key backwards, and a removal by rank finds its ranks. -/
def EntryMeets (cfg : StorageConfig) (env : Env) (F : FloatOps) (st : Storage)
    (type : WriteCommand) (args : List Bytes) : Prop :=
  RanksThere type args (st.live env.now) ∧
  match request F type args with
  | .update op key => Writes cfg env st key ∧ ∀ v, st.memtable.get key = some v →
      op.Accepts env.now v ∧
        (type = .logged .hSet → v.isLive env.now = false → FieldsDistinct args)
  | .set key _ _ => Writes cfg env st key
  | .remove _ => True
  | .expire key _ => Writes cfg env st key ∧
      ∀ v, st.memtable.get key = some v → v.isLive env.now = true
  | .range startKey endKey =>
      ∀ k, startKey ≤ k → k ≤ endKey → ¬ st.ReadsBackwards env.now k
  | .reject _ => True

theorem writes_of_sameData {st' : Storage} (hsame : SameData st st')
    (h : Writes cfg env st key) : Writes cfg env st' key := by
  refine ⟨h.1, fun hrotates => ?_⟩
  simp only [Rotates, Full, Fills, FreshName, hsame.memtable, hsame.filename] at hrotates ⊢
  exact h.2 hrotates

/-- The loop of `remove` marks every key. -/
theorem foldl_removeKey (keys : List Bytes) (n : Nat) : ∀ st : Storage, Sound cfg st →
    ∃ st', keys.foldl (fun (acc : Nat × Storage) key =>
        ((if (removeKey cfg acc.2 key).1 then acc.1 + 1 else acc.1),
          (removeKey cfg acc.2 key).2)) (n, st) = (n + keys.length, st') ∧ Sound cfg st' ∧
      (∀ key ∈ keys, ∃ v, st'.newestOf key = some v ∧ v.deleted = true) ∧
      ∀ key ∉ keys, st'.newestOf key = st.newestOf key := by
  induction keys generalizing n with
  | nil =>
      intro st hsound
      exact ⟨st, rfl, hsound, fun _ h => absurd h List.not_mem_nil, fun _ _ => rfl⟩
  | cons k rest ih =>
      intro st hsound
      obtain ⟨hremoved, hinv, hnew⟩ := removeKey_spec hsound.inv k
      have hsst : (removeKey cfg st k).2.sstableManager = st.sstableManager := by
        rw [removeKey_eq hsound.inv]
      obtain ⟨st', hfold, hsound', hin, hout⟩ :=
        ih (n + 1) (removeKey cfg st k).2 ⟨hinv, hsst ▸ hsound.sstables⟩
      refine ⟨st', ?_, hsound', fun key hmem => ?_, fun key hmem => ?_⟩
      · rw [List.foldl_cons, hremoved, if_pos rfl, hfold, List.length_cons]
        exact congrArg (fun i => (i, st')) (by omega)
      · by_cases hrest : key ∈ rest
        · exact hin key hrest
        · obtain rfl := (List.mem_cons.1 hmem).resolve_right hrest
          refine ⟨st.marked key, ?_, rfl⟩
          rw [hout key hrest, hnew, Function.update_self]
      · rw [List.mem_cons, not_or] at hmem
        rw [hout key hmem.2, hnew, Function.update_of_ne hmem.1]

/-- What `set_key_expire` does when the memtable has no dead entry of the key: a live
version takes the expiry, and without one it throws. -/
theorem setKeyExpire_of_live (hinv : Inv cfg st)
    (hfits : st.Full env → Fits cfg env)
    (hlive : ∀ v, st.memtable.get key = some v → v.isLive env.now = true) (t : UInt64) :
    ∃ st', ((st.Rotates env key → FreshName cfg env st) → Inv cfg st') ∧
      st'.sstableManager = st.sstableManager ∧
      match st.live env.now key with
      | some v => setKeyExpire cfg env st key t = (st', .ok ()) ∧
          st'.newestOf = Function.update st.newestOf key (some (withExpiry v.value t))
      | none => setKeyExpire cfg env st key t = (st', .error (.runtimeError "key not found")) ∧
          st'.newestOf = st.newestOf := by
  have hget : st.memtable.get key = none →
      st.get env.now key = (st.live env.now key).map EValue.value :=
    fun hentry => visible_layers_of_none env.now hentry
  rcases setKeyExpire_cases cfg env hinv.memtable key t with
    ⟨v, hentry, hdead, -⟩ | ⟨v, hentry, hv, h⟩ | ⟨hentry, hnone, h⟩ |
      ⟨hentry, v, hv, -, h⟩ | ⟨hentry, v, hv, hfull, h⟩
  · -- a dead entry of the memtable is excluded; on it there would be no error
    rw [hlive v hentry] at hdead
    cases hdead
  · have hnewest : st.live env.now key = some v := by
      rw [Storage.live, newestOf_eq, hentry, Option.some_or, Option.filter_some, if_pos hv]
    rw [hnewest]
    refine ⟨_, ?_, ?_, h, newestOf_put hinv.memtable⟩
    · exact fun _ => inv_put hinv
    · rfl
  · rw [hget hentry, Option.map_eq_none_iff] at hnone
    rw [hnone]
    exact ⟨st, fun _ => hinv, rfl, h, rfl⟩
  · rw [hget hentry] at hv
    obtain ⟨w, hw, rfl⟩ := Option.map_eq_some_iff.1 hv
    rw [hw]
    refine ⟨_, ?_, ?_, h, newestOf_put hinv.memtable⟩
    · exact fun _ => inv_put hinv
    · rfl
  · rw [hget hentry] at hv
    obtain ⟨w, hw, rfl⟩ := Option.map_eq_some_iff.1 hv
    -- after the rotation the new memtable has room
    rcases h with h | ⟨hfresh, -⟩
    · rw [hw]
      refine ⟨_, ?_, ?_, h, newestOf_put_rotate hinv⟩
      · exact fun hname => inv_put (inv_rotate hinv (hname (Or.inl hfull)))
      · rfl
    · rw [show (createNewMemtable cfg).shouldFlush env.usage = false from
        hfits hfull] at hfresh
      cases hfresh

/-- `set_expire` logs the expiry second and sets it. -/
theorem setExpire_eq (cfg : StorageConfig) (env : Env) (st : Storage) (key : Bytes)
    (aliveTime : UInt64) :
    setExpire cfg env st key aliveTime = setKeyExpire cfg env
      (logRecord cfg false .expire key (decimal (expiryAt env.now aliveTime).toNat) st) key
        (expiryAt env.now aliveTime) := by
  simp only [setExpire, logRecord, expiryAt, Bool.not_false, Bool.and_true]

/-- **What an entry does is what it means.** -/
theorem perform_means {F : FloatOps} {type : WriteCommand} {args : List Bytes}
    (hsound : Sound cfg st) (hmeets : EntryMeets cfg env F st type args) :
    ∃ st' response, perform cfg env st (request F type args) = (st', response) ∧ Sound cfg st' ∧
      Means env.now st.newestOf (request F type args) response st'.newestOf := by
  have hsteady : ∀ v, (type = .logged .hSet → v.isLive env.now = false → FieldsDistinct args) →
      (request F type args).Steady env.now v :=
    fun v hdistinct => steady_request F type args hdistinct
  replace hmeets := hmeets.2
  cases hrequest : request F type args with
  | update op key =>
      rw [hrequest] at hmeets hsteady
      -- the operation reads the live version and writes at most one new version
      obtain ⟨⟨hfits, hname⟩, hentry⟩ := hmeets
      obtain ⟨st', hprocess, hinv', hnew, hsst⟩ := process_spec hsound.inv false op
        (fun _ _ _ _ => hfits) fun v hv => hsteady v (hentry v hv).2 (hentry v hv).1
      refine ⟨st', respond (op.fallback ((st.newestOf key).filter (EValue.isLive env.now))), ?_,
        ⟨hinv' hname, hsst ▸ hsound.sstables⟩, rfl, hnew⟩
      simp only [perform, hprocess]
      cases op.fallback ((st.newestOf key).filter (EValue.isLive env.now)) with
      | ok r => rfl
      | error e => rfl
  | set key value ttl =>
      rw [hrequest] at hmeets
      obtain ⟨hlogged, hsame⟩ := logRecord_spec hsound.inv false .set key
        (serialize (fun _ => []) { value := .string value, expireTime := (expiryAt env.now ttl).toUInt32 })
      have hwrites := writes_of_sameData hsame hmeets
      obtain ⟨st', hwrite, hinv', hnew, hsst⟩ := writeMemtable_of_fits hlogged (fun _ => hwrites.1) key
        { value := .string value, expireTime := (expiryAt env.now ttl).toUInt32 }
      have hexpiry : (if ttl = 0 then 0 else (UInt64.ofNat env.now + ttl).toUInt32) =
          (expiryAt env.now ttl).toUInt32 := by
        rw [expiryAt]
        split <;> rfl
      refine ⟨st', _, ?_, ⟨hinv' hwrites.2, (hsst.trans hsame.sstables) ▸ hsound.sstables⟩, rfl, ?_⟩
      · simp only [perform, set, hexpiry, hwrite, ↓reduceIte]
      · rw [hnew, hsame.newestOf]
  | remove keys =>
      have hnonempty : keys ≠ [] := by
        have h := hsteady default fun _ hdead => by cases hdead
        rw [hrequest] at h
        exact h
      -- one key after another; the removals need no condition
      obtain ⟨st', hfold, hsound', hin, hout⟩ := foldl_removeKey keys 0 st hsound
      refine ⟨st', .count keys.length, ?_, hsound', rfl, hin, hout⟩
      rw [Nat.zero_add] at hfold
      simp only [perform, remove, hnonempty, ↓reduceIte, hfold]
  | expire key aliveTime =>
      rw [hrequest] at hmeets
      obtain ⟨hwrites, hentry⟩ := hmeets
      obtain ⟨hlogged, hsame⟩ := logRecord_spec hsound.inv false .expire key
        (decimal (expiryAt env.now aliveTime).toNat)
      obtain ⟨st', hinv', hsst, hexpire⟩ := setKeyExpire_of_live hlogged
        (fun _ => hwrites.1) (by rw [hsame.memtable]; exact hentry) (expiryAt env.now aliveTime)
      have hinv' := hinv' (writes_of_sameData hsame hwrites).2
      -- the record changes no version, so the key is looked up as before it
      have hlive : (logRecord cfg false .expire key (decimal (expiryAt env.now aliveTime).toNat)
          st).live env.now key = (st.newestOf key).filter (EValue.isLive env.now) := by
        rw [Storage.live, hsame.newestOf]
      have hsound' : Sound cfg st' := ⟨hinv', (hsst.trans hsame.sstables) ▸ hsound.sstables⟩
      have hset := setExpire_eq cfg env st key aliveTime
      rw [hlive] at hexpire
      simp only [Means]
      cases hversion : (st.newestOf key).filter (EValue.isLive env.now) with
      | none =>
          simp only [hversion] at hexpire
          refine ⟨st', .error "key not found", ?_, hsound', rfl, ?_⟩
          · simp only [perform, hset, hexpire.1]
            rfl
          · rw [hexpire.2, hsame.newestOf]
      | some v =>
          simp only [hversion] at hexpire
          refine ⟨st', .success (.string [49]), ?_, hsound', rfl, ?_⟩
          · simp only [perform, hset, hexpire.1]
          · rw [hexpire.2, hsame.newestOf]
  | range startKey endKey =>
      rw [hrequest] at hmeets
      have hrange := (isRangeOf_range_iff startKey endKey).2 hmeets
      refine ⟨st, _, rfl, hsound, ⟨_, rfl, hrange.1, fun key value => ?_⟩, rfl⟩
      rw [hrange.2]
      refine and_congr_right fun _ => and_congr_right fun _ => exists_congr fun v => ?_
      rw [Option.filter_eq_some_iff, and_assoc]
  | reject errorMsg => exact ⟨st, .error errorMsg, rfl, hsound, rfl, rfl⟩

end Execution

section Runs

/-- What a node does on its own between two entries. -/
inductive Maintenance where
  | rotateMemtable
  | flushMemtableToSstable
  deriving DecidableEq, Repr

/-- What one node does for one entry: the maintenance before it, and the environment in
which it executes the entry. -/
structure NodeStep where
  maintenance : List (Env × Maintenance)
  env : Env

/-- The environments of a step, in the order of time. -/
def NodeStep.envs (s : NodeStep) : List Env := s.maintenance.map Prod.fst ++ [s.env]

/-- The clock does not go back in a node's run. -/
def ClockGoes (start : Env) (steps : List NodeStep) : Prop :=
  (start :: steps.flatMap NodeStep.envs).Pairwise fun a b => a.now ≤ b.now

variable (cfg : StorageConfig) (F : FloatOps) (readOnly : Bool)

def maintain (env : Env) (st : Storage) : Maintenance → Option Storage
  | .rotateMemtable => some (rotateMemtable cfg env st)
  | .flushMemtableToSstable => flushMemtableToSstable cfg env st

/-- The maintenance of a step. -/
def maintainAll : List (Env × Maintenance) → Storage → Option Storage
  | [], st => some st
  | (env, m) :: rest, st => do
      let st' ← maintain cfg env st m
      maintainAll rest st'

/-- A node executes the entries of the log, each with what its memory holds where a `double` is not
set: the last state and the responses. -/
def replay : List (Bytes × NodeStep) → Storage → Option (Storage × List Response)
  | [], st => some (st, [])
  | (cmd, s) :: rest, st => do
      let st ← maintainAll cfg s.maintenance st
      let (st, response) ← executeCommand cfg s.env (F.finding (s.env.unsetScore 0)) readOnly cmd st
      let (st, responses) ← replay rest st
      return (st, response :: responses)

/-- A rotation takes a new file name, and the merges of a flush are safe. -/
def MaintenanceMeets : List (Env × Maintenance) → Storage → Prop
  | [], _ => True
  | (env, .rotateMemtable) :: rest, st =>
      FreshName cfg env st ∧ MaintenanceMeets rest (rotateMemtable cfg env st)
  | (env, .flushMemtableToSstable) :: rest, st => FlushSafe cfg env st ∧
      ∀ st' ∈ flushMemtableToSstable cfg env st, MaintenanceMeets rest st'

/-- What two nodes need for one entry, in the states in which they execute it: each what
its own store needs, and both that no key that is read is expired on one of them only and
that no expiry is set at different seconds. -/
def PairMeets (cfg₁ cfg₂ : StorageConfig) (F : FloatOps) (env₁ env₂ : Env) (st₁ st₂ : Storage)
    (type : WriteCommand) (args : List Bytes) : Prop :=
  EntryMeets cfg₁ env₁ F st₁ type args ∧ EntryMeets cfg₂ env₂ F st₂ type args ∧
    (∀ key, (request F type args).Reads key →
      (st₁.live env₁.now key).isSome = (st₂.live env₂.now key).isSome) ∧
    (request F type args).SameExpiry env₁.now env₂.now

/-- Every step of two runs over one log meets its conditions. -/
def RunsMeet (cfg₁ cfg₂ : StorageConfig) (F : FloatOps) (readOnly : Bool) :
    List (Bytes × NodeStep × NodeStep) → Storage → Storage → Prop
  | [], _, _ => True
  | (cmd, s₁, s₂) :: rest, st₁, st₂ =>
      MaintenanceMeets cfg₁ s₁.maintenance st₁ ∧ MaintenanceMeets cfg₂ s₂.maintenance st₂ ∧
      ∀ st₁' ∈ maintainAll cfg₁ s₁.maintenance st₁, ∀ st₂' ∈ maintainAll cfg₂ s₂.maintenance st₂,
        (∀ c ∈ parseCommand cmd, PairMeets cfg₁ cfg₂ F s₁.env s₂.env st₁' st₂' c.1 c.2) ∧
        ∀ r₁ ∈ executeCommand cfg₁ s₁.env (F.finding (s₁.env.unsetScore 0)) readOnly cmd st₁',
          ∀ r₂ ∈ executeCommand cfg₂ s₂.env (F.finding (s₂.env.unsetScore 0)) readOnly cmd st₂',
            RunsMeet cfg₁ cfg₂ F readOnly rest r₁.1 r₂.1

/-- The runs of the two nodes. -/
def firstRun (script : List (Bytes × NodeStep × NodeStep)) : List (Bytes × NodeStep) :=
  script.map fun e => (e.1, e.2.1)

def secondRun (script : List (Bytes × NodeStep × NodeStep)) : List (Bytes × NodeStep) :=
  script.map fun e => (e.1, e.2.2)

variable {cfg F readOnly} {st st' : Storage}

theorem rotate_settles {env : Env} (hsound : Sound cfg st) (hname : FreshName cfg env st)
    (now : Nat) : Settled cfg now st (rotateMemtable cfg env st) := by
  refine ⟨⟨inv_rotate hsound.inv hname, hsound.sstables⟩, fun key => ?_⟩
  rw [Storage.live, Storage.live, newestOf_rotate hsound.inv]

/-- Maintenance keeps the live versions at every second from its clocks on. -/
theorem maintainAll_spec (l : List (Env × Maintenance)) : ∀ st st' : Storage, Sound cfg st →
    MaintenanceMeets cfg l st → maintainAll cfg l st = some st' →
      Sound cfg st' ∧ ∀ t, (∀ e ∈ l, e.1.now ≤ t) → ∀ key, st'.live t key = st.live t key := by
  induction l with
  | nil =>
      intro st st' hsound _ hrun
      obtain rfl := Option.some.inj hrun
      exact ⟨hsound, fun _ _ _ => rfl⟩
  | cons e rest ih =>
      obtain ⟨env, m⟩ := e
      intro st st' hsound hmeets hrun
      obtain ⟨mid, hmid, hrest⟩ := Option.bind_eq_some_iff.1 hrun
      have hsettled : Settled cfg env.now st mid ∧ MaintenanceMeets cfg rest mid := by
        cases m with
        | rotateMemtable =>
            obtain rfl := Option.some.inj hmid
            exact ⟨rotate_settles hsound hmeets.1 env.now, hmeets.2⟩
        | flushMemtableToSstable =>
            exact ⟨flush_settles hsound hmeets.1 hmid, hmeets.2 mid hmid⟩
      obtain ⟨hsound', hlive⟩ := ih mid st' hsettled.1.sound hsettled.2 hrest
      refine ⟨hsound', fun t ht key => ?_⟩
      rw [hlive t (fun e he => ht e (List.mem_cons_of_mem _ he)) key]
      exact hsettled.1.live_of_le (ht (env, m) List.mem_cons_self) key

/-- A run starts with its first step: the clock of its maintenance is between the start and
the entry, and the rest of the run starts at the entry. -/
theorem clockGoes_cons {start : Env} {s : NodeStep} {rest : List NodeStep}
    (h : ClockGoes start (s :: rest)) :
    start.now ≤ s.env.now ∧ (∀ e ∈ s.maintenance, e.1.now ≤ s.env.now) ∧ ClockGoes s.env rest := by
  rw [ClockGoes, List.flatMap_cons, NodeStep.envs, List.append_assoc, List.pairwise_cons,
    List.pairwise_append] at h
  obtain ⟨hstart, -, hrest, hcross⟩ := h
  have hentry : s.env ∈ [s.env] ++ rest.flatMap NodeStep.envs := List.mem_cons_self
  refine ⟨hstart s.env (List.mem_append_right _ hentry), fun e he => ?_, hrest⟩
  exact hcross e.1 (List.mem_map_of_mem he) s.env hentry

variable {cfg₁ cfg₂ : StorageConfig} {start₁ start₂ : Env} {s₁ s₂ : NodeStep}
  {st₁ st₂ st₁' st₂' : Storage}

/-- The maintenance of both nodes before an entry keeps their agreement. -/
theorem maintain_agree (hsound₁ : Sound cfg₁ st₁) (hsound₂ : Sound cfg₂ st₂)
    (hagree : AgreeFrom start₁.now start₂.now st₁.newestOf st₂.newestOf)
    (hle₁ : start₁.now ≤ s₁.env.now) (hle₂ : start₂.now ≤ s₂.env.now)
    (hclock₁ : ∀ e ∈ s₁.maintenance, e.1.now ≤ s₁.env.now)
    (hclock₂ : ∀ e ∈ s₂.maintenance, e.1.now ≤ s₂.env.now)
    (hmeets₁ : MaintenanceMeets cfg₁ s₁.maintenance st₁)
    (hmeets₂ : MaintenanceMeets cfg₂ s₂.maintenance st₂)
    (hrun₁ : maintainAll cfg₁ s₁.maintenance st₁ = some st₁')
    (hrun₂ : maintainAll cfg₂ s₂.maintenance st₂ = some st₂') :
    Sound cfg₁ st₁' ∧ Sound cfg₂ st₂' ∧
      AgreeFrom s₁.env.now s₂.env.now st₁'.newestOf st₂'.newestOf := by
  obtain ⟨hsound₁', hlive₁⟩ := maintainAll_spec _ st₁ st₁' hsound₁ hmeets₁ hrun₁
  obtain ⟨hsound₂', hlive₂⟩ := maintainAll_spec _ st₂ st₂' hsound₂ hmeets₂ hrun₂
  refine ⟨hsound₁', hsound₂', fun t ht₁ ht₂ key => ?_⟩
  calc st₁'.live t key = st₁.live t key := hlive₁ t (fun e he => (hclock₁ e he).trans ht₁) key
    _ = st₂.live t key := hagree t (hle₁.trans ht₁) (hle₂.trans ht₂) key
    _ = st₂'.live t key := (hlive₂ t (fun e he => (hclock₂ e he).trans ht₂) key).symm

/-- An entry that both nodes execute keeps their agreement and is answered the same. -/
theorem execute_agree {cmd : Bytes} {r₁ r₂ : Storage × Response} (hsound₁ : Sound cfg₁ st₁)
    (hsound₂ : Sound cfg₂ st₂)
    (hagree : AgreeFrom s₁.env.now s₂.env.now st₁.newestOf st₂.newestOf)
    (hmeets : ∀ c ∈ parseCommand cmd, PairMeets cfg₁ cfg₂ F s₁.env s₂.env st₁ st₂ c.1 c.2)
    (hrun₁ : executeCommand cfg₁ s₁.env (F.finding (s₁.env.unsetScore 0)) readOnly cmd st₁ =
      some r₁)
    (hrun₂ : executeCommand cfg₂ s₂.env (F.finding (s₂.env.unsetScore 0)) readOnly cmd st₂ =
      some r₂) :
    Sound cfg₁ r₁.1 ∧ Sound cfg₂ r₂.1 ∧ r₁.2 = r₂.2 ∧
      AgreeFrom s₁.env.now s₂.env.now r₁.1.newestOf r₂.1.newestOf := by
  obtain ⟨⟨type, args⟩, hparse, rfl⟩ := Option.map_eq_some_iff.1 hrun₁
  obtain ⟨c, hparse', rfl⟩ := Option.map_eq_some_iff.1 hrun₂
  obtain rfl := Option.some.inj (hparse.symm.trans hparse')
  cases readOnly with
  | true => exact ⟨hsound₁, hsound₂, rfl, hagree⟩
  | false =>
      obtain ⟨hmeets₁, hmeets₂, hreads, hexpiry⟩ := hmeets _ hparse
      obtain ⟨st₁', response₁, h₁, hsound₁', hmeans₁⟩ := perform_means hsound₁ hmeets₁
      obtain ⟨st₂', response₂, h₂, hsound₂', hmeans₂⟩ := perform_means hsound₂ hmeets₂
      -- the ranks are there, so what each node's memory holds is not read
      rw [perform_alike hsound₁.inv.memtable (alike_request F (s₁.env.unsetScore 0) hmeets₁.1)] at h₁
      rw [perform_alike hsound₂.inv.memtable (alike_request F (s₂.env.unsetScore 0) hmeets₂.1)] at h₂
      simp only [execute, Bool.false_eq_true, ↓reduceIte, h₁, h₂]
      exact ⟨hsound₁', hsound₂', means_agree hagree hreads hexpiry hmeans₁ hmeans₂⟩

/-- **Replica determinism.** Two nodes with stores that agree execute the same log, each
at its own clock and with its own rotations and flushes. If every step meets its
conditions, they give the same responses, and in the end every key has the same live
version, with its value and its expiry, at every second from both clocks on. -/
theorem replay_agree (F : FloatOps) (cfg₁ cfg₂ : StorageConfig) {readOnly₁ readOnly₂ : Bool}
    (hreadOnly : readOnly₁ = readOnly₂) (script : List (Bytes × NodeStep × NodeStep)) :
    ∀ (start₁ start₂ : Env) (st₁ st₂ : Storage) (r₁ r₂ : Storage × List Response),
      Sound cfg₁ st₁ → Sound cfg₂ st₂ →
      AgreeFrom start₁.now start₂.now st₁.newestOf st₂.newestOf →
      ClockGoes start₁ (script.map fun e => e.2.1) → ClockGoes start₂ (script.map fun e => e.2.2) →
      RunsMeet cfg₁ cfg₂ F readOnly₁ script st₁ st₂ →
      replay cfg₁ F readOnly₁ (firstRun script) st₁ = some r₁ →
      replay cfg₂ F readOnly₂ (secondRun script) st₂ = some r₂ →
        r₁.2 = r₂.2 ∧ ∀ t, start₁.now ≤ t → start₂.now ≤ t →
          (∀ e ∈ script, e.2.1.env.now ≤ t ∧ e.2.2.env.now ≤ t) →
            ∀ key, r₁.1.live t key = r₂.1.live t key := by
  subst hreadOnly
  induction script with
  | nil =>
      intro start₁ start₂ st₁ st₂ r₁ r₂ _ _ hagree _ _ _ hrun₁ hrun₂
      obtain rfl := Option.some.inj hrun₁
      obtain rfl := Option.some.inj hrun₂
      exact ⟨rfl, fun t h₁ h₂ _ key => hagree t h₁ h₂ key⟩
  | cons e rest ih =>
      obtain ⟨cmd, s₁, s₂⟩ := e
      intro start₁ start₂ st₁ st₂ r₁ r₂ hsound₁ hsound₂ hagree hclock₁ hclock₂ hmeets hrun₁ hrun₂
      obtain ⟨hle₁, hmaint₁, hclock₁⟩ := clockGoes_cons hclock₁
      obtain ⟨hle₂, hmaint₂, hclock₂⟩ := clockGoes_cons hclock₂
      obtain ⟨hmeets₁, hmeets₂, hentry⟩ := hmeets
      obtain ⟨mid₁, hmid₁, hrun₁⟩ := Option.bind_eq_some_iff.1 hrun₁
      obtain ⟨mid₂, hmid₂, hrun₂⟩ := Option.bind_eq_some_iff.1 hrun₂
      obtain ⟨next₁, hnext₁, hrun₁⟩ := Option.bind_eq_some_iff.1 hrun₁
      obtain ⟨next₂, hnext₂, hrun₂⟩ := Option.bind_eq_some_iff.1 hrun₂
      obtain ⟨last₁, hlast₁, hret₁⟩ := Option.bind_eq_some_iff.1 hrun₁
      obtain ⟨last₂, hlast₂, hret₂⟩ := Option.bind_eq_some_iff.1 hrun₂
      obtain rfl := Option.some.inj hret₁
      obtain rfl := Option.some.inj hret₂
      -- The maintenance first, then the entry, then the rest of the log from there.
      obtain ⟨hsound₁, hsound₂, hagree⟩ := maintain_agree hsound₁ hsound₂ hagree hle₁ hle₂ hmaint₁
        hmaint₂ hmeets₁ hmeets₂ hmid₁ hmid₂
      obtain ⟨hpair, hrest⟩ := hentry mid₁ hmid₁ mid₂ hmid₂
      obtain ⟨hsound₁, hsound₂, hresponse, hagree⟩ :=
        execute_agree hsound₁ hsound₂ hagree hpair hnext₁ hnext₂
      obtain ⟨hresponses, hlive⟩ := ih s₁.env s₂.env next₁.1 next₂.1 last₁ last₂ hsound₁ hsound₂
        hagree hclock₁ hclock₂ (hrest next₁ hnext₁ next₂ hnext₂) hlast₁ hlast₂
      refine ⟨by rw [hresponse, hresponses], fun t _ _ ht => ?_⟩
      obtain ⟨h₁, h₂⟩ := ht _ List.mem_cons_self
      exact hlive t h₁ h₂ fun e he => ht e (List.mem_cons_of_mem _ he)

/-- The clock shows the second `n`, and memtables use no memory. -/
def second (n : Nat) : Env := tick (n * 10 ^ 9)

/-- A command with a time to live. -/
def setWithTtl : Bytes := ascii "set k v 10"

/-- The second node executes the entry a second later. -/
def delayedScript : List (Bytes × NodeStep × NodeStep) :=
  [(setWithTtl, ⟨[], second 1⟩, ⟨[], second 2⟩)]

theorem replay_delayedScript :
    ((replay roomyConfig noFloats false (firstRun delayedScript)
        (openEmpty roomyConfig (tick 1))).map fun r => r.1.live 2 [107]) =
      some (some { value := .string [118], expireTime := 11 }) ∧
    ((replay roomyConfig noFloats false (secondRun delayedScript)
        (openEmpty roomyConfig (tick 1))).map fun r => r.1.live 2 [107]) =
      some (some { value := .string [118], expireTime := 12 }) := by
  decide

/-- The key expires at different seconds on the two nodes. -/
theorem replay_diverges :
    ¬ ∀ (F : FloatOps) (cfg₁ cfg₂ : StorageConfig) (readOnly : Bool)
      (script : List (Bytes × NodeStep × NodeStep)) (start₁ start₂ : Env) (st : Storage)
      (r₁ r₂ : Storage × List Response), Sound cfg₁ st → Sound cfg₂ st →
      ClockGoes start₁ (script.map fun e => e.2.1) → ClockGoes start₂ (script.map fun e => e.2.2) →
      replay cfg₁ F readOnly (firstRun script) st = some r₁ →
      replay cfg₂ F readOnly (secondRun script) st = some r₂ →
        r₁.2 = r₂.2 ∧ ∀ t, start₁.now ≤ t → start₂.now ≤ t →
          (∀ e ∈ script, e.2.1.env.now ≤ t ∧ e.2.2.env.now ≤ t) →
            ∀ key, r₁.1.live t key = r₂.1.live t key := by
  intro hall
  obtain ⟨h₁, h₂⟩ := replay_delayedScript
  obtain ⟨r₁, hrun₁, hlive₁⟩ := Option.map_eq_some_iff.1 h₁
  obtain ⟨r₂, hrun₂, hlive₂⟩ := Option.map_eq_some_iff.1 h₂
  have hsound := sound_openEmpty roomyConfig (tick 1)
  have hsame := (hall noFloats roomyConfig roomyConfig false delayedScript (tick 1) (tick 1) _ r₁ r₂
    hsound hsound (by simp [ClockGoes, delayedScript, NodeStep.envs, second, tick, Env.now])
    (by simp [ClockGoes, delayedScript, NodeStep.envs, second, tick, Env.now]) hrun₁ hrun₂).2 2
    (by decide) (by decide) (by simp [delayedScript, second, tick, Env.now]) [107]
  rw [hlive₁, hlive₂] at hsame
  exact absurd hsame (by decide)

/-- A change of the expiry. -/
def expireKey : Bytes := ascii "EXPIRE k 5"

/-- Both nodes execute the entries in the same second; the first one has rotated in
between, so it finds the key in an immutable memtable and the second one in the memtable. -/
def rotatedScript : List (Bytes × NodeStep × NodeStep) :=
  [(setWithTtl, ⟨[], second 1⟩, ⟨[], second 1⟩),
    (expireKey, ⟨[(second 1, .rotateMemtable)], second 1⟩, ⟨[], second 1⟩)]

/-- Without memory in use no memtable is ever full. -/
theorem shouldFlush_of_no_usage (n : Nat) (m : MemTable) :
    m.shouldFlush (tick n).usage = false := by
  rw [MemTable.shouldFlush, tick]
  cases m.memtableSize with
  | zero => rfl
  | succ size => rfl

theorem writes_of_no_usage (cfg : StorageConfig) (n : Nat) (st : Storage) (key : Bytes) :
    Writes cfg (tick n) st key := by
  have hnever := shouldFlush_of_no_usage n
  refine ⟨hnever _, ?_⟩
  rintro (h | ⟨value, h⟩)
  · rw [Full, hnever] at h
    cases h
  · rw [Fills, hnever] at h
    cases h

/-- The store after the first entry. -/
def storeWithKey : Storage :=
  (perform roomyConfig (second 1) (openEmpty roomyConfig (tick 1)) (.set [107] [118] 10)).1

theorem runsMeet_rotatedScript :
    RunsMeet roomyConfig roomyConfig noFloats false rotatedScript
      (openEmpty roomyConfig (tick 1)) (openEmpty roomyConfig (tick 1)) := by
  have hset : parseCommand setWithTtl = some (.logged .set, [[107], [118], [49, 48]]) := by decide
  have hexpire : parseCommand expireKey = some (.logged .expire, [[107], [53]]) := by decide
  have hwrites := fun st => writes_of_no_usage roomyConfig (1 * 10 ^ 9) st [107]
  have hexecuted : ∀ {st : Storage} {r : Storage × Response},
      executeCommand roomyConfig (second 1) (noFloats.finding 0) false setWithTtl st = some r →
        r = perform roomyConfig (second 1) st (.set [107] [118] 10) := by
    intro st r hr
    rw [executeCommand, hset] at hr
    exact (Option.some.inj hr).symm
  refine ⟨trivial, trivial, ?_⟩
  rintro st₁ h₁ st₂ h₂
  obtain rfl := Option.some.inj h₁
  obtain rfl := Option.some.inj h₂
  refine ⟨fun c hc => ?_, fun r₁ hr₁ r₂ hr₂ => ?_⟩
  · obtain rfl := Option.some.inj (hset.symm.trans hc)
    exact ⟨⟨(fun h => by cases h), hwrites _⟩, ⟨(fun h => by cases h), hwrites _⟩, fun _ h => h.elim,
      Or.inr rfl⟩
  · obtain rfl := hexecuted hr₁
    obtain rfl := hexecuted hr₂
    refine ⟨⟨show FreshName roomyConfig (second 1) storeWithKey by decide, trivial⟩, trivial, ?_⟩
    rintro st₁ h₁ st₂ h₂
    obtain rfl := Option.some.inj h₁
    obtain rfl := Option.some.inj h₂
    refine ⟨fun c hc => ?_, fun _ _ _ _ => trivial⟩
    obtain rfl := Option.some.inj (hexpire.symm.trans hc)
    refine ⟨⟨(fun h => by cases h), hwrites _, fun v hv => ?_⟩,
      ⟨(fun h => by cases h), hwrites _, fun v hv => ?_⟩, ?_, Or.inr rfl⟩
    · have hnone : (rotateMemtable roomyConfig (second 1) storeWithKey).memtable.get [107] =
          none := by decide
      cases hnone.symm.trans hv
    · have hentry : storeWithKey.memtable.get [107] =
          some { value := .string [118], expireTime := 11 } := by decide
      obtain rfl := Option.some.inj (hentry.symm.trans hv)
      decide
    · rintro key rfl
      decide

theorem replay_agree_rotated :
    ∃ r₁ r₂, replay roomyConfig noFloats false (firstRun rotatedScript)
        (openEmpty roomyConfig (tick 1)) = some r₁ ∧
      replay roomyConfig noFloats false (secondRun rotatedScript)
        (openEmpty roomyConfig (tick 1)) = some r₂ ∧
      r₁.2 = r₂.2 ∧ r₁.1.live 5 [107] = r₂.1.live 5 [107] := by
  obtain ⟨r₁, hrun₁⟩ := Option.isSome_iff_exists.1 (show (replay roomyConfig noFloats false
    (firstRun rotatedScript) (openEmpty roomyConfig (tick 1))).isSome = true by decide)
  obtain ⟨r₂, hrun₂⟩ := Option.isSome_iff_exists.1 (show (replay roomyConfig noFloats false
    (secondRun rotatedScript) (openEmpty roomyConfig (tick 1))).isSome = true by decide)
  have hsound := sound_openEmpty roomyConfig (tick 1)
  obtain ⟨hresponses, hlive⟩ := replay_agree noFloats roomyConfig roomyConfig (Eq.refl false)
    rotatedScript (tick 1) (tick 1) _ _ r₁ r₂ hsound hsound (fun _ _ _ _ => rfl)
    (by simp [ClockGoes, rotatedScript, NodeStep.envs, second, tick, Env.now])
    (by simp [ClockGoes, rotatedScript, NodeStep.envs, second, tick, Env.now])
    runsMeet_rotatedScript hrun₁ hrun₂
  refine ⟨r₁, r₂, hrun₁, hrun₂, hresponses, hlive 5 (by decide) (by decide) ?_ [107]⟩
  simp [rotatedScript, second, tick, Env.now]

end Runs

end Storage

end EyaKV.Store
