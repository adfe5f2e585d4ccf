import EyaKV.Store.LogRecords
import EyaKV.Store.Replay

/-!
# Times to live

SET reads a time to live as a `long long`, EXPIRE as an `unsigned long long` which takes a minus
sign as well; both go on as a `uint64_t`, are added to the clock in 64 bits, and the sum is narrowed
to the 32 bits of `EValue::expire_time`, where 0 means that the entry never expires. The log has the
narrowed second of a SET and the sum of an EXPIRE as a decimal number, which the recovery narrows.

So the second that is stored is the remainder of clock and number by 2^32 (`toNat_expiryAt`), and
it is right exactly when the number is 0 or the sum lies between 1 and 2^32 - 1 (`expiry_iff`).
-/

set_option autoImplicit false

namespace EyaKV.Store

open EyaKV.Base EyaKV.Base.Framing

section Arithmetic

variable {now : Nat} {z : Int}

/-- The number that a text names, as the parsers of the standard library see it. -/
def numberOf (text : Bytes) : Option Int :=
  (parseSigned text).map fun p => if p.1 then -(p.2 : Int) else p.2

theorem toNat_ofInt (z : Int) : (UInt64.ofInt z).toNat = (z % 2 ^ 64).toNat := by
  rw [UInt64.ofInt, UInt64.toNat_ofNat']
  omega

theorem ofInt_eq_zero_iff (hlow : -2 ^ 64 < z) (hhigh : z < 2 ^ 64) :
    UInt64.ofInt z = 0 ↔ z = 0 := by
  rw [← UInt64.toNat_inj, toNat_ofInt, UInt64.toNat_zero]
  omega

/-- **The second that is stored** for a time to live. -/
theorem toNat_expiryAt (hlow : -2 ^ 64 < z) (hhigh : z < 2 ^ 64) :
    (((expiryAt now (UInt64.ofInt z)).toUInt32.toNat : Nat) : Int) =
      if z = 0 then 0 else (now + z) % 2 ^ 32 := by
  rw [expiryAt]
  by_cases hz : z = 0
  · rw [if_pos ((ofInt_eq_zero_iff hlow hhigh).2 hz), if_pos hz]
    rfl
  · rw [if_neg (fun h => hz ((ofInt_eq_zero_iff hlow hhigh).1 h)), if_neg hz,
      UInt64.toNat_toUInt32, UInt64.toNat_add, UInt64.toNat_ofNat', toNat_ofInt]
    omega

/-- What a time to live of `z` seconds from `now` on means for an entry: 0 is stored for 0, and the
sum for a positive one; and the entry has expired at the seconds after the sum, and no other. -/
structure ExpiresAt (now : Nat) (z : Int) (v : EValue) : Prop where
  present : v.isDeleted = false
  never : z = 0 → v.expireTime = 0
  exact : 0 < z → (v.expireTime.toNat : Int) = now + z
  expired : ∀ t : Nat, v.isExpired t = true ↔ z ≠ 0 ∧ now + z < t

/-- The sum of clock and number is a second that can be stored. -/
def FitsField (now : Nat) (z : Int) : Prop := z = 0 ∨ (1 ≤ now + z ∧ now + z < 2 ^ 32)

instance (now : Nat) (z : Int) : Decidable (FitsField now z) := inferInstanceAs (Decidable (_ ∨ _))

theorem isExpired_iff (v : EValue) (t : Nat) :
    v.isExpired t = true ↔ 0 < v.expireTime.toNat ∧ v.expireTime.toNat < t := by
  rw [EValue.isExpired, Bool.and_eq_true, decide_eq_true_eq, decide_eq_true_eq, UInt32.lt_iff_toNat_lt,
    UInt32.toNat_zero]

/-- **When the stored second means what was asked for.** -/
theorem expiresAt_iff {v : EValue} (hpresent : v.isDeleted = false)
    (hsecond : (v.expireTime.toNat : Int) = if z = 0 then 0 else (now + z) % 2 ^ 32) :
    ExpiresAt now z v ↔ FitsField now z := by
  constructor
  · intro h
    by_cases hz : z = 0
    · exact Or.inl hz
    · rw [if_neg hz] at hsecond
      -- The second after the stored one, and the one after the sum, tell the two apart.
      have hafter := h.expired (v.expireTime.toNat + 1)
      have hsum := h.expired ((now + z).toNat + 1)
      rw [isExpired_iff] at hafter hsum
      right
      omega
  · intro hfits
    refine ⟨hpresent, fun hz => ?_, fun hz => ?_, fun t => ?_⟩
    · rw [if_pos hz] at hsecond
      rw [← UInt32.toNat_inj]
      exact Int.ofNat_inj.1 hsecond
    · rcases hfits with rfl | hfits
      · omega
      · rw [if_neg (by omega)] at hsecond
        omega
    · rw [isExpired_iff]
      rcases hfits with rfl | hfits
      · rw [if_pos rfl] at hsecond
        omega
      · split at hsecond
        · omega
        · omega

end Arithmetic

section Commands

/-- A command that gives a key a time to live. SET takes it as its third argument, if there is one,
and does not look at what follows. -/
inductive TtlCommand where
  | set (key value : Bytes) (rest : List Bytes)
  | expire (key ttl : Bytes)

namespace TtlCommand

def type : TtlCommand → WriteCommand
  | .set _ _ _ => .logged .set
  | .expire _ _ => .logged .expire

def args : TtlCommand → List Bytes
  | .set key value rest => key :: value :: rest
  | .expire key ttl => [key, ttl]

def key : TtlCommand → Bytes
  | .set key _ _ => key
  | .expire key _ => key

/-- The number of seconds that the command names. -/
def number : TtlCommand → Option Int
  | .set _ _ [] => some 0
  | .set _ _ (ttl :: _) => numberOf ttl
  | .expire _ ttl => numberOf ttl

/-- The call with a time to live. -/
def call (aliveTime : UInt64) : TtlCommand → Request
  | .set key value _ => .set key value aliveTime
  | .expire key _ => .expire key aliveTime

end TtlCommand

variable {F : FloatOps} {form : Overload} {c : TtlCommand} {z : Int}

theorem stoll_of_numberOf {text : Bytes} (h : numberOf text = some z) :
    (∃ e, stoll text = .error e) ∨ stoll text = .ok z ∧ -2 ^ 64 < z ∧ z < 2 ^ 64 := by
  obtain ⟨⟨negative, n⟩, hparse, rfl⟩ := Option.map_eq_some_iff.1 h
  rw [stoll, hparse]
  cases negative with
  | true =>
      simp only [↓reduceIte]
      split_ifs with hrange
      · exact Or.inl ⟨_, rfl⟩
      · exact Or.inr ⟨rfl, by omega, by omega⟩
  | false =>
      simp only [Bool.false_eq_true, ↓reduceIte]
      split_ifs with hrange
      · exact Or.inl ⟨_, rfl⟩
      · exact Or.inr ⟨rfl, by omega, by omega⟩

theorem stoull_of_numberOf {text : Bytes} (h : numberOf text = some z) :
    (∃ e, stoull text = .error e) ∨
      stoull text = .ok (UInt64.ofInt z) ∧ -2 ^ 64 < z ∧ z < 2 ^ 64 := by
  obtain ⟨⟨negative, n⟩, hparse, rfl⟩ := Option.map_eq_some_iff.1 h
  rw [stoull, hparse]
  simp only
  by_cases hrange : 2 ^ 64 ≤ n
  · rw [if_pos hrange]
    exact Or.inl ⟨_, rfl⟩
  · rw [if_neg hrange]
    refine Or.inr ?_
    cases negative with
    | true =>
        simp only [↓reduceIte]
        refine ⟨congrArg Except.ok (UInt64.toNat_inj.1 ?_), by omega, by omega⟩
        rw [toNat_ofInt, UInt64.toNat_sub, UInt64.toNat_ofNat', UInt64.toNat_zero]
        omega
    | false =>
        simp only [Bool.false_eq_true, ↓reduceIte]
        refine ⟨congrArg Except.ok (UInt64.toNat_inj.1 ?_), by omega, by omega⟩
        rw [toNat_ofInt, UInt64.toNat_ofNat']
        omega

/-- Both overloads reject the text, or go on with the number in 64 bits. -/
theorem request_of_number (h : c.number = some z) :
    (∃ msg, requestOf F form c.type c.args = .reject msg) ∨
      requestOf F form c.type c.args = c.call (UInt64.ofInt z) ∧ -2 ^ 64 < z ∧ z < 2 ^ 64 := by
  have hform : requestOf F form c.type c.args = request F c.type c.args := by
    cases form with
    | stringView => rfl
    | string =>
        cases c with
        | set key value rest => rfl
        | expire key ttl => rfl
  rw [hform]
  cases c with
  | set key value rest =>
      cases rest with
      | nil =>
          obtain rfl := Option.some.inj h
          exact Or.inr ⟨rfl, by decide, by decide⟩
      | cons ttl rest =>
          rcases stoll_of_numberOf h with ⟨e, herror⟩ | ⟨hok, hrange⟩
          · left
            exact ⟨_, by simp only [request, TtlCommand.type, TtlCommand.args,
              StringProcessor.request, herror]; rfl⟩
          · refine Or.inr ⟨?_, hrange⟩
            simp only [request, TtlCommand.type, TtlCommand.args, StringProcessor.request, hok]
            rfl
  | expire key ttl =>
      rcases stoull_of_numberOf h with ⟨e, herror⟩ | ⟨hok, hrange⟩
      · left
        exact ⟨_, by simp only [request, TtlCommand.type, TtlCommand.args, herror]; rfl⟩
      · refine Or.inr ⟨?_, hrange⟩
        simp only [request, TtlCommand.type, TtlCommand.args, hok]
        rfl

end Commands

section Records

variable {F : FloatOps} {toZset : Decoder UInt8 ZSet} {now : Nat} {c : TtlCommand}

/-- The entry of a log is read back with its flag and its second, whatever is made of its value. -/
theorem second_of_deserialize {ofZset : ZSet → Bytes} {v : EValue} {r : EValue × Bytes}
    (h : deserialize toZset (serialize ofZset v) = some r) :
    r.1.deleted = v.deleted ∧ r.1.expireTime = v.expireTime := by
  have hflag : ((if v.deleted then 1 else 0 : UInt8) != 0) = v.deleted := by
    cases v.deleted <;> rfl
  rw [serialize, deserialize, decodes_be32 _ v.expireTime.toNat_lt] at h
  simp only [Option.bind_eq_bind, Option.bind_some, Option.pure_def, hflag] at h
  obtain ⟨value, -, hr⟩ := Option.bind_eq_some_iff.1 h
  obtain rfl := Option.some.inj hr
  exact ⟨rfl, UInt32.ofNat_toNat⟩

/-- What the recovery makes of the record of a command has the second that the command stores. -/
theorem second_of_logged {aliveTime : UInt64} {entry : WalRecord × Action}
    (hentry : entry ∈ (c.call aliveTime).logged now) {a : Action}
    (ha : recoverAction F toZset entry.1 = some (.ok a)) {t : Nat} {o : Option EValue} {v : EValue}
    (hv : a.write t o = some v) :
    v.isDeleted = false ∧ v.expireTime = (expiryAt now aliveTime).toUInt32 := by
  cases c with
  | set key value rest =>
      obtain rfl := List.mem_singleton.1 hentry
      obtain ⟨r, hread, hr⟩ := Option.map_eq_some_iff.1 ha
      obtain rfl := Except.ok.inj hr
      obtain rfl := Option.some.inj hv
      exact second_of_deserialize hread
  | expire key ttl =>
      obtain rfl := List.mem_singleton.1 hentry
      have hread : recoverAction F toZset ⟨OperationType.expire.code, key,
          decimal (expiryAt now aliveTime).toNat⟩ = some (.ok (.expire (expiryAt now aliveTime))) :=
        congrArg (fun r => some (Except.map Action.expire r)) (stoull_decimal _)
      obtain rfl := Except.ok.inj (Option.some.inj (hread.symm.trans ha))
      obtain ⟨w, -, rfl⟩ := Option.map_eq_some_iff.1 hv
      exact ⟨rfl, rfl⟩

end Records

namespace Storage

section Stores

variable {cfg : StorageConfig} {env : Env} {st : Storage} {key : Bytes}

/-- What an accepted SET stores. -/
theorem newestOf_perform_set (hinv : Inv cfg st) {value : Bytes} {ttl : UInt64}
    (hok : (perform cfg env st (.set key value ttl)).2.code = .success) :
    (perform cfg env st (.set key value ttl)).1.newestOf key = some
      { value := .string value, expireTime := (expiryAt env.now ttl).toUInt32 } := by
  let v : EValue := { value := .string value, expireTime := (expiryAt env.now ttl).toUInt32 }
  have hexpiry : (if ttl = 0 then 0 else (UInt64.ofNat env.now + ttl).toUInt32) =
      (expiryAt env.now ttl).toUInt32 := by
    rw [expiryAt]
    split
    · rfl
    · rfl
  obtain ⟨hlogged, -⟩ := logRecord_spec hinv false .set key (serialize (fun _ => []) v)
  obtain ⟨-, hwrite⟩ := @writeMemtable_spec cfg env _ key v hlogged
  cases hresult : writeMemtable cfg env
      (logRecord cfg false .set key (serialize (fun _ => []) v) st) key v with
  | mk st' r =>
      rw [hresult] at hwrite
      rcases hwrite with ⟨hr, hnewest⟩ | ⟨⟨e, hr⟩, -⟩
      · obtain rfl : r = .ok true := hr
        simp only [perform, set, hexpiry, v] at hresult ⊢
        rw [hresult]
        change st'.newestOf key = some v
        rw [hnewest, Function.update_self]
      · obtain rfl : r = .error e := hr
        simp only [perform, set, hexpiry, v] at hresult hok
        rw [hresult] at hok
        cases hok

/-- What an accepted EXPIRE stores for a live key. -/
theorem newestOf_perform_expire (hinv : Inv cfg st) {aliveTime : UInt64} {v : EValue}
    (hlive : (st.newestOf key).filter (EValue.isLive env.now) = some v)
    (hok : (perform cfg env st (.expire key aliveTime)).2.code = .success) :
    (perform cfg env st (.expire key aliveTime)).1.newestOf key =
      some (withExpiry v.value (expiryAt env.now aliveTime)) := by
  obtain ⟨hlogged, hsame⟩ := logRecord_spec hinv false .expire key
    (decimal (expiryAt env.now aliveTime).toNat)
  obtain ⟨-, hexpire⟩ := @setKeyExpire_spec cfg env _ hlogged key (expiryAt env.now aliveTime)
  have hset := setExpire_eq cfg env st key aliveTime
  cases hresult : setKeyExpire cfg env (logRecord cfg false .expire key
      (decimal (expiryAt env.now aliveTime).toNat) st) key (expiryAt env.now aliveTime) with
  | mk st' r =>
      rw [hresult] at hexpire hset
      rcases hexpire with ⟨hr, hnewest⟩ | ⟨⟨e, hr⟩, -⟩
      · obtain rfl : r = .ok () := hr
        simp only [perform, hset]
        change st'.newestOf key = _
        rw [hnewest, Function.update_self, hsame.newestOf, expireVersion, hlive]
      · obtain rfl : r = .error e := hr
        simp only [perform, hset] at hok
        cases hok

variable {F : FloatOps} {toZset : Decoder UInt8 ZSet} {form : Overload} {c : TtlCommand} {z : Int}

/-- There is something to store: EXPIRE changes a live key only. -/
def Finds (env : Env) (st : Storage) : TtlCommand → Prop
  | .set _ _ _ => True
  | .expire key _ => ((st.newestOf key).filter (EValue.isLive env.now)).isSome = true

/-- The command stores its time to live exactly, and what the recovery makes of its record does. -/
structure StoresExpiry (cfg : StorageConfig) (env : Env) (F : FloatOps)
    (toZset : Decoder UInt8 ZSet) (form : Overload) (st : Storage) (c : TtlCommand) (z : Int) :
    Prop where
  stored : ∃ v, (perform cfg env st (requestOf F form c.type c.args)).1.newestOf c.key = some v ∧
    ExpiresAt env.now z v
  replayed : ∀ entry ∈ (requestOf F form c.type c.args).logged env.now, ∀ a,
    recoverAction F toZset entry.1 = some (.ok a) → ∀ t o v, a.write t o = some v →
      ExpiresAt env.now z v

theorem newestOf_perform_call (hinv : Inv cfg st) {aliveTime : UInt64} (hfinds : Finds env st c)
    (hok : (perform cfg env st (c.call aliveTime)).2.code = .success) :
    ∃ v, (perform cfg env st (c.call aliveTime)).1.newestOf c.key = some v ∧
      v.isDeleted = false ∧ v.expireTime = (expiryAt env.now aliveTime).toUInt32 := by
  cases c with
  | set key value rest => exact ⟨_, newestOf_perform_set hinv hok, rfl, rfl⟩
  | expire key ttl =>
      obtain ⟨v, hlive⟩ := Option.isSome_iff_exists.1 hfinds
      exact ⟨_, newestOf_perform_expire hinv hlive hok, rfl, rfl⟩

/-- **When a time to live that is accepted is stored exactly**: the sum of clock and number is a
second that the field can have. -/
theorem expiry_iff (hinv : Inv cfg st) (hnumber : c.number = some z)
    (hok : (perform cfg env st (requestOf F form c.type c.args)).2.code = .success) :
    (Finds env st c → StoresExpiry cfg env F toZset form st c z) ↔
      (Finds env st c → FitsField env.now z) := by
  rcases @request_of_number F form c z hnumber with ⟨msg, hreject⟩ | ⟨hcall, hlow, hhigh⟩
  · rw [hreject] at hok
    cases hok
  · have hsecond := @toNat_expiryAt env.now z hlow hhigh
    have hiff : ∀ v : EValue, v.isDeleted = false →
        v.expireTime = (expiryAt env.now (UInt64.ofInt z)).toUInt32 →
          (ExpiresAt env.now z v ↔ FitsField env.now z) := fun v hpresent hv =>
      expiresAt_iff hpresent (hv ▸ hsecond)
    refine forall_congr' fun hfinds => ?_
    have hstored := newestOf_perform_call hinv hfinds (hcall ▸ hok)
    constructor
    · intro h
      obtain ⟨v, hv, hexpires⟩ := h.stored
      obtain ⟨w, hw, hpresent, hexpire⟩ := hstored
      rw [hcall, hw] at hv
      obtain rfl := Option.some.inj hv
      exact (hiff w hpresent hexpire).1 hexpires
    · intro hfits
      obtain ⟨v, hv, hpresent, hexpire⟩ := hstored
      refine ⟨⟨v, hcall ▸ hv, (hiff v hpresent hexpire).2 hfits⟩, ?_⟩
      rw [hcall]
      intro entry hentry a ha t o w hw
      obtain ⟨hpresent, hexpire⟩ := second_of_logged hentry ha hw
      exact (hiff w hpresent hexpire).2 hfits

/-- SET of a key for a number of seconds. -/
def setFor (ttl : Bytes) : TtlCommand := .set [107] [118] [ttl]

/-- Ten seconds from the second 1 on end with the second 11. -/
theorem expiry_iff_of_ten : StoresExpiry roomyConfig (second 1) noFloats (fun _ => none) .string
    (openEmpty roomyConfig (tick 1)) (setFor (ascii "10")) 10 :=
  (expiry_iff (sound_openEmpty roomyConfig (tick 1)).inv (by decide) (by decide)).2
    (fun _ => Or.inr (by decide)) trivial

/-- **A sum of 2^32 is stored as 0, which never expires, and a negative time to live as a second far
in the future**; both are accepted. -/
theorem expiry_wraps :
    (perform roomyConfig (second 1) (openEmpty roomyConfig (tick 1))
      (requestOf noFloats .string (setFor []).type (setFor (ascii "4294967295")).args)).2 =
        .success (.string [49]) ∧
    (perform roomyConfig (second 1) (openEmpty roomyConfig (tick 1))
      (requestOf noFloats .string (setFor []).type (setFor (ascii "4294967295")).args)).1.newestOf
        [107] = some { value := .string [118], expireTime := 0 } ∧
    (perform roomyConfig (second 1) (openEmpty roomyConfig (tick 1))
      (requestOf noFloats .string (setFor []).type (setFor (ascii "-5")).args)).2 =
        .success (.string [49]) ∧
    (perform roomyConfig (second 1) (openEmpty roomyConfig (tick 1))
      (requestOf noFloats .string (setFor []).type (setFor (ascii "-5")).args)).1.newestOf [107] =
        some { value := .string [118], expireTime := 4294967292 } ∧
    ¬ (Finds (second 1) (openEmpty roomyConfig (tick 1)) (setFor (ascii "4294967295")) →
      StoresExpiry roomyConfig (second 1) noFloats (fun _ => none) .string
        (openEmpty roomyConfig (tick 1)) (setFor (ascii "4294967295")) 4294967295) := by
  have hstored : (perform roomyConfig (second 1) (openEmpty roomyConfig (tick 1))
      (requestOf noFloats .string (setFor []).type (setFor (ascii "4294967295")).args)).1.newestOf
        [107] = some { value := .string [118], expireTime := 0 } := by decide
  refine ⟨by decide, hstored, by decide, by decide, fun h => ?_⟩
  obtain ⟨v, hv, hexpires⟩ := (h trivial).stored
  obtain rfl := Option.some.inj (hstored.symm.trans hv)
  exact absurd (hexpires.exact (by decide)) (by decide)

end Stores

end Storage

end EyaKV.Store
