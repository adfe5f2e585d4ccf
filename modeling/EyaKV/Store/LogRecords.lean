import EyaKV.Store.Recovery

/-!
# The records of the commands

What a request logs, with the action that each record is to repeat (`Request.logged`), and the
payloads that the recovery reads back: strings, pairs and vectors within the size limits of the
log.

The encoders and the decoders are written apart, the encoders once for each overload. They fit but
for two cases (`Decodable`): a push on views logs its values without their count, which the decoder
reads, and a pop logs a count of 64 bits, which the decoder reads as a `long long`. Every other
record is decoded to what the command has done (`recoverAction_logged`).
-/

set_option autoImplicit false

namespace EyaKV.Store

open EyaKV.Base EyaKV.Base.Framing

section Forms

/-- What a request at the second `now` logs, with what each record is to repeat. -/
def Request.logged (now : Nat) : Request → List (WalRecord × Action)
  | .update op key => [(⟨op.type.code, key, op.payload⟩, .call op)]
  | .set key value ttl =>
      let v : EValue := { value := .string value, expireTime := (expiryAt now ttl).toUInt32 }
      [(⟨OperationType.set.code, key, serialize (fun _ => []) v⟩, .set v)]
  | .remove keys => keys.map fun key => (⟨OperationType.remove.code, key, []⟩, .remove)
  | .expire key aliveTime =>
      [(⟨OperationType.expire.code, key, decimal (expiryAt now aliveTime).toNat⟩,
        .expire (expiryAt now aliveTime))]
  | .range _ _ => []
  | .reject _ => []

end Forms

section Payloads

variable {l : List Bytes} {n : Nat}

/-- A string in a payload that is read back is not too long for its length prefix. -/
theorem sized_of_le {s payload : Bytes} (h : s.length ≤ payload.length)
    (hpayload : payload.length ≤ maxPayloadLength) : Sized s := by
  rw [maxPayloadLength] at hpayload
  rw [Sized]
  omega

theorem readStrings_of_readable (h : (concatStrings l).length ≤ maxPayloadLength) :
    readStrings (concatStrings l) = some l := by
  refine readStrings_concat fun s hs => sized_of_le ?_ h
  have hle := length_le_flatMap_of_mem serializeString hs
  rw [length_serializeString] at hle
  exact Nat.le_trans (Nat.le_add_right _ _) hle

theorem readPairs_of_readable {l : List (Bytes × Bytes)}
    (h : (concatPairs l).length ≤ maxPayloadLength) : readPairs (concatPairs l) = some l := by
  refine readPairs_concat fun p hp => ?_
  have hle := length_le_flatMap_of_mem
    (fun p : Bytes × Bytes => serializeString p.1 ++ serializeString p.2) hp
  rw [List.length_append, length_serializeString, length_serializeString] at hle
  have hlength : (concatPairs l).length = (l.flatMap fun p : Bytes × Bytes =>
      serializeString p.1 ++ serializeString p.2).length := rfl
  exact ⟨sized_of_le (by omega) h, sized_of_le (by omega) h⟩

theorem readVector_of_readable (h : (serializeVector l).length ≤ maxPayloadLength) :
    deserializeVector (serializeVector l) = some (l, []) := by
  have hlength : (serializeVector l).length = 4 + (concatStrings l).length := by
    rw [serializeVector, List.length_append]
    rfl
  have hcount := length_le_flatMap serializeString serializeString_ne_nil l
  have hconcat : (concatStrings l).length = (l.flatMap serializeString).length := rfl
  have hread := deserializeVector_serialize (l := l) (by rw [maxPayloadLength] at h; omega)
    (fun s hs => sized_of_le ?_ h) []
  · rwa [List.append_nil] at hread
  · have hle := length_le_flatMap_of_mem serializeString hs
    rw [length_serializeString] at hle
    omega

theorem readTwo_of_readable {s s' : Bytes}
    (h : (serializeString s ++ serializeString s').length ≤ maxPayloadLength) :
    deserializeString (serializeString s ++ serializeString s') = some (s, serializeString s') ∧
      deserializeString (serializeString s') = some (s', []) := by
  rw [List.length_append, length_serializeString, length_serializeString, maxPayloadLength] at h
  refine ⟨decodes_string s ?_ _, ?_⟩
  · rw [Sized]
    omega
  · have hread := decodes_string s' (by rw [Sized]; omega) []
    rwa [List.append_nil] at hread

theorem readOne_of_readable {s : Bytes} (h : (serializeString s).length ≤ maxPayloadLength) :
    deserializeString (serializeString s) = some (s, []) := by
  rw [length_serializeString, maxPayloadLength] at h
  have hread := decodes_string s (by rw [Sized]; omega) []
  rwa [List.append_nil] at hread

/-- A `long long` that is parsed is in its range. -/
theorem range_stoll {s : Bytes} {z : Int} (h : stoll s = .ok z) : -2 ^ 63 ≤ z ∧ z < 2 ^ 63 := by
  cases hparse : parseSigned s with
  | none =>
      simp only [stoll, hparse] at h
      cases h
  | some p =>
      obtain ⟨negative, n⟩ := p
      cases negative with
      | true =>
          simp only [stoll, hparse, ↓reduceIte] at h
          split_ifs at h with hrange
          · obtain rfl := Except.ok.inj h
            omega
      | false =>
          simp only [stoll, hparse, Bool.false_eq_true, ↓reduceIte] at h
          split_ifs at h with hrange
          · obtain rfl := Except.ok.inj h
            omega

end Payloads

section Decoding

variable {F : FloatOps} {toZset : Decoder UInt8 ZSet} {form : Overload} {type : OperationType}
  {args : List Bytes} {now : Nat} {entry : WalRecord × Action}

/-- A `long long` is the same number for `std::stoull`, in 64 bits. -/
theorem stoull_of_stoll {s : Bytes} {z : Int} (h : stoll s = .ok z) :
    stoull s = .ok (UInt64.ofInt z) := by
  cases hparse : parseSigned s with
  | none =>
      simp only [stoll, hparse] at h
      cases h
  | some p =>
      obtain ⟨negative, n⟩ := p
      rw [stoull, hparse]
      cases negative with
      | true =>
          simp only [stoll, hparse, ↓reduceIte] at h
          split_ifs at h with hrange
          obtain rfl := Except.ok.inj h
          simp only [↓reduceIte]
          rw [if_neg (by omega)]
          refine congrArg Except.ok (UInt64.toNat_inj.1 ?_)
          rw [UInt64.ofInt, UInt64.toNat_sub, UInt64.toNat_ofNat', UInt64.toNat_ofNat',
            UInt64.toNat_zero]
          omega
      | false =>
          simp only [stoll, hparse, Bool.false_eq_true, ↓reduceIte] at h
          split_ifs at h with hrange
          obtain rfl := Except.ok.inj h
          simp only [Bool.false_eq_true, ↓reduceIte]
          rw [if_neg (by omega)]
          refine congrArg Except.ok (UInt64.toNat_inj.1 ?_)
          rw [UInt64.ofInt, UInt64.toNat_ofNat', UInt64.toNat_ofNat']
          omega

/-- The text of a command's pop count, for those that have one. -/
def popCount : OperationType → List Bytes → Option Bytes
  | .lPop, _ :: n :: _ => some n
  | .rPop, _ :: n :: _ => some n
  | .lPopN, _ :: n :: _ => some n
  | .rPopN, _ :: n :: _ => some n
  | _, _ => none

/-- The decoders of the recovery fit the encoders of the command: a push has the count of its values
in the payload, and the count of a pop is in the range of a `long long`. -/
structure Decodable (form : Overload) (type : OperationType) (args : List Bytes) : Prop where
  pushed : type = .lPush ∨ type = .rPush → form = .string
  counted : ∀ text ∈ popCount type args, ∀ n, stoull text = .ok n → n.toNat < 2 ^ 63

/-- The record of a call, with what it is to repeat. -/
theorem logged_call {ρ : Type} (op : ValueOp ρ) (answer : ρ → Response) (key : Bytes) :
    (Request.call op answer key).logged now =
      [(⟨op.type.code, key, op.payload⟩, .update op.bare)] := by
  rw [Request.call, Request.logged, Action.call, ValueOp.bare_map]
  rfl

/-- The commands that remove elements of a value and nothing else. -/
def removals : List OperationType :=
  [.sRem, .zRem, .zRemByRank, .zRemByScore, .lPop, .rPop, .lPopN, .rPopN, .hDel]

theorem safe_call {ρ : Type} {op : ValueOp ρ} {answer : ρ → Response} {key : Bytes} {t : Nat}
    (hfading : op.bare.Fading) (hentry : entry ∈ (Request.call op answer key).logged now)
    (o : Option EValue) : entry.2.Safe now t o := by
  rw [logged_call] at hentry
  rw [List.mem_singleton.1 hentry]
  exact Or.inr hfading

/-- The replay of a removal shows what the removal has left, also when the key expires in
between. -/
theorem safe_of_removes {q : Request} (h : Calls F type args q) (hremoves : type ∈ removals)
    (hentry : entry ∈ q.logged now) (t : Nat) (o : Option EValue) : entry.2.Safe now t o := by
  cases h with
  | sRem => exact safe_call (fading_remover tagged_sets _ _ _) hentry o
  | zRem => exact safe_call (fading_remover tagged_zsets _ _ _) hentry o
  | zRemByRank => exact safe_call (fading_remover tagged_zsets _ _ _) hentry o
  | zRemByScore => exact safe_call (fading_zRemByScore _ _ _) hentry o
  | lPop => exact safe_call (fading_remover tagged_lists _ _ _) hentry o
  | rPop => exact safe_call (fading_remover tagged_lists _ _ _) hentry o
  | lPopN => exact safe_call (fading_remover tagged_lists _ _ _) hentry o
  | rPopN => exact safe_call (fading_remover tagged_lists _ _ _) hentry o
  | lPopNString => exact safe_call (fading_remover tagged_lists _ _ _) hentry o
  | rPopNString => exact safe_call (fading_remover tagged_lists _ _ _) hentry o
  | hDel => exact safe_call (fading_remover tagged_hashes _ _ _) hentry o
  | set | sAdd | zAdd | zIncrBy | lPush | rPush | hSet | lPushString | rPushString =>
      exact absurd hremoves (by decide)

/-- A payload that is decoded to the operation that logged it. -/
theorem recoverAction_call {ρ : Type} {op : ValueOp ρ} {answer : ρ → Response} {key : Bytes}
    (hdecode : recoverAction F toZset ⟨op.type.code, key, op.payload⟩ = some (.ok (.call op)))
    (hentry : entry ∈ (Request.call op answer key).logged now) :
    recoverAction F toZset entry.1 = some (.ok entry.2) := by
  rw [logged_call] at hentry
  rw [List.mem_singleton.1 hentry]
  exact hdecode

/-- A payload that is read back is decoded to a call of the operation on what was encoded. -/
theorem decoded_of_read {β ρ : Type} {read : Option β} {b : β} (op : β → ValueOp ρ)
    (h : read = some b) :
    (read.map fun b => (Except.ok (.call (op b)) : Result Action)) = some (.ok (.call (op b))) := by
  rw [h]
  rfl

/-- The count of a pop is read back as the number that it stands for. -/
theorem decoded_of_count {ρ : Type} (op : Nat → ValueOp ρ) {n : Nat} (hn : n < 2 ^ 63)
    (hpayload : (serializeString (decimal n)).length ≤ maxPayloadLength) :
    ((deserializeString (serializeString (decimal n))).map fun r =>
      (stoll r.1).map fun z => Action.call (op (UInt64.ofInt z).toNat)) =
        some (.ok (.call (op n))) := by
  have hcount : (UInt64.ofInt n).toNat = n := by
    change (UInt64.ofNat ((n : Int) % 2 ^ 64).toNat).toNat = n
    rw [UInt64.toNat_ofNat']
    omega
  rw [readOne_of_readable hpayload, Option.map_some, stoll_decimal, if_pos hn, Except.map, hcount]

/-- The payloads of all calls but the pushes are decoded to the operation that logged them. -/
theorem recoverAction_calls {q : Request} (h : Calls F type args q)
    (hpush : ¬ (type = .lPush ∨ type = .rPush))
    (hcount : ∀ text ∈ popCount type args, ∀ n, stoull text = .ok n → n.toNat < 2 ^ 63)
    (hentry : entry ∈ q.logged now) (hpayload : entry.1.payload.length ≤ maxPayloadLength) :
    recoverAction F toZset entry.1 = some (.ok entry.2) := by
  have hsingle : ∀ {ρ : Type} {op : ValueOp ρ} {answer : ρ → Response} {key : Bytes},
      entry ∈ (Request.call op answer key).logged now → op.payload.length ≤ maxPayloadLength := by
    intro ρ op answer key hentry
    rw [logged_call] at hentry
    rw [List.mem_singleton.1 hentry] at hpayload
    exact hpayload
  cases h with
  | set key value ttl rest =>
      obtain rfl := List.mem_singleton.1 hentry
      have hsized : Sized value := by
        refine sized_of_le ?_ hpayload
        simp only [serialize, serializeEyaValue, List.length_cons, List.length_append,
          length_serializeString]
        omega
      have hread := deserialize_serialize_string (fun _ => []) toZset hsized false
        (expiryAt now ttl).toUInt32 []
      rw [List.append_nil] at hread
      exact congrArg (fun o : Option (EValue × Bytes) =>
        o.map fun r => (Except.ok (.set r.1) : Result Action)) hread
  | sAdd key members =>
      refine recoverAction_call ?_ hentry
      exact decoded_of_read sAdd (readStrings_of_readable (hsingle hentry))
  | sRem key members =>
      refine recoverAction_call ?_ hentry
      exact decoded_of_read sRem (readStrings_of_readable (hsingle hentry))
  | zAdd key rest =>
      refine recoverAction_call ?_ hentry
      exact decoded_of_read (zAdd F) (readPairs_of_readable (hsingle hentry))
  | zRem key members =>
      refine recoverAction_call ?_ hentry
      exact decoded_of_read (zRem F) (readStrings_of_readable (hsingle hentry))
  | zIncrBy key increment member rest =>
      refine recoverAction_call ?_ hentry
      obtain ⟨hfirst, hsecond⟩ := readTwo_of_readable (hsingle hentry)
      change ZSetProcessor.recover F .zIncrBy _ = _
      simp only [ZSetProcessor.recover, zIncrBy, hfirst, hsecond, Option.bind_eq_bind,
        Option.bind_some, Option.pure_def]
  | zRemByRank key start stop rest hs he =>
      refine recoverAction_call ?_ hentry
      obtain ⟨hfirst, hsecond⟩ := readTwo_of_readable (hsingle hentry)
      obtain ⟨hslow, hshigh⟩ := range_stoll hs
      obtain ⟨helow, hehigh⟩ := range_stoll he
      change ZSetProcessor.recover F .zRemByRank _ = _
      simp only [ZSetProcessor.recover, zRemByRank, remover, hfirst, hsecond, Option.bind_eq_bind,
        Option.bind_some, Option.pure_def, stoll_signedDecimal hslow hshigh,
        stoll_signedDecimal helow hehigh]
      rfl
  | zRemByScore key min max rest =>
      refine recoverAction_call ?_ hentry
      obtain ⟨hfirst, hsecond⟩ := readTwo_of_readable (hsingle hentry)
      change ZSetProcessor.recover F .zRemByScore _ = _
      simp only [ZSetProcessor.recover, zRemByScore, zRemByScoreChecked, remover, hfirst, hsecond,
        Option.bind_eq_bind, Option.bind_some, Option.pure_def]
  | lPush => exact absurd (Or.inl rfl) hpush
  | rPush => exact absurd (Or.inr rfl) hpush
  | lPop key => exact recoverAction_call rfl hentry
  | rPop key => exact recoverAction_call rfl hentry
  | lPopN _ key n rest htype hn =>
      have hsmall := hcount n (by rcases htype with rfl | rfl <;> rfl) _ hn
      refine recoverAction_call ?_ hentry
      exact decoded_of_count lPopN hsmall (hsingle hentry)
  | rPopN _ key n rest htype hn =>
      have hsmall := hcount n (by rcases htype with rfl | rfl <;> rfl) _ hn
      refine recoverAction_call ?_ hentry
      exact decoded_of_count rPopN hsmall (hsingle hentry)
  | hSet key rest =>
      refine recoverAction_call ?_ hentry
      exact decoded_of_read hSet (readPairs_of_readable (hsingle hentry))
  | hDel key fields =>
      refine recoverAction_call ?_ hentry
      exact decoded_of_read hDel (readStrings_of_readable (hsingle hentry))
  | lPushString => exact absurd (Or.inl rfl) hpush
  | rPushString => exact absurd (Or.inr rfl) hpush
  | lPopNString key n rest hn =>
      have hsmall := hcount n rfl _ (stoull_of_stoll hn)
      refine recoverAction_call ?_ hentry
      exact decoded_of_count lPopN hsmall (hsingle hentry)
  | rPopNString key n rest hn =>
      have hsmall := hcount n rfl _ (stoull_of_stoll hn)
      refine recoverAction_call ?_ hentry
      exact decoded_of_count rPopN hsmall (hsingle hentry)

/-- A push in the form for strings, whose payload has the count of the values. -/
theorem recoverAction_push (htype : type = .lPush ∨ type = .rPush)
    (hentry : entry ∈ (requestOf F .string (.logged type) args).logged now)
    (hpayload : entry.1.payload.length ≤ maxPayloadLength) :
    recoverAction F toZset entry.1 = some (.ok entry.2) := by
  cases args with
  | nil =>
      rcases htype with rfl | rfl
      · cases hentry
      · cases hentry
  | cons key values =>
      rcases htype with rfl | rfl
      · simp only [requestOf, DequeProcessor.requestString] at hentry
        split at hentry
        · cases hentry
        · refine recoverAction_call ?_ hentry
          rw [caught, logged_call] at hentry
          rw [List.mem_singleton.1 hentry] at hpayload
          change (deserializeVector (serializeVector values)).map _ = _
          rw [readVector_of_readable hpayload]
          rfl
      · simp only [requestOf, DequeProcessor.requestString] at hentry
        split at hentry
        · cases hentry
        · refine recoverAction_call ?_ hentry
          rw [caught, logged_call] at hentry
          rw [List.mem_singleton.1 hentry] at hpayload
          change (deserializeVector (serializeVector values)).map _ = _
          rw [readVector_of_readable hpayload]
          rfl

/-- **Decoding.** A record that a command logs, within the limit of the log, is decoded to what the
command has done. -/
theorem recoverAction_logged (hdecodable : Decodable form type args)
    (hentry : entry ∈ (requestOf F form (.logged type) args).logged now)
    (hpayload : entry.1.payload.length ≤ maxPayloadLength) :
    recoverAction F toZset entry.1 = some (.ok entry.2) := by
  have hgeneral : requestOf F form (.logged .remove) args = request F (.logged .remove) args ∧
      requestOf F form (.logged .expire) args = request F (.logged .expire) args := by
    cases form with
    | string => exact ⟨rfl, rfl⟩
    | stringView => exact ⟨rfl, rfl⟩
  -- the removals, the expiries and the pushes log in ways of their own
  by_cases hremove : type = .remove
  · subst hremove
    rw [hgeneral.1, request] at hentry
    split at hentry
    · cases hentry
    · obtain ⟨key, -, rfl⟩ := List.mem_map.1 hentry
      rfl
  by_cases hexpire : type = .expire
  · subst hexpire
    rw [hgeneral.2] at hentry
    simp only [request] at hentry
    split at hentry
    · next key aliveTime =>
        cases hparse : stoull aliveTime with
        | error e =>
            simp only [hparse] at hentry
            cases hentry
        | ok t =>
            simp only [hparse] at hentry
            obtain rfl := List.mem_singleton.1 hentry
            exact congrArg (fun r : Result UInt64 => some (r.map Action.expire))
              (stoull_decimal (expiryAt now t))
    · cases hentry
    · cases hentry
  by_cases hpush : type = .lPush ∨ type = .rPush
  · obtain rfl := hdecodable.pushed hpush
    exact recoverAction_push hpush hentry hpayload
  -- every other command calls one operation, which logs its own payload
  rcases issued_requestOf F form args hremove hexpire with ⟨errorMsg, hq⟩ | hcalls
  · rw [hq] at hentry
    cases hentry
  · exact recoverAction_calls hcalls hpush hdecodable.counted hentry hpayload

end Decoding

end EyaKV.Store
