import EyaKV.Store.Layering

/-!
# The write operations of the value processors

Every write operation of the processors has one shape. It logs a record, runs a
callback on the memtable's entry of the key, and, when the memtable has none, works on
the live version below the memtable or on a missing key and writes the result with
`write_memtable`. A `ValueOp` holds the three bodies, and `process` is the shape.

The three bodies are written separately in the source. `ValueOp.Coherent` says that the
callback does on an entry of the memtable what the other two do on the same version
below it; where the operations keep to that is `coherent_adder`, `coherent_remover` and
the lemmas of the operations that have bodies of their own (`coherent_hSet`,
`coherent_zIncrBy`, `coherent_zRemByScore`). Under it `process` is a function of the
live newest version of its key (`process_spec`).
-/

set_option autoImplicit false

namespace EyaKV.Store

open EyaKV.Base EyaKV.Base.Layers

/-- A write operation on the value of one key: the record that it logs; its callback on
the memtable's entry at a second, with the value it leaves and its result; what it makes
of a live version below the memtable; and of a missing key. The last two give the
version to write, if any. -/
structure ValueOp (ρ : Type) where
  type : OperationType
  payload : Bytes
  inPlace : Nat → EValue → EValue × Result ρ
  onOld : EValue → Result (ρ × Option EValue)
  onMissing : Result (ρ × Option EValue)

namespace ValueOp

/-- The callback that `handle_value` runs: the result goes to a captured variable. -/
def valueHandle {ρ : Type} (op : ValueOp ρ) (now : Nat) : ValueHandle := fun v =>
  ((op.inPlace now v).1,
    match (op.inPlace now v).2 with
    | .ok _ => none
    | .error e => some e)

/-- The operation with its result turned into an answer. -/
def map {ρ σ : Type} (f : ρ → σ) (op : ValueOp ρ) : ValueOp σ where
  type := op.type
  payload := op.payload
  inPlace now v := ((op.inPlace now v).1, (op.inPlace now v).2.map f)
  onOld v := (op.onOld v).map fun r => (f r.1, r.2)
  onMissing := op.onMissing.map fun r => (f r.1, r.2)

/-- The branch behind the callback, for what `get_from_old` finds. -/
def fallback {ρ : Type} (op : ValueOp ρ) : Option EValue → Result (ρ × Option EValue)
  | some v => op.onOld v
  | none => op.onMissing

end ValueOp

section Containers

/-- An alternative of the value variant that holds many elements, with the text of the
exception for a value of another type. -/
structure Container (α : Type) where
  getIf : EyaValue → Option α
  wrap : α → EyaValue
  empty : α
  wrongType : String
  wrap_getIf : ∀ v a, getIf v = some a → wrap a = v

/-- `std::unordered_set<std::string>`. -/
def sets : Container (StrMap Unit) where
  getIf | .set s => some s
        | _ => none
  wrap := .set
  empty := ∅
  wrongType := "value is not a set"
  wrap_getIf v a h := by
    cases v with
    | set s => exact congrArg EyaValue.set (Option.some.inj h).symm
    | string _ | deque _ | map _ | zset _ => cases h

/-- `ZSet`. -/
def zsets : Container ZSet where
  getIf | .zset z => some z
        | _ => none
  wrap := .zset
  empty := ZSet.empty
  wrongType := "value is not a zset"
  wrap_getIf v a h := by
    cases v with
    | zset z => exact congrArg EyaValue.zset (Option.some.inj h).symm
    | string _ | deque _ | map _ | set _ => cases h

theorem wrap_zsets (z : ZSet) : zsets.wrap z = .zset z := rfl

/-- `std::deque<std::string>`. -/
def lists : Container (List Bytes) where
  getIf | .deque d => some d
        | _ => none
  wrap := .deque
  empty := []
  wrongType := "value is not a list"
  wrap_getIf v a h := by
    cases v with
    | deque d => exact congrArg EyaValue.deque (Option.some.inj h).symm
    | string _ | set _ | map _ | zset _ => cases h

/-- `std::unordered_map<std::string, std::string>`. -/
def hashes : Container (StrMap Bytes) where
  getIf | .map m => some m
        | _ => none
  wrap := .map
  empty := ∅
  wrongType := "value is not a hash"
  wrap_getIf v a h := by
    cases v with
    | map m => exact congrArg EyaValue.map (Option.some.inj h).symm
    | string _ | deque _ | set _ | zset _ => cases h

variable {α ρ : Type}

/-- The shape of SADD, ZADD, LPUSH, RPUSH and HSET. The callback checks the type first,
also of a dead entry, and starts again from the empty container on a dead one. -/
def adder (c : Container α) (type : OperationType) (payload : Bytes) (add : α → α × Result ρ) :
    ValueOp ρ where
  type := type
  payload := payload
  inPlace now v :=
    match c.getIf v.value with
    | none => (v, .error (.runtimeError c.wrongType))
    | some a =>
        if v.isDeleted || v.isExpired now then
          ({ value := c.wrap (add c.empty).1 }, (add c.empty).2)
        else ({ v with value := c.wrap (add a).1 }, (add a).2)
  onOld v :=
    match c.getIf v.value with
    | none => .error (.runtimeError c.wrongType)
    | some a => (add a).2.map fun r => (r, some { v with value := c.wrap (add a).1 })
  onMissing := (add c.empty).2.map fun r => (r, some { value := c.wrap (add c.empty).1 })

/-- The shape of SREM, ZREM, the pops, HDEL and the range removals of sorted sets. A
dead entry is left as it is, with the result `nothing`; `writes` says when the version made
of an older one is written. -/
def remover (c : Container α) (type : OperationType) (payload : Bytes) (nothing : ρ)
    (rem : α → α × Result ρ) (writes : α → Bool) : ValueOp ρ where
  type := type
  payload := payload
  inPlace now v :=
    if v.isDeleted || v.isExpired now then (v, .ok nothing)
    else
      match c.getIf v.value with
      | none => (v, .error (.runtimeError c.wrongType))
      | some a => ({ v with value := c.wrap (rem a).1 }, (rem a).2)
  onOld v :=
    match c.getIf v.value with
    | none => .error (.runtimeError c.wrongType)
    | some a => (rem a).2.map fun r =>
        (r, if writes a then some { v with value := c.wrap (rem a).1 } else none)
  onMissing := .ok (nothing, none)

end Containers

section SetOperations

/-- The insertions of `s_add`: the set and the number of new members. -/
def addMembers (members : List Bytes) (set : StrMap Unit) : StrMap Unit × Nat :=
  members.foldl (fun acc m => (acc.1.insert m (), if m ∈ acc.1 then acc.2 else acc.2 + 1)) (set, 0)

/-- The erasures of `s_rem`: the set and the number of members that it had. -/
def eraseAll {β : Type} (keys : List Bytes) (map : StrMap β) : StrMap β × Nat :=
  keys.foldl (fun acc k => (acc.1.erase k, if k ∈ acc.1 then acc.2 + 1 else acc.2)) (map, 0)

/-- `SetProcessor::s_add`. -/
def sAdd (members : List Bytes) : ValueOp Nat :=
  adder sets .sAdd (concatStrings members) fun set =>
    ((addMembers members set).1, .ok (addMembers members set).2)

/-- `SetProcessor::s_rem`. -/
def sRem (members : List Bytes) : ValueOp Nat :=
  remover sets .sRem (concatStrings members) 0
    (fun set => ((eraseAll members set).1, .ok (eraseAll members set).2)) fun _ => true

end SetOperations

section ZSetOperations

variable (F : FloatOps)

/-- The loop of `z_add` over pairs of a score and a member: what it has added when a
score does not parse stays. -/
def zaddAll : List (Bytes × Bytes) → ZSet → ZSet × Result Unit
  | [], z => (z, .ok ())
  | (score, member) :: rest, z =>
      match z.zadd F member score with
      | .ok z' => zaddAll rest z'
      | .error e => (z, .error e)

/-- `ZSetProcessor::z_add`: every pair is counted. -/
def zAdd (scoreMembers : List (Bytes × Bytes)) : ValueOp Nat :=
  adder zsets .zAdd (concatPairs scoreMembers) fun z =>
    ((zaddAll F scoreMembers z).1,
      (zaddAll F scoreMembers z).2.map fun _ => scoreMembers.length)

/-- `ZSetProcessor::z_rem`: every member is counted. -/
def zRem (members : List Bytes) : ValueOp Nat :=
  remover zsets .zRem (concatStrings members) 0
    (fun z => (members.foldl (fun z m => (z.zrem F m).2) z, .ok members.length)) fun _ => true

/-- The new score of `z_incr_by`, or the text for a member that is not there. -/
def zincrbyIn (increment member : Bytes) (v : EValue) : Result (Bytes × EValue) :=
  match zsets.getIf v.value with
  | none => .error (.runtimeError zsets.wrongType)
  | some z => (z.zincrby F member increment).map fun r =>
      (r.1.getD (ascii "Member not be found"), { v with value := .zset r.2 })

/-- `ZSetProcessor::z_incr_by`: the only operation that throws for a missing key. -/
def zIncrBy (increment member : Bytes) : ValueOp Bytes where
  type := .zIncrBy
  payload := serializeString increment ++ serializeString member
  inPlace now v :=
    if v.isDeleted || v.isExpired now then (v, .error (.runtimeError "key not be found"))
    else
      match zincrbyIn F increment member v with
      | .ok r => (r.2, .ok r.1)
      | .error e => (v, .error e)
  onOld v := (zincrbyIn F increment member v).map fun r => (r.1, some r.2)
  onMissing := .error (.runtimeError "key not be found")

/-- The ranks of `z_rem_by_rank` after negative ones have been counted from the end. -/
def adjustRanks (size : Nat) (start stop : Int) : Int × Int :=
  let s := if start < 0 then start + size else start
  let e := if stop < 0 then stop + size else stop
  (if s < 0 then 0 else s, if size ≤ e then size - 1 else e)

/-- `ZSetProcessor::z_rem_by_rank`. -/
def zRemByRank (start stop : Int) : ValueOp Nat :=
  let ranks (z : ZSet) := adjustRanks z.zcard start stop
  remover zsets .zRemByRank
    (serializeString (signedDecimal start) ++ serializeString (signedDecimal stop)) 0
    (fun z =>
      if (ranks z).2 < (ranks z).1 then (z, .ok 0)
      else
        let r := z.zremRangeByRank F (ranks z).1.toNat (ranks z).2.toNat
        (r.2, .ok r.1))
    fun z => decide ((ranks z).1 ≤ (ranks z).2)

/-- The removal of `z_rem_by_score`. -/
def remByScore (min max : Bytes) (z : ZSet) : ZSet × Result Nat :=
  match z.zremRangeByScore F min max with
  | .ok r => (r.2, .ok r.1)
  | .error e => (z, .error e)

/-- `ZSetProcessor::z_rem_by_score` with the check of the type in every branch. -/
def zRemByScoreChecked (min max : Bytes) : ValueOp Nat :=
  remover zsets .zRemByScore (serializeString min ++ serializeString max) 0
    (remByScore F min max) fun _ => true

/-- `ZSetProcessor::z_rem_by_score`. The branch for an older version takes the sorted
set out of the variant without the check. -/
def zRemByScore (min max : Bytes) : ValueOp Nat :=
  { zRemByScoreChecked F min max with
    onOld := fun v =>
      match zsets.getIf v.value with
      | none => .error .badVariantAccess
      | some z => (remByScore F min max z).2.map fun r =>
          (r, some { v with value := .zset (remByScore F min max z).1 }) }

end ZSetOperations

section DequeOperations

/-- `DequeProcessor::l_push`, with the payload of its `string_view` form. -/
def lPush (values : List Bytes) : ValueOp Nat :=
  adder lists .lPush (concatStrings values) fun dq =>
    (values.reverse ++ dq, .ok (values.reverse ++ dq).length)

/-- `DequeProcessor::r_push`, with the payload of its `string_view` form. -/
def rPush (values : List Bytes) : ValueOp Nat :=
  adder lists .rPush (concatStrings values) fun dq => (dq ++ values, .ok (dq ++ values).length)

/-- `DequeProcessor::l_pop`. -/
def lPop : ValueOp (Option Bytes) :=
  remover lists .lPop [] none (fun dq => (dq.tail, .ok dq.head?)) fun dq => !dq.isEmpty

/-- `DequeProcessor::r_pop`. -/
def rPop : ValueOp (Option Bytes) :=
  remover lists .rPop [] none (fun dq => (dq.dropLast, .ok dq.getLast?)) fun dq => !dq.isEmpty

/-- `DequeProcessor::l_pop_n`. -/
def lPopN (n : Nat) : ValueOp (List Bytes) :=
  remover lists .lPopN (serializeString (decimal n)) []
    (fun dq => (dq.drop n, .ok (dq.take n))) fun _ => true

/-- `DequeProcessor::r_pop_n`. -/
def rPopN (n : Nat) : ValueOp (List Bytes) :=
  remover lists .rPopN (serializeString (decimal n)) []
    (fun dq => (dq.take (dq.length - n), .ok (dq.reverse.take n))) fun _ => true

end DequeOperations

section HashOperations

/-- The assignments of `h_set`: the map and the number of new fields. -/
def setFields (fieldValues : List (Bytes × Bytes)) (map : StrMap Bytes) : StrMap Bytes × Nat :=
  fieldValues.foldl (fun acc kv =>
    (acc.1.insert kv.1 kv.2, if kv.1 ∈ acc.1 then acc.2 else acc.2 + 1)) (map, 0)

/-- What `HashProcessor::h_set` does on a hash. -/
def hSetExisting (fieldValues : List (Bytes × Bytes)) : ValueOp Nat :=
  adder hashes .hSet (concatPairs fieldValues) fun map =>
    ((setFields fieldValues map).1, .ok (setFields fieldValues map).2)

/-- `HashProcessor::h_set`. The branch for a missing key counts every pair, also for a
field that comes twice. -/
def hSet (fieldValues : List (Bytes × Bytes)) : ValueOp Nat :=
  { hSetExisting fieldValues with
    onMissing :=
      .ok (fieldValues.length, some { value := .map (setFields fieldValues ∅).1 }) }

/-- `HashProcessor::h_del`. -/
def hDel (fields : List Bytes) : ValueOp Nat :=
  remover hashes .hDel (concatStrings fields) 0
    (fun map => ((eraseAll fields map).1, .ok (eraseAll fields map).2)) fun _ => true

end HashOperations

section Coherence

variable {α ρ σ : Type} {op : ValueOp ρ} {now : Nat} {v : EValue}

/-- The callback does not throw on the version. -/
def ValueOp.Accepts (op : ValueOp ρ) (now : Nat) (v : EValue) : Prop :=
  ∃ r, (op.inPlace now v).2 = .ok r

/-- On an entry of the memtable the callback does what the branch behind it does on the
same version below the memtable. -/
def ValueOp.Coherent (op : ValueOp ρ) (now : Nat) (v : EValue) : Prop :=
  ∃ r w, op.inPlace now v = (w.getD v, .ok r) ∧
    op.fallback ((some v).filter (EValue.isLive now)) = .ok (r, w)

theorem coherent_of_live {r : ρ} {w : Option EValue} (hlive : v.isLive now = true)
    (hplace : op.inPlace now v = (w.getD v, .ok r)) (hold : op.onOld v = .ok (r, w)) :
    op.Coherent now v := by
  refine ⟨r, w, hplace, ?_⟩
  rw [Option.filter_some, if_pos hlive]
  exact hold

theorem coherent_of_dead {r : ρ} {w : Option EValue} (hdead : v.isLive now = false)
    (hplace : op.inPlace now v = (w.getD v, .ok r)) (hmissing : op.onMissing = .ok (r, w)) :
    op.Coherent now v := by
  refine ⟨r, w, hplace, ?_⟩
  rw [Option.filter_some, hdead, if_neg Bool.false_ne_true]
  exact hmissing

theorem ValueOp.Coherent.map (f : ρ → σ) (h : op.Coherent now v) : (op.map f).Coherent now v := by
  obtain ⟨r, w, hplace, hfallback⟩ := h
  refine ⟨f r, w, ?_, ?_⟩
  · simp only [ValueOp.map, hplace, Except.map]
  · cases hfilter : (some v).filter (EValue.isLive now) with
    | none =>
        rw [hfilter] at hfallback
        simp only [ValueOp.fallback] at hfallback
        simp only [ValueOp.fallback, ValueOp.map, hfallback, Except.map]
    | some u =>
        rw [hfilter] at hfallback
        simp only [ValueOp.fallback] at hfallback
        simp only [ValueOp.fallback, ValueOp.map, hfallback, Except.map]

theorem ValueOp.Accepts.of_map (f : ρ → σ) (h : (op.map f).Accepts now v) :
    op.Accepts now v := by
  obtain ⟨r, hr⟩ := h
  simp only [ValueOp.map] at hr
  cases hplace : (op.inPlace now v).2 with
  | ok r' => exact ⟨r', hplace⟩
  | error e =>
      rw [hplace] at hr
      cases hr

variable {c : Container α} {type : OperationType} {payload : Bytes}

theorem coherent_adder {add : α → α × Result ρ}
    (h : (adder c type payload add).Accepts now v) :
    (adder c type payload add).Coherent now v := by
  obtain ⟨r, hr⟩ := h
  simp only [adder] at hr
  cases hget : c.getIf v.value with
  | none =>
      simp only [hget] at hr
      cases hr
  | some a =>
      simp only [hget] at hr
      cases hlive : v.isLive now with
      | true =>
          have hdead := EValue.isLive_eq_true_iff.1 hlive
          simp only [hdead, Bool.false_eq_true, ↓reduceIte] at hr
          refine coherent_of_live (r := r) hlive (w := some { v with value := c.wrap (add a).1 }) ?_ ?_
          · simp only [adder, hget, hdead, Bool.false_eq_true, ↓reduceIte, hr, Option.getD_some]
          · simp only [adder, hget, hr, Except.map]
      | false =>
          have hdead := EValue.isLive_eq_false_iff.1 hlive
          simp only [hdead, ↓reduceIte] at hr
          refine coherent_of_dead (r := r) hlive (w := some { value := c.wrap (add c.empty).1 }) ?_ ?_
          · simp only [adder, hget, hdead, ↓reduceIte, hr, Option.getD_some]
          · simp only [adder, hr, Except.map]

/-- A removal that does not write an older version back must leave it as it is. -/
theorem coherent_remover {nothing : ρ} {rem : α → α × Result ρ} {writes : α → Bool}
    (hskip : ∀ a, writes a = false → (rem a).1 = a)
    (h : (remover c type payload nothing rem writes).Accepts now v) :
    (remover c type payload nothing rem writes).Coherent now v := by
  cases hlive : v.isLive now with
  | false =>
      have hdead := EValue.isLive_eq_false_iff.1 hlive
      refine coherent_of_dead hlive (w := none) ?_ rfl
      simp only [remover, hdead, ↓reduceIte, Option.getD_none]
  | true =>
      have hdead := EValue.isLive_eq_true_iff.1 hlive
      obtain ⟨r, hr⟩ := h
      simp only [remover, hdead, Bool.false_eq_true, ↓reduceIte] at hr
      cases hget : c.getIf v.value with
      | none =>
          simp only [hget] at hr
          cases hr
      | some a =>
          simp only [hget] at hr
          cases hwrites : writes a with
          | true =>
              refine coherent_of_live (r := r) hlive
                (w := some { v with value := c.wrap (rem a).1 }) ?_ ?_
              · simp only [remover, hdead, Bool.false_eq_true, ↓reduceIte, hget, hr,
                  Option.getD_some]
              · simp only [remover, hget, hr, hwrites, ↓reduceIte, Except.map]
          | false =>
              refine coherent_of_live (r := r) hlive (w := none) ?_ ?_
              · simp only [remover, hdead, Bool.false_eq_true, ↓reduceIte, hget, hr,
                  hskip a hwrites, c.wrap_getIf _ _ hget, Option.getD_none]
              · simp only [remover, hget, hr, hwrites, Bool.false_eq_true, ↓reduceIte, Except.map]

/-- With two branches exchanged an operation is coherent where the original one is and
the exchanged branches agree. -/
theorem coherent_congr {op' : ValueOp ρ} (h : op.Coherent now v)
    (hplace : op'.inPlace = op.inPlace)
    (hold : v.isLive now = true → op'.onOld v = op.onOld v)
    (hmissing : v.isLive now = false → op'.onMissing = op.onMissing) : op'.Coherent now v := by
  obtain ⟨r, w, hr, hfallback⟩ := h
  refine ⟨r, w, by rw [hplace, hr], ?_⟩
  rw [← hfallback, Option.filter_some]
  cases hlive : v.isLive now with
  | true => exact hold hlive
  | false => exact hmissing hlive

theorem length_setFields_aux (fieldValues : List (Bytes × Bytes)) (map : StrMap Bytes) (n : Nat)
    (hnodup : (fieldValues.map Prod.fst).Nodup) (hnew : ∀ kv ∈ fieldValues, kv.1 ∉ map) :
    (fieldValues.foldl (fun acc kv =>
      (acc.1.insert kv.1 kv.2, if kv.1 ∈ acc.1 then acc.2 else acc.2 + 1)) (map, n)).2 =
        n + fieldValues.length := by
  induction fieldValues generalizing map n with
  | nil => rfl
  | cons kv rest ih =>
      rw [List.map_cons, List.nodup_cons] at hnodup
      rw [List.foldl_cons, if_neg (hnew kv List.mem_cons_self), ih _ _ hnodup.2, List.length_cons]
      · omega
      · intro kv' hmem hin
        rw [Std.ExtTreeMap.mem_insert] at hin
        rcases hin with heq | hin
        · rw [Std.LawfulEqCmp.compare_eq_iff_eq.1 heq] at hnodup
          exact hnodup.1 (List.mem_map_of_mem hmem)
        · exact hnew kv' (List.mem_cons_of_mem kv hmem) hin

/-- On an empty map every field is new when none comes twice. -/
theorem length_setFields {fieldValues : List (Bytes × Bytes)}
    (hnodup : (fieldValues.map Prod.fst).Nodup) :
    (setFields fieldValues ∅).2 = fieldValues.length := by
  rw [setFields, length_setFields_aux fieldValues ∅ 0 hnodup, Nat.zero_add]
  intro kv _ hmem
  exact Std.ExtTreeMap.not_mem_empty hmem

/-- On a dead entry of the memtable the count of HSET is right when no field comes
twice. -/
theorem coherent_hSet {fieldValues : List (Bytes × Bytes)}
    (hdistinct : v.isLive now = false → (fieldValues.map Prod.fst).Nodup)
    (h : (hSet fieldValues).Accepts now v) : (hSet fieldValues).Coherent now v := by
  have hexisting : (hSetExisting fieldValues).Coherent now v := coherent_adder h
  refine coherent_congr hexisting rfl (fun _ => rfl) fun hdead => ?_
  simp only [hSet, hSetExisting, adder, Except.map, hashes, length_setFields (hdistinct hdead)]

theorem coherent_zIncrBy {F : FloatOps} {increment member : Bytes}
    (h : (zIncrBy F increment member).Accepts now v) :
    (zIncrBy F increment member).Coherent now v := by
  obtain ⟨r, hr⟩ := h
  simp only [zIncrBy] at hr
  cases hlive : v.isLive now with
  | false =>
      simp only [EValue.isLive_eq_false_iff.1 hlive, ↓reduceIte] at hr
      cases hr
  | true =>
      have hdead := EValue.isLive_eq_true_iff.1 hlive
      simp only [hdead, Bool.false_eq_true, ↓reduceIte] at hr
      cases hincr : zincrbyIn F increment member v with
      | error e =>
          simp only [hincr] at hr
          cases hr
      | ok u =>
          refine coherent_of_live (r := u.1) (w := some u.2) hlive ?_ ?_
          · simp only [zIncrBy, hdead, Bool.false_eq_true, ↓reduceIte, hincr, Option.getD_some]
          · simp only [zIncrBy, hincr, Except.map]

theorem coherent_zRemByScore {F : FloatOps} {min max : Bytes}
    (h : (zRemByScore F min max).Accepts now v) : (zRemByScore F min max).Coherent now v := by
  have hchecked : (zRemByScoreChecked F min max).Coherent now v :=
    coherent_remover (fun _ hfalse => by cases hfalse) h
  refine coherent_congr hchecked rfl (fun hlive => ?_) fun _ => rfl
  obtain ⟨r, hr⟩ := h
  have hdead := EValue.isLive_eq_true_iff.1 hlive
  simp only [zRemByScore, zRemByScoreChecked, remover, hdead, Bool.false_eq_true, ↓reduceIte] at hr
  -- The callback has checked the type, so the missing check of the other branch is not met.
  cases hget : zsets.getIf v.value with
  | none =>
      simp only [hget] at hr
      cases hr
  | some z => simp only [zRemByScore, zRemByScoreChecked, remover, hget, ↓reduceIte, wrap_zsets]

end Coherence

namespace Storage

section Processing

variable {ρ : Type} (cfg : StorageConfig) (env : Env)

/-- The record of an operation is appended to the log, unless it comes from there. -/
def logRecord (isRecover : Bool) (type : OperationType) (key payload : Bytes) (st : Storage) :
    Storage :=
  if cfg.enableWal && !isRecover then { st with wal := (st.wal.appendLog type key payload).2 }
  else st

/-- The `try` block of a write operation with its handlers. An exception that the
callback throws is caught as `std::exception` and thrown again as a copy of the base
class, except for `std::out_of_range`, which is also what a missing entry ends with. -/
def handle (op : ValueOp ρ) (key : Bytes) (st : Storage) : Storage × Result ρ :=
  match st.memtable.handleValue key (op.valueHandle env.now) with
  | (memtable, .ok v) => ({ st with memtable := memtable }, (op.inPlace env.now v).2)
  | (memtable, .error (.outOfRange _)) =>
      let st := { st with memtable := memtable }
      match op.fallback (st.getFromOld env.now key) with
      | .ok (r, some value) =>
          match writeMemtable cfg env st key value with
          | (st', .ok _) => (st', .ok r)
          | (st', .error e) => (st', .error e)
      | .ok (r, none) => (st, .ok r)
      | .error e => (st, .error e)
  | (memtable, .error _) => ({ st with memtable := memtable }, .error .exception)

/-- A write operation of a processor; during a recovery (`is_recover`) it logs nothing. -/
def process (isRecover : Bool) (op : ValueOp ρ) (key : Bytes) (st : Storage) :
    Storage × Result ρ :=
  handle cfg env op key (logRecord cfg isRecover op.type key op.payload st)

/-- `StringProcessor::set`; a time to live is added to the clock in 64 bits and narrowed
to 32. -/
def set (key value : Bytes) (ttl : UInt64) (st : Storage) : Storage × Result Bool :=
  let val : EValue :=
    { value := .string value
      expireTime := if ttl = 0 then 0 else (UInt64.ofNat env.now + ttl).toUInt32 }
  match writeMemtable cfg env (logRecord cfg false .set key (serialize (fun _ => []) val) st)
      key val with
  | (st', .ok _) => (st', .ok true)
  | (st', .error e) => (st', .error e)

end Processing

section Specification

variable {ρ : Type} {cfg : StorageConfig} {env : Env} {st : Storage} {key : Bytes}

/-- What an operation makes of the newest versions: the version it writes, if any. -/
def afterWrite (versions : Bytes → Option EValue) (key : Bytes) :
    Result (ρ × Option EValue) → Bytes → Option EValue
  | .ok (_, some value) => Function.update versions key (some value)
  | .ok (_, none) => versions
  | .error _ => versions

/-- A write of the key may rotate the memtable. -/
def Rotates (env : Env) (st : Storage) (key : Bytes) : Prop :=
  st.Full env ∨ ∃ value, st.Fills env key value

/-- A new memtable is below its limit. -/
def Fits (cfg : StorageConfig) (env : Env) : Prop :=
  (createNewMemtable cfg).shouldFlush env.usage = false

theorem logRecord_cases (cfg : StorageConfig) (isRecover : Bool) (type : OperationType)
    (key payload : Bytes) (st : Storage) :
    logRecord cfg isRecover type key payload st = st ∨
      logRecord cfg isRecover type key payload st =
        { st with wal := (st.wal.appendLog type key payload).2 } := by
  rw [logRecord]
  split
  · exact Or.inr rfl
  · exact Or.inl rfl

/-- Logging changes the log only. -/
structure SameData (st st' : Storage) : Prop where
  memtable : st'.memtable = st.memtable
  filename : st'.currentWalFilename = st.currentWalFilename
  newestOf : st'.newestOf = st.newestOf
  sstables : st'.sstableManager = st.sstableManager

theorem logRecord_spec (hinv : Inv cfg st) (isRecover : Bool) (type : OperationType)
    (key payload : Bytes) :
    Inv cfg (logRecord cfg isRecover type key payload st) ∧
      SameData st (logRecord cfg isRecover type key payload st) := by
  rcases logRecord_cases cfg isRecover type key payload st with h | h
  · rw [h]
    exact ⟨hinv, rfl, rfl, rfl, rfl⟩
  · rw [h]
    exact ⟨inv_appendLog hinv type key payload, rfl, rfl, rfl, rfl⟩

/-- What a write does that cannot throw, as a full memtable is replaced by one below its
limit: the newest version of its key is set, and the SSTables stay. -/
theorem writeMemtable_of_fits (hinv : Inv cfg st) (hfits : st.Full env → Fits cfg env)
    (key : Bytes) (value : EValue) :
    ∃ st', writeMemtable cfg env st key value = (st', .ok true) ∧
      ((st.Rotates env key → FreshName cfg env st) → Inv cfg st') ∧
      st'.newestOf = Function.update st.newestOf key (some value) ∧
      st'.sstableManager = st.sstableManager := by
  have hresult : (writeMemtable cfg env st key value).2 = .ok true ∧
      (writeMemtable cfg env st key value).1.sstableManager = st.sstableManager := by
    by_cases hfull : st.Full env
    · have hput := MemTable.put_of_not_shouldFlush key value (hfits hfull)
      have hput' := MemTable.put_of_shouldFlush key value hfull
      simp only [writeMemtable, hput', rotateMemtable, hput, and_self]
    · rcases writeMemtable_cases cfg env st key value with
        ⟨-, -, h⟩ | ⟨-, -, h⟩ | ⟨hf, -⟩ | ⟨hf, -⟩
      · rw [h]
        exact ⟨rfl, rfl⟩
      · rw [h]
        exact ⟨rfl, rfl⟩
      · exact absurd hf hfull
      · exact absurd hf hfull
  obtain ⟨hinv', ⟨-, hnew⟩ | ⟨⟨e, herr⟩, -⟩⟩ := @writeMemtable_spec cfg env st key value hinv
  · refine ⟨_, Prod.ext rfl hresult.1, fun hname => hinv' fun h => ?_, hnew, hresult.2⟩
    exact hname (h.imp id fun hfills => ⟨value, hfills⟩)
  · rw [hresult.1] at herr
    cases herr

/-- On an entry of the memtable the callback leaves the version that the branches behind
it would write, and on a missing entry these branches run. -/
theorem handle_spec (hinv : Inv cfg st) (op : ValueOp ρ)
    (hfits : ∀ r value, op.fallback ((st.newestOf key).filter (EValue.isLive env.now)) =
      .ok (r, some value) → st.Full env → Fits cfg env)
    (hcoherent : ∀ v, st.memtable.get key = some v → op.Coherent env.now v) :
    let outcome := op.fallback ((st.newestOf key).filter (EValue.isLive env.now))
    ∃ st', handle cfg env op key st = (st', outcome.map Prod.fst) ∧
      ((st.Rotates env key → FreshName cfg env st) → Inv cfg st') ∧
      st'.newestOf = afterWrite st.newestOf key outcome ∧
      st'.sstableManager = st.sstableManager := by
  intro outcome
  cases hentry : st.memtable.get key with
  | some v =>
      -- The callback has the whole effect; the handlers are not reached.
      obtain ⟨r, w, hplace, hfallback⟩ := hcoherent v hentry
      have hnewest : st.newestOf key = some v := by rw [newestOf_eq, hentry, Option.some_or]
      have houtcome : outcome = .ok (r, w) := by rw [← hfallback, ← hnewest]
      refine ⟨{ st with memtable := st.memtable.insertNode key (w.getD v) }, ?_,
        fun _ => inv_put hinv, ?_, rfl⟩
      · have hcallback : op.valueHandle env.now v = (w.getD v, none) := by
          simp only [ValueOp.valueHandle, hplace]
        have hhandle := MemTable.handleValue_of_some hinv.memtable hentry hcallback
        simp only [handle, hhandle, hplace, houtcome, Except.map]
      · rw [newestOf_put hinv.memtable, houtcome]
        cases w with
        | some w => rfl
        | none =>
            rw [Option.getD_none, ← hnewest, Function.update_eq_self]
            rfl
  | none =>
      have hhandle : ∀ f : ValueHandle,
          st.memtable.handleValue key f = (st.memtable, .error (.outOfRange "Key not found")) :=
        fun _ => MemTable.handleValue_of_none hentry
      have hold : op.fallback (st.getFromOld env.now key) = outcome := by
        rw [getFromOld_eq, visible]
        exact congrArg (fun o => op.fallback (Option.filter (EValue.isLive env.now) o))
          (by rw [newestOf_eq, hentry, Option.none_or])
      simp only [handle, hhandle, hold]
      cases houtcome : outcome with
      | error e => exact ⟨st, rfl, fun _ => hinv, rfl, rfl⟩
      | ok result =>
          obtain ⟨r, w⟩ := result
          cases w with
          | none => exact ⟨st, rfl, fun _ => hinv, rfl, rfl⟩
          | some value =>
              obtain ⟨st', hwrite, hinv', hnew, hsst⟩ :=
                writeMemtable_of_fits hinv (hfits r value houtcome) key value
              refine ⟨st', ?_, hinv', hnew, hsst⟩
              simp only [hwrite, Except.map]

/-- **A coherent operation is a function of the live newest version of its key.** -/
theorem process_spec (hinv : Inv cfg st) (isRecover : Bool) (op : ValueOp ρ)
    (hfits : ∀ r value, op.fallback ((st.newestOf key).filter (EValue.isLive env.now)) =
      .ok (r, some value) → st.Full env → Fits cfg env)
    (hcoherent : ∀ v, st.memtable.get key = some v → op.Coherent env.now v) :
    let outcome := op.fallback ((st.newestOf key).filter (EValue.isLive env.now))
    ∃ st', process cfg env isRecover op key st = (st', outcome.map Prod.fst) ∧
      ((st.Rotates env key → FreshName cfg env st) → Inv cfg st') ∧
      st'.newestOf = afterWrite st.newestOf key outcome ∧
      st'.sstableManager = st.sstableManager := by
  obtain ⟨hinv', hsame⟩ := logRecord_spec hinv isRecover op.type key op.payload
  obtain ⟨st', hhandle, hinv'', hnew, hsst⟩ := @handle_spec ρ cfg env _ key hinv' op
    (by rw [hsame.newestOf, Full, hsame.memtable]; exact hfits)
    (by rw [hsame.memtable]; exact hcoherent)
  rw [hsame.newestOf] at hhandle hnew
  refine ⟨st', hhandle, fun hname => hinv'' fun hrotates => ?_, hnew, hsst.trans hsame.sstables⟩
  simp only [Rotates, Full, Fills, FreshName, hsame.memtable, hsame.filename] at hrotates ⊢
  exact hname hrotates

end Specification

end Storage

end EyaKV.Store
