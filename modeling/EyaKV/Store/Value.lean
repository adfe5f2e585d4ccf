import EyaKV.Base.OrderedMap
import Mathlib.Algebra.Ring.Nat
import Mathlib.Data.List.Lex

/-!
# Values of the store

Byte strings, the sorted set `ZSet`, the value variant `EyaValue`, and the
versioned entry `EValue` that memtables and SSTables hold: a value with a
tombstone flag and an expiry second.

`std::string` is `List UInt8`, compared byte by byte as unsigned characters.
`std::map` and the unordered containers are ordered maps: nothing below depends on
the iteration order of an unordered container. A `double` is its 64-bit pattern;
the operations on it that the sorted set uses (parsing, printing, addition,
comparison) are the fields of `FloatOps`, a parameter of every definition that
needs them. So is the score of a `ZSetKey` that is declared and not set: it is what
the memory held, and `FloatOps.finding` gives a call a score of its own.
-/

set_option autoImplicit false

namespace EyaKV.Store

/-- `std::string`. -/
abbrev Bytes := List UInt8

/-- The bytes of an ASCII text. -/
def ascii (text : String) : Bytes := text.toList.map fun c => UInt8.ofNat c.toNat

/-- A map with string keys in ascending order. -/
abbrev StrMap (β : Type) := Std.ExtTreeMap Bytes β compare

/-- `a < b` on `std::string`. -/
def strLt (a b : Bytes) : Bool := compare a b == .lt

/-- `compare` on strings is their lexicographic order. -/
theorem compare_eq_lt_iff : ∀ a b : Bytes, compare a b = .lt ↔ a < b
  | [], [] => by decide
  | [], _ :: _ => by simp
  | _ :: _, [] => by simp
  | x :: a, y :: b => by
      rw [List.compare_cons_cons, List.cons_lt_cons_iff, ← compare_eq_lt_iff a b,
        Ordering.then_eq_lt, Std.compare_eq_lt]
      simp

theorem strLt_iff {a b : Bytes} : strLt a b = true ↔ a < b := by
  rw [strLt, beq_iff_eq, compare_eq_lt_iff]

/-- The standard exceptions that the storage code throws or lets pass, with the
text of the ones it raises itself. The last one is what `throw e` makes of an exception
that was caught as `std::exception`: a copy of the base class. -/
inductive StdException where
  | overflowError (what : String)
  | outOfRange (what : String)
  | invalidArgument (what : String)
  | runtimeError (what : String)
  | badVariantAccess
  | exception
  deriving DecidableEq, Repr

/-- `what()`; the classes that carry no text of their own have that of libstdc++. -/
def StdException.what : StdException → String
  | .overflowError what => what
  | .outOfRange what => what
  | .invalidArgument what => what
  | .runtimeError what => what
  | .badVariantAccess => "std::get: wrong index for variant"
  | .exception => "std::exception"

/-- The classes that are caught as `std::runtime_error`. -/
def StdException.isRuntimeError : StdException → Bool
  | .overflowError _ => true
  | .runtimeError _ => true
  | .outOfRange _ => false
  | .invalidArgument _ => false
  | .badVariantAccess => false
  | .exception => false

/-- A value or the exception that ended the call. -/
abbrev Result (ρ : Type) := Except StdException ρ

section Doubles

/-- The bit pattern of a `double`. -/
abbrev Double := UInt64

/-- The floating-point operations of the sorted set: `std::stod`,
`std::to_string`, `+`, `==` and `<`; and what a `double` holds that is declared and not
initialised. -/
structure FloatOps where
  stod : Bytes → Result Double
  toString : Double → Bytes
  add : Double → Double → Double
  eq : Double → Double → Bool
  lt : Double → Double → Bool
  unsetScore : Double

/-- The operations for a call that finds `u` in a `double` that is not set. -/
def FloatOps.finding (F : FloatOps) (u : Double) : FloatOps := { F with unsetScore := u }

end Doubles

section SkipLists

/-- Key of the sorted set's skip list. -/
structure ZSetKey where
  score : Double
  member : Bytes
  deriving DecidableEq

/-- The nodes of a `SkipList<ZSetKey, std::string>` in level-0 order. -/
abbrev ZSkipList := List (ZSetKey × Bytes)

variable (F : FloatOps)

/-- `ZSetKey::operator<`: scores first, members when the scores are equal. -/
def ZSetKey.lt (a b : ZSetKey) : Bool :=
  if !F.eq a.score b.score then F.lt a.score b.score else strLt a.member b.member

/-- `compare_zset_keys`. -/
def compareZsetKeys (a b : ZSetKey) : Ordering :=
  if a.lt F b then .lt else if b.lt F a then .gt else .eq

/-- `SkipList::insert`: a node with an equal key keeps its key and takes the new
value. -/
def skipInsert (key : ZSetKey) (value : Bytes) : ZSkipList → ZSkipList
  | [] => [(key, value)]
  | node :: rest =>
      match compareZsetKeys F node.1 key with
      | .lt => node :: skipInsert key value rest
      | .eq => (node.1, value) :: rest
      | .gt => (key, value) :: node :: rest

/-- `SkipList::remove`. -/
def skipRemove (key : ZSetKey) : ZSkipList → ZSkipList
  | [] => []
  | node :: rest =>
      match compareZsetKeys F node.1 key with
      | .lt => node :: skipRemove key rest
      | .eq => rest
      | .gt => node :: rest

/-- `SkipList::range_by_key`. The descent stops at the last node whose key is at
most `minKey`, or at the head sentinel with its default key when there is none,
and the listing starts at that node. -/
def skipRangeByKey (minKey maxKey : ZSetKey) (list : ZSkipList) : ZSkipList :=
  if maxKey.lt F minKey then []
  else
    let atMost := list.takeWhile fun node => compareZsetKeys F node.1 minKey != .gt
    let start := atMost.getLast?.getD (⟨0, []⟩, [])
    (start :: list.drop atMost.length).takeWhile fun node =>
      compareZsetKeys F node.1 maxKey != .gt

/-- `SkipList::remove_range_by_key`: the number of removed nodes and the rest. -/
def skipRemoveRangeByKey (minKey maxKey : ZSetKey) (list : ZSkipList) : Nat × ZSkipList :=
  if maxKey.lt F minKey then (0, list)
  else
    let before := list.takeWhile fun node => compareZsetKeys F node.1 minKey == .lt
    let removed := (list.drop before.length).takeWhile fun node =>
      compareZsetKeys F node.1 maxKey != .gt
    (removed.length, before ++ list.drop (before.length + removed.length))

/-- `SkipList::range_by_rank`. -/
def skipRangeByRank (startRank endRank : Nat) (list : ZSkipList) : ZSkipList :=
  if endRank < startRank then [] else (list.take (endRank + 1)).drop startRank

/-- `SkipList::remove_range_by_rank`: the ranks are turned into keys and the keys'
range is removed. A rank past the end leaves the local key as it was declared, with
a score that the source does not initialise. -/
def skipRemoveRangeByRank (startRank endRank : Nat) (list : ZSkipList) : Nat × ZSkipList :=
  if endRank < startRank then (0, list)
  else
    let keyAt (rank : Nat) : ZSetKey := (list[rank]?.map Prod.fst).getD ⟨F.unsetScore, []⟩
    skipRemoveRangeByKey F (keyAt startRank) (keyAt endRank) list

end SkipLists

section ZSets

/-- The sorted set: a skip list ordered by score and member, and the score of
each member. -/
structure ZSet where
  skiplist : ZSkipList
  memberScoreMap : StrMap Double
  deriving DecidableEq

/-- `ZSet::ZSet`, and the result of `zclear`. -/
def ZSet.empty : ZSet := ⟨[], ∅⟩

namespace ZSet

variable (F : FloatOps)

/-- `ZSet::zadd`. -/
def zadd (z : ZSet) (member sc : Bytes) : Result ZSet := do
  let score ← F.stod sc
  match z.memberScoreMap[member]? with
  | some old =>
      if F.eq old score then return z
      return ⟨skipInsert F ⟨score, member⟩ member (skipRemove F ⟨old, member⟩ z.skiplist),
        z.memberScoreMap.insert member score⟩
  | none =>
      return ⟨skipInsert F ⟨score, member⟩ member z.skiplist,
        z.memberScoreMap.insert member score⟩

/-- `ZSet::zrem`. -/
def zrem (z : ZSet) (member : Bytes) : Bool × ZSet :=
  match z.memberScoreMap[member]? with
  | none => (false, z)
  | some score =>
      (true, ⟨skipRemove F ⟨score, member⟩ z.skiplist, z.memberScoreMap.erase member⟩)

/-- `ZSet::zcard`. -/
def zcard (z : ZSet) : Nat := z.memberScoreMap.size

/-- `ZSet::zincrby`. -/
def zincrby (z : ZSet) (member incr : Bytes) : Result (Option Bytes × ZSet) := do
  let increment ← F.stod incr
  match z.memberScoreMap[member]? with
  | none => return (none, z)
  | some oldScore =>
      let newScore := F.add oldScore increment
      return (some (F.toString newScore),
        ⟨skipInsert F ⟨newScore, member⟩ member (skipRemove F ⟨oldScore, member⟩ z.skiplist),
          z.memberScoreMap.insert member newScore⟩)

/-- The members of the listed nodes erased from the score map. -/
def eraseMembers (nodes : ZSkipList) (m : StrMap Double) : StrMap Double :=
  nodes.foldl (fun m node => m.erase node.2) m

/-- `ZSet::zrem_range_by_score`. -/
def zremRangeByScore (z : ZSet) (minSc maxSc : Bytes) : Result (Nat × ZSet) := do
  let minScore ← F.stod minSc
  let maxScore ← F.stod maxSc
  let startKey : ZSetKey := ⟨minScore, []⟩
  let endKey : ZSetKey := ⟨maxScore, [0xff]⟩
  let toRemove := skipRangeByKey F startKey endKey z.skiplist
  let removed := skipRemoveRangeByKey F startKey endKey z.skiplist
  return (removed.1, ⟨removed.2, eraseMembers toRemove z.memberScoreMap⟩)

/-- `ZSet::zrem_range_by_rank`. -/
def zremRangeByRank (z : ZSet) (startRank endRank : Nat) : Nat × ZSet :=
  let toRemove := skipRangeByRank startRank endRank z.skiplist
  if endRank < startRank ∨ toRemove = [] then (0, z)
  else
    let removed := skipRemoveRangeByRank F startRank endRank z.skiplist
    (removed.1, ⟨removed.2, eraseMembers toRemove z.memberScoreMap⟩)

end ZSet

end ZSets

section Values

/-- The value variant. -/
inductive EyaValue where
  | string (s : Bytes)
  | deque (d : List Bytes)
  | set (s : StrMap Unit)
  | map (m : StrMap Bytes)
  | zset (z : ZSet)
  deriving DecidableEq

instance neZeroFive : NeZero 5 := ⟨by decide⟩

/-- `EyaValue::index`, the alternative that the variant holds. -/
def EyaValue.index : EyaValue → Fin 5
  | .string _ => 0
  | .deque _ => 1
  | .set _ => 2
  | .map _ => 3
  | .zset _ => 4

/-- A version of a key: its value, the tombstone flag, and the second after which
it is expired (0 for never). -/
structure EValue where
  value : EyaValue := .string []
  deleted : Bool := false
  expireTime : UInt32 := 0
  deriving DecidableEq

instance : Inhabited EValue := ⟨{}⟩

namespace EValue

/-- `EValue::is_deleted`. -/
def isDeleted (v : EValue) : Bool := v.deleted

/-- `EValue::is_expired` at the second `now`. -/
def isExpired (now : Nat) (v : EValue) : Bool := 0 < v.expireTime && v.expireTime.toNat < now

/-- Neither deleted nor expired: the test of every read path. -/
def isLive (now : Nat) (v : EValue) : Bool := !v.isDeleted && !v.isExpired now

variable {now now' : Nat} {v : EValue}

theorem isLive_iff : v.isLive now = true ↔ v.deleted = false ∧ v.isExpired now = false := by
  simp [isLive, isDeleted]

theorem isLive_eq_true_iff :
    v.isLive now = true ↔ (v.isDeleted || v.isExpired now) = false := by
  rw [isLive, ← Bool.not_or, Bool.not_eq_true']

theorem isLive_eq_false_iff :
    v.isLive now = false ↔ (v.isDeleted || v.isExpired now) = true := by
  rw [isLive, ← Bool.not_or, Bool.not_eq_false']

theorem isExpired_mono (hle : now ≤ now') (h : v.isExpired now = true) :
    v.isExpired now' = true := by
  simp only [isExpired, Bool.and_eq_true, decide_eq_true_eq] at h ⊢
  exact ⟨h.1, lt_of_lt_of_le h.2 hle⟩

/-- A version that is alive was alive at every earlier time. -/
theorem isLive_anti (hle : now ≤ now') (h : v.isLive now' = true) : v.isLive now = true := by
  rw [isLive_iff] at h ⊢
  refine ⟨h.1, ?_⟩
  cases hexp : v.isExpired now with
  | false => rfl
  | true => rw [isExpired_mono hle hexp] at h; exact absurd h.2 (by decide)

end EValue

end Values

end EyaKV.Store
