import EyaKV.Base.Framing
import EyaKV.Store.Value
import Mathlib.Data.List.TakeWhile
import Mathlib.Data.Nat.Digits.Lemmas

/-!
# Binary and decimal codecs

The encodings that the write-ahead log uses: integers in host and in network
order, the length-prefixed strings and the counted vectors of `Serializer`, the
entry codec of `node.h`, and the decimal numbers of `std::to_string`, `std::stoull`
and `std::stoll`.

A decoder of `Serializer` trusts the lengths that it reads. Reading past the end of
the payload is undefined in the source; here it has no result. Each decoder comes
with its round trip (`decodes_string`, `deserializeVector_serialize`,
`deserialize_serialize_string`, `stoull_decimal`, `stoll_signedDecimal`).
-/

set_option autoImplicit false

namespace EyaKV.Store

open EyaKV.Base EyaKV.Base.Framing

section Integers

/-- The bytes of a `uint32_t` in host order, lowest first. -/
def le32 (n : Nat) : Bytes :=
  [UInt8.ofNat n, UInt8.ofNat (n / 2 ^ 8), UInt8.ofNat (n / 2 ^ 16), UInt8.ofNat (n / 2 ^ 24)]

/-- The bytes of a `uint32_t` in network order (`htonl`). -/
def be32 (n : Nat) : Bytes := (le32 n).reverse

/-- Reads a `uint32_t` in host order. -/
def readLe32 : Decoder UInt8 Nat
  | a :: b :: c :: d :: rest =>
      some (a.toNat + 2 ^ 8 * b.toNat + 2 ^ 16 * c.toNat + 2 ^ 24 * d.toNat, rest)
  | _ => none

/-- The bytes of a `uint64_t` in host order. -/
def le64 (n : Nat) : Bytes := le32 (n % 2 ^ 32) ++ le32 (n / 2 ^ 32)

/-- Reads a `uint64_t` in host order. -/
def readLe64 : Decoder UInt8 Nat := fun input => do
  let (low, rest) ← readLe32 input
  let (high, rest) ← readLe32 rest
  return (low + 2 ^ 32 * high, rest)

/-- Reads a `uint32_t` in network order (`ntohl`). -/
def readBe32 : Decoder UInt8 Nat
  | a :: b :: c :: d :: rest =>
      some (d.toNat + 2 ^ 8 * c.toNat + 2 ^ 16 * b.toNat + 2 ^ 24 * a.toNat, rest)
  | _ => none

theorem length_le32 (n : Nat) : (le32 n).length = 4 := rfl

/-- Only the low 32 bits are written. -/
theorem readLe32_le32 (n : Nat) (rest : Bytes) : readLe32 (le32 n ++ rest) = some (n % 2 ^ 32, rest) := by
  simp only [le32, readLe32, List.cons_append, List.nil_append, UInt8.toNat_ofNat', Option.some.injEq,
    Prod.mk.injEq, and_true]
  omega

theorem decodes_le32 : Decodes (fun n => n < 2 ^ 32) le32 readLe32 := by
  intro n hn rest
  rw [readLe32_le32, Nat.mod_eq_of_lt hn]

theorem decodes_be32 : Decodes (fun n => n < 2 ^ 32) be32 readBe32 := by
  intro n hn rest
  simp only [be32, le32, readBe32, List.reverse_cons, List.reverse_nil, List.cons_append,
    List.nil_append, UInt8.toNat_ofNat', Option.some.injEq, Prod.mk.injEq, and_true]
  omega

theorem length_le64 (n : Nat) : (le64 n).length = 8 := rfl

theorem decodes_le64 : Decodes (fun n => n < 2 ^ 64) le64 readLe64 := by
  intro n hn rest
  rw [le64, readLe64, List.append_assoc, decodes_le32 _ (Nat.mod_lt _ (by decide))]
  simp only [Option.bind_eq_bind, Option.bind_some]
  rw [decodes_le32 _ (by omega)]
  simp only [Option.bind_some, Option.pure_def, Nat.mod_add_div]

end Integers

section Strings

/-- Reads `n` bytes. -/
def readBytes (n : Nat) : Decoder UInt8 Bytes := fun input =>
  if input.length < n then none else some (input.take n, input.drop n)

theorem readBytes_append (s rest : Bytes) : readBytes s.length (s ++ rest) = some (s, rest) := by
  rw [readBytes, if_neg (by simp), List.take_left, List.drop_left]

/-- `Serializer::serialize(std::string)`. -/
def serializeString (s : Bytes) : Bytes := be32 s.length ++ s

/-- `Serializer::deserializeString`. -/
def deserializeString : Decoder UInt8 Bytes := fun input => do
  let (len, rest) ← readBe32 input
  readBytes len rest

/-- Strings whose length fits the prefix. -/
def Sized (s : Bytes) : Prop := s.length < 2 ^ 32

theorem decodes_string : Decodes Sized serializeString deserializeString := by
  intro s hs rest
  rw [deserializeString, serializeString, List.append_assoc, decodes_be32 _ hs]
  exact readBytes_append s rest

theorem serializeString_ne_nil (s : Bytes) : serializeString s ≠ [] := by
  intro h
  have := congrArg List.length h
  simp [serializeString, be32, le32] at this

/-- The payload of a command with a list of strings: one encoded string after the
other. -/
def concatStrings (l : List Bytes) : Bytes := l.flatMap serializeString

/-- The loop that reads strings until the end of the payload. -/
def readStrings (payload : Bytes) : Option (List Bytes) :=
  untilEnd deserializeString payload.length payload

/-- The payload of a command with a list of pairs of strings. -/
def concatPairs (l : List (Bytes × Bytes)) : Bytes :=
  l.flatMap fun p => serializeString p.1 ++ serializeString p.2

/-- The loop that reads pairs of strings until the end of the payload. -/
def readPairs (payload : Bytes) : Option (List (Bytes × Bytes)) :=
  untilEnd (Framing.pair deserializeString deserializeString) payload.length payload

theorem length_le_flatMap {α : Type} (enc : α → Bytes) (hne : ∀ a, enc a ≠ []) (l : List α) :
    l.length ≤ (l.flatMap enc).length := by
  induction l with
  | nil => exact Nat.le_refl 0
  | cons a l ih =>
      have := List.length_pos_of_ne_nil (hne a)
      rw [List.flatMap_cons, List.length_append, List.length_cons]
      omega

theorem length_le_flatMap_of_mem {α : Type} (f : α → Bytes) {l : List α} {a : α} (h : a ∈ l) :
    (f a).length ≤ (l.flatMap f).length := by
  rw [List.flatMap_def]
  exact (List.sublist_flatten_of_mem (List.mem_map_of_mem h)).length_le

theorem length_serializeString (s : Bytes) : (serializeString s).length = s.length + 4 := by
  rw [serializeString, List.length_append, be32, List.length_reverse, length_le32, Nat.add_comm]

theorem readStrings_concat {l : List Bytes} (h : ∀ s ∈ l, Sized s) :
    readStrings (concatStrings l) = some l :=
  decodes_string.untilEnd serializeString_ne_nil l h
    (length_le_flatMap _ serializeString_ne_nil l)

theorem readPairs_concat {l : List (Bytes × Bytes)} (h : ∀ p ∈ l, Sized p.1 ∧ Sized p.2) :
    readPairs (concatPairs l) = some l := by
  have hne : ∀ p : Bytes × Bytes, serializeString p.1 ++ serializeString p.2 ≠ [] := fun p hp =>
    serializeString_ne_nil p.1 (List.append_eq_nil_iff.1 hp).1
  exact (decodes_string.pair decodes_string).untilEnd hne l h (length_le_flatMap _ hne l)

/-- `Serializer::serialize(std::vector<std::string>)`, which is also the encoding of a
deque. -/
def serializeVector (l : List Bytes) : Bytes := be32 l.length ++ concatStrings l

/-- `Serializer::deserializeVector`. -/
def deserializeVector : Decoder UInt8 (List Bytes) := fun input => do
  let (size, rest) ← readBe32 input
  count deserializeString size rest

theorem deserializeVector_serialize {l : List Bytes} (hlength : l.length < 2 ^ 32)
    (h : ∀ s ∈ l, Sized s) (rest : Bytes) :
    deserializeVector (serializeVector l ++ rest) = some (l, rest) := by
  rw [deserializeVector, serializeVector, List.append_assoc, decodes_be32 _ hlength]
  exact decodes_string.count l h rest

/-- `Serializer::serialize` of a string map, in the order of the keys. -/
def serializeMap (m : StrMap Bytes) : Bytes := be32 m.size ++ concatPairs m.toList

/-- `Serializer::deserializeMap`. -/
def deserializeMap : Decoder UInt8 (StrMap Bytes) := fun input => do
  let (size, rest) ← readBe32 input
  let (l, rest) ← count (Framing.pair deserializeString deserializeString) size rest
  return (l.foldl (fun m p => if p.1 ∈ m then m else m.insert p.1 p.2) ∅, rest)

end Strings

section Entries

/-- `serialize_eya_value`: the variant's index and the encoding of its content. The
encoding of a sorted set, with its random tower heights, is the parameter `ofZset`. -/
def serializeEyaValue (ofZset : ZSet → Bytes) : EyaValue → Bytes
  | .string s => 0 :: serializeString s
  | .deque d => 1 :: serializeVector d
  | .set s => 2 :: serializeVector (s.toList.map Prod.fst)
  | .map m => 3 :: serializeMap m
  | .zset z => 4 :: ofZset z

/-- `deserialize_eya_value`, with the decoder of sorted sets as a parameter. An
index without an alternative throws. -/
def deserializeEyaValue (toZset : Decoder UInt8 ZSet) : Decoder UInt8 EyaValue
  | [] => none
  | index :: rest =>
      match index.toNat with
      | 0 => (deserializeString rest).map fun r => (.string r.1, r.2)
      | 1 => (deserializeVector rest).map fun r => (.deque r.1, r.2)
      | 2 => (deserializeVector rest).map fun r =>
          (.set (r.1.foldl (fun s k => s.insert k ()) ∅), r.2)
      | 3 => (deserializeMap rest).map fun r => (.map r.1, r.2)
      | 4 => (toZset rest).map fun r => (.zset r.1, r.2)
      | _ => none

/-- `serialize` of an entry: the tombstone flag, the expiry second in network order,
the value. -/
def serialize (ofZset : ZSet → Bytes) (v : EValue) : Bytes :=
  (if v.deleted then 1 else 0) :: (be32 v.expireTime.toNat ++ serializeEyaValue ofZset v.value)

/-- `deserialize` of an entry. -/
def deserialize (toZset : Decoder UInt8 ZSet) : Decoder UInt8 EValue
  | [] => none
  | deleted :: rest => do
      let (expireTime, rest) ← readBe32 rest
      let (value, rest) ← deserializeEyaValue toZset rest
      return ({ value := value, deleted := deleted != 0, expireTime := UInt32.ofNat expireTime }, rest)

/-- The entry that `SET` logs is read back. -/
theorem deserialize_serialize_string (ofZset : ZSet → Bytes) (toZset : Decoder UInt8 ZSet)
    {s : Bytes} (hs : Sized s) (deleted : Bool) (expireTime : UInt32) (rest : Bytes) :
    deserialize toZset (serialize ofZset ⟨.string s, deleted, expireTime⟩ ++ rest) =
      some (⟨.string s, deleted, expireTime⟩, rest) := by
  have hflag : ((if deleted then 1 else 0 : UInt8) != 0) = deleted := by cases deleted <;> rfl
  simp only [serialize, serializeEyaValue, List.cons_append, List.append_assoc, deserialize,
    decodes_be32 _ expireTime.toNat_lt, deserializeEyaValue, Option.bind_eq_bind, Option.bind_some,
    decodes_string s hs, hflag, UInt32.ofNat_toNat, Option.pure_def]
  rfl

end Entries

section Decimals

/-- `std::to_string` of an unsigned number. -/
def decimal (n : Nat) : Bytes :=
  if n = 0 then [48] else ((Nat.digits 10 n).map fun d => UInt8.ofNat (48 + d)).reverse

/-- `std::to_string` of a signed number. -/
def signedDecimal (z : Int) : Bytes :=
  if z < 0 then 45 :: decimal z.natAbs else decimal z.natAbs

/-- The white space that the number parsers skip. -/
def isSpace (c : UInt8) : Bool := c == 32 || (9 ≤ c && c ≤ 13)

def isDigit (c : UInt8) : Bool := 48 ≤ c && c ≤ 57

/-- The value of the leading digits of a string, if it starts with one. -/
def leadingDigits (s : Bytes) : Option Nat :=
  let digits := s.takeWhile isDigit
  if digits = [] then none else some (digits.foldl (fun n c => 10 * n + (c.toNat - 48)) 0)

/-- Sign and magnitude of the number that a string starts with. -/
def parseSigned (s : Bytes) : Option (Bool × Nat) :=
  match s.dropWhile isSpace with
  | 45 :: rest => (leadingDigits rest).map fun n => (true, n)
  | 43 :: rest => (leadingDigits rest).map fun n => (false, n)
  | rest => (leadingDigits rest).map fun n => (false, n)

/-- `std::stoull`: a minus sign negates in 64 bits. -/
def stoull (s : Bytes) : Result UInt64 :=
  match parseSigned s with
  | none => .error (.invalidArgument "stoull")
  | some (negative, n) =>
      if 2 ^ 64 ≤ n then .error (.outOfRange "stoull")
      else .ok (if negative then 0 - UInt64.ofNat n else UInt64.ofNat n)

/-- `std::stoll`. -/
def stoll (s : Bytes) : Result Int :=
  match parseSigned s with
  | none => .error (.invalidArgument "stoll")
  | some (negative, n) =>
      if (if negative then 2 ^ 63 < n else 2 ^ 63 ≤ n) then .error (.outOfRange "stoll")
      else .ok (if negative then -(n : Int) else n)

theorem decimal_ne_nil (n : Nat) : decimal n ≠ [] := by
  unfold decimal
  split_ifs with h
  · exact List.cons_ne_nil _ _
  · simpa using Nat.digits_ne_nil_iff_ne_zero.2 h

theorem isDigit_of_mem_decimal {n : Nat} {c : UInt8} (h : c ∈ decimal n) : isDigit c = true := by
  unfold decimal at h
  split_ifs at h with h₀
  · rw [List.mem_singleton.1 h]
    rfl
  · rw [List.mem_reverse, List.mem_map] at h
    obtain ⟨d, hd, rfl⟩ := h
    have hlt := Nat.digits_lt_base (by decide) hd
    interval_cases d <;> rfl

theorem leadingDigits_decimal (n : Nat) : leadingDigits (decimal n) = some n := by
  have hall : (decimal n).takeWhile isDigit = decimal n :=
    List.takeWhile_eq_self_iff.2 fun c hc => isDigit_of_mem_decimal hc
  rw [leadingDigits, hall, if_neg (decimal_ne_nil n), decimal]
  split_ifs with h₀
  · rw [h₀]
    rfl
  · rw [List.foldl_reverse, List.foldr_map]
    have hstep : ∀ d ∈ Nat.digits 10 n, ∀ m : Nat,
        10 * m + ((UInt8.ofNat (48 + d)).toNat - 48) = d + 10 * m := by
      intro d hd m
      have hlt := Nat.digits_lt_base (by decide) hd
      rw [UInt8.toNat_ofNat', Nat.mod_eq_of_lt (by omega)]
      omega
    rw [List.foldr_ext _ _ 0 hstep]
    conv_rhs => rw [← Nat.ofDigits_digits 10 n, Nat.ofDigits_eq_foldr]
    rfl

theorem parseSigned_decimal (n : Nat) : parseSigned (decimal n) = some (false, n) := by
  obtain ⟨c, rest, hcons⟩ := List.exists_cons_of_ne_nil (decimal_ne_nil n)
  have hdigit : isDigit c = true := isDigit_of_mem_decimal (hcons.symm ▸ List.mem_cons_self : c ∈ decimal n)
  have hspace : isSpace c = false := by
    simp only [isDigit, Bool.and_eq_true, decide_eq_true_eq] at hdigit
    simp only [isSpace, Bool.or_eq_false_iff, beq_eq_false_iff_ne, Bool.and_eq_false_iff,
      decide_eq_false_iff_not]
    grind
  have hsign : c ≠ 45 ∧ c ≠ 43 := by
    refine ⟨?_, ?_⟩
    all_goals
      rintro rfl
      exact absurd hdigit (by decide)
  have hdrop : (decimal n).dropWhile isSpace = c :: rest := by
    rw [hcons, List.dropWhile_cons, if_neg (by rw [hspace]; decide)]
  have hlead : leadingDigits (c :: rest) = some n := hcons ▸ leadingDigits_decimal n
  unfold parseSigned
  rw [hdrop]
  split
  · next heq => exact absurd (List.cons.inj heq).1 hsign.1
  · next heq => exact absurd (List.cons.inj heq).1 hsign.2
  · rw [hlead]
    rfl

/-- A 64-bit number is read back from its decimal text. -/
theorem stoull_decimal (n : UInt64) : stoull (decimal n.toNat) = .ok n := by
  rw [stoull, parseSigned_decimal]
  simp only [Nat.not_le_of_lt n.toNat_lt, ↓reduceIte, Bool.false_eq_true, UInt64.ofNat_toNat]

theorem parseSigned_negative (n : Nat) : parseSigned (45 :: decimal n) = some (true, n) := by
  have hdrop : (45 :: decimal n : Bytes).dropWhile isSpace = 45 :: decimal n := rfl
  rw [parseSigned, hdrop]
  simp only [leadingDigits_decimal, Option.map_some]

/-- A `long long` is read back from its decimal text. -/
theorem stoll_signedDecimal {z : Int} (hlow : -2 ^ 63 ≤ z) (hhigh : z < 2 ^ 63) :
    stoll (signedDecimal z) = .ok z := by
  rw [signedDecimal]
  split_ifs with hneg
  · rw [stoll, parseSigned_negative]
    simp only [↓reduceIte]
    rw [if_neg (by omega), show -(z.natAbs : Int) = z by omega]
  · rw [stoll, parseSigned_decimal]
    simp only [Bool.false_eq_true, ↓reduceIte]
    rw [if_neg (by omega), show (z.natAbs : Int) = z by omega]

/-- A count below 2^63 is read back as a `long long`; from 2^63 on the text is out of
its range. -/
theorem stoll_decimal (n : Nat) :
    stoll (decimal n) = if n < 2 ^ 63 then .ok (n : Int) else .error (.outOfRange "stoll") := by
  rw [stoll, parseSigned_decimal]
  simp only [Bool.false_eq_true, ↓reduceIte]
  by_cases h : n < 2 ^ 63
  · rw [if_neg (Nat.not_le_of_lt h), if_pos h]
  · rw [if_pos (Nat.le_of_not_lt h), if_neg h]

end Decimals

end EyaKV.Store
