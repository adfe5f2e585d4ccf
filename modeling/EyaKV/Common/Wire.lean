import EyaKV.Base.Reading
import EyaKV.Store.Codec

/-!
# Fields of messages

The fields that the messages of both protocols consist of, written to a buffer and read from one
at an advancing offset: integers in network order, flags, and strings behind their length. A reader
of a string asks for as many bytes as the length says; no field knows where the buffer ends.

A string or a list is written with `static_cast<uint32_t>` of its length, and what is read back is
shorter than 2^32 (`yields_string`).
-/

set_option autoImplicit false

namespace EyaKV.Wire

open EyaKV.Base EyaKV.Base.Framing EyaKV.Store

section Fields

/-- A `bool` as one byte. -/
def putFlag (b : Bool) : Bytes := [if b then 1 else 0]

/-- `htons`. -/
def putUInt16 (n : UInt16) : Bytes := [UInt8.ofNat (n.toNat / 2 ^ 8), UInt8.ofNat n.toNat]

/-- `htonl`. -/
def putUInt32 (n : UInt32) : Bytes := be32 n.toNat

/-- `htonl` of an `int`. -/
def putInt32 (i : Int32) : Bytes := putUInt32 i.toUInt32

/-- A `uint64_t` as its two halves, the high one first. -/
def putUInt64 (n : UInt64) : Bytes := be32 (n.toNat / 2 ^ 32) ++ be32 (n.toNat % 2 ^ 32)

def getFlag : Reader UInt8 Bool := do return (← Reader.symbol) != 0

/-- `ntohs`. -/
def getUInt16 : Reader UInt8 UInt16 := do
  let a ← Reader.symbol
  let b ← Reader.symbol
  return UInt16.ofNat (b.toNat + 2 ^ 8 * a.toNat)

/-- `ntohl`. -/
def getUInt32 : Reader UInt8 UInt32 := do
  let a ← Reader.symbol
  let b ← Reader.symbol
  let c ← Reader.symbol
  let d ← Reader.symbol
  return UInt32.ofNat (d.toNat + 2 ^ 8 * c.toNat + 2 ^ 16 * b.toNat + 2 ^ 24 * a.toNat)

def getInt32 : Reader UInt8 Int32 := do return (← getUInt32).toInt32

def getUInt64 : Reader UInt8 UInt64 := do
  let high ← getUInt32
  let low ← getUInt32
  return UInt64.ofNat (2 ^ 32 * high.toNat + low.toNat)

/-- `Serializer::deserializeString`. -/
def getString : Reader UInt8 Bytes := do
  let len ← getUInt32
  Reader.symbols len.toNat

/-- A length and as many items. -/
def getList {α : Type} (item : Reader UInt8 α) : Reader UInt8 (List α) := do
  let size ← getUInt32
  item.count size.toNat

end Fields

section RoundTrips

variable (rest : Bytes)

@[simp] theorem run_getFlag (b : Bool) : getFlag.run (putFlag b ++ rest) = some (b, rest) := by
  cases b <;> rfl

theorem run_getUInt32_be32 (n : Nat) :
    getUInt32.run (be32 n ++ rest) = some (UInt32.ofNat n, rest) := by
  have hrun : getUInt32.run (be32 n ++ rest) = some (UInt32.ofNat ((UInt8.ofNat n).toNat +
      2 ^ 8 * (UInt8.ofNat (n / 2 ^ 8)).toNat + 2 ^ 16 * (UInt8.ofNat (n / 2 ^ 16)).toNat +
      2 ^ 24 * (UInt8.ofNat (n / 2 ^ 24)).toNat), rest) := rfl
  rw [hrun, Option.some.injEq, Prod.mk.injEq]
  refine ⟨UInt32.toNat_inj.1 ?_, rfl⟩
  simp only [UInt8.toNat_ofNat', UInt32.toNat_ofNat']
  omega

@[simp] theorem run_getUInt16 (n : UInt16) :
    getUInt16.run (putUInt16 n ++ rest) = some (n, rest) := by
  have hrun : getUInt16.run (putUInt16 n ++ rest) = some (UInt16.ofNat ((UInt8.ofNat n.toNat).toNat +
      2 ^ 8 * (UInt8.ofNat (n.toNat / 2 ^ 8)).toNat), rest) := rfl
  have hn := n.toNat_lt
  rw [hrun, Option.some.injEq, Prod.mk.injEq]
  refine ⟨UInt16.toNat_inj.1 ?_, rfl⟩
  simp only [UInt8.toNat_ofNat', UInt16.toNat_ofNat']
  omega

@[simp] theorem run_getUInt32 (n : UInt32) :
    getUInt32.run (putUInt32 n ++ rest) = some (n, rest) := by
  rw [putUInt32, run_getUInt32_be32, UInt32.ofNat_toNat]

@[simp] theorem run_getInt32 (i : Int32) : getInt32.run (putInt32 i ++ rest) = some (i, rest) := by
  rw [getInt32, Reader.run_bind, putInt32, run_getUInt32, Option.bind_some, Reader.run_pure,
    Int32.toInt32_toUInt32]

@[simp] theorem run_getUInt64 (n : UInt64) :
    getUInt64.run (putUInt64 n ++ rest) = some (n, rest) := by
  have hn := n.toNat_lt
  simp only [getUInt64, putUInt64, Reader.run_bind, List.append_assoc, run_getUInt32_be32,
    Option.bind_some, Reader.run_pure, UInt32.toNat_ofNat', Option.some.injEq, Prod.mk.injEq,
    and_true]
  refine UInt64.toNat_inj.1 ?_
  rw [UInt64.toNat_ofNat']
  omega

variable {rest}

/-- A length below 2^32 is read back. -/
theorem run_getLength {n : Nat} (hn : n < 2 ^ 32) {α : Type} (r : Nat → Reader UInt8 α) :
    (getUInt32 >>= fun size => r size.toNat).run (be32 n ++ rest) = (r n).run rest := by
  rw [Reader.run_bind, run_getUInt32_be32, Option.bind_some, UInt32.toNat_ofNat',
    Nat.mod_eq_of_lt hn]

theorem run_getString {s : Bytes} (hs : Sized s) (rest : Bytes) :
    getString.run (serializeString s ++ rest) = some (s, rest) := by
  rw [getString, serializeString, List.append_assoc, run_getLength hs, Reader.run_symbols,
    if_neg (by rw [List.length_append]; omega), List.take_left, List.drop_left]

theorem run_getList {α : Type} {valid : α → Prop} {enc : α → Bytes} {item : Reader UInt8 α}
    (h : Decodes valid enc item.run) {as : List α} (hlength : as.length < 2 ^ 32)
    (hvalid : ∀ a ∈ as, valid a) (rest : Bytes) :
    (getList item).run (be32 as.length ++ (as.flatMap enc ++ rest)) = some (as, rest) := by
  rw [getList, run_getLength hlength, Reader.run_count]
  exact h.count as hvalid rest

end RoundTrips

section Yields

/-- What a reader returns is some value. -/
theorem yields_true {α : Type} (r : Reader UInt8 α) : Yields (fun _ => True) r.run :=
  fun _ _ _ _ => trivial

theorem yields_string : Yields Sized getString.run :=
  Reader.yields_bind (yields_true getUInt32) fun len _ => by
    intro input s rest h
    have hlength := Reader.yields_symbols len.toNat input s rest h
    rw [Sized, hlength]
    exact len.toNat_lt

theorem yields_list {α : Type} {P : α → Prop} {item : Reader UInt8 α} (h : Yields P item.run) :
    Yields (fun as => as.length < 2 ^ 32 ∧ ∀ a ∈ as, P a) (getList item).run :=
  Reader.yields_bind (yields_true getUInt32) fun size _ => by
    intro input as rest has
    obtain ⟨hlength, hall⟩ := Reader.yields_count h size.toNat input as rest has
    exact ⟨hlength ▸ size.toNat_lt, hall⟩

end Yields

end EyaKV.Wire
