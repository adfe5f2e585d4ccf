import Mathlib.Tactic.Common

/-!
# Shift registers with feedback

A register of `w` bits moves down one place at each clock, and a polynomial is added when a
bit falls out. Bits are fed into its lowest place, one a clock. Feeding is linear
(`clock_xor`), and when the polynomial has its top bit no two registers clock to the same one
(`clock_injective`).

At most `w` bits that are fed one after the other act as a word that is added at once
(`feedAll_eq_clocks`). So a burst of at most `w` changed bits, wherever it stands in the
stream, ends in another register (`feedAll_ne_of_burst`).
-/

set_option autoImplicit false

namespace EyaKV.Base.ShiftRegister

variable {w : Nat}

/-- One clock. -/
def clock (poly c : BitVec w) : BitVec w :=
  if c.getLsbD 0 then poly ^^^ (c >>> 1) else c >>> 1

/-- `n` clocks. -/
def clocks (poly : BitVec w) : Nat → BitVec w → BitVec w
  | 0, c => c
  | n + 1, c => clocks poly n (clock poly c)

/-- A bit at the lowest place. -/
def bit (b : Bool) : BitVec w := (BitVec.ofBool b).setWidth w

/-- A bit goes in, and the register is clocked. -/
def feed (poly c : BitVec w) (b : Bool) : BitVec w := clock poly (c ^^^ bit b)

/-- A stream of bits goes in. -/
def feedAll (poly c : BitVec w) (bs : List Bool) : BitVec w := bs.foldl (feed poly) c

/-- The bits as a word, the first one at the lowest place. -/
def word : List Bool → BitVec w
  | [] => 0
  | b :: bs => bit b ^^^ (word bs <<< 1)

/-- Two streams differ in a burst of at most `n` bits. -/
def Burst (n : Nat) (bs bs' : List Bool) : Prop :=
  ∃ before burst burst' after, bs = before ++ (burst ++ after) ∧ bs' = before ++ (burst' ++ after) ∧
    burst.length = burst'.length ∧ burst.length ≤ n ∧ burst ≠ burst'

section Bursts

theorem Burst.ne {n : Nat} {bs bs' : List Bool} (h : Burst n bs bs') : bs ≠ bs' := by
  obtain ⟨before, burst, burst', after, rfl, rfl, -, -, hne⟩ := h
  intro hsame
  exact hne (List.append_cancel_right (List.append_cancel_left hsame))

/-- What the streams have in common in front of a burst may be left out. -/
theorem Burst.of_append {n : Nat} (first : List Bool) {bs bs' : List Bool}
    (h : Burst n (first ++ bs) (first ++ bs')) : Burst n bs bs' := by
  induction first with
  | nil => exact h
  | cons b first ih =>
      apply ih
      obtain ⟨before, burst, burst', after, heq, heq', hlength, hn, hne⟩ := h
      cases before with
      | cons c before =>
          exact ⟨before, burst, burst', after, (List.cons.inj heq).2, (List.cons.inj heq').2,
            hlength, hn, hne⟩
      | nil =>
          -- the common bit is the first one of the burst
          cases burst with
          | nil => exact absurd (List.eq_nil_of_length_eq_zero hlength.symm).symm hne
          | cons c burst =>
              cases burst' with
              | nil => cases hlength
              | cons c' burst' =>
                  obtain ⟨rfl, htail⟩ := List.cons.inj heq
                  obtain ⟨rfl, htail'⟩ := List.cons.inj heq'
                  exact ⟨[], burst, burst', after, htail, htail', Nat.succ.inj hlength,
                    Nat.le_of_succ_le hn, fun hsame => hne (congrArg (b :: ·) hsame)⟩

end Bursts

section Clock

variable {poly : BitVec w}

/-- What falls out of a sum is the sum of what falls out. -/
theorem clock_xor (poly c d : BitVec w) : clock poly (c ^^^ d) = clock poly c ^^^ clock poly d := by
  simp only [clock, BitVec.getLsbD_xor, BitVec.ushiftRight_xor_distrib]
  cases c.getLsbD 0 with
  | false =>
      cases d.getLsbD 0 with
      | false => rfl
      | true =>
          simp only [Bool.false_xor, if_true, Bool.false_eq_true, if_false]
          rw [← BitVec.xor_assoc, ← BitVec.xor_assoc, BitVec.xor_comm poly]
  | true =>
      cases d.getLsbD 0 with
      | false =>
          simp only [Bool.xor_false, if_true, Bool.false_eq_true, if_false]
          rw [BitVec.xor_assoc]
      | true =>
          simp only [Bool.xor_self, if_true, Bool.false_eq_true, if_false]
          rw [BitVec.xor_comm poly (c >>> 1), BitVec.xor_assoc, ← BitVec.xor_assoc poly,
            BitVec.xor_self, BitVec.zero_xor]

theorem clocks_xor (poly : BitVec w) (n : Nat) (c d : BitVec w) :
    clocks poly n (c ^^^ d) = clocks poly n c ^^^ clocks poly n d := by
  induction n generalizing c d with
  | zero => rfl
  | succ n ih => rw [clocks, clock_xor, ih]; rfl

/-- The top bit after a clock tells whether a bit fell out. -/
theorem msb_clock (hpoly : poly.msb = true) (c : BitVec w) : (clock poly c).msb = c.getLsbD 0 := by
  have hshift : (c >>> 1).msb = false := by simp [BitVec.msb_ushiftRight]
  cases hbit : c.getLsbD 0 with
  | false => rw [clock, hbit, if_neg Bool.false_ne_true, hshift]
  | true => rw [clock, hbit, if_pos rfl, BitVec.msb_xor, hpoly, hshift, Bool.xor_false]

theorem clock_eq_zero (hpoly : poly.msb = true) {c : BitVec w} (h : clock poly c = 0) : c = 0 := by
  have hbit : c.getLsbD 0 = false := by rw [← msb_clock hpoly c, h]; simp
  rw [clock, hbit, if_neg Bool.false_ne_true] at h
  apply BitVec.eq_of_getLsbD_eq
  intro i _
  cases i with
  | zero => rw [hbit]; simp
  | succ i =>
      have hi := congrArg (fun x : BitVec w => x.getLsbD i) h
      simpa [BitVec.getLsbD_ushiftRight, Nat.add_comm] using hi

/-- No two registers clock to the same one. -/
theorem clock_injective (hpoly : poly.msb = true) {c d : BitVec w}
    (h : clock poly c = clock poly d) : c = d := by
  have hzero : clock poly (c ^^^ d) = 0 := by rw [clock_xor, h, BitVec.xor_self]; rfl
  exact BitVec.xor_eq_zero_iff.1 (clock_eq_zero hpoly hzero)

theorem clocks_injective (hpoly : poly.msb = true) (n : Nat) {c d : BitVec w}
    (h : clocks poly n c = clocks poly n d) : c = d := by
  induction n generalizing c d with
  | zero => exact h
  | succ n ih => exact clock_injective hpoly (ih h)

end Clock

section Low

/-- A word whose lowest `n` bits are clear moves down `n` places and nothing falls out. -/
theorem clocks_of_clear (poly : BitVec w) {n : Nat} {c : BitVec w}
    (h : ∀ i, i < n → c.getLsbD i = false) : clocks poly n c = c >>> n := by
  induction n generalizing c with
  | zero => simp [clocks]
  | succ n ih =>
      have hclock : clock poly c = c >>> 1 := by
        rw [clock, h 0 (Nat.succ_pos n), if_neg Bool.false_ne_true]
      rw [clocks, hclock, ih, ← BitVec.shiftRight_add, Nat.add_comm 1 n]
      intro i hi
      rw [BitVec.getLsbD_ushiftRight]
      exact h (1 + i) (by omega)

/-- The lowest bits by a mask and the others apart: the former are clocked by themselves, the
latter move down. -/
theorem clocks_split (poly : BitVec w) {n : Nat} {mask : BitVec w}
    (hmask : ∀ i, i < w → mask.getLsbD i = decide (i < n)) (c : BitVec w) :
    clocks poly n c = (c >>> n) ^^^ clocks poly n (c &&& mask) := by
  have hsplit : c = (c &&& ~~~mask) ^^^ (c &&& mask) := by
    apply BitVec.eq_of_getLsbD_eq
    intro i hi
    simp only [BitVec.getLsbD_xor, BitVec.getLsbD_and, BitVec.getLsbD_not, hi, decide_true,
      Bool.true_and]
    cases c.getLsbD i with
    | false => rfl
    | true => cases mask.getLsbD i with
      | false => rfl
      | true => rfl
  have hclear : clocks poly n (c &&& ~~~mask) = c >>> n := by
    rw [clocks_of_clear poly]
    · apply BitVec.eq_of_getLsbD_eq
      intro i hi
      simp only [BitVec.getLsbD_ushiftRight, BitVec.getLsbD_and, BitVec.getLsbD_not]
      by_cases hin : n + i < w
      · rw [hmask (n + i) hin]
        simp [hin]
      · simp [BitVec.getLsbD_of_ge c (n + i) (Nat.le_of_not_lt hin)]
    · intro i hi
      by_cases hin : i < w
      · simp [hin, hmask i hin, hi]
      · simp [hin]
  conv => lhs; rw [hsplit]
  rw [clocks_xor, hclear]

end Low

section Words

theorem getLsbD_bit (b : Bool) (i : Nat) (hi : i < w) :
    (bit b : BitVec w).getLsbD i = (decide (i = 0) && b) := by
  simp only [bit, BitVec.getLsbD_setWidth, hi, decide_true, Bool.true_and, BitVec.getLsbD_ofBool]

/-- The bits of a word are the bits it is made of. -/
theorem getLsbD_word (bs : List Bool) (i : Nat) (hi : i < w) :
    (word bs : BitVec w).getLsbD i = bs[i]?.getD false := by
  induction bs generalizing i with
  | nil => simp [word]
  | cons b bs ih =>
      rw [word, BitVec.getLsbD_xor, getLsbD_bit b i hi, BitVec.getLsbD_shiftLeft]
      cases i with
      | zero => simp
      | succ i => simp [hi, ih i (by omega)]

/-- Words of the same number of bits, at most `w`, are the same only for the same bits. -/
theorem word_injective {bs bs' : List Bool} (hlength : bs.length = bs'.length)
    (hw : bs.length ≤ w) (h : (word bs : BitVec w) = word bs') : bs = bs' := by
  apply List.ext_getElem hlength
  intro i hi hi'
  have hbit := congrArg (fun x : BitVec w => x.getLsbD i) h
  simp only [getLsbD_word _ i (Nat.lt_of_lt_of_le hi hw)] at hbit
  rwa [List.getElem?_eq_getElem hi, List.getElem?_eq_getElem hi', Option.getD_some,
    Option.getD_some] at hbit

/-- A word of fewer than `w` bits that has been moved up comes back with one clock. -/
theorem clock_shiftLeft (poly : BitVec w) {bs : List Bool} (hw : bs.length < w) :
    clock poly (word bs <<< 1) = word bs := by
  have hbit : ((word bs : BitVec w) <<< 1).getLsbD 0 = false := by
    rw [BitVec.getLsbD_shiftLeft]
    simp
  rw [clock, hbit, if_neg Bool.false_ne_true]
  apply BitVec.eq_of_getLsbD_eq
  intro i hi
  rw [BitVec.getLsbD_ushiftRight, BitVec.getLsbD_shiftLeft]
  by_cases hin : 1 + i < w
  · simp [hin]
  · -- the place above the register: the word has no bit at its top
    have htop : bs[i]? = none := List.getElem?_eq_none (by omega)
    simp [hin, getLsbD_word bs i hi, htop]

end Words

section Feeding

variable {poly : BitVec w}

/-- At most `w` bits act as a word that is added before as many clocks. -/
theorem feedAll_eq_clocks (poly c : BitVec w) {bs : List Bool} (hw : bs.length ≤ w) :
    feedAll poly c bs = clocks poly bs.length (c ^^^ word bs) := by
  induction bs generalizing c with
  | nil => simp [feedAll, clocks, word]
  | cons b bs ih =>
      have hlt : bs.length < w := Nat.lt_of_succ_le hw
      have hstep : clock poly (c ^^^ word (b :: bs)) = feed poly c b ^^^ word bs := by
        rw [word, ← BitVec.xor_assoc, clock_xor, clock_shiftLeft poly hlt]
        rfl
      rw [List.length_cons, clocks, hstep, ← ih (feed poly c b) (Nat.le_of_lt hlt)]
      rfl

theorem feedAll_append (poly c : BitVec w) (bs bs' : List Bool) :
    feedAll poly c (bs ++ bs') = feedAll poly (feedAll poly c bs) bs' :=
  List.foldl_append

/-- The same bits keep different registers apart. -/
theorem feedAll_injective (hpoly : poly.msb = true) (bs : List Bool) {c d : BitVec w}
    (h : feedAll poly c bs = feedAll poly d bs) : c = d := by
  induction bs generalizing c d with
  | nil => exact h
  | cons b bs ih =>
      have hfeed : feed poly c b = feed poly d b := ih h
      have hxor : c ^^^ bit b = d ^^^ bit b := clock_injective hpoly hfeed
      rw [← BitVec.xor_zero (x := c), ← BitVec.xor_self (x := bit b), ← BitVec.xor_assoc, hxor,
        BitVec.xor_assoc, BitVec.xor_self, BitVec.xor_zero]

/-- Different bits, as many as the register has places at most, end in different registers. -/
theorem feedAll_ne (hpoly : poly.msb = true) {bs bs' : List Bool}
    (hlength : bs.length = bs'.length) (hw : bs.length ≤ w) (hne : bs ≠ bs') (c : BitVec w) :
    feedAll poly c bs ≠ feedAll poly c bs' := by
  intro h
  rw [feedAll_eq_clocks poly c hw, feedAll_eq_clocks poly c (hlength ▸ hw), hlength] at h
  have hword : c ^^^ word bs = c ^^^ word bs' := clocks_injective hpoly bs'.length h
  apply hne
  apply word_injective hlength hw
  rw [← BitVec.zero_xor (x := word bs), ← BitVec.xor_self (x := c), BitVec.xor_assoc, hword,
    ← BitVec.xor_assoc, BitVec.xor_self, BitVec.zero_xor]

/-- **A burst changes the register**: what stands before it leads to one register, what stands
behind it keeps the two apart. -/
theorem feedAll_ne_of_burst (hpoly : poly.msb = true) {bs bs' : List Bool} (h : Burst w bs bs')
    (c : BitVec w) : feedAll poly c bs ≠ feedAll poly c bs' := by
  obtain ⟨before, burst, burst', after, rfl, rfl, hlength, hw, hne⟩ := h
  simp only [feedAll_append]
  intro hsame
  exact feedAll_ne hpoly hlength hw hne _ (feedAll_injective hpoly after hsame)

end Feeding

end EyaKV.Base.ShiftRegister
