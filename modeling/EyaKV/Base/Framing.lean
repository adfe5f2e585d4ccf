import Mathlib.Tactic.Common

/-!
# Prefix decoders

A decoder reads a value from the front of a list of symbols and returns the rest.
`Decodes valid enc dec` says that `dec` undoes `enc` whatever follows. Items can be
read in pairs (`pair`), a given number of times (`count`), until the input is used
up (`untilEnd`), or as long as one can be read (`scan`); each form of repetition
undoes the concatenation of the encoded items.

A file that is cut off somewhere holds the items that lie completely before the cut
(`complete`) and what is left of the next one (`torn`). A decoder that needs all of an
encoding, whatever follows (`Extends`), reads the former and stops at the latter
(`Decodes.scanAll_take`).

A record that stands at an offset of a file (`StandsAt`) is read there, and it still stands
there when the file has grown. Records that are added at the end of a file stand at the
offsets that count from its length (`standAt_offsets`).
-/

set_option autoImplicit false

namespace EyaKV.Base.Framing

universe u

variable {σ α β : Type u}

/-- Reads a value from the front of the input. -/
abbrev Decoder (σ α : Type u) := List σ → Option (α × List σ)

/-- On the encoding of a valid value, whatever follows, the decoder returns that
value and what follows. -/
def Decodes (valid : α → Prop) (enc : α → List σ) (dec : Decoder σ α) : Prop :=
  ∀ a, valid a → ∀ rest, dec (enc a ++ rest) = some (a, rest)

/-- Two values one after the other. -/
def pair (d₁ : Decoder σ α) (d₂ : Decoder σ β) : Decoder σ (α × β) := fun input => do
  let (a, rest) ← d₁ input
  let (b, rest) ← d₂ rest
  return ((a, b), rest)

/-- `n` values one after the other. -/
def count (dec : Decoder σ α) : Nat → Decoder σ (List α)
  | 0, input => some ([], input)
  | n + 1, input => do
      let (a, rest) ← dec input
      let (as, rest) ← count dec n rest
      return (a :: as, rest)

/-- Values until the input is used up, at most `fuel` of them. -/
def untilEnd (dec : Decoder σ α) : Nat → List σ → Option (List α)
  | _, [] => some []
  | 0, _ :: _ => none
  | fuel + 1, input => do
      let (a, rest) ← dec input
      let as ← untilEnd dec fuel rest
      return a :: as

/-- Values as long as one can be read, at most `fuel` of them. -/
def scan (dec : Decoder σ α) : Nat → List σ → List α
  | 0, _ => []
  | fuel + 1, input =>
      match dec input with
      | none => []
      | some (a, rest) => a :: scan dec fuel rest

section RoundTrips

variable {valid : α → Prop} {enc : α → List σ} {dec : Decoder σ α}

theorem Decodes.pair {valid' : β → Prop} {enc' : β → List σ} {dec' : Decoder σ β}
    (h : Decodes valid enc dec) (h' : Decodes valid' enc' dec') :
    Decodes (fun p => valid p.1 ∧ valid' p.2) (fun p => enc p.1 ++ enc' p.2)
      (Framing.pair dec dec') := by
  rintro ⟨a, b⟩ ⟨ha, hb⟩ rest
  simp only [Framing.pair, List.append_assoc, h a ha, h' b hb, Option.bind_eq_bind,
    Option.bind_some, Option.pure_def]

/-- Reading on after an encoding: what a whole decoder is proved by, one field at a time. -/
theorem Decodes.andThen (h : Decodes valid enc dec) {a : α} (ha : valid a) {rest : List σ}
    {next : α × List σ → Option β} {result : Option β} (hnext : next (a, rest) = result) :
    (dec (enc a ++ rest)).bind next = result := by
  rw [h a ha rest]
  exact hnext

theorem Decodes.count (h : Decodes valid enc dec) (as : List α) (hvalid : ∀ a ∈ as, valid a)
    (rest : List σ) : Framing.count dec as.length (as.flatMap enc ++ rest) = some (as, rest) := by
  induction as with
  | nil => rfl
  | cons a as ih =>
      have htail := ih fun b hb => hvalid b (List.mem_cons_of_mem a hb)
      simp only [List.length_cons, Framing.count, List.flatMap_cons, List.append_assoc,
        h a (hvalid a List.mem_cons_self), htail, Option.bind_eq_bind, Option.bind_some,
        Option.pure_def]

/-- Encodings that are never empty are read back until the end of the input. -/
theorem Decodes.untilEnd (h : Decodes valid enc dec) (hne : ∀ a, enc a ≠ []) (as : List α)
    (hvalid : ∀ a ∈ as, valid a) {fuel : Nat} (hfuel : as.length ≤ fuel) :
    Framing.untilEnd dec fuel (as.flatMap enc) = some as := by
  induction as generalizing fuel with
  | nil =>
      cases fuel with
      | zero => rfl
      | succ fuel => rfl
  | cons a as ih =>
      obtain ⟨fuel, rfl⟩ := Nat.exists_eq_add_of_le' hfuel
      have htail := ih (fun b hb => hvalid b (List.mem_cons_of_mem a hb))
        (Nat.le_add_left as.length fuel)
      obtain ⟨s, tail, hcons⟩ := List.exists_cons_of_ne_nil (hne a)
      have hdec := h a (hvalid a List.mem_cons_self) (as.flatMap enc)
      rw [hcons, List.cons_append] at hdec
      rw [List.flatMap_cons, hcons, List.cons_append, List.length_cons, ← Nat.add_assoc,
        Framing.untilEnd, hdec]
      · simp only [htail, Option.bind_eq_bind, Option.bind_some, Option.pure_def]
      · exact List.cons_ne_nil _ _

/-- A scan reads encoded items one by one and goes on with what follows them. -/
theorem Decodes.scan_append (h : Decodes valid enc dec) (as : List α)
    (hvalid : ∀ a ∈ as, valid a) (fuel : Nat) (rest : List σ) :
    scan dec (as.length + fuel) (as.flatMap enc ++ rest) = as ++ scan dec fuel rest := by
  induction as with
  | nil => rw [List.length_nil, Nat.zero_add]; rfl
  | cons a as ih =>
      rw [List.length_cons, Nat.add_right_comm, scan, List.flatMap_cons, List.append_assoc,
        h a (hvalid a List.mem_cons_self)]
      exact congrArg (a :: ·) (ih fun b hb => hvalid b (List.mem_cons_of_mem a hb))

end RoundTrips

section Exactness

variable {valid : α → Prop} {enc : α → List σ} {dec : Decoder σ α}

/-- Whatever is read is valid. -/
def Yields (valid : α → Prop) (dec : Decoder σ α) : Prop :=
  ∀ input a rest, dec input = some (a, rest) → valid a

/-- A decoder that undoes the encodings of the valid values and yields no others undoes exactly
these. -/
theorem Decodes.iff_valid (h : Decodes valid enc dec) (hyields : Yields valid dec) (a : α) :
    (∀ rest, dec (enc a ++ rest) = some (a, rest)) ↔ valid a := by
  constructor
  · intro hdec
    exact hyields _ a [] (hdec [])
  · exact h a

theorem Yields.pair {valid' : β → Prop} {dec' : Decoder σ β} (h : Yields valid dec)
    (h' : Yields valid' dec') :
    Yields (fun p => valid p.1 ∧ valid' p.2) (Framing.pair dec dec') := by
  intro input p rest hdec
  simp only [Framing.pair, Option.bind_eq_bind, Option.bind_eq_some_iff, Option.pure_def,
    Option.some.injEq, Prod.mk.injEq, Prod.exists] at hdec
  obtain ⟨a, rest₁, ha, b, rest₂, hb, rfl, -⟩ := hdec
  exact ⟨h _ a _ ha, h' _ b _ hb⟩

theorem Yields.count (h : Yields valid dec) (n : Nat) :
    Yields (fun as => as.length = n ∧ ∀ a ∈ as, valid a) (Framing.count dec n) := by
  induction n with
  | zero =>
      rintro input as rest hdec
      obtain ⟨rfl, -⟩ := Prod.mk.inj (Option.some.inj hdec)
      exact ⟨rfl, fun a ha => absurd ha List.not_mem_nil⟩
  | succ n ih =>
      intro input as rest hdec
      simp only [Framing.count, Option.bind_eq_bind, Option.bind_eq_some_iff, Option.pure_def,
        Option.some.injEq, Prod.mk.injEq, Prod.exists] at hdec
      obtain ⟨a, rest₁, ha, as', rest₂, has, rfl, -⟩ := hdec
      obtain ⟨hlength, hvalid⟩ := ih _ as' _ has
      refine ⟨by rw [List.length_cons, hlength], fun b hb => ?_⟩
      rcases List.mem_cons.1 hb with rfl | hb
      · exact h _ b _ ha
      · exact hvalid b hb

end Exactness

section Torn

variable {valid : α → Prop} {enc : α → List σ} {dec : Decoder σ α}

/-- What the decoder reads does not depend on what follows. -/
def Extends (dec : Decoder σ α) : Prop :=
  ∀ input a rest, dec input = some (a, rest) → ∀ more, dec (input ++ more) = some (a, rest ++ more)

/-- Each value that is read uses up some input. -/
def Consumes (dec : Decoder σ α) : Prop :=
  ∀ input a rest, dec input = some (a, rest) → rest.length < input.length

/-- The items that lie completely in the first `n` symbols of their encodings. -/
def complete (enc : α → List σ) : List α → Nat → List α
  | [], _ => []
  | a :: as, n => if (enc a).length ≤ n then a :: complete enc as (n - (enc a).length) else []

/-- What is left of the first `n` symbols after the complete items. -/
def torn (enc : α → List σ) : List α → Nat → List σ
  | [], _ => []
  | a :: as, n => if (enc a).length ≤ n then torn enc as (n - (enc a).length) else (enc a).take n

/-- The first `n` symbols are the complete items and the torn rest. -/
theorem take_flatMap (enc : α → List σ) (as : List α) (n : Nat) :
    (as.flatMap enc).take n = (complete enc as n).flatMap enc ++ torn enc as n := by
  induction as generalizing n with
  | nil => rw [List.flatMap_nil, List.take_nil]; rfl
  | cons a as ih =>
      rw [List.flatMap_cons, List.take_append, complete, torn]
      split
      · next hle =>
          rw [ih, List.take_of_length_le hle, List.flatMap_cons, List.append_assoc]
      · next hlt =>
          rw [Nat.sub_eq_zero_of_le (Nat.le_of_not_le hlt), List.take_zero, List.append_nil]
          rfl

/-- A file that is not cut off holds all items. -/
theorem complete_whole (enc : α → List σ) {as : List α} {n : Nat}
    (h : (as.flatMap enc).length ≤ n) : complete enc as n = as ∧ torn enc as n = [] := by
  induction as generalizing n with
  | nil => exact ⟨rfl, rfl⟩
  | cons a as ih =>
      rw [List.flatMap_cons, List.length_append] at h
      have hfirst : (enc a).length ≤ n := by omega
      obtain ⟨hcomplete, htorn⟩ := ih (n := n - (enc a).length) (by omega)
      rw [complete, torn, if_pos hfirst, if_pos hfirst, hcomplete]
      exact ⟨rfl, htorn⟩

theorem complete_sublist (enc : α → List σ) (as : List α) (n : Nat) :
    complete enc as n = as.take (complete enc as n).length := by
  induction as generalizing n with
  | nil => rfl
  | cons a as ih =>
      rw [complete]
      split
      · rw [List.length_cons, List.take_succ_cons, ← ih]
      · rfl

/-- No longer prefix of the items fits in the first `n` symbols. -/
theorem le_length_complete (enc : α → List σ) (as : List α) (n m : Nat) (hm : m ≤ as.length)
    (hfits : ((as.take m).flatMap enc).length ≤ n) : m ≤ (complete enc as n).length := by
  induction as generalizing n m with
  | nil => exact hm
  | cons a as ih =>
      cases m with
      | zero => exact Nat.zero_le _
      | succ m =>
          rw [List.take_succ_cons, List.flatMap_cons, List.length_append] at hfits
          rw [complete, if_pos (by omega), List.length_cons]
          exact Nat.succ_le_succ (ih (n - (enc a).length) m (Nat.le_of_succ_le_succ hm) (by omega))

theorem length_complete_le (enc : α → List σ) (as : List α) (n : Nat) :
    ((complete enc as n).flatMap enc).length ≤ n := by
  have hlength := congrArg List.length (take_flatMap enc as n)
  rw [List.length_take, List.length_append] at hlength
  omega

/-- A value whose encoding is cut off cannot be read. -/
theorem Decodes.take_eq_none (h : Decodes valid enc dec) (hext : Extends dec) {a : α}
    (ha : valid a) {n : Nat} (hn : n < (enc a).length) : dec ((enc a).take n) = none := by
  cases hdec : dec ((enc a).take n) with
  | none => rfl
  | some r =>
      obtain ⟨b, rest⟩ := r
      have hwhole := hext _ b rest hdec ((enc a).drop n)
      have hfull := h a ha []
      rw [List.append_nil] at hfull
      rw [List.take_append_drop, hfull] at hwhole
      have hlength := congrArg (fun r => r.2.length) (Option.some.inj hwhole)
      rw [List.length_append, List.length_drop, List.length_nil] at hlength
      omega

theorem Decodes.torn_eq_none (h : Decodes valid enc dec) (hext : Extends dec) (hnil : dec [] = none)
    (as : List α) (hvalid : ∀ a ∈ as, valid a) (n : Nat) : dec (torn enc as n) = none := by
  induction as generalizing n with
  | nil => exact hnil
  | cons a as ih =>
      rw [torn]
      split
      · exact ih (fun b hb => hvalid b (List.mem_cons_of_mem a hb)) _
      · next hlt => exact h.take_eq_none hext (hvalid a List.mem_cons_self) (Nat.lt_of_not_le hlt)

/-- Fuel for every symbol is fuel enough. -/
theorem scan_fuel (hcons : Consumes dec) {fuel fuel' : Nat} {input : List σ}
    (hfuel : input.length ≤ fuel) (hfuel' : input.length ≤ fuel') (hnil : dec [] = none) :
    scan dec fuel input = scan dec fuel' input := by
  induction fuel generalizing input fuel' with
  | zero =>
      obtain rfl := List.length_eq_zero_iff.1 (Nat.le_zero.1 hfuel)
      cases fuel' with
      | zero => rfl
      | succ fuel' => rw [scan, scan, hnil]
  | succ fuel ih =>
      cases fuel' with
      | zero =>
          obtain rfl := List.length_eq_zero_iff.1 (Nat.le_zero.1 hfuel')
          rw [scan, scan, hnil]
      | succ fuel' =>
          rw [scan, scan]
          cases hdec : dec input with
          | none => rfl
          | some r =>
              have hlt := hcons input r.1 r.2 hdec
              exact congrArg (r.1 :: ·) (ih (by omega) (by omega))

/-- A scan of a whole input, with fuel for every symbol. -/
def scanAll (dec : Decoder σ α) (input : List σ) : List α := scan dec input.length input

/-- **Encoded items are scanned one by one, and the scan goes on behind them.** -/
theorem Decodes.scanAll_append (h : Decodes valid enc dec) (hcons : Consumes dec)
    (hnil : dec [] = none) (as : List α) (hvalid : ∀ a ∈ as, valid a) (rest : List σ) :
    scanAll dec (as.flatMap enc ++ rest) = as ++ scanAll dec rest := by
  have hscan := h.scan_append as hvalid (as.flatMap enc ++ rest).length rest
  have hwhole : scanAll dec (as.flatMap enc ++ rest) =
      scan dec (as.length + (as.flatMap enc ++ rest).length) (as.flatMap enc ++ rest) :=
    scan_fuel hcons (Nat.le_refl _) (Nat.le_add_left _ _) hnil
  have hrest : scan dec (as.flatMap enc ++ rest).length rest = scanAll dec rest :=
    scan_fuel hcons (by rw [List.length_append]; omega) (Nat.le_refl _) hnil
  rw [hwhole, hscan, hrest]

/-- **A scan of a cut off file delivers the complete items.** -/
theorem Decodes.scanAll_take (h : Decodes valid enc dec) (hext : Extends dec)
    (hcons : Consumes dec) (hnil : dec [] = none) (as : List α) (hvalid : ∀ a ∈ as, valid a)
    (n : Nat) : scanAll dec ((as.flatMap enc).take n) = complete enc as n := by
  have hcomplete : ∀ a ∈ complete enc as n, valid a := by
    intro a ha
    rw [complete_sublist] at ha
    exact hvalid a (List.mem_of_mem_take ha)
  have htorn : scanAll dec (torn enc as n) = [] := by
    rw [scanAll]
    cases (torn enc as n).length with
    | zero => rfl
    | succ fuel => rw [scan, h.torn_eq_none hext hnil as hvalid]
  rw [take_flatMap, h.scanAll_append hcons hnil _ hcomplete, htorn, List.append_nil]

end Torn

section Offsets

variable {valid : α → Prop} {enc : α → List σ} {dec : Decoder σ α}

/-- A record begins at an offset of the content of a file. -/
def StandsAt (content : List σ) (offset : Nat) (record : List σ) : Prop :=
  record <+: content.drop offset

theorem standsAt_end (content record rest : List σ) :
    StandsAt (content ++ (record ++ rest)) content.length record := by
  rw [StandsAt, List.drop_left]
  exact List.prefix_append record rest

theorem StandsAt.grow {content record : List σ} {offset : Nat} (h : StandsAt content offset record)
    (more : List σ) : StandsAt (content ++ more) offset record := by
  rw [StandsAt, List.drop_append]
  exact h.trans (List.prefix_append _ _)

/-- The offsets of records one after the other. -/
def offsets (enc : α → List σ) : Nat → List α → List Nat
  | _, [] => []
  | start, a :: as => start :: offsets enc (start + (enc a).length) as

/-- Records added at the end of a file stand at their offsets. -/
theorem standAt_offsets (enc : α → List σ) (content : List σ) (as : List α) :
    List.Forall₂ (fun offset a => StandsAt (content ++ as.flatMap enc) offset (enc a))
      (offsets enc content.length as) as := by
  induction as generalizing content with
  | nil => exact .nil
  | cons a as ih =>
      apply List.Forall₂.cons
      · rw [List.flatMap_cons]
        exact standsAt_end content (enc a) _
      · have htail := ih (content ++ enc a)
        rwa [List.length_append, List.append_assoc, ← List.flatMap_cons] at htail

end Offsets

end EyaKV.Base.Framing
