import Mathlib.Data.List.Pairwise
import Mathlib.Data.List.Perm.Basic
import Mathlib.Data.List.TakeWhile
import Mathlib.Order.Lattice

/-!
# Ascending lists

Lists whose elements have keys in strictly ascending order. A scan that stops at the first
element which fails a test finds all elements that pass it when the test is closed downwards
(`Ascending.takeWhile_eq_filter`), and the elements between two positions are those between
two keys (`Ascending.mem_slice_iff`).
-/

set_option autoImplicit false

namespace EyaKV.Base

variable {α κ : Type} [LinearOrder κ] {key : α → κ} {l : List α}

/-- The keys ascend strictly. -/
def Ascending (key : α → κ) (l : List α) : Prop := l.Pairwise fun a b => key a < key b

instance (key : α → κ) (l : List α) : Decidable (Ascending key l) :=
  inferInstanceAs (Decidable (l.Pairwise _))

omit [LinearOrder κ] in
theorem takeWhile_congr {p q : α → Bool} (h : ∀ a ∈ l, p a = q a) : l.takeWhile p = l.takeWhile q := by
  induction l with
  | nil => rfl
  | cons a l ih =>
      rw [List.takeWhile_cons, List.takeWhile_cons, h a List.mem_cons_self,
        ih fun b hb => h b (List.mem_cons_of_mem a hb)]

omit [LinearOrder κ] in
theorem mem_drop_take_iff {i j : Nat} (a : α) :
    a ∈ (l.take (j + 1)).drop i ↔ ∃ n, i ≤ n ∧ n ≤ j ∧ l[n]? = some a := by
  constructor
  · intro ha
    obtain ⟨n, hn⟩ := List.mem_iff_getElem?.1 ha
    rw [List.getElem?_drop, List.getElem?_take] at hn
    split at hn
    · next hlt => exact ⟨i + n, Nat.le_add_right i n, Nat.le_of_lt_succ hlt, hn⟩
    · cases hn
  · rintro ⟨n, hin, hnj, hn⟩
    refine List.mem_iff_getElem?.2 ⟨n - i, ?_⟩
    rw [List.getElem?_drop, List.getElem?_take, Nat.add_sub_cancel' hin,
      if_pos (Nat.lt_succ_of_le hnj), hn]

omit [LinearOrder κ] in
theorem take_append_slice_append {i j : Nat} (hij : i ≤ j) :
    l.take i ++ ((l.take (j + 1)).drop i ++ l.drop (j + 1)) = l := by
  have hprefix : (l.take (j + 1)).take i = l.take i := by
    rw [List.take_take, Nat.min_eq_left (Nat.le_succ_of_le hij)]
  rw [← hprefix, ← List.append_assoc, List.take_append_drop, List.take_append_drop]

omit [LinearOrder κ] in
theorem test_of_position {p : α → Bool} {i j : Nat}
    (hp : ∀ n a, l[n]? = some a → (p a = true ↔ i ≤ n ∧ n ≤ j)) :
    (∀ a ∈ l.take i, p a = false) ∧ (∀ a ∈ (l.take (j + 1)).drop i, p a = true) ∧
      ∀ a ∈ l.drop (j + 1), p a = false := by
  refine ⟨fun a ha => ?_, fun a ha => ?_, fun a ha => ?_⟩
  · obtain ⟨n, hn⟩ := List.mem_iff_getElem?.1 ha
    rw [List.getElem?_take] at hn
    split at hn
    · next hlt =>
        exact Bool.eq_false_iff.2 fun hpa => Nat.not_le_of_lt hlt ((hp n a hn).1 hpa).1
    · cases hn
  · obtain ⟨n, hin, hnj, hn⟩ := (mem_drop_take_iff a).1 ha
    exact (hp n a hn).2 ⟨hin, hnj⟩
  · obtain ⟨n, hn⟩ := List.mem_iff_getElem?.1 ha
    rw [List.getElem?_drop] at hn
    exact Bool.eq_false_iff.2 fun hpa =>
      Nat.not_succ_le_self j (Nat.le_trans (Nat.le_add_right _ n) ((hp _ a hn).1 hpa).2)

omit [LinearOrder κ] in
/-- A test that holds between two positions picks what lies there. -/
theorem filter_eq_slice {p : α → Bool} {i j : Nat} (hij : i ≤ j)
    (hp : ∀ n a, l[n]? = some a → (p a = true ↔ i ≤ n ∧ n ≤ j)) :
    l.filter p = (l.take (j + 1)).drop i := by
  obtain ⟨hleft, hslice, hright⟩ := test_of_position hp
  nth_rewrite 1 [← take_append_slice_append (l := l) hij]
  rw [List.filter_append, List.filter_append,
    List.filter_eq_nil_iff.2 fun a ha => Bool.eq_false_iff.1 (hleft a ha),
    List.filter_eq_self.2 hslice,
    List.filter_eq_nil_iff.2 fun a ha => Bool.eq_false_iff.1 (hright a ha),
    List.append_nil, List.nil_append]

omit [LinearOrder κ] in
/-- A filter takes out what lies between two positions exactly when its test tells the elements
there from the other ones. -/
theorem filter_not_eq_iff (hnodup : l.Nodup) {p : α → Bool} {i j : Nat} (hij : i ≤ j) :
    (l.filter fun a => !p a) = l.take i ++ l.drop (j + 1) ↔
      ∀ n a, l[n]? = some a → (p a = true ↔ i ≤ n ∧ n ≤ j) := by
  have hparts := take_append_slice_append (l := l) hij
  constructor
  · intro heq n a hn
    have hmem := List.mem_of_getElem? hn
    rw [← hparts] at hnodup
    obtain ⟨-, hrest, hleft⟩ := List.nodup_append.1 hnodup
    obtain ⟨-, -, hright⟩ := List.nodup_append.1 hrest
    constructor
    · -- An element outside stays, so the filter does not drop it.
      intro hpa
      by_contra hout
      have hkept : a ∈ l.take i ++ l.drop (j + 1) := by
        rcases Nat.lt_or_ge n i with hlt | hge
        · refine List.mem_append_left _ (List.mem_iff_getElem?.2 ⟨n, ?_⟩)
          rw [List.getElem?_take_of_lt hlt, hn]
        · refine List.mem_append_right _ (List.mem_iff_getElem?.2 ⟨n - (j + 1), ?_⟩)
          have hlt : j < n := Nat.lt_of_not_le fun hle => hout ⟨hge, hle⟩
          rw [List.getElem?_drop, Nat.add_sub_cancel' hlt, hn]
      rw [← heq, List.mem_filter, hpa] at hkept
      exact absurd hkept.2 Bool.false_ne_true
    · rintro ⟨hin, hnj⟩
      have hslice : a ∈ (l.take (j + 1)).drop i := (mem_drop_take_iff a).2 ⟨n, hin, hnj, hn⟩
      by_contra hpa
      have hkept : a ∈ l.filter fun a => !p a :=
        List.mem_filter.2 ⟨hmem, by rw [Bool.not_eq_true] at hpa; rw [hpa]; rfl⟩
      rw [heq] at hkept
      rcases List.mem_append.1 hkept with hmem | hmem
      · exact hleft a hmem a (List.mem_append_left _ hslice) rfl
      · exact hright a hslice a hmem rfl
  · intro hp
    obtain ⟨hleft, hslice, hright⟩ := test_of_position hp
    nth_rewrite 1 [← hparts]
    rw [List.filter_append, List.filter_append,
      List.filter_eq_self.2 fun a ha => by rw [hleft a ha]; rfl,
      List.filter_eq_nil_iff.2 fun a ha => by rw [hslice a ha]; exact Bool.false_ne_true,
      List.filter_eq_self.2 fun a ha => by rw [hright a ha]; rfl, List.nil_append]

namespace Ascending

theorem nodup (h : Ascending key l) : l.Nodup := by
  apply List.Pairwise.imp _ h
  rintro a b hlt rfl
  exact lt_irrefl _ hlt

theorem filter (h : Ascending key l) (p : α → Bool) : Ascending key (l.filter p) :=
  List.Pairwise.sublist List.filter_sublist h

theorem takeWhile_eq_filter (h : Ascending key l) {p : α → Bool}
    (hp : ∀ a b, key a < key b → p b = true → p a = true) : l.takeWhile p = l.filter p := by
  induction l with
  | nil => rfl
  | cons a l ih =>
      obtain ⟨hhead, htail⟩ := List.pairwise_cons.1 h
      cases hpa : p a with
      | true => rw [List.takeWhile_cons_of_pos hpa, List.filter_cons_of_pos hpa, ih htail]
      | false =>
          rw [List.takeWhile_cons_of_neg (by rw [hpa]; exact Bool.false_ne_true),
            List.filter_cons_of_neg (by rw [hpa]; exact Bool.false_ne_true)]
          refine (List.filter_eq_nil_iff.2 fun b hb hpb => ?_).symm
          rw [hp a b (hhead b hb) hpb] at hpa
          cases hpa

/-- What the scan leaves over. -/
theorem drop_takeWhile_eq_filter (h : Ascending key l) {p : α → Bool}
    (hp : ∀ a b, key a < key b → p b = true → p a = true) :
    l.drop (l.takeWhile p).length = l.filter fun a => !p a := by
  induction l with
  | nil => rfl
  | cons a l ih =>
      obtain ⟨hhead, htail⟩ := List.pairwise_cons.1 h
      cases hpa : p a with
      | true =>
          rw [List.takeWhile_cons_of_pos hpa, List.length_cons, List.drop_succ_cons, ih htail,
            List.filter_cons_of_neg (by rw [hpa]; decide)]
      | false =>
          rw [List.takeWhile_cons_of_neg (by rw [hpa]; exact Bool.false_ne_true), List.length_nil,
            List.drop_zero]
          refine (List.filter_eq_self.2 fun b hb => ?_).symm
          rcases List.mem_cons.1 hb with rfl | hb
          · rw [hpa]
            rfl
          · by_contra hpb
            rw [Bool.not_eq_true, Bool.not_eq_false'] at hpb
            rw [hp a b (hhead b hb) hpb] at hpa
            cases hpa

theorem filter_append_filter (h : Ascending key l) {p : α → Bool}
    (hp : ∀ a b, key a < key b → p b = true → p a = true) :
    l.filter p ++ (l.filter fun a => !p a) = l := by
  rw [← h.takeWhile_eq_filter hp, ← h.drop_takeWhile_eq_filter hp]
  exact List.prefix_iff_eq_append.1 (List.takeWhile_prefix p)

/-- No element comes behind the last one. -/
theorem key_le_getLast (h : Ascending key l) {a b : α} (hb : l.getLast? = some b) (ha : a ∈ l) :
    key a ≤ key b := by
  obtain ⟨front, rfl⟩ := List.getLast?_eq_some_iff.1 hb
  rcases List.mem_append.1 ha with ha | ha
  · exact le_of_lt ((List.pairwise_append.1 h).2.2 a ha b (List.mem_singleton.2 rfl))
  · rw [List.mem_singleton.1 ha]

theorem key_lt_of_lt (h : Ascending key l) {i j : Nat} {a b : α} (hij : i < j)
    (ha : l[i]? = some a) (hb : l[j]? = some b) : key a < key b := by
  obtain ⟨hi, rfl⟩ := List.getElem?_eq_some_iff.1 ha
  obtain ⟨hj, rfl⟩ := List.getElem?_eq_some_iff.1 hb
  exact List.pairwise_iff_getElem.1 h i j hi hj hij

theorem le_iff_key_le (h : Ascending key l) {i j : Nat} {a b : α} (ha : l[i]? = some a)
    (hb : l[j]? = some b) : i ≤ j ↔ key a ≤ key b := by
  constructor
  · intro hle
    rcases Nat.lt_or_eq_of_le hle with hlt | rfl
    · exact le_of_lt (h.key_lt_of_lt hlt ha hb)
    · rw [ha] at hb
      exact le_of_eq (congrArg key (Option.some.inj hb))
  · intro hle
    by_contra hnot
    exact absurd (h.key_lt_of_lt (Nat.lt_of_not_le hnot) hb ha) (not_lt_of_ge hle)

/-- Elements with equal keys are equal. -/
theorem eq_of_key_eq (h : Ascending key l) {a b : α} (ha : a ∈ l) (hb : b ∈ l)
    (heq : key a = key b) : a = b := by
  obtain ⟨i, hi⟩ := List.mem_iff_getElem?.1 ha
  obtain ⟨j, hj⟩ := List.mem_iff_getElem?.1 hb
  have hij : i = j := Nat.le_antisymm ((h.le_iff_key_le hi hj).2 (le_of_eq heq))
    ((h.le_iff_key_le hj hi).2 (ge_of_eq heq))
  subst hij
  exact Option.some.inj (hi.symm.trans hj)

/-- The elements before the one at a position are those with smaller keys. -/
theorem length_takeWhile_lt (h : Ascending key l) {i : Nat} {a : α} (ha : l[i]? = some a) :
    (l.takeWhile fun b => decide (key b < key a)).length = i := by
  induction l generalizing i with
  | nil => cases ha
  | cons b l ih =>
      obtain ⟨hhead, htail⟩ := List.pairwise_cons.1 h
      cases i with
      | zero =>
          obtain rfl := Option.some.inj ha
          rw [List.takeWhile_cons_of_neg]
          · rfl
          · exact fun hlt => lt_irrefl _ (of_decide_eq_true hlt)
      | succ i =>
          have hrest : l[i]? = some a := ha
          have hlt := hhead a (List.mem_of_getElem? hrest)
          rw [List.takeWhile_cons, decide_eq_true hlt]
          exact congrArg Nat.succ (ih htail hrest)

/-- Two ascending lists with the same elements are equal. -/
theorem eq_of_mem_iff {l' : List α} (h : Ascending key l) (h' : Ascending key l')
    (hmem : ∀ a, a ∈ l ↔ a ∈ l') : l = l' := by
  apply ((List.perm_ext_iff_of_nodup h.nodup h'.nodup).2 hmem).eq_of_pairwise _ h h'
  intro a b _ _ hab hba
  exact absurd hba (lt_asymm hab)

/-- The elements between two positions are those with keys between the keys there. -/
theorem mem_slice_iff (h : Ascending key l) {i j : Nat} {a b : α} (ha : l[i]? = some a)
    (hb : l[j]? = some b) (c : α) :
    c ∈ (l.take (j + 1)).drop i ↔ c ∈ l ∧ key a ≤ key c ∧ key c ≤ key b := by
  rw [mem_drop_take_iff]
  constructor
  · rintro ⟨n, hin, hnj, hn⟩
    exact ⟨List.mem_of_getElem? hn, (h.le_iff_key_le ha hn).1 hin, (h.le_iff_key_le hn hb).1 hnj⟩
  · rintro ⟨hc, hac, hcb⟩
    obtain ⟨n, hn⟩ := List.mem_iff_getElem?.1 hc
    exact ⟨n, (h.le_iff_key_le ha hn).2 hac, (h.le_iff_key_le hn hb).2 hcb, hn⟩

end Ascending

end EyaKV.Base
