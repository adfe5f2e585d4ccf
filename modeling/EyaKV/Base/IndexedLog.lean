import Mathlib.Data.List.Basic

/-!
# Indexed logs

An indexed log is a list of items with the index of the first of them: item `i` of the list
has the index `base + i`. It grows at its end, and it can be cut at both ends. A log without
items still has a place: its next index is its base, and its last index is the one before.

Cutting the front keeps the next index (`next_dropBelow`), and what is left keeps its index
(`get?_dropBelow`, `get?_keepBelow`). `Labelled` says that the items carry their indexes; a
log stays labelled when what is added to it is (`Labelled.append`).
-/

set_option autoImplicit false

namespace EyaKV.Base

universe u

variable {α : Type u}

/-- A list of items with the index of the first. -/
structure IndexedLog (α : Type u) where
  base : Nat
  items : List α

namespace IndexedLog

variable (l : IndexedLog α)

section Reading

/-- The index after the last. -/
def next : Nat := l.base + l.items.length

/-- The last index; without items, the index before the base. -/
def last : Int := (l.next : Int) - 1

/-- The item at an index. -/
def get? (i : Nat) : Option α := if i < l.base then none else l.items[i - l.base]?

/-- The items from an index on that the log still has; none when the log starts later. -/
def since (i : Nat) : List α := if i < l.base then [] else l.items.drop (i - l.base)

theorem get?_eq_none_iff (i : Nat) : l.get? i = none ↔ i < l.base ∨ l.next ≤ i := by
  rw [get?, next]
  split
  · exact ⟨fun _ => Or.inl ‹_›, fun _ => rfl⟩
  · rw [List.getElem?_eq_none_iff]
    omega

theorem get?_base_add (i : Nat) : l.get? (l.base + i) = l.items[i]? := by
  rw [get?, if_neg (by omega), Nat.add_sub_cancel_left]

end Reading

section Writing

/-- The log with items added at its end. -/
def append (items : List α) : IndexedLog α := ⟨l.base, l.items ++ items⟩

/-- The log without the items from an index on. -/
def keepBelow (i : Nat) : IndexedLog α :=
  if i < l.base then l else ⟨l.base, l.items.take (i - l.base)⟩

/-- The log without the items below an index that is its own or the next one. -/
def dropBelow (i : Nat) : IndexedLog α :=
  if i < l.base ∨ l.next < i then l else ⟨i, l.items.drop (i - l.base)⟩

theorem next_append (items : List α) : (l.append items).next = l.next + items.length := by
  simp only [next, append, List.length_append]
  omega

/-- Cutting the front keeps the next index. -/
theorem next_dropBelow (i : Nat) : (l.dropBelow i).next = l.next := by
  rw [dropBelow]
  split
  · rfl
  · simp only [next, List.length_drop] at *
    omega

theorem next_keepBelow_le (i : Nat) : (l.keepBelow i).next ≤ l.next := by
  rw [keepBelow]
  split
  · exact Nat.le_refl _
  · simp only [next, List.length_take]
    omega

theorem get?_keepBelow {i j : Nat} (h : j < i) : (l.keepBelow i).get? j = l.get? j := by
  rw [keepBelow]
  split
  · rfl
  · rw [get?, get?]
    by_cases hj : j < l.base
    · rw [if_pos hj, if_pos hj]
    · rw [if_neg hj, if_neg hj]
      exact List.getElem?_take_of_lt (show j - l.base < i - l.base by omega)

theorem get?_dropBelow {i j : Nat} (h : i ≤ j) : (l.dropBelow i).get? j = l.get? j := by
  rw [dropBelow]
  split
  · rfl
  · rename_i hi
    rw [not_or, Nat.not_lt] at hi
    rw [get?, get?, if_neg (show ¬ j < i by omega), if_neg (show ¬ j < l.base by omega),
      List.getElem?_drop]
    congr 1
    show i - l.base + (j - i) = j - l.base
    omega

end Writing

section Labels

variable (label : α → Nat)

/-- Every item carries its index. -/
def Labelled : Prop := ∀ i a, l.get? i = some a → label a = i

variable {l label}

theorem labelled_iff : l.Labelled label ↔ ∀ i a, l.items[i]? = some a → label a = l.base + i := by
  constructor
  · intro h i a hi
    exact h (l.base + i) a (by rw [get?_base_add, hi])
  · intro h i a hi
    rw [get?] at hi
    split at hi
    · cases hi
    · rw [h _ a hi]
      omega

theorem Labelled.empty (base : Nat) : Labelled (⟨base, []⟩ : IndexedLog α) label := by
  rw [labelled_iff]
  intro i a hi
  cases hi

theorem Labelled.append (h : l.Labelled label) {items : List α}
    (hitems : ∀ i a, items[i]? = some a → label a = l.next + i) :
    (l.append items).Labelled label := by
  rw [labelled_iff] at h ⊢
  intro i a hi
  rw [IndexedLog.append] at hi ⊢
  by_cases hlt : i < l.items.length
  · rw [List.getElem?_append_left hlt] at hi
    exact h i a hi
  · rw [List.getElem?_append_right (by omega)] at hi
    rw [hitems _ a hi, next]
    show l.base + l.items.length + (i - l.items.length) = l.base + i
    omega

theorem Labelled.keepBelow (h : l.Labelled label) (i : Nat) : (l.keepBelow i).Labelled label := by
  intro j a hj
  by_cases hji : j < i
  · exact h j a (by rwa [get?_keepBelow l hji] at hj)
  · rw [IndexedLog.keepBelow] at hj
    split at hj
    · exact h j a hj
    · rw [get?] at hj
      split at hj
      · cases hj
      · rw [List.getElem?_take] at hj
        split at hj
        · rename_i hlt
          exact absurd hlt (show ¬ j - l.base < i - l.base by omega)
        · cases hj

theorem Labelled.dropBelow (h : l.Labelled label) (i : Nat) : (l.dropBelow i).Labelled label := by
  intro j a hj
  by_cases hij : i ≤ j
  · exact h j a (by rwa [get?_dropBelow l hij] at hj)
  · rw [IndexedLog.dropBelow] at hj
    split at hj
    · exact h j a hj
    · rw [get?, if_pos (show j < i from Nat.lt_of_not_le hij)] at hj
      cases hj

end Labels

end IndexedLog

end EyaKV.Base
