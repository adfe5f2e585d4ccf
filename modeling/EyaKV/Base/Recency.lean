import Mathlib.Data.Finset.Card
import Mathlib.Data.List.Basic

/-!
# Recency

A list of keys from the most recent to the least. `touch` moves a key to the front, and the
first `n` keys of the list are those that a store of `n` places keeps when each new key takes
the place of the least recent one (`take_touch_of_mem`, `take_touch_of_not_mem`).

The second part is about the list of everything that has happened. `Recent n k` says that `k`
is in it and that fewer than `n` different keys came after its last occurrence, and
`Spaced n` that no key came again while it was recent.

The two parts meet in `mem_take_order`: when each key of a list is touched in turn, the recent
ones have the first places.
-/

set_option autoImplicit false

namespace EyaKV.Base.Recency

variable {κ : Type*} [DecidableEq κ]

section Order

/-- The key moves to the front. -/
def touch (k : κ) (keys : List κ) : List κ := k :: keys.erase k

variable {k : κ}

/-- Erasing a key of the first places brings one more key into them. -/
theorem take_erase_of_mem (keys : List κ) :
    ∀ n, k ∈ keys.take (n + 1) → (keys.erase k).take n = (keys.take (n + 1)).erase k := by
  induction keys with
  | nil =>
      intro n h
      cases h
  | cons x rest ih =>
      intro n h
      by_cases hx : x = k
      · simp only [List.take_succ_cons, hx, List.erase_cons_head]
      · have hne : ¬ (x == k) = true := by simpa using hx
        rw [List.take_succ_cons] at h
        have hrest := (List.mem_cons.1 h).resolve_left (Ne.symm hx)
        rw [List.erase_cons_tail hne, List.take_succ_cons, List.erase_cons_tail hne]
        cases n with
        | zero => cases hrest
        | succ n => rw [List.take_succ_cons, ih n hrest]

/-- Erasing a key of the places behind leaves the first ones. -/
theorem take_erase_of_not_mem (keys : List κ) :
    ∀ n, k ∉ keys.take n → (keys.erase k).take n = keys.take n := by
  induction keys with
  | nil =>
      intro n _
      rfl
  | cons x rest ih =>
      intro n h
      cases n with
      | zero => rfl
      | succ n =>
          rw [List.take_succ_cons, List.mem_cons, not_or] at h
          have hne : ¬ (x == k) = true := by simpa using Ne.symm h.1
          rw [List.erase_cons_tail hne, List.take_succ_cons, List.take_succ_cons, ih n h.2]

/-- A key that has a place moves to the first one. -/
theorem take_touch_of_mem {n : Nat} {keys : List κ} (h : k ∈ keys.take n) :
    (touch k keys).take n = touch k (keys.take n) := by
  cases n with
  | zero => cases h
  | succ n => rw [touch, List.take_succ_cons, take_erase_of_mem keys n h, touch]

/-- A new key takes the place of the least recent one. -/
theorem take_touch_of_not_mem {n : Nat} {keys : List κ} (h : k ∉ keys.take (n + 1)) :
    (touch k keys).take (n + 1) = k :: keys.take n := by
  have hn : k ∉ keys.take n := fun hk => h (List.take_subset_take_left keys (Nat.le_succ n) hk)
  rw [touch, List.take_succ_cons, take_erase_of_not_mem keys n hn]

end Order

section Histories

/-- The different keys that came after the last occurrence of a key. -/
def since (k : κ) (history : List κ) : Finset κ := (history.takeWhile (· ≠ k)).toFinset

/-- The key came, and fewer than `n` different keys after it. -/
def Recent (n : Nat) (k : κ) (history : List κ) : Prop :=
  k ∈ history ∧ (since k history).card < n

instance decidableRecent (n : Nat) (k : κ) (history : List κ) : Decidable (Recent n k history) :=
  inferInstanceAs (Decidable (_ ∧ _))

/-- No key came again while it was recent. -/
def Spaced (n : Nat) : List κ → Prop
  | [] => True
  | k :: history => ¬ Recent n k history ∧ Spaced n history

variable {n : Nat} {k : κ} {history : List κ}

/-- A key does not become recent by what comes after it. -/
theorem Recent.of_cons {x : κ} (h : Recent n k (x :: history)) (hne : x ≠ k) :
    Recent n k history := by
  obtain ⟨hmem, hcard⟩ := h
  refine ⟨(List.mem_cons.1 hmem).resolve_left (Ne.symm hne), Nat.lt_of_le_of_lt ?_ hcard⟩
  refine Finset.card_le_card fun y hy => ?_
  have hd : decide (x ≠ k) = true := decide_eq_true hne
  simp only [since, List.takeWhile_cons, hd, ↓reduceIte, List.toFinset_cons]
  exact Finset.mem_insert_of_mem hy

theorem since_append {middle older : List κ} (h : k ∉ middle) :
    since k (middle ++ k :: older) = middle.toFinset := by
  induction middle with
  | nil => simp [since]
  | cons x rest ih =>
      rw [List.mem_cons, not_or] at h
      have hd : decide (x ≠ k) = true := decide_eq_true (Ne.symm h.1)
      simp only [since] at ih
      simp only [since, List.cons_append, List.takeWhile_cons, hd, ↓reduceIte,
        List.toFinset_cons, ih h.2]

/-- Between two occurrences of a key in a spaced history there are `n` different keys. -/
theorem Spaced.le_card {newer middle older : List κ}
    (h : Spaced n (newer ++ k :: (middle ++ k :: older))) (hmiddle : k ∉ middle) :
    n ≤ middle.toFinset.card := by
  induction newer with
  | nil =>
      by_contra hlt
      refine h.1 ⟨by simp, ?_⟩
      rw [since_append hmiddle]
      exact Nat.lt_of_not_le hlt
  | cons x rest ih => exact ih h.2

end Histories

section Places

/-- The keys of a history, from the most recent to the least. -/
def order (history : List κ) : List κ := history.foldr touch []

variable {n : Nat} {k : κ} {history : List κ}

theorem mem_touch {x : κ} {keys : List κ} : k ∈ touch x keys ↔ k = x ∨ k ∈ keys := by
  rw [touch, List.mem_cons]
  by_cases h : k = x
  · simp only [h, true_or]
  · simp only [h, false_or, List.mem_erase_of_ne h]

theorem length_touch_of_mem {keys : List κ} (h : k ∈ keys) :
    (touch k keys).length = keys.length := by
  rw [touch, List.length_cons, List.length_erase_of_mem h]
  have := List.length_pos_of_mem h
  omega

theorem mem_order : k ∈ order history ↔ k ∈ history := by
  induction history with
  | nil => rfl
  | cons x rest ih =>
      rw [order, List.foldr_cons, mem_touch, List.mem_cons]
      exact or_congr_right ih

theorem nodup_order (history : List κ) : (order history).Nodup := by
  induction history with
  | nil => exact List.nodup_nil
  | cons x rest ih =>
      exact List.nodup_cons.2 ⟨ih.not_mem_erase, ih.erase x⟩

/-- A list without repetitions is the order of itself. -/
theorem order_of_nodup {keys : List κ} (h : keys.Nodup) : order keys = keys := by
  induction keys with
  | nil => rfl
  | cons x rest ih =>
      obtain ⟨hx, hrest⟩ := List.nodup_cons.1 h
      rw [order, List.foldr_cons]
      change touch x (order rest) = x :: rest
      rw [ih hrest, touch, List.erase_of_not_mem hx]

/-- Erasing another key leaves the keys before `k`, without the other key. -/
theorem takeWhile_erase {x : κ} (hne : x ≠ k) (keys : List κ) :
    (keys.erase x).takeWhile (· ≠ k) = (keys.takeWhile (· ≠ k)).erase x := by
  induction keys with
  | nil => rfl
  | cons y rest ih =>
      by_cases hy : y = x
      · obtain rfl := hy
        have hd : decide (y ≠ k) = true := decide_eq_true hne
        rw [List.erase_cons_head, List.takeWhile_cons, hd]
        simp only [↓reduceIte, List.erase_cons_head]
      · have hbeq : ¬ (y == x) = true := by simpa using hy
        rw [List.erase_cons_tail hbeq, List.takeWhile_cons, List.takeWhile_cons]
        by_cases hk : y = k
        · simp [hk]
        · have hd : decide (y ≠ k) = true := decide_eq_true hk
          simp only [hd, ↓reduceIte]
          rw [ih, List.erase_cons_tail hbeq]

theorem toFinset_takeWhile_order (history : List κ) :
    ((order history).takeWhile (· ≠ k)).toFinset = since k history := by
  induction history with
  | nil => rfl
  | cons x rest ih =>
      change ((x :: (order rest).erase x).takeWhile (· ≠ k)).toFinset = _
      rw [since, List.takeWhile_cons, List.takeWhile_cons]
      by_cases hx : x = k
      · simp [hx]
      · have hd : decide (x ≠ k) = true := decide_eq_true hx
        simp only [hd, ↓reduceIte, List.toFinset_cons]
        rw [takeWhile_erase hx, ← List.toFinset_cons]
        have hrest : (rest.takeWhile (· ≠ k)).toFinset =
            ((order rest).takeWhile (· ≠ k)).toFinset := ih.symm
        rw [hrest]
        ext y
        by_cases hy : y = x
        · simp [hy]
        · simp [hy, List.mem_erase_of_ne hy]

theorem mem_take_iff (keys : List κ) :
    ∀ n, k ∈ keys.take n ↔ k ∈ keys ∧ (keys.takeWhile (· ≠ k)).length < n := by
  induction keys with
  | nil =>
      intro n
      simp
  | cons x rest ih =>
      intro n
      cases n with
      | zero => simp
      | succ n =>
          rw [List.take_succ_cons, List.mem_cons, List.mem_cons, List.takeWhile_cons, ih n]
          by_cases hx : x = k
          · simp [hx]
          · have hd : decide (x ≠ k) = true := decide_eq_true hx
            simp only [hd, ↓reduceIte, List.length_cons, Ne.symm hx, false_or,
              Nat.add_lt_add_iff_right]

/-- A key has one of the first `n` places exactly when it is recent. -/
theorem mem_take_order : k ∈ (order history).take n ↔ Recent n k history := by
  have hnodup : ((order history).takeWhile (· ≠ k)).Nodup :=
    (List.takeWhile_sublist _).nodup (nodup_order history)
  rw [mem_take_iff, mem_order, Recent, ← toFinset_takeWhile_order,
    List.toFinset_card_of_nodup hnodup]

/-- The keys of a short piece are recent after it. -/
theorem recent_append_of_mem {piece : List κ} (hmem : k ∈ piece) (hlen : piece.length ≤ n) :
    Recent n k (piece ++ history) := by
  refine ⟨List.mem_append_left _ hmem, ?_⟩
  obtain ⟨newer, older, rfl, hnew⟩ := List.eq_append_cons_of_mem hmem
  rw [List.append_assoc, List.cons_append, since_append hnew]
  rw [List.length_append, List.length_cons] at hlen
  have hcard := newer.toFinset_card_le
  omega

/-- The first key of a long piece without repetitions is not. -/
theorem not_recent_append {piece : List κ} (hnodup : (piece ++ [k]).Nodup)
    (hlen : n ≤ piece.length) : ¬ Recent n k (piece ++ k :: history) := by
  rintro ⟨-, hcard⟩
  obtain ⟨hpiece, -, hne⟩ := List.nodup_append.1 hnodup
  have hk : k ∉ piece := fun hmem => hne k hmem k List.mem_cons_self rfl
  rw [since_append hk, List.toFinset_card_of_nodup hpiece] at hcard
  omega

end Places

end EyaKV.Base.Recency
