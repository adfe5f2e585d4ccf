import Mathlib.Data.List.Basic

/-!
# Items on a stream

Items are written to a stream one after the other, each in as many parts as the writer likes.
What is on the stream is then the encodings of the items that have been begun, less what is
missing of the last of them (`Carries`). Writing goes on with what is missing
(`Carries.goOn`), and when nothing is, another item can be begun (`Carries.begin`). A writer
that has a queue of items and writes some of its symbols does both (`Carries.take`). Where the
queue stands between two items, nothing is missing (`Carries.rest_eq_nil`).
-/

set_option autoImplicit false

namespace EyaKV.Base

variable {α β : Type*} {enc : α → List β} {stream rest : List β} {sent : List α}

/-- The stream holds the items `sent`, less `rest`, which is missing of the last of them. -/
structure Carries (enc : α → List β) (stream : List β) (sent : List α) (rest : List β) : Prop where
  eq : stream ++ rest = sent.flatMap enc
  last : ∀ a ∈ sent.getLast?, rest.length < (enc a).length

namespace Carries

theorem nil : Carries enc [] [] [] := ⟨rfl, fun _ ha => nomatch ha⟩

/-- A stream without items is empty. -/
theorem of_nil (h : Carries enc stream [] rest) : stream = [] ∧ rest = [] :=
  List.append_eq_nil_iff.1 h.eq

/-- More of the last item. -/
theorem goOn {part more : List β} (h : Carries enc stream sent (part ++ more)) :
    Carries enc (stream ++ part) sent more where
  eq := by rw [List.append_assoc, h.eq]
  last a ha := by
    have hlast := h.last a ha
    rw [List.length_append] at hlast
    omega

/-- A part of a new item, when nothing is missing of the last one. -/
theorem begin {a : α} {part more : List β} (h : Carries enc stream sent [])
    (henc : enc a = part ++ more) (hpart : part ≠ []) :
    Carries enc (stream ++ part) (sent ++ [a]) more where
  eq := by
    have heq := h.eq
    rw [List.append_nil] at heq
    rw [List.flatMap_append, List.flatMap_singleton, henc, ← heq, List.append_assoc]
  last b hb := by
    rw [List.getLast?_append_of_ne_nil _ (List.cons_ne_nil a []), List.getLast?_singleton,
      Option.mem_some_iff] at hb
    have hpos := List.length_pos_iff.2 hpart
    rw [← hb, henc, List.length_append]
    omega

/-- A whole item. -/
theorem snoc {a : α} (h : Carries enc stream sent []) (ha : enc a ≠ []) :
    Carries enc (stream ++ enc a) (sent ++ [a]) [] :=
  h.begin (List.append_nil _).symm ha

/-- Whole items. -/
theorem whole (hne : ∀ a, enc a ≠ []) (sent : List α) :
    Carries enc (sent.flatMap enc) sent [] :=
  ⟨List.append_nil _, fun a _ => List.length_pos_iff.2 (hne a)⟩

/-- **A queue of items.** What is missing of the last item and the items of a queue are to be
written. After any number of symbols the stream holds the first items of the queue as well,
and the rest of the symbols is what is missing now and the other items. -/
theorem take (hne : ∀ a, enc a ≠ []) (queue : List α) :
    ∀ rest n, n ≤ (rest ++ queue.flatMap enc).length →
      ∃ k rest', k ≤ queue.length ∧
        (rest ++ queue.flatMap enc).drop n = rest' ++ (queue.drop k).flatMap enc ∧
        ∀ stream sent, Carries enc stream sent rest →
          Carries enc (stream ++ (rest ++ queue.flatMap enc).take n) (sent ++ queue.take k)
            rest' := by
  -- along the queue: either the symbols end before its first item does, or it is written whole
  induction queue with
  | nil =>
      intro rest n _
      refine ⟨0, rest.drop n, Nat.le_refl 0, ?_, fun stream sent h => ?_⟩
      · rw [List.drop_nil, List.flatMap_nil, List.append_nil, List.append_nil]
      · rw [List.flatMap_nil, List.append_nil, List.take_nil, List.append_nil]
        exact goOn (by rwa [List.take_append_drop])
  | cons a queue ih =>
      intro rest n hn
      rcases Nat.lt_or_ge rest.length n with hlt | hle
      · obtain ⟨m, rfl⟩ := Nat.exists_eq_add_of_le (Nat.le_of_lt hlt)
        have hm : 0 < m := by omega
        have hrest {stream sent} (h : Carries enc stream sent rest) :
            Carries enc (stream ++ rest) sent [] := goOn (by rwa [List.append_nil])
        rw [List.take_length_add_append, List.drop_length_add_append, List.flatMap_cons]
        rcases Nat.lt_or_ge m (enc a).length with hpart | hwhole
        · refine ⟨1, (enc a).drop m, Nat.succ_le_succ (Nat.zero_le _), ?_, fun stream sent h => ?_⟩
          · rw [List.drop_append_of_le_length (Nat.le_of_lt hpart)]
            rfl
          · rw [List.take_append_of_le_length (Nat.le_of_lt hpart), ← List.append_assoc]
            refine (hrest h).begin (List.take_append_drop m (enc a)).symm fun hnil => ?_
            have hlen := congrArg List.length hnil
            rw [List.length_take, List.length_nil] at hlen
            omega
        · obtain ⟨p, rfl⟩ := Nat.exists_eq_add_of_le hwhole
          have hp : p ≤ ([] ++ queue.flatMap enc).length := by
            rw [List.length_append, List.flatMap_cons, List.length_append] at hn
            rw [List.nil_append]
            omega
          obtain ⟨k, rest', hk, hdrop, hcarries⟩ := ih [] p hp
          refine ⟨k + 1, rest', Nat.succ_le_succ hk, ?_, fun stream sent h => ?_⟩
          · rw [List.drop_length_add_append]
            exact hdrop
          · have hmore := hcarries _ _ ((hrest h).snoc (hne a))
            rw [List.nil_append, List.append_assoc, List.append_assoc sent] at hmore
            rw [List.take_length_add_append, ← List.append_assoc]
            exact hmore
      · refine ⟨0, rest.drop n, Nat.zero_le _, ?_, fun stream sent h => ?_⟩
        · rw [List.drop_append_of_le_length hle]
          rfl
        · rw [List.take_append_of_le_length hle, List.take_zero, List.append_nil]
          exact goOn (by rwa [List.take_append_drop])

/-- The further on in a queue, the fewer symbols. -/
theorem length_drop_le (enc : α → List β) (queue : List α) {k k' : Nat} (h : k ≤ k') :
    ((queue.drop k').flatMap enc).length ≤ ((queue.drop k).flatMap enc).length := by
  obtain ⟨i, rfl⟩ := Nat.exists_eq_add_of_le h
  have happend : queue.drop k = (queue.drop k).take i ++ queue.drop (k + i) := by
    rw [← List.drop_drop, List.take_append_drop]
  rw [happend, List.flatMap_append, List.length_append]
  exact Nat.le_add_left _ _

/-- Where a queue stands between two items, nothing is missing of its last one. -/
theorem rest_eq_nil {queue : List α} {k k' : Nat} (h : Carries enc stream (queue.take k) rest)
    (hk : k ≤ queue.length)
    (heq : rest ++ (queue.drop k).flatMap enc = (queue.drop k').flatMap enc) : rest = [] := by
  have hlen := congrArg List.length heq
  rw [List.length_append] at hlen
  apply List.eq_nil_of_length_eq_zero
  rcases Nat.lt_or_ge k' k with hlt | hle
  · -- the last item is among those from `k'` on, and `rest` is shorter than it
    exfalso
    obtain ⟨j, rfl⟩ : ∃ j, k = j + 1 := ⟨k - 1, by omega⟩
    have hlast := h.last queue[j] (by
      rw [List.take_succ_eq_append_getElem hk,
        List.getLast?_append_of_ne_nil _ (List.cons_ne_nil _ []), List.getLast?_singleton]
      rfl)
    have hdrop := length_drop_le enc queue (Nat.le_of_lt_succ hlt)
    rw [List.drop_eq_getElem_cons hk, List.flatMap_cons, List.length_append] at hdrop
    omega
  · have hdrop := length_drop_le enc queue hle
    omega

end Carries

end EyaKV.Base
