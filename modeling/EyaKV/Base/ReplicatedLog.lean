import Mathlib.Data.List.Basic
import Mathlib.Data.List.Infix
import Mathlib.Logic.Function.Basic

/-!
# Replicated logs

A log is a list of entries, each with a term, and every term has a log of its own: the
log of the leader of that term. A log is `Canonical` when it agrees with the log of a
term up to each of its entries of this term. Two canonical logs match: an entry of one
term at one position brings the same entries before it.

`Merged` is what a follower makes of its log and a leader's log: it keeps its own, or it
takes the leader's from the first position on at which the two differ or its own ends.
Whatever both logs agree on survives (`Merged.shorten`).
-/

set_option autoImplicit false

namespace EyaKV.Base

universe u

variable {ε : Type u} (term : ε → Nat)

section Canonical

/-- A log that agrees with the log of a term up to each of its entries of the term. -/
def Canonical (leaderLog : Nat → List ε) (log : List ε) : Prop :=
  ∀ i e, log[i]? = some e → log.take (i + 1) = (leaderLog (term e)).take (i + 1)

variable {term} {leaderLog : Nat → List ε} {log log' : List ε}

theorem Canonical.nil : Canonical term leaderLog [] := by
  intro i e h
  cases h

theorem Canonical.shorten (h : Canonical term leaderLog log') (hpre : log <+: log') :
    Canonical term leaderLog log := by
  intro i e hi
  obtain ⟨rest, rfl⟩ := hpre
  have hlt : i < log.length := (List.getElem?_eq_some_iff.1 hi).1
  have htake := h i e (by rw [List.getElem?_append_left hlt]; exact hi)
  rwa [List.take_append_of_le_length hlt] at htake

/-- The log of the term of an entry holds the entry. -/
theorem Canonical.mem_leaderLog (h : Canonical term leaderLog log) {i : Nat} {e : ε}
    (hi : log[i]? = some e) : (leaderLog (term e))[i]? = some e := by
  have hget := congrArg (fun l => l[i]?) (h i e hi)
  simp only [List.getElem?_take_of_lt (Nat.lt_succ_self i)] at hget
  exact hget ▸ hi

/-- **Log matching.** Two canonical logs with an entry of one term at one position agree up
to it. -/
theorem Canonical.matching (h : Canonical term leaderLog log)
    (h' : Canonical term leaderLog log') {i : Nat} {e e' : ε} (hi : log[i]? = some e)
    (hi' : log'[i]? = some e') (hterm : term e = term e') :
    log.take (i + 1) = log'.take (i + 1) := by
  rw [h i e hi, h' i e' hi', hterm]

/-- Canonical logs stay so when the log of a term grows. -/
theorem Canonical.grow (h : Canonical term leaderLog log) (t : Nat) (new : List ε) :
    Canonical term (Function.update leaderLog t (leaderLog t ++ new)) log := by
  intro i e hi
  rw [h i e hi, Function.update_apply]
  split
  · next heq =>
      have hlt : i < (leaderLog t).length := by
        rw [← heq]
        exact (List.getElem?_eq_some_iff.1 (h.mem_leaderLog hi)).1
      rw [heq, List.take_append_of_le_length hlt]
  · rfl

/-- New entries of a term, at the end of the log of this term. -/
theorem Canonical.append {t : Nat} (h : Canonical term leaderLog (leaderLog t)) {new : List ε}
    (hnew : ∀ e ∈ new, term e = t) :
    Canonical term (Function.update leaderLog t (leaderLog t ++ new)) (leaderLog t ++ new) := by
  intro i e hi
  by_cases hlt : i < (leaderLog t).length
  · rw [List.getElem?_append_left hlt] at hi
    rw [List.take_append_of_le_length hlt]
    exact h.grow t new i e hi
  · rw [List.getElem?_append_right (Nat.not_lt.1 hlt)] at hi
    rw [hnew e (List.mem_of_getElem? hi), Function.update_self]

/-- Canonical logs stay so when the log of a term changes of which they have no entries. -/
theorem Canonical.update (h : Canonical term leaderLog log) {t : Nat} (l : List ε)
    (hnone : ∀ e ∈ log, term e ≠ t) : Canonical term (Function.update leaderLog t l) log := by
  intro i e hi
  rw [Function.update_of_ne (hnone e (List.mem_of_getElem? hi))]
  exact h i e hi

end Canonical

section Prefixes

variable {log log' : List ε}

theorem getElem?_shorten {i : Nat} {e : ε} (h : log <+: log') (hi : log[i]? = some e) :
    log'[i]? = some e := by
  obtain ⟨rest, rfl⟩ := h
  rw [List.getElem?_append_left (List.getElem?_eq_some_iff.1 hi).1]
  exact hi

theorem take_shorten {k : Nat} (h : log <+: log') (hk : k ≤ log.length) :
    log'.take k = log.take k := by
  obtain ⟨rest, rfl⟩ := h
  exact List.take_append_of_le_length hk

end Prefixes

section Ascending

/-- The terms of a log never fall. -/
def AscendingBy (log : List ε) : Prop := log.Pairwise fun e e' => term e ≤ term e'

/-- The index and the term with which a log is announced: those of one of its entries, or both
zero. -/
def Announces (log : List ε) (index t : Nat) : Prop :=
  (index = 0 ∧ t = 0) ∨ 0 < index ∧ ∃ e, log[index - 1]? = some e ∧ term e = t

variable {term} {leaderLog : Nat → List ε} {log log' : List ε}

theorem AscendingBy.shorten (h : AscendingBy term log') (hpre : log <+: log') :
    AscendingBy term log :=
  List.Pairwise.sublist hpre.sublist h

/-- A log ascends when new entries have a term that it does not pass. -/
theorem AscendingBy.append {t : Nat} (h : AscendingBy term log) {new : List ε}
    (hlog : ∀ e ∈ log, term e ≤ t) (hnew : ∀ e ∈ new, term e = t) :
    AscendingBy term (log ++ new) := by
  refine List.pairwise_append.2 ⟨h, ?_, fun e he e' he' => ?_⟩
  · refine List.pairwise_of_forall_mem_list fun e he e' he' => ?_
    rw [hnew e he, hnew e' he']
  · rw [hnew e' he']
    exact hlog e he

theorem AscendingBy.le (h : AscendingBy term log) {i j : Nat} {e e' : ε} (hij : i ≤ j)
    (hi : log[i]? = some e) (hj : log[j]? = some e') : term e ≤ term e' := by
  obtain ⟨hilt, rfl⟩ := List.getElem?_eq_some_iff.1 hi
  obtain ⟨hjlt, rfl⟩ := List.getElem?_eq_some_iff.1 hj
  rcases Nat.lt_or_eq_of_le hij with hlt | rfl
  · exact List.pairwise_iff_getElem.1 h i j hilt hjlt hlt
  · exact Nat.le_refl _

/-- A canonical log is a prefix of the log of the term of its last entry. -/
theorem Canonical.prefix_leaderLog (h : Canonical term leaderLog log) {e : ε}
    (hlast : log[log.length - 1]? = some e) : log <+: leaderLog (term e) := by
  have hlt := (List.getElem?_eq_some_iff.1 hlast).1
  have htake := h _ e hlast
  rw [show log.length - 1 + 1 = log.length by omega, List.take_length] at htake
  rw [htake]
  exact List.take_prefix _ _

theorem Canonical.ascending (h : Canonical term leaderLog log)
    (hleader : ∀ t, AscendingBy term (leaderLog t)) : AscendingBy term log := by
  rcases List.eq_nil_or_concat log with rfl | ⟨init, e, rfl⟩
  · exact List.Pairwise.nil
  · exact (hleader _).shorten (h.prefix_leaderLog (e := e) (by simp))

/-- **What a fresh log holds.** A log is announced that is not older than another log. It holds
each piece of the other log that ends with an entry of a term, when the logs of all later terms
of its entries hold the piece. -/
theorem Canonical.holds_of_fresh (h : Canonical term leaderLog log)
    (h' : Canonical term leaderLog log') (hleader : ∀ t, AscendingBy term (leaderLog t))
    {index t : Nat} (hannounced : Announces term log index t) {e' : ε}
    (hlast : log'[log'.length - 1]? = some e')
    (hfresh : term e' < t ∨ term e' = t ∧ log'.length ≤ index) {k : Nat} {e : ε}
    (hk : log'[k]? = some e)
    (hlater : ∀ x ∈ log, term e < term x → log'.take (k + 1) <+: leaderLog (term x)) :
    log'.take (k + 1) <+: log := by
  have hklt := (List.getElem?_eq_some_iff.1 hk).1
  have hterm : term e ≤ term e' := (h'.ascending hleader).le (by omega) hk hlast
  have hpos : 0 < index := by
    rcases hannounced with ⟨rfl, rfl⟩ | ⟨hpos, -⟩
    · omega
    · exact hpos
  obtain ⟨-, x, hx, rfl⟩ := hannounced.resolve_left (by omega)
  -- up to the announced entry the log is the one of the entry's term
  have hpre : (leaderLog (term x)).take index <+: log := by
    have htake := h _ x hx
    rw [Nat.sub_add_cancel hpos] at htake
    rw [← htake]
    exact List.take_prefix _ _
  rcases hfresh with hlt | ⟨heq, hle⟩
  · have hheld := hlater x (List.mem_of_getElem? hx) (by omega)
    have hxleader := h.mem_leaderLog hx
    refine (List.prefix_take_iff.2 ⟨hheld, ?_⟩).trans hpre
    -- an entry of a later term does not stand before one of an earlier term
    by_contra hshort
    have hlen : (log'.take (k + 1)).length = k + 1 := List.length_take_of_le hklt
    have hmem : (leaderLog (term x))[k]? = some e :=
      getElem?_shorten hheld (by rw [List.getElem?_take_of_lt (Nat.lt_succ_self k)]; exact hk)
    have := (hleader (term x)).le (by omega : index - 1 ≤ k) hxleader hmem
    omega
  · have hlog := h'.prefix_leaderLog hlast
    rw [heq] at hlog
    exact (List.take_prefix _ _).trans ((List.prefix_take_iff.2 ⟨hlog, hle⟩).trans hpre)

end Ascending

section Merging

/-- What a follower makes of its log and the log `source` of a leader. -/
inductive Merged (log source : List ε) : List ε → Prop where
  /-- Its log stays. -/
  | kept : Merged log source log
  /-- From the position `i` on, at which its log ends, it takes the leader's. -/
  | extended (i j : Nat) (hij : i ≤ j) (hlog : log = source.take i) :
      Merged log source (source.take j)
  /-- From the position `i` on, at which the terms differ, it takes the leader's. -/
  | replaced (i j : Nat) (e e' : ε) (hij : i ≤ j) (hlog : log.take i = source.take i)
      (hi : log[i]? = some e) (hi' : source[i]? = some e') (hne : term e ≠ term e') :
      Merged log source (source.take j)

variable {term} {log source result : List ε}

/-- What the follower's log shares with the leader's is still there. -/
theorem Merged.shorten {shared : List ε} (h : Merged term log source result)
    (hlog : shared <+: log) (hsource : shared <+: source ∨ source <+: shared) :
    shared <+: result := by
  cases h with
  | kept => exact hlog
  | extended i j hij heq =>
      rw [heq] at hlog
      exact hlog.trans (List.take_prefix_take_left hij)
  | replaced i j e e' hij heq hi hi' hne =>
      have hlen : shared.length ≤ i := by
        by_contra hlt
        have hget : shared[i]? = some e := by
          obtain ⟨rest, rfl⟩ := hlog
          rwa [List.getElem?_append_left (Nat.not_le.1 hlt)] at hi
        rcases hsource with hs | hs
        · have := getElem?_shorten hs hget
          rw [hi'] at this
          exact hne (congrArg term (Option.some.inj this)).symm
        · have := getElem?_shorten hs hi'
          rw [hget] at this
          exact hne (congrArg term (Option.some.inj this))
      have hshared : shared <+: source.take i := heq ▸ List.prefix_take_iff.2 ⟨hlog, hlen⟩
      exact hshared.trans (List.take_prefix_take_left hij)

theorem Merged.canonical {leaderLog : Nat → List ε} (h : Merged term log source result)
    (hlog : Canonical term leaderLog log) (hsource : Canonical term leaderLog source) :
    Canonical term leaderLog result := by
  cases h with
  | kept => exact hlog
  | extended i j => exact hsource.shorten (List.take_prefix j source)
  | replaced i j => exact hsource.shorten (List.take_prefix j source)

theorem Merged.mem {e : ε} (h : Merged term log source result) (he : e ∈ result) :
    e ∈ log ∨ e ∈ source := by
  cases h with
  | kept => exact Or.inl he
  | extended i j => exact Or.inr (List.mem_of_mem_take he)
  | replaced i j => exact Or.inr (List.mem_of_mem_take he)

end Merging

end EyaKV.Base
