import Std.Data.ExtTreeMap
import Mathlib.Data.List.Perm.Basic

/-!
# Facts about ordered finite maps

Ordered maps are `Std.ExtTreeMap`. This file adds what the developments above it
need and the standard library does not state: the listing `toList` is determined
by the lookups (`toList_eq_of_lookup`), so that inserting above every key appends
to the listing and erasing the first listed key drops its head; and a map built
from a listing, or from the part of a listing that satisfies a test (`retain`),
has the lookups of that listing.
-/

set_option autoImplicit false

namespace EyaKV.Base.OrderedMap

open Std

universe u v

variable {κ : Type u} {ν : Type v} {cmp : κ → κ → Ordering} [TransCmp cmp]

instance decidableEq [DecidableEq κ] [DecidableEq ν] : DecidableEq (ExtTreeMap κ ν cmp) := fun s t =>
  decidable_of_iff (s.toList = t.toList) ExtTreeMap.toList_inj

section Listing

theorem nodup_of_ordered {l : List (κ × ν)} (h : l.Pairwise fun a b => cmp a.1 b.1 = .lt) :
    l.Nodup := by
  refine h.imp fun {a b} hab heq => ?_
  subst heq
  exact absurd hab (ne_of_eq_of_ne ReflCmp.compare_self (by decide))

/-- The values are those of the listing, in its order. -/
theorem values_eq (t : ExtTreeMap κ ν cmp) : t.values = t.toList.map Prod.snd := by
  obtain ⟨⟨t⟩⟩ := t
  induction t using Quotient.inductionOn with
  | _ t =>
      show t.inner.values = (DTreeMap.Internal.Impl.Const.toList t.inner).map Prod.snd
      rw [DTreeMap.Internal.Impl.values_eq_map_snd,
        DTreeMap.Internal.Impl.Const.toList_eq_toListModel_map, List.map_map]
      rfl

variable [LawfulEqCmp cmp]

theorem mem_values_of_getElem? {t : ExtTreeMap κ ν cmp} {k : κ} {v : ν} (h : t[k]? = some v) :
    v ∈ t.values := by
  rw [values_eq]
  exact List.mem_map_of_mem (ExtTreeMap.mem_toList_iff_getElem?_eq_some.2 h)

/-- A listing in strictly ascending key order with the lookups of `t` is the
listing of `t`. -/
theorem toList_eq_of_lookup (t : ExtTreeMap κ ν cmp) (l : List (κ × ν))
    (hsorted : l.Pairwise fun a b => cmp a.1 b.1 = .lt)
    (hmem : ∀ k v, (k, v) ∈ l ↔ t[k]? = some v) : t.toList = l := by
  have hperm : t.toList.Perm l := by
    refine (List.perm_ext_iff_of_nodup (nodup_of_ordered t.ordered_keys_toList)
      (nodup_of_ordered hsorted)).2 ?_
    rintro ⟨k, v⟩
    rw [hmem k v, ExtTreeMap.mem_toList_iff_getElem?_eq_some]
  refine hperm.eq_of_pairwise ?_ t.ordered_keys_toList hsorted
  intro a b _ _ hab hba
  exact absurd hba (OrientedCmp.not_lt_of_lt hab)

/-- Inserting a key above every key of the map appends the entry to the listing. -/
theorem toList_insert_above (t : ExtTreeMap κ ν cmp) (k : κ) (v : ν)
    (habove : ∀ e ∈ t.toList, cmp e.1 k = .lt) : (t.insert k v).toList = t.toList ++ [(k, v)] := by
  refine toList_eq_of_lookup _ _ ?_ ?_
  · rw [List.pairwise_append]
    refine ⟨t.ordered_keys_toList, List.pairwise_singleton _ _, ?_⟩
    intro a ha b hb
    obtain rfl := List.mem_singleton.1 hb
    exact habove a ha
  · intro k' v'
    have hnot : t[k]? = none := by
      cases hk : t[k]? with
      | none => rfl
      | some w =>
          have := habove (k, w) (ExtTreeMap.mem_toList_iff_getElem?_eq_some.2 hk)
          exact absurd this (ne_of_eq_of_ne ReflCmp.compare_self (by decide))
    rw [List.mem_append, List.mem_singleton, ExtTreeMap.mem_toList_iff_getElem?_eq_some,
      ExtTreeMap.getElem?_insert]
    by_cases hkk : cmp k k' = .eq
    · obtain rfl := LawfulEqCmp.compare_eq_iff_eq.1 hkk
      rw [if_pos hkk, hnot]
      constructor
      · rintro (h | h)
        · cases h
        · rw [(Prod.mk.inj h).2]
      · intro h
        exact Or.inr (by rw [Option.some.inj h])
    · rw [if_neg hkk]
      constructor
      · rintro (h | h)
        · exact h
        · obtain ⟨rfl, -⟩ := Prod.mk.inj h
          exact absurd ReflCmp.compare_self hkk
      · exact Or.inl

/-- Erasing the first listed key drops the head of the listing. -/
theorem toList_erase_head (t : ExtTreeMap κ ν cmp) {k : κ} {v : ν} {rest : List (κ × ν)}
    (hlist : t.toList = (k, v) :: rest) : (t.erase k).toList = rest := by
  have hsorted := t.ordered_keys_toList
  rw [hlist, List.pairwise_cons] at hsorted
  refine toList_eq_of_lookup _ _ hsorted.2 ?_
  intro k' v'
  rw [ExtTreeMap.getElem?_erase]
  by_cases hkk : cmp k k' = .eq
  · obtain rfl := LawfulEqCmp.compare_eq_iff_eq.1 hkk
    rw [if_pos hkk]
    constructor
    · intro h
      have := hsorted.1 _ h
      rw [hkk] at this
      cases this
    · intro h
      cases h
  · rw [if_neg hkk, ← ExtTreeMap.mem_toList_iff_getElem?_eq_some, hlist, List.mem_cons]
    constructor
    · exact Or.inr
    · rintro (h | h)
      · obtain ⟨rfl, -⟩ := Prod.mk.inj h
        exact absurd ReflCmp.compare_self hkk
      · exact h

/-- Two ascending lists of keys deliver the same, if they have the same keys among those that
deliver something. -/
theorem flatMap_sorted_congr {β : Type u} {l l' : List κ} (hl : l.Pairwise fun a b => cmp a b = .lt)
    (hl' : l'.Pairwise fun a b => cmp a b = .lt) (g : κ → List β)
    (hmem : ∀ k, g k ≠ [] → (k ∈ l ↔ k ∈ l')) : l.flatMap g = l'.flatMap g := by
  have hfilter : ∀ keys : List κ,
      keys.flatMap g = (keys.filter fun k => !(g k).isEmpty).flatMap g := by
    intro keys
    induction keys with
    | nil => rfl
    | cons k keys ih =>
        rw [List.flatMap_cons, ih, List.filter_cons]
        cases hg : g k with
        | nil => rfl
        | cons b bs => simp [hg]
  have hnodup : ∀ {keys : List κ}, (keys.Pairwise fun a b => cmp a b = .lt) → keys.Nodup := by
    intro keys hkeys
    refine hkeys.imp fun {a b} hab heq => ?_
    subst heq
    exact absurd hab (ne_of_eq_of_ne ReflCmp.compare_self (by decide))
  have hperm : (l.filter fun k => !(g k).isEmpty).Perm (l'.filter fun k => !(g k).isEmpty) := by
    refine (List.perm_ext_iff_of_nodup ((hnodup hl).filter _) ((hnodup hl').filter _)).2 fun k => ?_
    rw [List.mem_filter, List.mem_filter]
    refine and_congr_left fun hk => hmem k fun hnil => ?_
    rw [hnil] at hk
    cases hk
  rw [hfilter l, hfilter l']
  refine congrArg _ (hperm.eq_of_pairwise ?_ (hl.filter _) (hl'.filter _))
  intro a b _ _ hab hba
  exact absurd hba (OrientedCmp.not_lt_of_lt hab)

end Listing

section OfList

variable [LawfulEqCmp cmp]

/-- The map built from a list without repeated keys holds exactly its entries. -/
theorem getElem?_ofList_iff {l : List (κ × ν)}
    (hdistinct : l.Pairwise fun a b => ¬ cmp a.1 b.1 = .eq) (k : κ) (v : ν) :
    (ExtTreeMap.ofList l cmp)[k]? = some v ↔ (k, v) ∈ l := by
  classical
  constructor
  · intro h
    by_cases hk : (l.map Prod.fst).contains k = true
    · obtain ⟨⟨k', w⟩, hmem, rfl⟩ := List.mem_map.1 (List.contains_iff_mem.1 hk)
      rw [ExtTreeMap.getElem?_ofList_of_mem ReflCmp.compare_self hdistinct hmem] at h
      exact Option.some.inj h ▸ hmem
    · rw [ExtTreeMap.getElem?_ofList_of_contains_eq_false (Bool.eq_false_iff.2 hk)] at h
      cases h
  · exact ExtTreeMap.getElem?_ofList_of_mem ReflCmp.compare_self hdistinct

/-- The map built from the listing of `t` is `t`. -/
theorem ofList_toList (t : ExtTreeMap κ ν cmp) : ExtTreeMap.ofList t.toList cmp = t := by
  refine ExtTreeMap.ext_getElem? fun k => Option.ext fun v => ?_
  rw [getElem?_ofList_iff t.distinct_keys_toList, ExtTreeMap.mem_toList_iff_getElem?_eq_some]

/-- Inserting the listing of `t` one entry after the other builds `t`. -/
theorem foldl_insert_toList (t : ExtTreeMap κ ν cmp) :
    t.toList.foldl (fun acc e => acc.insert e.1 e.2) (∅ : ExtTreeMap κ ν cmp) = t := by
  rw [← ExtTreeMap.ofList_eq_foldl, ofList_toList]

/-- The entries of `t` build it in every order. -/
theorem foldl_insert_of_perm {t : ExtTreeMap κ ν cmp} {l : List (κ × ν)} (h : l.Perm t.toList) :
    l.foldl (fun acc e => acc.insert e.1 e.2) (∅ : ExtTreeMap κ ν cmp) = t := by
  have hdistinct : l.Pairwise fun a b => ¬ cmp a.1 b.1 = .eq :=
    (h.pairwise_iff fun hab hba => hab (OrientedCmp.eq_symm hba)).2 t.distinct_keys_toList
  rw [← ExtTreeMap.ofList_eq_foldl]
  refine ExtTreeMap.ext_getElem? fun k => Option.ext fun v => ?_
  rw [getElem?_ofList_iff hdistinct, h.mem_iff, ExtTreeMap.mem_toList_iff_getElem?_eq_some]

/-- An entry of the map with an insertion is the new one or was there before. -/
theorem mem_toList_insert {t : ExtTreeMap κ ν cmp} {k : κ} {v : ν} {e : κ × ν}
    (h : e ∈ (t.insert k v).toList) : e = (k, v) ∨ e ∈ t.toList := by
  obtain ⟨k', v'⟩ := e
  rw [ExtTreeMap.mem_toList_iff_getElem?_eq_some, ExtTreeMap.getElem?_insert] at h
  split at h
  · next heq =>
      obtain rfl := LawfulEqCmp.compare_eq_iff_eq.1 heq
      obtain rfl := Option.some.inj h
      exact Or.inl rfl
  · exact Or.inr (ExtTreeMap.mem_toList_iff_getElem?_eq_some.2 h)

/-- What holds of all entries that are added to the empty map holds of the entries of the
result. -/
theorem forall_mem_foldl {P : κ × ν → Prop} {add : ExtTreeMap κ ν cmp → κ × ν → ExtTreeMap κ ν cmp}
    (hadd : ∀ t e, ∀ e' ∈ (add t e).toList, e' = e ∨ e' ∈ t.toList) {l : List (κ × ν)}
    (hl : ∀ e ∈ l, P e) : ∀ e ∈ (l.foldl add ∅).toList, P e := by
  suffices hfold : ∀ t : ExtTreeMap κ ν cmp, (∀ e ∈ t.toList, P e) →
      ∀ e ∈ (l.foldl add t).toList, P e by
    refine hfold ∅ fun e he => ?_
    rw [ExtTreeMap.mem_toList_iff_getElem?_eq_some, ExtTreeMap.getElem?_empty] at he
    cases he
  induction l with
  | nil => exact fun t ht => ht
  | cons e l ih =>
      intro t ht
      refine ih (fun e' he' => hl e' (List.mem_cons_of_mem e he')) _ fun e' he' => ?_
      rcases hadd t e e' he' with rfl | he'
      · exact hl e' List.mem_cons_self
      · exact ht e' he'

omit [TransCmp cmp] [LawfulEqCmp cmp] in
theorem size_foldl_le (add : ExtTreeMap κ ν cmp → κ × ν → ExtTreeMap κ ν cmp)
    (hadd : ∀ t e, (add t e).size ≤ t.size + 1) (l : List (κ × ν)) (t : ExtTreeMap κ ν cmp) :
    (l.foldl add t).size ≤ t.size + l.length := by
  induction l generalizing t with
  | nil => exact Nat.le_refl _
  | cons e l ih =>
      have hhead := hadd t e
      have htail := ih (add t e)
      rw [List.foldl_cons, List.length_cons]
      omega

/-- The entries of `t` that satisfy `p`, in ascending key order. -/
def retain (p : κ → ν → Bool) (t : ExtTreeMap κ ν cmp) : List (κ × ν) :=
  t.toList.filter fun e => p e.1 e.2

theorem getElem?_ofList_retain (p : κ → ν → Bool) (t : ExtTreeMap κ ν cmp) (k : κ) :
    (ExtTreeMap.ofList (retain p t) cmp)[k]? = t[k]?.filter (p k) := by
  refine Option.ext fun v => ?_
  rw [retain, getElem?_ofList_iff (t.distinct_keys_toList.filter _), List.mem_filter,
    ExtTreeMap.mem_toList_iff_getElem?_eq_some, Option.filter_eq_some_iff]

end OfList

end EyaKV.Base.OrderedMap
