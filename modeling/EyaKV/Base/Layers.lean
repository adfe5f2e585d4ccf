import Mathlib.Data.List.Induction
import Mathlib.Data.List.Perm.Basic
import Mathlib.Data.Option.Basic
import Mathlib.Tactic.Common

/-!
# Layered stores

A layered store keeps several partial maps, newest first, and answers a lookup
with the version in the first map that has one (`newest`). A version may be dead
(a tombstone, an expired value); `visible` is the newest version when it is
alive. Reordering layers that share no key changes nothing (`newest_perm`).

A compaction replaces a group of adjacent layers by one layer with the live
newest versions of the group. `visible_compact_iff` says exactly when this keeps
a key's visible version: it fails for the keys that `Resurfaces` describes, whose
dropped dead version was hiding a live one further down.

A scan visits the entries of the layers one after the other and lets later entries
override earlier ones. What it ends with for a key is the last version visited
(`lastOf`), so a scan that visits the layers from the oldest on agrees with `newest`
(`lastOf_flatMap`).
-/

set_option autoImplicit false

namespace EyaKV.Base.Layers

universe u v

variable {κ : Type u} {ν : Type v}

/-- The version of `k` in the first layer that has one. -/
def newest (layers : List (κ → Option ν)) (k : κ) : Option ν :=
  layers.findSome? fun layer => layer k

/-- The newest version of `k` when it is alive. -/
def visible (live : ν → Bool) (layers : List (κ → Option ν)) (k : κ) : Option ν :=
  (newest layers k).filter live

section Newest

@[simp] theorem newest_nil (k : κ) : newest ([] : List (κ → Option ν)) k = none := rfl

theorem newest_cons (layer : κ → Option ν) (layers : List (κ → Option ν)) (k : κ) :
    newest (layer :: layers) k = (layer k).or (newest layers k) := by
  unfold newest
  rw [List.findSome?_cons]
  cases layer k with
  | none => rfl
  | some v => rfl

theorem newest_append (above below : List (κ → Option ν)) (k : κ) :
    newest (above ++ below) k = (newest above k).or (newest below k) := by
  induction above with
  | nil => rfl
  | cons layer above ih => rw [List.cons_append, newest_cons, newest_cons, ih, Option.or_assoc]

theorem newest_flatMap {ι : Type} (f : ι → List (κ → Option ν)) (l : List ι) (k : κ) :
    newest (l.flatMap f) k = l.findSome? fun i => newest (f i) k := by
  induction l with
  | nil => rfl
  | cons i l ih =>
      rw [List.flatMap_cons, newest_append, List.findSome?_cons, ih]
      cases newest (f i) k with
      | none => rfl
      | some v => rfl

theorem newest_eq_none_iff (layers : List (κ → Option ν)) (k : κ) :
    newest layers k = none ↔ ∀ layer ∈ layers, layer k = none := by
  rw [newest, List.findSome?_eq_none_iff]

/-- A version found by `newest` is the version of one of the layers. -/
theorem exists_layer_of_newest {layers : List (κ → Option ν)} {k : κ} {v : ν}
    (h : newest layers k = some v) : ∃ layer ∈ layers, layer k = some v :=
  List.exists_of_findSome?_eq_some h

/-- Layers of which no two have a version of one key. -/
def KeyDisjoint (layers : List (κ → Option ν)) : Prop :=
  layers.Pairwise fun a b => ∀ k, a k = none ∨ b k = none

/-- The order of layers that share no key does not matter. -/
theorem newest_perm {layers layers' : List (κ → Option ν)} (hperm : layers.Perm layers')
    (hdisjoint : KeyDisjoint layers) (k : κ) : newest layers k = newest layers' k := by
  induction hperm with
  | nil => rfl
  | cons layer _ ih => rw [newest_cons, newest_cons, ih (List.Pairwise.of_cons hdisjoint)]
  | swap a b rest =>
      have hab := List.rel_of_pairwise_cons hdisjoint (List.mem_cons_self ..) k
      simp only [newest_cons]
      rcases hab with h | h
      · rw [h, Option.none_or, Option.none_or]
      · rw [h, Option.none_or, Option.none_or]
  | trans hperm _ ih₁ ih₂ =>
      exact (ih₁ hdisjoint).trans (ih₂ (hdisjoint.perm hperm fun h k => (h k).symm))

end Newest

section Compaction

variable (live : ν → Bool) (above group below : List (κ → Option ν))

/-- Dropping the dead newest version of `k` in the group uncovers a live version
below: nothing above hides it. -/
def Resurfaces (k : κ) : Prop :=
  newest above k = none ∧ (∃ v, newest group k = some v ∧ live v = false) ∧
    (visible live below k).isSome

/-- A layer that holds the live newest versions of a group. -/
def IsCompactOf (compact : κ → Option ν) : Prop :=
  ∀ k, compact k = (newest group k).filter live

variable {live above group below}

/-- A key keeps its visible version through a compaction exactly when it does
not resurface. -/
theorem visible_compact_iff {compact : κ → Option ν} (hcompact : IsCompactOf live group compact)
    (k : κ) :
    visible live (above ++ compact :: below) k = visible live (above ++ (group ++ below)) k ↔
      ¬ Resurfaces live above group below k := by
  simp only [visible, Resurfaces, newest_append, newest_cons, hcompact k]
  cases habove : newest above k with
  | some v => simp
  | none =>
      cases hgroup : newest group k with
      | none => simp
      | some v =>
          cases hlive : live v with
          | true => simp [Option.filter_some, hlive]
          | false =>
              cases hbelow : newest below k with
              | none => simp [Option.filter_some, hlive]
              | some w => cases hw : live w <;> simp [Option.filter_some, hlive, hw]

/-- A compaction never loses a visible version: it can only uncover one. -/
theorem visible_compact_of_isSome {compact : κ → Option ν}
    (hcompact : IsCompactOf live group compact) {k : κ}
    (hsome : (visible live (above ++ (group ++ below)) k).isSome) :
    visible live (above ++ compact :: below) k = visible live (above ++ (group ++ below)) k := by
  refine (visible_compact_iff hcompact k).2 ?_
  rintro ⟨habove, ⟨v, hgroup, hlive⟩, -⟩
  simp [visible, newest_append, habove, hgroup, hlive] at hsome

end Compaction

section Crashing

/-- A compaction that crashes while it removes the group, newest layer first, leaves
the layers of the group from some point on, in front of the compacted one. -/
def crashed (above group below : List (κ → Option ν)) (compact : κ → Option ν) (n : Nat) :
    List (κ → Option ν) :=
  above ++ (group.drop n ++ compact :: below)

/-- The versions of `k` in the group do not all read as the newest one, or the newest
one is dropped and what lies below the group reads differently. Here `live` is the test
when the group is compacted and `live'` the test when `k` is read. -/
def Torn (live live' : ν → Bool) (above group below : List (κ → Option ν)) (k : κ) : Prop :=
  newest above k = none ∧ ∃ v, newest group k = some v ∧
    ((∃ layer ∈ group, ∃ w, layer k = some w ∧ (some w).filter live' ≠ (some v).filter live') ∨
      (live v = false ∧ visible live' below k ≠ (some v).filter live'))

theorem newest_drop (layers : List (κ → Option ν)) (k : κ) (n : Nat) :
    newest (layers.drop n) k = none ∨
      ∃ layer ∈ layers, ∃ w, layer k = some w ∧ newest (layers.drop n) k = some w := by
  cases h : newest (layers.drop n) k with
  | none => exact Or.inl rfl
  | some w =>
      obtain ⟨layer, hmem, hw⟩ := exists_layer_of_newest h
      exact Or.inr ⟨layer, List.mem_of_mem_drop hmem, w, hw, rfl⟩

theorem exists_newest_drop {layers : List (κ → Option ν)} {layer : κ → Option ν} {k : κ} {w : ν}
    (hmem : layer ∈ layers) (hw : layer k = some w) : ∃ n, newest (layers.drop n) k = some w := by
  obtain ⟨before, after, rfl⟩ := List.append_of_mem hmem
  refine ⟨before.length, ?_⟩
  rw [List.drop_left, newest_cons, hw, Option.some_or]

/-- **A compaction survives every crash for a key exactly when the key is not torn.** -/
theorem visible_crashed_iff {live live' : ν → Bool} {above group below : List (κ → Option ν)}
    {compact : κ → Option ν} (hcompact : IsCompactOf live group compact) (k : κ) :
    (∀ n, visible live' (crashed above group below compact n) k =
        visible live' (above ++ (group ++ below)) k) ↔
      ¬ Torn live live' above group below k := by
  simp only [visible, Torn, crashed, newest_append, newest_cons, hcompact k]
  cases habove : newest above k with
  | some u => simp
  | none =>
      simp only [Option.none_or, true_and]
      cases hgroup : newest group k with
      | none =>
          -- No layer of the group has the key, and neither has any part of the group.
          have hparts : ∀ n, newest (group.drop n) k = none := by
            intro n
            rw [newest_eq_none_iff] at hgroup ⊢
            exact fun layer hlayer => hgroup layer (List.mem_of_mem_drop hlayer)
          simp [hparts]
      | some v =>
          simp only [Option.some_or, Option.some.injEq, exists_eq_left', not_or, not_exists,
            not_and, not_not]
          constructor
          · intro h
            constructor
            · intro layer hlayer w hw
              obtain ⟨n, hn⟩ := exists_newest_drop hlayer hw
              have hread := h n
              rwa [hn, Option.some_or] at hread
            · intro hdead
              have hread := h group.length
              rwa [List.drop_length, newest_nil, Option.none_or, Option.filter_some, hdead,
                if_neg Bool.false_ne_true, Option.none_or] at hread
          · rintro ⟨hagree, hdropped⟩ n
            rcases newest_drop group k n with hnone | ⟨layer, hlayer, w, hw, hsome⟩
            · rw [hnone, Option.none_or, Option.filter_some]
              cases hlive : live v with
              | true => rfl
              | false => exact hdropped hlive
            · rw [hsome, Option.some_or]
              exact hagree layer hlayer w hw

/-- The compacted layer has the version `v` that the group keeps of `k`, while another
layer of `next` has a newer one that reads differently. -/
def Overtaken (live live' : ν → Bool) (above : List (κ → Option ν)) (top : κ → Option ν)
    (group next : List (κ → Option ν)) (k : κ) : Prop :=
  newest above k = none ∧ top k = none ∧ ∃ v, newest group k = some v ∧ live v = true ∧
    (newest next k).filter live' ≠ (some v).filter live'

/-- The compacted layer drops its version of `k`, and what `rest` shows of `k` differs
from what was visible. -/
def Uncovered (live live' : ν → Bool) (above : List (κ → Option ν)) (top : κ → Option ν)
    (group next below rest : List (κ → Option ν)) (k : κ) : Prop :=
  newest above k = none ∧ (∃ v, newest (top :: group) k = some v ∧ live v = false) ∧
    visible live' (rest ++ below) k ≠ visible live' (top :: (next ++ below)) k

/-- **A layer is pushed into a group of the layers `next` below it.** While the pushed
layer is still there, and afterwards while the layers of the group go one by one
(`rest n` are those of `next` left), a key keeps its visible version exactly when it is
not overtaken and never uncovered. -/
theorem visible_pushed_iff {live live' : ν → Bool} {above : List (κ → Option ν)}
    {top compact : κ → Option ν} {group next below : List (κ → Option ν)}
    {rest : Nat → List (κ → Option ν)} {k : κ}
    (hcompact : compact k = (newest (top :: group) k).filter live)
    (hrest : newest group k = none → ∀ n, newest (rest n) k = newest next k)
    (hnext : newest next k = none → newest group k = none) :
    (visible live' (above ++ (top :: compact :: (next ++ below))) k =
        visible live' (above ++ (top :: (next ++ below))) k ∧
      ∀ n, visible live' (above ++ compact :: (rest n ++ below)) k =
        visible live' (above ++ (top :: (next ++ below))) k) ↔
      ¬ Overtaken live live' above top group next k ∧
        ∀ n, ¬ Uncovered live live' above top group next below (rest n) k := by
  simp only [visible, Overtaken, Uncovered, newest_append, newest_cons, hcompact]
  -- from the top down: a version above or in the pushed layer decides alone
  cases habove : newest above k with
  | some u => simp
  | none =>
      simp only [Option.none_or, true_and]
      cases htop : top k with
      | some u =>
          cases hlive : live u with
          | true => simp [Option.filter_some, hlive]
          | false => simp [Option.filter_some, hlive]
      | none =>
          simp only [Option.none_or, true_and]
          cases hgroup : newest group k with
          | none => simp [hrest hgroup]
          | some v =>
              -- only the group is left, and it covers no more than the layers below it
              have hsome : ∃ w, newest next k = some w := by
                cases hn : newest next k with
                | none =>
                    rw [hnext hn] at hgroup
                    cases hgroup
                | some w => exact ⟨w, rfl⟩
              obtain ⟨w, hw⟩ := hsome
              cases hlive : live v with
              | true =>
                  have hkeep : (some v).filter live = some v := by
                    rw [Option.filter_some, if_pos hlive]
                  simp only [hkeep, hw, Option.some_or, forall_const, and_self, Option.some.injEq,
                    exists_eq_left', hlive, Bool.true_eq_false, false_and, not_false_eq_true,
                    and_true, true_and, ne_eq, not_not]
                  exact eq_comm
              | false => simp [Option.filter_some, hlive, hw]

end Crashing

section Uncovering

/-- A change of the visible versions from `f` to `g` that loses none, and that
changes none exactly when `safe` holds. -/
structure UncoversUnless (safe : Prop) (f g : κ → Option ν) : Prop where
  keeps : ∀ k, (f k).isSome → g k = f k
  same_iff : (∀ k, g k = f k) ↔ safe

variable {safe safe' : Prop} {f g h : κ → Option ν}

theorem UncoversUnless.rfl : UncoversUnless True f f :=
  ⟨fun _ _ => Eq.refl _, fun _ => trivial, fun _ _ => Eq.refl _⟩

/-- What one step uncovers stays visible, so two steps change nothing exactly when
neither does. -/
theorem UncoversUnless.trans (hfg : UncoversUnless safe f g) (hgh : UncoversUnless safe' g h) :
    UncoversUnless (safe ∧ safe') f h := by
  refine ⟨fun k hk => ?_, fun hall => ?_, fun hsafe k => ?_⟩
  · rw [hgh.keeps k (by rwa [hfg.keeps k hk]), hfg.keeps k hk]
  · have hsame : ∀ k, g k = f k := by
      intro k
      cases hg : g k with
      | some v => rw [← hall k, hgh.keeps k (by rw [hg]; rfl), hg]
      | none =>
          cases hf : f k with
          | none => rfl
          | some w => rw [hfg.keeps k (by rw [hf]; rfl), hf] at hg; cases hg
    exact ⟨hfg.same_iff.1 hsame, hgh.same_iff.1 fun k => (hall k).trans (hsame k).symm⟩
  · rw [hgh.same_iff.2 hsafe.2 k, hfg.same_iff.2 hsafe.1 k]

theorem UncoversUnless.congr (hfg : UncoversUnless safe f g) (hiff : safe ↔ safe') :
    UncoversUnless safe' f g :=
  ⟨hfg.keeps, hfg.same_iff.trans hiff⟩

/-- A compaction uncovers a version unless no key resurfaces. -/
theorem uncovers_compact {live : ν → Bool} {above group below : List (κ → Option ν)}
    {compact : κ → Option ν} (hcompact : IsCompactOf live group compact) :
    UncoversUnless (∀ k, ¬ Resurfaces live above group below k)
      (visible live (above ++ (group ++ below))) (visible live (above ++ compact :: below)) :=
  ⟨fun _ hk => visible_compact_of_isSome hcompact hk,
    forall_congr' fun k => visible_compact_iff hcompact k⟩

end Uncovering

section Visiting

variable [DecidableEq κ]

/-- The version of `k` that a visit of the entries meets last. -/
def lastOf (visited : List (κ × ν)) (k : κ) : Option ν := visited.reverse.lookup k

@[simp] theorem lastOf_nil (k : κ) : lastOf ([] : List (κ × ν)) k = none := rfl

theorem lastOf_append (earlier later : List (κ × ν)) (k : κ) :
    lastOf (earlier ++ later) k = (lastOf later k).or (lastOf earlier k) := by
  rw [lastOf, List.reverse_append, List.lookup_append]
  rfl

theorem lastOf_concat (visited : List (κ × ν)) (e : κ × ν) (k : κ) :
    lastOf (visited ++ [e]) k = if k = e.1 then some e.2 else lastOf visited k := by
  rw [lastOf, List.reverse_append, List.reverse_singleton, List.singleton_append, List.lookup_cons]
  split
  · next h => rw [if_pos (beq_iff_eq.1 h)]
  · next h => rw [if_neg (ne_of_beq_false h)]; rfl

theorem lastOf_mem {visited : List (κ × ν)} {k : κ} {v : ν} (h : lastOf visited k = some v) :
    (k, v) ∈ visited := by
  induction visited using List.reverseRecOn with
  | nil => cases h
  | append_singleton visited e ih =>
      rw [lastOf_concat] at h
      split at h
      · next heq =>
          obtain rfl := Option.some.inj h
          simp [heq]
      · exact List.mem_append_left _ (ih h)

theorem lastOf_isSome {visited : List (κ × ν)} {k : κ} {v : ν} (h : (k, v) ∈ visited) :
    ∃ w, lastOf visited k = some w := by
  induction visited using List.reverseRecOn with
  | nil => cases h
  | append_singleton visited e ih =>
      rw [lastOf_concat]
      split
      · exact ⟨_, rfl⟩
      · next hne =>
          rcases List.mem_append.1 h with hmem | hmem
          · exact ih hmem
          · exact absurd (congrArg Prod.fst (List.mem_singleton.1 hmem)) hne

/-- A list of entries that has exactly the versions of a layer. -/
def Lists (entries : List (κ × ν)) (layer : κ → Option ν) : Prop :=
  ∀ k v, (k, v) ∈ entries ↔ layer k = some v

/-- A visit of one layer meets the version of the layer. -/
theorem lastOf_of_lists {entries : List (κ × ν)} {layer : κ → Option ν}
    (h : Lists entries layer) (k : κ) : lastOf entries k = layer k := by
  cases hlast : lastOf entries k with
  | some v => exact ((h k v).1 (lastOf_mem hlast)).symm
  | none =>
      cases hlayer : layer k with
      | none => rfl
      | some v =>
          obtain ⟨w, hw⟩ := lastOf_isSome ((h k v).2 hlayer)
          rw [hlast] at hw
          cases hw

/-- A visit of several layers meets last what a lookup finds first in the layers in
the opposite order. -/
theorem lastOf_flatMap {ι : Type} (entries : ι → List (κ × ν)) (layer : ι → κ → Option ν)
    (h : ∀ i, Lists (entries i) (layer i)) (l : List ι) (k : κ) :
    lastOf (l.flatMap entries) k = newest (l.reverse.map layer) k := by
  induction l with
  | nil => rfl
  | cons i l ih =>
      rw [List.flatMap_cons, lastOf_append, ih, lastOf_of_lists (h i), List.reverse_cons,
        List.map_append, newest_append, List.map_singleton, newest_cons, newest_nil,
        Option.or_none]

end Visiting

end EyaKV.Base.Layers
