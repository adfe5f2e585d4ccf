import EyaKV.Base.RedoLogs
import EyaKV.Store.Commands
import EyaKV.Store.Flushing

/-!
# What a logged record repeats

A record of the write-ahead log repeats an operation: an update of a value, the writing of
a version, a removal, or a change of the expiry (`Action`). What it writes depends on the
live version that it finds and on the second at which it is repeated (`Action.write`).

`shadows_step` compares an operation, executed at the second `now` on the live store, with
its repetition at a later second `t`. The two agree on what is alive at `t` when the key has
not expired in between, or when the operation can only leave a dead version where it found
one that is dead at `t` (`ValueOp.Fading`, the removals of elements); a removal of the key
is not repeated at all, so its key must be dead at `t` already (`Action.Safe`).
-/

set_option autoImplicit false

namespace EyaKV.Store

open EyaKV.Base EyaKV.Base.Layers EyaKV.Base.RedoLogs

section Bare

variable {ρ σ : Type}

/-- The version that an outcome writes. -/
def written : Result (ρ × Option EValue) → Option EValue
  | .ok (_, w) => w
  | .error _ => none

/-- What an operation writes when the newest version of its key is `o`. -/
def ValueOp.write (op : ValueOp ρ) (now : Nat) (o : Option EValue) : Option EValue :=
  written (op.fallback (o.filter (EValue.isLive now)))

/-- An operation without its result and its record, as it is repeated by a recovery. -/
def ValueOp.bare (op : ValueOp ρ) : ValueOp Unit := { op.map fun _ => () with payload := [] }

theorem written_map (f : ρ → σ) (outcome : Result (ρ × Option EValue)) :
    written (outcome.map fun r => (f r.1, r.2)) = written outcome := by
  cases outcome with
  | ok r => rfl
  | error e => rfl

theorem map_map_unit (f : ρ → σ) (result : Result ρ) :
    (result.map f).map (fun _ => ()) = result.map fun _ => () := by
  cases result with
  | ok r => rfl
  | error e => rfl

/-- The result of an operation does not matter for what it does. -/
theorem ValueOp.bare_map (op : ValueOp ρ) (f : ρ → σ) : (op.map f).bare = op.bare := by
  have hold : ∀ outcome : Result (ρ × Option EValue),
      (outcome.map fun r => (f r.1, r.2)).map (fun r => ((), r.2)) =
        outcome.map fun r => ((), r.2) := by
    intro outcome
    cases outcome with
    | ok r => rfl
    | error e => rfl
  simp only [ValueOp.bare, ValueOp.map, map_map_unit, hold]

theorem ValueOp.fallback_map (op : ValueOp ρ) (f : ρ → σ) (o : Option EValue) :
    (op.map f).fallback o = (op.fallback o).map fun r => (f r.1, r.2) := by
  cases o with
  | some v => rfl
  | none => rfl

theorem ValueOp.write_bare (op : ValueOp ρ) : op.bare.write = op.write := by
  funext now o
  have hfallback : ∀ u, op.bare.fallback u = (op.map fun _ => ()).fallback u := by
    intro u
    cases u with
    | some v => rfl
    | none => rfl
  rw [ValueOp.write, hfallback, op.fallback_map]
  exact written_map (fun _ => ()) _

theorem ValueOp.accepts_bare {op : ValueOp ρ} {now : Nat} {v : EValue} :
    op.bare.Accepts now v ↔ op.Accepts now v := by
  simp only [ValueOp.Accepts, ValueOp.bare, ValueOp.map]
  cases (op.inPlace now v).2 with
  | ok r => exact ⟨fun _ => ⟨r, rfl⟩, fun _ => ⟨(), rfl⟩⟩
  | error e =>
      constructor
      · rintro ⟨r, hr⟩
        cases hr
      · rintro ⟨r, hr⟩
        cases hr

end Bare

section Regularity

/-- The alternative that a container of elements is. -/
structure Container.Tagged {α : Type} (c : Container α) (i : Fin 5) : Prop where
  wrap : ∀ a, (c.wrap a).index = i
  getIf : ∀ v : EyaValue, (c.getIf v).isSome = true ↔ v.index = i

theorem tagged_sets : sets.Tagged 2 := by
  refine ⟨fun _ => rfl, fun v => ?_⟩
  cases v <;> simp [sets, EyaValue.index]

theorem tagged_zsets : zsets.Tagged 4 := by
  refine ⟨fun _ => rfl, fun v => ?_⟩
  cases v <;> simp [zsets, EyaValue.index]

theorem tagged_lists : lists.Tagged 1 := by
  refine ⟨fun _ => rfl, fun v => ?_⟩
  cases v <;> simp [lists, EyaValue.index]

theorem tagged_hashes : hashes.Tagged 3 := by
  refine ⟨fun _ => rfl, fun v => ?_⟩
  cases v <;> simp [hashes, EyaValue.index]

/-- What all operations have in common: the callback and the branches behind it fit where
the callback does not throw, the callback asks the clock only whether the entry is dead, and
on a dead entry whether it throws depends on the alternative that the value holds. -/
structure ValueOp.Regular (op : ValueOp Unit) : Prop where
  coherent : ∀ now v, op.Accepts now v → op.Coherent now v
  timeless : ∀ now t v, v.isLive now = v.isLive t → op.inPlace now v = op.inPlace t v
  dead : ∀ now t v v', v.isLive now = false → v'.isLive t = false →
    v'.value.index = v.value.index → op.Accepts now v → op.Accepts t v'

/-- An operation that only removes elements: it leaves a dead version alone, writes nothing
for a missing key, and keeps the expiry and the alternative of a version. -/
structure ValueOp.Fading (op : ValueOp Unit) : Prop where
  accepts : ∀ t v, v.isLive t = false → op.Accepts t v
  missing : written op.onMissing = none
  keeps : ∀ v u, written (op.onOld v) = some u →
    u.deleted = v.deleted ∧ u.expireTime = v.expireTime ∧ u.value.index = v.value.index

variable {α ρ : Type} {c : Container α} {i : Fin 5} {type : OperationType} {payload : Bytes}

theorem isDead_congr {now t : Nat} {v : EValue} (h : v.isLive now = v.isLive t) :
    (v.isDeleted || v.isExpired now) = (v.isDeleted || v.isExpired t) := by
  rw [EValue.isLive, EValue.isLive, ← Bool.not_or, ← Bool.not_or] at h
  exact Bool.not_inj h

/-- On a dead entry an adder throws for a value of another alternative, and where adding
to the empty container throws. -/
theorem accepts_adder_dead (htagged : c.Tagged i) {add : α → α × Result ρ} {now : Nat}
    {v : EValue} (hdead : v.isLive now = false) :
    (adder c type payload add).Accepts now v ↔
      v.value.index = i ∧ ∃ r, (add c.empty).2 = .ok r := by
  simp only [ValueOp.Accepts, adder, EValue.isLive_eq_false_iff.1 hdead, ↓reduceIte]
  cases hget : c.getIf v.value with
  | none =>
      have hindex : v.value.index ≠ i := by
        intro h
        rw [← htagged.getIf, hget] at h
        cases h
      constructor
      · rintro ⟨r, hr⟩
        cases hr
      · rintro ⟨h, -⟩
        exact absurd h hindex
  | some a =>
      have hindex : v.value.index = i := by rw [← htagged.getIf, hget]; rfl
      exact ⟨fun h => ⟨hindex, h⟩, fun h => h.2⟩

theorem regular_adder (htagged : c.Tagged i) (add : α → α × Result ρ) :
    (adder c type payload add).bare.Regular := by
  refine ⟨fun now v h => ?_, fun now t v h => ?_, fun now t v v' hdead hdead' hindex h => ?_⟩
  · exact (coherent_adder (ValueOp.accepts_bare.1 h)).map fun _ => ()
  · simp only [ValueOp.bare, ValueOp.map, adder, isDead_congr h]
  · rw [ValueOp.accepts_bare, accepts_adder_dead htagged hdead] at h
    rw [ValueOp.accepts_bare, accepts_adder_dead htagged hdead']
    exact ⟨hindex.trans h.1, h.2⟩

theorem accepts_remover_dead {nothing : ρ} {rem : α → α × Result ρ} {writes : α → Bool} {t : Nat}
    {v : EValue} (hdead : v.isLive t = false) :
    (remover c type payload nothing rem writes).Accepts t v :=
  ⟨nothing, by simp only [remover, EValue.isLive_eq_false_iff.1 hdead, ↓reduceIte]⟩

theorem regular_remover {nothing : ρ} {rem : α → α × Result ρ} {writes : α → Bool}
    (hcoherent : ∀ now v, (remover c type payload nothing rem writes).Accepts now v →
      (remover c type payload nothing rem writes).Coherent now v) :
    (remover c type payload nothing rem writes).bare.Regular := by
  refine ⟨fun now v h => ?_, fun now t v h => ?_, fun now t v v' _ hdead' _ _ => ?_⟩
  · exact (hcoherent now v (ValueOp.accepts_bare.1 h)).map fun _ => ()
  · simp only [ValueOp.bare, ValueOp.map, remover, isDead_congr h]
  · exact ValueOp.accepts_bare.2 (accepts_remover_dead hdead')

theorem fading_remover (htagged : c.Tagged i) (nothing : ρ) (rem : α → α × Result ρ)
    (writes : α → Bool) : (remover c type payload nothing rem writes).bare.Fading := by
  refine ⟨fun t v hdead => ValueOp.accepts_bare.2 (accepts_remover_dead hdead), rfl, ?_⟩
  intro v u hu
  simp only [ValueOp.bare, ValueOp.map, remover] at hu
  cases hget : c.getIf v.value with
  | none =>
      simp only [hget, written] at hu
      cases hu
  | some a =>
      have hindex : v.value.index = i := by rw [← htagged.getIf, hget]; rfl
      simp only [hget] at hu
      cases hrem : (rem a).2 with
      | error e =>
          simp only [hrem, Except.map, written] at hu
          cases hu
      | ok r =>
          simp only [hrem, Except.map, written] at hu
          split at hu
          · obtain rfl := Option.some.inj hu
            exact ⟨rfl, rfl, (htagged.wrap _).trans hindex.symm⟩
          · cases hu

theorem regular_hSet (fieldValues : List (Bytes × Bytes)) : (hSet fieldValues).bare.Regular :=
  -- The branch for a missing key differs in its result only.
  show (hSetExisting fieldValues).bare.Regular from regular_adder tagged_hashes _

theorem regular_zIncrBy (F : FloatOps) (increment member : Bytes) :
    (zIncrBy F increment member).bare.Regular := by
  refine ⟨fun now v h => ?_, fun now t v h => ?_, fun now t v v' hdead _ _ h => ?_⟩
  · exact (coherent_zIncrBy (ValueOp.accepts_bare.1 h)).map fun _ => ()
  · simp only [ValueOp.bare, ValueOp.map, zIncrBy, isDead_congr h]
  · -- It throws on every dead entry.
    obtain ⟨r, hr⟩ := ValueOp.accepts_bare.1 h
    simp only [zIncrBy, EValue.isLive_eq_false_iff.1 hdead, ↓reduceIte] at hr
    cases hr

theorem regular_zRemByScore (F : FloatOps) (min max : Bytes) :
    (zRemByScore F min max).bare.Regular := by
  have hchecked : (zRemByScoreChecked F min max).bare.Regular :=
    regular_remover fun _ _ => coherent_remover fun _ hfalse => by cases hfalse
  refine ⟨fun now v h => ?_, hchecked.timeless, hchecked.dead⟩
  exact (coherent_zRemByScore (ValueOp.accepts_bare.1 h)).map fun _ => ()

theorem fading_zRemByScore (F : FloatOps) (min max : Bytes) :
    (zRemByScore F min max).bare.Fading := by
  have hchecked : (zRemByScoreChecked F min max).bare.Fading := fading_remover tagged_zsets _ _ _
  refine ⟨hchecked.accepts, hchecked.missing, fun v u hu => hchecked.keeps v u ?_⟩
  simp only [ValueOp.bare, ValueOp.map, zRemByScore, zRemByScoreChecked, remover] at hu ⊢
  cases hget : zsets.getIf v.value with
  | none =>
      simp only [hget, written] at hu
      cases hu
  | some z =>
      simp only [hget] at hu ⊢
      exact hu

end Regularity

section Actions

/-- What a record repeats; a record of another type is passed over. -/
inductive Action where
  | update (op : ValueOp Unit)
  | set (value : EValue)
  | remove
  | expire (expireTime : UInt64)
  | skip

namespace Action

/-- What a repeated action writes when the newest version of its key is `o`. A removal is
logged again before it is done, and during a recovery the log takes no record. -/
def write (now : Nat) : Action → Option EValue → Option EValue
  | .update op, o => op.write now o
  | .set value, _ => some value
  | .remove, _ => none
  | .expire t, o => (o.filter (EValue.isLive now)).map fun v => Storage.withExpiry v.value t
  | .skip, _ => none

/-- What an action writes on the live store, where the memtable has the entry `e` over the
version `lower`: a removal marks the entry. -/
def liveWrite (now : Nat) (a : Action) (e lower : Option EValue) : Option EValue :=
  match a with
  | .remove => some { e.getD {} with deleted := true }
  | .update op => op.write now (e.or lower)
  | .set value => some value
  | .expire t => Action.write now (.expire t) (e.or lower)
  | .skip => none

/-- The callback of an update does not throw on the entry. -/
def Accepts (now : Nat) (v : EValue) : Action → Prop
  | .update op => op.Accepts now v
  | .set _ => True
  | .remove => True
  | .expire _ => True
  | .skip => True

def Regular : Action → Prop
  | .update op => op.Regular
  | .set _ => True
  | .remove => True
  | .expire _ => True
  | .skip => True

/-- Whether the key, with its newest version `o`, is alive at both seconds or at neither. -/
def SameLife (now t : Nat) (o : Option EValue) : Prop :=
  (o.filter (EValue.isLive now)).isSome = (o.filter (EValue.isLive t)).isSome

/-- Done at the second `now` and repeated at the second `t`, the action does the same as far
as can be seen at `t`: the key has not expired in between; or the action removes elements, or
sets an expiry before `t`. A removal, which is not repeated, has found the key dead. -/
def Safe (now t : Nat) (o : Option EValue) : Action → Prop
  | .update op => SameLife now t o ∨ op.Fading
  | .set _ => True
  | .remove => o.filter (EValue.isLive t) = none
  | .expire e => SameLife now t o ∨
      ∀ v, o = some v → (Storage.withExpiry v.value e).isLive t = false
  | .skip => True

variable {now t : Nat} {a : Action} {o o' : Option EValue}

theorem write_congr (h : o.filter (EValue.isLive t) = o'.filter (EValue.isLive t)) :
    a.write t o = a.write t o' := by
  cases a with
  | update op => simp only [write, ValueOp.write, h]
  | expire e => simp only [write, h]
  | set value => rfl
  | remove => rfl
  | skip => rfl

end Action

end Actions

/-- The alternative that a version holds. -/
def valueIndex (v : EValue) : Fin 5 := v.value.index

/-- An entry of a replay at the second `t` for an entry of the live store. -/
abbrev ShadowsAt (t : Nat) (lower e' e : Option EValue) : Prop :=
  Shadows (EValue.isLive t) valueIndex lower e' e

section Steps

variable {now t : Nat} {a : Action} {lower e' e : Option EValue}

theorem isLive_congr {v u : EValue} (hdeleted : u.deleted = v.deleted)
    (hexpire : u.expireTime = v.expireTime) : u.isLive t = v.isLive t := by
  simp only [EValue.isLive, EValue.isDeleted, EValue.isExpired, hdeleted, hexpire]

/-- A key that is alive at both seconds or at neither has the same live version at both. -/
theorem filter_of_sameLife {o : Option EValue} (hle : now ≤ t) (h : Action.SameLife now t o) :
    o.filter (EValue.isLive now) = o.filter (EValue.isLive t) := by
  cases o with
  | none => rfl
  | some v =>
      rw [Action.SameLife, Option.filter_some, Option.filter_some] at h
      rw [Option.filter_some, Option.filter_some]
      cases hlater : v.isLive t with
      | true => rw [EValue.isLive_anti hle hlater]
      | false =>
          rw [hlater] at h
          cases hnow : v.isLive now with
          | true =>
              rw [hnow] at h
              cases h
          | false => rfl

/-- A key that has expired in between had a version that was alive and is dead. -/
theorem expired_of_not_sameLife {o : Option EValue} (hle : now ≤ t)
    (h : ¬ Action.SameLife now t o) :
    ∃ v, o = some v ∧ v.isLive now = true ∧ v.isLive t = false := by
  cases o with
  | none => exact absurd rfl h
  | some v =>
      refine ⟨v, rfl, ?_⟩
      rw [Action.SameLife, Option.filter_some, Option.filter_some] at h
      cases hlater : v.isLive t with
      | true =>
          rw [hlater, EValue.isLive_anti hle hlater] at h
          exact absurd rfl h
      | false =>
          cases hnow : v.isLive now with
          | true => exact ⟨rfl, rfl⟩
          | false =>
              rw [hlater, hnow] at h
              exact absurd rfl h

/-- An entry that stands for another one has it. -/
theorem exists_of_shadows (h : ShadowsAt t lower e' e) {v' : EValue} (hv' : e' = some v') :
    ∃ v, e = some v ∧ (v' = v ∨ v.isLive t = false ∧ v'.isLive t = false ∧
      v'.value.index = v.value.index) := by
  rcases h with rfl | ⟨v, rfl, hdead, ⟨rfl, -⟩ | ⟨u, rfl, hu, hindex⟩⟩
  · exact ⟨v', hv', Or.inl rfl⟩
  · cases hv'
  · obtain rfl := Option.some.inj hv'
    exact ⟨v, rfl, Or.inr ⟨hdead, hu, hindex⟩⟩

/-- A repeated action does not throw on the entry of the replay. -/
theorem accepts_of_shadows (hle : now ≤ t) (hregular : a.Regular)
    (haccepts : ∀ v, e = some v → a.Accepts now v) (hsafe : a.Safe now t (e.or lower))
    (h : ShadowsAt t lower e' e) {v' : EValue} (hv' : e' = some v') : a.Accepts t v' := by
  cases a with
  | set _ => trivial
  | remove => trivial
  | expire _ => trivial
  | skip => trivial
  | update op =>
      obtain ⟨v, rfl, hv⟩ := exists_of_shadows h hv'
      have hop : op.Accepts now v := haccepts v rfl
      rcases hsafe with hlife | hfading
      · have hsame := filter_of_sameLife hle hlife
        rw [Option.some_or, Option.filter_some, Option.filter_some] at hsame
        have hboth : v.isLive now = v.isLive t := by
          cases hnow : v.isLive now <;> cases ht : v.isLive t <;> simp [hnow, ht] at hsame ⊢
        rcases hv with rfl | ⟨hdead, hdead', hindex⟩
        · rw [Action.Accepts, ValueOp.Accepts, ← hregular.timeless now t v' hboth]
          exact hop
        · exact hregular.dead now t v v' (hboth.trans hdead) hdead' hindex hop
      · rcases hv with rfl | ⟨-, hdead', -⟩
        · cases ht : v'.isLive t with
          | false => exact hfading.accepts t v' ht
          | true =>
              have hboth : v'.isLive now = v'.isLive t :=
                (EValue.isLive_anti hle ht).trans ht.symm
              rw [Action.Accepts, ValueOp.Accepts, ← hregular.timeless now t v' hboth]
              exact hop
        · exact hfading.accepts t v' hdead'

/-- On a key that has expired in between, an action that is safe writes a dead version of
the same alternative or nothing, and its repetition writes nothing. -/
theorem writes_of_expired {v : EValue} (hnow : v.isLive now = true) (hdead : v.isLive t = false)
    (hfading : (∃ op, a = .update op ∧ op.Fading) ∨
      ∃ s, a = .expire s ∧ (Storage.withExpiry v.value s).isLive t = false) :
    (∀ o : Option EValue, o.filter (EValue.isLive t) = none → a.write t o = none) ∧
      ∀ u, a.write now (some v) = some u →
        u.isLive t = false ∧ u.value.index = v.value.index := by
  have hlive : (some v).filter (EValue.isLive now) = some v := by
    rw [Option.filter_some, if_pos hnow]
  rcases hfading with ⟨op, rfl, hop⟩ | ⟨s, rfl, hs⟩
  · refine ⟨fun o ho => ?_, fun u hu => ?_⟩
    · rw [Action.write, ValueOp.write, ho]
      exact hop.missing
    · rw [Action.write, ValueOp.write, hlive] at hu
      obtain ⟨hdeleted, hexpire, hindex⟩ := hop.keeps v u hu
      exact ⟨(isLive_congr hdeleted hexpire).trans hdead, hindex⟩
  · refine ⟨fun o ho => ?_, fun u hu => ?_⟩
    · rw [Action.write, ho]
      rfl
    · rw [Action.write, hlive] at hu
      obtain rfl := Option.some.inj hu
      exact ⟨hs, rfl⟩

/-- **One operation and its repetition.** What a safe action leaves on the live store is
shadowed by what its repetition leaves in the replay. -/
theorem shadows_step (hle : now ≤ t) (hsafe : a.Safe now t (e.or lower))
    (h : ShadowsAt t lower e' e) :
    ShadowsAt t lower ((a.write t (e'.or lower)).or e') ((a.liveWrite now e lower).or e) := by
  have hread := h.filter_or
  -- The key has the same live version for both, or it is dead when the action is repeated.
  have hcommon : a.liveWrite now e lower = a.write now (e.or lower) →
      Action.SameLife now t (e.or lower) ∨
        (∃ op, a = .update op ∧ op.Fading) ∨
          (∃ s, a = .expire s ∧ ∀ v, e.or lower = some v →
            (Storage.withExpiry v.value s).isLive t = false) →
      ShadowsAt t lower ((a.write t (e'.or lower)).or e') ((a.liveWrite now e lower).or e) := by
    intro hwrite hcases
    rw [hwrite]
    by_cases hlife : Action.SameLife now t (e.or lower)
    · have hsame : a.write t (e'.or lower) = a.write now (e.or lower) := by
        have hnow : a.write now (e.or lower) = a.write t (e.or lower) := by
          cases a with
          | update op => simp only [Action.write, ValueOp.write, filter_of_sameLife hle hlife]
          | expire s => simp only [Action.write, filter_of_sameLife hle hlife]
          | set value => rfl
          | remove => rfl
          | skip => rfl
        rw [hnow]
        exact Action.write_congr hread
      rw [hsame]
      exact h.write_same _
    · obtain ⟨v, hv, hnow, hdead⟩ := expired_of_not_sameLife hle hlife
      have hfading : (∃ op, a = .update op ∧ op.Fading) ∨
          ∃ s, a = .expire s ∧ (Storage.withExpiry v.value s).isLive t = false := by
        rcases hcases with hl | hop | ⟨s, rfl, hs⟩
        · exact absurd hl hlife
        · exact Or.inl hop
        · exact Or.inr ⟨s, rfl, hs v hv⟩
      obtain ⟨hreplay, hlive⟩ := writes_of_expired hnow hdead hfading
      have hnone : (e.or lower).filter (EValue.isLive t) = none := by
        rw [hv]
        exact filter_some_of_dead hdead
      rw [hreplay _ (hread.trans hnone), Option.none_or, hv]
      cases hw : a.write now (some v) with
      | none =>
          rw [Option.none_or]
          exact h
      | some u =>
          obtain ⟨hu, hindex⟩ := hlive u hw
          rw [Option.some_or]
          refine h.write_dead hu hnone fun u' hu' => ?_
          rw [hu', Option.some_or] at hv
          rw [Option.some.inj hv]
          exact hindex
  cases a with
  | update op =>
      refine hcommon rfl ?_
      rcases hsafe with hlife | hfading
      · exact Or.inl hlife
      · exact Or.inr (Or.inl ⟨op, rfl, hfading⟩)
  | expire s =>
      refine hcommon rfl ?_
      rcases hsafe with hlife | hs
      · exact Or.inl hlife
      · exact Or.inr (Or.inr ⟨s, rfl, hs⟩)
  | set value => exact Or.inl rfl
  | skip =>
      rw [Action.write, Action.liveWrite, Option.none_or, Option.none_or]
      exact h
  | remove =>
      rw [Action.write, Action.liveWrite, Option.none_or, Option.some_or]
      refine h.write_dead ?_ hsafe fun u hu => ?_
      · simp only [EValue.isLive, EValue.isDeleted, Bool.not_true, Bool.false_and]
      · rw [hu]
        rfl

end Steps

end EyaKV.Store
