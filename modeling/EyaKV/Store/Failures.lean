import EyaKV.Store.Actions

/-!
# Failed commands

A data-structure command runs its callback on the memtable's node of the key, in place and
between two increments of the node's sequence number. A callback that throws leaves the value
as far as it had got, and the number odd: from then on the node reads as the default value.

`Takes` says on which entries the callback of a command does not throw, in terms of the
command's arguments and of the entry (`accepts_iff`). A command that ends in an error leaves
its key as it was (`SameKey`) if and only if it does not come to a callback that throws
(`failed_sameKey_iff`): an error of the checks, of a branch below the memtable, or of a pop
from an empty list changes nothing.
-/

set_option autoImplicit false

namespace EyaKV.Store

open EyaKV.Base EyaKV.Base.Layers

section Acceptance

variable {F : FloatOps}

/-- A text is parsed as a score. -/
def Parses (F : FloatOps) (text : Bytes) : Prop := ∃ score, F.stod text = .ok score

/-- The arguments that a command parses as scores in its callback. -/
def scoreTexts : OperationType → List Bytes → List Bytes
  | .zAdd, _ :: rest => (pairs rest).map Prod.fst
  | .zIncrBy, _ :: increment :: _ => [increment]
  | .zRemByScore, _ :: min :: max :: _ => [min, max]
  | _, _ => []

/-- The alternative of the value that a command works on. -/
def OperationType.alternative : OperationType → Option (Fin 5)
  | .remove | .expire | .set => none
  | .sAdd | .sRem => some 2
  | .zAdd | .zRem | .zIncrBy | .zRemByRank | .zRemByScore => some 4
  | .lPush | .lPop | .rPush | .rPop | .lPopN | .rPopN => some 1
  | .hSet | .hDel => some 3

/-- The commands that make a value of a missing key. -/
def OperationType.adds : OperationType → Bool
  | .sAdd | .zAdd | .lPush | .rPush | .hSet => true
  | _ => false

/-- The callback of a command finishes on the entry `v`. An adder looks at the type and at
its scores on every entry, the other commands on a live one only; ZINCRBY needs a live one. -/
structure Takes (F : FloatOps) (now : Nat) (type : OperationType) (args : List Bytes)
    (v : EValue) : Prop where
  typed : v.isLive now = true ∨ type.adds = true → some v.value.index = type.alternative
  parses : v.isLive now = true ∨ type.adds = true → ∀ text ∈ scoreTexts type args, Parses F text
  live : type = .zIncrBy → v.isLive now = true

variable {α ρ : Type} {c : Container α} {i : Fin 5} {type : OperationType} {payload : Bytes}
  {now : Nat} {v : EValue}

theorem Container.Tagged.index_eq (htagged : c.Tagged i) {v : EyaValue} {a : α}
    (h : c.getIf v = some a) : v.index = i := by
  rw [← htagged.getIf, h]
  rfl

theorem Container.Tagged.index_ne (htagged : c.Tagged i) {v : EyaValue} (h : c.getIf v = none) :
    v.index ≠ i := by
  intro hindex
  rw [← htagged.getIf, h] at hindex
  cases hindex

/-- An adder takes an entry of its type when it can add, which does not depend on what is
there already. -/
theorem accepts_adder_iff (htagged : c.Tagged i) {add : α → α × Result ρ} {can : Prop}
    (hcan : ∀ a, (∃ r, (add a).2 = .ok r) ↔ can) :
    (adder c type payload add).Accepts now v ↔ v.value.index = i ∧ can := by
  simp only [ValueOp.Accepts, adder]
  cases hget : c.getIf v.value with
  | none =>
      constructor
      · rintro ⟨r, hr⟩
        cases hr
      · rintro ⟨hindex, -⟩
        exact absurd hindex (htagged.index_ne hget)
  | some a =>
      have hindex := htagged.index_eq hget
      cases hdead : (v.isDeleted || v.isExpired now) with
      | true =>
          simp only [↓reduceIte, hcan]
          exact ⟨fun h => ⟨hindex, h⟩, fun h => h.2⟩
      | false =>
          simp only [Bool.false_eq_true, ↓reduceIte, hcan]
          exact ⟨fun h => ⟨hindex, h⟩, fun h => h.2⟩

/-- A remover takes every dead entry, and a live one of its type when it can remove. -/
theorem accepts_remover_iff (htagged : c.Tagged i) {nothing : ρ} {rem : α → α × Result ρ}
    {writes : α → Bool} {can : Prop} (hcan : ∀ a, (∃ r, (rem a).2 = .ok r) ↔ can) :
    (remover c type payload nothing rem writes).Accepts now v ↔
      (v.isLive now = true → v.value.index = i ∧ can) := by
  cases hlive : v.isLive now with
  | false => exact iff_of_true (accepts_remover_dead hlive) fun h => by cases h
  | true =>
      simp only [ValueOp.Accepts, remover, EValue.isLive_eq_true_iff.1 hlive, Bool.false_eq_true,
        ↓reduceIte, forall_const]
      cases hget : c.getIf v.value with
      | none =>
          constructor
          · rintro ⟨r, hr⟩
            cases hr
          · rintro ⟨hindex, -⟩
            exact absurd hindex (htagged.index_ne hget)
      | some a =>
          simp only [hcan]
          exact ⟨fun h => ⟨htagged.index_eq hget, h⟩, fun h => h.2⟩

theorem exists_map_ok {σ : Type} (f : ρ → σ) (result : Result ρ) :
    (∃ r, result.map f = .ok r) ↔ ∃ r, result = .ok r := by
  cases result with
  | ok r => exact iff_of_true ⟨f r, rfl⟩ ⟨r, rfl⟩
  | error e =>
      constructor
      · rintro ⟨r, hr⟩
        cases hr
      · rintro ⟨r, hr⟩
        cases hr

theorem zadd_ok_iff (z : ZSet) (member score : Bytes) :
    (∃ r, z.zadd F member score = .ok r) ↔ Parses F score := by
  cases hstod : F.stod score with
  | error e =>
      constructor
      · rintro ⟨r, hr⟩
        simp only [ZSet.zadd, hstod] at hr
        cases hr
      · rintro ⟨x, hx⟩
        rw [hstod] at hx
        cases hx
  | ok x =>
      refine iff_of_true ?_ ⟨x, hstod⟩
      cases hadd : z.zadd F member score with
      | ok r => exact ⟨r, rfl⟩
      | error e =>
          simp only [ZSet.zadd, hstod, bind, Except.bind] at hadd
          split at hadd
          · split at hadd
            · cases hadd
            · cases hadd
          · cases hadd

theorem zaddAll_ok_iff (scoreMembers : List (Bytes × Bytes)) :
    ∀ z : ZSet, (∃ r, (zaddAll F scoreMembers z).2 = .ok r) ↔
      ∀ text ∈ scoreMembers.map Prod.fst, Parses F text := by
  induction scoreMembers with
  | nil =>
      intro z
      exact iff_of_true ⟨(), rfl⟩ fun text h => by cases h
  | cons p rest ih =>
      intro z
      obtain ⟨score, member⟩ := p
      rw [List.map_cons, List.forall_mem_cons]
      cases hadd : z.zadd F member score with
      | error e =>
          have hnot : ¬ Parses F score := by
            rw [← zadd_ok_iff z member score, hadd]
            rintro ⟨r, hr⟩
            cases hr
          constructor
          · rintro ⟨r, hr⟩
            simp only [zaddAll, hadd] at hr
            cases hr
          · rintro ⟨h, -⟩
            exact absurd h hnot
      | ok z' =>
          have hparses : Parses F score := (zadd_ok_iff z member score).1 ⟨z', hadd⟩
          simp only [zaddAll, hadd, ih z']
          exact ⟨fun h => ⟨hparses, h⟩, fun h => h.2⟩

theorem zincrby_ok_iff (z : ZSet) (member increment : Bytes) :
    (∃ r, z.zincrby F member increment = .ok r) ↔ Parses F increment := by
  cases hstod : F.stod increment with
  | error e =>
      constructor
      · rintro ⟨r, hr⟩
        simp only [ZSet.zincrby, hstod] at hr
        cases hr
      · rintro ⟨x, hx⟩
        rw [hstod] at hx
        cases hx
  | ok x =>
      refine iff_of_true ?_ ⟨x, hstod⟩
      cases hold : z.memberScoreMap[member]? with
      | none => exact ⟨_, by simp only [ZSet.zincrby, hstod, hold]; rfl⟩
      | some old => exact ⟨_, by simp only [ZSet.zincrby, hstod, hold]; rfl⟩

theorem remByScore_ok_iff (min max : Bytes) (z : ZSet) :
    (∃ r, (remByScore F min max z).2 = .ok r) ↔ ∀ text ∈ [min, max], Parses F text := by
  rw [List.forall_mem_cons, List.forall_mem_singleton]
  cases hmin : F.stod min with
  | error e =>
      constructor
      · rintro ⟨r, hr⟩
        simp only [remByScore, ZSet.zremRangeByScore, hmin] at hr
        cases hr
      · rintro ⟨⟨x, hx⟩, -⟩
        rw [hmin] at hx
        cases hx
  | ok x =>
      cases hmax : F.stod max with
      | error e =>
          constructor
          · rintro ⟨r, hr⟩
            simp only [remByScore, ZSet.zremRangeByScore, hmin, hmax] at hr
            cases hr
          · rintro ⟨-, ⟨y, hy⟩⟩
            rw [hmax] at hy
            cases hy
      | ok y =>
          refine iff_of_true ?_ ⟨⟨x, hmin⟩, ⟨y, hmax⟩⟩
          cases hrem : z.zremRangeByScore F min max with
          | ok r => exact ⟨r.1, by simp only [remByScore, hrem]⟩
          | error e =>
              simp only [ZSet.zremRangeByScore, hmin, hmax] at hrem
              cases hrem

theorem takes_adder_iff {args : List Bytes} (hadds : type.adds = true)
    (halternative : type.alternative = some i) :
    Takes F now type args v ↔
      v.value.index = i ∧ ∀ text ∈ scoreTexts type args, Parses F text := by
  constructor
  · rintro ⟨htyped, hparses, -⟩
    refine ⟨?_, hparses (Or.inr hadds)⟩
    exact Option.some.inj ((htyped (Or.inr hadds)).trans halternative)
  · rintro ⟨hindex, hparses⟩
    refine ⟨fun _ => by rw [hindex, halternative], fun _ => hparses, fun htype => ?_⟩
    rw [htype] at hadds
    cases hadds

theorem takes_remover_iff {args : List Bytes} (hadds : type.adds = false) (hne : type ≠ .zIncrBy)
    (halternative : type.alternative = some i) :
    Takes F now type args v ↔ (v.isLive now = true →
      v.value.index = i ∧ ∀ text ∈ scoreTexts type args, Parses F text) := by
  have hlive : v.isLive now = true ∨ type.adds = true → v.isLive now = true := by
    rintro (h | h)
    · exact h
    · rw [hadds] at h
      cases h
  constructor
  · rintro ⟨htyped, hparses, -⟩ h
    refine ⟨?_, hparses (Or.inl h)⟩
    exact Option.some.inj ((htyped (Or.inl h)).trans halternative)
  · intro h
    refine ⟨fun hor => ?_, fun hor => (h (hlive hor)).2, fun htype => absurd htype hne⟩
    rw [(h (hlive hor)).1, halternative]

theorem accepts_zIncrBy_iff {increment member : Bytes} :
    (zIncrBy F increment member).Accepts now v ↔
      v.isLive now = true ∧ v.value.index = 4 ∧ Parses F increment := by
  simp only [ValueOp.Accepts, zIncrBy]
  cases hlive : v.isLive now with
  | false =>
      simp only [EValue.isLive_eq_false_iff.1 hlive, ↓reduceIte]
      constructor
      · rintro ⟨r, hr⟩
        cases hr
      · rintro ⟨h, -⟩
        cases h
  | true =>
      simp only [EValue.isLive_eq_true_iff.1 hlive, Bool.false_eq_true, ↓reduceIte, true_and]
      cases hget : zsets.getIf v.value with
      | none =>
          simp only [zincrbyIn, hget]
          constructor
          · rintro ⟨r, hr⟩
            cases hr
          · rintro ⟨hindex, -⟩
            exact absurd hindex (tagged_zsets.index_ne hget)
      | some z =>
          simp only [zincrbyIn, hget, tagged_zsets.index_eq hget, true_and]
          rw [← zincrby_ok_iff z member increment]
          cases z.zincrby F member increment with
          | ok r => exact iff_of_true ⟨_, rfl⟩ ⟨r, rfl⟩
          | error e =>
              constructor
              · rintro ⟨r, hr⟩
                cases hr
              · rintro ⟨r, hr⟩
                cases hr

/-- The callback of a request, if it has one, does not throw on the entry. -/
def Request.Accepts (now : Nat) (v : EValue) : Request → Prop
  | .update op _ => op.Accepts now v
  | .set _ _ _ => True
  | .remove _ => True
  | .expire _ _ => True
  | .range _ _ => True
  | .reject _ => True

theorem Request.accepts_call_iff {op : ValueOp ρ} {answer : ρ → Response} {key : Bytes} :
    (Request.call op answer key).Accepts now v ↔ op.Accepts now v :=
  exists_map_ok answer _

section Takers

variable {args : List Bytes} {answer : ρ → Response} {key : Bytes}

theorem takes_adder (htagged : c.Tagged i) (hadds : type.adds = true)
    (halternative : type.alternative = some i) {add : α → α × Result ρ}
    (hcan : ∀ a, (∃ r, (add a).2 = .ok r) ↔ ∀ text ∈ scoreTexts type args, Parses F text) :
    (Request.call (adder c type payload add) answer key).Accepts now v ↔
      Takes F now type args v := by
  rw [Request.accepts_call_iff, takes_adder_iff hadds halternative]
  exact accepts_adder_iff htagged hcan

theorem takes_remover (htagged : c.Tagged i) (hadds : type.adds = false) (hne : type ≠ .zIncrBy)
    (halternative : type.alternative = some i) {type' : OperationType} {nothing : ρ}
    {rem : α → α × Result ρ} {writes : α → Bool}
    (hcan : ∀ a, (∃ r, (rem a).2 = .ok r) ↔ ∀ text ∈ scoreTexts type args, Parses F text) :
    (Request.call (remover c type' payload nothing rem writes) answer key).Accepts now v ↔
      Takes F now type args v := by
  rw [Request.accepts_call_iff, takes_remover_iff hadds hne halternative]
  exact accepts_remover_iff htagged hcan

/-- A command without scores can always add or remove. -/
theorem can_of_no_scores {r : ρ} (h : scoreTexts type args = []) :
    (∃ r', (Except.ok r : Result ρ) = .ok r') ↔ ∀ text ∈ scoreTexts type args, Parses F text :=
  iff_of_true ⟨r, rfl⟩ fun text htext => by rw [h] at htext; cases htext

end Takers

/-- **What a command takes, from its arguments.** -/
theorem accepts_iff {args : List Bytes} {q : Request} (h : Calls F type args q)
    (hset : type ≠ .set) : q.Accepts now v ↔ Takes F now type args v := by
  cases h with
  | set => exact absurd rfl hset
  | sAdd => exact takes_adder tagged_sets rfl rfl fun _ => can_of_no_scores rfl
  | sRem => exact takes_remover tagged_sets rfl (by decide) rfl fun _ => can_of_no_scores rfl
  | zAdd key rest =>
      refine takes_adder tagged_zsets rfl rfl fun z => ?_
      exact (exists_map_ok _ _).trans (zaddAll_ok_iff (pairs rest) z)
  | zRem => exact takes_remover tagged_zsets rfl (by decide) rfl fun _ => can_of_no_scores rfl
  | zIncrBy key increment member rest =>
      rw [Request.accepts_call_iff, accepts_zIncrBy_iff]
      constructor
      · rintro ⟨hlive, hindex, hparses⟩
        refine ⟨fun _ => congrArg some hindex, fun _ text htext => ?_, fun _ => hlive⟩
        rw [List.mem_singleton.1 htext]
        exact hparses
      · rintro ⟨htyped, hparses, hlive⟩
        have hlive := hlive rfl
        exact ⟨hlive, Option.some.inj (htyped (Or.inl hlive)),
          hparses (Or.inl hlive) increment (List.mem_singleton.2 rfl)⟩
  | zRemByRank key start stop rest =>
      refine takes_remover tagged_zsets rfl (by decide) rfl fun z => ?_
      split
      · exact can_of_no_scores rfl
      · exact can_of_no_scores rfl
  | zRemByScore key min max rest =>
      -- The callback is that of the checked form; the branch below it plays no part here.
      have hchecked : (Request.call (zRemByScoreChecked F min max) Response.count key).Accepts
          now v ↔ Takes F now .zRemByScore (key :: min :: max :: rest) v :=
        takes_remover tagged_zsets rfl (by decide) rfl (remByScore_ok_iff min max)
      exact hchecked
  | lPush => exact takes_adder tagged_lists rfl rfl fun _ => can_of_no_scores rfl
  | rPush => exact takes_adder tagged_lists rfl rfl fun _ => can_of_no_scores rfl
  | lPop => exact takes_remover tagged_lists rfl (by decide) rfl fun _ => can_of_no_scores rfl
  | rPop => exact takes_remover tagged_lists rfl (by decide) rfl fun _ => can_of_no_scores rfl
  | lPopN _ _ _ _ htype =>
      rcases htype with rfl | rfl
      · exact takes_remover tagged_lists rfl (by decide) rfl fun _ => can_of_no_scores rfl
      · exact takes_remover tagged_lists rfl (by decide) rfl fun _ => can_of_no_scores rfl
  | rPopN _ _ _ _ htype =>
      rcases htype with rfl | rfl
      · exact takes_remover tagged_lists rfl (by decide) rfl fun _ => can_of_no_scores rfl
      · exact takes_remover tagged_lists rfl (by decide) rfl fun _ => can_of_no_scores rfl
  | hSet key rest =>
      have hexisting : (Request.call (hSetExisting (pairs rest)) Response.count key).Accepts now v ↔
          Takes F now .hSet (key :: rest) v :=
        takes_adder tagged_hashes rfl rfl fun _ => can_of_no_scores rfl
      exact hexisting
  | hDel => exact takes_remover tagged_hashes rfl (by decide) rfl fun _ => can_of_no_scores rfl
  | lPushString => exact takes_adder tagged_lists rfl rfl fun _ => can_of_no_scores rfl
  | rPushString => exact takes_adder tagged_lists rfl rfl fun _ => can_of_no_scores rfl
  | lPopNString => exact takes_remover tagged_lists rfl (by decide) rfl fun _ => can_of_no_scores rfl
  | rPopNString => exact takes_remover tagged_lists rfl (by decide) rfl fun _ => can_of_no_scores rfl

end Acceptance

section Answers

/-- An operation that answers with an error has neither changed the entry of the memtable nor
written a version. -/
structure ValueOp.Quiet (op : ValueOp Response) : Prop where
  inPlace : ∀ now v v' r, op.inPlace now v = (v', .ok r) → r.code = .error → v' = v
  fallback : ∀ o r w, op.fallback o = .ok (r, some w) → r.code ≠ .error

/-- The operation that a request calls is quiet. -/
def Request.Quiet : Request → Prop
  | .update op _ => op.Quiet
  | .set _ _ _ => True
  | .remove _ => True
  | .expire _ _ => True
  | .range _ _ => True
  | .reject _ => True

variable {α ρ : Type}

theorem ValueOp.Quiet.of_map {op : ValueOp ρ} {answer : ρ → Response}
    (hplace : ∀ now v r, (op.inPlace now v).2 = .ok r → (answer r).code = .error →
      (op.inPlace now v).1 = v)
    (hfallback : ∀ o r w, op.fallback o = .ok (r, some w) → (answer r).code ≠ .error) :
    (op.map answer).Quiet := by
  constructor
  · intro now v v' r h herror
    simp only [ValueOp.map, Prod.mk.injEq] at h
    obtain ⟨rfl, hr⟩ := h
    cases hresult : (op.inPlace now v).2 with
    | error e =>
        rw [hresult] at hr
        cases hr
    | ok s =>
        rw [hresult] at hr
        cases hr
        exact hplace now v s hresult herror
  · intro o r w h
    rw [ValueOp.fallback_map] at h
    cases hresult : op.fallback o with
    | error e =>
        rw [hresult] at h
        cases h
    | ok s =>
        rw [hresult] at h
        obtain ⟨s, u⟩ := s
        cases h
        exact hfallback o s w hresult

/-- An operation whose results are all answered as successes. -/
theorem Request.quiet_call {op : ValueOp ρ} {answer : ρ → Response} {key : Bytes}
    (h : ∀ r, (answer r).code = .success) : (Request.call op answer key).Quiet := by
  have hne : ∀ r, (answer r).code ≠ .error := by
    intro r herror
    rw [h r] at herror
    cases herror
  exact ValueOp.Quiet.of_map (fun _ _ r _ herror => absurd herror (hne r)) fun _ r _ _ => hne r

/-- A single pop answers with an error when there is nothing to pop. -/
theorem Request.quiet_pop {c : Container α} {type : OperationType} {payload key : Bytes}
    {rem : α → α × Result (Option Bytes)} {writes : α → Bool}
    (hnone : ∀ a, (rem a).2 = .ok none → (rem a).1 = a ∧ writes a = false) :
    (Request.call (remover c type payload none rem writes) popped key).Quiet := by
  have hpopped : ∀ r, (popped r).code = .error → r = none := by
    intro r h
    cases r with
    | none => rfl
    | some s => cases h
  refine ValueOp.Quiet.of_map (fun now v r hr herror => ?_) fun o r w hw herror => ?_
  · obtain rfl := hpopped r herror
    simp only [remover] at hr ⊢
    split
    · rfl
    · next hlive =>
        cases hget : c.getIf v.value with
        | none => rfl
        | some a =>
            simp only [hlive, hget, Bool.false_eq_true, ↓reduceIte] at hr
            simp only [(hnone a hr).1, c.wrap_getIf _ _ hget]
  · obtain rfl := hpopped r herror
    cases o with
    | none => cases hw
    | some v =>
        simp only [ValueOp.fallback, remover] at hw
        cases hget : c.getIf v.value with
        | none =>
            simp only [hget] at hw
            cases hw
        | some a =>
            simp only [hget] at hw
            cases hrem : (rem a).2 with
            | error e =>
                rw [hrem] at hw
                cases hw
            | ok r =>
                simp only [hrem, Except.map, Except.ok.injEq, Prod.mk.injEq] at hw
                obtain ⟨rfl, hw⟩ := hw
                rw [(hnone a hrem).2] at hw
                cases hw

theorem quiet_calls {F : FloatOps} {type : OperationType} {args : List Bytes} {q : Request}
    (h : Calls F type args q) : q.Quiet := by
  cases h with
  | set => trivial
  | lPop =>
      refine Request.quiet_pop fun dq h => ?_
      cases dq with
      | nil => exact ⟨rfl, rfl⟩
      | cons a dq => cases h
  | rPop =>
      refine Request.quiet_pop fun dq h => ?_
      cases dq with
      | nil => exact ⟨rfl, rfl⟩
      | cons a dq => cases List.getLast?_eq_none_iff.1 (Except.ok.inj h)
  | _ => exact Request.quiet_call fun _ => rfl

end Answers

namespace Storage

section Keys

variable {cfg : StorageConfig} {env : Env} {key : Bytes} {st st' : Storage}

/-- Two stores hold the same of a key: the same node in the memtable, with its value and its
sequence number, and the same newest version below it. -/
structure SameKey (key : Bytes) (st st' : Storage) : Prop where
  node : st'.memtable.table[key]? = st.memtable.table[key]?
  older : newest st'.olderLayers key = newest st.olderLayers key

theorem SameKey.entry (h : SameKey key st st') : st'.memtable.get key = st.memtable.get key := by
  rw [MemTable.get, MemTable.get, h.node]

/-- Every read of the key has the same result. -/
theorem SameKey.get (h : SameKey key st st') (now : Nat) : st'.get now key = st.get now key := by
  rw [get_eq, get_eq, h.entry, visible, visible, h.older]

/-- A flush of the memtable writes the same entry of the key. -/
theorem SameKey.flush (h : SameKey key st st') (v : EValue) :
    (key, v) ∈ st'.memtable.getAllEntries ↔ (key, v) ∈ st.memtable.getAllEntries := by
  rw [MemTable.mem_getAllEntries_iff, MemTable.mem_getAllEntries_iff, h.entry]

/-- A later operation on the key finds the same: its callback the same value, and the
branches behind the callback the same older version. -/
theorem SameKey.finds (h : SameKey key st st') (now : Nat) (f : ValueHandle) :
    (st'.memtable.handleValue key f).2 = (st.memtable.handleValue key f).2 ∧
      st'.getFromOld now key = st.getFromOld now key := by
  constructor
  · simp only [MemTable.handleValue, h.node]
    split
    · rfl
    · split
      · rfl
      · rfl
  · rw [getFromOld_eq, getFromOld_eq, visible, visible, h.older]

/-- The rotation of a memtable that has no entry of the key changes nothing for it. -/
theorem sameKey_rotate (hentry : st.memtable.table[key]? = none)
    (hnames : ∀ (name : Bytes) (imm : MemTable), st.immutableMemtables[name]? = some imm →
      compare name st.currentWalFilename = .lt) :
    SameKey key st (rotateMemtable cfg env st) := by
  constructor
  · rw [hentry]
    exact Std.ExtTreeMap.getElem?_empty
  · have holder : (rotateMemtable cfg env st).olderLayers = st.layers :=
      olderLayers_of_insert hnames rfl rfl
    rw [holder, layers, newest_cons, MemTable.get_eq_none_iff.2 hentry, Option.none_or]

end Keys

section Failures

variable {ρ : Type} {cfg : StorageConfig} {env : Env} {key : Bytes} {st : Storage}

/-- The branches of `handle` behind the callback. -/
def behind (cfg : StorageConfig) (env : Env) (op : ValueOp ρ) (key : Bytes) (st : Storage) :
    Storage × Result ρ :=
  match op.fallback (st.getFromOld env.now key) with
  | .ok (r, some value) =>
      match writeMemtable cfg env st key value with
      | (st', .ok _) => (st', .ok r)
      | (st', .error e) => (st', .error e)
  | .ok (r, none) => (st, .ok r)
  | .error e => (st, .error e)

theorem handle_of_none (op : ValueOp ρ) (h : st.memtable.table[key]? = none) :
    handle cfg env op key st = behind cfg env op key st := by
  have hhandle : ∀ f : ValueHandle,
      st.memtable.handleValue key f = (st.memtable, .error (.outOfRange "Key not found")) :=
    fun _ => MemTable.handleValue_of_none (MemTable.get_eq_none_iff.2 h)
  simp only [handle, hhandle]
  rfl

/-- The memtable after the callback on a node: its value is replaced, and a callback that has
thrown has changed the parity of the sequence number. -/
def withNode (st : Storage) (key : Bytes) (node : Node) : Storage :=
  { st with memtable := { st.memtable with table := st.memtable.table.insert key node } }

theorem node_withNode (node : Node) :
    (withNode st key node).memtable.table[key]? = some node := by
  simp only [withNode, Std.ExtTreeMap.getElem?_insert_self]

theorem handle_of_ok {op : ValueOp ρ} {node : Node} {v : EValue} {r : ρ}
    (hnode : st.memtable.table[key]? = some node)
    (hplace : op.inPlace env.now node.value = (v, .ok r)) :
    handle cfg env op key st = (withNode st key { node with value := v }, .ok r) := by
  simp only [handle, MemTable.handleValue, hnode, ValueOp.valueHandle, hplace, withNode]

/-- A callback that throws: an exception of the class `std::out_of_range` passes for a
missing entry, and the branches for one run. -/
theorem handle_of_error (cfg : StorageConfig) {op : ValueOp ρ} {node : Node} {v : EValue} {e : StdException}
    (hnode : st.memtable.table[key]? = some node)
    (hplace : op.inPlace env.now node.value = (v, .error e)) :
    handle cfg env op key st = (withNode st key ⟨v, !node.odd⟩, .error .exception) ∨
      handle cfg env op key st = behind cfg env op key (withNode st key ⟨v, !node.odd⟩) := by
  cases e with
  | outOfRange what =>
      refine Or.inr ?_
      simp only [handle, MemTable.handleValue, hnode, ValueOp.valueHandle, hplace]
      rfl
  | overflowError what | invalidArgument what | runtimeError what | badVariantAccess | exception =>
      refine Or.inl ?_
      simp only [handle, MemTable.handleValue, hnode, ValueOp.valueHandle, hplace, withNode]

/-- The client gets an error: a response of that kind, or one made of an exception. -/
def Failed : Result Response → Prop
  | .ok r => r.code = .error
  | .error _ => True

/-- Branches that end in an error leave the store as it is, or rotate its memtable and then
find that a fresh one is over its limit too. -/
theorem behind_of_failed {op : ValueOp Response} (hquiet : op.Quiet)
    (h : Failed (behind cfg env op key st).2) :
    (behind cfg env op key st).1 = st ∨
      (behind cfg env op key st).1 = rotateMemtable cfg env st := by
  rw [behind] at h ⊢
  cases hfallback : op.fallback (st.getFromOld env.now key) with
  | error e => exact Or.inl rfl
  | ok result =>
      obtain ⟨r, w⟩ := result
      cases w with
      | none => exact Or.inl rfl
      | some value =>
          have hcode := hquiet.fallback _ r value hfallback
          simp only [hfallback] at h ⊢
          rcases writeMemtable_cases cfg env st key value with
            ⟨-, -, hwrite⟩ | ⟨-, -, hwrite⟩ | ⟨-, hwrite⟩ | ⟨-, e, hwrite⟩
          · rw [hwrite] at h
            exact absurd h hcode
          · rw [hwrite] at h
            exact absurd h hcode
          · rw [hwrite] at h
            exact absurd h hcode
          · rw [hwrite]
            exact Or.inr rfl

/-- An operation that ends in an error leaves its key alone unless its callback throws. -/
theorem sameKey_handle_iff
    (hnames : ∀ (name : Bytes) (imm : MemTable), st.immutableMemtables[name]? = some imm →
      compare name st.currentWalFilename = .lt)
    {op : ValueOp Response} (hquiet : op.Quiet) (hfailed : Failed (handle cfg env op key st).2) :
    SameKey key st (handle cfg env op key st).1 ↔
      ∀ node, st.memtable.table[key]? = some node → op.Accepts env.now node.value := by
  cases hnode : st.memtable.table[key]? with
  | none =>
      rw [handle_of_none op hnode] at hfailed ⊢
      refine iff_of_true ?_ fun node h => by cases h
      rcases behind_of_failed hquiet hfailed with h | h
      · rw [h]
        exact ⟨rfl, rfl⟩
      · rw [h]
        exact sameKey_rotate hnode hnames
  | some node =>
      simp only [Option.some.injEq, forall_eq']
      cases hplace : op.inPlace env.now node.value with
      | mk v result =>
          cases result with
          | ok r =>
              rw [handle_of_ok hnode hplace] at hfailed ⊢
              obtain rfl := hquiet.inPlace _ _ _ _ hplace hfailed
              exact iff_of_true ⟨(node_withNode node).trans hnode.symm, rfl⟩ ⟨r, by rw [hplace]⟩
          | error e =>
              have hnot : ¬ op.Accepts env.now node.value := by
                rintro ⟨r, hr⟩
                rw [hplace] at hr
                cases hr
              refine iff_of_false (fun hsame => ?_) hnot
              -- The node has another parity now, or the key has no node in a fresh memtable.
              have hchanged : (⟨v, !node.odd⟩ : Node) ≠ node := by
                intro h
                have hodd := congrArg Node.odd h
                cases hcase : node.odd <;> simp [hcase] at hodd
              have hkept := hsame.node.trans hnode
              rcases handle_of_error cfg hnode hplace with h | h
              · rw [h, node_withNode] at hkept
                exact hchanged (Option.some.inj hkept)
              · rw [h] at hfailed hkept
                rcases behind_of_failed hquiet hfailed with h' | h'
                · rw [h', node_withNode] at hkept
                  exact hchanged (Option.some.inj hkept)
                · rw [h'] at hkept
                  exact absurd (hkept.symm.trans Std.ExtTreeMap.getElem?_empty) (by simp)

end Failures

section Commands

variable {cfg : StorageConfig} {env : Env} {F : FloatOps} {form : Overload} {readOnly : Bool}
  {type : OperationType} {key : Bytes} {rest : List Bytes} {st : Storage}

/-- `Storage::execute` in both forms, while the store is open. -/
def executeOf (cfg : StorageConfig) (env : Env) (F : FloatOps) (form : Overload) (readOnly : Bool)
    (type : WriteCommand) (args : List Bytes) (st : Storage) : Storage × Response :=
  if readOnly then (st, .error "read only") else perform cfg env st (requestOf F form type args)

/-- The commands on data structures call an operation on their first argument. -/
theorem update_of_calls {q : Request} (h : Calls F type (key :: rest) q)
    (hdata : type.alternative.isSome = true) : ∃ op, q = .update op key := by
  cases h with
  | set => cases hdata
  | _ => exact ⟨_, rfl⟩

/-- An operation that is performed ends in an error exactly when its client gets one. -/
theorem failed_of_perform {op : ValueOp Response}
    (h : (perform cfg env st (.update op key)).2.code = .error) :
    Failed (process cfg env false op key st).2 := by
  cases hresult : process cfg env false op key st with
  | mk st' result =>
      cases result with
      | error e => trivial
      | ok response =>
          simp only [perform, hresult] at h
          exact h

theorem perform_update (op : ValueOp Response) :
    (perform cfg env st (.update op key)).1 = (process cfg env false op key st).1 := by
  cases hresult : process cfg env false op key st with
  | mk st' result =>
      cases result with
      | error e => simp only [perform, hresult]
      | ok response => simp only [perform, hresult]

/-- **A command that ends in an error leaves its key untouched if and only if it does not come
to a callback that throws.** -/
theorem failed_sameKey_iff (hdata : type.alternative.isSome = true)
    (hnames : ∀ (name : Bytes) (imm : MemTable), st.immutableMemtables[name]? = some imm →
      compare name st.currentWalFilename = .lt)
    (hfailed : (executeOf cfg env F form readOnly (.logged type) (key :: rest) st).2.code = .error) :
    SameKey key st (executeOf cfg env F form readOnly (.logged type) (key :: rest) st).1 ↔
      readOnly = true ∨
      (∃ errorMsg, requestOf F form (.logged type) (key :: rest) = .reject errorMsg) ∨
      ∀ node, st.memtable.table[key]? = some node →
        Takes F env.now type (key :: rest) node.value := by
  cases readOnly with
  | true => exact iff_of_true ⟨rfl, rfl⟩ (Or.inl rfl)
  | false =>
      have hne : type ≠ .remove ∧ type ≠ .expire ∧ type ≠ .set := by
        refine ⟨?_, ?_, ?_⟩ <;> rintro rfl <;> cases hdata
      simp only [executeOf, Bool.false_eq_true, ↓reduceIte, false_or] at hfailed ⊢
      rcases issued_requestOf F form (key :: rest) hne.1 hne.2.1 with ⟨errorMsg, hq⟩ | hcalls
      · rw [hq]
        exact iff_of_true ⟨rfl, rfl⟩ (Or.inl ⟨errorMsg, rfl⟩)
      · obtain ⟨op, hq⟩ := update_of_calls hcalls hdata
        have htakes : ∀ v, op.Accepts env.now v ↔ Takes F env.now type (key :: rest) v := by
          intro v
          rw [← accepts_iff hcalls hne.2.2, hq]
          exact Iff.rfl
        have hquiet : op.Quiet := by
          have h := quiet_calls hcalls
          rw [hq] at h
          exact h
        rw [hq] at hfailed ⊢
        -- Logging comes first, and no part of the key's state is in the log.
        have hsame : SameKey key st (perform cfg env st (.update op key)).1 ↔
            ∀ node, st.memtable.table[key]? = some node → op.Accepts env.now node.value := by
          have hfailed' := failed_of_perform hfailed
          rw [perform_update]
          rw [process] at hfailed' ⊢
          rcases logRecord_cases cfg false op.type key op.payload st with hlog | hlog
          · rw [hlog] at hfailed' ⊢
            exact sameKey_handle_iff hnames hquiet hfailed'
          · rw [hlog] at hfailed' ⊢
            have hlogged := @sameKey_handle_iff cfg env key
              { st with wal := (st.wal.appendLog op.type key op.payload).2 } hnames op hquiet hfailed'
            refine Iff.trans ⟨fun h => ?_, fun h => ?_⟩ hlogged
            · exact ⟨h.node, h.older⟩
            · exact ⟨h.node, h.older⟩
        simp only [hsame, htakes, reduceCtorEq, exists_false, false_or]

/-- The store after LPUSH of the value `a` to the key `k`. -/
def pushed : Storage :=
  (executeOf roomyConfig (tick 2) noFloats .stringView false (.logged .lPush) [[107], [97]]
    (openEmpty roomyConfig (tick 1))).1

/-- SADD on the list is refused, and afterwards the list reads as an empty string. -/
theorem get_after_failed :
    (executeOf roomyConfig (tick 3) noFloats .stringView false (.logged .sAdd) [[107], [98]]
      pushed).2 = .error "std::exception" ∧
    pushed.get 0 [107] = some (.deque [[97]]) ∧
    (executeOf roomyConfig (tick 3) noFloats .stringView false (.logged .sAdd) [[107], [98]]
      pushed).1.get 0 [107] = some (.string []) := by
  decide

/-- The same list in an immutable memtable, under the one file name of the store. -/
def pushedBelow : Storage := rotateMemtable roomyConfig (tick 3) pushed

theorem failed_sameKey_rotated :
    SameKey [107] pushedBelow (executeOf roomyConfig (tick 4) noFloats .stringView false
      (.logged .sAdd) [[107], [98]] pushedBelow).1 := by
  have hnames : ∀ e ∈ pushedBelow.immutableMemtables.toList,
      compare e.1 pushedBelow.currentWalFilename = .lt := by decide
  have hentry : pushedBelow.memtable.table[([107] : Bytes)]? = none := by decide
  refine (failed_sameKey_iff rfl (fun name imm h => ?_) (by decide)).2 (Or.inr (Or.inr ?_))
  · exact hnames (name, imm) (Std.ExtTreeMap.mem_toList_iff_getElem?_eq_some.2 h)
  · intro node hnode
    rw [hentry] at hnode
    cases hnode

end Commands

end Storage

end EyaKV.Store
