import EyaKV.Store.Failures
import EyaKV.Store.Replay

/-!
# Where a value sits

The value of a key can sit in the memtable, in an immutable memtable or in an SSTable, and an
absent key can have no entry, a tombstone or an expired entry. A command should not tell these
apart: its effect, which is the response and the logical value that it leaves, should be a
function of the logical value that it finds (`LocationIndependent`).

`locationIndependent_iff` says for which commands, arguments and logical values that is so. On
an absent key only the commands that remove elements keep to it: a dead entry of the memtable
still has a type, and EXPIRE accepts it. On a live value a command keeps to it when its callback
takes the value; otherwise the callback throws a sliced exception and spoils the node, where
the branch for an older version answers with the message and changes nothing.
-/

set_option autoImplicit false

namespace EyaKV.Store

open EyaKV.Base EyaKV.Base.Layers

section Shapes

variable {α ρ σ : Type} {F : FloatOps} {type : OperationType} {args : List Bytes}

/-- A command that writes nothing for the live value `v`: a pop from an empty list, or a
removal of an empty range of ranks. -/
def NothingToWrite : OperationType → List Bytes → EValue → Prop
  | .lPop, [_], v => v.value = .deque []
  | .rPop, [_], v => v.value = .deque []
  | .zRemByRank, _ :: start :: stop :: _, v => ∃ z s e, v.value = .zset z ∧
      stoll start = .ok s ∧ stoll stop = .ok e ∧
        (adjustRanks z.zcard s e).2 < (adjustRanks z.zcard s e).1
  | _, _, _ => False

/-- All the scores among the arguments are parsed. -/
def AllParse (F : FloatOps) (type : OperationType) (args : List Bytes) : Prop :=
  ∀ text ∈ scoreTexts type args, Parses F text

/-- How the bodies of a command treat the values that they do not take, and when they write. -/
structure ValueOp.Shaped (F : FloatOps) (type : OperationType) (args : List Bytes)
    (op : ValueOp ρ) : Prop where
  wrongEntry : ∀ now v, v.isLive now = true ∨ type.adds = true →
    some v.value.index ≠ type.alternative →
      ∃ v' text, op.inPlace now v = (v', .error (.runtimeError text))
  wrongOld : ∀ v, some v.value.index ≠ type.alternative →
    ∃ e, op.onOld v = .error e ∧ e.what ≠ "std::exception"
  unparsed : ¬ AllParse F type args → type.alternative = some 4 ∧
    (∀ r w, op.onMissing ≠ .ok (r, some w)) ∧
      ∀ v, some v.value.index = type.alternative → ∃ e, op.onOld v = .error e
  adds : type.adds = true → ∀ r, op.onMissing ≠ .ok (r, none)
  removes : type.adds = false → ∀ r w, op.onMissing ≠ .ok (r, some w)
  increments : type = .zIncrBy → op.onMissing = .error (.runtimeError "key not be found") ∧
    ∀ now v, v.isLive now = false →
      op.inPlace now v = (v, .error (.runtimeError "key not be found"))
  writes : AllParse F type args → ∀ v, some v.value.index = type.alternative →
    ((∃ r w, op.onOld v = .ok (r, some w)) ↔ ¬ NothingToWrite type args v)

theorem map_eq_ok_iff (f : ρ → σ) (outcome : Result (ρ × Option EValue)) (w : Option EValue) :
    (∃ r, (outcome.map fun r => (f r.1, r.2)) = .ok (r, w)) ↔ ∃ r, outcome = .ok (r, w) := by
  cases outcome with
  | error e =>
      constructor
      · rintro ⟨r, hr⟩
        cases hr
      · rintro ⟨r, hr⟩
        cases hr
  | ok p =>
      obtain ⟨r, u⟩ := p
      constructor
      · rintro ⟨r', hr⟩
        cases hr
        exact ⟨r, rfl⟩
      · rintro ⟨r', hr⟩
        cases hr
        exact ⟨f r, rfl⟩

/-- The answer to the client plays no part in the shape. -/
theorem ValueOp.Shaped.map {op : ValueOp ρ} (f : ρ → σ) (h : op.Shaped F type args) :
    (op.map f).Shaped F type args := by
  have herror : ∀ {outcome : Result (ρ × Option EValue)} {e : StdException}, outcome = .error e →
      (outcome.map fun r => (f r.1, r.2)) = .error e := by
    rintro outcome e rfl
    rfl
  have hmissing : ∀ w : Option EValue, (∀ r, op.onMissing ≠ .ok (r, w)) →
      ∀ r, (op.map f).onMissing ≠ .ok (r, w) := by
    intro w hne r hr
    obtain ⟨r', hr'⟩ := (map_eq_ok_iff f op.onMissing w).1 ⟨r, hr⟩
    exact hne r' hr'
  refine ⟨?_, ?_, ?_, ?_, ?_, ?_, ?_⟩
  · intro now v hor hne
    obtain ⟨v', text, hplace⟩ := h.wrongEntry now v hor hne
    exact ⟨v', text, by simp only [ValueOp.map, hplace, Except.map]⟩
  · intro v hne
    obtain ⟨e, he, hwhat⟩ := h.wrongOld v hne
    exact ⟨e, herror he, hwhat⟩
  · intro hnot
    obtain ⟨halternative, hnone, hold⟩ := h.unparsed hnot
    refine ⟨halternative, fun r w => hmissing (some w) (fun r => hnone r w) r, fun v hv => ?_⟩
    obtain ⟨e, he⟩ := hold v hv
    exact ⟨e, herror he⟩
  · exact fun hadds => hmissing none (h.adds hadds)
  · exact fun hadds r w => hmissing (some w) (fun r => h.removes hadds r w) r
  · intro htype
    obtain ⟨hnone, hdead⟩ := h.increments htype
    refine ⟨herror hnone, fun now v hv => ?_⟩
    simp only [ValueOp.map, hdead now v hv, Except.map]
  · intro hparse v hv
    rw [← h.writes hparse v hv]
    constructor
    · rintro ⟨r, w, hr⟩
      obtain ⟨r', hr'⟩ := (map_eq_ok_iff f (op.onOld v) (some w)).1 ⟨r, hr⟩
      exact ⟨r', w, hr'⟩
    · rintro ⟨r, w, hr⟩
      obtain ⟨r', hr'⟩ := (map_eq_ok_iff f (op.onOld v) (some w)).2 ⟨r, hr⟩
      exact ⟨r', w, hr'⟩

variable {c : Container α} {i : Fin 5} {payload : Bytes}

theorem Container.Tagged.getIf_none (htagged : c.Tagged i)
    (halternative : type.alternative = some i) {v : EValue}
    (hv : some v.value.index ≠ type.alternative) : c.getIf v.value = none := by
  cases hget : c.getIf v.value with
  | none => rfl
  | some a => exact absurd (by rw [htagged.index_eq hget, halternative]) hv

theorem Container.Tagged.getIf_some (htagged : c.Tagged i)
    (halternative : type.alternative = some i) {v : EValue}
    (hv : some v.value.index = type.alternative) : ∃ a, c.getIf v.value = some a := by
  rw [halternative, Option.some.injEq, ← htagged.getIf] at hv
  exact Option.isSome_iff_exists.1 hv

theorem shaped_adder (htagged : c.Tagged i) (halternative : type.alternative = some i)
    (hadds : type.adds = true) (hwhat : c.wrongType ≠ "std::exception")
    {add : α → α × Result ρ} (hcan : ∀ a, (∃ r, (add a).2 = .ok r) ↔ AllParse F type args)
    (hscores : ¬ AllParse F type args → i = 4) (hwrites : ∀ v, ¬ NothingToWrite type args v) :
    (adder c type payload add).Shaped F type args := by
  -- an argument that does not parse is an error on every value, present or not
  have herror : ∀ a, ¬ AllParse F type args → ∃ e, (add a).2 = .error e := by
    intro a hnot
    cases hadd : (add a).2 with
    | ok r => exact absurd ((hcan a).1 ⟨r, hadd⟩) hnot
    | error e => exact ⟨e, rfl⟩
  refine ⟨?_, ?_, ?_, ?_, ?_, ?_, ?_⟩
  · intro now v _ hv
    exact ⟨v, c.wrongType, by simp only [adder, htagged.getIf_none halternative hv]⟩
  · intro v hv
    exact ⟨.runtimeError c.wrongType, by simp only [adder, htagged.getIf_none halternative hv], hwhat⟩
  · intro hnot
    refine ⟨by rw [halternative, hscores hnot], fun r w hr => ?_, fun v hv => ?_⟩
    · obtain ⟨e, he⟩ := herror c.empty hnot
      simp only [adder, he] at hr
      cases hr
    · obtain ⟨a, ha⟩ := htagged.getIf_some halternative hv
      obtain ⟨e, he⟩ := herror a hnot
      exact ⟨e, by simp only [adder, ha, he, Except.map]⟩
  · intro _ r hr
    simp only [adder] at hr
    cases hadd : (add c.empty).2 with
    | ok r' =>
        rw [hadd] at hr
        cases hr
    | error e =>
        rw [hadd] at hr
        cases hr
  · intro h
    rw [hadds] at h
    cases h
  · intro htype
    rw [htype] at hadds
    cases hadds
  · intro hparse v hv
    obtain ⟨a, ha⟩ := htagged.getIf_some halternative hv
    obtain ⟨r, hr⟩ := (hcan a).2 hparse
    exact iff_of_true ⟨r, { v with value := c.wrap (add a).1 }, by
      simp only [adder, ha, hr, Except.map]⟩ (hwrites v)

theorem shaped_remover (htagged : c.Tagged i) (halternative : type.alternative = some i)
    (hadds : type.adds = false) (hincr : type ≠ .zIncrBy) (hwhat : c.wrongType ≠ "std::exception")
    {type' : OperationType} {nothing : ρ} {rem : α → α × Result ρ} {writes : α → Bool}
    (hcan : ∀ a, (∃ r, (rem a).2 = .ok r) ↔ AllParse F type args)
    (hscores : ¬ AllParse F type args → i = 4)
    (hwrites : ∀ v a, c.getIf v.value = some a →
      (writes a = true ↔ ¬ NothingToWrite type args v)) :
    (remover c type' payload nothing rem writes).Shaped F type args := by
  have hmissing : ∀ r w,
      (remover c type' payload nothing rem writes).onMissing ≠ .ok (r, some w) := by
    intro r w hr
    cases hr
  refine ⟨?_, ?_, ?_, ?_, fun _ => hmissing, fun htype => absurd htype hincr, ?_⟩
  · rintro now v (hlive | h) hv
    · refine ⟨v, c.wrongType, ?_⟩
      simp only [remover, EValue.isLive_eq_true_iff.1 hlive, Bool.false_eq_true, ↓reduceIte,
        htagged.getIf_none halternative hv]
    · rw [hadds] at h
      cases h
  · intro v hv
    exact ⟨.runtimeError c.wrongType, by simp only [remover, htagged.getIf_none halternative hv], hwhat⟩
  · intro hnot
    refine ⟨by rw [halternative, hscores hnot], hmissing, fun v hv => ?_⟩
    obtain ⟨a, ha⟩ := htagged.getIf_some halternative hv
    cases hrem : (rem a).2 with
    | ok r => exact absurd ((hcan a).1 ⟨r, hrem⟩) hnot
    | error e => exact ⟨e, by simp only [remover, ha, hrem, Except.map]⟩
  · intro h
    rw [hadds] at h
    cases h
  · intro hparse v hv
    obtain ⟨a, ha⟩ := htagged.getIf_some halternative hv
    obtain ⟨r, hr⟩ := (hcan a).2 hparse
    rw [← hwrites v a ha]
    simp only [remover, ha, hr, Except.map]
    cases writes a with
    | true => exact iff_of_true ⟨r, _, rfl⟩ rfl
    | false =>
        refine iff_of_false ?_ Bool.false_ne_true
        rintro ⟨r', w, hw⟩
        cases hw

theorem absurd_scores (hscores : scoreTexts type args = []) (hnot : ¬ AllParse F type args) :
    i = 4 := by
  refine absurd (fun text htext => ?_) hnot
  rw [hscores] at htext
  cases htext

/-- An adder without scores. -/
theorem shaped_adder_plain (htagged : c.Tagged i) (halternative : type.alternative = some i)
    (hadds : type.adds = true) (hwhat : c.wrongType ≠ "std::exception")
    (hscores : scoreTexts type args = []) {add : α → α × Result ρ}
    (hok : ∀ a, ∃ r, (add a).2 = .ok r) (hwrites : ∀ v, ¬ NothingToWrite type args v) :
    (adder c type payload add).Shaped F type args :=
  shaped_adder htagged halternative hadds hwhat
    (fun a => iff_of_true (hok a) fun text htext => by rw [hscores] at htext; cases htext)
    (absurd_scores hscores) hwrites

/-- A remover without scores. -/
theorem shaped_remover_plain (htagged : c.Tagged i) (halternative : type.alternative = some i)
    (hadds : type.adds = false) (hincr : type ≠ .zIncrBy) (hwhat : c.wrongType ≠ "std::exception")
    (hscores : scoreTexts type args = []) {type' : OperationType} {nothing : ρ}
    {rem : α → α × Result ρ} {writes : α → Bool} (hok : ∀ a, ∃ r, (rem a).2 = .ok r)
    (hwrites : ∀ v a, c.getIf v.value = some a →
      (writes a = true ↔ ¬ NothingToWrite type args v)) :
    (remover c type' payload nothing rem writes).Shaped F type args :=
  shaped_remover htagged halternative hadds hincr hwhat
    (fun a => iff_of_true (hok a) fun text htext => by rw [hscores] at htext; cases htext)
    (absurd_scores hscores) hwrites

/-- The operations whose bodies differ between a missing key and an empty container. -/
theorem shaped_hSet (fieldValues : List (Bytes × Bytes)) :
    (hSet fieldValues).Shaped F .hSet args := by
  have h : (hSetExisting fieldValues).Shaped F .hSet args :=
    shaped_adder tagged_hashes rfl rfl (by decide) (fun _ => can_of_no_scores rfl)
      (fun hnot => absurd (fun text htext => by cases htext) hnot) fun _ => id
  refine ⟨h.wrongEntry, h.wrongOld, fun hnot => ?_, fun _ r hr => ?_, fun hadds => ?_, fun htype => ?_,
    h.writes⟩
  · exact absurd (fun text htext => by cases htext) hnot
  · cases hr
  · cases hadds
  · cases htype

theorem shaped_zRemByScore (key min max : Bytes) (rest : List Bytes) :
    (zRemByScore F min max).Shaped F .zRemByScore (key :: min :: max :: rest) := by
  have h : (zRemByScoreChecked F min max).Shaped F .zRemByScore (key :: min :: max :: rest) :=
    shaped_remover tagged_zsets rfl rfl (by decide) (by decide) (remByScore_ok_iff min max)
      (fun _ => rfl) fun _ _ _ => iff_of_true rfl id
  have hsame : ∀ {v : EValue} {z : ZSet}, zsets.getIf v.value = some z →
      (zRemByScore F min max).onOld v = (zRemByScoreChecked F min max).onOld v := by
    intro v z hz
    simp only [zRemByScore, zRemByScoreChecked, remover, hz, ↓reduceIte, wrap_zsets]
  have halternative : OperationType.zRemByScore.alternative = some 4 := rfl
  refine ⟨h.wrongEntry, fun v hv => ?_, fun hnot => ?_, h.adds, h.removes, h.increments, ?_⟩
  · refine ⟨.badVariantAccess, ?_, by decide⟩
    simp only [zRemByScore, tagged_zsets.getIf_none halternative hv]
  · obtain ⟨hnone, hmissing, hold⟩ := h.unparsed hnot
    refine ⟨hnone, hmissing, fun v hv => ?_⟩
    obtain ⟨z, hz⟩ := tagged_zsets.getIf_some halternative hv
    rw [hsame hz]
    exact hold v hv
  · intro hparse v hv
    obtain ⟨z, hz⟩ := tagged_zsets.getIf_some halternative hv
    rw [hsame hz]
    exact h.writes hparse v hv

theorem shaped_zIncrBy (key increment member : Bytes) (rest : List Bytes) :
    (zIncrBy F increment member).Shaped F .zIncrBy (key :: increment :: member :: rest) := by
  have hparse : AllParse F .zIncrBy (key :: increment :: member :: rest) ↔ Parses F increment := by
    simp only [AllParse, scoreTexts, List.forall_mem_singleton]
  have hwrong : ∀ {v : EValue}, some v.value.index ≠ OperationType.zIncrBy.alternative →
      zincrbyIn F increment member v = .error (.runtimeError zsets.wrongType) := by
    intro v hv
    have hget := tagged_zsets.getIf_none (c := zsets) rfl hv
    simp only [zincrbyIn, hget]
  refine ⟨?_, ?_, ?_, ?_, ?_, ?_, ?_⟩
  · rintro now v (hlive | h) hv
    · refine ⟨v, zsets.wrongType, ?_⟩
      simp only [zIncrBy, EValue.isLive_eq_true_iff.1 hlive, Bool.false_eq_true, ↓reduceIte,
        hwrong hv]
    · cases h
  · intro v hv
    refine ⟨.runtimeError zsets.wrongType, ?_, by decide⟩
    simp only [zIncrBy, hwrong hv, Except.map]
  · intro hnot
    rw [hparse] at hnot
    refine ⟨rfl, fun r w hr => ?_, fun v hv => ?_⟩
    · cases hr
    · obtain ⟨z, hz⟩ := tagged_zsets.getIf_some (c := zsets) rfl hv
      cases hincr : z.zincrby F member increment with
      | ok r => exact absurd ((zincrby_ok_iff z member increment).1 ⟨r, hincr⟩) hnot
      | error e => exact ⟨e, by simp only [zIncrBy, zincrbyIn, hz, hincr, Except.map]⟩
  · intro h
    cases h
  · intro _ r w hr
    cases hr
  · intro _
    refine ⟨rfl, fun now v hv => ?_⟩
    simp only [zIncrBy, EValue.isLive_eq_false_iff.1 hv, ↓reduceIte]
  · intro h v hv
    rw [hparse] at h
    obtain ⟨z, hz⟩ := tagged_zsets.getIf_some (c := zsets) rfl hv
    obtain ⟨r, hr⟩ := (zincrby_ok_iff z member increment).2 h
    refine iff_of_true ?_ id
    simp only [zIncrBy, zincrbyIn, hz, hr, Except.map]
    exact ⟨_, _, rfl⟩

/-- The operation that a request calls has the shape of its command. -/
def Request.Shaped (F : FloatOps) (type : OperationType) (args : List Bytes) : Request → Prop
  | .update op _ => op.Shaped F type args
  | .set _ _ _ => True
  | .remove _ => True
  | .expire _ _ => True
  | .range _ _ => True
  | .reject _ => True

theorem shaped_calls {q : Request} (h : Calls F type args q) : q.Shaped F type args := by
  have halways : ∀ {p : Prop}, ¬ p → (true = true ↔ ¬ p) := fun hp => iff_of_true rfl hp
  have hempty : ∀ (v : EValue) (dq : List Bytes), lists.getIf v.value = some dq →
      ((!dq.isEmpty) = true ↔ ¬ v.value = .deque []) := by
    intro v dq hdq
    rw [← lists.wrap_getIf _ _ hdq]
    cases dq with
    | nil => exact iff_of_false Bool.false_ne_true fun h => h rfl
    | cons a dq => exact iff_of_true rfl fun h => by cases h
  cases h with
  | set => trivial
  | sAdd =>
      exact (shaped_adder_plain tagged_sets rfl rfl (by decide) rfl (fun _ => ⟨_, rfl⟩)
        fun _ => id).map _
  | sRem =>
      exact (shaped_remover_plain tagged_sets rfl rfl (by decide) (by decide) rfl
        (fun _ => ⟨_, rfl⟩) fun _ _ _ => halways id).map _
  | zAdd key rest =>
      refine (shaped_adder tagged_zsets rfl rfl (by decide) (fun z => ?_) (fun _ => rfl)
        fun _ => id).map _
      exact (exists_map_ok _ _).trans (zaddAll_ok_iff (pairs rest) z)
  | zRem =>
      exact (shaped_remover_plain tagged_zsets rfl rfl (by decide) (by decide) rfl
        (fun _ => ⟨_, rfl⟩) fun _ _ _ => halways id).map _
  | zIncrBy key increment member rest => exact (shaped_zIncrBy key increment member rest).map _
  | @zRemByRank key start stop rest s e hs he =>
      refine (shaped_remover_plain tagged_zsets rfl rfl (by decide) (by decide) rfl (fun z => ?_)
        fun v z hz => ?_).map _
      · split
        · exact ⟨_, rfl⟩
        · exact ⟨_, rfl⟩
      · -- The ranks are compared before anything is removed.
        have hv : v.value = .zset z := (zsets.wrap_getIf _ _ hz).symm
        rw [decide_eq_true_iff, ← Int.not_lt]
        refine not_congr ⟨fun h => ⟨z, s, e, hv, hs, he, h⟩, ?_⟩
        rintro ⟨z', s', e', hv', hs', he', h⟩
        obtain rfl := EyaValue.zset.inj (hv.symm.trans hv')
        obtain rfl := Except.ok.inj (hs.symm.trans hs')
        obtain rfl := Except.ok.inj (he.symm.trans he')
        exact h
  | zRemByScore key min max rest => exact (shaped_zRemByScore key min max rest).map _
  | lPush | rPush | lPushString | rPushString =>
      exact (shaped_adder_plain (c := lists) tagged_lists rfl rfl (by decide) rfl
        (fun _ => ⟨_, rfl⟩) fun _ => id).map _
  | lPop | rPop =>
      exact (shaped_remover_plain tagged_lists rfl rfl (by decide) (by decide) rfl
        (fun _ => ⟨_, rfl⟩) hempty).map _
  | lPopN type key n rest htype =>
      rcases htype with rfl | rfl
      · exact (shaped_remover_plain tagged_lists rfl rfl (by decide) (by decide) rfl
          (fun _ => ⟨_, rfl⟩) fun _ _ _ => halways id).map _
      · exact (shaped_remover_plain tagged_lists rfl rfl (by decide) (by decide) rfl
          (fun _ => ⟨_, rfl⟩) fun _ _ _ => halways id).map _
  | rPopN type key n rest htype =>
      rcases htype with rfl | rfl
      · exact (shaped_remover_plain tagged_lists rfl rfl (by decide) (by decide) rfl
          (fun _ => ⟨_, rfl⟩) fun _ _ _ => halways id).map _
      · exact (shaped_remover_plain tagged_lists rfl rfl (by decide) (by decide) rfl
          (fun _ => ⟨_, rfl⟩) fun _ _ _ => halways id).map _
  | hSet key rest => exact (shaped_hSet (pairs rest)).map _
  | hDel =>
      exact (shaped_remover_plain tagged_hashes rfl rfl (by decide) (by decide) rfl
        (fun _ => ⟨_, rfl⟩) fun _ _ _ => halways id).map _
  | lPopNString | rPopNString =>
      exact (shaped_remover_plain tagged_lists rfl rfl (by decide) (by decide) rfl
        (fun _ => ⟨_, rfl⟩) fun _ _ _ => halways id).map _

end Shapes

namespace Storage

variable {cfg : StorageConfig} {env : Env} {F : FloatOps} {form : Overload} {readOnly : Bool}
  {type : OperationType} {key : Bytes} {rest : List Bytes} {st : Storage}

section Effects

/-- What a request does for its key: the response, and the logical value that it leaves. -/
def effect (cfg : StorageConfig) (env : Env) (q : Request) (key : Bytes) (st : Storage) :
    Response × Option EValue :=
  ((perform cfg env st q).2, (perform cfg env st q).1.live env.now key)

/-- What an outcome amounts to when it is the outcome for the logical value `value`. -/
def effectOn (now : Nat) (outcome : Result (Response × Option EValue)) (value : Option EValue) :
    Response × Option EValue :=
  (respond outcome,
    match written outcome with
    | some w => (some w).filter (EValue.isLive now)
    | none => value)

/-- What a change of the expiry amounts to. -/
def expireOn (now : Nat) (t : UInt64) : Option EValue → Response × Option EValue
  | some v => (.success (.string [49]), (some (withExpiry v.value t)).filter (EValue.isLive now))
  | none => (.error "key not found", none)

theorem live_afterWrite (now : Nat) (versions : Bytes → Option EValue) (key : Bytes)
    (outcome : Result (Response × Option EValue)) :
    (afterWrite versions key outcome key).filter (EValue.isLive now) =
      (effectOn now outcome ((versions key).filter (EValue.isLive now))).2 := by
  cases outcome with
  | error e => rfl
  | ok result =>
      obtain ⟨r, w⟩ := result
      cases w with
      | none => rfl
      | some w => simp only [afterWrite, effectOn, written, Function.update_self]

/-- An operation that is coherent on the entry of the memtable has the effect that it has on
the same value anywhere else. -/
theorem effect_update (env : Env) (key : Bytes) (op : ValueOp Response) (hinv : Inv cfg st)
    (hroom : ∀ r w, op.fallback (st.live env.now key) = .ok (r, some w) →
      st.Full env → Fits cfg env)
    (hcoherent : ∀ v, st.memtable.get key = some v → op.Coherent env.now v) :
    effect cfg env (.update op key) key st =
      effectOn env.now (op.fallback (st.live env.now key)) (st.live env.now key) := by
  obtain ⟨st', hprocess, -, hnew, -⟩ := process_spec hinv false op hroom hcoherent
  have hlive : st'.live env.now key =
      (effectOn env.now (op.fallback (st.live env.now key)) (st.live env.now key)).2 := by
    rw [live, hnew]
    exact live_afterWrite _ _ _ _
  refine Prod.ext ?_ ?_
  · simp only [effect, perform, hprocess]
    cases hfallback : op.fallback (st.live env.now key) with
    | ok r =>
        rw [live] at hfallback
        simp only [hfallback, Except.map]
        rfl
    | error e =>
        rw [live] at hfallback
        simp only [hfallback, Except.map]
        rfl
  · rw [← hlive]
    simp only [effect, perform_update, hprocess]

/-- On a key whose entry in the memtable is alive, if it has one, a change of the expiry is a
function of the logical value. -/
theorem effect_expire (env : Env) (key : Bytes) (hinv : Inv cfg st) (hroom : st.Full env → Fits cfg env)
    (hentry : ∀ v, st.memtable.get key = some v → v.isLive env.now = true) (aliveTime : UInt64) :
    effect cfg env (.expire key aliveTime) key st =
      expireOn env.now (expiryAt env.now aliveTime) (st.live env.now key) := by
  obtain ⟨hlogged, hsame⟩ := logRecord_spec hinv false .expire key
    (decimal (expiryAt env.now aliveTime).toNat)
  obtain ⟨st', -, -, hexpire⟩ := setKeyExpire_of_live hlogged
    (by rw [Full, hsame.memtable]; exact hroom) (by rw [hsame.memtable]; exact hentry)
    (expiryAt env.now aliveTime)
  have hlive : (logRecord cfg false .expire key (decimal (expiryAt env.now aliveTime).toNat)
      st).live env.now key = st.live env.now key := by
    rw [live, hsame.newestOf, live]
  have hset := setExpire_eq cfg env st key aliveTime
  rw [hlive] at hexpire
  cases hvalue : st.live env.now key with
  | none =>
      simp only [hvalue] at hexpire
      have hafter : st'.live env.now key = none := by
        rw [live, hexpire.2, hsame.newestOf]
        exact hvalue
      simp only [effect, perform, hset, hexpire.1, hafter, expireOn]
      rfl
  | some v =>
      simp only [hvalue] at hexpire
      simp only [effect, perform, hset, hexpire.1, expireOn, live, hexpire.2, Function.update_self]

end Effects

section Throwing

variable {op : ValueOp Response} {v v' : EValue}

/-- The memtable after a callback that has thrown on an even node: it reads as the default. -/
theorem live_withNode (now : Nat) : (withNode st key ⟨v', !false⟩).live now key = some default := by
  have hget : (withNode st key ⟨v', !false⟩).memtable.get key = some default := by
    rw [MemTable.get, node_withNode]
    rfl
  rw [live, newestOf_eq, hget]
  rfl

/-- A callback that throws a `std::runtime_error`: the client gets a sliced exception, and the
key reads as the default value. -/
theorem effect_of_throws {text : String} (hnode : st.memtable.table[key]? = some ⟨v, false⟩)
    (hplace : op.inPlace env.now v = (v', .error (.runtimeError text))) :
    effect cfg env (.update op key) key st = (.error "std::exception", some default) := by
  have hhandle : ∀ {st : Storage}, st.memtable.table[key]? = some ⟨v, false⟩ →
      handle cfg env op key st = (withNode st key ⟨v', !false⟩, .error .exception) := by
    intro st hnode
    simp only [handle, MemTable.handleValue, hnode, ValueOp.valueHandle, hplace, withNode]
  have hprocess : ∃ st', process cfg env false op key st =
      (withNode st' key ⟨v', !false⟩, .error .exception) := by
    rw [process]
    rcases logRecord_cases cfg false op.type key op.payload st with hlog | hlog
    · rw [hlog]
      exact ⟨st, hhandle hnode⟩
    · rw [hlog]
      exact ⟨_, hhandle hnode⟩
  obtain ⟨st', hprocess⟩ := hprocess
  simp only [effect, perform, hprocess, live_withNode]
  rfl

/-- With no version below the memtable and no version to write for a missing key, a callback
that throws spoils the node in any case. -/
theorem live_of_spoils (hnode : st.memtable.table[key]? = some ⟨v, false⟩)
    (hold : st.getFromOld env.now key = none) (hnot : ¬ op.Accepts env.now v)
    (hmissing : ∀ r w, op.onMissing ≠ .ok (r, some w)) :
    (effect cfg env (.update op key) key st).2 = some default := by
  have hhandle : ∀ {st : Storage}, st.memtable.table[key]? = some ⟨v, false⟩ →
      st.getFromOld env.now key = none →
        ∃ v', (handle cfg env op key st).1 = withNode st key ⟨v', !false⟩ := by
    intro st hnode hold
    cases hplace : op.inPlace env.now v with
    | mk v' result =>
        cases result with
        | ok r => exact absurd ⟨r, by rw [hplace]⟩ hnot
        | error e =>
            refine ⟨v', ?_⟩
            rcases handle_of_error cfg hnode hplace with h | h
            · rw [h]
            · -- The exception passes for a missing entry, and there is nothing below.
              have hold' : (withNode st key ⟨v', !false⟩).getFromOld env.now key = none := hold
              rw [h, behind, hold']
              cases hfallback : op.fallback none with
              | error e => rfl
              | ok result =>
                  obtain ⟨r, w⟩ := result
                  cases w with
                  | none => rfl
                  | some w => exact absurd hfallback (hmissing r w)
  have hprocess : ∃ st' v', (process cfg env false op key st).1 =
      withNode st' key ⟨v', !false⟩ := by
    rw [process]
    rcases logRecord_cases cfg false op.type key op.payload st with hlog | hlog
    · rw [hlog]
      exact ⟨st, hhandle hnode hold⟩
    · rw [hlog]
      exact ⟨_, hhandle hnode hold⟩
  obtain ⟨st', v', hprocess⟩ := hprocess
  rw [effect, perform_update, hprocess]
  exact live_withNode _

end Throwing

section Places

/-- A store with one memtable. -/
def alone (memtable : MemTable) : Storage :=
  ⟨memtable, [], ∅, SSTableManager.empty, ⟨∅, some []⟩⟩

/-- The value of the key sits in the memtable. -/
def inMemtable (key : Bytes) (v : EValue) : Storage := alone ((MemTable.new 0).insertNode key v)

/-- The key has no entry anywhere. -/
def nowhere : Storage := alone (MemTable.new 0)

/-- The value of the key sits in an immutable memtable. -/
def below (cfg : StorageConfig) (env : Env) (key : Bytes) (v : EValue) : Storage :=
  rotateMemtable cfg env (inMemtable key v)

variable {memtable : MemTable} {v : EValue}

theorem inv_alone (h : memtable.Normal) : Inv cfg (alone memtable) := by
  have hnone : ∀ (name : Bytes) (imm : MemTable), (∅ : StrMap MemTable)[name]? ≠ some imm := by
    intro name imm h
    rw [Std.ExtTreeMap.getElem?_empty] at h
    cases h
  exact ⟨h, fun name imm h => absurd h (hnone name imm), fun name imm h => absurd h (hnone name imm),
    fun _ => rfl⟩

theorem newestOf_alone : (alone memtable).newestOf key = memtable.get key := by
  have hnil : (∅ : StrMap MemTable).toList = [] := Std.ExtTreeMap.toList_eq_nil_iff.2 rfl
  have holder : newest (alone memtable).olderLayers key = none := by
    rw [olderLayers, alone, hnil]
    rfl
  rw [newestOf_eq, holder, Option.or_none]
  rfl

theorem inv_inMemtable (cfg : StorageConfig) (key : Bytes) (v : EValue) :
    Inv cfg (inMemtable key v) :=
  inv_alone (MemTable.normal_insertNode (MemTable.normal_new 0))

theorem get_inMemtable (key : Bytes) (v : EValue) : (inMemtable key v).memtable.get key = some v := by
  have h := @MemTable.get_insertNode (MemTable.new 0) key v (MemTable.normal_new 0) key
  rwa [if_pos rfl] at h

theorem live_inMemtable (now : Nat) :
    (inMemtable key v).live now key = (some v).filter (EValue.isLive now) := by
  rw [live, inMemtable, newestOf_alone]
  exact congrArg (Option.filter (EValue.isLive now)) (get_inMemtable key v)

theorem inv_nowhere (cfg : StorageConfig) : Inv cfg nowhere := inv_alone (MemTable.normal_new 0)

theorem live_nowhere (now : Nat) : nowhere.live now key = none := by
  rw [live, nowhere, newestOf_alone, MemTable.get_new]
  rfl

theorem inv_below (cfg : StorageConfig) (env : Env) (key : Bytes) (v : EValue) :
    Inv cfg (below cfg env key v) :=
  inv_rotate (inv_inMemtable cfg key v) (nil_lt_newFilename cfg env)

theorem live_below (now : Nat) :
    (below cfg env key v).live now key = (some v).filter (EValue.isLive now) := by
  rw [live, below, @newestOf_rotate cfg env _ (inv_inMemtable cfg key v), ← @live_inMemtable key v now, live]

theorem get_below : (below cfg env key v).memtable.get key = none := MemTable.get_new _

end Places

section Independence

/-- The logical values on which a command has one effect, wherever they sit. -/
def TakesValue (F : FloatOps) (now : Nat) (type : OperationType) (args : List Bytes) :
    Option EValue → Prop
  | some v => type = .expire ∨ Takes F now type args v
  | none => type.adds = false ∧ type ≠ .zIncrBy ∧ type ≠ .expire

/-- A request has one effect on its key in all stores in which the key has the logical value
`value`. -/
def OneEffect (cfg : StorageConfig) (env : Env) (q : Request) (key : Bytes)
    (value : Option EValue) : Prop :=
  ∀ st₁ st₂ : Storage, Inv cfg st₁ → Inv cfg st₂ → st₁.live env.now key = value →
    st₂.live env.now key = value → effect cfg env q key st₁ = effect cfg env q key st₂

variable {op : ValueOp Response} {args : List Bytes} {v : EValue} {value : Option EValue}

/-- A table without a limit is never full. -/
theorem not_full_alone {memtable : MemTable} (h : memtable.memtableSize = 0) :
    ¬ (alone memtable).Full env := by
  intro hfull
  rw [Full, alone, MemTable.shouldFlush_of_no_limit h] at hfull
  cases hfull

theorem not_full_inMemtable : ¬ (inMemtable key v).Full env := by
  refine not_full_alone ?_
  rw [MemTable.memtableSize_insertNode]
  rfl

/-- With a fresh memtable over its limit, a write to a key below the memtable fails. -/
theorem code_below_of_not_fits (hfits : ¬ Fits cfg env) (hlive : v.isLive env.now = true)
    {r : Response} {w : EValue} (hold : op.onOld v = .ok (r, some w)) :
    (effect cfg env (.update op key) key (below cfg env key v)).1.code = .error := by
  have hfull : (createNewMemtable cfg).shouldFlush env.usage = true := by
    rwa [Fits, Bool.not_eq_false] at hfits
  have hput := MemTable.put_of_shouldFlush key w hfull
  have hlogged : Inv cfg (logRecord cfg false op.type key op.payload (below cfg env key v)) ∧
      SameData (below cfg env key v)
        (logRecord cfg false op.type key op.payload (below cfg env key v)) :=
    logRecord_spec (inv_below cfg env key v) false op.type key op.payload
  obtain ⟨-, hsame⟩ := hlogged
  have hentry : (logRecord cfg false op.type key op.payload
      (below cfg env key v)).memtable.table[key]? = none := by
    rw [hsame.memtable]
    exact MemTable.get_eq_none_iff.1 get_below
  have hmemtable : (logRecord cfg false op.type key op.payload
      (below cfg env key v)).memtable = createNewMemtable cfg := hsame.memtable
  have hfound : (logRecord cfg false op.type key op.payload
      (below cfg env key v)).getFromOld env.now key = some v := by
    have hnewest : newest (logRecord cfg false op.type key op.payload
        (below cfg env key v)).olderLayers key = (below cfg env key v).newestOf key := by
      rw [← hsame.newestOf, newestOf_eq, MemTable.get_eq_none_iff.2 hentry, Option.none_or]
    rw [getFromOld_eq, visible, hnewest]
    have h := @live_below cfg env key v env.now
    rwa [live, Option.filter_some, if_pos hlive] at h
  have hprocess : ∃ st' e, process cfg env false op key (below cfg env key v) = (st', .error e) := by
    rw [process, handle_of_none op hentry, behind, hfound]
    simp only [ValueOp.fallback, hold, writeMemtable, hmemtable, hput, rotateMemtable]
    exact ⟨_, _, rfl⟩
  obtain ⟨st', e, hprocess⟩ := hprocess
  simp only [effect, perform, hprocess]
  rfl

/-- A tombstone, as `remove` leaves it for a key without an entry. -/
def tombstone : EValue := { deleted := true }

theorem live_tombstone (now : Nat) : (inMemtable key tombstone).live now key = none := by
  rw [live_inMemtable]
  rfl

theorem alternative_ne_zero (type : OperationType) : type.alternative ≠ some 0 := by
  cases type <;> decide

/-- What is known of the operation that a data-structure command calls. -/
structure Called (F : FloatOps) (now : Nat) (type : OperationType) (args : List Bytes)
    (op : ValueOp Response) : Prop where
  shaped : op.Shaped F type args
  quiet : op.Quiet
  takes : ∀ v, op.Accepts now v ↔ Takes F now type args v
  coherent : ∀ v, v.isLive now = true ∨ type.adds = false → op.Accepts now v → op.Coherent now v

theorem called_of_calls {q : Request} (h : Calls F type args q) (hset : type ≠ .set)
    (hq : q = .update op key) : Called F env.now type args op := by
  subst hq
  refine ⟨shaped_calls h, quiet_calls h, fun v => accepts_iff h hset, fun v hor => ?_⟩
  refine h.steady fun htype hdead => ?_
  rcases hor with hlive | hadds
  · rw [hlive] at hdead
    cases hdead
  · rw [htype] at hadds
    cases hadds

/-- On a value that the command takes, its effect is that of the branch for an older version,
wherever the value sits. -/
theorem effect_of_takes (hcalled : Called F env.now type args op)
    (hdata : type.alternative.isSome = true) (htakes : TakesValue F env.now type args value)
    (hroom : Fits cfg env ∨ ∀ v, value = some v → NothingToWrite type args v)
    (hinv : Inv cfg st) (hlive : st.live env.now key = value) :
    effect cfg env (.update op key) key st = effectOn env.now (op.fallback value) value := by
  have hexpire : type ≠ .expire := by
    rintro rfl
    cases hdata
  refine (effect_update env key op hinv ?_ ?_).trans (by rw [hlive])
  · -- Without a write it does not matter whether the memtable is full.
    intro r w hfallback _
    rw [hlive] at hfallback
    rcases hroom with hfits | hnothing
    · exact hfits
    · cases value with
      | none => exact absurd hfallback (hcalled.shaped.removes htakes.1 r w)
      | some v =>
          have htakes := htakes.resolve_left hexpire
          have hv : v.isLive env.now = true := by
            rw [live] at hlive
            exact (Option.filter_eq_some_iff.1 hlive).2
          exact absurd (hnothing v rfl) ((hcalled.shaped.writes (htakes.parses (Or.inl hv)) v
            (htakes.typed (Or.inl hv))).1 ⟨r, w, hfallback⟩)
  · intro u hu
    have hnewest : (some u).filter (EValue.isLive env.now) = value := by
      rw [← hlive, live, newestOf_eq, hu, Option.some_or]
    cases hulive : u.isLive env.now with
    | false =>
        rw [Option.filter_some, hulive, if_neg Bool.false_ne_true] at hnewest
        subst hnewest
        -- Dead entries of any type are taken by the commands that remove elements.
        refine hcalled.coherent u (Or.inr htakes.1) ((hcalled.takes u).2 ?_)
        have hnot : ¬ (u.isLive env.now = true ∨ type.adds = true) := by
          rw [hulive, htakes.1]
          decide
        exact ⟨fun h => absurd h hnot, fun h => absurd h hnot, fun h => absurd h htakes.2.1⟩
    | true =>
        rw [Option.filter_some, if_pos hulive] at hnewest
        subst hnewest
        exact hcalled.coherent u (Or.inl hulive)
          ((hcalled.takes u).2 (htakes.resolve_left hexpire))

/-- An absent key: where a command that makes a value, or ZINCRBY, tells a tombstone from a
missing entry. -/
theorem takesNone_of_oneEffect (hcalled : Called F env.now type args op)
    (hdata : type.alternative.isSome = true) (h : OneEffect cfg env (.update op key) key none) :
    TakesValue F env.now type args none := by
  have hnowhere : effect cfg env (.update op key) key nowhere =
      effectOn env.now op.onMissing none := by
    have heffect := effect_update env key op (inv_nowhere cfg)
      (fun _ _ _ hfull => absurd hfull (not_full_alone rfl)) fun v hv => by
        rw [nowhere, alone, MemTable.get_new] at hv
        cases hv
    rwa [live_nowhere] at heffect
  have hsame := h nowhere (inMemtable key tombstone) (inv_nowhere cfg) (inv_inMemtable cfg key _)
    (live_nowhere _) (live_tombstone _)
  have hnode := (MemTable.get_eq_some_iff (inv_inMemtable cfg key tombstone).memtable).1
    (get_inMemtable key tombstone)
  rw [hnowhere] at hsame
  refine ⟨?_, ?_, ?_⟩
  · by_contra hadds
    rw [Bool.not_eq_false] at hadds
    obtain ⟨v', text, hplace⟩ := hcalled.shaped.wrongEntry env.now tombstone (Or.inr hadds)
      (alternative_ne_zero type).symm
    rw [effect_of_throws hnode hplace] at hsame
    cases hmissing : op.onMissing with
    | error e =>
        rw [hmissing] at hsame
        cases congrArg Prod.snd hsame
    | ok result =>
        obtain ⟨r, w⟩ := result
        cases w with
        | none => exact hcalled.shaped.adds hadds r hmissing
        | some w =>
            rw [hmissing] at hsame
            have hcode := congrArg (fun e => e.1.code) hsame
            exact hcalled.quiet.fallback none r w hmissing hcode
  · intro hincr
    obtain ⟨hmissing, hdead⟩ := hcalled.shaped.increments hincr
    rw [effect_of_throws hnode (hdead env.now tombstone rfl), hmissing] at hsame
    cases congrArg Prod.snd hsame
  · rintro rfl
    cases hdata

/-- A live value: where a command tells the memtable from the layers below it. -/
theorem takesSome_of_oneEffect (hcalled : Called F env.now type args op)
    (hlive : v.isLive env.now = true) (h : OneEffect cfg env (.update op key) key (some v)) :
    Takes F env.now type args v ∧ (Fits cfg env ∨ NothingToWrite type args v) := by
  have hvalue : (some v).filter (EValue.isLive env.now) = some v := by
    rw [Option.filter_some, if_pos hlive]
  have hsame := h (inMemtable key v) (below cfg env key v) (inv_inMemtable cfg key v)
    (inv_below cfg env key v) ((live_inMemtable _).trans hvalue) ((live_below _).trans hvalue)
  have hnode := (MemTable.get_eq_some_iff (inv_inMemtable cfg key v).memtable).1
    (get_inMemtable key v)
  -- Below the memtable an error changes nothing, and its text reaches the client.
  have hbelow : ∀ e, op.onOld v = .error e →
      effect cfg env (.update op key) key (below cfg env key v) = (.error e.what, some v) := by
    intro e he
    refine (effect_update env key op (inv_below cfg env key v) ?_ ?_).trans ?_
    · intro r w hfallback
      rw [live_below, hvalue, ValueOp.fallback, he] at hfallback
      cases hfallback
    · intro u hu
      rw [get_below] at hu
      cases hu
    · rw [live_below, hvalue, ValueOp.fallback, he]
      rfl
  by_cases htakes : Takes F env.now type args v
  · refine ⟨htakes, ?_⟩
    by_contra hnot
    rw [not_or] at hnot
    have htyped := htakes.typed (Or.inl hlive)
    have hparses := htakes.parses (Or.inl hlive)
    obtain ⟨r, w, hold⟩ := (hcalled.shaped.writes hparses v htyped).2 hnot.2
    have hcode := @code_below_of_not_fits cfg env key op v hnot.1 hlive r w hold
    have heffect := effect_update env key op (inv_inMemtable cfg key v)
      (fun _ _ _ hfull => absurd hfull not_full_inMemtable) fun u hu => by
        obtain rfl := Option.some.inj ((get_inMemtable key v).symm.trans hu)
        exact hcalled.coherent v (Or.inl hlive) ((hcalled.takes v).2 htakes)
    rw [live_inMemtable, hvalue, ValueOp.fallback, hold] at heffect
    rw [← hsame, heffect] at hcode
    exact hcalled.quiet.fallback (some v) r w hold hcode
  · exfalso
    by_cases htyped : some v.value.index = type.alternative
    · have hparse : ¬ AllParse F type args := by
        intro hparse
        exact htakes ⟨fun _ => htyped, fun _ => hparse, fun _ => hlive⟩
      obtain ⟨halternative, hmissing, hold⟩ := hcalled.shaped.unparsed hparse
      obtain ⟨e, he⟩ := hold v htyped
      have hspoiled := @live_of_spoils cfg env key _ op v hnode rfl
        (fun haccepts => htakes ((hcalled.takes v).1 haccepts)) hmissing
      rw [hsame, hbelow e he] at hspoiled
      obtain rfl := Option.some.inj hspoiled
      rw [halternative] at htyped
      cases htyped
    · obtain ⟨v', text, hplace⟩ := hcalled.shaped.wrongEntry env.now v (Or.inl hlive) htyped
      obtain ⟨e, he, hwhat⟩ := hcalled.shaped.wrongOld v htyped
      rw [effect_of_throws hnode hplace, hbelow e he] at hsame
      have htext := congrArg (fun e => e.1.errorMsg) hsame
      exact hwhat htext.symm

/-- A dead entry of the memtable accepts a change of the expiry, without an effect. -/
theorem code_expire_tombstone (cfg : StorageConfig) (env : Env) (key : Bytes)
    (aliveTime : UInt64) :
    (effect cfg env (.expire key aliveTime) key (inMemtable key tombstone)).1.code = .success := by
  obtain ⟨hlogged, hsame⟩ := logRecord_spec (inv_inMemtable cfg key tombstone) false .expire key
    (decimal (expiryAt env.now aliveTime).toNat)
  have hentry := get_inMemtable key tombstone
  rw [← hsame.memtable] at hentry
  have hset : ∃ st', setExpire cfg env (inMemtable key tombstone) key aliveTime = (st', .ok ()) := by
    rw [setExpire_eq]
    rcases setKeyExpire_cases cfg env hlogged.memtable key (expiryAt env.now aliveTime) with
      ⟨v, -, -, h⟩ | ⟨v, -, -, h⟩ | ⟨hnone, -⟩ | ⟨hnone, -⟩ | ⟨hnone, -⟩
    · exact ⟨_, h⟩
    · exact ⟨_, h⟩
    · rw [hentry] at hnone
      cases hnone
    · rw [hentry] at hnone
      cases hnone
    · rw [hentry] at hnone
      cases hnone
  obtain ⟨st', hset⟩ := hset
  simp only [effect, perform, hset]
  rfl

/-- With a fresh memtable over its limit, the expiry of a value below the memtable cannot be
changed. -/
theorem code_expire_below (hfits : ¬ Fits cfg env) (aliveTime : UInt64) :
    (effect cfg env (.expire key aliveTime) key (below cfg env key v)).1.code = .error := by
  have hfull : (createNewMemtable cfg).shouldFlush env.usage = true := by
    rwa [Fits, Bool.not_eq_false] at hfits
  have hsame := (logRecord_spec (inv_below cfg env key v) false .expire key
    (decimal (expiryAt env.now aliveTime).toNat)).2
  have hmemtable : (logRecord cfg false .expire key (decimal (expiryAt env.now aliveTime).toNat)
      (below cfg env key v)).memtable = createNewMemtable cfg := hsame.memtable
  have hhandle : ∀ f : ValueHandle, (createNewMemtable cfg).handleValue key f =
      (createNewMemtable cfg, .error (.outOfRange "Key not found")) :=
    fun _ => MemTable.handleValue_of_none (MemTable.get_new _)
  have hset : ∃ st' e, setExpire cfg env (below cfg env key v) key aliveTime = (st', .error e) := by
    rw [setExpire_eq]
    simp only [setKeyExpire, hmemtable, hhandle]
    split
    · exact ⟨_, _, rfl⟩
    · next u _ =>
        have hput := MemTable.put_of_shouldFlush key
          { value := u, expireTime := (expiryAt env.now aliveTime).toUInt32 } hfull
        simp only [hput, rotateMemtable]
        exact ⟨_, _, rfl⟩
  obtain ⟨st', e, hset⟩ := hset
  simp only [effect, perform, hset]
  rfl

theorem oneEffect_expire_iff (hvalue : ∀ v, value = some v → v.isLive env.now = true)
    (aliveTime : UInt64) :
    OneEffect cfg env (.expire key aliveTime) key value ↔ value.isSome = true ∧ Fits cfg env := by
  constructor
  · intro h
    cases value with
    | none =>
        have hsame := h nowhere (inMemtable key tombstone) (inv_nowhere cfg)
          (inv_inMemtable cfg key _) (live_nowhere _) (live_tombstone _)
        have hnowhere := effect_expire env key (inv_nowhere cfg)
          (fun hfull => absurd hfull (not_full_alone rfl)) (fun v hv => by
            rw [nowhere, alone, MemTable.get_new] at hv
            cases hv) aliveTime
        have hcode := code_expire_tombstone cfg env key aliveTime
        rw [← hsame, hnowhere, live_nowhere] at hcode
        cases hcode
    | some v =>
        have hlive := hvalue v rfl
        have hfilter : (some v).filter (EValue.isLive env.now) = some v := by
          rw [Option.filter_some, if_pos hlive]
        refine ⟨rfl, ?_⟩
        by_contra hfits
        have hsame := h (inMemtable key v) (below cfg env key v) (inv_inMemtable cfg key v)
          (inv_below cfg env key v) ((live_inMemtable _).trans hfilter)
          ((live_below _).trans hfilter)
        have hmemtable := effect_expire env key (inv_inMemtable cfg key v)
          (fun hfull => absurd hfull not_full_inMemtable) (fun u hu => by
            obtain rfl := Option.some.inj ((get_inMemtable key v).symm.trans hu)
            exact hlive) aliveTime
        have hcode := @code_expire_below cfg env key v hfits aliveTime
        rw [← hsame, hmemtable, live_inMemtable, hfilter] at hcode
        cases hcode
  · rintro ⟨hsome, hfits⟩ st₁ st₂ hinv₁ hinv₂ hlive₁ hlive₂
    have heffect : ∀ st : Storage, Inv cfg st → st.live env.now key = value →
        effect cfg env (.expire key aliveTime) key st =
          expireOn env.now (expiryAt env.now aliveTime) value := by
      intro st hinv hlive
      refine (effect_expire env key hinv (fun _ => hfits) (fun u hu => ?_) aliveTime).trans
        (by rw [hlive])
      -- The entry of the memtable is the newest version, and that is alive.
      rw [← hlive, live, newestOf_eq, hu, Option.some_or, Option.filter_some] at hsome
      by_contra hdead
      rw [if_neg hdead] at hsome
      cases hsome
    rw [heffect st₁ hinv₁ hlive₁, heffect st₂ hinv₂ hlive₂]

/-- A data-structure command has one effect on a logical value exactly when it takes the value
and can write the result, if it has one to write. -/
theorem oneEffect_update_iff (hcalled : Called F env.now type args op)
    (hdata : type.alternative.isSome = true)
    (hvalue : ∀ v, value = some v → v.isLive env.now = true) :
    OneEffect cfg env (.update op key) key value ↔
      TakesValue F env.now type args value ∧
        (Fits cfg env ∨ ∀ v, value = some v → NothingToWrite type args v) := by
  constructor
  · intro h
    cases value with
    | none => exact ⟨takesNone_of_oneEffect hcalled hdata h, Or.inr fun v hv => by cases hv⟩
    | some v =>
        obtain ⟨htakes, hroom⟩ := takesSome_of_oneEffect hcalled (hvalue v rfl) h
        refine ⟨Or.inr htakes, hroom.imp id fun hnothing u hu => ?_⟩
        obtain rfl := Option.some.inj hu
        exact hnothing
  · rintro ⟨htakes, hroom⟩ st₁ st₂ hinv₁ hinv₂ hlive₁ hlive₂
    rw [effect_of_takes hcalled hdata htakes hroom hinv₁ hlive₁,
      effect_of_takes hcalled hdata htakes hroom hinv₂ hlive₂]

/-- The response of a command and the logical value that it leaves. -/
def commandEffect (cfg : StorageConfig) (env : Env) (F : FloatOps) (form : Overload)
    (readOnly : Bool) (type : OperationType) (key : Bytes) (rest : List Bytes) (st : Storage) :
    Response × Option EValue :=
  ((executeOf cfg env F form readOnly (.logged type) (key :: rest) st).2,
    (executeOf cfg env F form readOnly (.logged type) (key :: rest) st).1.live env.now key)

/-- The response of a command and the logical value that it leaves depend on the logical value
`value` of its key only. -/
def LocationIndependent (cfg : StorageConfig) (env : Env) (F : FloatOps) (form : Overload)
    (readOnly : Bool) (type : OperationType) (key : Bytes) (rest : List Bytes)
    (value : Option EValue) : Prop :=
  ∀ st₁ st₂ : Storage, Inv cfg st₁ → Inv cfg st₂ → st₁.live env.now key = value →
    st₂.live env.now key = value →
      commandEffect cfg env F form readOnly type key rest st₁ =
        commandEffect cfg env F form readOnly type key rest st₂

/-- The checks of EXPIRE let one call through. -/
theorem expire_of_request (hreject : ¬ ∃ errorMsg,
    requestOf F form (.logged .expire) (key :: rest) = .reject errorMsg) :
    ∃ aliveTime, requestOf F form (.logged .expire) (key :: rest) = .expire key aliveTime := by
  have hform : requestOf F form (.logged .expire) (key :: rest) =
      request F (.logged .expire) (key :: rest) := by
    cases form with
    | string => rfl
    | stringView => rfl
  rw [hform] at hreject ⊢
  match rest with
  | [] => exact absurd ⟨_, rfl⟩ hreject
  | [aliveTime] =>
      cases hparsed : stoull aliveTime with
      | ok t => exact ⟨t, by simp only [request, hparsed]⟩
      | error e => exact absurd ⟨errorText e, by simp only [request, hparsed]⟩ hreject
  | _ :: _ :: _ => exact absurd ⟨_, rfl⟩ hreject

/-- **Where the value of a key sits makes no difference to a command exactly on the values that
the command takes.** -/
theorem locationIndependent_iff (hcommand : type.alternative.isSome = true ∨ type = .expire)
    (hvalue : ∀ v, value = some v → v.isLive env.now = true) :
    LocationIndependent cfg env F form readOnly type key rest value ↔
      readOnly = true ∨
      (∃ errorMsg, requestOf F form (.logged type) (key :: rest) = .reject errorMsg) ∨
      (TakesValue F env.now type (key :: rest) value ∧
        (Fits cfg env ∨ ∀ v, value = some v → NothingToWrite type (key :: rest) v)) := by
  by_cases hrefused : readOnly = true ∨
      ∃ errorMsg, requestOf F form (.logged type) (key :: rest) = .reject errorMsg
  · -- a refused command does nothing on any store
    refine iff_of_true ?_ (hrefused.imp id Or.inl)
    intro st₁ st₂ _ _ hlive₁ hlive₂
    rcases hrefused with rfl | ⟨errorMsg, hq⟩
    · simp only [commandEffect, executeOf, ↓reduceIte, hlive₁, hlive₂]
    · simp only [commandEffect, executeOf, hq, perform]
      cases readOnly with
      | true => simp only [↓reduceIte, hlive₁, hlive₂]
      | false => simp only [Bool.false_eq_true, ↓reduceIte, hlive₁, hlive₂]
  · rw [not_or] at hrefused
    obtain ⟨hreadOnly, hreject⟩ := hrefused
    rw [Bool.not_eq_true] at hreadOnly
    subst hreadOnly
    simp only [LocationIndependent, commandEffect, executeOf, Bool.false_eq_true, ↓reduceIte,
      false_or, hreject]
    rcases hcommand with hdata | rfl
    · -- a command on a data type calls one operation; the rest is the effect of that operation
      have hne : type ≠ .remove ∧ type ≠ .expire ∧ type ≠ .set := by
        refine ⟨?_, ?_, ?_⟩ <;> rintro rfl <;> cases hdata
      have hcalls := (issued_requestOf F form (key :: rest) hne.1 hne.2.1).resolve_left hreject
      obtain ⟨op, hq⟩ := update_of_calls hcalls hdata
      rw [hq]
      exact oneEffect_update_iff (called_of_calls hcalls hne.2.2 hq) hdata hvalue
    · obtain ⟨aliveTime, hq⟩ := expire_of_request hreject
      rw [hq]
      refine (oneEffect_expire_iff hvalue aliveTime).trans ?_
      cases value with
      | none =>
          refine iff_of_false (fun h => ?_) fun h => h.1.2.2 rfl
          cases h.1
      | some v =>
          constructor
          · exact fun h => ⟨Or.inl rfl, Or.inl h.2⟩
          · rintro ⟨-, hfits | hnothing⟩
            · exact ⟨rfl, hfits⟩
            · exact absurd (hnothing v rfl) id

/-- The store after SET and REMOVE of the key `k`. -/
def removed : Storage :=
  (perform roomyConfig (tick 3)
    (perform roomyConfig (tick 2) (openEmpty roomyConfig (tick 1)) (.set [107] [118] 0)).1
    (.remove [[107]])).1

/-- The key `k` is absent in the empty store and in the store that has removed it. SADD makes a
set of it in the first one only. -/
theorem sAdd_tells_tombstone :
    (openEmpty roomyConfig (tick 1)).live (tick 4).now [107] = none ∧
    removed.live (tick 4).now [107] = none ∧
    (executeOf roomyConfig (tick 4) noFloats .stringView false (.logged .sAdd) [[107], [98]]
      (openEmpty roomyConfig (tick 1))).2 = .count 1 ∧
    (executeOf roomyConfig (tick 4) noFloats .stringView false (.logged .sAdd) [[107], [98]]
      removed).2 = .error "std::exception" := by
  decide

/-- HSET on a live hash. -/
theorem locationIndependent_hash :
    LocationIndependent roomyConfig (tick 4) noFloats .stringView false .hSet [107]
      [[102], [118]] (some { value := .map ∅ }) := by
  refine (locationIndependent_iff (Or.inl rfl) fun v hv => ?_).2
    (Or.inr (Or.inr ⟨Or.inr ⟨fun _ => rfl, fun _ text htext => ?_, fun htype => ?_⟩, Or.inl rfl⟩))
  · obtain rfl := Option.some.inj hv
    rfl
  · cases htext
  · cases htype

end Independence

end Storage

end EyaKV.Store
