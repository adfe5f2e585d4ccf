import EyaKV.Base.Layers

/-!
# Redo logs of layers

Every layer of a layered store has a log of its own. A record of the log belongs to a key;
replayed, it reads the newest version of the key and may write one into the layer
(`Redo.write`). `Redo.Replays` is the replay of a log on a layer, with the side condition
that no record is met by an entry that it cannot work on.

A replay runs later than the writes that it repeats, at a time at which fewer versions are
alive, so it need not leave the same entries. `Shadows` is what remains: the entries are
equal, or both read as dead and are of one kind. A stack of layers is covered by its logs
(`Covers`) when the replay of each log over the layers below shadows its layer. Coverage
only looks at the live versions of what lies below the stack (`Covers.congr`), so it
survives a rewriting of the base.
-/

set_option autoImplicit false

namespace EyaKV.Base.RedoLogs

open Layers

universe u v w x

variable {κ : Type u} {ν : Type v} {α : Type w}

section Overlays

/-- The same live version of every key. -/
def SameLive (live : ν → Bool) (f g : κ → Option ν) : Prop :=
  ∀ k, (f k).filter live = (g k).filter live

theorem SameLive.symm {live : ν → Bool} {f g : κ → Option ν} (h : SameLive live f g) :
    SameLive live g f := fun k => (h k).symm

theorem SameLive.trans {live : ν → Bool} {f g h : κ → Option ν} (hfg : SameLive live f g)
    (hgh : SameLive live g h) : SameLive live f h := fun k => (hfg k).trans (hgh k)

/-- Entries on top of what lies below them. -/
def overlay (entries lower : κ → Option ν) : κ → Option ν := fun k => (entries k).or (lower k)

theorem SameLive.overlay {live : ν → Bool} {lower lower' : κ → Option ν}
    (h : SameLive live lower lower') (entries : κ → Option ν) :
    SameLive live (overlay entries lower) (overlay entries lower') := by
  intro k
  rw [RedoLogs.overlay, RedoLogs.overlay]
  cases entries k with
  | some v => rw [Option.some_or, Option.some_or]
  | none =>
      rw [Option.none_or, Option.none_or]
      exact h k

variable {ι : Type x}

/-- A stack of named layers, the newest first, on top of a base. -/
def stacked (layers : List (ι × (κ → Option ν))) (base : κ → Option ν) : κ → Option ν :=
  overlay (newest (layers.map Prod.snd)) base

theorem stacked_nil (base : κ → Option ν) :
    stacked ([] : List (ι × (κ → Option ν))) base = base := by
  funext k
  exact Option.none_or

theorem stacked_cons (i : ι) (entries : κ → Option ν) (rest : List (ι × (κ → Option ν)))
    (base : κ → Option ν) :
    stacked ((i, entries) :: rest) base = overlay entries (stacked rest base) := by
  funext k
  simp only [stacked, overlay, List.map_cons, newest_cons, Option.or_assoc]

/-- The last layer of a stack may be counted to the base. -/
theorem stacked_concat (layers : List (ι × (κ → Option ν))) (i : ι) (entries base : κ → Option ν) :
    stacked (layers ++ [(i, entries)]) base = stacked layers (overlay entries base) := by
  funext k
  simp only [stacked, overlay, List.map_append, List.map_cons, List.map_nil, newest_append,
    newest_cons, newest_nil, Option.or_none, Option.or_assoc]

theorem SameLive.stacked {live : ν → Bool} {base base' : κ → Option ν}
    (h : SameLive live base base') (layers : List (ι × (κ → Option ν))) :
    SameLive live (stacked layers base) (stacked layers base') := h.overlay _

end Overlays

section Shadowing

variable {ι : Type x} (live : ν → Bool) (kind : ν → ι)

/-- The entry `e'` of a replay stands for the entry `e`, over the version `lower` below
both: it is the same, or `e` is dead and so is what the replay shows. A dead entry that
the replay has is of the same kind. -/
def Shadows (lower e' e : Option ν) : Prop :=
  e' = e ∨ ∃ v, e = some v ∧ live v = false ∧
    ((e' = none ∧ lower.filter live = none) ∨ ∃ v', e' = some v' ∧ live v' = false ∧ kind v' = kind v)

variable {live kind} {lower lower' e' e : Option ν}

theorem filter_some_of_dead {v : ν} (h : live v = false) : (some v).filter live = none := by
  rw [Option.filter_some, h, if_neg Bool.false_ne_true]

theorem Shadows.filter_or (h : Shadows live kind lower e' e) :
    (e'.or lower).filter live = (e.or lower).filter live := by
  rcases h with rfl | ⟨v, rfl, hdead, ⟨rfl, hlower⟩ | ⟨v', rfl, hdead', -⟩⟩
  · rfl
  · rw [Option.none_or, hlower, Option.some_or, filter_some_of_dead hdead]
  · rw [Option.some_or, Option.some_or, filter_some_of_dead hdead, filter_some_of_dead hdead']

theorem Shadows.congr (h : Shadows live kind lower e' e)
    (hlower : lower'.filter live = lower.filter live) : Shadows live kind lower' e' e := by
  rcases h with heq | ⟨v, he, hdead, ⟨he', hnone⟩ | hsome⟩
  · exact Or.inl heq
  · exact Or.inr ⟨v, he, hdead, Or.inl ⟨he', hlower.trans hnone⟩⟩
  · exact Or.inr ⟨v, he, hdead, Or.inr hsome⟩

/-- A dead version that is written over an entry shadowed by `e'` is shadowed by it, when
it is of the kind of a dead entry below it. -/
theorem Shadows.write_dead (h : Shadows live kind lower e' e) {v : ν} (hdead : live v = false)
    (hread : (e.or lower).filter live = none) (hkind : ∀ u, e = some u → kind v = kind u) :
    Shadows live kind lower e' (some v) := by
  refine Or.inr ⟨v, rfl, hdead, ?_⟩
  rcases h with rfl | ⟨u, rfl, hu, ⟨rfl, hlower⟩ | ⟨u', rfl, hu', huu⟩⟩
  · cases e' with
    | none =>
        rw [Option.none_or] at hread
        exact Or.inl ⟨rfl, hread⟩
    | some u =>
        rw [Option.some_or, Option.filter_some] at hread
        refine Or.inr ⟨u, rfl, ?_, (hkind u rfl).symm⟩
        cases hu : live u with
        | false => rfl
        | true =>
            rw [hu, if_pos rfl] at hread
            cases hread
  · exact Or.inl ⟨rfl, hlower⟩
  · exact Or.inr ⟨u', rfl, hu', huu.trans (hkind u rfl).symm⟩

/-- The same version written into both. -/
theorem Shadows.write_same (h : Shadows live kind lower e' e) (w : Option ν) :
    Shadows live kind lower (w.or e') (w.or e) := by
  cases w with
  | some v => exact Or.inl rfl
  | none =>
      rw [Option.none_or, Option.none_or]
      exact h

end Shadowing

/-- What a replayed record does: its key, what it writes when it finds a newest version, and
on which entries of the layer it can work, with which newest version. -/
structure Redo (κ : Type u) (ν : Type v) (α : Type w) where
  key : α → κ
  write : α → Option ν → Option ν
  accepts : α → Option ν → Option ν → Prop

section Replaying

variable [DecidableEq κ]

/-- The entries of a layer after a write to a key. -/
def put (entries : κ → Option ν) (k : κ) : Option ν → κ → Option ν
  | some v => Function.update entries k (some v)
  | none => entries

theorem put_apply (entries : κ → Option ν) (k : κ) (w : Option ν) (k' : κ) :
    put entries k w k' = if k' = k then w.or (entries k) else entries k' := by
  cases w with
  | some v => rw [put, Function.update_apply, Option.some_or]
  | none =>
      rw [put, Option.none_or]
      split
      · next h => rw [h]
      · rfl

namespace Redo

variable (d : Redo κ ν α)

/-- The replay of a log, from the entries `start` of a layer over `lower`. -/
inductive Replays (lower start : κ → Option ν) : List α → (κ → Option ν) → Prop where
  | nil : Replays lower start [] start
  | snoc {log : List α} {entries : κ → Option ν} (r : α) :
      Replays lower start log entries →
      d.accepts r (entries (d.key r)) (overlay entries lower (d.key r)) →
      Replays lower start (log ++ [r]) (put entries (d.key r)
        (d.write r (overlay entries lower (d.key r))))

/-- What a record writes, and whether it can work, depends on the live version that it finds
only. -/
structure ReadsLive (live : ν → Bool) : Prop where
  write : ∀ r o o', o.filter live = o'.filter live → d.write r o = d.write r o'
  accepts : ∀ r e o o', o.filter live = o'.filter live → d.accepts r e o → d.accepts r e o'

variable {d} {live : ν → Bool} {lower lower' start entries : κ → Option ν} {log : List α}

theorem eq_of_replays_nil (h : d.Replays lower start [] entries) : entries = start := by
  generalize hlog : ([] : List α) = log at h
  cases h with
  | nil => rfl
  | snoc r _ _ => exact absurd hlog (List.append_ne_nil_of_right_ne_nil _ (List.cons_ne_nil r [])).symm

/-- A replay over layers with the same live versions is the same. -/
theorem Replays.congr (hd : d.ReadsLive live) (hsame : SameLive live lower lower')
    (h : d.Replays lower start log entries) : d.Replays lower' start log entries := by
  induction h with
  | nil => exact .nil
  | snoc r h haccepts ih =>
      rw [hd.write r _ _ (hsame.overlay _ (d.key r))]
      exact ih.snoc r (hd.accepts r _ _ _ (hsame.overlay _ (d.key r)) haccepts)

/-- A key of which the log has no record keeps its entry. -/
theorem Replays.frame (h : d.Replays lower start log entries) {k : κ}
    (hk : ∀ r ∈ log, d.key r ≠ k) : entries k = start k := by
  induction h with
  | nil => rfl
  | snoc r h _ ih =>
      have hne := hk r (List.mem_append_right _ (List.mem_singleton.2 rfl))
      rw [put_apply, if_neg (Ne.symm hne)]
      exact ih fun r' hr' => hk r' (List.mem_append_left _ hr')

end Redo

end Replaying

section Coverage

variable [DecidableEq κ] {ι : Type x} {τ : Type w} (d : Redo κ ν α) (live : ν → Bool) (kind : ν → τ)
  (logs : ι → List α) (start : ι → κ → Option ν)

/-- Each layer of the stack is what the replay of its log gives, over the layers below. -/
def Covers (base : κ → Option ν) : List (ι × (κ → Option ν)) → Prop
  | [] => True
  | (i, entries) :: rest => Covers base rest ∧
      ∃ e, d.Replays (stacked rest base) (start i) (logs i) e ∧
        ∀ k, Shadows live kind (stacked rest base k) (e k) (entries k)

variable {d live kind logs start} {base base' : κ → Option ν}

/-- Coverage looks at the live versions of the base only. -/
theorem Covers.congr (hd : d.ReadsLive live) (hsame : SameLive live base base')
    {layers : List (ι × (κ → Option ν))} (h : Covers d live kind logs start base layers) :
    Covers d live kind logs start base' layers := by
  induction layers with
  | nil => trivial
  | cons layer rest ih =>
      obtain ⟨i, entries⟩ := layer
      obtain ⟨hrest, e, hreplays, hshadows⟩ := h
      refine ⟨ih hrest, e, hreplays.congr hd (hsame.stacked rest), fun k => ?_⟩
      exact (hshadows k).congr (hsame.stacked rest k).symm

/-- Coverage looks at the logs of the layers of the stack only. -/
theorem Covers.congr_logs {logs' : ι → List α} {layers : List (ι × (κ → Option ν))}
    (hlogs : ∀ layer ∈ layers, logs' layer.1 = logs layer.1)
    (h : Covers d live kind logs start base layers) :
    Covers d live kind logs' start base layers := by
  induction layers with
  | nil => trivial
  | cons layer rest ih =>
      obtain ⟨i, entries⟩ := layer
      obtain ⟨hrest, hcovers⟩ := h
      refine ⟨ih (fun layer hl => hlogs layer (List.mem_cons_of_mem _ hl)) hrest, ?_⟩
      rw [hlogs (i, entries) List.mem_cons_self]
      exact hcovers

/-- A new layer on top, which has its first entries and a log without records. -/
theorem Covers.push {layers : List (ι × (κ → Option ν))} (h : Covers d live kind logs start base layers)
    {i : ι} (hlog : logs i = []) : Covers d live kind logs start base ((i, start i) :: layers) := by
  refine ⟨h, start i, ?_, fun k => Or.inl rfl⟩
  rw [hlog]
  exact .nil

/-- **A record.** The first layer takes a write and its log the record of it. The record is
accepted by whatever shadows the layer, and what it writes there shadows the written layer. -/
theorem Covers.write [DecidableEq ι] {i : ι} {entries entries' : κ → Option ν}
    {rest : List (ι × (κ → Option ν))} (h : Covers d live kind logs start base ((i, entries) :: rest))
    (hi : ∀ layer ∈ rest, layer.1 ≠ i) (r : α)
    (hrecord : ∀ e, Shadows live kind (stacked rest base (d.key r)) e (entries (d.key r)) →
      d.accepts r e (e.or (stacked rest base (d.key r))) ∧
      Shadows live kind (stacked rest base (d.key r))
        ((d.write r (e.or (stacked rest base (d.key r)))).or e) (entries' (d.key r)))
    (hframe : ∀ k, k ≠ d.key r → entries' k = entries k) :
    Covers d live kind (Function.update logs i (logs i ++ [r])) start base ((i, entries') :: rest) := by
  obtain ⟨hrest, e, hreplays, hshadows⟩ := h
  obtain ⟨haccepts, hwritten⟩ := hrecord (e (d.key r)) (hshadows (d.key r))
  refine ⟨hrest.congr_logs fun layer hl => Function.update_of_ne (hi layer hl) _ _,
    put e (d.key r) (d.write r (overlay e (stacked rest base) (d.key r))), ?_, fun k => ?_⟩
  · rw [Function.update_self]
    exact hreplays.snoc r haccepts
  · rw [put_apply]
    by_cases hk : k = d.key r
    · rw [if_pos hk, hk]
      exact hwritten
    · rw [if_neg hk, hframe k hk]
      exact hshadows k

/-- **The last layer sinks.** A base that shows what the last layer showed over the old base
takes its place. -/
theorem Covers.sink (hd : d.ReadsLive live) {i : ι} {entries : κ → Option ν}
    {layers : List (ι × (κ → Option ν))}
    (h : Covers d live kind logs start base (layers ++ [(i, entries)]))
    (hsame : SameLive live (overlay entries base) base') :
    Covers d live kind logs start base' layers := by
  have hover : Covers d live kind logs start (overlay entries base) layers := by
    induction layers with
    | nil => trivial
    | cons layer rest ih =>
        obtain ⟨j, entries'⟩ := layer
        rw [List.cons_append] at h
        obtain ⟨hrest, hcovers⟩ := h
        rw [stacked_concat] at hcovers
        exact ⟨ih hrest, hcovers⟩
  exact hover.congr hd hsame

end Coverage

end EyaKV.Base.RedoLogs
