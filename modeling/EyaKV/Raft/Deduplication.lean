import EyaKV.Base.Runs
import EyaKV.Common.LruCache
import EyaKV.Raft.CommandKinds

/-!
# Deduplication of requests

A call of `submit_command` or `submit_batch_command` looks its request ids up in the result
cache, appends entries for the writes it did not find, and looks the results up after they
have been applied. The loop over the committed entries executes an entry and then puts its
result into the cache. These pieces interleave freely. An id is under way from the lookup that
does not find it until its result is in the cache.

`executed_once` says that no id is executed again while it is recent, in every run in which
each lookup for a write finds the id among the last used ones, or finds it neither under way
nor recent. `uses` and `applied` are not part of the source: `uses` are the ids that lookups
have found and executions have put into the cache, `applied` the ids of the executed entries.
-/

set_option autoImplicit false

namespace EyaKV.Raft

open EyaKV.Base EyaKV.Base.Recency EyaKV.Common EyaKV.Store

section Data

/-- A command with its request id. -/
structure Command where
  requestId : Bytes
  cmd : Bytes
  deriving DecidableEq

/-- The loop of `run_batch`: the commands to come, `current_cmds` and `is_read`. -/
structure Batch where
  todo : List Command
  currentCmds : List Command := []
  isRead : Bool := false
  deriving DecidableEq

/-- What the loop does with a command that the cache does not have. -/
inductive BatchStep where
  | collect (b : Batch)
  /-- `execute_batch_write_command`, and the loop after it. -/
  | write (cmds : List Command) (b : Batch)
  | throws

/-- A command of `run_batch`. The reads that have been collected are executed where the source
executes them; they leave the log and the cache as they are. -/
def Batch.add (b : Batch) (c : Command) : BatchStep :=
  match parseString c.cmd with
  | .invalid => .collect b
  | .unknown => .throws
  | .known .read _ =>
      if b.isRead then .collect { b with currentCmds := b.currentCmds ++ [c] }
      else if b.currentCmds = [] then .collect { b with currentCmds := [c], isRead := true }
      else .write b.currentCmds { b with currentCmds := [c], isRead := true }
  | .known (.raft _) _ =>
      if b.currentCmds = [] ∨ b.isRead then .collect { b with currentCmds := [] }
      else .write b.currentCmds { b with currentCmds := [] }
  | .known .write _ =>
      if b.isRead then .collect { b with currentCmds := [c], isRead := false }
      else .collect { b with currentCmds := b.currentCmds ++ [c] }

/-- Where a call is. -/
inductive ClientStage where
  | idle
  /-- `submit_command` behind the lookup. -/
  | submitting (c : Command)
  /-- `submit_command` behind the append. -/
  | submitted (c : Command)
  /-- `run_batch`. -/
  | collecting (b : Batch)
  /-- `execute_batch_write_command` before the append. -/
  | writing (cmds : List Command) (b : Batch)
  /-- `execute_batch_write_command` at the lookups of the results. -/
  | harvesting (ids : List Bytes) (b : Batch)
  | done
  deriving DecidableEq

/-- The calls of a node, its log and its result cache. -/
structure Dedup (σ : Type) where
  storage : σ
  cache : LRUCache Bytes Response
  nextCall : Nat := 0
  calls : Nat → ClientStage := fun _ => .idle
  log : List Command := []
  commitIndex : Nat := 0
  lastApplied : Nat := 0
  executing : Option (Command × Response) := none
  uses : List Bytes := []
  applied : List Bytes := []

/-- The pieces of the calls and of the loop over the committed entries. -/
inductive DedupAction where
  | submit (c : Command)
  | submitBatch (commands : List Command)
  | item (call : Nat)
  | append (call : Nat)
  /-- The node is not the leader, or the append fails. -/
  | refuse (call : Nat)
  | harvest (call : Nat)
  | commit (index : Nat)
  | execute
  | cache

end Data

namespace Dedup

variable {σ : Type} (execute : Bytes → σ → Response × σ) (needMajorityConfirm : Bool)
  (s : Dedup σ)

section Steps

def setCall (k : Nat) (stage : ClientStage) : Dedup σ :=
  { s with calls := Function.update s.calls k stage }

/-- `result_cache_.get`; the result, and the state after it. -/
def lookup (id : Bytes) : Option Response × Dedup σ :=
  let got := s.cache.get id
  (got.1, { s with
    cache := got.2
    uses := if got.1.isSome then touch id s.uses else s.uses })

/-- The first lookup of `submit_command`. Reads and the commands about the cluster are
answered at once. -/
def submit (k : Nat) (c : Command) : Dedup σ :=
  if c.requestId = [] then s.setCall k .done
  else
    match s.lookup c.requestId with
    | (some _, s) => s.setCall k .done
    | (none, s) =>
        match parseView c.cmd with
        | .known .write _ => s.setCall k (.submitting c)
        | _ => s.setCall k .done

/-- The next command of `run_batch`. -/
def item (k : Nat) (b : Batch) : Dedup σ :=
  match b.todo with
  | [] =>
      if b.currentCmds = [] ∨ b.isRead then s.setCall k .done
      else s.setCall k (.writing b.currentCmds { b with currentCmds := [] })
  | c :: todo =>
      if c.cmd = [] ∨ c.requestId = [] then s.setCall k (.collecting { b with todo := todo })
      else
        match s.lookup c.requestId with
        | (some _, s) => s.setCall k (.collecting { b with todo := todo })
        | (none, s) =>
            match Batch.add { b with todo := todo } c with
            | .collect b => s.setCall k (.collecting b)
            | .write cmds b => s.setCall k (.writing cmds b)
            | .throws => s.setCall k .done

/-- One step. -/
def step (s : Dedup σ) : DedupAction → Option (Dedup σ)
  | .submit c => some ({ s with nextCall := s.nextCall + 1 }.submit s.nextCall c)
  | .submitBatch commands =>
      some ({ s with nextCall := s.nextCall + 1 }.setCall s.nextCall
        (.collecting { todo := commands }))
  | .item k =>
      match s.calls k with
      | .collecting b => some (s.item k b)
      | _ => none
  | .append k =>
      match s.calls k with
      | .submitting c => some ({ s with log := s.log ++ [c] }.setCall k (.submitted c))
      | .writing cmds b =>
          some ({ s with log := s.log ++ cmds }.setCall k
            (.harvesting (cmds.map Command.requestId) b))
      | _ => none
  | .refuse k =>
      match s.calls k with
      | .submitting _ => some (s.setCall k .done)
      | .writing _ b => some (s.setCall k (.collecting b))
      | _ => none
  | .harvest k =>
      match s.calls k with
      | .submitted c =>
          -- with `need_majority_confirm` the result is the value of a promise
          if needMajorityConfirm then some (s.setCall k .done)
          else some ((s.lookup c.requestId).2.setCall k .done)
      | .harvesting [] b => some (s.setCall k (.collecting b))
      | .harvesting (id :: ids) b => some ((s.lookup id).2.setCall k (.harvesting ids b))
      | _ => none
  | .commit index =>
      if s.commitIndex ≤ index ∧ index ≤ s.log.length then some { s with commitIndex := index }
      else none
  | .execute =>
      match s.executing, s.log[s.lastApplied]? with
      | none, some c =>
          if s.lastApplied < s.commitIndex then
            let (response, storage) := execute c.cmd s.storage
            some { s with
              storage := storage
              lastApplied := s.lastApplied + 1
              executing := some (c, response)
              applied := c.requestId :: s.applied }
          else none
      | _, _ => none
  | .cache =>
      match s.executing with
      | some (c, response) =>
          if c.requestId = [] then some { s with executing := none }
          else
            some { s with
              cache := s.cache.put c.requestId response
              uses := touch c.requestId s.uses
              executing := none }
      | none => none

/-- A node that has been started. -/
def start (capacity : Nat) (storage : σ) : Dedup σ :=
  { storage := storage, cache := .ofCapacity capacity }

end Steps

section Laws

/-- Between two executions of the same id as many others are executed as the cache has
places. -/
def ExecutedOnce (capacity : Nat) (applied : List Bytes) : Prop :=
  ∀ newer id between older, applied = newer ++ id :: (between ++ id :: older) → id ∉ between →
    capacity ≤ between.toFinset.card

/-- The ids that a call is going to append. -/
def held : ClientStage → List Bytes
  | .submitting c => [c.requestId]
  | .collecting b => if b.isRead then [] else b.currentCmds.map Command.requestId
  | .writing cmds b =>
      cmds.map Command.requestId ++ if b.isRead then [] else b.currentCmds.map Command.requestId
  | .harvesting _ b => if b.isRead then [] else b.currentCmds.map Command.requestId
  | _ => []

/-- The ids of the entries that wait for their execution. -/
def waiting : List Bytes := (s.log.drop s.lastApplied).map Command.requestId

/-- The id of the entry whose result is on its way to the cache. -/
def uncached : List Bytes := s.executing.toList.map fun e => e.1.requestId

/-- No call and no entry with the id is under way. -/
def Free (id : Bytes) : Prop :=
  id ∉ s.uncached ∧ id ∉ s.waiting ∧ ∀ k < s.nextCall, id ∉ held (s.calls k)

/-- The condition on a lookup for a write: the id is among the last used ones, as many as the
cache has places, or it is neither under way nor recent. -/
def Looks (id : Bytes) : Prop :=
  id ∈ s.uses.take s.cache.capacity ∨ s.Free id ∧ ¬ Recent s.cache.capacity id s.applied

instance decidableLooks (id : Bytes) : Decidable (s.Looks id) :=
  inferInstanceAs (Decidable (_ ∨ (_ ∧ _ ∧ ∀ k < s.nextCall, _) ∧ _))

/-- The id that a step looks up for a write. -/
def looksUp : DedupAction → Option Bytes
  | .submit c =>
      if c.requestId ≠ [] ∧ (parseView c.cmd).isWrite then some c.requestId else none
  | .item k =>
      match s.calls k with
      | .collecting ⟨c :: _, _, _⟩ =>
          if c.requestId ≠ [] ∧ (parseString c.cmd).isWrite then some c.requestId else none
      | _ => none
  | _ => none

/-- The condition on a step. -/
def Meets (act : DedupAction) : Prop := ∀ id ∈ s.looksUp act, s.Looks id

instance decidableMeets (act : DedupAction) : Decidable (s.Meets act) :=
  inferInstanceAs (Decidable (∀ id ∈ s.looksUp act, s.Looks id))

/-- What holds in every run under the condition. -/
structure Inv (capacity : Nat) (s : Dedup σ) : Prop where
  places : s.cache.capacity = capacity
  holds : 0 < capacity → s.cache.Holds s.uses
  idle : ∀ k, s.nextCall ≤ k → s.calls k = .idle
  bound : s.lastApplied ≤ s.log.length
  queued : (s.uncached ++ s.waiting).Nodup
  nodup : ∀ k, (held (s.calls k)).Nodup
  apart : ∀ k, ∀ id ∈ held (s.calls k), id ∉ s.uncached ∧ id ∉ s.waiting
  disjoint : ∀ k l, k ≠ l → ∀ id ∈ held (s.calls k), id ∉ held (s.calls l)
  stale : ∀ k, ∀ id ∈ held (s.calls k), ¬ Recent capacity id s.applied
  staleWaiting : ∀ id ∈ s.waiting, ¬ Recent capacity id s.applied
  spaced : Spaced capacity s.applied

end Laws

section Calls

variable {s} {capacity : Nat} {id : Bytes}

/-- A lookup changes the cache and nothing else. -/
theorem Inv.lookup (h : Inv capacity s) (id : Bytes) : Inv capacity (s.lookup id).2 :=
  { h with
    places := LRUCache.capacity_get.trans h.places
    holds := fun hpos => (h.holds hpos).get }

/-- A lookup under the condition that does not find the id: the id is neither under way nor
recent. -/
theorem Looks.free (hlooks : s.Looks id) (h : Inv capacity s)
    (hmiss : (s.lookup id).1 = none) : s.Free id ∧ ¬ Recent capacity id s.applied := by
  rcases hlooks with hmem | hfree
  · have hpos : 0 < capacity := by
      by_contra hzero
      rw [h.places, Nat.eq_zero_of_not_pos hzero, List.take_zero] at hmem
      cases hmem
    rw [← h.holds hpos] at hmem
    have hfound := (LRUCache.get_of_mem hmem).1
    rw [show (s.cache.get id).1 = none from hmiss] at hfound
    cases hfound
  · rwa [h.places] at hfree

/-- A call goes on with ids that it held before, and with ids that are free. -/
theorem Inv.setCall (h : Inv capacity s) {k : Nat} (hk : k < s.nextCall) {stage : ClientStage}
    (ids : List Bytes) (hsub : (held stage).Sublist (held (s.calls k) ++ ids))
    (hnodup : ids.Nodup)
    (hfree : ∀ id ∈ ids, s.Free id ∧ ¬ Recent capacity id s.applied) :
    Inv capacity (s.setCall k stage) := by
  have hheld : ∀ id ∈ held stage, id ∈ held (s.calls k) ∨ id ∈ ids :=
    fun id hid => List.mem_append.1 (hsub.subset hid)
  -- no other call holds an id of the new stage: neither one held before nor a free one
  have hother : ∀ l, l ≠ k → ∀ id ∈ held stage, id ∉ held (s.calls l) := by
    intro l hl id hid hmem
    rcases hheld id hid with hold | hnew
    · exact h.disjoint k l (Ne.symm hl) id hold hmem
    · by_cases hlt : l < s.nextCall
      · exact (hfree id hnew).1.2.2 l hlt hmem
      · rw [h.idle l (Nat.le_of_not_lt hlt)] at hmem
        cases hmem
  have hcalls : (s.setCall k stage).calls = Function.update s.calls k stage := rfl
  refine { h with idle := ?_, nodup := ?_, apart := ?_, disjoint := ?_, stale := ?_ }
  · intro l hl
    have hne : l ≠ k := Nat.ne_of_gt (Nat.lt_of_lt_of_le hk hl)
    rw [hcalls, Function.update_of_ne hne]
    exact h.idle l hl
  · rw [hcalls]
    refine (Function.forall_update_iff s.calls fun _ stage => (held stage).Nodup).2
      ⟨hsub.nodup ?_, fun l _ => h.nodup l⟩
    refine List.nodup_append.2 ⟨h.nodup k, hnodup, ?_⟩
    rintro id hold _ hnew rfl
    exact (hfree id hnew).1.2.2 k hk hold
  · rw [hcalls]
    refine (Function.forall_update_iff s.calls fun _ stage => ∀ id ∈ held stage,
      id ∉ s.uncached ∧ id ∉ s.waiting).2 ⟨?_, fun l _ => h.apart l⟩
    intro id hid
    rcases hheld id hid with hold | hnew
    · exact h.apart k id hold
    · exact ⟨(hfree id hnew).1.1, (hfree id hnew).1.2.1⟩
  · intro l m hlm id hl hm
    rw [hcalls] at hl hm
    by_cases hlk : l = k
    · obtain rfl := hlk
      rw [Function.update_self] at hl
      rw [Function.update_of_ne (Ne.symm hlm)] at hm
      exact hother m (Ne.symm hlm) id hl hm
    · rw [Function.update_of_ne hlk] at hl
      by_cases hmk : m = k
      · obtain rfl := hmk
        rw [Function.update_self] at hm
        exact hother l hlk id hm hl
      · rw [Function.update_of_ne hmk] at hm
        exact h.disjoint l m hlm id hl hm
  · rw [hcalls]
    refine (Function.forall_update_iff s.calls fun _ stage => ∀ id ∈ held stage,
      ¬ Recent capacity id s.applied).2 ⟨?_, fun l _ => h.stale l⟩
    intro id hid
    rcases hheld id hid with hold | hnew
    · exact h.stale k id hold
    · exact (hfree id hnew).2

/-- A call goes on and holds no new ids. -/
theorem Inv.setCall_sublist (h : Inv capacity s) {k : Nat} (hk : k < s.nextCall)
    {stage : ClientStage} (hsub : (held stage).Sublist (held (s.calls k))) :
    Inv capacity (s.setCall k stage) :=
  h.setCall hk [] (by rwa [List.append_nil]) List.nodup_nil
    fun id hid => absurd hid List.not_mem_nil

/-- The ids that a command of `run_batch` adds to those that the call holds. -/
def adds (c : Command) : List Bytes :=
  if (parseString c.cmd).isWrite then [c.requestId] else []

theorem held_add_collect {b b' : Batch} {c : Command} (h : b.add c = .collect b') :
    (held (.collecting b')).Sublist (held (.collecting b) ++ adds c) := by
  simp only [Batch.add] at h
  -- only a write puts its id into the group; every other branch keeps or drops ids
  cases hparse : parseString c.cmd with
  | invalid =>
      simp only [hparse, BatchStep.collect.injEq] at h
      obtain rfl := h
      exact List.sublist_append_left _ _
  | unknown =>
      simp only [hparse] at h
      cases h
  | known kind args =>
      cases kind with
      | read =>
          simp only [hparse] at h
          split at h
          · next hread =>
              obtain rfl := BatchStep.collect.inj h
              simp only [held, hread, ↓reduceIte, List.nil_sublist]
          · split at h
            · obtain rfl := BatchStep.collect.inj h
              simp only [held, ↓reduceIte, List.nil_sublist]
            · cases h
      | raft op =>
          simp only [hparse] at h
          split at h
          · obtain rfl := BatchStep.collect.inj h
            simp only [held, List.map_nil, ite_self, List.nil_sublist]
          · cases h
      | write =>
          simp only [hparse] at h
          split at h
          · next hread =>
              obtain rfl := BatchStep.collect.inj h
              simp only [held, adds, hparse, Parsed.isWrite, hread, ↓reduceIte,
                Bool.false_eq_true, List.map_cons, List.map_nil, List.nil_append]
              exact List.Sublist.refl _
          · next hread =>
              obtain rfl := BatchStep.collect.inj h
              simp only [held, adds, hparse, Parsed.isWrite, hread, ↓reduceIte,
                Bool.false_eq_true, List.map_append, List.map_cons, List.map_nil]
              exact List.Sublist.refl _

/-- The writes that have been collected are appended, and none is collected after them. -/
theorem held_add_write {b b' : Batch} {c : Command} {cmds : List Command}
    (h : b.add c = .write cmds b') :
    (held (.writing cmds b')).Sublist (held (.collecting b)) := by
  simp only [Batch.add] at h
  cases hparse : parseString c.cmd with
  | invalid =>
      simp only [hparse] at h
      cases h
  | unknown =>
      simp only [hparse] at h
      cases h
  | known kind args =>
      cases kind with
      | read =>
          simp only [hparse] at h
          split at h
          · cases h
          · next hread =>
              split at h
              · cases h
              · obtain ⟨rfl, rfl⟩ := BatchStep.write.inj h
                simp only [held, hread, ↓reduceIte, List.append_nil, Bool.false_eq_true]
                exact List.Sublist.refl _
      | raft op =>
          simp only [hparse] at h
          split at h
          · cases h
          · next hgroup =>
              rw [not_or] at hgroup
              obtain ⟨rfl, rfl⟩ := BatchStep.write.inj h
              simp only [held, hgroup.2, ↓reduceIte, List.map_nil, List.append_nil,
                Bool.false_eq_true]
              exact List.Sublist.refl _
      | write =>
          simp only [hparse] at h
          split at h
          · cases h
          · cases h

/-- A new call. -/
theorem Inv.newCall (h : Inv capacity s) : Inv capacity { s with nextCall := s.nextCall + 1 } :=
  { h with idle := fun k hk => h.idle k (Nat.le_of_succ_le hk) }

theorem Looks.newCall (h : Inv capacity s) (hlooks : s.Looks id) :
    { s with nextCall := s.nextCall + 1 }.Looks id := by
  refine hlooks.imp_right (And.imp_left (And.imp_right (And.imp_right fun hfree => ?_)))
  intro k hk
  rcases Nat.lt_succ_iff_lt_or_eq.1 hk with hlt | rfl
  · exact hfree k hlt
  · rw [h.idle s.nextCall (Nat.le_refl _)]
    exact List.not_mem_nil

/-- A call takes up an id after a lookup that did not find it. -/
theorem Inv.setCall_lookup (h : Inv capacity s) {k : Nat} (hk : k < s.nextCall)
    {stage : ClientStage} (hlooks : s.Looks id) (hmiss : (s.lookup id).1 = none)
    (hsub : (held stage).Sublist (held (s.calls k) ++ [id])) :
    Inv capacity ((s.lookup id).2.setCall k stage) := by
  refine (h.lookup id).setCall hk [id] hsub (List.nodup_singleton id) ?_
  intro x hx
  obtain rfl := List.mem_singleton.1 hx
  exact hlooks.free h hmiss

theorem Inv.submit (h : Inv capacity s) {k : Nat} {c : Command} (hk : k < s.nextCall)
    (hlooks : c.requestId ≠ [] → (parseView c.cmd).isWrite = true → s.Looks c.requestId) :
    Inv capacity (s.submit k c) := by
  rw [Dedup.submit]
  split
  · exact h.setCall_sublist hk (List.nil_sublist _)
  · next hid =>
      split
      · next found s' hfound =>
          obtain rfl := congrArg Prod.snd hfound
          exact (h.lookup c.requestId).setCall_sublist hk (List.nil_sublist _)
      · next s' hfound =>
          obtain rfl := congrArg Prod.snd hfound
          split
          · next args hparse =>
              refine h.setCall_lookup hk (hlooks hid ?_) (congrArg Prod.fst hfound) ?_
              · rw [hparse]
                rfl
              · exact List.sublist_append_right _ _
          · exact (h.lookup c.requestId).setCall_sublist hk (List.nil_sublist _)

theorem Inv.item (h : Inv capacity s) {k : Nat} {b : Batch} (hk : k < s.nextCall)
    (hcall : s.calls k = .collecting b)
    (hlooks : ∀ c ∈ b.todo.head?, c.requestId ≠ [] → (parseString c.cmd).isWrite = true →
      s.Looks c.requestId) : Inv capacity (s.item k b) := by
  rw [Dedup.item]
  split
  · split
    · exact h.setCall_sublist hk (List.nil_sublist _)
    · -- the batch is through its commands and waits with its last group
      next hgroup =>
        rw [not_or] at hgroup
        refine h.setCall_sublist hk ?_
        simp only [hcall, held, hgroup.2, Bool.false_eq_true, ↓reduceIte, List.map_nil,
          List.append_nil]
        exact List.Sublist.refl _
  · next c todo htodo =>
      split
      · refine h.setCall_sublist hk ?_
        rw [hcall]
        exact List.Sublist.refl _
      · next hcond =>
          rw [not_or] at hcond
          split
          · -- found in the cache: the lookup may move the entry, and the call holds what it held
            next found s' hfound =>
              obtain rfl := congrArg Prod.snd hfound
              refine (h.lookup c.requestId).setCall_sublist hk ?_
              exact hcall ▸ List.Sublist.refl _
          · next s' hfound =>
              obtain rfl := congrArg Prod.snd hfound
              split
              · next b' hadd =>
                  -- a write, which was looked up, adds its id; the other commands add nothing
                  have hsub := held_add_collect hadd
                  by_cases hwrite : (parseString c.cmd).isWrite
                  · refine h.setCall_lookup hk (hlooks c (by rw [htodo]; rfl) hcond.2 hwrite)
                      (congrArg Prod.fst hfound) ?_
                    rw [adds, if_pos hwrite] at hsub
                    rw [hcall]
                    exact hsub
                  · rw [adds, if_neg hwrite, List.append_nil] at hsub
                    refine (h.lookup c.requestId).setCall_sublist hk ?_
                    exact hcall ▸ hsub
              · next cmds b' hadd =>
                  have hsub := held_add_write hadd
                  refine (h.lookup c.requestId).setCall_sublist hk ?_
                  exact hcall ▸ hsub
              · exact (h.lookup c.requestId).setCall_sublist hk (List.nil_sublist _)

end Calls

section Log

variable {s} {capacity : Nat}

/-- The entries that a call appends wait for their execution. -/
theorem Inv.append (h : Inv capacity s) {k : Nat} (hk : k < s.nextCall) {cmds : List Command}
    {stage : ClientStage}
    (hsub : (cmds.map Command.requestId ++ held stage).Sublist (held (s.calls k))) :
    Inv capacity ({ s with log := s.log ++ cmds }.setCall k stage) := by
  have hnodup := hsub.nodup (h.nodup k)
  have hmem : ∀ id ∈ cmds.map Command.requestId, id ∈ held (s.calls k) :=
    fun id hid => hsub.subset (List.mem_append_left _ hid)
  have hwaiting : ({ s with log := s.log ++ cmds }.setCall k stage).waiting =
      s.waiting ++ cmds.map Command.requestId := by
    simp only [waiting, Dedup.setCall, List.drop_append_of_le_length h.bound, List.map_append]
  have hcall := h.setCall_sublist hk ((List.sublist_append_right _ _).trans hsub)
  -- the ids that are appended are those that the call does not hold any more
  have hgone : ∀ l, ∀ id ∈ held ((s.setCall k stage).calls l),
      id ∉ cmds.map Command.requestId := by
    intro l id hid hin
    by_cases hl : l = k
    · obtain rfl := hl
      simp only [Dedup.setCall, Function.update_self] at hid
      exact (List.nodup_append.1 hnodup).2.2 id hin id hid rfl
    · simp only [Dedup.setCall, Function.update_of_ne hl] at hid
      exact h.disjoint k l (Ne.symm hl) id (hmem id hin) hid
  refine { hcall with bound := ?_, queued := ?_, apart := ?_, staleWaiting := ?_ }
  · exact h.bound.trans (by simp [Dedup.setCall])
  · rw [hwaiting, ← List.append_assoc]
    refine List.nodup_append.2 ⟨h.queued, (List.nodup_append.1 hnodup).1, ?_⟩
    rintro id hid _ hin rfl
    obtain ⟨huncached, hwait⟩ := h.apart k id (hmem id hin)
    exact (List.mem_append.1 hid).elim huncached hwait
  · intro l id hid
    obtain ⟨huncached, hwait⟩ := hcall.apart l id hid
    refine ⟨huncached, ?_⟩
    rw [hwaiting, List.mem_append, not_or]
    exact ⟨hwait, hgone l id hid⟩
  · intro id hid
    rw [hwaiting] at hid
    rcases List.mem_append.1 hid with hold | hnew
    · exact h.staleWaiting id hold
    · exact h.stale k id (hmem id hnew)

/-- The entry is executed. Its id is recent from now on, and under way until the cache has it. -/
theorem Inv.executing (h : Inv capacity s) {c : Command} {response : Response} {storage : σ}
    (hidle : s.executing = none) (hentry : s.log[s.lastApplied]? = some c) :
    Inv capacity { s with
      storage := storage
      lastApplied := s.lastApplied + 1
      executing := some (c, response)
      applied := c.requestId :: s.applied } := by
  obtain ⟨hlt, hget⟩ := List.getElem?_eq_some_iff.1 hentry
  -- before the step nothing is between its execution and the cache
  have huncached : s.uncached = [] := by
    rw [uncached, hidle]
    rfl
  -- the entry is the first of those that wait
  have hwaiting : s.waiting = c.requestId ::
      ((s.log.drop (s.lastApplied + 1)).map Command.requestId) := by
    rw [waiting, List.drop_eq_getElem_cons hlt, hget, List.map_cons]
  have hqueued := h.queued
  rw [huncached, List.nil_append, hwaiting] at hqueued
  -- so no call holds its id, nor does a later entry have it
  have hapart : ∀ k, ∀ id ∈ held (s.calls k), id ∉ c.requestId ::
      ((s.log.drop (s.lastApplied + 1)).map Command.requestId) := by
    intro k id hid
    rw [← hwaiting]
    exact (h.apart k id hid).2
  refine { h with bound := hlt, queued := hqueued, apart := ?_, stale := ?_, staleWaiting := ?_,
                  spaced := ?_ }
  · intro k id hid
    have hnot := hapart k id hid
    rw [List.mem_cons, not_or] at hnot
    exact ⟨by simpa [uncached] using hnot.1, hnot.2⟩
  · intro k id hid hrecent
    have hnot := hapart k id hid
    rw [List.mem_cons, not_or] at hnot
    exact h.stale k id hid (hrecent.of_cons (Ne.symm hnot.1))
  · intro id hid hrecent
    have hne : c.requestId ≠ id := by
      rintro rfl
      exact (List.nodup_cons.1 hqueued).1 hid
    refine h.staleWaiting id ?_ (hrecent.of_cons hne)
    rw [hwaiting]
    exact List.mem_cons_of_mem _ hid
  · refine ⟨h.staleWaiting c.requestId ?_, h.spaced⟩
    rw [hwaiting]
    exact List.mem_cons_self

/-- The loop is through with an entry. -/
theorem Inv.executed (h : Inv capacity s) : Inv capacity { s with executing := none } :=
  { h with
    queued := (List.sublist_append_right _ _).nodup h.queued
    apart := fun k id hid => ⟨List.not_mem_nil, (h.apart k id hid).2⟩ }

theorem Inv.put (h : Inv capacity s) (id : Bytes) (response : Response) :
    Inv capacity { s with cache := s.cache.put id response, uses := touch id s.uses } :=
  { h with
    places := LRUCache.capacity_put.trans h.places
    holds := fun hpos => (h.holds hpos).put (h.places ▸ hpos) }

end Log

section Runs

variable {execute needMajorityConfirm} {s s' : Dedup σ} {capacity : Nat}

theorem Inv.step {act : DedupAction} (h : Inv capacity s) (hmeets : s.Meets act)
    (hstep : step execute needMajorityConfirm s act = some s') : Inv capacity s' := by
  -- a call that is doing something has been made
  have hcall {k : Nat} {stage : ClientStage} (hk : s.calls k = stage) (hne : stage ≠ .idle) :
      k < s.nextCall := by
    by_contra hle
    exact hne (hk.symm.trans (h.idle k (Nat.le_of_not_lt hle)))
  cases act with
  | submit c =>
      obtain rfl := Option.some.inj hstep
      refine h.newCall.submit (Nat.lt_succ_self _) fun hid hwrite => ?_
      exact Looks.newCall h (hmeets c.requestId (by simp [looksUp, hid, hwrite]))
  | submitBatch commands =>
      obtain rfl := Option.some.inj hstep
      refine h.newCall.setCall_sublist (Nat.lt_succ_self _) ?_
      simp only [held, List.map_nil, ite_self, List.nil_sublist]
  | item k =>
      simp only [Dedup.step] at hstep
      split at hstep
      · next b hk =>
          obtain rfl := Option.some.inj hstep
          -- the condition of the step is about the id of the next command of the batch
          refine h.item (hcall hk nofun) hk fun c hc hid hwrite => hmeets c.requestId ?_
          obtain ⟨todo, cmds, isRead⟩ := b
          obtain ⟨rest, rfl⟩ := List.head?_eq_some_iff.1 hc
          simp [looksUp, hk, hid, hwrite]
      · cases hstep
  | append k =>
      simp only [Dedup.step] at hstep
      split at hstep
      · next c hk =>
          obtain rfl := Option.some.inj hstep
          refine h.append (hcall hk nofun) ?_
          rw [hk]
          exact List.Sublist.refl _
      · next cmds b hk =>
          obtain rfl := Option.some.inj hstep
          refine h.append (hcall hk nofun) ?_
          rw [hk]
          exact List.Sublist.refl _
      · cases hstep
  | refuse k =>
      simp only [Dedup.step] at hstep
      split at hstep
      · next c hk =>
          obtain rfl := Option.some.inj hstep
          exact h.setCall_sublist (hcall hk nofun) (List.nil_sublist _)
      · next cmds b hk =>
          obtain rfl := Option.some.inj hstep
          refine h.setCall_sublist (hcall hk nofun) ?_
          rw [hk]
          exact List.sublist_append_right _ _
      · cases hstep
  | harvest k =>
      simp only [Dedup.step] at hstep
      split at hstep
      · next c hk =>
          split at hstep
          · obtain rfl := Option.some.inj hstep
            exact h.setCall_sublist (hcall hk nofun) (List.nil_sublist _)
          · obtain rfl := Option.some.inj hstep
            exact (h.lookup _).setCall_sublist (hcall hk nofun) (List.nil_sublist _)
      · next b hk =>
          obtain rfl := Option.some.inj hstep
          refine h.setCall_sublist (hcall hk nofun) ?_
          rw [hk]
          exact List.Sublist.refl _
      · next id ids b hk =>
          obtain rfl := Option.some.inj hstep
          refine (h.lookup id).setCall_sublist (hcall hk nofun) ?_
          exact hk ▸ List.Sublist.refl _
      · cases hstep
  | commit index =>
      simp only [Dedup.step] at hstep
      split at hstep
      · obtain rfl := Option.some.inj hstep
        -- committing moves no id
        exact { h with }
      · cases hstep
  | execute =>
      simp only [Dedup.step] at hstep
      split at hstep
      · next c hidle hentry =>
          split at hstep
          · obtain rfl := Option.some.inj hstep
            exact h.executing hidle hentry
          · cases hstep
      · cases hstep
  | cache =>
      simp only [Dedup.step] at hstep
      split at hstep
      · next c response hexec =>
          split at hstep
          · obtain rfl := Option.some.inj hstep
            exact h.executed
          · obtain rfl := Option.some.inj hstep
            exact h.executed.put c.requestId response
      · cases hstep

theorem inv_start (capacity : Nat) (storage : σ) : Inv capacity (start capacity storage) where
  places := rfl
  holds := fun _ => List.take_nil.symm
  idle := fun _ _ => rfl
  bound := Nat.le_refl _
  queued := List.nodup_nil
  nodup := fun _ => List.nodup_nil
  apart := fun _ _ hid => absurd hid List.not_mem_nil
  disjoint := fun _ _ _ _ hid => absurd hid List.not_mem_nil
  stale := fun _ _ hid => absurd hid List.not_mem_nil
  staleWaiting := fun _ hid => absurd hid List.not_mem_nil
  spaced := trivial

/-- **Deduplication.** In every run whose lookups for writes are under the condition, an id is
executed again only after as many others as the cache has places. -/
theorem executed_once (execute : Bytes → σ → Response × σ) (needMajorityConfirm : Bool)
    (capacity : Nat) (storage : σ) (actions : List DedupAction) (s : Dedup σ)
    (hrun : Machine.run (step execute needMajorityConfirm) (start capacity storage) actions =
      some s)
    (hmeets : Machine.RunMeets (step execute needMajorityConfirm) Meets
      (start capacity storage) actions) : ExecutedOnce capacity s.applied := by
  have hinv : Inv capacity s :=
    Machine.run_induction (fun _ _ _ h hmeets hstep => Inv.step h hmeets hstep) actions _ s
      (inv_start capacity storage) hmeets hrun
  intro newer id between older happlied hbetween
  have hspaced := hinv.spaced
  rw [happlied] at hspaced
  exact hspaced.le_card hbetween

end Runs

section Retries

/-- A storage that counts the commands. -/
def counting (_ : Bytes) (n : Nat) : Response × Nat := (.count n, n + 1)

/-- `set k v`, with the request id 7. -/
def setCommand : Command := ⟨[7], ascii "set k v"⟩

/-- A retry of a command whose response has been lost. -/
def retried : List DedupAction :=
  [.submit setCommand, .append 0, .commit 1, .execute, .cache, .submit setCommand]

/-- The retry finds the result, and the command has been executed once. -/
theorem executed_once_retried :
    ∃ s, Machine.run (step counting true) (start 3 0) retried = some s ∧
      s.calls 1 = .done ∧ s.applied = [[7]] ∧ ExecutedOnce 3 s.applied := by
  obtain ⟨s, hrun, hcall, happlied⟩ : ∃ s ∈ Machine.run (step counting true) (start 3 0) retried,
      s.calls 1 = .done ∧ s.applied = [[7]] := by
    decide
  have hmeets : Machine.RunMeets (step counting true) Meets (start 3 0) retried := by
    decide
  exact ⟨s, hrun, hcall, happlied, executed_once counting true 3 0 retried s hrun hmeets⟩

/-- Two calls with the same id look it up before either has appended its entry. -/
def concurrent : List DedupAction :=
  [.submit setCommand, .submit setCommand, .append 0, .append 1, .commit 2, .execute, .cache,
    .execute]

/-- Both entries are executed. -/
theorem not_executedOnce_concurrent :
    ¬ ∀ (execute : Bytes → Nat → Response × Nat) (needMajorityConfirm : Bool) (capacity : Nat)
      (storage : Nat) (actions : List DedupAction) (s : Dedup Nat),
      Machine.run (step execute needMajorityConfirm) (start capacity storage) actions = some s →
      ExecutedOnce capacity s.applied := by
  intro h
  obtain ⟨s, hrun, happlied⟩ : ∃ s ∈ Machine.run (step counting true) (start 3 0) concurrent,
      s.applied = [[7], [7]] := by
    decide
  have honce := h counting true 3 0 concurrent s hrun [] [7] [] [] happlied List.not_mem_nil
  simp at honce

/-- Lookups for other ids make an id the least used one: with two places, the result of the id 7
goes when only one other has been applied since. -/
example : ∃ s ∈ Machine.run (step counting true) (start 2 0)
    [.submit ⟨[6], ascii "set a v"⟩, .append 0, .commit 1, .execute, .cache,
      .submit setCommand, .append 1, .commit 2, .execute, .cache,
      .submit ⟨[6], ascii "set a v"⟩, .submit ⟨[5], ascii "set b v"⟩, .append 3, .commit 3,
      .execute, .cache, .submit setCommand, .append 4, .commit 4, .execute],
    s.applied = [[7], [5], [7], [6]] := by
  decide

end Retries

end Dedup

end EyaKV.Raft
