import EyaKV.Base.Runs
import EyaKV.Raft.Appending

/-!
# Automatic truncation

`append` and `batch_append` truncate the log from the front when it has become too long. They go by
its length alone. What has been applied, and what the followers of a leader still need, is known
to the node, and the log does not ask.

It does not come to that. The call of `truncate_before` takes the mutex of the array, which its
caller holds, and a `std::shared_mutex` lets nobody in a second time, its owner included. In
libstdc++ the call throws; the entries have been added by then, and nothing has been removed. The
same holds for `truncate_from`, which asks for the last index first.

`HoldsAll` says that a log has everything that another one had. Every step of a node leaves it so
(`HoldsAll.step`), but for those in which another log takes the place of the log: the end of the
installation of a snapshot, `SETMASTER`, and a restart. So the loops that execute the committed
entries find them, and so does a leader the entries for its followers (`truncation_safe`).
-/

set_option autoImplicit false

namespace EyaKV.Raft

open EyaKV.Base

section Logs

variable {cfg : RaftLogConfig} {log log' log'' : RaftLogArray}

/-- The log has everything that another one had, and begins where that began. -/
structure HoldsAll (log log' : RaftLogArray) : Prop where
  base : log'.baseIndex = log.baseIndex
  held : ∀ i e, log.get i = some e → log'.get i = some e

theorem HoldsAll.refl (log : RaftLogArray) : HoldsAll log log := ⟨rfl, fun _ _ h => h⟩

theorem HoldsAll.of_eq (h : log' = log) : HoldsAll log log' := h ▸ .refl log

theorem HoldsAll.trans (h : HoldsAll log log') (h' : HoldsAll log' log'') : HoldsAll log log'' :=
  ⟨h'.base.trans h.base, fun i e hget => h'.held i e (h.held i e hget)⟩

/-- Entries that are added come behind those that are there. -/
theorem HoldsAll.extend (log : RaftLogArray) (entries : List LogEntry) :
    HoldsAll log (log.extend entries) := by
  refine ⟨rfl, fun i e hget => ?_⟩
  obtain ⟨hbase, hlt⟩ := RaftLogArray.lt_of_get hget
  rw [RaftLogArray.get_of_le hbase] at hget
  have hindex : i - log.baseIndex < log.entries.length := by omega
  have hbase' : (log.extend entries).baseIndex ≤ i := hbase
  rw [RaftLogArray.get_of_le hbase']
  exact (List.getElem?_append_left hindex).trans hget

/-- The owner of the mutex does not get it again, and nothing is truncated from the front. -/
theorem HoldsAll.batchAppend (hlock : cfg.relock = false) (log : RaftLogArray)
    (entries : List LogEntry) : HoldsAll log (log.batchAppend cfg entries).1 := by
  have hstop (log : RaftLogArray) (index : Nat) : log.truncateBefore cfg index = none := by
    rw [RaftLogArray.truncateBefore, hlock]
    rfl
  rw [RaftLogArray.batchAppend]
  split
  · exact .refl log
  · simp only [hstop]
    split
    · exact .extend log entries
    · exact .extend log entries

/-- Nor at the end: a call of `truncate_from` that returns has found nothing to remove. -/
theorem eq_of_truncateFrom (hlock : cfg.relock = false) {index : Nat}
    (h : log.truncateFrom cfg index = some log') : log' = log := by
  rw [RaftLogArray.truncateFrom, hlock] at h
  split at h
  · exact (Option.some.inj h).symm
  · cases h

end Logs

section Handlers

variable {cfg : RaftNodeConfig}

/-- The loop of `handle_append_entries` leaves what is there. -/
theorem HoldsAll.appendLoop (hlock : cfg.logConfig.relock = false) (entries : List LogEntry) :
    ∀ (log : RaftLogArray) (count : Nat),
      HoldsAll log (Node.appendLoop cfg log count entries).log := by
  induction entries with
  | nil => exact fun log _ => .refl log
  | cons e rest ih =>
      intro log count
      -- an append, and the rest of the loop
      have append (log : RaftLogArray) : HoldsAll log
          (Node.afterAppend cfg count rest (log.batchAppend cfg.logConfig [e])).log := by
        have hone := HoldsAll.batchAppend hlock log [e]
        unfold Node.afterAppend
        split
        · next log₁ heq =>
            rw [heq] at hone
            exact hone.trans (ih log₁ (count + 1))
        · next log₁ heq =>
            rw [heq] at hone
            exact hone
      rw [Node.appendLoop_cons]
      cases log.get e.index with
      | none => exact append log
      | some existing =>
          simp only
          split
          · exact ih log count
          · split
            · next log₁ htrunc =>
                rw [eq_of_truncateFrom hlock htrunc]
                exact append log
            · exact .refl log

/-- A handler changes the log by the loop alone. -/
theorem HoldsAll.handle (hlock : cfg.logConfig.relock = false) (n : Node) (hd : Handler) :
    HoldsAll n.logArray (n.handle cfg hd).logArray := by
  rcases handle_cases cfg n hd with ⟨origin, msg, rfl⟩ | rfl | ⟨j, rfl⟩ | hsame
  · obtain ⟨-, -, hlog | hlog⟩ := handleAppendEntries_progress cfg n origin msg
    · exact .of_eq hlog
    · have hloop := HoldsAll.appendLoop hlock msg.entries n.logArray 0
      rw [← hlog] at hloop
      exact hloop
  · exact .of_eq (advanceCommit_spec n).1
  · exact .of_eq (follow_spec n j).1
  · exact .of_eq hsame.logArray

end Handlers

namespace Applier

section Statement

variable (s : Applier)

/-- The steps in which another log takes the place of the log. -/
def Replaces : Event → Prop
  | .advance => s.Installing
  | .clear _ _ => True
  | .restart _ _ => True
  | _ => False

/-- The last index that the loop at work has executed. -/
def reached : Nat :=
  match s.work with
  | none => s.node.state.lastApplied
  | some (.apply lastApplied _ marked) => if marked then lastApplied - 1 else lastApplied
  | some (.commit lastApplied lastLogIndex) => min lastApplied lastLogIndex
  | some (.install lastIncludedIndex _) => lastIncludedIndex

/-- Of the log from `base` on, no entry above `last_applied_` has been discarded, the loop at work
finds the entries that it has not executed, and a leader finds the entries for its followers. -/
structure Kept (base : Nat) : Prop where
  cut : s.node.logArray.baseIndex ≤ max base (s.node.state.lastApplied + 1)
  found : ∀ i, base ≤ i → s.reached < i → i ≤ s.node.logArray.getLastIndex →
    (s.node.logArray.get i).isSome
  sent : ∀ (conn : Conn) (next i : Nat), s.node.nextIndex[conn]? = some next → base ≤ next →
    next ≤ i → i ≤ s.node.logArray.getLastIndex → (s.node.logArray.get i).isSome

end Statement

section Results

variable {cfg : RaftNodeConfig} {s s' : Applier}

theorem execute_node (s : Applier) (index : Nat) : (s.execute index).node = s.node := by
  rw [execute]
  split <;> rfl

/-- A piece of the work other than the end of an installation leaves the log. -/
theorem logArray_advance {w : Work} (hwork : s.work = some w) (hinstall : ¬ s.Installing) :
    (s.advance w).node.logArray = s.node.logArray := by
  cases w with
  | apply l c marked =>
      cases marked with
      | true => exact congrArg Node.logArray (s.execute_node l)
      | false =>
          rw [Applier.advance]
          split <;> rfl
  | commit l c =>
      rw [Applier.advance]
      split
      · exact congrArg Node.logArray (s.execute_node (l + 1))
      · rfl
  | install index content => exact absurd ⟨index, content, hwork⟩ hinstall

/-- **One step.** -/
theorem holdsAll_step (hlock : cfg.logConfig.relock = false) {ev : Event}
    (hsame : ¬ s.Replaces ev) (hstep : s.step cfg ev = some s') :
    HoldsAll s.node.logArray s'.node.logArray := by
  cases ev with
  | handle hd =>
      obtain ⟨-, hs⟩ := Option.ite_none_right_eq_some.1 hstep
      obtain rfl := Option.some.inj hs
      exact .handle hlock s.node hd
  | serialize =>
      obtain rfl := Option.some.inj hstep
      exact .refl _
  | write saved =>
      obtain ⟨-, hs⟩ := Option.ite_none_right_eq_some.1 hstep
      obtain rfl := Option.some.inj hs
      exact .refl _
  | submit entries =>
      obtain rfl := Option.some.inj hstep
      exact .batchAppend hlock s.node.logArray entries
  | startApply =>
      obtain ⟨-, hs⟩ := Option.ite_none_right_eq_some.1 hstep
      split at hs
      · obtain rfl := Option.some.inj hs
        exact .refl _
      · obtain rfl := Option.some.inj hs
        exact .refl _
  | startCommit =>
      obtain ⟨-, hs⟩ := Option.ite_none_right_eq_some.1 hstep
      split at hs
      · obtain rfl := Option.some.inj hs
        exact .refl _
      · obtain rfl := Option.some.inj hs
        exact .refl _
  | advance =>
      obtain ⟨w, hwork, rfl⟩ := Option.map_eq_some_iff.1 hstep
      exact .of_eq (logArray_advance hwork hsame)
  | restore index content =>
      obtain rfl := Option.some.inj hstep
      exact .refl _
  | clear empty found => exact absurd trivial hsame
  | replace r =>
      obtain ⟨-, hs⟩ := Option.ite_none_right_eq_some.1 hstep
      obtain rfl := Option.some.inj hs
      cases r <;> exact .refl _
  | restart kept found => exact absurd trivial hsame
  | sanitize =>
      obtain ⟨-, hs⟩ := Option.ite_none_right_eq_some.1 hstep
      obtain rfl := Option.some.inj hs
      exact .refl _

theorem isSome_get {log : RaftLogArray} {i : Nat} (hbase : log.baseIndex ≤ i)
    (hlast : i ≤ log.getLastIndex) : (log.get i).isSome := by
  have hpos := log.base_pos
  rw [RaftLogArray.getLastIndex] at hlast
  split at hlast
  · omega
  · rw [RaftLogArray.get_of_le hbase, isSome_getElem?]
    omega

/-- What has held everything since `base` misses nothing that is needed. -/
theorem kept_of_base {base : Nat} (hbase : s.node.logArray.baseIndex = base) : s.Kept base where
  cut := hbase ▸ Nat.le_max_left _ _
  found _ hle _ hlast := isSome_get (hbase ▸ hle) hlast
  sent _ _ _ _ hnext hle hlast := isSome_get (hbase ▸ hnext.trans hle) hlast

/-- **Truncation.** From any state on, and for any threshold and ratio, no append discards an entry:
as long as no other log takes its place, the log has all that it had, and of the entries from where
it began on, none above `last_applied_` is gone, none that is to be executed and none that a
follower is to be sent. The log of a new node begins at index 1. -/
theorem truncation_safe (cfg : RaftNodeConfig) (hlock : cfg.logConfig.relock = false)
    (events : List Event) (s s' : Applier)
    (hsame : Machine.RunMeets (step cfg) (fun s ev => ¬ s.Replaces ev) s events)
    (hrun : Machine.run (step cfg) s events = some s') :
    HoldsAll s.node.logArray s'.node.logArray ∧ s'.Kept s.node.logArray.baseIndex := by
  have hholds : HoldsAll s.node.logArray s'.node.logArray :=
    Machine.run_induction (P := fun t => HoldsAll s.node.logArray t.node.logArray)
      (fun _ _ _ h hmeets hstep => h.trans (holdsAll_step hlock hmeets hstep)) events s s'
      (.refl _) hsame hrun
  exact ⟨hholds, kept_of_base hholds.base⟩

/-- A log of more than two entries is to lose the first half. -/
def halvingConfig : RaftNodeConfig := ⟨⟨2, fun size => size / 2, false⟩, 10, false, fun _ => true⟩

/-- Three writes, one at a time, and a commit. The third append starts a truncation. -/
def writes : List Event := [.submit [⟨0, 1, [1]⟩], .submit [⟨0, 2, [2]⟩], .submit [⟨0, 3, [3]⟩],
  .startCommit, .advance, .advance, .advance, .advance]

/-- All three are there and are executed, the first of them too. -/
theorem truncation_safe_writes : ∃ s, Machine.run (step halvingConfig) {} writes = some s ∧
    s.executed = [1, 2, 3] ∧ s.Kept 1 := by
  have hcommit {s : Applier} {l c : Nat} (hwork : s.work = some (.commit l c)) :
      ¬ s.Replaces .advance := not_installing hwork fun _ _ => Work.noConfusion
  refine ⟨_, rfl, rfl, (truncation_safe halvingConfig rfl writes {} _ ?_ rfl).2⟩
  refine ⟨id, fun s₁ h₁ => ?_⟩
  obtain rfl := Option.some.inj h₁
  refine ⟨id, fun s₂ h₂ => ?_⟩
  obtain rfl := Option.some.inj h₂
  refine ⟨id, fun s₃ h₃ => ?_⟩
  obtain rfl := Option.some.inj h₃
  refine ⟨id, fun s₄ h₄ => ?_⟩
  obtain rfl := Option.some.inj h₄
  refine ⟨hcommit rfl, fun s₅ h₅ => ?_⟩
  obtain rfl := Option.some.inj h₅
  refine ⟨hcommit rfl, fun s₆ h₆ => ?_⟩
  obtain rfl := Option.some.inj h₆
  refine ⟨hcommit rfl, fun s₇ h₇ => ?_⟩
  obtain rfl := Option.some.inj h₇
  exact ⟨hcommit rfl, fun _ _ => trivial⟩

end Results

end Applier

end EyaKV.Raft
