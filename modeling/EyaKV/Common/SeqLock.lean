import Mathlib.Logic.Function.Basic
import Mathlib.Data.List.Basic
import EyaKV.Base.Runs

/-!
# The sequence lock of a skip list node

The value of a `SkipListNode` is read without a lock. The writer makes `seq_` odd, changes the
value and makes it even again; `get_value` reads the number, the value and the number once
more, and starts over when the two numbers differ.

The module models any number of readers beside one writer. A step is one access to `seq_` or
to the value. The state also keeps what the value was after each completed update, and a call
of `get_value` is right when it returns one of the values that were current during the call
(`Read.Current`). An odd number is meant to send the reader back to a fresh read, but the
`continue` of a `do … while` loop goes to the condition of the loop: when the number is still
the same there, the call returns without having read a value. Without that exit, and without
2^32 increments between the two reads of the number, every call is right
(`getValue_current`).
-/

set_option autoImplicit false

namespace EyaKV.Common.SeqLock

open EyaKV.Base

variable {ι V : Type*}

/-- An update by the writer. `set_value` assigns the value. `handle_value` hands it to a
callback, which changes it in place any number of times, and assigns what the callback
returns. -/
inductive Update (V : Type*) where
  | setValue (val : V)
  | handleValue (inPlace : List V) (result : V)

/-- The writes to the value that an update makes, in order. -/
def Update.writes : Update V → List V
  | .setValue val => [val]
  | .handleValue inPlace result => inPlace ++ [result]

/-- Where a call of `get_value` is: before it loads `seq_`, before it copies the value, or
before it loads `seq_` for the condition of the loop. -/
inductive Phase where
  | load
  | copy
  | check
  deriving DecidableEq, Repr

/-- A call of `get_value`: its next access and its local variables. The last two fields are
not in the code: the update that was the last one when the call began, and the number of
increments before `seq_` was loaded. -/
structure Reader (V : Type*) where
  phase : Phase
  val : V
  seq : UInt32
  first : Nat
  loadedAt : Nat

/-- A call that has returned: its value, and the updates that were the last ones when it began
and when it returned. -/
structure Read (V : Type*) where
  val : V
  first : Nat
  last : Nat

/-- The node with its writer and its readers. The last three fields are not in the code: the
value after each completed update, the initial one first, the number of increments of `seq_`,
and the calls that have returned. -/
structure State (ι V : Type*) where
  seq : UInt32
  value : V
  /-- The writes that the update under way has not made yet. -/
  updating : Option (List V)
  readers : ι → Option (Reader V)
  history : List V
  changes : Nat
  reads : List (Read V)

/-- A step: one access of the writer or of a reader. -/
inductive Action (ι V : Type*) where
  | beginUpdate (u : Update V)
  | write
  | endUpdate
  | call (i : ι)
  | load (i : ι)
  | copy (i : ι)
  | check (i : ι)

/-- A call returned a value that was current at some moment during the call. -/
def Read.Current (history : List V) (r : Read V) : Prop :=
  ∃ k, r.first ≤ k ∧ k ≤ r.last ∧ history[k]? = some r.val

/-- The writer is modifying the value, by its number. -/
def isOdd (seq : UInt32) : Bool := seq &&& 1 != 0

/-- The node when it is constructed. -/
def State.init (v : V) : State ι V :=
  { seq := 0, value := v, updating := none, readers := fun _ => none, history := [v],
    changes := 0, reads := [] }

section Steps

variable [DecidableEq ι] [Inhabited V]

/-- The number of the last completed update. -/
def State.lastUpdate (s : State ι V) : Nat := s.history.length - 1

/-- `seq_.fetch_add(1)`. -/
def State.increment (s : State ι V) : State ι V :=
  { s with seq := s.seq + 1, changes := s.changes + 1 }

/-- The call of a reader is at another point. -/
def State.setReader (s : State ι V) (i : ι) (r : Option (Reader V)) : State ι V :=
  { s with readers := Function.update s.readers i r }

/-- The call of a reader, when it is at this point. -/
def State.readerAt (s : State ι V) (i : ι) (phase : Phase) : Option (Reader V) :=
  (s.readers i).filter (·.phase = phase)

/-- `seq = seq_.load()`: an odd number yields and continues with the condition of the loop. -/
def Reader.loaded (s : State ι V) (r : Reader V) : Reader V :=
  { r with seq := s.seq, loadedAt := s.changes, phase := if isOdd s.seq then .check else .copy }

/-- The condition of the loop: the call returns, or it starts over. -/
def State.checked (s : State ι V) (i : ι) (r : Reader V) : State ι V :=
  if r.seq = s.seq then
    { s.setReader i none with reads := s.reads ++ [⟨r.val, r.first, s.lastUpdate⟩] }
  else
    s.setReader i (some { r with phase := .load })

/-- One access. -/
def step (s : State ι V) : Action ι V → Option (State ι V)
  | .beginUpdate u =>
      match s.updating with
      | none => some { s.increment with updating := some u.writes }
      | some _ => none
  | .write =>
      match s.updating with
      | some (v :: rest) => some { s with value := v, updating := some rest }
      | _ => none
  | .endUpdate =>
      match s.updating with
      | some [] => some { s.increment with updating := none, history := s.history ++ [s.value] }
      | _ => none
  | .call i =>
      match s.readers i with
      | none => some (s.setReader i (some ⟨.load, default, 0, s.lastUpdate, 0⟩))
      | some _ => none
  | .load i => (s.readerAt i .load).map fun r => s.setReader i (some (r.loaded s))
  | .copy i =>
      (s.readerAt i .copy).map fun r =>
        s.setReader i (some { r with val := s.value, phase := .check })
  | .check i => (s.readerAt i .check).map fun r => s.checked i r

/-- A check that finds the number it has loaded has loaded an even one, and the number has not
come round to it again since. -/
def Reader.Fresh (s : State ι V) (r : Reader V) : Prop :=
  r.seq = s.seq → isOdd r.seq = false ∧ r.loadedAt = s.changes

instance (s : State ι V) (r : Reader V) : Decidable (r.Fresh s) :=
  inferInstanceAs (Decidable (r.seq = s.seq → isOdd r.seq = false ∧ r.loadedAt = s.changes))

/-- The two ways in which the loop can end without a fresh value are not taken. -/
def FreshCheck (s : State ι V) : Action ι V → Prop
  | .check i => ∀ r ∈ s.readerAt i .check, r.Fresh s
  | _ => True

instance (s : State ι V) : ∀ a, Decidable (FreshCheck s a)
  | .check i => inferInstanceAs (Decidable (∀ r ∈ s.readerAt i .check, r.Fresh s))
  | .beginUpdate _ | .write | .endUpdate | .call _ | .load _ | .copy _ => isTrue trivial

end Steps

section Parity

theorem isOdd_eq (seq : UInt32) : isOdd seq = decide (seq.toNat % 2 = 1) := by
  have hand : (seq &&& 1).toNat = seq.toNat % 2 := by
    rw [UInt32.toNat_and]
    exact Nat.and_one_is_mod _
  have hiff : seq &&& 1 = 0 ↔ seq.toNat % 2 = 0 := by
    rw [← UInt32.toNat_inj, hand]
    exact Iff.rfl
  rcases Nat.mod_two_eq_zero_or_one seq.toNat with h | h
  · simp [isOdd, hiff, h]
  · simp [isOdd, hiff, h]

/-- Each increment changes the parity, also the one that comes round to zero. -/
@[simp] theorem isOdd_add_one (seq : UInt32) : isOdd (seq + 1) = !isOdd seq := by
  have hadd : (seq + 1).toNat = (seq.toNat + 1) % 2 ^ 32 := by
    rw [UInt32.toNat_add]
    rfl
  have hmod : (seq.toNat + 1) % 2 ^ 32 % 2 = (seq.toNat + 1) % 2 :=
    Nat.mod_mod_of_dvd _ (by decide)
  rw [isOdd_eq, isOdd_eq, hadd, hmod]
  rcases Nat.mod_two_eq_zero_or_one seq.toNat with h | h
  · have h' : (seq.toNat + 1) % 2 = 1 := by omega
    simp [h, h']
  · have h' : (seq.toNat + 1) % 2 = 0 := by omega
    simp [h, h']

end Parity

section Invariant

/-- A value that is current stays so when more updates complete. -/
theorem Read.Current.append {history : List V} {r : Read V} (h : r.Current history)
    (more : List V) : r.Current (history ++ more) := by
  obtain ⟨k, hfirst, hlast, hk⟩ := h
  refine ⟨k, hfirst, hlast, ?_⟩
  rw [List.getElem?_append_left (List.getElem?_eq_some_iff.1 hk).1]
  exact hk

/-- What holds of a call under way. A number that has not changed since an even one was loaded
says that no update is under way, and that the value copied since is a current one. -/
structure Reader.Inv (s : State ι V) (r : Reader V) : Prop where
  first : r.first < s.history.length
  loadedAt : r.loadedAt ≤ s.changes
  copy : r.phase = .copy → r.loadedAt = s.changes → s.updating = none
  check : r.phase = .check → isOdd r.seq = false → r.loadedAt = s.changes →
    ∃ k, r.first ≤ k ∧ k < s.history.length ∧ s.history[k]? = some r.val

/-- What holds in every state of a run. -/
structure Sound (s : State ι V) : Prop where
  parity : isOdd s.seq = s.updating.isSome
  idle : s.updating = none → s.history[s.history.length - 1]? = some s.value
  started : 0 < s.history.length
  readers : ∀ i r, s.readers i = some r → r.Inv s
  reads : ∀ r ∈ s.reads, r.Current s.history

theorem sound_init (v : V) : Sound (State.init v : State ι V) where
  parity := by simp [State.init, isOdd]
  idle := fun _ => rfl
  started := Nat.one_pos
  readers := fun _ _ h => by cases h
  reads := fun _ h => by cases h

variable {s s' : State ι V} {r : Reader V}

/-- A call under way is not disturbed by a step of the writer that changes `seq_`. -/
theorem Reader.Inv.increment (h : r.Inv s) (updating : Option (List V)) (more : List V) :
    r.Inv { s.increment with updating := updating, history := s.history ++ more } where
  first := by
    have := h.first
    simp only [List.length_append]
    omega
  loadedAt := Nat.le_succ_of_le h.loadedAt
  copy := fun _ heq => absurd h.loadedAt (by rw [heq]; exact Nat.not_succ_le_self _)
  check := fun _ _ heq => absurd h.loadedAt (by rw [heq]; exact Nat.not_succ_le_self _)

theorem readerAt_eq_some {i : ι} {phase : Phase} :
    s.readerAt i phase = some r ↔ s.readers i = some r ∧ r.phase = phase := by
  simp [State.readerAt, Option.filter_eq_some_iff]

theorem Sound.beginUpdate (h : Sound s) (hidle : s.updating = none) (u : Update V) :
    Sound { s.increment with updating := some u.writes } where
  parity := by
    have hpar := h.parity
    simp only [hidle, Option.isSome_none] at hpar
    simp [State.increment, hpar]
  idle := by simp
  started := h.started
  readers := by
    intro i r hr
    have hinv := (h.readers i r hr).increment (some u.writes) []
    rw [List.append_nil] at hinv
    exact hinv
  reads := h.reads

theorem Sound.write {v : V} {rest : List V} (h : Sound s) (hbusy : s.updating = some (v :: rest)) :
    Sound { s with value := v, updating := some rest } where
  parity := by simpa [hbusy] using h.parity
  idle := by simp
  started := h.started
  readers := by
    intro i r hr
    have hinv := h.readers i r hr
    -- a reader between its load and its copy finds the number changed, as the writer is busy
    refine ⟨hinv.first, hinv.loadedAt, fun hcopy heq => ?_, hinv.check⟩
    rw [hinv.copy hcopy heq] at hbusy
    cases hbusy
  reads := h.reads

theorem Sound.endUpdate (h : Sound s) (hdone : s.updating = some []) :
    Sound { s.increment with updating := none, history := s.history ++ [s.value] } where
  parity := by
    have hpar := h.parity
    simp only [hdone, Option.isSome_some] at hpar
    simp [State.increment, hpar]
  idle := by simp [State.increment]
  started := by simp
  readers := fun i r hr => (h.readers i r hr).increment none [s.value]
  reads := fun r hr => (h.reads r hr).append _

theorem Reader.Inv.loaded (hs : Sound s) (h : r.Inv s) : (r.loaded s).Inv s where
  first := h.first
  loadedAt := Nat.le_refl _
  copy := by
    intro hcopy _
    cases hodd : isOdd s.seq with
    | true => simp [Reader.loaded, hodd] at hcopy
    | false =>
        have hpar := hs.parity
        rw [hodd] at hpar
        simpa using hpar.symm
  check := by
    intro hcheck heven _
    have hodd : isOdd s.seq = false := heven
    simp [Reader.loaded, hodd] at hcheck

theorem Reader.Inv.copied (hs : Sound s) (h : r.Inv s) (hphase : r.phase = .copy) :
    Reader.Inv s { r with val := s.value, phase := .check } where
  first := h.first
  loadedAt := h.loadedAt
  copy := by simp
  check := by
    intro _ _ heq
    have hfirst := h.first
    have hstarted := hs.started
    exact ⟨s.history.length - 1, by simp only; omega, by omega, hs.idle (h.copy hphase heq)⟩

variable [DecidableEq ι]

/-- A step of one reader leaves the other calls as they are. -/
theorem Sound.setReader {i : ι} {new : Option (Reader V)} (h : Sound s)
    (hnew : ∀ r, new = some r → r.Inv s) : Sound (s.setReader i new) where
  parity := h.parity
  idle := h.idle
  started := h.started
  reads := h.reads
  readers := by
    intro j r hj
    by_cases hij : j = i
    · subst hij
      have hr : new = some r := by simpa [State.setReader] using hj
      exact ⟨(hnew r hr).first, (hnew r hr).loadedAt, (hnew r hr).copy, (hnew r hr).check⟩
    · have hr : s.readers j = some r := by
        simpa [State.setReader, Function.update_of_ne hij] using hj
      have hinv := h.readers j r hr
      exact ⟨hinv.first, hinv.loadedAt, hinv.copy, hinv.check⟩

theorem Sound.checked {i : ι} (h : Sound s) (hr : s.readerAt i .check = some r)
    (hfresh : FreshCheck s (.check i)) : Sound (s.checked i r) := by
  obtain ⟨hi, hphase⟩ := readerAt_eq_some.1 hr
  have hinv := h.readers i r hi
  have hnone : Sound (s.setReader i none) := h.setReader (by simp)
  unfold State.checked
  split
  next hseq =>
    -- the call returns: the number it has loaded is even and has not changed since
    have hfresh' : isOdd r.seq = false ∧ r.loadedAt = s.changes :=
      hfresh r hr hseq
    obtain ⟨k, hfirst, hlast, hk⟩ := hinv.check hphase hfresh'.1 hfresh'.2
    refine ⟨hnone.parity, hnone.idle, hnone.started, ?_, ?_⟩
    · intro j r' hj
      have hinv' := hnone.readers j r' hj
      exact ⟨hinv'.first, hinv'.loadedAt, hinv'.copy, hinv'.check⟩
    · intro read hread
      rcases List.mem_append.1 hread with hold | hnew
      · exact hnone.reads read hold
      · rw [List.mem_singleton.1 hnew]
        exact ⟨k, hfirst, Nat.le_sub_one_of_lt hlast, hk⟩
  next =>
    apply h.setReader
    intro r' hr'
    obtain rfl := Option.some.inj hr'
    exact ⟨hinv.first, hinv.loadedAt, by simp, by simp⟩

variable [Inhabited V]

/-- Every access keeps the invariant that is not an unfresh check. -/
theorem Sound.step {a : Action ι V} (h : Sound s) (hfresh : FreshCheck s a)
    (hstep : step s a = some s') : Sound s' := by
  cases a with
  | beginUpdate u =>
      cases hu : s.updating with
      | some _ => simp [SeqLock.step, hu] at hstep
      | none =>
          simp only [SeqLock.step, hu, Option.some.injEq] at hstep
          exact hstep ▸ h.beginUpdate hu u
  | write =>
      match hu : s.updating with
      | none | some [] => simp [SeqLock.step, hu] at hstep
      | some (v :: rest) =>
          simp only [SeqLock.step, hu, Option.some.injEq] at hstep
          exact hstep ▸ h.write hu
  | endUpdate =>
      match hu : s.updating with
      | none | some (_ :: _) => simp [SeqLock.step, hu] at hstep
      | some [] =>
          simp only [SeqLock.step, hu, Option.some.injEq] at hstep
          exact hstep ▸ h.endUpdate hu
  | call i =>
      cases hi : s.readers i with
      | some _ => simp [SeqLock.step, hi] at hstep
      | none =>
          simp only [SeqLock.step, hi, Option.some.injEq] at hstep
          subst hstep
          apply h.setReader
          intro r hr
          obtain rfl := Option.some.inj hr
          -- a new reader has loaded nothing yet
          exact ⟨Nat.sub_one_lt_of_lt h.started, Nat.zero_le _, by simp, by simp⟩
  | load i =>
      obtain ⟨r, hr, rfl⟩ := Option.map_eq_some_iff.1 hstep
      have hinv := h.readers i r (readerAt_eq_some.1 hr).1
      apply h.setReader
      intro r' hr'
      exact Option.some.inj hr' ▸ hinv.loaded h
  | copy i =>
      obtain ⟨r, hr, rfl⟩ := Option.map_eq_some_iff.1 hstep
      obtain ⟨hi, hphase⟩ := readerAt_eq_some.1 hr
      apply h.setReader
      intro r' hr'
      exact Option.some.inj hr' ▸ (h.readers i r hi).copied h hphase
  | check i =>
      obtain ⟨r, hr, rfl⟩ := Option.map_eq_some_iff.1 hstep
      exact h.checked hr hfresh

/-- **Reads of a node.** In every interleaving of any number of readers with one writer in which
no check ends the loop unfreshly, each call of `get_value` returns a value that was current
at some moment during the call. -/
theorem getValue_current (v : V) (actions : List (Action ι V)) (s : State ι V)
    (hfresh : Machine.RunMeets step FreshCheck (State.init v) actions)
    (hrun : Machine.run step (State.init v) actions = some s) :
    ∀ r ∈ s.reads, r.Current s.history := by
  have hinv : Sound s := Machine.run_induction (P := Sound)
    (fun _ _ _ hs hmeets hstep => hs.step hmeets hstep) actions _ s (sound_init v) hfresh hrun
  exact hinv.reads

end Invariant

/-- Two readers copy the value before an update and after it, and both return. -/
theorem getValue_current_two :
    ∃ s : State Bool Nat, s.reads.map (·.val) = [7, 5] ∧ ∀ r ∈ s.reads, r.Current s.history :=
  let actions : List (Action Bool Nat) :=
    [.call false, .call true, .load false, .copy false, .check false, .beginUpdate (.setValue 5),
      .write, .endUpdate, .load true, .copy true, .check true]
  have hmeets : Machine.RunMeets step FreshCheck (State.init 7) actions := by decide
  ⟨(Machine.run step (State.init 7) actions).get (by decide), by decide,
    getValue_current 7 actions _ hmeets (Option.some_get _).symm⟩

/-- A reader that loads `seq_` twice while an update is under way returns a default-constructed
value, and one that has copied the value in the middle of the update before returns that
copy. -/
theorem getValue_not_current :
    ∃ (actions : List (Action Bool Nat)) (s : State Bool Nat),
      Machine.run step (State.init 7) actions = some s ∧
      s.reads.map (·.val) = [0, 9] ∧ ∀ r ∈ s.reads, ¬ r.Current s.history := by
  let actions : List (Action Bool Nat) :=
    [.call true, .load true, .beginUpdate (.handleValue [9] 5), .call false, .load false,
      .check false, .write, .copy true, .check true, .load true, .check true]
  let s : State Bool Nat := (Machine.run step (State.init 7) actions).get (by decide)
  have hreads : s.reads = [⟨0, 0, 0⟩, ⟨9, 0, 0⟩] := rfl
  have hhistory : s.history = [7] := rfl
  refine ⟨actions, s, (Option.some_get _).symm, by rw [hreads]; rfl, ?_⟩
  intro r hr
  rw [hreads, List.mem_pair] at hr
  rw [hhistory]
  -- the only value that was current is the initial one
  rcases hr with rfl | rfl
  · rintro ⟨k, _, hlast, hk⟩
    obtain rfl := Nat.le_zero.1 hlast
    cases hk
  · rintro ⟨k, _, hlast, hk⟩
    obtain rfl := Nat.le_zero.1 hlast
    cases hk

end EyaKV.Common.SeqLock
