import EyaKV.Base.Runs
import Mathlib.Algebra.BigOperators.Group.Multiset.Basic
import Mathlib.Algebra.Order.BigOperators.Group.Multiset
import Mathlib.Data.Finset.Card
import Mathlib.Data.Multiset.Filter

/-!
# Accounting of connections

The acceptor takes a new connection under the mutex of the wait queue: into a slot, into the queue,
or not at all. Threads that run `close_socket` take a session out of the table, decrease the
counter, and pass the slot on to the front of the queue; the parts of `close_socket` lock the session table
and the queue one after the other, and the counter is an atomic between them. The machine has one
acceptor, any number of threads in `close_socket` at any of its points, and the monitor of the
queue, with every access to the counter, the table and the queue as a step of its own.

The accounts are right in every state of a run in which the acceptor does not take a slot that is on
its way to a connection in the queue, a session is only removed while the counter has it, and
`add_socket` does not fail for a connection that is activated before others that wait
(`accounted_of_meets`).
-/

set_option autoImplicit false

namespace EyaKV.Network.Connections

open EyaKV.Base.Machine

section Machine

/-- A file descriptor. -/
abbrev Socket := Nat

/-- `max_connections_` and `connect_wait_queue_size_`. -/
structure Limits where
  maxConnections : UInt32
  connectWaitQueueSize : UInt32
  deriving DecidableEq, Repr

/-- Where the acceptor is; it has the mutex of the queue unless it is idle. -/
inductive Acceptor where
  | idle
  /-- It has found a free slot. -/
  | admitted (sock : Socket)
  /-- In `assign_to_slave`, between the insertion of the session and `add_socket`. -/
  | inserted (sock : Socket)
  /-- Behind `assign_to_slave`, before `current_connections_++`. -/
  | assigned
  deriving DecidableEq, Repr

/-- Where a thread in `close_socket` is. -/
inductive Closer where
  /-- `remove_from_slave` has erased the session. -/
  | removed (sock : Socket)
  /-- The socket is closed; `current_connections_ > 0` is next. -/
  | closed
  /-- The counter was above 0; `fetch_sub` is next. -/
  | checked
  /-- The look into the queue is next. -/
  | freed
  /-- A connection is taken from the queue. -/
  | activated (sock : Socket)
  /-- In `assign_to_slave`, between the insertion of the session and `add_socket`. -/
  | inserted (sock : Socket)
  /-- Behind `assign_to_slave`, before `current_connections_++`. -/
  | assigned
  deriving DecidableEq, Repr

/-- `TCPServer`, and the threads that work on it. `allSessions` are the keys of `all_sessions_`. -/
structure Server where
  currentConnections : UInt32 := 0
  allSessions : Finset Socket := ∅
  waitQueue : List Socket := []
  acceptor : Acceptor := .idle
  closers : Multiset Closer := 0
  deriving DecidableEq

/-- The server before its first connection. -/
def start : Server := {}

/-- A step: `accept` returns a socket, the acceptor goes on, a call of `close_socket`, a thread in
`close_socket` goes on, and the monitor closes the connections at the front of the queue that have
waited too long. `added` is what `add_socket` returns, where it is called. -/
inductive Action where
  | accept (sock : Socket)
  | acceptor (added : Bool)
  | close (sock : Socket)
  | closer (c : Closer) (added : Bool)
  | expire (n : Nat)
  deriving DecidableEq, Repr

/-- The socket that a thread has taken from the queue, before its session is in the table. -/
def Closer.arriving : Closer → Option Socket
  | .activated sock => some sock
  | _ => none

def Acceptor.arriving : Acceptor → Multiset Socket
  | .admitted sock => {sock}
  | _ => 0

/-- The open sockets that are not in the table yet. -/
def Server.arriving (s : Server) : Multiset Socket :=
  s.waitQueue + s.closers.filterMap Closer.arriving + s.acceptor.arriving

/-- The sockets that `accept` cannot return. -/
def Server.IsOpen (s : Server) (sock : Socket) : Prop :=
  sock ∈ s.allSessions ∨ sock ∈ s.arriving ∨ .removed sock ∈ s.closers

instance (s : Server) (sock : Socket) : Decidable (s.IsOpen sock) :=
  inferInstanceAs (Decidable (_ ∨ _ ∨ _))

/-- One more thread in `close_socket`. -/
def Server.add (s : Server) (c : Closer) : Server := { s with closers := c ::ₘ s.closers }

/-- `handle_accept` from its lock on. -/
def acceptorStep (s : Server) (added : Bool) : Option Server :=
  match s.acceptor with
  | .idle => none
  | .admitted sock =>
      some { s with allSessions := insert sock s.allSessions, acceptor := .inserted sock }
  | .inserted sock =>
      if added then some { s with acceptor := .assigned }
      else some { s with allSessions := s.allSessions.erase sock, acceptor := .idle }
  | .assigned =>
      some { s with currentConnections := s.currentConnections + 1, acceptor := .idle }

/-- `close_socket` behind `remove_from_slave`, for a thread that the state does not list. -/
def closerStep (s : Server) (added : Bool) : Closer → Option Server
  | .removed _ => some (s.add .closed)
  | .closed => some (s.add (if 0 < s.currentConnections then .checked else .freed))
  | .checked => some ({ s with currentConnections := s.currentConnections - 1 }.add .freed)
  | .freed =>
      if s.acceptor = .idle then
        match s.waitQueue with
        | [] => some s
        | sock :: rest => some ({ s with waitQueue := rest }.add (.activated sock))
      else none
  | .activated sock =>
      some ({ s with allSessions := insert sock s.allSessions }.add (.inserted sock))
  | .inserted sock =>
      if added then some (s.add .assigned)
      else some { s with allSessions := s.allSessions.erase sock }
  | .assigned => some { s with currentConnections := s.currentConnections + 1 }

/-- The steps of the server. -/
def step (limits : Limits) (s : Server) : Action → Option Server
  | .accept sock =>
      if s.acceptor = .idle ∧ ¬ s.IsOpen sock then
        if s.currentConnections < limits.maxConnections then
          some { s with acceptor := .admitted sock }
        else if s.waitQueue.length < limits.connectWaitQueueSize.toNat then
          some { s with waitQueue := s.waitQueue ++ [sock] }
        else some s
      else none
  | .acceptor added => acceptorStep s added
  | .close sock =>
      -- a socket without a session is left alone
      if sock ∈ s.allSessions then
        some ({ s with allSessions := s.allSessions.erase sock }.add (.removed sock))
      else some s
  | .closer c added =>
      if c ∈ s.closers then closerStep { s with closers := s.closers.erase c } added c else none
  | .expire n =>
      if s.acceptor = .idle then some { s with waitQueue := s.waitQueue.drop n } else none

end Machine

section Accounts

/-- No thread is at work on the connections. -/
def Server.Quiescent (s : Server) : Prop := s.acceptor = .idle ∧ s.closers = 0

instance (s : Server) : Decidable s.Quiescent := inferInstanceAs (Decidable (_ ∧ _))

/-- The accounts are right. -/
structure Accounted (limits : Limits) (s : Server) : Prop where
  counted : s.Quiescent → s.currentConnections.toNat = s.allSessions.card
  bounded : s.currentConnections ≤ limits.maxConnections
  noUnderflow : .checked ∈ s.closers → s.currentConnections ≠ 0
  served : s.Quiescent → s.waitQueue ≠ [] → ¬ s.currentConnections < limits.maxConnections

/-- The threads that have removed a session and not decreased the counter. -/
def Closer.leaves : Closer → Nat
  | .removed _ | .closed | .checked => 1
  | _ => 0

/-- The threads that look into the queue next. -/
def Closer.frees : Closer → Nat
  | .freed => 1
  | _ => 0

/-- The threads that activate a connection. -/
def Closer.activates : Closer → Nat
  | .activated _ | .inserted _ | .assigned => 1
  | _ => 0

/-- The threads whose session is in the table and not counted. -/
def Closer.enters : Closer → Nat
  | .inserted _ | .assigned => 1
  | _ => 0

def Acceptor.enters : Acceptor → Nat
  | .inserted _ | .assigned => 1
  | _ => 0

/-- The acceptor is on the way with a connection. -/
def Acceptor.admits : Acceptor → Nat
  | .idle => 0
  | _ => 1

/-- How many threads in `close_socket` are of a kind. -/
def total (closers : Multiset Closer) (kind : Closer → Nat) : Nat := (closers.map kind).sum

/-- The free slots that are on their way to connections of the queue. -/
def Server.promised (s : Server) : Nat :=
  total s.closers Closer.activates + min (total s.closers Closer.frees) s.waitQueue.length

/-- When `add_socket` is next, the session is still in the table. -/
def Acceptor.Listed (allSessions : Finset Socket) : Acceptor → Prop
  | .inserted sock => sock ∈ allSessions
  | _ => True

instance (allSessions : Finset Socket) : DecidablePred (Acceptor.Listed allSessions)
  | .inserted _ => inferInstanceAs (Decidable (_ ∈ _))
  | .idle | .admitted _ | .assigned => isTrue trivial

/-- The acceptor takes a slot only when a slot is free that is not promised, and puts a connection
into the queue only when no thread that has freed a slot is about to look there; a session is
removed only when the counter is above the number of removals that it does not know of; and when
`add_socket` fails, the session is still there, and if a thread in `close_socket` has called it, no
other connection waits. -/
def Meets (limits : Limits) (s : Server) : Action → Prop
  | .accept _ =>
      (s.currentConnections < limits.maxConnections →
        s.currentConnections.toNat + s.promised < limits.maxConnections.toNat) ∧
      (¬ s.currentConnections < limits.maxConnections →
        s.waitQueue.length < limits.connectWaitQueueSize.toNat → total s.closers Closer.frees = 0)
  | .close sock => sock ∈ s.allSessions → total s.closers Closer.leaves < s.currentConnections.toNat
  | .acceptor false => s.acceptor.Listed s.allSessions
  | .closer (.inserted sock) false => sock ∈ s.allSessions ∧ s.waitQueue = []
  | _ => True

instance (limits : Limits) (s : Server) : DecidablePred (Meets limits s)
  | .accept _ => inferInstanceAs (Decidable ((_ → _) ∧ (_ → _ → _)))
  | .close _ => inferInstanceAs (Decidable (_ → _))
  | .acceptor false => inferInstanceAs (Decidable (s.acceptor.Listed s.allSessions))
  | .closer (.inserted _) false => inferInstanceAs (Decidable (_ ∧ _))
  | .acceptor true | .expire _ | .closer (.inserted _) true | .closer (.removed _) _
  | .closer .closed _ | .closer .checked _ | .closer .freed _ | .closer (.activated _) _
  | .closer .assigned _ => isTrue trivial

@[simp] theorem add_currentConnections (s : Server) (c : Closer) :
    (s.add c).currentConnections = s.currentConnections := rfl

@[simp] theorem add_allSessions (s : Server) (c : Closer) :
    (s.add c).allSessions = s.allSessions := rfl

@[simp] theorem add_waitQueue (s : Server) (c : Closer) : (s.add c).waitQueue = s.waitQueue := rfl

@[simp] theorem add_acceptor (s : Server) (c : Closer) : (s.add c).acceptor = s.acceptor := rfl

@[simp] theorem add_closers (s : Server) (c : Closer) : (s.add c).closers = c ::ₘ s.closers := rfl

@[simp] theorem total_zero (kind : Closer → Nat) : total 0 kind = 0 := rfl

@[simp] theorem total_cons (c : Closer) (closers : Multiset Closer) (kind : Closer → Nat) :
    total (c ::ₘ closers) kind = kind c + total closers kind := by
  simp [total]

theorem arriving_add (s : Server) (c : Closer) :
    (s.add c).arriving = (c.arriving.elim 0 fun sock => {sock}) + s.arriving := by
  cases h : c.arriving with
  | none => simp [Server.arriving, Server.add, Multiset.filterMap_cons_none _ _ h]
  | some sock =>
      simp [Server.arriving, Server.add, Multiset.filterMap_cons_some _ _ _ h, add_assoc]

/-- A thread of a state is one more than the others. -/
theorem exists_add {s : Server} {c : Closer} (h : c ∈ s.closers) :
    s = { s with closers := s.closers.erase c }.add c := by
  simp [Server.add, Multiset.cons_erase h]

/-- What the counter, the table, the queue and the threads add up to. -/
structure Inv (limits : Limits) (s : Server) : Prop where
  counted : s.currentConnections.toNat + (total s.closers Closer.enters + s.acceptor.enters) =
    s.allSessions.card + total s.closers Closer.leaves
  covered : total s.closers Closer.enters + s.acceptor.enters ≤ s.allSessions.card
  bounded : s.currentConnections.toNat + s.acceptor.admits + s.promised ≤
    limits.maxConnections.toNat
  served : s.waitQueue ≠ [] → limits.maxConnections.toNat ≤
    s.currentConnections.toNat + total s.closers Closer.frees + total s.closers Closer.activates
  distinct : (s.allSessions.val + s.arriving).Nodup

theorem inv_start (limits : Limits) : Inv limits start := by
  constructor <;> simp [start, Server.promised, Server.arriving, Acceptor.enters,
    Acceptor.admits, Acceptor.arriving]

/-- A thread between its check and its `fetch_sub` has a removal behind it that the counter does not
know of. -/
theorem leaves_pos {s : Server} (h : .checked ∈ s.closers) : 0 < total s.closers Closer.leaves := by
  rw [exists_add h, add_closers, total_cons]
  exact Nat.lt_of_lt_of_le Nat.one_pos (Nat.le_add_right 1 _)

theorem Inv.accounted {limits : Limits} {s : Server} (h : Inv limits s) : Accounted limits s := by
  obtain ⟨hcounted, hcovered, hbounded, hserved, -⟩ := h
  constructor
  case counted =>
    rintro ⟨hacceptor, hclosers⟩
    simpa [hclosers, hacceptor, Acceptor.enters] using hcounted
  case bounded =>
    rw [UInt32.le_iff_toNat_le]
    omega
  case noUnderflow =>
    intro hchecked hzero
    have hpos := leaves_pos hchecked
    rw [hzero] at hcounted
    simp only [UInt32.toNat_zero] at hcounted
    omega
  case served =>
    rintro ⟨-, hclosers⟩ hqueue
    have hmax := hserved hqueue
    simp only [hclosers, total_zero] at hmax
    rw [UInt32.lt_iff_toNat_lt]
    omega

variable {limits : Limits} {s s' : Server}

theorem toNat_add_one {c : UInt32} {n : Nat} (h : c.toNat + 1 ≤ n) (hn : n < 2 ^ 32) :
    (c + 1).toNat = c.toNat + 1 := by
  rw [UInt32.toNat_add]
  exact Nat.mod_eq_of_lt (by simpa using Nat.lt_of_le_of_lt h hn)

theorem toNat_sub_one {c : UInt32} (h : 0 < c.toNat) : (c - 1).toNat = c.toNat - 1 := by
  refine UInt32.toNat_sub_of_le c 1 ?_
  rw [UInt32.le_iff_toNat_le]
  exact h

/-- A socket on its way into the table is not there. -/
theorem Inv.notMem_allSessions (h : Inv limits s) {sock : Socket} (hsock : sock ∈ s.arriving) :
    sock ∉ s.allSessions := fun hmem =>
  Multiset.disjoint_left.1 (Multiset.nodup_add.1 h.distinct).2.2 hmem hsock

/-- The monitor makes the queue shorter. -/
theorem Inv.expire (h : Inv limits s) (n : Nat) :
    Inv limits { s with waitQueue := s.waitQueue.drop n } := by
  obtain ⟨hcounted, hcovered, hbounded, hserved, hdistinct⟩ := h
  refine ⟨hcounted, hcovered, ?_, ?_, ?_⟩
  · refine Nat.le_trans (Nat.add_le_add_left ?_ _) hbounded
    refine Nat.add_le_add_left (Nat.le_min.2 ⟨Nat.min_le_left _ _, ?_⟩) _
    refine Nat.le_trans (Nat.min_le_right _ _) ?_
    exact (List.drop_sublist n s.waitQueue).length_le
  · intro hne
    refine hserved fun hempty => hne ?_
    simp only [hempty, List.drop_nil]
  · refine Multiset.nodup_of_le (add_le_add_right ?_ _) hdistinct
    refine add_le_add_left (add_le_add_left ?_ _) _
    exact (List.drop_sublist n s.waitQueue).subperm

/-- A socket that `accept` returns is not in the table, and no other thread has it. -/
theorem Inv.distinct_cons (h : Inv limits s) {sock : Socket} (hsock : ¬ s.IsOpen sock) :
    (s.allSessions.val + (sock ::ₘ s.arriving)).Nodup := by
  rw [Multiset.add_cons, Multiset.nodup_cons]
  refine ⟨fun hmem => hsock ?_, h.distinct⟩
  rcases Multiset.mem_add.1 hmem with htable | harriving
  · exact Or.inl htable
  · exact Or.inr (Or.inl harriving)

/-- A connection that the acceptor admits takes a slot that is not promised. -/
theorem Inv.accept {sock : Socket} (h : Inv limits s) (hmeets : Meets limits s (.accept sock))
    (hstep : step limits s (.accept sock) = some s') : Inv limits s' := by
  have hdistinct : ¬ s.IsOpen sock → _ := h.distinct_cons
  obtain ⟨hcounted, hcovered, hbounded, hserved, hold⟩ := h
  obtain ⟨hfits, hwait⟩ := hmeets
  simp only [step] at hstep
  split at hstep
  case isFalse => cases hstep
  rename_i hfree
  obtain ⟨hidle, hopen⟩ := hfree
  rw [hidle] at hcounted hcovered hbounded
  split at hstep
  case isTrue =>
    rename_i hlt
    obtain rfl := Option.some.inj hstep
    refine ⟨hcounted, hcovered, ?_, hserved, ?_⟩
    · have hslot := hfits hlt
      simp only [Server.promised, Acceptor.admits] at hslot ⊢
      omega
    · simpa [Server.arriving, hidle, Acceptor.arriving, add_assoc, ← Multiset.singleton_add,
        add_comm, add_left_comm] using hdistinct hopen
  rename_i hfull
  split at hstep
  case isTrue =>
    rename_i hroom
    obtain rfl := Option.some.inj hstep
    have hfreed := hwait hfull hroom
    rw [UInt32.lt_iff_toNat_lt] at hfull
    refine ⟨by rwa [hidle], by rwa [hidle], ?_, fun _ => ?_, ?_⟩
    · -- no thread is about to look into the queue, so that a longer queue has no more promises
      simp only [Server.promised, hidle] at hbounded hfreed ⊢
      omega
    · exact Nat.le_trans (Nat.le_of_not_lt hfull) (by simp only [Nat.le_add_right, add_assoc])
    · simpa [Server.arriving, ← Multiset.singleton_add, ← Multiset.coe_add, add_assoc, add_comm,
        add_left_comm] using hdistinct hopen
  case isFalse =>
    obtain rfl := Option.some.inj hstep
    exact ⟨by rwa [hidle], by rwa [hidle], by rwa [hidle], hserved, hold⟩

/-- The acceptor brings its connection to a slot. -/
theorem Inv.acceptor {added : Bool} (h : Inv limits s)
    (hmeets : Meets limits s (.acceptor added)) (hstep : acceptorStep s added = some s') :
    Inv limits s' := by
  have hnew : ∀ sock ∈ s.arriving, sock ∉ s.allSessions := fun sock => h.notMem_allSessions
  obtain ⟨hcounted, hcovered, hbounded, hserved, hdistinct⟩ := h
  simp only [acceptorStep] at hstep
  -- each stage counts the connection in another place of the sums
  cases hacceptor : s.acceptor with
  | idle => simp only [hacceptor, reduceCtorEq] at hstep
  | admitted sock =>
      simp only [hacceptor, Option.some.injEq] at hstep
      subst hstep
      have hsock : sock ∉ s.allSessions := hnew sock (by simp [Server.arriving, hacceptor,
        Acceptor.arriving])
      rw [hacceptor] at hcounted hcovered hbounded
      refine ⟨?_, ?_, hbounded, hserved, ?_⟩
      · simp only [Finset.card_insert_of_notMem hsock, Acceptor.enters]
          at hcounted ⊢
        omega
      · simp only [Finset.card_insert_of_notMem hsock, Acceptor.enters]
          at hcovered ⊢
        omega
      · simpa [Server.arriving, hacceptor, Acceptor.arriving,
          Finset.insert_val_of_notMem hsock, ← Multiset.singleton_add, add_assoc, add_comm,
          add_left_comm] using hdistinct
  | inserted sock =>
      simp only [hacceptor] at hstep
      rw [hacceptor] at hcounted hcovered hbounded
      cases added with
      | true =>
          simp only [if_true, Option.some.injEq] at hstep
          subst hstep
          refine ⟨hcounted, hcovered, hbounded, hserved, ?_⟩
          simpa [Server.arriving, hacceptor, Acceptor.arriving] using hdistinct
      | false =>
          simp only [Bool.false_eq_true, if_false, Option.some.injEq] at hstep
          subst hstep
          have hsock : sock ∈ s.allSessions := by
            simpa only [Meets, hacceptor, Acceptor.Listed] using hmeets
          -- the session is taken out again; under the condition it is still listed
          have hcard := Finset.card_erase_add_one hsock
          simp only [Server.promised, Acceptor.enters, Acceptor.admits]
            at hcounted hcovered hbounded hserved
          refine ⟨?_, ?_, ?_, hserved, ?_⟩
          · simp only [Acceptor.enters]
            omega
          · simp only [Acceptor.enters]
            omega
          · simp only [Server.promised, Acceptor.admits]
            omega
          · refine Multiset.nodup_of_le (add_le_add ?_ ?_) hdistinct
            · exact Multiset.erase_le sock s.allSessions.val
            · simp only [Server.arriving, hacceptor, Acceptor.arriving, le_refl]
  | assigned =>
      simp only [hacceptor, Option.some.injEq] at hstep
      subst hstep
      rw [hacceptor] at hcounted hcovered hbounded
      simp only [Server.promised, Acceptor.enters, Acceptor.admits]
        at hcounted hcovered hbounded hserved
      -- the promised slot is free, so the counter does not wrap
      have hslot : s.currentConnections.toNat + 1 ≤ limits.maxConnections.toNat := by omega
      have hone := toNat_add_one hslot limits.maxConnections.toNat_lt
      refine ⟨?_, ?_, ?_, fun hne => ?_, ?_⟩
      · simp only [Acceptor.enters, hone]
        omega
      · simp only [Acceptor.enters]
        omega
      · simp only [Server.promised, Acceptor.admits, hone]
        omega
      · have hmax := hserved hne
        simp only [hone]
        omega
      · simpa [Server.arriving, hacceptor, Acceptor.arriving] using hdistinct

/-- A session is removed while the counter has it. -/
theorem Inv.close {sock : Socket} (h : Inv limits s) (hmeets : Meets limits s (.close sock))
    (hstep : step limits s (.close sock) = some s') : Inv limits s' := by
  simp only [step] at hstep
  split at hstep
  case isFalse =>
    obtain rfl := Option.some.inj hstep
    exact h
  rename_i hsock
  obtain rfl := Option.some.inj hstep
  have hcounter := hmeets hsock
  have hcard := Finset.card_erase_add_one hsock
  obtain ⟨hcounted, hcovered, hbounded, hserved, hdistinct⟩ := h
  constructor
  case counted =>
    simp only [Server.add, total_cons, Closer.enters, Closer.leaves]
    omega
  case covered =>
    simp only [Server.add, total_cons, Closer.enters]
    omega
  case bounded =>
    simpa [Server.promised, Closer.activates, Closer.frees] using hbounded
  case served =>
    simpa [Closer.activates, Closer.frees] using hserved
  case distinct =>
    rw [arriving_add]
    refine Multiset.nodup_of_le (add_le_add ?_ ?_) hdistinct
    · exact Multiset.erase_le sock s.allSessions.val
    · simp [Closer.arriving, Server.arriving]

/-- A thread goes on to a point at which the accounts see it as before. -/
theorem Inv.goesOn {c : Closer} (h : Inv limits (s.add c)) (c' : Closer)
    (hsame : c'.enters = c.enters ∧ c'.leaves = c.leaves ∧ c'.activates = c.activates ∧
      c'.frees = c.frees)
    (harriving : c'.arriving = c.arriving) : Inv limits (s.add c') := by
  obtain ⟨henters, hleaves, hactivates, hfrees⟩ := hsame
  obtain ⟨hcounted, hcovered, hbounded, hserved, hdistinct⟩ := h
  rw [arriving_add, ← harriving, ← arriving_add] at hdistinct
  simp only [Server.add, total_cons, Server.promised, ← henters, ← hleaves, ← hactivates,
    ← hfrees] at hcounted hcovered hbounded hserved
  constructor
  case distinct => exact hdistinct
  all_goals simpa only [Server.add, total_cons, Server.promised]

/-- A thread in `close_socket` takes its slot from the counter, and brings it to a connection of the
queue. -/
theorem Inv.closer {c : Closer} {added : Bool} (h : Inv limits (s.add c))
    (hmeets : Meets limits (s.add c) (.closer c added)) (hstep : closerStep s added c = some s') :
    Inv limits s' := by
  have hnew : ∀ sock ∈ (s.add c).arriving, sock ∉ s.allSessions := fun sock =>
    h.notMem_allSessions
  have hgoes := h.goesOn
  obtain ⟨hcounted, hcovered, hbounded, hserved, hdistinct⟩ := h
  rw [arriving_add] at hdistinct
  simp only [Server.add, total_cons, Server.promised] at hcounted hcovered hbounded hserved
  cases c with
  | removed sock =>
      obtain rfl := Option.some.inj hstep
      exact hgoes .closed ⟨rfl, rfl, rfl, rfl⟩ rfl
  | closed =>
      obtain rfl := Option.some.inj hstep
      -- the removal of this thread is one that the counter does not know of
      have hpos : 0 < s.currentConnections := by
        rw [UInt32.lt_iff_toNat_lt]
        simp only [Closer.enters, Closer.leaves] at hcounted hcovered
        simp only [UInt32.toNat_zero]
        omega
      rw [if_pos hpos]
      exact hgoes .checked ⟨rfl, rfl, rfl, rfl⟩ rfl
  | checked =>
      obtain rfl := Option.some.inj hstep
      simp only [Closer.enters, Closer.leaves, Closer.activates, Closer.frees]
        at hcounted hcovered hbounded hserved
      have hone := toNat_sub_one (c := s.currentConnections) (by omega)
      constructor
      case distinct =>
        rw [arriving_add]
        exact hdistinct
      case served =>
        intro hne
        have hmax := hserved hne
        simp only [Server.add, total_cons, Closer.frees, Closer.activates, hone]
        omega
      all_goals
        simp only [Server.add, total_cons, Server.promised, Closer.enters, Closer.leaves,
          Closer.activates, Closer.frees, hone]
        omega
  | freed =>
      simp only [closerStep] at hstep
      split at hstep
      case isFalse => cases hstep
      cases hqueue : s.waitQueue with
      | nil =>
          simp only [hqueue, Option.some.injEq] at hstep
          subst hstep
          simp only [Closer.enters, Closer.leaves, Closer.activates, Closer.frees]
            at hcounted hcovered hbounded
          constructor
          case distinct => simpa [Closer.arriving] using hdistinct
          case served => exact fun hne => absurd hqueue hne
          case bounded =>
            simp only [Server.promised]
            omega
          all_goals omega
      | cons sock rest =>
          simp only [hqueue, Option.some.injEq] at hstep
          subst hstep
          simp only [Closer.enters, Closer.leaves, Closer.activates, Closer.frees, hqueue,
            List.length_cons] at hcounted hcovered hbounded hserved
          have hmax := hserved (List.cons_ne_nil sock rest)
          constructor
          case distinct =>
            rw [arriving_add]
            simpa [Server.arriving, hqueue, Closer.arriving, ← Multiset.cons_coe,
              ← Multiset.singleton_add, add_assoc] using hdistinct
          case served =>
            intro _
            simp only [Server.add, total_cons, Closer.frees, Closer.activates]
            omega
          all_goals
            simp only [Server.add, total_cons, Server.promised, Closer.enters, Closer.leaves,
              Closer.activates, Closer.frees]
            omega
  | activated sock =>
      obtain rfl := Option.some.inj hstep
      have hsock : sock ∉ s.allSessions := by
        refine hnew sock ?_
        rw [arriving_add]
        exact Multiset.mem_add.2 (Or.inl (Multiset.mem_singleton_self sock))
      simp only [Closer.enters, Closer.leaves, Closer.activates, Closer.frees]
        at hcounted hcovered hbounded hserved
      constructor
      case distinct =>
        rw [arriving_add]
        simpa [Server.arriving, Closer.arriving, Finset.insert_val_of_notMem hsock,
          ← Multiset.singleton_add, add_assoc, add_left_comm] using hdistinct
      case served => simpa only [Server.add, total_cons, Closer.activates, Closer.frees]
      case bounded =>
        simpa only [Server.add, total_cons, Server.promised, Closer.activates, Closer.frees]
      all_goals
        simp only [Server.add, total_cons, Closer.enters, Closer.leaves,
          Finset.card_insert_of_notMem hsock]
        omega
  | inserted sock =>
      cases added with
      | true =>
          obtain rfl := Option.some.inj hstep
          exact hgoes .assigned ⟨rfl, rfl, rfl, rfl⟩ rfl
      | false =>
          obtain rfl := Option.some.inj hstep
          obtain ⟨hsock, hempty⟩ := hmeets
          have hcard := Finset.card_erase_add_one hsock
          simp only [add_allSessions] at hcard
          simp only [Closer.enters, Closer.leaves, Closer.activates, Closer.frees]
            at hcounted hcovered hbounded
          constructor
          case distinct =>
            refine Multiset.nodup_of_le (add_le_add ?_ ?_) hdistinct
            · exact Multiset.erase_le sock s.allSessions.val
            · simp [Closer.arriving, Server.arriving]
          case served => exact fun hne => absurd hempty hne
          all_goals
            simp only [Server.promised]
            omega
  | assigned =>
      obtain rfl := Option.some.inj hstep
      simp only [Closer.enters, Closer.leaves, Closer.activates, Closer.frees]
        at hcounted hcovered hbounded hserved
      have hslot : s.currentConnections.toNat + 1 ≤ limits.maxConnections.toNat := by omega
      have hone := toNat_add_one hslot limits.maxConnections.toNat_lt
      constructor
      case distinct => simpa [Closer.arriving, Server.arriving] using hdistinct
      case served =>
        intro hne
        have hmax := hserved hne
        simp only [hone]
        omega
      all_goals
        simp only [Server.promised, hone]
        omega

theorem Inv.step {act : Action} (h : Inv limits s) (hmeets : Meets limits s act)
    (hstep : step limits s act = some s') : Inv limits s' := by
  cases act with
  | accept sock => exact h.accept hmeets hstep
  | acceptor added => exact h.acceptor hmeets hstep
  | close sock => exact h.close hmeets hstep
  | closer c added =>
      simp only [Connections.step] at hstep
      split at hstep
      case isFalse => cases hstep
      rename_i hmem
      rw [exists_add hmem] at h hmeets
      exact h.closer hmeets hstep
  | expire n =>
      simp only [Connections.step] at hstep
      split at hstep
      case isFalse => cases hstep
      obtain rfl := Option.some.inj hstep
      exact h.expire n

/-- **The connections are accounted for.** In a run whose steps all meet the conditions, the counter
is the number of sessions whenever no thread is at work, it is never above the limit and never
decreased at 0, and no connection waits while a slot is free and no thread is at work. -/
theorem accounted_of_meets (actions : List Action)
    (hmeets : RunMeets (step limits) (Meets limits) start actions)
    (hrun : run (step limits) start actions = some s) : Accounted limits s := by
  refine Inv.accounted (run_induction ?_ actions start s (inv_start limits) hmeets hrun)
  intro t act t' ht hact hstep
  exact ht.step hact hstep

/-- One client is served and leaves, and the next one has waited. -/
def handover : List Action :=
  [.accept 5, .acceptor true, .acceptor true, .acceptor true, .accept 6, .close 5,
    .closer (.removed 5) true, .closer .closed true, .closer .checked true, .closer .freed true,
    .closer (.activated 6) true, .closer (.inserted 6) true, .closer .assigned true]

theorem accounted_handover : Accounted ⟨1, 1⟩ { currentConnections := 1, allSessions := {6} } :=
  accounted_of_meets handover (by decide) (by decide)

/-- Between the `fetch_sub` of a thread and its look into the queue the acceptor takes the free slot
for a third client. -/
def overtaken : List Action :=
  [.accept 5, .acceptor true, .acceptor true, .acceptor true, .accept 6, .close 5,
    .closer (.removed 5) true, .closer .closed true, .closer .checked true,
    .accept 7, .acceptor true, .acceptor true, .acceptor true,
    .closer .freed true, .closer (.activated 6) true, .closer (.inserted 6) true,
    .closer .assigned true]

theorem not_accounted_overtaken : ¬ ∀ limits actions s,
    run (step limits) start actions = some s → Accounted limits s := by
  intro h
  have hrun : run (step ⟨1, 1⟩) start overtaken =
      some { currentConnections := 2, allSessions := {6, 7} } := by decide
  exact absurd (h _ _ _ hrun).bounded (by decide)

-- A session that is closed before the acceptor has counted it leaves the counter too high.
example : run (step ⟨1, 1⟩) start [.accept 5, .acceptor true, .acceptor true, .close 5,
    .closer (.removed 5) true, .closer .closed true, .acceptor true, .closer .freed true] =
      some { currentConnections := 1 } := by
  decide

end Accounts

end EyaKV.Network.Connections
