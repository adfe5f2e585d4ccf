import EyaKV.Base.Runs
import EyaKV.Network.Reassembly

/-!
# The blocking receiver

`TCPBase::receive` takes a header and then a body from the connection, each with `receive_data`,
which calls `recv` until it has all bytes. When a `recv` runs into its timeout, `receive_data` clears
what it has taken and the call returns -1; the next call begins with a header again. The machine has
the calls, the results of `recv` and the timeouts as its steps, in any order.

The calls stay in step with the frames exactly when no timeout strikes behind the first byte of a
frame, and no body has 2^31 bytes, so that the `int` that a call returns is its length
(`inSync_iff`).
-/

set_option autoImplicit false

namespace EyaKV.Network.Receiving

open EyaKV.Base EyaKV.Base.Reader EyaKV.Store EyaKV.Wire

section Machine

/-- What a call returns: a number, and the bytes of the body. -/
structure Return where
  ret : Int
  body : Bytes := []
  deriving DecidableEq, Repr

/-- Where the caller is. -/
inductive Phase where
  /-- Between two calls. -/
  | idle
  /-- In the loop of `receive_data`, with a part of a header. -/
  | header (data : Bytes)
  /-- In the loop of `receive_data`, with a part of the body that a header announces. -/
  | body (length : UInt32) (data : Bytes)
  /-- `build_header` has thrown. -/
  | thrown
  deriving DecidableEq, Repr

/-- The connection and its reader: the bytes that are not taken from the socket yet, and what the
calls have returned. -/
structure Receiver where
  unread : Bytes
  phase : Phase := .idle
  returns : List Return := []
  deriving DecidableEq, Repr

/-- A step: a call of `receive`, a `recv` that delivers `n` bytes, or one that delivers nothing
until its time is over. -/
inductive Action where
  | call
  | recv (n : Nat)
  | timeout
  deriving DecidableEq, Repr

/-- The call returns. -/
def Receiver.finish (s : Receiver) (r : Return) : Receiver :=
  { s with phase := .idle, returns := s.returns ++ [r] }

/-- `static_cast<int>` of a length. -/
def toInt (length : UInt32) : Int :=
  if length.toNat < 2 ^ 31 then length.toNat else length.toNat - 2 ^ 32

/-- `receive` behind the first call of `receive_data`. A body of length 0 makes the second one
return -3. -/
def Receiver.headerReceived (s : Receiver) (data : Bytes) : Receiver :=
  match headerOf data with
  | none => { s with phase := .thrown }
  | some header =>
      if header.length = 0 then s.finish ⟨-3, []⟩
      else { s with phase := .body header.length [] }

/-- The bytes that one `recv` may deliver. -/
def Receiver.deliverable (s : Receiver) (n dataSize : Nat) (data : Bytes) : Prop :=
  0 < n ∧ n ≤ s.unread.length ∧ data.length + n ≤ dataSize

instance (s : Receiver) (n dataSize : Nat) (data : Bytes) :
    Decidable (s.deliverable n dataSize data) := inferInstanceAs (Decidable (_ ∧ _ ∧ _))

/-- The steps of `TCPBase::receive` and `receive_data`. -/
def step (s : Receiver) (act : Action) : Option Receiver :=
  match act, s.phase with
  | .call, .idle => some { s with phase := .header [] }
  | .recv n, .header data =>
      if s.deliverable n headerSize data then
        let data' := data ++ s.unread.take n
        let s' := { s with unread := s.unread.drop n }
        if data'.length = headerSize then some (s'.headerReceived data')
        else some { s' with phase := .header data' }
      else none
  | .recv n, .body length data =>
      if s.deliverable n length.toNat data then
        let data' := data ++ s.unread.take n
        let s' := { s with unread := s.unread.drop n }
        if data'.length = length.toNat then some (s'.finish ⟨toInt length, data'⟩)
        else some { s' with phase := .body length data' }
      else none
  | .timeout, .header _ => some (s.finish ⟨-1, []⟩)
  | .timeout, .body _ _ => some (s.finish ⟨-1, []⟩)
  | _, _ => none

/-- The bodies that the callers take: those of calls that return a positive number. -/
def Receiver.delivered (s : Receiver) : List Bytes :=
  (s.returns.filter fun r => decide (0 < r.ret)).map Return.body

end Machine

section Frames

/-- A frame with a body. -/
structure SentFrame where
  version : UInt8
  body : Bytes
  nonempty : body ≠ []
  size : body.length < 2 ^ 32

namespace SentFrame

/-- `TCPBase::send`. -/
def encode (f : SentFrame) : Bytes :=
  ProtocolHeader.serialize ⟨f.version, .ofNat f.body.length⟩ ++ f.body

theorem toNat_length (f : SentFrame) : (UInt32.ofNat f.body.length).toNat = f.body.length := by
  rw [UInt32.toNat_ofNat', Nat.mod_eq_of_lt f.size]

theorem length_pos (f : SentFrame) : 0 < f.body.length := List.length_pos_iff.2 f.nonempty

theorem length_encode (f : SentFrame) : f.encode.length = headerSize + f.body.length := by
  rw [encode, List.length_append, length_header]

end SentFrame

/-- The connection on which the frames arrive. -/
def start (frames : List SentFrame) : Receiver := { unread := frames.flatMap SentFrame.encode }

/-- The calls are in step with the frames: what they have returned are the first bodies, complete
and in order, or timeouts; and between two calls the other frames are still there. -/
structure InSync (frames : List SentFrame) (s : Receiver) : Prop where
  returned : ∀ r ∈ s.returns, r.ret = -1 ∨ 0 < r.ret
  delivered : s.delivered <+: frames.map SentFrame.body
  kept : s.phase = .idle → s.unread = (frames.drop s.delivered.length).flatMap SentFrame.encode
  running : s.phase ≠ .thrown

/-- A body that `n` more bytes complete is shorter than 2^31 bytes. -/
def Phase.CompletesShort (n : Nat) : Phase → Prop
  | .body length data => data.length + n = length.toNat → length.toNat < 2 ^ 31
  | _ => True

instance (n : Nat) : DecidablePred (Phase.CompletesShort n)
  | .body _ _ => inferInstanceAs (Decidable (_ → _))
  | .idle => isTrue trivial
  | .header _ => isTrue trivial
  | .thrown => isTrue trivial

/-- A timeout strikes before the first byte of a frame, and a body that is completed is shorter
than 2^31 bytes. -/
def Meets (s : Receiver) : Action → Prop
  | .call => True
  | .timeout => s.phase = .header []
  | .recv n => s.phase.CompletesShort n

instance (s : Receiver) : DecidablePred (Meets s)
  | .call => isTrue trivial
  | .timeout => inferInstanceAs (Decidable (s.phase = .header []))
  | .recv n => inferInstanceAs (Decidable (s.phase.CompletesShort n))

/-- Where the bytes of the frames are that have not been delivered. -/
def Placed (left : List SentFrame) (unread : Bytes) : Phase → Prop
  | .idle => unread = left.flatMap SentFrame.encode
  | .header data => data ++ unread = left.flatMap SentFrame.encode ∧ data.length < headerSize
  | .body length data => ∃ f left', left = f :: left' ∧ length.toNat = f.body.length ∧
      data ++ unread = f.body ++ left'.flatMap SentFrame.encode ∧ data.length < f.body.length
  | .thrown => False

/-- The invariant of the runs that stay in step. -/
structure Inv (frames : List SentFrame) (s : Receiver) : Prop where
  returned : ∀ r ∈ s.returns, r.ret = -1 ∨ 0 < r.ret
  placed : ∃ done left, frames = done ++ left ∧ s.delivered = done.map SentFrame.body ∧
    Placed left s.unread s.phase

theorem Inv.inSync {frames : List SentFrame} {s : Receiver} (h : Inv frames s) :
    InSync frames s := by
  obtain ⟨hreturned, done, left, rfl, hdelivered, hplaced⟩ := h
  refine ⟨hreturned, ?_, fun hidle => ?_, fun hthrown => ?_⟩
  · rw [hdelivered, List.map_append]
    exact List.prefix_append _ _
  · rw [hidle] at hplaced
    rw [hdelivered, List.length_map, List.drop_left]
    exact hplaced
  · rw [hthrown] at hplaced
    exact hplaced

theorem inv_start (frames : List SentFrame) : Inv frames (start frames) :=
  ⟨fun _ hr => absurd hr List.not_mem_nil, [], frames, rfl, rfl, rfl⟩

/-- A return that is not positive delivers nothing. -/
theorem delivered_finish_of_le (s : Receiver) {r : Return} (h : r.ret ≤ 0) :
    (s.finish r).delivered = s.delivered := by
  simp only [Receiver.delivered, Receiver.finish, List.filter_append, Int.not_lt_of_ge h,
    decide_false, Bool.false_eq_true, not_false_eq_true, List.filter_cons_of_neg, List.filter_nil,
    List.append_nil]

theorem delivered_finish_of_pos (s : Receiver) {r : Return} (h : 0 < r.ret) :
    (s.finish r).delivered = s.delivered ++ [r.body] := by
  simp only [Receiver.delivered, Receiver.finish, List.filter_append, h, decide_true,
    List.filter_cons_of_pos, List.filter_nil, List.map_append, List.map_cons, List.map_nil]

theorem returned_finish {s : Receiver} {r : Return} (h : ∀ r ∈ s.returns, r.ret = -1 ∨ 0 < r.ret)
    (hr : r.ret = -1 ∨ 0 < r.ret) : ∀ r' ∈ (s.finish r).returns, r'.ret = -1 ∨ 0 < r'.ret := by
  intro r' hr'
  rcases List.mem_append.1 hr' with hold | hnew
  · exact h r' hold
  · rw [List.mem_singleton.1 hnew]
    exact hr

/-- When a call has returned in step, the bytes that are not taken are the frames that are not
delivered. -/
theorem InSync.length_unread {frames done left : List SentFrame} {s : Receiver}
    (h : InSync frames s) (hframes : frames = done ++ left)
    (hdelivered : s.delivered = done.map SentFrame.body) (hidle : s.phase = .idle) :
    s.unread.length = (left.flatMap SentFrame.encode).length := by
  have hkept := h.kept hidle
  rw [hframes, hdelivered, List.length_map, List.drop_left] at hkept
  rw [hkept]

variable {frames : List SentFrame} {s s' : Receiver}

/-- A timeout loses the bytes that have been taken. -/
theorem Inv.timeout (h : Inv frames s) (hstep : step s .timeout = some s') :
    (Meets s .timeout → Inv frames s') ∧ (InSync frames s' → Meets s .timeout) := by
  obtain ⟨hreturned, done, left, hframes, hdelivered, hplaced⟩ := h
  have hreturned' : ∀ r ∈ (s.finish ⟨-1, []⟩).returns, r.ret = -1 ∨ 0 < r.ret :=
    returned_finish hreturned (Or.inl rfl)
  have hsame : (s.finish ⟨-1, []⟩).delivered = done.map SentFrame.body :=
    (delivered_finish_of_le s (by decide)).trans hdelivered
  cases hphase : s.phase with
  | idle => simp only [step, hphase, reduceCtorEq] at hstep
  | thrown => simp only [step, hphase, reduceCtorEq] at hstep
  | header data =>
      simp only [step, hphase, Option.some.injEq] at hstep
      subst hstep
      rw [hphase] at hplaced
      obtain ⟨hbytes, -⟩ := hplaced
      constructor
      · intro hmeets
        rw [Meets, hphase] at hmeets
        obtain rfl : data = [] := Phase.header.inj hmeets
        exact ⟨hreturned', done, left, hframes, hsame, hbytes⟩
      · intro hsync
        have hlength : s.unread.length = _ := hsync.length_unread hframes hsame rfl
        rw [← hbytes, List.length_append] at hlength
        have hnil : data.length = 0 := by omega
        rw [Meets, hphase, List.length_eq_zero_iff.1 hnil]
  | body length data =>
      simp only [step, hphase, Option.some.injEq] at hstep
      subst hstep
      rw [hphase] at hplaced
      obtain ⟨f, left', rfl, -, hbytes, -⟩ := hplaced
      constructor
      · intro hmeets
        rw [Meets, hphase] at hmeets
        cases hmeets
      · -- At least the header is lost.
        intro hsync
        have hlength : s.unread.length = _ := hsync.length_unread hframes hsame rfl
        have htaken := congrArg List.length hbytes
        have hencode := f.length_encode
        have hnine : headerSize = 9 := rfl
        rw [List.flatMap_cons, List.length_append] at hlength
        rw [List.length_append, List.length_append] at htaken
        omega

/-- A `recv` in a header keeps the frames in their place. -/
theorem Inv.recv_header (h : Inv frames s) {n : Nat} {data : Bytes} (hphase : s.phase = .header data)
    (hstep : step s (.recv n) = some s') : Inv frames s' := by
  obtain ⟨hreturned, done, left, hframes, hdelivered, hplaced⟩ := h
  rw [hphase] at hplaced
  obtain ⟨hbytes, -⟩ := hplaced
  simp only [step, hphase] at hstep
  obtain ⟨⟨-, hn, hroom⟩, hstep⟩ := Option.ite_none_right_eq_some.1 hstep
  have hlength : (data ++ s.unread.take n).length = data.length + n := by
    rw [List.length_append, List.length_take_of_le hn]
  have hall : (data ++ s.unread.take n) ++ s.unread.drop n = left.flatMap SentFrame.encode := by
    rw [List.append_assoc, List.take_append_drop, hbytes]
  split at hstep
  · next hfull =>
      -- The header is complete: it is that of the first frame left.
      obtain rfl := Option.some.inj hstep
      cases left with
      | nil =>
          have hnil := congrArg List.length hall
          rw [List.length_append, hfull, List.flatMap_nil, List.length_nil, headerSize] at hnil
          omega
      | cons f left =>
          have hfirst : (data ++ s.unread.take n) ++ s.unread.drop n =
              ProtocolHeader.serialize ⟨f.version, .ofNat f.body.length⟩ ++
                (f.body ++ left.flatMap SentFrame.encode) := by
            rw [hall, List.flatMap_cons, SentFrame.encode, List.append_assoc]
          obtain ⟨hdata, hrest⟩ := List.append_inj hfirst (by rw [hfull, length_header])
          have hheader : headerOf (data ++ s.unread.take n) =
              some ⟨f.version, .ofNat f.body.length⟩ := by
            have hhead := headerOf_serialize ⟨f.version, .ofNat f.body.length⟩ []
            rwa [List.append_nil, ← hdata] at hhead
          have hlen := f.toNat_length
          have hne : ¬ UInt32.ofNat f.body.length = 0 := by
            intro hzero
            rw [hzero] at hlen
            exact absurd f.length_pos (by rw [← hlen]; decide)
          simp only [Receiver.headerReceived, hheader, hne, ↓reduceIte]
          exact ⟨hreturned, done, f :: left, hframes, hdelivered, f, left, rfl, hlen, hrest,
            f.length_pos⟩
  · next hpart =>
      obtain rfl := Option.some.inj hstep
      exact ⟨hreturned, done, left, hframes, hdelivered, hall, by omega⟩

/-- A `recv` in a body delivers it when it is complete, unless its length is negative as an
`int`. -/
theorem Inv.recv_body (h : Inv frames s) {n : Nat} {length : UInt32} {data : Bytes}
    (hphase : s.phase = .body length data) (hstep : step s (.recv n) = some s') :
    (Meets s (.recv n) → Inv frames s') ∧ (InSync frames s' → Meets s (.recv n)) := by
  obtain ⟨hreturned, done, left, hframes, hdelivered, hplaced⟩ := h
  rw [hphase] at hplaced
  obtain ⟨f, left', rfl, hsize, hbytes, hshort⟩ := hplaced
  simp only [step, hphase] at hstep
  obtain ⟨⟨-, hn, hroom⟩, hstep⟩ := Option.ite_none_right_eq_some.1 hstep
  have hlength : (data ++ s.unread.take n).length = data.length + n := by
    rw [List.length_append, List.length_take_of_le hn]
  have hall : (data ++ s.unread.take n) ++ s.unread.drop n =
      f.body ++ left'.flatMap SentFrame.encode := by
    rw [List.append_assoc, List.take_append_drop, hbytes]
  rw [Meets, hphase, Phase.CompletesShort]
  split at hstep
  · next hfull =>
      obtain rfl := Option.some.inj hstep
      obtain ⟨hdata, hrest⟩ := List.append_inj hall (hfull.trans hsize)
      constructor
      · intro hmeets
        have hpos := f.length_pos
        have hret : 0 < toInt length := by
          rw [toInt, if_pos (hmeets (hlength.symm.trans hfull))]
          omega
        refine ⟨returned_finish hreturned (Or.inr hret), done ++ [f], left', ?_, ?_, hrest⟩
        · rw [hframes, List.append_assoc, List.singleton_append]
        · rw [delivered_finish_of_pos _ hret, List.map_append, hdata]
          exact congrArg (· ++ [f.body]) hdelivered
      · -- A negative number delivers nothing, but the frame is gone.
        intro hsync _
        refine Nat.lt_of_not_le fun hlarge => ?_
        have hret : toInt length ≤ 0 := by
          have hlt := length.toNat_lt
          rw [toInt, if_neg (Nat.not_lt_of_le hlarge)]
          omega
        have hgone : (s.unread.drop n).length = _ := hsync.length_unread hframes
          ((delivered_finish_of_le _ hret).trans hdelivered) rfl
        have hencode := f.length_encode
        have hnine : headerSize = 9 := rfl
        rw [hrest, List.flatMap_cons, List.length_append] at hgone
        omega
  · next hpart =>
      obtain rfl := Option.some.inj hstep
      constructor
      · intro _
        exact ⟨hreturned, done, f :: left', hframes, hdelivered, f, left', rfl, hsize, hall, by omega⟩
      · intro _ hend
        exact absurd (hlength.trans hend) hpart

/-- **A step keeps the invariant exactly under the condition.** -/
theorem Inv.step_iff (h : Inv frames s) {act : Action} (hstep : step s act = some s') :
    (Meets s act → Inv frames s') ∧ (InSync frames s' → Meets s act) := by
  cases act with
  | call =>
      obtain ⟨hreturned, done, left, hframes, hdelivered, hplaced⟩ := h
      cases hphase : s.phase with
      | idle =>
          simp only [step, hphase, Option.some.injEq] at hstep
          subst hstep
          rw [hphase] at hplaced
          exact ⟨fun _ => ⟨hreturned, done, left, hframes, hdelivered, hplaced, Nat.succ_pos 8⟩,
            fun _ => trivial⟩
      | header data => simp only [step, hphase, reduceCtorEq] at hstep
      | body length data => simp only [step, hphase, reduceCtorEq] at hstep
      | thrown => simp only [step, hphase, reduceCtorEq] at hstep
  | timeout => exact h.timeout hstep
  | recv n =>
      cases hphase : s.phase with
      | idle => simp only [step, hphase, reduceCtorEq] at hstep
      | header data =>
          refine ⟨fun _ => h.recv_header hphase hstep, fun _ => ?_⟩
          rw [Meets, hphase]
          trivial
      | body length data => exact h.recv_body hphase hstep
      | thrown => simp only [step, hphase, reduceCtorEq] at hstep

/-- What a step leaves is in step with the frames. -/
def StaysInSync (frames : List SentFrame) (s : Receiver) (act : Action) : Prop :=
  ∀ s', step s act = some s' → InSync frames s'

/-- **Frame sync.** In every run of calls, deliveries and timeouts every step leaves the receiver in
step with the frames exactly when every step is taken under the condition: no timeout strikes
behind the first byte of a frame, and no completed body has 2^31 bytes. -/
theorem inSync_iff (frames : List SentFrame) (actions : List Action) (s : Receiver)
    (hrun : Machine.run step (start frames) actions = some s) :
    Machine.RunMeets step (StaysInSync frames) (start frames) actions ↔
      Machine.RunMeets step Meets (start frames) actions := by
  have hiff : ∀ t act t', Inv frames t → step t act = some t' →
      (StaysInSync frames t act ↔ Meets t act) := by
    intro t act t' ht hstep
    constructor
    · exact fun h => (ht.step_iff hstep).2 (h t' hstep)
    · exact fun h t'' hstep' => ((ht.step_iff hstep').1 h).inSync
  refine Machine.runMeets_congr hiff (fun t act t' ht h hstep => ?_) actions _ s (inv_start frames)
    hrun
  exact (ht.step_iff hstep).1 ((ht.step_iff hstep).2 (h t' hstep))

end Frames

section Examples

/-- A frame whose body is the byte 7. -/
def seven : SentFrame where
  version := 1
  body := [7]
  nonempty := by decide
  size := by decide

/-- A timeout between two frames, a header in two parts, and a body. -/
def betweenFrames : List Action := [.call, .timeout, .call, .recv 4, .recv 5, .recv 1]

/-- Every step of the run leaves the receiver in step, and the body is delivered. -/
theorem inSync_iff_betweenFrames :
    ∃ s, Machine.run step (start [seven]) betweenFrames = some s ∧ s.delivered = [[7]] ∧
      Machine.RunMeets step (StaysInSync [seven]) (start [seven]) betweenFrames := by
  obtain ⟨s, hrun, hdelivered⟩ :
      ∃ s ∈ Machine.run step (start [seven]) betweenFrames, s.delivered = [[7]] := by
    decide
  have hmeets : Machine.RunMeets step Meets (start [seven]) betweenFrames := by decide
  exact ⟨s, hrun, hdelivered, (inSync_iff [seven] betweenFrames s hrun).2 hmeets⟩

/-- A header, and a timeout before the body. -/
def withinFrame : List Action := [.call, .recv 9]

/-- The header is lost: the next call takes the body for one. -/
theorem not_inSync_withinFrame : ¬ ∀ (frames : List SentFrame) (actions : List Action) (s : Receiver),
    Machine.run step (start frames) actions = some s →
      Machine.RunMeets step (StaysInSync frames) (start frames) actions := by
  intro h
  obtain ⟨t, hbefore, s, hstep, hidle, hunread, hdelivered⟩ :
      ∃ t ∈ Machine.run step (start [seven]) withinFrame, ∃ s ∈ step t .timeout,
        s.phase = .idle ∧ s.unread = [7] ∧ s.delivered = [] := by decide
  obtain ⟨u, hall⟩ := Option.isSome_iff_exists.1
    (show (Machine.run step (start [seven]) (withinFrame ++ [.timeout])).isSome by decide)
  have hsync := (h _ _ u hall).last withinFrame _ t hbefore s hstep
  have hkept := hsync.kept hidle
  rw [hunread, hdelivered] at hkept
  exact absurd hkept (by decide)

end Examples

end EyaKV.Network.Receiving
