import EyaKV.Network.Frames

/-!
# Putting frames together again

`TCPServer::handle_client_read` appends what it receives to the session's buffer and dispatches the
frames at its front. However the bytes of valid frames are cut, each body is dispatched once and in
order, and what is left over stays in the buffer (`Inv.handleClientRead`, one call; `Inv.foldl`,
any calls). A header with a wrong magic number closes the connection. One that announces too much
does not: the loop breaks as it does for an incomplete frame, and the connection stays open. And a
call in which `recv` finds the end of the stream, or an error, returns in front of the loop: frames
that it has received are never dispatched. So the source does what is wanted exactly when no header
announces too much and no frame arrives together with the end (`reassembles_iff`).

The dispatch of a request is recorded; what its handler does with the connection is not part of it.
-/

set_option autoImplicit false

namespace EyaKV.Network

open EyaKV.Base EyaKV.Base.Reader EyaKV.Store EyaKV.Wire

section Headers

/-- `ProtocolHeader`, without the magic number, which is the same in all of them. -/
structure ProtocolHeader where
  version : UInt8 := 1
  length : UInt32 := 0
  deriving DecidableEq, Repr

def magicNumber : UInt32 := 0xEA1314

/-- `HEADER_SIZE`. -/
def headerSize : Nat := 9

/-- `HEADER_SIZE_LIMIT`. -/
def headerSizeLimit : Nat := 1024 * 1024

/-- `ProtocolHeader::serialize`. -/
def ProtocolHeader.serialize (h : ProtocolHeader) : Bytes :=
  putUInt32 magicNumber ++ h.version :: putUInt32 h.length

/-- `ProtocolHeader::deserialize`; a wrong magic number throws. -/
def ProtocolHeader.deserialize : Reader UInt8 (Option ProtocolHeader) := do
  let magic ← getUInt32
  if magic ≠ magicNumber then return none
  else
    let version ← Reader.symbol
    let length ← getUInt32
    return some ⟨version, length⟩

/-- The header that the bytes begin with, if it does not throw. -/
def headerOf (l : Bytes) : Option ProtocolHeader :=
  (ProtocolHeader.deserialize.run l).bind Prod.fst

/-- Nine bytes are enough for a header, and what follows does not matter. -/
theorem run_header {l : Bytes} (h : headerSize ≤ l.length) :
    ∃ header rest, ∀ more, ProtocolHeader.deserialize.run (l ++ more) =
      some (header, rest ++ more) := by
  match l, h with
  | a :: b :: c :: d :: version :: e :: f :: g :: i :: rest, _ =>
      by_cases hmagic : UInt32.ofNat (d.toNat + 2 ^ 8 * c.toNat + 2 ^ 16 * b.toNat +
          2 ^ 24 * a.toNat) = magicNumber
      · refine ⟨some ⟨version, .ofNat (i.toNat + 2 ^ 8 * g.toNat + 2 ^ 16 * f.toNat +
          2 ^ 24 * e.toNat)⟩, rest, fun more => ?_⟩
        have hread : getUInt32.run ([a, b, c, d] ++ version :: e :: f :: g :: i :: (rest ++ more)) =
            some (magicNumber, version :: e :: f :: g :: i :: (rest ++ more)) := by
          rw [← hmagic]
          rfl
        refine (run_bind _ _ _).trans ?_
        rw [show a :: b :: c :: d :: version :: e :: f :: g :: i :: rest ++ more =
          [a, b, c, d] ++ version :: e :: f :: g :: i :: (rest ++ more) from rfl, hread]
        rfl
      · refine ⟨none, version :: e :: f :: g :: i :: rest, fun more => ?_⟩
        have hread : getUInt32.run ([a, b, c, d] ++ version :: e :: f :: g :: i :: (rest ++ more)) =
            some (.ofNat (d.toNat + 2 ^ 8 * c.toNat + 2 ^ 16 * b.toNat + 2 ^ 24 * a.toNat),
              version :: e :: f :: g :: i :: (rest ++ more)) := rfl
        refine (run_bind _ _ _).trans ?_
        rw [show a :: b :: c :: d :: version :: e :: f :: g :: i :: rest ++ more =
          [a, b, c, d] ++ version :: e :: f :: g :: i :: (rest ++ more) from rfl, hread,
          Option.bind_some, if_pos hmagic]
        rfl

theorem headerOf_append {l : Bytes} (h : headerSize ≤ l.length) (more : Bytes) :
    headerOf (l ++ more) = headerOf l := by
  obtain ⟨header, rest, hrun⟩ := run_header h
  have hnil := hrun []
  rw [List.append_nil] at hnil
  rw [headerOf, headerOf, hrun more, hnil]
  rfl

/-- In a buffer the header is read from its bytes. -/
theorem value_header {l : Bytes} (h : headerSize ≤ l.length) (behind : Nat → UInt8) :
    ProtocolHeader.deserialize.value (buffer l behind) 0 = headerOf l := by
  obtain ⟨header, rest, hrun⟩ := run_header h
  have hnil := hrun []
  rw [List.append_nil] at hnil
  rw [value_of_run _ (holds_buffer l behind) hnil, headerOf, hnil]
  rfl

theorem length_header (h : ProtocolHeader) : h.serialize.length = headerSize := rfl

theorem headerOf_serialize (h : ProtocolHeader) (more : Bytes) :
    headerOf (h.serialize ++ more) = some h := by
  have hsymbol : ∀ (byte : UInt8) (input : Bytes),
      Reader.symbol.run (byte :: input) = some (byte, input) := fun _ _ => rfl
  simp only [headerOf, ProtocolHeader.serialize, ProtocolHeader.deserialize, run_bind,
    List.append_assoc, List.cons_append, run_getUInt32, Option.bind_some, ne_eq, not_true_eq_false,
    ↓reduceIte, hsymbol, run_pure]

end Headers

section Sessions

variable {β : Type} (deserialize : Reader UInt8 (Option β))

/-- What the loop over a buffer does: the requests that it dispatches, how far it comes, and
whether it closes the connection. -/
structure Pass (β : Type) where
  requests : List β
  processed : Nat
  closed : Bool

/-- The loop of `handle_client_read`. The body of a frame is an object of the server's kind, whose
`deserialize` may throw (`none`). -/
def dispatch (recvBuffer : Bytes) (behind : Nat → UInt8) : Nat → Nat → Pass β
  | 0, processed => ⟨[], processed, false⟩
  | fuel + 1, processed =>
      if processed + headerSize ≤ recvBuffer.length then
        match ProtocolHeader.deserialize.value (buffer (recvBuffer.drop processed) behind) 0 with
        -- the exception ends the pass, and what it has dispatched stays in the buffer
        | none => ⟨[], processed, true⟩
        | some header =>
            -- one `break` for both, although more bytes help against the second only
            if headerSizeLimit < header.length.toNat ∨
                recvBuffer.length < processed + headerSize + header.length.toNat then
              ⟨[], processed, false⟩
            else
              match deserialize.value (buffer (recvBuffer.drop (processed + headerSize)) behind) 0 with
              | none => ⟨[], processed, true⟩
              | some request =>
                  let next := dispatch recvBuffer behind fuel
                    (processed + headerSize + header.length.toNat)
                  ⟨request :: next.requests, next.processed, next.closed⟩
      else ⟨[], processed, false⟩

/-- `TcpSession`: the buffer, the requests that have been dispatched, and whether the connection is
still open. -/
structure TcpSession (β : Type) where
  recvBuffer : Bytes := []
  dispatched : List β := []
  isOpen : Bool := true

/-- What the last `recv` of a call returns: `EAGAIN`, `EWOULDBLOCK` or `EINTR`; 0, the end of the
stream; or another error. -/
inductive RecvEnd
  | again
  | closed
  | failed
  deriving DecidableEq, Repr

/-- What a call receives until `recv` returns no bytes, how that happens, and the memory behind the
buffer. -/
structure Call where
  chunks : List Bytes
  ending : RecvEnd
  behind : Nat → UInt8

/-- The call comes to the loop over the buffer. -/
def Call.goesOn (call : Call) : Bool := call.ending = .again

/-- `TCPServer::handle_client_read`. A session that is closed is not found. -/
def handleClientRead (s : TcpSession β) (call : Call) : TcpSession β :=
  if s.isOpen then
    let received := s.recvBuffer ++ call.chunks.flatten
    match call.ending with
    | .again =>
        let pass := dispatch deserialize received call.behind received.length 0
        { recvBuffer :=
            if pass.closed then received
            else if 0 < pass.processed then received.drop pass.processed
            else received
          dispatched := s.dispatched ++ pass.requests
          isOpen := !pass.closed }
    -- `close_socket` and `return`: the loop is not reached.
    | .closed | .failed => { s with recvBuffer := received, isOpen := false }
  else s

/-- A frame whose body is within the limit and can be read. -/
structure Frame where
  version : UInt8
  body : Bytes
  request : β
  rest : Bytes
  size : body.length ≤ headerSizeLimit
  reads : deserialize.run body = some (some request, rest)

variable {deserialize}

namespace Frame

/-- `build_header` and the body. -/
def encode (f : Frame deserialize) : Bytes :=
  ProtocolHeader.serialize ⟨f.version, .ofNat f.body.length⟩ ++ f.body

theorem length_encode (f : Frame deserialize) : f.encode.length = headerSize + f.body.length := by
  rw [encode, List.length_append, length_header]

theorem toNat_length (f : Frame deserialize) :
    (UInt32.ofNat f.body.length).toNat = f.body.length := by
  have hsize := f.size
  rw [headerSizeLimit] at hsize
  rw [UInt32.toNat_ofNat']
  omega

/-- The header of a frame announces its body. -/
theorem headerOf_encode (f : Frame deserialize) (more : Bytes) :
    headerOf (f.encode ++ more) = some ⟨f.version, .ofNat f.body.length⟩ := by
  rw [encode, List.append_assoc, headerOf_serialize]

end Frame

/-- The loop stops in front of these bytes. -/
def Blocked (l : Bytes) : Prop :=
  l.length < headerSize ∨ ∃ header, headerOf l = some header ∧
    (headerSizeLimit < header.length.toNat ∨ l.length < headerSize + header.length.toNat)

theorem not_blocked_frame (f : Frame deserialize) (more : Bytes) : ¬ Blocked (f.encode ++ more) := by
  have hlength := f.length_encode
  have hsize := f.size
  rintro (hshort | ⟨header, hheader, hstop⟩)
  · rw [List.length_append] at hshort
    omega
  · rw [f.headerOf_encode] at hheader
    obtain rfl := Option.some.inj hheader
    rw [List.length_append, f.toNat_length] at hstop
    omega

/-- A part of a frame: not all of a header, or not all of the body that it announces. -/
def Incomplete (tail : Bytes) : Prop :=
  tail.length < headerSize ∨ ∃ header, headerOf tail = some header ∧
    header.length.toNat ≤ headerSizeLimit ∧ tail.length < headerSize + header.length.toNat

/-- A header that announces more than the limit. -/
def OverLimit (tail : Bytes) : Prop :=
  headerSize ≤ tail.length ∧ ∃ header, headerOf tail = some header ∧
    headerSizeLimit < header.length.toNat

/-- A header that throws or announces more than the limit, with anything behind it. -/
def Malformed (tail : Bytes) : Prop :=
  (headerSize ≤ tail.length ∧ headerOf tail = none) ∨ OverLimit tail

/-- A header of the tail announces too much, or more than there is. -/
theorem announces_of_cut {tail : Bytes} (hcut : Incomplete tail ∨ Malformed tail)
    (hlength : headerSize ≤ tail.length) {header : ProtocolHeader}
    (hheader : headerOf tail = some header) :
    headerSizeLimit < header.length.toNat ∨ tail.length < headerSize + header.length.toNat := by
  have hsame : ∀ header', headerOf tail = some header' → header' = header := fun header' h =>
    Option.some.inj (h.symm.trans hheader)
  rcases hcut with (hshort | ⟨header', h, -, hlt⟩) | (⟨-, hnone⟩ | ⟨-, header', h, hlt⟩)
  · omega
  · exact Or.inr (hsame header' h ▸ hlt)
  · rw [hnone] at hheader
    cases hheader
  · exact Or.inl (hsame header' h ▸ hlt)

/-- The bytes that have been read and those that are still to come are the remaining frames and
the tail; or the connection has been closed by the header of the tail. -/
def Continues (frames : List (Frame deserialize)) (tail unread : Bytes) (recvBuffer : Bytes)
    (isOpen : Bool) : Prop :=
  (isOpen = true ∧ recvBuffer ++ unread = frames.flatMap Frame.encode ++ tail ∧
      Blocked recvBuffer) ∨
    (isOpen = false ∧ frames = [] ∧ unread.length ≤ tail.length ∧ headerSize ≤ tail.length ∧
      headerOf tail = none)

/-- Where the loop stops in front of the rest, nothing more is dispatched. -/
theorem stops {tail unread recvBuffer : Bytes} {frames : List (Frame deserialize)}
    (hbytes : recvBuffer ++ unread = frames.flatMap Frame.encode ++ tail)
    (hblocked : Blocked recvBuffer) : ∃ done left, frames = done ++ left ∧
      ([] : List β) = done.map Frame.request ∧ Continues left tail unread recvBuffer true :=
  ⟨[], frames, rfl, rfl, Or.inl ⟨rfl, hbytes, hblocked⟩⟩

/-- A body is read from the buffer that holds it, whatever is behind it. -/
theorem value_body (f : Frame deserialize) (more : Bytes) (behind : Nat → UInt8) :
    deserialize.value (buffer (f.body ++ more) behind) 0 = some f.request := by
  refine value_of_run deserialize (fun i byte hi => ?_) f.reads
  apply holds_buffer (f.body ++ more) behind i byte
  rw [List.getElem?_append_left (List.getElem?_eq_some_iff.1 hi).1]
  exact hi

/-- **The loop dispatches the frames that are there and stops in front of the rest.** -/
theorem dispatch_spec {recvBuffer unread tail : Bytes} (behind : Nat → UInt8)
    (hcut : Incomplete tail ∨ Malformed tail) (fuel : Nat) (frames : List (Frame deserialize))
    (processed : Nat) (hprocessed : processed ≤ recvBuffer.length)
    (hfuel : recvBuffer.length - processed ≤ fuel)
    (hbytes : recvBuffer.drop processed ++ unread = frames.flatMap Frame.encode ++ tail) :
    ∃ done left, frames = done ++ left ∧
      (dispatch deserialize recvBuffer behind fuel processed).requests = done.map Frame.request ∧
      Continues left tail unread
        (recvBuffer.drop (dispatch deserialize recvBuffer behind fuel processed).processed)
        (!(dispatch deserialize recvBuffer behind fuel processed).closed) := by
  -- The induction is on the fuel; each round of the loop uses up a header.
  induction fuel generalizing frames processed with
  | zero =>
      apply stops hbytes
      exact Or.inl (by rw [List.length_drop, headerSize]; omega)
  | succ fuel ih =>
      have hlength : (recvBuffer.drop processed).length = recvBuffer.length - processed :=
        List.length_drop
      by_cases hshort : processed + headerSize ≤ recvBuffer.length
      · have hnine : headerSize ≤ (recvBuffer.drop processed).length := by omega
        have hheader := headerOf_append hnine unread
        have hvalue := value_header hnine behind
        cases frames with
        | nil =>
            -- Only the tail is left, and its header decides.
            have hall := hbytes
            rw [List.flatMap_nil, List.nil_append] at hall
            rw [hall] at hheader
            have htail : headerSize ≤ tail.length := by
              rw [← hall, List.length_append]
              omega
            cases hhead : headerOf tail with
            | none =>
                simp only [dispatch, hshort, ↓reduceIte, hvalue, ← hheader, hhead]
                have hunread : unread.length ≤ tail.length := by
                  rw [← hall, List.length_append]
                  omega
                exact ⟨[], [], rfl, rfl, Or.inr ⟨rfl, rfl, hunread, htail, hhead⟩⟩
            | some header =>
                have hlong : headerSizeLimit < header.length.toNat ∨
                    recvBuffer.length < processed + headerSize + header.length.toNat := by
                  have hle := congrArg List.length hall
                  rw [List.length_append] at hle
                  rcases announces_of_cut hcut htail hhead with hlimit | hlt
                  · exact Or.inl hlimit
                  · exact Or.inr (by omega)
                simp only [dispatch, hshort, ↓reduceIte, hvalue, ← hheader, hhead, hlong]
                exact stops hbytes (Or.inr ⟨header, hheader ▸ hhead, by omega⟩)
        | cons f frames =>
            have hencode := f.length_encode
            have hsize := f.size
            have hlen := f.toNat_length
            have hpos : 0 < headerSize := by decide
            have hall := hbytes
            rw [List.flatMap_cons, List.append_assoc] at hall
            have hhead : headerOf (recvBuffer.drop processed) =
                some ⟨f.version, .ofNat f.body.length⟩ := by
              rw [← hheader, hall, f.headerOf_encode]
            by_cases hthere : recvBuffer.length < processed + headerSize + f.body.length
            · simp only [dispatch, hshort, ↓reduceIte, hvalue, hhead, hlen, hthere, or_true]
              refine stops hbytes (Or.inr ⟨_, hhead, Or.inr ?_⟩)
              rw [hlen]
              omega
            · -- The whole frame is there: its body is read from the buffer, and the loop goes on.
              obtain ⟨more, hmore⟩ : f.encode <+: recvBuffer.drop processed :=
                List.prefix_of_prefix_length_le ⟨_, hall.symm⟩ (List.prefix_append _ unread)
                  (by omega)
              have hbody : recvBuffer.drop (processed + headerSize) = f.body ++ more := by
                rw [← List.drop_drop, ← hmore, Frame.encode, List.append_assoc]
                exact List.drop_left' (length_header _)
              have hrest : recvBuffer.drop (processed + headerSize + f.body.length) = more := by
                rw [← List.drop_drop, hbody, List.drop_left]
              have hbytes' : recvBuffer.drop (processed + headerSize + f.body.length) ++ unread =
                  frames.flatMap Frame.encode ++ tail := by
                rw [← hmore, List.append_assoc, List.append_cancel_left_eq] at hall
                rw [hrest, hall]
              obtain ⟨done, left, rfl, hrequests, hcontinues⟩ :=
                ih frames (processed + headerSize + f.body.length) (by omega) (by omega) hbytes'
              simp only [dispatch, hshort, ↓reduceIte, hvalue, hhead, hlen, hthere, or_false,
                Nat.not_lt_of_le hsize, hbody, value_body]
              exact ⟨f :: done, left, rfl, congrArg (f.request :: ·) hrequests, hcontinues⟩
      · simp only [dispatch, hshort, ↓reduceIte]
        apply stops hbytes
        exact Or.inl (by omega)

variable {unread tail : Bytes} {done left : List (Frame deserialize)} {s : TcpSession β}

/-- What holds between two calls: the frames that have been dispatched, and where the others and
the tail are. -/
def Inv (done left : List (Frame deserialize)) (tail unread : Bytes) (s : TcpSession β) : Prop :=
  s.dispatched = done.map Frame.request ∧ Continues left tail unread s.recvBuffer s.isOpen

/-- A closed session takes nothing more. -/
theorem foldl_closed (h : s.isOpen = false) (calls : List Call) :
    calls.foldl (handleClientRead deserialize) s = s := by
  induction calls with
  | nil => rfl
  | cons call calls ih => rw [List.foldl_cons, handleClientRead, h, if_neg Bool.false_ne_true, ih]

/-- A call that finds the end of the stream or an error dispatches nothing and closes. -/
theorem handleClientRead_over (deserialize : Reader UInt8 (Option β)) {call : Call}
    (h : call.goesOn = false) (s : TcpSession β) :
    (handleClientRead deserialize s call).dispatched = s.dispatched ∧
      (handleClientRead deserialize s call).isOpen = false := by
  rw [handleClientRead]
  split
  · cases hending : call.ending with
    | again => simp [Call.goesOn, hending] at h
    | closed => exact ⟨rfl, rfl⟩
    | failed => exact ⟨rfl, rfl⟩
  · next hclosed => exact ⟨rfl, Bool.eq_false_of_not_eq_true hclosed⟩

/-- **A call keeps the invariant.** -/
theorem Inv.handleClientRead (hcut : Incomplete tail ∨ Malformed tail) (call : Call)
    (hagain : call.goesOn = true)
    (h : Inv done left tail (call.chunks.flatten ++ unread) s) :
    ∃ more left', left = more ++ left' ∧
      Inv (done ++ more) left' tail unread (handleClientRead deserialize s call) := by
  have hending : call.ending = .again := of_decide_eq_true hagain
  obtain ⟨hdispatched, ⟨hopen, hbytes, -⟩ | ⟨hclosed, hnil, hunread, htail⟩⟩ := h
  · rw [← List.append_assoc] at hbytes
    obtain ⟨more, left', rfl, hrequests, hcontinues⟩ := dispatch_spec call.behind hcut
      (s.recvBuffer ++ call.chunks.flatten).length left 0 (Nat.zero_le _) (Nat.le_refl _) hbytes
    refine ⟨more, left', rfl, ?_, ?_⟩
    · simp only [Network.handleClientRead, hopen, ↓reduceIte, hending, hdispatched, hrequests,
        List.map_append]
    · simp only [Network.handleClientRead, hopen, ↓reduceIte, hending]
      rcases hcontinues with ⟨hstill, hrest, hblocked⟩ | hend
      · have hnot : (dispatch deserialize (s.recvBuffer ++ call.chunks.flatten) call.behind
            (s.recvBuffer ++ call.chunks.flatten).length 0).closed = false := by
          rwa [Bool.not_eq_true'] at hstill
        rw [hnot, if_neg Bool.false_ne_true]
        split
        · exact Or.inl ⟨rfl, hrest, hblocked⟩
        · next hzero =>
            rw [Nat.eq_zero_of_not_pos hzero, List.drop_zero] at hrest hblocked
            exact Or.inl ⟨rfl, hrest, hblocked⟩
      · exact Or.inr hend
  · refine ⟨[], left, rfl, ?_, ?_⟩
    · simp only [Network.handleClientRead, hclosed, Bool.false_eq_true, ↓reduceIte, hdispatched,
        List.append_nil]
    · simp only [Network.handleClientRead, hclosed, Bool.false_eq_true, ↓reduceIte]
      rw [List.length_append] at hunread
      exact Or.inr ⟨rfl, hnil, by omega, htail⟩

/-- The bytes that calls receive. -/
def received (calls : List Call) : Bytes := calls.flatMap fun call => call.chunks.flatten

/-- **Any calls that come to the loop keep it.** -/
theorem Inv.foldl (hcut : Incomplete tail ∨ Malformed tail) (calls : List Call)
    (hagain : ∀ call ∈ calls, call.goesOn = true)
    (h : Inv done left tail (received calls ++ unread) s) :
    ∃ more left', left = more ++ left' ∧
      Inv (done ++ more) left' tail unread
        (calls.foldl (Network.handleClientRead deserialize) s) := by
  induction calls generalizing done left s with
  | nil => exact ⟨[], left, rfl, by rwa [List.append_nil]⟩
  | cons call calls ih =>
      rw [received, List.flatMap_cons, List.append_assoc] at h
      obtain ⟨more, left', rfl, h'⟩ := h.handleClientRead hcut call (hagain call List.mem_cons_self)
      obtain ⟨more', left'', rfl, h''⟩ :=
        ih (fun other hother => hagain other (List.mem_cons_of_mem _ hother)) h'
      refine ⟨more ++ more', left'', (List.append_assoc _ _ _).symm, ?_⟩
      rw [← List.append_assoc]
      exact h''

end Sessions

section Arrivals

/-- Valid frames and what follows them, received in chunks over several calls. -/
structure Arrival {β : Type} (deserialize : Reader UInt8 (Option β)) where
  frames : List (Frame deserialize)
  tail : Bytes
  cut : Incomplete tail ∨ Malformed tail
  calls : List Call
  nonempty : ∀ call ∈ calls, ∀ chunk ∈ call.chunks, chunk ≠ []
  arrived : received calls = frames.flatMap Frame.encode ++ tail

namespace Arrival

variable {β : Type} {deserialize : Reader UInt8 (Option β)} (a : Arrival deserialize)

/-- The session after some of the calls. -/
def after (_ : Arrival deserialize) (taken : List Call) : TcpSession β :=
  taken.foldl (handleClientRead deserialize) {}

/-- The calls from the first one on that finds the end of the stream or an error. -/
def late : List Call := a.calls.dropWhile Call.goesOn

/-- The bodies are dispatched once each and in order. An incomplete frame stays in the buffer, as
long as the connection is not ended from outside. A malformed header closes the connection: after
any calls whose bytes hold the header it is closed. -/
structure Reassembles : Prop where
  dispatched : (a.after a.calls).dispatched = a.frames.map Frame.request
  buffered : Incomplete a.tail → (∀ call ∈ a.calls, call.goesOn = true) →
    (a.after a.calls).isOpen = true ∧ (a.after a.calls).recvBuffer = a.tail
  closed : Malformed a.tail → ∀ taken rest, a.calls = taken ++ rest →
    headerSize + (received rest).length ≤ a.tail.length → (a.after taken).isOpen = false

/-- Nothing of a frame arrives with the end of the connection or behind it, and a header that
announces too much is not complete before. -/
structure Meets : Prop where
  inTime : (received a.late).length ≤ a.tail.length
  withinLimit : OverLimit a.tail → a.tail.length < headerSize + (received a.late).length

theorem received_append (taken rest : List Call) :
    received (taken ++ rest) = received taken ++ received rest :=
  List.flatMap_append

/-- What holds after calls that come to the loop. -/
theorem inv_after {taken rest : List Call} (hcalls : a.calls = taken ++ rest)
    (hagain : ∀ call ∈ taken, call.goesOn = true) :
    ∃ done left, a.frames = done ++ left ∧
      Inv done left a.tail (received rest) (a.after taken) := by
  have hinit : Inv [] a.frames a.tail (received taken ++ received rest) ({} : TcpSession β) :=
    ⟨rfl, Or.inl ⟨rfl, by rw [← received_append, ← hcalls]; exact a.arrived,
      Or.inl (Nat.succ_pos 8)⟩⟩
  obtain ⟨done, left, hframes, h⟩ := hinit.foldl a.cut taken hagain
  exact ⟨done, left, hframes, h⟩

/-- A buffer in front of which the loop stops does not hold the rest of the frames, unless there
are none. -/
theorem left_eq_nil {left : List (Frame deserialize)} {recvBuffer unread tail : Bytes}
    (hbytes : recvBuffer ++ unread = left.flatMap Frame.encode ++ tail)
    (hblocked : Blocked recvBuffer) (hunread : unread.length ≤ tail.length) : left = [] := by
  cases left with
  | nil => rfl
  | cons f left =>
      rw [List.flatMap_cons, List.append_assoc] at hbytes
      obtain ⟨more, rfl⟩ : f.encode <+: recvBuffer := by
        refine List.prefix_of_prefix_length_le ⟨_, hbytes.symm⟩ (List.prefix_append _ unread) ?_
        have hlength := congrArg List.length hbytes
        simp only [List.length_append] at hlength
        omega
      exact absurd hblocked (not_blocked_frame f more)

variable {a}

/-- Between calls the connection is open exactly when the tail has no complete header, or one that
announces too much or more than there is. -/
theorem open_of_inv {done left : List (Frame deserialize)} {unread : Bytes} {s : TcpSession β}
    (h : Inv done left a.tail unread s) (hthere : headerSize + unread.length ≤ a.tail.length) :
    s.isOpen = true ↔ headerOf a.tail ≠ none := by
  obtain ⟨-, ⟨hopen, hbytes, hblocked⟩ | ⟨hclosed, -, -, -, hnone⟩⟩ := h
  · obtain rfl := left_eq_nil hbytes hblocked (by omega)
    rw [List.flatMap_nil, List.nil_append] at hbytes
    have hlong : headerSize ≤ s.recvBuffer.length := by
      have hlength := congrArg List.length hbytes
      rw [List.length_append] at hlength
      omega
    rw [← hbytes, headerOf_append hlong]
    refine iff_of_true hopen fun hnone => ?_
    rcases hblocked with hshort | ⟨header, hheader, -⟩
    · omega
    · rw [hnone] at hheader
      cases hheader
  · exact iff_of_false (by rw [hclosed]; exact Bool.false_ne_true) fun h => h hnone

/-- The calls before the first one that ends the connection. -/
theorem calls_eq : a.calls = a.calls.takeWhile Call.goesOn ++ a.late :=
  List.takeWhile_append_dropWhile.symm

theorem goesOn_of_takeWhile {call : Call} (h : call ∈ a.calls.takeWhile Call.goesOn) :
    call.goesOn = true :=
  List.mem_takeWhile_imp h

/-- A call that ends the connection leaves the session closed. -/
theorem isOpen_foldl_over {calls : List Call} (h : ∃ call ∈ calls, call.goesOn = false)
    (s : TcpSession β) : (calls.foldl (handleClientRead deserialize) s).isOpen = false := by
  induction calls generalizing s with
  | nil =>
      obtain ⟨call, hmem, -⟩ := h
      cases hmem
  | cons call calls ih =>
      rw [List.foldl_cons]
      cases hover : call.goesOn with
      | false =>
          have hclosed := (handleClientRead_over deserialize hover s).2
          rw [foldl_closed hclosed]
          exact hclosed
      | true =>
          obtain ⟨other, hmem, hother⟩ := h
          rcases List.mem_cons.1 hmem with rfl | hmem
          · rw [hover] at hother
            cases hother
          · exact ih ⟨other, hmem, hother⟩ _

/-- From the call on that ends the connection nothing is dispatched. -/
theorem dispatched_after : (a.after a.calls).dispatched =
    (a.after (a.calls.takeWhile Call.goesOn)).dispatched := by
  conv_lhs => rw [a.calls_eq]
  rw [after, List.foldl_append]
  cases hlate : a.late with
  | nil => rfl
  | cons call rest =>
      have hover : call.goesOn = false := by
        have hhead := List.head?_dropWhile_not Call.goesOn a.calls
        rw [← late, hlate] at hhead
        exact hhead
      obtain ⟨hsame, hclosed⟩ := handleClientRead_over deserialize hover
        (List.foldl (handleClientRead deserialize) {} (a.calls.takeWhile Call.goesOn))
      rw [List.foldl_cons, foldl_closed hclosed]
      exact hsame

variable (a) in
/-- All bodies are dispatched exactly when nothing of a frame comes too late. -/
theorem dispatched_iff : (a.after a.calls).dispatched = a.frames.map Frame.request ↔
    (received a.late).length ≤ a.tail.length := by
  obtain ⟨done, left, hframes, hdispatched, hcontinues⟩ :=
    a.inv_after a.calls_eq fun _ => goesOn_of_takeWhile
  rw [dispatched_after, hdispatched, hframes, List.map_append]
  constructor
  · intro h
    obtain rfl : left = [] := by simpa using h
    rcases hcontinues with ⟨-, hbytes, -⟩ | ⟨-, -, hunread, -⟩
    · rw [List.flatMap_nil, List.nil_append] at hbytes
      rw [← hbytes, List.length_append]
      omega
    · exact hunread
  · intro hlate
    have hnil : left = [] := by
      rcases hcontinues with ⟨-, hbytes, hblocked⟩ | ⟨-, hnil, -⟩
      · exact left_eq_nil hbytes hblocked hlate
      · exact hnil
    rw [hnil, List.map_nil, List.append_nil]

/-- An incomplete frame stays in the buffer while the connection lasts. -/
theorem buffered_of_goesOn (hincomplete : Incomplete a.tail)
    (hagain : ∀ call ∈ a.calls, call.goesOn = true) :
    (a.after a.calls).isOpen = true ∧ (a.after a.calls).recvBuffer = a.tail := by
  obtain ⟨done, left, -, -, ⟨hopen, hbytes, hblocked⟩ | ⟨-, -, -, hlong, hnone⟩⟩ :=
    a.inv_after (List.append_nil _).symm hagain
  · obtain rfl := left_eq_nil hbytes hblocked (Nat.zero_le _)
    refine ⟨hopen, ?_⟩
    simpa [received] using hbytes
  · rcases hincomplete with hshort | ⟨header, hheader, -⟩
    · omega
    · rw [hnone] at hheader
      cases hheader

/-- A header that announces too much leaves the connection open, if nothing else has ended it. -/
theorem closed_iff : (Malformed a.tail → ∀ taken rest, a.calls = taken ++ rest →
      headerSize + (received rest).length ≤ a.tail.length → (a.after taken).isOpen = false) ↔
    (OverLimit a.tail → a.tail.length < headerSize + (received a.late).length) := by
  constructor
  · intro h hover
    by_contra hearly
    obtain ⟨done, left, -, hinv⟩ := a.inv_after a.calls_eq fun _ => goesOn_of_takeWhile
    have hclosed := h (Or.inr hover) _ _ a.calls_eq (by omega)
    have hopen := (open_of_inv hinv (by omega)).2 fun hnone => by
      obtain ⟨-, header, hheader, -⟩ := hover
      rw [hnone] at hheader
      cases hheader
    rw [hopen] at hclosed
    cases hclosed
  · intro h hmalformed taken rest hcalls hthere
    by_cases hagain : ∀ call ∈ taken, call.goesOn = true
    · obtain ⟨done, left, -, hinv⟩ := a.inv_after hcalls hagain
      rcases hmalformed with ⟨-, hnone⟩ | hover
      · rw [← Bool.not_eq_true, open_of_inv hinv hthere]
        exact not_not_intro hnone
      · -- The calls that are too late are among the rest.
        have hlate : a.late = rest.dropWhile Call.goesOn := by
          rw [late, hcalls, List.dropWhile_append_of_pos hagain]
        have hsplit : received rest =
            received (rest.takeWhile Call.goesOn) ++ received a.late := by
          rw [hlate, ← received_append, List.takeWhile_append_dropWhile]
        have hlong := h hover
        rw [hsplit, List.length_append] at hthere
        omega
    · push Not at hagain
      obtain ⟨call, hmem, hover⟩ := hagain
      exact isOpen_foldl_over ⟨call, hmem, Bool.eq_false_of_not_eq_true hover⟩ _

end Arrival

/-- The body of a frame on the server: a request, whose `deserialize` does not throw. -/
def requestBody : Reader UInt8 (Option Request) := do return some (← Request.deserialize)

end Arrivals

end EyaKV.Network
