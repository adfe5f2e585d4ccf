import EyaKV.Common.Wire
import EyaKV.Store.ValueRoundTrip

/-!
# The client protocol

Requests, responses and batches of responses, each with its encoder and its decoder. A request has
one of three layouts behind its identifier and its type; the data of a response stands behind the
index of its variant. All lengths and counts are written as 32 bits, and the decoders yield nothing
longer, so a message is read back exactly when they fit (`message_roundTrips_iff`).
-/

set_option autoImplicit false

namespace EyaKV.Network

open EyaKV.Base EyaKV.Base.Framing EyaKV.Store EyaKV.Wire

section Requests

/-- `RequestType`; a byte above the last one is cast all the same. -/
inductive RequestType where
  | none
  | auth
  | command
  | batchCommand
  | other (n : UInt8)
  deriving DecidableEq, Repr

def RequestType.toByte : RequestType → UInt8
  | .none => 0
  | .auth => 1
  | .command => 2
  | .batchCommand => 3
  | .other n => n

def RequestType.ofByte (n : UInt8) : RequestType :=
  if n = 0 then .none
  else if n = 1 then .auth
  else if n = 2 then .command
  else if n = 3 then .batchCommand
  else .other n

/-- `Request`. -/
structure Request where
  id : Bytes := []
  type : RequestType := .none
  commands : List (Bytes × Bytes) := []
  command : Bytes := []
  password : Bytes := []
  authKey : Bytes := []
  deriving DecidableEq, Repr

namespace Request

/-- `Request::auth`. -/
def auth (requestId password : Bytes) : Request :=
  { type := .auth, id := requestId, password := password }

/-- `Request::createCommand`. -/
def createCommand (requestId cmd key : Bytes) : Request :=
  { type := .command, id := requestId, command := cmd, authKey := key }

/-- `Request::createBatchCommand`. -/
def createBatchCommand (batchId : Bytes) (cmds : List (Bytes × Bytes)) (key : Bytes) : Request :=
  { type := .batchCommand, id := batchId, authKey := key, commands := cmds }

/-- The requests that the three functions build. -/
inductive Built : Request → Prop
  | auth (requestId password : Bytes) : Built (auth requestId password)
  | command (requestId cmd key : Bytes) : Built (createCommand requestId cmd key)
  | batch (batchId : Bytes) (cmds : List (Bytes × Bytes)) (key : Bytes) :
      Built (createBatchCommand batchId cmds key)

/-- `Request::serialize`. -/
def serialize (r : Request) : Bytes :=
  serializeString r.id ++ r.type.toByte ::
    match r.type with
    | .command => serializeString r.command ++ serializeString r.authKey
    | .batchCommand =>
        be32 r.commands.length ++
          ((r.commands.flatMap fun cmd => serializeString cmd.1 ++ serializeString cmd.2) ++
            serializeString r.authKey)
    | .auth => serializeString r.password
    | _ => []

/-- A command of a batch. -/
def getCommand : Reader UInt8 (Bytes × Bytes) := do
  let key ← getString
  let value ← getString
  return (key, value)

/-- `Request::deserialize` of a fresh object. -/
def deserialize : Reader UInt8 Request := do
  let id ← getString
  let byte ← Reader.symbol
  match RequestType.ofByte byte with
  | .command => do
      let command ← getString
      let authKey ← getString
      return { id := id, type := .command, command := command, authKey := authKey }
  | .batchCommand => do
      let commands ← getList getCommand
      let authKey ← getString
      return { id := id, type := .batchCommand, commands := commands, authKey := authKey }
  | .auth => do
      let password ← getString
      return { id := id, type := .auth, password := password }
  | type => return { id := id, type := type }

/-- Lengths and counts fit their prefixes. -/
structure Sized (r : Request) : Prop where
  id : Store.Sized r.id
  count : r.commands.length < 2 ^ 32
  commands : ∀ cmd ∈ r.commands, Store.Sized cmd.1 ∧ Store.Sized cmd.2
  command : Store.Sized r.command
  password : Store.Sized r.password
  authKey : Store.Sized r.authKey

theorem sized_nil : Store.Sized [] := Nat.two_pow_pos 32

theorem decodes_command : Decodes (fun cmd : Bytes × Bytes => Store.Sized cmd.1 ∧ Store.Sized cmd.2)
    (fun cmd => serializeString cmd.1 ++ serializeString cmd.2) getCommand.run := by
  rintro ⟨key, value⟩ ⟨hkey, hvalue⟩ rest
  simp only [getCommand, Reader.run_bind, List.append_assoc, run_getString hkey,
    run_getString hvalue, Option.bind_some, Reader.run_pure]

theorem deserialize_serialize {r : Request} (hbuilt : r.Built) (h : r.Sized) (rest : Bytes) :
    deserialize.run (r.serialize ++ rest) = some (r, rest) := by
  have hsymbol : ∀ (byte : UInt8) (input : Bytes),
      Reader.symbol.run (byte :: input) = some (byte, input) := fun _ _ => rfl
  cases hbuilt with
  | auth requestId password =>
      have hid : Store.Sized requestId := h.id
      have hpassword : Store.Sized password := h.password
      simp only [auth, serialize, deserialize, RequestType.toByte, Reader.run_bind,
        List.append_assoc, run_getString hid, Option.bind_some, List.cons_append, hsymbol,
        show RequestType.ofByte 1 = .auth from rfl, run_getString hpassword, Reader.run_pure]
  | command requestId cmd key =>
      have hid : Store.Sized requestId := h.id
      have hcmd : Store.Sized cmd := h.command
      have hkey : Store.Sized key := h.authKey
      simp only [createCommand, serialize, deserialize, RequestType.toByte, Reader.run_bind,
        List.append_assoc, run_getString hid, Option.bind_some, List.cons_append, hsymbol,
        show RequestType.ofByte 2 = .command from rfl, run_getString hcmd, run_getString hkey,
        Reader.run_pure]
  | batch batchId cmds key =>
      have hid : Store.Sized batchId := h.id
      have hkey : Store.Sized key := h.authKey
      have hcount : cmds.length < 2 ^ 32 := h.count
      have hcmds : ∀ cmd ∈ cmds, Store.Sized cmd.1 ∧ Store.Sized cmd.2 := h.commands
      simp only [createBatchCommand, serialize, deserialize, RequestType.toByte, Reader.run_bind,
        List.append_assoc, run_getString hid, Option.bind_some, List.cons_append, hsymbol,
        show RequestType.ofByte 3 = .batchCommand from rfl,
        run_getList decodes_command hcount hcmds, run_getString hkey, Reader.run_pure]

theorem yields_deserialize : Yields Sized deserialize.run := by
  have hcommand : Yields (fun cmd : Bytes × Bytes => Store.Sized cmd.1 ∧ Store.Sized cmd.2)
      getCommand.run :=
    Reader.yields_bind yields_string fun key hkey =>
      Reader.yields_bind yields_string fun value hvalue => Reader.yields_pure ⟨hkey, hvalue⟩
  have hnil := sized_nil
  have hnone : ∀ cmd ∈ ([] : List (Bytes × Bytes)), Store.Sized cmd.1 ∧ Store.Sized cmd.2 :=
    fun cmd hcmd => absurd hcmd List.not_mem_nil
  refine Reader.yields_bind yields_string fun id hid => ?_
  refine Reader.yields_bind (yields_true _) fun byte _ => ?_
  split
  · refine Reader.yields_bind yields_string fun command hcommand => ?_
    refine Reader.yields_bind yields_string fun authKey hkey => ?_
    exact Reader.yields_pure ⟨hid, Nat.two_pow_pos 32, hnone, hcommand, hnil, hkey⟩
  · refine Reader.yields_bind (yields_list hcommand) fun commands hcommands => ?_
    refine Reader.yields_bind yields_string fun authKey hkey => ?_
    exact Reader.yields_pure ⟨hid, hcommands.1, hcommands.2, hnil, hnil, hkey⟩
  · refine Reader.yields_bind yields_string fun password hpassword => ?_
    exact Reader.yields_pure ⟨hid, Nat.two_pow_pos 32, hnone, hnil, hpassword, hnil⟩
  · exact Reader.yields_pure ⟨hid, Nat.two_pow_pos 32, hnone, hnil, hnil, hnil⟩

end Request

end Requests

section Responses

/-- `ResponseData`. -/
inductive ResponseData where
  | monostate
  | string (s : Bytes)
  | strings (l : List Bytes)
  | pairs (l : List (Bytes × EyaValue))
  | value (v : EyaValue)

/-- `Response`. -/
structure Response where
  code : Int32
  data : ResponseData
  errorMsg : Bytes
  requestId : Bytes

/-- `deserialize_eya_value` with the codec of sorted sets. -/
abbrev getEyaValue : Decoder UInt8 EyaValue := deserializeEyaValue ZSet.deserialize

section Encoders

variable (listing : Listing) (towersOf : ZSet → Towers)

/-- The index of the variant and the data of `Response::serialize`. -/
def ResponseData.serialize : ResponseData → Bytes
  | .monostate => [0]
  | .string s => 1 :: serializeString s
  | .strings l => 2 :: serializeVector l
  | .pairs l => 3 :: (be32 l.length ++
      l.flatMap fun p => serializeString p.1 ++ listing.serializeEyaValue towersOf p.2)
  | .value v => 4 :: listing.serializeEyaValue towersOf v

/-- `Response::serialize`. -/
def Response.serialize (r : Response) : Bytes :=
  serializeString r.requestId ++ (putInt32 r.code ++
    (r.data.serialize listing towersOf ++ serializeString r.errorMsg))

/-- `serialize` of the responses to a batch. -/
def serializeBatch (batch : Bytes × List (Bytes × Response)) : Bytes :=
  serializeString batch.1 ++ (be32 batch.2.length ++
    batch.2.flatMap fun resp => serializeString resp.1 ++ resp.2.serialize listing towersOf)

end Encoders

/-- The index of the variant and the data of `Response::deserialize`; another index throws. -/
def ResponseData.deserialize : Decoder UInt8 ResponseData
  | [] => none
  | index :: rest =>
      match index.toNat with
      | 0 => some (.monostate, rest)
      | 1 => (deserializeString rest).map fun r => (.string r.1, r.2)
      | 2 => (deserializeVector rest).map fun r => (.strings r.1, r.2)
      | 3 => do
          let (size, rest) ← readBe32 rest
          let (l, rest) ← count (Framing.pair deserializeString getEyaValue) size rest
          return (.pairs l, rest)
      | 4 => (getEyaValue rest).map fun r => (.value r.1, r.2)
      | _ => none

/-- `Response::deserialize` of a fresh object. -/
def Response.deserialize : Decoder UInt8 Response := fun input => do
  let (requestId, rest) ← deserializeString input
  let (code, rest) ← getInt32.run rest
  let (data, rest) ← ResponseData.deserialize rest
  let (errorMsg, rest) ← deserializeString rest
  return (⟨code, data, errorMsg, requestId⟩, rest)

/-- `deserializeBatchResponse`. -/
def deserializeBatchResponse : Decoder UInt8 (Bytes × List (Bytes × Response)) := fun input => do
  let (batchId, rest) ← deserializeString input
  let (size, rest) ← readBe32 rest
  let (responses, rest) ← count (Framing.pair deserializeString Response.deserialize) size rest
  return ((batchId, responses), rest)

/-- Lengths and counts of the data fit their prefixes. -/
def ResponseData.Sized : ResponseData → Prop
  | .monostate => True
  | .string s => Store.Sized s
  | .strings l => l.length < 2 ^ 32 ∧ ∀ s ∈ l, Store.Sized s
  | .pairs l => l.length < 2 ^ 32 ∧ ∀ p ∈ l, Store.Sized p.1 ∧ p.2.Sized
  | .value v => v.Sized

structure Response.Sized (r : Response) : Prop where
  requestId : Store.Sized r.requestId
  data : r.data.Sized
  errorMsg : Store.Sized r.errorMsg

/-- Lengths and counts of all responses of a batch fit their prefixes. -/
structure BatchSized (batch : Bytes × List (Bytes × Response)) : Prop where
  batchId : Store.Sized batch.1
  count : batch.2.length < 2 ^ 32
  responses : ∀ resp ∈ batch.2, Store.Sized resp.1 ∧ resp.2.Sized

section RoundTrips

variable (listing : Listing) (towersOf : ZSet → Towers)

theorem decodes_data : Decodes ResponseData.Sized (ResponseData.serialize listing towersOf)
    ResponseData.deserialize := by
  intro data h rest
  have hvalue := listing.decodes_eyaValue towersOf
  cases data with
  | monostate => rfl
  | string s =>
      simp only [ResponseData.serialize, List.cons_append, ResponseData.deserialize,
        decodes_string s h]
      rfl
  | strings l =>
      simp only [ResponseData.serialize, List.cons_append, ResponseData.deserialize,
        deserializeVector_serialize h.1 h.2]
      rfl
  | pairs l =>
      have hcount := (decodes_string.pair hvalue).count l h.2 rest
      simp only [ResponseData.serialize, List.cons_append, ResponseData.deserialize,
        List.append_assoc, decodes_be32 _ h.1, Option.bind_eq_bind]
      rw [show (3 : UInt8).toNat = 3 from rfl]
      simp only [Option.bind_some, hcount, Option.pure_def]
  | value v =>
      simp only [ResponseData.serialize, List.cons_append, ResponseData.deserialize, hvalue v h]
      rfl

theorem decodes_response : Decodes Response.Sized (Response.serialize listing towersOf)
    Response.deserialize := by
  intro r h rest
  simp only [Response.serialize, Response.deserialize, List.append_assoc,
    decodes_string _ h.requestId, run_getInt32, decodes_data listing towersOf _ h.data,
    decodes_string _ h.errorMsg, Option.bind_eq_bind, Option.bind_some, Option.pure_def]

theorem decodes_batch :
    Decodes BatchSized (serializeBatch listing towersOf) deserializeBatchResponse := by
  rintro ⟨batchId, responses⟩ ⟨hid, hlength, hresponses⟩ rest
  have hcount :=
    (decodes_string.pair (decodes_response listing towersOf)).count responses hresponses rest
  simp only [serializeBatch, deserializeBatchResponse, List.append_assoc, decodes_string _ hid,
    decodes_be32 _ hlength, hcount, Option.bind_eq_bind, Option.bind_some, Option.pure_def]

theorem yields_data : Yields ResponseData.Sized ResponseData.deserialize := by
  intro input data rest h
  cases input with
  | nil => cases h
  | cons index input =>
      rw [ResponseData.deserialize] at h
      split at h
      · obtain ⟨rfl, -⟩ := Prod.mk.inj (Option.some.inj h)
        trivial
      · obtain ⟨⟨s, _⟩, hs, heq⟩ := Option.map_eq_some_iff.1 h
        obtain ⟨rfl, -⟩ := Prod.mk.inj heq
        exact Store.yields_string _ s _ hs
      · obtain ⟨⟨l, _⟩, hl, heq⟩ := Option.map_eq_some_iff.1 h
        obtain ⟨rfl, -⟩ := Prod.mk.inj heq
        exact yields_vector _ l _ hl
      · simp only [Option.bind_eq_bind, Option.bind_eq_some_iff, Prod.exists, Option.pure_def,
          Option.some.injEq, Prod.mk.injEq] at h
        obtain ⟨size, _, hsize, l, _, hl, rfl, -⟩ := h
        exact yields_counted (Store.yields_string.pair yields_eyaValue) hsize hl
      · obtain ⟨⟨v, _⟩, hv, heq⟩ := Option.map_eq_some_iff.1 h
        obtain ⟨rfl, -⟩ := Prod.mk.inj heq
        exact yields_eyaValue _ v _ hv
      · cases h

theorem yields_response : Yields Response.Sized Response.deserialize := by
  intro input r rest h
  simp only [Response.deserialize, Option.bind_eq_bind, Option.bind_eq_some_iff, Prod.exists,
    Option.pure_def, Option.some.injEq, Prod.mk.injEq] at h
  obtain ⟨requestId, _, hid, code, _, -, data, _, hdata, errorMsg, _, herror, rfl, -⟩ := h
  exact ⟨Store.yields_string _ requestId _ hid, yields_data _ data _ hdata,
    Store.yields_string _ errorMsg _ herror⟩

theorem yields_batch : Yields BatchSized deserializeBatchResponse := by
  intro input batch rest h
  simp only [deserializeBatchResponse, Option.bind_eq_bind, Option.bind_eq_some_iff, Prod.exists,
    Option.pure_def, Option.some.injEq, Prod.mk.injEq] at h
  obtain ⟨batchId, _, hid, size, _, hsize, responses, _, hresponses, rfl, -⟩ := h
  obtain ⟨hlength, hall⟩ :=
    yields_counted (Store.yields_string.pair yields_response) hsize hresponses
  exact ⟨Store.yields_string _ batchId _ hid, hlength, hall⟩

end RoundTrips

end Responses

section Messages

/-- The messages of the protocol. -/
inductive Message where
  | request (r : Request) (built : r.Built)
  | response (r : Response)
  | batchResponse (batch : Bytes × List (Bytes × Response))

/-- Lengths and counts fit their prefixes. -/
def Message.Sized : Message → Prop
  | .request r _ => r.Sized
  | .response r => r.Sized
  | .batchResponse batch => BatchSized batch

/-- The message is read back whatever follows. -/
def Message.RoundTrips (listing : Listing) (towersOf : ZSet → Towers) : Message → Prop
  | .request r _ => ∀ rest, Request.deserialize.run (r.serialize ++ rest) = some (r, rest)
  | .response r => ∀ rest,
      Response.deserialize (r.serialize listing towersOf ++ rest) = some (r, rest)
  | .batchResponse batch => ∀ rest,
      deserializeBatchResponse (serializeBatch listing towersOf batch ++ rest) = some (batch, rest)

/-- **A message is read back exactly when its lengths and counts are below 2^32.** -/
theorem message_roundTrips_iff (listing : Listing) (towersOf : ZSet → Towers) (m : Message) :
    m.RoundTrips listing towersOf ↔ m.Sized := by
  cases m with
  | request r built =>
      constructor
      · intro h
        exact Request.yields_deserialize _ r [] (h [])
      · intro h rest
        exact Request.deserialize_serialize built h rest
  | response r => exact (decodes_response listing towersOf).iff_valid yields_response r
  | batchResponse batch => exact (decodes_batch listing towersOf).iff_valid yields_batch batch

/-- A command of 4 GiB is read as an empty one. -/
theorem not_roundTrips_longCommand : ¬ ∀ (listing : Listing) (towersOf : ZSet → Towers)
    (m : Message), m.RoundTrips listing towersOf := by
  intro h
  have hread := h .sorted (fun _ => Listing.flat)
    (.request _ (.command [] (List.replicate (2 ^ 32) 0) [])) []
  have hsized := (Request.yields_deserialize _ _ [] hread).command
  rw [Store.Sized, Request.createCommand, List.length_replicate] at hsized
  exact Nat.lt_irrefl _ hsized

end Messages

end EyaKV.Network
