import EyaKV.Base.Layouts
import EyaKV.Network.Protocol
import EyaKV.Raft.Messages

/-!
# Reading the body of a frame

The decoders get a pointer to the body and an offset, and no length. A body lies in a buffer with
other bytes behind it, so a decoder can read on behind the end of the body (`Reader.reads`), and it
never rejects. The bytes that a message needs form a language, the layout of the message; a decoder
stays inside the body exactly when the body begins with a word of the layout (`inside_iff`).
-/

set_option autoImplicit false

namespace EyaKV.Wire

open EyaKV.Base EyaKV.Base.Reader EyaKV.Store

section Layouts

/-- `n` bytes. -/
def bytes (n : Nat) : Language UInt8 := {l | l.length = n}

/-- A length and as many bytes. -/
def text : Language UInt8 := ⨆ len : UInt32, {putUInt32 len} * bytes len.toNat

/-- A count and as many items. -/
def listOf (item : Language UInt8) : Language UInt8 :=
  ⨆ size : UInt32, {putUInt32 size} * item ^ size.toNat

theorem mem_bytes {n : Nat} {l : Bytes} : l ∈ bytes n ↔ l.length = n := Iff.rfl

theorem bytes_mul (m n : Nat) : bytes m * bytes n = bytes (m + n) := by
  refine Language.ext fun l => ?_
  constructor
  · intro h
    obtain ⟨p, hp, q, hq, rfl⟩ := Language.mem_mul.1 h
    obtain rfl : p.length = m := hp
    obtain rfl : q.length = n := hq
    exact List.length_append
  · intro h
    have hl : l.length = m + n := h
    have htake : l.take m ∈ bytes m := List.length_take_of_le (by omega)
    have hdrop : l.drop m ∈ bytes n := by
      rw [mem_bytes, List.length_drop, hl, Nat.add_sub_cancel_left]
    have hword := Language.append_mem_mul htake hdrop
    rwa [List.take_append_drop] at hword

theorem recognizes_symbol : Recognizes (Reader.symbol : Reader UInt8 UInt8) (bytes 1) := by
  intro input rest
  cases input with
  | nil =>
      refine iff_of_false nofun ?_
      rintro ⟨p, hp, heq⟩
      obtain ⟨rfl, -⟩ := List.append_eq_nil_iff.1 heq.symm
      cases hp
  | cons s tail =>
      constructor
      · rintro ⟨a, hrun⟩
        obtain ⟨-, rfl⟩ := Prod.mk.inj (Option.some.inj hrun)
        exact ⟨[s], rfl, rfl⟩
      · rintro ⟨p, hp, heq⟩
        obtain ⟨t, rfl⟩ := List.length_eq_one_iff.1 hp
        obtain ⟨rfl, rfl⟩ := List.cons.inj heq
        exact ⟨s, rfl⟩

theorem recognizesAt_getUInt32 : RecognizesAt getUInt32 fun n => {putUInt32 n} := by
  intro input n rest
  constructor
  · intro hrun
    match input, hrun with
    | a :: b :: c :: d :: tail, hrun =>
        obtain ⟨rfl, rfl⟩ := Prod.mk.inj (Option.some.inj hrun)
        refine ⟨[a, b, c, d], Eq.symm ?_, rfl⟩
        have ha := a.toNat_lt
        have hb := b.toNat_lt
        have hc := c.toNat_lt
        have hd := d.toNat_lt
        simp only [putUInt32, be32, le32, List.reverse_cons, List.reverse_nil, List.nil_append,
          List.cons_append, UInt32.toNat_ofNat', List.cons.injEq, and_true, ← UInt8.toNat_inj,
          UInt8.toNat_ofNat']
        omega
  · rintro ⟨p, rfl, rfl⟩
    exact run_getUInt32 rest n

theorem recognizes_getFlag : Recognizes getFlag (bytes 1) := Recognizes.last recognizes_symbol _

/-- What follows a flag may depend on it. -/
theorem recognizes_getFlag_bind {α : Type} {f : Bool → Reader UInt8 α} {L : Bool → Language UInt8}
    (h : ∀ b, Recognizes (f b) (L b)) :
    Recognizes (getFlag >>= f) (⨆ flag : UInt8, {[flag]} * L (flag != 0)) :=
  RecognizesAt.bind recognizesAt_symbol (f := fun flag => f (flag != 0)) fun flag => h (flag != 0)

theorem recognizes_getUInt16 : Recognizes getUInt16 (bytes 2) := by
  have h := Recognizes.bind recognizes_symbol fun a => Recognizes.last recognizes_symbol fun b =>
    UInt16.ofNat (b.toNat + 2 ^ 8 * a.toNat)
  rwa [bytes_mul] at h

theorem recognizes_getUInt32 : Recognizes getUInt32 (bytes 4) := by
  have h := Recognizes.bind recognizes_symbol fun a => Recognizes.bind recognizes_symbol fun b =>
    Recognizes.bind recognizes_symbol fun c => Recognizes.last recognizes_symbol fun d =>
      UInt32.ofNat (d.toNat + 2 ^ 8 * c.toNat + 2 ^ 16 * b.toNat + 2 ^ 24 * a.toNat)
  rwa [bytes_mul, bytes_mul, bytes_mul] at h

theorem recognizes_getInt32 : Recognizes getInt32 (bytes 4) :=
  Recognizes.last recognizes_getUInt32 _

theorem recognizes_getUInt64 : Recognizes getUInt64 (bytes 8) := by
  have h := Recognizes.bind recognizes_getUInt32 fun high =>
    Recognizes.last recognizes_getUInt32 fun low =>
      UInt64.ofNat (2 ^ 32 * high.toNat + low.toNat)
  rwa [bytes_mul] at h

theorem recognizes_getString : Recognizes getString text :=
  RecognizesAt.bind recognizesAt_getUInt32 fun len => recognizes_symbols len.toNat

theorem recognizes_getList {α : Type} {item : Reader UInt8 α} {L : Language UInt8}
    (h : Recognizes item L) : Recognizes (getList item) (listOf L) :=
  RecognizesAt.bind recognizesAt_getUInt32 fun size => h.count size.toNat

end Layouts

end EyaKV.Wire

namespace EyaKV.Network

open EyaKV.Base EyaKV.Base.Reader EyaKV.Store EyaKV.Wire

section Requests

/-- What stands behind the type of a request. -/
def RequestType.layout : RequestType → Language UInt8
  | .command => text * text
  | .batchCommand => listOf (text * text) * text
  | .auth => text
  | _ => 1

/-- The layout of a request. -/
def Request.layout : Language UInt8 :=
  text * ⨆ byte : UInt8, {[byte]} * (RequestType.ofByte byte).layout

theorem Request.recognizes_deserialize : Recognizes Request.deserialize Request.layout := by
  have hcommand : Recognizes Request.getCommand (text * text) :=
    Recognizes.bind recognizes_getString fun key =>
      Recognizes.last recognizes_getString fun value => (key, value)
  refine Recognizes.bind recognizes_getString fun id =>
    RecognizesAt.bind recognizesAt_symbol fun byte => ?_
  cases RequestType.ofByte byte with
  | none => exact recognizes_pure _
  | auth => exact Recognizes.last recognizes_getString _
  | command =>
      exact Recognizes.bind recognizes_getString fun command =>
        Recognizes.last recognizes_getString _
  | batchCommand =>
      exact (recognizes_getList hcommand).bind fun commands =>
        Recognizes.last recognizes_getString _
  | other n => exact recognizes_pure _

end Requests

section Messages

open EyaKV.Raft.Protocol

/-- The layout of an address: the host and the port. -/
def addressLayout : Language UInt8 := text * bytes 4

/-- The layout of an entry: term, index, type, time, command and identifier. -/
def entryLayout : Language UInt8 := bytes 4 * (bytes 4 * (bytes 4 * (bytes 8 * (text * text))))

/-- The layout of the metadata: version, leader and nodes. -/
def metadataLayout : Language UInt8 := bytes 4 * (addressLayout * listOf addressLayout)

/-- The layout of a join response: the flag, and what it says. -/
def joinResponseLayout : Language UInt8 :=
  ⨆ flag : UInt8, {[flag]} * if flag != 0 then metadataLayout * bytes 4 else text

/-- What stands behind the type and the term of a message. -/
def dataLayout : RaftMessageType → Language UInt8
  | .requestVote => bytes 4 * bytes 4
  | .requestVoteResponse => bytes 1
  | .appendEntries => bytes 4 * (bytes 4 * (listOf entryLayout * bytes 4))
  | .appendEntriesResponse => bytes 1 * bytes 4
  | .newNode => addressLayout
  | .queryLeaderResponse => addressLayout
  | .joinCluster => bytes 1 * (bytes 4 * bytes 2)
  | .joinClusterResponse => joinResponseLayout
  | .snapshotInstall => text * (bytes 4 * (bytes 1 * (bytes 4 * bytes 4)))
  | .snapshotInstallResponse => bytes 1 * bytes 4
  | .newMaster => addressLayout
  | .leaveNode => addressLayout
  | _ => 1

/-- The layout of a message. -/
def messageLayout : Language UInt8 :=
  ⨆ type : UInt32, {putUInt32 type} * (bytes 4 * dataLayout (.ofNumber type))

theorem recognizes_address : Recognizes Address.deserialize addressLayout :=
  Recognizes.bind recognizes_getString fun _ => Recognizes.last recognizes_getInt32 _

theorem recognizes_logEntry : Recognizes getLogEntry entryLayout :=
  Recognizes.bind recognizes_getUInt32 fun _ => Recognizes.bind recognizes_getUInt32 fun _ =>
    Recognizes.bind recognizes_getUInt32 fun _ => Recognizes.bind recognizes_getUInt64 fun _ =>
      Recognizes.bind recognizes_getString fun _ => Recognizes.last recognizes_getString _

theorem recognizes_metadata : Recognizes ClusterMetadata.deserialize metadataLayout :=
  Recognizes.bind recognizes_getUInt32 fun _ => Recognizes.bind recognizes_address fun _ =>
    (recognizes_getList recognizes_address).last _

theorem recognizes_joinResponse :
    Recognizes JoinClusterResponseData.deserialize joinResponseLayout := by
  refine recognizes_getFlag_bind
    (L := fun success => if success then metadataLayout * bytes 4 else text) fun success => ?_
  cases success with
  | false => exact Recognizes.last recognizes_getString _
  | true =>
      exact Recognizes.bind recognizes_metadata fun _ => Recognizes.last recognizes_getUInt32 _

theorem recognizes_requestVote : Recognizes RequestVoteData.deserialize (bytes 4 * bytes 4) :=
  Recognizes.bind recognizes_getUInt32 fun _ => Recognizes.last recognizes_getUInt32 _

theorem recognizes_appendEntries : Recognizes AppendEntriesData.deserialize
    (bytes 4 * (bytes 4 * (listOf entryLayout * bytes 4))) :=
  Recognizes.bind recognizes_getUInt32 fun _ => Recognizes.bind recognizes_getUInt32 fun _ =>
    (recognizes_getList recognizes_logEntry).bind fun _ => Recognizes.last recognizes_getUInt32 _

theorem recognizes_appendEntriesResponse :
    Recognizes AppendEntriesResponseData.deserialize (bytes 1 * bytes 4) :=
  Recognizes.bind recognizes_getFlag fun _ => Recognizes.last recognizes_getUInt32 _

theorem recognizes_joinCluster :
    Recognizes JoinClusterData.deserialize (bytes 1 * (bytes 4 * bytes 2)) :=
  Recognizes.bind recognizes_getFlag fun _ => Recognizes.bind recognizes_getUInt32 fun _ =>
    Recognizes.last recognizes_getUInt16 _

theorem recognizes_snapshotInstall : Recognizes SnapshotInstallData.deserialize
    (text * (bytes 4 * (bytes 1 * (bytes 4 * bytes 4)))) :=
  Recognizes.bind recognizes_getString fun _ => Recognizes.bind recognizes_getUInt32 fun _ =>
    Recognizes.bind recognizes_getFlag fun _ => Recognizes.bind recognizes_getUInt32 fun _ =>
      Recognizes.last recognizes_getUInt32 _

theorem recognizes_snapshotInstallResponse :
    Recognizes SnapshotInstallResponseData.deserialize (bytes 1 * bytes 4) :=
  Recognizes.bind recognizes_getFlag fun _ => Recognizes.last recognizes_getUInt32 _

theorem RaftMessage.recognizes_deserialize : Recognizes RaftMessage.deserialize messageLayout := by
  refine RecognizesAt.bind recognizesAt_getUInt32 fun type =>
    Recognizes.bind recognizes_getUInt32 fun term => ?_
  rw [RaftMessage.deserializeData]
  cases RaftMessageType.ofNumber type with
  | requestVote => exact Recognizes.last recognizes_requestVote _
  | requestVoteResponse =>
      exact (Recognizes.last recognizes_getFlag RequestVoteResponseData.mk).last _
  | appendEntries => exact Recognizes.last recognizes_appendEntries _
  | appendEntriesResponse => exact Recognizes.last recognizes_appendEntriesResponse _
  | newNode => exact Recognizes.last recognizes_address _
  | newMaster => exact Recognizes.last recognizes_address _
  | queryLeader => exact recognizes_pure _
  | queryLeaderResponse => exact Recognizes.last recognizes_address _
  | joinCluster => exact Recognizes.last recognizes_joinCluster _
  | joinClusterResponse => exact Recognizes.last recognizes_joinResponse _
  | clusterConfig => exact recognizes_pure _
  | clusterConfigResponse => exact recognizes_pure _
  | snapshotInstall => exact Recognizes.last recognizes_snapshotInstall _
  | snapshotInstallResponse => exact Recognizes.last recognizes_snapshotInstallResponse _
  | leaveNode => exact Recognizes.last recognizes_address _
  | other n => exact recognizes_pure _

end Messages

section Bodies

/-- The bytes from the start of a body on: the body, and what lies behind it. -/
def buffer (body : Bytes) (behind : Nat → UInt8) (i : Nat) : UInt8 :=
  (body[i]?).getD (behind (i - body.length))

theorem holds_buffer (body : Bytes) (behind : Nat → UInt8) :
    Holds (buffer body behind) 0 body := by
  intro i byte hi
  rw [Nat.zero_add, buffer, hi, Option.getD_some]

/-- The decoder reads only positions of the body. -/
def Inside {α : Type} (r : Reader UInt8 α) (body : Bytes) (behind : Nat → UInt8) : Prop :=
  ∀ i ∈ r.reads (buffer body behind) 0, i < body.length

theorem inside_iff_begins {α : Type} {r : Reader UInt8 α} {L : Language UInt8}
    (h : Recognizes r L) (body : Bytes) (behind : Nat → UInt8) :
    Inside r body behind ↔ ∃ p ∈ L, p <+: body := by
  have hreads := reads_lt_iff r (holds_buffer body behind)
  rw [Nat.zero_add, h.isSome_iff body] at hreads
  exact hreads

/-- **The decoders stay inside a body exactly when it begins with a whole message of their
layout.** -/
theorem inside_iff (body : Bytes) (behind : Nat → UInt8) :
    (Inside Request.deserialize body behind ↔ ∃ p ∈ Request.layout, p <+: body) ∧
      (Inside Raft.Protocol.RaftMessage.deserialize body behind ↔
        ∃ p ∈ messageLayout, p <+: body) :=
  ⟨inside_iff_begins Request.recognizes_deserialize body behind,
    inside_iff_begins RaftMessage.recognizes_deserialize body behind⟩

/-- An identifier that is announced with 16 bytes and has none. -/
theorem not_inside_shortBody : ¬ ∀ (body : Bytes) (behind : Nat → UInt8),
    Inside Request.deserialize body behind ∧
      Inside Raft.Protocol.RaftMessage.deserialize body behind := by
  intro h
  have hmem : 4 ∈ Request.deserialize.reads (buffer [0, 0, 0, 16] fun _ => 0) 0 := by
    decide
  exact absurd ((h [0, 0, 0, 16] fun _ => 0).1 4 hmem) (by decide)

end Bodies

end EyaKV.Network
