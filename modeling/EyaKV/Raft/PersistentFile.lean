import EyaKV.Base.Streams
import EyaKV.Raft.Messages

/-!
# The persistent state of a node and its file

The file `.raft_meta` holds the encoding of the `PersistentState` and nothing else. Each save
writes it from the beginning, cuts the file to its length while a part of it may still be in
the stream's buffer, and flushes. What a node finds at its next start is the state that was
saved last, exactly when the lengths and counts in it are below 2^32
(`load_persistent_state_iff`).
-/

set_option autoImplicit false

namespace EyaKV.Raft.Protocol

open EyaKV.Base EyaKV.Base.Framing EyaKV.Store EyaKV.Wire

section NativeFields

/-- The bytes of a `uint32_t` in memory. -/
def putNative32 (n : UInt32) : Bytes := le32 n.toNat

/-- `memcpy` into a `uint32_t`. -/
def getNative32 : Reader UInt8 UInt32 := do
  let a ← Reader.symbol
  let b ← Reader.symbol
  let c ← Reader.symbol
  let d ← Reader.symbol
  return UInt32.ofNat (a.toNat + 2 ^ 8 * b.toNat + 2 ^ 16 * c.toNat + 2 ^ 24 * d.toNat)

@[simp] theorem run_getNative32 (n : UInt32) (rest : Bytes) :
    getNative32.run (putNative32 n ++ rest) = some (n, rest) := by
  have hrun : getNative32.run (putNative32 n ++ rest) =
      some (UInt32.ofNat ((UInt8.ofNat n.toNat).toNat +
        2 ^ 8 * (UInt8.ofNat (n.toNat / 2 ^ 8)).toNat +
        2 ^ 16 * (UInt8.ofNat (n.toNat / 2 ^ 16)).toNat +
        2 ^ 24 * (UInt8.ofNat (n.toNat / 2 ^ 24)).toNat), rest) := rfl
  have hn := n.toNat_lt
  rw [hrun, Option.some.injEq, Prod.mk.injEq]
  refine ⟨UInt32.toNat_inj.1 ?_, rfl⟩
  simp only [UInt8.toNat_ofNat', UInt32.toNat_ofNat']
  omega

end NativeFields

section State

/-- `PersistentState`. -/
structure PersistentState where
  currentTerm : UInt32 := 0
  votedFor : Address := {}
  clusterMetadata : ClusterMetadata := {}
  logSnapshotIndex : UInt32 := 0
  commitIndex : UInt32 := 0
  lastApplied : UInt32 := 0

/-- `PersistentState::serialize`. -/
def PersistentState.serialize (listing : AddressListing) (s : PersistentState) : Bytes :=
  putNative32 s.currentTerm ++ (s.votedFor.serialize ++
    (s.clusterMetadata.serialize listing ++ (putNative32 s.logSnapshotIndex ++
      (putNative32 s.commitIndex ++ putNative32 s.lastApplied))))

/-- `PersistentState::deserialize`. -/
def PersistentState.deserialize : Reader UInt8 PersistentState := do
  let currentTerm ← getNative32
  let votedFor ← Address.deserialize
  let clusterMetadata ← ClusterMetadata.deserialize
  let logSnapshotIndex ← getNative32
  let commitIndex ← getNative32
  let lastApplied ← getNative32
  return ⟨currentTerm, votedFor, clusterMetadata, logSnapshotIndex, commitIndex, lastApplied⟩

/-- The hosts are shorter than 2^32 bytes, and the nodes are fewer. -/
structure PersistentState.Sized (s : PersistentState) : Prop where
  votedFor : s.votedFor.Sized
  clusterMetadata : s.clusterMetadata.Sized

theorem decodes_persistentState (listing : AddressListing) : Decodes PersistentState.Sized
    (PersistentState.serialize listing) PersistentState.deserialize.run := by
  rintro ⟨term, vote, metadata, snapshot, commit, applied⟩ ⟨hvote, hmetadata⟩ rest
  have haddress := decodes_address vote hvote
  have hcluster := decodes_metadata listing metadata hmetadata
  simp only [PersistentState.serialize, PersistentState.deserialize, Reader.run_bind,
    List.append_assoc, run_getNative32, haddress, hcluster, Option.bind_some, Reader.run_pure]

theorem yields_persistentState : Yields PersistentState.Sized PersistentState.deserialize.run := by
  refine Reader.yields_bind (yields_true _) fun term _ => ?_
  refine Reader.yields_bind yields_address fun vote hvote => ?_
  refine Reader.yields_bind yields_metadata fun metadata hmetadata => ?_
  refine Reader.yields_bind (yields_true _) fun snapshot _ => ?_
  refine Reader.yields_bind (yields_true _) fun commit _ => ?_
  refine Reader.yields_bind (yields_true _) fun applied _ => ?_
  exact Reader.yields_pure ⟨hvote, hmetadata⟩

/-- An encoding is not empty, so a file that holds one is read. -/
theorem PersistentState.length_serialize_pos (listing : AddressListing) (s : PersistentState) :
    0 < (s.serialize listing).length := by
  rw [PersistentState.serialize, List.length_append, putNative32, length_le32]
  omega

end State

section MetaFile

/-- What a save depends on beside the state: the order in which the hash table is listed, and
how much of the data the stream writes before it is flushed. -/
structure Save where
  state : PersistentState
  listing : AddressListing
  early : Nat

/-- The data of a save. -/
def Save.data (s : Save) : Bytes := s.state.serialize s.listing

/-- `RaftNode::save_persistent_state`. -/
def savePersistentState (file : Stream UInt8) (s : Save) : Stream UInt8 :=
  (((file.seek 0).write s.early s.data).truncate s.data.length).flush

/-- `RaftNode::load_persistent_state`: the state of the node after it, `none` when the encoding
goes beyond the end of the file. -/
def loadPersistentState (file : Stream UInt8) (state : PersistentState) :
    Option PersistentState :=
  let data := file.flush.content
  if 0 < data.length then (PersistentState.deserialize.run data).map Prod.fst else some state

theorem content_savePersistentState (file : Stream UInt8) (s : Save) :
    (savePersistentState file s).content = s.data :=
  file.rewrite_content s.early s.data

/-- The node loads the state that was saved last, and the encoding is read back as it is. -/
def Survives (file : Stream UInt8) (saves : List Save) (s : Save) : Prop :=
  (∀ state, loadPersistentState ((saves ++ [s]).foldl savePersistentState file) state =
    some s.state) ∧ ∀ rest, PersistentState.deserialize.run (s.data ++ rest) = some (s.state, rest)

theorem load_savePersistentState (file : Stream UInt8) (s : Save) (state : PersistentState) :
    loadPersistentState (savePersistentState file s) state =
      (PersistentState.deserialize.run s.data).map Prod.fst := by
  have hcontent : (savePersistentState file s).flush.content = s.data :=
    content_savePersistentState file s
  have hpos : 0 < s.data.length := s.state.length_serialize_pos s.listing
  simp only [loadPersistentState, hcontent, hpos, if_true]

/-- **The persistent state survives exactly when its lengths and counts are below 2^32**,
whatever the file held and whatever was saved before. -/
theorem load_persistent_state_iff (file : Stream UInt8) (saves : List Save) (s : Save) :
    Survives file saves s ↔ s.state.Sized := by
  have hround := (decodes_persistentState s.listing).iff_valid yields_persistentState s.state
  constructor
  · intro h
    exact hround.1 h.2
  · intro h
    refine ⟨fun state => ?_, hround.2 h⟩
    have hrun := hround.2 h []
    rw [List.append_nil] at hrun
    rw [List.foldl_append, List.foldl_cons, List.foldl_nil, load_savePersistentState, Save.data,
      hrun, Option.map_some]

/-- A vote for an address whose host has 2^32 bytes is not read back. -/
theorem load_persistent_state_longHost :
    ¬ ∀ (file : Stream UInt8) (saves : List Save) (s : Save), Survives file saves s := by
  intro h
  obtain ⟨listing⟩ : Nonempty AddressListing :=
    ⟨⟨Finset.toList, Finset.nodup_toList, Finset.toList_toFinset⟩⟩
  let vote : Address := { host := List.replicate (2 ^ 32) 0 }
  have hsized := yields_persistentState _ _ [] ((h ⟨[], 0, []⟩ [] ⟨{ votedFor := vote }, listing,
    0⟩).2 [])
  have hlength := hsized.votedFor
  rw [Address.Sized, Store.Sized, List.length_replicate] at hlength
  exact Nat.lt_irrefl _ hlength

end MetaFile

end EyaKV.Raft.Protocol
