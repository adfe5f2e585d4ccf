import EyaKV.Base.SortedList
import EyaKV.Common.Wire
import EyaKV.Raft.LogDisk
import Mathlib.Data.Finset.Insert
import Mathlib.Data.Finset.Dedup

/-!
# The messages of the nodes

`RaftMessage` with its data in all kinds, the encoder and the decoder. A message is its type, its
term, and the data of its type. The entries of a log replication are a `std::set`, so they ascend
by index; the nodes of a cluster are a hash table, which is written in the order in which it is
listed. A message of the factory functions is read back exactly when its lengths and counts are
below 2^32 (`raftMessage_roundTrips_iff`), up to what the encoding does not keep (`RaftMessage.normal`).
-/

set_option autoImplicit false

namespace EyaKV.Raft.Protocol

open EyaKV.Base EyaKV.Base.Framing EyaKV.Store EyaKV.Wire

section Entries

/-- `LogEntry::deserialize`. -/
def getLogEntry : Reader UInt8 Disk.LogEntry := do
  let term ← getUInt32
  let index ← getUInt32
  let commandType ← getUInt32
  let timestamp ← getUInt64
  let cmd ← getString
  let requestId ← getString
  return ⟨term, index, commandType, cmd, timestamp, requestId⟩

/-- The texts of an entry fit their prefixes. -/
def EntrySized (e : Disk.LogEntry) : Prop := Sized e.cmd ∧ Sized e.requestId

theorem decodes_logEntry : Decodes EntrySized Disk.LogEntry.serialize getLogEntry.run := by
  rintro ⟨term, index, commandType, cmd, timestamp, requestId⟩ ⟨hcmd, hid⟩ rest
  have hencoding : Disk.LogEntry.serialize ⟨term, index, commandType, cmd, timestamp, requestId⟩ ++ rest =
      putUInt32 term ++ (putUInt32 index ++ (putUInt32 commandType ++ (putUInt64 timestamp ++
        (serializeString cmd ++ (serializeString requestId ++ rest))))) := by
    simp only [Disk.LogEntry.serialize, putUInt32, putUInt64, List.append_assoc]
  simp only [hencoding, getLogEntry, Reader.run_bind, run_getUInt32, run_getUInt64,
    run_getString hcmd, run_getString hid, Option.bind_some, Reader.run_pure]

theorem yields_logEntry : Yields EntrySized getLogEntry.run :=
  Reader.yields_bind (yields_true _) fun _ _ => Reader.yields_bind (yields_true _) fun _ _ =>
    Reader.yields_bind (yields_true _) fun _ _ => Reader.yields_bind (yields_true _) fun _ _ =>
      Reader.yields_bind yields_string fun _ hcmd => Reader.yields_bind yields_string fun _ hid =>
        Reader.yields_pure ⟨hcmd, hid⟩

/-- The place of an entry in a set. -/
def indexOf (e : Disk.LogEntry) : Nat := e.index.toNat

/-- `std::set::insert` in the listing of a set; an entry at the same index stays. -/
def insertEntry (e : Disk.LogEntry) : List Disk.LogEntry → List Disk.LogEntry
  | [] => [e]
  | x :: xs =>
      if indexOf e < indexOf x then e :: x :: xs
      else if indexOf x < indexOf e then x :: insertEntry e xs
      else x :: xs

theorem mem_insertEntry {e x : Disk.LogEntry} {l : List Disk.LogEntry} (h : x ∈ insertEntry e l) :
    x = e ∨ x ∈ l := by
  induction l with
  | nil => exact Or.inl (List.mem_singleton.1 h)
  | cons y l ih =>
      rw [insertEntry] at h
      split at h
      · exact List.mem_cons.1 h
      · split at h
        · rcases List.mem_cons.1 h with rfl | h
          · exact Or.inr List.mem_cons_self
          · exact (ih h).imp_right (List.mem_cons_of_mem y)
        · exact Or.inr h

theorem ascending_insertEntry (e : Disk.LogEntry) {l : List Disk.LogEntry} (h : Ascending indexOf l) :
    Ascending indexOf (insertEntry e l) := by
  induction l with
  | nil => exact List.pairwise_singleton _ _
  | cons y l ih =>
      obtain ⟨hhead, htail⟩ := List.pairwise_cons.1 h
      rw [insertEntry]
      split
      · next hlt =>
          refine List.pairwise_cons.2 ⟨fun x hx => ?_, h⟩
          rcases List.mem_cons.1 hx with rfl | hx
          · exact hlt
          · exact Nat.lt_trans hlt (hhead x hx)
      · split
        · next hlt =>
            refine List.pairwise_cons.2 ⟨fun x hx => ?_, ih htail⟩
            rcases mem_insertEntry hx with rfl | hx
            · exact hlt
            · exact hhead x hx
        · exact h

/-- An entry behind all others is appended. -/
theorem insertEntry_last {e : Disk.LogEntry} {l : List Disk.LogEntry}
    (h : ∀ x ∈ l, indexOf x < indexOf e) : insertEntry e l = l ++ [e] := by
  induction l with
  | nil => rfl
  | cons x l ih =>
      have hx := h x List.mem_cons_self
      rw [insertEntry, if_neg (Nat.not_lt_of_lt hx), if_pos hx,
        ih fun y hy => h y (List.mem_cons_of_mem x hy)]
      rfl

theorem length_insertEntry_le (e : Disk.LogEntry) (l : List Disk.LogEntry) :
    (insertEntry e l).length ≤ l.length + 1 := by
  induction l with
  | nil => exact Nat.le_refl _
  | cons x l ih =>
      rw [insertEntry]
      split
      · exact Nat.le_refl _
      · split
        · exact Nat.succ_le_succ ih
        · exact Nat.le_succ _

/-- `std::set<LogEntry>`. -/
structure EntrySet where
  list : List Disk.LogEntry
  ascending : Ascending indexOf list

namespace EntrySet

@[ext] theorem ext {s t : EntrySet} (h : s.list = t.list) : s = t := by
  obtain ⟨l, hl⟩ := s
  obtain ⟨m, hm⟩ := t
  obtain rfl : l = m := h
  rfl

def empty : EntrySet := ⟨[], List.Pairwise.nil⟩

def insert (s : EntrySet) (e : Disk.LogEntry) : EntrySet :=
  ⟨insertEntry e s.list, ascending_insertEntry e s.ascending⟩

/-- The set that entries are inserted into one after the other. -/
def ofList (l : List Disk.LogEntry) : EntrySet := l.foldl insert empty

/-- **The entries of a set make the same set again.** -/
theorem ofList_list (s : EntrySet) : ofList s.list = s := by
  suffices hfold : ∀ (more : List Disk.LogEntry) (t : EntrySet),
      Ascending indexOf (t.list ++ more) → (more.foldl insert t).list = t.list ++ more by
    exact ext (hfold s.list empty s.ascending)
  intro more
  induction more with
  | nil => exact fun t _ => (List.append_nil _).symm
  | cons e more ih =>
      intro t ht
      have hlast : (t.insert e).list = t.list ++ [e] :=
        insertEntry_last fun x hx => (List.pairwise_append.1 ht).2.2 x hx e List.mem_cons_self
      rw [List.foldl_cons, ih (t.insert e) (by rwa [hlast, List.append_assoc]), hlast,
        List.append_assoc]
      rfl

theorem ofList_spec {P : Disk.LogEntry → Prop} {l : List Disk.LogEntry} (h : ∀ e ∈ l, P e) :
    (ofList l).list.length ≤ l.length ∧ ∀ e ∈ (ofList l).list, P e := by
  suffices hfold : ∀ t : EntrySet, (∀ e ∈ t.list, P e) →
      (l.foldl insert t).list.length ≤ t.list.length + l.length ∧
        ∀ e ∈ (l.foldl insert t).list, P e by
    obtain ⟨hlength, hall⟩ := hfold empty fun e he => absurd he List.not_mem_nil
    exact ⟨by rwa [show empty.list.length = 0 from rfl, Nat.zero_add] at hlength, hall⟩
  induction l with
  | nil => exact fun t ht => ⟨Nat.le_refl _, ht⟩
  | cons e l ih =>
      intro t ht
      have hinsert : ∀ x ∈ (t.insert e).list, P x := by
        intro x hx
        rcases mem_insertEntry hx with rfl | hx
        · exact h x List.mem_cons_self
        · exact ht x hx
      obtain ⟨hlength, hall⟩ := ih (fun x hx => h x (List.mem_cons_of_mem e hx)) _ hinsert
      have hle : (t.insert e).list.length ≤ t.list.length + 1 := length_insertEntry_le e t.list
      rw [List.length_cons]
      exact ⟨by rw [List.foldl_cons]; omega, hall⟩

/-- The number of the entries and their texts fit their prefixes. -/
def Sized (s : EntrySet) : Prop := s.list.length < 2 ^ 32 ∧ ∀ e ∈ s.list, EntrySized e

end EntrySet

end Entries

section Addresses

/-- `Address`. -/
structure Address where
  host : Bytes := []
  port : Int32 := 0
  deriving DecidableEq

/-- `Address::serialize`. -/
def Address.serialize (a : Address) : Bytes := serializeString a.host ++ putInt32 a.port

/-- `Address::deserialize`. -/
def Address.deserialize : Reader UInt8 Address := do
  let host ← getString
  let port ← getInt32
  return ⟨host, port⟩

def Address.Sized (a : Address) : Prop := Store.Sized a.host

theorem decodes_address : Decodes Address.Sized Address.serialize Address.deserialize.run := by
  rintro ⟨host, port⟩ h rest
  have hhost : Store.Sized host := h
  simp only [Address.serialize, Address.deserialize, Reader.run_bind, List.append_assoc,
    run_getString hhost, run_getInt32, Option.bind_some, Reader.run_pure]

theorem yields_address : Yields Address.Sized Address.deserialize.run :=
  Reader.yields_bind yields_string fun _ hhost =>
    Reader.yields_bind (yields_true _) fun _ _ => Reader.yields_pure hhost

/-- The order in which hash tables of addresses are listed. -/
structure AddressListing where
  list : Finset Address → List Address
  nodup : ∀ s, (list s).Nodup
  toFinset : ∀ s, (list s).toFinset = s

/-- `ClusterMetadata`. -/
structure ClusterMetadata where
  clusterNodes : Finset Address := ∅
  currentLeader : Address := {}
  clusterVersion : UInt32 := 0

/-- `ClusterMetadata::serialize`. -/
def ClusterMetadata.serialize (listing : AddressListing) (m : ClusterMetadata) : Bytes :=
  putUInt32 m.clusterVersion ++ (m.currentLeader.serialize ++ (be32 m.clusterNodes.card ++
    (listing.list m.clusterNodes).flatMap Address.serialize))

/-- `ClusterMetadata::deserialize`. -/
def ClusterMetadata.deserialize : Reader UInt8 ClusterMetadata := do
  let clusterVersion ← getUInt32
  let currentLeader ← Address.deserialize
  let nodes ← getList Address.deserialize
  return ⟨nodes.toFinset, currentLeader, clusterVersion⟩

structure ClusterMetadata.Sized (m : ClusterMetadata) : Prop where
  count : m.clusterNodes.card < 2 ^ 32
  nodes : ∀ a ∈ m.clusterNodes, a.Sized
  leader : m.currentLeader.Sized

theorem decodes_metadata (listing : AddressListing) : Decodes ClusterMetadata.Sized
    (ClusterMetadata.serialize listing) ClusterMetadata.deserialize.run := by
  rintro ⟨nodes, leader, version⟩ ⟨hcount, hnodes, hleader⟩ rest
  have hset := listing.toFinset nodes
  have hcard : (listing.list nodes).length = nodes.card := by
    rw [← List.toFinset_card_of_nodup (listing.nodup nodes), hset]
  have hlist := run_getList decodes_address (hcard ▸ hcount) (fun a ha =>
    hnodes a (by rw [← hset, List.mem_toFinset]; exact ha)) rest
  rw [hcard] at hlist
  have haddress := decodes_address leader hleader
  simp only [ClusterMetadata.serialize, ClusterMetadata.deserialize, Reader.run_bind,
    List.append_assoc, run_getUInt32, haddress, hlist, Option.bind_some, Reader.run_pure, hset]

theorem yields_metadata : Yields ClusterMetadata.Sized ClusterMetadata.deserialize.run := by
  refine Reader.yields_bind (yields_true _) fun version _ => ?_
  refine Reader.yields_bind yields_address fun leader hleader => ?_
  refine Reader.yields_bind (yields_list yields_address) fun nodes hnodes => ?_
  refine Reader.yields_pure ⟨?_, fun a ha => hnodes.2 a (List.mem_toFinset.1 ha), hleader⟩
  exact Nat.lt_of_le_of_lt (List.toFinset_card_le nodes) hnodes.1

end Addresses

section Data

/-- `RequestVoteData`. -/
structure RequestVoteData where
  lastLogIndex : UInt32
  lastLogTerm : UInt32

def RequestVoteData.serialize (d : RequestVoteData) : Bytes :=
  putUInt32 d.lastLogIndex ++ putUInt32 d.lastLogTerm

def RequestVoteData.deserialize : Reader UInt8 RequestVoteData := do
  let lastLogIndex ← getUInt32
  let lastLogTerm ← getUInt32
  return ⟨lastLogIndex, lastLogTerm⟩

/-- `RequestVoteResponseData`. -/
structure RequestVoteResponseData where
  voteGranted : Bool

def RequestVoteResponseData.serialize (d : RequestVoteResponseData) : Bytes := putFlag d.voteGranted

def RequestVoteResponseData.deserialize : Reader UInt8 RequestVoteResponseData := do
  return ⟨← getFlag⟩

/-- `AppendEntriesData`. -/
structure AppendEntriesData where
  prevLogIndex : UInt32
  prevLogTerm : UInt32
  entries : Option EntrySet := none
  leaderCommit : UInt32

/-- `AppendEntriesData::serialize`: no entries are written as none of them. -/
def AppendEntriesData.serialize (d : AppendEntriesData) : Bytes :=
  putUInt32 d.prevLogIndex ++ (putUInt32 d.prevLogTerm ++
    ((match d.entries with
      | some entries => be32 entries.list.length ++ entries.list.flatMap Disk.LogEntry.serialize
      | none => putUInt32 0) ++ putUInt32 d.leaderCommit))

/-- `AppendEntriesData::deserialize`. -/
def AppendEntriesData.deserialize : Reader UInt8 AppendEntriesData := do
  let prevLogIndex ← getUInt32
  let prevLogTerm ← getUInt32
  let entries ← getList getLogEntry
  let leaderCommit ← getUInt32
  return ⟨prevLogIndex, prevLogTerm, if entries = [] then none else some (.ofList entries),
    leaderCommit⟩

/-- `AppendEntriesResponseData`. -/
structure AppendEntriesResponseData where
  success : Bool
  logIndex : UInt32

def AppendEntriesResponseData.serialize (d : AppendEntriesResponseData) : Bytes :=
  putFlag d.success ++ putUInt32 d.logIndex

def AppendEntriesResponseData.deserialize : Reader UInt8 AppendEntriesResponseData := do
  let success ← getFlag
  let logIndex ← getUInt32
  return ⟨success, logIndex⟩

/-- `JoinClusterData`. -/
structure JoinClusterData where
  isReconnect : Bool
  lastIndex : UInt32
  port : UInt16

def JoinClusterData.serialize (d : JoinClusterData) : Bytes :=
  putFlag d.isReconnect ++ (putUInt32 d.lastIndex ++ putUInt16 d.port)

def JoinClusterData.deserialize : Reader UInt8 JoinClusterData := do
  let isReconnect ← getFlag
  let lastIndex ← getUInt32
  let port ← getUInt16
  return ⟨isReconnect, lastIndex, port⟩

/-- `JoinClusterResponseData`. -/
structure JoinClusterResponseData where
  success : Bool := false
  errorMessage : Bytes := []
  clusterMetadata : ClusterMetadata := {}
  syncFromIndex : UInt32 := 0

def JoinClusterResponseData.serialize (listing : AddressListing) (d : JoinClusterResponseData) :
    Bytes :=
  putFlag d.success ++
    if d.success then d.clusterMetadata.serialize listing ++ putUInt32 d.syncFromIndex
    else serializeString d.errorMessage

def JoinClusterResponseData.deserialize : Reader UInt8 JoinClusterResponseData := do
  let success ← getFlag
  if success then
    let clusterMetadata ← ClusterMetadata.deserialize
    let syncFromIndex ← getUInt32
    return { success := true, clusterMetadata := clusterMetadata, syncFromIndex := syncFromIndex }
  else
    let errorMessage ← getString
    return { success := false, errorMessage := errorMessage }

/-- `SnapshotInstallData`. -/
structure SnapshotInstallData where
  snapshotData : Bytes
  offset : UInt32
  done : Bool
  lastIncludedIndex : UInt32
  lastIncludedTerm : UInt32

def SnapshotInstallData.serialize (d : SnapshotInstallData) : Bytes :=
  serializeString d.snapshotData ++ (putUInt32 d.offset ++ (putFlag d.done ++
    (putUInt32 d.lastIncludedIndex ++ putUInt32 d.lastIncludedTerm)))

def SnapshotInstallData.deserialize : Reader UInt8 SnapshotInstallData := do
  let snapshotData ← getString
  let offset ← getUInt32
  let done ← getFlag
  let lastIncludedIndex ← getUInt32
  let lastIncludedTerm ← getUInt32
  return ⟨snapshotData, offset, done, lastIncludedIndex, lastIncludedTerm⟩

/-- `SnapshotInstallResponseData`. -/
structure SnapshotInstallResponseData where
  success : Bool
  offset : UInt32

def SnapshotInstallResponseData.serialize (d : SnapshotInstallResponseData) : Bytes :=
  putFlag d.success ++ putUInt32 d.offset

def SnapshotInstallResponseData.deserialize : Reader UInt8 SnapshotInstallResponseData := do
  let success ← getFlag
  let offset ← getUInt32
  return ⟨success, offset⟩

namespace AppendEntriesData

/-- An absent set and an empty one are the same. -/
def normal (d : AppendEntriesData) : AppendEntriesData :=
  { d with entries := d.entries.filter fun s => !s.list.isEmpty }

def Sized (d : AppendEntriesData) : Prop := ∀ s ∈ d.entries, s.Sized

theorem run_deserialize {d : AppendEntriesData} (h : d.Sized) (rest : Bytes) :
    deserialize.run (d.serialize ++ rest) = some (d.normal, rest) := by
  obtain ⟨prevLogIndex, prevLogTerm, entries, leaderCommit⟩ := d
  cases entries with
  | none =>
      have hlist : (getList getLogEntry).run (putUInt32 0 ++ (putUInt32 leaderCommit ++ rest)) =
          some ([], putUInt32 leaderCommit ++ rest) := rfl
      simp only [serialize, deserialize, Reader.run_bind, List.append_assoc, run_getUInt32, hlist,
        Option.bind_some, Reader.run_pure, ↓reduceIte]
      rfl
  | some s =>
      obtain ⟨hlength, hentries⟩ := h s rfl
      have hlist := run_getList decodes_logEntry hlength hentries (putUInt32 leaderCommit ++ rest)
      simp only [serialize, deserialize, Reader.run_bind, List.append_assoc, run_getUInt32, hlist,
        Option.bind_some, Reader.run_pure, EntrySet.ofList_list]
      by_cases hnil : s.list = []
      · rw [if_pos hnil, normal, Option.filter_some_neg (by rw [hnil]; rfl)]
      · rw [if_neg hnil, normal,
          Option.filter_some_pos (by rwa [Bool.not_eq_true', List.isEmpty_eq_false_iff])]

theorem yields_deserialize : Yields Sized deserialize.run := by
  refine Reader.yields_bind (yields_true _) fun _ _ => ?_
  refine Reader.yields_bind (yields_true _) fun _ _ => ?_
  refine Reader.yields_bind (yields_list yields_logEntry) fun entries hentries => ?_
  refine Reader.yields_bind (yields_true _) fun _ _ => Reader.yields_pure fun s hs => ?_
  obtain ⟨-, heq⟩ := Option.ite_none_left_eq_some.1 hs
  obtain rfl := Option.some.inj heq
  obtain ⟨hle, hall⟩ := EntrySet.ofList_spec hentries.2
  exact ⟨Nat.lt_of_le_of_lt hle hentries.1, hall⟩

theorem sized_normal (d : AppendEntriesData) : d.normal.Sized ↔ d.Sized := by
  obtain ⟨prevLogIndex, prevLogTerm, entries, leaderCommit⟩ := d
  cases entries with
  | none => exact Iff.rfl
  | some s =>
      by_cases hnil : s.list = []
      · refine iff_of_true (fun t ht => ?_) fun t ht => ?_
        · rw [normal, Option.filter_some_neg (by rw [hnil]; rfl)] at ht
          cases ht
        · obtain rfl := Option.some.inj ht
          exact ⟨by rw [hnil]; exact Nat.two_pow_pos 32,
            fun e he => absurd (hnil ▸ he) List.not_mem_nil⟩
      · rw [normal, Option.filter_some_pos (by rwa [Bool.not_eq_true', List.isEmpty_eq_false_iff])]

theorem normal_normal (d : AppendEntriesData) : d.normal.normal = d.normal := by
  simp only [normal, Option.filter_filter, Bool.and_self]

end AppendEntriesData

namespace JoinClusterResponseData

/-- What the encoding keeps: the metadata of a successful response, the text of another one. -/
def normal (d : JoinClusterResponseData) : JoinClusterResponseData :=
  if d.success then { d with errorMessage := [] }
  else { success := false, errorMessage := d.errorMessage }

def Sized (d : JoinClusterResponseData) : Prop :=
  if d.success then d.clusterMetadata.Sized else Store.Sized d.errorMessage

theorem run_deserialize (listing : AddressListing) {d : JoinClusterResponseData} (h : d.Sized)
    (rest : Bytes) : deserialize.run (d.serialize listing ++ rest) = some (d.normal, rest) := by
  obtain ⟨success, errorMessage, clusterMetadata, syncFromIndex⟩ := d
  cases success with
  | false =>
      have herror : Store.Sized errorMessage := h
      simp only [serialize, deserialize, Reader.run_bind, List.append_assoc, run_getFlag,
        Option.bind_some, Bool.false_eq_true, ↓reduceIte, run_getString herror, Reader.run_pure]
      rfl
  | true =>
      have hmetadata := decodes_metadata listing clusterMetadata h
      simp only [serialize, deserialize, Reader.run_bind, List.append_assoc, run_getFlag,
        Option.bind_some, ↓reduceIte, hmetadata, run_getUInt32, Reader.run_pure]
      rfl

theorem yields_deserialize : Yields Sized deserialize.run := by
  refine Reader.yields_bind (yields_true _) fun success _ => ?_
  cases success with
  | false => exact Reader.yields_bind yields_string fun _ herror => Reader.yields_pure herror
  | true =>
      refine Reader.yields_bind yields_metadata fun _ hmetadata => ?_
      exact Reader.yields_bind (yields_true _) fun _ _ => Reader.yields_pure hmetadata

theorem sized_normal (d : JoinClusterResponseData) : d.normal.Sized ↔ d.Sized := by
  obtain ⟨success, errorMessage, clusterMetadata, syncFromIndex⟩ := d
  cases success <;> rfl

theorem normal_normal (d : JoinClusterResponseData) : d.normal.normal = d.normal := by
  obtain ⟨success, errorMessage, clusterMetadata, syncFromIndex⟩ := d
  cases success <;> rfl

end JoinClusterResponseData

theorem run_requestVote (d : RequestVoteData) (rest : Bytes) :
    RequestVoteData.deserialize.run (d.serialize ++ rest) = some (d, rest) := by
  simp only [RequestVoteData.serialize, RequestVoteData.deserialize, Reader.run_bind,
    List.append_assoc, run_getUInt32, Option.bind_some, Reader.run_pure]

theorem run_requestVoteResponse (d : RequestVoteResponseData) (rest : Bytes) :
    RequestVoteResponseData.deserialize.run (d.serialize ++ rest) = some (d, rest) := by
  simp only [RequestVoteResponseData.serialize, RequestVoteResponseData.deserialize,
    Reader.run_bind, run_getFlag, Option.bind_some, Reader.run_pure]

theorem run_appendEntriesResponse (d : AppendEntriesResponseData) (rest : Bytes) :
    AppendEntriesResponseData.deserialize.run (d.serialize ++ rest) = some (d, rest) := by
  simp only [AppendEntriesResponseData.serialize, AppendEntriesResponseData.deserialize,
    Reader.run_bind, List.append_assoc, run_getFlag, run_getUInt32, Option.bind_some,
    Reader.run_pure]

theorem run_joinCluster (d : JoinClusterData) (rest : Bytes) :
    JoinClusterData.deserialize.run (d.serialize ++ rest) = some (d, rest) := by
  simp only [JoinClusterData.serialize, JoinClusterData.deserialize, Reader.run_bind,
    List.append_assoc, run_getFlag, run_getUInt32, run_getUInt16, Option.bind_some, Reader.run_pure]

theorem run_snapshotInstall {d : SnapshotInstallData} (h : Sized d.snapshotData) (rest : Bytes) :
    SnapshotInstallData.deserialize.run (d.serialize ++ rest) = some (d, rest) := by
  simp only [SnapshotInstallData.serialize, SnapshotInstallData.deserialize, Reader.run_bind,
    List.append_assoc, run_getString h, run_getFlag, run_getUInt32, Option.bind_some,
    Reader.run_pure]

theorem yields_snapshotInstall :
    Yields (fun d => Sized d.snapshotData) SnapshotInstallData.deserialize.run :=
  Reader.yields_bind yields_string fun _ hdata => Reader.yields_bind (yields_true _) fun _ _ =>
    Reader.yields_bind (yields_true _) fun _ _ => Reader.yields_bind (yields_true _) fun _ _ =>
      Reader.yields_bind (yields_true _) fun _ _ => Reader.yields_pure hdata

theorem run_snapshotInstallResponse (d : SnapshotInstallResponseData) (rest : Bytes) :
    SnapshotInstallResponseData.deserialize.run (d.serialize ++ rest) = some (d, rest) := by
  simp only [SnapshotInstallResponseData.serialize, SnapshotInstallResponseData.deserialize,
    Reader.run_bind, List.append_assoc, run_getFlag, run_getUInt32, Option.bind_some,
    Reader.run_pure]

end Data

section Messages

/-- `RaftMessageType`; a number without a name is cast all the same. -/
inductive RaftMessageType where
  | requestVote
  | requestVoteResponse
  | appendEntries
  | appendEntriesResponse
  | newNode
  | newMaster
  | queryLeader
  | queryLeaderResponse
  | joinCluster
  | joinClusterResponse
  | clusterConfig
  | clusterConfigResponse
  | snapshotInstall
  | snapshotInstallResponse
  | leaveNode
  | other (n : UInt32)
  deriving DecidableEq, Repr

namespace RaftMessageType

def number : RaftMessageType → UInt32
  | .requestVote => 1
  | .requestVoteResponse => 2
  | .appendEntries => 3
  | .appendEntriesResponse => 4
  | .newNode => 5
  | .newMaster => 7
  | .queryLeader => 9
  | .queryLeaderResponse => 10
  | .joinCluster => 11
  | .joinClusterResponse => 12
  | .clusterConfig => 13
  | .clusterConfigResponse => 14
  | .snapshotInstall => 15
  | .snapshotInstallResponse => 16
  | .leaveNode => 17
  | .other n => n

/-- The types with a name. -/
def named : List RaftMessageType :=
  [.requestVote, .requestVoteResponse, .appendEntries, .appendEntriesResponse, .newNode,
    .newMaster, .queryLeader, .queryLeaderResponse, .joinCluster, .joinClusterResponse,
    .clusterConfig, .clusterConfigResponse, .snapshotInstall, .snapshotInstallResponse, .leaveNode]

def ofNumber (n : UInt32) : RaftMessageType :=
  (named.find? fun t => t.number == n).getD (.other n)

theorem ofNumber_number {t : RaftMessageType} (h : t ∈ named) : ofNumber t.number = t := by
  revert t
  decide

end RaftMessageType

/-- `RaftMessage`. The data of a new node, of one that leaves, of a new master and of the response
to a query are an address each. -/
structure RaftMessage where
  type : RaftMessageType := .appendEntries
  term : UInt32 := 0
  requestVoteData : Option RequestVoteData := none
  requestVoteResponseData : Option RequestVoteResponseData := none
  appendEntriesData : Option AppendEntriesData := none
  appendEntriesResponseData : Option AppendEntriesResponseData := none
  queryLeaderResponseData : Option Address := none
  joinClusterData : Option JoinClusterData := none
  joinClusterResponseData : Option JoinClusterResponseData := none
  snapshotInstallData : Option SnapshotInstallData := none
  snapshotInstallResponseData : Option SnapshotInstallResponseData := none
  newNodeJoinData : Option Address := none
  leaveNodeData : Option Address := none
  newMasterData : Option Address := none

namespace RaftMessage

section Factories

/-- `RaftMessage::leave_node`. -/
def leaveNode (addr : Address) : RaftMessage := { type := .leaveNode, leaveNodeData := addr }

/-- `RaftMessage::request_vote`. -/
def requestVote (term lastLogIndex lastLogTerm : UInt32) : RaftMessage :=
  { type := .requestVote, term := term
    requestVoteData := some ⟨lastLogIndex, lastLogTerm⟩ }

/-- `RaftMessage::request_vote_response`. -/
def requestVoteResponse (term : UInt32) (voteGranted : Bool) : RaftMessage :=
  { type := .requestVoteResponse, term := term, requestVoteResponseData := some ⟨voteGranted⟩ }

/-- `RaftMessage::append_entries`. -/
def appendEntries (term prevLogIndex prevLogTerm leaderCommit : UInt32) : RaftMessage :=
  { type := .appendEntries, term := term
    appendEntriesData := some ⟨prevLogIndex, prevLogTerm, none, leaderCommit⟩ }

/-- `RaftMessage::append_entries_with_data`. -/
def appendEntriesWithData (term prevLogIndex prevLogTerm : UInt32) (entries : EntrySet)
    (leaderCommit : UInt32) : RaftMessage :=
  { type := .appendEntries, term := term
    appendEntriesData := some ⟨prevLogIndex, prevLogTerm, some entries, leaderCommit⟩ }

/-- `RaftMessage::append_entries_response`. -/
def appendEntriesResponse (term : UInt32) (success : Bool) (lastLogIndex : UInt32) : RaftMessage :=
  { type := .appendEntriesResponse, term := term
    appendEntriesResponseData := some ⟨success, lastLogIndex⟩ }

/-- `RaftMessage::new_node_join_broadcast`. -/
def newNodeJoinBroadcast (addr : Address) : RaftMessage :=
  { type := .newNode, newNodeJoinData := addr }

/-- `RaftMessage::new_master`. -/
def newMaster (term : UInt32) (leaderAddr : Address) : RaftMessage :=
  { type := .newMaster, term := term, newMasterData := leaderAddr }

/-- `RaftMessage::query_leader`. -/
def queryLeader : RaftMessage := { type := .queryLeader }

/-- `RaftMessage::query_leader_response`. -/
def queryLeaderResponse (addr : Address) : RaftMessage :=
  { type := .queryLeaderResponse, queryLeaderResponseData := addr }

/-- `RaftMessage::join_cluster`. -/
def joinCluster (isReconnect : Bool) (lastIndex : UInt32) (port : UInt16) : RaftMessage :=
  { type := .joinCluster, joinClusterData := some ⟨isReconnect, lastIndex, port⟩ }

/-- `RaftMessage::join_cluster_response`. -/
def joinClusterResponse (success : Bool) (error : Bytes) (metadata : ClusterMetadata)
    (syncIndex : UInt32) : RaftMessage :=
  { type := .joinClusterResponse
    joinClusterResponseData := some ⟨success, error, metadata, syncIndex⟩ }

/-- `RaftMessage::snapshot_install`. -/
def snapshotInstall (data : Bytes) (offset : UInt32) (done : Bool)
    (lastIncludeIndex lastIncludeTerm : UInt32) : RaftMessage :=
  { type := .snapshotInstall
    snapshotInstallData := some ⟨data, offset, done, lastIncludeIndex, lastIncludeTerm⟩ }

/-- `RaftMessage::snapshot_install_response`. -/
def snapshotInstallResponse (success : Bool) (offset : UInt32) : RaftMessage :=
  { type := .snapshotInstallResponse, snapshotInstallResponseData := some ⟨success, offset⟩ }

end Factories

/-- The messages that the factory functions build. -/
inductive Built : RaftMessage → Prop
  | leaveNode (addr : Address) : Built (leaveNode addr)
  | requestVote (term lastLogIndex lastLogTerm : UInt32) :
      Built (requestVote term lastLogIndex lastLogTerm)
  | requestVoteResponse (term : UInt32) (voteGranted : Bool) :
      Built (requestVoteResponse term voteGranted)
  | appendEntries (term prevLogIndex prevLogTerm leaderCommit : UInt32) :
      Built (appendEntries term prevLogIndex prevLogTerm leaderCommit)
  | appendEntriesWithData (term prevLogIndex prevLogTerm : UInt32) (entries : EntrySet)
      (leaderCommit : UInt32) :
      Built (appendEntriesWithData term prevLogIndex prevLogTerm entries leaderCommit)
  | appendEntriesResponse (term : UInt32) (success : Bool) (lastLogIndex : UInt32) :
      Built (appendEntriesResponse term success lastLogIndex)
  | newNodeJoinBroadcast (addr : Address) : Built (newNodeJoinBroadcast addr)
  | newMaster (term : UInt32) (leaderAddr : Address) : Built (newMaster term leaderAddr)
  | queryLeader : Built queryLeader
  | queryLeaderResponse (addr : Address) : Built (queryLeaderResponse addr)
  | joinCluster (isReconnect : Bool) (lastIndex : UInt32) (port : UInt16) :
      Built (joinCluster isReconnect lastIndex port)
  | joinClusterResponse (success : Bool) (error : Bytes) (metadata : ClusterMetadata)
      (syncIndex : UInt32) : Built (joinClusterResponse success error metadata syncIndex)
  | snapshotInstall (data : Bytes) (offset : UInt32) (done : Bool)
      (lastIncludeIndex lastIncludeTerm : UInt32) :
      Built (snapshotInstall data offset done lastIncludeIndex lastIncludeTerm)
  | snapshotInstallResponse (success : Bool) (offset : UInt32) :
      Built (snapshotInstallResponse success offset)

/-- The data of a type, if it is there. -/
def put {α : Type} (serialize : α → Bytes) (data : Option α) : Bytes :=
  (data.map serialize).getD []

/-- `RaftMessage::serialize`. -/
def serialize (listing : AddressListing) (m : RaftMessage) : Bytes :=
  putUInt32 m.type.number ++ (putUInt32 m.term ++
    match m.type with
    | .requestVote => put RequestVoteData.serialize m.requestVoteData
    | .requestVoteResponse => put RequestVoteResponseData.serialize m.requestVoteResponseData
    | .appendEntries => put AppendEntriesData.serialize m.appendEntriesData
    | .appendEntriesResponse => put AppendEntriesResponseData.serialize m.appendEntriesResponseData
    | .newNode => put Address.serialize m.newNodeJoinData
    | .queryLeaderResponse => put Address.serialize m.queryLeaderResponseData
    | .joinCluster => put JoinClusterData.serialize m.joinClusterData
    | .joinClusterResponse =>
        put (JoinClusterResponseData.serialize listing) m.joinClusterResponseData
    | .snapshotInstall => put SnapshotInstallData.serialize m.snapshotInstallData
    | .snapshotInstallResponse =>
        put SnapshotInstallResponseData.serialize m.snapshotInstallResponseData
    | .newMaster => put Address.serialize m.newMasterData
    | .leaveNode => put Address.serialize m.leaveNodeData
    | _ => [])

/-- The part of `RaftMessage::deserialize` behind the type and the term. -/
def deserializeData (m : RaftMessage) : Reader UInt8 RaftMessage :=
  match m.type with
  | .requestVote => do return { m with requestVoteData := ← RequestVoteData.deserialize }
  | .requestVoteResponse => do
      return { m with requestVoteResponseData := ← RequestVoteResponseData.deserialize }
  | .appendEntries => do return { m with appendEntriesData := ← AppendEntriesData.deserialize }
  | .appendEntriesResponse => do
      return { m with appendEntriesResponseData := ← AppendEntriesResponseData.deserialize }
  | .newNode => do return { m with newNodeJoinData := ← Address.deserialize }
  | .queryLeaderResponse => do return { m with queryLeaderResponseData := ← Address.deserialize }
  | .joinCluster => do return { m with joinClusterData := ← JoinClusterData.deserialize }
  | .joinClusterResponse => do
      return { m with joinClusterResponseData := ← JoinClusterResponseData.deserialize }
  | .snapshotInstall => do return { m with snapshotInstallData := ← SnapshotInstallData.deserialize }
  | .snapshotInstallResponse => do
      return { m with snapshotInstallResponseData := ← SnapshotInstallResponseData.deserialize }
  | .newMaster => do return { m with newMasterData := ← Address.deserialize }
  | .leaveNode => do return { m with leaveNodeData := ← Address.deserialize }
  | _ => return m

/-- `RaftMessage::deserialize` of a fresh message. -/
def deserialize : Reader UInt8 RaftMessage := do
  let type ← getUInt32
  let term ← getUInt32
  deserializeData { type := .ofNumber type, term := term }

/-- The message up to what its encoding does not keep: an empty set of entries is an absent one,
and a join response has its metadata or its text. -/
def normal (m : RaftMessage) : RaftMessage :=
  { m with
    appendEntriesData := m.appendEntriesData.map AppendEntriesData.normal
    joinClusterResponseData := m.joinClusterResponseData.map JoinClusterResponseData.normal }

/-- Lengths and counts of the data fit their prefixes. -/
structure Sized (m : RaftMessage) : Prop where
  appendEntries : ∀ d ∈ m.appendEntriesData, d.Sized
  queryLeaderResponse : ∀ a ∈ m.queryLeaderResponseData, a.Sized
  joinClusterResponse : ∀ d ∈ m.joinClusterResponseData, d.Sized
  snapshotInstall : ∀ d ∈ m.snapshotInstallData, Store.Sized d.snapshotData
  newNodeJoin : ∀ a ∈ m.newNodeJoinData, a.Sized
  leaveNode : ∀ a ∈ m.leaveNodeData, a.Sized
  newMaster : ∀ a ∈ m.newMasterData, a.Sized

theorem sized_normal (m : RaftMessage) : m.normal.Sized ↔ m.Sized := by
  have hentries : (∀ d ∈ m.normal.appendEntriesData, d.Sized) ↔ ∀ d ∈ m.appendEntriesData, d.Sized := by
    simp only [normal, Option.mem_def, Option.map_eq_some_iff, forall_exists_index, and_imp,
      forall_apply_eq_imp_iff₂, AppendEntriesData.sized_normal]
  have hjoin : (∀ d ∈ m.normal.joinClusterResponseData, d.Sized) ↔
      ∀ d ∈ m.joinClusterResponseData, d.Sized := by
    simp only [normal, Option.mem_def, Option.map_eq_some_iff, forall_exists_index, and_imp,
      forall_apply_eq_imp_iff₂, JoinClusterResponseData.sized_normal]
  constructor
  · rintro ⟨h₁, h₂, h₃, h₄, h₅, h₆, h₇⟩
    exact ⟨hentries.1 h₁, h₂, hjoin.1 h₃, h₄, h₅, h₆, h₇⟩
  · rintro ⟨h₁, h₂, h₃, h₄, h₅, h₆, h₇⟩
    exact ⟨hentries.2 h₁, h₂, hjoin.2 h₃, h₄, h₅, h₆, h₇⟩

theorem normal_normal (m : RaftMessage) : m.normal.normal = m.normal := by
  simp only [normal, Option.map_map, Function.comp_def, AppendEntriesData.normal_normal,
    JoinClusterResponseData.normal_normal]

/-- Type and term are read, and then the data of the type. -/
theorem run_deserialize_head {t : RaftMessageType} (ht : t ∈ RaftMessageType.named) (term : UInt32)
    (data rest : Bytes) :
    deserialize.run ((putUInt32 t.number ++ (putUInt32 term ++ data)) ++ rest) =
      (deserializeData { type := t, term := term }).run (data ++ rest) := by
  simp only [deserialize, Reader.run_bind, List.append_assoc, run_getUInt32, Option.bind_some,
    RaftMessageType.ofNumber_number ht]

theorem Built.type_named {m : RaftMessage} (h : m.Built) : m.type ∈ RaftMessageType.named := by
  cases h <;> exact of_decide_eq_true rfl

/-- A message that was built is read back, up to what its encoding does not keep. -/
theorem run_deserialize (listing : AddressListing) {m : RaftMessage} (hbuilt : m.Built)
    (h : m.Sized) (rest : Bytes) :
    deserialize.run (m.serialize listing ++ rest) = some (m.normal, rest) := by
  rw [serialize, run_deserialize_head hbuilt.type_named]
  -- The data are read by the reader of their type and put in their place.
  have hplace : ∀ {α : Type} {r : Reader UInt8 α} {f : α → RaftMessage} {input : Bytes} {a : α},
      r.run input = some (a, rest) → (r >>= fun a => pure (f a)).run input = some (f a, rest) := by
    intro α r f input a hrun
    rw [Reader.run_bind, hrun, Option.bind_some, Reader.run_pure]
  cases hbuilt with
  | requestVote term lastLogIndex lastLogTerm => exact hplace (run_requestVote _ rest)
  | requestVoteResponse term voteGranted => exact hplace (run_requestVoteResponse _ rest)
  | appendEntries term prevLogIndex prevLogTerm leaderCommit =>
      exact hplace (AppendEntriesData.run_deserialize (h.appendEntries _ rfl) rest)
  | appendEntriesWithData term prevLogIndex prevLogTerm entries leaderCommit =>
      exact hplace (AppendEntriesData.run_deserialize (h.appendEntries _ rfl) rest)
  | appendEntriesResponse term success lastLogIndex => exact hplace (run_appendEntriesResponse _ rest)
  | newNodeJoinBroadcast addr => exact hplace (decodes_address addr (h.newNodeJoin _ rfl) rest)
  | newMaster term leaderAddr => exact hplace (decodes_address leaderAddr (h.newMaster _ rfl) rest)
  | queryLeader => rfl
  | queryLeaderResponse addr => exact hplace (decodes_address addr (h.queryLeaderResponse _ rfl) rest)
  | joinCluster isReconnect lastIndex port => exact hplace (run_joinCluster _ rest)
  | joinClusterResponse success error metadata syncIndex =>
      exact hplace (JoinClusterResponseData.run_deserialize listing (h.joinClusterResponse _ rfl) rest)
  | snapshotInstall data offset done lastIncludeIndex lastIncludeTerm =>
      exact hplace (run_snapshotInstall (h.snapshotInstall _ rfl) rest)
  | snapshotInstallResponse success offset => exact hplace (run_snapshotInstallResponse _ rest)
  | leaveNode addr => exact hplace (decodes_address addr (h.leaveNode _ rfl) rest)

theorem sized_fresh (type : RaftMessageType) (term : UInt32) :
    Sized { type := type, term := term } :=
  ⟨nofun, nofun, nofun, nofun, nofun, nofun, nofun⟩

/-- **What is read has lengths and counts below 2^32.** -/
theorem yields_deserialize : Yields Sized deserialize.run := by
  refine Reader.yields_bind (yields_true _) fun type _ => ?_
  refine Reader.yields_bind (yields_true _) fun term _ => ?_
  have hfresh := sized_fresh (.ofNumber type) term
  have hsome : ∀ {α : Type} {P : α → Prop} {a : α}, P a → ∀ d ∈ some a, P d := by
    rintro α P a ha d hd
    obtain rfl := Option.some.inj hd
    exact ha
  have hplain : ∀ {α : Type} {r : Reader UInt8 α} {f : α → RaftMessage}, (∀ a, (f a).Sized) →
      Yields Sized (r >>= fun a => pure (f a)).run := fun hf =>
    Reader.yields_bind (yields_true _) fun a _ => Reader.yields_pure (hf a)
  have hdata : ∀ {α : Type} {P : α → Prop} {r : Reader UInt8 α} {f : α → RaftMessage},
      Yields P r.run → (∀ a, P a → (f a).Sized) → Yields Sized (r >>= fun a => pure (f a)).run :=
    fun hr hf => Reader.yields_bind hr fun a ha => Reader.yields_pure (hf a ha)
  rw [deserializeData]
  split
  · exact hplain fun _ => { hfresh with }
  · exact hplain fun _ => { hfresh with }
  · exact hdata AppendEntriesData.yields_deserialize fun _ hd =>
      { hfresh with appendEntries := hsome hd }
  · exact hplain fun _ => { hfresh with }
  · exact hdata yields_address fun _ ha => { hfresh with newNodeJoin := hsome ha }
  · exact hdata yields_address fun _ ha => { hfresh with queryLeaderResponse := hsome ha }
  · exact hplain fun _ => { hfresh with }
  · exact hdata JoinClusterResponseData.yields_deserialize fun _ hd =>
      { hfresh with joinClusterResponse := hsome hd }
  · exact hdata yields_snapshotInstall fun _ hd => { hfresh with snapshotInstall := hsome hd }
  · exact hplain fun _ => { hfresh with }
  · exact hdata yields_address fun _ ha => { hfresh with newMaster := hsome ha }
  · exact hdata yields_address fun _ ha => { hfresh with leaveNode := hsome ha }
  · exact Reader.yields_pure hfresh

end RaftMessage

/-- A message of the factory functions. -/
structure BuiltMessage where
  message : RaftMessage
  built : message.Built

/-- Whatever follows the encoding, the message that is read is the same up to what the encoding
does not keep. -/
def BuiltMessage.RoundTrips (listing : AddressListing) (m : BuiltMessage) : Prop :=
  ∀ rest, ∃ m', RaftMessage.deserialize.run (m.message.serialize listing ++ rest) = some (m', rest) ∧
    m'.normal = m.message.normal

/-- **A message is read back exactly when its lengths and counts are below 2^32.** -/
theorem raftMessage_roundTrips_iff (listing : AddressListing) (m : BuiltMessage) :
    m.RoundTrips listing ↔ m.message.Sized := by
  constructor
  · intro h
    obtain ⟨m', hrun, hnormal⟩ := h []
    have hsized := RaftMessage.yields_deserialize _ m' [] hrun
    rwa [← RaftMessage.sized_normal, hnormal, RaftMessage.sized_normal] at hsized
  · intro h rest
    exact ⟨m.message.normal, RaftMessage.run_deserialize listing m.built h rest,
      m.message.normal_normal⟩

/-- A snapshot chunk of 4 GiB is read as an empty one. -/
theorem not_roundTrips_longChunk :
    ¬ ∀ (listing : AddressListing) (m : BuiltMessage), m.RoundTrips listing := by
  intro h
  let chunk : BuiltMessage := ⟨_, .snapshotInstall (List.replicate (2 ^ 32) 0) 0 true 0 0⟩
  obtain ⟨listing⟩ : Nonempty AddressListing :=
    ⟨⟨Finset.toList, Finset.nodup_toList, Finset.toList_toFinset⟩⟩
  obtain ⟨m', hrun, hnormal⟩ := h listing chunk []
  have hsized := RaftMessage.yields_deserialize _ m' [] hrun
  rw [← RaftMessage.sized_normal, hnormal, RaftMessage.sized_normal] at hsized
  have hlength := hsized.snapshotInstall _ rfl
  rw [Store.Sized, List.length_replicate] at hlength
  exact Nat.lt_irrefl _ hlength

end Messages

end EyaKV.Raft.Protocol
