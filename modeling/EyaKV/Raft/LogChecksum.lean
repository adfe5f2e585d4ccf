import EyaKV.Base.ShiftRegister
import EyaKV.Raft.LogRecovery

/-!
# What the checksums of the log find

`crcUpdate` takes a byte at a time from a table; it is the shift register of the polynomial
that takes the byte's bits one by one, the lowest first (`crcUpdate_eq_feedAll`). A record of
the WAL whose checksum or whose data is changed by a burst of at most 32 bits is therefore not
read back as anything (`readEntryFromWal_damaged`).

One such record is enough for `load_entries` to give up, and `recover` comes up with an empty
log then. It leaves the index file as it is: the offset of the damaged record stays in it in
front of the offsets of all entries that are appended afterwards, until a truncation or a
reset rewrites both files.
-/

set_option autoImplicit false

namespace EyaKV.Raft.Disk

open EyaKV.Base EyaKV.Base.Framing EyaKV.Base.ShiftRegister EyaKV.Store

section Crc

/-- The polynomial of `generateTable`. -/
def crcPolynomial : BitVec 32 := 0xEDB88320

/-- The bits of a byte, the lowest first. -/
def byteBits (b : UInt8) : List Bool := (List.range 8).map b.toBitVec.getLsbD

/-- The bits of a text of bytes. -/
def bits (data : Bytes) : List Bool := data.flatMap byteBits

theorem msb_crcPolynomial : crcPolynomial.msb = true := by decide

/-- The test of the loop is the bit that falls out. -/
theorem and_one_eq_one_iff (c : UInt32) : c &&& 1 = 1 ↔ c.toBitVec.getLsbD 0 = true := by
  rw [← UInt32.toNat_inj, UInt32.toNat_and]
  show c.toNat &&& 1 = 1 ↔ c.toNat.testBit 0 = true
  rw [Nat.and_one_is_mod, Nat.testBit_zero, decide_eq_true_iff]

/-- The inner loop of `generateTable`, for any number of rounds. -/
theorem toBitVec_rounds {α : Type} (rounds : List α) (c : UInt32) :
    (rounds.foldl (fun (c : UInt32) _ => if c &&& 1 = 1 then (0xEDB88320 : UInt32) ^^^ (c >>> 1) else c >>> 1)
      c).toBitVec = clocks crcPolynomial rounds.length c.toBitVec := by
  induction rounds generalizing c with
  | nil => rfl
  | cons a rounds ih =>
      rw [List.foldl_cons, ih, List.length_cons, clocks]
      congr 1
      by_cases hbit : c &&& 1 = 1
      · rw [if_pos hbit, clock, if_pos ((and_one_eq_one_iff c).1 hbit)]
        rfl
      · rw [if_neg hbit, clock, if_neg fun h => hbit ((and_one_eq_one_iff c).2 h)]
        rfl

theorem toBitVec_crcTable (i : UInt32) :
    (crcTable i).toBitVec = clocks crcPolynomial 8 i.toBitVec :=
  toBitVec_rounds (List.range 8) i

theorem length_byteBits (b : UInt8) : (byteBits b).length = 8 := by
  rw [byteBits, List.length_map, List.length_range]

theorem word_byteBits (b : UInt8) : (word (byteBits b) : BitVec 32) = b.toUInt32.toBitVec := by
  apply BitVec.eq_of_getLsbD_eq
  intro i hi
  rw [getLsbD_word _ i hi, byteBits, UInt8.toBitVec_toUInt32, BitVec.getLsbD_setWidth]
  by_cases h8 : i < 8
  · simp [h8, hi]
  · simp [h8, Nat.le_of_not_lt h8]

theorem getLsbD_lowMask (i : Nat) (hi : i < 32) :
    (0xFF : UInt32).toBitVec.getLsbD i = decide (i < 8) := by
  show (BitVec.ofNat 32 (2 ^ 8 - 1)).getLsbD i = _
  rw [BitVec.getLsbD_ofNat, Nat.testBit_two_pow_sub_one]
  simp [hi]

/-- One round of `update` takes the byte's bits. -/
theorem toBitVec_crcByte (crc : UInt32) (b : UInt8) :
    ((crc >>> 8) ^^^ crcTable ((crc ^^^ b.toUInt32) &&& 0xFF)).toBitVec =
      feedAll crcPolynomial crc.toBitVec (byteBits b) := by
  have hlow : (crc ^^^ b.toUInt32).toBitVec >>> 8 = crc.toBitVec >>> 8 := by
    apply BitVec.eq_of_getLsbD_eq
    intro i hi
    simp [BitVec.getLsbD_ushiftRight]
  have hsplit := clocks_split crcPolynomial getLsbD_lowMask (crc ^^^ b.toUInt32).toBitVec
  have hfeed : feedAll crcPolynomial crc.toBitVec (byteBits b) =
      clocks crcPolynomial 8 (crc ^^^ b.toUInt32).toBitVec := by
    rw [feedAll_eq_clocks _ _ (by rw [length_byteBits]; decide), length_byteBits, word_byteBits]
    rfl
  rw [hfeed, hsplit, hlow, UInt32.toBitVec_xor, toBitVec_crcTable]
  rfl

/-- **The table and the register**: `update` is the shift register fed with the bits. -/
theorem crcUpdate_eq_feedAll (crc : UInt32) (data : Bytes) :
    (crcUpdate crc data).toBitVec = feedAll crcPolynomial crc.toBitVec (bits data) := by
  induction data generalizing crc with
  | nil => rfl
  | cons b data ih =>
      rw [bits, List.flatMap_cons, feedAll_append, ← toBitVec_crcByte]
      exact ih _

/-- A burst of at most 32 bits changes the checksum. -/
theorem computeChecksum_ne {data data' : Bytes} (h : Burst 32 (bits data) (bits data')) :
    computeChecksum data ≠ computeChecksum data' := by
  intro hsame
  apply feedAll_ne_of_burst msb_crcPolynomial h (0xFFFFFFFF : UInt32).toBitVec
  rw [← crcUpdate_eq_feedAll, ← crcUpdate_eq_feedAll]
  exact congrArg UInt32.toBitVec (UInt32.not_inj.1 hsame)

end Crc

section Damage

/-- Damage to a record of the WAL: a burst of at most 32 bits in its checksum or in its data.
The length that stands between them is spared. -/
def Damaged (record record' : Bytes) : Prop :=
  record'.length = record.length ∧ Burst 32 (bits record) (bits record') ∧
    (record'.drop 4 = record.drop 4 ∨ record'.take 8 = record.take 8)

theorem bits_append (data data' : Bytes) : bits (data ++ data') = bits data ++ bits data' :=
  List.flatMap_append

theorem exists_eq_le32 {field : Bytes} (h : field.length = 4) :
    ∃ n, n < 2 ^ 32 ∧ field = le32 n := by
  obtain ⟨a, b, c, d, rfl⟩ := List.length_eq_four.1 h
  have ha := a.toNat_lt
  have hb := b.toNat_lt
  have hc := c.toNat_lt
  have hd := d.toNat_lt
  refine ⟨a.toNat + 2 ^ 8 * b.toNat + 2 ^ 16 * c.toNat + 2 ^ 24 * d.toNat, by omega, ?_⟩
  simp only [le32, List.cons.injEq, and_true, ← UInt8.toNat_inj, UInt8.toNat_ofNat']
  omega

/-- What a damaged record is made of: another checksum, or data with another checksum. -/
theorem Damaged.cases {e : LogEntry} (he : e.Fits) {record' : Bytes}
    (h : Damaged (walRecord e) record') :
    ∃ checksum data, checksum < 2 ^ 32 ∧ data.length = e.serialize.length ∧
      record' = le32 checksum ++ (le32 e.serialize.length ++ data) ∧
      checksum ≠ (computeChecksum data).toNat := by
  obtain ⟨hlength, hburst, hspared⟩ := h
  have hrecord : walRecord e = le32 (computeChecksum e.serialize).toNat ++
      (le32 e.serialize.length ++ e.serialize) := by
    rw [walRecord, Nat.mod_eq_of_lt he, List.take_length]
  rw [hrecord] at hlength hburst hspared
  rcases hspared with hdrop | htake
  · -- the checksum is another one
    have hfield : (record'.take 4).length = 4 := by
      rw [List.length_take, hlength, List.length_append, length_le32]
      omega
    obtain ⟨checksum, hlt, hchecksum⟩ := exists_eq_le32 hfield
    have hsplit : record' = le32 checksum ++ (le32 e.serialize.length ++ e.serialize) := by
      have hrest : record'.drop 4 = le32 e.serialize.length ++ e.serialize := hdrop
      rw [← List.take_append_drop 4 record', hchecksum, hrest]
    refine ⟨checksum, e.serialize, hlt, rfl, hsplit, ?_⟩
    rintro rfl
    exact hburst.ne (congrArg bits hsplit.symm)
  · -- the data is changed by the burst
    have hsplit : record' = le32 (computeChecksum e.serialize).toNat ++
        (le32 e.serialize.length ++ record'.drop 8) := by
      have hfirst : record'.take 8 =
          le32 (computeChecksum e.serialize).toNat ++ le32 e.serialize.length := htake
      conv => lhs; rw [← List.take_append_drop 8 record', hfirst]
      rw [List.append_assoc]
    have hdata : (record'.drop 8).length = e.serialize.length := by
      rw [List.length_drop, hlength, List.length_append, List.length_append, length_le32,
        length_le32]
      omega
    refine ⟨_, record'.drop 8, UInt32.toNat_lt _, hdata, hsplit, ?_⟩
    intro hsame
    rw [hsplit] at hburst
    simp only [bits_append] at hburst
    exact computeChecksum_ne hburst.of_append.of_append (UInt32.toNat_inj.1 hsame)

/-- **A damaged record is refused**, whatever follows it in the file. -/
theorem readEntryFromWal_damaged {content : Bytes} {offset : Nat} {e : LogEntry} (he : e.Fits)
    {record' : Bytes} (h : Damaged (walRecord e) record')
    (hstands : StandsAt content offset record') : readEntryFromWal content offset = none := by
  obtain ⟨checksum, data, hlt, hlength, rfl, hne⟩ := h.cases he
  obtain ⟨rest, hrest⟩ := hstands
  rw [← hlength, List.append_assoc, List.append_assoc] at hrest
  have hdata : data.length < 2 ^ 32 := hlength ▸ he
  simp only [readEntryFromWal, ← hrest, decodes_le32 _ hlt, decodes_le32 _ hdata, readBytes_append,
    Option.bind_eq_bind, Option.bind_some, if_neg hne]

theorem byteBits_injective {a b : UInt8} (h : byteBits a = byteBits b) : a = b := by
  have hword : a.toUInt32.toBitVec = b.toUInt32.toBitVec := by
    rw [← word_byteBits, ← word_byteBits, h]
  have hnat := congrArg BitVec.toNat hword
  exact UInt8.toNat_inj.1 (by simpa using hnat)

/-- A changed byte of the data is such damage. -/
theorem damaged_byte {front after : Bytes} (hfront : 8 ≤ front.length) {a b : UInt8} (hne : a ≠ b) :
    Damaged (front ++ a :: after) (front ++ b :: after) := by
  refine ⟨by simp, ⟨bits front, byteBits a, byteBits b, bits after, ?_, ?_, ?_, ?_, ?_⟩, Or.inr ?_⟩
  · exact bits_append front (a :: after)
  · exact bits_append front (b :: after)
  · rw [length_byteBits, length_byteBits]
  · rw [length_byteBits]
    decide
  · exact fun hsame => hne (byteBits_injective hsame)
  · rw [List.take_append_of_le_length hfront, List.take_append_of_le_length hfront]

end Damage

namespace RaftLogArray

variable {cfg : Config} {log : RaftLogArray}

section Refusing

/-- A record at this offset cannot be read, and neither when the file has grown. -/
def Refused (content : Bytes) (offset : Nat) : Prop :=
  ∀ more, readEntryFromWal (content ++ more) offset = none

/-- The files name a record that is refused. -/
structure Unreadable (log : RaftLogArray) : Prop where
  appends : log.wal.Appends
  refused : ∃ offset ∈ log.indexFile, Refused log.wal.content offset

theorem Refused.grow {content : Bytes} {offset : Nat} (h : Refused content offset) (more : Bytes) :
    Refused (content ++ more) offset := by
  intro further
  rw [List.append_assoc]
  exact h (more ++ further)

theorem Refused.read {content : Bytes} {offset : Nat} (h : Refused content offset) :
    readEntryFromWal content offset = none := by
  have hread := h []
  rwa [List.append_nil] at hread

/-- One record that cannot be read, and nothing is loaded. -/
theorem loadEntries_eq_none {wal : File} {offsets : List Nat} {offset : Nat}
    (hmem : offset ∈ offsets) (h : readEntryFromWal wal.content offset = none) :
    loadEntries wal offsets = none := by
  rw [loadEntries]
  induction offsets with
  | nil => cases hmem
  | cons o offsets ih =>
      rw [List.mapM_cons]
      rcases List.mem_cons.1 hmem with rfl | hmem
      · rw [h]
        rfl
      · rw [ih hmem]
        cases readEntryFromWal wal.content o with
        | none => rfl
        | some e => rfl

/-- `recover` comes up empty and keeps the files. -/
theorem Unreadable.reopen_eq (h : Unreadable log) (cfg : Config) :
    log.reopen cfg =
      { baseIndex := 1
        entries := []
        indexOffsets := []
        wal := .openAppend log.wal.content
        indexFile := log.indexFile } := by
  obtain ⟨offset, hmem, hrefused⟩ := h.refused
  let opened : RaftLogArray := { wal := .openAppend log.wal.content, indexFile := log.indexFile }
  have hload : loadEntries opened.held.wal opened.held.indexFile = none :=
    loadEntries_eq_none hmem hrefused.read
  show (recover cfg opened).state = _
  rw [recover, withLock_free (Or.inl rfl)]
  simp only
  rw [hload]
  rfl

theorem Unreadable.reopen (h : Unreadable log) (cfg : Config) : Unreadable (log.reopen cfg) := by
  rw [h.reopen_eq cfg]
  exact ⟨Or.inl rfl, h.refused⟩

/-- Entries that are appended go behind the record, and their offsets behind its offset. -/
theorem Unreadable.grow (h : Unreadable log) {log' : RaftLogArray} {more : Bytes}
    {offsets : List Nat} (hwal : log'.wal = log.wal.fwrite more)
    (hindex : log'.indexFile = log.indexFile ++ offsets) : Unreadable log' := by
  obtain ⟨hcontent, hend⟩ := h.appends.fwrite more
  obtain ⟨offset, hmem, hrefused⟩ := h.refused
  refine ⟨Or.inr (by rw [hwal]; exact hend), offset, ?_, ?_⟩
  · rw [hindex]
    exact List.mem_append_left _ hmem
  · rw [hwal, hcontent]
    exact hrefused.grow more

/-- The event rewrites neither file: an append leaves the log at or under its threshold, a
truncation is outside of it, and there is no reset. -/
def Spares (cfg : Config) (log : RaftLogArray) : Event → Prop
  | .call (.append _) | .call (.appendConst _) => ¬OverThreshold cfg (log.entries.length + 1)
  | .call (.batchAppend entries) | .call (.batchAppendConst entries) =>
      ¬OverThreshold cfg (log.entries.length + entries.length)
  | .call (.truncateFrom index) => ¬log.Covers index
  | .call (.truncateBefore index) => ¬log.Covers index
  | .call (.createSnapshot snapshotIndex) => ¬log.Holds snapshotIndex
  | .call (.reset _) => False
  | .reopen => True

/-- Every event of a run spares the files. -/
def SparesAll (cfg : Config) : List Event → RaftLogArray → Prop
  | [], _ => True
  | ev :: evs, log => log.Spares cfg ev ∧ ∀ log', step cfg log ev = some log' → SparesAll cfg evs log'

theorem Spares.not_relocks {op : Op} (h : log.Spares cfg (.call op)) : ¬Relocks cfg log op := by
  cases op with
  | append entry => exact h
  | appendConst entry => exact h
  | batchAppend entries => exact fun hr => h hr.2
  | batchAppendConst entries => exact fun hr => h hr.2
  | truncateFrom index => exact h
  | truncateBefore index => exact fun hr => h hr.1
  | createSnapshot snapshotIndex => exact h
  | reset newStartIndex => exact h.elim

theorem Unreadable.effect (h : Unreadable log) {op : Op} (hop : log.Spares cfg (.call op)) :
    Unreadable (log.effect cfg op) := by
  cases op with
  | append entry =>
      have hshed : log.effect cfg (.append entry) = log.halfway (.append entry) :=
        if_neg (by rw [halfway, appendEntry_length]; exact hop)
      rw [hshed]
      exact h.grow rfl rfl
  | appendConst entry =>
      have hshed : log.effect cfg (.appendConst entry) = log.halfway (.appendConst entry) :=
        if_neg (by rw [halfway, appendEntry_length]; exact hop)
      rw [hshed]
      exact h.grow rfl rfl
  | batchAppend entries =>
      cases entries with
      | nil => exact h
      | cons e es =>
          have hshed : log.effect cfg (.batchAppend (e :: es)) = log.halfway (.batchAppend (e :: es)) :=
            if_neg (by rw [halfway, appendEntries_length, numbered_length]; exact hop)
          rw [hshed]
          exact h.grow rfl rfl
  | batchAppendConst entries =>
      cases entries with
      | nil => exact h
      | cons e es =>
          have hshed : log.effect cfg (.batchAppendConst (e :: es)) =
              log.halfway (.batchAppendConst (e :: es)) :=
            if_neg (by rw [halfway, appendEntries_length]; exact hop)
          rw [hshed]
          exact h.grow rfl rfl
  | truncateFrom index =>
      have hcut : log.effect cfg (.truncateFrom index) = log := if_neg fun hc => hop hc.1
      rwa [hcut]
  | truncateBefore index =>
      have hcut : log.effect cfg (.truncateBefore index) = log := if_neg fun hc => hop hc.1
      rwa [hcut]
  | createSnapshot snapshotIndex =>
      have hcut : log.effect cfg (.createSnapshot snapshotIndex) = log := if_neg hop
      rwa [hcut]
  | reset newStartIndex => exact hop.elim

/-- **One event after the damage.** -/
theorem Unreadable.step (h : Unreadable log) {ev : Event} (hev : log.Spares cfg ev)
    {log' : RaftLogArray} (hstep : RaftLogArray.step cfg log ev = some log') : Unreadable log' := by
  cases ev with
  | reopen =>
      cases hstep
      exact h.reopen cfg
  | call op =>
      rw [RaftLogArray.step] at hstep
      cases hlocked : log.locked with
      | true =>
          rw [hlocked, if_pos rfl] at hstep
          cases hstep
      | false =>
          rw [hlocked, if_neg Bool.false_ne_true] at hstep
          obtain ⟨b, hcall⟩ := call_free (Or.inl hlocked) op
          rw [hcall, if_neg fun hr => hev.not_relocks hr.1] at hstep
          cases hstep
          exact h.effect hev

/-- **A run of events after the damage.** -/
theorem Unreadable.events (h : Unreadable log) {evs : List Event} (hevs : SparesAll cfg evs log)
    {log' : RaftLogArray} (hrun : RaftLogArray.events cfg evs log = some log') :
    Unreadable log' := by
  induction evs generalizing log with
  | nil =>
      cases hrun
      exact h
  | cons ev evs ih =>
      rw [RaftLogArray.events, Option.bind_eq_some_iff] at hrun
      obtain ⟨next, hnext, hrun⟩ := hrun
      exact ih (h.step hevs.1 hnext) (hevs.2 next hnext) hrun

end Refusing

section Loss

/-- The WAL with other bytes from an offset on, while no stream is open over it. -/
def overwrite (log : RaftLogArray) (offset : Nat) (bytes : Bytes) : RaftLogArray :=
  let content :=
    log.wal.content.take offset ++ (bytes ++ log.wal.content.drop (offset + bytes.length))
  { log with wal := .openAppend content }

/-- The files of a stored log with one damaged record name a record that is refused. -/
theorem Stored.overwrite (h : Stored log) {i offset : Nat} {e : LogEntry}
    (hoffset : log.indexFile[i]? = some offset) (hentry : log.entries[i]? = some e)
    {record' : Bytes} (hdamage : Damaged (walRecord e) record') :
    Unreadable (log.overwrite offset record') := by
  have hfits : e.Fits := h.fits e (List.mem_of_getElem? hentry)
  have hstands : StandsAt log.wal.content offset (walRecord e) := by
    rw [h.index] at hoffset
    obtain ⟨hi, rfl⟩ := List.getElem?_eq_some_iff.1 hoffset
    obtain ⟨hi', rfl⟩ := List.getElem?_eq_some_iff.1 hentry
    exact List.Forall₂.get h.stands hi hi'
  have hle : offset ≤ log.wal.content.length := by
    obtain ⟨rest, hrest⟩ := hstands
    have hlength := congrArg List.length hrest
    rw [List.length_append, List.length_drop, walRecord_length hfits] at hlength
    omega
  refine ⟨Or.inl rfl, offset, List.mem_of_getElem? hoffset, fun more => ?_⟩
  apply readEntryFromWal_damaged hfits hdamage
  apply StandsAt.grow
  have hfront := standsAt_end (log.wal.content.take offset) record'
    (log.wal.content.drop (offset + record'.length))
  rwa [List.length_take, Nat.min_eq_left hle] at hfront

/-- **One damaged record empties the log for good.** In a run whose appends are made at the end
of the file, let a burst of at most 32 bits strike the checksum or the data of the record of
any entry while the array is closed. Then the array never gives back an entry that was not
appended: it comes up empty, with the base 1. What is appended to it afterwards is lost again
at every later reopening, as long as no truncation and no reset rewrites the files. -/
theorem damaged_run {evs : List Event} (hevs : KeepsAll cfg evs {})
    (hrun : RaftLogArray.events cfg evs {} = some log) {i offset : Nat} {e : LogEntry}
    (hoffset : log.indexFile[i]? = some offset) (hentry : log.entries[i]? = some e)
    {record' : Bytes} (hdamage : Damaged (walRecord e) record') :
    ((log.overwrite offset record').reopen cfg).entries = [] ∧
      ((log.overwrite offset record').reopen cfg).baseIndex = 1 ∧
      ∀ (later : List Event) (log' : RaftLogArray),
        SparesAll cfg later ((log.overwrite offset record').reopen cfg) →
        RaftLogArray.events cfg later ((log.overwrite offset record').reopen cfg) = some log' →
        (log'.reopen cfg).entries = [] ∧ (log'.reopen cfg).baseIndex = 1 := by
  have hlost : Unreadable (log.overwrite offset record') :=
    (Stored.new.events hevs hrun).overwrite hoffset hentry hdamage
  refine ⟨by rw [hlost.reopen_eq cfg], by rw [hlost.reopen_eq cfg], ?_⟩
  intro later log' hspares hlater
  have hlost' : Unreadable log' := (hlost.reopen cfg).events hspares hlater
  exact ⟨by rw [hlost'.reopen_eq cfg], by rw [hlost'.reopen_eq cfg]⟩

/-- One entry, and the last byte of its record is changed. -/
theorem damaged_run_byte :
    (((((call ⟨⟨100, fun n => n / 2, false⟩, true⟩ (.append ⟨3, 0, 0, [1], 0, []⟩) {}).state).overwrite 0
        ((walRecord ⟨3, 1, 0, [1], 0, []⟩).take 36 ++ [7])).reopen
          ⟨⟨100, fun n => n / 2, false⟩, true⟩).entries) = [] := by
  have hwrites : Writes {} [⟨3, 0, 0, [1], 0, []⟩] :=
    fun _ => ⟨rfl, List.forall_mem_singleton.2 (show _ < 2 ^ 32 by decide)⟩
  have hevs : KeepsAll ⟨⟨100, fun n => n / 2, false⟩, true⟩
      [.call (.append ⟨3, 0, 0, [1], 0, []⟩)] {} := ⟨hwrites, fun _ _ => trivial⟩
  have hrecord : walRecord ⟨3, 1, 0, [1], 0, []⟩ =
      (walRecord ⟨3, 1, 0, [1], 0, []⟩).take 36 ++ [0] := by decide +kernel
  have hdamage : Damaged (walRecord ⟨3, 1, 0, [1], 0, []⟩)
      ((walRecord ⟨3, 1, 0, [1], 0, []⟩).take 36 ++ [7]) := by
    have hfront : 8 ≤ ((walRecord ⟨3, 1, 0, [1], 0, []⟩).take 36).length := by decide +kernel
    conv => arg 1; rw [hrecord]
    exact damaged_byte hfront (by decide)
  exact (damaged_run hevs rfl (i := 0) rfl rfl hdamage).1

end Loss

end RaftLogArray

end EyaKV.Raft.Disk
