import EyaKV.Raft.LogMutex

/-!
# Reopening the log array

The array is closed, or its process ends, between any two calls or in a call that waits for
the mutex, and it is opened again. `Stored` says that the files hold what is in memory:
each entry stands at its offset. Every mutator keeps it, if what is appended is written
where the stream's position is (`Stored.step`); a stream that was opened in append mode
over a file with content writes elsewhere, until the first write has moved it.

`recover` then gives the entries back. The base is not in the files: it comes from the
first entry, and without one it is 1 (`Stored.reopen_base`).
-/

set_option autoImplicit false

namespace EyaKV.Raft.Disk

open EyaKV.Base EyaKV.Base.Framing EyaKV.Store

section Records

theorem LogEntry.length_serialize (e : LogEntry) :
    e.serialize.length = 28 + e.cmd.length + e.requestId.length := by
  simp only [LogEntry.serialize, serializeString, be32, List.length_append, List.length_reverse,
    length_le32]
  omega

theorem LogEntry.Fits.index {e : LogEntry} (h : e.Fits) (index : UInt32) :
    LogEntry.Fits { e with index := index } := by
  rw [LogEntry.Fits, LogEntry.length_serialize] at *
  exact h

theorem decodes_entry : Decodes LogEntry.Fits LogEntry.serialize LogEntry.deserialize := by
  intro e he rest
  rw [LogEntry.Fits, LogEntry.length_serialize] at he
  have hcmd : Sized e.cmd := show e.cmd.length < 2 ^ 32 by omega
  have hrequest : Sized e.requestId := show e.requestId.length < 2 ^ 32 by omega
  have htime := e.timestamp.toNat_lt
  have hhigh : e.timestamp.toNat / 2 ^ 32 < 2 ^ 32 := by omega
  have hlow : e.timestamp.toNat % 2 ^ 32 < 2 ^ 32 := Nat.mod_lt _ (by decide)
  simp only [LogEntry.deserialize, LogEntry.serialize, List.append_assoc,
    decodes_be32 _ e.term.toNat_lt, decodes_be32 _ e.index.toNat_lt,
    decodes_be32 _ e.commandType.toNat_lt, decodes_be32 _ hhigh, decodes_be32 _ hlow,
    decodes_string _ hcmd, decodes_string _ hrequest, Option.bind_eq_bind, Option.bind_some,
    Option.pure_def, Nat.div_add_mod, UInt32.ofNat_toNat, UInt64.ofNat_toNat]

/-- An entry is read back where its record stands. -/
theorem readEntryFromWal_eq {content : Bytes} {offset : Nat} {e : LogEntry} (he : e.Fits)
    (h : StandsAt content offset (walRecord e)) : readEntryFromWal content offset = some e := by
  obtain ⟨rest, hrest⟩ := h
  have hlen : e.serialize.length % 2 ^ 32 = e.serialize.length := Nat.mod_eq_of_lt he
  have hdata := decodes_entry e he []
  rw [List.append_nil] at hdata
  rw [walRecord, hlen, List.take_length, List.append_assoc, List.append_assoc] at hrest
  simp only [readEntryFromWal, ← hrest, decodes_le32 _ (computeChecksum e.serialize).toNat_lt,
    decodes_le32 _ he, readBytes_append, hdata, Option.bind_eq_bind, Option.bind_some,
    Option.pure_def, if_true]

theorem loadEntries_eq {wal : File} {offsets : List Nat} {entries : List LogEntry}
    (hfits : ∀ e ∈ entries, e.Fits)
    (h : List.Forall₂ (fun offset e => StandsAt wal.content offset (walRecord e)) offsets entries) :
    RaftLogArray.loadEntries wal offsets = some entries := by
  rw [RaftLogArray.loadEntries]
  induction h with
  | nil => rfl
  | cons hstands htail ih =>
      rw [List.mapM_cons, readEntryFromWal_eq (hfits _ List.mem_cons_self) hstands,
        ih fun e he => hfits e (List.mem_cons_of_mem _ he)]
      rfl

/-- The stream writes at the end of the file, and its position is there. -/
def File.AtEnd (f : File) : Prop := f.pos = f.content.length

instance (f : File) : Decidable f.AtEnd := inferInstanceAs (Decidable (_ = _))

/-- A stream writes at the end of its file. -/
def File.Appends (f : File) : Prop := f.append = true ∨ f.AtEnd

theorem File.Appends.fwrite {f : File} (h : f.Appends) (bytes : Bytes) :
    (f.fwrite bytes).content = f.content ++ bytes ∧ (f.fwrite bytes).AtEnd := by
  rcases f with ⟨content, pos, append⟩
  cases append with
  | true => exact ⟨rfl, rfl⟩
  | false =>
      rcases h with h | h
      · cases h
      · obtain rfl : pos = content.length := h
        simp only [File.fwrite, File.AtEnd, Bool.false_eq_true, if_false, List.take_length,
          List.drop_eq_nil_of_le (Nat.le_add_right _ _), List.append_nil, List.length_append,
          and_self]

theorem walRecord_length {e : LogEntry} (he : e.Fits) :
    (walRecord e).length = 8 + e.serialize.length % 2 ^ 32 := by
  rw [walRecord, Nat.mod_eq_of_lt he, List.take_length, List.length_append, List.length_append,
    length_le32, length_le32]
  omega

/-- A batch writes the records of its entries, at the offsets it records. -/
theorem batch_eq {entries : List LogEntry} (hfits : ∀ e ∈ entries, e.Fits) (current : Nat) :
    batchBuffer entries = entries.flatMap walRecord ∧
      batchOffsets current entries = offsets walRecord current entries := by
  induction entries generalizing current with
  | nil => exact ⟨rfl, rfl⟩
  | cons e es ih =>
      have he := hfits e List.mem_cons_self
      obtain ⟨hbuffer, hoffsets⟩ := ih (fun e he => hfits e (List.mem_cons_of_mem _ he))
        (current + 8 + e.serialize.length % 2 ^ 32)
      constructor
      · have hrecord : walRecord e = le32 (computeChecksum e.serialize).toNat ++
            (le32 e.serialize.length ++ e.serialize) := by
          rw [walRecord, Nat.mod_eq_of_lt he, List.take_length]
        rw [List.flatMap_cons, ← hbuffer, hrecord]
        rfl
      · rw [batchOffsets, offsets, hoffsets, walRecord_length he, Nat.add_assoc]

end Records

namespace RaftLogArray

variable {cfg : Config} {log : RaftLogArray}

section Stored

/-- The files hold what is in memory. -/
structure Stored (log : RaftLogArray) : Prop where
  index : log.indexFile = log.indexOffsets
  stands : List.Forall₂ (fun offset e => StandsAt log.wal.content offset (walRecord e))
    log.indexOffsets log.entries
  fits : ∀ e ∈ log.entries, e.Fits
  appends : log.wal.Appends

theorem Stored.new : Stored {} where
  index := rfl
  stands := .nil
  fits := fun _ he => absurd he List.not_mem_nil
  appends := Or.inl rfl

theorem Stored.held (h : Stored log) : Stored log.held := ⟨h.index, h.stands, h.fits, h.appends⟩

/-- The entries in memory are the entries whose records are in the file, behind each
other: what the rewriting loop has after some rounds. -/
theorem rewrite_stands {done entries : List LogEntry} (hfits : ∀ e ∈ entries, e.Fits)
    (files : File × List Nat) (hend : files.1.AtEnd)
    (h : List.Forall₂ (fun offset e => StandsAt files.1.content offset (walRecord e)) files.2 done) :
    (entries.foldl rewriteEntry files).1.AtEnd ∧
      List.Forall₂ (fun offset e =>
        StandsAt (entries.foldl rewriteEntry files).1.content offset (walRecord e))
        (entries.foldl rewriteEntry files).2 (done ++ entries) := by
  induction entries generalizing done files with
  | nil =>
      rw [List.append_nil]
      exact ⟨hend, h⟩
  | cons e es ih =>
      obtain ⟨hcontent, hend'⟩ := File.Appends.fwrite (Or.inr hend) (walRecord e)
      rw [List.foldl_cons, ← List.singleton_append, ← List.append_assoc]
      apply ih (fun e he => hfits e (List.mem_cons_of_mem _ he)) (rewriteEntry files e) hend'
      show List.Forall₂ (fun offset e =>
        StandsAt (files.1.fwrite (walRecord _)).content offset (walRecord e))
          (files.2 ++ [files.1.pos]) (done ++ [e])
      rw [hcontent]
      apply List.rel_append
      · exact h.imp fun offset e hstands => hstands.grow _
      · rw [show files.1.pos = files.1.content.length from hend]
        refine .cons ?_ .nil
        have hlast := standsAt_end files.1.content (walRecord e) []
        rwa [List.append_nil] at hlast

/-- New files hold what is in memory, whatever the old ones held. -/
theorem stored_truncateWalAndIndex (hfits : ∀ e ∈ log.entries, e.Fits) :
    Stored log.truncateWalAndIndex := by
  obtain ⟨hend, hstands⟩ := rewrite_stands hfits (File.create, []) rfl .nil
  exact ⟨rfl, hstands, hfits, Or.inr hend⟩

theorem Stored.cutFrom (h : Stored log) (index : UInt32) : Stored (log.cutFrom index) := by
  rw [RaftLogArray.cutFrom]
  split
  · apply stored_truncateWalAndIndex
    intro e he
    exact h.fits e (List.mem_of_mem_take he)
  · exact h

theorem Stored.dropBelow (h : Stored log) (index : UInt32) : Stored (log.dropBelow index) := by
  apply stored_truncateWalAndIndex
  intro e he
  exact h.fits e (List.mem_of_mem_drop he)

theorem Stored.cutBefore (h : Stored log) (index : UInt32) : Stored (log.cutBefore index) := by
  rw [RaftLogArray.cutBefore]
  split
  · exact h.dropBelow index
  · exact h

theorem Stored.shed (h : Stored log) (cfg : Config) : Stored (shed cfg log) := by
  rw [RaftLogArray.shed]
  split
  · exact h.cutBefore _
  · exact h

theorem fits_append {entries more : List LogEntry} (h : ∀ e ∈ entries, e.Fits)
    (hmore : ∀ e ∈ more, e.Fits) : ∀ e ∈ entries ++ more, e.Fits := by
  intro e he
  rcases List.mem_append.1 he with he | he
  · exact h e he
  · exact hmore e he

/-- The array with entries added and their records written behind the others. -/
theorem Stored.grow (h : Stored log) {log' : RaftLogArray} (more : List LogEntry)
    (hfits : ∀ e ∈ more, e.Fits) (hwal : log'.wal = log.wal.fwrite (more.flatMap walRecord))
    (hentries : log'.entries = log.entries ++ more)
    (hoffsets : log'.indexOffsets =
      log.indexOffsets ++ offsets walRecord log.wal.content.length more)
    (hindex : log'.indexFile = log.indexFile ++ offsets walRecord log.wal.content.length more) :
    Stored log' := by
  obtain ⟨hcontent, hend⟩ := h.appends.fwrite (more.flatMap walRecord)
  refine ⟨by rw [hindex, hoffsets, h.index], ?_, ?_, Or.inr (by rw [hwal]; exact hend)⟩
  · rw [hoffsets, hentries, hwal, hcontent]
    apply List.rel_append
    · exact h.stands.imp fun offset e hstands => hstands.grow _
    · exact standAt_offsets walRecord log.wal.content more
  · rw [hentries]
    exact fits_append h.fits hfits

theorem Stored.appendEntry (h : Stored log) (hend : log.wal.AtEnd) {entry : LogEntry}
    (hfits : entry.Fits) : Stored (log.appendEntry entry) := by
  have hpos : log.wal.ftell = log.wal.content.length := hend
  apply h.grow [entry] (List.forall_mem_singleton.2 hfits)
  · rw [List.flatMap_cons, List.flatMap_nil, List.append_nil]
    rfl
  · rfl
  · exact congrArg (fun offset => log.indexOffsets ++ [offset]) hpos
  · exact congrArg (fun offset => log.indexFile ++ [offset]) hpos

theorem Stored.appendEntries (h : Stored log) (hend : log.wal.AtEnd) {entries : List LogEntry}
    (hfits : ∀ e ∈ entries, e.Fits) : Stored (log.appendEntries entries) := by
  obtain ⟨hbuffer, hoffsets⟩ := batch_eq hfits log.wal.ftell
  rw [show log.wal.ftell = log.wal.content.length from hend] at hoffsets
  have hbatch : batchOffsets log.wal.ftell entries =
      offsets walRecord log.wal.content.length entries := by
    rw [show log.wal.ftell = log.wal.content.length from hend, hoffsets]
  apply h.grow entries hfits
  · rw [← hbuffer]
    rfl
  · rfl
  · exact congrArg (log.indexOffsets ++ ·) hbatch
  · exact congrArg (log.indexFile ++ ·) hbatch

end Stored

section Events

/-- A call, or the array is closed or its process ends, and it is opened again. -/
inductive Event where
  | call (op : Op)
  | reopen

/-- One event. Nothing but a restart follows a call that does not return. -/
def step (cfg : Config) (log : RaftLogArray) : Event → Option RaftLogArray
  | .call op => if log.locked then none else some (call cfg op log).state
  | .reopen => some (log.reopen cfg)

/-- A run of events. -/
def events (cfg : Config) : List Event → RaftLogArray → Option RaftLogArray
  | [], log => some log
  | ev :: evs, log => (step cfg log ev).bind (events cfg evs)

/-- What is appended has a 32-bit length, and the stream's position is at the end of the
file. -/
def Writes (log : RaftLogArray) (entries : List LogEntry) : Prop :=
  entries ≠ [] → log.wal.AtEnd ∧ ∀ e ∈ entries, e.Fits

/-- The condition on an event. -/
def Keeps (log : RaftLogArray) : Event → Prop
  | .call (.append entry) | .call (.appendConst entry) => log.Writes [entry]
  | .call (.batchAppend entries) | .call (.batchAppendConst entries) => log.Writes entries
  | .call (.truncateFrom _) | .call (.truncateBefore _) | .call (.createSnapshot _)
  | .call (.reset _) | .reopen => True

/-- Every event of a run meets its condition. -/
def KeepsAll (cfg : Config) : List Event → RaftLogArray → Prop
  | [], _ => True
  | ev :: evs, log => log.Keeps ev ∧ ∀ log', step cfg log ev = some log' → KeepsAll cfg evs log'

theorem numbered_fits {entries : List LogEntry} (h : ∀ e ∈ entries, e.Fits) (start : UInt32) :
    ∀ e ∈ numbered start entries, e.Fits := by
  induction entries generalizing start with
  | nil =>
      intro e he
      cases he
  | cons a as ih =>
      intro e he
      rcases List.mem_cons.1 he with rfl | he
      · exact (h a List.mem_cons_self).index start
      · exact ih (fun e he => h e (List.mem_cons_of_mem _ he)) (start + 1) e he

/-- What an append has done before it truncates is stored. -/
theorem Stored.halfway (h : Stored log) {op : Op} (hop : log.Keeps (.call op))
    (hbatch : op = .batchAppend [] ∨ op = .batchAppendConst [] → False) :
    Stored (log.halfway op) := by
  cases op with
  | append entry =>
      obtain ⟨hend, hfits⟩ := hop (List.cons_ne_nil _ _)
      exact h.appendEntry hend ((hfits entry List.mem_cons_self).index _)
  | appendConst entry =>
      obtain ⟨hend, hfits⟩ := hop (List.cons_ne_nil _ _)
      exact h.appendEntry hend (hfits entry List.mem_cons_self)
  | batchAppend entries =>
      cases entries with
      | nil => exact absurd (Or.inl rfl) hbatch
      | cons e es =>
          obtain ⟨hend, hfits⟩ := hop (List.cons_ne_nil _ _)
          exact h.appendEntries hend (numbered_fits hfits _)
  | batchAppendConst entries =>
      cases entries with
      | nil => exact absurd (Or.inr rfl) hbatch
      | cons e es =>
          obtain ⟨hend, hfits⟩ := hop (List.cons_ne_nil _ _)
          exact h.appendEntries hend hfits
  | truncateFrom index => exact h
  | truncateBefore index => exact h.dropBelow index
  | createSnapshot snapshotIndex => exact h
  | reset newStartIndex => exact h

theorem Stored.effect (h : Stored log) {op : Op} (hop : log.Keeps (.call op)) :
    Stored (log.effect cfg op) := by
  cases op with
  | append entry => exact (h.halfway hop (by simp)).shed cfg
  | appendConst entry => exact (h.halfway hop (by simp)).shed cfg
  | batchAppend entries =>
      cases entries with
      | nil => exact h
      | cons e es => exact (h.halfway hop (by simp)).shed cfg
  | batchAppendConst entries =>
      cases entries with
      | nil => exact h
      | cons e es => exact (h.halfway hop (by simp)).shed cfg
  | truncateFrom index => exact h.cutFrom index
  | truncateBefore index => exact h.cutBefore index
  | createSnapshot snapshotIndex =>
      show Stored (if log.Holds snapshotIndex then _ else log)
      split
      · exact h.cutBefore _
      · exact h
  | reset newStartIndex =>
      exact ⟨rfl, .nil, fun _ he => absurd he List.not_mem_nil, Or.inr rfl⟩

/-- What `recover` makes of files that hold what was in memory. -/
theorem Stored.reopen_eq (h : Stored log) (cfg : Config) :
    log.reopen cfg =
      { baseIndex := match log.entries.head? with
          | some e => e.index
          | none => 1
        entries := log.entries
        indexOffsets := log.indexFile
        wal := .openAppend log.wal.content
        indexFile := log.indexFile } := by
  let opened : RaftLogArray := { wal := .openAppend log.wal.content, indexFile := log.indexFile }
  have hload : loadEntries opened.held.wal opened.held.indexFile = some log.entries := by
    show loadEntries (.openAppend log.wal.content) log.indexFile = _
    rw [h.index]
    exact loadEntries_eq h.fits h.stands
  show (recover cfg opened).state = _
  rw [recover, withLock_free (Or.inl rfl)]
  simp only
  rw [hload]
  rfl

theorem Stored.reopen (h : Stored log) (cfg : Config) : Stored (log.reopen cfg) := by
  have hstands := h.stands
  rw [← h.index] at hstands
  rw [h.reopen_eq cfg]
  exact ⟨rfl, hstands, h.fits, Or.inl rfl⟩

/-- **One event.** -/
theorem Stored.step (h : Stored log) {ev : Event} (hev : log.Keeps ev) {log' : RaftLogArray}
    (hstep : RaftLogArray.step cfg log ev = some log') : Stored log' := by
  cases ev with
  | reopen =>
      cases hstep
      exact h.reopen cfg
  | call op =>
      rw [RaftLogArray.step] at hstep
      cases hlocked : log.locked with
      | true =>
          rw [hlocked, if_pos rfl] at hstep
          cases hstep
      | false =>
          rw [hlocked, if_neg Bool.false_ne_true] at hstep
          have hfree : Free cfg log := Or.inl hlocked
          cases hcall : call cfg op log with
          | returned b log₁ =>
              rw [hcall] at hstep
              cases hstep
              rw [call_returned hfree hcall]
              exact h.effect hev
          | blocked log₁ =>
              rw [hcall] at hstep
              cases hstep
              obtain ⟨hrelocks, hwaits⟩ := call_blocked hfree hcall
              subst hwaits
              refine (h.halfway hev ?_).held
              rintro (hd | hd)
              · subst hd
                exact hrelocks.1 rfl
              · subst hd
                exact hrelocks.1 rfl

/-- **A run of events.** -/
theorem Stored.events (h : Stored log) {evs : List Event} (hevs : KeepsAll cfg evs log)
    {log' : RaftLogArray} (hrun : RaftLogArray.events cfg evs log = some log') : Stored log' := by
  induction evs generalizing log with
  | nil =>
      cases hrun
      exact h
  | cons ev evs ih =>
      rw [RaftLogArray.events, Option.bind_eq_some_iff] at hrun
      obtain ⟨next, hnext, hrun⟩ := hrun
      exact ih (h.step hevs.1 hnext) (hevs.2 next hnext) hrun

/-- The base that the files give back: the index of the first entry, or 1. -/
def BaseStored (log : RaftLogArray) : Prop :=
  match log.entries.head? with
  | some e => e.index = log.baseIndex
  | none => log.baseIndex = 1

theorem Stored.reopen_base (h : Stored log) (cfg : Config) :
    (log.reopen cfg).baseIndex = log.baseIndex ↔ log.BaseStored := by
  rw [h.reopen_eq cfg, BaseStored]
  cases log.entries.head? with
  | none => exact ⟨Eq.symm, Eq.symm⟩
  | some e => exact Iff.rfl

/-- Between two states an append has written its records at the end of the file, and the
index file has their offsets. -/
def RecordsOwn (log log' : RaftLogArray) (more : List LogEntry) : Prop :=
  log'.wal.content = log.wal.content ++ more.flatMap walRecord ∧
    log'.indexFile = log.indexFile ++ offsets walRecord log.wal.content.length more

/-- The records go to the end of the file in any case; their offsets do when the stream's
position is there. -/
theorem Stored.recordsOwn_entries (h : Stored log) {entries : List LogEntry}
    (hfits : ∀ e ∈ entries, e.Fits) :
    RecordsOwn log (log.appendEntries entries) entries ↔ entries = [] ∨ log.wal.AtEnd := by
  obtain ⟨hbuffer, hoffsets⟩ := batch_eq hfits log.wal.ftell
  have hcontent : (log.appendEntries entries).wal.content =
      log.wal.content ++ entries.flatMap walRecord := by
    rw [← (h.appends.fwrite _).1, ← hbuffer]
    rfl
  have hindex : (log.appendEntries entries).indexFile =
      log.indexFile ++ offsets walRecord log.wal.ftell entries := by
    rw [← hoffsets]
    rfl
  rw [RecordsOwn, hindex, List.append_cancel_left_eq]
  cases entries with
  | nil => exact ⟨fun _ => Or.inl rfl, fun _ => ⟨hcontent, rfl⟩⟩
  | cons e es =>
      constructor
      · rintro ⟨-, hsame⟩
        exact Or.inr (List.cons.inj hsame).1
      · rintro (hd | hd)
        · cases hd
        · exact ⟨hcontent, by rw [show log.wal.ftell = log.wal.content.length from hd]⟩

theorem Stored.recordsOwn_entry (h : Stored log) (e : LogEntry) :
    RecordsOwn log (log.appendEntry e) [e] ↔ log.wal.AtEnd := by
  have hcontent : (log.appendEntry e).wal.content = log.wal.content ++ [e].flatMap walRecord := by
    rw [List.flatMap_cons, List.flatMap_nil, List.append_nil, ← (h.appends.fwrite _).1]
    rfl
  have hindex : (log.appendEntry e).indexFile = log.indexFile ++ [log.wal.ftell] := rfl
  rw [RecordsOwn, hindex, List.append_cancel_left_eq]
  constructor
  · rintro ⟨-, hsame⟩
    exact (List.cons.inj hsame).1
  · intro hend
    exact ⟨hcontent, by rw [show log.wal.ftell = log.wal.content.length from hend]; rfl⟩

/-- **Reopening the array.** In a run whose appends are made at the end of the file, the
index file says at every point where the record of each entry is, and reopening the array
gives its entries back; it gives the base back exactly when that is what the files say. A
further append records the offset of its own record exactly when it is made at the end of
the file. -/
theorem events_reopen {evs : List Event} (hevs : KeepsAll cfg evs {})
    (hrun : events cfg evs {} = some log) :
    List.Forall₂ (fun offset e => StandsAt log.wal.content offset (walRecord e))
        log.indexFile log.entries ∧
      (log.reopen cfg).entries = log.entries ∧
      ((log.reopen cfg).baseIndex = log.baseIndex ↔ log.BaseStored) ∧
      (∀ e, RecordsOwn log (log.appendEntry e) [e] ↔ log.wal.AtEnd) ∧
      (∀ entries : List LogEntry, (∀ e ∈ entries, e.Fits) →
        (RecordsOwn log (log.appendEntries entries) entries ↔ entries = [] ∨ log.wal.AtEnd)) := by
  have h : Stored log := Stored.new.events hevs hrun
  have hentries : (log.reopen cfg).entries = log.entries := by rw [h.reopen_eq cfg]
  refine ⟨?_, hentries, h.reopen_base cfg, h.recordsOwn_entry, fun _ => h.recordsOwn_entries⟩
  rw [h.index]
  exact h.stands

/-- One entry, and the array is reopened twice. -/
theorem events_reopen_append :
    ((((call ⟨⟨100, fun n => n / 2, false⟩, true⟩ (.append ⟨3, 0, 0, [1], 0, []⟩) {}).state.reopen
        ⟨⟨100, fun n => n / 2, false⟩, true⟩).reopen ⟨⟨100, fun n => n / 2, false⟩, true⟩).entries) =
      ((call ⟨⟨100, fun n => n / 2, false⟩, true⟩ (.append ⟨3, 0, 0, [1], 0, []⟩) {}).state.reopen
        ⟨⟨100, fun n => n / 2, false⟩, true⟩).entries := by
  have hwrites : Writes {} [⟨3, 0, 0, [1], 0, []⟩] :=
    fun _ => ⟨rfl, List.forall_mem_singleton.2 (show _ < 2 ^ 32 by decide)⟩
  have hevs : KeepsAll ⟨⟨100, fun n => n / 2, false⟩, true⟩
      [.call (.append ⟨3, 0, 0, [1], 0, []⟩), .reopen] {} :=
    ⟨hwrites, fun _ _ => ⟨trivial, fun _ _ => trivial⟩⟩
  exact (events_reopen hevs rfl).2.1

/-- An entry that is appended to a reopened array with another entry is lost, and the array
that was emptied over the base 5 starts at 1 again. -/
theorem reopen_append_lost :
    ((events ⟨⟨100, fun n => n / 2, false⟩, true⟩
        [.call (.append ⟨3, 0, 0, [1], 0, []⟩), .reopen, .call (.append ⟨3, 0, 0, [2], 0, []⟩)]
        {}).map fun log => (log.entries.map LogEntry.cmd, log.indexFile,
          (log.reopen ⟨⟨100, fun n => n / 2, false⟩, true⟩).entries.map LogEntry.cmd)) =
      some ([[1], [2]], [0, 0], [[1], [1]]) ∧
    ((events ⟨⟨100, fun n => n / 2, false⟩, true⟩ [.call (.reset 5)] {}).map fun log =>
        (log.baseIndex, (log.reopen ⟨⟨100, fun n => n / 2, false⟩, true⟩).baseIndex)) =
      some (5, 1) := by
  decide +kernel

end Events

end RaftLogArray

end EyaKV.Raft.Disk
