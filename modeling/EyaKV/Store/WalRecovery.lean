import EyaKV.Store.Wal
import Mathlib.Order.Bounds.Basic

/-!
# Torn writes and the next recovery

A crash leaves a log file with some prefix of its bytes. `recover` delivers exactly the
records that lie completely in this prefix (`readRecords_take`): a record needs all its
bytes (`extends_readRecord`), so the torn one ends the reading loop.

`Storage::recover` then goes on in the file of the last delivered record. It opens it in
append mode and leaves the torn bytes where they are, so the next record is glued to
them. The following recovery delivers the old records and whatever new ones are written,
for all of them, exactly when there were no torn bytes (`recover_reopened_iff`).
-/

set_option autoImplicit false

namespace EyaKV.Store

open EyaKV.Base EyaKV.Base.Framing

section Reading

theorem extends_readLe32 : Extends readLe32 := by
  rintro input a rest h more
  match input, h with
  | _ :: _ :: _ :: _ :: _, h =>
      obtain ⟨rfl, rfl⟩ := Prod.mk.inj (Option.some.inj h)
      rfl

theorem extends_readBytes (n : Nat) : Extends (readBytes n) := by
  intro input a rest h more
  rw [readBytes] at h ⊢
  split at h
  · cases h
  · next hle =>
      obtain ⟨rfl, rfl⟩ := Prod.mk.inj (Option.some.inj h)
      have hlen : n ≤ input.length := Nat.le_of_not_lt hle
      rw [if_neg (by rw [List.length_append]; omega), List.take_append_of_le_length hlen,
        List.drop_append_of_le_length hlen]

theorem length_readLe32 {input rest : Bytes} {n : Nat} (h : readLe32 input = some (n, rest)) :
    rest.length ≤ input.length := by
  match input, h with
  | _ :: _ :: _ :: _ :: _, h =>
      obtain ⟨-, rfl⟩ := Prod.mk.inj (Option.some.inj h)
      simp only [List.length_cons]
      omega

theorem length_readBytes {input rest s : Bytes} {n : Nat}
    (h : readBytes n input = some (s, rest)) : rest.length ≤ input.length := by
  rw [readBytes] at h
  split at h
  · cases h
  · obtain ⟨-, rfl⟩ := Prod.mk.inj (Option.some.inj h)
    rw [List.length_drop]
    omega

/-- What a record that is read consists of. -/
theorem readRecord_eq_some {input rest : Bytes} {r : WalRecord}
    (h : readRecord input = some (r, rest)) :
    ∃ tail keyLen rest₁ rest₂ valLen rest₃, input = r.type :: tail ∧
      readLe32 tail = some (keyLen, rest₁) ∧ keyLen ≤ maxKeyLength ∧
      readBytes keyLen rest₁ = some (r.key, rest₂) ∧
      readLe32 rest₂ = some (valLen, rest₃) ∧ valLen ≤ maxPayloadLength ∧
      readBytes valLen rest₃ = some (r.payload, rest) := by
  match input, h with
  | type :: tail, h =>
      obtain ⟨⟨keyLen, rest₁⟩, h₁, h⟩ := Option.bind_eq_some_iff.1 h
      by_cases hkey : maxKeyLength < keyLen
      · simp [hkey] at h
      · simp only [hkey, ↓reduceIte] at h
        obtain ⟨⟨key, rest₂⟩, h₂, h⟩ := Option.bind_eq_some_iff.1 h
        obtain ⟨⟨valLen, rest₃⟩, h₃, h⟩ := Option.bind_eq_some_iff.1 h
        by_cases hval : maxPayloadLength < valLen
        · simp [hval] at h
        · simp only [hval, ↓reduceIte] at h
          obtain ⟨⟨payload, rest₄⟩, h₄, h⟩ := Option.bind_eq_some_iff.1 h
          obtain ⟨rfl, rfl⟩ := Prod.mk.inj (Option.some.inj h)
          exact ⟨tail, keyLen, rest₁, rest₂, valLen, rest₃, rfl, h₁, Nat.le_of_not_lt hkey, h₂, h₃,
            Nat.le_of_not_lt hval, h₄⟩

theorem extends_readRecord : Extends readRecord := by
  intro input r rest h more
  obtain ⟨tail, keyLen, rest₁, rest₂, valLen, rest₃, rfl, h₁, hkey, h₂, h₃, hval, h₄⟩ :=
    readRecord_eq_some h
  rw [List.cons_append, readRecord]
  simp only [extends_readLe32 _ _ _ h₁ more, extends_readBytes _ _ _ _ h₂ more,
    extends_readLe32 _ _ _ h₃ more, extends_readBytes _ _ _ _ h₄ more, Option.bind_eq_bind,
    Option.bind_some, Nat.not_lt_of_le hkey, Nat.not_lt_of_le hval, ↓reduceIte, Option.pure_def]

theorem consumes_readRecord : Consumes readRecord := by
  intro input r rest h
  obtain ⟨tail, keyLen, rest₁, rest₂, valLen, rest₃, rfl, h₁, -, h₂, h₃, -, h₄⟩ :=
    readRecord_eq_some h
  have := length_readLe32 h₁
  have := length_readBytes h₂
  have := length_readLe32 h₃
  have := length_readBytes h₄
  rw [List.length_cons]
  omega

/-- **Recovery of a cut off file.** Exactly the records are delivered that were written
completely. -/
theorem readRecords_take {old : List WalRecord} (hold : ∀ r ∈ old, r.Readable) (n : Nat) :
    readRecords ((old.flatMap writeRecord).take n) = complete writeRecord old n :=
  decodes_record.scanAll_take extends_readRecord consumes_readRecord rfl old hold n

/-- Records behind a cut off file are read behind the torn bytes. -/
theorem readRecords_take_append {old : List WalRecord} (hold : ∀ r ∈ old, r.Readable) (n : Nat)
    (more : Bytes) :
    readRecords ((old.flatMap writeRecord).take n ++ more) =
      complete writeRecord old n ++ readRecords (torn writeRecord old n ++ more) := by
  have hcomplete : ∀ r ∈ complete writeRecord old n, r.Readable := by
    intro r hr
    rw [complete_sublist] at hr
    exact hold r (List.mem_of_mem_take hr)
  rw [take_flatMap, List.append_assoc]
  exact decodes_record.scanAll_append consumes_readRecord rfl _ hcomplete _

/-- The first record that is read has the first byte of the file as its type. -/
theorem type_of_readRecords {b : UInt8} {rest : Bytes} {r : WalRecord} {l : List WalRecord}
    (h : readRecords (b :: rest) = r :: l) : r.type = b := by
  rw [readRecords, List.length_cons, scan] at h
  cases hread : readRecord (b :: rest) with
  | none =>
      rw [hread] at h
      cases h
  | some p =>
      obtain ⟨tail, -, -, -, -, -, heq, -⟩ := readRecord_eq_some hread
      rw [hread] at h
      rw [(List.cons.inj heq).1, (List.cons.inj h).1]

/-- Whatever is written behind torn bytes comes back exactly when there are none. -/
theorem readRecords_torn_iff {old : List WalRecord} (hold : ∀ r ∈ old, r.Readable) (n : Nat) :
    (∀ new : List WalRecord, (∀ r ∈ new, r.Readable) →
      readRecords ((old.flatMap writeRecord).take n ++ new.flatMap writeRecord) =
        complete writeRecord old n ++ new) ↔ torn writeRecord old n = [] := by
  constructor
  · intro h
    -- A removal or an expiry, whichever has another type byte than the torn record.
    cases htorn : torn writeRecord old n with
    | nil => rfl
    | cons b rest =>
        have hother : ∃ type : UInt8, type ≠ b := by
          by_cases hb : b = OperationType.remove.code
          · exact ⟨OperationType.expire.code, by rw [hb]; decide⟩
          · exact ⟨OperationType.remove.code, Ne.symm hb⟩
        obtain ⟨type, htype⟩ := hother
        have hnew := h [⟨type, [], []⟩] fun r hr => by
          rw [List.mem_singleton.1 hr]
          exact ⟨Nat.zero_le _, Nat.zero_le _⟩
        rw [readRecords_take_append hold, htorn, List.append_cancel_left_eq, List.cons_append]
          at hnew
        exact absurd (type_of_readRecords hnew) htype
  · intro htorn new hnew
    rw [readRecords_take_append hold, htorn, List.nil_append, readRecords_writeRecords hnew]

end Reading

namespace Wal

section Reopening

/-- `Wal::write_record`. -/
def write (w : Wal) (r : WalRecord) : Bool × Wal :=
  match w.walFile with
  | none => (false, w)
  | some name =>
      (true, { w with files := w.files.insert name ((w.files[name]?).getD [] ++ writeRecord r) })

theorem appendLog_eq_write (w : Wal) (type : OperationType) (key payload : Bytes) :
    w.appendLog type key payload = w.write ⟨type.code, key, payload⟩ := rfl

/-- What `Storage::recover` does to the log: it goes on in the file of the last record
that was delivered, or in a new one when there is none or the memtable has to be flushed. -/
def reopen (w : Wal) (ticks : Nat) (shouldFlush : Bool) : Wal :=
  let currentWalFilename := (w.recoverCalls.getLast?.map Prod.fst).getD []
  w.afterRecover.openWalFile
    (if shouldFlush || currentWalFilename.isEmpty then generateUniqueFilename ticks
    else currentWalFilename)

/-- The bytes of a file, none for a file that does not exist. -/
def content (w : Wal) (name : Bytes) : Bytes := (w.files[name]?).getD []

/-- The records of one file that a recovery delivers, in order. -/
def delivered (w : Wal) (name : Bytes) : List WalRecord :=
  (w.recoverCalls.filter fun call => call.1 == name).map Prod.snd

variable {w : Wal} {name : Bytes}

/-- In a listing without repeated keys, the part of one key comes from one entry. -/
theorem flatMap_of_key {β : Type} (g : Bytes → List β) (l : List (Bytes × Bytes))
    (hdistinct : l.Pairwise fun a b => ¬ compare a.1 b.1 = .eq) :
    (∃ c, (name, c) ∈ l ∧ (l.flatMap fun e => if e.1 == name then g e.2 else []) = g c) ∨
      ((∀ c, (name, c) ∉ l) ∧ (l.flatMap fun e => if e.1 == name then g e.2 else []) = []) := by
  induction l with
  | nil => exact Or.inr ⟨fun c h => (List.not_mem_nil h).elim, rfl⟩
  | cons e l ih =>
      rw [List.pairwise_cons] at hdistinct
      rw [List.flatMap_cons]
      rcases ih hdistinct.2 with ⟨c, hmem, heq⟩ | ⟨hnone, heq⟩
      · have hne : e.1 ≠ name := by
          have := hdistinct.1 (name, c) hmem
          simpa using this
        refine Or.inl ⟨c, List.mem_cons_of_mem e hmem, ?_⟩
        rw [heq, if_neg (by simpa using hne), List.nil_append]
      · rw [heq, List.append_nil]
        by_cases hkey : e.1 = name
        · subst hkey
          exact Or.inl ⟨e.2, List.mem_cons_self, if_pos (beq_self_eq_true _)⟩
        · refine Or.inr ⟨fun c hc => ?_, if_neg (by simpa using hkey)⟩
          rcases List.mem_cons.1 hc with heq | hc
          · exact hkey (congrArg Prod.fst heq.symm)
          · exact hnone c hc

theorem delivered_eq (w : Wal) (name : Bytes) :
    w.delivered name = readRecords (w.content name) := by
  have hparts : w.delivered name = w.files.toList.flatMap fun file =>
      if file.1 == name then readRecords file.2 else [] := by
    rw [delivered, recoverCalls, List.filter_flatMap, List.map_flatMap]
    refine List.flatMap_congr fun file _ => ?_
    rw [List.filter_map, List.map_map]
    split
    · next h => simp [Function.comp_def, h]
    · next h => simp [Function.comp_def, h]
  rw [hparts, content]
  rcases flatMap_of_key readRecords w.files.toList w.files.distinct_keys_toList with
    ⟨c, hmem, heq⟩ | ⟨hnone, heq⟩
  · rw [heq, Std.ExtTreeMap.mem_toList_iff_getElem?_eq_some.1 hmem]
    rfl
  · rw [heq]
    cases hfile : w.files[name]? with
    | none => rfl
    | some c => exact absurd (Std.ExtTreeMap.mem_toList_iff_getElem?_eq_some.2 hfile) (hnone c)

theorem content_reopen (w : Wal) (ticks : Nat) (shouldFlush : Bool) (name : Bytes) :
    (w.reopen ticks shouldFlush).content name = w.content name := by
  have hopened : ∀ (v : Wal) (filename : Bytes), (v.openWalFile filename).content name =
      v.content name := by
    intro v filename
    simp only [content, openWalFile]
    split
    · rfl
    · next hnot =>
        rw [Std.ExtTreeMap.getElem?_insert]
        split
        · next heq =>
            obtain rfl := Std.LawfulEqCmp.compare_eq_iff_eq.1 heq
            rw [Std.ExtTreeMap.getElem?_eq_none hnot]
            rfl
        · rfl
  have hrecovered : w.afterRecover.content name = w.content name := by
    simp only [content, afterRecover, OrderedMap.getElem?_ofList_retain]
    cases w.files[name]? with
    | none => rfl
    | some c =>
        cases c with
        | nil => rfl
        | cons b c => rfl
  rw [reopen, hopened, hrecovered]

/-- Writes go to the end of the open file. -/
theorem content_writes (hopen : w.walFile = some name) (new : List WalRecord) :
    (new.foldl (fun w r => (w.write r).2) w).content name =
      w.content name ++ new.flatMap writeRecord := by
  induction new generalizing w with
  | nil => rw [List.flatMap_nil, List.append_nil]; rfl
  | cons r new ih =>
      have hwrite : (w.write r).2.walFile = some name ∧
          (w.write r).2.content name = w.content name ++ writeRecord r := by
        simp only [write, hopen, content, Std.ExtTreeMap.getElem?_insert_self, Option.getD_some,
          and_self]
      rw [List.foldl_cons, ih hwrite.1, hwrite.2, List.flatMap_cons, List.append_assoc]

/-- The crash cut the file between two records, before the first or behind the last. -/
def CutBetween (old : List WalRecord) (n : Nat) : Prop :=
  ∃ m, (old.flatMap writeRecord).take n = (old.take m).flatMap writeRecord

theorem cutBetween_iff {old : List WalRecord} (hold : ∀ r ∈ old, r.Readable) (n : Nat) :
    CutBetween old n ↔ torn writeRecord old n = [] := by
  constructor
  · rintro ⟨m, hm⟩
    have hcomplete : complete writeRecord old n = old.take m := by
      rw [← readRecords_take hold, hm,
        readRecords_writeRecords fun r hr => hold r (List.mem_of_mem_take hr)]
    rw [take_flatMap, hcomplete] at hm
    exact List.append_right_eq_self.1 hm
  · intro htorn
    refine ⟨(complete writeRecord old n).length, ?_⟩
    rw [take_flatMap, htorn, List.append_nil, ← complete_sublist]

/-- **Torn writes and continued use.** A file with the first `n` bytes of some records:
the recovery delivers the longest prefix of completely written records; and when the
store goes on in this file, the next recovery delivers these and all new records, for
any new records, if and only if the crash cut the file between two records. -/
theorem recover_reopened_iff (w : Wal) (name : Bytes) (old : List WalRecord) (n : Nat)
    (hold : ∀ r ∈ old, r.Readable) (hfile : w.content name = (old.flatMap writeRecord).take n) :
    (∃ m, w.delivered name = old.take m ∧
      IsGreatest {m | m ≤ old.length ∧ ((old.take m).flatMap writeRecord).length ≤ n} m) ∧
    ∀ ticks shouldFlush, (w.reopen ticks shouldFlush).walFile = some name →
      ((∀ new : List WalRecord, (∀ r ∈ new, r.Readable) →
        (new.foldl (fun w r => (w.write r).2) (w.reopen ticks shouldFlush)).delivered name =
          w.delivered name ++ new) ↔ CutBetween old n) := by
  have hdelivered : w.delivered name = complete writeRecord old n := by
    rw [delivered_eq, hfile, readRecords_take hold]
  constructor
  · refine ⟨(complete writeRecord old n).length, ?_, ⟨?_, ?_⟩, ?_⟩
    · rw [hdelivered, ← complete_sublist]
    · rw [complete_sublist, List.length_take]
      exact min_le_right _ _
    · rw [← complete_sublist]
      exact length_complete_le writeRecord old n
    · rintro m ⟨hm, hfits⟩
      exact le_length_complete writeRecord old n m hm hfits
  · intro ticks shouldFlush hopen
    rw [cutBetween_iff hold, ← readRecords_torn_iff hold, hdelivered]
    refine forall_congr' fun new => imp_congr_right fun _ => ?_
    rw [delivered_eq, content_writes hopen, content_reopen, hfile]

/-- The records of two writes of a key. -/
def twoWrites : List WalRecord := [⟨6, [107], [49]⟩, ⟨6, [107], [50]⟩]

/-- A log whose file lost all but one byte of the second record. -/
def tornWal : Wal :=
  ⟨(∅ : StrMap Bytes).insert [49] ((twoWrites.flatMap writeRecord).take 12), none⟩

theorem readable_twoWrites : ∀ r ∈ twoWrites, r.Readable := by
  simp [twoWrites, WalRecord.Readable, maxKeyLength, maxPayloadLength]

/-- The store goes on in the torn file, and a third write is glued to the torn byte. -/
theorem delivered_tornWal :
    (tornWal.reopen 2 false).walFile = some [49] ∧
      (((tornWal.reopen 2 false).write ⟨6, [107], [51]⟩).2).delivered [49] =
        [⟨6, [107], [49]⟩] ∧ tornWal.delivered [49] = [⟨6, [107], [49]⟩] := by
  decide

/-- A write after the crash is lost at the next restart. -/
theorem recover_loses_write :
    ¬ ∀ (w : Wal) (name : Bytes) (old : List WalRecord) (n : Nat), (∀ r ∈ old, r.Readable) →
      w.content name = (old.flatMap writeRecord).take n →
        ∀ ticks shouldFlush, (w.reopen ticks shouldFlush).walFile = some name →
          ∀ new : List WalRecord, (∀ r ∈ new, r.Readable) →
            (new.foldl (fun w r => (w.write r).2) (w.reopen ticks shouldFlush)).delivered name =
              w.delivered name ++ new := by
  intro hall
  obtain ⟨hopen, hnext, hfirst⟩ := delivered_tornWal
  have hnew := hall tornWal [49] twoWrites 12 readable_twoWrites (by decide) 2 false hopen
    [⟨6, [107], [51]⟩] fun r hr => by
      rw [List.mem_singleton.1 hr]
      exact ⟨by decide, by decide⟩
  rw [List.foldl_cons, List.foldl_nil, hnext, hfirst] at hnew
  cases hnew

theorem recover_reopened_iff_torn : ¬ CutBetween twoWrites 12 := by
  obtain ⟨hopen, hnext, hfirst⟩ := delivered_tornWal
  intro hcut
  have hnew := ((recover_reopened_iff tornWal [49] twoWrites 12 readable_twoWrites (by decide)).2
    2 false hopen).2 hcut [⟨6, [107], [51]⟩] fun r hr => by
      rw [List.mem_singleton.1 hr]
      exact ⟨by decide, by decide⟩
  rw [List.foldl_cons, List.foldl_nil, hnext, hfirst] at hnew
  cases hnew

end Reopening

end Wal

end EyaKV.Store
