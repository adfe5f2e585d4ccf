import EyaKV.Store.Checkpoint
import EyaKV.Store.Failures
import EyaKV.Store.LogRecords
import EyaKV.Store.Replay
import EyaKV.Store.WalRecovery

/-!
# Writes that survive a crash

A process that is killed leaves the SSTables and the log files. The next start opens the
former and replays the latter. `Durable` is what makes that come out right: above the
SSTables lies a stack of memtables, and the file of each holds the records whose replay, at
the second `t` of the next start, stands for the memtable (`Covers`).

A command keeps it when it logs a record that the recovery understands, when its put does
not find the memtable full (the record would be in one file and the version in the memtable
of the next), and when what it has read is alive at `t` if it was alive at the time of the
command (`Survives`). A removal by rank must find its ranks (`RanksThere`), as its replay reads
other memory than the command has read. A rotation starts a layer with an empty file, and a flush
lets the lowest layer sink into the SSTables and deletes its file.

A crash inside the append of a record leaves bytes that no replay reads (`readRecords_cut`). So a
run whose steps all survive is there again after the restart (`restart_life`).
-/

set_option autoImplicit false

namespace EyaKV.Store

open EyaKV.Base EyaKV.Base.Layers EyaKV.Base.RedoLogs EyaKV.Base.Framing

namespace Action

/-- The action makes a put when the memtable has the entry `e` of the key and its newest
version is `o`. -/
def Puts (now : Nat) (e o : Option EValue) : Action → Prop
  | .update op => e = none ∧ op.write now o ≠ none
  | .set _ => True
  | .remove => False
  | .expire t => e = none ∧ Action.write now (.expire t) o ≠ none
  | .skip => False

end Action

namespace Storage

section Stack

/-- The memtables with the names of their files, the newest first. -/
def stack (st : Storage) : List (Bytes × (Bytes → Option EValue)) :=
  (st.currentWalFilename, st.memtable.get) ::
    st.immutableMemtables.toList.reverse.map fun e => (e.1, e.2.get)

variable {cfg : StorageConfig} {env : Env} {st st' : Storage}

theorem newest_rest (st : Storage) :
    stacked (st.immutableMemtables.toList.reverse.map fun e => (e.1, e.2.get))
      st.sstableManager.get = newest st.olderLayers := by
  funext key
  rw [stacked, overlay, olderLayers, newest_append, SSTableManager.get_eq_newest, List.map_map]
  rfl

theorem newestOf_stack (st : Storage) : stacked st.stack st.sstableManager.get = st.newestOf := by
  funext key
  rw [stack, stacked_cons, overlay, newest_rest, newestOf_eq]

/-- The names go down the stack. -/
theorem stack_sorted (hinv : Inv cfg st) :
    st.stack.Pairwise fun a b => compare b.1 a.1 = .lt := by
  rw [stack, List.pairwise_cons, List.pairwise_map, List.pairwise_reverse]
  refine ⟨fun layer hl => ?_, st.immutableMemtables.ordered_keys_toList⟩
  obtain ⟨e, he, rfl⟩ := List.mem_map.1 hl
  exact hinv.names e.1 e.2
    (Std.ExtTreeMap.mem_toList_iff_getElem?_eq_some.1 (List.mem_reverse.1 he))

theorem name_ne_of_lt {a b : Bytes} (h : compare a b = .lt) : a ≠ b := by
  rintro rfl
  exact absurd (h.symm.trans Std.ReflCmp.compare_self) (by decide)

/-- No other layer has the current file. -/
theorem rest_names (hinv : Inv cfg st) :
    ∀ layer ∈ st.immutableMemtables.toList.reverse.map fun e => (e.1, e.2.get),
      layer.1 ≠ st.currentWalFilename := by
  have hsorted := stack_sorted hinv
  rw [stack, List.pairwise_cons] at hsorted
  exact fun layer hl => name_ne_of_lt (hsorted.1 layer hl)

end Stack

section Durability

variable (cfg : StorageConfig) (F : FloatOps) (toZset : Decoder UInt8 ZSet) (t : Nat)
  (logs : Bytes → List WalRecord)

/-- The log files hold the records of `logs`, and their replay at the second `t` stands for the
memtables. -/
structure Durable (st : Storage) : Prop where
  sound : Sound cfg st
  stored : SSTableManager.Stored st.sstableManager
  content : ∀ name, st.wal.content name = (logs name).flatMap writeRecord
  readable : ∀ name, ∀ r ∈ logs name, r.Readable
  owned : ∀ name, logs name ≠ [] → ∃ layer ∈ st.stack, layer.1 = name
  bare : ∀ (name : Bytes) (imm : MemTable), st.immutableMemtables[name]? = some imm →
    imm.size = 0 → logs name = []
  named : st.currentWalFilename ≠ [] ∧ logs [] = []
  covers : Covers (redo F toZset t) (EValue.isLive t) valueIndex logs (fun _ _ => none)
    st.sstableManager.get st.stack

variable {cfg F toZset t logs} {env : Env} {st st' : Storage}

/-- The files have the records of the logs, whether or not other bytes are behind them. -/
def Readings (logs : Bytes → List WalRecord) (files : StrMap Bytes) : Prop :=
  (∀ (name content : Bytes), files[name]? = some content → readRecords content = logs name) ∧
    ∀ name, logs name ≠ [] → ∃ content, files[name]? = some content

theorem Durable.readings (h : Durable cfg F toZset t logs st) : Readings logs st.wal.files := by
  constructor
  · intro name content hget
    have hcontent := h.content name
    rw [Wal.content, hget, Option.getD_some] at hcontent
    rw [hcontent, readRecords_writeRecords (h.readable name)]
  · -- a file that is missing has no content, and so no record
    intro name hlog
    cases hget : st.wal.files[name]? with
    | some content => exact ⟨content, rfl⟩
    | none =>
        have hcontent := h.content name
        obtain ⟨r, rest, hcons⟩ := List.exists_cons_of_ne_nil hlog
        rw [Wal.content, hget, hcons, List.flatMap_cons] at hcontent
        exact absurd (List.append_eq_nil_iff.1 hcontent.symm).1 (writeRecord_ne_nil r)

/-- Bytes that are no record change no reading when they are behind the current file. -/
theorem Durable.readings_torn (h : Durable cfg F toZset t logs st) {tail : Bytes}
    (htail : readRecords tail = []) :
    Readings logs (st.wal.files.insert st.currentWalFilename
      (st.wal.content st.currentWalFilename ++ tail)) := by
  obtain ⟨hread, hfound⟩ := h.readings
  constructor
  · intro name content hget
    rw [Std.ExtTreeMap.getElem?_insert] at hget
    split at hget
    · next hname =>
        obtain rfl := Std.LawfulEqCmp.compare_eq_iff_eq.1 hname
        obtain rfl := Option.some.inj hget
        have hscan := decodes_record.scanAll_append consumes_readRecord rfl _
          (h.readable st.currentWalFilename) tail
        rw [h.content, readRecords, ← scanAll, hscan, scanAll, ← readRecords, htail, List.append_nil]
    · exact hread name content hget
  · intro name hlog
    rw [Std.ExtTreeMap.getElem?_insert]
    split
    · exact ⟨_, rfl⟩
    · exact hfound name hlog

/-- The restart replays the logs of the stack. -/
theorem Durable.recoverCalls (h : Durable cfg F toZset t logs st) {files : StrMap Bytes}
    (hfiles : Readings logs files) : (Wal.mk files none).recoverCalls = callsOf logs st.stack := by
  obtain ⟨hread, hfound⟩ := hfiles
  have hnames : files.toList.flatMap (fun file =>
      (readRecords file.2).map fun r => (file.1, r)) =
        (files.toList.map Prod.fst).flatMap fun name => (logs name).map fun r => (name, r) := by
    rw [List.flatMap_map, List.flatMap_def, List.flatMap_def]
    refine congrArg _ (List.map_congr_left fun file hmem => ?_)
    rw [hread file.1 file.2 (Std.ExtTreeMap.mem_toList_iff_getElem?_eq_some.1 hmem)]
  have hstack : callsOf logs st.stack =
      (st.stack.reverse.map Prod.fst).flatMap fun name => (logs name).map fun r => (name, r) := by
    rw [List.flatMap_map]
    rfl
  rw [Wal.recoverCalls, hnames, hstack]
  apply @OrderedMap.flatMap_sorted_congr _ compare
  · rw [List.pairwise_map]
    exact files.ordered_keys_toList
  · rw [List.pairwise_map, List.pairwise_reverse]
    exact stack_sorted h.sound.inv
  · intro name hne
    have hlog : logs name ≠ [] := fun hnil => hne (by rw [hnil]; rfl)
    constructor
    · intro _
      obtain ⟨layer, hl, rfl⟩ := h.owned name hlog
      exact List.mem_map_of_mem (List.mem_reverse.2 hl)
    · intro _
      obtain ⟨content, hget⟩ := hfound name hlog
      exact List.mem_map.2 ⟨(name, content),
        Std.ExtTreeMap.mem_toList_iff_getElem?_eq_some.2 hget, rfl⟩

/-- The recovery makes of the record the action, whatever it finds in what is not set. -/
structure Repeats (F : FloatOps) (toZset : Decoder UInt8 ZSet) (r : WalRecord) (a : Action)
    (now : Nat) (o : Option EValue) : Prop where
  decoded : recoverAction F toZset r = some (.ok a)
  alike : ∀ u, ∃ a', recoverAction (F.finding u) toZset r = some (.ok a') ∧ Action.AlikeOn now o a a'

/-- **A record.** The record of an action is appended to the current file, and the action is
done in the memtable of this file. -/
theorem Durable.logged (h : Durable cfg F toZset t logs st) (henabled : cfg.enableWal = true)
    {now : Nat} (hle : now ≤ t) {r : WalRecord} {a : Action} {m : MemTable} (hreadable : r.Readable)
    (hdecode : Repeats F toZset r a now (st.newestOf r.key))
    (haccepts : ∀ v, st.memtable.get r.key = some v → a.Accepts now v)
    (hsafe : a.Safe now t (st.newestOf r.key))
    (hm : Wrote st.memtable r.key
      (a.liveWrite now (st.memtable.get r.key) (newest st.olderLayers r.key)) m) :
    Durable cfg F toZset t
      (Function.update logs st.currentWalFilename (logs st.currentWalFilename ++ [r]))
      { st with wal := (st.wal.write r).2, memtable := m } := by
  have hopen := h.sound.inv.walOpen henabled
  have hwrite : (st.wal.write r).2 = { st.wal with
      files := st.wal.files.insert st.currentWalFilename
        ((st.wal.files[st.currentWalFilename]?).getD [] ++ writeRecord r) } := by
    simp only [Wal.write, hopen]
  have hrest := rest_names h.sound.inv
  constructor
  · refine ⟨⟨hm.normal, h.sound.inv.immutables, h.sound.inv.names, fun _ => ?_⟩, h.sound.sstables⟩
    rw [hwrite]
    exact hopen
  · exact h.stored
  · intro name
    rw [hwrite, Wal.content, Std.ExtTreeMap.getElem?_insert, Function.update_apply]
    by_cases hname : compare st.currentWalFilename name = .eq
    · obtain rfl := Std.LawfulEqCmp.compare_eq_iff_eq.1 hname
      rw [if_pos hname, if_pos rfl, Option.getD_some, List.flatMap_append, ← h.content]
      simp only [Wal.content, List.flatMap_cons, List.flatMap_nil, List.append_nil]
    · have hne : name ≠ st.currentWalFilename := by
        rintro rfl
        exact hname Std.ReflCmp.compare_self
      rw [if_neg hname, if_neg hne]
      exact h.content name
  · intro name r' hr'
    rw [Function.update_apply] at hr'
    split at hr'
    · rcases List.mem_append.1 hr' with hr' | hr'
      · exact h.readable _ r' hr'
      · rw [List.mem_singleton.1 hr']
        exact hreadable
    · exact h.readable name r' hr'
  · intro name hlog
    by_cases hname : name = st.currentWalFilename
    · exact ⟨_, List.mem_cons_self, hname.symm⟩
    · rw [Function.update_of_ne hname] at hlog
      obtain ⟨layer, hl, hlayer⟩ := h.owned name hlog
      rcases List.mem_cons.1 hl with rfl | hl
      · exact absurd hlayer.symm hname
      · exact ⟨layer, List.mem_cons_of_mem _ hl, hlayer⟩
  · intro name imm himm hsize
    rw [Function.update_of_ne (name_ne_of_lt (h.sound.inv.names name imm himm))]
    exact h.bare name imm himm hsize
  · rw [Function.update_of_ne h.named.1.symm]
    exact h.named
  · -- the replay of the record on what stands for the memtable stands for the written one
    rw [newestOf_eq] at hsafe
    apply Covers.write h.covers hrest r
    · intro e hshadows
      rw [newest_rest] at hshadows ⊢
      have hredo : (redo F toZset t).write r (e.or (newest st.olderLayers r.key)) =
          a.write t (e.or (newest st.olderLayers r.key)) := by
        simp only [redo, redoWrite, hdecode.decoded]
      -- what is alive at `t` of the version that the replay finds is alive in the store
      have hlater := hshadows.filter_or
      rw [← newestOf_eq] at hlater
      refine ⟨fun u => ?_, ?_⟩
      · obtain ⟨a', hdecode', halike⟩ := hdecode.alike u
        refine ⟨a', hdecode', fun v hv => ?_, ?_⟩
        · refine (halike.accepts hle fun hlive => ?_).1 (accepts_of_shadows hle
            (regular_recoverAction hdecode.decoded) haccepts hsafe hshadows hv)
          rw [hv, Option.some_or, Option.filter_some, if_pos hlive] at hlater
          exact (Option.filter_eq_some_iff.1 hlater.symm).1
        · rw [← halike.write hle hlater]
          exact hredo.symm
      · have hstep := shadows_step hle hsafe hshadows
        show ShadowsAt t _ (((redo F toZset t).write r (e.or (newest st.olderLayers r.key))).or e)
          (m.get r.key)
        rw [hredo, hm.get, put_apply, if_pos rfl]
        exact hstep
    · intro key hkey
      have hne : key ≠ r.key := hkey
      rw [hm.get, put_apply, if_neg hne]

/-- **A rotation** of a memtable with entries, or whose file has no record. -/
theorem Durable.rotate (h : Durable cfg F toZset t logs st) (henabled : cfg.enableWal = true)
    (hfresh : FreshName cfg env st)
    (hbare : st.memtable.size = 0 → logs st.currentWalFilename = []) :
    Durable cfg F toZset t logs (rotateMemtable cfg env st) := by
  have hinv := inv_rotate h.sound.inv hfresh
  have hstack : (rotateMemtable cfg env st).stack =
      (newFilename cfg env, fun _ => none) :: st.stack := by
    have habove : ∀ e ∈ st.immutableMemtables.toList,
        compare e.1 st.currentWalFilename = .lt := fun e he =>
      h.sound.inv.names e.1 e.2 (Std.ExtTreeMap.mem_toList_iff_getElem?_eq_some.1 he)
    have hempty : (createNewMemtable cfg).get = fun _ => none :=
      funext fun key => MemTable.get_new _
    simp only [stack, rotateMemtable, hempty, OrderedMap.toList_insert_above _ _ _ habove,
      List.reverse_append, List.reverse_singleton, List.singleton_append, List.map_cons]
  -- all files with records are below the new name
  have hlog : logs (newFilename cfg env) = [] := by
    by_contra hne
    obtain ⟨layer, hl, hname⟩ := h.owned _ hne
    have hsorted := stack_sorted hinv
    rw [hstack, List.pairwise_cons] at hsorted
    exact name_ne_of_lt (hsorted.1 layer hl) hname
  constructor
  · exact ⟨hinv, h.sound.sstables⟩
  · exact h.stored
  · intro name
    have hwal : (rotateMemtable cfg env st).wal = st.wal.openWalFile (newFilename cfg env) := by
      simp only [rotateMemtable, henabled, ↓reduceIte]
    rw [hwal, ← h.content name, Wal.content, Wal.content, Wal.openWalFile]
    split
    · rfl
    · next hmem =>
        rw [Std.ExtTreeMap.getElem?_insert]
        split
        · next hname =>
            obtain rfl := Std.LawfulEqCmp.compare_eq_iff_eq.1 hname
            rw [Std.ExtTreeMap.getElem?_eq_none hmem]
            rfl
        · rfl
  · exact h.readable
  · intro name hne
    obtain ⟨layer, hl, hname⟩ := h.owned name hne
    exact ⟨layer, by rw [hstack]; exact List.mem_cons_of_mem _ hl, hname⟩
  · intro name imm himm hsize
    have himm' : (st.immutableMemtables.insert st.currentWalFilename st.memtable)[name]? =
        some imm := himm
    rw [Std.ExtTreeMap.getElem?_insert] at himm'
    split at himm'
    · next hname =>
        obtain rfl := Std.LawfulEqCmp.compare_eq_iff_eq.1 hname
        obtain rfl := Option.some.inj himm'
        exact hbare hsize
    · exact h.bare name imm himm' hsize
  · exact ⟨ne_nil_of_later (nil_lt_newFilename cfg env), h.named.2⟩
  · rw [hstack]
    exact h.covers.push hlog

/-- **A round of a flush.** The lowest layer sinks into the SSTables, and its file goes. -/
theorem Durable.round (h : Durable cfg F toZset t logs st) (henabled : cfg.enableWal = true)
    (hle : env.now ≤ t) (hsafe : SafeRound cfg env st) {goOn : Bool}
    (hround : flushOldest cfg env st = some (st', goOn)) :
    ∃ logs', Durable cfg F toZset t logs' st' := by
  have hcounted := h.sound.inv.counted
  rcases flushOldest_cases hcounted hround with
    ⟨rfl, -⟩ | ⟨name, imm, rest, hlist, -, -, himm, hmem, hfile, hmerged⟩
  · exact ⟨logs, h⟩
  have hget : st.immutableMemtables[name]? = some imm :=
    Std.ExtTreeMap.mem_toList_iff_getElem?_eq_some.1 (by rw [hlist]; exact List.mem_cons_self)
  have hrest : st'.immutableMemtables.toList = rest := by
    rw [himm, OrderedMap.toList_erase_head _ hlist]
  have hstack : st.stack = st'.stack ++ [(name, imm.get)] := by
    simp only [stack, hlist, hrest, hmem, hfile, List.reverse_cons, List.map_append, List.map_cons,
      List.map_nil, List.cons_append]
  have hnames : ∀ layer ∈ st'.stack, layer.1 ≠ name := by
    have hsorted := stack_sorted h.sound.inv
    rw [hstack, List.pairwise_append] at hsorted
    exact fun layer hl => (name_ne_of_lt (hsorted.2.2 layer hl _ List.mem_cons_self)).symm
  -- the file of a memtable without entries stays, but it has no record
  have hcontent : ∀ name', st'.wal.content name' =
      if name' = name then [] else st.wal.content name' := by
    intro name'
    rcases hmerged with ⟨hsize, hwal, -⟩ | ⟨-, hwal, -⟩
    · split
      · next hname => rw [hname, hwal, h.content, h.bare name imm hget hsize, List.flatMap_nil]
      · rw [hwal]
    · rw [if_pos henabled] at hwal
      rw [hwal, Wal.content, Wal.content, Wal.clear, Std.ExtTreeMap.getElem?_erase]
      by_cases hname : compare name name' = .eq
      · obtain rfl := Std.LawfulEqCmp.compare_eq_iff_eq.1 hname
        rw [if_pos hname, if_pos rfl]
        rfl
      · have hne : name' ≠ name := by
          rintro rfl
          exact hname Std.ReflCmp.compare_self
        rw [if_neg hname, if_neg hne]
  have hkeep : ∀ (n : Bytes) (i : MemTable), st'.immutableMemtables[n]? = some i →
      st.immutableMemtables[n]? = some i := by
    intro n i hn
    rw [himm, Std.ExtTreeMap.getElem?_erase] at hn
    split at hn
    · cases hn
    · exact hn
  refine ⟨Function.update logs name [], ?_, ?_, fun n => ?_, fun n r hr => ?_, fun n hn => ?_,
    fun n i hn hsize => ?_, ⟨hfile ▸ h.named.1, ?_⟩, ?_⟩
  · exact ⟨inv_of_flushOldest h.sound.inv hround, wellFormed_of_round hcounted h.sound.sstables hround⟩
  · apply sstables_of_round _ _ hcounted h.stored hround
    · exact fun entries mgr hmgr => SSTableManager.stored_createFromEntries hmgr entries
    · exact fun mgr r hmgr hmerge => SSTableManager.stored_mergeSstables _ mgr 0 r hmgr hmerge
  · rw [hcontent, Function.update_apply]
    split
    · rfl
    · exact h.content n
  · rw [Function.update_apply] at hr
    split at hr
    · cases hr
    · exact h.readable n r hr
  · rw [Function.update_apply] at hn
    split at hn
    · exact absurd rfl hn
    · next hne =>
        obtain ⟨layer, hl, hlayer⟩ := h.owned n hn
        rw [hstack, List.mem_append, List.mem_singleton] at hl
        rcases hl with hl | rfl
        · exact ⟨layer, hl, hlayer⟩
        · exact absurd hlayer.symm hne
  · rw [Function.update_apply]
    split
    · rfl
    · exact h.bare n i (hkeep n i hn) hsize
  · rw [Function.update_apply]
    split
    · rfl
    · exact h.named.2
  · have hcovers := h.covers
    rw [hstack] at hcovers
    have hsame : SameLive (EValue.isLive t) (overlay imm.get st.sstableManager.get)
        st'.sstableManager.get := by
      intro key
      have hlower := lower_of_round hcounted h.sound.sstables hsafe hround hlist key
      rw [newest_cons, ← SSTableManager.get_eq_newest, ← SSTableManager.get_eq_newest] at hlower
      rw [overlay, ← filter_isLive_filter hle, ← hlower, filter_isLive_filter hle]
    have hsink := hcovers.sink (readsLive_redo F toZset t) hsame
    exact hsink.congr_logs fun layer hl => Function.update_of_ne (hnames layer hl) _ _

/-- **A flush.** -/
theorem Durable.flush (h : Durable cfg F toZset t logs st) (henabled : cfg.enableWal = true)
    (hle : env.now ≤ t) (hsafe : FlushSafe cfg env st)
    (hrun : flushMemtableToSstable cfg env st = some st') :
    ∃ logs', Durable cfg F toZset t logs' st' := by
  rw [flushMemtableToSstable] at hrun
  rw [FlushSafe] at hsafe
  generalize st.immutableMemtables.size + 1 = rounds at hrun hsafe
  induction rounds generalizing st logs with
  | zero =>
      obtain rfl := Option.some.inj hrun
      exact ⟨logs, h⟩
  | succ rounds ih =>
      obtain ⟨⟨mid, goOn⟩, hround, hrun⟩ := Option.bind_eq_some_iff.1 hrun
      obtain ⟨logs', hmid⟩ := h.round henabled hle hsafe.1 hround
      cases goOn with
      | true => exact ih hmid hrun (hsafe.2 (mid, true) hround rfl)
      | false =>
          obtain rfl := Option.some.inj hrun
          exact ⟨logs', hmid⟩

end Durability

section Commands

/-- What a request needs to survive a crash with a restart at the second `t`. The records that it
logs are within the limits of the recovery, its callback does not throw on the memtable's entry,
what it reads is alive at `t` if it is alive now (`Action.Safe`), a put that it makes does not find
the memtable full, and a rotation that it makes takes a new name. -/
structure Survives (cfg : StorageConfig) (env : Env) (t : Nat) (st : Storage) (q : Request) :
    Prop where
  readable : ∀ e ∈ q.logged env.now, e.1.Readable
  accepts : ∀ e ∈ q.logged env.now, ∀ v, st.memtable.get e.1.key = some v → e.2.Accepts env.now v
  safe : ∀ e ∈ q.logged env.now, e.2.Safe env.now t (st.newestOf e.1.key)
  room : ∀ e ∈ q.logged env.now,
    e.2.Puts env.now (st.memtable.get e.1.key) (st.newestOf e.1.key) → ¬ st.Full env
  fresh : ∀ e ∈ q.logged env.now, ∀ v, st.Fills env e.1.key v → FreshName cfg env st

variable {cfg : StorageConfig} {env : Env} {F : FloatOps} {toZset : Decoder UInt8 ZSet} {t : Nat}
  {logs : Bytes → List WalRecord} {st st' : Storage} {r : WalRecord} {a : Action}

/-- The store after its log has taken a record. -/
def withRecord (st : Storage) (r : WalRecord) : Storage := { st with wal := (st.wal.write r).2 }

theorem newestOf_withRecord (st : Storage) (r : WalRecord) :
    (st.withRecord r).newestOf = st.newestOf := by
  funext key
  rw [newestOf_eq, newestOf_eq]
  rfl

theorem logRecord_eq (henabled : cfg.enableWal = true) (type : OperationType) (key payload : Bytes)
    (st : Storage) :
    logRecord cfg false type key payload st = st.withRecord ⟨type.code, key, payload⟩ := by
  simp only [logRecord, henabled, Bool.not_false, Bool.and_self, ↓reduceIte, withRecord,
    Wal.appendLog_eq_write]

/-- A record and the write that it repeats, with the rotation that may follow. -/
theorem Durable.written (h : Durable cfg F toZset t logs st) (henabled : cfg.enableWal = true)
    (hle : env.now ≤ t) (hreadable : r.Readable)
    (hdecode : Repeats F toZset r a env.now (st.newestOf r.key))
    (haccepts : ∀ v, st.memtable.get r.key = some v → a.Accepts env.now v)
    (hsafe : a.Safe env.now t (st.newestOf r.key))
    (hfresh : ∀ v, st.Fills env r.key v → FreshName cfg env st) {m : MemTable}
    (hm : Wrote st.memtable r.key
      (a.liveWrite env.now (st.memtable.get r.key) (newest st.olderLayers r.key)) m)
    (hstores : Stores cfg env (st.withRecord r) r.key m st') :
    ∃ logs', Durable cfg F toZset t logs' st' := by
  have hput := h.logged henabled hle hreadable hdecode haccepts hsafe hm
  rcases hstores with rfl | ⟨⟨v, hfills, rfl⟩, rfl⟩
  · exact ⟨_, hput⟩
  · -- the memtable that is rotated has the entry of the key
    refine ⟨_, hput.rotate henabled (hfresh v hfills) fun hsize => ?_⟩
    have hnone := MemTable.get_eq_none_of_size hm.normal.counted hsize r.key
    have hsome : (st.memtable.insertNode r.key v).get r.key = some v := by
      rw [MemTable.get_insertNode h.sound.inv.memtable, if_pos rfl]
    cases hnone.symm.trans hsome

/-- The record of an operation and what the operation does. -/
theorem Durable.process {ρ : Type} (h : Durable cfg F toZset t logs st)
    (henabled : cfg.enableWal = true) (hle : env.now ≤ t) (op : ValueOp ρ) (key : Bytes)
    (hdecode : Repeats F toZset ⟨op.type.code, key, op.payload⟩ (.call op) env.now (st.newestOf key))
    (hreadable : WalRecord.Readable ⟨op.type.code, key, op.payload⟩)
    (haccepts : ∀ v, st.memtable.get key = some v → op.bare.Accepts env.now v)
    (hsafe : (Action.call op).Safe env.now t (st.newestOf key))
    (hroom : (Action.call op).Puts env.now (st.memtable.get key) (st.newestOf key) → ¬ st.Full env)
    (hfresh : ∀ v, st.Fills env key v → FreshName cfg env st) :
    ∃ logs', Durable cfg F toZset t logs' (process cfg env false op key st).1 := by
  have hregular : op.bare.Regular := regular_recoverAction hdecode.decoded
  generalize hr : (⟨op.type.code, key, op.payload⟩ : WalRecord) = r at *
  obtain rfl : r.key = key := by rw [← hr]
  have hcoherent : ∀ v, (st.withRecord r).memtable.get r.key = some v →
      op.bare.Coherent env.now v := fun v hv => hregular.coherent env.now v (haccepts v hv)
  have hfull : (st.withRecord r).memtable.get r.key = none →
      op.write env.now ((st.withRecord r).newestOf r.key) ≠ none → ¬ (st.withRecord r).Full env := by
    intro hentry hwrite
    rw [newestOf_withRecord, ← ValueOp.write_bare] at hwrite
    exact hroom ⟨hentry, hwrite⟩
  have hnormal : (st.withRecord r).memtable.Normal := h.sound.inv.memtable
  obtain ⟨m, hm, hstores⟩ := handle_entry cfg hnormal op r.key hcoherent hfull
  rw [newestOf_withRecord, newestOf_eq, ← ValueOp.write_bare] at hm
  rw [Storage.process, logRecord_eq henabled, hr]
  exact h.written henabled hle hreadable hdecode haccepts hsafe hfresh hm hstores

/-- A key that is dead at `t` is removed. -/
theorem Durable.removeKey (h : Durable cfg F toZset t logs st) (henabled : cfg.enableWal = true)
    (hle : env.now ≤ t) {key : Bytes} (hreadable : WalRecord.Readable ⟨OperationType.remove.code, key, []⟩)
    (hdead : (st.newestOf key).filter (EValue.isLive t) = none) :
    (∃ logs', Durable cfg F toZset t logs' (removeKey cfg st key).2) ∧
      ∀ k, (st.newestOf k).filter (EValue.isLive t) = none →
        ((Storage.removeKey cfg st key).2.newestOf k).filter (EValue.isLive t) = none := by
  have hmarked : (st.marked key).isLive t = false := by
    simp only [marked, EValue.isLive, EValue.isDeleted, Bool.not_true, Bool.false_and]
  have hstate : (Storage.removeKey cfg st key).2 =
      { st with
        wal := (st.wal.write ⟨OperationType.remove.code, key, []⟩).2
        memtable := st.memtable.insertNode key (st.marked key) } := by
    simp only [removeKey_eq h.sound.inv, henabled, ↓reduceIte, Wal.appendLog_eq_write]
  constructor
  · rw [hstate]
    have hrepeats : Repeats F toZset ⟨OperationType.remove.code, key, []⟩ .remove env.now
        (st.newestOf key) := ⟨rfl, fun _ => ⟨.remove, rfl, Or.inl rfl⟩⟩
    refine ⟨_, h.logged henabled hle hreadable hrepeats (fun _ _ => trivial) hdead ?_⟩
    exact wrote_insertNode h.sound.inv.memtable key (st.marked key)
  · intro k hk
    rw [(removeKey_spec h.sound.inv key).2.2, Function.update_apply]
    split
    · exact filter_some_of_dead hmarked
    · exact hk

/-- Keys that are dead at `t` are removed one after the other. -/
theorem Durable.remove (keys : List Bytes) (hle : env.now ≤ t) (henabled : cfg.enableWal = true)
    (hreadable : ∀ key ∈ keys, WalRecord.Readable ⟨OperationType.remove.code, key, []⟩) (n : Nat)
    (h : Durable cfg F toZset t logs st)
    (hdead : ∀ key ∈ keys, (st.newestOf key).filter (EValue.isLive t) = none) :
    ∃ logs', Durable cfg F toZset t logs' (keys.foldl (fun (acc : Nat × Storage) key =>
      ((if (Storage.removeKey cfg acc.2 key).1 then acc.1 + 1 else acc.1),
        (Storage.removeKey cfg acc.2 key).2)) (n, st)).2 := by
  induction keys generalizing n st logs with
  | nil => exact ⟨logs, h⟩
  | cons key rest ih =>
      obtain ⟨⟨logs', hnext⟩, hkeeps⟩ :=
        h.removeKey henabled hle (hreadable key List.mem_cons_self) (hdead key List.mem_cons_self)
      rw [List.foldl_cons]
      exact ih (fun k hk => hreadable k (List.mem_cons_of_mem _ hk)) _ hnext
        fun k hk => hkeeps k (hdead k (List.mem_cons_of_mem _ hk))

/-- **A command.** A request that survives, with records that the recovery understands, keeps the
store durable. -/
theorem Durable.perform (h : Durable cfg F toZset t logs st) (henabled : cfg.enableWal = true)
    (hle : env.now ≤ t) {q : Request}
    (hdecode : ∀ e ∈ q.logged env.now,
      Repeats F toZset e.1 e.2 env.now (st.newestOf e.1.key))
    (hq : Survives cfg env t st q) :
    ∃ logs', Durable cfg F toZset t logs' (perform cfg env st q).1 := by
  obtain ⟨hreadable, haccepts, hsafe, hroom, hfresh⟩ := hq
  cases q with
  | update op key =>
      have hmem : (⟨op.type.code, key, op.payload⟩, .call op) ∈
          (Request.update op key).logged env.now := List.mem_cons_self
      rw [perform_update]
      exact h.process henabled hle op key (hdecode _ hmem) (hreadable _ hmem) (haccepts _ hmem)
        (hsafe _ hmem) (hroom _ hmem) (hfresh _ hmem)
  | set key value ttl =>
      let v : EValue := { value := .string value, expireTime := (expiryAt env.now ttl).toUInt32 }
      let r : WalRecord := ⟨OperationType.set.code, key, serialize (fun _ => []) v⟩
      have hmem : (r, Action.set v) ∈ (Request.set key value ttl).logged env.now :=
        List.mem_cons_self
      have hexpiry : (if ttl = 0 then 0 else (UInt64.ofNat env.now + ttl).toUInt32) =
          (expiryAt env.now ttl).toUInt32 := by
        rw [expiryAt]
        split <;> rfl
      have hstate : (Storage.perform cfg env st (.set key value ttl)).1 =
          (writeMemtable cfg env (st.withRecord r) key v).1 := by
        simp only [Storage.perform, Storage.set, hexpiry, logRecord_eq henabled]
        split
        · next heq =>
            split at heq
            · next heq' =>
                rw [← (Prod.mk.inj heq).1, heq']
            · cases (Prod.mk.inj heq).2
        · next heq =>
            split at heq
            · cases (Prod.mk.inj heq).2
            · next heq' => rw [← (Prod.mk.inj heq).1, heq']
      have hnormal : (st.withRecord r).memtable.Normal := h.sound.inv.memtable
      obtain ⟨m, hm, hstores⟩ := writeMemtable_entry cfg hnormal key v (hroom _ hmem trivial)
      rw [hstate]
      exact h.written henabled hle (hreadable _ hmem) (hdecode _ hmem) (haccepts _ hmem)
        (hsafe _ hmem) (hfresh _ hmem) hm hstores
  | remove keys =>
      have hlogged : ∀ key ∈ keys, (⟨OperationType.remove.code, key, []⟩, Action.remove) ∈
          (Request.remove keys).logged env.now := fun key hk => List.mem_map_of_mem hk
      by_cases hkeys : keys = []
      · subst hkeys
        exact ⟨logs, h⟩
      · have hstate : (Storage.perform cfg env st (.remove keys)).1 =
            (keys.foldl (fun (acc : Nat × Storage) key =>
              ((if (Storage.removeKey cfg acc.2 key).1 then acc.1 + 1 else acc.1),
                (Storage.removeKey cfg acc.2 key).2)) (0, st)).2 := by
          simp only [Storage.perform, Storage.remove, hkeys, ↓reduceIte]
        rw [hstate]
        exact Durable.remove keys hle henabled (fun key hk => hreadable _ (hlogged key hk)) 0 h
          fun key hk => hsafe _ (hlogged key hk)
  | expire key aliveTime =>
      let r : WalRecord :=
        ⟨OperationType.expire.code, key, decimal (expiryAt env.now aliveTime).toNat⟩
      have hmem : (r, Action.expire (expiryAt env.now aliveTime)) ∈
          (Request.expire key aliveTime).logged env.now := List.mem_cons_self
      have hstate : (Storage.perform cfg env st (.expire key aliveTime)).1 =
          (setKeyExpire cfg env (st.withRecord r) key (expiryAt env.now aliveTime)).1 := by
        simp only [Storage.perform, setExpire_eq, logRecord_eq henabled]
        split
        · next heq => rw [heq]
        · next heq => rw [heq]
      have hfull : (st.withRecord r).memtable.get key = none →
          Action.write env.now (.expire (expiryAt env.now aliveTime))
            ((st.withRecord r).newestOf key) ≠ none → ¬ (st.withRecord r).Full env := by
        intro hentry hwrite
        rw [newestOf_withRecord] at hwrite
        exact hroom _ hmem ⟨hentry, hwrite⟩
      have hnormal : (st.withRecord r).memtable.Normal := h.sound.inv.memtable
      obtain ⟨m, hm, hset⟩ := setKeyExpire_entry cfg hnormal (expiryAt env.now aliveTime) hfull
      rw [newestOf_withRecord, newestOf_eq] at hm
      rw [hstate]
      exact h.written henabled hle (hreadable _ hmem) (hdecode _ hmem) (haccepts _ hmem)
        (hsafe _ hmem) (hfresh _ hmem) hm (Or.inl hset)
  | range startKey endKey => exact ⟨logs, h⟩
  | reject errorMsg => exact ⟨logs, h⟩

/-- A store that has been opened in an empty directory is durable: nothing is logged. -/
theorem durable_openEmpty (cfg : StorageConfig) (start : Env) (F : FloatOps)
    (toZset : Decoder UInt8 ZSet) (t : Nat) :
    Durable cfg F toZset t (fun _ => []) (openEmpty cfg start) := by
  have hsound := sound_openEmpty cfg start
  have hcontent : ∀ name, (firstWal cfg start).content name = [] := by
    intro name
    rw [firstWal]
    split
    · rw [Wal.content, Wal.openWalFile, if_neg Std.ExtTreeMap.not_mem_empty,
        Std.ExtTreeMap.getElem?_insert]
      split
      · rfl
      · rw [Std.ExtTreeMap.getElem?_empty]
        rfl
    · rw [Wal.content, Std.ExtTreeMap.getElem?_empty]
      rfl
  have hname := ne_nil_of_later (nil_lt_newFilename cfg start)
  have hfirst : (firstMemtable cfg).get = fun _ => none := funext fun _ => get_firstMemtable cfg
  have hnew : (createNewMemtable cfg).get = fun _ => none := funext fun _ => MemTable.get_new _
  have hbottom : Covers (redo F toZset t) (EValue.isLive t) valueIndex (fun _ : Bytes => [])
      (fun _ _ => none) SSTableManager.empty.get [] := trivial
  -- a first memtable that is pushed down at once has the name that no file has
  rcases openEmpty_cases cfg start with hopen | hopen
  · have hlist : ((∅ : StrMap MemTable).insert [] (firstMemtable cfg)).toList =
        [([], firstMemtable cfg)] := by
      have habove : ∀ e ∈ (∅ : StrMap MemTable).toList, compare e.1 [] = .lt := by
        intro e he
        rw [toList_empty] at he
        cases he
      rw [OrderedMap.toList_insert_above _ _ _ habove, toList_empty]
      rfl
    rw [hopen] at hsound ⊢
    refine ⟨hsound, SSTableManager.stored_empty, hcontent, fun _ _ h => ?_, fun _ h => absurd rfl h,
      fun _ _ _ _ => rfl, ⟨hname, rfl⟩, ?_⟩
    · cases h
    · simp only [stack, hlist, List.reverse_singleton, List.map_singleton, hfirst, hnew]
      exact (hbottom.push rfl).push rfl
  · rw [hopen] at hsound ⊢
    refine ⟨hsound, SSTableManager.stored_empty, hcontent, fun _ _ h => ?_, fun _ h => absurd rfl h,
      fun _ _ _ _ => rfl, ⟨hname, rfl⟩, ?_⟩
    · cases h
    · simp only [stack, toList_empty, List.reverse_nil, List.map_nil, hfirst]
      exact hbottom.push rfl

end Commands

section Lives

/-- What happens to a store between its start and a crash: a command, or maintenance. -/
inductive LifeStep where
  | execute (form : Overload) (readOnly : Bool) (type : WriteCommand) (args : List Bytes)
  | maintain (m : Maintenance)

variable (cfg : StorageConfig) (F : FloatOps)

def lifeStep (env : Env) (st : Storage) : LifeStep → Option Storage
  | .execute form readOnly type args =>
      some (executeOf cfg env (F.finding (env.unsetScore 0)) form readOnly type args st).1
  | .maintain m => Storage.maintain cfg env st m

def life : List (Env × LifeStep) → Storage → Option Storage
  | [], st => some st
  | (env, s) :: rest, st => do
      let st' ← lifeStep cfg F env st s
      life rest st'

/-- What a step needs to survive a crash with a restart at the second `t`. A command survives as
its request does, with records that the recovery decodes, and a removal by rank finds its ranks. A
rotation takes a new file name, and the memtable has entries when its file has records. -/
def StepSurvives (env : Env) (t : Nat) (st : Storage) : LifeStep → Prop
  | .execute form readOnly type args => readOnly = false →
      RanksThere type args (st.live env.now) ∧ Survives cfg env t st (requestOf F form type args) ∧
        ∀ operation, type = .logged operation → Decodable form operation args
  | .maintain .rotateMemtable => FreshName cfg env st ∧
      (st.memtable.size = 0 → st.wal.content st.currentWalFilename = [])
  | .maintain .flushMemtableToSstable => FlushSafe cfg env st

/-- Every step is before the restart, and survives. -/
def LifeSurvives (t : Nat) : List (Env × LifeStep) → Storage → Prop
  | [], _ => True
  | (env, s) :: rest, st => env.now ≤ t ∧ StepSurvives cfg F env t st s ∧
      ∀ st' ∈ lifeStep cfg F env st s, LifeSurvives t rest st'

/-- The log files that a crash leaves: those of the store, the current one perhaps with the first
bytes of a record that was not written to its end. -/
def CrashFiles (st : Storage) (files : StrMap Bytes) : Prop :=
  files = st.wal.files ∨ ∃ (r : WalRecord) (n : Nat), r.Readable ∧ n < (writeRecord r).length ∧
    files = st.wal.files.insert st.currentWalFilename
      (st.wal.content st.currentWalFilename ++ (writeRecord r).take n)

variable {cfg F} {toZset : Decoder UInt8 ZSet} {env : Env} {t : Nat} {st st' : Storage}
  {logs : Bytes → List WalRecord}

theorem readRecords_cut {r : WalRecord} (hr : r.Readable) {n : Nat}
    (hn : n < (writeRecord r).length) : readRecords ((writeRecord r).take n) = [] := by
  have hcut := @readRecords_take [r]
    (fun r' hr' => by rw [List.mem_singleton.1 hr']; exact hr) n
  rw [List.flatMap_singleton, complete, if_neg (Nat.not_le_of_lt hn)] at hcut
  exact hcut

theorem Durable.readings_crash (h : Durable cfg F toZset t logs st) {files : StrMap Bytes}
    (hfiles : CrashFiles st files) : Readings logs files := by
  rcases hfiles with rfl | ⟨r, n, hr, hn, rfl⟩
  · exact h.readings
  · exact h.readings_torn (readRecords_cut hr hn)

/-- A request that is not logged changes nothing. -/
theorem logged_of_range {form : Overload} {args : List Bytes} (now : Nat) :
    (requestOf F form .range args).logged now = [] := by
  have hrequest : requestOf F form .range args = request F .range args := by
    cases form <;> rfl
  rw [hrequest]
  rcases args with _ | ⟨startKey, _ | ⟨endKey, _ | ⟨more, rest⟩⟩⟩ <;> rfl

/-- Requests that update a key alike log the same records, for actions that are alike. -/
theorem logged_alike {q q' : Request} {now : Nat} {versions : Bytes → Option EValue}
    (h : q.AlikeOn now versions q') {e : WalRecord × Action} (he : e ∈ q.logged now) :
    ∃ a, (e.1, a) ∈ q'.logged now ∧ Action.AlikeOn now (versions e.1.key) e.2 a := by
  rcases h with rfl | ⟨op, op', key, rfl, rfl, hop⟩
  · exact ⟨e.2, he, Or.inl rfl⟩
  · obtain rfl := List.mem_singleton.1 he
    refine ⟨.call op', ?_, Or.inr ⟨op.bare, op'.bare, rfl, rfl, hop.bare⟩⟩
    rw [Request.logged, ← hop.type, ← hop.payload]
    exact List.mem_singleton.2 rfl

/-- The records of a command whose ranks are there repeat it. -/
theorem repeats_logged {form : Overload} {operation : OperationType} {args : List Bytes}
    (hranks : RanksThere (.logged operation) args (st.live env.now))
    (hdecodable : Decodable form operation args) {e : WalRecord × Action}
    (he : e ∈ (requestOf F form (.logged operation) args).logged env.now)
    (hpayload : e.1.payload.length ≤ maxPayloadLength) :
    Repeats F toZset e.1 e.2 env.now (st.newestOf e.1.key) := by
  refine ⟨recoverAction_logged hdecodable he hpayload, fun u => ?_⟩
  obtain ⟨a, ha, halike⟩ := logged_alike (alike_requestOf F u form hranks) he
  exact ⟨a, recoverAction_logged hdecodable ha hpayload, halike⟩

/-- **One step** that survives keeps the store durable. -/
theorem Durable.step (h : Durable cfg F toZset t logs st) (henabled : cfg.enableWal = true)
    (hle : env.now ≤ t) {s : LifeStep} (hs : StepSurvives cfg F env t st s)
    (hrun : lifeStep cfg F env st s = some st') : ∃ logs', Durable cfg F toZset t logs' st' := by
  cases s with
  | execute form readOnly type args =>
      obtain rfl := Option.some.inj hrun
      cases readOnly with
      | true => exact ⟨logs, h⟩
      | false =>
          obtain ⟨hranks, hq, hdecodable⟩ := hs rfl
          -- what the memory holds is not read, so any other unset score does as well
          have hperform : Storage.perform cfg env st (requestOf F form type args) =
              Storage.perform cfg env st (requestOf (F.finding (env.unsetScore 0)) form type args) :=
            perform_alike h.sound.inv.memtable (alike_requestOf F _ form hranks)
          rw [executeOf, if_neg Bool.false_ne_true, ← hperform]
          refine h.perform henabled hle (fun e he => ?_) hq
          cases type with
          | logged operation =>
              exact repeats_logged hranks (hdecodable operation rfl) he (hq.readable e he).2
          | range =>
              rw [logged_of_range] at he
              cases he
  | maintain m =>
      cases m with
      | rotateMemtable =>
          obtain rfl := Option.some.inj hrun
          refine ⟨logs, h.rotate henabled hs.1 fun hsize => ?_⟩
          have hcontent := hs.2 hsize
          rw [h.content, List.flatMap_eq_nil_iff] at hcontent
          exact List.eq_nil_iff_forall_not_mem.2 fun r hr => writeRecord_ne_nil r (hcontent r hr)
      | flushMemtableToSstable => exact h.flush henabled hle hs hrun

/-- A run of steps that survive keeps the store durable. -/
theorem Durable.life (henabled : cfg.enableWal = true) (run : List (Env × LifeStep))
    (h : Durable cfg F toZset t logs st) (hsurvives : LifeSurvives cfg F t run st)
    (hrun : Storage.life cfg F run st = some st') : ∃ logs', Durable cfg F toZset t logs' st' := by
  induction run generalizing st logs with
  | nil =>
      obtain rfl := Option.some.inj hrun
      exact ⟨logs, h⟩
  | cons e rest ih =>
      obtain ⟨env, s⟩ := e
      obtain ⟨mid, hmid, hrest⟩ := Option.bind_eq_some_iff.1 hrun
      obtain ⟨hle, hs, hnext⟩ := hsurvives
      obtain ⟨logs', hdurable⟩ := h.step henabled hle hs hmid
      exact ih hdurable (hnext mid hmid) hrest

/-- The restart of a durable store shows what the store shows. -/
theorem Durable.restart (h : Durable cfg F toZset env.now logs st) (henabled : cfg.enableWal = true)
    {files : StrMap Bytes} (hfiles : CrashFiles st files) :
    ∃ again, Storage.restart cfg env F toZset (SSTableManager.loadAll st.sstableManager.files) files =
        some again ∧ ∀ key, again.live env.now key = st.live env.now key := by
  have hbase : SameLive (EValue.isLive env.now) st.sstableManager.get
      (SSTableManager.loadAll st.sstableManager.files).get := by
    intro key
    exact (congrFun (SSTableManager.visibleAt_loadAll_files h.stored env.now) key).symm
  have hnamed : ∀ layer ∈ st.stack, logs layer.1 ≠ [] → layer.1 ≠ [] := by
    intro layer _ hlog hnil
    rw [hnil] at hlog
    exact hlog h.named.2
  obtain ⟨again, hrestart, hlive⟩ := restart_spec henabled hbase h.covers
    (stack_sorted h.sound.inv) hnamed (h.recoverCalls (h.readings_crash hfiles))
  refine ⟨again, hrestart, fun key => ?_⟩
  rw [hlive, newestOf_stack]
  rfl

/-- A key with an expiry in one memtable, and a list in the next, of which the first element is
taken. -/
def crashedRun : List (Env × LifeStep) :=
  [(second 1, .execute .stringView false (.logged .set) [[107], [118], [49, 48]]),
    (second 2, .maintain .rotateMemtable),
    (second 2, .execute .string false (.logged .rPush) [[108], [97], [98]]),
    (second 2, .execute .string false (.logged .lPop) [[108]])]

/-- Without memory in use a command survives when its record is read back, and its action works on
the entry and is safe. -/
theorem survives_of_one {n : Nat} {q : Request} {e : WalRecord × Action}
    (hlogged : q.logged (tick n).now = [e]) (hreadable : e.1.Readable)
    (haccepts : ∀ v, st.memtable.get e.1.key = some v → e.2.Accepts (tick n).now v)
    (hsafe : e.2.Safe (tick n).now t (st.newestOf e.1.key)) : Survives cfg (tick n) t st q := by
  have hone : ∀ e' ∈ q.logged (tick n).now, e' = e := by
    intro e' he
    rw [hlogged] at he
    exact List.mem_singleton.1 he
  refine ⟨fun e' he => ?_, fun e' he v hv => ?_, fun e' he => ?_, fun e' _ _ hfull => ?_,
    fun e' _ v hfills => ?_⟩
  · rw [hone e' he]
    exact hreadable
  · rw [hone e' he] at hv ⊢
    exact haccepts v hv
  · rw [hone e' he]
    exact hsafe
  · rw [Full, shouldFlush_of_no_usage] at hfull
    cases hfull
  · rw [Fills, shouldFlush_of_no_usage] at hfills
    cases hfills

/-- A command on a new key. -/
theorem survives_of_new {n : Nat} {q : Request} {e : WalRecord × Action}
    (hlogged : q.logged (tick n).now = [e]) (hreadable : e.1.Readable)
    (hnew : st.newestOf e.1.key = none) (hsafe : e.2.Safe (tick n).now t none) :
    Survives cfg (tick n) t st q := by
  refine survives_of_one hlogged hreadable (fun v hv => ?_) (hnew ▸ hsafe)
  rw [newestOf_eq, hv] at hnew
  cases hnew

/-- The store before the first element is taken. -/
def pushedStore : Storage :=
  (executeOf roomyConfig (second 2) (noFloats.finding 0) .string false (.logged .rPush)
    [[108], [97], [98]] (rotateMemtable roomyConfig (second 2)
      (executeOf roomyConfig (second 1) (noFloats.finding 0) .stringView false (.logged .set)
        [[107], [118], [49, 48]] (openEmpty roomyConfig (tick 1))).1)).1

theorem survives_crashedRun :
    LifeSurvives roomyConfig noFloats 3 crashedRun (openEmpty roomyConfig (tick 1)) := by
  have hset : Decodable .stringView .set [[107], [118], [49, 48]] := by
    refine ⟨fun h => ?_, fun _ h => ?_⟩
    · rcases h with h | h <;> cases h
    · cases h
  have hpush : Decodable .string .rPush [[108], [97], [98]] :=
    ⟨fun _ => rfl, fun _ h => by cases h⟩
  have hpop : Decodable .string .lPop [[108]] :=
    ⟨fun h => absurd h (by decide), fun _ h => by cases h⟩
  refine ⟨by decide, fun _ => ⟨(fun h => by cases h), ?_, fun operation h => ?_⟩, fun st₁ hst₁ => ?_⟩
  · exact survives_of_new rfl ⟨by decide, by decide⟩ (newestOf_openEmpty _ _ _) trivial
  · obtain rfl := WriteCommand.logged.inj h
    exact hset
  · obtain rfl := Option.some.inj hst₁
    refine ⟨by decide, ⟨by decide, by decide⟩, fun st₂ hst₂ => ?_⟩
    obtain rfl := Option.some.inj hst₂
    refine ⟨by decide, fun _ => ⟨(fun h => by cases h), ?_, fun operation h => ?_⟩, fun st₃ hst₃ => ?_⟩
    · exact survives_of_new rfl ⟨by decide, by decide⟩ (by decide) (Or.inl rfl)
    · obtain rfl := WriteCommand.logged.inj h
      exact hpush
    · obtain rfl := Option.some.inj hst₃
      refine ⟨by decide, fun _ => ⟨(fun h => by cases h), ?_, fun operation h => ?_⟩,
        fun _ _ => trivial⟩
      · -- a removal is safe whatever becomes of its key
        refine survives_of_one rfl ⟨by decide, by decide⟩ (fun v hv => ?_)
          (safe_of_removes (@Calls.lPop noFloats [108]) (by decide) List.mem_cons_self 3 _)
        have hlist : pushedStore.memtable.get [108] = some { value := .deque [[97], [98]] } := by
          decide
        obtain rfl := Option.some.inj (hlist.symm.trans hv)
        exact ⟨_, rfl⟩
      · obtain rfl := WriteCommand.logged.inj h
        exact hpop

end Lives

end Storage

end EyaKV.Store
