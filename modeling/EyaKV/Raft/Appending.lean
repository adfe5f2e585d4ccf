import EyaKV.Raft.Applying
import Mathlib.Data.List.TakeWhile

/-!
# What a message does to a log

The loop of `handle_append_entries` passes over the entries that the log has already, with their
terms, and appends the others, after a truncation where one of them conflicts. `append` gives an
entry the next index of the log, whatever index it came with, and it may truncate the log from the
front when the log has become too long.

So the entries of a message end up at their indices, and nothing else changes, exactly when the
message does not begin before the log does, the entries that are passed over are those of the
message in all parts, a conflict can be truncated, and no size that the log grows to starts a
truncation from the front (`takes_iff`).
-/

set_option autoImplicit false

namespace EyaKV.Raft

/-- A log that has grown to this size is left as it is: it is not over the threshold, or there
is nothing to remove, or more than there is. -/
def RaftLogConfig.Quiet (cfg : RaftLogConfig) (size : Nat) : Prop :=
  size ≤ cfg.logSizeThreshold ∨ cfg.truncateCount size = 0 ∨
    (cfg.relock = true ∧ size < cfg.truncateCount size)

instance (cfg : RaftLogConfig) : DecidablePred cfg.Quiet := fun size =>
  inferInstanceAs (Decidable (size ≤ _ ∨ _ ∨ _))

/-- A log may grow from one size to another. -/
def RaftLogConfig.QuietTo (cfg : RaftLogConfig) (size size' : Nat) : Prop :=
  ∀ s, size < s → s ≤ size' → cfg.Quiet s

namespace RaftLogArray

variable {cfg : RaftLogConfig} {log : RaftLogArray}

theorem get_of_le {index : Nat} (h : log.baseIndex ≤ index) :
    log.get index = log.entries[index - log.baseIndex]? := if_neg (Nat.not_lt_of_le h)

theorem get_of_lt {index : Nat} (h : index < log.baseIndex) : log.get index = none := if_pos h

/-- What is read is in memory. -/
theorem lt_of_get {index : Nat} {e : LogEntry} (h : log.get index = some e) :
    log.baseIndex ≤ index ∧ index < log.baseIndex + log.entries.length := by
  have hbase : log.baseIndex ≤ index := by
    by_contra hlt
    rw [get_of_lt (Nat.lt_of_not_le hlt)] at h
    cases h
  rw [get_of_le hbase] at h
  have hlt := (List.getElem?_eq_some_iff.1 h).1
  exact ⟨hbase, by omega⟩

/-- An entry with the next index goes to the end as it is. -/
theorem entries_extend {e : LogEntry} (h : e.index = log.baseIndex + log.entries.length) :
    (log.extend [e]).entries = log.entries ++ [e] := by
  simp only [extend, List.mapIdx_cons, List.mapIdx_nil, Nat.add_zero, ← h]

theorem length_extend (log : RaftLogArray) (entries : List LogEntry) :
    (log.extend entries).entries.length = log.entries.length + entries.length := by
  simp only [extend, List.length_append, List.length_mapIdx]

theorem batchAppend_quiet (e : LogEntry) (h : cfg.Quiet (log.entries.length + 1)) :
    log.batchAppend cfg [e] = (log.extend [e], true) := by
  have hlen : (log.extend [e]).entries.length = log.entries.length + 1 := length_extend log [e]
  rw [batchAppend, if_neg (List.cons_ne_nil e [])]
  simp only [hlen]
  split
  · next hlong =>
      rcases h with hle | hzero | ⟨hrelock, hmore⟩
      · exact absurd hlong.1 (Nat.not_lt_of_le hle)
      · exact absurd hzero (Nat.ne_of_gt hlong.2)
      · rw [truncateBefore, hrelock, hlen, if_neg (by decide), if_pos (by omega)]
  · rfl

/-- Otherwise the call does not return, or the log begins later. -/
theorem batchAppend_loud (e : LogEntry) (h : ¬ cfg.Quiet (log.entries.length + 1)) :
    (log.batchAppend cfg [e]).2 = false ∨
      log.baseIndex < (log.batchAppend cfg [e]).1.baseIndex := by
  have hlen : (log.extend [e]).entries.length = log.entries.length + 1 := length_extend log [e]
  rw [RaftLogConfig.Quiet, not_or, not_or] at h
  obtain ⟨hlong, hcount, hless⟩ := h
  rw [batchAppend, if_neg (List.cons_ne_nil e [])]
  simp only [hlen]
  rw [if_pos ⟨Nat.lt_of_not_le hlong, Nat.pos_of_ne_zero hcount⟩, truncateBefore]
  by_cases hrelock : cfg.relock = true
  · have hle : cfg.truncateCount (log.entries.length + 1) ≤ log.entries.length + 1 := by
      by_contra hlt
      exact hless ⟨hrelock, Nat.lt_of_not_le hlt⟩
    rw [hrelock, hlen, if_neg (by decide), if_neg (by omega)]
    refine .inr ?_
    show log.baseIndex < log.baseIndex + (log.baseIndex + _ - log.baseIndex)
    omega
  · rw [if_pos (by simpa using hrelock)]
    exact .inl rfl

end RaftLogArray

section Loop

variable {cfg : RaftNodeConfig} {log : RaftLogArray}

theorem baseIndex_truncateFrom {log' : RaftLogArray} {index : Nat}
    (h : log.truncateFrom cfg.logConfig index = some log') : log'.baseIndex = log.baseIndex := by
  rw [RaftLogArray.truncateFrom] at h
  split at h
  · exact Option.some.inj h ▸ rfl
  · split at h
    · exact Option.some.inj h ▸ rfl
    · cases h

/-- A log never begins earlier after a message. -/
theorem baseIndex_appendLoop (entries : List LogEntry) :
    ∀ (log : RaftLogArray) (count : Nat),
      log.baseIndex ≤ (Node.appendLoop cfg log count entries).log.baseIndex := by
  induction entries with
  | nil => exact fun log _ => Nat.le_refl _
  | cons e rest ih =>
      intro log count
      -- after an append to a log with this base
      have append {log₁ : RaftLogArray} (h : log₁.baseIndex = log.baseIndex) :
          log.baseIndex ≤ (Node.afterAppend cfg count rest
            (log₁.batchAppend cfg.logConfig [e])).log.baseIndex := by
        have hone := @baseIndex_batchAppend cfg log₁ [e]
        unfold Node.afterAppend
        split
        · next log₂ heq =>
            rw [heq, h] at hone
            exact hone.trans (ih log₂ (count + 1))
        · next log₂ heq =>
            rw [heq, h] at hone
            exact hone
      rw [Node.appendLoop_cons]
      split
      · exact append rfl
      · split
        · exact ih log count
        · split
          · next htrunc => exact append (baseIndex_truncateFrom htrunc)
          · exact Nat.le_refl _

/-- Entries with the indices from the next one on. -/
def Continues (log : RaftLogArray) (entries : List LogEntry) : Prop :=
  ∀ i e, entries[i]? = some e → e.index = log.baseIndex + log.entries.length + i

theorem Continues.head {e : LogEntry} {rest : List LogEntry} (h : Continues log (e :: rest)) :
    e.index = log.baseIndex + log.entries.length := h 0 e rfl

theorem Continues.extend {e : LogEntry} {rest : List LogEntry} (h : Continues log (e :: rest)) :
    Continues (log.extend [e]) rest := by
  intro i x hx
  have hindex := h (i + 1) x hx
  rw [RaftLogArray.entries_extend h.head, List.length_append, List.length_singleton]
  show x.index = log.baseIndex + _ + i
  omega

theorem Continues.get_eq_none {e : LogEntry} {rest : List LogEntry}
    (h : Continues log (e :: rest)) : log.get e.index = none := by
  rw [h.head, RaftLogArray.get_of_le (Nat.le_add_right _ _), Nat.add_sub_cancel_left,
    List.getElem?_length]

/-- The loop over entries that continue the log appends them all, if no size on the way starts
a truncation. -/
theorem appendLoop_quiet (entries : List LogEntry) :
    ∀ (log : RaftLogArray) (count : Nat), Continues log entries →
      cfg.logConfig.QuietTo log.entries.length (log.entries.length + entries.length) →
      (Node.appendLoop cfg log count entries).returned = true ∧
        (Node.appendLoop cfg log count entries).log.baseIndex = log.baseIndex ∧
        (Node.appendLoop cfg log count entries).log.entries = log.entries ++ entries := by
  induction entries with
  | nil => exact fun log _ _ _ => ⟨rfl, rfl, (List.append_nil _).symm⟩
  | cons e rest ih =>
      intro log count hnext hquiet
      rw [List.length_cons] at hquiet
      have hone := @RaftLogArray.batchAppend_quiet cfg.logConfig log e
        (hquiet _ (Nat.lt_succ_self _) (by omega))
      have hentries := RaftLogArray.entries_extend hnext.head
      rw [Node.appendLoop, hnext.get_eq_none]
      simp only [hone]
      obtain ⟨hret, hbase, hlog⟩ := ih (log.extend [e]) (count + 1) hnext.extend fun s hs hle => by
        rw [hentries, List.length_append, List.length_singleton] at hs hle
        exact hquiet s (by omega) (by omega)
      refine ⟨hret, hbase, ?_⟩
      rw [hlog, hentries, List.append_assoc]
      rfl

/-- Otherwise a call of the log does not return, or the log begins later. -/
theorem appendLoop_loud (entries : List LogEntry) :
    ∀ (log : RaftLogArray) (count : Nat), Continues log entries →
      ¬ cfg.logConfig.QuietTo log.entries.length (log.entries.length + entries.length) →
      (Node.appendLoop cfg log count entries).returned = false ∨
        log.baseIndex < (Node.appendLoop cfg log count entries).log.baseIndex := by
  induction entries with
  | nil => exact fun log _ _ h => absurd (fun s hs hle => absurd (hs.trans_le hle) (Nat.lt_irrefl _)) h
  | cons e rest ih =>
      intro log count hnext hloud
      have hentries := RaftLogArray.entries_extend hnext.head
      rw [Node.appendLoop, hnext.get_eq_none]
      simp only
      by_cases hquiet : cfg.logConfig.Quiet (log.entries.length + 1)
      · -- the first entry is appended, and a later one starts the truncation
        rw [RaftLogArray.batchAppend_quiet e hquiet]
        refine ih (log.extend [e]) (count + 1) hnext.extend fun hrest => hloud fun s hs hle => ?_
        rw [hentries, List.length_append, List.length_singleton] at hrest
        rw [List.length_cons] at hle
        rcases Nat.eq_or_lt_of_le (Nat.succ_le_of_lt hs) with rfl | hlt
        · exact hquiet
        · exact hrest s hlt (by omega)
      · rcases RaftLogArray.batchAppend_loud e hquiet with hstop | hlater
        · split
          · next heq =>
              rw [heq] at hstop
              cases hstop
          · exact .inl rfl
        · split
          · next log' heq =>
              rw [heq] at hlater
              exact .inr (hlater.trans_le (baseIndex_appendLoop rest log' (count + 1)))
          · exact .inl rfl

end Loop

section Messages

variable {cfg : RaftNodeConfig} {log : RaftLogArray}

/-- The entries of a message follow the one that it names before them. -/
def Consecutive (prev : Nat) (entries : List LogEntry) : Prop :=
  ∀ i e, entries[i]? = some e → e.index = prev + 1 + i

theorem consecutive_singleton {prev : Nat} {e : LogEntry} (h : e.index = prev + 1) :
    Consecutive prev [e] := by
  intro i x hi
  match i with
  | 0 => exact Option.some.inj hi ▸ h
  | i + 1 => cases hi

/-- Every message of a leader is of this kind. -/
theorem consecutive_sendAppendEntries {n : Node} {conn : Conn} {msg : Node.AppendEntries}
    (h : (n.sendAppendEntries cfg conn).2 = some msg) :
    Consecutive msg.prevLogIndex msg.entries := by
  rw [Node.sendAppendEntries] at h
  split at h
  · cases h
  · obtain rfl := Option.some.inj h
    intro i e hi
    simp only at hi ⊢
    split at hi
    · obtain ⟨hbase, hindex⟩ := RaftLogArray.index_getEntriesFrom hi
      have hpos := n.logArray.base_pos
      omega
    · cases hi

/-- The log has the entry already, as far as `handle_append_entries` looks. -/
def RaftLogArray.Present (log : RaftLogArray) (e : LogEntry) : Bool :=
  match log.get e.index with
  | some x => x.term == e.term
  | none => false

/-- What the claim about a message is: its entries are stored as they are, those before it are
unchanged, and those after it are kept when the message contradicts nothing. -/
structure Took (log log' : RaftLogArray) (prev : Nat) (entries : List LogEntry) : Prop where
  stored : ∀ e ∈ entries, log'.get e.index = some e
  before : ∀ index, index ≤ prev → log'.get index = log.get index
  after : (∀ e ∈ entries, ∀ x, log.get e.index = some x → x.term = e.term) →
    ∀ index x, (∀ e ∈ entries, e.index < index) → log.get index = some x →
      log'.get index = some x

/-- The message does not begin before the log; the entries that the log has are those of the
message; and the first of the others can be put in its place, with no truncation from the front
while they are appended. -/
def Fits (cfg : RaftLogConfig) (log : RaftLogArray) (prev : Nat) (entries : List LogEntry) :
    Prop :=
  entries = [] ∨ log.baseIndex ≤ prev + 1 ∧
    (∀ e ∈ entries.takeWhile log.Present, log.get e.index = some e) ∧
    match entries.dropWhile log.Present with
    | [] => True
    | e :: rest => (log.get e.index ≠ none → cfg.relock = true) ∧
        cfg.QuietTo (e.index - log.baseIndex) (e.index - log.baseIndex + (rest.length + 1))

/-- The loop passes over what is present. -/
theorem appendLoop_present (kept rest : List LogEntry) (count : Nat)
    (h : ∀ e ∈ kept, log.Present e = true) :
    Node.appendLoop cfg log count (kept ++ rest) = Node.appendLoop cfg log count rest := by
  induction kept with
  | nil => rfl
  | cons e kept ih =>
      have he := h e List.mem_cons_self
      rw [List.cons_append, Node.appendLoop]
      rw [RaftLogArray.Present] at he
      split at he
      · next x hget =>
          rw [hget]
          simp only [beq_iff_eq.1 he, if_true]
          exact ih fun x hx => h x (List.mem_cons_of_mem e hx)
      · cases he

/-- The log below the first new entry, and the new ones. -/
theorem appendLoop_fresh {e : LogEntry} {rest : List LogEntry} (count : Nat)
    (hfresh : log.Present e = false) (hbase : log.baseIndex ≤ e.index)
    (hle : e.index ≤ log.baseIndex + log.entries.length)
    (hcons : ∀ i x, (e :: rest)[i]? = some x → x.index = e.index + i) :
    ((log.get e.index ≠ none → cfg.logConfig.relock = true) ∧
        cfg.logConfig.QuietTo (e.index - log.baseIndex)
          (e.index - log.baseIndex + (rest.length + 1)) →
      (Node.appendLoop cfg log count (e :: rest)).returned = true ∧
        (Node.appendLoop cfg log count (e :: rest)).log.baseIndex = log.baseIndex ∧
        (Node.appendLoop cfg log count (e :: rest)).log.entries =
          log.entries.take (e.index - log.baseIndex) ++ e :: rest) ∧
    (¬ ((log.get e.index ≠ none → cfg.logConfig.relock = true) ∧
        cfg.logConfig.QuietTo (e.index - log.baseIndex)
          (e.index - log.baseIndex + (rest.length + 1))) →
      (Node.appendLoop cfg log count (e :: rest)).returned = false ∨
        log.baseIndex < (Node.appendLoop cfg log count (e :: rest)).log.baseIndex) := by
  -- the log that the entries are appended to
  have append (log₁ : RaftLogArray) (hbase₁ : log₁.baseIndex = log.baseIndex)
      (hlog₁ : log₁.entries = log.entries.take (e.index - log.baseIndex)) :
      Continues log₁ (e :: rest) ∧ log₁.entries.length = e.index - log.baseIndex := by
    have hlen : log₁.entries.length = e.index - log.baseIndex := by
      rw [hlog₁, List.length_take]
      omega
    refine ⟨fun i x hx => ?_, hlen⟩
    rw [hcons i x hx, hbase₁, hlen]
    omega
  cases hget : log.get e.index with
  | none =>
      have hnext : log.entries.take (e.index - log.baseIndex) = log.entries := by
        rw [RaftLogArray.get_of_le hbase, List.getElem?_eq_none_iff] at hget
        exact List.take_of_length_le hget
      obtain ⟨hcontinues, hlen⟩ := append log rfl hnext.symm
      rw [hnext, ← hlen]
      refine ⟨fun h => ?_, fun h => ?_⟩
      · exact appendLoop_quiet _ log count hcontinues h.2
      · exact appendLoop_loud _ log count hcontinues fun hquiet =>
          h ⟨fun hne => absurd rfl hne, hquiet⟩
  | some x =>
      have hterm : ¬ x.term = e.term := by
        rw [RaftLogArray.Present, hget] at hfresh
        simpa using hfresh
      obtain ⟨hcontinues, hlen⟩ := append (log.keepBelow e.index) rfl rfl
      have hlt := (RaftLogArray.lt_of_get hget).2
      have htrunc : log.truncateFrom cfg.logConfig e.index =
          if cfg.logConfig.relock then some (log.keepBelow e.index) else none := by
        rw [RaftLogArray.truncateFrom, if_neg (by omega)]
      by_cases hrelock : cfg.logConfig.relock = true
      · -- the loop goes on as on the truncated log, which has no such entry
        have hloop : Node.appendLoop cfg log count (e :: rest) =
            Node.appendLoop cfg (log.keepBelow e.index) count (e :: rest) := by
          rw [Node.appendLoop, Node.appendLoop, hget, hcontinues.get_eq_none]
          simp only [hterm, if_false, htrunc, hrelock, if_true]
        rw [hloop, ← hlen]
        refine ⟨fun h => ?_, fun h => ?_⟩
        · obtain ⟨hret, hbase', hlog⟩ := appendLoop_quiet _ _ count hcontinues h.2
          refine ⟨hret, hbase', hlog.trans ?_⟩
          rw [hlen]
          rfl
        · exact appendLoop_loud _ _ count hcontinues fun hquiet => h ⟨fun _ => hrelock, hquiet⟩
      · have hloop : Node.appendLoop cfg log count (e :: rest) = ⟨log, count, false⟩ := by
          rw [Node.appendLoop, hget]
          simp only [hterm, if_false, htrunc, if_neg hrelock]
        rw [hloop]
        refine ⟨fun h => absurd (h.1 (Option.some_ne_none x)) hrelock, fun _ => .inl rfl⟩

/-- The present entries of a message, the others, and what is known of the first of these. -/
theorem Consecutive.split {prev : Nat} {entries : List LogEntry} (h : Consecutive prev entries)
    (hbase : log.baseIndex ≤ prev + 1) (hprev : prev < log.baseIndex + log.entries.length)
    {e : LogEntry} {rest : List LogEntry} (hrest : entries.dropWhile log.Present = e :: rest) :
    log.Present e = false ∧ log.baseIndex ≤ e.index ∧ prev < e.index ∧
      e.index ≤ log.baseIndex + log.entries.length ∧
      (∀ i x, (e :: rest)[i]? = some x → x.index = e.index + i) ∧
      ∀ x ∈ entries.takeWhile log.Present, x.index < e.index := by
  have hsplit : entries.takeWhile log.Present ++ e :: rest = entries := by
    rw [← hrest, List.takeWhile_append_dropWhile]
  have hkept : ∀ x ∈ entries.takeWhile log.Present, log.Present x = true := fun x hx =>
    List.mem_takeWhile_imp hx
  generalize entries.takeWhile log.Present = kept at hsplit hkept
  subst hsplit
  have hfresh : log.Present e = false := by
    have hhead := List.head_dropWhile_not log.Present (l := kept ++ e :: rest)
      (by rw [hrest]; exact List.cons_ne_nil _ _)
    simpa only [hrest, List.head_cons, Bool.not_eq_true] using hhead
  have hindex : e.index = prev + 1 + kept.length := by
    apply h
    rw [List.getElem?_append_right (Nat.le_refl _), Nat.sub_self, List.getElem?_cons_zero]
  refine ⟨hfresh, by omega, by omega, ?_, fun i x hx => ?_, fun x hx => ?_⟩
  · rcases kept.eq_nil_or_concat with rfl | ⟨front, last, rfl⟩
    · rw [hindex, List.length_nil]
      omega
    · -- the last present entry is in memory
      have hmem : last ∈ front.concat last := by
        rw [List.concat_eq_append]
        exact List.mem_append_right _ List.mem_cons_self
      have hlast := hkept last hmem
      rw [RaftLogArray.Present] at hlast
      split at hlast
      · next x hget =>
          have hlt := (RaftLogArray.lt_of_get hget).2
          have hlastIndex := h front.length last (by simp)
          rw [List.concat_eq_append, List.length_append, List.length_singleton] at hindex
          omega
      · cases hlast
  · have hx' := h (kept.length + i) x (by
      rw [List.getElem?_append_right (Nat.le_add_right _ _), Nat.add_sub_cancel_left, hx])
    omega
  · obtain ⟨i, hi⟩ := List.getElem?_of_mem hx
    have hlt := (List.getElem?_eq_some_iff.1 hi).1
    have hx' := h i x (by rw [List.getElem?_append_left hlt, hi])
    omega

/-- Reading what the loop has left below the first new entry. -/
theorem get_below {log' : RaftLogArray} {index size : Nat} {fresh : List LogEntry}
    (hbase : log'.baseIndex = log.baseIndex)
    (hlog : log'.entries = log.entries.take size ++ fresh)
    (hsize : size ≤ log.entries.length) (hindex : index < log.baseIndex + size) :
    log'.get index = log.get index := by
  rcases Nat.lt_or_ge index log.baseIndex with hlt | hge
  · rw [RaftLogArray.get_of_lt hlt, RaftLogArray.get_of_lt (hbase ▸ hlt)]
  · rw [RaftLogArray.get_of_le hge, RaftLogArray.get_of_le (hbase ▸ hge), hlog, hbase,
      List.getElem?_append_left (by rw [List.length_take]; omega),
      List.getElem?_take_of_lt (by omega)]

/-- A message that fits is taken over. -/
theorem took_of_fits {prev : Nat} {entries : List LogEntry} (h : Consecutive prev entries)
    (hprev : prev < log.baseIndex + log.entries.length)
    (hfits : Fits cfg.logConfig log prev entries) (count : Nat) :
    (Node.appendLoop cfg log count entries).returned = true ∧
      Took log (Node.appendLoop cfg log count entries).log prev entries := by
  rcases hfits with rfl | ⟨hbase, hkept, hfresh⟩
  · exact ⟨rfl, ⟨fun _ he => absurd he List.not_mem_nil, fun _ _ => rfl,
      fun _ _ _ _ hget => hget⟩⟩
  · have hloop := @appendLoop_present cfg log (entries.takeWhile log.Present)
      (entries.dropWhile log.Present) count fun e he => List.mem_takeWhile_imp he
    rw [List.takeWhile_append_dropWhile] at hloop
    rw [hloop]
    have hmem (e : LogEntry) (he : e ∈ entries) :
        e ∈ entries.takeWhile log.Present ∨ e ∈ entries.dropWhile log.Present := by
      rwa [← List.mem_append, List.takeWhile_append_dropWhile]
    cases hrest : entries.dropWhile log.Present with
    | nil =>
        refine ⟨rfl, ⟨fun e he => ?_, fun _ _ => rfl, fun _ _ _ _ hget => hget⟩⟩
        rcases hmem e he with he | he
        · exact hkept e he
        · rw [hrest] at he
          cases he
    | cons e rest =>
        obtain ⟨hnew, hle, hlt, hnext, hcons, hbelow⟩ := h.split hbase hprev hrest
        rw [hrest] at hfresh
        obtain ⟨hret, hbase', hlog⟩ := (appendLoop_fresh count hnew hle hnext hcons).1 hfresh
        have hsize : e.index - log.baseIndex ≤ log.entries.length := by omega
        refine ⟨hret, ⟨fun x hx => ?_, fun index hindex => ?_,
          fun hagree index x hindex hget => ?_⟩⟩
        · rcases hmem x hx with hx | hx
          · rw [get_below hbase' hlog hsize (by have := hbelow x hx; omega)]
            exact hkept x hx
          · rw [hrest] at hx
            obtain ⟨i, hi⟩ := List.getElem?_of_mem hx
            have hxindex := hcons i x hi
            have hlen : (log.entries.take (e.index - log.baseIndex)).length =
                e.index - log.baseIndex := List.length_take_of_le hsize
            rw [RaftLogArray.get_of_le (by omega), hlog, hbase',
              List.getElem?_append_right (by omega), hlen, ← hi]
            congr 1
            omega
        · exact get_below hbase' hlog hsize (by omega)
        · -- nothing conflicts, so the log ends before the new entries
          have he : e ∈ entries := (List.dropWhile_sublist _).subset (hrest ▸ List.mem_cons_self)
          have hnone : log.get e.index = none := by
            cases hget' : log.get e.index with
            | none => rfl
            | some y =>
                rw [RaftLogArray.Present, hget'] at hnew
                simp only [hagree e he y hget', beq_self_eq_true, Bool.true_eq_false] at hnew
          rw [RaftLogArray.get_of_le hle, List.getElem?_eq_none_iff] at hnone
          have hxlt := (RaftLogArray.lt_of_get hget).2
          have hlast := hindex e he
          omega

/-- A message that is taken over fits. -/
theorem fits_of_took {prev : Nat} {entries : List LogEntry} (h : Consecutive prev entries)
    (hprev : prev = 0 ∨ ∃ x, log.get prev = some x) (count : Nat)
    (hret : (Node.appendLoop cfg log count entries).returned = true)
    (htook : Took log (Node.appendLoop cfg log count entries).log prev entries) :
    Fits cfg.logConfig log prev entries := by
  have hmono := @baseIndex_appendLoop cfg entries log count
  by_cases hnil : entries = []
  · exact .inl hnil
  obtain ⟨first, others, hfirst⟩ := List.exists_cons_of_ne_nil hnil
  have hfirstIndex : first.index = prev + 1 := h 0 first (by rw [hfirst]; rfl)
  have hstored := htook.stored first (by rw [hfirst]; exact List.mem_cons_self)
  have hbase' := (RaftLogArray.lt_of_get hstored).1
  have hbase : log.baseIndex ≤ prev + 1 := by omega
  have hlt : prev < log.baseIndex + log.entries.length := by
    rcases hprev with rfl | ⟨x, hx⟩
    · exact Nat.add_pos_left log.base_pos _
    · exact (RaftLogArray.lt_of_get hx).2
  -- the first entry of the log is the one named before the message, or it is the message's first
  have hsame : ¬ log.baseIndex < (Node.appendLoop cfg log count entries).log.baseIndex := by
    intro hlater
    rcases Nat.lt_or_ge prev log.baseIndex with hbefore | hafter
    · omega
    · have hget := htook.before log.baseIndex hafter
      rw [RaftLogArray.get_of_lt hlater, RaftLogArray.get_of_le (Nat.le_refl _), Nat.sub_self] at hget
      have hnil := List.getElem?_eq_none_iff.1 hget.symm
      omega
  have hloop := @appendLoop_present cfg log (entries.takeWhile log.Present)
    (entries.dropWhile log.Present) count fun e he => List.mem_takeWhile_imp he
  rw [List.takeWhile_append_dropWhile] at hloop
  have hkeptStored (e : LogEntry) (he : e ∈ entries.takeWhile log.Present) :=
    htook.stored e ((List.takeWhile_sublist _).subset he)
  rw [hloop] at hret hsame hkeptStored
  refine .inr ⟨hbase, ?_⟩
  cases hrest : entries.dropWhile log.Present with
  | nil =>
      rw [hrest] at hkeptStored
      exact ⟨hkeptStored, trivial⟩
  | cons e rest =>
      obtain ⟨hnew, hle, -, hnext, hcons, hbelow⟩ := h.split hbase hlt hrest
      rw [hrest] at hret hsame hkeptStored
      have hfresh := @appendLoop_fresh cfg log e rest count hnew hle hnext hcons
      have hcond : (log.get e.index ≠ none → cfg.logConfig.relock = true) ∧
          cfg.logConfig.QuietTo (e.index - log.baseIndex)
            (e.index - log.baseIndex + (rest.length + 1)) := by
        by_contra hnot
        rcases hfresh.2 hnot with hstop | hlater
        · rw [hstop] at hret
          cases hret
        · exact hsame hlater
      refine ⟨fun x hx => ?_, hcond⟩
      obtain ⟨-, hbaseSame, hlog⟩ := hfresh.1 hcond
      have hindex := hbelow x hx
      rw [← get_below hbaseSame hlog (by omega) (by omega)]
      exact hkeptStored x hx

/-- **What an accepted message does.** The handler answers with success and has taken the
entries over exactly when the message fits the log. -/
theorem takes_iff (cfg : RaftNodeConfig) (n : Node) (origin : Conn) (msg : Node.AppendEntries)
    (hcons : Consecutive msg.prevLogIndex msg.entries)
    (hterm : n.state.currentTerm ≤ msg.term) (hprev : n.prevMatches msg = true) :
    ((∃ save logIndex, (n.handleAppendEntries cfg origin msg).tasks =
        .appendReply origin save msg.term true logIndex :: n.tasks) ∧
      Took n.logArray (n.handleAppendEntries cfg origin msg).logArray msg.prevLogIndex
        msg.entries) ↔
      Fits cfg.logConfig n.logArray msg.prevLogIndex msg.entries := by
  have hnamed : msg.prevLogIndex = 0 ∨ ∃ x, n.logArray.get msg.prevLogIndex = some x := by
    rw [Node.prevMatches] at hprev
    split at hprev
    · next hzero => exact .inl hzero
    · split at hprev
      · cases hprev
      · next x hx => exact .inr ⟨x, hx⟩
  have hlt : msg.prevLogIndex < n.logArray.baseIndex + n.logArray.entries.length := by
    rcases hnamed with hzero | ⟨x, hx⟩
    · rw [hzero]
      exact Nat.add_pos_left n.logArray.base_pos _
    · exact (RaftLogArray.lt_of_get hx).2
  rcases @handleAppendEntries_cases cfg n origin msg
    with ⟨hold, -⟩ | ⟨-, hmismatch, -⟩ | ⟨-, -, hret, heq⟩ | ⟨-, -, hret, heq⟩
  · exact absurd hold (Nat.not_lt_of_le hterm)
  · rw [hprev] at hmismatch
    cases hmismatch
  · -- a call of the log does not return, so there is no answer
    constructor
    · rintro ⟨⟨save, logIndex, htasks⟩, -⟩
      rw [heq] at htasks
      exact absurd htasks.symm (List.cons_ne_self _ _)
    · intro hfits
      rw [(took_of_fits hcons hlt hfits 0).1] at hret
      cases hret
  · have hlog : (n.handleAppendEntries cfg origin msg).logArray =
        (Node.appendLoop cfg n.logArray 0 msg.entries).log := by
      rw [heq]
      rfl
    rw [hlog]
    constructor
    · rintro ⟨-, htook⟩
      exact fits_of_took hcons hnamed 0 hret htook
    · intro hfits
      refine ⟨?_, (took_of_fits hcons hlt hfits 0).2⟩
      rw [heq]
      exact ⟨_, _, rfl⟩

/-- A node of term 2 with three entries. -/
def threeNode : Node where
  state := { currentTerm := 2 }
  logArray := ({} : RaftLogArray).extend [⟨1, 1, [7]⟩, ⟨1, 2, [8]⟩, ⟨2, 3, [9]⟩]

/-- Two entries that the node has, and two new ones. -/
def furtherEntries : List LogEntry := [⟨1, 2, [8]⟩, ⟨2, 3, [9]⟩, ⟨2, 4, [10]⟩, ⟨2, 5, [11]⟩]

/-- The node passes over the entries that it has, and the new ones come behind them. -/
theorem takes_further :
    (∃ save logIndex, (threeNode.handleAppendEntries Cluster.plainConfig 3
        ⟨2, 1, 1, furtherEntries, 0⟩).tasks = [.appendReply 3 save 2 true logIndex]) ∧
      Took threeNode.logArray (threeNode.handleAppendEntries Cluster.plainConfig 3
        ⟨2, 1, 1, furtherEntries, 0⟩).logArray 1 furtherEntries := by
  have hcons : Consecutive 1 furtherEntries := by
    intro i e hi
    match i with
    | 0 | 1 | 2 | 3 => exact Option.some.inj hi ▸ rfl
    | i + 4 => cases hi
  apply (takes_iff Cluster.plainConfig threeNode 3 ⟨2, 1, 1, furtherEntries, 0⟩ hcons
    (by decide) (by decide)).2
  exact .inr ⟨by decide, by decide, by decide, fun s _ _ => .inr (.inl rfl)⟩

/-- A log that begins at index 5. -/
def lateLog : RaftLogArray where
  baseIndex := 5
  entries := [⟨1, 5, [7]⟩]
  base_pos := by decide
  indexed := by
    intro i e hi
    match i with
    | 0 =>
        obtain rfl := Option.some.inj hi
        rfl
    | i + 1 => cases hi

/-- A message that begins with index 1 is accepted there, and its entry gets index 6. -/
theorem not_took_late : ¬ ∀ (cfg : RaftNodeConfig) (n : Node) (origin : Conn)
    (msg : Node.AppendEntries), Consecutive msg.prevLogIndex msg.entries →
      n.state.currentTerm ≤ msg.term → n.prevMatches msg = true →
      (∃ save logIndex, (n.handleAppendEntries cfg origin msg).tasks =
        .appendReply origin save msg.term true logIndex :: n.tasks) ∧
      Took n.logArray (n.handleAppendEntries cfg origin msg).logArray msg.prevLogIndex
        msg.entries := by
  intro h
  have hstored := (h Cluster.plainConfig { logArray := lateLog } 3 ⟨1, 0, 0, [⟨1, 1, [7]⟩], 0⟩
    (consecutive_singleton rfl) (by decide) rfl).2.stored _ List.mem_cons_self
  revert hstored
  decide

end Messages

end EyaKV.Raft
