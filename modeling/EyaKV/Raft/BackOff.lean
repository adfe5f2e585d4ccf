import EyaKV.Raft.Appending

/-!
# Back-off

A leader that names an entry which the follower does not have is refused. It goes back by one
index and tries again, down to index 0, for which `handle_append_entries` asks nothing. The answer
to a message that is accepted carries the last index of the follower, and the leader takes
everything up to there for replicated.

`Catches` is the exchange on the two logs. It ends with equal logs exactly when the message at which
the back-off stops closes the gap between them (`catches_iff`): it must have entries, so it must not
begin below the leader's base, and the follower must not have a tail that the entries leave alone.
`replicates_iff` says so about the handlers. A batch limit of 2³¹ or more is a negative count, with
which a message has no entries, or all of them up to the end.
-/

set_option autoImplicit false

namespace EyaKV.Raft

section Exchange

/-- The logs agree on every index up to `k` that both have in memory or could have. -/
def Agree (log follower : RaftLogArray) (k : Nat) : Prop :=
  ∀ i, i ≤ k → log.baseIndex ≤ i → follower.baseIndex ≤ i → follower.get i = log.get i

/-- The follower has what the leader has, up to `k`. -/
structure Holds (log follower : RaftLogArray) (k : Nat) : Prop where
  reaches : k ≤ follower.getLastIndex
  same : Agree log follower k

/-- What `handle_append_entries` asks of the entry before a message. -/
def Named (log follower : RaftLogArray) (p : Nat) : Prop :=
  p = 0 ∨ ∃ e, follower.get p = some e ∧ e.term = log.getTerm p

/-- The entries that a leader sends from `next_index_` on. -/
def entriesFor (log : RaftLogArray) (batch : Int) (next : Nat) : List LogEntry :=
  if next ≤ log.getLastIndex then log.getEntriesFrom next batch else []

variable (cfg : RaftNodeConfig) (log : RaftLogArray)

/-- The loop of `handle_append_entries` over the entries from `next_index_` on. -/
def received (follower : RaftLogArray) (next : Nat) : Node.Appended :=
  Node.appendLoop cfg follower 0 (entriesFor log cfg.maxCount next)

/-- `match_index_` after the message with these entries has been accepted. -/
def matchAfter (follower : RaftLogArray) (next matched : Nat) : Nat :=
  max matched (received cfg log follower next).log.getLastIndex

/-- An accepted message is taken over, `next_index_` passes nothing that the follower does not
have, and a message without entries is not accepted by a follower that diverges. -/
structure Passes (follower follower' : RaftLogArray) (prev : Nat) (entries : List LogEntry)
    (matched : Nat) : Prop where
  took : Took follower follower' prev entries
  passed : Holds log follower' (min matched log.getLastIndex)
  empty : entries = [] → Holds log follower' log.getLastIndex

/-- The exchange between a leader with this log and a follower ends, and what is accepted on the
way is right. -/
inductive Catches : RaftLogArray → Nat → Nat → Prop
  | retry {follower : RaftLogArray} {next matched : Nat} :
      ¬ Named log follower (next - 1) → Catches follower (next - 1) matched →
      Catches follower next matched
  | accepted {follower : RaftLogArray} {next matched : Nat} :
      Named log follower (next - 1) → (received cfg log follower next).returned = true →
      Passes log follower (received cfg log follower next).log (next - 1)
        (entriesFor log cfg.maxCount next) (matchAfter cfg log follower next matched) →
      (matchAfter cfg log follower next matched < log.getLastIndex →
        Catches (received cfg log follower next).log
          (matchAfter cfg log follower next matched + 1)
          (matchAfter cfg log follower next matched)) →
      Catches follower next matched

/-- The back-off stops at the greatest index below `next_index_` that is named rightly. -/
structure StopsAt (follower : RaftLogArray) (next p : Nat) : Prop where
  le : p ≤ next - 1
  named : Named log follower p
  greatest : ∀ i, p < i → i ≤ next - 1 → ¬ Named log follower i

/-- The last index of the follower after entries behind `p`. -/
def lastAfter (follower : RaftLogArray) (p : Nat) (entries : List LogEntry) : Nat :=
  if entries.all follower.Present then follower.getLastIndex else p + entries.length

/-- **The condition on the message at which the back-off stops.** -/
structure Closes (follower : RaftLogArray) (p matched : Nat) (entries : List LogEntry) :
    Prop where
  fits : Fits cfg.logConfig follower p entries
  -- a follower that has all the entries keeps its tail
  same : Agree log follower
    (if entries.all follower.Present then min follower.getLastIndex log.getLastIndex else p)
  reaches : min matched log.getLastIndex ≤ lastAfter follower p entries
  covers : entries = [] → log.getLastIndex ≤ follower.getLastIndex
  -- nothing is truncated from the front until the follower has caught up
  quiet : cfg.logConfig.QuietTo (lastAfter follower p entries + 1 - follower.baseIndex)
    (log.getLastIndex + 1 - follower.baseIndex)

end Exchange

section Logs

variable {cfg : RaftNodeConfig} {log follower : RaftLogArray}

theorem Agree.mono {k k' : Nat} (h : Agree log follower k) (hle : k' ≤ k) :
    Agree log follower k' := fun i hi => h i (hi.trans hle)

theorem Holds.mono {k k' : Nat} (h : Holds log follower k) (hle : k' ≤ k) :
    Holds log follower k' := ⟨hle.trans h.reaches, h.same.mono hle⟩

/-- The last index of a log that is not empty. -/
theorem RaftLogArray.getLastIndex_of_ne (h : log.entries ≠ []) :
    log.getLastIndex = log.baseIndex + log.entries.length - 1 := if_neg h

/-- A log that reaches an index from its base on has the entry. -/
theorem RaftLogArray.isSome_of_le_last {i : Nat} (hbase : log.baseIndex ≤ i)
    (hlast : i ≤ log.getLastIndex) : ∃ e, log.get i = some e := by
  have hpos := log.base_pos
  rw [getLastIndex] at hlast
  split at hlast
  · omega
  · rw [get_of_le hbase]
    exact ⟨_, List.getElem?_eq_getElem (by omega)⟩

theorem RaftLogArray.le_last_of_get {i : Nat} {e : LogEntry} (h : log.get i = some e) :
    i ≤ log.getLastIndex := by
  obtain ⟨hbase, hlt⟩ := lt_of_get h
  rw [getLastIndex_of_ne (by rintro hnil; rw [hnil, List.length_nil] at hlt; omega)]
  omega

/-- The entries for `next_index_` are those of the leader's log. -/
theorem getElem?_entriesFor {batch : Int} {next i : Nat} {e : LogEntry}
    (h : (entriesFor log batch next)[i]? = some e) :
    log.get (next + i) = some e ∧ log.baseIndex ≤ next := by
  rw [entriesFor] at h
  split at h
  · obtain ⟨hbase, hindex⟩ := RaftLogArray.index_getEntriesFrom h
    refine ⟨?_, hbase⟩
    rw [RaftLogArray.get_of_le (by omega), ← RaftLogArray.getElem?_getEntriesFrom h]
    congr 1
    omega
  · cases h

theorem consecutive_entriesFor {batch : Int} {next : Nat} :
    Consecutive (next - 1) (entriesFor log batch next) := by
  intro i e h
  obtain ⟨hget, hbase⟩ := getElem?_entriesFor h
  have hpos := log.base_pos
  rw [RaftLogArray.get_of_le (by omega)] at hget
  have hindex := log.indexed _ e hget
  omega

/-- How many there are. When the sum of the place and the count comes round, all are sent. -/
theorem length_entriesFor {batch : Int} {next : Nat} (hbase : log.baseIndex ≤ next)
    (hlast : next ≤ log.getLastIndex) :
    (entriesFor log batch next).length =
      if ((next - log.baseIndex : Nat) : Int) + batch < 0 then log.getLastIndex + 1 - next
      else min batch.toNat (log.getLastIndex + 1 - next) := by
  have hpos := log.base_pos
  have hne : log.entries ≠ [] := by
    intro hnil
    rw [RaftLogArray.getLastIndex, if_pos hnil] at hlast
    omega
  have hrest : (log.entries.drop (next - log.baseIndex)).length = log.getLastIndex + 1 - next := by
    rw [RaftLogArray.getLastIndex_of_ne hne] at hlast ⊢
    rw [List.length_drop]
    omega
  rw [entriesFor, if_pos hlast, RaftLogArray.getEntriesFrom, if_neg (by omega)]
  simp only
  split
  · exact hrest
  · rw [List.length_take, hrest]

/-- A count of at least one is kept. -/
theorem length_entriesFor_pos {batch : Int} {next : Nat} (hbatch : 0 < batch)
    (hbase : log.baseIndex ≤ next) (hlast : next ≤ log.getLastIndex) :
    (entriesFor log batch next).length = min batch.toNat (log.getLastIndex + 1 - next) := by
  rw [length_entriesFor hbase hlast, if_neg (by omega)]

/-- A message with entries has been cut off by a count, or goes to the end of the log. -/
theorem entriesFor_ne_nil {batch : Int} {next : Nat} (h : entriesFor log batch next ≠ []) :
    log.baseIndex ≤ next ∧ next ≤ log.getLastIndex ∧
      (0 < batch ∨ log.getLastIndex = next - 1 + (entriesFor log batch next).length) := by
  obtain ⟨e, rest, heq⟩ := List.exists_cons_of_ne_nil h
  obtain ⟨hget, hbase⟩ := @getElem?_entriesFor log batch next 0 e (by rw [heq]; rfl)
  have hlast : next ≤ log.getLastIndex := RaftLogArray.le_last_of_get hget
  refine ⟨hbase, hlast, ?_⟩
  have hpos := log.base_pos
  have hlen := @length_entriesFor log batch next hbase hlast
  have hsome := List.length_pos_iff.2 h
  split at hlen
  · exact .inr (by omega)
  · exact .inl (by omega)

/-- What a follower has after it has taken over entries for the index behind `p`. -/
theorem Agree.append {follower' : RaftLogArray} {batch : Int} {next : Nat}
    (h : Agree log follower (next - 1)) (hbase : follower.baseIndex ≤ follower'.baseIndex)
    (htook : Took follower follower' (next - 1) (entriesFor log batch next)) (hpos : 0 < next) :
    Agree log follower' (next - 1 + (entriesFor log batch next).length) := by
  intro i hi hlog hfollower
  rcases Nat.lt_or_ge i next with hlt | hge
  · rw [htook.before i (by omega)]
    exact h i (by omega) hlog (hbase.trans hfollower)
  · -- the entry is one of the message
    obtain ⟨j, rfl⟩ := Nat.le.dest hge
    have hj : j < (entriesFor log batch next).length := by omega
    have he := List.getElem?_eq_getElem hj
    have hget := (getElem?_entriesFor he).1
    have hindex := consecutive_entriesFor j _ he
    have hstored := htook.stored _ (List.getElem_mem hj)
    rw [hindex, show next - 1 + 1 + j = next + j by omega] at hstored
    rw [hstored, hget]

end Logs

section Behind

variable {cfg : RaftNodeConfig} {log follower : RaftLogArray}

/-- A follower whose log is that of the leader up to its own last index. -/
structure Behind (log follower : RaftLogArray) : Prop where
  nonempty : follower.entries ≠ []
  base : log.baseIndex ≤ follower.getLastIndex
  agree : Agree log follower follower.getLastIndex
  behind : follower.getLastIndex < log.getLastIndex

theorem Behind.length (h : Behind log follower) :
    follower.entries.length = follower.getLastIndex + 1 - follower.baseIndex ∧
      follower.baseIndex ≤ follower.getLastIndex := by
  have hlast := RaftLogArray.getLastIndex_of_ne h.nonempty
  have hpos := List.length_pos_iff.2 h.nonempty
  have := follower.base_pos
  omega

theorem Behind.named (h : Behind log follower) : Named log follower follower.getLastIndex := by
  obtain ⟨e, he⟩ := RaftLogArray.isSome_of_le_last h.base h.behind.le
  refine .inr ⟨e, ?_, ?_⟩
  · rw [h.agree _ (Nat.le_refl _) h.base h.length.2, he]
  · rw [RaftLogArray.getTerm, he]

theorem Behind.continues (h : Behind log follower) (batch : Int) :
    Continues follower (entriesFor log batch (follower.getLastIndex + 1)) := by
  intro i e he
  have hindex := consecutive_entriesFor i e he
  have hlen := h.length
  omega

/-- The entries behind the last one fit when the log may grow by them. -/
theorem fits_continues_iff {p : Nat} {entries : List LogEntry} (hne : entries ≠ [])
    (hcontinues : Continues follower entries) (hp : follower.baseIndex ≤ p + 1) :
    Fits cfg.logConfig follower p entries ↔ cfg.logConfig.QuietTo follower.entries.length
      (follower.entries.length + entries.length) := by
  obtain ⟨e, rest, rfl⟩ := List.exists_cons_of_ne_nil hne
  have hget := hcontinues.get_eq_none
  have hfresh : follower.Present e = false := by
    rw [RaftLogArray.Present, hget]
  have hsize : e.index - follower.baseIndex = follower.entries.length := by
    rw [hcontinues.head, Nat.add_sub_cancel_left]
  rw [Fits, List.takeWhile_cons_of_neg (by simp [hfresh]),
    List.dropWhile_cons_of_neg (by simp [hfresh])]
  simp only [hget, hsize, List.length_cons]
  constructor
  · rintro (hnil | ⟨-, -, -, hquiet⟩)
    · cases hnil
    · exact hquiet
  · intro hquiet
    exact .inr ⟨hp, fun x hx => absurd hx List.not_mem_nil, fun h => absurd rfl h, hquiet⟩

theorem RaftLogConfig.QuietTo.mono {c : RaftLogConfig} {a a' b b' : Nat} (h : c.QuietTo a b) (ha : a ≤ a')
    (hb : b' ≤ b) : c.QuietTo a' b' :=
  fun s hs hle => h s (ha.trans_lt hs) (hle.trans hb)

theorem RaftLogConfig.QuietTo.trans {c : RaftLogConfig} {a b d : Nat} (h : c.QuietTo a b)
    (h' : c.QuietTo b d) : c.QuietTo a d := by
  intro s hs hle
  rcases Nat.lt_or_ge b s with hlt | hge
  · exact h' s hlt hle
  · exact h s hs hge

/-- A message that names the entry before it rightly. -/
theorem catches_of_named {next matched : Nat} (h : Named log follower (next - 1)) :
    Catches cfg log follower next matched ↔
      (received cfg log follower next).returned = true ∧
        Passes log follower (received cfg log follower next).log (next - 1)
          (entriesFor log cfg.maxCount next)
          (matchAfter cfg log follower next matched) ∧
        (matchAfter cfg log follower next matched < log.getLastIndex →
          Catches cfg log (received cfg log follower next).log
            (matchAfter cfg log follower next matched + 1)
            (matchAfter cfg log follower next matched)) := by
  constructor
  · intro hcatches
    cases hcatches with
    | retry hnot _ => exact absurd h hnot
    | accepted _ hret hpasses hmore => exact ⟨hret, hpasses, hmore⟩
  · rintro ⟨hret, hpasses, hmore⟩
    exact .accepted h hret hpasses hmore

/-- A message that does not. -/
theorem catches_of_not_named {next matched : Nat} (h : ¬ Named log follower (next - 1)) :
    Catches cfg log follower next matched ↔ Catches cfg log follower (next - 1) matched := by
  constructor
  · intro hcatches
    cases hcatches with
    | retry _ hrest => exact hrest
    | accepted hnamed _ _ _ => exact absurd hnamed h
  · exact .retry h

section Batch

variable {batch : Int} {entries : List LogEntry}

/-- A batch for a follower that is behind has entries. -/
theorem Behind.length_batch (h : Behind log follower) (hbatch : 0 < batch)
    (hentries : entriesFor log batch (follower.getLastIndex + 1) = entries) :
    0 < entries.length ∧ follower.getLastIndex + entries.length ≤ log.getLastIndex := by
  have hbehind := h.behind
  have hlen := length_entriesFor_pos hbatch (h.base.trans (Nat.le_succ _)) hbehind
  rw [hentries] at hlen
  omega

theorem Behind.consecutive (hentries : entriesFor log batch (follower.getLastIndex + 1) = entries) :
    Consecutive follower.getLastIndex entries := hentries ▸ consecutive_entriesFor

/-- It is taken over when the log may grow by it. -/
theorem Behind.took_iff (h : Behind log follower) (hne : entries ≠ [])
    (hentries : entriesFor log batch (follower.getLastIndex + 1) = entries) :
    ((Node.appendLoop cfg follower 0 entries).returned = true ∧
      Took follower (Node.appendLoop cfg follower 0 entries).log follower.getLastIndex entries) ↔
      cfg.logConfig.QuietTo follower.entries.length
        (follower.entries.length + entries.length) := by
  obtain ⟨hsize, hbase⟩ := h.length
  have hcons := Behind.consecutive hentries
  rw [← fits_continues_iff hne (hentries ▸ h.continues batch) (hbase.trans (Nat.le_succ _))]
  constructor
  · rintro ⟨hret, htook⟩
    exact fits_of_took hcons (h.named.imp_right fun ⟨e, he, _⟩ => ⟨e, he⟩) 0 hret htook
  · intro hfits
    exact took_of_fits hcons (by omega) hfits 0

/-- The log after it. -/
theorem Behind.grown (h : Behind log follower)
    (hentries : entriesFor log batch (follower.getLastIndex + 1) = entries)
    (hquiet : cfg.logConfig.QuietTo follower.entries.length
      (follower.entries.length + entries.length)) :
    (Node.appendLoop cfg follower 0 entries).log.baseIndex = follower.baseIndex ∧
      (Node.appendLoop cfg follower 0 entries).log.entries.length =
        follower.entries.length + entries.length ∧
      (Node.appendLoop cfg follower 0 entries).log.getLastIndex =
        follower.getLastIndex + entries.length := by
  obtain ⟨-, hbase, hlog⟩ := appendLoop_quiet entries follower 0
    (hentries ▸ h.continues batch) hquiet
  have hlen := h.length
  have hpos := List.length_pos_iff.2 h.nonempty
  have hsize : (Node.appendLoop cfg follower 0 entries).log.entries.length =
      follower.entries.length + entries.length := by
    rw [hlog, List.length_append]
  refine ⟨hbase, hsize, ?_⟩
  rw [RaftLogArray.getLastIndex_of_ne (List.length_pos_iff.1 (by omega)), hsize, hbase]
  omega

theorem Behind.agree_grown (h : Behind log follower)
    (hentries : entriesFor log batch (follower.getLastIndex + 1) = entries)
    {follower' : RaftLogArray} (hbase : follower.baseIndex ≤ follower'.baseIndex)
    (htook : Took follower follower' follower.getLastIndex entries) :
    Agree log follower' (follower.getLastIndex + entries.length) := by
  subst hentries
  exact Agree.append h.agree hbase htook (Nat.succ_pos _)

end Batch

/-- The rest of the exchange with a follower that is behind. -/
theorem Behind.catches_iff (hbatch : 0 < cfg.maxCount) (count : Nat) :
    ∀ follower : RaftLogArray, Behind log follower →
      log.getLastIndex ≤ follower.getLastIndex + count →
      (Catches cfg log follower (follower.getLastIndex + 1) follower.getLastIndex ↔
        cfg.logConfig.QuietTo follower.entries.length
          (log.getLastIndex + 1 - follower.baseIndex)) := by
  induction count with
  | zero => exact fun follower h hle => absurd h.behind (Nat.not_lt_of_le hle)
  | succ count ih =>
      intro follower h hle
      have hbehind := h.behind
      obtain ⟨hsize, hbase⟩ := h.length
      rw [catches_of_named h.named, matchAfter, received, Nat.add_sub_cancel]
      generalize hentries :
        entriesFor log cfg.maxCount (follower.getLastIndex + 1) = entries
      obtain ⟨hpos, hend⟩ := h.length_batch hbatch hentries
      have hne : entries ≠ [] := List.length_pos_iff.1 hpos
      have htook := @Behind.took_iff cfg log follower _ entries h hne hentries
      by_cases hquiet : cfg.logConfig.QuietTo follower.entries.length
          (follower.entries.length + entries.length)
      · obtain ⟨hret, hstored⟩ := htook.2 hquiet
        obtain ⟨hbase', hsize', hlast'⟩ := h.grown hentries hquiet
        have hagree := h.agree_grown hentries hbase'.ge hstored
        generalize (Node.appendLoop cfg follower 0 entries).log = follower' at *
        have hmatch : max follower.getLastIndex follower'.getLastIndex = follower'.getLastIndex :=
          Nat.max_eq_right (by omega)
        rw [← hlast'] at hagree
        rw [hmatch]
        -- the next round starts from the grown log
        have hnext (hmore : follower'.getLastIndex < log.getLastIndex) :
            Catches cfg log follower' (follower'.getLastIndex + 1) follower'.getLastIndex ↔
              cfg.logConfig.QuietTo follower'.entries.length
                (log.getLastIndex + 1 - follower.baseIndex) := by
          rw [← hbase']
          refine ih follower' ⟨?_, ?_, hagree, hmore⟩ (by omega)
          · rw [← List.length_pos_iff]
            omega
          · have := h.base
            omega
        constructor
        · rintro ⟨-, -, hmore⟩
          rcases Nat.lt_or_ge follower'.getLastIndex log.getLastIndex with hlt | hge
          · exact hquiet.trans (hsize' ▸ (hnext hlt).1 (hmore hlt))
          · exact hquiet.mono (Nat.le_refl _) (by omega)
        · intro htotal
          refine ⟨hret, ⟨hstored, ⟨?_, hagree.mono ?_⟩, fun hnil => absurd hnil hne⟩,
            fun hlt => (hnext hlt).2 (htotal.mono (by omega) (Nat.le_refl _))⟩
          · exact Nat.min_le_left _ _
          · exact Nat.min_le_left _ _
      · constructor
        · rintro ⟨hret, hpasses, -⟩
          exact absurd (htook.1 ⟨hret, hpasses.took⟩) hquiet
        · intro htotal
          exact absurd (htotal.mono (Nat.le_refl _) (by omega)) hquiet

end Behind

section Stopping

variable {cfg : RaftNodeConfig} {log follower : RaftLogArray} {next p matched : Nat}

theorem quietTo_of_le {c : RaftLogConfig} {a b : Nat} (h : b ≤ a) : c.QuietTo a b :=
  fun _ hs hle => absurd (hs.trans_le (hle.trans h)) (Nat.lt_irrefl _)

/-- What an accepted message leaves to show, in terms of the log after it. -/
theorem passes_iff {follower' : RaftLogArray} {entries : List LogEntry}
    (htook : Took follower follower' p entries)
    (hne : entries ≠ [] → follower'.entries ≠ [] ∧ log.baseIndex ≤ follower'.getLastIndex ∧
      (0 < cfg.maxCount ∨ log.getLastIndex ≤ follower'.getLastIndex)) :
    (Passes log follower follower' p entries (max matched follower'.getLastIndex) ∧
      (max matched follower'.getLastIndex < log.getLastIndex →
        Catches cfg log follower' (max matched follower'.getLastIndex + 1)
          (max matched follower'.getLastIndex))) ↔
      Agree log follower' (min follower'.getLastIndex log.getLastIndex) ∧
        min matched log.getLastIndex ≤ follower'.getLastIndex ∧
        (entries = [] → log.getLastIndex ≤ follower'.getLastIndex) ∧
        cfg.logConfig.QuietTo (follower'.getLastIndex + 1 - follower'.baseIndex)
          (log.getLastIndex + 1 - follower'.baseIndex) := by
  -- while the follower does not reach the end, it is behind
  have rest (hlt : follower'.getLastIndex < log.getLastIndex)
      (hcovers : entries = [] → log.getLastIndex ≤ follower'.getLastIndex)
      (hagree : Agree log follower' follower'.getLastIndex) :
      Catches cfg log follower' (follower'.getLastIndex + 1) follower'.getLastIndex ↔
        cfg.logConfig.QuietTo (follower'.getLastIndex + 1 - follower'.baseIndex)
          (log.getLastIndex + 1 - follower'.baseIndex) := by
    obtain ⟨hentries, hbase, hbatch⟩ := hne fun hnil => by
      have := hcovers hnil
      omega
    have hbehind : Behind log follower' := ⟨hentries, hbase, hagree, hlt⟩
    rw [← hbehind.length.1]
    -- a message without a limit has brought the follower to the end
    have hcount : 0 < cfg.maxCount := hbatch.resolve_right (Nat.not_le_of_lt hlt)
    exact Behind.catches_iff hcount log.getLastIndex follower' hbehind (by omega)
  constructor
  · rintro ⟨hpasses, hmore⟩
    have hreaches := hpasses.passed.reaches
    have hagree : Agree log follower' (min follower'.getLastIndex log.getLastIndex) :=
      hpasses.passed.same.mono (by omega)
    refine ⟨hagree, by omega, fun hnil => (hpasses.empty hnil).reaches, ?_⟩
    rcases Nat.lt_or_ge follower'.getLastIndex log.getLastIndex with hlt | hge
    · have hmax : max matched follower'.getLastIndex = follower'.getLastIndex := by omega
      rw [hmax] at hmore
      rw [Nat.min_eq_left hlt.le] at hagree
      exact (rest hlt (fun hnil => (hpasses.empty hnil).reaches) hagree).1 (hmore hlt)
    · exact quietTo_of_le (by omega)
  · rintro ⟨hagree, hreaches, hcovers, hquiet⟩
    refine ⟨⟨htook, ⟨by omega, hagree.mono (by omega)⟩, fun hnil => ?_⟩, fun hlt => ?_⟩
    · have hle := hcovers hnil
      exact ⟨hle, hagree.mono (by omega)⟩
    · have hmax : max matched follower'.getLastIndex = follower'.getLastIndex := by omega
      rw [hmax] at hlt ⊢
      rw [Nat.min_eq_left hlt.le] at hagree
      exact (rest hlt hcovers hagree).2 hquiet

theorem Named.lt (h : Named log follower p) :
    p < follower.baseIndex + follower.entries.length := by
  rcases h with rfl | ⟨e, he, -⟩
  · exact Nat.add_pos_left follower.base_pos _
  · exact (RaftLogArray.lt_of_get he).2

/-- The log after entries of which one is new. -/
theorem last_of_fresh {entries : List LogEntry} (hcons : Consecutive p entries)
    (hprev : p < follower.baseIndex + follower.entries.length)
    (hfits : Fits cfg.logConfig follower p entries)
    (hall : ¬ entries.all follower.Present = true) :
    (Node.appendLoop cfg follower 0 entries).log.baseIndex = follower.baseIndex ∧
      (Node.appendLoop cfg follower 0 entries).log.entries ≠ [] ∧
      (Node.appendLoop cfg follower 0 entries).log.getLastIndex = p + entries.length := by
  rcases hfits with rfl | ⟨hbase, -, hfresh⟩
  · exact absurd rfl hall
  have hloop := @appendLoop_present cfg follower (entries.takeWhile follower.Present)
    (entries.dropWhile follower.Present) 0 fun e he => List.mem_takeWhile_imp he
  have hsplit := List.takeWhile_append_dropWhile (p := follower.Present) (l := entries)
  rw [hsplit] at hloop
  rw [hloop]
  cases hrest : entries.dropWhile follower.Present with
  | nil =>
      refine absurd (List.all_eq_true.2 fun e he => ?_) hall
      rw [← hsplit, hrest, List.append_nil] at he
      exact List.mem_takeWhile_imp he
  | cons e rest =>
      obtain ⟨hnew, hle, -, hnext, hconsRest, -⟩ := hcons.split hbase hprev hrest
      rw [hrest] at hfresh hsplit
      obtain ⟨-, hbase', hlog⟩ := (appendLoop_fresh 0 hnew hle hnext hconsRest).1 hfresh
      -- the first new entry comes behind the present ones
      have hget : entries[(entries.takeWhile follower.Present).length]? = some e := by
        have h := congrArg (fun l => l[(entries.takeWhile follower.Present).length]?) hsplit
        simp only [List.getElem?_append_right (Nat.le_refl _), Nat.sub_self,
          List.getElem?_cons_zero] at h
        exact h.symm
      have hindex := hcons _ e hget
      have hlength := congrArg List.length hsplit
      rw [List.length_append, List.length_cons] at hlength
      have hne : (Node.appendLoop cfg follower 0 (e :: rest)).log.entries ≠ [] := by
        rw [hlog]
        exact List.append_ne_nil_of_right_ne_nil _ (List.cons_ne_nil e rest)
      refine ⟨hbase', hne, ?_⟩
      rw [RaftLogArray.getLastIndex_of_ne hne, hbase', hlog, List.length_append,
        List.length_take_of_le (by omega), List.length_cons]
      omega

theorem lastAfter_of_all {entries : List LogEntry} (hall : entries.all follower.Present = true) :
    lastAfter follower p entries = follower.getLastIndex := if_pos hall

theorem lastAfter_of_not_all {entries : List LogEntry}
    (hall : ¬ entries.all follower.Present = true) :
    lastAfter follower p entries = p + entries.length := if_neg hall

/-- **The message at which the back-off stops.** -/
theorem catches_iff_closes (hnamed : Named log follower (next - 1)) :
    Catches cfg log follower next matched ↔ Closes cfg log follower (next - 1) matched
      (entriesFor log cfg.maxCount next) := by
  rw [catches_of_named hnamed, matchAfter, received]
  have hcons := @consecutive_entriesFor log cfg.maxCount next
  have hsent := @entriesFor_ne_nil log cfg.maxCount next
  have hget := fun i e => @getElem?_entriesFor log cfg.maxCount next i e
  have happend := fun follower' h => @Agree.append log follower follower'
    cfg.maxCount next h
  generalize entriesFor log cfg.maxCount next = entries at *
  by_cases hfits : Fits cfg.logConfig follower (next - 1) entries
  · obtain ⟨hret, htook⟩ := took_of_fits hcons hnamed.lt hfits 0
    rw [hret]
    by_cases hall : entries.all follower.Present = true
    · -- the follower has all the entries, and keeps what is behind them
      have hloop : Node.appendLoop cfg follower 0 entries = ⟨follower, 0, true⟩ := by
        have h := @appendLoop_present cfg follower entries [] 0 (List.all_eq_true.1 hall)
        rwa [List.append_nil] at h
      rw [hloop] at htook ⊢
      have hpasses := @passes_iff cfg log follower (next - 1) matched follower entries htook
        fun hne => by
          obtain ⟨hbase, -, hbatch⟩ := hsent hne
          obtain ⟨e, rest, rfl⟩ := List.exists_cons_of_ne_nil hne
          have hindex := hcons 0 e rfl
          have hstored := htook.stored e List.mem_cons_self
          have hlast : e.index ≤ follower.getLastIndex := RaftLogArray.le_last_of_get hstored
          refine ⟨fun hnil => ?_, by omega, hbatch.imp_right fun hend => ?_⟩
          · rw [RaftLogArray.getLastIndex, if_pos hnil] at hlast
            omega
          · -- the last entry of the message is there too
            have hcount : rest.length < (e :: rest).length := Nat.lt_succ_self _
            have hmem := List.getElem_mem hcount
            have hthere : (e :: rest)[rest.length].index ≤ follower.getLastIndex :=
              RaftLogArray.le_last_of_get (htook.stored _ hmem)
            rw [hcons _ _ (List.getElem?_eq_getElem hcount)] at hthere
            rw [List.length_cons] at hend
            omega
      rw [and_iff_right rfl, hpasses]
      constructor
      · rintro ⟨hagree, hreaches, hcovers, hquiet⟩
        refine ⟨hfits, ?_, ?_, hcovers, ?_⟩
        · rwa [if_pos hall]
        · rwa [lastAfter_of_all hall]
        · rwa [lastAfter_of_all hall]
      · rintro ⟨-, hagree, hreaches, hcovers, hquiet⟩
        rw [if_pos hall] at hagree
        rw [lastAfter_of_all hall] at hreaches hquiet
        exact ⟨hagree, hreaches, hcovers, hquiet⟩
    · -- the log ends with the last entry of the message
      obtain ⟨hbase', hne', hlast'⟩ := last_of_fresh hcons hnamed.lt hfits hall
      have hne : entries ≠ [] := fun hnil => hall (hnil ▸ rfl)
      obtain ⟨hbase, -, hbatch⟩ := hsent hne
      have hpos : 0 < next := log.base_pos.trans hbase
      have hlength := List.length_pos_iff.2 hne
      have hend : next - 1 + entries.length ≤ log.getLastIndex := by
        have h := hget (entries.length - 1) _ (List.getElem?_eq_getElem (by omega))
        have hle := RaftLogArray.le_last_of_get h.1
        omega
      generalize (Node.appendLoop cfg follower 0 entries).log = follower' at *
      have hpasses := @passes_iff cfg log follower (next - 1) matched follower' entries htook
        fun _ => ⟨hne', by omega, hbatch.imp_right fun hend => by omega⟩
      have hagree : Agree log follower' (next - 1 + entries.length) ↔
          Agree log follower (next - 1) := by
        constructor
        · intro h i hi hlog hfollower
          rw [← htook.before i hi]
          exact h i (by omega) hlog (hbase' ▸ hfollower)
        · exact fun h => happend follower' h hbase'.ge htook hpos
      rw [and_iff_right rfl, hpasses, hlast', hbase', Nat.min_eq_left hend, hagree]
      constructor
      · rintro ⟨hbefore, hreaches, -, hquiet⟩
        refine ⟨hfits, ?_, ?_, fun hnil => absurd hnil hne, ?_⟩
        · rwa [if_neg hall]
        · rwa [lastAfter_of_not_all hall]
        · rwa [lastAfter_of_not_all hall]
      · rintro ⟨-, hbefore, hreaches, -, hquiet⟩
        rw [if_neg hall] at hbefore
        rw [lastAfter_of_not_all hall] at hreaches hquiet
        exact ⟨hbefore, hreaches, fun hnil => absurd hnil hne, hquiet⟩
  · constructor
    · rintro ⟨hret, hpasses, -⟩
      exact absurd (fits_of_took hcons (hnamed.imp_right (Exists.imp fun _ => And.left)) 0 hret
        hpasses.took) hfits
    · intro hcloses
      exact absurd hcloses.fits hfits

/-- `next_index_` when the back-off from it stops at `p`. Index 0 is not sent from index 1 on. -/
def stopNext (next p : Nat) : Nat := if next = 0 then 0 else p + 1

theorem StopsAt.eq_of_named (h : StopsAt log follower next p)
    (hnamed : Named log follower (next - 1)) : p = next - 1 := by
  have hle := h.le
  by_contra hne
  exact h.greatest (next - 1) (by omega) (Nat.le_refl _) hnamed

theorem stopsAt_of_named (hnamed : Named log follower (next - 1)) :
    StopsAt log follower next (next - 1) :=
  ⟨Nat.le_refl _, hnamed, fun _ hlt hle => absurd (hlt.trans_le hle) (Nat.lt_irrefl _)⟩

/-- A refused message takes the exchange one index back. -/
theorem stopsAt_succ (hnot : ¬ Named log follower next) :
    StopsAt log follower (next + 1) p ↔ StopsAt log follower next p := by
  have hpos : next ≠ 0 := fun hzero => hnot (.inl hzero)
  constructor
  · intro h
    have hle := h.le
    have hne : p ≠ next := by
      rintro rfl
      exact hnot h.named
    exact ⟨by omega, h.named, fun i hlt hi => h.greatest i hlt (by omega)⟩
  · intro h
    have hle := h.le
    refine ⟨by omega, h.named, fun i hlt hi => ?_⟩
    rcases Nat.lt_or_ge i next with hless | hge
    · exact h.greatest i hlt (by omega)
    · obtain rfl : i = next := by omega
      exact hnot

/-- **The exchange.** It ends as it should exactly when the message at which the back-off stops
closes the gap. -/
theorem catches_iff : ∀ next : Nat, Catches cfg log follower next matched ↔
    ∃ p, StopsAt log follower next p ∧ Closes cfg log follower p matched
      (entriesFor log cfg.maxCount (stopNext next p)) := by
  intro next
  induction next with
  | zero =>
      have hnamed : Named log follower (0 - 1) := .inl rfl
      rw [catches_iff_closes hnamed]
      constructor
      · exact fun h => ⟨0, stopsAt_of_named hnamed, h⟩
      · rintro ⟨p, hstops, hcloses⟩
        obtain rfl := hstops.eq_of_named hnamed
        exact hcloses
  | succ next ih =>
      by_cases hnamed : Named log follower next
      · rw [catches_iff_closes hnamed]
        constructor
        · exact fun h => ⟨next, stopsAt_of_named hnamed, h⟩
        · rintro ⟨p, hstops, hcloses⟩
          obtain rfl := hstops.eq_of_named hnamed
          exact hcloses
      · have hpos : next ≠ 0 := fun hzero => hnamed (.inl hzero)
        have hnext (p : Nat) : stopNext (next + 1) p = stopNext next p := by
          rw [stopNext, stopNext, if_neg (Nat.succ_ne_zero next), if_neg hpos]
        rw [catches_of_not_named hnamed]
        refine ih.trans (exists_congr fun p => ?_)
        rw [stopsAt_succ hnamed, hnext]

end Stopping

section Nodes

/-- What a leader sends on a connection. -/
inductive Sent where
  | appendEntries (msg : Node.AppendEntries)
  | snapshot

namespace Node

variable (cfg : RaftNodeConfig) (n : Node) (conn : Conn)

/-- `next_index_` of a connection, which `operator[]` adds as 0. -/
def nextOf : Nat := (n.nextIndex[conn]?).getD 0

/-- `match_index_` of a connection. -/
def matchOf : Nat := (n.matchIndex[conn]?).getD 0

/-- `send_append_entries`. It does not ask where the log begins. -/
def sendEntries : Node × Option Sent :=
  let r := n.sendAppendEntries cfg conn
  (r.1, r.2.map .appendEntries)

/-- `trigger_log_sync`, which a join calls. -/
def triggerLogSync : Node × Option Sent :=
  let n' := { n with nextIndex := n.nextIndex.insert conn (n.nextOf conn) }
  if n.nextOf conn < n.logArray.baseIndex then (n', some .snapshot) else n'.sendEntries cfg conn

/-- `handle_append_entries_response`, with what it sends. -/
def answerResponse (success : Bool) (logIndex : Nat) : Node × Option Sent :=
  let n := n.handleAppendEntriesResponse conn success logIndex
  if success then
    let hasMore := n.nextOf conn ≤ n.logArray.getLastIndex
    let n := if cfg.needMajorityConfirm then n.tryCommitEntries.1 else n
    if hasMore then n.sendEntries cfg conn else (n, none)
  else n.sendEntries cfg conn

/-- The node handles a message that came on `origin` and sends its answer. -/
def Answers (origin : Conn) (msg : AppendEntries) (n' : Node) (success : Bool)
    (logIndex : Nat) : Prop :=
  let n₁ := n.handleAppendEntries cfg origin msg
  ∃ save term, n₁.tasks = .appendReply origin save term success logIndex :: n.tasks ∧
    n' = if save = .due then savePersistentState { n₁ with tasks := n.tasks }
      else { n₁ with tasks := n.tasks }

end Node

/-- **The property.** The exchange of a leader and a follower, with what the leader has sent
last, ends: nothing more is sent and the follower has the leader's log, or a snapshot is sent
because the leader's log begins later. What is accepted on the way is right. -/
inductive Replicates (cfg : RaftNodeConfig) (conn origin : Conn) : Node → Node → Option Sent → Prop
  | caughtUp {l f : Node} : Holds l.logArray f.logArray l.logArray.getLastIndex →
      Replicates cfg conn origin l f none
  | snapshot {l f : Node} : l.nextOf conn < l.logArray.baseIndex →
      Replicates cfg conn origin l f (some .snapshot)
  | round {l f f' : Node} {msg : Node.AppendEntries} {success : Bool} {logIndex : Nat} :
      f.Answers cfg origin msg f' success logIndex →
      (success = true → Passes l.logArray f.logArray f'.logArray msg.prevLogIndex msg.entries
        ((l.answerResponse cfg conn success logIndex).1.nextOf conn - 1)) →
      Replicates cfg conn origin (l.answerResponse cfg conn success logIndex).1 f'
        (l.answerResponse cfg conn success logIndex).2 →
      Replicates cfg conn origin l f (some (.appendEntries msg))

variable {cfg : RaftNodeConfig} {conn origin : Conn}

/-- A leader that is the same but for its table and its progress. -/
structure SameLeader (l l' : Node) : Prop where
  role : l'.role = l.role
  term : l'.state.currentTerm = l.state.currentTerm
  log : l'.logArray = l.logArray

/-- The message that a leader sends. -/
def Node.message (cfg : RaftNodeConfig) (l : Node) (conn : Conn) : Node.AppendEntries :=
  ⟨l.state.currentTerm, l.nextOf conn - 1, l.logArray.getTerm (l.nextOf conn - 1),
    entriesFor l.logArray cfg.maxCount (l.nextOf conn), l.state.commitIndex⟩

theorem sendEntries_spec {l : Node} (hrole : l.role = .leader) :
    (l.sendEntries cfg conn).2 =
        some (.appendEntries ((l.sendEntries cfg conn).1.message cfg conn)) ∧
      SameLeader l (l.sendEntries cfg conn).1 ∧
      (l.sendEntries cfg conn).1.nextOf conn = l.nextOf conn ∧
      (l.sendEntries cfg conn).1.matchOf conn = l.matchOf conn := by
  obtain ⟨l', hl'⟩ : ∃ l' : Node,
      l' = { l with nextIndex := l.nextIndex.insert conn (l.nextOf conn) } := ⟨_, rfl⟩
  have hnext : l'.nextOf conn = l.nextOf conn := by
    rw [hl', Node.nextOf, Std.ExtTreeMap.getElem?_insert_self, Option.getD_some]
  have hmsg : l'.message cfg conn = l.message cfg conn := by
    rw [Node.message, Node.message, hnext, hl']
  have hsend : l.sendEntries cfg conn = (l', some (.appendEntries (l.message cfg conn))) := by
    rw [Node.sendEntries, Node.sendAppendEntries, if_neg (fun hne => hne hrole), hl']
    rfl
  rw [hsend]
  refine ⟨by rw [hmsg], ?_, hnext, ?_⟩
  · rw [hl']
    exact ⟨rfl, rfl, rfl⟩
  · rw [hl']
    rfl

theorem SameLeader.trans {l l' l'' : Node} (h : SameLeader l l') (h' : SameLeader l' l'') :
    SameLeader l l'' :=
  ⟨h'.role.trans h.role, h'.term.trans h.term, h'.log.trans h.log⟩

/-- The commit of a leader leaves its table. -/
theorem tryCommitEntries_spec (l : Node) (conn : Conn) :
    SameLeader l l.tryCommitEntries.1 ∧ l.tryCommitEntries.1.nextOf conn = l.nextOf conn ∧
      l.tryCommitEntries.1.matchOf conn = l.matchOf conn := by
  rw [Node.tryCommitEntries]
  split
  · exact ⟨⟨rfl, rfl, rfl⟩, rfl, rfl⟩
  · have happly (l : Node) : SameLeader l l.applyCommittedEntries ∧
        l.applyCommittedEntries.nextOf conn = l.nextOf conn ∧
        l.applyCommittedEntries.matchOf conn = l.matchOf conn := by
      rw [Node.applyCommittedEntries]
      split <;> exact ⟨⟨rfl, rfl, rfl⟩, rfl, rfl⟩
    obtain ⟨hsame, hnext, hmatch⟩ := happly l.advanceCommit
    have hadvance : SameLeader l l.advanceCommit ∧
        l.advanceCommit.nextOf conn = l.nextOf conn ∧
        l.advanceCommit.matchOf conn = l.matchOf conn := by
      rw [Node.advanceCommit]
      split <;> exact ⟨⟨rfl, rfl, rfl⟩, rfl, rfl⟩
    exact ⟨hadvance.1.trans hsame, hnext.trans hadvance.2.1, hmatch.trans hadvance.2.2⟩

theorem answerResponse_refused {l : Node} (hrole : l.role = .leader) (logIndex : Nat) :
    SameLeader l (l.answerResponse cfg conn false logIndex).1 ∧
      (l.answerResponse cfg conn false logIndex).1.nextOf conn = l.nextOf conn - 1 ∧
      (l.answerResponse cfg conn false logIndex).1.matchOf conn = l.matchOf conn ∧
      (l.answerResponse cfg conn false logIndex).2 = some (.appendEntries
        ((l.answerResponse cfg conn false logIndex).1.message cfg conn)) := by
  have hsend : l.answerResponse cfg conn false logIndex =
      (l.handleAppendEntriesResponse conn false logIndex).sendEntries cfg conn := rfl
  obtain ⟨hmsg, hsame, hnext, hmatch⟩ := @sendEntries_spec cfg conn
    (l.handleAppendEntriesResponse conn false logIndex) hrole
  rw [hsend]
  have hfirst : SameLeader l (l.handleAppendEntriesResponse conn false logIndex) := ⟨rfl, rfl, rfl⟩
  refine ⟨hfirst.trans hsame, hnext.trans ?_, hmatch, hmsg⟩
  rw [Node.handleAppendEntriesResponse, if_neg Bool.false_ne_true, Node.nextOf,
    Std.ExtTreeMap.getElem?_insert_self, Option.getD_some, Node.nextOf]

theorem answerResponse_accepted {l : Node} (hrole : l.role = .leader) (logIndex : Nat) :
    SameLeader l (l.answerResponse cfg conn true logIndex).1 ∧
      (l.answerResponse cfg conn true logIndex).1.nextOf conn =
        max (l.matchOf conn) logIndex + 1 ∧
      (l.answerResponse cfg conn true logIndex).1.matchOf conn =
        max (l.matchOf conn) logIndex ∧
      (l.answerResponse cfg conn true logIndex).2 =
        if max (l.matchOf conn) logIndex < l.logArray.getLastIndex then
          some (.appendEntries ((l.answerResponse cfg conn true logIndex).1.message cfg conn))
        else none := by
  obtain ⟨l₁, hl₁⟩ : ∃ l₁, l₁ = l.handleAppendEntriesResponse conn true logIndex := ⟨_, rfl⟩
  have hsame₁ : SameLeader l l₁ := by
    rw [hl₁]
    exact ⟨rfl, rfl, rfl⟩
  have hnext₁ : l₁.nextOf conn = max (l.matchOf conn) logIndex + 1 := by
    rw [hl₁, Node.handleAppendEntriesResponse, if_pos rfl, Node.nextOf,
      Std.ExtTreeMap.getElem?_insert_self, Option.getD_some, Node.matchOf]
  have hmatch₁ : l₁.matchOf conn = max (l.matchOf conn) logIndex := by
    rw [hl₁, Node.handleAppendEntriesResponse, if_pos rfl, Node.matchOf,
      Std.ExtTreeMap.getElem?_insert_self, Option.getD_some, Node.matchOf]
  -- the node after the commit
  obtain ⟨l₂, hl₂⟩ : ∃ l₂, l₂ = if cfg.needMajorityConfirm then l₁.tryCommitEntries.1 else l₁ :=
    ⟨_, rfl⟩
  obtain ⟨hsame₂, hnext₂, hmatch₂⟩ : SameLeader l₁ l₂ ∧ l₂.nextOf conn = l₁.nextOf conn ∧
      l₂.matchOf conn = l₁.matchOf conn := by
    rw [hl₂]
    split
    · exact tryCommitEntries_spec l₁ conn
    · exact ⟨⟨rfl, rfl, rfl⟩, rfl, rfl⟩
  have hanswer : l.answerResponse cfg conn true logIndex =
      if max (l.matchOf conn) logIndex < l.logArray.getLastIndex then l₂.sendEntries cfg conn
      else (l₂, none) := by
    have h : l.answerResponse cfg conn true logIndex =
        if l₁.nextOf conn ≤ l₁.logArray.getLastIndex then l₂.sendEntries cfg conn
        else (l₂, none) := by
      rw [hl₂, hl₁]
      rfl
    rw [h, hnext₁, hsame₁.log]
    rfl
  have hsame := hsame₁.trans hsame₂
  rw [hanswer]
  split
  · obtain ⟨hmsg, hsame₃, hnext₃, hmatch₃⟩ := @sendEntries_spec cfg conn l₂
      (hsame.role.trans hrole)
    exact ⟨hsame.trans hsame₃, hnext₃.trans (hnext₂.trans hnext₁),
      hmatch₃.trans (hmatch₂.trans hmatch₁), hmsg⟩
  · exact ⟨hsame, hnext₂.trans hnext₁, hmatch₂.trans hmatch₁, rfl⟩

/-- What the answers of a follower in the term of a message can be. -/
theorem answers_spec {f f' : Node} {msg : Node.AppendEntries} {success : Bool} {logIndex : Nat}
    (h : f.Answers cfg origin msg f' success logIndex) (hterm : f.state.currentTerm ≤ msg.term) :
    f'.state.currentTerm = msg.term ∧
      ((f.prevMatches msg = false ∧ success = false ∧ f'.logArray = f.logArray) ∨
        (f.prevMatches msg = true ∧
          (Node.appendLoop cfg f.logArray 0 msg.entries).returned = true ∧ success = true ∧
          f'.logArray = (Node.appendLoop cfg f.logArray 0 msg.entries).log ∧
          logIndex = (Node.appendLoop cfg f.logArray 0 msg.entries).log.getLastIndex)) := by
  obtain ⟨save, term, htasks, hf'⟩ := h
  -- the answer leaves the term and the log
  have hsent : f'.state.currentTerm = (f.handleAppendEntries cfg origin msg).state.currentTerm ∧
      f'.logArray = (f.handleAppendEntries cfg origin msg).logArray := by
    rw [hf']
    split <;> exact ⟨rfl, rfl⟩
  rcases @handleAppendEntries_cases cfg f origin msg
    with ⟨hold, -⟩ | ⟨-, hprev, heq⟩ | ⟨-, -, -, heq⟩ | ⟨-, hprev, hret, heq⟩
  · exact absurd hold (Nat.not_lt_of_le hterm)
  · rw [heq] at htasks hsent
    have hhead := (List.cons.inj htasks).1
    simp only [Task.appendReply.injEq] at hhead
    exact ⟨hsent.1, .inl ⟨hprev, hhead.2.2.2.1.symm, hsent.2⟩⟩
  · rw [heq] at htasks
    exact absurd htasks.symm (List.cons_ne_self _ _)
  · rw [heq] at htasks hsent
    have hhead := (List.cons.inj htasks).1
    simp only [Task.appendReply.injEq] at hhead
    exact ⟨hsent.1, .inr ⟨hprev, hret, hhead.2.2.2.1.symm, hsent.2, hhead.2.2.2.2.symm⟩⟩

theorem answers_of_tasks {f : Node} {msg : Node.AppendEntries} {save : Saving} {success : Bool}
    {term logIndex : Nat} (h : (f.handleAppendEntries cfg origin msg).tasks =
      .appendReply origin save term success logIndex :: f.tasks) :
    ∃ f', f.Answers cfg origin msg f' success logIndex := ⟨_, save, term, h, rfl⟩

theorem answers_refused {f : Node} {msg : Node.AppendEntries}
    (hterm : f.state.currentTerm ≤ msg.term) (hprev : f.prevMatches msg = false) :
    ∃ f' logIndex, f.Answers cfg origin msg f' false logIndex := by
  rcases @handleAppendEntries_cases cfg f origin msg
    with ⟨hold, -⟩ | ⟨-, -, heq⟩ | ⟨-, hmatch, -, -⟩ | ⟨-, hmatch, -, -⟩
  · exact absurd hold (Nat.not_lt_of_le hterm)
  · have htasks : (f.handleAppendEntries cfg origin msg).tasks = .appendReply origin
        (.when (decide (f.state.currentTerm < msg.term))) msg.term false f.logArray.getLastIndex ::
          f.tasks := by
      rw [heq]
      rfl
    obtain ⟨f', hanswers⟩ := answers_of_tasks htasks
    exact ⟨f', f.logArray.getLastIndex, hanswers⟩
  · rw [hprev] at hmatch
    cases hmatch
  · rw [hprev] at hmatch
    cases hmatch

theorem answers_accepted {f : Node} {msg : Node.AppendEntries}
    (hterm : f.state.currentTerm ≤ msg.term) (hprev : f.prevMatches msg = true)
    (hret : (Node.appendLoop cfg f.logArray 0 msg.entries).returned = true) :
    ∃ f', f.Answers cfg origin msg f' true
      (Node.appendLoop cfg f.logArray 0 msg.entries).log.getLastIndex := by
  rcases @handleAppendEntries_cases cfg f origin msg
    with ⟨hold, -⟩ | ⟨-, hmismatch, -⟩ | ⟨-, -, hstop, -⟩ | ⟨-, -, -, heq⟩
  · exact absurd hold (Nat.not_lt_of_le hterm)
  · rw [hprev] at hmismatch
    cases hmismatch
  · rw [hret] at hstop
    cases hstop
  · apply answers_of_tasks
    rw [heq]
    rfl

theorem prevMatches_iff_or (n : Node) (msg : Node.AppendEntries) : n.prevMatches msg = true ↔
    msg.prevLogIndex = 0 ∨
      ∃ e, n.logArray.get msg.prevLogIndex = some e ∧ e.term = msg.prevLogTerm := by
  rw [Node.prevMatches]
  by_cases hzero : msg.prevLogIndex = 0
  · rw [if_pos hzero]
    exact iff_of_true rfl (.inl hzero)
  · rw [if_neg hzero, or_iff_right hzero]
    cases n.logArray.get msg.prevLogIndex with
    | none => simp
    | some e => simp

theorem prevMatches_message (l f : Node) :
    f.prevMatches (l.message cfg conn) = true ↔
      Named l.logArray f.logArray (l.nextOf conn - 1) := prevMatches_iff_or f (l.message cfg conn)

/-- The handlers do the exchange of the two logs. -/
theorem Replicates.catches {l f : Node} {sent : Option Sent}
    (h : Replicates cfg conn origin l f sent) : l.role = .leader →
      f.state.currentTerm ≤ l.state.currentTerm →
      sent = some (.appendEntries (l.message cfg conn)) →
      Catches cfg l.logArray f.logArray (l.nextOf conn) (l.matchOf conn) := by
  induction h with
  | caughtUp _ =>
      intro _ _ hsent
      cases hsent
  | snapshot _ =>
      intro _ _ hsent
      cases hsent
  | @round l f f' msg success logIndex hanswers hpasses _ ih =>
      intro hrole hterm hsent
      obtain rfl := Sent.appendEntries.inj (Option.some.inj hsent)
      obtain ⟨hterm', ⟨hprev, rfl, hlog⟩ | ⟨hprev, hret, rfl, hlog, hindex⟩⟩ :=
        answers_spec hanswers hterm
      · have hnot : ¬ Named l.logArray f.logArray (l.nextOf conn - 1) := by
          rw [← @prevMatches_message cfg conn, hprev]
          exact Bool.false_ne_true
        obtain ⟨hsame, hnext, hmatch, hmore⟩ := @answerResponse_refused cfg conn l hrole logIndex
        have hrest := ih (hsame.role.trans hrole) (hterm'.trans hsame.term.symm).le hmore
        rw [hsame.log, hlog, hnext, hmatch] at hrest
        exact .retry hnot hrest
      · have hnamed := (prevMatches_message l f).1 hprev
        obtain ⟨hsame, hnext, hmatch, hmore⟩ := @answerResponse_accepted cfg conn l hrole logIndex
        have hpassed := hpasses rfl
        have hafter : matchAfter cfg l.logArray f.logArray (l.nextOf conn) (l.matchOf conn) =
            max (l.matchOf conn) logIndex := by
          rw [hindex]
          rfl
        rw [hnext, Nat.add_sub_cancel, ← hafter, hlog] at hpassed
        refine .accepted hnamed hret hpassed fun hlt => ?_
        rw [hafter] at hlt ⊢
        rw [if_pos hlt] at hmore
        have hrest := ih (hsame.role.trans hrole) (hterm'.trans hsame.term.symm).le hmore
        rw [hsame.log, hlog, hnext, hmatch] at hrest
        exact hrest

/-- And the exchange of the logs is done by the handlers. -/
theorem Catches.replicates {log follower : RaftLogArray} {next matched : Nat}
    (h : Catches cfg log follower next matched) : ∀ l f : Node, l.role = .leader →
      f.state.currentTerm ≤ l.state.currentTerm → l.logArray = log → f.logArray = follower →
      l.nextOf conn = next → l.matchOf conn = matched →
      Replicates cfg conn origin l f (some (.appendEntries (l.message cfg conn))) := by
  induction h with
  | retry hnot _ ih =>
      rintro l f hrole hterm rfl rfl rfl rfl
      have hprev : f.prevMatches (l.message cfg conn) = false := by
        rw [← @prevMatches_message cfg conn] at hnot
        exact Bool.eq_false_iff.2 hnot
      obtain ⟨f', logIndex, hanswers⟩ := @answers_refused cfg origin _ _ hterm hprev
      obtain ⟨hterm', ⟨-, -, hlog⟩ | ⟨hmatch, -⟩⟩ := answers_spec hanswers hterm
      · obtain ⟨hsame, hnext, hmatch, hmore⟩ := @answerResponse_refused cfg conn l hrole logIndex
        refine .round hanswers (fun h => absurd h Bool.false_ne_true) ?_
        rw [hmore]
        exact ih _ f' (hsame.role.trans hrole) (hterm'.trans hsame.term.symm).le hsame.log hlog
          hnext hmatch
      · rw [hprev] at hmatch
        cases hmatch
  | accepted hnamed hret hpasses _ ih =>
      rintro l f hrole hterm rfl rfl rfl rfl
      have hprev := (@prevMatches_message cfg conn l f).2 hnamed
      obtain ⟨f', hanswers⟩ := @answers_accepted cfg origin _ _ hterm hprev hret
      obtain ⟨hterm', ⟨hmismatch, -⟩ | ⟨-, -, -, hlog, -⟩⟩ := answers_spec hanswers hterm
      · rw [hprev] at hmismatch
        cases hmismatch
      · obtain ⟨hsame, hnext, hmatch, hmore⟩ := @answerResponse_accepted cfg conn l hrole
          (Node.appendLoop cfg f.logArray 0 (l.message cfg conn).entries).log.getLastIndex
        have hafter : max (l.matchOf conn)
            (Node.appendLoop cfg f.logArray 0 (l.message cfg conn).entries).log.getLastIndex =
            matchAfter cfg l.logArray f.logArray (l.nextOf conn) (l.matchOf conn) := rfl
        rw [hafter] at hnext hmatch hmore
        refine .round hanswers (fun _ => ?_) ?_
        · rw [hnext, hlog, Nat.add_sub_cancel]
          exact hpasses
        · rw [hmore]
          by_cases hlt : matchAfter cfg l.logArray f.logArray (l.nextOf conn) (l.matchOf conn) <
              l.logArray.getLastIndex
          · rw [if_pos hlt]
            exact ih hlt _ f' (hsame.role.trans hrole) (hterm'.trans hsame.term.symm).le hsame.log
              hlog hnext hmatch
          · -- nothing is left to send
            rw [if_neg hlt]
            refine .caughtUp ?_
            rw [hsame.log, hlog]
            exact hpasses.passed.mono (by omega)

theorem sends_iff {l f : Node} (hrole : l.role = .leader)
    (hterm : f.state.currentTerm ≤ l.state.currentTerm) :
    Replicates cfg conn origin (l.sendEntries cfg conn).1 f (l.sendEntries cfg conn).2 ↔
      ∃ p, StopsAt l.logArray f.logArray (l.nextOf conn) p ∧
        Closes cfg l.logArray f.logArray p (l.matchOf conn)
          (entriesFor l.logArray cfg.maxCount (stopNext (l.nextOf conn) p)) := by
  obtain ⟨hmsg, hsame, hnext, hmatch⟩ := @sendEntries_spec cfg conn l hrole
  rw [← catches_iff]
  constructor
  · intro h
    have hcatches := h.catches (hsame.role.trans hrole) (hterm.trans hsame.term.ge) hmsg
    rwa [hsame.log, hnext, hmatch] at hcatches
  · intro h
    rw [hmsg]
    exact h.replicates _ f (hsame.role.trans hrole) (hterm.trans hsame.term.ge) hsame.log rfl hnext
      hmatch

/-- **Back-off.** What a leader sends to a follower of its term starts an exchange that ends as
it should exactly when the message at which the back-off stops closes the gap. A join sends a
snapshot when `next_index_` is below the base. -/
theorem replicates_iff (cfg : RaftNodeConfig) (conn origin : Conn) (l f : Node)
    (hrole : l.role = .leader) (hterm : f.state.currentTerm ≤ l.state.currentTerm) :
    (Replicates cfg conn origin (l.sendEntries cfg conn).1 f (l.sendEntries cfg conn).2 ↔
      ∃ p, StopsAt l.logArray f.logArray (l.nextOf conn) p ∧
        Closes cfg l.logArray f.logArray p (l.matchOf conn)
          (entriesFor l.logArray cfg.maxCount (stopNext (l.nextOf conn) p))) ∧
    (Replicates cfg conn origin (l.triggerLogSync cfg conn).1 f (l.triggerLogSync cfg conn).2 ↔
      l.nextOf conn < l.logArray.baseIndex ∨
      ∃ p, StopsAt l.logArray f.logArray (l.nextOf conn) p ∧
        Closes cfg l.logArray f.logArray p (l.matchOf conn)
          (entriesFor l.logArray cfg.maxCount (stopNext (l.nextOf conn) p))) := by
  refine ⟨sends_iff hrole hterm, ?_⟩
  obtain ⟨l', hl'⟩ : ∃ l' : Node,
      l' = { l with nextIndex := l.nextIndex.insert conn (l.nextOf conn) } := ⟨_, rfl⟩
  have hnext : l'.nextOf conn = l.nextOf conn := by
    rw [hl', Node.nextOf, Std.ExtTreeMap.getElem?_insert_self, Option.getD_some]
  have hsync : l.triggerLogSync cfg conn =
      if l.nextOf conn < l.logArray.baseIndex then (l', some .snapshot)
      else l'.sendEntries cfg conn := by
    rw [hl', Node.triggerLogSync]
  have hlog : l'.logArray = l.logArray := by rw [hl']
  rw [hsync]
  by_cases hlate : l.nextOf conn < l.logArray.baseIndex
  · rw [if_pos hlate]
    refine iff_of_true (.snapshot ?_) (.inl hlate)
    rwa [hnext, hlog]
  · have hmatch : l'.matchOf conn = l.matchOf conn := by
      rw [hl']
      rfl
    have hrole' : l'.role = .leader := by rw [hl', hrole]
    have hterm' : f.state.currentTerm ≤ l'.state.currentTerm := by rwa [hl']
    rw [if_neg hlate, or_iff_right hlate, sends_iff hrole' hterm', hnext, hmatch, hlog]

section Examples

/-- The next index of the follower on connection 1. -/
def leading (log : RaftLogArray) (next : Nat) : Node :=
  { state := { currentTerm := 2 }, logArray := log, nextIndex := (∅ : IndexTable).insert 1 next }

/-- A log from index 1 on with these terms. -/
def termsLog (terms : List Nat) : RaftLogArray :=
  ({} : RaftLogArray).extend (terms.map fun term => ⟨term, 0, [UInt8.ofNat term]⟩)

/-- A follower with two entries of an old term in the place of one of the leader's gives them
up: the back-off goes from index 4 to index 2. -/
theorem replicates_conflict : Replicates Cluster.plainConfig 1 1
    ((leading (termsLog [1, 2]) 4).sendEntries Cluster.plainConfig 1).1
    { logArray := termsLog [1, 1, 1] }
    ((leading (termsLog [1, 2]) 4).sendEntries Cluster.plainConfig 1).2 := by
  apply (replicates_iff Cluster.plainConfig 1 1 (leading (termsLog [1, 2]) 4)
    { logArray := termsLog [1, 1, 1] } rfl (by decide)).1.2
  have hstops : StopsAt (termsLog [1, 2]) (termsLog [1, 1, 1]) 4 1 := by
    refine ⟨by decide, .inr ⟨_, rfl, rfl⟩, fun i hlt hle hnamed => ?_⟩
    rcases hnamed with rfl | ⟨e, he, hterm⟩
    · exact absurd hlt (by decide)
    · obtain rfl | rfl : i = 2 ∨ i = 3 := by omega
      · obtain rfl := Option.some.inj he
        exact absurd hterm (by decide)
      · obtain rfl := Option.some.inj he
        exact absurd hterm (by decide)
  have hquiet (a b : Nat) : Cluster.plainConfig.logConfig.QuietTo a b :=
    fun _ _ _ => .inr (.inl rfl)
  refine ⟨1, hstops, ⟨.inr ⟨by decide, by decide, fun _ => rfl, hquiet _ _⟩, ?_, by decide,
    by decide, hquiet _ _⟩⟩
  intro i hi hbase _
  obtain rfl : i = 1 := Nat.le_antisymm hi hbase
  rfl

/-- A follower that has the first of four entries, of which the leader has discarded two, is sent
no entries for ever. A follower with a tail of an old term keeps it when `next_index_` starts below
the tail, and counts as caught up. -/
theorem not_replicates_truncated :
    ¬ Replicates Cluster.plainConfig 1 1
      ((leading ((termsLog [1, 1, 1, 1]).dropFront 2) 2).sendEntries Cluster.plainConfig 1).1
      { logArray := termsLog [1] }
      ((leading ((termsLog [1, 1, 1, 1]).dropFront 2) 2).sendEntries Cluster.plainConfig 1).2 ∧
    ¬ Replicates { Cluster.plainConfig with appendEntriesMaxBatch := 1 } 1 1
      ((leading (termsLog [1, 1, 2]) 2).sendEntries
        { Cluster.plainConfig with appendEntriesMaxBatch := 1 } 1).1
      { logArray := termsLog [1, 1, 1, 1] }
      ((leading (termsLog [1, 1, 2]) 2).sendEntries
        { Cluster.plainConfig with appendEntriesMaxBatch := 1 } 1).2 := by
  constructor
  · rw [sends_iff rfl (by decide)]
    rintro ⟨p, hstops, hcloses⟩
    obtain rfl | rfl : p = 0 ∨ p = 1 := by
      have hle : p ≤ 1 := hstops.le
      omega
    · exact absurd (hcloses.covers (by decide)) (by decide)
    · rcases hstops.named with hzero | ⟨e, he, hterm⟩
      · cases hzero
      · obtain rfl := Option.some.inj he
        exact absurd hterm (by decide)
  · rw [sends_iff rfl (by decide)]
    rintro ⟨p, hstops, hcloses⟩
    obtain rfl : p = 1 := hstops.eq_of_named (.inr ⟨_, rfl, rfl⟩)
    -- the follower has the entry of the message, and keeps what is behind it
    have hsame := hcloses.same 3 (by decide) (by decide) (by decide)
    exact absurd hsame (by decide)

end Examples

end Nodes

end EyaKV.Raft
