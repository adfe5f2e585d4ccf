import EyaKV.Raft.BatchSequence

/-!
# What becomes of a batch

From any place of `run_batch`, without a condition: a command is collected or the group is executed
(`item_cases`), a response that nothing waits for is final (`runBatch_settled`), and a command that
has been collected is answered by the execution of its group (`runBatch_collected`).
-/

set_option autoImplicit false

namespace EyaKV.Raft

open EyaKV.Base EyaKV.Base.Recency EyaKV.Common EyaKV.Store

section Futures

variable {σ : Type} {execute : Bytes → σ → Response × σ} {results : Bytes → Option Response}
  {places : Nat}

theorem LeaderNode.Tracks.lookup {n : LeaderNode σ} {uses : List Bytes}
    (h : n.Tracks results places uses) (id : Bytes) :
    ∃ uses', (n.lookup id).2.Tracks results places uses' := by
  by_cases hrecent : Recent places id uses
  · obtain ⟨response, m, hlookup, -, -, hm⟩ := h.lookup_found hrecent
    rw [hlookup]
    exact ⟨id :: uses, hm⟩
  · rw [h.lookup_none hrecent]
    exact ⟨uses, h⟩

namespace BatchRun

variable {r r' : BatchRun σ} {c : Command}

/-- The execution of a group answers the group. -/
theorem flush_other (h : r.flush execute = some r') :
    r'.currentCmds = [] ∧
      ∀ id ∉ r.currentCmds.map Command.requestId, r'.responses id = r.responses id := by
  obtain ⟨s, hs, rfl⟩ := Option.map_eq_some_iff.1 h
  refine ⟨rfl, fun id hid => ?_⟩
  change s.responses id = r.responses id
  split at hs
  · obtain rfl := Option.some.inj hs
    rw [executeBatchReadCommand, foldl_readItem]
    have hkeep (cmds : List Command) : ∀ p : σ × (Bytes → Response),
        id ∉ cmds.map Command.requestId → (cmds.foldl (readOutcome execute) p).2 id = p.2 id := by
      induction cmds with
      | nil =>
          intro p _
          rfl
      | cons c rest ih =>
          intro p hmem
          rw [List.map_cons, List.mem_cons, not_or] at hmem
          rw [List.foldl_cons, ih _ hmem.2, readOutcome]
          exact Function.update_of_ne hmem.1 _ _
    exact hkeep r.currentCmds _ hid
  · rw [executeBatchWriteCommand] at hs
    split at hs
    · obtain rfl := Option.some.inj hs
      rfl
    · obtain ⟨n, -, rfl⟩ := Option.map_eq_some_iff.1 hs
      rw [(foldl_harvestItem r.currentCmds _).2.2.2 id, if_neg hid]

/-- The command is collected, or answered at once. -/
def Collects (r : BatchRun σ) (c : Command) (r' : BatchRun σ) : Prop :=
  (r'.node = r.node ∨ r'.node = (r.node.lookup c.requestId).2) ∧
    (r.currentCmds ≠ [] → r'.isRead = r.isRead) ∧
    (∃ more, r'.currentCmds = r.currentCmds ++ more ∧ (more = [] ∨ more = [c] ∧ c.cmd ≠ [])) ∧
    ∀ id, id ≠ c.requestId → r'.responses id = r.responses id

/-- The group is executed before the command. -/
def Flushes (execute : Bytes → σ → Response × σ) (r : BatchRun σ) (c : Command)
    (r' : BatchRun σ) : Prop :=
  ∃ r₁, ({ r with node := (r.node.lookup c.requestId).2 } : BatchRun σ).flush execute = some r₁ ∧
    (r'.currentCmds = [] ∨ r'.currentCmds = [c] ∧ c.cmd ≠ []) ∧
    ∀ id, id ≠ c.requestId → r'.responses id = r₁.responses id

/-- What is answered at once. -/
theorem collects_answer {n : LeaderNode σ} {response : Response}
    (hn : n = r.node ∨ n = (r.node.lookup c.requestId).2) :
    Collects r c ({ r with node := n }.answer c.requestId response) :=
  ⟨hn, fun _ => rfl, ⟨[], (List.append_nil _).symm, Or.inl rfl⟩,
    fun _ hid => Function.update_of_ne hid _ _⟩

/-- A read or a write joins the group, or the next group begins with it. -/
theorem group_cases {n : LeaderNode σ} (hn : (r.node.lookup c.requestId).2 = n)
    (hcmd : c.cmd ≠ []) {joins isRead : Bool}
    (h : (if joins then some { r with node := n, currentCmds := r.currentCmds ++ [c] }
      else if r.currentCmds = [] then
        some { r with node := n, currentCmds := [c], isRead := isRead }
      else (flush execute { r with node := n }).map
        fun r => { r with currentCmds := [c], isRead := isRead }) = some r') :
    Collects r c r' ∨ Flushes execute r c r' := by
  split at h
  · obtain rfl := Option.some.inj h
    exact Or.inl ⟨Or.inr hn.symm, fun _ => rfl, ⟨[c], rfl, Or.inr ⟨rfl, hcmd⟩⟩, fun _ _ => rfl⟩
  · split at h
    · next hnil =>
        obtain rfl := Option.some.inj h
        refine Or.inl ⟨Or.inr hn.symm, fun hne => absurd hnil hne, ⟨[c], ?_, Or.inr ⟨rfl, hcmd⟩⟩,
          fun _ _ => rfl⟩
        rw [hnil]
        rfl
    · obtain ⟨r₁, hflush, rfl⟩ := Option.map_eq_some_iff.1 h
      rw [← hn] at hflush
      exact Or.inr ⟨r₁, hflush, Or.inr ⟨rfl, hcmd⟩, fun _ _ => rfl⟩

theorem item_cases (h : r.item execute c = some r') : Collects r c r' ∨ Flushes execute r c r' := by
  rw [item] at h
  by_cases hcmd : c.cmd = []
  · rw [if_pos hcmd] at h
    obtain rfl := Option.some.inj h
    exact Or.inl (collects_answer (Or.inl rfl))
  · rw [if_neg hcmd] at h
    by_cases hid : c.requestId = []
    · rw [if_pos hid] at h
      obtain rfl := Option.some.inj h
      exact Or.inl (collects_answer (Or.inl rfl))
    · rw [if_neg hid] at h
      rcases hlookup : r.node.lookup c.requestId with ⟨found, n⟩
      have hn : (r.node.lookup c.requestId).2 = n := congrArg Prod.snd hlookup
      rw [hlookup] at h
      cases found with
      | some response =>
          obtain rfl := Option.some.inj h
          exact Or.inl (collects_answer (Or.inr hn.symm))
      | none =>
          cases hparse : parseString c.cmd with
          | invalid =>
              simp only [hparse] at h
              obtain rfl := Option.some.inj h
              exact Or.inl (collects_answer (Or.inr hn.symm))
          | unknown =>
              simp only [hparse] at h
              cases h
          | known kind args =>
              cases kind with
              | read =>
                  simp only [hparse] at h
                  exact group_cases hn hcmd h
              | write =>
                  simp only [hparse] at h
                  exact group_cases hn hcmd h
              | raft op =>
                  simp only [hparse] at h
                  -- a command of the cluster has the group executed before it is handled itself
                  obtain ⟨r₁, hflush, hanswer⟩ := Option.bind_eq_some_iff.1 h
                  obtain ⟨response, -, rfl⟩ := Option.map_eq_some_iff.1 hanswer
                  have hflush' : ({ r with node := (r.node.lookup c.requestId).2 } :
                      BatchRun σ).flush execute = some r₁ := by
                    rw [hn]
                    split at hflush
                    · next hnil =>
                        exact (flush_of_nil (r := { r with node := n }) hnil).trans hflush
                    · exact hflush
                  exact Or.inr ⟨r₁, hflush', Or.inl (flush_other hflush').1,
                    fun id hid => Function.update_of_ne hid _ _⟩

/-- A response that nothing waits for is final. -/
theorem runBatch_settled {id : Bytes} (rest : List Command) : ∀ {r r' : BatchRun σ},
    id ∉ r.currentCmds.map Command.requestId → id ∉ rest.map Command.requestId →
      r.runBatch execute rest = some r' → r'.responses id = r.responses id := by
  induction rest with
  | nil =>
      intro r r' hid _ hrun
      rw [runBatch] at hrun
      split at hrun
      · rw [Option.some.inj hrun]
      · exact (flush_other hrun).2 id hid
  | cons c rest ih =>
      intro r r' hid hrest hrun
      rw [List.map_cons, List.mem_cons, not_or] at hrest
      obtain ⟨r₁, hitem, hmore⟩ := Option.bind_eq_some_iff.1 hrun
      rcases item_cases hitem with ⟨-, -, ⟨more, hcmds, hkind⟩, hsame⟩ | ⟨r₂, hflush, hcmds, hsame⟩
      · rw [← hsame id hrest.1]
        refine ih ?_ hrest.2 hmore
        rw [hcmds, List.map_append, List.mem_append, not_or]
        refine ⟨hid, ?_⟩
        rcases hkind with rfl | ⟨rfl, -⟩
        · exact List.not_mem_nil
        · rw [List.map_singleton, List.mem_singleton]
          exact hrest.1
      · rw [← (flush_other hflush).2 id hid, ← hsame id hrest.1]
        refine ih ?_ hrest.2 hmore
        rcases hcmds with hnil | ⟨hone, -⟩
        · rw [hnil]
          exact List.not_mem_nil
        · rw [hone, List.map_singleton, List.mem_singleton]
          exact hrest.1

theorem runBatch_answered {id : Bytes} {response : Response} {rest : List Command}
    (hid : id ∉ r.currentCmds.map Command.requestId) (hrest : id ∉ rest.map Command.requestId)
    (hrun : (r.answer id response).runBatch execute rest = some r') :
    r'.responses id = response := by
  have hnot : id ∉ (r.answer id response).currentCmds.map Command.requestId := hid
  rw [runBatch_settled rest hnot hrest hrun]
  exact Function.update_self _ _ _

/-- A command that has been collected is answered by the execution of a group that begins with
those collected so far. -/
theorem runBatch_collected {p : Command} (rest : List Command) : ∀ {r r' : BatchRun σ}
    {uses : List Bytes}, r.node.Tracks results places uses → p ∈ r.currentCmds →
      p.requestId ∉ rest.map Command.requestId → r.runBatch execute rest = some r' →
      ∃ (r₁ : BatchRun σ) (more : List Command) (uses' : List Bytes) (r₂ : BatchRun σ),
        r₁.currentCmds = r.currentCmds ++ more ∧ more.Sublist rest ∧ (∀ e ∈ more, e.cmd ≠ []) ∧
        r₁.isRead = r.isRead ∧ r₁.node.Tracks results places uses' ∧ r₁.flush execute = some r₂ ∧
        r'.responses p.requestId = r₂.responses p.requestId := by
  induction rest with
  | nil =>
      intro r r' uses htracks hp _ hrun
      rw [runBatch, if_neg (List.ne_nil_of_mem hp)] at hrun
      exact ⟨r, [], uses, r', (List.append_nil _).symm, List.Sublist.refl _,
        fun e he => absurd he List.not_mem_nil, rfl, htracks, hrun, rfl⟩
  | cons c rest ih =>
      intro r r' uses htracks hp hrest hrun
      rw [List.map_cons, List.mem_cons, not_or] at hrest
      obtain ⟨r₁, hitem, hmore⟩ := Option.bind_eq_some_iff.1 hrun
      obtain ⟨uses₁, htracks₁⟩ := htracks.lookup c.requestId
      -- the next command joins the group or flushes it first
      rcases item_cases hitem with
        ⟨hnode, hread, ⟨more, hcmds, hkind⟩, -⟩ | ⟨r₂, hflush, hcmds, hsame⟩
      · have hnode₁ : ∃ uses', r₁.node.Tracks results places uses' := by
          rcases hnode with hold | hlookup
          · exact ⟨uses, hold ▸ htracks⟩
          · exact ⟨uses₁, hlookup ▸ htracks₁⟩
        obtain ⟨uses', htracks'⟩ := hnode₁
        have hp₁ : p ∈ r₁.currentCmds := by
          rw [hcmds]
          exact List.mem_append_left _ hp
        obtain ⟨s, more', uses'', s', hcmds', hsub, htexts, hread', hs, hflush, hresponse⟩ :=
          ih htracks' hp₁ hrest.2 hmore
        refine ⟨s, more ++ more', uses'', s', ?_, ?_, ?_, ?_, hs, hflush, hresponse⟩
        · rw [hcmds', hcmds, List.append_assoc]
        · rcases hkind with rfl | ⟨rfl, -⟩
          · exact hsub.cons c
          · exact hsub.cons_cons c
        · intro e he
          rcases List.mem_append.1 he with hin | hin
          · rcases hkind with rfl | ⟨rfl, hcmd⟩
            · cases hin
            · rwa [List.mem_singleton.1 hin]
          · exact htexts e hin
        · exact hread'.trans (hread (List.ne_nil_of_mem hp))
      · refine ⟨{ r with node := (r.node.lookup c.requestId).2 }, [], uses₁, r₂,
          (List.append_nil _).symm, List.nil_sublist _, fun e he => absurd he List.not_mem_nil,
          rfl, htracks₁, hflush, ?_⟩
        rw [← hsame p.requestId hrest.1]
        -- behind the flush nothing answers for the command again, since no later one has its id
        refine runBatch_settled rest ?_ hrest.2 hmore
        rcases hcmds with hnil | ⟨hone, -⟩
        · rw [hnil]
          exact List.not_mem_nil
        · rw [hone, List.map_singleton, List.mem_singleton]
          exact hrest.1

/-- A write is answered with what the cache has of it when its group has been applied. -/
theorem response_of_flush {p : Command} {uses : List Bytes} (h : r.node.Tracks results places uses)
    (hread : ¬ r.isRead = true) (hp : p ∈ r.currentCmds) (hflush : r.flush execute = some r') :
    ∃ cache, Caches cache (r.node.core.perform execute results r.currentCmds).2 places
        ((cachedIds r.currentCmds).reverse ++ ((cachedIds r.node.waiting).reverse ++ uses)) ∧
      r'.responses p.requestId =
        (cache.get p.requestId).1.getD (.error "execute failed") := by
  have hne := List.ne_nil_of_mem hp
  obtain ⟨s, hs, rfl⟩ := Option.map_eq_some_iff.1 hflush
  rw [if_neg hread, executeBatchWriteCommand, if_neg hne] at hs
  obtain ⟨n, happend, rfl⟩ := Option.map_eq_some_iff.1 hs
  have hroom : r.currentCmds.length ≤ r.node.room := by
    by_contra hlt
    rw [LeaderNode.append, if_neg (show ¬ _ ≤ r.node.clearLeader.room from hlt)] at happend
    cases happend
  obtain ⟨m, hcommit, -, hm⟩ := h.commit execute hne hroom
  rw [happend] at hcommit
  obtain rfl := Option.some.inj hcommit
  refine ⟨(n.commitEntries execute).resultCache, hm.caches, ?_⟩
  change (r.currentCmds.foldl harvestItem _).responses p.requestId = _
  rw [(foldl_harvestItem r.currentCmds _).2.2.2, if_pos (List.mem_map_of_mem hp)]

end BatchRun

end Futures

end EyaKV.Raft
