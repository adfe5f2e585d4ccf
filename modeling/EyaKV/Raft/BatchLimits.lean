import EyaKV.Raft.BatchFutures

/-!
# The limits of a batch

`submit_batch_command` does on every storage what `submit_command` does on the commands one by one,
exactly when the list suits the node (`agrees_iff`). That it is enough is `WellFormed.agrees`. For
the other direction the storage answers every command with its text, so that a lookup which goes
astray, a lost result or a command that throws shows in a response.
-/

set_option autoImplicit false

namespace EyaKV.Raft

open EyaKV.Base EyaKV.Base.Recency EyaKV.Common EyaKV.Store

section Echoes

/-- A storage that answers every command with its text. -/
def echo (cmd : Bytes) (_ : Unit) : Response × Unit := (.success (.string cmd), ())

/-- The responses of the cache before the list, and those of the entries that wait. -/
def Old (response : Response) : Prop :=
  response = .success .monostate ∨ response = .success (.string [])

/-- The responses that the commands of the list get when the cache has none. -/
def New (response : Response) : Prop :=
  response.code = .error ∨ ∃ text, text ≠ [] ∧ response = .success (.string text)

theorem Old.not_new {response : Response} (h : Old response) : ¬ New response := by
  rintro (hcode | ⟨text, htext, htext'⟩)
  · rcases h with rfl | rfl <;> cases hcode
  · rcases h with rfl | rfl
    · cases htext'
    · cases htext'
      exact htext rfl

theorem Old.code_ne {response : Response} (h : Old response) : response.code ≠ .error :=
  fun hcode => h.not_new (Or.inl hcode)

theorem Old.not_alike_new {response response' : Response} (h : Old response)
    (hnew : New response') : ¬ Alike (some response) response' := by
  rintro (rfl | ⟨hcode, -⟩)
  · exact h.not_new hnew
  · exact h.code_ne hcode

theorem Old.not_new_alike {response : Response} (h : Old response) {a : Option Response}
    (hnew : ∀ response' ∈ a, New response') : ¬ Alike a response := by
  cases a with
  | none => exact h.code_ne
  | some response' =>
      rintro (rfl | ⟨-, hcode⟩)
      · exact h.not_new (hnew _ rfl)
      · exact h.code_ne hcode

/-- The table has the text of one of the entries. -/
theorem results_echo {id : Bytes} (entries : List Command) :
    ∀ p : Unit × (Bytes → Option Response), id ∈ cachedIds entries →
      ∃ e ∈ entries, e.requestId = id ∧
        (entries.foldl (outcome echo) p).2 id = some (.success (.string e.cmd)) := by
  induction entries with
  | nil =>
      intro p hid
      cases hid
  | cons e rest ih =>
      intro p hid
      rw [List.foldl_cons]
      by_cases hrest : id ∈ cachedIds rest
      · obtain ⟨e', he', hsame, hresult⟩ := ih (outcome echo p e) hrest
        exact ⟨e', List.mem_cons_of_mem _ he', hsame, hresult⟩
      · rw [cachedIds_cons] at hid
        split at hid
        · exact absurd hid hrest
        · next hne =>
            obtain rfl := (List.mem_cons.1 hid).resolve_right hrest
            refine ⟨e, List.mem_cons_self, rfl, ?_⟩
            rw [results_foldl_outcome rest _ hrest]
            simp only [outcome, if_neg hne, Function.update_self]
            rfl

/-- The responses have the text of one of the reads. -/
theorem responses_echo {id : Bytes} (cmds : List Command) :
    ∀ p : Unit × (Bytes → Response), id ∈ cmds.map Command.requestId →
      ∃ e ∈ cmds, (cmds.foldl (BatchRun.readOutcome echo) p).2 id =
        .success (.string e.cmd) := by
  induction cmds with
  | nil =>
      intro p hid
      cases hid
  | cons e rest ih =>
      intro p hid
      rw [List.foldl_cons]
      by_cases hrest : id ∈ rest.map Command.requestId
      · obtain ⟨e', he', hresult⟩ := ih (BatchRun.readOutcome echo p e) hrest
        exact ⟨e', List.mem_cons_of_mem _ he', hresult⟩
      · rw [List.map_cons, List.mem_cons] at hid
        obtain rfl := hid.resolve_right hrest
        refine ⟨e, List.mem_cons_self, ?_⟩
        have hupdate : BatchRun.readOutcome echo p e =
            ((), Function.update p.2 e.requestId (.success (.string e.cmd))) := rfl
        rw [hupdate, BatchRun.foldl_readOutcome_update rest _ _ hrest]
        exact Function.update_self _ _ _

theorem new_handleRaftCommand {σ : Type} {n : LeaderNode σ} {op : RaftOperation}
    {args : List Bytes} {response : Response} (h : n.handleRaftCommand op args = some response) :
    New response := by
  have hnodes : n.nodesText ≠ [] := by
    intro hnil
    have hlen := congrArg List.length hnil
    simp [LeaderNode.nodesText, ascii] at hlen
  have hstatus : n.statusText ≠ [] := by
    intro hnil
    have hlen := congrArg List.length hnil
    simp [LeaderNode.statusText, ascii] at hlen
  unfold LeaderNode.handleRaftCommand at h
  split at h
  · obtain rfl := Option.some.inj h
    exact Or.inl rfl
  · cases h
  · cases h
  · obtain rfl := Option.some.inj h
    exact Or.inr ⟨_, hnodes, rfl⟩
  · obtain rfl := Option.some.inj h
    exact Or.inr ⟨_, hstatus, rfl⟩
  · obtain rfl := Option.some.inj h
    exact Or.inl rfl

end Echoes

section Probes

variable {n n₁ : LeaderNode Unit} {results : Bytes → Option Response} {r r₁ r' : BatchRun Unit}
  {batchResults : Bytes → Option Response} {places : Nat} {uses : List Bytes} {c p : Command}
  {a : Option Response} {rest : List Command}

/-- A command that goes through the log is answered with its text, or is lost. -/
theorem new_submitWrite (h : n.Tracks results places uses) (hid : c.requestId ≠ [])
    (hcmd : c.cmd ≠ []) {response : Response}
    (hsubmit : n.submitWrite echo c = some (response, n₁)) : New response := by
  obtain ⟨m, happend, hlookup⟩ := Option.map_eq_some_iff.1 hsubmit
  have hlen : [c].length ≤ n.room := by
    by_contra hlt
    rw [LeaderNode.append, if_neg hlt] at happend
    cases happend
  obtain ⟨m', hcommit, -, htracks⟩ := h.commit echo (List.cons_ne_nil c []) hlen
  have hm : m' = m.clearLeader.commitEntries echo := by
    have happend' : n.clearLeader.append [c] = some m.clearLeader := by
      rw [LeaderNode.append, if_pos hlen] at happend
      obtain rfl := Option.some.inj happend
      exact if_pos hlen
    rw [happend'] at hcommit
    exact (Option.some.inj hcommit).symm
  rw [← hm] at hlookup
  cases hfound : (m'.resultCache.get c.requestId).1 with
  | none =>
      rw [LeaderNode.lookup, hfound] at hlookup
      exact Or.inl (congrArg (fun q => q.1.code) hlookup).symm
  | some found =>
      rw [LeaderNode.lookup, hfound] at hlookup
      obtain rfl : found = response := congrArg Prod.fst hlookup
      have hresult := htracks.caches.within c.requestId found hfound
      rw [LeaderNode.perform, if_neg (List.cons_ne_nil _ _)] at hresult
      simp only [List.foldl_append, List.foldl_cons, List.foldl_nil, outcome, if_neg hid,
        Function.update_self] at hresult
      exact Or.inr ⟨c.cmd, hcmd, (Option.some.inj hresult).symm⟩

/-- A command whose id the cache does not have, on its own. -/
theorem new_submitCommand (h : n.Tracks results places uses) (hid : c.requestId ≠ [])
    (hcmd : c.cmd ≠ []) (hmiss : n.lookup c.requestId = (none, n))
    (hsubmit : n.submitCommand echo c = some (a, n₁)) : ∀ response ∈ a, New response := by
  intro response hresponse
  obtain rfl : a = some response := hresponse
  rw [LeaderNode.submitCommand, if_neg hid, hmiss] at hsubmit
  cases hparse : parseView c.cmd with
  | invalid =>
      simp only [hparse] at hsubmit
      cases hsubmit
      exact Or.inl rfl
  | unknown =>
      simp only [hparse] at hsubmit
      cases hsubmit
  | known kind args =>
      cases kind with
      | read =>
          simp only [hparse] at hsubmit
          cases hsubmit
          exact Or.inr ⟨c.cmd, hcmd, rfl⟩
      | write =>
          simp only [hparse] at hsubmit
          obtain ⟨⟨found, m⟩, hwrite, hpair⟩ := Option.map_eq_some_iff.1 hsubmit
          cases hpair
          exact new_submitWrite h hid hcmd hwrite
      | raft op =>
          simp only [hparse] at hsubmit
          obtain ⟨found, hhandle, hpair⟩ := Option.map_eq_some_iff.1 hsubmit
          cases hpair
          exact new_handleRaftCommand hhandle

/-- A command that has been collected is answered with a text, or is lost. -/
theorem new_collected (h : r.node.Tracks results places uses) (hp : p ∈ r.currentCmds)
    (hid : p.requestId ≠ []) (htexts : ∀ e ∈ r.currentCmds, e.cmd ≠ [])
    (hrest : p.requestId ∉ rest.map Command.requestId)
    (hrun : r.runBatch echo rest = some r') : New (r'.responses p.requestId) := by
  obtain ⟨s, more, uses', s', hcmds, -, htexts', hread, hs, hflush, hresponse⟩ :=
    BatchRun.runBatch_collected rest h hp hrest hrun
  have hps : p ∈ s.currentCmds := by
    rw [hcmds]
    exact List.mem_append_left _ hp
  have hmem : p.requestId ∈ s.currentCmds.map Command.requestId := List.mem_map_of_mem hps
  have hall : ∀ e ∈ s.currentCmds, e.cmd ≠ [] := by
    intro e he
    rw [hcmds] at he
    exact (List.mem_append.1 he).elim (htexts e) (htexts' e)
  rw [hresponse]
  by_cases hisRead : s.isRead
  · obtain ⟨t, ht, rfl⟩ := Option.map_eq_some_iff.1 hflush
    rw [if_pos hisRead] at ht
    obtain rfl := Option.some.inj ht
    obtain ⟨e, he, hanswer⟩ := responses_echo s.currentCmds (s.node.storage, s.responses) hmem
    refine Or.inr ⟨e.cmd, hall e he, ?_⟩
    rw [← hanswer, BatchRun.executeBatchReadCommand, BatchRun.foldl_readItem]
  · obtain ⟨cache, hcache, hanswer⟩ := BatchRun.response_of_flush hs hisRead hps hflush
    rw [hanswer]
    cases hfound : (cache.get p.requestId).1 with
    | none => exact Or.inl rfl
    | some found =>
        have hresult := hcache.within p.requestId found hfound
        rw [LeaderNode.perform, if_neg (List.ne_nil_of_mem hps), List.foldl_append] at hresult
        have hcached : p.requestId ∈ cachedIds s.currentCmds :=
          List.mem_filter.2 ⟨hmem, by simpa using hid⟩
        obtain ⟨e, he, -, htext⟩ := results_echo s.currentCmds
          (s.node.core.waiting.foldl (outcome echo) (s.node.core.storage, results)) hcached
        refine Or.inr ⟨e.cmd, hall e he, ?_⟩
        exact Option.some.inj (hresult.symm.trans htext)

theorem tracks_foldl_lookups (cmds : List Command) : ∀ {r : BatchRun Unit} {uses : List Bytes},
    r.node.Tracks results places uses →
      ∃ uses', (cmds.foldl BatchRun.harvestItem r).node.Tracks results places uses' := by
  induction cmds with
  | nil =>
      intro r uses h
      exact ⟨uses, h⟩
  | cons c rest ih =>
      intro r uses h
      obtain ⟨uses', hlookup⟩ := h.lookup c.requestId
      have hnext : (r.harvestItem c).node.Tracks results places uses' := by
        rw [BatchRun.harvestItem_eq]
        exact hlookup
      exact ih hnext

theorem tracks_flush (h : r.node.Tracks results places uses) (hflush : r.flush echo = some r') :
    ∃ results' uses', r'.node.Tracks results' places uses' := by
  obtain ⟨s, hs, rfl⟩ := Option.map_eq_some_iff.1 hflush
  split at hs
  · obtain rfl := Option.some.inj hs
    rw [BatchRun.executeBatchReadCommand, BatchRun.foldl_readItem]
    exact ⟨results, uses, h.caches, h.applied_le, h.commit_le⟩
  · rw [BatchRun.executeBatchWriteCommand] at hs
    split at hs
    · obtain rfl := Option.some.inj hs
      exact ⟨results, uses, h⟩
    · next hne =>
        obtain ⟨m, happend, rfl⟩ := Option.map_eq_some_iff.1 hs
        have hroom : r.currentCmds.length ≤ r.node.room := by
          by_contra hlt
          rw [LeaderNode.append, if_neg (show ¬ _ ≤ r.node.clearLeader.room from hlt)] at happend
          cases happend
        obtain ⟨m', hcommit, -, hm⟩ := h.commit echo hne hroom
        rw [happend] at hcommit
        obtain rfl := Option.some.inj hcommit
        obtain ⟨uses', htracks⟩ := tracks_foldl_lookups r.currentCmds
          (r := { r with node := m.commitEntries echo }) hm
        exact ⟨_, uses', htracks⟩

/-- A read or a write is collected, with commands that have a text. -/
theorem collected_of_group {joins isRead : Bool} (h : r.node.Tracks results places uses)
    (hcmd : c.cmd ≠ []) (htexts : ∀ e ∈ r.currentCmds, e.cmd ≠ [])
    (hgroup : (if joins then some { r with currentCmds := r.currentCmds ++ [c] }
      else if r.currentCmds = [] then some { r with currentCmds := [c], isRead := isRead }
      else (r.flush echo).map fun r => { r with currentCmds := [c], isRead := isRead }) =
        some r₁) :
    c ∈ r₁.currentCmds ∧ (∀ e ∈ r₁.currentCmds, e.cmd ≠ []) ∧
      ∃ results' uses', r₁.node.Tracks results' places uses' := by
  have hone : ∀ e ∈ [c], e.cmd ≠ [] := by
    intro e he
    rwa [List.mem_singleton.1 he]
  split at hgroup
  · obtain rfl := Option.some.inj hgroup
    refine ⟨List.mem_append_right _ List.mem_cons_self, fun e he => ?_, results, uses, h⟩
    exact (List.mem_append.1 he).elim (htexts e) (hone e)
  · split at hgroup
    · obtain rfl := Option.some.inj hgroup
      exact ⟨List.mem_cons_self, hone, results, uses, h⟩
    · obtain ⟨s, hflush, rfl⟩ := Option.map_eq_some_iff.1 hgroup
      obtain ⟨results', uses', hs⟩ := tracks_flush h hflush
      exact ⟨List.mem_cons_self, hone, results', uses', hs⟩

/-- A command whose id the cache does not have, in the batch. -/
theorem new_item (h : r.node.Tracks results places uses) (hid : c.requestId ≠ [])
    (hcmd : c.cmd ≠ []) (htexts : ∀ e ∈ r.currentCmds, e.cmd ≠ [])
    (hnot : c.requestId ∉ r.currentCmds.map Command.requestId)
    (hrest : c.requestId ∉ rest.map Command.requestId)
    (hmiss : r.node.lookup c.requestId = (none, r.node)) (hitem : r.item echo c = some r₁)
    (hrun : r₁.runBatch echo rest = some r') : New (r'.responses c.requestId) := by
  rw [BatchRun.item, if_neg hcmd, if_neg hid, hmiss] at hitem
  cases hparse : parseString c.cmd with
  | invalid =>
      simp only [hparse] at hitem
      obtain rfl := Option.some.inj hitem
      rw [BatchRun.runBatch_answered hnot hrest hrun]
      exact Or.inl rfl
  | unknown =>
      simp only [hparse] at hitem
      cases hitem
  | known kind args =>
      cases kind with
      | read =>
          simp only [hparse] at hitem
          obtain ⟨hmem, htexts₁, results', uses', h₁⟩ := collected_of_group h hcmd htexts hitem
          exact new_collected h₁ hmem hid htexts₁ hrest hrun
      | write =>
          simp only [hparse] at hitem
          obtain ⟨hmem, htexts₁, results', uses', h₁⟩ := collected_of_group h hcmd htexts hitem
          exact new_collected h₁ hmem hid htexts₁ hrest hrun
      | raft op =>
          simp only [hparse] at hitem
          obtain ⟨s, hflush, hanswer⟩ := Option.bind_eq_some_iff.1 hitem
          obtain ⟨response, hhandle, rfl⟩ := Option.map_eq_some_iff.1 hanswer
          -- the group has been executed, so nothing is collected when the command is answered
          have hcmds : s.currentCmds = [] := by
            split at hflush
            · next hnil =>
                obtain rfl := Option.some.inj hflush
                exact hnil
            · exact (BatchRun.flush_other hflush).1
          have hnot' : c.requestId ∉ s.currentCmds.map Command.requestId := by
            rw [hcmds]
            exact List.not_mem_nil
          rw [BatchRun.runBatch_answered hnot' hrest hrun]
          exact new_handleRaftCommand hhandle

/-- What the table of the batch can have of the commands to come: old results. The entries that
wait have no text, so that what they leave differs from what was there. -/
structure Probe (r : BatchRun Unit) (batchResults : Bytes → Option Response)
    (done : List Bytes) : Prop where
  blank : ∀ e ∈ r.node.waiting, e.cmd = []
  texts : ∀ e ∈ r.currentCmds, e.cmd ≠ []
  values : ∀ id response, id ∉ done → batchResults id = some response →
    response = .success .monostate ∨
      response = .success (.string []) ∧ id ∉ cachedIds r.node.waiting

theorem Probe.old {done : List Bytes} (h : Probe r batchResults done) {id : Bytes}
    {response : Response} (hid : id ∉ done) (hresult : batchResults id = some response) :
    Old response :=
  (h.values id response hid hresult).imp_right And.left

end Probes

section Violations

variable {u : Usage} {n n₁ : LeaderNode Unit} {results : Bytes → Option Response}
  {r r₁ r' : BatchRun Unit} {batchResults batchResults₁ : Bytes → Option Response}
  {done : List (Command × Option Response)} {c : Command} {a : Option Response}
  {rest : List Command}

/-- What the table of the commands one by one can have of the commands to come. -/
theorem Simulates.old_results (h : Simulates echo u n results r batchResults done)
    (hprobe : Probe r batchResults (done.map fun p => p.1.requestId)) {id : Bytes}
    (hid : id ∉ done.map fun p => p.1.requestId) :
    (∀ response, results id = some response → Old response) ∧
      (u.group ≠ [] → id ∈ u.waiting → results id = some (.success (.string []))) := by
  have hresults : results = (r.ideal echo batchResults).2 := congrArg Prod.snd h.ideal
  by_cases hread : r.isRead
  · rw [hresults, BatchRun.ideal, if_pos hread]
    exact ⟨fun response hresult => hprobe.old hid hresult,
      fun hgroup => absurd (h.isRead_group hread) hgroup⟩
  · have hgroup := h.group_eq hread
    rw [hresults, BatchRun.ideal, if_neg hread, LeaderNode.perform]
    by_cases hnil : r.currentCmds = []
    · rw [if_pos hnil]
      rw [hnil] at hgroup
      exact ⟨fun response hresult => hprobe.old hid hresult,
        fun hne => absurd hgroup.symm hne⟩
    · rw [if_neg hnil]
      have hcollected : id ∉ cachedIds r.currentCmds :=
        fun hmem => h.not_collected hid (List.mem_filter.1 hmem).1
      simp only [List.foldl_append, results_foldl_outcome r.currentCmds _ hcollected]
      have hwaiting : r.node.core.waiting = r.node.waiting := rfl
      rw [hwaiting, ← h.waiting]
      by_cases hmem : id ∈ cachedIds r.node.waiting
      · obtain ⟨e, he, -, hresult⟩ :=
          results_echo r.node.waiting (r.node.core.storage, batchResults) hmem
        rw [hprobe.blank e he] at hresult
        rw [hresult]
        exact ⟨fun response hresponse => Or.inr (Option.some.inj hresponse).symm, fun _ _ => rfl⟩
      · rw [results_foldl_outcome _ _ hmem]
        exact ⟨fun response hresult => hprobe.old hid hresult, fun _ hin => absurd hin hmem⟩

/-- The probe stays one. -/
theorem Simulates.probe_item (h : Simulates echo u n results r batchResults done)
    (hprobe : Probe r batchResults (done.map fun p => p.1.requestId))
    (hitem : r.item echo c = some r₁)
    (hcarries : Simulates.Carries r batchResults results r₁ batchResults₁) :
    Probe r₁ batchResults₁ ((done ++ [(c, a)]).map fun p => p.1.requestId) := by
  have hmore {id : Bytes} (hid : id ∉ (done ++ [(c, a)]).map fun p => p.1.requestId) :
      id ∉ done.map fun p => p.1.requestId := by
    rw [List.map_append, List.mem_append, not_or] at hid
    exact hid.1
  have htexts : ∀ e ∈ r₁.currentCmds, e.cmd ≠ [] := by
    intro e he
    rcases BatchRun.item_cases hitem with
      ⟨-, -, ⟨more, hcmds, hkind⟩, -⟩ | ⟨s, -, hcmds, -⟩
    · rw [hcmds] at he
      rcases List.mem_append.1 he with hold | hnew
      · exact hprobe.texts e hold
      · rcases hkind with rfl | ⟨rfl, hcmd⟩
        · cases hnew
        · rwa [List.mem_singleton.1 hnew]
    · rcases hcmds with hnil | ⟨hone, hcmd⟩
      · rw [hnil] at he
        cases he
      · rw [hone] at he
        rwa [List.mem_singleton.1 he]
  rcases hcarries with ⟨rfl, hwaiting⟩ | ⟨rfl, hwaiting⟩
  · refine ⟨?_, htexts, fun id response hid hresult => ?_⟩
    · rw [hwaiting]
      exact hprobe.blank
    · rw [hwaiting]
      exact hprobe.values id response (hmore hid) hresult
  · refine ⟨?_, htexts, fun id response hid hresult => ?_⟩
    · rw [hwaiting]
      intro e he
      cases he
    · rw [hwaiting]
      refine ((h.old_results hprobe (hmore hid)).1 response hresult).imp_right fun htext => ?_
      exact ⟨htext, List.not_mem_nil⟩

theorem not_alike_both {text : Bytes} {errorMsg : String}
    (hsuccess : Alike a (.success (.string text))) : ¬ Alike a (.error errorMsg) := by
  cases a with
  | none => cases hsuccess
  | some response =>
      rcases hsuccess with rfl | ⟨-, hcode⟩
      · rintro (heq | ⟨hcode, -⟩)
        · cases heq
        · cases hcode
      · cases hcode

/-- The first write of a group for which the cache has no place is lost, though it has been
answered when it came alone. -/
theorem Simulates.not_overfull (h : Simulates echo u n results r batchResults done)
    (hadmits : Admits (done.map fun p => p.1.requestId) (c :: rest))
    (hread : ¬ r.isRead = true) (hlen : u.places ≤ u.group.length)
    (hrun : BatchRun.runBatch echo { r with currentCmds := r.currentCmds ++ [c] } rest = some r')
    (hdone : ∀ p ∈ done, Alike p.2 (r'.responses p.1.requestId)) : False := by
  have hgroup := h.group_eq hread
  have hpos : 0 < u.places := by
    have := h.tracks.caches.pos
    have := h.tracks.caches.keeps.places
    omega
  have hlength : r.currentCmds.length = u.group.length := by
    rw [← hgroup, List.length_map]
  obtain ⟨p, tail, hcmds⟩ := List.exists_cons_of_length_pos (l := r.currentCmds) (by omega)
  have hsub := h.collected
  have hempty := h.nonempty
  rw [← hgroup] at hempty
  rw [hcmds] at hsub hempty hlength
  have hpdone : p.requestId ∈ done.map fun p => p.1.requestId := hsub.subset List.mem_cons_self
  have hpmem : p ∈ r.currentCmds := by
    rw [hcmds]
    exact List.mem_cons_self
  have hprest : p.requestId ∉ rest.map Command.requestId := by
    intro hmem
    exact (List.nodup_append.1 hadmits.nodup).2.2 _ hpdone _ (List.mem_cons_of_mem _ hmem) rfl
  obtain ⟨s, more, uses', s', hcmds', hmore, -, hread', hs, hflush, hresponse⟩ :=
    BatchRun.runBatch_collected (r := { r with currentCmds := r.currentCmds ++ [c] }) (p := p) rest
      h.batch (List.mem_append_left _ hpmem) hprest hrun
  have hscmds : s.currentCmds = p :: (tail ++ c :: more) := by
    rw [hcmds', hcmds, List.append_assoc]
    rfl
  have hps : p ∈ s.currentCmds := by
    rw [hscmds]
    exact List.mem_cons_self
  -- the ids of the group are distinct
  have hids : (s.currentCmds.map Command.requestId).Nodup := by
    rw [hscmds]
    refine List.Sublist.nodup ?_ hadmits.nodup
    have hsplit : (p :: (tail ++ c :: more)).map Command.requestId =
        (p :: tail).map Command.requestId ++ (c :: more).map Command.requestId := by
      rw [← List.map_append]
      rfl
    rw [hsplit]
    exact hsub.append ((hmore.cons_cons c).map _)
  have hcached : cachedIds s.currentCmds = s.currentCmds.map Command.requestId := by
    refine cachedIds_of_not_mem fun hmem => ?_
    rw [hscmds, ← List.cons_append, List.map_append, List.mem_append] at hmem
    rcases hmem with hold | hnew
    · exact hempty hold
    · exact hadmits.nonempty (((hmore.cons_cons c).map _).subset hnew)
  obtain ⟨cache, hcache, hanswer⟩ :=
    BatchRun.response_of_flush hs (by rw [hread']; exact hread) hps hflush
  have hlost : ¬ Recent u.places p.requestId ((cachedIds s.currentCmds).reverse ++
      ((cachedIds s.node.waiting).reverse ++ uses')) := by
    have hreverse : (s.currentCmds.map Command.requestId).reverse =
        ((tail ++ c :: more).map Command.requestId).reverse ++ [p.requestId] := by
      rw [hscmds, List.map_cons, List.reverse_cons]
    rw [hcached, hreverse, List.append_assoc]
    refine not_recent_append ?_ ?_
    · rw [← hreverse]
      exact List.nodup_reverse.2 hids
    · rw [List.length_reverse, List.length_map, List.length_append, List.length_cons]
      rw [List.length_cons] at hlength
      omega
  rw [hcache.keeps.get_eq_none hlost, Option.getD_none] at hanswer
  obtain ⟨q, hq, hqid⟩ := List.mem_map.1 hpdone
  have hsuccess := h.answers q hq
  have herror := hdone q hq
  rw [hqid, hresponse, hanswer] at herror
  rw [hqid, BatchRun.idealResponses, if_neg hread, if_pos (List.mem_map_of_mem hpmem),
    BatchRun.ideal, if_neg hread, LeaderNode.perform, if_neg (List.ne_nil_of_mem hpmem)]
    at hsuccess
  have hpcached : p.requestId ∈ cachedIds r.currentCmds := by
    rw [hcmds]
    refine List.mem_filter.2 ⟨List.mem_cons_self, ?_⟩
    simp only [ne_eq, decide_not, Bool.not_eq_true', decide_eq_false_iff_not]
    intro hnil
    exact hempty (hnil ▸ List.mem_cons_self)
  simp only [List.foldl_append] at hsuccess
  obtain ⟨e, -, -, hresult⟩ := results_echo r.currentCmds (List.foldl (outcome echo)
    (r.node.core.storage, batchResults) r.node.core.waiting) hpcached
  rw [hresult] at hsuccess
  exact not_alike_both hsuccess herror

/-- A command that both calls answer alike, whatever comes after it, meets the condition. -/
theorem Simulates.takes (h : Simulates echo u n results r batchResults done)
    (hprobe : Probe r batchResults (done.map fun p => p.1.requestId))
    (hadmits : Admits (done.map fun p => p.1.requestId) (c :: rest))
    (hsubmit : n.submitCommand echo c = some (a, n₁)) (hitem : r.item echo c = some r₁)
    (hrun : r₁.runBatch echo rest = some r')
    (hdone : ∀ p ∈ done, Alike p.2 (r'.responses p.1.requestId))
    (halike : Alike a (r'.responses c.requestId)) : u.Takes c := by
  have hid := hadmits.ne_nil
  have hnew := hadmits.not_mem
  have hnot := h.not_collected hnew
  have hrest : c.requestId ∉ rest.map Command.requestId := by
    have hnodup := (List.nodup_append.1 hadmits.nodup).2.1
    exact (List.nodup_cons.1 hnodup).1
  obtain ⟨hold, hblank⟩ := h.old_results hprobe hnew
  -- what the commands one by one answer when they find the id
  have hfoundAnswer (hrecent : Recent u.places c.requestId u.uses) :
      ∃ response, a = some response ∧ results c.requestId = some response := by
    obtain ⟨response, m, hlookup, hresult, -, -⟩ := h.tracks.lookup_found hrecent
    rw [LeaderNode.submitCommand, if_neg hid, hlookup] at hsubmit
    cases hsubmit
    exact ⟨response, rfl, hresult⟩
  rw [Usage.Takes]
  by_cases hempty : c.cmd = []
  · rw [if_pos hempty]
    intro hrecent
    obtain ⟨response, rfl, hresult⟩ := hfoundAnswer hrecent
    rw [BatchRun.item, if_pos hempty] at hitem
    obtain rfl := Option.some.inj hitem
    rw [BatchRun.runBatch_answered hnot hrest hrun] at halike
    exact (hold response hresult).not_alike_new (Or.inl rfl) halike
  · rw [if_neg hempty]
    by_cases hfound : Recent u.places c.requestId u.batchUses
    · rw [if_pos hfound]
      obtain ⟨response, m, hlookup, hresult, -, -⟩ := h.batch.lookup_found hfound
      rw [BatchRun.item, if_neg hempty, if_neg hid, hlookup] at hitem
      obtain rfl := Option.some.inj hitem
      rw [BatchRun.runBatch_answered (r := { r with node := m }) hnot hrest hrun] at halike
      have hrecent : Recent u.places c.requestId u.uses := by
        by_contra hmiss
        exact (hprobe.old hnew hresult).not_new_alike
          (new_submitCommand h.tracks hid hempty (h.tracks.lookup_none hmiss) hsubmit) halike
      refine ⟨hrecent, fun hgroup hwaiting => ?_⟩
      obtain ⟨response', rfl, hresult'⟩ := hfoundAnswer hrecent
      rw [hblank hgroup hwaiting] at hresult'
      obtain rfl := Option.some.inj hresult'
      rcases hprobe.values c.requestId response hnew hresult with rfl | ⟨-, hnotWaiting⟩
      · rcases halike with heq | ⟨hcode, -⟩
        · cases heq
        · cases hcode
      · rw [h.waiting] at hnotWaiting
        exact hnotWaiting hwaiting
    · rw [if_neg hfound]
      have hmiss := h.batch.lookup_none hfound
      have hmiss' : ¬ Recent u.places c.requestId u.uses := by
        intro hrecent
        obtain ⟨response, rfl, hresult⟩ := hfoundAnswer hrecent
        exact (hold response hresult).not_alike_new
          (new_item h.batch hid hempty hprobe.texts hnot hrest hmiss hitem hrun) halike
      refine ⟨hmiss', ?_⟩
      rw [LeaderNode.submitCommand, if_neg hid, h.tracks.lookup_none hmiss'] at hsubmit
      rw [BatchRun.item, if_neg hempty, if_neg hid, hmiss] at hitem
      cases hparse : parseView c.cmd with
      | invalid =>
          simp only [parseString_eq_unknown hparse] at hitem
          cases hitem
      | unknown =>
          simp only [parseString_of_unknown hparse] at hitem
          cases hitem
      | known kind args =>
          simp only [hparse] at hsubmit
          simp only [parseString_of_known hparse] at hitem
          cases kind with
          | read => trivial
          | write =>
              obtain ⟨⟨response, m⟩, hwrite, -⟩ := Option.map_eq_some_iff.1 hsubmit
              have hroom : 0 < u.room := by
                by_contra hfull
                obtain ⟨m', happend, -⟩ := Option.map_eq_some_iff.1 hwrite
                rw [LeaderNode.append, if_neg (by rw [h.room]; exact hfull)] at happend
                cases happend
              refine ⟨?_, hroom⟩
              by_contra hover
              have hread : ¬ r.isRead = true := by
                intro hread
                have hpos := h.tracks.caches.pos
                have hplaces := h.tracks.caches.keeps.places
                rw [h.isRead_group hread, List.length_nil] at hover
                omega
              have hjoins : (!r.isRead) = true := by
                rw [Bool.eq_false_iff.2 hread]
                rfl
              simp only [if_pos hjoins] at hitem
              obtain rfl := Option.some.inj hitem
              exact h.not_overfull hadmits hread (Nat.le_of_not_lt hover) hrun hdone
          | raft op =>
              intro hargs hopen
              subst hargs
              by_contra hop
              obtain ⟨s, hflush, hanswer⟩ := Option.bind_eq_some_iff.1 hitem
              obtain ⟨response, hhandle, rfl⟩ := Option.map_eq_some_iff.1 hanswer
              have hcmds : c.requestId ∉ s.currentCmds.map Command.requestId := by
                split at hflush
                · obtain rfl := Option.some.inj hflush
                  exact hnot
                · rw [(BatchRun.flush_other hflush).1]
                  exact List.not_mem_nil
              rw [BatchRun.runBatch_answered hcmds hrest hrun] at halike
              rw [stringArgs, if_pos hopen, List.nil_append] at hhandle
              have hcluster := hadmits.cluster c List.mem_cons_self
              rw [Command.changesCluster, hparse] at hcluster
              cases op with
              | getMaster => exact hop rfl
              | setMaster => cases hcluster
              | removeNode => cases hcluster
              | listNodes =>
                  cases hhandle
                  cases hsubmit
                  exact not_alike_both (a := some (.success (.string n.nodesText))) (Or.inl rfl)
                    halike
              | getStatus =>
                  cases hhandle
                  cases hsubmit
                  exact not_alike_both (a := some (.success (.string n.statusText))) (Or.inl rfl)
                    halike

/-- A list that both calls answer alike suits the node. -/
theorem Simulates.suits (commands : List Command) : ∀ {u : Usage} {n n' : LeaderNode Unit}
    {results : Bytes → Option Response} {r r' : BatchRun Unit}
    {batchResults : Bytes → Option Response} {done : List (Command × Option Response)}
    {answers : List (Option Response)},
    Simulates echo u n results r batchResults done →
    Probe r batchResults (done.map fun p => p.1.requestId) →
    Admits (done.map fun p => p.1.requestId) commands →
    n.submitEach echo commands = some (answers, n') → r.runBatch echo commands = some r' →
    (∀ p ∈ done ++ commands.zip answers, Alike p.2 (r'.responses p.1.requestId)) →
    u.Suits commands := by
  induction commands with
  | nil =>
      intros
      trivial
  | cons c rest ih =>
      intro u n n' results r r' batchResults done answers h hprobe hadmits heach hrun halike
      obtain ⟨⟨a, n₁⟩, hsubmit, hmore⟩ := Option.bind_eq_some_iff.1 heach
      obtain ⟨⟨answers₁, n₂⟩, heach₁, hpair⟩ := Option.map_eq_some_iff.1 hmore
      cases hpair
      obtain ⟨r₁, hitem, hrun₁⟩ := Option.bind_eq_some_iff.1 hrun
      rw [List.zip_cons_cons, List.append_cons] at halike
      have htakes : u.Takes c := by
        refine h.takes hprobe hadmits hsubmit hitem hrun₁ (fun p hp => halike p ?_)
          (halike (c, a) ?_)
        · exact List.mem_append_left _ (List.mem_append_left _ hp)
        · exact List.mem_append_left _ (List.mem_append_right _ List.mem_cons_self)
      obtain ⟨a', n₃, results₁, r₂, batchResults₁, hsubmit', hitem', hcarries, h₁⟩ :=
        h.step hadmits.ne_nil hadmits.not_mem (hadmits.cluster c List.mem_cons_self) htakes
      obtain ⟨rfl, rfl⟩ := Prod.mk.inj (Option.some.inj (hsubmit.symm.trans hsubmit'))
      obtain rfl := Option.some.inj (hitem.symm.trans hitem')
      have htail := hadmits.tail
      have hmap : (done ++ [(c, a)]).map (fun p => p.1.requestId) =
          (done.map fun p => p.1.requestId) ++ [c.requestId] := List.map_append
      rw [← hmap] at htail
      refine ⟨htakes, fun u' hu' => ?_⟩
      obtain rfl := Option.some.inj hu'
      exact ih h₁ (h.probe_item hprobe hitem hcarries) htail heach₁ hrun₁ halike

namespace LeaderNode

variable {σ : Type}

/-- The node with the storage that echoes, other results in its cache, and entries without a
text. -/
def probe (n : LeaderNode σ) : LeaderNode Unit where
  storage := ()
  resultCache :=
    ⟨n.resultCache.capacity, n.resultCache.items.map fun e => (e.1, .success .monostate)⟩
  log := n.log.map fun e => ⟨e.requestId, []⟩
  lastApplied := n.lastApplied
  commitIndex := n.commitIndex
  room := n.room

theorem keys_probe (n : LeaderNode σ) : n.probe.resultCache.keys = n.resultCache.keys := by
  rw [LRUCache.keys, probe, List.map_map]
  rfl

theorem waiting_probe (n : LeaderNode σ) :
    n.probe.waiting = n.waiting.map fun e => ⟨e.requestId, []⟩ := List.map_drop.symm

theorem usage_probe (n : LeaderNode σ) : n.probe.usage = n.usage := by
  have hids : cachedIds n.probe.waiting = cachedIds n.waiting := by
    rw [waiting_probe, cachedIds, List.map_map]
    rfl
  rw [usage, usage, keys_probe, hids]
  rfl

theorem WellFormed.probe {n : LeaderNode σ} (h : n.WellFormed) : n.probe.WellFormed where
  pos := h.pos
  nodup := n.keys_probe ▸ h.nodup
  applied_le := by
    rw [LeaderNode.probe, List.length_map]
    exact h.applied_le
  commit_le := by
    rw [LeaderNode.probe, List.length_map]
    exact h.commit_le

theorem probe_start (n : LeaderNode σ) :
    Probe { node := n.probe } (fun id => (n.probe.resultCache.get id).1) [] where
  blank := by
    intro e he
    rw [waiting_probe] at he
    obtain ⟨e', -, rfl⟩ := List.mem_map.1 he
    rfl
  texts := fun _ he => absurd he List.not_mem_nil
  values := by
    intro id response _ hfound
    obtain ⟨e, -, heq⟩ := List.mem_map.1 (LRUCache.mem_of_get hfound)
    exact Or.inl (congrArg Prod.snd heq).symm

/-- **A batch is its commands one by one.** On every storage, and whatever results the cache has,
exactly when the list suits the node: the lookups of both find the same, every command is known,
the commands about the cluster end in no space, and the cache and the log have room for the
writes. -/
theorem agrees_iff (n : LeaderNode σ) (hn : n.WellFormed) (commands : List Command)
    (hids : (commands.map Command.requestId).Nodup)
    (hnonempty : [] ∉ commands.map Command.requestId)
    (hcluster : ∀ c ∈ commands, c.changesCluster = false) :
    (∀ (τ : Type) (execute : Bytes → τ → Response × τ) (m : LeaderNode τ), m.WellFormed →
      m.usage = n.usage → m.Agrees execute commands) ↔ n.usage.Suits commands := by
  have hadmits : Admits [] commands := ⟨hids, hnonempty, hcluster⟩
  constructor
  · intro hagrees
    obtain ⟨responses, m₁, answers, m₂, hbatch, heach, -, halike, -, -⟩ :=
      hagrees Unit echo n.probe hn.probe n.usage_probe
    rw [submitBatchCommand_eq] at hbatch
    obtain ⟨r', hrun, hpair⟩ := Option.map_eq_some_iff.1 hbatch
    cases hpair
    rw [List.map_map] at halike
    rw [← n.usage_probe]
    exact (hn.probe.simulates echo).suits commands n.probe_start hadmits heach hrun
      (forall₂_alike_iff.1 halike).2
  · intro hsuits τ execute m hm husage
    rw [← husage] at hsuits
    exact hm.agrees hadmits hsuits

/-- A leader with three places in its cache. -/
def exampleLeader : LeaderNode Nat where
  storage := 0
  resultCache := .ofCapacity 3
  room := 100

/-- Two writes, a read of what they wrote, and a command about the cluster. -/
def mixedCommands : List Command :=
  [⟨[1], ascii "set a b"⟩, ⟨[2], ascii " set  c d "⟩, ⟨[3], ascii "get a "⟩,
    ⟨[4], ascii "list_nodes"⟩]

theorem wellFormed_exampleLeader : exampleLeader.WellFormed where
  pos := by decide
  nodup := List.nodup_nil
  applied_le := Nat.le_refl _
  commit_le := Nat.le_refl _

theorem agrees_mixedCommands : exampleLeader.Agrees Dedup.counting mixedCommands :=
  (agrees_iff exampleLeader wellFormed_exampleLeader mixedCommands (by decide) (by decide)
    (by decide)).2 (by decide) Nat Dedup.counting exampleLeader wellFormed_exampleLeader rfl

/-- A write, and a command that nobody knows. -/
def unknownCommands : List Command := [⟨[1], ascii "set a b"⟩, ⟨[2], ascii "foo"⟩]

/-- `submit_command` throws for the second one, and `submit_batch_command` for the list. -/
theorem not_agrees_unknown :
    ¬ ∀ (τ : Type) (execute : Bytes → τ → Response × τ) (m : LeaderNode τ)
      (commands : List Command), m.WellFormed → (commands.map Command.requestId).Nodup →
      [] ∉ commands.map Command.requestId → (∀ c ∈ commands, c.changesCluster = false) →
      m.Agrees execute commands := by
  intro h
  obtain ⟨responses, m₁, answers, m₂, hbatch, -⟩ := h Nat Dedup.counting exampleLeader
    unknownCommands wellFormed_exampleLeader (by decide) (by decide) (by decide)
  have hthrows : (exampleLeader.submitBatchCommand Dedup.counting unknownCommands).isSome =
      false := by
    decide
  rw [hbatch] at hthrows
  cases hthrows

/-- More writes in a row than the cache has places: the result of the first one is lost. -/
example : ¬ exampleLeader.usage.Suits
    [⟨[1], ascii "set a b"⟩, ⟨[2], ascii "set a c"⟩, ⟨[3], ascii "set a d"⟩,
      ⟨[4], ascii "set a e"⟩] := by
  decide

end LeaderNode

end Violations

end EyaKV.Raft
