import EyaKV.Raft.Batching

/-!
# A batch beside its commands

`Simulates` compares the batch at a place of its list with a node that has been given the commands
one by one: the node is what the batch would be if it executed its group now, but for the order in
the result cache. Every command under the condition keeps this (`Simulates.step`), so a list that
suits the node is answered alike in both ways (`WellFormed.agrees`).
-/

set_option autoImplicit false

namespace EyaKV.Raft

open EyaKV.Base EyaKV.Base.Recency EyaKV.Common EyaKV.Store

variable {σ : Type} {execute : Bytes → σ → Response × σ}

section Ideals

namespace LeaderNode

variable {n m : LeaderNode σ} {results : Bytes → Option Response} {cmds : List Command}

theorem storage_of_core (h : m.core = n.core) : m.storage = n.storage := by
  have hstorage : m.core.storage = n.core.storage := by rw [h]
  exact hstorage

theorem room_of_core (h : m.core = n.core) : m.room = n.room := by
  have hroom : m.core.room = n.core.room := by rw [h]
  exact hroom

theorem waiting_of_core (h : m.core = n.core) : m.waiting = n.waiting := by
  have hwaiting : m.core.waiting = n.core.waiting := by rw [h]
  exact hwaiting

theorem handleRaftCommand_of_core (h : m.core = n.core) (op : RaftOperation) (args : List Bytes) :
    m.handleRaftCommand op args = n.handleRaftCommand op args := by
  have hhandle : m.core.handleRaftCommand op args = n.core.handleRaftCommand op args := by rw [h]
  exact hhandle

theorem waiting_perform : (n.perform execute results cmds).1.waiting =
    if cmds = [] then n.waiting else [] := by
  rw [perform]
  split
  · rfl
  · exact List.drop_of_length_le (by rw [List.length_append])

/-- Groups one after the other are one group. -/
theorem perform_append (c : Command) :
    (n.perform execute results cmds).1.perform execute (n.perform execute results cmds).2 [c] =
      n.perform execute results (cmds ++ [c]) := by
  by_cases hcmds : cmds = []
  · rw [hcmds, List.nil_append]
    rfl
  · have hne : cmds ++ [c] ≠ [] := by simp
    rw [perform, if_neg (List.cons_ne_nil _ _), waiting_perform, if_neg hcmds, perform,
      if_neg hcmds, perform, if_neg hne]
    simp only [List.nil_append, List.append_assoc, List.length_append, List.foldl_append,
      List.length_singleton, Nat.add_assoc, Nat.sub_sub]

theorem room_perform : (n.perform execute results cmds).1.room = n.room - cmds.length := by
  rw [perform]
  split
  · next h => rw [h, List.length_nil, Nat.sub_zero]
  · rfl

/-- A result that neither a waiting entry nor the group changes. -/
theorem results_perform {id : Bytes} (hwaiting : cmds ≠ [] → id ∉ cachedIds n.waiting)
    (hcmds : id ∉ cachedIds cmds) : (n.perform execute results cmds).2 id = results id := by
  rw [perform]
  split
  · rfl
  · next hne =>
      refine results_foldl_outcome _ _ ?_
      rw [cachedIds_append, List.mem_append, not_or]
      exact ⟨hwaiting hne, hcmds⟩

end LeaderNode

namespace BatchRun

variable {r : BatchRun σ} {results : Bytes → Option Response}

theorem foldl_readOutcome_update {id : Bytes} {response : Response} (cmds : List Command) :
    ∀ (storage : σ) (responses : Bytes → Response), id ∉ cmds.map Command.requestId →
      cmds.foldl (readOutcome execute) (storage, Function.update responses id response) =
        ((cmds.foldl (readOutcome execute) (storage, responses)).1,
          Function.update (cmds.foldl (readOutcome execute) (storage, responses)).2 id
            response) := by
  induction cmds with
  | nil =>
      intro storage responses _
      rfl
  | cons c rest ih =>
      intro storage responses hid
      rw [List.map_cons, List.mem_cons, not_or] at hid
      have hcomm (v : Response) :
          Function.update (Function.update responses id response) c.requestId v =
            Function.update (Function.update responses c.requestId v) id response :=
        Function.update_comm hid.1 _ _ _
      rw [List.foldl_cons, List.foldl_cons, readOutcome]
      simp only [hcomm]
      exact ih _ _ hid.2

/-- What is answered at once does not change the execution of the group. -/
theorem ideal_answer {m : LeaderNode σ} {id : Bytes} {response : Response}
    (hm : m.core = r.node.core) (hid : id ∉ r.currentCmds.map Command.requestId) :
    ({ r with node := m }.answer id response).ideal execute results = r.ideal execute results := by
  have hstorage : m.storage = r.node.storage := LeaderNode.storage_of_core hm
  rw [ideal, ideal, answer]
  simp only [hm, hstorage, foldl_readOutcome_update r.currentCmds _ _ hid]

theorem idealResponses_answer {m : LeaderNode σ} {id : Bytes} {response : Response}
    (hm : m.core = r.node.core) (hid : id ∉ r.currentCmds.map Command.requestId) :
    ({ r with node := m }.answer id response).idealResponses execute results =
      Function.update (r.idealResponses execute results) id response := by
  have hstorage : m.storage = r.node.storage := LeaderNode.storage_of_core hm
  funext other
  rw [idealResponses, ideal_answer hm hid]
  simp only [answer, hstorage, foldl_readOutcome_update r.currentCmds _ _ hid]
  by_cases hother : other = id
  · obtain rfl := hother
    simp only [Function.update_self, hid, ↓reduceIte, ite_self]
  · simp only [Function.update_of_ne hother, idealResponses]

end BatchRun

end Ideals

/-- The batch at a place of its list, beside the commands one by one: the node has what the
execution of the group would give, and so have the responses. -/
structure Simulates (execute : Bytes → σ → Response × σ) (u : Usage) (n : LeaderNode σ)
    (results : Bytes → Option Response) (r : BatchRun σ)
    (batchResults : Bytes → Option Response) (done : List (Command × Option Response)) :
    Prop where
  tracks : n.Tracks results u.places u.uses
  batch : r.node.Tracks batchResults u.places u.batchUses
  room : n.room = u.room
  waiting : cachedIds r.node.waiting = u.waiting
  group : r.groupIds = u.group
  short : u.group.length ≤ u.places
  enough : u.group.length ≤ r.node.room
  nonempty : [] ∉ u.group
  ideal : (n.core, results) = r.ideal execute batchResults
  answers : ∀ p ∈ done, Alike p.2 (r.idealResponses execute batchResults p.1.requestId)
  collected : (r.currentCmds.map Command.requestId).Sublist (done.map fun p => p.1.requestId)

namespace Simulates

variable {u : Usage} {n : LeaderNode σ} {results : Bytes → Option Response} {r : BatchRun σ}
  {batchResults : Bytes → Option Response} {done : List (Command × Option Response)}
  {c : Command}

section Answers

theorem not_collected (h : Simulates execute u n results r batchResults done) {id : Bytes}
    (hnew : id ∉ done.map fun p => p.1.requestId) :
    id ∉ r.currentCmds.map Command.requestId :=
  fun hmem => hnew (h.collected.subset hmem)

/-- A command that both calls answer at once. -/
theorem answer (h : Simulates execute u n results r batchResults done) {a : Option Response}
    {response : Response} {n' m : LeaderNode σ} {uses batchUses : List Bytes}
    (hnew : c.requestId ∉ done.map fun p => p.1.requestId) (halike : Alike a response)
    (hn : n'.core = n.core) (htracks : n'.Tracks results u.places uses)
    (hm : m.core = r.node.core) (hbatch : m.Tracks batchResults u.places batchUses) :
    Simulates execute { u with uses := uses, batchUses := batchUses } n' results
      ({ r with node := m }.answer c.requestId response) batchResults (done ++ [(c, a)]) where
  tracks := htracks
  batch := hbatch
  room := (LeaderNode.room_of_core hn).trans h.room
  waiting := (congrArg cachedIds (LeaderNode.waiting_of_core hm)).trans h.waiting
  group := h.group
  short := h.short
  enough := by
    have hroom : m.room = r.node.room := LeaderNode.room_of_core hm
    exact hroom ▸ h.enough
  nonempty := h.nonempty
  ideal := by
    rw [BatchRun.ideal_answer hm (h.not_collected hnew), ← h.ideal, hn]
  answers := by
    intro p hp
    rw [BatchRun.idealResponses_answer hm (h.not_collected hnew)]
    rcases List.mem_append.1 hp with hold | hlast
    · have hne : p.1.requestId ≠ c.requestId :=
        fun heq => hnew (heq ▸ List.mem_map_of_mem hold)
      rw [Function.update_of_ne hne]
      exact h.answers p hold
    · obtain rfl := List.mem_singleton.1 hlast
      rwa [Function.update_self]
  collected := by
    rw [List.map_append]
    exact h.collected.trans (List.sublist_append_left _ _)

end Answers

section Groups

theorem isRead_group (h : Simulates execute u n results r batchResults done)
    (hread : r.isRead = true) : u.group = [] := by
  rw [← h.group, BatchRun.groupIds, if_pos hread]

theorem group_eq (h : Simulates execute u n results r batchResults done)
    (hread : ¬ r.isRead = true) : r.currentCmds.map Command.requestId = u.group := by
  rw [← h.group, BatchRun.groupIds, if_neg hread]

/-- What becomes of the table of the batch: it stays, or the waiting entries are applied. -/
def Carries (r : BatchRun σ) (batchResults results : Bytes → Option Response) (r' : BatchRun σ)
    (batchResults' : Bytes → Option Response) : Prop :=
  batchResults' = batchResults ∧ r'.node.waiting = r.node.waiting ∨
    batchResults' = results ∧ r'.node.waiting = []

/-- The group is executed. -/
theorem flush (h : Simulates execute u n results r batchResults done) :
    ∃ r', r.flush execute = some r' ∧ r'.currentCmds = [] ∧ r'.isRead = r.isRead ∧
      Carries r batchResults results r' results ∧
      Simulates execute u.flush n results r' results done := by
  have hlen := h.short
  have hroom := h.enough
  have hid := h.nonempty
  rw [← h.group] at hlen hroom hid
  obtain ⟨r', hflush, hcmds, hisRead, hcore, hresponses, htracks⟩ :=
    BatchRun.flush_eq_ideal execute h.batch hlen hroom hid
  -- the submits are ahead by the group; the flush catches up with them
  have hideal := h.ideal
  have hresults : results = (r.ideal execute batchResults).2 := congrArg Prod.snd hideal
  have hn : r'.node.core = n.core := hcore.trans (congrArg Prod.fst hideal).symm
  have hwaiting : r'.node.waiting = (r.ideal execute batchResults).1.waiting := by
    have hcore' : r'.node.core = (r.ideal execute batchResults).1.core := by
      rw [← congrArg Prod.fst hideal, hn]
      rfl
    exact LeaderNode.waiting_of_core hcore'
  have hcarries : Carries r batchResults results r' results := by
    rw [Carries, hwaiting, hresults, BatchRun.ideal]
    by_cases hread : r.isRead
    · rw [if_pos hread]
      exact Or.inl ⟨rfl, rfl⟩
    · rw [if_neg hread, LeaderNode.waiting_perform, LeaderNode.perform]
      by_cases hnil : r.currentCmds = []
      · rw [if_pos hnil, if_pos hnil]
        exact Or.inl ⟨rfl, rfl⟩
      · rw [if_neg hnil, if_neg hnil]
        exact Or.inr ⟨rfl, rfl⟩
  refine ⟨r', hflush, hcmds, hisRead, hcarries, ?_⟩
  -- the group is empty now, so the batch is behind with nothing
  have hgroup : r'.groupIds = [] := by
    rw [BatchRun.groupIds, hcmds, List.map_nil, ite_self]
  have hideal' : r'.ideal execute results = (r'.node.core, results) := by
    rw [BatchRun.ideal, hcmds]
    simp only [List.foldl_nil]
    split
    · rfl
    · rw [LeaderNode.perform, if_pos rfl]
  have hresponses' : r'.idealResponses execute results =
      r.idealResponses execute batchResults := by
    rw [← hresponses]
    funext id
    rw [BatchRun.idealResponses, hcmds]
    simp only [List.foldl_nil, List.map_nil, List.not_mem_nil, ↓reduceIte, ite_self]
  have hflushGroup : u.flush.group = [] := by
    rw [Usage.flush]
    split
    · next hnil => exact hnil
    · rfl
  -- the places, the uses by the submits and the room stay
  have hplaces : u.flush.places = u.places ∧ u.flush.uses = u.uses ∧ u.flush.room = u.room := by
    rw [Usage.flush]
    split <;> exact ⟨rfl, rfl, rfl⟩
  constructor
  · rw [hplaces.1, hplaces.2.1]
    exact h.tracks
  · rw [hresults, hplaces.1, Usage.flush]
    rw [h.group, h.waiting] at htracks
    split
    · next hnil => rwa [if_pos hnil] at htracks
    · next hne => rwa [if_neg hne] at htracks
  · rw [hplaces.2.2]
    exact h.room
  · rw [hwaiting, BatchRun.ideal, Usage.flush]
    by_cases hread : r.isRead
    · rw [if_pos hread, if_pos (h.isRead_group hread)]
      exact h.waiting
    · rw [if_neg hread, LeaderNode.waiting_perform]
      have hgroup := h.group_eq hread
      by_cases hnil : r.currentCmds = []
      · rw [hnil, List.map_nil] at hgroup
        rw [if_pos hnil, if_pos hgroup.symm]
        exact h.waiting
      · have hne : u.group ≠ [] := by
          rw [← hgroup]
          rwa [ne_eq, List.map_eq_nil_iff]
        rw [if_neg hnil, if_neg hne]
        rfl
  · rw [hgroup, hflushGroup]
  · rw [hflushGroup]
    exact Nat.zero_le _
  · rw [hflushGroup]
    exact Nat.zero_le _
  · rw [hflushGroup]
    exact List.not_mem_nil
  · rw [hideal', hn]
  · rw [hresponses']
    exact h.answers
  · rw [hcmds]
    exact List.nil_sublist _

/-- Nothing is collected, and the next group can be of either kind. -/
theorem turn (h : Simulates execute u n results r batchResults done) (hcmds : r.currentCmds = [])
    (isRead : Bool) :
    Simulates execute u n results { r with isRead := isRead } batchResults done := by
  have hideal (b : Bool) : ({ r with isRead := b } : BatchRun σ).ideal execute batchResults =
      (r.node.core, batchResults) := by
    rw [BatchRun.ideal, hcmds]
    simp only [List.foldl_nil]
    split
    · rfl
    · rw [LeaderNode.perform, if_pos rfl]
  have hresponses (b : Bool) (id : Bytes) :
      ({ r with isRead := b } : BatchRun σ).idealResponses execute batchResults id =
        r.responses id := by
    rw [BatchRun.idealResponses, hcmds]
    simp only [List.foldl_nil, List.map_nil, List.not_mem_nil, ↓reduceIte, ite_self]
  refine { h with group := ?_, ideal := ?_, answers := ?_ }
  · rw [← h.group, BatchRun.groupIds, BatchRun.groupIds, hcmds]
    simp only [List.map_nil, ite_self]
  · rw [hideal isRead, h.ideal]
    exact hideal r.isRead
  · intro p hp
    rw [hresponses isRead, ← hresponses r.isRead]
    exact h.answers p hp

/-- A read is collected. -/
theorem collectRead (h : Simulates execute u n results r batchResults done)
    (hread : r.isRead = true) (hnew : c.requestId ∉ done.map fun p => p.1.requestId) :
    Simulates execute u { n with storage := (execute c.cmd n.storage).2 } results
      { r with currentCmds := r.currentCmds ++ [c] } batchResults
      (done ++ [(c, some (execute c.cmd n.storage).1)]) := by
  have hideal := h.ideal
  rw [BatchRun.ideal, if_pos hread] at hideal
  obtain ⟨hcore, hresults⟩ := Prod.ext_iff.1 hideal
  change n.core = _ at hcore
  have hstorage : n.storage = (r.currentCmds.foldl (BatchRun.readOutcome execute)
      (r.node.storage, r.responses)).1 := by
    have hstorage' : n.core.storage = _ := congrArg LeaderNode.storage hcore
    exact hstorage'
  refine { h with tracks := ⟨h.tracks.caches, h.tracks.applied_le, h.tracks.commit_le⟩
                  group := ?_, ideal := ?_, answers := ?_, collected := ?_ }
  · rw [← h.group, BatchRun.groupIds, BatchRun.groupIds, if_pos hread, if_pos hread]
  · rw [BatchRun.ideal, if_pos hread]
    refine Prod.ext ?_ hresults
    simp only [List.foldl_append, List.foldl_cons, List.foldl_nil, BatchRun.readOutcome,
      ← hstorage]
    have hset : ({ n with storage := (execute c.cmd n.storage).2 } : LeaderNode σ).core =
        { n.core with storage := (execute c.cmd n.storage).2 } := rfl
    rw [hset, hcore]
  · intro p hp
    rw [BatchRun.idealResponses, if_pos hread]
    simp only [List.foldl_append, List.foldl_cons, List.foldl_nil]
    rw [BatchRun.readOutcome, ← hstorage]
    rcases List.mem_append.1 hp with hold | hlast
    · have hne : p.1.requestId ≠ c.requestId :=
        fun heq => hnew (heq ▸ List.mem_map_of_mem hold)
      have hanswer := h.answers p hold
      rw [BatchRun.idealResponses, if_pos hread] at hanswer
      simp only [Function.update_of_ne hne]
      exact hanswer
    · obtain rfl := List.mem_singleton.1 hlast
      simp only [Function.update_self]
      exact Or.inl rfl
  · rw [List.map_append, List.map_append]
    exact h.collected.append (List.Sublist.refl _)

/-- A write is collected. The commands one by one have been through the log with it. -/
theorem collectWrite (h : Simulates execute u n results r batchResults done)
    (hread : ¬ r.isRead = true) (hid : c.requestId ≠ [])
    (hnew : c.requestId ∉ done.map fun p => p.1.requestId)
    (hshort : u.group.length < u.places) (hroom : 0 < u.room) :
    ∃ response n' results', n.submitWrite execute c = some (response, n') ∧
      Simulates execute (u.write c.requestId) n' results'
        { r with currentCmds := r.currentCmds ++ [c] } batchResults
        (done ++ [(c, some response)]) := by
  have hideal := h.ideal
  rw [BatchRun.ideal, if_neg hread] at hideal
  obtain ⟨hcore, hresults⟩ := Prod.ext_iff.1 hideal
  change n.core = _ at hcore
  change results = _ at hresults
  have hgroup := h.group_eq hread
  have hnil : r.currentCmds = [] ↔ u.group = [] := by
    rw [← hgroup, List.map_eq_nil_iff]
  -- the entries that wait, for the commands one by one
  have hwaiting : cachedIds n.waiting = if u.group = [] then u.waiting else [] := by
    have hcore' : n.waiting = n.core.waiting := rfl
    rw [hcore', hcore, LeaderNode.waiting_perform, ← h.waiting]
    by_cases hg : u.group = []
    · rw [if_pos (hnil.2 hg), if_pos hg]
      rfl
    · rw [if_neg fun hr => hg (hnil.1 hr), if_neg hg]
      rfl
  have hids : [] ∉ [c].map Command.requestId := by
    rw [List.map_singleton, List.mem_singleton]
    exact Ne.symm hid
  have hlen : [c].length ≤ n.room := by
    rw [h.room]
    exact hroom
  obtain ⟨m, hcommit, hm, htracks⟩ := h.tracks.commit execute (List.cons_ne_nil c []) hlen
  rw [cachedIds_of_not_mem hids, hwaiting] at htracks
  have hrecent : Recent u.places c.requestId (([c].map Command.requestId).reverse ++
      ((if u.group = [] then u.waiting else []).reverse ++ u.uses)) := by
    refine recent_append_of_mem (List.mem_reverse.2 List.mem_cons_self) ?_
    exact Nat.lt_of_le_of_lt (Nat.zero_le _) hshort
  obtain ⟨response, n', hlookup, hresult, hn', htracks'⟩ := htracks.lookup_found hrecent
  have hperform : n.core.perform execute results [c] =
      r.node.core.perform execute batchResults (r.currentCmds ++ [c]) := by
    rw [← LeaderNode.perform_append, ← hcore, ← hresults]
  refine ⟨response, n', (n.core.perform execute results [c]).2, ?_, ?_⟩
  · obtain ⟨a, happend, rfl⟩ := Option.map_eq_some_iff.1 hcommit
    have happend' : (n.append [c]).map LeaderNode.clearLeader = some a := by
      rw [← happend, LeaderNode.append, LeaderNode.append, if_pos hlen]
      exact (if_pos hlen).symm
    obtain ⟨b, hb, rfl⟩ := Option.map_eq_some_iff.1 happend'
    rw [LeaderNode.submitWrite, hb, Option.map_some, hlookup]
  · have hideal' : ({ r with currentCmds := r.currentCmds ++ [c] } : BatchRun σ).ideal execute
        batchResults = n.core.perform execute results [c] := by
      rw [BatchRun.ideal, if_neg hread, hperform]
    have hcoreRoom : n.room = r.node.room - r.currentCmds.length := by
      have hroom' : n.room = n.core.room := rfl
      rw [hroom', hcore, LeaderNode.room_perform]
      rfl
    have hlength : r.currentCmds.length = u.group.length := by
      rw [← hgroup, List.length_map]
    have hnroom : n'.room = n.room - 1 := by
      have hroom' : n'.room = (n.core.perform execute results [c]).1.room := by
        rw [← hm, ← hn']
        rfl
      rw [hroom', LeaderNode.room_perform]
      rfl
    have huses : (u.write c.requestId).uses =
        c.requestId :: (([c].map Command.requestId).reverse ++
          ((if u.group = [] then u.waiting else []).reverse ++ u.uses)) := by
      by_cases hg : u.group = [] <;> simp [Usage.write, hg]
    constructor
    · rw [huses]
      exact htracks'
    · exact h.batch
    · rw [hnroom, h.room]
      rfl
    · exact h.waiting
    · rw [BatchRun.groupIds, if_neg hread, Usage.write, List.map_append, hgroup]
      rfl
    · rw [Usage.write, List.length_append]
      exact hshort
    · rw [Usage.write, List.length_append, List.length_singleton]
      have := h.room
      change u.group.length + 1 ≤ r.node.room
      omega
    · rw [Usage.write, List.mem_append, not_or, List.mem_singleton]
      exact ⟨h.nonempty, Ne.symm hid⟩
    · rw [hideal', hn', hm]
    · intro p hp
      rw [BatchRun.idealResponses, if_neg hread, hideal']
      simp only [List.map_append, List.mem_append, List.map_singleton, List.mem_singleton]
      rcases List.mem_append.1 hp with hold | hlast
      · have hne : p.1.requestId ≠ c.requestId :=
          fun heq => hnew (heq ▸ List.mem_map_of_mem hold)
        have hanswer := h.answers p hold
        rw [BatchRun.idealResponses, if_neg hread] at hanswer
        simp only [hne, or_false]
        split
        · next hmem =>
            have hkeep : (n.core.perform execute results [c]).2 p.1.requestId =
                results p.1.requestId := by
              refine LeaderNode.results_perform (fun _ => ?_) ?_
              · have hne' : u.group ≠ [] := by
                  rw [← hgroup]
                  exact List.ne_nil_of_mem hmem
                have hwait : n.core.waiting = n.waiting := rfl
                rw [hwait, hwaiting, if_neg hne']
                exact List.not_mem_nil
              · rw [cachedIds_of_not_mem hids, List.map_singleton, List.mem_singleton]
                exact hne
            rw [if_pos hmem, ← h.ideal] at hanswer
            rw [hkeep]
            exact hanswer
        · next hmem => rwa [if_neg hmem] at hanswer
      · obtain rfl := List.mem_singleton.1 hlast
        simp only [or_true, ↓reduceIte, hresult, Option.getD_some]
        exact Or.inl rfl
    · rw [List.map_append, List.map_append]
      exact h.collected.append (List.Sublist.refl _)

end Groups

section Steps

/-- A result that both lookups find is the same for both. -/
theorem results_eq (h : Simulates execute u n results r batchResults done)
    (hnew : c.requestId ∉ done.map fun p => p.1.requestId)
    (hwaiting : u.group ≠ [] → c.requestId ∉ u.waiting) :
    results c.requestId = batchResults c.requestId := by
  have hresults : results = (r.ideal execute batchResults).2 := congrArg Prod.snd h.ideal
  rw [hresults, BatchRun.ideal]
  split
  · rfl
  · next hread =>
      refine LeaderNode.results_perform (fun hne => ?_) fun hmem => ?_
      · have hgroup := h.group_eq hread
        have hne' : u.group ≠ [] := by
          rw [← hgroup]
          rwa [ne_eq, List.map_eq_nil_iff]
        have hwait : r.node.core.waiting = r.node.waiting := rfl
        rw [hwait, h.waiting]
        exact hwaiting hne'
      · exact h.not_collected hnew (List.mem_filter.1 hmem).1

/-- The commands about the cluster that only read answer alike, also when the batch finds one more
argument. -/
theorem alike_handleRaftCommand {n m : LeaderNode σ} (hm : m.core = n.core) {op : RaftOperation}
    {cmd : Bytes} {args : List Bytes} (hset : op ≠ .setMaster) (hremove : op ≠ .removeNode)
    (hargs : args = [] → (cmd.splitOn 32).getLastD [] = [] → op = .getMaster) :
    ∃ response response', n.handleRaftCommand op args = some response ∧
      m.handleRaftCommand op (stringArgs cmd args) = some response' ∧
      Alike (some response) response' := by
  rw [LeaderNode.handleRaftCommand_of_core hm]
  by_cases hopen : (cmd.splitOn 32).getLastD [] = []
  · rw [stringArgs, if_pos hopen]
    cases args with
    | nil =>
        obtain rfl := hargs rfl hopen
        exact ⟨_, _, rfl, rfl, Or.inr ⟨rfl, rfl⟩⟩
    | cons arg rest =>
        cases op with
        | setMaster => exact absurd rfl hset
        | removeNode => exact absurd rfl hremove
        | getMaster => exact ⟨_, _, rfl, rfl, Or.inl rfl⟩
        | listNodes => exact ⟨_, _, rfl, rfl, Or.inl rfl⟩
        | getStatus => exact ⟨_, _, rfl, rfl, Or.inl rfl⟩
  · rw [stringArgs, if_neg hopen, List.append_nil]
    obtain ⟨response, hresponse⟩ : ∃ response, n.handleRaftCommand op args = some response := by
      cases op with
      | setMaster => exact absurd rfl hset
      | removeNode => exact absurd rfl hremove
      | getMaster => cases args <;> exact ⟨_, rfl⟩
      | listNodes => cases args <;> exact ⟨_, rfl⟩
      | getStatus => cases args <;> exact ⟨_, rfl⟩
    exact ⟨response, response, hresponse, hresponse, Or.inl rfl⟩

theorem flush_of_group {u : Usage} (h : u.group = []) : u.flush = u := if_pos h

/-- A read joins the reads, or comes after the writes. -/
theorem item_read (h : Simulates execute u n results r batchResults done)
    (hnew : c.requestId ∉ done.map fun p => p.1.requestId) :
    ∃ r' batchResults', (if r.isRead then some { r with currentCmds := r.currentCmds ++ [c] }
        else if r.currentCmds = [] then some { r with currentCmds := [c], isRead := true }
        else (r.flush execute).map fun r => { r with currentCmds := [c], isRead := true }) =
          some r' ∧
      Carries r batchResults results r' batchResults' ∧
      Simulates execute u.flush { n with storage := (execute c.cmd n.storage).2 } results r'
        batchResults' (done ++ [(c, some (execute c.cmd n.storage).1)]) := by
  by_cases hread : r.isRead
  · rw [if_pos hread, flush_of_group (h.isRead_group hread)]
    exact ⟨_, batchResults, rfl, Or.inl ⟨rfl, rfl⟩, h.collectRead hread hnew⟩
  · rw [if_neg hread]
    by_cases hcmds : r.currentCmds = []
    · have hgroup := h.group_eq hread
      rw [hcmds] at hgroup
      have hturn := (h.turn hcmds true).collectRead rfl hnew
      simp only [hcmds, List.nil_append] at hturn
      rw [if_pos hcmds, flush_of_group hgroup.symm]
      exact ⟨_, batchResults, rfl, Or.inl ⟨rfl, rfl⟩, hturn⟩
    · obtain ⟨r', hflush, hcmds', -, hcarries, h'⟩ := h.flush
      have hturn := (h'.turn hcmds' true).collectRead rfl hnew
      simp only [hcmds', List.nil_append] at hturn
      rw [if_neg hcmds, hflush]
      exact ⟨_, results, rfl, hcarries, hturn⟩

/-- A write joins the writes, or comes after the reads. -/
theorem item_write (h : Simulates execute u n results r batchResults done)
    (hid : c.requestId ≠ []) (hnew : c.requestId ∉ done.map fun p => p.1.requestId)
    (hshort : u.group.length < u.places) (hroom : 0 < u.room) :
    ∃ response n' results' r' batchResults', n.submitWrite execute c = some (response, n') ∧
      (if !r.isRead then some { r with currentCmds := r.currentCmds ++ [c] }
        else if r.currentCmds = [] then some { r with currentCmds := [c], isRead := false }
        else (r.flush execute).map fun r => { r with currentCmds := [c], isRead := false }) =
          some r' ∧
      Carries r batchResults results r' batchResults' ∧
      Simulates execute (u.write c.requestId) n' results' r' batchResults'
        (done ++ [(c, some response)]) := by
  by_cases hread : r.isRead
  · have hgroup := h.isRead_group hread
    rw [hread, Bool.not_true, if_neg Bool.false_ne_true]
    by_cases hcmds : r.currentCmds = []
    · obtain ⟨response, n', results', hsubmit, hnext⟩ :=
        (h.turn hcmds false).collectWrite Bool.false_ne_true hid hnew hshort hroom
      simp only [hcmds, List.nil_append] at hnext
      rw [if_pos hcmds]
      exact ⟨response, n', results', _, batchResults, hsubmit, rfl, Or.inl ⟨rfl, rfl⟩, hnext⟩
    · obtain ⟨r', hflush, hcmds', -, hcarries, h'⟩ := h.flush
      rw [flush_of_group hgroup] at h'
      obtain ⟨response, n', results', hsubmit, hnext⟩ :=
        (h'.turn hcmds' false).collectWrite Bool.false_ne_true hid hnew hshort hroom
      simp only [hcmds', List.nil_append] at hnext
      rw [if_neg hcmds, hflush]
      exact ⟨response, n', results', _, results, hsubmit, rfl, hcarries, hnext⟩
  · obtain ⟨response, n', results', hsubmit, hnext⟩ :=
      h.collectWrite hread hid hnew hshort hroom
    have hnot : (!r.isRead) = true := by
      rw [Bool.eq_false_iff.2 hread]
      rfl
    rw [if_pos hnot]
    exact ⟨response, n', results', _, batchResults, hsubmit, rfl, Or.inl ⟨rfl, rfl⟩, hnext⟩

/-- A command about the cluster comes after the group. -/
theorem item_raft (h : Simulates execute u n results r batchResults done)
    (hnew : c.requestId ∉ done.map fun p => p.1.requestId) {op : RaftOperation}
    {args : List Bytes} (hset : op ≠ .setMaster) (hremove : op ≠ .removeNode)
    (hargs : args = [] → (c.cmd.splitOn 32).getLastD [] = [] → op = .getMaster) :
    ∃ response r' batchResults', n.handleRaftCommand op args = some response ∧
      ((if r.currentCmds = [] then some r else r.flush execute).bind fun r =>
        (r.node.handleRaftCommand op (stringArgs c.cmd args)).map fun response =>
          r.answer c.requestId response) = some r' ∧
      Carries r batchResults results r' batchResults' ∧
      Simulates execute u.flush n results r' batchResults' (done ++ [(c, some response)]) := by
  obtain ⟨r', hflush, hcmds', -, hcarries, h'⟩ := h.flush
  have hsame : (if r.currentCmds = [] then some r else r.flush execute) = some r' := by
    split
    · next hcmds => rwa [BatchRun.flush_of_nil hcmds] at hflush
    · exact hflush
  have hcore : r'.node.core = n.core := by
    have hideal := congrArg Prod.fst h'.ideal
    rw [BatchRun.ideal, hcmds'] at hideal
    split at hideal
    · exact hideal.symm
    · rw [LeaderNode.perform, if_pos rfl] at hideal
      exact hideal.symm
  obtain ⟨response, response', hsubmit, hbatch, halike⟩ :=
    alike_handleRaftCommand hcore hset hremove hargs
  rw [hsame, Option.bind_some, hbatch]
  exact ⟨response, _, results, hsubmit, rfl, hcarries,
    h'.answer hnew halike rfl h'.tracks rfl h'.batch⟩

/-- A command of the list under the condition, in both ways of submitting. -/
theorem step (h : Simulates execute u n results r batchResults done) (hid : c.requestId ≠ [])
    (hnew : c.requestId ∉ done.map fun p => p.1.requestId) (hcluster : c.changesCluster = false)
    (htakes : u.Takes c) :
    ∃ a n' results' r' batchResults', n.submitCommand execute c = some (a, n') ∧
      r.item execute c = some r' ∧ Carries r batchResults results r' batchResults' ∧
      Simulates execute (u.next c) n' results' r' batchResults' (done ++ [(c, a)]) := by
  rw [Usage.Takes] at htakes
  rw [Usage.next, LeaderNode.submitCommand, if_neg hid, BatchRun.item]
  -- an empty command is answered with an error in both ways, without a lookup
  by_cases hempty : c.cmd = []
  · rw [if_pos hempty] at htakes
    have hparse : parseView c.cmd = .invalid := by
      rw [hempty]
      decide
    rw [if_pos hempty, if_pos hempty, h.tracks.lookup_none htakes]
    refine ⟨_, n, results, _, batchResults, by rw [hparse], rfl, Or.inl ⟨rfl, rfl⟩, ?_⟩
    exact h.answer hnew (Or.inr ⟨rfl, rfl⟩) rfl h.tracks rfl h.batch
  · rw [if_neg hempty] at htakes
    rw [if_neg hempty, if_neg hempty, if_neg hid]
    split at htakes
    · next hfound =>
        rw [if_pos hfound]
        -- both caches have the id, and what they hold is the one result of that id
        obtain ⟨response, n', hlookup, hresult, hn', htracks⟩ := h.tracks.lookup_found htakes.1
        obtain ⟨response', m, hlookup', hresult', hm, hbatch⟩ := h.batch.lookup_found hfound
        have hsame := h.results_eq hnew htakes.2
        rw [hresult, hresult'] at hsame
        obtain rfl := Option.some.inj hsame
        rw [hlookup, hlookup']
        exact ⟨_, n', results, _, batchResults, rfl, rfl,
          Or.inl ⟨rfl, LeaderNode.waiting_of_core hm⟩,
          h.answer hnew (Or.inl rfl) hn' htracks hm hbatch⟩
    · next hmiss =>
        -- neither cache has the id: the kind of the command decides
        obtain ⟨hmiss', hserves⟩ := htakes
        rw [if_neg hmiss, h.tracks.lookup_none hmiss', h.batch.lookup_none hmiss]
        cases hparse : parseView c.cmd with
        | invalid =>
            rw [hparse] at hserves
            exact hserves.elim
        | unknown =>
            rw [hparse] at hserves
            exact hserves.elim
        | known kind args =>
            rw [hparse] at hserves
            rw [parseString_of_known hparse]
            cases kind with
            | read =>
                obtain ⟨r', batchResults', hitem, hcarries, hnext⟩ := h.item_read hnew
                exact ⟨_, _, results, r', batchResults', rfl, hitem, hcarries, hnext⟩
            | write =>
                obtain ⟨response, n', results', r', batchResults', hsubmit, hitem, hcarries,
                  hnext⟩ := h.item_write hid hnew hserves.1 hserves.2
                simp only [hsubmit, Option.map_some]
                exact ⟨_, n', results', r', batchResults', rfl, hitem, hcarries, hnext⟩
            | raft op =>
                -- the two commands that change the cluster are excluded by the list
                have hset : op ≠ .setMaster := by
                  rintro rfl
                  rw [Command.changesCluster, hparse] at hcluster
                  cases hcluster
                have hremove : op ≠ .removeNode := by
                  rintro rfl
                  rw [Command.changesCluster, hparse] at hcluster
                  cases hcluster
                obtain ⟨response, r', batchResults', hsubmit, hitem, hcarries, hnext⟩ :=
                  h.item_raft hnew hset hremove hserves
                simp only [hsubmit, Option.map_some]
                exact ⟨_, n, results, r', batchResults', rfl, hitem, hcarries, hnext⟩

end Steps

end Simulates

section Lists

/-- Behind the commands with these ids: the ids are distinct and not empty, and no command changes
the cluster. -/
structure Admits (done : List Bytes) (commands : List Command) : Prop where
  nodup : (done ++ commands.map Command.requestId).Nodup
  nonempty : [] ∉ commands.map Command.requestId
  cluster : ∀ c ∈ commands, c.changesCluster = false

variable {done : List Bytes} {c : Command} {rest : List Command}

theorem Admits.not_mem (h : Admits done (c :: rest)) : c.requestId ∉ done := by
  intro hmem
  exact (List.nodup_append.1 h.nodup).2.2 c.requestId hmem c.requestId List.mem_cons_self rfl

theorem Admits.ne_nil (h : Admits done (c :: rest)) : c.requestId ≠ [] := by
  intro hnil
  exact h.nonempty (hnil ▸ List.mem_cons_self)

theorem Admits.tail (h : Admits done (c :: rest)) : Admits (done ++ [c.requestId]) rest where
  nodup := by
    rw [List.append_assoc]
    exact h.nodup
  nonempty := fun hmem => h.nonempty (List.mem_cons_of_mem _ hmem)
  cluster := fun c' hc' => h.cluster c' (List.mem_cons_of_mem _ hc')

end Lists

/-- The rest of a list whose commands all meet the condition. -/
theorem Simulates.run (commands : List Command) : ∀ {u : Usage} {n : LeaderNode σ}
    {results : Bytes → Option Response} {r : BatchRun σ} {batchResults : Bytes → Option Response}
    {done : List (Command × Option Response)},
    Simulates execute u n results r batchResults done →
    Admits (done.map fun p => p.1.requestId) commands → u.Suits commands →
    ∃ answers n' r', n.submitEach execute commands = some (answers, n') ∧
      r.runBatch execute commands = some r' ∧ n'.core = r'.node.core ∧
      answers.length = commands.length ∧
      ∀ p ∈ done ++ commands.zip answers, Alike p.2 (r'.responses p.1.requestId) := by
  induction commands with
  | nil =>
      intro u n results r batchResults done h _ _
      -- at the end of the list the last group is executed
      obtain ⟨r', hflush, hcmds, -, -, h'⟩ := h.flush
      have hsame : (if r.currentCmds = [] then some r else r.flush execute) = some r' := by
        split
        · next hcmds => rwa [BatchRun.flush_of_nil hcmds] at hflush
        · exact hflush
      have hcore : n.core = r'.node.core := by
        have hideal := congrArg Prod.fst h'.ideal
        rw [BatchRun.ideal, hcmds] at hideal
        split at hideal
        · exact hideal
        · rwa [LeaderNode.perform, if_pos rfl] at hideal
      refine ⟨[], n, r', rfl, hsame, hcore, rfl, fun p hp => ?_⟩
      rw [List.zip_nil_left, List.append_nil] at hp
      have hanswer := h'.answers p hp
      rw [BatchRun.idealResponses, hcmds] at hanswer
      simpa only [List.foldl_nil, List.map_nil, List.not_mem_nil, ↓reduceIte, ite_self]
        using hanswer
  | cons c rest ih =>
      intro u n results r batchResults done h hadmits hsuits
      obtain ⟨a, n₁, results₁, r₁, batchResults₁, hsubmit, hitem, -, h₁⟩ :=
        h.step hadmits.ne_nil hadmits.not_mem (hadmits.cluster c List.mem_cons_self) hsuits.1
      -- the ids of the rest are new also behind the command just done
      have htail := hadmits.tail
      have hmap : (done ++ [(c, a)]).map (fun p => p.1.requestId) =
          (done.map fun p => p.1.requestId) ++ [c.requestId] := List.map_append
      rw [← hmap] at htail
      obtain ⟨answers, n', r', heach, hrun, hcore, hlen, halike⟩ :=
        ih h₁ htail (hsuits.2 _ rfl)
      refine ⟨a :: answers, n', r', ?_, ?_, hcore, ?_, ?_⟩
      · rw [LeaderNode.submitEach, hsubmit, Option.bind_some, heach, Option.map_some]
      · rw [BatchRun.runBatch, hitem, Option.bind_some, hrun]
      · rw [List.length_cons, List.length_cons, hlen]
      · rw [List.zip_cons_cons, List.append_cons]
        exact halike

namespace LeaderNode

/-- The cache holds each id once and has places, and the indices are within the log. -/
structure WellFormed (n : LeaderNode σ) : Prop where
  pos : 0 < n.resultCache.capacity
  nodup : n.resultCache.keys.Nodup
  applied_le : n.lastApplied ≤ n.log.length
  commit_le : n.commitIndex ≤ n.log.length

/-- The usage before a list of commands. -/
def usage (n : LeaderNode σ) : Usage where
  places := max n.resultCache.capacity n.resultCache.keys.length
  room := n.room
  uses := n.resultCache.keys
  batchUses := n.resultCache.keys
  waiting := cachedIds n.waiting

theorem WellFormed.tracks {n : LeaderNode σ} (h : n.WellFormed) :
    n.Tracks (fun id => (n.resultCache.get id).1) n.usage.places n.usage.uses where
  caches := ⟨h.pos, LRUCache.Keeps.of_nodup h.nodup, fun _ _ hfound => hfound⟩
  applied_le := h.applied_le
  commit_le := h.commit_le

variable (execute) in
/-- The batch before its first command. -/
theorem WellFormed.simulates {n : LeaderNode σ} (h : n.WellFormed) :
    Simulates execute n.usage n (fun id => (n.resultCache.get id).1) { node := n }
      (fun id => (n.resultCache.get id).1) [] where
  tracks := h.tracks
  batch := h.tracks
  room := rfl
  waiting := rfl
  group := rfl
  short := Nat.zero_le _
  enough := Nat.zero_le _
  nonempty := List.not_mem_nil
  ideal := rfl
  answers := fun _ hp => absurd hp List.not_mem_nil
  collected := List.Sublist.refl _

theorem submitBatchCommand_eq (n : LeaderNode σ) (commands : List Command) :
    n.submitBatchCommand execute commands =
      (BatchRun.runBatch execute { node := n } commands).map fun r =>
        (commands.map fun c => (c.requestId, r.responses c.requestId), r.node) := by
  rw [submitBatchCommand]
  split
  · next hnil =>
      rw [hnil]
      rfl
  · rfl

/-- The answers are alike one by one. -/
theorem forall₂_alike_iff {commands : List Command} {answers : List (Option Response)}
    {responses : Bytes → Response} :
    List.Forall₂ Alike answers (commands.map fun c => responses c.requestId) ↔
      answers.length = commands.length ∧
        ∀ p ∈ commands.zip answers, Alike p.2 (responses p.1.requestId) := by
  have hflip : List.Forall₂ Alike answers (commands.map fun c => responses c.requestId) ↔
      List.Forall₂ (fun c a => Alike a (responses c.requestId)) commands answers := by
    rw [List.forall₂_map_right_iff]
    exact ⟨List.Forall₂.flip, List.Forall₂.flip⟩
  rw [hflip, List.forall₂_iff_zip, eq_comm]
  exact and_congr_right fun _ =>
    ⟨fun h p hp => h (a := p.1) (b := p.2) hp, fun h c a hmem => h (c, a) hmem⟩

/-- A list of commands that suits a node: the batch does what the commands do one by one. -/
theorem WellFormed.agrees {n : LeaderNode σ} (h : n.WellFormed) {commands : List Command}
    (hadmits : Admits [] commands) (hsuits : n.usage.Suits commands) :
    n.Agrees execute commands := by
  obtain ⟨answers, n', r', heach, hrun, hcore, hlen, halike⟩ :=
    (h.simulates execute).run commands hadmits hsuits
  refine ⟨commands.map fun c => (c.requestId, r'.responses c.requestId), r'.node, answers, n', ?_,
    heach, ?_, ?_, ?_, ?_⟩
  · rw [submitBatchCommand_eq, hrun, Option.map_some]
  · rw [List.map_map]
    rfl
  · rw [List.map_map]
    exact forall₂_alike_iff.2 ⟨hlen, halike⟩
  · exact (storage_of_core hcore).symm
  · have hlog : n'.core.log = r'.node.core.log := by rw [hcore]
    exact hlog.symm

end LeaderNode

end EyaKV.Raft
