import EyaKV.Base.Runs
import EyaKV.Raft.Submitting

/-!
# Groups of a batch

`submit_batch_command` looks every id up before it executes the writes it has collected, and looks
the results up after the whole group. Both are right as long as the cache gives the same answers as
it gives to the commands one by one. `Usage` follows the ids that decide this in both ways of
submitting, and `Usage.Suits` says that every command of a list finds them alike.

The executions are compared with those that have a cache which keeps everything (`perform`,
`ideal`). A node whose cache has the results of the ids that were used last (`Tracks`) goes through
the same states (`Tracks.commit`), and so does the group of a batch (`flush_eq_ideal`).
-/

set_option autoImplicit false

namespace EyaKV.Raft

open EyaKV.Base EyaKV.Base.Recency EyaKV.Common EyaKV.Store

section Agreement

/-- Responses that are the same, error texts aside. No response is an exception. -/
def Alike : Option Response → Response → Prop
  | none, r => r.code = .error
  | some r', r => r' = r ∨ r'.code = .error ∧ r.code = .error

/-- The batch returns, in order, what the commands return one after the other, and leaves the same
storage and the same log. -/
def LeaderNode.Agrees {σ : Type} (execute : Bytes → σ → Response × σ) (n : LeaderNode σ)
    (commands : List Command) : Prop :=
  ∃ results n₁ answers n₂, n.submitBatchCommand execute commands = some (results, n₁) ∧
    n.submitEach execute commands = some (answers, n₂) ∧
    results.map Prod.fst = commands.map Command.requestId ∧
    List.Forall₂ Alike answers (results.map Prod.snd) ∧
    n₁.storage = n₂.storage ∧ n₁.log = n₂.log

/-- The command is one of the two that change the cluster. -/
def Command.changesCluster (c : Command) : Bool :=
  match parseView c.cmd with
  | .known (.raft .setMaster) _ => true
  | .known (.raft .removeNode) _ => true
  | _ => false

end Agreement

/-- The ids that the lookups of both calls depend on: what the single submissions have used, from
the last on, what the batch has used, the entries that wait to be applied, and the writes that the
batch has collected. -/
structure Usage where
  places : Nat
  room : Nat
  uses : List Bytes
  batchUses : List Bytes
  waiting : List Bytes
  group : List Bytes := []
  deriving DecidableEq

namespace Usage

variable (u : Usage) (c : Command)

/-- The group is executed. -/
def flush : Usage :=
  if u.group = [] then u
  else
    { u with
      batchUses := u.group.reverse ++ (u.group.reverse ++ (u.waiting.reverse ++ u.batchUses))
      waiting := []
      group := [] }

/-- A write goes through the log, with the entries that wait, and its result is looked up. -/
def write (id : Bytes) : Usage :=
  { u with
    room := u.room - 1
    uses := id :: id :: ((if u.group = [] then u.waiting.reverse else []) ++ u.uses)
    group := u.group ++ [id] }

/-- What a command without a cached result must be. -/
def Serves (cmd : Bytes) : Parsed → Prop
  | .invalid => False
  | .unknown => False
  | .known .read _ => True
  | .known (.raft op) args => args = [] → (cmd.splitOn 32).getLastD [] = [] → op = .getMaster
  | .known .write _ => u.group.length < u.places ∧ 0 < u.room

/-- The condition on a command. -/
def Takes : Prop :=
  if c.cmd = [] then ¬ Recent u.places c.requestId u.uses
  else if Recent u.places c.requestId u.batchUses then
    Recent u.places c.requestId u.uses ∧ (u.group ≠ [] → c.requestId ∉ u.waiting)
  else ¬ Recent u.places c.requestId u.uses ∧ u.Serves c.cmd (parseView c.cmd)

/-- The usage after a command. -/
def next : Usage :=
  if c.cmd = [] then u
  else if Recent u.places c.requestId u.batchUses then
    { u with uses := c.requestId :: u.uses, batchUses := c.requestId :: u.batchUses }
  else
    match parseView c.cmd with
    | .known .write _ => u.write c.requestId
    | .known _ _ => u.flush
    | _ => u

instance decidableServes (cmd : Bytes) : ∀ parsed, Decidable (u.Serves cmd parsed)
  | .invalid => inferInstanceAs (Decidable False)
  | .unknown => inferInstanceAs (Decidable False)
  | .known .read _ => inferInstanceAs (Decidable True)
  | .known (.raft _) _ => inferInstanceAs (Decidable (_ → _ → _ = _))
  | .known .write _ => inferInstanceAs (Decidable (_ ∧ _))

instance decidableTakes : Decidable (u.Takes c) :=
  inferInstanceAs (Decidable (if c.cmd = [] then ¬ Recent u.places c.requestId u.uses
    else if Recent u.places c.requestId u.batchUses then
      Recent u.places c.requestId u.uses ∧ (u.group ≠ [] → c.requestId ∉ u.waiting)
    else ¬ Recent u.places c.requestId u.uses ∧ u.Serves c.cmd (parseView c.cmd)))

/-- Every command meets the condition where it stands in the list. -/
def Suits (commands : List Command) : Prop :=
  Machine.RunMeets (fun u c => some (u.next c)) Takes u commands

instance decidableSuits (commands : List Command) : Decidable (u.Suits commands) :=
  inferInstanceAs (Decidable (Machine.RunMeets _ _ _ _))

end Usage

section Parts

/-- The last part of a string is there also when it is empty. -/
theorem splitBySpacerString_eq (str : Bytes) : splitBySpacerString str =
    splitBySpacer str ++ if (str.splitOn 32).getLastD [] = [] then [[]] else [] := by
  have hne : str.splitOn 32 ≠ [] := List.splitOn_ne_nil _ _
  have hsplit := List.dropLast_append_getLast hne
  have hlast : (str.splitOn 32).getLastD [] = (str.splitOn 32).getLast hne := by
    rw [List.getLastD_eq_getLast?, List.getLast?_eq_getLast_of_ne_nil hne, Option.getD_some]
  rw [splitBySpacerString, splitBySpacer, hlast]
  nth_rewrite 3 [← hsplit]
  rw [List.filter_append, List.append_assoc]
  congr 1
  by_cases h : (str.splitOn 32).getLast hne = []
  · simp [h]
  · simp [h]

theorem parseString_eq_unknown {cmd : Bytes} (h : parseView cmd = .invalid) :
    parseString cmd = .unknown := by
  have hparts : splitBySpacer cmd = [] := by
    rw [parseView] at h
    cases hsplit : splitBySpacer cmd with
    | nil => rfl
    | cons name args =>
        rw [hsplit, parseParts] at h
        split at h <;> cases h
  have hlast : (cmd.splitOn 32).getLastD [] = [] := by
    by_contra hlast
    have hne : cmd.splitOn 32 ≠ [] := List.splitOn_ne_nil _ _
    rw [List.getLastD_eq_getLast?, List.getLast?_eq_getLast_of_ne_nil hne,
      Option.getD_some] at hlast
    rw [splitBySpacer, List.filter_eq_nil_iff] at hparts
    exact hparts _ (List.getLast_mem hne) (by simpa using hlast)
  rw [parseString, splitBySpacerString_eq, hparts, if_pos hlast]
  decide

/-- What `submit_batch_command` reads as the parts behind the first one. -/
def stringArgs (cmd : Bytes) (args : List Bytes) : List Bytes :=
  args ++ if (cmd.splitOn 32).getLastD [] = [] then [[]] else []

theorem parseString_of_parts {cmd name : Bytes} {args : List Bytes}
    (h : splitBySpacer cmd = name :: args) :
    parseString cmd = parseParts (name :: stringArgs cmd args) := by
  rw [parseString, splitBySpacerString_eq, h]
  rfl

theorem parseString_of_unknown {cmd : Bytes} (h : parseView cmd = .unknown) :
    parseString cmd = .unknown := by
  rw [parseView] at h
  cases hsplit : splitBySpacer cmd with
  | nil =>
      rw [hsplit] at h
      cases h
  | cons name args =>
      rw [hsplit, parseParts] at h
      rw [parseString_of_parts hsplit, parseParts]
      cases hkind : operationKind name with
      | none => rfl
      | some kind =>
          rw [hkind] at h
          cases h

theorem parseString_of_known {cmd : Bytes} {kind : CommandKind} {args : List Bytes}
    (h : parseView cmd = .known kind args) :
    parseString cmd = .known kind (stringArgs cmd args) := by
  rw [parseView] at h
  cases hsplit : splitBySpacer cmd with
  | nil =>
      rw [hsplit] at h
      cases h
  | cons name rest =>
      rw [hsplit, parseParts] at h
      rw [parseString_of_parts hsplit, parseParts]
      cases hkind : operationKind name with
      | none =>
          rw [hkind] at h
          cases h
      | some kind' =>
          rw [hkind] at h
          cases h
          rfl

end Parts

section Results

/-- The cache has the results of the ids that were used last, and the table has all results. -/
structure Caches (cache : LRUCache Bytes Response) (results : Bytes → Option Response)
    (places : Nat) (uses : List Bytes) : Prop where
  pos : 0 < cache.capacity
  keeps : cache.Keeps places uses
  within : ∀ id response, (cache.get id).1 = some response → results id = some response

variable {cache : LRUCache Bytes Response} {results : Bytes → Option Response} {places : Nat}
  {uses : List Bytes} {id : Bytes}

theorem Caches.get (h : Caches cache results places uses) (hrecent : Recent places id uses) :
    Caches (cache.get id).2 results places (id :: uses) where
  pos := by
    rw [LRUCache.capacity_get]
    exact h.pos
  keeps := h.keeps.get hrecent
  within := by
    intro other response hfound
    rw [LRUCache.get_get] at hfound
    exact h.within other response hfound

theorem Caches.put (h : Caches cache results places uses) (id : Bytes) (response : Response) :
    Caches (cache.put id response) (Function.update results id (some response)) places
      (id :: uses) where
  pos := by
    rw [LRUCache.capacity_put]
    exact h.pos
  keeps := h.keeps.put h.pos
  within := by
    intro other found hfound
    by_cases hother : other = id
    · obtain rfl := hother
      rw [LRUCache.get_put_self] at hfound
      rw [Function.update_self, hfound]
    · rw [Function.update_of_ne hother]
      exact h.within other found (LRUCache.get_of_get_put hother hfound)

/-- A recent id is found, with its result. -/
theorem Caches.found (h : Caches cache results places uses) (hrecent : Recent places id uses) :
    ∃ response, (cache.get id).1 = some response ∧ results id = some response := by
  obtain ⟨response, hget⟩ := Option.isSome_iff_exists.1 (h.keeps.isSome_get.2 hrecent)
  exact ⟨response, hget, h.within id response hget⟩

end Results

section Entries

variable {σ : Type} (execute : Bytes → σ → Response × σ)

/-- An entry of the log, on the storage and on the table of all results. -/
def outcome (p : σ × (Bytes → Option Response)) (e : Command) : σ × (Bytes → Option Response) :=
  ((execute e.cmd p.1).2,
    if e.requestId = [] then p.2
    else Function.update p.2 e.requestId (some (execute e.cmd p.1).1))

/-- The ids of the entries whose results go into the cache. -/
def cachedIds (entries : List Command) : List Bytes :=
  (entries.map Command.requestId).filter (· ≠ [])

theorem cachedIds_cons (e : Command) (entries : List Command) : cachedIds (e :: entries) =
    if e.requestId = [] then cachedIds entries else e.requestId :: cachedIds entries := by
  by_cases h : e.requestId = [] <;> simp [cachedIds, h]

theorem cachedIds_append (l l' : List Command) :
    cachedIds (l ++ l') = cachedIds l ++ cachedIds l' := by
  simp only [cachedIds, List.map_append, List.filter_append]

theorem cachedIds_of_not_mem {entries : List Command}
    (h : [] ∉ entries.map Command.requestId) :
    cachedIds entries = entries.map Command.requestId := by
  rw [cachedIds, List.filter_eq_self]
  intro id hid
  simp only [ne_eq, decide_not, Bool.not_eq_true', decide_eq_false_iff_not]
  rintro rfl
  exact h hid

variable {execute}

/-- The results of other ids stay. -/
theorem results_foldl_outcome {id : Bytes} (entries : List Command) :
    ∀ p : σ × (Bytes → Option Response), id ∉ cachedIds entries →
      (entries.foldl (outcome execute) p).2 id = p.2 id := by
  induction entries with
  | nil =>
      intro p _
      rfl
  | cons e rest ih =>
      intro p hid
      rw [cachedIds_cons] at hid
      rw [List.foldl_cons]
      split at hid
      · next hempty =>
          rw [ih _ hid, outcome, if_pos hempty]
      · next hne =>
          rw [List.mem_cons, not_or] at hid
          rw [ih _ hid.2]
          simp only [outcome, if_neg hne, Function.update_of_ne hid.1]

variable (execute)

/-- The entries on the cache are the entries on the table. -/
theorem Caches.applyEntries (entries : List Command) :
    ∀ (storage : σ) {cache : LRUCache Bytes Response} {results : Bytes → Option Response}
      {places : Nat} {uses : List Bytes}, Caches cache results places uses →
      (entries.foldl (LeaderNode.applyEntry execute) (storage, cache)).1 =
          (entries.foldl (outcome execute) (storage, results)).1 ∧
        Caches (entries.foldl (LeaderNode.applyEntry execute) (storage, cache)).2
          (entries.foldl (outcome execute) (storage, results)).2 places
          ((cachedIds entries).reverse ++ uses) := by
  induction entries with
  | nil =>
      intro storage cache results places uses h
      exact ⟨rfl, h⟩
  | cons e rest ih =>
      intro storage cache results places uses h
      rw [List.foldl_cons, List.foldl_cons, LeaderNode.applyEntry, outcome, cachedIds_cons]
      by_cases hempty : e.requestId = []
      · simp only [hempty, ↓reduceIte]
        exact ih _ h
      · simp only [hempty, ↓reduceIte, List.reverse_cons, List.append_assoc, List.cons_append,
          List.nil_append]
        exact ih _ (h.put e.requestId (execute e.cmd storage).1)

end Entries

section Nodes

variable {σ : Type} (execute : Bytes → σ → Response × σ)

namespace LeaderNode

/-- The node but for its cache. -/
def core (n : LeaderNode σ) : LeaderNode σ := { n with resultCache := .ofCapacity 0 }

/-- The entries that wait to be applied. -/
def waiting (n : LeaderNode σ) : List Command := n.log.drop n.lastApplied

/-- The writes of a group have gone through the log, with a cache that keeps everything. -/
def perform (n : LeaderNode σ) (results : Bytes → Option Response) (cmds : List Command) :
    LeaderNode σ × (Bytes → Option Response) :=
  if cmds = [] then (n, results)
  else
    let applied := (n.waiting ++ cmds).foldl (outcome execute) (n.storage, results)
    ({ n with
      storage := applied.1
      log := n.log ++ cmds
      lastApplied := n.log.length + cmds.length
      commitIndex := n.log.length + cmds.length
      room := n.room - cmds.length
      currentLeader := none }, applied.2)

/-- The cache of a node whose indices are within its log. -/
structure Tracks (n : LeaderNode σ) (results : Bytes → Option Response) (places : Nat)
    (uses : List Bytes) : Prop where
  caches : Caches n.resultCache results places uses
  applied_le : n.lastApplied ≤ n.log.length
  commit_le : n.commitIndex ≤ n.log.length

variable {execute} {n : LeaderNode σ} {results : Bytes → Option Response} {places : Nat}
  {uses : List Bytes} {id : Bytes}

theorem Tracks.lookup_found (h : n.Tracks results places uses) (hrecent : Recent places id uses) :
    ∃ response m, n.lookup id = (some response, m) ∧ results id = some response ∧
      m.core = n.core ∧ m.Tracks results places (id :: uses) := by
  obtain ⟨response, hget, hresult⟩ := h.caches.found hrecent
  refine ⟨response, { n with resultCache := (n.resultCache.get id).2 }, ?_, hresult, rfl, ?_⟩
  · rw [lookup, hget]
  · exact ⟨h.caches.get hrecent, h.applied_le, h.commit_le⟩

theorem Tracks.lookup_none (h : n.Tracks results places uses)
    (hold : ¬ Recent places id uses) : n.lookup id = (none, n) := by
  rw [lookup, h.caches.keeps.get_eq_none hold]

variable (execute)

/-- The writes of a group go through the log. -/
theorem Tracks.commit (h : n.Tracks results places uses) {cmds : List Command} (hne : cmds ≠ [])
    (hroom : cmds.length ≤ n.room) :
    ∃ m, (n.clearLeader.append cmds).map (commitEntries execute) = some m ∧
      m.core = (n.core.perform execute results cmds).1 ∧
      m.Tracks (n.core.perform execute results cmds).2 places
        ((cachedIds cmds).reverse ++ ((cachedIds n.waiting).reverse ++ uses)) := by
  have hlen : 0 < cmds.length := List.length_pos_iff.2 hne
  have hcommit : ¬ (n.log ++ cmds).length ≤ n.commitIndex := by
    have := h.commit_le
    rw [List.length_append]
    omega
  have hdrop : (n.log ++ cmds).drop n.lastApplied = n.waiting ++ cmds :=
    List.drop_append_of_le_length h.applied_le
  obtain ⟨hstorage, hcaches⟩ := Caches.applyEntries execute (n.waiting ++ cmds)
    n.storage h.caches
  rw [cachedIds_append, List.reverse_append, List.append_assoc] at hcaches
  have happend : n.clearLeader.append cmds = some { n with
      log := n.log ++ cmds, room := n.room - cmds.length, currentLeader := none } := by
    rw [append, if_pos (show cmds.length ≤ n.clearLeader.room from hroom)]
    rfl
  have hlog : n.log.length + cmds.length = (n.log ++ cmds).length := List.length_append.symm
  rw [happend, Option.map_some]
  refine ⟨_, rfl, ?_, ?_⟩
  · rw [commitEntries, if_neg hcommit, perform, if_neg hne]
    have hwaiting : n.core.waiting = n.waiting := rfl
    rw [hwaiting]
    simp only [core, hdrop, hstorage, hlog]
  · rw [commitEntries, if_neg hcommit, perform, if_neg hne]
    simp only [hdrop]
    exact ⟨hcaches, Nat.le_refl _, Nat.le_refl _⟩

end LeaderNode

end Nodes

section Groups

variable {σ : Type} (execute : Bytes → σ → Response × σ)

namespace BatchRun

variable (r : BatchRun σ) (c : Command)

theorem harvestItem_eq : r.harvestItem c =
    { r with node := (r.node.lookup c.requestId).2 }.answer c.requestId
      ((r.node.lookup c.requestId).1.getD (.error "execute failed")) := by
  rw [harvestItem]
  split
  · next hlookup => rw [hlookup, Option.getD_some]
  · next hlookup => rw [hlookup, Option.getD_none]

/-- The lookups at the end of a group leave all but the order of the cache, and answer with what
the cache has. -/
theorem foldl_harvestItem (cmds : List Command) : ∀ r : BatchRun σ,
    (cmds.foldl harvestItem r).node.core = r.node.core ∧
      (cmds.foldl harvestItem r).currentCmds = r.currentCmds ∧
      (cmds.foldl harvestItem r).isRead = r.isRead ∧
      ∀ id, (cmds.foldl harvestItem r).responses id =
        if id ∈ cmds.map Command.requestId then
          (r.node.resultCache.get id).1.getD (.error "execute failed")
        else r.responses id := by
  induction cmds with
  | nil =>
      intro r
      exact ⟨rfl, rfl, rfl, fun id => (if_neg List.not_mem_nil).symm⟩
  | cons c rest ih =>
      intro r
      obtain ⟨hcore, hcmds, hread, hresponses⟩ := ih (r.harvestItem c)
      rw [List.foldl_cons]
      refine ⟨hcore.trans ?_, hcmds.trans ?_, hread.trans ?_, fun id => ?_⟩
      · rw [harvestItem_eq]
        rfl
      · rw [harvestItem_eq]
        rfl
      · rw [harvestItem_eq]
        rfl
      · have hget : ((r.harvestItem c).node.resultCache.get id).1 =
            (r.node.resultCache.get id).1 := by
          rw [harvestItem_eq]
          exact LRUCache.get_get
        have hanswer : (r.harvestItem c).responses = Function.update r.responses c.requestId
            ((r.node.resultCache.get c.requestId).1.getD (.error "execute failed")) := by
          rw [harvestItem_eq]
          rfl
        rw [hresponses, hget, hanswer]
        by_cases hid : id = c.requestId
        · obtain rfl := hid
          simp only [Function.update_self, List.map_cons, List.mem_cons_self, ↓reduceIte, ite_self]
        · simp only [List.map_cons, List.mem_cons, hid, false_or, Function.update_of_ne hid]

theorem tracks_foldl_harvestItem {results : Bytes → Option Response} {places : Nat}
    (cmds : List Command) : ∀ {r : BatchRun σ} {uses : List Bytes},
    r.node.Tracks results places uses →
    (∀ c ∈ cmds, (r.node.resultCache.get c.requestId).1.isSome = true) →
      (cmds.foldl harvestItem r).node.Tracks results places
        ((cmds.map Command.requestId).reverse ++ uses) := by
  induction cmds with
  | nil =>
      intro r uses h _
      exact h
  | cons c rest ih =>
      intro r uses h hfound
      have hrecent := h.caches.keeps.isSome_get.1 (hfound c List.mem_cons_self)
      obtain ⟨response, m, hlookup, -, -, hm⟩ := h.lookup_found hrecent
      have hnode : (r.harvestItem c).node = m := by
        rw [harvestItem_eq, hlookup]
        rfl
      have hget (c' : Command) : (m.resultCache.get c'.requestId).1 =
          (r.node.resultCache.get c'.requestId).1 := by
        have hm' : m = (r.node.lookup c.requestId).2 := (congrArg Prod.snd hlookup).symm
        rw [hm']
        exact LRUCache.get_get
      rw [List.foldl_cons, List.map_cons, List.reverse_cons, List.append_assoc]
      refine ih (hnode ▸ hm) fun c' hc' => ?_
      rw [hnode, hget]
      exact hfound c' (List.mem_cons_of_mem _ hc')

/-- A read, on the storage and on the responses. -/
def readOutcome (p : σ × (Bytes → Response)) (c : Command) : σ × (Bytes → Response) :=
  ((execute c.cmd p.1).2, Function.update p.2 c.requestId (execute c.cmd p.1).1)

/-- The reads of a group leave all but the storage. -/
theorem foldl_readItem (cmds : List Command) : ∀ r : BatchRun σ,
    cmds.foldl (readItem execute) r =
      { r with
        node := { r.node with
          storage := (cmds.foldl (readOutcome execute) (r.node.storage, r.responses)).1 }
        responses := (cmds.foldl (readOutcome execute) (r.node.storage, r.responses)).2 } := by
  induction cmds with
  | nil =>
      intro r
      rfl
  | cons c rest ih =>
      intro r
      rw [List.foldl_cons, ih]
      rfl

/-- The group executed with a cache that keeps everything: the node and all results. -/
def ideal (results : Bytes → Option Response) (r : BatchRun σ) :
    LeaderNode σ × (Bytes → Option Response) :=
  if r.isRead then
    ({ r.node.core with
      storage := (r.currentCmds.foldl (readOutcome execute) (r.node.storage, r.responses)).1 },
      results)
  else r.node.core.perform execute results r.currentCmds

/-- The responses that this gives. -/
def idealResponses (results : Bytes → Option Response) (r : BatchRun σ) (id : Bytes) : Response :=
  if r.isRead then (r.currentCmds.foldl (readOutcome execute) (r.node.storage, r.responses)).2 id
  else if id ∈ r.currentCmds.map Command.requestId then
    ((r.ideal execute results).2 id).getD (.error "execute failed")
  else r.responses id

/-- The ids of the writes that are collected. -/
def groupIds (r : BatchRun σ) : List Bytes :=
  if r.isRead then [] else r.currentCmds.map Command.requestId

variable {execute}

theorem flush_of_nil {r : BatchRun σ} (h : r.currentCmds = []) : r.flush execute = some r := by
  have hsame : ({ r with currentCmds := [] } : BatchRun σ) = r := by
    rw [← h]
  rw [flush, h, executeBatchReadCommand, executeBatchWriteCommand, if_pos rfl, List.foldl_nil,
    ite_self, Option.map_some, hsame]

variable (execute)

/-- The execution of a group is the one with a cache that keeps everything, when the cache has
places for the group. -/
theorem flush_eq_ideal {r : BatchRun σ} {results : Bytes → Option Response} {places : Nat}
    {uses : List Bytes} (h : r.node.Tracks results places uses)
    (hlen : r.groupIds.length ≤ places) (hroom : r.groupIds.length ≤ r.node.room)
    (hid : [] ∉ r.groupIds) :
    ∃ r', r.flush execute = some r' ∧ r'.currentCmds = [] ∧ r'.isRead = r.isRead ∧
      r'.node.core = (r.ideal execute results).1 ∧
      r'.responses = r.idealResponses execute results ∧
      r'.node.Tracks (r.ideal execute results).2 places
        (if r.groupIds = [] then uses
          else
            r.groupIds.reverse ++
              (r.groupIds.reverse ++ ((cachedIds r.node.waiting).reverse ++ uses))) := by
  cases hread : r.isRead with
  | true =>
      refine ⟨{ r.executeBatchReadCommand execute r.currentCmds with currentCmds := [] }, ?_, rfl,
        ?_, ?_, ?_, ?_⟩
      · rw [flush, if_pos hread, Option.map_some]
      · rw [executeBatchReadCommand, foldl_readItem]
        exact hread
      · rw [ideal, if_pos hread, executeBatchReadCommand, foldl_readItem]
        rfl
      · funext id
        rw [idealResponses, if_pos hread, executeBatchReadCommand, foldl_readItem]
      · rw [ideal, if_pos hread, groupIds, if_pos hread, if_pos rfl, executeBatchReadCommand,
          foldl_readItem]
        exact ⟨h.caches, h.applied_le, h.commit_le⟩
  | false =>
      rw [groupIds, if_neg (Bool.eq_false_iff.1 hread)] at hlen hroom hid
      rw [groupIds, if_neg (Bool.eq_false_iff.1 hread)]
      by_cases hcmds : r.currentCmds = []
      · refine ⟨r, flush_of_nil hcmds, hcmds, hread, ?_, ?_, ?_⟩
        · rw [ideal, if_neg (Bool.eq_false_iff.1 hread), LeaderNode.perform, if_pos hcmds]
        · funext id
          rw [idealResponses, if_neg (Bool.eq_false_iff.1 hread), hcmds]
          exact (if_neg List.not_mem_nil).symm
        · rw [ideal, if_neg (Bool.eq_false_iff.1 hread), LeaderNode.perform, if_pos hcmds, hcmds,
            if_pos List.map_nil]
          exact h
      · have hids : r.currentCmds.map Command.requestId ≠ [] := by
          rwa [ne_eq, List.map_eq_nil_iff]
        rw [List.length_map] at hroom
        obtain ⟨m, hcommit, hcore, hm⟩ := h.commit execute hcmds hroom
        obtain ⟨a, happend, rfl⟩ := Option.map_eq_some_iff.1 hcommit
        rw [cachedIds_of_not_mem hid] at hm
        have hideal : r.node.core.perform execute results r.currentCmds =
            r.ideal execute results := by
          rw [ideal, if_neg (Bool.eq_false_iff.1 hread)]
        rw [hideal] at hm hcore
        -- the cache has the results of the whole group
        have hfound (id : Bytes) (hmem : id ∈ r.currentCmds.map Command.requestId) :
            ∃ response, ((a.commitEntries execute).resultCache.get id).1 = some response ∧
              (r.ideal execute results).2 id = some response := by
          refine hm.caches.found (recent_append_of_mem (List.mem_reverse.2 hmem) ?_)
          rwa [List.length_reverse]
        obtain ⟨hsame, -, hisRead, hresponses⟩ := foldl_harvestItem r.currentCmds
          { r with node := a.commitEntries execute }
        refine ⟨{ r.currentCmds.foldl harvestItem { r with node := a.commitEntries execute } with
          currentCmds := [] }, ?_, rfl, hisRead.trans hread, hsame.trans hcore, ?_, ?_⟩
        · rw [flush, if_neg (Bool.eq_false_iff.1 hread), executeBatchWriteCommand, if_neg hcmds,
            happend]
          rfl
        · funext id
          refine (hresponses id).trans ?_
          rw [idealResponses, if_neg (Bool.eq_false_iff.1 hread)]
          by_cases hmem : id ∈ r.currentCmds.map Command.requestId
          · obtain ⟨response, hget, hresult⟩ := hfound id hmem
            rw [if_pos hmem, if_pos hmem, hresult, hget]
          · rw [if_neg hmem, if_neg hmem]
        · rw [if_neg hids]
          refine tracks_foldl_harvestItem r.currentCmds hm fun c hc => ?_
          obtain ⟨response, hget, -⟩ := hfound c.requestId (List.mem_map_of_mem hc)
          rw [hget]
          rfl

end BatchRun

end Groups

end EyaKV.Raft
