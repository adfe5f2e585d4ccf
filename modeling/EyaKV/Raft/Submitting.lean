import EyaKV.Raft.Deduplication
import EyaKV.Raft.Node

/-!
# Submitting commands

`submit_command` and `submit_batch_command` of a leader with `need_majority_confirm` off, each
as one piece: no timeout expires and nobody else is at work. An entry is committed and applied
right after its append. The batch goes through its commands, executes reads and writes in groups,
and collects the responses by request id.

What a command does to the storage, and what it answers, is the parameter `execute`;
`Storage::execute` throws nothing. A call that has no result is `none`: `submit_batch_command`
throws, or an append over the size threshold of the log asks for the mutex that it holds.
-/

set_option autoImplicit false

namespace EyaKV.Raft

open EyaKV.Common EyaKV.Store

/-- A leader, with what the two calls read and write. `log` is the whole log, and `room` says how
many entries the array takes before an append truncates it. -/
structure LeaderNode (σ : Type) where
  storage : σ
  resultCache : LRUCache Bytes Response
  log : List Command := []
  lastApplied : Nat := 0
  commitIndex : Nat := 0
  room : Nat
  currentTerm : Nat := 0
  currentLeader : Option Address := none
  clusterNodes : List Address := []
  writable : Bool := true

/-- `Address::to_string`; no address is the null address. -/
def addressText : Option Address → Bytes
  | some a => a.host ++ 58 :: decimal a.port
  | none => 58 :: decimal 0

namespace LeaderNode

variable {σ : Type} (execute : Bytes → σ → Response × σ) (n : LeaderNode σ)

section Pieces

/-- `result_cache_.get`. -/
def lookup (id : Bytes) : Option Response × LeaderNode σ :=
  ((n.resultCache.get id).1, { n with resultCache := (n.resultCache.get id).2 })

/-- `append`, and `batch_append`. -/
def append (entries : List Command) : Option (LeaderNode σ) :=
  if entries.length ≤ n.room then
    some { n with log := n.log ++ entries, room := n.room - entries.length }
  else none

/-- The leader forgets the one before it. -/
def clearLeader : LeaderNode σ := { n with currentLeader := none }

/-- An entry of the loop of `commit_entries`, on the storage and the cache. -/
def applyEntry (applied : σ × LRUCache Bytes Response) (e : Command) :
    σ × LRUCache Bytes Response :=
  let (response, storage) := execute e.cmd applied.1
  (storage, if e.requestId = [] then applied.2 else applied.2.put e.requestId response)

/-- `commit_entries`. -/
def commitEntries : LeaderNode σ :=
  if n.log.length ≤ n.commitIndex then n
  else
    let applied := (n.log.drop n.lastApplied).foldl (applyEntry execute) (n.storage, n.resultCache)
    { n with
      storage := applied.1
      resultCache := applied.2
      lastApplied := n.log.length
      commitIndex := n.log.length }

/-- The nodes of `list_nodes`. -/
def nodesText : Bytes :=
  let separated (text : Bytes) : Bytes := if text = [] then [] else text ++ [44]
  let nodes := (n.clusterNodes.filter fun a => a ≠ ⟨[], 0⟩).foldl
    (fun text a => separated text ++ addressText (some a)) []
  separated nodes ++ ascii "current_node"

/-- The fields of `get_status`. -/
def statusText : Bytes :=
  ascii "role=2" ++ ascii ",term=" ++ decimal n.currentTerm ++
    ascii ",leader=" ++ addressText n.currentLeader ++
    ascii ",nodes=" ++ decimal (n.clusterNodes.length + 1) ++
    ascii ",commit=" ++ decimal n.commitIndex ++
    ascii ",applied=" ++ decimal n.lastApplied ++
    ascii ",writable=" ++ decimal n.writable.toNat

/-- `handle_raft_command` on a leader. No result stands for the two commands that change the
cluster. -/
def handleRaftCommand : RaftOperation → List Bytes → Option Response
  | .getMaster, [] => some (.error "no leader elected")
  | .setMaster, [_, _] => none
  | .removeNode, [_, _] => none
  | .listNodes, [] => some (.success (.string n.nodesText))
  | .getStatus, [] => some (.success (.string n.statusText))
  | _, _ => some (.error "invalid command")

end Pieces

section Single

/-- The end of `submit_command` for a write. -/
def submitWrite (c : Command) : Option (Response × LeaderNode σ) :=
  (n.append [c]).map fun n =>
    match (n.clearLeader.commitEntries execute).lookup c.requestId with
    | (some response, n) => (response, n)
    | (none, n) => (.error "execute failed", n)

/-- `submit_command`, with no response when it throws. -/
def submitCommand (c : Command) : Option (Option Response × LeaderNode σ) :=
  if c.requestId = [] then some (some (.error "request_id cannot be empty"), n)
  else
    match n.lookup c.requestId with
    | (some response, n) => some (some response, n)
    | (none, n) =>
        match parseView c.cmd with
        | .invalid => some (some (.error "invalid command"), n)
        | .unknown => some (none, n)
        | .known (.raft op) args =>
            (n.handleRaftCommand op args).map fun response => (some response, n)
        | .known .read _ =>
            some (some (execute c.cmd n.storage).1,
              { n with storage := (execute c.cmd n.storage).2 })
        | .known .write _ => (n.submitWrite execute c).map fun p => (some p.1, p.2)

/-- `submit_command` on the commands one after the other. -/
def submitEach : LeaderNode σ → List Command → Option (List (Option Response) × LeaderNode σ)
  | n, [] => some ([], n)
  | n, c :: rest =>
      (n.submitCommand execute c).bind fun p =>
        (submitEach p.2 rest).map fun q => (p.1 :: q.1, q.2)

end Single

end LeaderNode

/-- `run_batch`: the node, `current_cmds`, `is_read` and `responses`. -/
structure BatchRun (σ : Type) where
  node : LeaderNode σ
  currentCmds : List Command := []
  isRead : Bool := false
  responses : Bytes → Response := fun _ => .error "timeout"

namespace BatchRun

variable {σ : Type} (execute : Bytes → σ → Response × σ) (r : BatchRun σ)

/-- `responses[id] = response`. -/
def answer (id : Bytes) (response : Response) : BatchRun σ :=
  { r with responses := Function.update r.responses id response }

/-- A command of `execute_batch_read_command`. -/
def readItem (c : Command) : BatchRun σ :=
  { r with node := { r.node with storage := (execute c.cmd r.node.storage).2 } }.answer c.requestId
    (execute c.cmd r.node.storage).1

/-- A lookup at the end of `execute_batch_write_command`. -/
def harvestItem (c : Command) : BatchRun σ :=
  match r.node.lookup c.requestId with
  | (some response, n) => { r with node := n }.answer c.requestId response
  | (none, n) => { r with node := n }.answer c.requestId (.error "execute failed")

/-- `execute_batch_read_command`. -/
def executeBatchReadCommand (cmds : List Command) : BatchRun σ := cmds.foldl (readItem execute) r

/-- `execute_batch_write_command`. -/
def executeBatchWriteCommand (cmds : List Command) : Option (BatchRun σ) :=
  if cmds = [] then some r
  else
    (r.node.clearLeader.append cmds).map fun n =>
      cmds.foldl harvestItem { r with node := n.commitEntries execute }

/-- The group is executed. -/
def flush : Option (BatchRun σ) :=
  (if r.isRead then some (r.executeBatchReadCommand execute r.currentCmds)
    else r.executeBatchWriteCommand execute r.currentCmds).map
      fun r => { r with currentCmds := [] }

/-- A command of `run_batch`. -/
def item (c : Command) : Option (BatchRun σ) :=
  if c.cmd = [] then some (r.answer c.requestId (.error "command cannot be empty"))
  else if c.requestId = [] then
    some (r.answer c.requestId (.error "request_id cannot be empty"))
  else
    match r.node.lookup c.requestId with
    | (some response, n) => some ({ r with node := n }.answer c.requestId response)
    | (none, n) =>
        let r := { r with node := n }
        match parseString c.cmd with
        | .invalid => some (r.answer c.requestId (.error "invalid command"))
        | .unknown => none
        | .known .read _ =>
            if r.isRead then some { r with currentCmds := r.currentCmds ++ [c] }
            else if r.currentCmds = [] then some { r with currentCmds := [c], isRead := true }
            else (r.flush execute).map fun r => { r with currentCmds := [c], isRead := true }
        | .known (.raft op) args =>
            (if r.currentCmds = [] then some r else r.flush execute).bind fun r =>
              (r.node.handleRaftCommand op args).map fun response => r.answer c.requestId response
        | .known .write _ =>
            if !r.isRead then some { r with currentCmds := r.currentCmds ++ [c] }
            else if r.currentCmds = [] then some { r with currentCmds := [c], isRead := false }
            else (r.flush execute).map fun r => { r with currentCmds := [c], isRead := false }

/-- `run_batch`. -/
def runBatch : BatchRun σ → List Command → Option (BatchRun σ)
  | r, [] => if r.currentCmds = [] then some r else r.flush execute
  | r, c :: rest => (r.item execute c).bind fun r => runBatch r rest

end BatchRun

/-- `submit_batch_command`. -/
def LeaderNode.submitBatchCommand {σ : Type} (execute : Bytes → σ → Response × σ)
    (n : LeaderNode σ) (commands : List Command) :
    Option (List (Bytes × Response) × LeaderNode σ) :=
  if commands = [] then some ([], n)
  else
    (BatchRun.runBatch execute { node := n } commands).map fun r =>
      (commands.map fun c => (c.requestId, r.responses c.requestId), r.node)

end EyaKV.Raft
