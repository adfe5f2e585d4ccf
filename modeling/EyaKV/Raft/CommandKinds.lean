import EyaKV.Store.Commands

/-!
# Kinds of commands

`operation_type.h` has one table of names, and the sets of the reads, of the writes and of the
commands about the cluster. `submit_command` and `submit_batch_command` look up the first part
of a command, which they separate with two overloads of `split_by_spacer`.
-/

set_option autoImplicit false

namespace EyaKV.Raft

open EyaKV.Store

section Kinds

/-- `raft_types`. -/
inductive RaftOperation where
  | getMaster | setMaster | removeNode | listNodes | getStatus
  deriving DecidableEq

/-- The set that has the type of a command. -/
inductive CommandKind where
  | read
  | write
  | raft (op : RaftOperation)
  deriving DecidableEq

/-- The names of `read_types`. -/
def readNames : List String :=
  ["keys", "exists", "get", "smembers", "zscore", "zrank", "zcard", "zrange_by_rank",
    "zrange_by_score", "lrange", "lget", "lsize", "hget", "hkeys", "hvalues", "hentries"]

/-- The names of `raft_types`. -/
def raftNames : List (String × RaftOperation) :=
  [("get_master", .getMaster), ("set_master", .setMaster), ("remove_node", .removeNode),
    ("list_nodes", .listNodes), ("get_status", .getStatus)]

/-- `operationTypeMap`, with the kinds for the types. -/
def operationKinds : List (String × CommandKind) :=
  readNames.map (fun name => (name, .read)) ++
    operationTypeMap.map (fun e => (e.1, .write)) ++
    raftNames.map fun e => (e.1, .raft e.2)

/-- The kind of `stringToOperationType`, which throws when the table lacks the name. -/
def operationKind (name : Bytes) : Option CommandKind :=
  (operationKinds.find? fun e => ascii e.1 == name.map toLower).map Prod.snd

end Kinds

section Parts

/-- What the first part of a command says. -/
inductive Parsed where
  /-- There is no part. -/
  | invalid
  /-- `stringToOperationType` throws. -/
  | unknown
  | known (kind : CommandKind) (args : List Bytes)
  deriving DecidableEq

/-- The command is one that goes through the log. -/
def Parsed.isWrite : Parsed → Bool
  | .known .write _ => true
  | _ => false

/-- The lookup of the first part. -/
def parseParts : List Bytes → Parsed
  | [] => .invalid
  | name :: args =>
      match operationKind name with
      | none => .unknown
      | some kind => .known kind args

/-- `split_by_spacer` on a `string`: the last part is always there, also when it is empty. -/
def splitBySpacerString (str : Bytes) : List Bytes :=
  ((str.splitOn 32).dropLast.filter fun part => !part.isEmpty) ++ [(str.splitOn 32).getLastD []]

/-- The command as `submit_command` sees it. -/
def parseView (cmd : Bytes) : Parsed := parseParts (splitBySpacer cmd)

/-- The command as `submit_batch_command` sees it. -/
def parseString (cmd : Bytes) : Parsed := parseParts (splitBySpacerString cmd)

end Parts

end EyaKV.Raft
