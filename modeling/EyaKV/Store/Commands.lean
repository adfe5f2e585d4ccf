import EyaKV.Store.Operations
import EyaKV.Store.Scan

/-!
# The commands of the log

A log entry is the text of a write command. `executeCommand` splits it, looks up the
operation and hands the arguments to `Storage::execute`, which checks them itself for the
general commands and leaves the others to the processors. The checks do not look at the
store, so they are separate here: `request` is what they make of the arguments, and
`perform` carries it out.

Commands come in two forms, on strings and on views of strings. The processors are written
twice; the two texts differ in the payload of the pushes and in the parser of a pop's count.

Read commands and the commands of the cluster never get into the log and have no
`Request`. What the processors can ask for is listed once (`issued_request`). Every
operation that a request calls is coherent on the versions on which its callback does not
throw (`steady_request`), but for one case of HSET.
-/

set_option autoImplicit false

namespace EyaKV.Store

section Responses

/-- `ReturnCode`. -/
inductive ReturnCode where
  | error
  | success
  | redirect
  deriving DecidableEq, Repr

/-- `ResponseData`. -/
inductive ResponseData where
  | monostate
  | string (s : Bytes)
  | strings (l : List Bytes)
  | entries (l : List (Bytes × EyaValue))
  | value (v : EyaValue)
  deriving DecidableEq

/-- `Response`; the request id is set by the caller. -/
structure Response where
  code : ReturnCode
  data : ResponseData
  errorMsg : String
  deriving DecidableEq

namespace Response

/-- `Response::success`. -/
def success (data : ResponseData) : Response := ⟨.success, data, ""⟩

/-- `Response::success` of a number. -/
def count (n : Nat) : Response := success (.string (decimal n))

/-- `Response::error`. -/
def error (errorMsg : String) : Response := ⟨.error, .monostate, errorMsg⟩

end Response

end Responses

section Parsing

/-- The write commands: those that the write-ahead log records, and `range`, which
`write_types` lists too. -/
inductive WriteCommand where
  | logged (type : OperationType)
  | range
  deriving DecidableEq

/-- The write commands of `operationTypeMap`. -/
def operationTypeMap : List (String × WriteCommand) :=
  [("remove", .logged .remove), ("range", .range), ("expire", .logged .expire),
    ("set", .logged .set), ("sadd", .logged .sAdd), ("srem", .logged .sRem),
    ("zadd", .logged .zAdd), ("zrem", .logged .zRem), ("zincr_by", .logged .zIncrBy),
    ("zrem_by_rank", .logged .zRemByRank), ("zrem_by_score", .logged .zRemByScore),
    ("lpush", .logged .lPush), ("lpop", .logged .lPop), ("rpush", .logged .rPush),
    ("rpop", .logged .rPop), ("lpopp_n", .logged .lPopN), ("rpopp_n", .logged .rPopN),
    ("hset", .logged .hSet), ("hdel", .logged .hDel)]

/-- `tolower` on a byte. -/
def toLower (c : UInt8) : UInt8 := if 65 ≤ c && c ≤ 90 then c + 32 else c

/-- `stringToOperationType`, for the write commands. -/
def stringToOperationType (cmd : Bytes) : Option WriteCommand :=
  (operationTypeMap.find? fun e => ascii e.1 == cmd.map toLower).map Prod.snd

/-- `split_by_spacer` on a `string_view`: the parts between spaces, without empty ones. -/
def splitBySpacer (str : Bytes) : List Bytes := (str.splitOn 32).filter fun part => !part.isEmpty

/-- The operation and the arguments of a log entry. -/
def parseCommand (cmd : Bytes) : Option (WriteCommand × List Bytes) :=
  match splitBySpacer cmd with
  | [] => none
  | name :: args => (stringToOperationType name).map fun type => (type, args)

/-- The arguments in pairs. -/
def pairs : List Bytes → List (Bytes × Bytes)
  | a :: b :: rest => (a, b) :: pairs rest
  | _ => []

end Parsing

section Requests

/-- What the checks of the arguments end with: a call of one operation, or an error
message. -/
inductive Request where
  | update (op : ValueOp Response) (key : Bytes)
  | set (key value : Bytes) (ttl : UInt64)
  | remove (keys : List Bytes)
  | expire (key : Bytes) (aliveTime : UInt64)
  | range (startKey endKey : Bytes)
  | reject (errorMsg : String)

/-- The expiry second that is stored for a time to live. -/
def expiryAt (now : Nat) (aliveTime : UInt64) : UInt64 :=
  if aliveTime = 0 then 0 else UInt64.ofNat now + aliveTime

/-- The call of an operation, with its result turned into a response. -/
def Request.call {ρ : Type} (op : ValueOp ρ) (answer : ρ → Response) (key : Bytes) : Request :=
  .update (op.map answer) key

/-- The answer to a single pop. -/
def popped : Option Bytes → Response
  | some v => .success (.string v)
  | none => .error "empty"

/-- `StringProcessor::execute`. -/
def StringProcessor.request (type : OperationType) (args : List Bytes) : Result Request :=
  match type with
  | .set =>
      match args with
      | key :: value :: ttl :: _ => (stoll ttl).map fun t => .set key value (UInt64.ofInt t)
      | [key, value] => .ok (.set key value 0)
      | _ => .ok (.reject "missing arguments")
  | _ => .ok (.reject "unsupported type")

/-- `SetProcessor::execute`. -/
def SetProcessor.request (type : OperationType) (args : List Bytes) : Result Request :=
  match args with
  | [] => .ok (.reject "missing key")
  | key :: members =>
      match type with
      | .sAdd =>
          if members = [] then .ok (.reject "missing member")
          else .ok (.call (sAdd members) Response.count key)
      | .sRem =>
          if members = [] then .ok (.reject "missing member")
          else .ok (.call (sRem members) Response.count key)
      | _ => .ok (.reject "unsupported type")

/-- `ZSetProcessor::execute`. -/
def ZSetProcessor.request (F : FloatOps) (type : OperationType) (args : List Bytes) :
    Result Request :=
  match args with
  | [] => .ok (.reject "missing key")
  | key :: rest =>
      match type with
      | .zAdd =>
          if rest.length < 2 || rest.length % 2 != 0 then
            .ok (.reject "wrong number of arguments for 'zadd' command")
          else .ok (.call (zAdd F (pairs rest)) Response.count key)
      | .zRem =>
          if rest = [] then .ok (.reject "missing member")
          else .ok (.call (zRem F rest) Response.count key)
      | .zIncrBy =>
          match rest with
          | increment :: member :: _ =>
              .ok (.call (zIncrBy F increment member) (fun s => .success (.string s)) key)
          | _ => .ok (.reject "missing increment or member")
      | .zRemByRank =>
          match rest with
          | start :: stop :: _ => do
              let s ← stoll start
              let e ← stoll stop
              return .call (zRemByRank F s e) Response.count key
          | _ => .ok (.reject "missing start or end")
      | .zRemByScore =>
          match rest with
          | min :: max :: _ => .ok (.call (zRemByScore F min max) Response.count key)
          | _ => .ok (.reject "missing min or max")
      | _ => .ok (.reject "unsupported type")

/-- `DequeProcessor::execute`. A pop with a count is the pop of several elements. -/
def DequeProcessor.request (type : OperationType) (args : List Bytes) : Result Request :=
  match args with
  | [] => .ok (.reject "missing key")
  | key :: rest =>
      match type with
      | .lPush =>
          if rest = [] then .ok (.reject "missing value")
          else .ok (.call (lPush rest) Response.count key)
      | .rPush =>
          if rest = [] then .ok (.reject "missing value")
          else .ok (.call (rPush rest) Response.count key)
      | .lPop =>
          match rest with
          | [] => .ok (.call lPop popped key)
          | n :: _ => (stoull n).map fun n =>
              .call (lPopN n.toNat) (fun l => .success (.strings l)) key
      | .rPop =>
          match rest with
          | [] => .ok (.call rPop popped key)
          | n :: _ => (stoull n).map fun n =>
              .call (rPopN n.toNat) (fun l => .success (.strings l)) key
      | .lPopN =>
          match rest with
          | [] => .ok (.reject "missing count")
          | n :: _ => (stoull n).map fun n =>
              .call (lPopN n.toNat) (fun l => .success (.strings l)) key
      | .rPopN =>
          match rest with
          | [] => .ok (.reject "missing count")
          | n :: _ => (stoull n).map fun n =>
              .call (rPopN n.toNat) (fun l => .success (.strings l)) key
      | _ => .ok (.reject "unsupported type")

/-- `HashProcessor::execute`. -/
def HashProcessor.request (type : OperationType) (args : List Bytes) : Result Request :=
  match args with
  | [] => .ok (.reject "missing key")
  | key :: rest =>
      match type with
      | .hSet =>
          if rest.length < 2 || rest.length % 2 != 0 then
            .ok (.reject "wrong number of arguments for 'hset' command")
          else .ok (.call (hSet (pairs rest)) Response.count key)
      | .hDel =>
          if rest = [] then .ok (.reject "missing field")
          else .ok (.call (hDel rest) Response.count key)
      | _ => .ok (.reject "unsupported type")

/-- The handler around a processor: any exception becomes an error with its text. -/
def caught : Result Request → Request
  | .ok request => request
  | .error e => .reject e.what

/-- The handlers of `Storage::execute`: only a `std::runtime_error` keeps its text. -/
def errorText (e : StdException) : String := if e.isRuntimeError then e.what else "unknown error"

/-- The checks of `Storage::execute`, with the processor registered for the type. -/
def request (F : FloatOps) : WriteCommand → List Bytes → Request
  | .range, args =>
      match args with
      | [startKey, endKey] => .range startKey endKey
      | _ :: _ :: _ :: _ => .reject "too many arguments"
      | _ => .reject "missing key"
  | .logged .remove, args => if args = [] then .reject "missing key" else .remove args
  | .logged .expire, args =>
      match args with
      | [key, aliveTime] =>
          match stoull aliveTime with
          | .ok t => .expire key t
          | .error e => .reject (errorText e)
      | _ :: _ :: _ :: _ => .reject "too many arguments"
      | _ => .reject "missing key"
  | .logged .set, args => caught (StringProcessor.request .set args)
  | .logged .sAdd, args => caught (SetProcessor.request .sAdd args)
  | .logged .sRem, args => caught (SetProcessor.request .sRem args)
  | .logged .zAdd, args => caught (ZSetProcessor.request F .zAdd args)
  | .logged .zRem, args => caught (ZSetProcessor.request F .zRem args)
  | .logged .zIncrBy, args => caught (ZSetProcessor.request F .zIncrBy args)
  | .logged .zRemByRank, args => caught (ZSetProcessor.request F .zRemByRank args)
  | .logged .zRemByScore, args => caught (ZSetProcessor.request F .zRemByScore args)
  | .logged .lPush, args => caught (DequeProcessor.request .lPush args)
  | .logged .lPop, args => caught (DequeProcessor.request .lPop args)
  | .logged .rPush, args => caught (DequeProcessor.request .rPush args)
  | .logged .rPop, args => caught (DequeProcessor.request .rPop args)
  | .logged .lPopN, args => caught (DequeProcessor.request .lPopN args)
  | .logged .rPopN, args => caught (DequeProcessor.request .rPopN args)
  | .logged .hSet, args => caught (HashProcessor.request .hSet args)
  | .logged .hDel, args => caught (HashProcessor.request .hDel args)

end Requests

section Forms

/-- The overload of a command: on `std::string`, or on `std::string_view`. -/
inductive Overload where
  | string
  | stringView
  deriving DecidableEq, Repr

/-- `DequeProcessor::l_push` on strings, whose payload has the count of the values. -/
def lPushString (values : List Bytes) : ValueOp Nat :=
  { lPush values with payload := serializeVector values }

/-- `DequeProcessor::r_push` on strings. -/
def rPushString (values : List Bytes) : ValueOp Nat :=
  { rPush values with payload := serializeVector values }

/-- `DequeProcessor::execute` on strings. -/
def DequeProcessor.requestString (type : OperationType) (args : List Bytes) : Result Request :=
  match args with
  | [] => .ok (.reject "missing key")
  | key :: rest =>
      match type with
      | .lPush =>
          if rest = [] then .ok (.reject "missing value")
          else .ok (.call (lPushString rest) Response.count key)
      | .rPush =>
          if rest = [] then .ok (.reject "missing value")
          else .ok (.call (rPushString rest) Response.count key)
      | .lPopN =>
          match rest with
          | [] => .ok (.reject "missing count")
          | n :: _ => (stoll n).map fun n =>
              .call (lPopN (UInt64.ofInt n).toNat) (fun l => .success (.strings l)) key
      | .rPopN =>
          match rest with
          | [] => .ok (.reject "missing count")
          | n :: _ => (stoll n).map fun n =>
              .call (rPopN (UInt64.ofInt n).toNat) (fun l => .success (.strings l)) key
      | _ => DequeProcessor.request type args

/-- The checks of `Storage::execute` in both forms. -/
def requestOf (F : FloatOps) (form : Overload) (type : WriteCommand) (args : List Bytes) :
    Request :=
  match form with
  | .stringView => request F type args
  | .string =>
      match type with
      | .logged .lPush => caught (DequeProcessor.requestString .lPush args)
      | .logged .rPush => caught (DequeProcessor.requestString .rPush args)
      | .logged .lPopN => caught (DequeProcessor.requestString .lPopN args)
      | .logged .rPopN => caught (DequeProcessor.requestString .rPopN args)
      | _ => request F type args

end Forms

section Calls

variable {F : FloatOps} {type : OperationType} {args : List Bytes} {q : Request}

/-- The requests that the processors make of the arguments of a command, besides error
messages. -/
inductive Calls (F : FloatOps) : OperationType → List Bytes → Request → Prop where
  | set (key value : Bytes) (ttl : UInt64) (rest : List Bytes) :
      Calls F .set (key :: value :: rest) (.set key value ttl)
  | sAdd (key : Bytes) (members : List Bytes) :
      Calls F .sAdd (key :: members) (.call (sAdd members) Response.count key)
  | sRem (key : Bytes) (members : List Bytes) :
      Calls F .sRem (key :: members) (.call (sRem members) Response.count key)
  | zAdd (key : Bytes) (rest : List Bytes) :
      Calls F .zAdd (key :: rest) (.call (zAdd F (pairs rest)) Response.count key)
  | zRem (key : Bytes) (members : List Bytes) :
      Calls F .zRem (key :: members) (.call (zRem F members) Response.count key)
  | zIncrBy (key increment member : Bytes) (rest : List Bytes) :
      Calls F .zIncrBy (key :: increment :: member :: rest)
        (.call (zIncrBy F increment member) (fun s => .success (.string s)) key)
  | zRemByRank (key start stop : Bytes) (rest : List Bytes) {s e : Int} :
      stoll start = .ok s → stoll stop = .ok e → Calls F .zRemByRank (key :: start :: stop :: rest)
        (.call (zRemByRank F s e) Response.count key)
  | zRemByScore (key min max : Bytes) (rest : List Bytes) :
      Calls F .zRemByScore (key :: min :: max :: rest)
        (.call (zRemByScore F min max) Response.count key)
  | lPush (key : Bytes) (values : List Bytes) :
      Calls F .lPush (key :: values) (.call (lPush values) Response.count key)
  | rPush (key : Bytes) (values : List Bytes) :
      Calls F .rPush (key :: values) (.call (rPush values) Response.count key)
  | lPop (key : Bytes) : Calls F .lPop [key] (.call lPop popped key)
  | rPop (key : Bytes) : Calls F .rPop [key] (.call rPop popped key)
  | lPopN (type : OperationType) (key n : Bytes) (rest : List Bytes) {c : UInt64} :
      type = .lPop ∨ type = .lPopN → stoull n = .ok c → Calls F type (key :: n :: rest)
        (.call (lPopN c.toNat) (fun l => .success (.strings l)) key)
  | rPopN (type : OperationType) (key n : Bytes) (rest : List Bytes) {c : UInt64} :
      type = .rPop ∨ type = .rPopN → stoull n = .ok c → Calls F type (key :: n :: rest)
        (.call (rPopN c.toNat) (fun l => .success (.strings l)) key)
  | hSet (key : Bytes) (rest : List Bytes) :
      Calls F .hSet (key :: rest) (.call (hSet (pairs rest)) Response.count key)
  | hDel (key : Bytes) (fields : List Bytes) :
      Calls F .hDel (key :: fields) (.call (hDel fields) Response.count key)
  | lPushString (key : Bytes) (values : List Bytes) :
      Calls F .lPush (key :: values) (.call (lPushString values) Response.count key)
  | rPushString (key : Bytes) (values : List Bytes) :
      Calls F .rPush (key :: values) (.call (rPushString values) Response.count key)
  | lPopNString (key n : Bytes) (rest : List Bytes) {c : Int} : stoll n = .ok c →
      Calls F .lPopN (key :: n :: rest)
        (.call (lPopN (UInt64.ofInt c).toNat) (fun l => .success (.strings l)) key)
  | rPopNString (key n : Bytes) (rest : List Bytes) {c : Int} : stoll n = .ok c →
      Calls F .rPopN (key :: n :: rest)
        (.call (rPopN (UInt64.ofInt c).toNat) (fun l => .success (.strings l)) key)

/-- A request is an error message or one of the calls. -/
def Issued (F : FloatOps) (type : OperationType) (args : List Bytes) (q : Request) : Prop :=
  (∃ errorMsg, q = .reject errorMsg) ∨ Calls F type args q

theorem issued_reject {errorMsg : String}
    (h : (Except.ok (.reject errorMsg) : Result Request) = .ok q) : Issued F type args q := by
  cases h
  exact Or.inl ⟨errorMsg, rfl⟩

theorem issued_call {q' : Request} (hcall : Calls F type args q')
    (h : (Except.ok q' : Result Request) = .ok q) : Issued F type args q := by
  cases h
  exact Or.inr hcall

/-- A request that needs a number from the arguments. -/
theorem issued_map {β : Type} {parsed : Result β} {f : β → Request}
    (hcall : ∀ b, parsed = .ok b → Calls F type args (f b)) (h : parsed.map f = .ok q) :
    Issued F type args q := by
  cases hparsed : parsed with
  | error e =>
      rw [hparsed] at h
      cases h
  | ok b =>
      rw [hparsed] at h
      exact issued_call (hcall b hparsed) h

theorem issued_caught {result : Result Request} (h : ∀ q, result = .ok q → Issued F type args q) :
    Issued F type args (caught result) := by
  cases result with
  | ok q => exact h q rfl
  | error e => exact Or.inl ⟨e.what, rfl⟩

theorem StringProcessor.issued (h : StringProcessor.request type args = .ok q) :
    Issued F type args q := by
  cases type with
  | set =>
      match args, h with
      | [], h => exact issued_reject h
      | [_], h => exact issued_reject h
      | [key, value], h => exact issued_call (.set key value 0 []) h
      | key :: value :: ttl :: rest, h =>
          exact issued_map (fun t _ => .set key value (UInt64.ofInt t) (ttl :: rest)) h
  | _ => exact issued_reject h

theorem SetProcessor.issued (h : SetProcessor.request type args = .ok q) :
    Issued F type args q := by
  cases args with
  | nil => exact issued_reject h
  | cons key members =>
      cases type with
      | sAdd =>
          simp only [SetProcessor.request] at h
          split at h
          · exact issued_reject h
          · exact issued_call (.sAdd key members) h
      | sRem =>
          simp only [SetProcessor.request] at h
          split at h
          · exact issued_reject h
          · exact issued_call (.sRem key members) h
      | _ => exact issued_reject h

theorem ZSetProcessor.issued (h : ZSetProcessor.request F type args = .ok q) :
    Issued F type args q := by
  cases args with
  | nil => exact issued_reject h
  | cons key rest =>
      cases type with
      | zAdd =>
          simp only [ZSetProcessor.request] at h
          split at h
          · exact issued_reject h
          · exact issued_call (.zAdd key rest) h
      | zRem =>
          simp only [ZSetProcessor.request] at h
          split at h
          · exact issued_reject h
          · exact issued_call (.zRem key rest) h
      | zIncrBy =>
          match rest, h with
          | [], h => exact issued_reject h
          | [_], h => exact issued_reject h
          | increment :: member :: rest, h =>
              exact issued_call (.zIncrBy key increment member rest) h
      | zRemByRank =>
          match rest, h with
          | [], h => exact issued_reject h
          | [_], h => exact issued_reject h
          | start :: stop :: rest, h =>
              simp only [ZSetProcessor.request] at h
              cases hs : stoll start with
              | error e =>
                  rw [hs] at h
                  cases h
              | ok s =>
                  rw [hs] at h
                  exact issued_map (fun e he => .zRemByRank key start stop rest hs he) h
      | zRemByScore =>
          match rest, h with
          | [], h => exact issued_reject h
          | [_], h => exact issued_reject h
          | min :: max :: rest, h => exact issued_call (.zRemByScore key min max rest) h
      | _ => exact issued_reject h

theorem DequeProcessor.issued (h : DequeProcessor.request type args = .ok q) :
    Issued F type args q := by
  cases args with
  | nil => exact issued_reject h
  | cons key rest =>
      cases type with
      | lPush =>
          simp only [DequeProcessor.request] at h
          split at h
          · exact issued_reject h
          · exact issued_call (.lPush key rest) h
      | rPush =>
          simp only [DequeProcessor.request] at h
          split at h
          · exact issued_reject h
          · exact issued_call (.rPush key rest) h
      | lPop =>
          cases rest with
          | nil => exact issued_call (.lPop key) h
          | cons n rest => exact issued_map (fun c hc => .lPopN .lPop key n rest (Or.inl rfl) hc) h
      | rPop =>
          cases rest with
          | nil => exact issued_call (.rPop key) h
          | cons n rest => exact issued_map (fun c hc => .rPopN .rPop key n rest (Or.inl rfl) hc) h
      | lPopN =>
          cases rest with
          | nil => exact issued_reject h
          | cons n rest => exact issued_map (fun c hc => .lPopN .lPopN key n rest (Or.inr rfl) hc) h
      | rPopN =>
          cases rest with
          | nil => exact issued_reject h
          | cons n rest => exact issued_map (fun c hc => .rPopN .rPopN key n rest (Or.inr rfl) hc) h
      | _ => exact issued_reject h

theorem DequeProcessor.issued_string (h : DequeProcessor.requestString type args = .ok q) :
    Issued F type args q := by
  cases args with
  | nil => exact issued_reject h
  | cons key rest =>
      cases type with
      | lPush =>
          simp only [DequeProcessor.requestString] at h
          split at h
          · exact issued_reject h
          · exact issued_call (.lPushString key rest) h
      | rPush =>
          simp only [DequeProcessor.requestString] at h
          split at h
          · exact issued_reject h
          · exact issued_call (.rPushString key rest) h
      | lPopN =>
          cases rest with
          | nil => exact issued_reject h
          | cons n rest => exact issued_map (fun c hc => .lPopNString key n rest hc) h
      | rPopN =>
          cases rest with
          | nil => exact issued_reject h
          | cons n rest => exact issued_map (fun c hc => .rPopNString key n rest hc) h
      | _ => exact DequeProcessor.issued h

theorem HashProcessor.issued (h : HashProcessor.request type args = .ok q) :
    Issued F type args q := by
  cases args with
  | nil => exact issued_reject h
  | cons key rest =>
      cases type with
      | hSet =>
          simp only [HashProcessor.request] at h
          split at h
          · exact issued_reject h
          · exact issued_call (.hSet key rest) h
      | hDel =>
          simp only [HashProcessor.request] at h
          split at h
          · exact issued_reject h
          · exact issued_call (.hDel key rest) h
      | _ => exact issued_reject h

/-- Every command that a processor carries out makes an error message or one of the calls. -/
theorem issued_request (F : FloatOps) (args : List Bytes) (hremove : type ≠ .remove)
    (hexpire : type ≠ .expire) : Issued F type args (request F (.logged type) args) := by
  cases type with
  | remove => exact absurd rfl hremove
  | expire => exact absurd rfl hexpire
  | set => exact issued_caught fun q => StringProcessor.issued
  | sAdd => exact issued_caught fun q => SetProcessor.issued
  | sRem => exact issued_caught fun q => SetProcessor.issued
  | zAdd => exact issued_caught fun q => ZSetProcessor.issued
  | zRem => exact issued_caught fun q => ZSetProcessor.issued
  | zIncrBy => exact issued_caught fun q => ZSetProcessor.issued
  | zRemByRank => exact issued_caught fun q => ZSetProcessor.issued
  | zRemByScore => exact issued_caught fun q => ZSetProcessor.issued
  | lPush => exact issued_caught fun q => DequeProcessor.issued
  | lPop => exact issued_caught fun q => DequeProcessor.issued
  | rPush => exact issued_caught fun q => DequeProcessor.issued
  | rPop => exact issued_caught fun q => DequeProcessor.issued
  | lPopN => exact issued_caught fun q => DequeProcessor.issued
  | rPopN => exact issued_caught fun q => DequeProcessor.issued
  | hSet => exact issued_caught fun q => HashProcessor.issued
  | hDel => exact issued_caught fun q => HashProcessor.issued

/-- The same for both forms of a command. -/
theorem issued_requestOf (F : FloatOps) (form : Overload) (args : List Bytes)
    (hremove : type ≠ .remove) (hexpire : type ≠ .expire) :
    Issued F type args (requestOf F form (.logged type) args) := by
  cases form with
  | stringView => exact issued_request F args hremove hexpire
  | string =>
      cases type with
      | lPush => exact issued_caught fun q => DequeProcessor.issued_string
      | rPush => exact issued_caught fun q => DequeProcessor.issued_string
      | lPopN => exact issued_caught fun q => DequeProcessor.issued_string
      | rPopN => exact issued_caught fun q => DequeProcessor.issued_string
      | _ => exact issued_request F args hremove hexpire

end Calls

section Steadiness

variable {now : Nat} {v : EValue}

/-- An operation that the request calls is coherent on the version when its callback
does not throw on it, and a removal has a key. -/
def Request.Steady (now : Nat) (v : EValue) : Request → Prop
  | .update op _ => op.Accepts now v → op.Coherent now v
  | .set _ _ _ => True
  | .remove keys => keys ≠ []
  | .expire _ _ => True
  | .range _ _ => True
  | .reject _ => True

theorem Request.steady_call {ρ : Type} {op : ValueOp ρ} {answer : ρ → Response} {key : Bytes}
    (h : op.Accepts now v → op.Coherent now v) : (Request.call op answer key).Steady now v :=
  fun haccepts => (h (haccepts.of_map answer)).map answer

/-- A removal by rank that is not written back has removed nothing. -/
theorem coherent_zRemByRank {F : FloatOps} {start stop : Int}
    (h : (zRemByRank F start stop).Accepts now v) : (zRemByRank F start stop).Coherent now v := by
  refine coherent_remover (fun z hskip => ?_) h
  rw [if_pos (Int.not_le.1 (of_decide_eq_false hskip))]

/-- A pop from an empty list that is not written back has removed nothing. -/
theorem coherent_lPop (h : lPop.Accepts now v) : lPop.Coherent now v := by
  refine coherent_remover (fun dq hskip => ?_) h
  cases dq with
  | nil => rfl
  | cons a dq => cases hskip

theorem coherent_rPop (h : rPop.Accepts now v) : rPop.Coherent now v := by
  refine coherent_remover (fun dq hskip => ?_) h
  cases dq with
  | nil => rfl
  | cons a dq => cases hskip

/-- The fields of an HSET, whose arguments are `args`, come once each. -/
def FieldsDistinct (args : List Bytes) : Prop := ((pairs args.tail).map Prod.fst).Nodup

theorem Calls.steady {F : FloatOps} {type : OperationType} {args : List Bytes} {q : Request}
    (h : Calls F type args q)
    (hdistinct : type = .hSet → v.isLive now = false → FieldsDistinct args) : q.Steady now v := by
  cases h with
  | set => trivial
  | sAdd => exact Request.steady_call coherent_adder
  | sRem => exact Request.steady_call (coherent_remover fun _ hfalse => by cases hfalse)
  | zAdd => exact Request.steady_call coherent_adder
  | zRem => exact Request.steady_call (coherent_remover fun _ hfalse => by cases hfalse)
  | zIncrBy => exact Request.steady_call coherent_zIncrBy
  | zRemByRank => exact Request.steady_call coherent_zRemByRank
  | zRemByScore => exact Request.steady_call coherent_zRemByScore
  | lPush => exact Request.steady_call coherent_adder
  | rPush => exact Request.steady_call coherent_adder
  | lPop => exact Request.steady_call coherent_lPop
  | rPop => exact Request.steady_call coherent_rPop
  | lPopN => exact Request.steady_call (coherent_remover fun _ hfalse => by cases hfalse)
  | rPopN => exact Request.steady_call (coherent_remover fun _ hfalse => by cases hfalse)
  | hSet => exact Request.steady_call (coherent_hSet (hdistinct rfl))
  | hDel => exact Request.steady_call (coherent_remover fun _ hfalse => by cases hfalse)
  | lPushString => exact Request.steady_call (coherent_adder (c := lists))
  | rPushString => exact Request.steady_call (coherent_adder (c := lists))
  | lPopNString => exact Request.steady_call (coherent_remover fun _ hfalse => by cases hfalse)
  | rPopNString => exact Request.steady_call (coherent_remover fun _ hfalse => by cases hfalse)

/-- Every command is coherent where its callback does not throw, but for an HSET with a
field that comes twice on a dead entry. -/
theorem steady_request (F : FloatOps) (type : WriteCommand) (args : List Bytes)
    (hdistinct : type = .logged .hSet → v.isLive now = false → FieldsDistinct args) :
    (request F type args).Steady now v := by
  have hissued : ∀ type' : OperationType, type = .logged type' →
      Issued F type' args (request F type args) → (request F type args).Steady now v := by
    rintro type' rfl (⟨errorMsg, h⟩ | h)
    · rw [h]
      trivial
    · refine h.steady fun htype => ?_
      rw [htype] at hdistinct
      exact hdistinct rfl
  cases type with
  | range =>
      simp only [request]
      split <;> trivial
  | logged type =>
      by_cases hremove : type = .remove
      · rw [hremove]
        simp only [request]
        split
        · trivial
        · next hkeys => exact hkeys
      · by_cases hexpire : type = .expire
        · rw [hexpire]
          simp only [request]
          split
          · split <;> trivial
          · trivial
          · trivial
        · exact hissued type rfl (issued_request F args hremove hexpire)

end Steadiness

namespace Storage

variable (cfg : StorageConfig) (env : Env)

/-- The calls that `Storage::execute` and the processors make, with the handlers around
them. -/
def perform (st : Storage) : Request → Storage × Response
  | .update op key =>
      match process cfg env false op key st with
      | (st', .ok response) => (st', response)
      | (st', .error e) => (st', .error e.what)
  | .set key value ttl =>
      match set cfg env key value ttl st with
      | (st', .ok written) => (st', .success (.string (if written then [49] else [48])))
      | (st', .error e) => (st', .error e.what)
  | .remove keys =>
      match remove cfg st keys with
      | (st', .ok n) => (st', .count n)
      | (st', .error e) => (st', .error (errorText e))
  | .expire key aliveTime =>
      match setExpire cfg env st key aliveTime with
      | (st', .ok _) => (st', .success (.string [49]))
      | (st', .error e) => (st', .error (errorText e))
  | .range startKey endKey => (st, .success (.entries (range env.now st startKey endKey)))
  | .reject errorMsg => (st, .error errorMsg)

/-- `Storage::execute` on a write command, while the store is open; `readOnly` is
`read_only_`. -/
def execute (F : FloatOps) (readOnly : Bool) (type : WriteCommand) (args : List Bytes)
    (st : Storage) : Storage × Response :=
  if readOnly then (st, .error "read only") else perform cfg env st (request F type args)

/-- `RaftNode::execute_command` on a log entry. No result means that the text is no write
command, which `submit_command` does not log. -/
def executeCommand (F : FloatOps) (readOnly : Bool) (cmd : Bytes) (st : Storage) :
    Option (Storage × Response) :=
  (parseCommand cmd).map fun c => execute cfg env F readOnly c.1 c.2 st

/-- Floating-point operations for runs that touch no sorted set. -/
def noFloats : FloatOps :=
  ⟨fun _ => .error (.invalidArgument "stod"), fun _ => [], fun a _ => a, fun a b => a == b,
    fun a b => a < b, 0⟩

end Storage

end EyaKV.Store
