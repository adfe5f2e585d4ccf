import EyaKV.Base.Locks

/-!
# The locks of a node

Each function of the node is the list of its commands on four locks: `mutex_`, which is
recursive, `follower_sockets_mutex_`, `pending_requests_mutex_` and
`uninitialized_sockets_mutex_`. The data that the threads share is the set
`follower_sockets_`; what else a function decides on is a choice in its arguments. A send
takes none of the locks: the session of a follower is not one that is closed when all is
sent.

The mutexes of the condition variables are left out: the election and heartbeat threads hold them
while they call `become_candidate` and `send_heartbeat_to_all`, and `to_leader` and `to_follower`
take them under `mutex_`. A thread that requests a `std::shared_mutex` that it holds waits here
for itself; libstdc++ reports that by an exception instead.

`Shape` says what a thread can have left to do under the locks it holds. It leaves two ways
to go wrong, both in `become_follower`, which holds `mutex_` when it takes
`follower_sockets_mutex_` (`reachable_locks`).
-/

set_option autoImplicit false

namespace EyaKV.Raft.Locking

open EyaKV.Base.Locks

section Functions

/-- The locks. -/
inductive Lock where
  | mutex
  | followerSockets
  | pendingRequests
  | uninitializedSockets
  deriving DecidableEq, Repr

/-- `mutex_` is a recursive mutex. -/
def isRecursive : Lock → Bool
  | .mutex => true
  | _ => false

/-- A socket. -/
abbrev Socket := Nat

/-- `follower_sockets_`, in the order in which it is gone through. -/
abbrev Followers := List Socket

abbrev Script := List (Cmd Lock Followers)

/-- A block that holds a lock. -/
def scope (l : Lock) (m : Mode) (body : Script) : Script := .acquire l m :: (body ++ [.release l m])

/-- A block that holds `mutex_`. -/
def withMutex (body : Script) : Script := scope .mutex .exclusive body

/-- `RaftNode::close_socket`. -/
def closeSocket (sock : Socket) : Script :=
  scope .followerSockets .exclusive [.update fun socks => socks.erase sock] ++
    (scope .uninitializedSockets .exclusive [] ++ withMutex [])

/-- `RaftNode::send_append_entries`. -/
def sendAppendEntries (_sock : Socket) : Script := withMutex []

/-- The loop that sends entries to the followers, in a block that holds the sockets' lock. -/
def sendToFollowers : Script :=
  scope .followerSockets .shared [.choose fun socks => socks.flatMap sendAppendEntries]

/-- `RaftNode::send_heartbeat_to_all`. -/
def sendHeartbeatToAll (hasNodes : Bool) : Script := if hasNodes then sendToFollowers else []

/-- `RaftNode::broadcast_to_followers`. -/
def broadcastToFollowers (isLeader : Bool) : Script :=
  if isLeader then scope .followerSockets .shared [] else []

/-- `RaftNode::to_follower`, `to_leader` and `reset_election_timeout`. -/
def toFollower : Script := withMutex []
def toLeader : Script := withMutex []
def resetElectionTimeout : Script := withMutex []

/-- `RaftNode::to_candidate`. -/
def toCandidate (isLeader : Bool) : Script := if isLeader then [] else withMutex []

/-- `RaftNode::become_leader`. -/
def becomeLeader : Script := withMutex toLeader

/-- `RaftNode::send_request_vote`. -/
def sendRequestVote : Script := withMutex []

/-- `RaftNode::become_candidate`. -/
def becomeCandidate (isLeader : Bool) : Script :=
  withMutex (toCandidate isLeader) ++ sendRequestVote

/-- What a response to a vote request leads to. -/
inductive Vote where
  | counted
  | steppedDown
  | won

/-- `RaftNode::handle_request_vote_response`. -/
def handleRequestVoteResponse : Vote → Script
  | .counted => withMutex []
  | .steppedDown => withMutex toFollower
  | .won => withMutex becomeLeader

/-- `RaftNode::notify_request_applied`. -/
def notifyRequestApplied : Script := scope .pendingRequests .exclusive []

/-- `RaftNode::apply_committed_entries_nolock`: a leader announces what it has applied. -/
def applyCommittedEntriesNolock : Nat → Script
  | 0 => []
  | notified + 1 => notifyRequestApplied ++ applyCommittedEntriesNolock notified

/-- `RaftNode::try_commit_entries`. -/
def tryCommitEntries (notified : Nat) : Script := withMutex (applyCommittedEntriesNolock notified)

/-- `RaftNode::commit_entries`. -/
def commitEntries : Script := withMutex []

/-- `RaftNode::send_snapshot_chunk`, with or without the checkpoint it starts with. -/
def sendSnapshotChunk (created : Bool) : Script :=
  withMutex [] ++ (if created then withMutex [] else [])

/-- `RaftNode::trigger_log_sync`: a snapshot or entries. -/
def triggerLogSync : Option Bool → Script
  | some created => withMutex (sendSnapshotChunk created)
  | none => withMutex []

/-- The part of `become_follower` that closes the sockets of the followers. -/
def closeFollowers : Script :=
  [.acquire .followerSockets .exclusive, .choose fun socks => socks.flatMap closeSocket,
    .update fun _ => [], .release .followerSockets .exclusive]

/-- What comes of the attempt to follow a leader: no connection or no valid answer, an answer
that is ignored, one that is accepted, one that makes the node a leader, or one that names
another leader. -/
inductive Attempt where
  | failed
  | ignored
  | joined
  | leads
  | redirected (next : Attempt)

/-- What `become_follower` does when the leader has answered, until it handles the answer. -/
def follow : Script := resetElectionTimeout ++ (toFollower ++ closeFollowers)

/-- `RaftNode::become_follower`, with `handle_leader_message`. -/
def becomeFollower : Attempt → Script
  | .failed => withMutex []
  | .ignored => withMutex follow
  | .joined => withMutex (follow ++ withMutex [])
  | .leads => withMutex (follow ++ becomeLeader)
  | .redirected next => withMutex (follow ++ becomeFollower next)

/-- `RaftNode::remove_node`, with the socket of the node if the node is found. -/
def removeNode (isLeader : Bool) : Option Socket → Script
  | none => []
  | some sock => broadcastToFollowers isLeader ++
      scope .followerSockets .exclusive [.update fun socks => socks.erase sock]

/-- The choices on the way of a write: whether a leader was known, the entries were
appended, a majority is needed, how many applied entries were announced, and whether the
wait timed out. -/
structure Write where
  leaderKnown : Bool
  appended : Bool
  majority : Bool
  notified : Nat
  timedOut : Bool

/-- The end of a write, from the registration of the request on. -/
def awaitCommit (w : Write) : Script :=
  if w.majority then
    scope .pendingRequests .exclusive [] ++ (sendToFollowers ++ (tryCommitEntries w.notified ++
      (if w.timedOut then scope .pendingRequests .exclusive [] else [])))
  else commitEntries

/-- The write path of `RaftNode::submit_command`. -/
def submitWrite (w : Write) : Script :=
  if w.appended then (if w.leaderKnown then withMutex [] else []) ++ awaitCommit w else []

/-- `RaftNode::execute_batch_write_command`. -/
def executeBatchWriteCommand (w : Write) : Script :=
  (if w.leaderKnown then withMutex [] else []) ++ (if w.appended then awaitCommit w else [])

/-- A client's command: it is answered at once (a read, a cached or invalid request, a
redirection), it is a command to the node, or a write. -/
inductive Command where
  | answered
  | setMaster (reset : Bool) (attempt : Attempt)
  | removeNode (isLeader : Bool) (sock : Option Socket)
  | write (w : Write)

/-- `RaftNode::handle_raft_command`; a write is none. -/
def handleRaftCommand : Command → Script
  | .setMaster reset attempt => (if reset then withMutex [] else []) ++ becomeFollower attempt
  | .removeNode isLeader sock => removeNode isLeader sock
  | .answered | .write _ => []

/-- `RaftNode::submit_command`. -/
def submitCommand : Command → Script
  | .write w => submitWrite w
  | command => handleRaftCommand command

/-- `RaftNode::submit_batch_command`, over the batches it is cut into. -/
def submitBatchCommand : List Command → Script
  | [] => []
  | .write w :: rest => executeBatchWriteCommand w ++ submitBatchCommand rest
  | command :: rest => handleRaftCommand command ++ submitBatchCommand rest

/-- A request to join: it is refused, and the socket is closed at once or later, or it is
accepted. -/
inductive Join where
  | refused (closes : Bool)
  | accepted (isLeader : Bool)

/-- `RaftNode::handle_join_cluster`. -/
def handleJoinCluster (sock : Socket) : Join → Script
  | .refused closes => if closes then closeSocket sock else []
  | .accepted isLeader => broadcastToFollowers isLeader ++ (withMutex [] ++ (withMutex [] ++
      scope .followerSockets .exclusive [.update fun socks => socks.insert sock]))

/-- `RaftNode::handle_request` for a request to join. -/
def handleRequest (sock : Socket) (join : Join) : Script :=
  scope .uninitializedSockets .exclusive [] ++ handleJoinCluster sock join

/-- What a thread of the node does in one round. -/
inductive Operation where
  | heartbeat (hasNodes : Bool)
  | election (isLeader : Bool)
  | vote (response : Vote)
  | submitCommand (command : Command)
  | submitBatchCommand (commands : List Command)
  | join (sock : Socket) (join : Join)
  | logSync (snapshot : Option Bool)
  | becomeFollower (attempt : Attempt)
  | closeSocket (sock : Socket)
  | removeNode (isLeader : Bool) (sock : Option Socket)

/-- The commands of a round. -/
def script : Operation → Script
  | .heartbeat hasNodes => sendHeartbeatToAll hasNodes
  | .election isLeader => becomeCandidate isLeader
  | .vote response => handleRequestVoteResponse response
  | .submitCommand command => submitCommand command
  | .submitBatchCommand commands => submitBatchCommand commands
  | .join sock join => handleRequest sock join
  | .logSync snapshot => triggerLogSync snapshot
  | .becomeFollower attempt => becomeFollower attempt
  | .closeSocket sock => closeSocket sock
  | .removeNode isLeader sock => removeNode isLeader sock

end Functions

section Shapes

/-- The locks that are held are `mutex_`, at least once. -/
def UnderMutex (held : List (Lock × Mode)) : Prop :=
  held ≠ [] ∧ ∀ x ∈ held, x = (.mutex, .exclusive)

/-- What a thread can have left to do under the locks it holds. A lock that is taken first
can be any; under `mutex_` come `mutex_` and `pending_requests_mutex_`. The other
constructors follow the two loops over `follower_sockets_`. -/
inductive Shape : List (Lock × Mode) → Script → Prop where
  | done : Shape [] []
  | first {l : Lock} {m : Mode} {rest : Script} (h : Shape [(l, m)] rest) :
      Shape [] (.acquire l m :: rest)
  | nested {held : List (Lock × Mode)} {l : Lock} {rest : Script} (hunder : UnderMutex held)
      (hl : l = .mutex ∨ l = .pendingRequests) (h : Shape ((l, .exclusive) :: held) rest) :
      Shape held (.acquire l .exclusive :: rest)
  | release {held : List (Lock × Mode)} {l : Lock} {m : Mode} {rest : Script}
      (h : Shape held rest) : Shape ((l, m) :: held) (.release l m :: rest)
  | update {held : List (Lock × Mode)} {f : Followers → Followers} {rest : Script}
      (h : Shape held rest) : Shape held (.update f :: rest)
  | sends {rest : Script} (h : Shape [] rest) :
      Shape [(.followerSockets, .shared)] (.choose (fun socks => socks.flatMap sendAppendEntries) ::
        .release .followerSockets .shared :: rest)
  | sending (sock : Socket) (socks : List Socket) {rest : Script} (h : Shape [] rest) :
      Shape [(.followerSockets, .shared)] ((sock :: socks).flatMap sendAppendEntries ++
        .release .followerSockets .shared :: rest)
  | sent (socks : List Socket) {rest : Script} (h : Shape [] rest) :
      Shape [(.mutex, .exclusive), (.followerSockets, .shared)]
        (.release .mutex .exclusive :: (socks.flatMap sendAppendEntries ++
          .release .followerSockets .shared :: rest))
  | closes {held : List (Lock × Mode)} {rest : Script} (hunder : UnderMutex held)
      (h : Shape held rest) : Shape held (closeFollowers ++ rest)
  | closed {held : List (Lock × Mode)} {rest : Script} (hunder : UnderMutex held)
      (h : Shape held rest) :
      Shape ((.followerSockets, .exclusive) :: held)
        (.choose (fun socks => socks.flatMap closeSocket) :: .update (fun _ => []) ::
          .release .followerSockets .exclusive :: rest)
  | closing (sock : Socket) (socks : List Socket) {held : List (Lock × Mode)} {rest : Script}
      (hunder : UnderMutex held) (h : Shape held rest) :
      Shape ((.followerSockets, .exclusive) :: held) ((sock :: socks).flatMap closeSocket ++
        .update (fun _ => []) :: .release .followerSockets .exclusive :: rest)

/-- A script that can run under no lock. -/
def Free (p : Script) : Prop := ∀ rest, Shape [] rest → Shape [] (p ++ rest)

/-- A script that can run under `mutex_`. -/
def Under (p : Script) : Prop :=
  ∀ held rest, UnderMutex held → Shape held rest → Shape held (p ++ rest)

variable {p q : Script}

theorem Free.nil : Free [] := fun _ h => h

theorem Free.append (hp : Free p) (hq : Free q) : Free (p ++ q) := by
  intro rest h
  rw [List.append_assoc]
  exact hp _ (hq rest h)

theorem Free.ite {c : Bool} (hp : Free p) (hq : Free q) : Free (if c then p else q) := by
  cases c with
  | true => exact hp
  | false => exact hq

theorem Under.nil : Under [] := fun _ _ _ h => h

theorem Under.append (hp : Under p) (hq : Under q) : Under (p ++ q) := by
  intro held rest hunder h
  rw [List.append_assoc]
  exact hp held _ hunder (hq held rest hunder h)

theorem Under.ite {c : Bool} (hp : Under p) (hq : Under q) : Under (if c then p else q) := by
  cases c with
  | true => exact hp
  | false => exact hq

theorem scope_append (l : Lock) (m : Mode) (body rest : Script) :
    scope l m body ++ rest = .acquire l m :: (body ++ .release l m :: rest) := by
  simp only [scope, List.cons_append, List.append_assoc, List.nil_append]

theorem UnderMutex.cons {held : List (Lock × Mode)} (h : UnderMutex held) :
    UnderMutex ((.mutex, .exclusive) :: held) := by
  refine ⟨List.cons_ne_nil _ _, ?_⟩
  intro x hx
  rcases List.mem_cons.1 hx with rfl | hx
  · rfl
  · exact h.2 x hx

theorem UnderMutex.mem {held : List (Lock × Mode)} (h : UnderMutex held) :
    (Lock.mutex, Mode.exclusive) ∈ held := by
  obtain ⟨x, hx⟩ := List.exists_mem_of_ne_nil _ h.1
  rwa [h.2 x hx] at hx

theorem underMutex_single : UnderMutex [(.mutex, .exclusive)] :=
  ⟨List.cons_ne_nil _ _, fun _ hx => List.mem_singleton.1 hx⟩

theorem Free.withMutex (hp : Under p) : Free (withMutex p) := by
  intro rest h
  rw [Locking.withMutex, scope_append]
  exact .first (hp _ _ underMutex_single (.release h))

theorem Under.withMutex (hp : Under p) : Under (withMutex p) := by
  intro held rest hunder h
  rw [Locking.withMutex, scope_append]
  exact .nested hunder (Or.inl rfl) (hp _ _ hunder.cons (.release h))

theorem Free.scope_nil (l : Lock) (m : Mode) : Free (scope l m []) := by
  intro rest h
  rw [scope_append]
  exact .first (.release h)

theorem Free.scope_update (l : Lock) (m : Mode) (f : Followers → Followers) :
    Free (scope l m [.update f]) := by
  intro rest h
  rw [scope_append]
  exact .first (.update (.release h))

theorem Under.notify : Under notifyRequestApplied := by
  intro held rest hunder h
  rw [notifyRequestApplied, scope_append]
  exact .nested hunder (Or.inr rfl) (.release h)

theorem Free.sendToFollowers : Free sendToFollowers := by
  intro rest h
  rw [Locking.sendToFollowers, scope_append]
  exact .first (.sends h)

theorem Under.closeFollowers : Under closeFollowers := fun _ _ hunder h => .closes hunder h

theorem Under.apply (notified : Nat) : Under (applyCommittedEntriesNolock notified) := by
  induction notified with
  | zero => exact .nil
  | succ n ih => exact Under.notify.append ih

theorem Free.closeSocket (sock : Socket) : Free (closeSocket sock) :=
  (Free.scope_update _ _ _).append ((Free.scope_nil _ _).append (Free.withMutex .nil))

theorem Free.broadcast (isLeader : Bool) : Free (broadcastToFollowers isLeader) :=
  Free.ite (Free.scope_nil _ _) .nil

theorem Under.follow : Under follow :=
  (Under.withMutex .nil).append ((Under.withMutex .nil).append Under.closeFollowers)

/-- An attempt to follow a leader can be made under `mutex_`, which a redirection does. -/
theorem Under.becomeFollower (attempt : Attempt) : Under (becomeFollower attempt) := by
  induction attempt with
  | failed => exact .withMutex .nil
  | ignored => exact .withMutex .follow
  | joined => exact .withMutex (Under.follow.append (.withMutex .nil))
  | leads => exact .withMutex (Under.follow.append (.withMutex (.withMutex .nil)))
  | redirected next ih => exact .withMutex (Under.follow.append ih)

theorem Free.becomeFollower (attempt : Attempt) : Free (becomeFollower attempt) := by
  cases attempt with
  | failed => exact .withMutex .nil
  | ignored => exact .withMutex .follow
  | joined => exact .withMutex (Under.follow.append (.withMutex .nil))
  | leads => exact .withMutex (Under.follow.append (.withMutex (.withMutex .nil)))
  | redirected next => exact .withMutex (Under.follow.append (Under.becomeFollower next))

theorem Free.removeNode (isLeader : Bool) (sock : Option Socket) :
    Free (removeNode isLeader sock) := by
  cases sock with
  | none => exact .nil
  | some sock => exact (Free.broadcast isLeader).append (Free.scope_update _ _ _)

theorem Free.awaitCommit (w : Write) : Free (awaitCommit w) := by
  apply Free.ite
  · refine (Free.scope_nil _ _).append (Free.sendToFollowers.append (Free.append ?_ ?_))
    · exact .withMutex (Under.apply w.notified)
    · exact Free.ite (Free.scope_nil _ _) .nil
  · exact .withMutex .nil

theorem Free.handleRaftCommand (command : Command) : Free (handleRaftCommand command) := by
  cases command with
  | answered => exact .nil
  | setMaster reset attempt =>
      exact (Free.ite (.withMutex .nil) .nil).append (Free.becomeFollower attempt)
  | removeNode isLeader sock => exact Free.removeNode isLeader sock
  | write w => exact .nil

theorem Free.submitBatchCommand (commands : List Command) : Free (submitBatchCommand commands) := by
  induction commands with
  | nil => exact .nil
  | cons command commands ih =>
      cases command with
      | write w =>
          have hwrite : Free (executeBatchWriteCommand w) :=
            (Free.ite (.withMutex .nil) .nil).append (Free.ite (Free.awaitCommit w) .nil)
          exact hwrite.append ih
      | answered => exact (Free.handleRaftCommand .answered).append ih
      | setMaster reset attempt =>
          exact (Free.handleRaftCommand (.setMaster reset attempt)).append ih
      | removeNode isLeader sock =>
          exact (Free.handleRaftCommand (.removeNode isLeader sock)).append ih

/-- Every round can begin. -/
theorem Free.script (operation : Operation) : Free (script operation) := by
  cases operation with
  | heartbeat hasNodes => exact Free.ite Free.sendToFollowers .nil
  | election isLeader =>
      exact (Free.withMutex (Under.ite .nil (.withMutex .nil))).append (.withMutex .nil)
  | vote response =>
      cases response with
      | counted => exact .withMutex .nil
      | steppedDown => exact .withMutex (.withMutex .nil)
      | won => exact .withMutex (.withMutex (.withMutex .nil))
  | submitCommand command =>
      cases command with
      | write w =>
          exact Free.ite ((Free.ite (.withMutex .nil) .nil).append (Free.awaitCommit w)) .nil
      | answered => exact Free.handleRaftCommand .answered
      | setMaster reset attempt => exact Free.handleRaftCommand (.setMaster reset attempt)
      | removeNode isLeader sock => exact Free.handleRaftCommand (.removeNode isLeader sock)
  | submitBatchCommand commands => exact Free.submitBatchCommand commands
  | join sock join =>
      apply (Free.scope_nil _ _).append
      cases join with
      | refused closes => exact Free.ite (Free.closeSocket sock) .nil
      | accepted isLeader =>
          exact (Free.broadcast isLeader).append ((Free.withMutex .nil).append
            ((Free.withMutex .nil).append (Free.scope_update _ _ _)))
  | logSync snapshot =>
      cases snapshot with
      | none => exact .withMutex .nil
      | some created =>
          exact .withMutex ((Under.withMutex .nil).append (Under.ite (.withMutex .nil) .nil))
  | becomeFollower attempt => exact Free.becomeFollower attempt
  | closeSocket sock => exact Free.closeSocket sock
  | removeNode isLeader sock => exact Free.removeNode isLeader sock

end Shapes

section Steps

variable {held : List (Lock × Mode)} {rest : Script} {l : Lock} {m : Mode}

theorem sendAppendEntries_append (sock : Socket) (socks : List Socket) (tail : Script) :
    (sock :: socks).flatMap sendAppendEntries ++ tail =
      .acquire .mutex .exclusive :: (.release .mutex .exclusive ::
        (socks.flatMap sendAppendEntries ++ tail)) := by
  simp only [List.flatMap_cons, sendAppendEntries, withMutex, scope, List.cons_append,
    List.nil_append]

/-- The loop over the followers begins with a lock that its thread already holds. -/
theorem closeSockets_append (sock : Socket) (socks : List Socket) (tail : Script) :
    ∃ rest, (sock :: socks).flatMap closeSocket ++ tail =
      .acquire .followerSockets .exclusive :: rest := by
  simp only [List.flatMap_cons, closeSocket, scope, List.cons_append]
  exact ⟨_, rfl⟩

theorem Shape.sendAll (socks : List Socket) (h : Shape [] rest) :
    Shape [(.followerSockets, .shared)]
      (socks.flatMap sendAppendEntries ++ .release .followerSockets .shared :: rest) := by
  cases socks with
  | nil => exact .release h
  | cons sock socks => exact .sending sock socks h

theorem Shape.closeAll (socks : List Socket) (hunder : UnderMutex held) (h : Shape held rest) :
    Shape ((.followerSockets, .exclusive) :: held) (socks.flatMap closeSocket ++
      .update (fun _ => []) :: .release .followerSockets .exclusive :: rest) := by
  cases socks with
  | nil => exact .update (.release h)
  | cons sock socks => exact .closing sock socks hunder h

/-- What a thread that requests a lock is about: one case for each place where a lock is
requested. -/
theorem Shape.requests (h : Shape held (.acquire l m :: rest)) :
    (held = [] ∧ Shape [(l, m)] rest) ∨
    (UnderMutex held ∧ (l = .mutex ∨ l = .pendingRequests) ∧ m = .exclusive ∧
      Shape ((l, .exclusive) :: held) rest) ∨
    (∃ sock socks tail, held = [(.followerSockets, .shared)] ∧ l = .mutex ∧ m = .exclusive ∧
      .acquire l m :: rest = (sock :: socks).flatMap sendAppendEntries ++
        .release .followerSockets .shared :: tail ∧ Shape [] tail) ∨
    (∃ tail, UnderMutex held ∧ l = .followerSockets ∧ m = .exclusive ∧
      .acquire l m :: rest = closeFollowers ++ tail ∧ Shape held tail) ∨
    (∃ sock socks below tail, held = (.followerSockets, .exclusive) :: below ∧ UnderMutex below ∧
      l = .followerSockets ∧ m = .exclusive ∧
      .acquire l m :: rest = (sock :: socks).flatMap closeSocket ++
        .update (fun _ => []) :: .release .followerSockets .exclusive :: tail) := by
  -- the cases of the shape that do not begin with a request are void
  generalize htodo : Cmd.acquire l m :: rest = todo at h
  cases h with
  | done => cases htodo
  | first h =>
      cases htodo
      exact Or.inl ⟨rfl, h⟩
  | nested hunder hl h =>
      cases htodo
      exact Or.inr (Or.inl ⟨hunder, hl, rfl, h⟩)
  | release h => cases htodo
  | update h => cases htodo
  | sends h => cases htodo
  | sending sock socks h =>
      have hhead := htodo.trans (sendAppendEntries_append sock socks _)
      cases hhead
      exact Or.inr (Or.inr (Or.inl ⟨sock, socks, _, rfl, rfl, rfl, htodo, h⟩))
  | sent socks h => cases htodo
  | closes hunder h =>
      have hhead := htodo
      cases hhead
      exact Or.inr (Or.inr (Or.inr (Or.inl ⟨_, hunder, rfl, rfl, htodo, h⟩)))
  | closed hunder h => cases htodo
  | closing sock socks hunder h =>
      obtain ⟨tail, htail⟩ := closeSockets_append sock socks
        (.update (fun _ => []) :: .release .followerSockets .exclusive :: _)
      obtain ⟨hcmd, -⟩ := List.cons.inj (htodo.trans htail)
      cases hcmd
      exact Or.inr (Or.inr (Or.inr (Or.inr ⟨sock, socks, _, _, rfl, hunder, rfl, rfl, rfl⟩)))

theorem Shape.idle (h : Shape held []) : held = [] := by
  generalize htodo : ([] : Script) = todo at h
  cases h with
  | done => rfl
  | sending sock socks h => cases htodo.trans (sendAppendEntries_append sock socks _)
  | closing sock socks hunder h =>
      obtain ⟨tail, htail⟩ := closeSockets_append sock socks
        (.update (fun _ => []) :: .release .followerSockets .exclusive :: _)
      cases htodo.trans htail
  | _ => cases htodo

theorem Shape.acquired (h : Shape held (.acquire l m :: rest))
    (hself : isRecursive l = true ∨ ∀ m', (l, m') ∉ held) : Shape ((l, m) :: held) rest := by
  rcases h.requests with ⟨rfl, hrest⟩ | ⟨hunder, hl, rfl, hrest⟩ |
    ⟨sock, socks, tail, rfl, rfl, rfl, htodo, htail⟩ | ⟨tail, hunder, rfl, rfl, htodo, htail⟩ |
    ⟨sock, socks, below, tail, rfl, hunder, rfl, rfl, htodo⟩
  · exact hrest
  · exact hrest
  · obtain ⟨-, hrest⟩ := List.cons.inj (htodo.trans (sendAppendEntries_append sock socks _))
    rw [hrest]
    exact .sent socks htail
  · obtain ⟨-, hrest⟩ := List.cons.inj htodo
    rw [hrest]
    exact .closed hunder htail
  · -- the thread holds the lock already
    rcases hself with hself | hself
    · cases hself
    · exact absurd List.mem_cons_self (hself .exclusive)

theorem Shape.released (h : Shape held (.release l m :: rest)) :
    Shape (held.erase (l, m)) rest := by
  generalize htodo : Cmd.release l m :: rest = todo at h
  cases h with
  | release h =>
      cases htodo
      rw [List.erase_cons_head]
      exact h
  | sent socks h =>
      cases htodo
      exact h.sendAll socks
  | sending sock socks h => cases htodo.trans (sendAppendEntries_append sock socks _)
  | closing sock socks hunder h =>
      obtain ⟨tail, htail⟩ := closeSockets_append sock socks
        (.update (fun _ => []) :: .release .followerSockets .exclusive :: _)
      cases htodo.trans htail
  | _ => cases htodo

theorem Shape.updated {f : Followers → Followers} (h : Shape held (.update f :: rest)) :
    Shape held rest := by
  generalize htodo : Cmd.update f :: rest = todo at h
  cases h with
  | update h =>
      cases htodo
      exact h
  | sending sock socks h => cases htodo.trans (sendAppendEntries_append sock socks _)
  | closing sock socks hunder h =>
      obtain ⟨tail, htail⟩ := closeSockets_append sock socks
        (.update (fun _ => []) :: .release .followerSockets .exclusive :: _)
      cases htodo.trans htail
  | _ => cases htodo

theorem Shape.chosen {f : Followers → Script} (h : Shape held (.choose f :: rest))
    (socks : Followers) : Shape held (f socks ++ rest) := by
  generalize htodo : Cmd.choose f :: rest = todo at h
  cases h with
  | sends h =>
      cases htodo
      exact h.sendAll socks
  | closed hunder h =>
      cases htodo
      exact h.closeAll socks hunder
  | sending sock socks h => cases htodo.trans (sendAppendEntries_append sock socks _)
  | closing sock socks hunder h =>
      obtain ⟨tail, htail⟩ := closeSockets_append sock socks
        (.update (fun _ => []) :: .release .followerSockets .exclusive :: _)
      cases htodo.trans htail
  | _ => cases htodo

end Steps

section Interleavings

variable {ι : Type} {s : State ι Lock Followers}

/-- A thread is in the loop in which `become_follower` closes the sockets of the followers, at
one of them. -/
def Closing (s : State ι Lock Followers) (t : ι) : Prop :=
  (Lock.followerSockets, Mode.exclusive) ∈ (s.threads t).held ∧
    ∃ sock socks tail, (s.threads t).todo = (sock :: socks).flatMap closeSocket ++
      .update (fun _ => []) :: .release .followerSockets .exclusive :: tail

/-- A thread in `become_follower` holds `mutex_` and comes to the sockets' lock; another one
holds that lock and has a follower left to send entries to. -/
def Crossing (s : State ι Lock Followers) (t u : ι) : Prop :=
  (UnderMutex (s.threads t).held ∧ ∃ tail, (s.threads t).todo = closeFollowers ++ tail) ∧
    u ≠ t ∧ (Lock.followerSockets, Mode.shared) ∈ (s.threads u).held ∧
    ∃ sock socks tail, (s.threads u).todo = (sock :: socks).flatMap sendAppendEntries ++
      .release .followerSockets .shared :: tail

theorem Crossing.cycle {t u : ι} (h : Crossing s t u) : Cycle s := by
  obtain ⟨⟨hunder, tail, htodo⟩, hne, hheld, sock, socks, tail', htodo'⟩ := h
  have hrequest : Requests s u .mutex .exclusive :=
    ⟨_, htodo'.trans (sendAppendEntries_append sock socks _)⟩
  exact waits_of_mutual ⟨.followerSockets, .exclusive, .shared, ⟨_, htodo⟩, hne, hheld, Or.inl rfl⟩
    ⟨.mutex, .exclusive, .exclusive, hrequest, hne.symm, hunder.mem, Or.inl rfl⟩

/-- The order in which threads wait: for the sockets' lock without a lock, for `mutex_`, for
the sockets' lock under `mutex_`, for another lock. -/
def potential (s : State ι Lock Followers) (t : ι) : Nat :=
  match (s.threads t).todo with
  | .acquire .mutex _ :: _ => 1
  | .acquire .followerSockets _ :: _ => if (s.threads t).held.isEmpty then 0 else 2
  | .acquire _ _ :: _ => 3
  | _ => 0

variable [DecidableEq ι]

/-- The states of a node in which any number of threads run rounds of any operations. At first
it has no followers. -/
def NodeReachable (s : State ι Lock Followers) : Prop :=
  Reachable isRecursive (fun p => ∃ operation, p = script operation) [] s

theorem NodeReachable.shape (h : NodeReachable s) (t : ι) :
    Shape (s.threads t).held (s.threads t).todo := by
  apply Reachable.forall_threads (P := fun thread => Shape thread.held thread.todo) h Shape.done
  · intro held program hidle hprogram
    obtain ⟨operation, rfl⟩ := hprogram
    cases Shape.idle hidle
    have hfree := Free.script operation [] Shape.done
    rwa [List.append_nil] at hfree
  · exact fun held l m rest h hself => Shape.acquired h hself
  · exact fun held l m rest h => Shape.released h
  · exact fun held f rest h => Shape.updated h
  · exact fun held f rest socks h => Shape.chosen h socks

/-- **One wait.** Without a crossing, a waiting thread comes before the waiting thread that it
waits for. -/
theorem NodeReachable.potential_lt (h : NodeReachable s) (hcrossing : ∀ t u, ¬ Crossing s t u)
    {t u v : ι} (hwait : Waits s t u) (hnext : Waits s u v) : potential s t < potential s u := by
  obtain ⟨l, m, m', ⟨rest, htodo⟩, hut, hheld, hconflict⟩ := hwait
  obtain ⟨k, n, n', ⟨rest', htodo'⟩, hvu, hheld', hconflict'⟩ := hnext
  have hexclusion := Reachable.exclusion h
  have hshape := h.shape t
  have hshape' := h.shape u
  rw [htodo] at hshape
  rw [htodo'] at hshape'
  -- under mutex_ alone, the lock that the first thread waits for is mutex_
  have hmutex : UnderMutex (s.threads u).held → potential s t = 1 := by
    intro hunder
    cases hunder.2 _ hheld
    rw [potential, htodo]
  rcases hshape'.requests with ⟨hnil, -⟩ | ⟨hunder, hk, rfl, -⟩ |
    ⟨sock, socks, tail, hone, rfl, rfl, hsends, -⟩ | ⟨tail, hunder, rfl, rfl, hcloses, -⟩ |
    ⟨sock, socks, below, tail, hbelow, hunder, rfl, rfl, hcloses⟩
  · rw [hnil] at hheld
    exact absurd hheld List.not_mem_nil
  · rcases hk with rfl | rfl
    · exact absurd (Or.inl rfl) (hexclusion u v _ _ _ hvu.symm hunder.mem hheld')
    · rw [hmutex hunder, potential, htodo']
      show 1 < 3
      decide
  · have hu : potential s u = 1 := by rw [potential, htodo']
    rw [hone] at hheld
    cases List.mem_singleton.1 hheld
    have ht : potential s t = if (s.threads t).held.isEmpty then 0 else 2 := by
      rw [potential, htodo]
    rcases hshape.requests with ⟨hnil, -⟩ | ⟨-, hl, -⟩ | ⟨_, _, _, _, hl, -⟩ |
      ⟨tail', hunder, -, -, hcloses, -⟩ | ⟨_, _, below, _, hbelow, -⟩
    · rw [hu, ht, hnil]
      decide
    · rcases hl with hl | hl <;> cases hl
    · cases hl
    · refine absurd ⟨⟨hunder, tail', htodo.trans hcloses⟩, hut, ?_, sock, socks, tail,
        htodo'.trans hsends⟩ (hcrossing t u)
      rw [hone]
      exact List.mem_cons_self
    · have hmem : (Lock.followerSockets, Mode.exclusive) ∈ (s.threads t).held := by
        rw [hbelow]
        exact List.mem_cons_self
      have hmem' : (Lock.followerSockets, Mode.shared) ∈ (s.threads u).held := by
        rw [hone]
        exact List.mem_cons_self
      exact absurd (Or.inl rfl) (hexclusion t u _ _ _ hut.symm hmem hmem')
  · have hne : (s.threads u).held.isEmpty = false := by
      rw [List.isEmpty_eq_false_iff]
      exact hunder.1
    rw [hmutex hunder, potential, htodo']
    simp only [hne]
    decide
  · have hmem : (Lock.followerSockets, Mode.exclusive) ∈ (s.threads u).held := by
      rw [hbelow]
      exact List.mem_cons_self
    exact absurd (Or.inl rfl) (hexclusion u v _ _ _ hvu.symm hmem hheld')

theorem NodeReachable.selfRequest_iff (h : NodeReachable s) (t : ι) :
    SelfRequest isRecursive s t ↔ Closing s t := by
  constructor
  · rintro ⟨l, m, m', ⟨rest, htodo⟩, hrec, hheld⟩
    have hshape := h.shape t
    rw [htodo] at hshape
    rcases hshape.requests with ⟨hnil, -⟩ | ⟨hunder, hl, -⟩ | ⟨_, _, _, _, rfl, -⟩ |
      ⟨_, hunder, rfl, -⟩ | ⟨sock, socks, below, tail, hbelow, -, rfl, rfl, hcloses⟩
    · rw [hnil] at hheld
      exact absurd hheld List.not_mem_nil
    · rcases hl with rfl | rfl
      · cases hrec
      · cases hunder.2 _ hheld
    · cases hrec
    · cases hunder.2 _ hheld
    · refine ⟨?_, sock, socks, tail, htodo.trans hcloses⟩
      rw [hbelow]
      exact List.mem_cons_self
  · rintro ⟨hheld, sock, socks, tail, htodo⟩
    obtain ⟨rest, hrest⟩ := closeSockets_append sock socks
      (.update (fun _ => []) :: .release .followerSockets .exclusive :: tail)
    exact ⟨.followerSockets, .exclusive, .exclusive, ⟨rest, htodo.trans hrest⟩, rfl, hheld⟩

/-- **What can go wrong.** In every state of every interleaving, a thread requests a lock that
is not recursive and that it holds exactly when it is in the loop of `become_follower`, at a
follower; and threads wait for each other in a cycle exactly when `become_follower` meets a
thread that sends entries to the followers. -/
theorem reachable_locks (h : NodeReachable s) :
    ((∃ t, SelfRequest isRecursive s t) ↔ ∃ t, Closing s t) ∧
      (Cycle s ↔ ∃ t u, Crossing s t u) := by
  refine ⟨exists_congr h.selfRequest_iff, ?_, ?_⟩
  · intro hcycle
    by_contra hcrossing
    have hnone : ∀ t u, ¬ Crossing s t u := fun t u hd => hcrossing ⟨t, u, hd⟩
    exact not_cycle_of_potential (potential s) (fun t u v => h.potential_lt hnone) hcycle
  · rintro ⟨t, u, hcrossing⟩
    exact hcrossing.cycle

/-- A round of an idle thread while the others are idle. -/
theorem NodeReachable.round (h : NodeReachable s) (t : ι) (operation : Operation) {n : Nat}
    {x : Thread Lock Followers × Followers} (hidle : ∀ u, s.threads u = {})
    (hrun : soloRun isRecursive n (⟨[], script operation⟩, s.data) = some x) :
    NodeReachable ⟨Function.update s.threads t x.1, x.2⟩ := by
  have hbegin := Reachable.step h
    (.begin s t (script operation) (by rw [hidle t]) ⟨operation, rfl⟩)
  have hothers : ∀ u, u ≠ t →
      ((s.goOn t (s.threads t).held (script operation)).threads u).held = [] := by
    intro u hu
    show (Function.update s.threads t _ u).held = []
    rw [Function.update_of_ne hu, hidle u]
  have hstart : (s.goOn t (s.threads t).held (script operation)).threads t =
      ⟨[], script operation⟩ := by
    show Function.update s.threads t _ t = _
    rw [Function.update_self, hidle t]
  have hend := Reachable.soloRun hbegin hothers (by rw [hstart]; exact hrun)
  simp only [State.goOn, Function.update_idem] at hend
  exact hend

/-- A follower joins. -/
theorem joined_reachable : NodeReachable (⟨fun _ => {}, [7]⟩ : State Bool Lock Followers) := by
  have hjoin := NodeReachable.round (Reachable.init : NodeReachable ⟨fun _ : Bool => {}, []⟩) true
    (.join 7 (.accepted true)) (fun _ => rfl)
    (show soloRun isRecursive 11 _ = some (⟨[], []⟩, [7]) from rfl)
  rwa [Function.update_eq_self] at hjoin

/-- A thread in `become_follower` comes to the sockets' lock. -/
theorem following_reachable : NodeReachable (⟨Function.update (fun _ => {}) false
    ⟨[(.mutex, .exclusive)], closeFollowers ++ [.release .mutex .exclusive]⟩, [7]⟩ :
      State Bool Lock Followers) :=
  joined_reachable.round false (.becomeFollower .ignored) (fun _ => rfl)
    (show soloRun isRecursive 5 _ = some (_, _) from rfl)

/-- It meets a thread that sends heartbeats to the followers. -/
theorem crossing_reachable :
    ∃ s : State Bool Lock Followers, NodeReachable s ∧ Crossing s false true := by
  have hbegin := Reachable.step following_reachable
    (.begin _ true (script (.heartbeat true)) rfl ⟨_, rfl⟩)
  have hacquire := Reachable.step hbegin
    (.acquire _ true .followerSockets .shared _ rfl ?_ (Or.inr fun _ => List.not_mem_nil))
  · have hchoose := Reachable.step hacquire (.choose _ true _ _ rfl)
    refine ⟨_, hchoose, ⟨underMutex_single, _, rfl⟩, by decide, List.mem_cons_self, 7, [], [], rfl⟩
  · -- the other thread holds `mutex_` only
    rintro u ⟨l, m, m', ⟨rest, htodo⟩, hne, hheld, -⟩
    cases u with
    | true => exact hne rfl
    | false =>
        cases htodo
        cases List.mem_singleton.1 hheld

theorem reachable_locks_crossed :
    (∃ s : State Bool Lock Followers, NodeReachable s ∧ ∃ t, Closing s t) ∧
      ∃ s : State Bool Lock Followers, NodeReachable s ∧ Cycle s := by
  constructor
  · have hround := joined_reachable.round false (.becomeFollower .ignored) (fun _ => rfl)
      (show soloRun isRecursive 7 _ = some (_, _) from rfl)
    refine ⟨_, hround, (reachable_locks hround).1.1 ?_⟩
    exact ⟨false, .followerSockets, .exclusive, .exclusive, ⟨_, rfl⟩, rfl, List.mem_cons_self⟩
  · obtain ⟨s, hreachable, hcrossing⟩ := crossing_reachable
    exact ⟨s, hreachable, (reachable_locks hreachable).2.2 ⟨false, true, hcrossing⟩⟩

/-- A node with a follower that becomes a follower itself waits for its own thread. -/
theorem becomeFollower_selfRequest :
    ∃ s : State Bool Lock Followers, NodeReachable s ∧ SelfRequest isRecursive s false := by
  have hround := joined_reachable.round false (.becomeFollower .ignored) (fun _ => rfl)
    (show soloRun isRecursive 7 _ = some (_, _) from rfl)
  refine ⟨_, hround, .followerSockets, .exclusive, .exclusive, ⟨_, rfl⟩, rfl, ?_⟩
  exact List.mem_cons_self

end Interleavings

end EyaKV.Raft.Locking
