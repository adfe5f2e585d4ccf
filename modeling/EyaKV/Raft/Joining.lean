import EyaKV.Raft.Membership

/-!
# The nodes that join

The channel of a node that joins has at most one reply, and announcements behind it
(`ChannelOk`). Its `view` is what it will know once its channel is empty. The view changes in
two steps of the leader only, the announcement of a node and the answer to its call
(`Effect`), and `Wf.stepOk` says so of every step, with what the leader and the calls keep.
-/

set_option autoImplicit false

namespace EyaKV.Raft

open EyaKV.Base EyaKV.Store

namespace Node

section Receiving

variable {n : Node} (self : Address)

theorem follow_fields (n : Node) (j : Joining) :
    (n.follow j).role = .follower ∧ (n.follow j).joining = none ∧
      (n.follow j).followerClient = n.followerClient ∧
      (n.follow j).state.clusterNodes = ∅ ∧
      (n.follow j).state.currentLeader = some j.leader := by
  by_cases hraise : n.state.currentTerm < j.term
  · simp [follow, toFollower, hraise, savePersistentState, adoptTerm]
  · simp [follow, toFollower, hraise, savePersistentState]

/-- The response of the leader: its copy of the members, and the leader itself. -/
theorem receive_joined {j : Joining} (hj : n.joining = some j) (term : Nat)
    (nodes : Finset Address) :
    (n.receive self (.reply (.joined term nodes))).state.clusterNodes =
        (insert j.leader nodes).erase self ∧
      (n.receive self (.reply (.joined term nodes))).joining = none ∧
      (n.receive self (.reply (.joined term nodes))).followerClient = n.followerClient := by
  obtain ⟨hrole, hjoining, hclient, -, hleader⟩ := n.follow_fields j
  simp only [receive, hj, handleLeaderMessage, hrole, ↓reduceIte]
  refine ⟨?_, hjoining, hclient⟩
  simp only [handleJoinClusterResponse, savePersistentState, hleader]

theorem receive_rejected {j : Joining} (hj : n.joining = some j) (term : Nat) :
    (n.receive self (.reply (.rejected term))).followerClient = none := by
  obtain ⟨hrole, -⟩ := n.follow_fields j
  simp only [receive, hj, handleLeaderMessage, hrole, ↓reduceIte]
  rfl

theorem receive_newNode (hj : n.joining = none) (node : Address) :
    (n.receive self (.newNode node)).state.clusterNodes =
        (if node = self then n.state.clusterNodes else insert node n.state.clusterNodes) ∧
      (n.receive self (.newNode node)).joining = none ∧
      (n.receive self (.newNode node)).followerClient = n.followerClient := by
  simp only [receive, hj, handleLeaderMessage, setMember]
  split
  · exact ⟨rfl, hj, rfl⟩
  · exact ⟨rfl, rfl, rfl⟩

end Receiving

end Node

namespace Membership

variable {cfg : RaftNodeConfig} {leader : Address} {m m' : Membership}

section Views

/-- The cluster nodes of the node at `self` after it has received messages. -/
def viewAfter (leader self : Address) : Finset Address → List JoinMessage → Finset Address
  | nodes, [] => nodes
  | _, .reply (.joined _ nodes) :: rest =>
      viewAfter leader self ((insert leader nodes).erase self) rest
  | _, .reply _ :: rest => viewAfter leader self ∅ rest
  | nodes, .newNode node :: rest =>
      viewAfter leader self (if node = self then nodes else insert node nodes) rest

/-- What the node at `a` will know when it has received what is in its channel. -/
def view (leader : Address) (m : Membership) (conn : Conn) (a : Address) : Finset Address :=
  viewAfter leader a (m.nodes a).state.clusterNodes (m.channel conn)

theorem viewAfter_newNode (self node : Address) (msgs : List JoinMessage) :
    ∀ nodes, viewAfter leader self nodes (msgs ++ [.newNode node]) =
      if node = self then viewAfter leader self nodes msgs
      else insert node (viewAfter leader self nodes msgs) := by
  induction msgs with
  | nil =>
      intro nodes
      rfl
  | cons msg rest ih =>
      intro nodes
      cases msg with
      | newNode x => exact ih _
      | reply r =>
          cases r with
          | joined term copy => exact ih _
          | rejected term => exact ih _
          | redirect address => exact ih _

/-- A message that announces a node. -/
def IsNewNode (msg : JoinMessage) : Prop := ∃ node, msg = .newNode node

/-- The channel of a node: empty until the leader has answered; then the response, until the
node has received it, and announcements behind it. -/
inductive ChannelOk (leader : Address) : JoinStage → Option Joining → List JoinMessage → Prop
  | waiting {stage : JoinStage} {j : Joining} (hstage : stage = .requested ∨ stage = .announced)
      (hleader : j.leader = leader) : ChannelOk leader stage (some j) []
  | replied {stage : JoinStage} {j : Joining} {term : Nat} {nodes : Finset Address}
      {rest : List JoinMessage} (hstage : stage.isAnswered = true) (hleader : j.leader = leader)
      (hrest : ∀ msg ∈ rest, IsNewNode msg) :
      ChannelOk leader stage (some j) (.reply (.joined term nodes) :: rest)
  | refused {j : Joining} {term : Nat} (hleader : j.leader = leader) :
      ChannelOk leader .refused (some j) [.reply (.rejected term)]
  | following {stage : JoinStage} {rest : List JoinMessage} (hstage : stage.isAnswered = true)
      (hrest : ∀ msg ∈ rest, IsNewNode msg) : ChannelOk leader stage none rest

variable {stage : JoinStage} {joining : Option Joining} {msgs : List JoinMessage}

/-- A call that goes on without a message to the new node. -/
theorem ChannelOk.advance (h : ChannelOk leader stage joining msgs) {stage' : JoinStage}
    (hrequested : stage = .requested → stage' = .announced)
    (hanswered : stage.isAnswered = true → stage'.isAnswered = true)
    (hannounced : stage ≠ .announced) (hrefused : stage ≠ .refused) :
    ChannelOk leader stage' joining msgs := by
  cases h with
  | waiting hstage hleader =>
      rcases hstage with hstage | hstage
      · exact .waiting (Or.inr (hrequested hstage)) hleader
      · exact absurd hstage hannounced
  | replied hstage hleader hrest => exact .replied (hanswered hstage) hleader hrest
  | refused hleader => exact absurd rfl hrefused
  | following hstage hrest => exact .following (hanswered hstage) hrest

/-- One more announcement behind the answer. -/
theorem ChannelOk.newNode (h : ChannelOk leader stage joining msgs)
    (hstage : stage.isAnswered = true) (node : Address) :
    ChannelOk leader stage joining (msgs ++ [.newNode node]) := by
  have hmore : ∀ rest : List JoinMessage, (∀ msg ∈ rest, IsNewNode msg) →
      ∀ msg ∈ rest ++ [.newNode node], IsNewNode msg := by
    intro rest hrest msg hmsg
    rcases List.mem_append.1 hmsg with hmsg | hmsg
    · exact hrest msg hmsg
    · exact ⟨node, List.mem_singleton.1 hmsg⟩
  cases h with
  | waiting hwait hleader =>
      rcases hwait with rfl | rfl
      · cases hstage
      · cases hstage
  | replied hanswered hleader hrest => exact .replied hanswered hleader (hmore _ hrest)
  | refused hleader => cases hstage
  | following hanswered hrest => exact .following hanswered (hmore _ hrest)

/-- Receiving a message leaves the view of an answered node as it is. -/
theorem ChannelOk.receive {n : Node} (self : Address) {msg : JoinMessage}
    {rest : List JoinMessage} (h : ChannelOk leader stage n.joining (msg :: rest))
    (hstage : stage.isAnswered = true) :
    ChannelOk leader stage (n.receive self msg).joining rest ∧
      (n.receive self msg).followerClient = n.followerClient ∧
      viewAfter leader self (n.receive self msg).state.clusterNodes rest =
        viewAfter leader self n.state.clusterNodes (msg :: rest) := by
  generalize hjoining : n.joining = joining at h
  cases h with
  | @replied _ j term nodes _ _ hleader hrest =>
      obtain ⟨hnodes, hnone, hclient⟩ :=
        Node.receive_joined self hjoining term nodes
      rw [hnone, hclient, hnodes, hleader]
      exact ⟨.following hstage hrest, rfl, rfl⟩
  | refused hleader => cases hstage
  | following _ hrest =>
      obtain ⟨node, rfl⟩ := hrest msg List.mem_cons_self
      obtain ⟨hnodes, hnone, hclient⟩ := Node.receive_newNode self hjoining node
      rw [hnone, hclient, hnodes]
      exact ⟨.following hstage fun msg' hmsg' => hrest msg' (List.mem_cons_of_mem _ hmsg'), rfl,
        rfl⟩

end Views

section Invariant

/-- What holds of the leader and the calls. -/
structure CallsOk (cfg : RaftNodeConfig) (leader : Address) (m : Membership) : Prop where
  role : (m.nodes leader).role = .leader
  sockets : ∀ conn, conn ∈ (m.nodes leader).followerSockets ↔
    ∃ call, m.calls conn = some call ∧ call.stage = .registered
  listed : ∀ b, b ∈ (m.nodes leader).state.clusterNodes ↔ m.HasCall JoinStage.isListed b
  fresh : ∀ conn, m.nextConn ≤ conn → m.calls conn = none
  addr : ∀ conn call, m.calls conn = some call → call.addr ≠ leader
  trusted : ∀ conn call, m.calls conn = some call → call.stage.isAnnounced = true →
    cfg.isTrust call.addr = true
  refused : ∀ conn call, m.calls conn = some call → call.stage = .refused →
    cfg.isTrust call.addr = false

theorem CallsOk.lt (h : CallsOk cfg leader m) {conn : Conn} {call : JoinCall}
    (hcall : m.calls conn = some call) : conn < m.nextConn := by
  by_contra hle
  rw [h.fresh conn (not_lt.1 hle)] at hcall
  cases hcall

/-- What holds of a node that joins: it has a connection, and on the last one that it opened
the channel is as the call has left it. -/
structure NodesOk (cfg : RaftNodeConfig) (leader : Address) (m : Membership) : Prop where
  client : ∀ conn call, m.calls conn = some call → cfg.isTrust call.addr = true →
    ∃ k, (m.nodes call.addr).followerClient = some k
  channel : ∀ a conn, a ≠ leader → (m.nodes a).followerClient = some conn →
    ∃ call, m.calls conn = some call ∧ call.addr = a ∧
      ChannelOk leader call.stage (m.nodes a).joining (m.channel conn)
  silent : ∀ conn, m.calls conn = none → m.channel conn = []

/-- The node of a call that has been answered, on its last connection. -/
def Follows (m : Membership) (conn : Conn) (call : JoinCall) : Prop :=
  m.calls conn = some call ∧ call.stage.isAnswered = true ∧
    (m.nodes call.addr).followerClient = some conn

/-- A node knows no others than the leader and those that have been announced. -/
def Sound (leader : Address) (m : Membership) : Prop :=
  ∀ conn call, m.Follows conn call → ∀ b ∈ m.view leader conn call.addr,
    b ≠ call.addr ∧ (b = leader ∨ m.HasCall JoinStage.isAnnounced b)

/-- The invariant of all runs. -/
structure Wf (cfg : RaftNodeConfig) (leader : Address) (m : Membership) : Prop where
  calls : CallsOk cfg leader m
  nodes : NodesOk cfg leader m
  sound : Sound leader m

/-- A step of the leader in which a call goes on. -/
structure Advances (leader : Address) (m m' : Membership) (conn : Conn) (call : JoinCall)
    (stage : JoinStage) : Prop where
  old : m.calls conn = some call
  calls : m'.calls = Function.update m.calls conn (some { call with stage := stage })
  nodes : ∀ a, a ≠ leader → m'.nodes a = m.nodes a
  nextConn : m'.nextConn = m.nextConn

variable {conn : Conn} {call : JoinCall} {stage : JoinStage}

/-- The new kind of a call, in a step of the leader that treats the sockets, the list and the
trust of the node as it should. -/
theorem CallsOk.advance (h : CallsOk cfg leader m) (hadv : Advances leader m m' conn call stage)
    (hrole : (m'.nodes leader).role = .leader)
    (hsockets : ∀ k, k ∈ (m'.nodes leader).followerSockets ↔
      k ∈ (m.nodes leader).followerSockets ∨ k = conn ∧ stage = .registered)
    (hlisted : ∀ b, b ∈ (m'.nodes leader).state.clusterNodes ↔
      m'.HasCall JoinStage.isListed b)
    (hregistered : call.stage ≠ .registered)
    (htrusted : stage.isAnnounced = true → cfg.isTrust call.addr = true)
    (hrefused : stage = .refused → cfg.isTrust call.addr = false) :
    CallsOk cfg leader m' := by
  refine ⟨hrole, fun k => ?_, hlisted, fun k hk => ?_, fun k c hc => ?_, fun k c hc => ?_,
    fun k c hc => ?_⟩
  · rw [hsockets, h.sockets]
    constructor
    · rintro (⟨c, hc, hstage⟩ | ⟨rfl, rfl⟩)
      · refine ⟨c, (calls_setStage hadv.calls).2 (Or.inl ⟨?_, hc⟩), hstage⟩
        rintro rfl
        obtain rfl := Option.some.inj (hadv.old.symm.trans hc)
        exact hregistered hstage
      · exact ⟨_, (calls_setStage hadv.calls).2 (Or.inr ⟨rfl, rfl⟩), rfl⟩
    · rintro ⟨c, hc, hstage⟩
      rcases (calls_setStage hadv.calls).1 hc with ⟨-, hc⟩ | ⟨rfl, rfl⟩
      · exact Or.inl ⟨c, hc, hstage⟩
      · exact Or.inr ⟨rfl, hstage⟩
  · rw [hadv.nextConn] at hk
    have hold := h.fresh k hk
    rw [hadv.calls, Function.update_of_ne, hold]
    rintro rfl
    rw [hadv.old] at hold
    cases hold
  all_goals rcases (calls_setStage hadv.calls).1 hc with ⟨-, hold⟩ | ⟨rfl, rfl⟩
  · exact h.addr k c hold
  · exact h.addr k call hadv.old
  · exact h.trusted k c hold
  · exact htrusted
  · exact h.refused k c hold
  · exact hrefused

/-- The nodes that join, in a step of the leader after which the channels are as the calls
have left them. -/
theorem NodesOk.advance (hcalls : CallsOk cfg leader m) (h : NodesOk cfg leader m)
    (hadv : Advances leader m m' conn call stage)
    (hself : ∀ joining, ChannelOk leader call.stage joining (m.channel conn) →
      ChannelOk leader stage joining (m'.channel conn))
    (hother : ∀ k c, k ≠ conn → m.calls k = some c → ∀ joining,
      ChannelOk leader c.stage joining (m.channel k) →
        ChannelOk leader c.stage joining (m'.channel k))
    (hsilent : ∀ k, m.calls k = none → m'.channel k = m.channel k) :
    NodesOk cfg leader m' := by
  refine ⟨?_, ?_, fun k hk => ?_⟩
  · intro k c hc htrust
    rcases (calls_setStage hadv.calls).1 hc with ⟨-, hold⟩ | ⟨rfl, rfl⟩
    · rw [hadv.nodes _ (hcalls.addr k c hold)]
      exact h.client k c hold htrust
    · simp only at htrust ⊢
      rw [hadv.nodes _ (hcalls.addr k call hadv.old)]
      exact h.client k call hadv.old htrust
  · intro a k ha hk
    rw [hadv.nodes a ha] at hk ⊢
    obtain ⟨c, hc, rfl, hok⟩ := h.channel a k ha hk
    by_cases hkc : k = conn
    · subst hkc
      obtain rfl := Option.some.inj (hadv.old.symm.trans hc)
      exact ⟨_, (calls_setStage hadv.calls).2 (Or.inr ⟨rfl, rfl⟩), rfl, hself _ hok⟩
    · exact ⟨c, (calls_setStage hadv.calls).2 (Or.inl ⟨hkc, hc⟩), rfl, hother k c hkc hc _ hok⟩
  · have hold : m.calls k = none := by
      rw [hadv.calls, Function.update_apply] at hk
      split at hk
      · cases hk
      · exact hk
    rw [hsilent k hold]
    exact h.silent k hold

/-- The answered nodes after a step of the leader in which a call goes on. -/
theorem Advances.follows (hcalls : CallsOk cfg leader m)
    (hadv : Advances leader m m' conn call stage) {k : Conn} {c : JoinCall}
    (h : m'.Follows k c) :
    k ≠ conn ∧ m.Follows k c ∨
      k = conn ∧ c = { call with stage := stage } ∧ stage.isAnswered = true ∧
        (m.nodes call.addr).followerClient = some conn := by
  obtain ⟨hc, hstage, hclient⟩ := h
  rcases (calls_setStage hadv.calls).1 hc with ⟨hkc, hold⟩ | ⟨rfl, rfl⟩
  · rw [hadv.nodes _ (hcalls.addr k c hold)] at hclient
    exact Or.inl ⟨hkc, hold, hstage, hclient⟩
  · simp only at hclient
    rw [hadv.nodes _ (hcalls.addr k call hadv.old)] at hclient
    exact Or.inr ⟨rfl, rfl, hstage, hclient⟩

/-- The views after a step of the leader that sends nothing on the connection. -/
theorem Advances.view (hadv : Advances leader m m' conn call stage) {k : Conn} {a : Address}
    (ha : a ≠ leader) (hchannel : m'.channel k = m.channel k) :
    m'.view leader k a = m.view leader k a := by
  simp only [Membership.view, hadv.nodes a ha, hchannel]

theorem Follows.addr_ne (hcalls : CallsOk cfg leader m) {k : Conn} {c : JoinCall}
    (h : m.Follows k c) : c.addr ≠ leader := hcalls.addr k c h.1

/-- What a step does to the views. -/
inductive Effect (cfg : RaftNodeConfig) (leader : Address) (m : Membership) (act : JoinAction)
    (m' : Membership) : Prop
  /-- Nothing. -/
  | quiet
      (view : ∀ k c, m'.Follows k c → ∃ c₀, m.Follows k c₀ ∧ c₀.addr = c.addr ∧
        m'.view leader k c.addr = m.view leader k c.addr)
      (announced : ∀ b, m'.HasCall JoinStage.isAnnounced b ↔ m.HasCall JoinStage.isAnnounced b)
  /-- An announcement to the registered nodes. -/
  | announced {conn : Conn} {call : JoinCall} (action : act = .announce conn)
      (old : m.calls conn = some call) (requested : call.stage = .requested)
      (trusted : cfg.isTrust call.addr = true)
      (view : ∀ k c, m'.Follows k c → m.Follows k c ∧ m'.view leader k c.addr =
        if c.stage = .registered ∧ call.addr ≠ c.addr then
          insert call.addr (m.view leader k c.addr)
        else m.view leader k c.addr)
      (announced : ∀ b, m'.HasCall JoinStage.isAnnounced b ↔
        b = call.addr ∨ m.HasCall JoinStage.isAnnounced b)
  /-- An answer with a copy of the members that are listed. -/
  | answered {conn : Conn} {call : JoinCall} (old : m.calls conn = some call)
      (stage : call.stage = .announced)
      (view : ∀ k c, m'.Follows k c → m.Follows k c ∧
          m'.view leader k c.addr = m.view leader k c.addr ∨
        k = conn ∧ c.addr = call.addr ∧ m'.view leader k c.addr =
          (insert leader (m.nodes leader).state.clusterNodes).erase c.addr)
      (announced : ∀ b, m'.HasCall JoinStage.isAnnounced b ↔ m.HasCall JoinStage.isAnnounced b)

/-- A step of the leader that sends nothing to the nodes that have been answered. -/
theorem Advances.quiet (hcalls : CallsOk cfg leader m)
    (hadv : Advances leader m m' conn call stage)
    (hanswered : stage.isAnswered = call.stage.isAnswered)
    (hannounced : stage.isAnnounced = call.stage.isAnnounced)
    (hchannel : ∀ k c, m.calls k = some c → c.stage.isAnswered = true →
      m'.channel k = m.channel k) {act : JoinAction} : Effect cfg leader m act m' := by
  refine .quiet (fun k c h => ?_) fun b => hasCall_same hadv.old hadv.calls hannounced
  rcases hadv.follows hcalls h with ⟨-, hold⟩ | ⟨rfl, rfl, hstage, hclient⟩
  · exact ⟨c, hold, rfl, hadv.view (hold.addr_ne hcalls) (hchannel k c hold.1 hold.2.1)⟩
  · rw [hanswered] at hstage
    exact ⟨call, ⟨hadv.old, hstage, hclient⟩, rfl,
      hadv.view (hcalls.addr k call hadv.old) (hchannel k call hadv.old hstage)⟩

end Invariant

section Steps

variable {conn : Conn} {call : JoinCall} {act : JoinAction}

/-- The calls stay as they are or go on. -/
structure Grows (m m' : Membership) : Prop where
  calls : ∀ k c, m.calls k = some c → ∃ c', m'.calls k = some c' ∧ c'.addr = c.addr ∧
    (c.stage.isAnnounced = true → c'.stage.isAnnounced = true) ∧
    (c.stage.isAnswered = true → c'.stage.isAnswered = true)

theorem Advances.grows {stage : JoinStage} (hadv : Advances leader m m' conn call stage)
    (hannounced : call.stage.isAnnounced = true → stage.isAnnounced = true)
    (hanswered : call.stage.isAnswered = true → stage.isAnswered = true) : Grows m m' := by
  refine ⟨fun k c hc => ?_⟩
  by_cases hkc : k = conn
  · subst hkc
    obtain rfl := Option.some.inj (hadv.old.symm.trans hc)
    exact ⟨_, (calls_setStage hadv.calls).2 (Or.inr ⟨rfl, rfl⟩), rfl, hannounced, hanswered⟩
  · exact ⟨c, (calls_setStage hadv.calls).2 (Or.inl ⟨hkc, hc⟩), rfl, id, id⟩

/-- What every step does. -/
structure StepOk (cfg : RaftNodeConfig) (leader : Address) (m : Membership) (act : JoinAction)
    (m' : Membership) : Prop where
  calls : CallsOk cfg leader m'
  nodes : NodesOk cfg leader m'
  effect : Effect cfg leader m act m'
  grows : Grows m m'

theorem Wf.connect (h : Wf cfg leader m) {a : Address} (ha : a ≠ leader) (term commitIndex : Nat) :
    StepOk cfg leader m act (m.connect leader a term commitIndex) := by
  have hfresh := h.calls.fresh m.nextConn (Nat.le_refl _)
  have hother : ∀ x, x ≠ a → (m.connect leader a term commitIndex).nodes x = m.nodes x :=
    fun x hx => Function.update_of_ne hx _ _
  have hself : (m.connect leader a term commitIndex).nodes a = { m.nodes a with
      followerClient := some m.nextConn
      joining := some ⟨m.nextConn, leader, term, commitIndex⟩ } := Function.update_self _ _ _
  have hleader := hother leader (Ne.symm ha)
  -- the connection is new, so the calls so far are on other ones
  have hold : ∀ k c, m.calls k = some c → k ≠ m.nextConn := by
    rintro k c hc rfl
    rw [hfresh] at hc
    cases hc
  refine ⟨⟨?_, fun k => ?_, fun b => ?_, fun k hk => ?_, fun k c hc => ?_, fun k c hc => ?_,
    fun k c hc => ?_⟩, ⟨fun k c hc htrust => ?_, fun x k hx hk => ?_, fun k hk => ?_⟩, ?_,
    ⟨fun k c hc => ?_⟩⟩
  · rw [hleader]
    exact h.calls.role
  · rw [hleader, h.calls.sockets]
    constructor
    · rintro ⟨c, hc, hstage⟩
      exact ⟨c, calls_connect.2 (Or.inl ⟨hold k c hc, hc⟩), hstage⟩
    · rintro ⟨c, hc, hstage⟩
      rcases calls_connect.1 hc with ⟨-, hc⟩ | ⟨-, rfl⟩
      · exact ⟨c, hc, hstage⟩
      · cases hstage
  · rw [hleader, h.calls.listed, hasCall_connect hfresh rfl]
  · have hlt : m.nextConn < k := hk
    exact (Function.update_of_ne hlt.ne' _ _).trans (h.calls.fresh k hlt.le)
  · rcases calls_connect.1 hc with ⟨-, hc⟩ | ⟨-, rfl⟩
    · exact h.calls.addr k c hc
    · exact ha
  · rcases calls_connect.1 hc with ⟨-, hc⟩ | ⟨-, rfl⟩
    · exact h.calls.trusted k c hc
    · intro hstage
      cases hstage
  · rcases calls_connect.1 hc with ⟨-, hc⟩ | ⟨-, rfl⟩
    · exact h.calls.refused k c hc
    · intro hstage
      cases hstage
  · by_cases hca : c.addr = a
    · rw [hca, hself]
      exact ⟨m.nextConn, rfl⟩
    · rw [hother _ hca]
      rcases calls_connect.1 hc with ⟨-, hc⟩ | ⟨-, rfl⟩
      · exact h.nodes.client k c hc htrust
      · exact absurd rfl hca
  · by_cases hxa : x = a
    · subst hxa
      rw [hself] at hk ⊢
      obtain rfl := Option.some.inj hk
      refine ⟨_, calls_connect.2 (Or.inr ⟨rfl, rfl⟩), rfl, ?_⟩
      rw [show (m.connect leader x term commitIndex).channel m.nextConn = [] from
        h.nodes.silent _ hfresh]
      exact .waiting (Or.inl rfl) rfl
    · rw [hother x hxa] at hk ⊢
      obtain ⟨c, hc, hca, hok⟩ := h.nodes.channel x k hx hk
      exact ⟨c, calls_connect.2 (Or.inl ⟨hold k c hc, hc⟩), hca, hok⟩
  · apply h.nodes.silent
    simp only [Membership.connect, Function.update_apply] at hk
    split at hk
    · cases hk
    · exact hk
  · refine .quiet (fun k c hfollows => ?_) fun b => hasCall_connect hfresh rfl
    obtain ⟨hc, hstage, hclient⟩ := hfollows
    rcases calls_connect.1 hc with ⟨hk, hc⟩ | ⟨-, rfl⟩
    · -- a follower that dials again no longer follows on its old connection
      have hca : c.addr ≠ a := by
        intro hca
        rw [hca, hself] at hclient
        exact hk (Option.some.inj hclient).symm
      rw [hother _ hca] at hclient
      refine ⟨c, ⟨hc, hstage, hclient⟩, rfl, ?_⟩
      simp only [view, hother _ hca]
      rfl
    · cases hstage
  · exact ⟨c, calls_connect.2 (Or.inl ⟨hold k c hc, hc⟩), rfl, id, id⟩

/-- A refused call: the reply goes to the node, which is not trusted. -/
theorem Wf.refuse (h : Wf cfg leader m) (hcall : m.calls conn = some call)
    (hstage : call.stage = .requested) (htrust : cfg.isTrust call.addr = false) (term : Nat) :
    StepOk cfg leader m act
      ((m.send conn (.reply (.rejected term))).setStage conn call .refused) := by
  have hadv : Advances leader m
      ((m.send conn (.reply (.rejected term))).setStage conn call .refused) conn call .refused :=
    ⟨hcall, rfl, fun _ _ => rfl, rfl⟩
  have hchannel : ∀ k, k ≠ conn →
      ((m.send conn (.reply (.rejected term))).setStage conn call .refused).channel k =
        m.channel k := fun k hk => Function.update_of_ne hk _ _
  have hown : ((m.send conn (.reply (.rejected term))).setStage conn call .refused).channel conn =
      m.channel conn ++ [.reply (.rejected term)] := Function.update_self _ _ _
  refine ⟨h.calls.advance hadv h.calls.role (fun k => ?_) (fun b => ?_) ?_ ?_ fun _ => htrust,
    h.nodes.advance h.calls hadv (fun joining hok => ?_) (fun k c hk _ joining hok => ?_)
      fun k hk => ?_, hadv.quiet h.calls ?_ ?_ fun k c hc hanswered => ?_, hadv.grows ?_ ?_⟩
  · simp only [reduceCtorEq, and_false, or_false]
    exact Iff.rfl
  · exact (h.calls.listed b).trans (hasCall_same hcall rfl (by rw [hstage]; rfl)).symm
  · rw [hstage]
    intro hne
    cases hne
  · intro hne
    cases hne
  · rw [hown]
    rw [hstage] at hok
    -- a requested call has had no reply, so the refusal is the first message
    generalize m.channel conn = msgs at hok ⊢
    cases hok with
    | waiting _ hleader => exact .refused hleader
    | replied hanswered => cases hanswered
    | following hanswered => cases hanswered
  · rw [hchannel k hk]
    exact hok
  · apply hchannel
    rintro rfl
    rw [hcall] at hk
    cases hk
  · rw [hstage]
    rfl
  · rw [hstage]
    rfl
  · apply hchannel
    rintro rfl
    obtain rfl := Option.some.inj (hcall.symm.trans hc)
    rw [hstage] at hanswered
    cases hanswered
  · rw [hstage]
    intro hfalse
    cases hfalse
  · rw [hstage]
    intro hfalse
    cases hfalse

/-- An announcement reaches the sockets of the registered nodes. -/
theorem Wf.broadcast (h : Wf cfg leader m) (hcall : m.calls conn = some call)
    (hstage : call.stage = .requested) (htrust : cfg.isTrust call.addr = true) :
    StepOk cfg leader m (.announce conn)
      ((m.broadcast (m.nodes leader).followerSockets (.newNode call.addr)).setStage conn call
        .announced) := by
  generalize hm' : (m.broadcast (m.nodes leader).followerSockets (.newNode call.addr)).setStage
    conn call .announced = m'
  have hadv : Advances leader m m' conn call .announced := by
    subst hm'
    exact ⟨hcall, rfl, fun _ _ => rfl, rfl⟩
  have hnodes : m'.nodes = m.nodes := by rw [← hm']; rfl
  have hin : ∀ k, k ∈ (m.nodes leader).followerSockets →
      m'.channel k = m.channel k ++ [.newNode call.addr] := by
    intro k hk
    rw [← hm']
    exact if_pos hk
  have hout : ∀ k, k ∉ (m.nodes leader).followerSockets → m'.channel k = m.channel k := by
    intro k hk
    rw [← hm']
    exact if_neg hk
  -- the call is not registered yet, so its own connection gets no announcement
  have hself : conn ∉ (m.nodes leader).followerSockets := by
    intro hmem
    obtain ⟨c, hc, hreg⟩ := (h.calls.sockets conn).1 hmem
    obtain rfl := Option.some.inj (hcall.symm.trans hc)
    rw [hstage] at hreg
    cases hreg
  refine ⟨h.calls.advance hadv (hnodes ▸ h.calls.role) (fun k => ?_) (fun b => ?_) ?_
      (fun _ => htrust) (fun hne => by cases hne),
    h.nodes.advance h.calls hadv (fun joining hok => ?_) (fun k c hk hc joining hok => ?_)
      fun k hk => hout k ?_,
    .announced rfl hcall hstage htrust (fun k c hfollows => ?_) (fun b => ?_),
    hadv.grows (fun _ => rfl) ?_⟩
  · rw [hnodes]
    simp only [reduceCtorEq, and_false, or_false]
  · rw [hnodes]
    exact (h.calls.listed b).trans
      (hasCall_same hcall hadv.calls (by rw [hstage]; rfl)).symm
  · rw [hstage]
    intro hne
    cases hne
  · rw [hout conn hself]
    refine hok.advance (fun _ => rfl) ?_ ?_ ?_
    all_goals
      rw [hstage]
      intro hne
      cases hne
  · by_cases hmem : k ∈ (m.nodes leader).followerSockets
    · obtain ⟨c', hc', hreg⟩ := (h.calls.sockets k).1 hmem
      obtain rfl := Option.some.inj (hc.symm.trans hc')
      rw [hin k hmem]
      exact hok.newNode (by rw [hreg]; rfl) _
    · rw [hout k hmem]
      exact hok
  · intro hmem
    obtain ⟨c, hc, -⟩ := (h.calls.sockets k).1 hmem
    rw [hk] at hc
    cases hc
  · rcases hadv.follows h.calls hfollows with ⟨-, hold⟩ | ⟨-, -, hfalse, -⟩
    · refine ⟨hold, ?_⟩
      -- a registered follower sees the new node behind all that it has yet to read
      by_cases hreg : c.stage = .registered
      · simp only [view, hnodes, hin k ((h.calls.sockets k).2 ⟨c, hold.1, hreg⟩),
          viewAfter_newNode, hreg, true_and, ne_eq, ite_not]
      · have hmem : k ∉ (m.nodes leader).followerSockets := by
          intro hmem
          obtain ⟨c', hc', hreg'⟩ := (h.calls.sockets k).1 hmem
          obtain rfl := Option.some.inj (hold.1.symm.trans hc')
          exact hreg hreg'
        simp only [view, hnodes, hout k hmem, hreg, false_and, ↓reduceIte]
    · cases hfalse
  · exact hasCall_new hcall hadv.calls rfl (by rw [hstage]; rfl)
  · rw [hstage]
    intro hfalse
    cases hfalse

theorem Wf.announce (h : Wf cfg leader m) (hcall : m.calls conn = some call)
    (hstage : call.stage = .requested) :
    StepOk cfg leader m (.announce conn) (m.announce cfg leader conn call) := by
  cases htrust : cfg.isTrust call.addr with
  | false =>
      have hrefuse : m.announce cfg leader conn call =
          (m.send conn (.reply (.rejected (m.nodes leader).state.currentTerm))).setStage conn
            call .refused := by
        rw [Membership.announce, if_neg (not_not.2 h.calls.role), htrust]
        rfl
      rw [hrefuse]
      exact h.refuse hcall hstage htrust _
  | true =>
      have hbroadcast : m.announce cfg leader conn call =
          (m.broadcast (m.nodes leader).followerSockets (.newNode call.addr)).setStage conn call
            .announced := by
        rw [Membership.announce, if_neg (not_not.2 h.calls.role), htrust]
        rfl
      rw [hbroadcast]
      exact h.broadcast hcall hstage htrust

theorem Wf.answer (h : Wf cfg leader m) (hcall : m.calls conn = some call)
    (hstage : call.stage = .announced) :
    StepOk cfg leader m act (m.answer leader conn call) := by
  generalize hm' : m.answer leader conn call = m'
  have hadv : Advances leader m m' conn call .answered := by
    subst hm'
    exact ⟨hcall, rfl, fun a ha => Function.update_of_ne ha _ _, rfl⟩
  have hleader : m'.nodes leader =
      (m.nodes leader).prepareFollower call.addr conn call.lastIndex := by
    rw [← hm']
    exact Function.update_self _ _ _
  have hother : ∀ k, k ≠ conn → m'.channel k = m.channel k := by
    intro k hk
    rw [← hm']
    exact Function.update_of_ne hk _ _
  have hown : m'.channel conn = m.channel conn ++ [.reply (.joined
      (m.nodes leader).state.currentTerm (m.nodes leader).state.clusterNodes)] := by
    rw [← hm']
    exact Function.update_self _ _ _
  refine ⟨h.calls.advance hadv (hleader ▸ h.calls.role) (fun k => ?_) (fun b => ?_) ?_
      (fun _ => h.calls.trusted conn call hcall (by rw [hstage]; rfl)) (fun hne => by cases hne),
    h.nodes.advance h.calls hadv (fun joining hok => ?_) (fun k c hk _ joining hok => ?_)
      fun k hk => hother k ?_, .answered hcall hstage (fun k c hfollows => ?_) (fun b => ?_),
    hadv.grows (fun _ => rfl) fun _ => rfl⟩
  · rw [hleader]
    simp only [reduceCtorEq, and_false, or_false]
    exact Iff.rfl
  · rw [hleader]
    exact (h.calls.listed b).trans
      (hasCall_same hcall hadv.calls (by rw [hstage]; rfl)).symm
  · rw [hstage]
    intro hne
    cases hne
  · rw [hown]
    rw [hstage] at hok
    generalize m.channel conn = msgs at hok ⊢
    cases hok with
    | waiting _ hleads => exact .replied rfl hleads fun msg hmsg => absurd hmsg List.not_mem_nil
    | replied hanswered => cases hanswered
    | following hanswered => cases hanswered
  · rw [hother k hk]
    exact hok
  · rintro rfl
    rw [hcall] at hk
    cases hk
  · rcases hadv.follows h.calls hfollows with ⟨hk, hold⟩ | ⟨rfl, rfl, -, hclient⟩
    · exact Or.inl ⟨hold, hadv.view (hold.addr_ne h.calls) (hother k hk)⟩
    · -- nothing has been sent to the node before
      obtain ⟨c, hc, -, hok⟩ :=
        h.nodes.channel call.addr k (h.calls.addr k call hcall) hclient
      obtain rfl := Option.some.inj (hcall.symm.trans hc)
      rw [hstage] at hok
      refine Or.inr ⟨rfl, rfl, ?_⟩
      simp only [view, hown]
      generalize m.channel k = msgs at hok
      generalize (m.nodes call.addr).joining = joining at hok
      cases hok with
      | waiting _ _ => rfl
      | replied hanswered => cases hanswered
      | following hanswered => cases hanswered
  · exact hasCall_same hcall hadv.calls (by rw [hstage]; rfl)

theorem Wf.list (h : Wf cfg leader m) (hcall : m.calls conn = some call)
    (hstage : call.stage = .answered) :
    StepOk cfg leader m act (m.list leader conn call) := by
  generalize hm' : m.list leader conn call = m'
  have hadv : Advances leader m m' conn call .listed := by
    subst hm'
    exact ⟨hcall, rfl, fun a ha => Function.update_of_ne ha _ _, rfl⟩
  have hleader : m'.nodes leader = (m.nodes leader).listNode call.addr := by
    rw [← hm']
    exact Function.update_self _ _ _
  have hchannel : m'.channel = m.channel := by rw [← hm']; rfl
  refine ⟨h.calls.advance hadv (hleader ▸ h.calls.role) (fun k => ?_) (fun b => ?_) ?_
      (fun _ => h.calls.trusted conn call hcall (by rw [hstage]; rfl)) (fun hne => by cases hne),
    h.nodes.advance h.calls hadv (fun joining hok => ?_) (fun k c hk _ joining hok => ?_)
      fun k hk => by rw [hchannel], hadv.quiet h.calls (by rw [hstage]; rfl) (by rw [hstage]; rfl)
      fun k c _ _ => by rw [hchannel], hadv.grows (fun _ => rfl) fun _ => rfl⟩
  · rw [hleader]
    simp only [reduceCtorEq, and_false, or_false]
    exact Iff.rfl
  · rw [hleader, hasCall_new hcall hadv.calls rfl (by rw [hstage]; rfl), ← h.calls.listed]
    exact Finset.mem_insert
  · rw [hstage]
    intro hne
    cases hne
  · rw [hchannel]
    refine hok.advance ?_ (fun _ => rfl) ?_ ?_
    all_goals
      rw [hstage]
      intro hne
      cases hne
  · rw [hchannel]
    exact hok

theorem Wf.register (h : Wf cfg leader m) (hcall : m.calls conn = some call)
    (hstage : call.stage = .listed) :
    StepOk cfg leader m act (m.register leader conn call) := by
  generalize hm' : m.register leader conn call = m'
  have hadv : Advances leader m m' conn call .registered := by
    subst hm'
    exact ⟨hcall, rfl, fun a ha => Function.update_of_ne ha _ _, rfl⟩
  have hleader : m'.nodes leader = (m.nodes leader).registerSocket call.addr conn := by
    rw [← hm']
    exact Function.update_self _ _ _
  have hchannel : m'.channel = m.channel := by rw [← hm']; rfl
  refine ⟨h.calls.advance hadv (hleader ▸ h.calls.role) (fun k => ?_) (fun b => ?_) ?_
      (fun _ => h.calls.trusted conn call hcall (by rw [hstage]; rfl)) (fun hne => by cases hne),
    h.nodes.advance h.calls hadv (fun joining hok => ?_) (fun k c hk _ joining hok => ?_)
      fun k hk => by rw [hchannel], hadv.quiet h.calls (by rw [hstage]; rfl) (by rw [hstage]; rfl)
      fun k c _ _ => by rw [hchannel], hadv.grows (fun _ => rfl) fun _ => rfl⟩
  · rw [hleader]
    simp only [Node.registerSocket, Finset.mem_insert, and_true]
    exact or_comm
  · rw [hleader]
    exact (h.calls.listed b).trans
      (hasCall_same hcall hadv.calls (by rw [hstage]; rfl)).symm
  · rw [hstage]
    intro hne
    cases hne
  · rw [hchannel]
    refine hok.advance ?_ (fun _ => rfl) ?_ ?_
    all_goals
      rw [hstage]
      intro hne
      cases hne
  · rw [hchannel]
    exact hok

theorem Wf.deliver (h : Wf cfg leader m) (hcall : m.calls conn = some call) {msg : JoinMessage}
    {rest : List JoinMessage} (hchannel : m.channel conn = msg :: rest)
    (hclient : (m.nodes call.addr).followerClient = some conn) :
    StepOk cfg leader m act (m.deliver conn call.addr msg rest) := by
  generalize hm' : m.deliver conn call.addr msg rest = m'
  have ha := h.calls.addr conn call hcall
  have hself : m'.nodes call.addr = (m.nodes call.addr).receive call.addr msg := by
    rw [← hm']
    exact Function.update_self _ _ _
  have hother : ∀ x, x ≠ call.addr → m'.nodes x = m.nodes x := by
    intro x hx
    rw [← hm']
    exact Function.update_of_ne hx _ _
  have hleader : m'.nodes leader = m.nodes leader := hother leader ha.symm
  have hcalls : m'.calls = m.calls := by rw [← hm']; rfl
  have hrest : m'.channel conn = rest := by
    rw [← hm']
    exact Function.update_self _ _ _
  have hchannels : ∀ k, k ≠ conn → m'.channel k = m.channel k := by
    intro k hk
    rw [← hm']
    exact Function.update_of_ne hk _ _
  have hkind : ∀ kind b, m'.HasCall kind b ↔ m.HasCall kind b := by
    intro kind b
    simp only [HasCall, hcalls]
  obtain ⟨_, hsame, -, hok⟩ := h.nodes.channel call.addr conn ha hclient
  obtain rfl := Option.some.inj (hcall.symm.trans hsame)
  clear hsame
  rw [hchannel] at hok
  -- either the node follows, or it is refused and closes the connection
  have hcases : (call.stage.isAnswered = true ∧
        ChannelOk leader call.stage (m'.nodes call.addr).joining rest ∧
        (m'.nodes call.addr).followerClient = some conn ∧
        m'.view leader conn call.addr = m.view leader conn call.addr) ∨
      (call.stage = .refused ∧ (m'.nodes call.addr).followerClient = none) := by
    by_cases hanswered : call.stage.isAnswered = true
    · obtain ⟨hok', hclient', hview⟩ := hok.receive call.addr hanswered
      refine Or.inl ⟨hanswered, ?_, ?_, ?_⟩
      · rw [hself]
        exact hok'
      · rw [hself, hclient', hclient]
      · simp only [view, hself, hrest, hchannel]
        exact hview
    · generalize hj : (m.nodes call.addr).joining = joining at hok
      generalize hs : call.stage = stage at hok hanswered
      cases hok with
      | replied hstage => exact absurd hstage hanswered
      | refused hleads =>
          refine Or.inr ⟨rfl, ?_⟩
          rw [hself]
          exact Node.receive_rejected call.addr hj _
      | following hstage => exact absurd hstage hanswered
  refine ⟨⟨hleader ▸ h.calls.role, ?_, ?_, ?_, hcalls ▸ h.calls.addr, hcalls ▸ h.calls.trusted,
    hcalls ▸ h.calls.refused⟩, ⟨fun k c hc htrust => ?_, fun x k hx hk => ?_, fun k hk => ?_⟩,
    .quiet (fun k c hfollows => ?_) (hkind _), ⟨fun k c hc => ?_⟩⟩
  · rw [hleader, hcalls]
    exact h.calls.sockets
  · intro b
    rw [hleader, h.calls.listed, hkind]
  · rw [hcalls, show m'.nextConn = m.nextConn by rw [← hm']; rfl]
    exact h.calls.fresh
  · rw [hcalls] at hc
    by_cases hca : c.addr = call.addr
    · rw [hca]
      rcases hcases with ⟨-, -, hsome, -⟩ | ⟨hrefused, -⟩
      · exact ⟨conn, hsome⟩
      · rw [hca, h.calls.refused conn call hcall hrefused] at htrust
        cases htrust
    · rw [hother _ hca]
      exact h.nodes.client k c hc htrust
  · rw [hcalls]
    by_cases hxa : x = call.addr
    · subst hxa
      rcases hcases with ⟨-, hok', hsome, -⟩ | ⟨-, hnone⟩
      · obtain rfl := Option.some.inj (hsome.symm.trans hk)
        rw [hrest]
        exact ⟨call, hcall, rfl, hok'⟩
      · rw [hnone] at hk
        cases hk
    · rw [hother x hxa] at hk ⊢
      obtain ⟨c, hc, rfl, hok'⟩ := h.nodes.channel x k hx hk
      refine ⟨c, hc, rfl, ?_⟩
      rw [hchannels k]
      · exact hok'
      · rintro rfl
        exact hxa (congrArg JoinCall.addr (Option.some.inj (hc.symm.trans hcall)))
  · rw [hcalls] at hk
    rw [hchannels k]
    · exact h.nodes.silent k hk
    · rintro rfl
      rw [hcall] at hk
      cases hk
  · obtain ⟨hc, hstage, hk⟩ := hfollows
    rw [hcalls] at hc
    by_cases hca : c.addr = call.addr
    · rw [hca] at hk ⊢
      rcases hcases with ⟨hanswered, -, hsome, hview⟩ | ⟨-, hnone⟩
      · obtain rfl := Option.some.inj (hsome.symm.trans hk)
        exact ⟨call, ⟨hcall, hanswered, hclient⟩, rfl, hview⟩
      · rw [hnone] at hk
        cases hk
    · rw [hother _ hca] at hk
      refine ⟨c, ⟨hc, hstage, hk⟩, rfl, ?_⟩
      simp only [view, hother _ hca]
      rw [hchannels k]
      rintro rfl
      exact hca (congrArg JoinCall.addr (Option.some.inj (hc.symm.trans hcall)))
  · exact ⟨c, hcalls ▸ hc, rfl, id, id⟩

theorem Wf.stepOk (h : Wf cfg leader m) (hstep : m.step cfg leader act = some m') :
    StepOk cfg leader m act m' := by
  cases act with
  | connect a term commitIndex =>
      simp only [step] at hstep
      split at hstep
      · cases hstep
      · next ha =>
          obtain rfl := Option.some.inj hstep
          exact h.connect ha term commitIndex
  | announce conn =>
      obtain ⟨call, hcall, hstage, rfl⟩ := whenAt_eq_some.1 hstep
      exact h.announce hcall hstage
  | answer conn =>
      obtain ⟨call, hcall, hstage, rfl⟩ := whenAt_eq_some.1 hstep
      exact h.answer hcall hstage
  | list conn =>
      obtain ⟨call, hcall, hstage, rfl⟩ := whenAt_eq_some.1 hstep
      exact h.list hcall hstage
  | register conn =>
      obtain ⟨call, hcall, hstage, rfl⟩ := whenAt_eq_some.1 hstep
      exact h.register hcall hstage
  | deliver conn =>
      simp only [step] at hstep
      split at hstep
      · next call msg rest hcall hchannel =>
          split at hstep
          · next hclient =>
              obtain rfl := Option.some.inj hstep
              exact h.deliver hcall hchannel hclient
          · cases hstep
      · cases hstep

/-- No node comes to know others than the announced ones. -/
theorem Wf.next (h : Wf cfg leader m) (hok : StepOk cfg leader m act m') :
    Wf cfg leader m' := by
  refine ⟨hok.calls, hok.nodes, fun k c hfollows b hb => ?_⟩
  cases hok.effect with
  | quiet hview hannounced =>
      obtain ⟨c₀, hold, haddr, hsame⟩ := hview k c hfollows
      rw [hsame, ← haddr] at hb
      rw [hannounced, ← haddr]
      exact h.sound k c₀ hold b hb
  | @announced conn call _ _ _ _ hview hannounced =>
      obtain ⟨hold, hsame⟩ := hview k c hfollows
      rw [hsame] at hb
      rw [hannounced]
      split at hb
      · next hnew =>
          rcases Finset.mem_insert.1 hb with rfl | hb
          · exact ⟨hnew.2, Or.inr (Or.inl rfl)⟩
          · obtain ⟨hne, hb⟩ := h.sound k c hold b hb
            exact ⟨hne, hb.imp_right Or.inr⟩
      · obtain ⟨hne, hb⟩ := h.sound k c hold b hb
        exact ⟨hne, hb.imp_right Or.inr⟩
  | @answered conn call _ _ hview hannounced =>
      rw [hannounced]
      rcases hview k c hfollows with ⟨hold, hsame⟩ | ⟨rfl, -, hsame⟩
      · rw [hsame] at hb
        exact h.sound k c hold b hb
      · rw [hsame] at hb
        obtain ⟨hne, hb⟩ := Finset.mem_erase.1 hb
        refine ⟨hne, (Finset.mem_insert.1 hb).imp_right fun hlist => ?_⟩
        obtain ⟨k', c', hc', haddr, hstage⟩ := (h.calls.listed b).1 hlist
        exact ⟨k', c', hc', haddr, by revert hstage; cases c'.stage <;> decide⟩

theorem Wf.init : Wf cfg leader {} := by
  refine ⟨⟨rfl, fun conn => ?_, fun b => ?_, fun _ _ => rfl, ?_, ?_, ?_⟩,
    ⟨?_, ?_, fun _ _ => rfl⟩, ?_⟩
  · refine iff_of_false (Finset.notMem_empty conn) ?_
    rintro ⟨call, hcall, -⟩
    cases hcall
  · refine iff_of_false (Finset.notMem_empty b) ?_
    rintro ⟨conn, call, hcall, -⟩
    cases hcall
  · intro conn call hcall
    cases hcall
  · intro conn call hcall
    cases hcall
  · intro conn call hcall
    cases hcall
  · intro conn call hcall
    cases hcall
  · intro a conn _ hclient
    cases hclient
  · rintro conn call ⟨hcall, -⟩
    cases hcall

end Steps

end Membership

end EyaKV.Raft
