import EyaKV.Raft.Votes

/-!
# Election safety

`VoteInv` says that a node remembers, in memory and on disk, the vote that it gave in its
current term, and gave none in a later one; hence it gives one candidate its vote in a
term. `CampaignInv` follows a candidacy: for each term a candidate sends one request to
each of the other members, each request brings at most one granted vote, and the counter
is the number of nodes whose vote has been counted, the candidate among them.
`election_safety` puts the two together.
-/

set_option autoImplicit false

namespace EyaKV.Raft

open EyaKV.Base EyaKV.Store

namespace Cluster

variable {cfg : RaftNodeConfig} {members : Nat → Finset Address} {c c' : Cluster}

section VoteInvariant

/-- The state remembers the vote, unless its term is later. -/
def Knows (s : PersistentState) (w : Vote) : Prop :=
  w.term ≤ s.currentTerm ∧ (w.term = s.currentTerm → s.votedFor = some w.peer)

theorem Knows.later {s s' : PersistentState} {w : Vote} (h : Knows s w) (hs : Later s s') :
    Knows s' w := by
  rcases hs with ⟨ht, hv⟩ | ht
  · exact ⟨ht ▸ h.1, fun heq => hv.trans (h.2 (heq.trans ht))⟩
  · have := h.1
    exact ⟨by omega, fun heq => absurd heq (by omega)⟩

/-- The votes are remembered in memory and on disk, and a node votes for one candidate in a
term. -/
structure VoteInv (c : Cluster) : Prop where
  memory : ∀ w ∈ c.history.votes, Knows (c.nodes w.voter).state w
  disk : ∀ w ∈ c.history.votes, Knows (c.nodes w.voter).disk w
  unique : ∀ w ∈ c.history.votes, ∀ w' ∈ c.history.votes,
    w.voter = w'.voter → w.term = w'.term → w.candidate = w'.candidate

theorem voteInv_init : VoteInv {} := by
  refine ⟨fun w hw => ?_, fun w hw => ?_, fun w hw => ?_⟩
  all_goals cases hw

/-- A step that gives no vote: the states are later ones than in memory or on the disk. -/
theorem voteInv_of_later (hinv : VoteInv c) (hvotes : c'.history.votes = c.history.votes)
    (hstate : ∀ x, Later (c.nodes x).state (c'.nodes x).state ∨
      Later (c.nodes x).disk (c'.nodes x).state)
    (hdisk : ∀ x, Later (c.nodes x).disk (c'.nodes x).disk ∨
      Later (c.nodes x).state (c'.nodes x).disk) : VoteInv c' := by
  refine ⟨fun w hw => ?_, fun w hw => ?_, fun w hw w' hw' => ?_⟩
  · rw [hvotes] at hw
    rcases hstate w.voter with h | h
    · exact (hinv.memory w hw).later h
    · exact (hinv.disk w hw).later h
  · rw [hvotes] at hw
    rcases hdisk w.voter with h | h
    · exact (hinv.disk w hw).later h
    · exact (hinv.memory w hw).later h
  · rw [hvotes] at hw hw'
    exact hinv.unique w hw w' hw'

theorem voteInv_quiet (hinv : VoteInv c) (hquiet : QuietStep c c') : VoteInv c' :=
  voteInv_of_later hinv hquiet.votes (fun x => Or.inl (hquiet.nodes x).state)
    fun x => (hquiet.nodes x).disk

/-- A step in which the node `v.voter` gives the vote `v`, which it saves. The votes that it
gave in this term before are for the same candidate. -/
theorem voteInv_vote (v : Vote) {n : Node} (hinv : VoteInv c)
    (hnodes : c'.nodes = Function.update c.nodes v.voter n)
    (hvotes : c'.history.votes = v :: c.history.votes) (hsaved : n.disk = n.state)
    (hterm : (c.nodes v.voter).state.currentTerm ≤ v.term)
    (hstate : n.state.currentTerm = v.term ∧ n.state.votedFor = some v.peer)
    (hsame : ∀ w ∈ c.history.votes, w.voter = v.voter → w.term = v.term →
      w.peer = v.peer ∧ w.candidate = v.candidate) : VoteInv c' := by
  have hold : ∀ w ∈ c.history.votes, w.voter = v.voter → Knows n.state w := by
    intro w hw hvoter
    have hknown := hinv.memory w hw
    rw [hvoter] at hknown
    refine ⟨by have := hknown.1; omega, fun heq => ?_⟩
    rw [(hsame w hw hvoter (heq.trans hstate.1)).1]
    exact hstate.2
  have hnew : Knows n.state v := ⟨hstate.1.ge, fun _ => hstate.2⟩
  have hall : ∀ w ∈ c'.history.votes, Knows (c'.nodes w.voter).state w ∧
      Knows (c'.nodes w.voter).disk w := by
    intro w hw
    rw [hvotes, List.mem_cons] at hw
    rw [hnodes, Function.update_apply]
    rcases hw with rfl | hw
    · rw [if_pos rfl, hsaved]
      exact ⟨hnew, hnew⟩
    · split
      · next hvoter =>
          rw [hsaved]
          exact ⟨hold w hw hvoter, hold w hw hvoter⟩
      · exact ⟨hinv.memory w hw, hinv.disk w hw⟩
  refine ⟨fun w hw => (hall w hw).1, fun w hw => (hall w hw).2, fun w hw w' hw' hv ht => ?_⟩
  rw [hvotes, List.mem_cons] at hw hw'
  rcases hw with rfl | hw
  · rcases hw' with rfl | hw'
    · rfl
    · exact (hsame w' hw' hv.symm ht.symm).2.symm
  · rcases hw' with rfl | hw'
    · exact (hsame w hw hv ht).2
    · exact hinv.unique w hw w' hw' hv ht

/-- The state of a node after `become_candidate`. -/
theorem becomeCandidate_spec (n : Node) (self : Address) :
    (n.becomeCandidate self).state.currentTerm = (n.state.currentTerm + 1) % 2 ^ 32 ∧
    (n.becomeCandidate self).state.votedFor = some self.loopback ∧
    (n.becomeCandidate self).disk = (n.becomeCandidate self).state ∧
    (n.becomeCandidate self).grantedVotes = 1 ∧
    (n.becomeCandidate self).election = .candidacy := by
  unfold Node.becomeCandidate Node.toCandidate
  simp only
  split
  · exact ⟨rfl, rfl, rfl, rfl, rfl⟩
  · exact ⟨rfl, rfl, rfl, rfl, rfl⟩

/-- The term counts up, unless it comes round. -/
theorem becomeCandidate_term {n : Node} (h : n.state.currentTerm + 1 < 2 ^ 32) (self : Address) :
    (n.becomeCandidate self).state.currentTerm = n.state.currentTerm + 1 :=
  (becomeCandidate_spec n self).1.trans (Nat.mod_eq_of_lt h)

/-- What `handle_request_vote` can do: refuse, perhaps in a new term; or grant the vote in
the term of the request, for which it has no other vote. -/
theorem handleRequestVote_cases (n : Node) (msg : Node.RequestVote) (peer : Address) :
    (Quiet n (n.handleRequestVote msg peer).1 ∧ (n.handleRequestVote msg peer).2.2 = false) ∨
    (n.state.currentTerm ≤ msg.term ∧
      (n.state.currentTerm = msg.term →
        n.state.votedFor = none ∨ n.state.votedFor = some peer) ∧
      (n.handleRequestVote msg peer).1.state.currentTerm = msg.term ∧
      (n.handleRequestVote msg peer).1.state.votedFor = some peer ∧
      (n.handleRequestVote msg peer).1.disk = (n.handleRequestVote msg peer).1.state ∧
      (n.handleRequestVote msg peer).2 = (msg.term, true) ∧
      (n.handleRequestVote msg peer).1.election = n.election ∧
      ((n.handleRequestVote msg peer).1.role = .candidate →
        n.role = .candidate ∧ n.state.currentTerm = msg.term ∧
          (n.handleRequestVote msg peer).1.grantedVotes = n.grantedVotes)) := by
  unfold Node.handleRequestVote
  split
  · exact Or.inl ⟨.rfl, rfl⟩
  · next hlow =>
      by_cases hterm : n.state.currentTerm < msg.term
      · have hraise : Quiet n (n.adoptTerm msg.term).savePersistentState.toFollower :=
          .of_raise hterm (Or.inr rfl) (by intro h; cases h) id
        simp only [hterm, ↓reduceIte]
        split
        · refine Or.inr ⟨hterm.le, fun h => absurd h (by omega), rfl, rfl, rfl, rfl, rfl,
            fun h => ?_⟩
          cases h
        · exact Or.inl ⟨hraise, rfl⟩
      · have heq : n.state.currentTerm = msg.term := by omega
        simp only [hterm, ↓reduceIte]
        split
        · next h =>
            exact Or.inr ⟨heq.le, fun _ => h.1, heq, rfl, rfl, by rw [heq], rfl,
              fun hc => ⟨hc, heq, rfl⟩⟩
        · exact Or.inl ⟨.rfl, rfl⟩

theorem voteInv_requestVote (hinv : VoteInv c) {b : Ballot} {peer : Address}
    (hpeer : ∀ w ∈ c.history.votes, w.voter = b.voter → w.term = b.msg.term →
      w.peer = peer → w.candidate = b.candidate) : VoteInv (c.requestVote b peer) := by
  rcases handleRequestVote_cases (c.nodes b.voter) b.msg peer with
    ⟨hquiet, hrefused⟩ | ⟨hle, hfree, hterm, hvote, hsaved, hgranted, -, -⟩
  · refine voteInv_of_later hinv ?_ (fun x => Or.inl ?_) fun x => ?_
    · simp only [requestVote, hrefused, Bool.false_eq_true, ↓reduceIte]
    · simp only [requestVote, setNode_nodes]
      split
      · next h => exact h ▸ hquiet.state
      · exact Later.rfl
    · simp only [requestVote, setNode_nodes]
      split
      · next h => exact h ▸ hquiet.disk
      · exact Or.inl Later.rfl
  · refine voteInv_vote ⟨b.voter, b.msg.term, b.candidate, peer⟩ hinv rfl ?_ hsaved hle
      ⟨hterm, hvote⟩ fun w hw hvoter hwterm => ?_
    · simp only [requestVote, hgranted, ↓reduceIte]
    · have hknown := hinv.memory w hw
      rw [hvoter] at hknown
      have hsame : w.term = (c.nodes b.voter).state.currentTerm := by
        exact Nat.le_antisymm hknown.1 (hle.trans hwterm.ge)
      have hpeers : w.peer = peer := by
        have hvoted := hknown.2 hsame
        rcases hfree (hsame.symm.trans hwterm) with h | h
        · rw [h] at hvoted
          cases hvoted
        · rw [h] at hvoted
          exact (Option.some.inj hvoted).symm
      exact ⟨hpeers, hpeer w hw hvoter hwterm hpeers⟩

/-- Counting a vote changes neither the term nor the vote of a candidate that keeps its
term. -/
theorem handleRequestVoteResponse_later (n : Node) (term : Nat) (granted : Bool) :
    Later n.state (n.handleRequestVoteResponse term granted).state ∧
      (Later n.disk (n.handleRequestVoteResponse term granted).disk ∨
        Later n.state (n.handleRequestVoteResponse term granted).disk) := by
  unfold Node.handleRequestVoteResponse
  split
  · exact ⟨.rfl, Or.inl .rfl⟩
  · split
    · next h => exact ⟨Or.inr h, Or.inr (Or.inr h)⟩
    · split
      · exact ⟨.rfl, Or.inl .rfl⟩
      · split
        · simp only
          split
          · exact ⟨Or.inl ⟨rfl, rfl⟩, Or.inr (Or.inl ⟨rfl, rfl⟩)⟩
          · exact ⟨.rfl, Or.inl .rfl⟩
        · exact ⟨.rfl, Or.inl .rfl⟩

theorem voteInv_step {act : Action} (hinv : VoteInv c) (hmeets : VoteMeets members c act)
    (hstep : c.step cfg act = some c') : VoteInv c' := by
  by_cases helects : Elects act
  · cases act with
    | becomeCandidate a =>
        obtain ⟨-, rfl⟩ := of_guard hstep
        obtain ⟨-, hvote, hsaved, -, -⟩ := becomeCandidate_spec (c.nodes a) a
        have hterm := becomeCandidate_term hmeets a
        -- the vote for itself is in a new term, for which it has not voted before
        refine voteInv_vote ⟨a, ((c.nodes a).becomeCandidate a).state.currentTerm, a, a.loopback⟩
          hinv rfl rfl hsaved (by simp only; omega) ⟨rfl, hvote⟩ fun w hw hvoter hwterm => ?_
        have hknown := (hinv.memory w hw).1
        simp only at hvoter hwterm
        rw [hvoter] at hknown
        omega
    | sendRequestVote a =>
        simp only [step] at hstep
        split at hstep
        · obtain rfl := Option.some.inj hstep
          refine voteInv_of_later hinv rfl (fun x => Or.inl ?_) fun x => Or.inl ?_
          · simp only [sendRequestVote, setNode_nodes]
            split
            · next h => exact h ▸ Later.rfl
            · exact Later.rfl
          · simp only [sendRequestVote, setNode_nodes]
            split
            · next h => exact h ▸ Later.rfl
            · exact Later.rfl
        · cases hstep
    | requestVote b peer =>
        obtain ⟨-, rfl⟩ := of_guard hstep
        exact voteInv_requestVote hinv hmeets
    | voteReply r =>
        obtain ⟨-, rfl⟩ := of_guard hstep
        obtain ⟨hstate, hdisk⟩ := handleRequestVoteResponse_later (c.nodes r.candidate) r.term
          r.voteGranted
        refine voteInv_of_later hinv rfl (fun x => Or.inl ?_) fun x => ?_
        · simp only [voteReply, setNode_nodes]
          split
          · next h => exact h ▸ hstate
          · exact Later.rfl
        · simp only [voteReply, setNode_nodes]
          split
          · next h => exact h ▸ hdisk
          · exact Or.inl Later.rfl
    | restart a found =>
        obtain rfl := Option.some.inj hstep
        refine voteInv_of_later hinv rfl (fun x => ?_) fun x => Or.inl ?_
        · simp only [setNode_nodes]
          split
          · next h => exact h ▸ Or.inr (Or.inl ⟨rfl, rfl⟩)
          · exact Or.inl Later.rfl
        · simp only [setNode_nodes]
          split
          · next h => exact h ▸ Later.rfl
          · exact Later.rfl
    | _ => exact absurd helects id
  · exact voteInv_quiet hinv (step_quiet helects hmeets hstep)

end VoteInvariant

section CampaignInvariant

/-- The nodes vote for `a` in the term `t`. -/
def VotedFor (c : Cluster) (a : Address) (t : Nat) (v : Address) : Prop :=
  ∃ w ∈ c.history.votes, w.voter = v ∧ w.term = t ∧ w.candidate = a

/-- A request of the campaign `conn`, or the vote that it brought, is under way. -/
def Outstanding (c : Cluster) (conn : Conn) (a v : Address) (t : Nat) : Prop :=
  (∃ b ∈ c.net.ballots, b.conn = conn ∧ b.candidate = a ∧ b.voter = v ∧ b.msg.term = t) ∨
    ∃ r ∈ c.net.voteReplies, r.voteGranted = true ∧ r.conn = conn ∧ r.candidate = a ∧
      r.voter = v ∧ r.term = t

/-- At most one request or vote of a campaign is under way for a voter. -/
structure OncePerVoter (net : Network) : Prop where
  ballots : ∀ b ∈ net.ballots, ∀ b' ∈ net.ballots, b.conn = b'.conn → b.voter = b'.voter → b = b'
  replies : ∀ r ∈ net.voteReplies, ∀ r' ∈ net.voteReplies, r.voteGranted = true →
    r'.voteGranted = true → r.conn = r'.conn → r.voter = r'.voter → r = r'
  exclusive : ∀ b ∈ net.ballots, ∀ r ∈ net.voteReplies, r.voteGranted = true →
    b.conn = r.conn → b.voter ≠ r.voter

/-- The counter of a candidate is the number of the votes it has, its own included, and
none of the counted votes can be counted again. -/
structure CandidateOk (members : Nat → Finset Address) (c : Cluster) (a : Address) : Prop where
  granted : (c.nodes a).grantedVotes = (c.history.counted a).card + 1
  self : VotedFor c a (c.nodes a).state.currentTerm a
  member : ∀ v ∈ c.history.counted a, v ∈ (members (c.nodes a).state.currentTerm).erase a
  voted : ∀ v ∈ c.history.counted a, VotedFor c a (c.nodes a).state.currentTerm v
  once : ∀ v ∈ c.history.counted a, ∀ conn, c.started a ≤ conn →
    ¬ Outstanding c conn a v (c.nodes a).state.currentTerm
  fresh : (c.nodes a).election.Pending → c.history.counted a = ∅

/-- An election was won with the votes of a majority of the members of its term. -/
structure ElectionOk (members : Nat → Finset Address) (c : Cluster) (e : Election) : Prop where
  leader : e.leader ∈ members e.term
  clusterNodes : e.clusterNodes = (members e.term).erase e.leader
  voters : e.voters ⊆ e.clusterNodes
  majority : e.clusterNodes.card + 1 < 2 * (e.voters.card + 1)
  voted : ∀ v ∈ insert e.leader e.voters, VotedFor c e.leader e.term v

/-- The invariant of the campaigns. -/
structure CampaignInv (members : Nat → Finset Address) (c : Cluster) : Prop where
  started : ∀ a, c.started a ≤ c.nextConn
  known : ∀ conn a v t, Outstanding c conn a v t → conn < c.nextConn
  once : OncePerVoter c.net
  term : ∀ conn a v t, Outstanding c conn a v t → c.started a ≤ conn →
    t ≤ (c.nodes a).state.currentTerm ∧
      ((c.nodes a).election.Pending → t < (c.nodes a).state.currentTerm) ∧
        v ∈ (members t).erase a
  same : ∀ conn conn' a v v' t, Outstanding c conn a v t → Outstanding c conn' a v' t →
    c.started a ≤ conn → c.started a ≤ conn' → conn = conn'
  granted : ∀ r ∈ c.net.voteReplies, r.voteGranted = true → VotedFor c r.candidate r.term r.voter
  candidate : ∀ a, (c.nodes a).role = .candidate → CandidateOk members c a
  elections : ∀ e ∈ c.history.elections, ElectionOk members c e

theorem campaignInv_init : CampaignInv members {} := by
  have hout : ∀ conn a v t, ¬ Outstanding {} conn a v t := by
    rintro conn a v t (⟨b, hb, -⟩ | ⟨r, hr, -⟩)
    · cases hb
    · cases hr
  refine ⟨fun a => Nat.le_refl 1, fun conn a v t h => absurd h (hout _ _ _ _), ⟨?_, ?_, ?_⟩,
    fun conn a v t h => absurd h (hout _ _ _ _), fun conn conn' a v v' t h => absurd h (hout _ _ _ _),
    fun r hr => absurd hr (Finset.notMem_empty r), fun a ha => ?_, fun e he => ?_⟩
  · exact fun b hb => absurd hb (Finset.notMem_empty b)
  · exact fun r hr => absurd hr (Finset.notMem_empty r)
  · exact fun b hb => absurd hb (Finset.notMem_empty b)
  · cases ha
  · cases he

theorem VotedFor.mono {a v : Address} {t : Nat} (h : VotedFor c a t v)
    (hvotes : ∀ w ∈ c.history.votes, w ∈ c'.history.votes) : VotedFor c' a t v := by
  obtain ⟨w, hw, h⟩ := h
  exact ⟨w, hvotes w hw, h⟩

theorem ElectionOk.mono {e : Election} (h : ElectionOk members c e)
    (hvotes : ∀ w ∈ c.history.votes, w ∈ c'.history.votes) : ElectionOk members c' e :=
  ⟨h.leader, h.clusterNodes, h.voters, h.majority, fun v hv => (h.voted v hv).mono hvotes⟩

/-- A candidate whose node changes steadily stays as it is. -/
theorem CandidateOk.steady {a : Address} (h : CandidateOk members c a)
    (hnode : Steady (c.nodes a) (c'.nodes a)) (hrole : (c'.nodes a).role = .candidate)
    (hvotes : ∀ w ∈ c.history.votes, w ∈ c'.history.votes)
    (hcounted : c'.history.counted a = c.history.counted a)
    (hout : ∀ v ∈ c.history.counted a, ∀ conn t, c'.started a ≤ conn →
      Outstanding c' conn a v t → c.started a ≤ conn ∧ Outstanding c conn a v t) :
    CandidateOk members c' a := by
  obtain ⟨-, hterm, hgranted⟩ := hnode.candidate hrole
  refine ⟨?_, ?_, fun v hv => ?_, fun v hv => ?_, fun v hv conn hconn h' => ?_, fun hp => ?_⟩
  · rw [hgranted, hcounted, h.granted]
  · rw [hterm]
    exact h.self.mono hvotes
  · rw [hcounted] at hv
    rw [hterm]
    exact h.member v hv
  · rw [hcounted] at hv
    rw [hterm]
    exact (h.voted v hv).mono hvotes
  · rw [hcounted] at hv
    rw [hterm] at h'
    obtain ⟨hlive, hold⟩ := hout v hv conn _ hconn h'
    exact h.once v hv conn hlive hold
  · rw [hcounted]
    exact h.fresh (hnode.pending hp)

/-- A step in which every node changes steadily and nothing new is under way. -/
theorem campaignInv_steady (hinv : CampaignInv members c)
    (hnodes : ∀ x, Steady (c.nodes x) (c'.nodes x)) (honce : OncePerVoter c'.net)
    (hout : ∀ conn a v t, Outstanding c' conn a v t → Outstanding c conn a v t)
    (hgranted : ∀ r ∈ c'.net.voteReplies, r.voteGranted = true →
      VotedFor c' r.candidate r.term r.voter)
    (hvotes : ∀ w ∈ c.history.votes, w ∈ c'.history.votes)
    (hcounted : c'.history.counted = c.history.counted)
    (helections : c'.history.elections = c.history.elections)
    (hstarted : c'.started = c.started) (hnext : c.nextConn ≤ c'.nextConn) :
    CampaignInv members c' := by
  refine ⟨fun a => ?_, fun conn a v t h => ?_, honce, fun conn a v t h hlive => ?_,
    fun conn conn' a v v' t h h' hlive hlive' => ?_, hgranted, fun a ha => ?_, fun e he => ?_⟩
  · rw [hstarted]
    exact (hinv.started a).trans hnext
  · exact lt_of_lt_of_le (hinv.known conn a v t (hout _ _ _ _ h)) hnext
  · rw [hstarted] at hlive
    obtain ⟨hle, hpending, hmember⟩ := hinv.term conn a v t (hout _ _ _ _ h) hlive
    have hterm := (hnodes a).term
    exact ⟨hle.trans hterm, fun hp => lt_of_lt_of_le (hpending ((hnodes a).pending hp)) hterm,
      hmember⟩
  · rw [hstarted] at hlive hlive'
    exact hinv.same conn conn' a v v' t (hout _ _ _ _ h) (hout _ _ _ _ h') hlive hlive'
  · exact (hinv.candidate a ((hnodes a).candidate ha).1).steady (hnodes a) ha hvotes
      (by rw [hcounted]) fun v _ conn t hlive h => ⟨hstarted ▸ hlive, hout _ _ _ _ h⟩
  · rw [helections] at he
    exact (hinv.elections e he).mono hvotes

theorem campaignInv_quiet (hinv : CampaignInv members c) (hquiet : QuietStep c c') :
    CampaignInv members c' := by
  have hnet : ∀ conn a v t, Outstanding c' conn a v t → Outstanding c conn a v t := by
    intro conn a v t h
    rw [Outstanding, hquiet.ballots, hquiet.voteReplies] at h
    exact h
  have hvotes : ∀ w ∈ c.history.votes, w ∈ c'.history.votes := by
    intro w hw
    rw [hquiet.votes]
    exact hw
  refine campaignInv_steady hinv (fun x => (hquiet.nodes x).steady) ⟨?_, ?_, ?_⟩ hnet
    (fun r hr hg => ?_) hvotes hquiet.counted hquiet.elections hquiet.started hquiet.nextConn
  · rw [hquiet.ballots]
    exact hinv.once.ballots
  · rw [hquiet.voteReplies]
    exact hinv.once.replies
  · rw [hquiet.ballots, hquiet.voteReplies]
    exact hinv.once.exclusive
  · rw [hquiet.voteReplies] at hr
    exact (hinv.granted r hr hg).mono hvotes

/-- A node becomes a candidate with its own vote, before any request of its new term. -/
theorem campaignInv_becomeCandidate (hinv : CampaignInv members c) (a : Address)
    (hmeets : (c.nodes a).state.currentTerm + 1 < 2 ^ 32) :
    CampaignInv members (c.becomeCandidate a) := by
  obtain ⟨-, -, -, hgranted, -⟩ := becomeCandidate_spec (c.nodes a) a
  have hterm := becomeCandidate_term hmeets a
  have hself : (c.becomeCandidate a).nodes a = (c.nodes a).becomeCandidate a :=
    Function.update_self _ _ _
  have hnodes : ∀ x, x ≠ a → (c.becomeCandidate a).nodes x = c.nodes x := fun x hx =>
    Function.update_of_ne hx _ _
  have hvotes : ∀ w ∈ c.history.votes, w ∈ (c.becomeCandidate a).history.votes := fun w hw =>
    List.mem_cons_of_mem _ hw
  refine ⟨hinv.started, hinv.known, hinv.once, fun conn x v t h hlive => ?_, hinv.same,
    fun r hr hg => (hinv.granted r hr hg).mono hvotes, fun x hx => ?_,
    fun e he => (hinv.elections e he).mono hvotes⟩
  · obtain ⟨hle, hpending, hmember⟩ := hinv.term conn x v t h hlive
    by_cases hxa : x = a
    · subst hxa
      rw [hself, hterm]
      exact ⟨by omega, fun _ => by omega, hmember⟩
    · rw [hnodes x hxa]
      exact ⟨hle, hpending, hmember⟩
  · by_cases hxa : x = a
    · subst hxa
      have hcounted : (c.becomeCandidate x).history.counted x = ∅ := Function.update_self _ _ _
      have hnone : ∀ v, v ∉ (c.becomeCandidate x).history.counted x := by
        intro v
        rw [hcounted]
        exact Finset.notMem_empty v
      refine ⟨?_, ⟨_, List.mem_cons_self, rfl, ?_, rfl⟩, fun v hv => absurd hv (hnone v),
        fun v hv => absurd hv (hnone v), fun v hv => absurd hv (hnone v), fun _ => hcounted⟩
      · rw [hself, hgranted, hcounted, Finset.card_empty]
      · rw [hself]
    · rw [hnodes x hxa] at hx
      refine (hinv.candidate x hx).steady ?_ (by rw [hnodes x hxa]; exact hx) hvotes
        (Function.update_of_ne hxa _ _) fun v _ conn t hlive h => ⟨hlive, h⟩
      rw [hnodes x hxa]
      exact .rfl

/-- The requests of a campaign: one for each other member of the term. -/
theorem outstanding_sendRequestVote {a : Address} {i t : Nat} {conn : Conn} {x v : Address}
    {term : Nat} :
    Outstanding (c.sendRequestVote a i t) conn x v term ↔ Outstanding c conn x v term ∨
      conn = c.nextConn ∧ x = a ∧ v ∈ (c.nodes a).state.clusterNodes ∧
        term = (c.nodes a).state.currentTerm := by
  simp only [Outstanding, sendRequestVote, Finset.mem_union, Finset.mem_image]
  constructor
  · rintro (⟨b, hb | ⟨w, hw, rfl⟩, rfl, rfl, rfl, rfl⟩ | h)
    · exact Or.inl (Or.inl ⟨b, hb, rfl, rfl, rfl, rfl⟩)
    · exact Or.inr ⟨rfl, rfl, hw, rfl⟩
    · exact Or.inl (Or.inr h)
  · rintro ((⟨b, hb, h⟩ | h) | ⟨rfl, rfl, hv, rfl⟩)
    · exact Or.inl ⟨b, Or.inl hb, h⟩
    · exact Or.inr h
    · exact Or.inl ⟨_, Or.inr ⟨v, hv, rfl⟩, rfl, rfl, rfl, rfl⟩

theorem campaignInv_sendRequestVote (hinv : CampaignInv members c) {a : Address} {i t : Nat}
    (hphase : (c.nodes a).election.Pending)
    (hview : (c.nodes a).state.clusterNodes =
      (members (c.nodes a).state.currentTerm).erase a) :
    CampaignInv members (c.sendRequestVote a i t) := by
  have hsteady : ∀ x, Steady (c.nodes x) ((c.sendRequestVote a i t).nodes x) := by
    intro x
    simp only [sendRequestVote, setNode_nodes]
    split
    · next h => exact h ▸ ⟨Nat.le_refl _, fun hp => hp.elim, fun hc => ⟨hc, rfl, rfl⟩⟩
    · exact .rfl
  have hterm : ((c.sendRequestVote a i t).nodes a).state.currentTerm =
      (c.nodes a).state.currentTerm := by
    simp only [sendRequestVote, setNode_nodes, ↓reduceIte]
  have hwaiting : ¬ ((c.sendRequestVote a i t).nodes a).election.Pending := by
    simp only [sendRequestVote, setNode_nodes, ↓reduceIte]
    exact id
  -- the ballots go out on a connection that no earlier message knows
  have hnewConn : ∀ b ∈ c.net.ballots, b.conn ≠ c.nextConn := fun b hb =>
    Nat.ne_of_lt (hinv.known _ _ _ _ (Or.inl ⟨b, hb, rfl, rfl, rfl, rfl⟩))
  have hmem : ∀ b, b ∈ (c.sendRequestVote a i t).net.ballots ↔ b ∈ c.net.ballots ∨
      ∃ v ∈ (c.nodes a).state.clusterNodes,
        ⟨c.nextConn, a, v, ⟨(c.nodes a).state.currentTerm, i, t⟩⟩ = b := by
    intro b
    simp only [sendRequestVote, Finset.mem_union, Finset.mem_image]
  refine ⟨fun x => (hinv.started x).trans (Nat.le_succ _), fun conn x v term h => ?_,
    ⟨fun b hb b' hb' hconn hvoter => ?_, hinv.once.replies, fun b hb r hr hg hconn hvoter => ?_⟩,
    fun conn x v term h hlive => ?_, fun conn conn' x v v' term h h' hlive hlive' => ?_,
    hinv.granted, fun x hx => ?_, fun e he => (hinv.elections e he).mono fun w hw => hw⟩
  · rcases outstanding_sendRequestVote.1 h with h | ⟨rfl, -⟩
    · exact (hinv.known _ _ _ _ h).trans (Nat.lt_succ_self _)
    · exact Nat.lt_succ_self _
  · rw [hmem] at hb hb'
    rcases hb with hb | ⟨w, hw, rfl⟩
    · rcases hb' with hb' | ⟨w', hw', rfl⟩
      · exact hinv.once.ballots b hb b' hb' hconn hvoter
      · exact absurd hconn (hnewConn b hb)
    · rcases hb' with hb' | ⟨w', hw', rfl⟩
      · exact absurd hconn.symm (hnewConn b' hb')
      · rw [show w = w' from hvoter]
  · rw [hmem] at hb
    rcases hb with hb | ⟨w, hw, rfl⟩
    · exact hinv.once.exclusive b hb r hr hg hconn hvoter
    · have := hinv.known _ _ _ _ (Or.inr ⟨r, hr, hg, rfl, rfl, rfl, rfl⟩)
      exact absurd hconn.symm (Nat.ne_of_lt this)
  · rcases outstanding_sendRequestVote.1 h with h | ⟨rfl, rfl, hv, rfl⟩
    · obtain ⟨hle, hpending, hmember⟩ := hinv.term conn x v term h hlive
      exact ⟨hle.trans (hsteady x).term,
        fun hp => lt_of_lt_of_le (hpending ((hsteady x).pending hp)) (hsteady x).term, hmember⟩
    · exact ⟨hterm.ge, fun hp => absurd hp hwaiting, hview ▸ hv⟩
  · -- while the campaign is pending, none of its ballots is outstanding
    have hold : ∀ conn v, c.started a ≤ conn →
        ¬ Outstanding c conn a v (c.nodes a).state.currentTerm := fun conn v hlive h =>
      absurd ((hinv.term conn a v _ h hlive).2.1 hphase) (lt_irrefl _)
    rcases outstanding_sendRequestVote.1 h with hout | ⟨hconn, hx, -, hterm⟩
    · rcases outstanding_sendRequestVote.1 h' with hout' | ⟨-, hx, -, hterm⟩
      · exact hinv.same conn conn' x v v' term hout hout' hlive hlive'
      · rw [hx] at hlive
        rw [hx, hterm] at hout
        exact absurd hout (hold conn v hlive)
    · rcases outstanding_sendRequestVote.1 h' with hout' | ⟨hconn', -⟩
      · rw [hx] at hlive'
        rw [hx, hterm] at hout'
        exact absurd hout' (hold conn' v' hlive')
      · rw [hconn, hconn']
  · have hold := hinv.candidate x ((hsteady x).candidate hx).1
    refine hold.steady (hsteady x) hx (fun w hw => hw) rfl fun v hv conn term hlive h => ?_
    rcases outstanding_sendRequestVote.1 h with h | ⟨-, rfl, -, -⟩
    · exact ⟨hlive, h⟩
    · -- nor has a vote been counted
      rw [hold.fresh hphase] at hv
      exact absurd hv (Finset.notMem_empty v)

theorem steady_requestVote (b : Ballot) (peer x : Address) :
    Steady (c.nodes x) ((c.requestVote b peer).nodes x) := by
  simp only [requestVote, setNode_nodes]
  split
  · next h =>
      subst h
      rcases handleRequestVote_cases (c.nodes b.voter) b.msg peer with
        ⟨hquiet, -⟩ | ⟨hle, -, hterm, -, -, -, hphase, hrole⟩
      · exact hquiet.steady
      · refine ⟨by omega, fun hp => hphase ▸ hp, fun hc => ?_⟩
        obtain ⟨hr, ht, hg⟩ := hrole hc
        exact ⟨hr, hterm.trans ht.symm, hg⟩
  · exact .rfl

/-- A granted vote takes the place of its request. -/
theorem outstanding_requestVote {b : Ballot} (hb : b ∈ c.net.ballots) {peer : Address}
    {conn : Conn} {x v : Address} {t : Nat}
    (h : Outstanding (c.requestVote b peer) conn x v t) : Outstanding c conn x v t := by
  rcases h with ⟨b', hb', h⟩ | ⟨r, hr, hg, h⟩
  · exact Or.inl ⟨b', Finset.mem_of_mem_erase hb', h⟩
  · simp only [requestVote, Finset.mem_insert] at hr
    rcases hr with rfl | hr
    · rcases handleRequestVote_cases (c.nodes b.voter) b.msg peer with
        ⟨-, hrefused⟩ | ⟨-, -, -, -, -, hgranted, -, -⟩
      · rw [hrefused] at hg
        cases hg
      · obtain ⟨rfl, rfl, rfl, rfl⟩ := h
        exact Or.inl ⟨b, hb, rfl, rfl, rfl, by rw [hgranted]⟩
    · exact Or.inr ⟨r, hr, hg, h⟩

theorem campaignInv_requestVote (hinv : CampaignInv members c) {b : Ballot}
    (hb : b ∈ c.net.ballots) (peer : Address) :
    CampaignInv members (c.requestVote b peer) := by
  have hvotes : ∀ w ∈ c.history.votes, w ∈ (c.requestVote b peer).history.votes := by
    intro w hw
    simp only [requestVote]
    split
    · exact List.mem_cons_of_mem _ hw
    · exact hw
  -- the reply takes the place of the ballot, on its connection and with its voter
  have hmem : ∀ r ∈ (c.requestVote b peer).net.voteReplies,
      (r.conn = b.conn ∧ r.voter = b.voter) ∨ r ∈ c.net.voteReplies := by
    intro r hr
    simp only [requestVote, Finset.mem_insert] at hr
    rcases hr with rfl | hr
    · exact Or.inl ⟨rfl, rfl⟩
    · exact Or.inr hr
  refine campaignInv_steady hinv (steady_requestVote b peer)
    ⟨fun b₁ h₁ b₂ h₂ => ?_, fun r hr r' hr' hg hg' hconn hvoter => ?_,
      fun b₁ h₁ r hr hg hconn hvoter => ?_⟩
    (fun conn x v t h => outstanding_requestVote hb h) (fun r hr hg => ?_) hvotes rfl rfl rfl
    (Nat.le_refl _)
  · exact hinv.once.ballots b₁ (Finset.mem_of_mem_erase h₁) b₂ (Finset.mem_of_mem_erase h₂)
  · simp only [requestVote, Finset.mem_insert] at hr hr'
    rcases hr with rfl | hr
    · rcases hr' with rfl | hr'
      · rfl
      · exact absurd hvoter (hinv.once.exclusive b hb r' hr' hg' hconn)
    · rcases hr' with rfl | hr'
      · exact absurd hvoter.symm (hinv.once.exclusive b hb r hr hg hconn.symm)
      · exact hinv.once.replies r hr r' hr' hg hg' hconn hvoter
  · have h₁' := Finset.mem_of_mem_erase h₁
    rcases hmem r hr with ⟨hc, hv⟩ | hr
    · have := hinv.once.ballots b₁ h₁' b hb (hconn.trans hc) (hvoter.trans hv)
      exact absurd this (Finset.ne_of_mem_erase h₁)
    · exact hinv.once.exclusive b₁ h₁' r hr hg hconn hvoter
  · simp only [requestVote, Finset.mem_insert] at hr
    rcases hr with rfl | hr
    · -- a granted reply is backed by the vote that the voter has just noted
      refine ⟨⟨b.voter, _, b.candidate, peer⟩, ?_, rfl, rfl, rfl⟩
      simp only at hg
      simp only [requestVote, hg, ↓reduceIte]
      exact List.mem_cons_self
    · exact (hinv.granted r hr hg).mono hvotes

/-- A response that is not counted ends a candidacy or changes nothing. -/
theorem steady_handleRequestVoteResponse {n : Node} {r : VoteReply} (h : ¬ Counts n r) :
    Steady n (n.handleRequestVoteResponse r.term r.voteGranted) := by
  unfold Node.handleRequestVoteResponse
  split
  · exact .rfl
  · split
    · next hlt =>
        have hquiet : Quiet n (n.adoptTerm r.term).savePersistentState.toFollower :=
          .of_raise hlt (Or.inr rfl) (by intro h; cases h) id
        exact hquiet.steady
    · split
      · exact .rfl
      · next h₁ h₂ hrole =>
          split
          · next hg => exact absurd ⟨by omega, by simpa using hrole, hg⟩ h
          · exact .rfl

/-- A response that is counted raises the counter, and may make the node leader. -/
theorem handleRequestVoteResponse_counts {n : Node} {r : VoteReply} (h : Counts n r) :
    n.handleRequestVoteResponse r.term r.voteGranted =
      if n.majority ≤ n.grantedVotes + 1 then
        { n with grantedVotes := n.grantedVotes + 1 }.winElection
      else { n with grantedVotes := n.grantedVotes + 1 } := by
  obtain ⟨hterm, hrole, hgranted⟩ := h
  unfold Node.handleRequestVoteResponse
  rw [if_neg (by omega), if_neg (by omega), if_neg (by rw [hrole]; exact fun h => h rfl),
    if_pos hgranted]
  rfl

theorem outstanding_voteReply {r : VoteReply} {conn : Conn} {x v : Address} {t : Nat}
    (h : Outstanding (c.voteReply r) conn x v t) : Outstanding c conn x v t := by
  rcases h with h | ⟨r', hr', h⟩
  · exact Or.inl h
  · exact Or.inr ⟨r', Finset.mem_of_mem_erase hr', h⟩

theorem onceVoteReply (hinv : CampaignInv members c) (r : VoteReply) :
    OncePerVoter (c.voteReply r).net :=
  ⟨hinv.once.ballots,
    fun r₁ h₁ r₂ h₂ => hinv.once.replies r₁ (Finset.mem_of_mem_erase h₁) r₂
      (Finset.mem_of_mem_erase h₂),
    fun b hb r' hr' => hinv.once.exclusive b hb r' (Finset.mem_of_mem_erase hr')⟩

/-- A node that counts a vote keeps its term, and its counter rises by one. -/
theorem voteReply_counts {r : VoteReply} (hcounts : Counts (c.nodes r.candidate) r) :
    ((c.voteReply r).nodes r.candidate).state.currentTerm =
        (c.nodes r.candidate).state.currentTerm ∧
      ((c.voteReply r).nodes r.candidate).election = (c.nodes r.candidate).election ∧
      ((c.voteReply r).nodes r.candidate).grantedVotes =
        (c.nodes r.candidate).grantedVotes + 1 ∧
      (c.voteReply r).history.counted r.candidate =
        insert r.voter (c.history.counted r.candidate) := by
  simp only [voteReply, setNode_nodes, ↓reduceIte, handleRequestVoteResponse_counts hcounts,
    hcounts, Function.update_self]
  split
  · exact ⟨rfl, rfl, rfl, trivial⟩
  · exact ⟨rfl, rfl, rfl, trivial⟩

/-- A counted vote is not under way any more. -/
theorem not_outstanding_counted (hinv : CampaignInv members c) {r : VoteReply}
    (hr : r ∈ c.net.voteReplies) (hlive : c.started r.candidate ≤ r.conn)
    (hgranted : r.voteGranted = true) {conn : Conn} (hconn : c.started r.candidate ≤ conn) :
    ¬ Outstanding (c.voteReply r) conn r.candidate r.voter r.term := by
  intro h
  have hsame : conn = r.conn := hinv.same conn r.conn _ _ _ _ (outstanding_voteReply h)
    (Or.inr ⟨r, hr, hgranted, rfl, rfl, rfl, rfl⟩) hconn hlive
  rcases h with ⟨b, hb, hc, -, hv, -⟩ | ⟨r', hr', hg, hc, -, hv, -⟩
  · exact hinv.once.exclusive b hb r hr hgranted (hc.trans hsame) hv
  · exact Finset.ne_of_mem_erase hr' (hinv.once.replies r' (Finset.mem_of_mem_erase hr') r hr hg
      hgranted (hc.trans hsame) hv)

/-- The candidate after it has counted a vote that does not make it leader. -/
theorem candidateOk_counted (hinv : CampaignInv members c) {r : VoteReply}
    (hr : r ∈ c.net.voteReplies) (hlive : c.started r.candidate ≤ r.conn)
    (hcounts : Counts (c.nodes r.candidate) r) :
    CandidateOk members (c.voteReply r) r.candidate := by
  have hout : Outstanding c r.conn r.candidate r.voter r.term :=
    Or.inr ⟨r, hr, hcounts.2.2, rfl, rfl, rfl, rfl⟩
  obtain ⟨-, hpending, hmember⟩ := hinv.term _ _ _ _ hout hlive
  have hold := hinv.candidate r.candidate hcounts.2.1
  obtain ⟨hterm, hphase, hgranted, hcounted⟩ := voteReply_counts hcounts
  have hnew : r.voter ∉ c.history.counted r.candidate := fun h =>
    hold.once r.voter h r.conn hlive (hcounts.1 ▸ hout)
  refine ⟨?_, ?_, fun v hv => ?_, fun v hv => ?_, fun v hv conn hconn h => ?_, fun hp => ?_⟩
  · rw [hgranted, hcounted, Finset.card_insert_of_notMem hnew, hold.granted]
  · rw [hterm]
    exact hold.self
  · rw [hcounted, Finset.mem_insert] at hv
    rw [hterm]
    rcases hv with rfl | hv
    · exact hcounts.1 ▸ hmember
    · exact hold.member v hv
  · rw [hcounted, Finset.mem_insert] at hv
    rw [hterm]
    rcases hv with rfl | hv
    · exact hcounts.1 ▸ hinv.granted r hr hcounts.2.2
    · exact hold.voted v hv
  · rw [hcounted, Finset.mem_insert] at hv
    rw [hterm, ← hcounts.1] at h
    rcases hv with rfl | hv
    · exact not_outstanding_counted hinv hr hlive hcounts.2.2 hconn h
    · exact hold.once v hv conn hconn (hcounts.1 ▸ outstanding_voteReply h)
  · rw [hphase] at hp
    exact absurd (hpending hp) (by rw [hcounts.1]; exact lt_irrefl _)

/-- A won election has the votes that the winner has counted. -/
theorem electionOk_won (hinv : CampaignInv members c) {r : VoteReply}
    (hr : r ∈ c.net.voteReplies) (hlive : c.started r.candidate ≤ r.conn)
    (hwins : Wins (c.nodes r.candidate) r)
    (hview : r.candidate ∈ members r.term ∧
      (c.nodes r.candidate).state.clusterNodes = (members r.term).erase r.candidate) :
    ElectionOk members c ⟨r.candidate, r.term, insert r.voter (c.history.counted r.candidate),
      (c.nodes r.candidate).state.clusterNodes⟩ := by
  obtain ⟨hcounts, hmajority⟩ := hwins
  have hok := candidateOk_counted hinv hr hlive hcounts
  have hold := hinv.candidate r.candidate hcounts.2.1
  obtain ⟨hterm, -, hgranted, hcounted⟩ := voteReply_counts hcounts
  have hgrantedOk := hok.granted
  have hmember := hok.member
  have hvoted := hok.voted
  rw [hcounted, hterm, ← hcounts.1] at hmember hvoted
  rw [hcounted, hgranted] at hgrantedOk
  refine ⟨hview.1, hview.2, fun v hv => ?_, ?_, fun v hv => ?_⟩
  · rw [hview.2]
    exact hmember v hv
  · unfold Node.majority at hmajority
    simp only
    omega
  · rw [Finset.mem_insert] at hv
    rcases hv with rfl | hv
    · exact hcounts.1 ▸ hold.self
    · exact hvoted v hv

theorem campaignInv_voteReply (hinv : CampaignInv members c) {r : VoteReply}
    (hr : r ∈ c.net.voteReplies) (hlive : c.started r.candidate ≤ r.conn)
    (hview : Wins (c.nodes r.candidate) r → r.candidate ∈ members r.term ∧
      (c.nodes r.candidate).state.clusterNodes = (members r.term).erase r.candidate) :
    CampaignInv members (c.voteReply r) := by
  -- a reply that counts takes its message out and puts the voter among the granted votes
  by_cases hcounts : Counts (c.nodes r.candidate) r
  · obtain ⟨hterm, hphase, -, -⟩ := voteReply_counts hcounts
    have hnodes : ∀ x, x ≠ r.candidate → (c.voteReply r).nodes x = c.nodes x := fun x hx =>
      Function.update_of_ne hx _ _
    refine ⟨hinv.started, fun conn x v t h => hinv.known conn x v t (outstanding_voteReply h),
      onceVoteReply hinv r, fun conn x v t h hconn => ?_, fun conn conn' x v v' t h h' =>
        hinv.same conn conn' x v v' t (outstanding_voteReply h) (outstanding_voteReply h'),
      fun r' hr' => hinv.granted r' (Finset.mem_of_mem_erase hr'), fun x hx => ?_, fun e he => ?_⟩
    · have hold := hinv.term conn x v t (outstanding_voteReply h) hconn
      by_cases hxa : x = r.candidate
      · subst hxa
        rw [hterm, hphase]
        exact hold
      · rw [hnodes x hxa]
        exact hold
    · by_cases hxa : x = r.candidate
      · subst hxa
        exact candidateOk_counted hinv hr hlive hcounts
      · rw [hnodes x hxa] at hx
        refine (hinv.candidate x hx).steady ?_ (by rw [hnodes x hxa]; exact hx) (fun w hw => hw)
          (Function.update_of_ne hxa _ _) fun v _ conn t hconn h =>
            ⟨hconn, outstanding_voteReply h⟩
        rw [hnodes x hxa]
        exact .rfl
    · simp only [voteReply, hcounts, ↓reduceIte] at he
      split at he
      · next hwins =>
          rw [List.mem_cons] at he
          rcases he with rfl | he
          · exact (electionOk_won hinv hr hlive hwins (hview hwins)).mono fun w hw => hw
          · exact (hinv.elections e he).mono fun w hw => hw
      · exact (hinv.elections e he).mono fun w hw => hw
  · -- a reply that does not count changes no campaign
    have hwins : ¬ Wins (c.nodes r.candidate) r := fun h => hcounts h.1
    refine campaignInv_steady hinv (fun x => ?_) (onceVoteReply hinv r)
      (fun conn x v t => outstanding_voteReply)
      (fun r' hr' => hinv.granted r' (Finset.mem_of_mem_erase hr')) (fun w hw => hw) ?_ ?_ rfl
      (Nat.le_refl _)
    · simp only [voteReply, setNode_nodes]
      split
      · next h =>
          subst h
          exact steady_handleRequestVoteResponse hcounts
      · exact .rfl
    · simp only [voteReply, hcounts, ↓reduceIte, Function.update_eq_self]
    · simp only [voteReply, hwins, ↓reduceIte]

/-- After a restart no vote of an earlier campaign can reach the node. -/
theorem campaignInv_restart (hinv : CampaignInv members c) (a : Address)
    (found : RaftLogArray) :
    CampaignInv members { c.setNode a ((c.nodes a).restart found) with
      started := Function.update c.started a c.nextConn } := by
  have hstarted : ∀ x, x ≠ a → Function.update c.started a c.nextConn x = c.started x :=
    fun x hx => Function.update_of_ne hx _ _
  have hnodes : ∀ x, x ≠ a →
      Function.update c.nodes a ((c.nodes a).restart found) x = c.nodes x :=
    fun x hx => Function.update_of_ne hx _ _
  -- the connections from before the restart are behind the new start
  have hdead : ∀ conn v t, Function.update c.started a c.nextConn a ≤ conn →
      ¬ Outstanding c conn a v t := by
    intro conn v t hle h
    rw [Function.update_self] at hle
    exact absurd (hinv.known conn a v t h) (Nat.not_lt.2 hle)
  refine ⟨fun x => ?_, hinv.known, hinv.once, fun conn x v t h hlive => ?_,
    fun conn conn' x v v' t h h' hlive hlive' => ?_, hinv.granted, fun x hx => ?_,
    fun e he => (hinv.elections e he).mono fun w hw => hw⟩
  · simp only [Function.update_apply]
    split
    · exact Nat.le_refl _
    · exact hinv.started x
  · by_cases hxa : x = a
    · subst hxa
      exact absurd h (hdead conn v t hlive)
    · simp only [setNode, hnodes x hxa]
      exact hinv.term conn x v t h (by simpa only [hstarted x hxa] using hlive)
  · by_cases hxa : x = a
    · subst hxa
      exact absurd h (hdead conn v t hlive)
    · exact hinv.same conn conn' x v v' t h h' (by simpa only [hstarted x hxa] using hlive)
        (by simpa only [hstarted x hxa] using hlive')
  · by_cases hxa : x = a
    · subst hxa
      simp only [setNode, Function.update_self, Node.restart] at hx
      cases hx
    · simp only [setNode, hnodes x hxa] at hx
      refine (hinv.candidate x hx).steady ?_ ?_ (fun w hw => hw) rfl fun v _ conn t hlive h =>
        ⟨by simpa only [hstarted x hxa] using hlive, h⟩
      · simp only [setNode, hnodes x hxa]
        exact .rfl
      · simp only [setNode, hnodes x hxa]
        exact hx

theorem campaignInv_step {act : Action} (hinv : CampaignInv members c)
    (hmeets : VoteMeets members c act) (hstep : c.step cfg act = some c') :
    CampaignInv members c' := by
  by_cases helects : Elects act
  · cases act with
    | becomeCandidate a =>
        obtain ⟨-, rfl⟩ := of_guard hstep
        exact campaignInv_becomeCandidate hinv a hmeets
    | sendRequestVote a =>
        simp only [step] at hstep
        split at hstep
        · next hphase =>
            obtain rfl := Option.some.inj hstep
            exact campaignInv_sendRequestVote hinv (by rw [hphase]; trivial) hmeets.2
        · cases hstep
    | requestVote b peer =>
        obtain ⟨hb, rfl⟩ := of_guard hstep
        exact campaignInv_requestVote hinv hb peer
    | voteReply r =>
        obtain ⟨⟨hr, hlive⟩, rfl⟩ := of_guard hstep
        exact campaignInv_voteReply hinv hr hlive hmeets
    | restart a found =>
        obtain rfl := Option.some.inj hstep
        exact campaignInv_restart hinv a found
    | _ => exact absurd helects id
  · exact campaignInv_quiet hinv (step_quiet helects hmeets hstep)

end CampaignInvariant

section Winners

/-- The winner of an election knows its term. -/
theorem election_term_le (hvote : VoteInv c) (hcampaign : CampaignInv members c) {e : Election}
    (he : e ∈ c.history.elections) : e.term ≤ (c.nodes e.leader).state.currentTerm := by
  obtain ⟨w, hw, hvoter, hterm, -⟩ :=
    (hcampaign.elections e he).voted e.leader (Finset.mem_insert_self _ _)
  have hknown := (hvote.memory w hw).1
  rwa [hvoter, hterm] at hknown

/-- A candidate is in a later term than the first, which it has not won. -/
structure RunningInv (c : Cluster) : Prop where
  candidate : ∀ x, (c.nodes x).role = .candidate → 0 < (c.nodes x).state.currentTerm ∧
    ∀ e ∈ c.history.elections, e.leader = x → e.term ≠ (c.nodes x).state.currentTerm
  won : ∀ e ∈ c.history.elections, 0 < e.term

theorem runningInv_steady (hinv : RunningInv c) (hnodes : ∀ x, Steady (c.nodes x) (c'.nodes x))
    (helections : c'.history.elections = c.history.elections) : RunningInv c' := by
  refine ⟨fun x hx => ?_, helections ▸ hinv.won⟩
  obtain ⟨hrole, hterm, -⟩ := (hnodes x).candidate hx
  rw [hterm, helections]
  exact hinv.candidate x hrole

theorem runningInv_voteReply (hinv : RunningInv c) (r : VoteReply) :
    RunningInv (c.voteReply r) := by
  by_cases hcounts : Counts (c.nodes r.candidate) r
  · obtain ⟨hterm, -, -, -⟩ := voteReply_counts hcounts
    have hpos := (hinv.candidate r.candidate hcounts.2.1).1
    refine ⟨fun x hx => ?_, fun e he => ?_⟩
    · have hold : (c.nodes x).role = .candidate ∧
          ((c.voteReply r).nodes x).state.currentTerm = (c.nodes x).state.currentTerm := by
        by_cases hxr : x = r.candidate
        · rw [hxr]
          exact ⟨hcounts.2.1, hterm⟩
        · have hsame : (c.voteReply r).nodes x = c.nodes x := Function.update_of_ne hxr _ _
          rw [hsame] at hx ⊢
          exact ⟨hx, rfl⟩
      rw [hold.2]
      refine ⟨(hinv.candidate x hold.1).1, fun e he hleader => ?_⟩
      by_cases hwins : Wins (c.nodes r.candidate) r
      · simp only [voteReply, hwins, ↓reduceIte, List.mem_cons] at he
        rcases he with rfl | he
        · -- the winner is no longer a candidate
          simp only at hleader
          subst hleader
          simp only [voteReply, setNode_nodes, ↓reduceIte,
            handleRequestVoteResponse_counts hcounts, hwins.2] at hx
          cases hx
        · exact (hinv.candidate x hold.1).2 e he hleader
      · simp only [voteReply, hwins, ↓reduceIte] at he
        exact (hinv.candidate x hold.1).2 e he hleader
    · by_cases hwins : Wins (c.nodes r.candidate) r
      · simp only [voteReply, hwins, ↓reduceIte, List.mem_cons] at he
        rcases he with rfl | he
        · exact hcounts.1 ▸ hpos
        · exact hinv.won e he
      · simp only [voteReply, hwins, ↓reduceIte] at he
        exact hinv.won e he
  · have hwins : ¬ Wins (c.nodes r.candidate) r := fun h => hcounts h.1
    refine runningInv_steady hinv (fun x => ?_) ?_
    · simp only [voteReply, setNode_nodes]
      split
      · next h =>
          rw [h]
          exact steady_handleRequestVoteResponse hcounts
      · exact .rfl
    · simp only [voteReply, hwins, ↓reduceIte]

/-- The invariants of votes and elections. -/
structure TermInv (members : Nat → Finset Address) (c : Cluster) : Prop where
  vote : VoteInv c
  campaign : CampaignInv members c
  running : RunningInv c

theorem termInv_init : TermInv members {} :=
  ⟨voteInv_init, campaignInv_init, ⟨fun _ h => (by cases h), fun _ h => (by cases h)⟩⟩

theorem runningInv_step {act : Action} (hinv : TermInv members c)
    (hmeets : VoteMeets members c act) (hstep : c.step cfg act = some c') : RunningInv c' := by
  by_cases helects : Elects act
  · cases act with
    | becomeCandidate a =>
        obtain ⟨-, rfl⟩ := of_guard hstep
        refine ⟨fun x hx => ?_, hinv.running.won⟩
        by_cases hxa : x = a
        · subst hxa
          simp only [becomeCandidate, setNode_nodes, ↓reduceIte,
            becomeCandidate_term hmeets x]
          refine ⟨Nat.succ_pos _, fun e he hleader => ?_⟩
          -- the elections won so far have terms up to the old one
          have hle := election_term_le hinv.vote hinv.campaign he
          rw [hleader] at hle
          omega
        · have hsame : (c.becomeCandidate a).nodes x = c.nodes x := Function.update_of_ne hxa _ _
          rw [hsame] at hx ⊢
          exact hinv.running.candidate x hx
    | sendRequestVote a =>
        simp only [step] at hstep
        split at hstep
        · obtain rfl := Option.some.inj hstep
          refine ⟨fun x hx => ?_, hinv.running.won⟩
          simp only [sendRequestVote, setNode_nodes] at hx ⊢
          split at hx
          · next h =>
              subst h
              simp only [↓reduceIte]
              exact hinv.running.candidate x hx
          · next h =>
              simp only [h, ↓reduceIte]
              exact hinv.running.candidate x hx
        · cases hstep
    | requestVote b peer =>
        obtain ⟨-, rfl⟩ := of_guard hstep
        exact runningInv_steady hinv.running (steady_requestVote b peer) rfl
    | voteReply r =>
        obtain ⟨-, rfl⟩ := of_guard hstep
        exact runningInv_voteReply hinv.running r
    | restart a found =>
        obtain rfl := Option.some.inj hstep
        refine ⟨fun x hx => ?_, hinv.running.won⟩
        simp only [setNode_nodes] at hx ⊢
        split at hx
        · cases hx
        · next h =>
            simp only [h, ↓reduceIte]
            exact hinv.running.candidate x hx
    | _ => exact absurd helects id
  · have hquiet := step_quiet helects hmeets hstep
    exact runningInv_steady hinv.running (fun x => (hquiet.nodes x).steady) hquiet.elections

theorem termInv_step {act : Action} (hinv : TermInv members c)
    (hmeets : VoteMeets members c act) (hstep : c.step cfg act = some c') : TermInv members c' :=
  ⟨voteInv_step hinv.vote hmeets hstep, campaignInv_step hinv.campaign hmeets hstep,
    runningInv_step hinv hmeets hstep⟩

end Winners

section Safety

/-- Election safety of a state: a node votes for one candidate in a term;
a term has one elected leader; and a leader was elected by a majority of its cluster nodes
and itself, each of which voted for it in that term. -/
structure ElectionSafe (c : Cluster) : Prop where
  vote : ∀ w ∈ c.history.votes, ∀ w' ∈ c.history.votes,
    w.voter = w'.voter → w.term = w'.term → w.candidate = w'.candidate
  leader : ∀ e ∈ c.history.elections, ∀ e' ∈ c.history.elections,
    e.term = e'.term → e.leader = e'.leader
  majority : ∀ e ∈ c.history.elections,
    IsMajority (insert e.leader e.clusterNodes) (insert e.leader e.voters) ∧
      ∀ v ∈ insert e.leader e.voters, VotedFor c e.leader e.term v

theorem ElectionOk.isMajority {e : Election} (h : ElectionOk members c e) :
    IsMajority (members e.term) (insert e.leader e.voters) ∧
      members e.term = insert e.leader e.clusterNodes := by
  have hmembers : members e.term = insert e.leader e.clusterNodes := by
    rw [h.clusterNodes, Finset.insert_erase h.leader]
  have hleader : e.leader ∉ e.clusterNodes := by
    rw [h.clusterNodes]
    exact Finset.notMem_erase _ _
  have hvoter : e.leader ∉ e.voters := fun hv => hleader (h.voters hv)
  refine ⟨⟨?_, ?_⟩, hmembers⟩
  · rw [hmembers]
    exact Finset.insert_subset_insert _ h.voters
  · rw [hmembers, Finset.card_insert_of_notMem hleader, Finset.card_insert_of_notMem hvoter]
    exact h.majority

theorem electionSafe_of_inv (hinv : TermInv members c) : ElectionSafe c := by
  obtain ⟨hvote, hcampaign, -⟩ := hinv
  refine ⟨hvote.unique, fun e he e' he' hterm => ?_, fun e he => ?_⟩
  · obtain ⟨hmaj, -⟩ := (hcampaign.elections e he).isMajority
    obtain ⟨hmaj', -⟩ := (hcampaign.elections e' he').isMajority
    rw [← hterm] at hmaj'
    obtain ⟨v, hv, hv'⟩ := hmaj.exists_common hmaj'
    obtain ⟨w, hw, rfl, hwterm, hwcand⟩ := (hcampaign.elections e he).voted v hv
    obtain ⟨w', hw', hvoter, hwterm', hwcand'⟩ := (hcampaign.elections e' he').voted _ hv'
    have hsame := hvote.unique w hw w' hw' hvoter.symm
      (hwterm.trans (hterm.trans hwterm'.symm))
    exact hwcand.symm.trans (hsame.trans hwcand')
  · obtain ⟨hmaj, hmembers⟩ := (hcampaign.elections e he).isMajority
    exact ⟨hmembers ▸ hmaj, (hcampaign.elections e he).voted⟩

/-- Node 3 of three nodes wins term 1 with the vote of node 2. -/
def elected : List Action :=
  threeNodes ++ campaign 3 ++
    [.requestVote ⟨3, node 3, node 2, ⟨1, 0, 0⟩⟩ ⟨[3], 50000⟩,
      .voteReply ⟨3, node 3, node 2, 1, true⟩]

/-- Node 2 votes for itself in term 1, and joins its leader again, whose term is 0. Its next
vote in term 1 is for node 3. -/
def joinedAgain : List Action :=
  threeNodes ++ campaign 2 ++
    [.reconnect (node 2), .task (node 2) (.follow (node 1) 1 0), .joinRequest ⟨4, 0⟩,
      .joinReply 4 (.joined 0 {node 3, node 2})] ++
    campaign 3 ++ [.requestVote ⟨5, node 3, node 2, ⟨1, 0, 0⟩⟩ ⟨[3], 50000⟩]

end Safety

end Cluster

end EyaKV.Raft
