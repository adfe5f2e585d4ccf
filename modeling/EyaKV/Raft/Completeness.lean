import EyaKV.Raft.Acknowledging
import EyaKV.Raft.Freshness

/-!
# Chosen entries

A prefix of the log of a term is chosen when it ends with an entry of this term and a majority of
the members of the term has acknowledged it. `leader_completeness` says that it is never lost: the
leader of every later term wins with it, and every node that has acknowledged it keeps it.

The invariant is about every majority, not only about those that have acknowledged. A majority is
`Blocked` once one of its nodes has left the term without an acknowledgement, and then it will
never choose the prefix. While it is not blocked the prefix is `Kept`: by the nodes that have
acknowledged it, by the leaders of the later terms, and by the candidates that got a vote from a
node that had acknowledged it.
-/

set_option autoImplicit false

namespace EyaKV.Raft

open EyaKV.Base EyaKV.Store

namespace Cluster

variable {cfg : RaftNodeConfig} {members : Nat → Finset Address} {boot : Address}
  {c c' : Cluster}

section Candidates

/-- The node runs for a term that nobody has won. -/
structure Contender (c : Cluster) (a : Address) (t : Nat) : Prop where
  role : (c.nodes a).role = .candidate
  term : (c.nodes a).state.currentTerm = t
  unwon : ¬ HasLeader c t

/-- A candidate was one before, or has just become one. -/
theorem candidate_step {act : Action} (hvote : VoteMeets members c act)
    (hstep : c.step cfg act = some c') {a : Address} (hrole : (c'.nodes a).role = .candidate) :
    ((c.nodes a).role = .candidate ∧
        (c'.nodes a).state.currentTerm = (c.nodes a).state.currentTerm) ∨
      act = .becomeCandidate a ∧
        (c'.nodes a).state.currentTerm = (c.nodes a).state.currentTerm + 1 := by
  by_cases helects : Elects act
  · cases act with
    | becomeCandidate x =>
        obtain ⟨-, rfl⟩ := of_guard hstep
        by_cases hx : a = x
        · subst hx
          refine Or.inr ⟨rfl, ?_⟩
          simp only [becomeCandidate, setNode_nodes, ↓reduceIte, becomeCandidate_term hvote a]
        · have hsame : (c.becomeCandidate x).nodes a = c.nodes a := Function.update_of_ne hx _ _
          rw [hsame] at hrole ⊢
          exact Or.inl ⟨hrole, rfl⟩
    | sendRequestVote x =>
        simp only [step] at hstep
        split at hstep
        · obtain rfl := Option.some.inj hstep
          simp only [sendRequestVote, setNode_nodes] at hrole ⊢
          split at hrole
          · next h =>
              subst h
              exact Or.inl ⟨hrole, by simp⟩
          · next h =>
              simp only [h, ↓reduceIte]
              exact Or.inl ⟨hrole, trivial⟩
        · cases hstep
    | requestVote b peer =>
        obtain ⟨-, rfl⟩ := of_guard hstep
        obtain ⟨hold, hterm, -⟩ := (steady_requestVote b peer a).candidate hrole
        exact Or.inl ⟨hold, hterm⟩
    | voteReply r =>
        obtain ⟨-, rfl⟩ := of_guard hstep
        by_cases ha : a = r.candidate
        · subst ha
          by_cases hcounts : Counts (c.nodes r.candidate) r
          · exact Or.inl ⟨hcounts.2.1, (voteReply_counts hcounts).1⟩
          · simp only [voteReply, setNode_nodes, ↓reduceIte] at hrole ⊢
            obtain ⟨hold, hterm, -⟩ := (steady_handleRequestVoteResponse hcounts).candidate hrole
            exact Or.inl ⟨hold, hterm⟩
        · have hsame : (c.voteReply r).nodes a = c.nodes a := Function.update_of_ne ha _ _
          rw [hsame] at hrole ⊢
          exact Or.inl ⟨hrole, rfl⟩
    | restart x found =>
        obtain rfl := Option.some.inj hstep
        simp only [setNode_nodes] at hrole ⊢
        split at hrole
        · cases hrole
        · next h =>
            simp only [h, ↓reduceIte]
            exact Or.inl ⟨hrole, trivial⟩
    | _ => exact absurd helects id
  · obtain ⟨hold, hterm, -⟩ := ((step_quiet helects hvote hstep).nodes a).candidate hrole
    exact Or.inl ⟨hold, hterm⟩

/-- A node that runs for a term keeps its log as long as nobody wins the term. -/
theorem contender_step {act : Action} (hvote : VoteMeets members c act)
    (hprogress : Progress c c') (hstep : c.step cfg act = some c') {a : Address} {t : Nat}
    (h : Contender c' a t) :
    (Contender c a t ∧ (c'.nodes a).logArray.full = (c.nodes a).logArray.full) ∨
      act = .becomeCandidate a ∧ t = (c.nodes a).state.currentTerm + 1 := by
  obtain ⟨hrole, hterm, hunwon⟩ := h
  have hbefore : ¬ HasLeader c t := fun hl => hunwon (hl.mono hprogress.elections)
  rcases candidate_step hvote hstep hrole with ⟨hold, hsame⟩ | ⟨hact, hnext⟩
  · refine Or.inl ⟨⟨hold, hsame.symm.trans hterm, hbefore⟩, ?_⟩
    rcases hprogress.log a with hlog | ⟨u, hlow, hhigh, hleader, -⟩
    · exact hlog
    · -- only the log of a term with a leader is taken over
      obtain rfl : u = t := by omega
      exact absurd hleader hbefore
  · exact Or.inr ⟨hact, hterm.symm.trans hnext⟩

/-- A vote was there before, or it is the one that a new candidate gives itself, or it is granted
to a request. -/
theorem votes_step {act : Action} (hvote : VoteMeets members c act)
    (hstep : c.step cfg act = some c') (w : Vote) (hw : w ∈ c'.history.votes) :
    w ∈ c.history.votes ∨ (w.voter = w.candidate ∧ act = .becomeCandidate w.candidate ∧
        w.term = (c.nodes w.candidate).state.currentTerm + 1) ∨
      ∃ b peer, act = .requestVote b peer ∧ b ∈ c.net.ballots ∧ w.voter = b.voter ∧
        w.candidate = b.candidate ∧ w.term = b.msg.term ∧
          (c.nodes b.voter).logIsOk b.msg = true := by
  by_cases helects : Elects act
  · cases act with
    | becomeCandidate a =>
        obtain ⟨-, rfl⟩ := of_guard hstep
        rcases List.mem_cons.1 hw with rfl | hw
        · exact Or.inr (Or.inl ⟨rfl, rfl, becomeCandidate_term hvote a⟩)
        · exact Or.inl hw
    | sendRequestVote a =>
        simp only [step] at hstep
        split at hstep
        · obtain rfl := Option.some.inj hstep
          exact Or.inl hw
        · cases hstep
    | requestVote b peer =>
        obtain ⟨hb, rfl⟩ := of_guard hstep
        simp only [requestVote] at hw
        split at hw
        · next hgranted =>
            rcases List.mem_cons.1 hw with rfl | hw
            · refine Or.inr (Or.inr ⟨b, peer, rfl, hb, rfl, rfl, ?_, logIsOk_of_granted hgranted⟩)
              rcases handleRequestVote_cases (c.nodes b.voter) b.msg peer with
                ⟨-, hrefused⟩ | ⟨-, -, -, -, -, hreply, -, -⟩
              · exact absurd (hrefused.symm.trans hgranted) (by decide)
              · rw [hreply]
            · exact Or.inl hw
        · exact Or.inl hw
    | voteReply r =>
        obtain ⟨-, rfl⟩ := of_guard hstep
        exact Or.inl hw
    | restart a found =>
        obtain rfl := Option.some.inj hstep
        exact Or.inl hw
    | _ => exact absurd helects id
  · rw [(step_quiet helects hvote hstep).votes] at hw
    exact Or.inl hw

/-- A request was under way before, or its candidate has just sent what it had read. -/
theorem ballots_step {act : Action} (hvote : VoteMeets members c act)
    (hstep : c.step cfg act = some c') (b : Ballot) (hb : b ∈ c'.net.ballots) :
    b ∈ c.net.ballots ∨ act = .sendRequestVote b.candidate ∧
      (c.nodes b.candidate).election = .campaign b.msg.lastLogIndex b.msg.lastLogTerm ∧
        b.msg.term = (c.nodes b.candidate).state.currentTerm := by
  by_cases helects : Elects act
  · cases act with
    | becomeCandidate a =>
        obtain ⟨-, rfl⟩ := of_guard hstep
        exact Or.inl hb
    | sendRequestVote a =>
        simp only [step] at hstep
        split at hstep
        · next i t hphase =>
            obtain rfl := Option.some.inj hstep
            rcases Finset.mem_union.1 hb with hb | hb
            · exact Or.inl hb
            · obtain ⟨v, -, rfl⟩ := Finset.mem_image.1 hb
              exact Or.inr ⟨rfl, hphase, rfl⟩
        · cases hstep
    | requestVote b' peer =>
        obtain ⟨-, rfl⟩ := of_guard hstep
        exact Or.inl (Finset.mem_of_mem_erase hb)
    | voteReply r =>
        obtain ⟨-, rfl⟩ := of_guard hstep
        exact Or.inl hb
    | restart a found =>
        obtain rfl := Option.some.inj hstep
        exact Or.inl hb
    | _ => exact absurd helects id
  · rw [(step_quiet helects hvote hstep).ballots] at hb
    exact Or.inl hb

/-- The invariant of the candidates: what one that can still win announces is the end of its
log, or that it has none in memory; and no vote or request is of a later term than its
candidate's. -/
structure CandidateInv (c : Cluster) : Prop where
  phase : ∀ a t i u, Contender c a t → (c.nodes a).election = .campaign i u →
    Announces LogEntry.term (c.nodes a).logArray.full i u
  ballotTerm : ∀ b ∈ c.net.ballots, b.msg.term ≤ (c.nodes b.candidate).state.currentTerm
  ballot : ∀ b ∈ c.net.ballots, Contender c b.candidate b.msg.term →
    Announces LogEntry.term (c.nodes b.candidate).logArray.full b.msg.lastLogIndex
      b.msg.lastLogTerm
  voteTerm : ∀ w ∈ c.history.votes, w.term ≤ (c.nodes w.candidate).state.currentTerm

theorem candidateInv_init : CandidateInv {} :=
  ⟨fun a t i u h => (by cases h.role), fun b hb => absurd hb (Finset.notMem_empty b),
    fun b hb => absurd hb (Finset.notMem_empty b), fun w hw => (by cases hw)⟩

/-- The last entry that a node reads for its campaign. -/
theorem announces_getLastInfo {log : RaftLogArray} (hal : log.Aligned) :
    Announces LogEntry.term log.full log.getLastInfo.1 log.getLastInfo.2 := by
  by_cases hne : log.entries = []
  · rw [getLastInfo_of_eq hne]
    exact Or.inl ⟨rfl, rfl⟩
  · obtain ⟨last, hlast, hinfo⟩ := getLastInfo_of_ne hal hne
    rw [hinfo]
    refine Or.inr ⟨List.length_pos_of_mem (List.mem_of_getLast? hlast), last, ?_, rfl⟩
    rw [← List.getLast?_eq_getElem?]
    exact hlast

theorem candidateInv_step {act : Action} (hinv : CandidateInv c) (hlog : LogInv boot c)
    (hvote : VoteMeets members c act) (hprogress : Progress c c')
    (hstep : c.step cfg act = some c') : CandidateInv c' := by
  refine ⟨fun a t i u hc hphase => ?_, fun b hb => ?_, fun b hb hc => ?_, fun w hw => ?_⟩
  · rcases contender_step hvote hprogress hstep hc with ⟨hold, hsame⟩ | ⟨rfl, -⟩
    · rw [hsame]
      rcases bystander_step hstep a with hstander | ⟨-, hnode⟩ | ⟨r, again, -, -, -, -, -, hnode⟩
      · exact hinv.phase a t i u hold (hstander.campaign i u hphase)
      · rw [hnode] at hphase
        injection hphase with hi hu
        rw [← hi, ← hu]
        exact announces_getLastInfo (hlog.aligned a)
      · rw [hnode] at hphase
        exact hinv.phase a t i u hold hphase
    · -- a new candidate has not read its last entry yet
      obtain ⟨-, rfl⟩ := of_guard hstep
      simp only [becomeCandidate, setNode_nodes, ↓reduceIte,
        (becomeCandidate_spec (c.nodes a) a).2.2.2.2] at hphase
      cases hphase
  · rcases ballots_step hvote hstep b hb with hb | ⟨-, -, hterm⟩
    · exact (hinv.ballotTerm b hb).trans (hprogress.term _)
    · exact hterm ▸ hprogress.term _
  · rcases contender_step hvote hprogress hstep hc with ⟨hold, hsame⟩ | ⟨rfl, hnext⟩
    · rw [hsame]
      rcases ballots_step hvote hstep b hb with hb | ⟨-, hphase, -⟩
      · exact hinv.ballot b hb hold
      · exact hinv.phase _ _ _ _ hold hphase
    · -- its requests are of earlier terms
      rcases ballots_step hvote hstep b hb with hb | ⟨hact, -⟩
      · have := hinv.ballotTerm b hb
        omega
      · cases hact
  · rcases votes_step hvote hstep w hw with hw | ⟨-, rfl, hterm⟩ |
      ⟨b, peer, -, hb, -, hcand, hterm, -⟩
    · exact (hinv.voteTerm w hw).trans (hprogress.term _)
    · obtain ⟨-, rfl⟩ := of_guard hstep
      simp only [becomeCandidate, setNode_nodes, ↓reduceIte, becomeCandidate_term hvote, hterm,
        le_refl]
    · rw [hterm, hcand]
      exact (hinv.ballotTerm b hb).trans (hprogress.term _)

end Candidates

section Majorities

/-- A node of `q` has left the term `t` and has not acknowledged `k` entries of it. -/
def Blocked (c : Cluster) (t k : Nat) (q : Finset Address) : Prop :=
  ∃ v ∈ q, ¬ Acked c v t k ∧ t < (c.nodes v).state.currentTerm

/-- It never will. -/
theorem Blocked.step {t k : Nat} {q : Finset Address} (h : Blocked c t k q)
    (hprogress : Progress c c') : Blocked c' t k q := by
  obtain ⟨v, hv, hnot, hlt⟩ := h
  refine ⟨v, hv, fun hacked => ?_, hlt.trans_le (hprogress.term v)⟩
  rcases hprogress.new v t k hacked with hold | hnew
  · exact hnot hold
  · exact absurd hnew.term_le (Nat.not_le.2 hlt)

/-- The first `k` entries of the log of the term `t` are in the logs of the nodes that have
acknowledged them, of the leaders of the later terms, and of the candidates that such a node has
voted for. -/
structure Kept (c : Cluster) (t k : Nat) : Prop where
  held : ∀ v, Acked c v t k → (c.history.leaderLog t).take k <+: (c.nodes v).logArray.full
  leader : ∀ e ∈ c.history.elections, t < e.term → k ≤ (c.history.leaderLog t).length ∧
    (c.history.leaderLog t).take k <+: c.history.leaderLog e.term
  candidate : ∀ w ∈ c.history.votes, t < w.term → Acked c w.voter t k →
    Contender c w.candidate w.term →
      (c.history.leaderLog t).take k <+: (c.nodes w.candidate).logArray.full

/-- The invariant of leader completeness. The entry at the end is one of the term, or not there
yet. -/
def CompleteInv (members : Nat → Finset Address) (c : Cluster) : Prop :=
  ∀ (t k : Nat) (q : Finset Address), 0 < k → IsMajority (members t) q →
    (∀ e, (c.history.leaderLog t)[k - 1]? = some e → e.term = t) →
      Blocked c t k q ∨ Kept c t k

theorem completeInv_init : CompleteInv members {} := by
  intro t k q _ _ _
  refine Or.inr ⟨fun v h => ?_, fun e he => (by cases he), fun w hw => (by cases hw)⟩
  rcases h with ⟨r, hr, -⟩ | ⟨r, hr, -⟩
  · cases hr
  · cases hr

/-- The majorities of all terms share a node with each other. -/
def Overlapping (members : Nat → Finset Address) : Prop :=
  ∀ t t' q q', IsMajority (members t) q → IsMajority (members t') q' → ∃ v, v ∈ q ∧ v ∈ q'

/-- A cluster whose members stay. -/
theorem overlapping_const (m : Finset Address) : Overlapping fun _ => m :=
  fun _ _ _ _ h h' => h.exists_common h'

variable {t k : Nat}

/-- A leader of a term no earlier than `t` has the entries. -/
theorem Kept.leaderLog (h : Kept c t k) {u : Nat} (hle : t ≤ u) (hleader : HasLeader c u) :
    (c.history.leaderLog t).take k <+: c.history.leaderLog u := by
  rcases Nat.eq_or_lt_of_le hle with rfl | hlt
  · exact List.take_prefix _ _
  · rcases hleader with rfl | ⟨e, he, rfl⟩
    · omega
    · exact (h.leader e he hlt).2

/-- What has been acknowledged does not change. -/
theorem Upheld.take_step {v : Address} (h : Upheld c v t k) (hprogress : Progress c c') :
    (c'.history.leaderLog t).take k = (c.history.leaderLog t).take k :=
  take_shorten (hprogress.leaderLog t) h.length

theorem Kept.held_step (h : Kept c t k) (hack : AckInv boot c) (hprogress : Progress c c')
    {v : Address} (hacked : Acked c' v t k) :
    (c'.history.leaderLog t).take k <+: (c'.nodes v).logArray.full := by
  rcases hprogress.new v t k hacked with hold | hnew
  · have hupheld := hack.upheld v t k hold
    rw [hupheld.take_step hprogress]
    rcases hprogress.log v with hlog | ⟨u, hlow, -, hleader, hkept, -⟩
    · rw [hlog]
      exact h.held v hold
    · exact hkept _ (h.held v hold) (h.leaderLog (hupheld.term_le.trans hlow) hleader)
  · exact hnew.held

/-- A voter that has acknowledged before its vote still has what it acknowledged, and its vote
says that the candidate's log is not older. -/
theorem Kept.candidate_of_vote (h : Kept c t k) (hlog : LogInv boot c) (hlead : LeaderInv c)
    (hack : AckInv boot c) (hcandidate : CandidateInv c) (hpos : 0 < k)
    (hentry : ∀ e, (c.history.leaderLog t)[k - 1]? = some e → e.term = t) {b : Ballot}
    (hb : b ∈ c.net.ballots) (hacked : Acked c b.voter t k)
    (hmemory : (c.nodes b.voter).logArray.entries = [] → (c.nodes b.voter).logArray.baseIndex = 1)
    (hok : (c.nodes b.voter).logIsOk b.msg = true)
    (hcontender : Contender c b.candidate b.msg.term) :
    (c.history.leaderLog t).take k <+: (c.nodes b.candidate).logArray.full := by
  have hlen := (hack.upheld _ t k hacked).length
  have hheld := h.held b.voter hacked
  have hal := hlog.aligned b.voter
  -- the entry at the end is in the voter's log
  obtain ⟨e, he⟩ : ∃ e, (c.history.leaderLog t)[k - 1]? = some e :=
    ⟨_, List.getElem?_eq_getElem (by omega)⟩
  have hvoter : (c.nodes b.voter).logArray.full[k - 1]? = some e :=
    getElem?_shorten hheld (by rw [List.getElem?_take_of_lt (by omega)]; exact he)
  have htake : (c.nodes b.voter).logArray.full.take (k - 1 + 1) =
      (c.history.leaderLog t).take k := by
    rw [Nat.sub_add_cancel hpos, take_shorten hheld (by rw [List.length_take_of_le hlen]),
      List.take_take, min_self]
  -- so that it has entries in memory, and compares the last one
  have hne : (c.nodes b.voter).logArray.entries ≠ [] := by
    intro hnil
    have hnext := hal.next
    rw [hmemory hnil, hnil] at hnext
    have hlt := (List.getElem?_eq_some_iff.1 hvoter).1
    simp only [List.length_nil, Nat.add_zero] at hnext
    omega
  obtain ⟨last, hlast, hinfo⟩ := getLastInfo_of_ne hal hne
  have hfresh := logIsOk_iff.1 hok
  rw [hinfo] at hfresh
  rw [List.getLast?_eq_getElem?] at hlast
  rw [← htake]
  refine (hlog.good _ (.node b.candidate)).canonical.holds_of_fresh
    (hlog.good _ (.node b.voter)).canonical hlead.ascending (hcandidate.ballot b hb hcontender)
    hlast hfresh hvoter fun x hx hlt => ?_
  -- an entry of a later term comes from a leader of that term
  rw [htake]
  rw [hentry e he] at hlt
  refine h.leaderLog hlt.le (hlead.hasLeader _ fun hnil => ?_)
  obtain ⟨i, hi⟩ := List.mem_iff_getElem?.1 hx
  have := (hlog.good _ (.node b.candidate)).canonical.mem_leaderLog hi
  rw [hnil] at this
  cases this

/-- A node that leaves the term `t` in a step, or has left it before, acknowledges nothing of it
in the step. -/
theorem acked_before (hprogress : Progress c c') {v : Address} (hacked : Acked c' v t k)
    (hlt : t < (c'.nodes v).state.currentTerm) : Acked c v t k := by
  rcases hprogress.new v t k hacked with hold | hnew
  · exact hold
  · exact absurd hnew.term.le (Nat.not_le.2 hlt)

/-- The winner of a later term got a vote from the majority, of a node that has acknowledged. -/
theorem Kept.leader_step (h : Kept c t k) (hinv : ReplicationInv members boot c)
    (hterm' : TermInv members c') (hoverlap : Overlapping members) {act : Action}
    (hvote : VoteMeets members c act) (hprogress : Progress c c')
    (hstep : c.step cfg act = some c') {q : Finset Address} (hq : IsMajority (members t) q)
    (hopen : ¬ Blocked c t k q) {e : Election} (he : e ∈ c'.history.elections) (hlt : t < e.term) :
    k ≤ (c'.history.leaderLog t).length ∧
      (c'.history.leaderLog t).take k <+: c'.history.leaderLog e.term := by
  -- it is enough to have the entries as they were
  have hold : k ≤ (c.history.leaderLog t).length →
      (c.history.leaderLog t).take k <+: c'.history.leaderLog e.term →
      k ≤ (c'.history.leaderLog t).length ∧
        (c'.history.leaderLog t).take k <+: c'.history.leaderLog e.term := by
    intro hlen hpre
    rw [take_shorten (hprogress.leaderLog t) hlen]
    exact ⟨hlen.trans (hprogress.leaderLog t).length_le, hpre⟩
  rcases elections_step hvote hstep e he with he | ⟨r, rfl, hwins, rfl⟩
  · obtain ⟨hlen, hpre⟩ := h.leader e he hlt
    exact hold hlen (hpre.trans (hprogress.leaderLog e.term))
  · obtain ⟨-, rfl⟩ := of_guard hstep
    have hok := hterm'.campaign.elections _ he
    obtain ⟨v, hvq, hvoter⟩ := hoverlap _ _ _ _ hq hok.isMajority.1
    obtain ⟨w, hw, rfl, hwterm, hcand⟩ := hok.voted v hvoter
    change w ∈ c.history.votes at hw
    have hknown := (hinv.term.vote.memory w hw).1
    -- the voter is in the later term, so that it has acknowledged before
    have hacked : Acked c w.voter t k := by
      by_contra hnot
      exact hopen ⟨w.voter, hvq, hnot, hlt.trans_le (hwterm ▸ hknown)⟩
    have hcontender : Contender c w.candidate w.term := by
      rw [hcand, hwterm]
      exact ⟨hwins.1.2.1, hwins.1.1.symm, not_hasLeader_of_wins hinv.term hwins hterm'⟩
    have hpre := h.candidate w hw (hwterm ▸ hlt) hacked hcontender
    refine hold (hinv.ack.upheld _ t k hacked).length ?_
    rw [hcand] at hpre
    simp only [voteReply, hwins, ↓reduceIte, Function.update_self]
    exact hpre

/-- What chosen entries rely on besides: a voter whose log is empty in memory has none. -/
def BallotMeets (c : Cluster) : Action → Prop
  | .requestVote b _ => (c.nodes b.voter).logArray.entries = [] →
      (c.nodes b.voter).logArray.baseIndex = 1
  | _ => True

instance (c : Cluster) : ∀ act, Decidable (BallotMeets c act)
  | .requestVote _ _ => inferInstanceAs (Decidable (_ → _))
  | .electionTimeout _ | .becomeCandidate _ | .readLastInfo _ | .sendRequestVote _
  | .voteReply _ | .sendAppendEntries _ | .appendEntries _ _ | .appendReply _ _
  | .tryCommitEntries _ | .commitEntries _ | .applyCommittedEntries _ | .submit _ _ | .task _ _
  | .reconnect _ | .joinRequest _ | .joinReply _ _ | .closeSocket _ | .removeNode _ _ | .notice _ _
  | .setMaster _ _ _ | .newMaster _ | .sendSnapshot _ | .installSnapshot _ | .restart _ _ =>
    isTrue trivial

theorem Kept.candidate_step (h : Kept c t k) (hinv : ReplicationInv members boot c)
    (hvote' : VoteInv c') (hcandidate : CandidateInv c) {act : Action}
    (hvote : VoteMeets members c act) (hmeets : BallotMeets c act) (hprogress : Progress c c')
    (hstep : c.step cfg act = some c') (hpos : 0 < k)
    (hentry : ∀ e, (c.history.leaderLog t)[k - 1]? = some e → e.term = t) {w : Vote}
    (hw : w ∈ c'.history.votes) (hlt : t < w.term) (hacked' : Acked c' w.voter t k)
    (hcontender' : Contender c' w.candidate w.term) :
    (c'.history.leaderLog t).take k <+: (c'.nodes w.candidate).logArray.full := by
  have hacked := acked_before hprogress hacked' (hlt.trans_le (hvote'.memory w hw).1)
  rw [(hinv.ack.upheld _ t k hacked).take_step hprogress]
  rcases contender_step hvote hprogress hstep hcontender' with ⟨hcontender, hsame⟩ | ⟨rfl, hnext⟩
  · rw [hsame]
    rcases votes_step hvote hstep w hw with hw | ⟨-, -, hterm⟩ |
      ⟨b, peer, rfl, hb, hvoter, hcand, hterm, hok⟩
    · exact h.candidate w hw hlt hacked hcontender
    · have := hcontender.term
      omega
    · rw [hcand, hterm] at hcontender
      rw [hvoter] at hacked
      rw [hcand]
      exact h.candidate_of_vote hinv.log hinv.leader hinv.ack hcandidate hpos hentry hb hacked
        hmeets hok hcontender
  · rcases votes_step hvote hstep w hw with hw | ⟨hself, -, -⟩ | ⟨b, peer, hact, -⟩
    · -- the votes so far are of earlier terms than the new candidate's
      have := hcandidate.voteTerm w hw
      omega
    · rw [hself] at hacked hacked'
      rw [← (hinv.ack.upheld _ t k hacked).take_step hprogress]
      exact h.held_step hinv.ack hprogress hacked'
    · cases hact

/-- **A step keeps what is chosen.** -/
theorem completeInv_step {act : Action} (hcomplete : CompleteInv members c)
    (hinv : ReplicationInv members boot c) (hinv' : ReplicationInv members boot c')
    (hcandidate : CandidateInv c) (hoverlap : Overlapping members)
    (hvote : VoteMeets members c act) (hmeets : BallotMeets c act) (hprogress : Progress c c')
    (hstep : c.step cfg act = some c') : CompleteInv members c' := by
  intro t k q hpos hq hentry'
  by_cases hblocked : Blocked c t k q
  · exact Or.inl (hblocked.step hprogress)
  · have hentry : ∀ e, (c.history.leaderLog t)[k - 1]? = some e → e.term = t := fun e he =>
      hentry' e (getElem?_shorten (hprogress.leaderLog t) he)
    have h := (hcomplete t k q hpos hq hentry).resolve_left hblocked
    refine Or.inr ⟨fun v hacked => h.held_step hinv.ack hprogress hacked, fun e he hlt => ?_,
      fun w hw hlt hacked hcontender => ?_⟩
    · exact h.leader_step hinv hinv'.term hoverlap hvote hprogress hstep hq hblocked he hlt
    · exact h.candidate_step hinv hinv'.term.vote hcandidate hvote hmeets hprogress hstep hpos
        hentry hw hlt hacked hcontender

end Majorities

section Completeness

/-- The first `k` entries of the log of the term `t` are chosen: the last of them is of the term,
and a majority of the members of the term has acknowledged them. -/
structure Chosen (members : Nat → Finset Address) (c : Cluster) (t k : Nat) : Prop where
  pos : 0 < k
  entry : ∃ e, (c.history.leaderLog t)[k - 1]? = some e ∧ e.term = t
  majority : ∃ q, IsMajority (members t) q ∧ ∀ v ∈ q, Acked c v t k

variable {t k : Nat}

theorem Chosen.length_le (h : Chosen members c t k) : k ≤ (c.history.leaderLog t).length := by
  obtain ⟨e, he, -⟩ := h.entry
  have := (List.getElem?_eq_some_iff.1 he).1
  omega

/-- What is chosen stays chosen. -/
theorem Chosen.step (h : Chosen members c t k) (hprogress : Progress c c') :
    Chosen members c' t k := by
  obtain ⟨hpos, ⟨e, he, hterm⟩, q, hq, hacked⟩ := h
  exact ⟨hpos, ⟨e, getElem?_shorten (hprogress.leaderLog t) he, hterm⟩, q, hq,
    fun v hv => hprogress.acked v t k (hacked v hv)⟩

theorem Chosen.kept (h : Chosen members c t k) (hcomplete : CompleteInv members c) :
    Kept c t k := by
  obtain ⟨hpos, ⟨e, he, hterm⟩, q, hq, hacked⟩ := h
  refine (hcomplete t k q hpos hq fun e' he' => ?_).resolve_left ?_
  · rw [he] at he'
    rw [← Option.some.inj he', hterm]
  · rintro ⟨v, hv, hnot, -⟩
    exact hnot (hacked v hv)

/-- The invariants of replication, of the candidates and of what is chosen. -/
structure CompletenessInv (members : Nat → Finset Address) (boot : Address) (c : Cluster) :
    Prop where
  replication : ReplicationInv members boot c
  candidate : CandidateInv c
  complete : CompleteInv members c

/-- What leader completeness relies on: the conditions of replication, and that of votes. -/
def CompletenessMeets (cfg : RaftNodeConfig) (members : Nat → Finset Address) (boot : Address)
    (c : Cluster) (act : Action) : Prop :=
  ReplicationMeets cfg members boot c act ∧ BallotMeets c act

instance (cfg : RaftNodeConfig) (members : Nat → Finset Address) (boot : Address) (c : Cluster)
    (act : Action) : Decidable (CompletenessMeets cfg members boot c act) :=
  inferInstanceAs (Decidable (_ ∧ _))

theorem completenessInv_init : CompletenessInv members boot {} :=
  ⟨replicationInv_init, candidateInv_init, completeInv_init⟩

theorem completenessInv_step {act : Action} (hinv : CompletenessInv members boot c)
    (hoverlap : Overlapping members) (hmeets : CompletenessMeets cfg members boot c act)
    (hstep : c.step cfg act = some c') : CompletenessInv members boot c' := by
  obtain ⟨hreplication, hballot⟩ := hmeets
  have hprogress := hinv.replication.progress hreplication hstep
  have hinv' := replicationInv_step hinv.replication hreplication hstep
  exact ⟨hinv',
    candidateInv_step hinv.candidate hinv.replication.log hreplication.1 hprogress hstep,
    completeInv_step hinv.complete hinv.replication hinv' hinv.candidate hoverlap hreplication.1
      hballot hprogress hstep⟩

/-- What is chosen is in the log of the leader of every later term, from its election on; a node
that is the leader has it, in the term itself or a later one; and the nodes that have acknowledged
it have it. -/
structure LeaderComplete (members : Nat → Finset Address) (boot : Address) (c : Cluster) :
    Prop where
  elected : ∀ t k, Chosen members c t k → ∀ e ∈ c.history.elections, t < e.term →
    (c.history.leaderLog t).take k <+: c.history.leaderLog e.term
  leads : ∀ t k, Chosen members c t k → ∀ a, Leads boot c a → t ≤ (c.nodes a).state.currentTerm →
    (c.history.leaderLog t).take k <+: (c.nodes a).logArray.full
  held : ∀ t k, Chosen members c t k → ∀ v, Acked c v t k →
    (c.history.leaderLog t).take k <+: (c.nodes v).logArray.full

theorem CompletenessInv.leaderComplete (hinv : CompletenessInv members boot c) :
    LeaderComplete members boot c := by
  refine ⟨fun t k hchosen e he hlt => ?_, fun t k hchosen a hleads hle => ?_,
    fun t k hchosen v hacked => ?_⟩
  · exact ((hchosen.kept hinv.complete).leader e he hlt).2
  · rw [hleads.2.2]
    exact (hchosen.kept hinv.complete).leaderLog hle hleads.2.1.hasLeader
  · exact (hchosen.kept hinv.complete).held v hacked

/-- Nodes 1 and 2 have the entry of node 1, and node 2 wins term 1 with the vote of node 3. -/
def succeeded : List Action :=
  replicated ++ campaign 2 ++
    [.requestVote ⟨3, node 2, node 3, ⟨1, 1, 0⟩⟩ ⟨[2], 50000⟩,
      .voteReply ⟨3, node 2, node 3, 1, true⟩]

end Completeness

end Cluster

end EyaKV.Raft
