import EyaKV.Raft.Cluster
import EyaKV.Raft.Joining

/-!
# Convergence of the membership

A node is in the view of another that has been answered when it was listed before the answer
was copied, or announced after the socket of the other was registered. Of two calls whose
announcements and registrations overlap one has neither (`Missed`), and nothing repairs that
later; calls that do not overlap miss nothing (`Complete`). `membership_converges` says so of
every run, for the state in which no call is open and no message is in flight.
-/

set_option autoImplicit false

namespace EyaKV.Raft

open EyaKV.Base EyaKV.Store

namespace Membership

variable {cfg : RaftNodeConfig} {leader : Address} {m m' : Membership}

section Alone

variable {act : JoinAction}

/-- At most one call is open, and a node that has been answered will know the leader and all
that have been announced. -/
structure Complete (leader : Address) (m : Membership) : Prop where
  single : ∀ k c k' c', m.calls k = some c → m.calls k' = some c' →
    c.stage.isOpen = true → c'.stage.isOpen = true → k = k'
  known : ∀ k c, m.Follows k c → ∀ b, b ≠ c.addr →
    (b = leader ∨ m.HasCall JoinStage.isAnnounced b) → b ∈ m.view leader k c.addr

/-- An open call was open before, or the step is its announcement. -/
theorem open_of_step (hstep : m.step cfg leader act = some m') {k : Conn} {c : JoinCall}
    (hc : m'.calls k = some c) (hopen : c.stage.isOpen = true) :
    (∃ c₀, m.calls k = some c₀ ∧ c₀.stage.isOpen = true) ∨ act = .announce k := by
  -- a step that moves a call on leaves it open only if it was open
  have hadvance : ∀ {conn : Conn} {call : JoinCall} {stage : JoinStage},
      m.calls conn = some call →
      m'.calls = Function.update m.calls conn (some { call with stage := stage }) →
      (stage.isOpen = true → call.stage.isOpen = true) →
      ∃ c₀, m.calls k = some c₀ ∧ c₀.stage.isOpen = true := by
    intro conn call stage hcall hcalls hback
    rcases (calls_setStage hcalls).1 hc with ⟨-, hold⟩ | ⟨rfl, rfl⟩
    · exact ⟨c, hold, hopen⟩
    · exact ⟨call, hcall, hback hopen⟩
  cases act with
  | connect a term commitIndex =>
      simp only [step] at hstep
      split at hstep
      · cases hstep
      · obtain rfl := Option.some.inj hstep
        rcases calls_connect.1 hc with ⟨-, hc⟩ | ⟨-, rfl⟩
        · exact Or.inl ⟨c, hc, hopen⟩
        · cases hopen
  | announce conn =>
      obtain ⟨call, hcall, hstage, rfl⟩ := whenAt_eq_some.1 hstep
      by_cases hk : k = conn
      · exact Or.inr (hk ▸ rfl)
      · refine Or.inl ⟨c, ?_, hopen⟩
        simp only [announce] at hc
        split at hc
        · exact (Function.update_of_ne hk _ _).symm.trans hc
        · split at hc
          · exact (Function.update_of_ne hk _ _).symm.trans hc
          · exact (Function.update_of_ne hk _ _).symm.trans hc
  | answer conn =>
      obtain ⟨call, hcall, hstage, rfl⟩ := whenAt_eq_some.1 hstep
      exact Or.inl (hadvance hcall rfl fun _ => by rw [hstage]; rfl)
  | list conn =>
      obtain ⟨call, hcall, hstage, rfl⟩ := whenAt_eq_some.1 hstep
      exact Or.inl (hadvance hcall rfl fun _ => by rw [hstage]; rfl)
  | register conn =>
      obtain ⟨call, hcall, hstage, rfl⟩ := whenAt_eq_some.1 hstep
      exact Or.inl (hadvance hcall rfl fun hfalse => by cases hfalse)
  | deliver conn =>
      simp only [step] at hstep
      split at hstep
      · split at hstep
        · obtain rfl := Option.some.inj hstep
          exact Or.inl ⟨c, hc, hopen⟩
        · cases hstep
      · cases hstep

/-- A call that has been announced is open until its socket is registered. -/
theorem isOpen_of_isAnnounced {stage : JoinStage} (h : stage.isAnnounced = true)
    (hne : stage ≠ .registered) : stage.isOpen = true := by
  cases stage with
  | registered => exact absurd rfl hne
  | requested => cases h
  | refused => cases h
  | announced => rfl
  | answered => rfl
  | listed => rfl

theorem isAnnounced_of_isAnswered {stage : JoinStage} (h : stage.isAnswered = true) :
    stage.isAnnounced = true := by
  cases stage with
  | requested => cases h
  | refused => cases h
  | announced => cases h
  | answered => rfl
  | listed => rfl
  | registered => rfl

theorem Complete.next (h : Complete leader m) (hwf : Wf cfg leader m)
    (halone : Alone cfg m act) (hstep : m.step cfg leader act = some m') :
    Complete leader m' := by
  have hok := hwf.stepOk hstep
  constructor
  · intro k c k' c' hc hc' hopen hopen'
    -- at the announcement no other call is open
    have hnone : ∀ k c, m'.calls k = some c → c.stage.isOpen = true → act = .announce k →
        ∀ k' c₀, m.calls k' = some c₀ → c₀.stage.isOpen = false := by
      rintro k c hc hopen rfl
      obtain ⟨call, hcall, -, -⟩ := whenAt_eq_some.1 hstep
      obtain ⟨c₀, hc₀, haddr, -⟩ := hok.grows.calls k call hcall
      obtain rfl := Option.some.inj (hc.symm.trans hc₀)
      intro k' c₁ hc₁
      refine halone call hcall ?_ k' (hwf.calls.lt hc₁) c₁ hc₁
      rw [← haddr]
      refine hok.calls.trusted k c hc ?_
      revert hopen
      cases c.stage <;> decide
    rcases open_of_step hstep hc hopen with ⟨c₀, hc₀, hopen₀⟩ | hact
    · rcases open_of_step hstep hc' hopen' with ⟨c₁, hc₁, hopen₁⟩ | hact'
      · exact h.single k c₀ k' c₁ hc₀ hc₁ hopen₀ hopen₁
      · rw [hnone k' c' hc' hopen' hact' k c₀ hc₀] at hopen₀
        cases hopen₀
    · rcases open_of_step hstep hc' hopen' with ⟨c₁, hc₁, hopen₁⟩ | hact'
      · rw [hnone k c hc hopen hact k' c₁ hc₁] at hopen₁
        cases hopen₁
      · rw [hact] at hact'
        exact JoinAction.announce.inj hact'
  · intro k c hfollows b hne hb
    cases hok.effect with
    | quiet hview hannounced =>
        obtain ⟨c₀, hold, haddr, hsame⟩ := hview k c hfollows
        rw [hannounced] at hb
        rw [hsame, ← haddr]
        exact h.known k c₀ hold b (haddr ▸ hne) hb
    | @announced conn call hact hcall hrequested htrusted hview hannounced =>
        obtain ⟨hold, hsame⟩ := hview k c hfollows
        -- the node is registered, because no call is open
        have hregistered : c.stage = .registered := by
          by_contra hne
          have hopen := isOpen_of_isAnnounced (isAnnounced_of_isAnswered hold.2.1) hne
          rw [hact] at halone
          rw [halone call hcall htrusted k (hwf.calls.lt hold.1) c hold.1] at hopen
          cases hopen
        rw [hannounced] at hb
        rw [hsame]
        split
        · rcases hb with hb | rfl | hb
          · exact Finset.mem_insert_of_mem (h.known k c hold b hne (Or.inl hb))
          · exact Finset.mem_insert_self _ _
          · exact Finset.mem_insert_of_mem (h.known k c hold b hne (Or.inr hb))
        · next hsameNode =>
            have heq : call.addr = c.addr := by
              by_contra hdiff
              exact hsameNode ⟨hregistered, hdiff⟩
            rcases hb with hb | rfl | hb
            · exact h.known k c hold b hne (Or.inl hb)
            · exact absurd heq hne
            · exact h.known k c hold b hne (Or.inr hb)
    | @answered conn call hcall hstage hview hannounced =>
        rw [hannounced] at hb
        rcases hview k c hfollows with ⟨hold, hsame⟩ | ⟨rfl, haddr, hsame⟩
        · rw [hsame]
          exact h.known k c hold b hne hb
        · rw [hsame, Finset.mem_erase, Finset.mem_insert]
          refine ⟨hne, hb.imp_right fun ⟨k', c', hc', haddr', hann⟩ => ?_⟩
          rw [hwf.calls.listed]
          refine ⟨k', c', hc', haddr', ?_⟩
          -- a call that is announced and not listed is open, so it is this one
          by_contra hlisted
          have hopen : c'.stage.isOpen = true := by
            refine isOpen_of_isAnnounced hann ?_
            intro hreg
            rw [hreg] at hlisted
            exact hlisted rfl
          obtain rfl := h.single k call k' c' hcall hc' (by rw [hstage]; rfl) hopen
          obtain rfl := Option.some.inj (hcall.symm.trans hc')
          exact hne (haddr'.symm.trans haddr.symm)

theorem Complete.init : Complete leader {} := by
  constructor
  · intro k c k' c' hc
    cases hc
  · rintro k c ⟨hc, -⟩
    cases hc

end Alone

section Overlaps

variable {act : JoinAction}

/-- The call `k` has been answered, and its node will not know the node at `b`. -/
def Unaware (leader : Address) (m : Membership) (k : Conn) (c : JoinCall) (b : Address) : Prop :=
  c.stage.isAnswered = true ∧ b ∉ m.view leader k c.addr

/-- Two announced calls: both wait for their answer, or the node of one of them is unaware of
the other. -/
def Missed (leader : Address) (m : Membership) : Prop :=
  ∃ k c k' c', m.calls k = some c ∧ m.calls k' = some c' ∧ c.addr ≠ c'.addr ∧
    c.stage.isAnnounced = true ∧ c'.stage.isAnnounced = true ∧
    ((c.stage.isAnswered = false ∧ c'.stage.isAnswered = false) ∨
      Unaware leader m k c c'.addr ∨ Unaware leader m k' c' c.addr)

theorem Grows.once (h : Grows m m') (honce : JoinedOnce m') : JoinedOnce m := by
  intro k c k' c' hc hc' haddr
  obtain ⟨d, hd, hdaddr, -⟩ := h.calls k c hc
  obtain ⟨d', hd', hdaddr', -⟩ := h.calls k' c' hc'
  exact honce k d k' d' hd hd' (hdaddr.trans (haddr.trans hdaddr'.symm))

/-- When no node joins twice, an answered node is on the connection of its call. -/
theorem Wf.follows (h : Wf cfg leader m) (honce : JoinedOnce m) {k : Conn} {c : JoinCall}
    (hc : m.calls k = some c) (hanswered : c.stage.isAnswered = true) : m.Follows k c := by
  have htrust := h.calls.trusted k c hc (isAnnounced_of_isAnswered hanswered)
  obtain ⟨k', hk'⟩ := h.nodes.client k c hc htrust
  obtain ⟨c', hc', haddr, -⟩ := h.nodes.channel c.addr k' (h.calls.addr k c hc) hk'
  obtain rfl := honce k' c' k c hc' hc haddr
  exact ⟨hc, hanswered, hk'⟩

/-- A node that is unaware of an announced one remains so. -/
theorem Unaware.next (hok : StepOk cfg leader m act m') (honce : JoinedOnce m)
    {k k' : Conn} {c d c' : JoinCall} (h : Unaware leader m k c c'.addr)
    (hc : m.calls k = some c) (hc' : m.calls k' = some c')
    (hannounced' : c'.stage.isAnnounced = true) (hd : m'.Follows k d)
    (haddr : d.addr = c.addr) : Unaware leader m' k d c'.addr := by
  obtain ⟨hanswered, hview⟩ := h
  refine ⟨hd.2.1, ?_⟩
  rw [← haddr] at hview
  cases hok.effect with
  | quiet heffect _ =>
      obtain ⟨_, _, _, hsame⟩ := heffect k d hd
      rw [hsame]
      exact hview
  | @announced conn call _ hcall hrequested _ heffect _ =>
      rw [(heffect k d hd).2]
      split
      · intro hmem
        rcases Finset.mem_insert.1 hmem with heq | hmem
        · -- the announced node is another one, because it has been announced before
          obtain rfl := honce k' c' conn call hc' hcall heq
          obtain rfl := Option.some.inj (hc'.symm.trans hcall)
          rw [hrequested] at hannounced'
          cases hannounced'
        · exact hview hmem
      · exact hview
  | @answered conn call hcall hstage heffect _ =>
      rcases heffect k d hd with ⟨-, hsame⟩ | ⟨rfl, -, -⟩
      · rw [hsame]
        exact hview
      · obtain rfl := Option.some.inj (hc.symm.trans hcall)
        rw [hstage] at hanswered
        cases hanswered

/-- A node that is answered while another call waits for its answer. -/
theorem unaware_of_answer (hwf : Wf cfg leader m) (hok : StepOk cfg leader m act m')
    (honce : JoinedOnce m) {k k' : Conn} {c d c' : JoinCall} (hc : m.calls k = some c)
    (hc' : m.calls k' = some c') (hwaits : c.stage.isAnswered = false)
    (hwaits' : c'.stage.isAnswered = false) (hd : m'.Follows k d) :
    Unaware leader m' k d c'.addr := by
  have hnot : ∀ c₀, ¬ m.Follows k c₀ := by
    intro c₀ hfollows
    obtain rfl := Option.some.inj (hc.symm.trans hfollows.1)
    have hanswered := hfollows.2.1
    rw [hwaits] at hanswered
    cases hanswered
  refine ⟨hd.2.1, fun hmem => ?_⟩
  cases hok.effect with
  | quiet heffect _ =>
      obtain ⟨c₀, hfollows, -⟩ := heffect k d hd
      exact hnot c₀ hfollows
  | announced _ _ _ _ heffect _ => exact hnot d (heffect k d hd).1
  | answered _ _ heffect _ =>
      rcases heffect k d hd with ⟨hfollows, -⟩ | ⟨rfl, -, hsame⟩
      · exact hnot d hfollows
      · -- the copy has the listed nodes only
        rw [hsame] at hmem
        rcases Finset.mem_insert.1 (Finset.mem_of_mem_erase hmem) with heq | hlist
        · exact hwf.calls.addr k' c' hc' heq
        · obtain ⟨k₀, c₀, hc₀, haddr, hlisted⟩ := (hwf.calls.listed _).1 hlist
          obtain rfl := honce k₀ c₀ k' c' hc₀ hc' haddr
          obtain rfl := Option.some.inj (hc₀.symm.trans hc')
          revert hlisted hwaits'
          cases c₀.stage <;> decide

theorem Missed.next (h : Missed leader m) (hwf : Wf cfg leader m)
    (hok : StepOk cfg leader m act m') (honce' : JoinedOnce m') : Missed leader m' := by
  obtain ⟨k, c, k', c', hc, hc', hne, hannounced, hannounced', hcases⟩ := h
  obtain ⟨d, hd, haddr, hd₁, hd₂⟩ := hok.grows.calls k c hc
  obtain ⟨d', hd', haddr', hd₁', hd₂'⟩ := hok.grows.calls k' c' hc'
  have honce := hok.grows.once honce'
  have hfollows : ∀ {k d}, m'.calls k = some d → d.stage.isAnswered = true → m'.Follows k d :=
    fun hd hanswered => (hwf.next hok).follows honce' hd hanswered
  refine ⟨k, d, k', d', hd, hd', ?_, hd₁ hannounced, hd₁' hannounced', ?_⟩
  · rw [haddr, haddr']
    exact hne
  rw [haddr, haddr']
  rcases hcases with ⟨hwaits, hwaits'⟩ | hunaware | hunaware
  · cases hans : d.stage.isAnswered with
    | true =>
        exact Or.inr (Or.inl (unaware_of_answer hwf hok honce hc hc' hwaits hwaits'
          (hfollows hd hans)))
    | false =>
        cases hans' : d'.stage.isAnswered with
        | true =>
            exact Or.inr (Or.inr (unaware_of_answer hwf hok honce hc' hc hwaits' hwaits
              (hfollows hd' hans')))
        | false => exact Or.inl ⟨rfl, rfl⟩
  · exact Or.inr (Or.inl (hunaware.next hok honce hc hc' hannounced'
      (hfollows hd (hd₂ hunaware.1)) haddr))
  · exact Or.inr (Or.inr (hunaware.next hok honce hc' hc hannounced
      (hfollows hd' (hd₂' hunaware.1)) haddr'))

/-- An announcement while another call is open. -/
theorem missed_of_not_alone (hwf : Wf cfg leader m) (halone : ¬ Alone cfg m act)
    (hstep : m.step cfg leader act = some m') (honce' : JoinedOnce m') : Missed leader m' := by
  have hok := hwf.stepOk hstep
  have honce := hok.grows.once honce'
  cases act with
  | announce conn =>
      simp only [Alone, Option.mem_def, not_forall, Bool.not_eq_false] at halone
      obtain ⟨call, hcall, htrust, k, -, c, hc, hopen⟩ := halone
      obtain ⟨call', hcall', hstage, rfl⟩ := whenAt_eq_some.1 hstep
      obtain rfl := Option.some.inj (hcall.symm.trans hcall')
      have hk : k ≠ conn := by
        rintro rfl
        obtain rfl := Option.some.inj (hcall.symm.trans hc)
        rw [hstage] at hopen
        cases hopen
      have hne : c.addr ≠ call.addr := fun heq => hk (honce k c conn call hc hcall heq)
      have hannounce : m.announce cfg leader conn call =
          (m.broadcast (m.nodes leader).followerSockets (.newNode call.addr)).setStage conn call
            .announced := by
        rw [announce, if_neg (not_not.2 hwf.calls.role), htrust]
        rfl
      rw [hannounce] at hok honce' ⊢
      have hannounced : c.stage.isAnnounced = true := by
        revert hopen
        cases c.stage <;> decide
      refine ⟨k, c, conn, _, (Function.update_of_ne hk _ _).trans hc,
        Function.update_self _ _ _, hne, hannounced, rfl, ?_⟩
      cases hans : c.stage.isAnswered with
      | false => exact Or.inl ⟨rfl, rfl⟩
      | true =>
          refine Or.inr (Or.inl ⟨hans, fun hmem => ?_⟩)
          have hsocket : k ∉ (m.nodes leader).followerSockets := by
            intro hmem
            obtain ⟨c₀, hc₀, hreg⟩ := (hwf.calls.sockets k).1 hmem
            obtain rfl := Option.some.inj (hc.symm.trans hc₀)
            rw [hreg] at hopen
            cases hopen
          have hview : call.addr ∈ m.view leader k c.addr := by
            have hchannel : ((m.broadcast (m.nodes leader).followerSockets
                (.newNode call.addr)).setStage conn call .announced).channel k = m.channel k :=
              if_neg hsocket
            simp only [view, hchannel] at hmem
            exact hmem
          -- the new node has not been announced before
          rcases (hwf.sound k c (hwf.follows honce hc hans) call.addr hview).2 with
            heq | ⟨k₀, c₀, hc₀, haddr, hann⟩
          · exact hwf.calls.addr conn call hcall heq
          · obtain rfl := honce k₀ c₀ conn call hc₀ hcall haddr
            obtain rfl := Option.some.inj (hc₀.symm.trans hcall)
            rw [hstage] at hann
            cases hann
  | _ => exact absurd trivial halone

end Overlaps

section Convergence

/-- A member that has received everything knows what its view says. -/
theorem AtRest.view (hrest : AtRest m) (hwf : Wf cfg leader m) {k : Conn} {c : JoinCall}
    (hfollows : m.Follows k c) :
    m.view leader k c.addr = (m.nodes c.addr).state.clusterNodes := by
  have hempty := (hrest k (hwf.calls.lt hfollows.1) c hfollows.1).2 hfollows.2.2
  simp only [Membership.view, hempty, viewAfter]

theorem AtRest.registered (hrest : AtRest m) (hwf : Wf cfg leader m) {k : Conn} {c : JoinCall}
    (hc : m.calls k = some c) (hannounced : c.stage.isAnnounced = true) :
    c.stage = .registered := by
  refine (hrest k (hwf.calls.lt hc) c hc).1.resolve_right fun hrefused => ?_
  rw [hrefused] at hannounced
  cases hannounced

/-- The members are the leader and the announced nodes. -/
theorem AtRest.isMember_iff (hrest : AtRest m) (hwf : Wf cfg leader m) {b : Address} :
    IsMember leader m b ↔ b = leader ∨ m.HasCall JoinStage.isAnnounced b := by
  refine or_congr_right ⟨?_, ?_⟩
  · rintro ⟨k, c, hc, haddr, hstage⟩
    refine ⟨k, c, hc, haddr, ?_⟩
    rw [beq_iff_eq.1 hstage]
    rfl
  · rintro ⟨k, c, hc, haddr, hann⟩
    exact ⟨k, c, hc, haddr, beq_iff_eq.2 (hrest.registered hwf hc hann)⟩

theorem converged_of_complete (hwf : Wf cfg leader m) (hcomplete : Complete leader m)
    (hrest : AtRest m) : Converged leader m := by
  intro a ha b
  rw [(hrest.isMember_iff hwf)]
  by_cases hleader : a = leader
  · subst hleader
    rw [hwf.calls.listed]
    constructor
    · rintro ⟨k, c, hc, rfl, hlisted⟩
      refine ⟨Or.inr ⟨k, c, hc, rfl, ?_⟩, hwf.calls.addr k c hc⟩
      revert hlisted
      cases c.stage <;> decide
    · rintro ⟨hb | ⟨k, c, hc, haddr, hann⟩, hne⟩
      · exact absurd hb hne
      · exact ⟨k, c, hc, haddr, by rw [hrest.registered hwf hc hann]; rfl⟩
  · obtain ⟨k, c, hc, rfl, hstage⟩ := ha.resolve_left hleader
    have htrust := hwf.calls.trusted k c hc (by rw [beq_iff_eq.1 hstage]; rfl)
    -- the last connection of the node
    obtain ⟨k', hk'⟩ := hwf.nodes.client k c hc htrust
    obtain ⟨c', hc', haddr, -⟩ := hwf.nodes.channel c.addr k' hleader hk'
    have hregistered : c'.stage = .registered := by
      refine (hrest k' (hwf.calls.lt hc') c' hc').1.resolve_right fun hrefused => ?_
      have hfalse := hwf.calls.refused k' c' hc' hrefused
      rw [haddr, htrust] at hfalse
      cases hfalse
    have hfollows : m.Follows k' c' :=
      ⟨hc', by rw [hregistered]; rfl, by rw [haddr]; exact hk'⟩
    rw [← haddr, ← hrest.view hwf hfollows]
    constructor
    · intro hb
      obtain ⟨hne, hknown⟩ := hwf.sound k' c' hfollows b hb
      exact ⟨hknown, hne⟩
    · rintro ⟨hknown, hne⟩
      exact hcomplete.known k' c' hfollows b hne hknown

theorem not_converged_of_missed (hwf : Wf cfg leader m) (hmissed : Missed leader m)
    (honce : JoinedOnce m) (hrest : AtRest m) : ¬ Converged leader m := by
  intro hconverged
  have hknows : ∀ k c k' c', m.calls k = some c → m.calls k' = some c' →
      c.stage.isAnnounced = true → c'.stage.isAnnounced = true → c.addr ≠ c'.addr →
      ¬ Unaware leader m k c c'.addr := by
    rintro k c k' c' hc hc' hann hann' hne ⟨hanswered, hunaware⟩
    rw [hrest.view hwf (hwf.follows honce hc hanswered), hconverged c.addr] at hunaware
    · refine hunaware ⟨(hrest.isMember_iff hwf).2 (Or.inr ⟨k', c', hc', rfl, hann'⟩), hne.symm⟩
    · exact (hrest.isMember_iff hwf).2 (Or.inr ⟨k, c, hc, rfl, hann⟩)
  obtain ⟨k, c, k', c', hc, hc', hne, hann, hann', hcases⟩ := hmissed
  rcases hcases with ⟨hwaits, -⟩ | hunaware | hunaware
  · rw [hrest.registered hwf hc hann] at hwaits
    cases hwaits
  · exact hknows k c k' c' hc hc' hann hann' hne hunaware
  · exact hknows k' c' k c hc' hc hann' hann hne.symm hunaware

open Machine in
/-- **Convergence of the membership.** When everything has come to rest after a run in which no
call makes its announcement while another is open, every member knows exactly the other
members. When no node joins twice, that is the only way. -/
theorem membership_converges (cfg : RaftNodeConfig) (leader : Address) (actions : List JoinAction)
    (m : Membership) (hrun : run (step cfg leader) {} actions = some m) (hrest : AtRest m) :
    (RunMeets (step cfg leader) (Alone cfg) {} actions → Converged leader m) ∧
      (JoinedOnce m → Converged leader m →
        RunMeets (step cfg leader) (Alone cfg) {} actions) := by
  have hwf : ∀ actions m m', Wf cfg leader m → run (step cfg leader) m actions = some m' →
      Wf cfg leader m' :=
    fun actions => run_invariant (fun m act m' h hstep => h.next (h.stepOk hstep)) actions
  constructor
  · intro hmeets
    have hboth : Wf cfg leader m ∧ Complete leader m := by
      refine run_induction (P := fun m => Wf cfg leader m ∧ Complete leader m) ?_ actions {} m
        ⟨.init, .init⟩ hmeets hrun
      intro m act m' h halone hstep
      exact ⟨h.1.next (h.1.stepOk hstep), h.2.next h.1 halone hstep⟩
    exact converged_of_complete hboth.1 hboth.2 hrest
  · intro honce hconverged
    by_contra hmeets
    obtain ⟨before, act, after, t, t', hbefore, halone, hstep, hafter⟩ :=
      exists_violation actions {} m hrun hmeets
    have ht := hwf before {} t .init hbefore
    have hmissed : Wf cfg leader m ∧ (JoinedOnce m → Missed leader m) := by
      refine run_invariant (P := fun m => Wf cfg leader m ∧ (JoinedOnce m → Missed leader m))
        ?_ after t' m ⟨ht.next (ht.stepOk hstep), missed_of_not_alone ht halone hstep⟩ hafter
      intro m act m' h hstep
      have hok := h.1.stepOk hstep
      exact ⟨h.1.next hok, fun honce => (h.2 (hok.grows.once honce)).next h.1 hok honce⟩
    exact not_converged_of_missed hmissed.1 (hmissed.2 honce) honce hrest hconverged

section TwoNodes

open Cluster

/-- Node 3 joins when node 2 has joined. -/
def inTurn : List JoinAction :=
  [.connect (node 2) 0 0, .announce 1, .answer 1, .list 1, .register 1, .deliver 1,
    .connect (node 3) 0 0, .announce 2, .answer 2, .list 2, .register 2, .deliver 2, .deliver 1]

theorem membership_converges_inTurn :
    ∃ m, Machine.run (step plainConfig (node 1)) {} inTurn = some m ∧ AtRest m ∧
      node 3 ∈ (m.nodes (node 2)).state.clusterNodes ∧ Converged (node 1) m := by
  obtain ⟨m, hrun, hrest, hmem⟩ : ∃ m ∈ Machine.run (step plainConfig (node 1)) {} inTurn,
      AtRest m ∧ node 3 ∈ (m.nodes (node 2)).state.clusterNodes := by
    decide
  have hmeets : Machine.RunMeets (step plainConfig (node 1)) (Alone plainConfig) {} inTurn := by
    decide
  exact ⟨m, hrun, hrest, hmem,
    (membership_converges plainConfig (node 1) inTurn m hrun hrest).1 hmeets⟩

/-- The nodes 2 and 3 join at the same time. -/
def atOnce : List JoinAction :=
  [.connect (node 2) 0 0, .connect (node 3) 0 0, .announce 1, .announce 2, .answer 1, .answer 2,
    .list 1, .list 2, .register 1, .register 2, .deliver 1, .deliver 2]

/-- Neither has been announced to the other, and neither is in the other's copy. -/
theorem not_converged_atOnce :
    ¬ ∀ (cfg : RaftNodeConfig) (leader : Address) (actions : List JoinAction) (m : Membership),
      Machine.run (step cfg leader) {} actions = some m → AtRest m → Converged leader m := by
  intro h
  obtain ⟨m, hrun, hrest, hcall₁, hcall₂, hmem⟩ :
      ∃ m ∈ Machine.run (step plainConfig (node 1)) {} atOnce, AtRest m ∧
        m.calls 1 = some ⟨node 2, 0, .registered⟩ ∧ m.calls 2 = some ⟨node 3, 0, .registered⟩ ∧
          node 3 ∉ (m.nodes (node 2)).state.clusterNodes := by
    decide
  refine hmem ((h plainConfig (node 1) atOnce m hrun hrest (node 2) ?_ (node 3)).2 ⟨?_, ?_⟩)
  · exact Or.inr ⟨1, _, hcall₁, rfl, rfl⟩
  · exact Or.inr ⟨2, _, hcall₂, rfl, rfl⟩
  · decide

end TwoNodes

end Convergence

end Membership

end EyaKV.Raft
