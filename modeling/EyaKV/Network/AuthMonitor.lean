import EyaKV.Network.Authentication

/-!
# The monitor of unauthenticated connections

A thread that brings in a connection has its session in the table before the connection is in
`connections_without_auth_`; the monitor takes the late ones out of that set under its mutex and
closes them behind it; a thread in `close_socket` erases the entry first and the session later. So
a session may be without an entry at each of these points, and an AUTH that is accepted erases the
entry of whoever has the number. There is no other way to be without one (`watched`).
-/

set_option autoImplicit false

namespace EyaKV.Network.Authentication

open EyaKV.Base.Machine Connections

section Watching

variable {server : EyaServer} {s s' : State} {a : Action} {sock : Socket} {peer : Peer}

/-- A thread is about to put the number into `connections_without_auth_`. -/
def State.Coming (s : State) (sock : Socket) : Prop :=
  .inserted sock ∈ s.joining ∨ .assigned sock ∈ s.joining

/-- A thread is about to remove the session of the number. -/
def State.Leaving (s : State) (sock : Socket) : Prop :=
  sock ∈ s.socketsToClose ∨ .called sock ∈ s.closing ∨ .erased sock ∈ s.closing

/-- An AUTH with the password was accepted for the number, while this connection had the session.
It came over a connection that had the number. -/
def State.Excused (server : EyaServer) (s : State) (sock : Socket) (peer : Peer) : Prop :=
  ∃ t, (peer, t) ∈ s.excused ∧ t.sock = sock ∧ t.request.type = .auth ∧
    t.request.password = server.password ∧ s.accepted[t.origin]? = some sock

/-- The monitor knows of a session, or soon will, or need not. -/
def State.Watched (s : State) (sock : Socket) (peer : Peer) : Prop :=
  (∃ start, (sock, start) ∈ s.connectionsWithoutAuth) ∨ s.Coming sock ∨ s.Leaving sock ∨
    ∃ t, (peer, t) ∈ s.excused ∧ t.sock = sock

/-- A step that leaves a number alone. -/
structure Spares (s s' : State) (sock : Socket) : Prop where
  listed : ∀ start, (sock, start) ∈ s.connectionsWithoutAuth →
    (sock, start) ∈ s'.connectionsWithoutAuth
  coming : s.Coming sock → s'.Coming sock
  leaving : s.Leaving sock → s'.Leaving sock
  excused : s.excused ⊆ s'.excused

theorem State.Watched.mono (h : Spares s s' sock) (hwatched : s.Watched sock peer) :
    s'.Watched sock peer := by
  rcases hwatched with ⟨start, hstart⟩ | hcoming | hleaving | ⟨t, ht, hsock⟩
  · exact .inl ⟨start, h.listed start hstart⟩
  · exact .inr (.inl (h.coming hcoming))
  · exact .inr (.inr (.inl (h.leaving hleaving)))
  · exact .inr (.inr (.inr ⟨t, h.excused ht, hsock⟩))

theorem Spares.refl (s : State) (sock : Socket) : Spares s s sock :=
  ⟨fun _ => id, id, id, fun _ => id⟩

/-- Every session is watched. -/
def AllWatched (s : State) : Prop :=
  ∀ sock peer, s.allSessions sock = some peer → s.Watched sock peer

theorem AllWatched.mono (h : AllWatched s) (hsessions : s'.allSessions = s.allSessions)
    (hspares : ∀ sock, Spares s s' sock) : AllWatched s' := fun sock peer hpeer =>
  (h sock peer (hsessions ▸ hpeer)).mono (hspares sock)

/-- What is not at the index stays. -/
theorem mem_eraseIdx_of_ne {α : Type*} {l : List α} {i : Nat} {x y : α} (hx : x ∈ l)
    (hy : l[i]? = some y) (hne : x ≠ y) : x ∈ l.eraseIdx i := by
  obtain ⟨k, hk⟩ := List.mem_iff_getElem?.1 hx
  refine List.mem_eraseIdx_iff_getElem?.2 ⟨k, ?_, hk⟩
  rintro rfl
  exact hne (Option.some.inj (hk.symm.trans hy))

/-- A step that works on one number. -/
theorem AllWatched.update {k : Socket} (h : AllWatched s)
    (hsessions : ∀ sock, sock ≠ k → s'.allSessions sock = s.allSessions sock)
    (hspares : ∀ sock, sock ≠ k → Spares s s' sock)
    (hk : ∀ peer, s'.allSessions k = some peer → s'.Watched k peer) : AllWatched s' := by
  intro sock peer hpeer
  by_cases hsock : sock = k
  · exact hsock ▸ hk peer (hsock ▸ hpeer)
  · rw [hsessions sock hsock] at hpeer
    exact (h sock peer hpeer).mono (hspares sock hsock)

theorem spares_eraseEntry {k : Socket} (hsock : sock ≠ k) : Spares s (s.eraseEntry k) sock :=
  { Spares.refl s sock with
    listed := fun _ hstart => List.mem_filter.2 ⟨hstart, decide_eq_true hsock⟩ }

/-- The session of a thread that brings in a connection has its entry when the thread is done. -/
theorem AllWatched.join (h : AllWatched s) {i : Nat} {j : Joiner} (hj : s.joining[i]? = some j)
    (added : Bool) : AllWatched ({ s with joining := s.joining.eraseIdx i }.joined added j) := by
  have hcoming {sock k : Socket} (hk : j = .inserted k ∨ j = .assigned k) (hsock : sock ≠ k)
      (hcoming : s.Coming sock) :
      .inserted sock ∈ s.joining.eraseIdx i ∨ .assigned sock ∈ s.joining.eraseIdx i := by
    refine hcoming.imp (fun h => mem_eraseIdx_of_ne h hj ?_) fun h => mem_eraseIdx_of_ne h hj ?_
    all_goals
      rintro rfl
      rcases hk with hk | hk <;> cases hk
      exact hsock rfl
  cases j with
  | inserted k =>
      cases added with
      | true =>
          refine h.update (k := k) (fun _ _ => rfl) (fun sock hsock => ?_) fun peer _ => ?_
          · exact { Spares.refl s sock with
              coming := fun h => (hcoming (.inl rfl) hsock h).imp (List.mem_append_left _)
                (List.mem_append_left _) }
          · exact .inr (.inl (.inr (List.mem_append_right _ (List.mem_singleton.2 rfl))))
      | false =>
          refine h.update (k := k) (fun sock hsock => Function.update_of_ne hsock _ _)
            (fun sock hsock => ?_) fun peer hpeer => ?_
          · exact { Spares.refl s sock with
              coming := hcoming (.inl rfl) hsock
              leaving := Or.imp_right (Or.imp (List.mem_append_left _) (List.mem_append_left _)) }
          · -- the session is gone
            exact absurd hpeer (by simp [State.joined])
  | assigned k =>
      simp only [State.joined, State.insertEntry]
      split
      · rename_i hentry
        refine h.update (k := k) (fun _ _ => rfl) (fun sock hsock => ?_) fun peer _ => ?_
        · exact { Spares.refl s sock with coming := hcoming (.inr rfl) hsock }
        · obtain ⟨⟨_, start⟩, hstart, rfl⟩ := List.mem_map.1 hentry
          exact .inl ⟨start, hstart⟩
      · refine h.update (k := k) (fun _ _ => rfl) (fun sock hsock => ?_) fun peer _ => ?_
        · exact { Spares.refl s sock with
            listed := fun _ => List.mem_cons_of_mem _
            coming := hcoming (.inr rfl) hsock }
        · exact .inl ⟨_, List.mem_cons_self⟩

/-- A thread in `close_socket` has the number on its hands until the session is gone. -/
theorem AllWatched.closer (h : AllWatched s) {i : Nat} {c : Closer} (hc : s.closing[i]? = some c) :
    AllWatched ({ s with closing := s.closing.eraseIdx i }.closed c) := by
  have hleaving {sock k : Socket} (hk : c = .called k ∨ c = .erased k) (hsock : sock ≠ k)
      (hleaving : s.Leaving sock) : sock ∈ s.socketsToClose ∨
        .called sock ∈ s.closing.eraseIdx i ∨ .erased sock ∈ s.closing.eraseIdx i := by
    refine hleaving.imp_right (Or.imp (fun h => mem_eraseIdx_of_ne h hc ?_) fun h =>
      mem_eraseIdx_of_ne h hc ?_)
    all_goals
      rintro rfl
      rcases hk with hk | hk <;> cases hk
      exact hsock rfl
  cases c with
  | called k =>
      refine h.update (k := k) (fun _ _ => rfl) (fun sock hsock => ?_) fun peer _ => ?_
      · exact { spares_eraseEntry hsock with
          coming := id
          leaving := fun h => (hleaving (.inl rfl) hsock h).imp_right
            (Or.imp (List.mem_append_left _) (List.mem_append_left _))
          excused := fun _ => id }
      · exact .inr (.inr (.inl (.inr (.inr (List.mem_append_right _ (List.mem_singleton.2 rfl))))))
  | erased k =>
      simp only [State.closed]
      split
      · rename_i hnone
        refine h.update (k := k) (fun _ _ => rfl) (fun sock hsock => ?_) fun peer hpeer => ?_
        · exact { Spares.refl s sock with leaving := hleaving (.inr rfl) hsock }
        · exact absurd (hnone.symm.trans hpeer) (by simp)
      · refine h.update (k := k) (fun sock hsock => Function.update_of_ne hsock _ _)
          (fun sock hsock => ?_) fun peer hpeer => ?_
        · exact { Spares.refl s sock with
            leaving := fun h => (hleaving (.inr rfl) hsock h).imp_right
              (Or.imp (List.mem_append_left _) (List.mem_append_left _)) }
        · exact absurd hpeer (by simp)
  | removed k =>
      refine h.mono rfl fun sock => { Spares.refl s sock with leaving := fun hleaving => ?_ }
      exact hleaving.imp_right (Or.imp
        (fun h => mem_eraseIdx_of_ne h hc Closer.noConfusion)
        fun h => mem_eraseIdx_of_ne h hc Closer.noConfusion)

theorem AllWatched.work (h : AllWatched s) (i : Nat) (task : Task) (raft : Answer) :
    AllWatched ({ s with tasks := s.tasks.eraseIdx i }.handle server task raft) := by
  rcases handle_cases server { s with tasks := s.tasks.eraseIdx i } task raft with
    ⟨r, -, -, heq⟩ | ⟨-, -, heq⟩ | ⟨-, heq⟩
  all_goals rw [heq]
  case inl | inr.inr => exact h.mono rfl fun sock => { Spares.refl s sock with }
  case inr.inl =>
    refine h.update (k := task.sock) (fun _ _ => rfl) (fun sock hsock => ?_) fun peer hpeer => ?_
    · exact { spares_eraseEntry hsock with
        coming := id
        leaving := id
        excused := List.subset_append_left _ _ }
    · -- the session under the number is the one that the request excuses
      refine .inr (.inr (.inr ⟨task, List.mem_append_right _ ?_, rfl⟩))
      exact List.mem_map.2 ⟨peer, Option.mem_toList.2 hpeer, rfl⟩

theorem AllWatched.monitor (h : AllWatched s) (hnone : s.socketsToClose = []) :
    AllWatched s.collect := by
  intro sock peer hpeer
  rcases h sock peer hpeer with ⟨start, hstart⟩ | hcoming | hleaving | hexcused
  · by_cases hold : 2000 < s.now - start
    · exact .inr (.inr (.inl (.inl (List.mem_map.2
        ⟨(sock, start), List.mem_filter.2 ⟨hstart, decide_eq_true hold⟩, rfl⟩))))
    · exact .inl ⟨start, List.mem_filter.2 ⟨hstart, decide_eq_true hold⟩⟩
  · exact .inr (.inl hcoming)
  · rw [State.Leaving, hnone] at hleaving
    exact .inr (.inr (.inl (.inr (hleaving.resolve_left List.not_mem_nil))))
  · exact .inr (.inr (.inr hexcused))

theorem AllWatched.kick {k : Socket} {rest : List Socket} (h : AllWatched s)
    (hlist : s.socketsToClose = k :: rest) :
    AllWatched { s with socketsToClose := rest, closing := s.closing ++ [.called k] } := by
  refine h.update (k := k) (fun _ _ => rfl) (fun sock hsock => ?_) fun peer _ => ?_
  · refine { Spares.refl s sock with leaving := fun hleaving => ?_ }
    rw [State.Leaving, hlist] at hleaving
    refine hleaving.imp (fun hmem => (List.mem_cons.1 hmem).resolve_left hsock)
      (Or.imp (List.mem_append_left _) (List.mem_append_left _))
  · exact .inr (.inr (.inl (.inr (.inl (List.mem_append_right _ (List.mem_singleton.2 rfl))))))

theorem AllWatched.step (h : AllWatched s) (hstep : step server s a = some s') :
    AllWatched s' := by
  have hsame {t : State} (hsessions : t.allSessions = s.allSessions)
      (hlisted : t.connectionsWithoutAuth = s.connectionsWithoutAuth)
      (hjoining : t.joining = s.joining) (hclose : t.socketsToClose = s.socketsToClose)
      (hclosing : s.closing ⊆ t.closing) (hexcused : t.excused = s.excused) : AllWatched t :=
    h.mono hsessions fun sock =>
      ⟨fun _ hstart => hlisted ▸ hstart, fun hcoming => by rwa [State.Coming, hjoining],
        fun hleaving => by
          rw [State.Leaving, hclose]
          exact hleaving.imp_right (Or.imp (hclosing ·) (hclosing ·)),
        hexcused ▸ List.Subset.refl _⟩
  have hquiet := List.Subset.refl s.closing
  cases a with
  | tick ms => exact Option.some.inj hstep ▸ hsame rfl rfl rfl rfl hquiet rfl
  | accept sock =>
      simp only [Authentication.step] at hstep
      split at hstep
      · exact Option.some.inj hstep ▸ hsame rfl rfl rfl rfl hquiet rfl
      · cases hstep
  | reject i =>
      obtain ⟨c, -, rfl⟩ := Option.map_eq_some_iff.1 hstep
      exact hsame rfl rfl rfl rfl hquiet rfl
  | assign i =>
      obtain ⟨c, -, rfl⟩ := Option.map_eq_some_iff.1 hstep
      refine h.update (k := c.1) (fun sock hsock => Function.update_of_ne hsock _ _)
        (fun sock _ => ?_) fun peer _ => ?_
      · exact { Spares.refl s sock with
          coming := Or.imp (List.mem_append_left _) (List.mem_append_left _) }
      · exact .inr (.inl (.inl (List.mem_append_right _ (List.mem_singleton.2 rfl))))
  | join i added =>
      obtain ⟨j, hj, rfl⟩ := Option.map_eq_some_iff.1 hstep
      exact h.join hj added
  | read sock =>
      simp only [Authentication.step] at hstep
      split at hstep
      · cases hstep
      · exact Option.some.inj hstep ▸ hsame rfl rfl rfl rfl hquiet rfl
  | receive i request =>
      obtain ⟨sock, -, hstep⟩ := Option.bind_eq_some_iff.1 hstep
      obtain ⟨peer, -, rfl⟩ := Option.map_eq_some_iff.1 hstep
      exact hsame rfl rfl rfl rfl hquiet rfl
  | leave i => exact Option.some.inj hstep ▸ hsame rfl rfl rfl rfl hquiet rfl
  | submit i submitted =>
      obtain ⟨task, -, rfl⟩ := Option.map_eq_some_iff.1 hstep
      cases submitted <;> exact hsame rfl rfl rfl rfl hquiet rfl
  | work i raft =>
      obtain ⟨task, -, rfl⟩ := Option.map_eq_some_iff.1 hstep
      exact h.work i task raft
  | send i =>
      obtain ⟨r, -, rfl⟩ := Option.map_eq_some_iff.1 hstep
      refine hsame rfl rfl rfl rfl ?_ rfl
      simp only [State.sent]
      split
      · exact List.subset_append_left _ _
      · exact hquiet
  | flush i sent =>
      obtain ⟨r, -, rfl⟩ := Option.map_eq_some_iff.1 hstep
      cases sent <;> exact hsame rfl rfl rfl rfl hquiet rfl
  | close sock =>
      exact Option.some.inj hstep ▸ hsame rfl rfl rfl rfl (List.subset_append_left _ _) rfl
  | closer i =>
      obtain ⟨c, hc, rfl⟩ := Option.map_eq_some_iff.1 hstep
      exact h.closer hc
  | monitor =>
      simp only [Authentication.step] at hstep
      split at hstep
      · rename_i hnone
        exact Option.some.inj hstep ▸ h.monitor hnone
      · cases hstep
  | kick =>
      simp only [Authentication.step] at hstep
      split at hstep
      · cases hstep
      · rename_i hlist
        exact Option.some.inj hstep ▸ h.kick hlist

/-- **Nobody slips past the monitor.** In every state a session is listed, or its number is in the
hands of a thread that lists it or removes it, or an AUTH with the password was accepted for the
number while the session was there. When the monitor has just looked, what is listed has been there
for two seconds at most. -/
theorem watched (actions : List Action) (s : State)
    (hrun : run (step server) {} actions = some s) (sock : Socket) (peer : Peer)
    (hpeer : s.allSessions sock = some peer) :
    s.Coming sock ∨ s.Leaving sock ∨ s.Excused server sock peer ∨
      ∃ start, (sock, start) ∈ s.connectionsWithoutAuth ∧
        ∀ t, step server t .monitor = some s → s.now ≤ start + 2000 := by
  have hinv := inv_run actions s hrun
  have hwatched : AllWatched s := run_invariant (fun _ _ _ h hs => h.step hs) actions {} s
    (fun _ _ h => by cases h) hrun
  rcases hwatched sock peer hpeer with ⟨start, hstart⟩ | hcoming | hleaving | ⟨t, ht, rfl⟩
  · refine .inr (.inr (.inr ⟨start, hstart, fun t hstep => ?_⟩))
    simp only [step] at hstep
    split at hstep
    · obtain rfl := Option.some.inj hstep
      have hold : ¬ 2000 < t.now - start := of_decide_eq_true (List.mem_filter.1 hstart).2
      exact Nat.sub_le_iff_le_add'.1 (Nat.le_of_not_lt hold)
    · cases hstep
  · exact .inl hcoming
  · exact .inr (.inl hleaving)
  · obtain ⟨htype, hpassword, hnumber⟩ := hinv.excused _ ht
    exact .inr (.inr (.inl ⟨t, ht, rfl, htype, hpassword, hnumber⟩))

/-- A client that sends nothing is on the monitor's list of sockets. -/
def silent : List Action :=
  [.accept 5, .assign 0, .join 0 true, .join 0 true, .tick 2001, .monitor]

theorem watched_silent : ∃ s, run (step guarded) {} silent = some s ∧ 5 ∈ s.socketsToClose ∧
    (s.Coming 5 ∨ s.Leaving 5 ∨ s.Excused guarded 5 0 ∨
      ∃ start, (5, start) ∈ s.connectionsWithoutAuth ∧
        ∀ t, step guarded t .monitor = some s → s.now ≤ start + 2000) :=
  ⟨_, rfl, List.mem_singleton.2 rfl, watched silent _ rfl 5 0 rfl⟩

end Watching

end EyaKV.Network.Authentication
