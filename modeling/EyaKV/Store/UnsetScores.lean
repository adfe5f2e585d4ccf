import EyaKV.Store.Actions

/-!
# Removals by rank past the skip list

`remove_range_by_rank` declares two keys and sets each when it passes the node of its rank.
The score map of a sorted set may have more members than the skip list has nodes, and then the
end rank has no node: its key keeps the score that the memory held. What a removal does then
differs from call to call, between two nodes and between a command and its replay.

`ZSet.RanksThere` says that no such key is read. Where it holds of the live version, the request
made with any unset score is as good as that with any other (`alike_requestOf`): it is performed
alike (`perform_alike`), and its record repeats the same (`Action.AlikeOn`).
-/

set_option autoImplicit false

namespace EyaKV.Store

open EyaKV.Base EyaKV.Base.Layers

section Scores

variable {F : FloatOps} (u : Double) (key : ZSetKey) (value : Bytes)

@[simp] theorem compareZsetKeys_finding : compareZsetKeys (F.finding u) = compareZsetKeys F := rfl

@[simp] theorem skipInsert_finding (list : ZSkipList) :
    skipInsert (F.finding u) key value list = skipInsert F key value list := by
  induction list with
  | nil => rfl
  | cons node rest ih => simp only [skipInsert, compareZsetKeys_finding, ih]

@[simp] theorem skipRemove_finding (list : ZSkipList) :
    skipRemove (F.finding u) key list = skipRemove F key list := by
  induction list with
  | nil => rfl
  | cons node rest ih => simp only [skipRemove, compareZsetKeys_finding, ih]

namespace ZSet

@[simp] theorem zadd_finding (z : ZSet) (member sc : Bytes) :
    z.zadd (F.finding u) member sc = z.zadd F member sc := by
  simp only [zadd, skipInsert_finding, skipRemove_finding]
  rfl

@[simp] theorem zrem_finding (z : ZSet) (member : Bytes) :
    z.zrem (F.finding u) member = z.zrem F member := by
  simp only [zrem, skipRemove_finding]

@[simp] theorem zincrby_finding (z : ZSet) (member incr : Bytes) :
    z.zincrby (F.finding u) member incr = z.zincrby F member incr := by
  simp only [zincrby, skipInsert_finding, skipRemove_finding]
  rfl

/-- A removal between the ranks reads no key that is not set: it removes nothing, or the list has
a node at its last rank. -/
def RanksThere (z : ZSet) (startRank endRank : Nat) : Prop :=
  endRank < startRank ∨ z.skiplist.length ≤ startRank ∨ endRank < z.skiplist.length

theorem zremRangeByRank_finding {z : ZSet} {startRank endRank : Nat}
    (h : z.RanksThere startRank endRank) :
    z.zremRangeByRank (F.finding u) startRank endRank = z.zremRangeByRank F startRank endRank := by
  simp only [zremRangeByRank]
  split
  · rfl
  · next hsome =>
      rw [not_or] at hsome
      obtain ⟨hle, hne⟩ := hsome
      have hstart : startRank < z.skiplist.length := by
        by_contra hnot
        rw [skipRangeByRank, if_neg hle, List.drop_eq_nil_iff, List.length_take] at hne
        omega
      have hend : endRank < z.skiplist.length :=
        (h.resolve_left hle).resolve_left (Nat.not_le_of_lt hstart)
      -- both keys are those of nodes, so nothing that is not set is read
      have hremoved : skipRemoveRangeByRank (F.finding u) startRank endRank z.skiplist =
          skipRemoveRangeByRank F startRank endRank z.skiplist := by
        simp only [skipRemoveRangeByRank, List.getElem?_eq_getElem hstart,
          List.getElem?_eq_getElem hend, Option.map_some, Option.getD_some]
        rfl
      rw [hremoved]

end ZSet

theorem zaddAll_finding (scoreMembers : List (Bytes × Bytes)) (z : ZSet) :
    zaddAll (F.finding u) scoreMembers z = zaddAll F scoreMembers z := by
  induction scoreMembers generalizing z with
  | nil => rfl
  | cons pair rest ih =>
      simp only [zaddAll, ZSet.zadd_finding]
      cases z.zadd F pair.2 pair.1 with
      | ok z' => exact ih z'
      | error e => rfl

@[simp] theorem zAdd_finding (scoreMembers : List (Bytes × Bytes)) :
    zAdd (F.finding u) scoreMembers = zAdd F scoreMembers := by
  simp only [zAdd, zaddAll_finding]

@[simp] theorem zRem_finding (members : List Bytes) :
    zRem (F.finding u) members = zRem F members := by
  simp only [zRem, ZSet.zrem_finding]

@[simp] theorem zIncrBy_finding (increment member : Bytes) :
    zIncrBy (F.finding u) increment member = zIncrBy F increment member := by
  have hin : zincrbyIn (F.finding u) increment member = zincrbyIn F increment member := by
    funext v
    simp only [zincrbyIn, ZSet.zincrby_finding]
  simp only [zIncrBy, hin]

@[simp] theorem zRemByScore_finding (min max : Bytes) :
    zRemByScore (F.finding u) min max = zRemByScore F min max := rfl

end Scores

section Alike

variable {ρ σ : Type} {now t : Nat} {o : Option EValue} {v : EValue}

/-- Two operations that log the same and do the same to a dead entry, for a missing key, and to
the version `o` when it is alive at the second `now`. -/
structure ValueOp.AlikeOn (op op' : ValueOp ρ) (now : Nat) (o : Option EValue) : Prop where
  type : op.type = op'.type
  payload : op.payload = op'.payload
  onMissing : op.onMissing = op'.onMissing
  dead : ∀ t v, v.isLive t = false → op.inPlace t v = op'.inPlace t v
  inPlace : ∀ v, o = some v → v.isLive now = true → ∀ t, op.inPlace t v = op'.inPlace t v
  onOld : ∀ v, o = some v → v.isLive now = true → op.onOld v = op'.onOld v
  kept : ∀ t v what, (op.inPlace t v).2 ≠ .error (.outOfRange what)

namespace ValueOp.AlikeOn

variable {op op' : ValueOp ρ}

theorem map (f : ρ → σ) (h : op.AlikeOn op' now o) : (op.map f).AlikeOn (op'.map f) now o := by
  refine ⟨h.type, h.payload, ?_, fun t v hdead => ?_, fun v hv hlive t => ?_, fun v hv hlive => ?_,
    fun t v what heq => ?_⟩
  · simp only [ValueOp.map, h.onMissing]
  · simp only [ValueOp.map, h.dead t v hdead]
  · simp only [ValueOp.map, h.inPlace v hv hlive t]
  · simp only [ValueOp.map, h.onOld v hv hlive]
  · simp only [ValueOp.map] at heq
    have hkept := h.kept t v what
    cases hplace : (op.inPlace t v).2 with
    | ok r =>
        rw [hplace] at heq
        cases heq
    | error e =>
        rw [hplace] at heq hkept
        exact hkept (congrArg Except.error (Except.error.inj heq))

theorem bare (h : op.AlikeOn op' now o) : op.bare.AlikeOn op'.bare now o := by
  have hmap := h.map fun _ => ()
  exact ⟨hmap.type, rfl, hmap.onMissing, hmap.dead, hmap.inPlace, hmap.onOld, hmap.kept⟩

/-- What is alive later is alive now. -/
theorem fallback (h : op.AlikeOn op' now o) (hle : now ≤ t) :
    op.fallback (o.filter (EValue.isLive t)) = op'.fallback (o.filter (EValue.isLive t)) := by
  cases hfilter : o.filter (EValue.isLive t) with
  | none => exact h.onMissing
  | some v =>
      obtain ⟨hv, hlive⟩ := Option.filter_eq_some_iff.1 hfilter
      exact h.onOld v hv (EValue.isLive_anti hle hlive)

/-- The callbacks are alike on an entry that is dead, or the newest version. -/
theorem inPlace_of_newest (h : op.AlikeOn op' now o) (hle : now ≤ t)
    (hnewest : v.isLive t = true → o = some v) : op.inPlace t v = op'.inPlace t v := by
  cases hlive : v.isLive t with
  | false => exact h.dead t v hlive
  | true => exact h.inPlace v (hnewest hlive) (EValue.isLive_anti hle hlive) t

end ValueOp.AlikeOn

/-- `z_rem_by_rank` reads no key that is not set, on a set whose ranks are there. -/
theorem zRemByRank_alike {F : FloatOps} (u : Double) {start stop : Int}
    (hthere : ∀ v z, o = some v → v.isLive now = true → v.value = .zset z →
      z.RanksThere (adjustRanks z.zcard start stop).1.toNat
        (adjustRanks z.zcard start stop).2.toNat) :
    (zRemByRank F start stop).AlikeOn (zRemByRank (F.finding u) start stop) now o := by
  have hsame : ∀ v, o = some v → v.isLive now = true → ∀ z, zsets.getIf v.value = some z →
      z.zremRangeByRank (F.finding u) (adjustRanks z.zcard start stop).1.toNat
          (adjustRanks z.zcard start stop).2.toNat =
        z.zremRangeByRank F (adjustRanks z.zcard start stop).1.toNat
          (adjustRanks z.zcard start stop).2.toNat := by
    intro v hv hlive z hget
    exact ZSet.zremRangeByRank_finding u (hthere v z hv hlive (zsets.wrap_getIf _ _ hget).symm)
  refine ⟨rfl, rfl, rfl, fun t v hdead => ?_, fun v hv hlive t => ?_, fun v hv hlive => ?_,
    fun t v what heq => ?_⟩
  · simp only [zRemByRank, remover, EValue.isLive_eq_false_iff.1 hdead, ↓reduceIte]
  · cases hget : zsets.getIf v.value with
    | none => simp only [zRemByRank, remover, hget]
    | some z => simp only [zRemByRank, remover, hget, hsame v hv hlive z hget]
  · cases hget : zsets.getIf v.value with
    | none => simp only [zRemByRank, remover, hget]
    | some z => simp only [zRemByRank, remover, hget, hsame v hv hlive z hget]
  · simp only [zRemByRank, remover] at heq
    split at heq
    · cases heq
    · split at heq
      · cases heq
      · next z _ =>
          revert heq
          split
          · exact fun heq => by cases heq
          · exact fun heq => by cases heq

/-- Two requests that are the same, or update a key alike on its newest version. -/
def Request.AlikeOn (now : Nat) (versions : Bytes → Option EValue) (q q' : Request) : Prop :=
  q = q' ∨ ∃ op op' key, q = .update op key ∧ q' = .update op' key ∧
    op.AlikeOn op' now (versions key)

/-- Two actions that are the same, or update a key alike on its newest version. -/
def Action.AlikeOn (now : Nat) (o : Option EValue) (a a' : Action) : Prop :=
  a = a' ∨ ∃ op op', a = .update op ∧ a' = .update op' ∧ op.AlikeOn op' now o

namespace Action.AlikeOn

variable {a a' : Action} {o' : Option EValue}

/-- Later they write the same, where they find what is alive of the newest version. -/
theorem write (h : Action.AlikeOn now o a a') (hle : now ≤ t)
    (hsame : o'.filter (EValue.isLive t) = o.filter (EValue.isLive t)) :
    a.write t o' = a'.write t o' := by
  rcases h with rfl | ⟨op, op', rfl, rfl, hop⟩
  · rfl
  · simp only [Action.write, ValueOp.write, hsame, hop.fallback hle]

theorem accepts (h : Action.AlikeOn now o a a') (hle : now ≤ t)
    (hnewest : v.isLive t = true → o = some v) : a.Accepts t v ↔ a'.Accepts t v := by
  rcases h with rfl | ⟨op, op', rfl, rfl, hop⟩
  · exact Iff.rfl
  · simp only [Action.Accepts, ValueOp.Accepts, hop.inPlace_of_newest hle hnewest]

end Action.AlikeOn

/-- A removal by rank finds its ranks in the live version of its key. -/
def RanksThere (type : WriteCommand) (args : List Bytes) (live : Bytes → Option EValue) : Prop :=
  type = .logged .zRemByRank → ∀ key start stop rest s e v z,
    args = key :: start :: stop :: rest → stoll start = .ok s → stoll stop = .ok e →
    live key = some v → v.value = .zset z →
      z.RanksThere (adjustRanks z.zcard s e).1.toNat (adjustRanks z.zcard s e).2.toNat

/-- No other command reads what is not set. -/
theorem request_finding (F : FloatOps) (u : Double) {type : WriteCommand} (args : List Bytes)
    (h : type ≠ .logged .zRemByRank) : request (F.finding u) type args = request F type args := by
  cases type with
  | range => rfl
  | logged type =>
      cases type with
      | zRemByRank => exact absurd rfl h
      | zAdd => simp only [request, ZSetProcessor.request, zAdd_finding]
      | zRem => simp only [request, ZSetProcessor.request, zRem_finding]
      | zIncrBy => simp only [request, ZSetProcessor.request, zIncrBy_finding]
      | zRemByScore => simp only [request, ZSetProcessor.request, zRemByScore_finding]
      | _ => rfl

/-- **Any unset score.** A command whose ranks are there makes, with every unset score, requests
that do the same. -/
theorem alike_request (F : FloatOps) (u : Double) {type : WriteCommand} {args : List Bytes}
    {versions : Bytes → Option EValue}
    (h : RanksThere type args fun key => (versions key).filter (EValue.isLive now)) :
    (request F type args).AlikeOn now versions (request (F.finding u) type args) := by
  by_cases htype : type = .logged .zRemByRank
  · subst htype
    rcases args with _ | ⟨key, _ | ⟨start, _ | ⟨stop, rest⟩⟩⟩
    · exact Or.inl rfl
    · exact Or.inl rfl
    · exact Or.inl rfl
    · have hrequest : ∀ G, request G (.logged .zRemByRank) (key :: start :: stop :: rest) =
          caught ((stoll start).bind fun s => (stoll stop).bind fun e =>
            .ok (.call (zRemByRank G s e) Response.count key)) := fun _ => rfl
      rw [hrequest, hrequest]
      cases hs : stoll start with
      | error e => exact Or.inl rfl
      | ok s =>
          cases he : stoll stop with
          | error e => exact Or.inl rfl
          | ok e =>
              refine Or.inr ⟨_, _, key, rfl, rfl,
                (zRemByRank_alike u fun v z hv hlive hz => ?_).map _⟩
              refine h rfl key start stop rest s e v z rfl hs he ?_ hz
              simp only [hv, Option.filter_some, if_pos hlive]
  · exact Or.inl (request_finding F u args htype).symm

theorem alike_requestOf (F : FloatOps) (u : Double) (form : Overload) {type : WriteCommand}
    {args : List Bytes} {versions : Bytes → Option EValue}
    (h : RanksThere type args fun key => (versions key).filter (EValue.isLive now)) :
    (requestOf F form type args).AlikeOn now versions (requestOf (F.finding u) form type args) := by
  cases form with
  | stringView => exact alike_request F u h
  | string =>
      simp only [requestOf]
      split
      · exact Or.inl rfl
      · exact Or.inl rfl
      · exact Or.inl rfl
      · exact Or.inl rfl
      · exact alike_request F u h

end Alike

namespace Storage

variable {ρ : Type} {cfg : StorageConfig} {env : Env} {st : Storage} {key : Bytes} {q q' : Request}

theorem handle_alike (hnormal : st.memtable.Normal) {op op' : ValueOp ρ}
    (h : op.AlikeOn op' env.now (st.newestOf key)) :
    handle cfg env op key st = handle cfg env op' key st := by
  cases hentry : st.memtable.get key with
  | none =>
      -- both look below the memtable
      have hhandle : ∀ f : ValueHandle,
          st.memtable.handleValue key f = (st.memtable, .error (.outOfRange "Key not found")) :=
        fun _ => MemTable.handleValue_of_none hentry
      have hold : op.fallback (st.getFromOld env.now key) =
          op'.fallback (st.getFromOld env.now key) := by
        have hfallback := h.fallback (Nat.le_refl env.now)
        rw [newestOf_eq, hentry, Option.none_or] at hfallback
        rw [getFromOld_eq, visible]
        exact hfallback
      simp only [handle, hhandle, hold]
  | some v =>
      have hplace : op.inPlace env.now v = op'.inPlace env.now v := by
        refine h.inPlace_of_newest (Nat.le_refl _) fun _ => ?_
        rw [newestOf_eq, hentry, Option.some_or]
      have hnode := (MemTable.get_eq_some_iff hnormal).1 hentry
      have hkept := h.kept env.now v
      -- the callback throws no `std::out_of_range`, so it decides alone
      cases hr : (op'.inPlace env.now v).2 with
      | ok r =>
          simp only [handle, MemTable.handleValue, hnode, ValueOp.valueHandle, hplace, hr]
      | error e =>
          rw [hplace, hr] at hkept
          cases e with
          | outOfRange what => exact absurd rfl (hkept what)
          | _ => simp only [handle, MemTable.handleValue, hnode, ValueOp.valueHandle, hplace, hr]

theorem process_alike (hnormal : st.memtable.Normal) (isRecover : Bool) {op op' : ValueOp ρ}
    (h : op.AlikeOn op' env.now (st.newestOf key)) :
    process cfg env isRecover op key st = process cfg env isRecover op' key st := by
  rw [process, process, h.type, h.payload]
  rcases logRecord_cases cfg isRecover op'.type key op'.payload st with hlog | hlog
  · rw [hlog]
    exact handle_alike hnormal h
  · rw [hlog]
    -- the log is no layer of the store
    apply handle_alike
    · exact hnormal
    · exact h

/-- Requests that update a key alike are performed alike. -/
theorem perform_alike (hnormal : st.memtable.Normal) (h : q.AlikeOn env.now st.newestOf q') :
    perform cfg env st q = perform cfg env st q' := by
  rcases h with rfl | ⟨op, op', key, rfl, rfl, hop⟩
  · rfl
  · simp only [perform, process_alike hnormal false hop]

end Storage

end EyaKV.Store
