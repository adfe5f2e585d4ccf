import EyaKV.Store.SkipListLinks
import EyaKV.Store.ValueCodec

/-!
# Which versions are read back

The codec of versions in full: the hash tables are written in the order in which they are listed
(`Listing`), which need not be the order of the keys, and the skip list of a sorted set with its
pointers. All counts and lengths are written as `static_cast<uint32_t>`. What the decoder yields has
counts and lengths below 2^32 (`yields_evalue`), and below them it undoes the encoder whatever
follows (`Listing.decodes_evalue`). So exactly these versions are read back (`versions_roundTrip_iff`).
-/

set_option autoImplicit false

namespace EyaKV.Store

open EyaKV.Base EyaKV.Base.Framing EyaKV.Base.Levels

/-- The orders in which hash tables are listed. -/
structure Listing where
  ofSet : StrMap Unit → List Bytes
  ofMap : StrMap Bytes → List (Bytes × Bytes)
  ofScores : StrMap Double → List (Bytes × Double)
  set_perm : ∀ s, (ofSet s).Perm (s.toList.map Prod.fst)
  map_perm : ∀ m, (ofMap m).Perm m.toList
  scores_perm : ∀ m, (ofScores m).Perm m.toList

namespace Listing

/-- Ascending keys. -/
def sorted : Listing where
  ofSet s := s.toList.map Prod.fst
  ofMap m := m.toList
  ofScores m := m.toList
  set_perm _ := .rfl
  map_perm _ := .rfl
  scores_perm _ := .rfl

variable (listing : Listing) (towersOf : ZSet → Towers)

/-- `Serializer::serialize(std::unordered_set<std::string>)`. -/
def serializeSet (s : StrMap Unit) : Bytes := be32 s.size ++ concatStrings (listing.ofSet s)

/-- `Serializer::serialize(std::unordered_map<std::string, std::string>)`. -/
def serializeMap (m : StrMap Bytes) : Bytes := be32 m.size ++ concatPairs (listing.ofMap m)

/-- `Serializer::serialize(std::unordered_map<std::string, double>)`. -/
def serializeScores (m : StrMap Double) : Bytes :=
  be32 m.size ++ (listing.ofScores m).flatMap fun p => serializeString p.1 ++ serializeDouble p.2

/-- `Serializer::serialize(ZSet)`. -/
def serializeZSet (z : ZSet) : Bytes :=
  ((towersOf z).linked z.skiplist).serialize ++ listing.serializeScores z.memberScoreMap

/-- `serialize_eya_value`. -/
def serializeEyaValue : EyaValue → Bytes
  | .string s => 0 :: serializeString s
  | .deque d => 1 :: serializeVector d
  | .set s => 2 :: listing.serializeSet s
  | .map m => 3 :: listing.serializeMap m
  | .zset z => 4 :: listing.serializeZSet towersOf z

/-- `serialize` of an `EValue`. -/
def serializeEValue (v : EValue) : Bytes :=
  (if v.deleted then 1 else 0) ::
    (be32 v.expireTime.toNat ++ listing.serializeEyaValue towersOf v.value)

/-- With ascending keys it is the encoding that the tables have. -/
theorem serializeEValue_sorted (v : EValue) :
    sorted.serializeEValue towersOf v = Store.serializeEValue towersOf v := by
  obtain ⟨value, deleted, expireTime⟩ := v
  simp only [serializeEValue, Store.serializeEValue, serialize]
  cases value with
  | string s => rfl
  | deque d => rfl
  | set s =>
      simp only [serializeEyaValue, Store.serializeEyaValue, serializeSet, serializeVector, sorted,
        List.length_map, Std.ExtTreeMap.length_toList]
  | map m => rfl
  | zset z =>
      simp only [serializeEyaValue, Store.serializeEyaValue, serializeZSet, ZSet.serialize,
        Towers.serialize_linked]
      rfl

end Listing

/-- Counts and lengths fit their prefixes of 32 bits. -/
def EyaValue.Sized : EyaValue → Prop
  | .string s => Store.Sized s
  | .deque d => d.length < 2 ^ 32 ∧ ∀ s ∈ d, Store.Sized s
  | .set s => s.size < 2 ^ 32 ∧ ∀ p ∈ s.toList, Store.Sized p.1
  | .map m => m.size < 2 ^ 32 ∧ ∀ p ∈ m.toList, Store.Sized p.1 ∧ Store.Sized p.2
  | .zset z => z.Sized

/-- Counts and lengths of the value fit their prefixes. -/
def EValue.Sized (v : EValue) : Prop := v.value.Sized

section Yields

theorem yields_be32 : Yields (fun n => n < 2 ^ 32) readBe32 := by
  intro input n rest h
  match input, h with
  | a :: b :: c :: d :: _, h =>
      obtain ⟨rfl, -⟩ := Prod.mk.inj (Option.some.inj h)
      have ha := a.toNat_lt
      have hb := b.toNat_lt
      have hc := c.toNat_lt
      have hd := d.toNat_lt
      omega

theorem yields_string : Yields Sized deserializeString := by
  intro input s rest h
  simp only [deserializeString, readBytes, Option.bind_eq_bind, Option.bind_eq_some_iff,
    Prod.exists, Option.ite_none_left_eq_some, Option.some.injEq, Prod.mk.injEq] at h
  obtain ⟨len, rest', hlen, hle, rfl, -⟩ := h
  have hlt := yields_be32 _ len _ hlen
  rw [Sized, List.length_take]
  omega

/-- A count and as many values. -/
theorem yields_counted {α : Type} {valid : α → Prop} {dec : Decoder UInt8 α} (h : Yields valid dec)
    {input : Bytes} {size : Nat} {as : List α} {rest rest' : Bytes}
    (hsize : readBe32 input = some (size, rest)) (has : count dec size rest = some (as, rest')) :
    as.length < 2 ^ 32 ∧ ∀ a ∈ as, valid a := by
  obtain ⟨hlength, hvalid⟩ := h.count size _ as _ has
  exact ⟨hlength ▸ yields_be32 _ size _ hsize, hvalid⟩

theorem yields_vector :
    Yields (fun l => l.length < 2 ^ 32 ∧ ∀ s ∈ l, Sized s) deserializeVector := by
  intro input l rest h
  simp only [deserializeVector, Option.bind_eq_bind, Option.bind_eq_some_iff, Prod.exists] at h
  obtain ⟨size, rest', hsize, hl⟩ := h
  exact yields_counted yields_string hsize hl

theorem yields_map :
    Yields (fun m => m.size < 2 ^ 32 ∧ ∀ p ∈ m.toList, Sized p.1 ∧ Sized p.2) deserializeMap := by
  intro input m rest h
  simp only [deserializeMap, Option.bind_eq_bind, Option.bind_eq_some_iff, Prod.exists,
    Option.pure_def, Option.some.injEq, Prod.mk.injEq] at h
  obtain ⟨size, rest₁, hsize, l, rest₂, hl, rfl, -⟩ := h
  obtain ⟨hlength, hvalid⟩ := yields_counted (yields_string.pair yields_string) hsize hl
  constructor
  · have hle := OrderedMap.size_foldl_le
      (fun (m : StrMap Bytes) p => if p.1 ∈ m then m else m.insert p.1 p.2) (fun m p => by
        split
        · exact Nat.le_succ _
        · exact Std.ExtTreeMap.size_insert_le) l ∅
    rw [Std.ExtTreeMap.size_empty] at hle
    omega
  · refine OrderedMap.forall_mem_foldl (fun m p q hq => ?_) hvalid
    split at hq
    · exact Or.inr hq
    · exact OrderedMap.mem_toList_insert hq

theorem forall_mem_foldl_insert {β : Type} {P : Bytes × β → Prop} {l : List (Bytes × β)}
    (h : ∀ p ∈ l, P p) :
    ∀ p ∈ (l.foldl (fun m p => m.insert p.1 p.2) (∅ : StrMap β)).toList, P p :=
  OrderedMap.forall_mem_foldl (fun _ _ _ hq => OrderedMap.mem_toList_insert hq) h

theorem size_foldl_insert_le {β : Type} (l : List (Bytes × β)) :
    (l.foldl (fun m p => m.insert p.1 p.2) (∅ : StrMap β)).size ≤ l.length := by
  have hle := OrderedMap.size_foldl_le (fun (m : StrMap β) p => m.insert p.1 p.2)
    (fun m p => Std.ExtTreeMap.size_insert_le) l ∅
  rwa [Std.ExtTreeMap.size_empty, Nat.zero_add] at hle

theorem yields_tower : Yields (fun tower : Nat × ZSetKey × Bytes =>
    Sized tower.2.1.member ∧ Sized tower.2.2) deserializeTower := by
  intro input tower rest h
  simp only [deserializeTower, Option.bind_eq_bind, Option.bind_eq_some_iff, Prod.exists,
    Option.pure_def, Option.some.injEq, Prod.mk.injEq] at h
  obtain ⟨height, _, -, score, _, -, member, _, hmember, value, _, hvalue, rfl, -⟩ := h
  exact ⟨yields_string _ member _ hmember, yields_string _ value _ hvalue⟩

theorem yields_zset : Yields ZSet.Sized ZSet.deserialize := by
  intro input z rest h
  simp only [ZSet.deserialize, deserializeSkipList, deserializeScores, Option.bind_eq_bind,
    Option.bind_eq_some_iff, Prod.exists, Option.ite_none_left_eq_some, Option.pure_def,
    Option.some.injEq, Prod.mk.injEq] at h
  obtain ⟨_, _, ⟨level, _, -, size, _, hsize, nodes, _, hnodes, -, rfl, -⟩, _, _,
    ⟨size', _, hsize', l, _, hl, rfl, -⟩, rfl, -⟩ := h
  obtain ⟨hlength, htowers⟩ := yields_counted yields_tower hsize hnodes
  have hdouble : Yields (fun _ => True) deserializeDouble := fun _ _ _ _ => trivial
  obtain ⟨hlength', hscores⟩ := yields_counted (yields_string.pair hdouble) hsize' hl
  refine ⟨?_, fun node hnode => ?_, ?_, fun p hp => ?_⟩
  · have hle := List.length_filter_le (fun tower => decide (0 < tower.1)) nodes
    rw [List.length_map]
    omega
  · obtain ⟨tower, htower, rfl⟩ := List.mem_map.1 hnode
    exact htowers tower (List.mem_of_mem_filter htower)
  · exact Nat.lt_of_le_of_lt (size_foldl_insert_le l) hlength'
  · exact (forall_mem_foldl_insert hscores p hp).1

theorem yields_eyaValue : Yields EyaValue.Sized (deserializeEyaValue ZSet.deserialize) := by
  intro input v rest h
  cases input with
  | nil => cases h
  | cons index input =>
      rw [deserializeEyaValue] at h
      split at h
      · obtain ⟨⟨s, _⟩, hs, heq⟩ := Option.map_eq_some_iff.1 h
        obtain ⟨rfl, -⟩ := Prod.mk.inj heq
        exact yields_string _ s _ hs
      · obtain ⟨⟨d, _⟩, hd, heq⟩ := Option.map_eq_some_iff.1 h
        obtain ⟨rfl, -⟩ := Prod.mk.inj heq
        exact yields_vector _ d _ hd
      · obtain ⟨⟨l, _⟩, hl, heq⟩ := Option.map_eq_some_iff.1 h
        obtain ⟨rfl, -⟩ := Prod.mk.inj heq
        obtain ⟨hlength, hsized⟩ := yields_vector _ l _ hl
        have hfold : l.foldl (fun s k => s.insert k ()) ∅ =
            (l.map fun k => (k, ())).foldl (fun m p => m.insert p.1 p.2) (∅ : StrMap Unit) := by
          rw [List.foldl_map]
        have hsize := size_foldl_insert_le (l.map fun k => (k, ()))
        rw [List.length_map] at hsize
        refine ⟨?_, ?_⟩
        · rw [hfold]
          exact Nat.lt_of_le_of_lt hsize hlength
        · rw [hfold]
          refine forall_mem_foldl_insert fun p hp => ?_
          obtain ⟨k, hk, rfl⟩ := List.mem_map.1 hp
          exact hsized k hk
      · obtain ⟨⟨m, _⟩, hm, heq⟩ := Option.map_eq_some_iff.1 h
        obtain ⟨rfl, -⟩ := Prod.mk.inj heq
        exact yields_map _ m _ hm
      · obtain ⟨⟨z, _⟩, hz, heq⟩ := Option.map_eq_some_iff.1 h
        obtain ⟨rfl, -⟩ := Prod.mk.inj heq
        exact yields_zset _ z _ hz
      · cases h

/-- **What is read has counts and lengths below 2^32.** -/
theorem yields_evalue : Yields EValue.Sized deserializeEValue := by
  intro input v rest h
  cases input with
  | nil => cases h
  | cons deleted input =>
      simp only [deserializeEValue, deserialize, Option.bind_eq_bind, Option.bind_eq_some_iff,
        Prod.exists, Option.pure_def, Option.some.injEq, Prod.mk.injEq] at h
      obtain ⟨expireTime, _, -, value, _, hvalue, rfl, -⟩ := h
      exact yields_eyaValue _ value _ hvalue

end Yields

section RoundTrips

namespace Listing

variable (listing : Listing) (towersOf : ZSet → Towers)

theorem deserializeSet_serialize {s : StrMap Unit} (hsize : s.size < 2 ^ 32)
    (hsized : ∀ p ∈ s.toList, Sized p.1) (rest : Bytes) :
    (deserializeVector (listing.serializeSet s ++ rest)).map
      (fun r => (r.1.foldl (fun s k => s.insert k ()) (∅ : StrMap Unit), r.2)) = some (s, rest) := by
  have hperm := listing.set_perm s
  have hlength : (listing.ofSet s).length = s.size := by
    rw [hperm.length_eq, List.length_map, Std.ExtTreeMap.length_toList]
  have hall : ∀ k ∈ listing.ofSet s, Sized k := by
    intro k hk
    obtain ⟨p, hp, rfl⟩ := List.mem_map.1 (hperm.mem_iff.1 hk)
    exact hsized p hp
  have hread := deserializeVector_serialize (hlength ▸ hsize) hall rest
  rw [serializeVector, hlength] at hread
  have hentries : ((listing.ofSet s).map fun k => (k, ())).Perm s.toList := by
    have hmap := hperm.map fun k => (k, ())
    rwa [List.map_map, show ((fun k => (k, ())) ∘ Prod.fst : Bytes × Unit → Bytes × Unit) = id from rfl,
      List.map_id] at hmap
  have hfold := OrderedMap.foldl_insert_of_perm hentries
  rw [List.foldl_map] at hfold
  rw [serializeSet, hread, Option.map_some, hfold]

theorem deserializeMap_serialize {m : StrMap Bytes} (hsize : m.size < 2 ^ 32)
    (hsized : ∀ p ∈ m.toList, Sized p.1 ∧ Sized p.2) (rest : Bytes) :
    deserializeMap (listing.serializeMap m ++ rest) = some (m, rest) := by
  have hperm := listing.map_perm m
  have hcount := (decodes_string.pair decodes_string).count (listing.ofMap m)
    (fun p hp => hsized p (hperm.mem_iff.1 hp)) rest
  rw [hperm.length_eq, Std.ExtTreeMap.length_toList] at hcount
  have hdistinct : (listing.ofMap m).Pairwise fun a b => ¬ compare a.1 b.1 = .eq :=
    (hperm.pairwise_iff fun hab hba => hab (Std.OrientedCmp.eq_symm hba)).2 m.distinct_keys_toList
  have hfold := foldl_emplace ∅ (fun p _ => Std.ExtTreeMap.not_mem_empty) hdistinct
  simp only [serializeMap, concatPairs, deserializeMap, List.append_assoc, decodes_be32 _ hsize,
    Option.bind_eq_bind, Option.bind_some, hcount, hfold, OrderedMap.foldl_insert_of_perm hperm,
    Option.pure_def]

theorem deserializeScores_serialize {m : StrMap Double} (hsize : m.size < 2 ^ 32)
    (hsized : ∀ p ∈ m.toList, Sized p.1) (rest : Bytes) :
    deserializeScores (listing.serializeScores m ++ rest) = some (m, rest) := by
  have hperm := listing.scores_perm m
  have hcount := (decodes_string.pair decodes_double).count (listing.ofScores m)
    (fun p hp => ⟨hsized p (hperm.mem_iff.1 hp), trivial⟩) rest
  rw [hperm.length_eq, Std.ExtTreeMap.length_toList] at hcount
  simp only [serializeScores, deserializeScores, List.append_assoc, decodes_be32 _ hsize,
    Option.bind_eq_bind, Option.bind_some, hcount, OrderedMap.foldl_insert_of_perm hperm,
    Option.pure_def]

theorem deserializeZSet_serialize {z : ZSet} (hsized : z.Sized) (rest : Bytes) :
    ZSet.deserialize (listing.serializeZSet towersOf z ++ rest) = some (z, rest) := by
  simp only [serializeZSet, Towers.serialize_linked, ZSet.deserialize, List.append_assoc,
    deserializeSkipList_serialize (towersOf z) hsized.nodes hsized.node,
    listing.deserializeScores_serialize hsized.scores hsized.member, Option.bind_eq_bind,
    Option.bind_some, Option.pure_def]

theorem decodes_eyaValue : Decodes EyaValue.Sized (listing.serializeEyaValue towersOf)
    (deserializeEyaValue ZSet.deserialize) := by
  intro v hv rest
  cases v with
  | string s =>
      simp only [serializeEyaValue, List.cons_append, deserializeEyaValue, decodes_string s hv]
      rfl
  | deque d =>
      simp only [serializeEyaValue, List.cons_append, deserializeEyaValue,
        deserializeVector_serialize hv.1 hv.2]
      rfl
  | set s =>
      have hread := listing.deserializeSet_serialize hv.1 hv.2 rest
      obtain ⟨r, hr, heq⟩ := Option.map_eq_some_iff.1 hread
      obtain ⟨hset, hrest⟩ := Prod.mk.inj heq
      simp only [serializeEyaValue, List.cons_append, deserializeEyaValue, hr]
      rw [show (2 : UInt8).toNat = 2 from rfl]
      simp only [Option.map_some, hset, hrest]
  | map m =>
      simp only [serializeEyaValue, List.cons_append, deserializeEyaValue,
        listing.deserializeMap_serialize hv.1 hv.2]
      rfl
  | zset z =>
      simp only [serializeEyaValue, List.cons_append, deserializeEyaValue,
        listing.deserializeZSet_serialize towersOf hv]
      rfl

/-- A version is read back whatever follows. -/
theorem decodes_evalue :
    Decodes EValue.Sized (listing.serializeEValue towersOf) deserializeEValue := by
  rintro ⟨value, deleted, expireTime⟩ hv rest
  have hflag : ((if deleted then 1 else 0 : UInt8) != 0) = deleted := by cases deleted <;> rfl
  simp only [serializeEValue, deserializeEValue, List.cons_append, List.append_assoc,
    deserialize, decodes_be32 _ expireTime.toNat_lt, Option.bind_eq_bind, Option.bind_some,
    listing.decodes_eyaValue towersOf value hv, hflag, UInt32.ofNat_toNat, Option.pure_def]

/-- The versions are read back: each of them whatever follows, and all of them one after the
other; and the skip list of a sorted set is built again, valid and with the heights that it had. -/
structure RoundTrips (vs : List EValue) : Prop where
  each : ∀ v ∈ vs, ∀ rest,
    deserializeEValue (listing.serializeEValue towersOf v ++ rest) = some (v, rest)
  concatenated : ∀ rest, count deserializeEValue vs.length
    (vs.flatMap (listing.serializeEValue towersOf) ++ rest) = some (vs, rest)
  linked : ∀ v ∈ vs, ∀ z, v.value = .zset z → ∀ rest, ∃ list,
    LinkedSkipList.deserialize (((towersOf z).linked z.skiplist).serialize ++ rest) =
        some (list, rest) ∧ list.Valid ∧
      list.nodes = z.skiplist.map fun node => ((towersOf z).height node, node)

theorem each_iff (v : EValue) : (∀ rest,
    deserializeEValue (listing.serializeEValue towersOf v ++ rest) = some (v, rest)) ↔ v.Sized :=
  (listing.decodes_evalue towersOf).iff_valid yields_evalue v

theorem linked_of_sized {z : ZSet} (h : z.Sized) (rest : Bytes) : ∃ list,
    LinkedSkipList.deserialize (((towersOf z).linked z.skiplist).serialize ++ rest) =
        some (list, rest) ∧ list.Valid ∧
      list.nodes = z.skiplist.map fun node => ((towersOf z).height node, node) := by
  have hvalid := (towersOf z).linked_valid z.skiplist
  refine ⟨_, LinkedSkipList.deserialize_serialize hvalid ⟨?_, fun tower htower => ?_⟩ rest, hvalid,
    rfl⟩
  · rw [Towers.linked, List.length_map]
    exact h.nodes
  · obtain ⟨node, hnode, rfl⟩ := List.mem_map.1 htower
    exact h.node node hnode

/-- **Versions are read back exactly when their counts and lengths are below 2^32.** -/
theorem versions_roundTrip_iff (vs : List EValue) :
    listing.RoundTrips towersOf vs ↔ ∀ v ∈ vs, v.Sized := by
  constructor
  · intro h v hv
    exact (listing.each_iff towersOf v).1 (h.each v hv)
  · intro h
    refine ⟨fun v hv => (listing.each_iff towersOf v).2 (h v hv),
      (listing.decodes_evalue towersOf).count vs h, fun v hv z hz rest => ?_⟩
    have hsized : v.value.Sized := h v hv
    rw [hz] at hsized
    exact linked_of_sized towersOf hsized rest

/-- A skip list of height 1. -/
def flat : Towers := Towers.flat

/-- The length of a string of 4 GiB is written as 0. -/
theorem not_roundTrips_4GiB : ¬ ∀ (listing : Listing) (towersOf : ZSet → Towers)
    (vs : List EValue), listing.RoundTrips towersOf vs := by
  intro h
  have heach := (h sorted (fun _ => flat) [⟨.string (List.replicate (2 ^ 32) 0), false, 0⟩]).each _
    List.mem_cons_self
  have hsized : (List.replicate (2 ^ 32) (0 : UInt8)).length < 2 ^ 32 :=
    (each_iff sorted (fun _ => flat) _).1 heach
  rw [List.length_replicate] at hsized
  exact Nat.lt_irrefl _ hsized

end Listing

end RoundTrips

end EyaKV.Store
