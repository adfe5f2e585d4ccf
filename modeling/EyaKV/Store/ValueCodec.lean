import EyaKV.Store.ZSets

/-!
# The encoding of versions

`serialize` and `deserialize` of an `EValue` with the codec of sorted sets in place. Every
version whose encoding is shorter than 4 GiB is read back as it was written
(`decodes_evalue`): all counts and lengths in it then fit their prefixes of 32 bits.
-/

set_option autoImplicit false

namespace EyaKV.Store

open EyaKV.Base EyaKV.Base.Framing

section Lengths

theorem sized_of_length {s : Bytes} (h : (serializeString s).length < 2 ^ 32) : Sized s := by
  rw [length_serializeString] at h
  rw [Sized]
  omega

theorem sized_of_vector {l : List Bytes} (h : (serializeVector l).length < 2 ^ 32) :
    l.length < 2 ^ 32 ∧ ∀ s ∈ l, Sized s := by
  rw [serializeVector, List.length_append] at h
  have hcount := length_le_flatMap serializeString serializeString_ne_nil l
  rw [concatStrings] at h
  refine ⟨by omega, fun s hs => sized_of_length ?_⟩
  have hle := length_le_flatMap_of_mem serializeString hs
  omega

theorem sized_of_map {m : StrMap Bytes} (h : (serializeMap m).length < 2 ^ 32) :
    m.size < 2 ^ 32 ∧ ∀ p ∈ m.toList, Sized p.1 ∧ Sized p.2 := by
  rw [serializeMap, concatPairs, List.length_append] at h
  have hcount := length_le_flatMap (fun p : Bytes × Bytes => serializeString p.1 ++
    serializeString p.2) (fun p hp => serializeString_ne_nil p.1 (List.append_eq_nil_iff.1 hp).1)
    m.toList
  rw [Std.ExtTreeMap.length_toList] at hcount
  refine ⟨by omega, fun p hp => ?_⟩
  have hpair := length_le_flatMap_of_mem (fun p : Bytes × Bytes => serializeString p.1 ++
    serializeString p.2) hp
  rw [List.length_append] at hpair
  exact ⟨sized_of_length (by omega), sized_of_length (by omega)⟩

theorem length_serializeTower (height : Nat) (node : ZSetKey × Bytes) :
    (serializeTower (height, node)).length =
      12 + (serializeString node.1.member).length + (serializeString node.2).length := by
  simp only [serializeTower, serializeDouble, be32, List.length_append, List.length_reverse,
    length_le32]
  omega

theorem sized_of_zset {towers : Towers} {z : ZSet} (h : (z.serialize towers).length < 2 ^ 32) :
    z.Sized := by
  have htowerNe : ∀ node : ZSetKey × Bytes, serializeTower (towers.height node, node) ≠ [] := by
    intro node hnil
    have hlength := congrArg List.length hnil
    rw [length_serializeTower, List.length_nil] at hlength
    omega
  have hscoreNe : ∀ p : Bytes × Double, serializeString p.1 ++ serializeDouble p.2 ≠ [] :=
    fun p hp => serializeString_ne_nil p.1 (List.append_eq_nil_iff.1 hp).1
  have hnodes := length_le_flatMap _ htowerNe z.skiplist
  have hscores := length_le_flatMap _ hscoreNe z.memberScoreMap.toList
  rw [Std.ExtTreeMap.length_toList] at hscores
  simp only [ZSet.serialize, serializeSkipList, serializeScores, List.length_append] at h
  refine ⟨by omega, fun node hnode => ?_, by omega, fun p hp => ?_⟩
  · have hle := length_le_flatMap_of_mem (fun node => serializeTower (towers.height node, node)) hnode
    have hmember := length_serializeTower (towers.height node) node
    exact ⟨sized_of_length (by omega), sized_of_length (by omega)⟩
  · have hle := length_le_flatMap_of_mem (fun p : Bytes × Double => serializeString p.1 ++
      serializeDouble p.2) hp
    rw [List.length_append] at hle
    exact sized_of_length (by omega)

end Lengths

section RoundTrips

/-- The set that a listing of its elements is inserted into. -/
theorem foldl_insert_keys (s : StrMap Unit) :
    (s.toList.map Prod.fst).foldl (fun s k => s.insert k ()) ∅ = s := by
  rw [List.foldl_map]
  exact OrderedMap.foldl_insert_toList s

/-- `emplace` of keys that are not there yet inserts them. -/
theorem foldl_emplace {l : List (Bytes × Bytes)} (m : StrMap Bytes)
    (hfresh : ∀ p ∈ l, p.1 ∉ m) (hdistinct : l.Pairwise fun a b => ¬ compare a.1 b.1 = .eq) :
    l.foldl (fun m p => if p.1 ∈ m then m else m.insert p.1 p.2) m =
      l.foldl (fun m p => m.insert p.1 p.2) m := by
  induction l generalizing m with
  | nil => rfl
  | cons p l ih =>
      obtain ⟨hhead, htail⟩ := List.pairwise_cons.1 hdistinct
      rw [List.foldl_cons, List.foldl_cons, if_neg (hfresh p List.mem_cons_self)]
      refine ih (m.insert p.1 p.2) (fun q hq hmem => ?_) htail
      rcases Std.ExtTreeMap.mem_insert.1 hmem with heq | hmem
      · exact hhead q hq heq
      · exact hfresh q (List.mem_cons_of_mem p hq) hmem

theorem deserializeMap_serialize {m : StrMap Bytes} (hsize : m.size < 2 ^ 32)
    (hsized : ∀ p ∈ m.toList, Sized p.1 ∧ Sized p.2) (rest : Bytes) :
    deserializeMap (serializeMap m ++ rest) = some (m, rest) := by
  have hcount := (decodes_string.pair decodes_string).count m.toList hsized rest
  rw [Std.ExtTreeMap.length_toList] at hcount
  have hfold := foldl_emplace ∅ (fun p _ => Std.ExtTreeMap.not_mem_empty) m.distinct_keys_toList
  simp only [serializeMap, concatPairs, deserializeMap, List.append_assoc, decodes_be32 _ hsize,
    Option.bind_eq_bind, Option.bind_some, hcount, hfold, OrderedMap.foldl_insert_toList,
    Option.pure_def]

variable (towersOf : ZSet → Towers)

/-- `serialize` of a version; the heights in a sorted set are those of its nodes. -/
abbrev serializeEValue (v : EValue) : Bytes := serialize (fun z => z.serialize (towersOf z)) v

/-- `deserialize` of a version. -/
abbrev deserializeEValue : Decoder UInt8 EValue := deserialize ZSet.deserialize

theorem decodes_eyaValue : Decodes
    (fun v => (serializeEyaValue (fun z => z.serialize (towersOf z)) v).length < 2 ^ 32)
    (serializeEyaValue fun z => z.serialize (towersOf z)) (deserializeEyaValue ZSet.deserialize) := by
  intro v hv rest
  cases v with
  | string s =>
      have hs : Sized s := sized_of_length (Nat.lt_of_succ_lt hv)
      simp only [serializeEyaValue, List.cons_append, deserializeEyaValue, decodes_string s hs]
      rfl
  | deque d =>
      obtain ⟨hlength, hsized⟩ := sized_of_vector (l := d) (Nat.lt_of_succ_lt hv)
      simp only [serializeEyaValue, List.cons_append, deserializeEyaValue,
        deserializeVector_serialize hlength hsized]
      rfl
  | set s =>
      obtain ⟨hlength, hsized⟩ := sized_of_vector (Nat.lt_of_succ_lt hv)
      simp only [serializeEyaValue, List.cons_append, deserializeEyaValue,
        deserializeVector_serialize hlength hsized]
      exact congrArg (fun s => some (EyaValue.set s, rest)) (foldl_insert_keys s)
  | map m =>
      obtain ⟨hsize, hsized⟩ := sized_of_map (m := m) (Nat.lt_of_succ_lt hv)
      simp only [serializeEyaValue, List.cons_append, deserializeEyaValue,
        deserializeMap_serialize hsize hsized]
      rfl
  | zset z =>
      have hsized := sized_of_zset (z := z) (Nat.lt_of_succ_lt hv)
      simp only [serializeEyaValue, List.cons_append, deserializeEyaValue,
        ZSet.deserialize_serialize _ hsized]
      rfl

/-- A version is read back as it was written. -/
theorem decodes_evalue : Decodes (fun v => (serializeEValue towersOf v).length < 2 ^ 32)
    (serializeEValue towersOf) deserializeEValue := by
  rintro ⟨value, deleted, expireTime⟩ hv rest
  have hflag : ((if deleted then 1 else 0 : UInt8) != 0) = deleted := by cases deleted <;> rfl
  have hvalue : (serializeEyaValue (fun z => z.serialize (towersOf z)) value).length < 2 ^ 32 := by
    simp only [serialize, List.length_cons, List.length_append] at hv
    omega
  simp only [serializeEValue, deserializeEValue, serialize, List.cons_append, List.append_assoc,
    deserialize, decodes_be32 _ expireTime.toNat_lt, Option.bind_eq_bind, Option.bind_some,
    decodes_eyaValue towersOf value hvalue, hflag, UInt32.ofNat_toNat, Option.pure_def]

end RoundTrips

end EyaKV.Store
