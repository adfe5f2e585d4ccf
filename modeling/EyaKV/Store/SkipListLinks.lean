import EyaKV.Base.Levels
import EyaKV.Store.ZSets

/-!
# The pointers of a skip list

`SkipList` with the pointers of its nodes. `serialize` goes along the lowest level and writes the
height and the content of each node; `deserialize` makes the nodes again and links each of them
behind the last node of every level below its height. From the encoding of a valid skip list the
same skip list is built again, with every pointer (`LinkedSkipList.deserialize_serialize`), and in
a valid skip list the pointers of a level lead through the nodes that are high enough, in their
order (`LinkedSkipList.Valid.along_eq`).
-/

set_option autoImplicit false

namespace EyaKV.Store

open EyaKV.Base EyaKV.Base.Framing EyaKV.Base.Levels

/-- A skip list. Node `i + 1` has the height and the content of `nodes[i]`, node 0 is `head_`, and
`next n j` is the pointer of node `n` on level `j`. -/
structure LinkedSkipList where
  currentLevel : Int
  size : Nat
  nodes : List (Nat × ZSetKey × Bytes)
  next : Nat → Nat → Option Nat

namespace LinkedSkipList

/-- The pointers are those of the heights, which lie between 1 and the current level. -/
structure Valid (l : LinkedSkipList) : Prop where
  linked : Linked (l.nodes.map Prod.fst) l.next
  height : ∀ tower ∈ l.nodes, 1 ≤ tower.1 ∧ (tower.1 : Int) ≤ l.currentLevel
  level : 0 ≤ l.currentLevel ∧ l.currentLevel ≤ 16
  size : l.size = l.nodes.length

/-- `SkipList::serialize`: the loop goes along level 0. -/
def serialize (l : LinkedSkipList) : Bytes :=
  be32 l.currentLevel.toNat ++ (be32 l.size ++ (along l.nodes l.next 0).flatMap serializeTower)

/-- `SkipList::deserialize`. The level is an `int` that is compared with a `size_t`, so that a
negative one is set to 16 too. The vector of the last nodes has one place more than the current
level. A node that is higher runs out of the vector, and one above 16 out of the head. -/
def deserialize : Decoder UInt8 LinkedSkipList := fun input => do
  let (level, rest) ← readBe32 input
  let currentLevel := min level 16
  let (size, rest) ← readBe32 rest
  let (nodes, rest) ← count deserializeTower size rest
  if nodes.any fun tower => currentLevel + 1 < tower.1 || 16 < tower.1 then none
  else
    return (⟨currentLevel, size, nodes,
      (Linking.build 1 (nodes.map Prod.fst) Linking.empty).next⟩, rest)

/-- **The pointers of a level lead through the nodes above it.** -/
theorem Valid.along_eq {l : LinkedSkipList} (h : l.Valid) (j : Nat) :
    along l.nodes l.next j = l.nodes.filter fun tower => decide (j < tower.1) :=
  h.linked.along_eq j

theorem Valid.along_zero {l : LinkedSkipList} (h : l.Valid) : along l.nodes l.next 0 = l.nodes := by
  rw [h.along_eq, List.filter_eq_self]
  intro tower htower
  exact decide_eq_true (h.height tower htower).1

/-- The number of nodes and the lengths of the texts fit their prefixes. -/
def Fits (l : LinkedSkipList) : Prop :=
  l.nodes.length < 2 ^ 32 ∧ ∀ tower ∈ l.nodes, Sized tower.2.1.member ∧ Sized tower.2.2

/-- **A valid skip list is built again with every pointer.** -/
theorem deserialize_serialize {l : LinkedSkipList} (h : l.Valid) (hfits : l.Fits) (rest : Bytes) :
    deserialize (l.serialize ++ rest) = some (l, rest) := by
  have halong := h.along_zero
  obtain ⟨hlinked, hheight, ⟨hlow, hhigh⟩, hsize⟩ := h
  obtain ⟨hlength, hsized⟩ := hfits
  have hcount := decodes_tower.count l.nodes (fun tower htower => by
    have hle := (hheight tower htower).2
    exact ⟨by omega, hsized tower htower⟩) rest
  have hlevel : min l.currentLevel.toNat 16 = l.currentLevel.toNat := by omega
  have hany : l.nodes.any (fun tower =>
      decide (l.currentLevel.toNat + 1 < tower.1) || decide (16 < tower.1)) = false := by
    rw [List.any_eq_false]
    intro tower htower
    have hle := (hheight tower htower).2
    simp only [Bool.or_eq_true, decide_eq_true_eq]
    omega
  have hnext := (linked_build (l.nodes.map Prod.fst)).unique hlinked
  simp only [serialize, halong, deserialize, List.append_assoc,
    decodes_be32 _ (show l.currentLevel.toNat < 2 ^ 32 by omega),
    hsize, decodes_be32 _ hlength, Option.bind_eq_bind, Option.bind_some, hlevel,
    hcount, hany, Bool.false_eq_true, ↓reduceIte, hnext, Option.pure_def,
    Int.toNat_of_nonneg hlow]
  rw [← hsize]

end LinkedSkipList

section Lists

/-- The skip list of nodes with their heights. -/
def Towers.linked (towers : Towers) (list : ZSkipList) : LinkedSkipList where
  currentLevel := towers.level
  size := list.length
  nodes := list.map fun node => (towers.height node, node)
  next := (Linking.build 1 (list.map towers.height) Linking.empty).next

theorem Towers.linked_valid (towers : Towers) (list : ZSkipList) : (towers.linked list).Valid where
  linked := by
    rw [linked, List.map_map]
    exact linked_build (list.map towers.height)
  height := by
    intro tower htower
    obtain ⟨node, -, rfl⟩ := List.mem_map.1 htower
    exact ⟨towers.pos node, Int.ofNat_le.2 (towers.le node)⟩
  level := ⟨Int.natCast_nonneg _, Int.ofNat_le.2 towers.max⟩
  size := (List.length_map _).symm

/-- The nodes with their heights are written as the loop along level 0 finds them. -/
theorem Towers.serialize_linked (towers : Towers) (list : ZSkipList) :
    (towers.linked list).serialize = serializeSkipList towers list := by
  rw [LinkedSkipList.serialize, (towers.linked_valid list).along_zero]
  simp only [linked, Int.toNat_natCast, List.flatMap_map, serializeSkipList]

/-- The content of what is built is the list that `deserializeSkipList` reads. -/
theorem LinkedSkipList.deserialize_content {input rest : Bytes} {l : LinkedSkipList}
    (h : deserialize input = some (l, rest)) :
    deserializeSkipList input = some ((along l.nodes l.next 0).map Prod.snd, rest) := by
  simp only [deserialize, Option.bind_eq_bind, Option.bind_eq_some_iff, Prod.exists,
    Option.ite_none_left_eq_some, Option.pure_def, Option.some.injEq, Prod.mk.injEq] at h
  obtain ⟨level, rest₁, hlevel, size, rest₂, hsize, nodes, rest₃, hnodes, hany, rfl, rfl⟩ := h
  have halong := (linked_build (nodes.map Prod.fst)).along_eq 0
  have hheights : (nodes.any fun tower => min level 16 + 1 < tower.1 || 16 < tower.1) = false :=
    Bool.eq_false_iff.2 hany
  simp only [deserializeSkipList, hlevel, hsize, hnodes, Option.bind_eq_bind, Option.bind_some,
    hheights, Bool.false_eq_true, ↓reduceIte, halong, Option.pure_def]

end Lists

end EyaKV.Store
