import EyaKV.Common.SkipListInvariant
import Mathlib.Data.List.Induction

/-!
# Copies of a skip list

The copy constructor and `deserialize` make nodes one by one and put each behind the last nodes of
its levels. `Appended` is what this leaves, whatever pointers the head has had before; with no old
pointers on the levels above the new nodes the list holds exactly the new nodes
(`Appended.holds`). `deserialize` does not take the old nodes out: reading into a list that has a
higher node leaves the pointer of the head to it (`deserialize_serialize` says when it is right).
-/

set_option autoImplicit false

namespace EyaKV.Common.SkipList

open EyaKV.Base EyaKV.Base.Framing EyaKV.Base.LinkedLevels EyaKV.Store

variable {κ ν : Type} {l : SkipList κ ν} {nodes : List (SkipListNode κ ν)}

section Appending

/-- The nodes have been put one behind the other, starting from `start`; `s` holds the last node of
each level and the list. -/
structure Appended (start : SkipList κ ν) (s : (Nat → Nat) × SkipList κ ν)
    (addrs : List Nat) (nodes : List (SkipListNode κ ν)) : Prop where
  growing : Growing s.2.height head (fun i => start.next i head) (s.1, s.2.next) addrs
  nodup : (head :: addrs).Nodup
  taken : ∀ a ∈ head :: addrs, a < s.2.allocated
  nodes : addrs.map s.2.node = nodes
  same : s.2 = { start with node := s.2.node, next := s.2.next, allocated := s.2.allocated }
  sentinel : s.2.node head = start.node head

variable {start : SkipList κ ν} {s : (Nat → Nat) × SkipList κ ν} {addrs : List Nat}

theorem Appended.nil (h : 0 < start.allocated) : Appended start (fun _ => head, start) [] [] where
  growing := Growing.nil fun _ => rfl
  nodup := List.nodup_singleton _
  taken := by
    intro a ha
    rw [List.mem_singleton.1 ha]
    exact h
  nodes := rfl
  same := rfl
  sentinel := rfl

/-- One more node. -/
theorem Appended.appendNode (h : Appended start s addrs nodes) {n : SkipListNode κ ν}
    (heven : n.odd = false) : Appended start (appendNode n s) (addrs ++ [s.2.allocated])
      (nodes ++ [n]) := by
  -- the new node has an address of its own, so the nodes so far stay as they are
  have hfresh : s.2.allocated ∉ head :: addrs := fun hmem =>
    Nat.lt_irrefl _ (h.taken _ hmem)
  have hnode : (SkipList.appendNode n s).2.node s.2.allocated = n := by
    refine (Function.update_self _ _ _).trans ?_
    rw [← heven]
  have hold : ∀ a ∈ head :: addrs, (SkipList.appendNode n s).2.node a = s.2.node a := by
    intro a ha
    apply Function.update_of_ne
    rintro rfl
    exact hfresh ha
  have hheight : (SkipList.appendNode n s).2.height s.2.allocated = n.level :=
    congrArg SkipListNode.level hnode
  constructor
  · have hgrowing : Growing (SkipList.appendNode n s).2.height head (fun i => start.next i head)
        (s.1, (s.2.newNode n.key n.value n.level).next) addrs := by
      apply h.growing.congr
      · intro a ha
        exact congrArg SkipListNode.level (hold a (List.mem_cons_of_mem head ha))
      · intro i a ha
        apply Function.update_of_ne
        rintro rfl
        exact hfresh ha
    have hattach := hgrowing.attach h.nodup hfresh fun i => Function.update_self _ _ _
    rw [hheight] at hattach
    exact hattach
  · rw [← List.cons_append]
    exact List.nodup_append.2 ⟨h.nodup, List.nodup_singleton _, fun a ha b hb hab =>
      hfresh (List.mem_singleton.1 hb ▸ hab ▸ ha)⟩
  · intro a ha
    change a < s.2.allocated + 1
    rw [← List.cons_append] at ha
    rcases List.mem_append.1 ha with ha | ha
    · exact Nat.lt_succ_of_lt (h.taken a ha)
    · rw [List.mem_singleton.1 ha]
      exact Nat.lt_succ_self _
  · rw [List.map_append, List.map_singleton, hnode, ← h.nodes]
    refine congrArg (· ++ [n]) (List.map_congr_left fun a ha => ?_)
    exact hold a (List.mem_cons_of_mem head ha)
  · rw [SkipList.appendNode, newNode, h.same]
  · exact (hold head List.mem_cons_self).trans h.sentinel

theorem appended_foldl (h : 0 < start.allocated) (nodes : List (SkipListNode κ ν))
    (heven : ∀ n ∈ nodes, n.odd = false) : ∃ addrs, Appended start
      (nodes.foldl (fun s n => SkipList.appendNode n s) (fun _ => head, start)) addrs nodes := by
  induction nodes using List.reverseRecOn with
  | nil => exact ⟨[], Appended.nil h⟩
  | append_singleton nodes n ih =>
      obtain ⟨addrs, hinit⟩ := ih fun m hm => heven m (List.mem_append_left [n] hm)
      rw [List.foldl_append]
      exact ⟨_, hinit.appendNode (heven n (List.mem_append_right nodes List.mem_cons_self))⟩

/-- **The new nodes are the content of the list** when the head has had no pointers on the levels
above them. -/
theorem Appended.holds (h : Appended start s addrs nodes) {size : Nat}
    (hvalid : Valid start.funcs start.currentLevel nodes)
    (hlevel : 1 ≤ start.currentLevel ∧ start.currentLevel ≤ start.maxLevel.toNat)
    (hsize : size = nodes.length)
    (hsentinel : start.node head = headNode start.funcs start.maxLevel)
    (hold : ∀ i, (∀ n ∈ nodes, n.level ≤ i) → start.next i head = none) :
    ({ s.2 with size := size } : SkipList κ ν).Holds nodes := by
  have hnodes := h.nodes
  have hs := h.same
  subst hnodes
  rw [hs]
  refine ⟨addrs, ?_, rfl⟩
  constructor
  · apply h.growing.stacked
    intro i hnil
    rw [onLevel, List.filter_eq_nil_iff] at hnil
    apply hold i
    intro n hn
    obtain ⟨a, ha, rfl⟩ := List.mem_map.1 hn
    have hnot := hnil a ha
    rw [decide_eq_true_eq] at hnot
    exact Nat.le_of_not_lt hnot
  · exact h.nodup
  · exact h.taken
  · exact List.forall_mem_map.1 hvalid.level
  · exact hlevel
  · exact List.pairwise_map.1 hvalid.sorted
  · exact List.forall_mem_map.1 hvalid.even
  · rw [hsize, List.length_map]
  · exact h.sentinel.trans hsentinel

end Appending

section Copies

theorem Holds.level (h : l.Holds nodes) :
    1 ≤ l.currentLevel ∧ l.currentLevel ≤ l.maxLevel.toNat := by
  obtain ⟨addrs, h, -⟩ := h
  exact h.level

theorem Holds.copyNodes (h : l.Holds nodes) : (l.nodesOn 0).map l.copyNode = nodes := by
  obtain ⟨addrs, h, rfl⟩ := h
  rw [h.nodesOn_zero]
  apply List.map_congr_left
  intro a ha
  have heven := h.even a ha
  rw [copyNode, getValue_of_even heven, ← heven]

/-- **A copy holds the same nodes**, with the counter of the original. -/
theorem Holds.copy (h : l.Holds nodes) : l.copy.Holds nodes ∧ l.copy.funcs = l.funcs ∧
    l.copy.maxLevel = l.maxLevel ∧ l.copy.currentSize = l.currentSize := by
  obtain ⟨addrs, happended⟩ : ∃ addrs, Appended l.copyStart
      (nodes.foldl (fun s n => SkipList.appendNode n s) (fun _ => head, l.copyStart)) addrs nodes :=
    appended_foldl Nat.zero_lt_one nodes h.valid.even
  have hholds : SkipList.Holds _ nodes :=
    happended.holds h.valid h.level h.size rfl fun _ _ => rfl
  have hsame := happended.same
  rw [SkipList.copy, h.copyNodes]
  rw [hsame] at hholds ⊢
  exact ⟨hholds, rfl, rfl, rfl⟩

end Copies

section Serialization

variable {c : Codecs κ ν}

/-- Key and value of the node are read back, whatever follows. -/
def Codecs.Reads (c : Codecs κ ν) (n : SkipListNode κ ν) : Prop :=
  (∀ rest, c.deserializeKey (c.serializeKey n.key ++ rest) = some (n.key, rest)) ∧
    ∀ rest, c.deserializeValue (c.serializeValue n.value ++ rest) = some (n.value, rest)

theorem decodes_node : Decodes
    (fun n : SkipListNode κ ν => n.level < 2 ^ 32 ∧ n.odd = false ∧ c.Reads n)
    (serializeNode c) (deserializeNode c) := by
  rintro n ⟨hlevel, heven, hkey, hvalue⟩ rest
  simp only [deserializeNode, serializeNode, List.append_assoc, decodes_be32 _ hlevel, hkey, hvalue,
    Option.bind_eq_bind, Option.bind_some, Option.pure_def]
  rw [← heven]

/-- No node is higher than all the others. -/
def NotHigher (old nodes : List (SkipListNode κ ν)) : Prop :=
  ∀ m ∈ old, ∃ n ∈ nodes, m.level ≤ n.level

/-- **What has been serialized is read into a list** that has no node on a level above it. The
counter of the list stays as it was. -/
theorem Holds.deserialize_serialize {t : SkipList κ ν} {old : List (SkipListNode κ ν)}
    (ht : t.Holds old) (h : l.Holds nodes) (hfuncs : t.funcs = l.funcs)
    (hmax : t.maxLevel = l.maxLevel) (hreads : ∀ n ∈ nodes, c.Reads n)
    (hlength : nodes.length < 2 ^ 32) (hlow : NotHigher old nodes) (rest : Bytes) :
    ∃ t', t.deserialize c (l.serialize c ++ rest) = some (t', rest) ∧ t'.Holds nodes ∧
      t'.funcs = t.funcs ∧ t'.maxLevel = t.maxLevel ∧ t'.currentSize = t.currentSize := by
  have hlevel := h.level
  have hvalid := h.valid
  have hlt := l.maxLevel.lt
  have hcurrent : l.currentLevel < 2 ^ 32 := by omega
  have hcount := (decodes_node (c := c)).count nodes (fun n hn =>
    ⟨by have := (hvalid.level n hn).2; omega, hvalid.even n hn, hreads n hn⟩) rest
  have hany : (nodes.any fun n => decide (l.currentLevel + 1 < n.level) ||
      decide (t.maxLevel.toNat < n.level)) = false := by
    rw [List.any_eq_false]
    intro n hn
    have hle := (hvalid.level n hn).2
    rw [hmax, Bool.or_eq_true, decide_eq_true_eq, decide_eq_true_eq]
    omega
  have hread : t.deserialize c (l.serialize c ++ rest) = some ({ (nodes.foldl
      (fun s n => SkipList.appendNode n s)
        (fun _ => head, { t with currentLevel := l.currentLevel })).2 with
          size := nodes.length }, rest) := by
    have hnot : ¬ t.maxLevel.toNat < l.currentLevel := by
      rw [hmax]
      omega
    simp only [deserialize, serialize, h.copyNodes, List.append_assoc, decodes_be32 _ hcurrent,
      h.size, decodes_be32 _ hlength, hnot, Option.bind_eq_bind, Option.bind_some, ↓reduceIte, hcount,
      hany, Bool.false_eq_true, Option.pure_def]
  obtain ⟨olds, ht, rfl⟩ := ht
  obtain ⟨addrs, happended⟩ : ∃ addrs, Appended { t with currentLevel := l.currentLevel }
      (nodes.foldl (fun s n => SkipList.appendNode n s)
        (fun _ => head, { t with currentLevel := l.currentLevel })) addrs nodes := by
    apply appended_foldl
    · exact ht.taken head List.mem_cons_self
    · exact hvalid.even
  -- Where no new node is, the head has had no pointer.
  have hold : ∀ i, (∀ n ∈ nodes, n.level ≤ i) → t.next i head = none := by
    intro i hi
    have hnext := (ht.stacked i).next_head
    rwa [onLevel_eq_nil fun a ha => ?_] at hnext
    obtain ⟨n, hn, hle⟩ := hlow _ (List.mem_map_of_mem ha)
    exact hle.trans (hi n hn)
  refine ⟨_, hread, ?_, ?_, ?_, ?_⟩
  · refine happended.holds ?_ ?_ rfl ht.sentinel hold
    · rw [← hfuncs] at hvalid
      exact hvalid
    · rw [← hmax] at hlevel
      exact hlevel
  · rw [happended.same]
  · rw [happended.same]
  · rw [happended.same]

end Serialization

end EyaKV.Common.SkipList
