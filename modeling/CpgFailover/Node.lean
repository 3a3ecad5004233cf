import Mathlib.Data.List.Sort

/-!
# The node list

Each virtual ip keeps the members it has heard of as a linked list, ordered by priority. The
functions are the loops of `node.c` on a Lean list; insertion is Mathlib's `orderedInsert` and
removal its `eraseP`, so the facts about the list come from there.

## Main definitions

* `nodeAdd`, `nodeRemove`, `nodeSearch`, `nodeFirst`, `listEntries`: the functions of `node.c`
* `ids`: the node ids of a list, in order
* `WellOrdered`: distinct ids and non-increasing priorities

## Main results

* `WellOrdered.nodeAdd`, `WellOrdered.nodeRemove`: both operations keep the order
* `mem_ids_nodeAdd`, `WellOrdered.mem_ids_nodeRemove`: what the list holds afterwards
* `WellOrdered.priority_le`: the head has the greatest priority
-/

namespace CpgFailover

/-- `uint32_t nodeid` of corosync; `0` stands for no node. -/
abbrev NodeId := ℕ

/-- `node_t`, without its `next` pointer. -/
structure Node where
  nodeid : NodeId
  priority : ℤ
deriving DecidableEq, Repr

/-- The walk of `node_search`; `none` is the null pointer. -/
def nodeSearch : List Node → NodeId → Option Node
  | [], _ => none
  | n :: rest, nodeid => if n.nodeid ≠ nodeid then nodeSearch rest nodeid else some n

/-- The insertion walk of `node_add`: past every node of strictly higher priority. -/
def insertNode (new : Node) : List Node → List Node
  | [] => [new]
  | curr :: rest =>
    -- equal priorities: the new node goes in front
    if curr.priority > new.priority then curr :: insertNode new rest else new :: curr :: rest

/-- `node_add`; `malloc` is the outcome of its allocation. -/
def nodeAdd (malloc : Bool) (oldlist : List Node) (nodeid : NodeId) (priority : ℤ) : List Node :=
  if (nodeSearch oldlist nodeid).isSome then oldlist
  -- a failed allocation returns the null pointer, and the caller's list is lost
  else if malloc then insertNode ⟨nodeid, priority⟩ oldlist
  else []

/-- `node_remove`. -/
def nodeRemove : List Node → NodeId → List Node
  | [], _ => []
  | cur :: rest, nodeid => if cur.nodeid ≠ nodeid then cur :: nodeRemove rest nodeid else rest

/-- `node_first`. -/
def nodeFirst : List Node → NodeId
  | [] => 0
  | n :: _ => n.nodeid

/-- `list_entries`. -/
def listEntries (list : List Node) : ℕ := list.length

/-- The node ids of a list, in order. -/
def ids (list : List Node) : List NodeId := list.map Node.nodeid

@[simp] theorem ids_nil : ids [] = [] := rfl

@[simp] theorem ids_cons (n : Node) (l : List Node) : ids (n :: l) = n.nodeid :: ids l := rfl

@[simp] theorem length_ids (l : List Node) : (ids l).length = listEntries l := List.length_map _

theorem mem_ids {l : List Node} {x : NodeId} : x ∈ ids l ↔ ∃ n ∈ l, n.nodeid = x := List.mem_map

theorem nodeFirst_mem {l : List Node} (h : l ≠ []) : nodeFirst l ∈ ids l := by
  cases l with
  | nil => exact absurd rfl h
  | cons n l => exact List.mem_cons_self

theorem nodeFirst_mem_of_ne_zero {l : List Node} (h : nodeFirst l ≠ 0) : nodeFirst l ∈ ids l :=
  nodeFirst_mem fun hl => h (hl ▸ rfl)

/-! ## The walks of `node.c` are the library's -/

theorem nodeSearch_isSome {l : List Node} {x : NodeId} :
    (nodeSearch l x).isSome ↔ x ∈ ids l := by
  induction l with
  | nil => simp [nodeSearch]
  | cons n l ih =>
    by_cases h : n.nodeid = x
    · simp [nodeSearch, h]
    · simp [nodeSearch, h, ih, Ne.symm h]

/-- Insertion stops at the first node whose priority is not higher. -/
theorem insertNode_eq_orderedInsert (new : Node) (l : List Node) :
    insertNode new l = l.orderedInsert (fun a b => b.priority ≤ a.priority) new := by
  -- Induction on the list, as the walk goes.
  induction l with
  | nil => rfl
  | cons n l ih =>
    by_cases h : n.priority ≤ new.priority
    · simp [insertNode, h, not_lt.mpr h]
    · simp [insertNode, h, not_le.mp h, ih]

theorem nodeRemove_eq_eraseP (l : List Node) (x : NodeId) :
    nodeRemove l x = l.eraseP (fun n => n.nodeid = x) := by
  induction l with
  | nil => rfl
  | cons n l ih =>
    by_cases h : n.nodeid = x
    · simp [nodeRemove, h]
    · simp [nodeRemove, h, ih]

/-! ## What the list holds -/

theorem nodeAdd_of_mem {m : Bool} {l : List Node} {x : NodeId} {p : ℤ} (h : x ∈ ids l) :
    nodeAdd m l x p = l := by
  simp [nodeAdd, nodeSearch_isSome.mpr h]

theorem nodeAdd_of_not_mem {l : List Node} {x : NodeId} {p : ℤ} (h : x ∉ ids l) :
    nodeAdd true l x p = insertNode ⟨x, p⟩ l := by
  have hs : ¬ (nodeSearch l x).isSome := fun hs => h (nodeSearch_isSome.mp hs)
  simp [nodeAdd, hs]

theorem mem_insertNode {new n : Node} {l : List Node} :
    n ∈ insertNode new l ↔ n = new ∨ n ∈ l := by
  rw [insertNode_eq_orderedInsert, List.mem_orderedInsert]

theorem mem_ids_insertNode {l : List Node} {n : Node} {y : NodeId} :
    y ∈ ids (insertNode n l) ↔ y = n.nodeid ∨ y ∈ ids l := by
  simp only [mem_ids, mem_insertNode]
  constructor
  · rintro ⟨m, rfl | hm, rfl⟩
    exacts [Or.inl rfl, Or.inr ⟨m, hm, rfl⟩]
  · rintro (rfl | ⟨m, hm, rfl⟩)
    exacts [⟨n, Or.inl rfl, rfl⟩, ⟨m, Or.inr hm, rfl⟩]

theorem mem_ids_nodeAdd {l : List Node} {x y : NodeId} {p : ℤ} :
    y ∈ ids (nodeAdd true l x p) ↔ y = x ∨ y ∈ ids l := by
  by_cases h : x ∈ ids l
  · rw [nodeAdd_of_mem h]
    exact ⟨Or.inr, fun hy => hy.elim (fun e => e ▸ h) id⟩
  · rw [nodeAdd_of_not_mem h, mem_ids_insertNode]

theorem nodeAdd_ne_nil (l : List Node) (x : NodeId) (p : ℤ) : nodeAdd true l x p ≠ [] := by
  intro hnil
  have hx : x ∈ ids (nodeAdd true l x p) := mem_ids_nodeAdd.mpr (Or.inl rfl)
  rw [hnil] at hx
  cases hx

/-- A failed allocation adds nobody. -/
theorem nodeAdd_sublist (m : Bool) (l : List Node) (x : NodeId) (p : ℤ) :
    (nodeAdd m l x p).Sublist (nodeAdd true l x p) := by
  by_cases hx : x ∈ ids l
  · rw [nodeAdd_of_mem hx, nodeAdd_of_mem hx]
  · cases m with
    | true => exact List.Sublist.refl _
    | false =>
      have hs : ¬ (nodeSearch l x).isSome := fun hs => hx (nodeSearch_isSome.mp hs)
      simp [nodeAdd, hs]

theorem nodeRemove_sublist (l : List Node) (x : NodeId) : (nodeRemove l x).Sublist l := by
  rw [nodeRemove_eq_eraseP]
  exact List.eraseP_sublist

theorem mem_ids_nodeRemove_of_ne {l : List Node} {x y : NodeId} (h : y ≠ x) :
    y ∈ ids (nodeRemove l x) ↔ y ∈ ids l := by
  induction l with
  | nil => rfl
  | cons n l ih =>
    by_cases hn : n.nodeid = x
    · simp [nodeRemove, hn, h]
    · simp [nodeRemove, hn, ih]

/-- The departure of another node leaves the head of the list in its place. -/
theorem nodeFirst_nodeRemove_of_ne {l : List Node} {x : NodeId} (h : nodeFirst l ≠ x) :
    nodeFirst (nodeRemove l x) = nodeFirst l := by
  cases l with
  | nil => rfl
  | cons n l =>
    have hn : n.nodeid ≠ x := h
    simp [nodeRemove, hn, nodeFirst]

/-- The head of a longer list is the old head, or the new node. -/
theorem nodeFirst_nodeAdd_cases (l : List Node) (y : NodeId) (p : ℤ) :
    nodeFirst (nodeAdd true l y p) = nodeFirst l ∨ nodeFirst (nodeAdd true l y p) = y := by
  by_cases hy : y ∈ ids l
  · exact Or.inl (by rw [nodeAdd_of_mem hy])
  · rw [nodeAdd_of_not_mem hy]
    cases l with
    | nil => exact Or.inr rfl
    | cons n l =>
      rw [insertNode]
      split_ifs
      exacts [Or.inl rfl, Or.inr rfl]

/-- A node of lower priority than the head does not get ahead of it. -/
theorem nodeFirst_nodeAdd_of_lt {l : List Node} {n : Node} {x : NodeId} {p : ℤ}
    (hp : p < n.priority) :
    nodeFirst (nodeAdd true (n :: l) x p) = nodeFirst (n :: l) := by
  by_cases hx : x ∈ ids (n :: l)
  · rw [nodeAdd_of_mem hx]
  · rw [nodeAdd_of_not_mem hx, insertNode, if_pos hp]
    rfl

/-! ## Distinct ids, non-increasing priorities -/

/-- Distinct ids in non-increasing order of priority. -/
structure WellOrdered (l : List Node) : Prop where
  nodup : (ids l).Nodup
  sorted : l.Pairwise fun a b => b.priority ≤ a.priority

theorem WellOrdered.nil : WellOrdered [] := ⟨List.nodup_nil, List.Pairwise.nil⟩

theorem WellOrdered.insertNode {l : List Node} {new : Node} (h : WellOrdered l)
    (hnew : new.nodeid ∉ ids l) : WellOrdered (insertNode new l) := by
  -- The ids are those of the old list and the new one; the order is that of `orderedInsert`.
  have hperm : (CpgFailover.insertNode new l).Perm (new :: l) := by
    rw [insertNode_eq_orderedInsert]
    exact List.perm_orderedInsert _ _ _
  refine ⟨?_, ?_⟩
  · exact ((hperm.map Node.nodeid).nodup_iff).mpr (List.nodup_cons.mpr ⟨hnew, h.nodup⟩)
  · have : Std.Total (fun a b : Node => b.priority ≤ a.priority) :=
      ⟨fun a b => le_total b.priority a.priority⟩
    have : IsTrans Node (fun a b : Node => b.priority ≤ a.priority) :=
      ⟨fun _ _ _ hab hbc => hbc.trans hab⟩
    rw [insertNode_eq_orderedInsert]
    exact h.sorted.orderedInsert new l

theorem WellOrdered.nodeAdd {l : List Node} (h : WellOrdered l) (x : NodeId) (p : ℤ) :
    WellOrdered (nodeAdd true l x p) := by
  by_cases hx : x ∈ ids l
  · rwa [nodeAdd_of_mem hx]
  · rw [nodeAdd_of_not_mem hx]
    exact h.insertNode hx

theorem WellOrdered.sublist {l l' : List Node} (h : WellOrdered l) (hs : l'.Sublist l) :
    WellOrdered l' :=
  ⟨h.nodup.sublist (hs.map _), h.sorted.sublist hs⟩

theorem WellOrdered.nodeRemove {l : List Node} (h : WellOrdered l) (x : NodeId) :
    WellOrdered (nodeRemove l x) :=
  h.sublist (nodeRemove_sublist l x)

/-- On distinct ids, removal takes out every occurrence. -/
theorem WellOrdered.mem_ids_nodeRemove {l : List Node} (h : WellOrdered l) {x y : NodeId} :
    y ∈ ids (CpgFailover.nodeRemove l x) ↔ y ∈ ids l ∧ y ≠ x := by
  by_cases hy : y = x
  · subst hy
    simp only [ne_eq, not_true_eq_false, and_false, iff_false]
    -- the walk stops at the first occurrence, which is the only one
    have hd := h.nodup
    clear h
    induction l with
    | nil => simp [CpgFailover.nodeRemove]
    | cons n l ih =>
      rw [ids_cons, List.nodup_cons] at hd
      by_cases hn : n.nodeid = y
      · simpa [CpgFailover.nodeRemove, hn] using hn ▸ hd.1
      · simp [CpgFailover.nodeRemove, hn, Ne.symm hn, ih hd.2]
  · rw [mem_ids_nodeRemove_of_ne hy]
    exact ⟨fun h => ⟨h, hy⟩, And.left⟩

/-- The head of the list has the greatest priority. -/
theorem WellOrdered.priority_le {l : List Node} {m n : Node} (h : WellOrdered (m :: l))
    (hn : n ∈ m :: l) : n.priority ≤ m.priority := by
  rcases List.mem_cons.mp hn with rfl | hn
  · exact le_rfl
  · exact List.rel_of_pairwise_cons h.sorted hn

end CpgFailover
