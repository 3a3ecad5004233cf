import CpgFailover.Lib.KeyedHistory
import CpgFailover.Node
import Mathlib.Data.Set.Card

/-!
# What a node list represents

A node list is the work of a sequence of insertions and removals. The sequence alone says which
nodes are on the list and in which order: a node has the priority of the first insertion since its
last removal, and among equal priorities the later insertion stands in front.

## Main definitions

* `NodeOp`, `nodeOps`: calls of `node_add` and `node_remove`, and the list they build
* `Ahead`: the order of the list, read off the history
* `Represents`: a list holds the nodes a history has introduced, in this order

## Main results

* `Represents.nodeAdd`, `Represents.nodeRemove`: each operation keeps the representation
* `Represents.nodeSearch`, `Represents.nodeFirst`, `Represents.listEntries`: what the walks answer
* `nodeRemove_nodeAdd`: a removal undoes an insertion
* `nodeOps_represents`: all of it, for every sequence of calls
-/

namespace CpgFailover

open KeyedHistory

/-- A call of `node_add`, with an allocation that succeeds, or of `node_remove`. -/
abbrev NodeOp := Op NodeId ℤ

/-- One call. -/
def nodeOp (list : List Node) : NodeOp → List Node
  | .add nodeid priority => nodeAdd true list nodeid priority
  | .remove nodeid => nodeRemove list nodeid

/-- The list after some calls, from the empty one. -/
def nodeOps (ops : List NodeOp) : List Node := ops.foldl nodeOp []

/-- The node stands before another one: its priority is higher, or it is the same and the node was
inserted later. -/
def Ahead (ops : List NodeOp) (a b : Node) : Prop :=
  b.priority < a.priority ∨ b.priority = a.priority ∧
    ∃ s t, Introduced ops a.nodeid s a.priority ∧ Introduced ops b.nodeid t b.priority ∧ t < s

/-- The list holds the nodes the history has introduced, each once and in order. -/
structure Represents (ops : List NodeOp) (l : List Node) : Prop where
  nodup : (ids l).Nodup
  ordered : l.Pairwise (Ahead ops)
  mem : ∀ n, n ∈ l ↔ ∃ t, Introduced ops n.nodeid t n.priority

/-! ## One call -/

/-- An insertion keeps a relation in which the new node is placed between the nodes of higher
priority and the others. -/
theorem pairwise_insertNode {R : Node → Node → Prop} {new : Node} {l : List Node}
    (hl : l.Pairwise R) (hsorted : l.Pairwise fun a b => b.priority ≤ a.priority)
    (hfront : ∀ n ∈ l, new.priority < n.priority → R n new)
    (hback : ∀ n ∈ l, n.priority ≤ new.priority → R new n) :
    (insertNode new l).Pairwise R := by
  -- Induction on the list, as the walk goes.
  induction l with
  | nil => simp [insertNode]
  | cons curr rest ih =>
    rw [List.pairwise_cons] at hl hsorted
    rw [insertNode]
    split_ifs with hcurr
    · refine List.pairwise_cons.mpr ⟨fun n hn => ?_, ?_⟩
      · rcases mem_insertNode.mp hn with rfl | hn
        · exact hfront curr List.mem_cons_self hcurr
        · exact hl.1 n hn
      · apply ih hl.2 hsorted.2
        · exact fun n hn => hfront n (List.mem_cons_of_mem _ hn)
        · exact fun n hn => hback n (List.mem_cons_of_mem _ hn)
    · refine List.pairwise_cons.mpr ⟨fun n hn => hback n hn ?_, List.pairwise_cons.mpr hl⟩
      -- the walk has stopped, and the priorities do not rise behind
      rcases List.mem_cons.mp hn with rfl | hn
      · exact not_lt.mp hcurr
      · exact (hsorted.1 n hn).trans (not_lt.mp hcurr)

theorem Ahead.priority_le {ops : List NodeOp} {a b : Node} (h : Ahead ops a b) :
    b.priority ≤ a.priority := by
  rcases h with h | ⟨h, -⟩
  exacts [h.le, h.le]

/-- What stays introduced stays in order. -/
theorem Ahead.mono {ops ops' : List NodeOp} {a b : Node} (h : Ahead ops a b)
    (ha : ∀ t, Introduced ops a.nodeid t a.priority → Introduced ops' a.nodeid t a.priority)
    (hb : ∀ t, Introduced ops b.nodeid t b.priority → Introduced ops' b.nodeid t b.priority) :
    Ahead ops' a b := by
  rcases h with h | ⟨hp, s, t, hs, ht, hst⟩
  · exact Or.inl h
  · exact Or.inr ⟨hp, s, t, ha s hs, hb t ht, hst⟩

namespace Represents

variable {ops : List NodeOp} {l : List Node}

theorem nil : Represents [] [] where
  nodup := List.nodup_nil
  ordered := List.Pairwise.nil
  mem _ := ⟨fun h => absurd h List.not_mem_nil, fun ⟨_, h⟩ => absurd h introduced_nil⟩

/-- The ids on the list are those the history has not left absent. -/
theorem mem_ids (h : Represents ops l) (x : NodeId) : x ∈ ids l ↔ ¬ Absent ops x := by
  rw [CpgFailover.mem_ids, absent_iff]
  constructor
  · rintro ⟨n, hn, rfl⟩ habs
    obtain ⟨t, ht⟩ := (h.mem n).mp hn
    exact habs t _ ht
  · intro habs
    simp only [not_forall, not_not] at habs
    obtain ⟨t, p, ht⟩ := habs
    exact ⟨⟨x, p⟩, (h.mem _).mpr ⟨t, ht⟩, rfl⟩

theorem sorted (h : Represents ops l) : l.Pairwise fun a b => b.priority ≤ a.priority :=
  h.ordered.imp Ahead.priority_le

theorem wellOrdered (h : Represents ops l) : WellOrdered l := ⟨h.nodup, h.sorted⟩

/-- An insertion keeps the representation. -/
theorem nodeAdd (h : Represents ops l) (x : NodeId) (p : ℤ) :
    Represents (ops ++ [.add x p]) (nodeAdd true l x p) := by
  have hkeep (n : Node) (t : ℕ) (ht : Introduced ops n.nodeid t n.priority) :
      Introduced (ops ++ [.add x p]) n.nodeid t n.priority := introduced_snoc_add.mpr (Or.inl ht)
  by_cases hx : x ∈ ids l
  · -- the id is there already, and the list stays as it is
    rw [nodeAdd_of_mem hx]
    refine ⟨h.nodup, h.ordered.imp fun hab => hab.mono (hkeep _) (hkeep _), fun n => ?_⟩
    have hnew (t : ℕ) :
        ¬ (n.nodeid = x ∧ n.priority = p ∧ t = ops.length ∧ Absent ops n.nodeid) := by
      rintro ⟨rfl, -, -, habs⟩
      exact (h.mem_ids _).mp hx habs
    simp only [h.mem, introduced_snoc_add, hnew, or_false]
  · rw [nodeAdd_of_not_mem hx]
    have habs : Absent ops x := not_not.mp ((h.mem_ids x).not.mp hx)
    have hnew : Introduced (ops ++ [.add x p]) x ops.length p :=
      introduced_snoc_add.mpr (Or.inr ⟨rfl, rfl, rfl, habs⟩)
    refine ⟨(h.wellOrdered.insertNode hx).nodup, ?_, fun n => ?_⟩
    · refine pairwise_insertNode (h.ordered.imp fun hab => hab.mono (hkeep _) (hkeep _)) h.sorted
        (fun n _ hn => Or.inl hn) fun n hn hle => ?_
      -- the new node is the latest of its priority
      obtain ⟨t, ht⟩ := (h.mem n).mp hn
      rcases hle.lt_or_eq with hlt | heq
      · exact Or.inl hlt
      · exact Or.inr ⟨heq, ops.length, t, hnew, hkeep n t ht, ht.time_lt⟩
    · rw [mem_insertNode, h.mem]
      constructor
      · rintro (rfl | ⟨t, ht⟩)
        · exact ⟨_, hnew⟩
        · exact ⟨t, hkeep n t ht⟩
      · rintro ⟨t, ht⟩
        rcases introduced_snoc_add.mp ht with ht | ⟨hn, hp, -, -⟩
        · exact Or.inr ⟨t, ht⟩
        · cases n
          exact Or.inl (by rw [← hn, ← hp])

/-- A removal keeps the representation. -/
theorem nodeRemove (h : Represents ops l) (x : NodeId) :
    Represents (ops ++ [.remove x]) (nodeRemove l x) := by
  have hwell := h.wellOrdered.nodeRemove x
  have hsub := nodeRemove_sublist l x
  have hne {n : Node} (hn : n ∈ CpgFailover.nodeRemove l x) : n.nodeid ≠ x :=
    (h.wellOrdered.mem_ids_nodeRemove.mp (CpgFailover.mem_ids.mpr ⟨n, hn, rfl⟩)).2
  refine ⟨hwell.nodup, ?_, fun n => ?_⟩
  · refine (h.ordered.sublist hsub).imp_of_mem fun ha hb hab => ?_
    apply hab.mono
    · exact fun t ht => introduced_snoc_remove.mpr ⟨ht, hne ha⟩
    · exact fun t ht => introduced_snoc_remove.mpr ⟨ht, hne hb⟩
  · simp only [introduced_snoc_remove, exists_and_right, ← h.mem]
    constructor
    · exact fun hn => ⟨hsub.subset hn, hne hn⟩
    · rintro ⟨hn, hx⟩
      rw [nodeRemove_eq_eraseP]
      exact List.mem_eraseP_of_neg (by simpa using hx) |>.mpr hn

/-- Each call keeps the representation. -/
theorem nodeOp (h : Represents ops l) (op : NodeOp) :
    Represents (ops ++ [op]) (CpgFailover.nodeOp l op) := by
  cases op with
  | add x p => exact h.nodeAdd x p
  | remove x => exact h.nodeRemove x

/-! ## What the walks answer -/

/-- `node_search` finds an id iff it is there, with the priority it was introduced with. -/
theorem nodeSearch (h : Represents ops l) (x : NodeId) :
    (nodeSearch l x).isSome ↔ ¬ Absent ops x := by
  rw [nodeSearch_isSome, h.mem_ids]

/-- `node_first` is the last one introduced among those of the highest priority. -/
theorem nodeFirst (h : Represents ops l) (hl : l ≠ []) :
    ∃ t p, Introduced ops (nodeFirst l) t p ∧
      ∀ x s q, Introduced ops x s q → x ≠ CpgFailover.nodeFirst l → q < p ∨ q = p ∧ s < t := by
  cases l with
  | nil => exact absurd rfl hl
  | cons n rest =>
    obtain ⟨t, ht⟩ := (h.mem n).mp List.mem_cons_self
    refine ⟨t, n.priority, ht, fun x s q hx hne => ?_⟩
    have hmem : ⟨x, q⟩ ∈ n :: rest := (h.mem ⟨x, q⟩).mpr ⟨s, hx⟩
    rcases List.mem_cons.mp hmem with rfl | hmem
    · exact absurd rfl hne
    · rcases (List.pairwise_cons.mp h.ordered).1 _ hmem with hlt | ⟨heq, t', s', ht', hs', hst⟩
      · exact Or.inl hlt
      · obtain rfl := (ht.unique ht').1
        obtain rfl := (hx.unique hs').1
        exact Or.inr ⟨heq, hst⟩

/-- `list_entries` is the number of ids that are there. -/
theorem listEntries (h : Represents ops l) : listEntries l = {x | ¬ Absent ops x}.ncard := by
  have hset : {x | ¬ Absent ops x} = ((ids l).toFinset : Set NodeId) := by
    ext x
    simp [h.mem_ids]
  rw [hset, Set.ncard_coe_finset, List.toFinset_card_of_nodup h.nodup, length_ids]

end Represents

/-- A removal undoes the insertion of an id that was not there. -/
theorem nodeRemove_nodeAdd {l : List Node} {x : NodeId} (h : x ∉ ids l) (p : ℤ) :
    nodeRemove (nodeAdd true l x p) x = l := by
  rw [nodeAdd_of_not_mem h]
  -- the walk of the removal follows the walk of the insertion
  induction l with
  | nil => simp [insertNode, nodeRemove]
  | cons curr rest ih =>
    rw [ids_cons, List.mem_cons, not_or] at h
    rw [insertNode]
    split_ifs
    · rw [nodeRemove, if_pos (Ne.symm h.1), ih h.2]
    · simp [nodeRemove]

/-! ## Every sequence of calls -/

/-- Every sequence of calls builds a list that represents it. -/
theorem represents_nodeOps (ops : List NodeOp) : Represents ops (nodeOps ops) := by
  induction ops using List.reverseRecOn with
  | nil => exact .nil
  | append_singleton ops op ih =>
    rw [nodeOps, List.foldl_append]
    exact ih.nodeOp op

/-- **What a node list represents**, for every sequence of insertions and removals: distinct ids in
non-increasing order of priority, the later insertion in front; just the nodes that were inserted
and not removed since, each with the priority of the first insertion since its last removal; and
the walks answer accordingly. -/
theorem nodeOps_represents (ops : List NodeOp) :
    (ids (nodeOps ops)).Nodup ∧
    ((nodeOps ops).Pairwise fun a b => b.priority ≤ a.priority ∧
      (b.priority = a.priority → ∃ s t, Introduced ops a.nodeid s a.priority ∧
        Introduced ops b.nodeid t b.priority ∧ t < s)) ∧
    (∀ x p, ⟨x, p⟩ ∈ nodeOps ops ↔ ∃ t, Introduced ops x t p) ∧
    (∀ x, (nodeSearch (nodeOps ops) x).isSome ↔ ¬ Absent ops x) ∧
    ((∀ x, Absent ops x) → nodeFirst (nodeOps ops) = 0) ∧
    ((∃ x, ¬ Absent ops x) → ∃ t p, Introduced ops (nodeFirst (nodeOps ops)) t p ∧
      ∀ x s q, Introduced ops x s q → x ≠ nodeFirst (nodeOps ops) → q < p ∨ q = p ∧ s < t) ∧
    listEntries (nodeOps ops) = {x | ¬ Absent ops x}.ncard ∧
    ∀ x p, Absent ops x → nodeRemove (nodeAdd true (nodeOps ops) x p) x = nodeOps ops := by
  have h := represents_nodeOps ops
  refine ⟨h.nodup, ?_, fun x p => h.mem ⟨x, p⟩, h.nodeSearch, ?_, ?_, h.listEntries, ?_⟩
  · refine h.ordered.imp fun hab => ⟨hab.priority_le, fun heq => ?_⟩
    rcases hab with hlt | ⟨-, hst⟩
    · exact absurd heq hlt.ne
    · exact hst
  · intro habs
    have hnil : nodeOps ops = [] := by
      by_contra hne
      exact (h.mem_ids _).mp (nodeFirst_mem hne) (habs _)
    rw [hnil]
    rfl
  · rintro ⟨x, hx⟩
    refine h.nodeFirst fun hnil => ?_
    have hmem := (h.mem_ids x).mpr hx
    rw [hnil] at hmem
    cases hmem
  · exact fun x p habs => nodeRemove_nodeAdd (fun hmem => (h.mem_ids x).mp hmem habs) p

end CpgFailover
