import Mathlib.Data.Finset.Card
import Mathlib.Data.List.FinRange
import Mathlib.Data.List.OfFn
import Mathlib.Logic.Relation
import MptDiff.Trie.Node

namespace MptDiff

/-! # Heights through the node store

A store may hold a cycle of hashes; an acyclic one gives every hash one common height bound,
the termination measure of the walk.
-/

/-- Every chain of nodes below `ref`, through the store, has at most `k` nodes. -/
def HeightLE (nodes : NodeStore) : Nat → Ref → Prop
  | 0, ref => ∀ node, resolve ref nodes ≠ .ok (some node)
  | k + 1, ref => ∀ node, resolve ref nodes = .ok (some node) →
      ∀ child ∈ node.children, HeightLE nodes k child

variable {nodes : NodeStore}

theorem HeightLE.succ : ∀ {k : Nat} {ref : Ref}, HeightLE nodes k ref → HeightLE nodes (k + 1) ref
  | 0, _, absent => fun node resolved => absurd resolved (absent node)
  | _ + 1, _, below => fun node resolved child member => (below node resolved child member).succ

theorem HeightLE.mono {k k' : Nat} {ref : Ref} (le : k ≤ k') (height : HeightLE nodes k ref) :
    HeightLE nodes k' ref := by
  induction le with
  | refl => exact height
  | step _ ih => exact ih.succ

theorem heightLE_of_absent {k : Nat} {ref : Ref}
    (absent : ∀ node, resolve ref nodes ≠ .ok (some node)) : HeightLE nodes k ref :=
  HeightLE.mono (Nat.zero_le k) absent

theorem heightLE_of_children {k : Nat} {ref : Ref} {node : InternalNode}
    (resolved : resolve ref nodes = .ok (some node))
    (children : ∀ child ∈ node.children, HeightLE nodes k child) : HeightLE nodes (k + 1) ref :=
  fun _ resolved' => Option.some.inj (Except.ok.inj (resolved.symm.trans resolved')) ▸ children

theorem HeightLE.child {k : Nat} {ref child : Ref} {node : InternalNode}
    (height : HeightLE nodes k ref) (resolved : resolve ref nodes = .ok (some node))
    (member : child ∈ node.children) : ∃ k', k = k' + 1 ∧ HeightLE nodes k' child := by
  cases k with
  | zero => exact absurd resolved (height node)
  | succ k => exact ⟨k, rfl, height node resolved child member⟩

theorem exists_heightLE_forall :
    ∀ {refs : List Ref}, (∀ ref ∈ refs, ∃ k, HeightLE nodes k ref) →
      ∃ k, ∀ ref ∈ refs, HeightLE nodes k ref
  | [], _ => ⟨0, fun _ member => absurd member (List.not_mem_nil _)⟩
  | ref :: refs, each => by
      obtain ⟨k, first⟩ := each ref (List.mem_cons_self ref refs)
      obtain ⟨k', rest⟩ := exists_heightLE_forall fun r member => each r (List.mem_cons_of_mem ref member)
      refine ⟨max k k', fun r member => ?_⟩
      rcases List.mem_cons.mp member with rfl | member
      · exact first.mono (le_max_left k k')
      · exact (rest r member).mono (le_max_right k k')

mutual

/-- The hashes a node refers to, directly or through the nodes inlined in it. -/
def InternalNode.hashes : InternalNode → List Bytes
  | .leafNode _ => []
  | .extensionNode _ subnode => subnode.hashes
  | .branchNode subnodes _ => (List.finRange 16).flatMap fun i => (subnodes i).hashes

/-- The hashes a reference refers to, itself included. -/
def Ref.hashes : Ref → List Bytes
  | .none => []
  | .bytes b => [b]
  | .list node => node.hashes
  | .node node => node.hashes

end

/-- The node stored under the hash `h` refers to the hash `h'`. -/
def RefersTo (nodes : NodeStore) (h h' : Bytes) : Prop :=
  ∃ node, nodes.get? h = some node ∧ h' ∈ node.hashes

/-- No hash of the store refers back to itself. -/
def Acyclic (nodes : NodeStore) : Prop :=
  ∀ h, ¬ Relation.TransGen (RefersTo nodes) h h

theorem acyclic_of_rank (rank : Bytes → Nat)
    (decreasing : ∀ item ∈ nodes.items, ∀ h ∈ item.2.hashes, rank h < rank item.1) :
    Acyclic nodes := by
  have chain : ∀ {h h'}, Relation.TransGen (RefersTo nodes) h h' → rank h' < rank h := by
    intro h h' refers
    induction refers with
    | single refers =>
        obtain ⟨node, stored, member⟩ := refers
        exact decreasing _ (PyDict.mem_items_of_get? stored) _ member
    | tail _ refers ih =>
        obtain ⟨node, stored, member⟩ := refers
        exact (decreasing _ (PyDict.mem_items_of_get? stored) _ member).trans ih
  exact fun h cycle => lt_irrefl _ (chain cycle)

theorem resolve_bytes_eq_some {h : Bytes} {node : InternalNode}
    (resolved : resolve (.bytes h) nodes = .ok (some node)) : nodes.get? h = some node := by
  simp only [resolve] at resolved
  split_ifs at resolved <;> first | exact Except.ok.inj resolved | exact nomatch resolved

theorem heightLE_bytes_of_not_mem {k : Nat} {h : Bytes} (missing : h ∉ nodes.keys) :
    HeightLE nodes k (.bytes h) :=
  heightLE_of_absent fun _ resolved => missing (PyDict.mem_keys_of_get? (resolve_bytes_eq_some resolved))

mutual

theorem InternalNode.exists_heightLE_children (nodes : NodeStore) :
    ∀ node : InternalNode, (∀ h ∈ node.hashes, ∃ k, HeightLE nodes k (.bytes h)) →
      ∃ k, ∀ child ∈ node.children, HeightLE nodes k child
  | .leafNode _, _ => ⟨0, fun _ member => nomatch member⟩
  | .extensionNode _ subnode, hashed => by
      obtain ⟨k, height⟩ := Ref.exists_heightLE nodes subnode hashed
      exact ⟨k, fun child member => by rwa [List.mem_singleton.mp member]⟩
  | .branchNode subnodes _, hashed => by
      have slot : ∀ i, ∃ k, HeightLE nodes k (subnodes i) := fun i =>
        Ref.exists_heightLE nodes (subnodes i) fun h member =>
          hashed h (List.mem_flatMap.mpr ⟨i, List.mem_finRange i, member⟩)
      refine exists_heightLE_forall fun child member => ?_
      obtain ⟨i, rfl⟩ := (List.mem_ofFn subnodes child).mp member
      exact slot i

theorem Ref.exists_heightLE (nodes : NodeStore) :
    ∀ ref : Ref, (∀ h ∈ ref.hashes, ∃ k, HeightLE nodes k (.bytes h)) → ∃ k, HeightLE nodes k ref
  | .none, _ => ⟨0, fun _ resolved => nomatch resolved⟩
  | .bytes b, hashed => hashed b (List.mem_singleton_self b)
  | .list node, hashed | .node node, hashed => by
      obtain ⟨k, children⟩ := InternalNode.exists_heightLE_children nodes node hashed
      exact ⟨k + 1, heightLE_of_children rfl children⟩

end

theorem Acyclic.exists_heightLE (acyclic : Acyclic nodes) (h : Bytes) :
    ∃ k, HeightLE nodes k (.bytes h) := by
  classical
  induction' measure : (nodes.keys.toFinset.filter (Relation.TransGen (RefersTo nodes) h)).card
    using Nat.strong_induction_on with μ ih generalizing h
  cases stored : nodes.get? h with
  | none => exact ⟨0, fun _ resolved => nomatch (resolve_bytes_eq_some resolved).symm.trans stored⟩
  | some node =>
      obtain ⟨k, children⟩ := node.exists_heightLE_children nodes fun h' member => by
        have refers : RefersTo nodes h h' := ⟨node, stored, member⟩
        by_cases key : h' ∈ nodes.keys
        · refine ih _ (measure ▸ Finset.card_lt_card ?_) h' rfl
          refine (Finset.ssubset_iff_of_subset fun x below => ?_).mpr ⟨h', ?_, ?_⟩
          · simp only [Finset.mem_filter] at below ⊢
            exact ⟨below.1, .head refers below.2⟩
          · simpa using ⟨key, .single refers⟩
          · simpa using fun _ => acyclic h'
        · exact ⟨0, heightLE_bytes_of_not_mem key⟩
      exact ⟨k + 1, fun node' resolved =>
        Option.some.inj ((resolve_bytes_eq_some resolved).symm.trans stored) ▸ children⟩

theorem Acyclic.exists_height_bound (acyclic : Acyclic nodes) :
    ∃ bound, ∀ h, HeightLE nodes bound (.bytes h) := by
  have each : ∀ ref ∈ nodes.keys.map Ref.bytes, ∃ k, HeightLE nodes k ref := fun ref member => by
    obtain ⟨h, -, rfl⟩ := List.mem_map.mp member
    exact acyclic.exists_heightLE h
  obtain ⟨bound, stored⟩ := exists_heightLE_forall each
  refine ⟨bound, fun h => ?_⟩
  by_cases key : h ∈ nodes.keys
  · exact stored _ (List.mem_map_of_mem _ key)
  · exact heightLE_bytes_of_not_mem key

end MptDiff
