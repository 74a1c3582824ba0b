import MptDiff.Trie.Node

namespace MptDiff

/-! # Well-formed tries

Every key below a well-formed trie has `n` nibbles, an extension's segment is non-empty and
leads to a branch, and a branch has an empty value; a missing hash is the empty sub-trie.
-/

/-- `ref` is absent or the root of a well-formed sub-trie whose keys all have `n` nibbles. -/
inductive WellFormed (nodes : NodeStore) : Nat → Ref → Prop
  | absent {n ref} (resolved : resolve ref nodes = .ok none) : WellFormed nodes n ref
  | leaf {n ref leaf} (resolved : resolve ref nodes = .ok (some (.leafNode leaf)))
      (keyLength : leaf.restOfKey.length = n) (nibbles : ∀ x ∈ leaf.restOfKey, x < 16) :
      WellFormed nodes n ref
  | extension {n ref keySegment subnode} (m : Nat)
      (resolved : resolve ref nodes = .ok (some (.extensionNode keySegment subnode)))
      (keyLength : keySegment.length + m = n) (nonempty : keySegment ≠ [])
      (nibbles : ∀ x ∈ keySegment, x < 16)
      (toBranch : ∃ subnodes value,
        resolve subnode nodes = .ok (some (.branchNode subnodes value)))
      (sub : WellFormed nodes m subnode) : WellFormed nodes n ref
  | branch {n ref subnodes} (m : Nat)
      (resolved : resolve ref nodes = .ok (some (.branchNode subnodes [])))
      (keyLength : m + 1 = n) (subs : ∀ i, WellFormed nodes m (subnodes i)) : WellFormed nodes n ref

variable {nodes : NodeStore} {n : Nat} {ref : Ref}

theorem WellFormed.leaf_length {leaf : LeafNode} (wellFormed : WellFormed nodes n ref)
    (resolved : resolve ref nodes = .ok (some (.leafNode leaf))) :
    leaf.restOfKey.length = n ∧ ∀ x ∈ leaf.restOfKey, x < 16 := by
  cases wellFormed with
  | leaf resolved' keyLength nibbles =>
      cases resolved.symm.trans resolved'
      exact ⟨keyLength, nibbles⟩
  | absent resolved' | extension _ resolved' | branch _ resolved' =>
      exact nomatch resolved.symm.trans resolved'

theorem WellFormed.extension_parts {keySegment : Bytes} {subnode : Ref}
    (wellFormed : WellFormed nodes n ref)
    (resolved : resolve ref nodes = .ok (some (.extensionNode keySegment subnode))) :
    ∃ m, keySegment.length + m = n ∧ keySegment ≠ [] ∧ (∀ x ∈ keySegment, x < 16) ∧
      (∃ subnodes value, resolve subnode nodes = .ok (some (.branchNode subnodes value))) ∧
      WellFormed nodes m subnode := by
  cases wellFormed with
  | extension m resolved' keyLength nonempty nibbles toBranch sub =>
      cases resolved.symm.trans resolved'
      exact ⟨m, keyLength, nonempty, nibbles, toBranch, sub⟩
  | absent resolved' | leaf resolved' | branch _ resolved' =>
      exact nomatch resolved.symm.trans resolved'

theorem WellFormed.branch_parts {subnodes : Fin 16 → Ref} {value : Bytes}
    (wellFormed : WellFormed nodes n ref)
    (resolved : resolve ref nodes = .ok (some (.branchNode subnodes value))) :
    ∃ m, m + 1 = n ∧ value = [] ∧ ∀ i, WellFormed nodes m (subnodes i) := by
  cases wellFormed with
  | branch m resolved' keyLength subs =>
      cases resolved.symm.trans resolved'
      exact ⟨m, keyLength, rfl, subs⟩
  | absent resolved' | leaf resolved' | extension _ resolved' =>
      exact nomatch resolved.symm.trans resolved'

theorem WellFormed.resolve_ok (wellFormed : WellFormed nodes n ref) :
    ∃ node, resolve ref nodes = .ok node := by
  cases wellFormed with
  | absent resolved | leaf resolved | extension _ resolved | branch _ resolved => exact ⟨_, resolved⟩

/-- The store key of an example node: 32 bytes standing in for the node's hash. -/
def nodeHash (n : UInt8) : Bytes := List.replicate 32 n

/-- The 64-nibble key of an example account, by its first nibble. -/
def accountKey (first : UInt8) : Bytes := first :: List.replicate 63 0

/-- The root of the trie holding the accounts `accountKey 1` and `accountKey 4`. -/
def twoAccountsNode : InternalNode :=
  .branchNode (fun i => if i = 1 then .bytes (nodeHash 2) else if i = 4 then .bytes (nodeHash 3)
    else .bytes []) []

/-- The nodes of both tries: the branch under `nodeHash 1` with its leaves, and the single leaf
under `nodeHash 4` left after `accountKey 4` is deleted. -/
def accountsStore : NodeStore :=
  ⟨[(nodeHash 1, twoAccountsNode), (nodeHash 2, .leafNode ⟨(accountKey 1).drop 1, [1]⟩),
    (nodeHash 3, .leafNode ⟨(accountKey 4).drop 1, [2]⟩),
    (nodeHash 4, .leafNode ⟨accountKey 1, [1]⟩)], by decide⟩

theorem accountsStore_wellFormed :
    WellFormed accountsStore 64 (.bytes (nodeHash 1)) ∧
      WellFormed accountsStore 64 (.bytes (nodeHash 4)) := by
  refine ⟨.branch 63 rfl rfl fun i => ?_, .leaf rfl rfl (by decide)⟩
  dsimp only
  split_ifs
  · exact .leaf rfl rfl (by decide)
  · exact .leaf rfl rfl (by decide)
  · exact .absent rfl

/-- A branch with no value whose children are the nodes `nodeHash k` at the listed slots. -/
def hashBranch (children : List (Fin 16 × UInt8)) : InternalNode :=
  .branchNode (fun i => ((children.find? fun c => c.1 = i).map fun c => .bytes (nodeHash c.2)).getD
    (.bytes [])) []

theorem WellFormed.hashBranch {children : List (Fin 16 × UInt8)} {m : Nat}
    (resolved : resolve ref nodes = .ok (some (hashBranch children)))
    (subs : ∀ c ∈ children, WellFormed nodes m (.bytes (nodeHash c.2))) :
    WellFormed nodes (m + 1) ref :=
  .branch m resolved rfl fun i => by
    cases found : children.find? fun c => c.1 = i with
    | none => exact .absent rfl
    | some c => exact subs c (List.mem_of_find?_eq_some found)

/-- The nodes of the storage examples.  The state trie `nodeHash 20` holds accounts at
`accountKey 1`, `4` and `7`, whose payloads `[code, root]` name their storage tries
`nodeHash root`.  In the state trie `nodeHash 24` the first account has a new storage trie, the
second a new code over the same storage trie, and the third is the same leaf.  The storage trie
`nodeHash 31` keeps the slot `accountKey 1` of `nodeHash 30`, changes `accountKey 2`, adds
`accountKey 3` and deletes `accountKey 4`.  Below the nibble 4, the trie `nodeHash 40` has a branch
of two leaves, which in `nodeHash 44` has lost one leaf and collapsed into the other. -/
def slotStore : NodeStore :=
  ⟨[(nodeHash 20, hashBranch [(1, 21), (4, 22), (7, 23)]),
    (nodeHash 24, hashBranch [(1, 25), (4, 26), (7, 23)]),
    (nodeHash 21, .leafNode ⟨(accountKey 1).drop 1, [1, 30]⟩),
    (nodeHash 25, .leafNode ⟨(accountKey 1).drop 1, [1, 31]⟩),
    (nodeHash 22, .leafNode ⟨(accountKey 4).drop 1, [2, 32]⟩),
    (nodeHash 26, .leafNode ⟨(accountKey 4).drop 1, [3, 32]⟩),
    (nodeHash 23, .leafNode ⟨(accountKey 7).drop 1, [5, 32]⟩),
    (nodeHash 30, hashBranch [(1, 33), (2, 34), (4, 37)]),
    (nodeHash 31, hashBranch [(1, 33), (2, 35), (3, 36)]),
    (nodeHash 32, .leafNode ⟨accountKey 5, [4]⟩),
    (nodeHash 33, .leafNode ⟨(accountKey 1).drop 1, [7]⟩),
    (nodeHash 34, .leafNode ⟨(accountKey 2).drop 1, [8]⟩),
    (nodeHash 35, .leafNode ⟨(accountKey 2).drop 1, [9]⟩),
    (nodeHash 36, .leafNode ⟨(accountKey 3).drop 1, [10]⟩),
    (nodeHash 37, .leafNode ⟨(accountKey 4).drop 1, [11]⟩),
    (nodeHash 40, hashBranch [(1, 21), (4, 41)]),
    (nodeHash 41, hashBranch [(2, 42), (5, 43)]),
    (nodeHash 42, .leafNode ⟨List.replicate 62 0, [6]⟩),
    (nodeHash 43, .leafNode ⟨List.replicate 62 0, [7]⟩),
    (nodeHash 44, hashBranch [(1, 25), (4, 45)]),
    (nodeHash 45, .leafNode ⟨2 :: List.replicate 62 0, [6]⟩)], by decide⟩

theorem slotStore_wellFormed :
    WellFormed slotStore 64 (.bytes (nodeHash 20)) ∧ WellFormed slotStore 64 (.bytes (nodeHash 24)) ∧
    WellFormed slotStore 64 (.bytes (nodeHash 30)) ∧ WellFormed slotStore 64 (.bytes (nodeHash 31)) ∧
    WellFormed slotStore 64 (.bytes (nodeHash 32)) ∧ WellFormed slotStore 64 (.bytes (nodeHash 40)) ∧
    WellFormed slotStore 64 (.bytes (nodeHash 44)) := by
  refine ⟨.hashBranch rfl ?_, .hashBranch rfl ?_, .hashBranch rfl ?_, .hashBranch rfl ?_,
    .leaf rfl rfl (by decide), .hashBranch rfl ?_, .hashBranch rfl ?_⟩ <;>
    simp only [List.forall_mem_cons, List.mem_nil_iff, false_implies, implies_true, and_true]
  all_goals first
    | exact ⟨.leaf rfl rfl (by decide), .leaf rfl rfl (by decide), .leaf rfl rfl (by decide)⟩
    | exact ⟨.leaf rfl rfl (by decide), .leaf rfl rfl (by decide)⟩
    | exact ⟨.leaf rfl rfl (by decide), .hashBranch rfl (by
        simp only [List.forall_mem_cons, List.mem_nil_iff, false_implies, implies_true, and_true]
        exact ⟨.leaf rfl rfl (by decide), .leaf rfl rfl (by decide)⟩)⟩

theorem slotStore_storage_wellFormed {root : UInt8} (storage : root ∈ [30, 31, 32]) :
    WellFormed slotStore 64 (.bytes (nodeHash root)) := by
  simp only [List.mem_cons, List.mem_singleton, List.not_mem_nil, or_false] at storage
  rcases storage with rfl | rfl | rfl
  exacts [slotStore_wellFormed.2.2.1, slotStore_wellFormed.2.2.2.1, slotStore_wellFormed.2.2.2.2.1]

end MptDiff
