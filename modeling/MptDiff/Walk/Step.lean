import MptDiff.Trie.Node

namespace MptDiff

/-! # One call of `_compute_diff`

The sixteen pairs of node kinds are all the values `resolve` returns, so the source's fallback
`case _` is unreachable and has no counterpart here.
-/

/-- A call made by one call of `_compute_diff`. -/
inductive DiffCall where
  /-- `process_leaf_diff(path=path, left=left, right=right)`. -/
  | processLeafDiff (path : Bytes) (left right : Option LeafNode)
  /-- `self._compute_diff(left, right, path, process_leaf_diff)`. -/
  | computeDiff (left right : Ref) (path : Bytes)
deriving DecidableEq

/-- The cases of `_compute_diff` on the resolved pair `(l_node, r_node)`. -/
def diffNodes (lNode rNode : Option InternalNode) (path : Bytes) : Except PyError (List DiffCall) :=
  match lNode, rNode with
  | none, none => pure []
  | none, some (.leafNode r) =>
      pure [.processLeafDiff (nibbleListToBytes (path ++ r.restOfKey)) none (some r)]
  | none, some (.extensionNode keySegment subnode) =>
      pure [.computeDiff .none subnode (path ++ keySegment)]
  | none, some rNode@(.branchNode subnodes _) => do
      checkBranchNode rNode
      pure ((List.finRange 16).map fun i => .computeDiff .none (subnodes i) (path ++ [nibble i]))
  | some (.leafNode l), none =>
      pure [.processLeafDiff (nibbleListToBytes (path ++ l.restOfKey)) (some l) none]
  | some (.leafNode l), some (.leafNode r) =>
      if l.restOfKey = r.restOfKey then
        if l.value ≠ r.value then
          pure [.processLeafDiff (nibbleListToBytes (path ++ l.restOfKey)) (some l) (some r)]
        else pure []
      else
        pure [.processLeafDiff (nibbleListToBytes (path ++ l.restOfKey)) (some l) none,
          .processLeafDiff (nibbleListToBytes (path ++ r.restOfKey)) none (some r)]
  | some (.leafNode l), some (.extensionNode keySegment subnode) =>
      if keySegment <+: l.restOfKey then
        pure [.computeDiff (.node (.leafNode ⟨l.restOfKey.drop keySegment.length, l.value⟩))
          subnode (path ++ keySegment)]
      else
        pure [.processLeafDiff (nibbleListToBytes (path ++ l.restOfKey)) (some l) none,
          .computeDiff .none subnode (path ++ keySegment)]
  | some (.leafNode l), some rNode@(.branchNode subnodes _) => do
      checkBranchNode rNode
      (List.finRange 16).mapM fun i => do
        if i.val ≠ (← getIndex l.restOfKey 0).toNat then
          pure (.computeDiff .none (subnodes i) (path ++ [nibble i]))
        else
          pure (.computeDiff (.node (.leafNode ⟨l.restOfKey.drop 1, l.value⟩)) (subnodes i)
            (path ++ [nibble i]))
  | some (.extensionNode keySegment subnode), none =>
      pure [.computeDiff subnode .none (path ++ keySegment)]
  | some (.extensionNode keySegment subnode), some (.leafNode r) =>
      if keySegment <+: r.restOfKey then
        pure [.computeDiff subnode (.node (.leafNode ⟨r.restOfKey.drop keySegment.length, r.value⟩))
          (path ++ keySegment)]
      else
        pure [.processLeafDiff (nibbleListToBytes (path ++ r.restOfKey)) none (some r),
          .computeDiff subnode .none (path ++ keySegment)]
  | some (.extensionNode lSegment lSubnode), some (.extensionNode rSegment rSubnode) =>
      if lSegment = rSegment then
        pure [.computeDiff lSubnode rSubnode (path ++ lSegment)]
      else if rSegment <+: lSegment then
        pure [.computeDiff (.node (.extensionNode (lSegment.drop rSegment.length) lSubnode))
          rSubnode (path ++ rSegment)]
      else if lSegment <+: rSegment then
        pure [.computeDiff lSubnode (.node (.extensionNode (rSegment.drop lSegment.length) rSubnode))
          (path ++ lSegment)]
      else
        pure [.computeDiff lSubnode .none (path ++ lSegment),
          .computeDiff .none rSubnode (path ++ rSegment)]
  | some (.extensionNode keySegment subnode), some rNode@(.branchNode subnodes _) => do
      checkBranchNode rNode
      (List.finRange 16).mapM fun i => do
        if PyObj.int (← getIndex keySegment 0).toNat = PyObj.bytes [nibble i] then
          let lNodeToCompare :=
            if keySegment.length = 1 then subnode
            else .node (.extensionNode (keySegment.drop 1) subnode)
          pure (.computeDiff lNodeToCompare (subnodes i) (path ++ [nibble i]))
        else
          pure (.computeDiff .none (subnodes i) (path ++ [nibble i]))
  | some lNode@(.branchNode subnodes _), none => do
      checkBranchNode lNode
      pure ((List.finRange 16).map fun i => .computeDiff (subnodes i) .none (path ++ [nibble i]))
  | some (.branchNode subnodes _), some rNode@(.leafNode r) => do
      checkBranchNode rNode
      (List.finRange 16).mapM fun i => do
        if i.val ≠ (← getIndex r.restOfKey 0).toNat then
          pure (.computeDiff (subnodes i) .none (path ++ [nibble i]))
        else
          pure (.computeDiff (subnodes i) (.node (.leafNode ⟨r.restOfKey.drop 1, r.value⟩))
            (path ++ [nibble i]))
  | some (.branchNode subnodes _), some rNode@(.extensionNode keySegment subnode) => do
      checkBranchNode rNode
      (List.finRange 16).mapM fun i => do
        -- the source first runs `r_node.key_segment = r_node.key_segment[1:]` here; the branch
        -- is never taken (`PyObj.int` is never `PyObj.bytes`), so the mutation never happens
        if PyObj.int (← getIndex keySegment 0).toNat = PyObj.bytes [nibble i] then
          pure (.computeDiff (subnodes i) subnode (path ++ [nibble i]))
        else
          pure (.computeDiff (subnodes i) .none (path ++ [nibble i]))
  | some lNode@(.branchNode lSubnodes _), some rNode@(.branchNode rSubnodes _) => do
      checkBranchNode lNode
      checkBranchNode rNode
      pure ((List.finRange 16).map fun i =>
        .computeDiff (lSubnodes i) (rSubnodes i) (path ++ [nibble i]))

/-- One call of `_compute_diff(left, right, path, ...)`, up to the calls it makes. -/
def computeDiffStep (nodes : NodeStore) (left right : Ref) (path : Bytes) :
    Except PyError (List DiffCall) :=
  if left = right then pure []
  else do
    let lNode ← resolve left nodes
    let rNode ← resolve right nodes
    diffNodes lNode rNode path

/-- A resolved node is a branch. -/
def IsBranch : Option InternalNode → Prop
  | some (.branchNode _ _) => True
  | _ => False

/-- A resolved node is a leaf or an extension. -/
def IsLeafOrExtension : Option InternalNode → Prop
  | some (.leafNode _) | some (.extensionNode _ _) => True
  | _ => False

/-- A resolved node is a branch with a value, which `check_branch_node` rejects. -/
def HasValue : Option InternalNode → Prop
  | some (.branchNode _ value) => value ≠ []
  | _ => False

/-- A resolved node is a leaf or an extension with an empty key part, whose `[0]` raises. -/
def EmptyKey : Option InternalNode → Prop
  | some (.leafNode leaf) => leaf.restOfKey = []
  | some (.extensionNode keySegment _) => keySegment = []
  | _ => False

theorem diffNodes_eq_error {lNode rNode : Option InternalNode} {path : Bytes} {e : PyError}
    (failed : diffNodes lNode rNode path = .error e) :
    e = .badBranch ∧ (HasValue lNode ∨ HasValue rNode ∨ IsBranch lNode ∧ IsLeafOrExtension rNode) ∨
      e = .indexError ∧ EmptyKey lNode ∧ IsBranch rNode := by
  rcases lNode with _ | ⟨l⟩ | ⟨ls, lsub⟩ | ⟨lsubs, lv⟩ <;>
    rcases rNode with _ | ⟨r⟩ | ⟨rs, rsub⟩ | ⟨rsubs, rv⟩ <;>
    simp only [diffNodes] at failed
  case none.some.branchNode =>
    rcases bind_eq_error.mp failed with checked | ⟨_, _, failed⟩
    · exact .inl ⟨checkBranchNode_eq_error checked, .inr (.inl (checkBranchNode_branchNode_eq_error checked))⟩
    · exact absurd failed pure_ne_error
  case some.branchNode.none =>
    rcases bind_eq_error.mp failed with checked | ⟨_, _, failed⟩
    · exact .inl ⟨checkBranchNode_eq_error checked, .inl (checkBranchNode_branchNode_eq_error checked)⟩
    · exact absurd failed pure_ne_error
  case some.leafNode.some.branchNode | some.extensionNode.some.branchNode =>
    rcases bind_eq_error.mp failed with checked | ⟨_, _, failed⟩
    · exact .inl ⟨checkBranchNode_eq_error checked, .inr (.inl (checkBranchNode_branchNode_eq_error checked))⟩
    obtain ⟨i, -, failed⟩ := mapM_eq_error failed
    rcases bind_eq_error.mp failed with indexed | ⟨_, _, failed⟩
    · obtain ⟨empty, rfl⟩ := getIndex_zero_eq_error indexed
      exact .inr ⟨rfl, empty, trivial⟩
    · split_ifs at failed <;> exact absurd failed pure_ne_error
  case some.branchNode.some.leafNode | some.branchNode.some.extensionNode =>
    rcases bind_eq_error.mp failed with checked | ⟨_, checked, -⟩
    · exact .inl ⟨checkBranchNode_eq_error checked, .inr (.inr ⟨trivial, trivial⟩)⟩
    · exact nomatch checked
  case some.branchNode.some.branchNode =>
    rcases bind_eq_error.mp failed with checked | ⟨_, _, failed⟩
    · exact .inl ⟨checkBranchNode_eq_error checked, .inl (checkBranchNode_branchNode_eq_error checked)⟩
    rcases bind_eq_error.mp failed with checked | ⟨_, _, failed⟩
    · exact .inl ⟨checkBranchNode_eq_error checked, .inr (.inl (checkBranchNode_branchNode_eq_error checked))⟩
    · exact absurd failed pure_ne_error
  all_goals first
    | exact absurd failed pure_ne_error
    | (split_ifs at failed <;> exact absurd failed pure_ne_error)

theorem computeDiffStep_eq_error {nodes : NodeStore} {left right : Ref} {path : Bytes}
    {e : PyError} (failed : computeDiffStep nodes left right path = .error e) :
    e = .invalidNodeType ∨ e = .badBranch ∨ e = .indexError := by
  unfold computeDiffStep at failed
  split at failed
  · exact absurd failed pure_ne_error
  rcases bind_eq_error.mp failed with failed | ⟨_, _, failed⟩
  · exact .inl (resolve_eq_error failed)
  rcases bind_eq_error.mp failed with failed | ⟨_, _, failed⟩
  · exact .inl (resolve_eq_error failed)
  rcases diffNodes_eq_error failed with ⟨same, -⟩ | ⟨same, -⟩
  exacts [.inr (.inl same), .inr (.inr same)]

end MptDiff
