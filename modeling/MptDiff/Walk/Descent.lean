import MptDiff.Walk.Run

namespace MptDiff

/-! # How a recursive call descends

Every recursive call extends the path by a key part, with a child of the caller's node on at
least one side; the termination measure and the key-length invariant are read off this.
-/

variable {nodes : NodeStore}

/-- `child` is a subnode of the node `node` resolves to, below the key part `q`. -/
inductive Child (nodes : NodeStore) : Ref → Bytes → Ref → Prop
  | subnode {node keySegment subnode} :
      resolve node nodes = .ok (some (.extensionNode keySegment subnode)) →
      Child nodes node keySegment subnode
  | slot {node subnodes value} (i : Fin 16) :
      resolve node nodes = .ok (some (.branchNode subnodes value)) →
      Child nodes node [nibble i] (subnodes i)

/-- `node'` is a side of a recursive call whose path extends the caller's by `q`, where the
caller's reference on that side is `node`. -/
inductive Descends (nodes : NodeStore) : Ref → Bytes → Ref → Prop
  | child {node q child} : Child nodes node q child → Descends nodes node q child
  | dropped {node q} : Descends nodes node q .none
  | shortLeaf {node leaf q} : resolve node nodes = .ok (some (.leafNode leaf)) →
      q <+: leaf.restOfKey →
      Descends nodes node q (.node (.leafNode ⟨leaf.restOfKey.drop q.length, leaf.value⟩))
  | shortExtension {node keySegment subnode q} :
      resolve node nodes = .ok (some (.extensionNode keySegment subnode)) →
      q <+: keySegment → q.length < keySegment.length →
      Descends nodes node q (.node (.extensionNode (keySegment.drop q.length) subnode))

theorem mem_of_mapM_eq_ok {ε α β : Type} {f : α → Except ε β} {xs : List α} {ys : List β}
    {y : β} (run : xs.mapM f = .ok ys) (member : y ∈ ys) : ∃ x ∈ xs, f x = .ok y := by
  induction mapM_eq_ok.mp run with
  | nil => exact absurd member (List.not_mem_nil y)
  | @cons x y' xs ys first _ ih =>
      rcases List.mem_cons.mp member with rfl | member
      · exact ⟨x, List.mem_cons_self x xs, first⟩
      · obtain ⟨z, mem, ran⟩ := ih (mapM_eq_ok.mpr ‹_›) member
        exact ⟨z, List.mem_cons_of_mem x mem, ran⟩

theorem nibble_prefix_of_getIndex {restOfKey : Bytes} {k : UInt8} {i : Fin 16}
    (indexed : getIndex restOfKey 0 = .ok k) (matched : ¬ i.val ≠ k.toNat) :
    [nibble i] <+: restOfKey := by
  obtain ⟨rest, rfl⟩ := getIndex_zero_eq_ok.mp indexed
  have same : nibble i = k := UInt8.toNat.inj (by rw [toNat_nibble]; omega)
  exact ⟨rest, by rw [same]; rfl⟩

theorem diffNodes_calls {left right left' right' : Ref} {lNode rNode : Option InternalNode}
    {path path' : Bytes} {calls : List DiffCall}
    (lResolved : resolve left nodes = .ok lNode) (rResolved : resolve right nodes = .ok rNode)
    (stepped : diffNodes lNode rNode path = .ok calls)
    (member : DiffCall.computeDiff left' right' path' ∈ calls) :
    ∃ q, path' = path ++ q ∧
      (Child nodes left q left' ∧ Descends nodes right q right' ∨
        Descends nodes left q left' ∧ Child nodes right q right') := by
  rcases lNode with _ | ⟨l⟩ | ⟨ls, lsub⟩ | ⟨lsubs, lv⟩ <;>
    rcases rNode with _ | ⟨r⟩ | ⟨rs, rsub⟩ | ⟨rsubs, rv⟩ <;>
    simp only [diffNodes, bind_eq_ok, pure_eq_ok] at stepped
  case none.none | none.some.leafNode | some.leafNode.none =>
    subst stepped; simp at member
  case none.some.extensionNode =>
    subst stepped
    obtain ⟨rfl, rfl, rfl⟩ := by simpa using member
    exact ⟨rs, rfl, .inr ⟨.dropped, .subnode rResolved⟩⟩
  case none.some.branchNode =>
    obtain ⟨_, _, rfl⟩ := stepped
    obtain ⟨i, -, same⟩ := List.mem_map.mp member
    simp only [DiffCall.computeDiff.injEq] at same
    obtain ⟨rfl, rfl, rfl⟩ := same
    exact ⟨_, rfl, .inr ⟨.dropped, .slot i rResolved⟩⟩
  case some.leafNode.some.leafNode =>
    split_ifs at stepped <;> simp only [pure_eq_ok] at stepped <;> subst stepped <;>
      simp at member
  case some.leafNode.some.extensionNode =>
    split_ifs at stepped with isPrefix <;> simp only [pure_eq_ok] at stepped <;> subst stepped
    · obtain ⟨rfl, rfl, rfl⟩ := by simpa using member
      exact ⟨rs, rfl, .inr ⟨.shortLeaf lResolved isPrefix, .subnode rResolved⟩⟩
    · obtain ⟨rfl, rfl, rfl⟩ := by simpa using member
      exact ⟨rs, rfl, .inr ⟨.dropped, .subnode rResolved⟩⟩
  case some.leafNode.some.branchNode =>
    obtain ⟨_, _, run⟩ := stepped
    obtain ⟨i, -, ran⟩ := mem_of_mapM_eq_ok run member
    obtain ⟨k, indexed, ran⟩ := bind_eq_ok.mp ran
    split_ifs at ran with differs <;>
      simp only [pure_eq_ok, DiffCall.computeDiff.injEq] at ran <;> obtain ⟨rfl, rfl, rfl⟩ := ran
    · exact ⟨_, rfl, .inr ⟨.dropped, .slot i rResolved⟩⟩
    · exact ⟨_, rfl, .inr ⟨.shortLeaf lResolved (nibble_prefix_of_getIndex indexed differs), .slot i rResolved⟩⟩
  case some.extensionNode.none =>
    subst stepped
    obtain ⟨rfl, rfl, rfl⟩ := by simpa using member
    exact ⟨ls, rfl, .inl ⟨.subnode lResolved, .dropped⟩⟩
  case some.extensionNode.some.leafNode =>
    split_ifs at stepped with isPrefix <;> simp only [pure_eq_ok] at stepped <;> subst stepped
    · obtain ⟨rfl, rfl, rfl⟩ := by simpa using member
      exact ⟨ls, rfl, .inl ⟨.subnode lResolved, .shortLeaf rResolved isPrefix⟩⟩
    · obtain ⟨rfl, rfl, rfl⟩ := by simpa using member
      exact ⟨ls, rfl, .inl ⟨.subnode lResolved, .dropped⟩⟩
  case some.extensionNode.some.extensionNode =>
    split_ifs at stepped with same rPrefix lPrefix <;> simp only [pure_eq_ok] at stepped <;>
      subst stepped
    · obtain ⟨rfl, rfl, rfl⟩ := by simpa using member
      exact ⟨ls, rfl, .inl ⟨.subnode lResolved, .child (same ▸ .subnode rResolved)⟩⟩
    · obtain ⟨rfl, rfl, rfl⟩ := by simpa using member
      have shorter : rs.length < ls.length :=
        lt_of_le_of_ne rPrefix.length_le fun equal => same (rPrefix.eq_of_length equal).symm
      exact ⟨rs, rfl, .inr ⟨.shortExtension lResolved rPrefix shorter, .subnode rResolved⟩⟩
    · obtain ⟨rfl, rfl, rfl⟩ := by simpa using member
      have shorter : ls.length < rs.length :=
        lt_of_le_of_ne lPrefix.length_le fun equal => same (lPrefix.eq_of_length equal)
      exact ⟨ls, rfl, .inl ⟨.subnode lResolved, .shortExtension rResolved lPrefix shorter⟩⟩
    · rcases by simpa using member with ⟨rfl, rfl, rfl⟩ | ⟨rfl, rfl, rfl⟩
      · exact ⟨ls, rfl, .inl ⟨.subnode lResolved, .dropped⟩⟩
      · exact ⟨rs, rfl, .inr ⟨.dropped, .subnode rResolved⟩⟩
  case some.extensionNode.some.branchNode =>
    obtain ⟨_, _, run⟩ := stepped
    obtain ⟨i, -, ran⟩ := mem_of_mapM_eq_ok run member
    obtain ⟨k, -, ran⟩ := bind_eq_ok.mp ran
    simp only [reduceCtorEq, if_false, pure_eq_ok, DiffCall.computeDiff.injEq] at ran
    obtain ⟨rfl, rfl, rfl⟩ := ran
    exact ⟨_, rfl, .inr ⟨.dropped, .slot i rResolved⟩⟩
  case some.branchNode.none =>
    obtain ⟨_, _, rfl⟩ := stepped
    obtain ⟨i, -, same⟩ := List.mem_map.mp member
    simp only [DiffCall.computeDiff.injEq] at same
    obtain ⟨rfl, rfl, rfl⟩ := same
    exact ⟨_, rfl, .inl ⟨.slot i lResolved, .dropped⟩⟩
  case some.branchNode.some.leafNode =>
    obtain ⟨_, _, run⟩ := stepped
    obtain ⟨i, -, ran⟩ := mem_of_mapM_eq_ok run member
    obtain ⟨k, indexed, ran⟩ := bind_eq_ok.mp ran
    split_ifs at ran with differs <;>
      simp only [pure_eq_ok, DiffCall.computeDiff.injEq] at ran <;> obtain ⟨rfl, rfl, rfl⟩ := ran
    · exact ⟨_, rfl, .inl ⟨.slot i lResolved, .dropped⟩⟩
    · exact ⟨_, rfl, .inl ⟨.slot i lResolved, .shortLeaf rResolved (nibble_prefix_of_getIndex indexed differs)⟩⟩
  case some.branchNode.some.extensionNode =>
    obtain ⟨_, _, run⟩ := stepped
    obtain ⟨i, -, ran⟩ := mem_of_mapM_eq_ok run member
    obtain ⟨k, -, ran⟩ := bind_eq_ok.mp ran
    simp only [reduceCtorEq, if_false, pure_eq_ok, DiffCall.computeDiff.injEq] at ran
    obtain ⟨rfl, rfl, rfl⟩ := ran
    exact ⟨_, rfl, .inl ⟨.slot i lResolved, .dropped⟩⟩
  case some.branchNode.some.branchNode =>
    obtain ⟨_, _, _, _, rfl⟩ := stepped
    obtain ⟨i, -, same⟩ := List.mem_map.mp member
    simp only [DiffCall.computeDiff.injEq] at same
    obtain ⟨rfl, rfl, rfl⟩ := same
    exact ⟨_, rfl, .inl ⟨.slot i lResolved, .child (.slot i rResolved)⟩⟩

theorem diffNodes_emits_leaves {lNode rNode : Option InternalNode} {path key : Bytes}
    {left right : Option LeafNode} {calls : List DiffCall}
    (stepped : diffNodes lNode rNode path = .ok calls)
    (member : DiffCall.processLeafDiff key left right ∈ calls) :
    ∃ s, key = nibbleListToBytes (path ++ s) ∧
      (∀ l, left = some l → lNode = some (.leafNode l) ∧ l.restOfKey = s) ∧
      (∀ r, right = some r → rNode = some (.leafNode r) ∧ r.restOfKey = s) ∧
      left.map LeafNode.value ≠ right.map LeafNode.value := by
  rcases lNode with _ | ⟨l⟩ | ⟨ls, lsub⟩ | ⟨lsubs, lv⟩ <;>
    rcases rNode with _ | ⟨r⟩ | ⟨rs, rsub⟩ | ⟨rsubs, rv⟩ <;>
    simp only [diffNodes, bind_eq_ok, pure_eq_ok] at stepped
  case none.none | none.some.extensionNode | some.extensionNode.none =>
    subst stepped; simp at member
  case none.some.branchNode | some.branchNode.none =>
    obtain ⟨_, _, rfl⟩ := stepped; simp at member
  case some.branchNode.some.branchNode =>
    obtain ⟨_, _, _, _, rfl⟩ := stepped; simp at member
  case some.leafNode.some.branchNode | some.extensionNode.some.branchNode
      | some.branchNode.some.leafNode | some.branchNode.some.extensionNode =>
    obtain ⟨_, _, run⟩ := stepped
    obtain ⟨i, -, ran⟩ := mem_of_mapM_eq_ok run member
    obtain ⟨k, -, ran⟩ := bind_eq_ok.mp ran
    split_ifs at ran <;> simp [pure_eq_ok] at ran
  case none.some.leafNode =>
    subst stepped
    obtain ⟨rfl, rfl, rfl⟩ := by simpa using member
    exact ⟨r.restOfKey, rfl, (fun _ absent => nomatch absent),
      fun _ same => by cases same; exact ⟨rfl, rfl⟩, by simp⟩
  case some.leafNode.none =>
    subst stepped
    obtain ⟨rfl, rfl, rfl⟩ := by simpa using member
    exact ⟨l.restOfKey, rfl, fun _ same => by cases same; exact ⟨rfl, rfl⟩,
      (fun _ absent => nomatch absent), by simp⟩
  case some.leafNode.some.leafNode =>
    split_ifs at stepped with sameKey changed <;> simp only [pure_eq_ok] at stepped <;>
      subst stepped
    · obtain ⟨rfl, rfl, rfl⟩ := by simpa using member
      exact ⟨l.restOfKey, rfl, fun _ same => by cases same; exact ⟨rfl, rfl⟩,
        fun _ same => by cases same; exact ⟨rfl, sameKey.symm⟩, by simpa using changed⟩
    · simp at member
    · rcases by simpa using member with ⟨rfl, rfl, rfl⟩ | ⟨rfl, rfl, rfl⟩
      · exact ⟨l.restOfKey, rfl, fun _ same => by cases same; exact ⟨rfl, rfl⟩,
          (fun _ absent => nomatch absent), by simp⟩
      · exact ⟨r.restOfKey, rfl, (fun _ absent => nomatch absent),
          fun _ same => by cases same; exact ⟨rfl, rfl⟩, by simp⟩
  case some.leafNode.some.extensionNode =>
    split_ifs at stepped <;> simp only [pure_eq_ok] at stepped <;> subst stepped
    · simp at member
    · obtain ⟨rfl, rfl, rfl⟩ := by simpa using member
      exact ⟨l.restOfKey, rfl, fun _ same => by cases same; exact ⟨rfl, rfl⟩,
        (fun _ absent => nomatch absent), by simp⟩
  case some.extensionNode.some.leafNode =>
    split_ifs at stepped <;> simp only [pure_eq_ok] at stepped <;> subst stepped
    · simp at member
    · obtain ⟨rfl, rfl, rfl⟩ := by simpa using member
      exact ⟨r.restOfKey, rfl, (fun _ absent => nomatch absent),
        fun _ same => by cases same; exact ⟨rfl, rfl⟩, by simp⟩
  case some.extensionNode.some.extensionNode =>
    split_ifs at stepped <;> simp only [pure_eq_ok] at stepped <;> subst stepped <;>
      simp at member

theorem emits_leaves {caller : DiffArgs} {key : Bytes} {left right : Option LeafNode}
    (emitted : Emits nodes caller key left right) :
    ∃ s, key = nibbleListToBytes (caller.2.2 ++ s) ∧
      (∀ l, left = some l → resolve caller.1 nodes = .ok (some (.leafNode l)) ∧ l.restOfKey = s) ∧
      (∀ r, right = some r → resolve caller.2.1 nodes = .ok (some (.leafNode r)) ∧ r.restOfKey = s) ∧
      left.map LeafNode.value ≠ right.map LeafNode.value := by
  obtain ⟨l, r, path⟩ := caller
  obtain ⟨calls, stepped, member⟩ := emitted
  unfold computeDiffStep at stepped
  split at stepped
  · exact absurd (pure_eq_ok.mp stepped ▸ member) (List.not_mem_nil _)
  obtain ⟨lNode, lResolved, stepped⟩ := bind_eq_ok.mp stepped
  obtain ⟨rNode, rResolved, stepped⟩ := bind_eq_ok.mp stepped
  obtain ⟨s, keyed, leftLeaf, rightLeaf, differ⟩ := diffNodes_emits_leaves stepped member
  refine ⟨s, keyed, fun leaf same => ?_, fun leaf same => ?_, differ⟩
  · obtain ⟨rfl, key⟩ := leftLeaf leaf same
    exact ⟨lResolved, key⟩
  · obtain ⟨rfl, key⟩ := rightLeaf leaf same
    exact ⟨rResolved, key⟩

theorem emits_leaf {caller : DiffArgs} {key : Bytes} {left right : Option LeafNode}
    (emitted : Emits nodes caller key left right) :
    ∃ leaf, key = nibbleListToBytes (caller.2.2 ++ leaf.restOfKey) ∧
      (resolve caller.1 nodes = .ok (some (.leafNode leaf)) ∨
        resolve caller.2.1 nodes = .ok (some (.leafNode leaf))) := by
  obtain ⟨s, rfl, leftLeaf, rightLeaf, differ⟩ := emits_leaves emitted
  rcases left with _ | l
  · rcases right with _ | r
    · exact absurd rfl differ
    obtain ⟨resolved, rfl⟩ := rightLeaf r rfl
    exact ⟨r, rfl, .inr resolved⟩
  · obtain ⟨resolved, rfl⟩ := leftLeaf l rfl
    exact ⟨l, rfl, .inl resolved⟩

theorem calls_descend {caller callee : DiffArgs} (called : Calls nodes caller callee) :
    ∃ q, callee.2.2 = caller.2.2 ++ q ∧
      (Child nodes caller.1 q callee.1 ∧ Descends nodes caller.2.1 q callee.2.1 ∨
        Descends nodes caller.1 q callee.1 ∧ Child nodes caller.2.1 q callee.2.1) := by
  obtain ⟨left, right, path⟩ := caller
  obtain ⟨calls, stepped, member⟩ := called
  unfold computeDiffStep at stepped
  split at stepped
  · exact absurd (pure_eq_ok.mp stepped ▸ member) (List.not_mem_nil _)
  obtain ⟨lNode, lResolved, stepped⟩ := bind_eq_ok.mp stepped
  obtain ⟨rNode, rResolved, stepped⟩ := bind_eq_ok.mp stepped
  exact diffNodes_calls lResolved rResolved stepped member

theorem calls_descends {caller callee : DiffArgs} (called : Calls nodes caller callee) :
    ∃ q, callee.2.2 = caller.2.2 ++ q ∧ Descends nodes caller.1 q callee.1 ∧
      Descends nodes caller.2.1 q callee.2.1 := by
  obtain ⟨q, extended, ⟨leftChild, rightDescends⟩ | ⟨leftDescends, rightChild⟩⟩ := calls_descend called
  exacts [⟨q, extended, .child leftChild, rightDescends⟩, ⟨q, extended, leftDescends, .child rightChild⟩]

end MptDiff
