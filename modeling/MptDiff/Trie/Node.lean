import MptDiff.Python

namespace MptDiff

/-! # Trie nodes and node references

A reference is whatever Python value the walk hands to `resolve`: `None`, a `bytes` object, an
inline RLP list (as the node it decodes to), or a node the walk built by shortening one.
-/

/-- `LeafNode`: the part of the key below the leaf's position, and the leaf's value. -/
structure LeafNode where
  restOfKey : Bytes
  value : Bytes
deriving DecidableEq, Repr

mutual

/-- `InternalNode`, the result of `resolve`. A branch has one subnode per nibble. -/
inductive InternalNode where
  | leafNode (node : LeafNode)
  | extensionNode (keySegment : Bytes) (subnode : Ref)
  | branchNode (subnodes : Fin 16 → Ref) (value : Bytes)

/-- A node reference, as `_compute_diff` receives one. -/
inductive Ref where
  | none
  | bytes (b : Bytes)
  /-- An inline RLP list, by the node it decodes to. -/
  | list (node : InternalNode)
  /-- A node object, such as a shortened node built by the walk. -/
  | node (node : InternalNode)

end

mutual

/-- Structural equality of nodes, which the fast path `left == right` relies on. -/
def InternalNode.decEq : (a b : InternalNode) → Decidable (a = b)
  | .leafNode l, .leafNode l' =>
      if same : l = l' then isTrue (same ▸ rfl) else isFalse fun h => by cases h; exact same rfl
  | .extensionNode s r, .extensionNode s' r' =>
      match decEq s s', Ref.decEq r r' with
      | isTrue hs, isTrue hr => isTrue (hs ▸ hr ▸ rfl)
      | isFalse hs, _ => isFalse fun h => by cases h; exact hs rfl
      | _, isFalse hr => isFalse fun h => by cases h; exact hr rfl
  | .branchNode f v, .branchNode f' v' =>
      match @Nat.decidableForallFin 16 (fun i => f i = f' i) (fun i => Ref.decEq (f i) (f' i)),
        decEq v v' with
      | isTrue hf, isTrue hv => isTrue (by rw [funext hf, hv])
      | isFalse hf, _ => isFalse fun h => by cases h; exact hf fun _ => rfl
      | _, isFalse hv => isFalse fun h => by cases h; exact hv rfl
  | .leafNode _, .extensionNode _ _ | .leafNode _, .branchNode _ _
  | .extensionNode _ _, .leafNode _ | .extensionNode _ _, .branchNode _ _
  | .branchNode _ _, .leafNode _ | .branchNode _ _, .extensionNode _ _ =>
      isFalse fun h => by cases h

/-- Structural equality of references. -/
def Ref.decEq : (a b : Ref) → Decidable (a = b)
  | .none, .none => isTrue rfl
  | .bytes b, .bytes b' =>
      if same : b = b' then isTrue (same ▸ rfl) else isFalse fun h => by cases h; exact same rfl
  | .list n, .list n' =>
      match InternalNode.decEq n n' with
      | isTrue same => isTrue (same ▸ rfl)
      | isFalse differ => isFalse fun h => by cases h; exact differ rfl
  | .node n, .node n' =>
      match InternalNode.decEq n n' with
      | isTrue same => isTrue (same ▸ rfl)
      | isFalse differ => isFalse fun h => by cases h; exact differ rfl
  | .none, .bytes _ | .none, .list _ | .none, .node _
  | .bytes _, .none | .bytes _, .list _ | .bytes _, .node _
  | .list _, .none | .list _, .bytes _ | .list _, .node _
  | .node _, .none | .node _, .bytes _ | .node _, .list _ => isFalse fun h => by cases h

end

instance : DecidableEq InternalNode := InternalNode.decEq
instance : DecidableEq Ref := Ref.decEq

/-- The references a node holds: an extension's subnode, a branch's sixteen subnodes. -/
def InternalNode.children : InternalNode → List Ref
  | .leafNode _ => []
  | .extensionNode _ subnode => [subnode]
  | .branchNode subnodes _ => List.ofFn subnodes

/-- The node store `_nodes`, from hashes to nodes. -/
abbrev NodeStore := PyDict Bytes InternalNode

/-- `resolve(node, nodes)`: `None` and `b""` are absent, a node object or an inline list is
its node, a 32-byte hash is looked up with `nodes.get`, and anything else is rejected. -/
def resolve (node : Ref) (nodes : NodeStore) : Except PyError (Option InternalNode) :=
  match node with
  | .none => pure none
  | .bytes b =>
      if b = [] then pure none
      else if b.length = 32 then pure (nodes.get? b)
      else throw .invalidNodeType
  | .node n => pure (some n)
  | .list n => pure (some n)

@[simp] theorem resolve_none (nodes : NodeStore) : resolve .none nodes = .ok none := rfl

@[simp] theorem resolve_node (nodes : NodeStore) (n : InternalNode) :
    resolve (.node n) nodes = .ok (some n) := rfl

@[simp] theorem resolve_list (nodes : NodeStore) (n : InternalNode) :
    resolve (.list n) nodes = .ok (some n) := rfl

theorem resolve_eq_error {nodes : NodeStore} {node : Ref} {e : PyError}
    (failed : resolve node nodes = .error e) : e = .invalidNodeType := by
  cases node with
  | bytes b =>
      simp only [resolve] at failed
      split_ifs at failed
      · exact absurd failed pure_ne_error
      · exact absurd failed pure_ne_error
      · exact (Except.error.inj failed).symm
  | _ => exact absurd failed pure_ne_error

/-- Modelled from the spec: `check_branch_node` of `mpt.utils` is not under `src/`. The spec
(§3.1, §7 `BadBranch`) has it assert that a branch's `value` is empty; a node that is not a
branch is not a valid branch either, and fails the check. -/
def checkBranchNode : InternalNode → Except PyError Unit
  | .branchNode _ value => if value = [] then pure () else throw .badBranch
  | _ => throw .badBranch

theorem checkBranchNode_eq_ok {node : InternalNode} :
    checkBranchNode node = .ok () ↔ ∃ subnodes, node = .branchNode subnodes [] := by
  cases node with
  | branchNode subnodes value =>
      by_cases empty : value = [] <;> simp [checkBranchNode, empty, pure, Except.pure, throw,
        throwThe, MonadExceptOf.throw]
  | _ => simp [checkBranchNode, throw, throwThe, MonadExceptOf.throw]

theorem checkBranchNode_eq_error {node : InternalNode} {e : PyError}
    (failed : checkBranchNode node = .error e) : e = .badBranch := by
  unfold checkBranchNode at failed
  split at failed
  · split_ifs at failed
    · exact absurd failed pure_ne_error
    · exact (Except.error.inj failed).symm
  · exact (Except.error.inj failed).symm

theorem checkBranchNode_branchNode_eq_error {subnodes : Fin 16 → Ref} {value : Bytes} {e : PyError}
    (failed : checkBranchNode (.branchNode subnodes value) = .error e) : value ≠ [] := fun empty => by
  subst empty
  exact absurd failed pure_ne_error

/-- Modelled from the spec: `nibble_list_to_bytes` of `mpt.utils` is not under `src/`. The
spec (§4.2) has it pack two nibbles into each output byte, high nibble first. -/
def nibbleListToBytes : Bytes → Bytes
  | high :: low :: rest => (high * 16 + low) :: nibbleListToBytes rest
  | _ => []

theorem length_nibbleListToBytes : ∀ b : Bytes, (nibbleListToBytes b).length = b.length / 2
  | [] | [_] => by simp [nibbleListToBytes]
  | _ :: _ :: rest => by
      simp only [nibbleListToBytes, List.length_cons, length_nibbleListToBytes rest]
      omega

theorem toNat_packedByte {high low : UInt8} (highNibble : high < 16) (lowNibble : low < 16) :
    (high * 16 + low).toNat = high.toNat * 16 + low.toNat := by
  have high' : high.toBitVec.toNat < 16 := highNibble
  have low' : low.toBitVec.toNat < 16 := lowNibble
  show (high.toBitVec * 16 + low.toBitVec).toNat = high.toBitVec.toNat * 16 + low.toBitVec.toNat
  rw [BitVec.toNat_add, BitVec.toNat_mul, show (16 : BitVec 8).toNat = 16 from rfl]
  omega

theorem nibbleListToBytes_inj :
    ∀ {a b : Bytes}, a.length = b.length → a.length % 2 = 0 → (∀ x ∈ a, x < 16) →
      (∀ x ∈ b, x < 16) → nibbleListToBytes a = nibbleListToBytes b → a = b
  | [], [], _, _, _, _, _ => rfl
  | high :: low :: rest, high' :: low' :: rest', sameLength, even, nibbles, nibbles', packed => by
      simp only [nibbleListToBytes, List.cons.injEq] at packed
      simp only [List.mem_cons, forall_eq_or_imp] at nibbles nibbles'
      have byte := congrArg UInt8.toNat packed.1
      rw [toNat_packedByte nibbles.1 nibbles.2.1, toNat_packedByte nibbles'.1 nibbles'.2.1] at byte
      have lows : low.toNat < 16 ∧ low'.toNat < 16 := ⟨nibbles.2.1, nibbles'.2.1⟩
      rw [UInt8.toNat.inj (show high.toNat = high'.toNat by omega),
        UInt8.toNat.inj (show low.toNat = low'.toNat by omega),
        nibbleListToBytes_inj (by simpa using sameLength) (by simp at even; omega) nibbles.2.2
          nibbles'.2.2 packed.2]
  | [], _ :: _, sameLength, _, _, _, _ | _ :: _, [], sameLength, _, _, _, _
  | [_], _ :: _ :: _, sameLength, _, _, _, _ | _ :: _ :: _, [_], sameLength, _, _, _, _ => by
      simp at sameLength
  | [_], [_], _, even, _, _, _ => by simp at even

/-- The byte of `bytes([i])` for a branch slot `i`. -/
def nibble (i : Fin 16) : UInt8 := UInt8.ofNat i.val

@[simp] theorem toNat_nibble (i : Fin 16) : (nibble i).toNat = i.val :=
  UInt8.toNat_ofNat_of_lt (by have := i.isLt; simp only [UInt8.size]; omega)

theorem nibble_injective : Function.Injective nibble := fun i j same =>
  Fin.ext (by rw [← toNat_nibble i, ← toNat_nibble j, same])

theorem nibble_lt (i : Fin 16) : nibble i < 16 :=
  show (nibble i).toNat < 16 by rw [toNat_nibble]; exact i.isLt

end MptDiff
