import MptDiff.Trie.WellFormed
import MptDiff.Walk.Descent

namespace MptDiff

/-! # Key alignment along the walk

At every call the path and the keys below either side add up to the full key width.
-/

variable {nodes : NodeStore}

theorem Child.wellFormed {node child : Ref} {q : Bytes} {n : Nat}
    (isChild : Child nodes node q child) (wellFormed : WellFormed nodes n node) :
    ∃ m, q.length + m = n ∧ 0 < q.length ∧ WellFormed nodes m child := by
  cases isChild with
  | subnode resolved =>
      obtain ⟨m, keyLength, nonempty, -, -, sub⟩ := wellFormed.extension_parts resolved
      exact ⟨m, keyLength, List.length_pos.mpr nonempty, sub⟩
  | slot i resolved =>
      obtain ⟨m, keyLength, -, subs⟩ := wellFormed.branch_parts resolved
      exact ⟨m, by simpa [Nat.add_comm] using keyLength, by simp, subs i⟩

theorem Descends.wellFormed {node node' : Ref} {q : Bytes} {n : Nat}
    (descends : Descends nodes node q node') (wellFormed : WellFormed nodes n node)
    (within : q.length ≤ n) : WellFormed nodes (n - q.length) node' := by
  cases descends with
  | child isChild =>
      obtain ⟨m, keyLength, -, sub⟩ := isChild.wellFormed wellFormed
      rwa [show n - q.length = m by omega]
  | dropped => exact .absent (resolve_none nodes)
  | shortLeaf resolved _ =>
      obtain ⟨keyLength, nibbles⟩ := wellFormed.leaf_length resolved
      exact .leaf (resolve_node ..) (by simp [keyLength])
        fun x member => nibbles x (List.mem_of_mem_drop member)
  | shortExtension resolved _ shorter =>
      obtain ⟨m, keyLength, -, nibbles, toBranch, sub⟩ := wellFormed.extension_parts resolved
      refine .extension m (resolve_node ..) (by simp only [List.length_drop]; omega) ?_
        (fun x member => nibbles x (List.mem_of_mem_drop member)) toBranch sub
      intro empty
      have := congrArg List.length empty
      simp only [List.length_drop, List.length_nil] at this
      omega

/-- Both sides of a call are well-formed sub-tries whose keys have `n` nibbles, and `n`
completes the call's path to `width` nibbles. -/
def Aligned (nodes : NodeStore) (width : Nat) (call : DiffArgs) (n : Nat) : Prop :=
  call.2.2.length + n = width ∧ WellFormed nodes n call.1 ∧ WellFormed nodes n call.2.1

variable {width n : Nat}

/-- The step lemma: a call of an aligned call is aligned, with strictly fewer nibbles left. -/
theorem Aligned.calls {caller callee : DiffArgs} (aligned : Aligned nodes width caller n)
    (called : Calls nodes caller callee) : ∃ m < n, Aligned nodes width callee m := by
  obtain ⟨pathLength, leftWellFormed, rightWellFormed⟩ := aligned
  obtain ⟨q, extended, sides⟩ := calls_descend called
  rcases sides with ⟨leftChild, rightDescends⟩ | ⟨leftDescends, rightChild⟩
  · obtain ⟨m, keyLength, nonempty, leftWellFormed'⟩ := leftChild.wellFormed leftWellFormed
    have rightWellFormed' := rightDescends.wellFormed rightWellFormed (by omega)
    rw [show n - q.length = m by omega] at rightWellFormed'
    exact ⟨m, by omega, by rw [extended, List.length_append]; omega, leftWellFormed',
      rightWellFormed'⟩
  · obtain ⟨m, keyLength, nonempty, rightWellFormed'⟩ := rightChild.wellFormed rightWellFormed
    have leftWellFormed' := leftDescends.wellFormed leftWellFormed (by omega)
    rw [show n - q.length = m by omega] at leftWellFormed'
    exact ⟨m, by omega, by rw [extended, List.length_append]; omega, leftWellFormed',
      rightWellFormed'⟩

/-- The run lemma: every call reached from an aligned call is aligned. -/
theorem Aligned.reaches {caller callee : DiffArgs} (aligned : Aligned nodes width caller n)
    (reached : Reaches nodes caller callee) : ∃ m ≤ n, Aligned nodes width callee m := by
  induction reached with
  | refl => exact ⟨n, Nat.le_refl n, aligned⟩
  | tail _ called ih =>
      obtain ⟨m, below, aligned'⟩ := ih
      obtain ⟨m', smaller, aligned''⟩ := aligned'.calls called
      exact ⟨m', by omega, aligned''⟩

theorem Aligned.emitted_key {caller : DiffArgs} {key : Bytes} {left right : Option LeafNode}
    (aligned : Aligned nodes width caller n) (emitted : Emits nodes caller key left right) :
    ∃ fullKey : Bytes, fullKey.length = width ∧ key = nibbleListToBytes fullKey := by
  obtain ⟨pathLength, leftWellFormed, rightWellFormed⟩ := aligned
  obtain ⟨leaf, keyed, side⟩ := emits_leaf emitted
  have keyLength : leaf.restOfKey.length = n := by
    rcases side with resolved | resolved
    · exact (leftWellFormed.leaf_length resolved).1
    · exact (rightWellFormed.leaf_length resolved).1
  exact ⟨caller.2.2 ++ leaf.restOfKey, by rw [List.length_append]; omega, keyed⟩

theorem Aligned.fuel_suffices {σ : Type} {process : LeafDiffHandler σ} {left right : Ref}
    {path : Bytes} {fuel : Nat} (s : σ) (aligned : Aligned nodes width (left, right, path) n)
    (handler : ∀ key l r s, process key l r s ≠ .error .outOfFuel) (enough : n < fuel) :
    computeDiff nodes process fuel left right path s ≠ .error .outOfFuel :=
  computeDiff_ne_outOfFuel (Aligned nodes width) (I := fun _ => True)
    (fun _ _ _ aligned called => aligned.calls called) (fun _ _ key l r s _ _ _ => handler key l r s)
    (fun _ _ _ _ _ _ _ => trivial) trivial aligned enough

/-- A walk over two well-formed 64-nibble tries meets only well-formed sub-tries whose keys
complete the path to 64 nibbles, hands every leaf pair on, at any call it reaches and whether or
not it later raises, under a key packing 64 nibbles into 32 bytes, and recurses at most 64 levels
below its first call. -/
theorem computeDiff_key_alignment {L R : Ref} (leftWellFormed : WellFormed nodes 64 L)
    (rightWellFormed : WellFormed nodes 64 R) :
    (∀ left right path, Reaches nodes (L, R, []) (left, right, path) →
      path.length ≤ 64 ∧ WellFormed nodes (64 - path.length) left ∧
        WellFormed nodes (64 - path.length) right) ∧
    (∀ caller key left right, Reaches nodes (L, R, []) caller → Emits nodes caller key left right →
      ∃ fullKey : Bytes, fullKey.length = 64 ∧ key = nibbleListToBytes fullKey ∧ key.length = 32) ∧
    (∀ {σ : Type} (process : LeafDiffHandler σ) (s : σ),
      (∀ key left right s, process key left right s ≠ .error .outOfFuel) →
      computeDiff nodes process 65 L R [] s ≠ .error .outOfFuel) := by
  have start : Aligned nodes 64 (L, R, []) 64 := ⟨rfl, leftWellFormed, rightWellFormed⟩
  refine ⟨fun left right path reached => ?_, fun caller key _ _ reached emitted => ?_,
    fun process s handler => start.fuel_suffices s handler (by decide)⟩
  · obtain ⟨m, -, pathLength, leftWellFormed', rightWellFormed'⟩ := start.reaches reached
    rw [show 64 - path.length = m by simp only at pathLength; omega]
    exact ⟨by simp only at pathLength; omega, leftWellFormed', rightWellFormed'⟩
  · obtain ⟨m, -, aligned⟩ := start.reaches reached
    obtain ⟨fullKey, fullLength, keyed⟩ := aligned.emitted_key emitted
    exact ⟨fullKey, fullLength, keyed, by rw [keyed, length_nibbleListToBytes, fullLength]⟩

theorem accountsStore_key_alignment :
    WellFormed accountsStore 64 (.bytes (nodeHash 4)) ∧
    WellFormed accountsStore 64 (.bytes (nodeHash 1)) ∧
    (∀ left right path,
      Reaches accountsStore (.bytes (nodeHash 4), .bytes (nodeHash 1), []) (left, right, path) →
        path.length ≤ 64 ∧ WellFormed accountsStore (64 - path.length) left ∧
          WellFormed accountsStore (64 - path.length) right) ∧
    (∀ caller key left right,
      Reaches accountsStore (.bytes (nodeHash 4), .bytes (nodeHash 1), []) caller →
      Emits accountsStore caller key left right →
      ∃ fullKey : Bytes, fullKey.length = 64 ∧ key = nibbleListToBytes fullKey ∧ key.length = 32) ∧
    (∀ {σ : Type} (process : LeafDiffHandler σ) (s : σ),
      (∀ key left right s, process key left right s ≠ .error .outOfFuel) →
      computeDiff accountsStore process 65 (.bytes (nodeHash 4)) (.bytes (nodeHash 1)) [] s ≠
        .error .outOfFuel) :=
  ⟨accountsStore_wellFormed.2, accountsStore_wellFormed.1,
    computeDiff_key_alignment accountsStore_wellFormed.2 accountsStore_wellFormed.1⟩

end MptDiff
