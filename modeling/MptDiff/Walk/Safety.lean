import MptDiff.StateDiff.Handlers
import MptDiff.Walk.Alignment

namespace MptDiff

/-! # What the walk raises on well-formed tries

The Branch/Leaf and Branch/Extension cases hand the right-hand node, not the left-hand branch, to
`check_branch_node`, which rejects it.
-/

variable {nodes : NodeStore}

/-- The left side resolves to a branch and the right side to a leaf or an extension. -/
def BranchAgainstLeafOrExtension (nodes : NodeStore) (left right : Ref) : Prop :=
  ∃ lNode rNode, resolve left nodes = .ok lNode ∧ resolve right nodes = .ok rNode ∧
    IsBranch lNode ∧ IsLeafOrExtension rNode

/-- The Branch/Leaf and Branch/Extension cases check the right-hand node, which is no branch,
and raise before they make any call. -/
theorem computeDiffStep_eq_badBranch {left right : Ref} {path : Bytes}
    (shape : BranchAgainstLeafOrExtension nodes left right) :
    computeDiffStep nodes left right path = .error .badBranch := by
  obtain ⟨lNode, rNode, lResolved, rResolved, branch, leafOrExtension⟩ := shape
  have differ : left ≠ right := by
    rintro rfl
    cases lResolved.symm.trans rResolved
    rcases lNode with _ | ⟨_ | _ | _⟩ <;>
      first | exact False.elim branch | exact False.elim leafOrExtension
  unfold computeDiffStep
  rw [if_neg differ, lResolved, rResolved]
  rcases lNode with _ | ⟨_ | _ | _⟩ <;> try exact False.elim branch
  rcases rNode with _ | ⟨_ | _ | _⟩ <;> first | exact False.elim leafOrExtension | rfl

theorem computeDiff_eq_badBranch {σ : Type} {process : LeafDiffHandler σ} {left right : Ref}
    {path : Bytes} {fuel : Nat} {s : σ} (shape : BranchAgainstLeafOrExtension nodes left right) :
    computeDiff nodes process (fuel + 1) left right path s = .error .badBranch := by
  simp only [computeDiff, computeDiffStep_eq_badBranch shape]
  rfl

/-- Deleting one of two accounts below a branch makes the walk over the two well-formed state
tries raise `BadBranch`, whatever the handler. -/
theorem wellFormed_deletion_raises :
    WellFormed accountsStore 64 (.bytes (nodeHash 1)) ∧
    WellFormed accountsStore 64 (.bytes (nodeHash 4)) ∧
    ∀ {σ : Type} (process : LeafDiffHandler σ) (fuel : Nat) (s : σ),
      computeDiff accountsStore process (fuel + 1) (.bytes (nodeHash 1)) (.bytes (nodeHash 4)) [] s =
        .error .badBranch :=
  ⟨accountsStore_wellFormed.1, accountsStore_wellFormed.2,
    fun _ _ _ => computeDiff_eq_badBranch ⟨_, _, rfl, rfl, trivial, trivial⟩⟩

/-- Creating the account instead reports it, while deleting it raises: a walk and its mirror
image do not raise together. -/
theorem mirror_deletion_raises :
    computeDiff accountsStore recordLeafDiff 65 (.bytes (nodeHash 4)) (.bytes (nodeHash 1)) [] [] =
      .ok [(nibbleListToBytes (accountKey 4), none, some ⟨(accountKey 4).drop 1, [2]⟩)] ∧
    computeDiff accountsStore recordLeafDiff 65 (.bytes (nodeHash 1)) (.bytes (nodeHash 4)) [] [] =
      .error .badBranch :=
  ⟨rfl, computeDiff_eq_badBranch ⟨_, _, rfl, rfl, trivial, trivial⟩⟩

/-- The witness data of a block that deletes the account `accountKey 4`: the two state tries
and the preimage of the one hashed address at which they differ. -/
def deletionTries : EthereumTrieTransitionDB :=
  ⟨accountsStore, ⟨[(nibbleListToBytes (accountKey 4), List.replicate 20 4)], by decide⟩, .empty,
    nodeHash 1, nodeHash 4⟩

theorem fromTries_deletion_raises :
    WellFormed deletionTries.nodes 64 (.bytes deletionTries.stateRoot) ∧
    WellFormed deletionTries.nodes 64 (.bytes deletionTries.postStateRoot) ∧
    ∀ (rlp : RlpDecoding) (fuel : Nat), fromTries rlp (fuel + 1) deletionTries = .error .badBranch :=
  ⟨accountsStore_wellFormed.1, accountsStore_wellFormed.2,
    fun _ _ => computeDiff_eq_badBranch ⟨_, _, rfl, rfl, trivial, trivial⟩⟩

theorem WellFormed.not_hasValue {n : Nat} {ref : Ref} {node : Option InternalNode}
    (wellFormed : WellFormed nodes n ref) (resolved : resolve ref nodes = .ok node) :
    ¬ HasValue node := by
  rcases node with _ | ⟨_ | _ | ⟨subnodes, value⟩⟩ <;> try exact id
  obtain ⟨m, -, empty, -⟩ := wellFormed.branch_parts resolved
  exact fun hasValue => hasValue empty

theorem WellFormed.not_emptyKey {n : Nat} {left right : Ref} {lNode rNode : Option InternalNode}
    (leftWellFormed : WellFormed nodes n left) (rightWellFormed : WellFormed nodes n right)
    (lResolved : resolve left nodes = .ok lNode) (rResolved : resolve right nodes = .ok rNode)
    (branch : IsBranch rNode) : ¬ EmptyKey lNode := by
  rcases rNode with _ | ⟨_ | _ | ⟨subnodes, value⟩⟩ <;> try exact False.elim branch
  obtain ⟨m, depth, -⟩ := rightWellFormed.branch_parts rResolved
  rcases lNode with _ | ⟨leaf | ⟨keySegment, subnode⟩ | _⟩ <;> try exact id
  · intro empty
    have keyLength := (leftWellFormed.leaf_length lResolved).1
    rw [show leaf.restOfKey = [] from empty] at keyLength
    simp only [List.length_nil] at keyLength
    omega
  · exact (leftWellFormed.extension_parts lResolved).choose_spec.2.1

theorem computeDiffStep_wellFormed_error {left right : Ref} {path : Bytes} {n : Nat} {e : PyError}
    (leftWellFormed : WellFormed nodes n left) (rightWellFormed : WellFormed nodes n right)
    (failed : computeDiffStep nodes left right path = .error e) :
    e = .badBranch ∧ BranchAgainstLeafOrExtension nodes left right := by
  unfold computeDiffStep at failed
  split at failed
  · exact absurd failed pure_ne_error
  obtain ⟨lNode, lResolved⟩ := leftWellFormed.resolve_ok
  obtain ⟨rNode, rResolved⟩ := rightWellFormed.resolve_ok
  rw [lResolved, rResolved] at failed
  rcases diffNodes_eq_error failed with ⟨same, value | value | shape⟩ | ⟨-, empty, branch⟩
  · exact absurd value (leftWellFormed.not_hasValue lResolved)
  · exact absurd value (rightWellFormed.not_hasValue rResolved)
  · exact ⟨same, lNode, rNode, lResolved, rResolved, shape⟩
  · exact absurd empty (leftWellFormed.not_emptyKey rightWellFormed lResolved rResolved branch)

theorem computeDiff_ok_matched {σ : Type} {process : LeafDiffHandler σ} {L R : Ref} {path : Bytes}
    {fuel : Nat} {s s' : σ} (run : computeDiff nodes process fuel L R path s = .ok s') :
    ∀ call, Reaches nodes (L, R, path) call → ¬ BranchAgainstLeafOrExtension nodes call.1 call.2.1 :=
  fun _ reached shape => by
    obtain ⟨calls, stepped⟩ := computeDiff_ok_reaches reached run
    exact nomatch stepped.symm.trans (computeDiffStep_eq_badBranch shape)

/-- The run lemma of what a walk raises: on two well-formed tries at the same depth, with a
budget above the depth and a handler that does not run out of budget on the pairs the walk hands
on, a walk raises `BadBranch` at a branch facing a leaf or an extension, or an error of the
handler on a pair a call it reaches hands on, in a state that every invariant of the handler
holds of. -/
theorem computeDiff_error_of_wellFormed {σ : Type} {process : LeafDiffHandler σ} {I : σ → Prop}
    {L R : Ref} {n fuel : Nat} {s : σ} {e : PyError} (leftWellFormed : WellFormed nodes n L)
    (rightWellFormed : WellFormed nodes n R)
    (keeps : ∀ key l r s s', I s → process key l r s = .ok s' → I s')
    (handler : ∀ caller key l r s, Reaches nodes (L, R, []) caller → Emits nodes caller key l r →
      I s → process key l r s ≠ .error .outOfFuel) (holds : I s)
    (enough : n < fuel) (failed : computeDiff nodes process fuel L R [] s = .error e) :
    (e = .badBranch ∧ ∃ call, Reaches nodes (L, R, []) call ∧
      BranchAgainstLeafOrExtension nodes call.1 call.2.1) ∨
    ∃ caller key l r t, Reaches nodes (L, R, []) caller ∧ Emits nodes caller key l r ∧ I t ∧
      process key l r t = .error e := by
  have start : Aligned nodes n (L, R, []) n := ⟨Nat.zero_add n, leftWellFormed, rightWellFormed⟩
  rcases computeDiff_error keeps .refl holds failed with
    rfl | ⟨caller, reached, stepped⟩ | ⟨caller, key, l, r, t, reached, emitted, holds, failed⟩
  · exact absurd failed (computeDiff_ne_outOfFuel
      (fun call m => Aligned nodes n call m ∧ Reaches nodes (L, R, []) call)
      (fun _ _ _ ⟨aligned, reached⟩ called => (aligned.calls called).imp
        fun _ ⟨smaller, aligned'⟩ => ⟨smaller, aligned', reached.tail called⟩)
      (fun caller _ key l r s ⟨_, reached⟩ => handler caller key l r s reached) keeps holds
      ⟨start, .refl⟩ enough)
  · obtain ⟨m, -, -, leftWellFormed', rightWellFormed'⟩ := start.reaches reached
    obtain ⟨same, shape⟩ := computeDiffStep_wellFormed_error leftWellFormed' rightWellFormed' stepped
    exact .inl ⟨same, caller, reached, shape⟩
  · exact .inr ⟨caller, key, l, r, t, reached, emitted, holds, failed⟩

theorem computeDiff_wellFormed_error {σ : Type} {process : LeafDiffHandler σ} {L R : Ref}
    {n fuel : Nat} {s : σ} {e : PyError} (leftWellFormed : WellFormed nodes n L)
    (rightWellFormed : WellFormed nodes n R) (handler : ∀ key l r s e, process key l r s ≠ .error e)
    (enough : n < fuel) (failed : computeDiff nodes process fuel L R [] s = .error e) :
    e = .badBranch ∧ ∃ call, Reaches nodes (L, R, []) call ∧
      BranchAgainstLeafOrExtension nodes call.1 call.2.1 :=
  (computeDiff_error_of_wellFormed (I := fun _ => True) leftWellFormed rightWellFormed
    (fun _ _ _ _ _ _ _ => trivial) (fun _ key l r s _ _ _ => handler key l r s _) trivial enough
    failed).resolve_right fun ⟨_, key, l, r, t, _, _, _, failed⟩ => handler key l r t e failed

theorem computeDiff_exists_of_clear {σ : Type} {process : LeafDiffHandler σ} {L R : Ref}
    {n fuel : Nat} {s : σ} (leftWellFormed : WellFormed nodes n L)
    (rightWellFormed : WellFormed nodes n R) (handler : ∀ key l r s e, process key l r s ≠ .error e)
    (enough : n < fuel)
    (clear : ∀ call, Reaches nodes (L, R, []) call → ¬ BranchAgainstLeafOrExtension nodes call.1 call.2.1) :
    ∃ s', computeDiff nodes process fuel L R [] s = .ok s' := by
  cases run : computeDiff nodes process fuel L R [] s with
  | ok s' => exact ⟨s', rfl⟩
  | error e =>
      obtain ⟨-, call, reached, shape⟩ :=
        computeDiff_wellFormed_error leftWellFormed rightWellFormed handler enough run
      exact absurd shape (clear call reached)

/-- On two well-formed tries at the same depth, with a handler that never raises and a budget
above the depth, a walk raises nothing but `BadBranch`, and it returns normally exactly when
it reaches no branch facing a leaf or an extension. -/
theorem computeDiff_wellFormed_raises {σ : Type} {process : LeafDiffHandler σ} {L R : Ref}
    {n fuel : Nat} {s : σ} (leftWellFormed : WellFormed nodes n L)
    (rightWellFormed : WellFormed nodes n R) (handler : ∀ key l r s e, process key l r s ≠ .error e)
    (enough : n < fuel) :
    (∀ e, computeDiff nodes process fuel L R [] s = .error e → e = .badBranch) ∧
    ((∃ s', computeDiff nodes process fuel L R [] s = .ok s') ↔
      ∀ call, Reaches nodes (L, R, []) call → ¬ BranchAgainstLeafOrExtension nodes call.1 call.2.1) :=
  ⟨fun _ failed => (computeDiff_wellFormed_error leftWellFormed rightWellFormed handler
    enough failed).1, ⟨fun ⟨_, run⟩ => computeDiff_ok_matched run,
      computeDiff_exists_of_clear leftWellFormed rightWellFormed handler enough⟩⟩

theorem accountsStore_wellFormed_raises :
    WellFormed accountsStore 64 (.bytes (nodeHash 1)) ∧ WellFormed accountsStore 64 (.bytes (nodeHash 4)) ∧
    (∀ key l r s e, recordLeafDiff key l r s ≠ .error e) ∧
    (∀ e, computeDiff accountsStore recordLeafDiff 65 (.bytes (nodeHash 1)) (.bytes (nodeHash 4)) [] [] =
      .error e → e = .badBranch) ∧
    ((∃ s', computeDiff accountsStore recordLeafDiff 65 (.bytes (nodeHash 1)) (.bytes (nodeHash 4)) [] [] =
      .ok s') ↔ ∀ call, Reaches accountsStore (.bytes (nodeHash 1), .bytes (nodeHash 4), []) call →
        ¬ BranchAgainstLeafOrExtension accountsStore call.1 call.2.1) := by
  have handler : ∀ key l r s e, recordLeafDiff key l r s ≠ .error e := fun _ _ _ _ _ => pure_ne_error
  exact ⟨accountsStore_wellFormed.1, accountsStore_wellFormed.2, handler,
    computeDiff_wellFormed_raises accountsStore_wellFormed.1 accountsStore_wellFormed.2 handler (by decide)⟩

theorem resolve_missing {h : Bytes} (hashLength : h.length = 32) (missing : h ∉ nodes.keys) :
    resolve (.bytes h) nodes = .ok none := by
  have nonempty : h ≠ [] := fun empty => by simp [empty] at hashLength
  rw [resolve, if_neg nonempty, if_pos hashLength, PyDict.get?_eq_none_of_not_mem missing]
  rfl

theorem computeDiffStep_absent_left {left right : Ref} {path : Bytes}
    (absent : resolve left nodes = .ok none) :
    computeDiffStep nodes left right path = resolve right nodes >>= fun rNode => diffNodes none rNode path := by
  unfold computeDiffStep
  split_ifs with same
  · subst same
    rw [absent]
    rfl
  · rw [absent]
    rfl

theorem computeDiffStep_absent_right {left right : Ref} {path : Bytes}
    (absent : resolve right nodes = .ok none) :
    computeDiffStep nodes left right path = resolve left nodes >>= fun lNode => diffNodes lNode none path := by
  unfold computeDiffStep
  split_ifs with same
  · subst same
    rw [absent]
    rfl
  · rw [absent]
    cases resolve left nodes <;> rfl

end MptDiff
