import MptDiff.StateDiff.Handlers
import MptDiff.Trie.WellFormed
import MptDiff.Walk.Termination

namespace MptDiff

/-! # `StateDiff.from_tries` terminates

One bound on the heights of the store's hashes covers the state walk and every nested storage
walk, so a budget above twice that bound is never spent.
-/

variable {rlp : RlpDecoding} {self self' : StateDiff} {path : Bytes}
  {left right : Option LeafNode} {nodes : NodeStore} {bound : Nat}

theorem processStorageDiff_ne_outOfFuel {address : Bytes} :
    processStorageDiff rlp address path left right self ≠ .error .outOfFuel := fun failed => by
  rcases processStorageDiff_eq_error failed with same | same | same <;> exact nomatch same

theorem heightLE_storageRootRef (heights : ∀ h, HeightLE nodes bound (.bytes h)) :
    ∀ account, HeightLE nodes bound (storageRootRef account)
  | none => heightLE_of_absent fun _ resolved => nomatch resolved
  | some account => heights account.storageRoot

theorem processAccountDiff_nodes {fuel : Nat}
    (ran : processAccountDiff rlp fuel path left right self = .ok self') : self'.nodes = self.nodes := by
  obtain ⟨address, accounts, roots, walked⟩ := processAccountDiff_eq_ok ran
  refine computeDiff_keeps (I := fun d : StateDiff => d.nodes = self.nodes) (fun _ _ _ _ _ same ran => ?_)
    ?_ walked
  · obtain ⟨_, _, rfl⟩ := processStorageDiff_eq_ok ran
    exact same
  · rfl

theorem processAccountDiff_ne_outOfFuel {fuel : Nat}
    (heights : ∀ h, HeightLE self.nodes bound (.bytes h)) (enough : bound + bound < fuel) :
    processAccountDiff rlp fuel path left right self ≠ .error .outOfFuel := by
  intro failed
  rcases bind_eq_error.mp failed with failed | ⟨address, -, failed⟩
  · exact nomatch PyDict.getItem_eq_error failed
  rcases bind_eq_error.mp failed with failed | ⟨leftAccount, -, failed⟩
  · obtain ⟨_, -, failed⟩ := optionMapM_eq_error failed
    exact nomatch accountFromRlp_eq_error failed
  rcases bind_eq_error.mp failed with failed | ⟨rightAccount, -, failed⟩
  · obtain ⟨_, -, failed⟩ := optionMapM_eq_error failed
    exact nomatch accountFromRlp_eq_error failed
  exact HeightSum.fuel_suffices (I := fun _ => True)
    (fun _ _ _ _ _ => processStorageDiff_ne_outOfFuel) (fun _ _ _ _ _ _ _ => trivial) trivial
    (heightLE_storageRootRef heights leftAccount) (heightLE_storageRootRef heights rightAccount)
    enough failed

theorem fromTries_ne_outOfFuel {tries : EthereumTrieTransitionDB} {fuel : Nat}
    (heights : ∀ h, HeightLE tries.nodes bound (.bytes h)) (enough : bound + bound < fuel) :
    fromTries rlp fuel tries ≠ .error .outOfFuel :=
  HeightSum.fuel_suffices (I := fun d : StateDiff => d.nodes = tries.nodes)
    (fun _ _ _ _ same => processAccountDiff_ne_outOfFuel (same ▸ heights) enough)
    (fun _ _ _ _ _ same ran => (processAccountDiff_nodes ran).trans same) rfl (heights _) (heights _)
    enough

theorem processAccountDiff_fuel_congr {fuel fuel' : Nat} (le : fuel ≤ fuel')
    (ne : processAccountDiff rlp fuel path left right self ≠ .error .outOfFuel) :
    processAccountDiff rlp fuel' path left right self = processAccountDiff rlp fuel path left right self :=
  bind_congr_of_ne (fun _ ne => bind_congr_of_ne (fun _ ne => bind_congr_of_ne
    (fun _ ne => computeDiff_fuel_congr (fun _ _ _ _ _ => rfl) le ne) ne) ne) ne

/-- Once a walk or `from_tries` does not run out of budget, a larger budget returns the same
result: the budget is no part of what the code computes. -/
theorem result_independent_of_budget :
    (∀ {σ : Type} (nodes : NodeStore) (process : LeafDiffHandler σ) (fuel fuel' : Nat) (left right : Ref)
      (path : Bytes) (s : σ), fuel ≤ fuel' →
      computeDiff nodes process fuel left right path s ≠ .error .outOfFuel →
      computeDiff nodes process fuel' left right path s = computeDiff nodes process fuel left right path s) ∧
    (∀ (rlp : RlpDecoding) (fuel fuel' : Nat) (tries : EthereumTrieTransitionDB), fuel ≤ fuel' →
      fromTries rlp fuel tries ≠ .error .outOfFuel → fromTries rlp fuel' tries = fromTries rlp fuel tries) :=
  ⟨fun _ _ _ _ _ _ _ _ le ne => computeDiff_fuel_congr (fun _ _ _ _ _ => rfl) le ne,
    fun _ _ _ _ le ne => computeDiff_fuel_congr (fun _ _ _ _ ne => processAccountDiff_fuel_congr le ne) le ne⟩

/-- In a store whose hash graph is acyclic every reference has a height, the sum of the
heights of a call's two sides drops on every recursive call, every walk with a handler that
finishes finishes itself within a budget, and so does `from_tries` with its storage walks. -/
theorem computeDiff_terminates (acyclic : Acyclic nodes) :
    (∀ ref, ∃ k, HeightLE nodes k ref) ∧
    (∀ caller callee a b, HeightLE nodes a caller.1 → HeightLE nodes b caller.2.1 →
      Calls nodes caller callee →
        ∃ a' b', a' + b' < a + b ∧ HeightLE nodes a' callee.1 ∧ HeightLE nodes b' callee.2.1) ∧
    (∀ left right : Ref, ∃ budget, ∀ {σ : Type} (process : LeafDiffHandler σ) (fuel : Nat)
      (path : Bytes) (s : σ), (∀ key l r s, process key l r s ≠ .error .outOfFuel) →
        budget ≤ fuel → computeDiff nodes process fuel left right path s ≠ .error .outOfFuel) ∧
    (∃ budget, ∀ (rlp : RlpDecoding) (fuel : Nat) (tries : EthereumTrieTransitionDB),
      tries.nodes = nodes → budget ≤ fuel → fromTries rlp fuel tries ≠ .error .outOfFuel) := by
  obtain ⟨bound, heights⟩ := acyclic.exists_height_bound
  have height : ∀ ref, ∃ k, HeightLE nodes k ref := fun ref =>
    Ref.exists_heightLE nodes ref fun h _ => ⟨bound, heights h⟩
  refine ⟨height, fun caller callee a b left right called => ?_, fun left right => ?_,
    ⟨bound + bound + 1, fun rlp fuel tries same enough => ?_⟩⟩
  · obtain ⟨m, smaller, a', b', rfl, left', right'⟩ := HeightSum.calls ⟨a, b, rfl, left, right⟩ called
    exact ⟨a', b', smaller, left', right'⟩
  · obtain ⟨a, left⟩ := height left
    obtain ⟨b, right⟩ := height right
    exact ⟨a + b + 1, fun process fuel path s handler enough =>
      HeightSum.fuel_suffices (I := fun _ => True) (fun key l r s _ => handler key l r s)
        (fun _ _ _ _ _ _ _ => trivial) trivial left right enough⟩
  · subst same
    exact fromTries_ne_outOfFuel heights enough

theorem accountsStore_terminates :
    Acyclic accountsStore ∧
    (∀ ref, ∃ k, HeightLE accountsStore k ref) ∧
    (∀ caller callee a b, HeightLE accountsStore a caller.1 → HeightLE accountsStore b caller.2.1 →
      Calls accountsStore caller callee → ∃ a' b', a' + b' < a + b ∧
        HeightLE accountsStore a' callee.1 ∧ HeightLE accountsStore b' callee.2.1) ∧
    (∀ left right : Ref, ∃ budget, ∀ {σ : Type} (process : LeafDiffHandler σ) (fuel : Nat)
      (path : Bytes) (s : σ), (∀ key l r s, process key l r s ≠ .error .outOfFuel) →
        budget ≤ fuel → computeDiff accountsStore process fuel left right path s ≠ .error .outOfFuel) ∧
    (∃ budget, ∀ (rlp : RlpDecoding) (fuel : Nat) (tries : EthereumTrieTransitionDB),
      tries.nodes = accountsStore → budget ≤ fuel → fromTries rlp fuel tries ≠ .error .outOfFuel) := by
  have acyclic : Acyclic accountsStore :=
    acyclic_of_rank (fun h => if h = nodeHash 1 then 1 else 0) (by decide)
  exact ⟨acyclic, computeDiff_terminates acyclic⟩

end MptDiff
