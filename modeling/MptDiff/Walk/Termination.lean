import MptDiff.Trie.Height
import MptDiff.Walk.Descent

namespace MptDiff

/-! # Termination of the walk

Six cases recurse on a node they have just shortened; the measure is the sum of the heights of
the two sides through the store.
-/

variable {nodes : NodeStore}

theorem Child.heightLE {node child : Ref} {q : Bytes} {k : Nat} (isChild : Child nodes node q child)
    (height : HeightLE nodes k node) : ∃ k', k = k' + 1 ∧ HeightLE nodes k' child := by
  cases isChild with
  | subnode resolved => exact height.child resolved (List.mem_singleton_self _)
  | slot i resolved => exact height.child resolved ((List.mem_ofFn _ _).mpr ⟨i, rfl⟩)

theorem Descends.heightLE {node node' : Ref} {q : Bytes} {k : Nat}
    (descends : Descends nodes node q node') (height : HeightLE nodes k node) :
    HeightLE nodes k node' := by
  cases descends with
  | child isChild =>
      obtain ⟨k', rfl, height'⟩ := isChild.heightLE height
      exact height'.succ
  | dropped => exact heightLE_of_absent fun _ resolved => nomatch resolved
  | shortLeaf resolved _ =>
      cases k with
      | zero => exact absurd resolved (height _)
      | succ k => exact heightLE_of_children rfl fun _ member => nomatch member
  | shortExtension resolved _ _ =>
      obtain ⟨k', rfl, sub⟩ := height.child resolved (List.mem_singleton_self _)
      exact heightLE_of_children rfl fun child member => by rwa [List.mem_singleton.mp member]

/-- The termination measure: the heights of the two sides of a call add up to `m`. -/
def HeightSum (nodes : NodeStore) (call : DiffArgs) (m : Nat) : Prop :=
  ∃ a b, a + b = m ∧ HeightLE nodes a call.1 ∧ HeightLE nodes b call.2.1

/-- The step lemma: the measure drops on every call. -/
theorem HeightSum.calls {caller callee : DiffArgs} {m : Nat} (bounded : HeightSum nodes caller m)
    (called : Calls nodes caller callee) : ∃ m' < m, HeightSum nodes callee m' := by
  obtain ⟨a, b, rfl, left, right⟩ := bounded
  obtain ⟨q, -, sides⟩ := calls_descend called
  rcases sides with ⟨leftChild, rightDescends⟩ | ⟨leftDescends, rightChild⟩
  · obtain ⟨a', rfl, left'⟩ := leftChild.heightLE left
    exact ⟨a' + b, by omega, a', b, rfl, left', rightDescends.heightLE right⟩
  · obtain ⟨b', rfl, right'⟩ := rightChild.heightLE right
    exact ⟨a + b', by omega, a, b', rfl, leftDescends.heightLE left, right'⟩

theorem HeightSum.fuel_suffices {σ : Type} {process : LeafDiffHandler σ} {I : σ → Prop}
    {left right : Ref} {path : Bytes} {fuel a b : Nat} {s : σ}
    (handler : ∀ key l r s, I s → process key l r s ≠ .error .outOfFuel)
    (keeps : ∀ key l r s s', I s → process key l r s = .ok s' → I s') (holds : I s)
    (leftHeight : HeightLE nodes a left) (rightHeight : HeightLE nodes b right)
    (enough : a + b < fuel) :
    computeDiff nodes process fuel left right path s ≠ .error .outOfFuel :=
  computeDiff_ne_outOfFuel (HeightSum nodes) (fun _ _ _ bounded called => bounded.calls called)
    (fun _ _ key l r s _ _ => handler key l r s) keeps holds ⟨a, b, rfl, leftHeight, rightHeight⟩ enough

theorem computeDiff_fuel_congr {σ : Type} {process process' : LeafDiffHandler σ}
    (handler : ∀ key l r s, process key l r s ≠ .error .outOfFuel →
      process' key l r s = process key l r s) :
    ∀ {fuel fuel' left right path s}, fuel ≤ fuel' →
      computeDiff nodes process fuel left right path s ≠ .error .outOfFuel →
      computeDiff nodes process' fuel' left right path s =
        computeDiff nodes process fuel left right path s
  | 0, _, _, _, _, _, _, ne => absurd rfl ne
  | _ + 1, 0, _, _, _, _, le, _ => absurd le (by omega)
  | fuel + 1, fuel' + 1, left, right, path, s, le, ne => by
      simp only [computeDiff] at ne ⊢
      refine bind_congr_of_ne (fun calls ne => foldlM_congr_of_ne (fun call t ne => ?_) ne) ne
      cases call with
      | processLeafDiff key l r => exact handler key l r t ne
      | computeDiff l r path' => exact computeDiff_fuel_congr handler (by omega) ne

end MptDiff
