import MptDiff.StateDiff.StorageDiffs

namespace MptDiff

/-! # The reverse transition

Diffing the transition the other way, on the same witness data, swaps every pair of the diff.
-/

/-- The same witness data read as the transition the other way, from the post-state root back to
the pre-state root. -/
def EthereumTrieTransitionDB.reverse (tries : EthereumTrieTransitionDB) : EthereumTrieTransitionDB :=
  { tries with stateRoot := tries.postStateRoot, postStateRoot := tries.stateRoot }

section Swap

variable {α : Type} {nodes : NodeStore} {n : Nat} {L R : Ref} {preimages : PyDict Bytes Bytes}
  {decode : Bytes → Except PyError α} {d d' : PyDict Bytes (Option α × Option α)}

theorem RecordsDifferences.get?_swap (records : RecordsDifferences nodes n L R preimages decode d)
    (records' : RecordsDifferences nodes n R L preimages decode d') {key : Bytes}
    {values : Option α × Option α} (found : d.get? key = some values) :
    d'.get? key = some values.swap := by
  obtain ⟨s, length, nibbles, differ, preimage⟩ := records.sound key (PyDict.mem_keys_of_get? found)
  obtain ⟨k, v, preimage₁, found₁, left, right⟩ := records.complete s length nibbles differ
  obtain ⟨k', v', preimage₂, found₂, left', right'⟩ :=
    records'.complete s length nibbles (Ne.symm differ)
  cases Option.some.inj (preimage.symm.trans preimage₁)
  cases Option.some.inj (preimage.symm.trans preimage₂)
  cases Option.some.inj (found.symm.trans found₁)
  exact found₂.trans (congrArg some
    (Prod.ext (Except.ok.inj (left'.symm.trans right)) (Except.ok.inj (right'.symm.trans left))))

theorem RecordsDifferences.swap (records : RecordsDifferences nodes n L R preimages decode d)
    (records' : RecordsDifferences nodes n R L preimages decode d') (key : Bytes) :
    d'.get? key = (d.get? key).map Prod.swap := by
  cases found : d.get? key with
  | some values => exact records.get?_swap records' found
  | none =>
      cases found' : d'.get? key with
      | none => rfl
      | some values => exact nomatch found.symm.trans (records'.get?_swap records found')

end Swap

/-- What `from_tries` needs to diff a pair of state tries completely: both tries well-formed, a
walk that meets no extension facing a branch, one to one preimages, and walkable storage tries
for every changed account. -/
structure Diffable (rlp : RlpDecoding) (tries : EthereumTrieTransitionDB) : Prop where
  leftWellFormed : WellFormed tries.nodes 64 (.bytes tries.stateRoot)
  rightWellFormed : WellFormed tries.nodes 64 (.bytes tries.postStateRoot)
  matched : ∀ call, Reaches tries.nodes (.bytes tries.stateRoot, .bytes tries.postStateRoot, [])
    call → ¬ ExtensionAgainstBranch tries.nodes call.1 call.2.1
  oneToOne : ∀ k k' address, tries.addressPreimages.get? k = some address →
    tries.addressPreimages.get? k' = some address → k = k'
  slotsOneToOne : ∀ k k' key, tries.storageKeyPreimages.get? k = some key →
    tries.storageKeyPreimages.get? k' = some key → k = k'
  walkable : ∀ s accounts, s.length = 64 → (∀ z ∈ s, z < 16) →
    valueAt tries.nodes (.bytes tries.stateRoot) s ≠ valueAt tries.nodes (.bytes tries.postStateRoot) s →
    (valueAt tries.nodes (.bytes tries.stateRoot) s).mapM (accountFromRlp rlp) = .ok accounts.1 →
    (valueAt tries.nodes (.bytes tries.postStateRoot) s).mapM (accountFromRlp rlp) = .ok accounts.2 →
    StorageWalkable tries.nodes accounts

variable {rlp : RlpDecoding} {fuel : Nat} {tries : EthereumTrieTransitionDB} {diff diff' : StateDiff}

theorem Diffable.accounts (diffable : Diffable rlp tries) (ran : fromTries rlp fuel tries = .ok diff) :
    RecordsDifferences tries.nodes 64 (.bytes tries.stateRoot) (.bytes tries.postStateRoot)
      tries.addressPreimages (accountFromRlp rlp) diff.mainTrie :=
  processAccountDiff_writes.records ran (by decide) diffable.leftWellFormed diffable.rightWellFormed
    diffable.matched diffable.oneToOne rfl

/-- Diffing the reverse transition swaps every pair of the diff: when `from_tries` returns both on
a pair of state tries and on the same pair with its roots exchanged, each under the conditions of
a complete diff, the second `_main_trie` holds the same addresses as the first with the pre and
post accounts exchanged, and each slot map the same slots with the two values exchanged. -/
theorem fromTries_reverse (diffable : Diffable rlp tries) (diffable' : Diffable rlp tries.reverse)
    (ran : fromTries rlp fuel tries = .ok diff) (ran' : fromTries rlp fuel tries.reverse = .ok diff') :
    (∀ address, diff'.mainTrie.get? address = (diff.mainTrie.get? address).map Prod.swap) ∧
      ∀ address key, (diff'.slots address).get? key = ((diff.slots address).get? key).map Prod.swap := by
  have main := (diffable.accounts ran).swap (diffable'.accounts ran')
  refine ⟨main, fun address key => ?_⟩
  cases found : diff.mainTrie.get? address with
  | none =>
      have found' : diff'.mainTrie.get? address = none := by rw [main, found]; rfl
      rw [StateDiff.slots_eq_empty (fromTries_nested ran) found,
        StateDiff.slots_eq_empty (fromTries_nested ran') found']
      rfl
  | some accounts =>
      have found' : diff'.mainTrie.get? address = some accounts.swap := by rw [main, found]; rfl
      exact (fromTries_slot_records diffable.leftWellFormed diffable.rightWellFormed diffable.matched
        diffable.oneToOne diffable.slotsOneToOne diffable.walkable ran address accounts found).swap
        (fromTries_slot_records diffable'.leftWellFormed diffable'.rightWellFormed diffable'.matched
          diffable'.oneToOne diffable'.slotsOneToOne diffable'.walkable ran' address _ found') key

theorem slotTries_diffable : Diffable slotAccounts slotTries ∧ Diffable slotAccounts slotTries.reverse :=
  ⟨⟨slotStore_wellFormed.1, slotStore_wellFormed.2.1, slotTries_matched, slotTries_oneToOne,
      slotTries_slotsOneToOne, slotTries_storageWalkable⟩,
    ⟨slotStore_wellFormed.2.1, slotStore_wellFormed.1,
      (slotStore_extensionFree (by decide : (24 : UInt8) ∈ [20, 24, 30, 31, 32])).reaches,
      slotTries_oneToOne, slotTries_slotsOneToOne,
      fun _ _ length nibbles => slotTries_walkable (.inr rfl) length nibbles⟩⟩

set_option maxRecDepth 4000 in
theorem slotTries_reverse :
    Diffable slotAccounts slotTries ∧ Diffable slotAccounts slotTries.reverse ∧
      ∃ diff diff', fromTries slotAccounts 65 slotTries = .ok diff ∧
        fromTries slotAccounts 65 slotTries.reverse = .ok diff' ∧
        (diff.slots (List.replicate 20 1)).get? (List.replicate 32 3) = some (none, some 10) ∧
        (diff'.slots (List.replicate 20 1)).get? (List.replicate 32 3) = some (some 10, none) ∧
        (∀ address, diff'.mainTrie.get? address = (diff.mainTrie.get? address).map Prod.swap) ∧
        ∀ address key, (diff'.slots address).get? key = ((diff.slots address).get? key).map Prod.swap :=
  have ran : fromTries slotAccounts 65 slotTries = .ok _ := rfl
  have ran' : fromTries slotAccounts 65 slotTries.reverse = .ok _ := rfl
  ⟨slotTries_diffable.1, slotTries_diffable.2, _, _, ran, ran', rfl, rfl,
    fromTries_reverse slotTries_diffable.1 slotTries_diffable.2 ran ran'⟩

end MptDiff
