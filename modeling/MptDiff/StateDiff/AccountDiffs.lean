import MptDiff.StateDiff.Handlers
import MptDiff.StateDiff.Writes

namespace MptDiff

/-! # The account diffs of `from_tries`

On a complete walk with one to one address preimages, `_main_trie` maps exactly the addresses of
the changed accounts, each to its two decoded accounts.
-/

variable {rlp : RlpDecoding} {fuel : Nat}

theorem processAccountDiff_walks {key : Bytes} {left right : Option LeafNode} {self self' : StateDiff}
    (ran : processAccountDiff rlp fuel key left right self = .ok self') :
    ∃ address accounts,
      DecodedEntry self.addressPreimages (accountFromRlp rlp) (key, left, right) address accounts ∧
      computeDiff self.nodes (processStorageDiff rlp address) fuel (storageRootRef accounts.1)
        (storageRootRef accounts.2) [] { self with mainTrie := self.mainTrie.setItem address accounts } =
        .ok self' := by
  obtain ⟨address, found, ran⟩ := bind_eq_ok.mp ran
  obtain ⟨leftAccount, leftDecoded, ran⟩ := bind_eq_ok.mp ran
  obtain ⟨rightAccount, rightDecoded, ran⟩ := bind_eq_ok.mp ran
  exact ⟨address, (leftAccount, rightAccount),
    ⟨PyDict.getItem_eq_ok.mp found, leftDecoded, rightDecoded⟩, ran⟩

/-- The step lemma: the account handler writes one entry of `_main_trie`, under the preimage of
its key, and leaves the preimages alone. -/
theorem processAccountDiff_writes :
    WritesDecoded (processAccountDiff rlp fuel) StateDiff.mainTrie StateDiff.addressPreimages
      (accountFromRlp rlp) := by
  intro key left right self self' ran
  obtain ⟨address, accounts, entry, walked⟩ := processAccountDiff_walks ran
  refine ⟨address, accounts, entry, computeDiff_keeps (I := fun d : StateDiff =>
    d.mainTrie = self.mainTrie.setItem address accounts ∧
      d.addressPreimages = self.addressPreimages) (fun _ _ _ _ _ holds ran => ?_) ?_ walked⟩
  · obtain ⟨_, _, rfl⟩ := processStorageDiff_eq_ok ran
    exact holds
  · exact ⟨rfl, rfl⟩

/-- On a run of `from_tries` that returns normally over two well-formed state tries and meets no
extension facing a branch, with one to one address preimages, `_main_trie` maps exactly the
addresses of the accounts whose leaves differ, each to its decoded pre and post account. -/
theorem fromTries_account_diffs {tries : EthereumTrieTransitionDB} {diff : StateDiff}
    (leftWellFormed : WellFormed tries.nodes 64 (.bytes tries.stateRoot))
    (rightWellFormed : WellFormed tries.nodes 64 (.bytes tries.postStateRoot))
    (matched : ∀ call, Reaches tries.nodes (.bytes tries.stateRoot, .bytes tries.postStateRoot, [])
      call → ¬ ExtensionAgainstBranch tries.nodes call.1 call.2.1)
    (oneToOne : ∀ k k' address, tries.addressPreimages.get? k = some address →
      tries.addressPreimages.get? k' = some address → k = k')
    (ran : fromTries rlp fuel tries = .ok diff) :
    (∀ s, s.length = 64 → (∀ z ∈ s, z < 16) →
      valueAt tries.nodes (.bytes tries.stateRoot) s ≠
        valueAt tries.nodes (.bytes tries.postStateRoot) s →
      ∃ address accounts, tries.addressPreimages.get? (nibbleListToBytes s) = some address ∧
        diff.mainTrie.get? address = some accounts ∧
        (valueAt tries.nodes (.bytes tries.stateRoot) s).mapM (accountFromRlp rlp) = .ok accounts.1 ∧
        (valueAt tries.nodes (.bytes tries.postStateRoot) s).mapM (accountFromRlp rlp) =
          .ok accounts.2) ∧
    ∀ address ∈ diff.mainTrie.keys, ∃ s, s.length = 64 ∧ (∀ z ∈ s, z < 16) ∧
      valueAt tries.nodes (.bytes tries.stateRoot) s ≠
        valueAt tries.nodes (.bytes tries.postStateRoot) s ∧
      tries.addressPreimages.get? (nibbleListToBytes s) = some address :=
  have records := processAccountDiff_writes.records ran (by decide) leftWellFormed rightWellFormed
    matched oneToOne rfl
  ⟨records.complete, records.sound⟩

/-- The witness data of a block that creates the account `accountKey 4`. -/
def creationTries : EthereumTrieTransitionDB :=
  ⟨accountsStore, ⟨[(nibbleListToBytes (accountKey 4), List.replicate 20 4)], by decide⟩, .empty,
    nodeHash 4, nodeHash 1⟩

/-- An RLP decoding under which every account payload is an account with empty storage. -/
def emptyAccounts : RlpDecoding := ⟨fun _ => some ⟨0, 0, [], []⟩, fun _ => none⟩

theorem creationTries_matched : ∀ call, Reaches creationTries.nodes
    (.bytes creationTries.stateRoot, .bytes creationTries.postStateRoot, []) call →
      ¬ ExtensionAgainstBranch creationTries.nodes call.1 call.2.1 :=
  (ExtensionFree.leaf rfl : ExtensionFree accountsStore (.bytes (nodeHash 4))).reaches

theorem creationTries_oneToOne : ∀ k k' address,
    creationTries.addressPreimages.get? k = some address →
      creationTries.addressPreimages.get? k' = some address → k = k' := fun _ _ _ found found' =>
  (List.mem_singleton.mp (PyDict.mem_keys_of_get? found)).trans
    (List.mem_singleton.mp (PyDict.mem_keys_of_get? found')).symm

theorem creationTries_account_diffs :
    WellFormed creationTries.nodes 64 (.bytes creationTries.stateRoot) ∧
    WellFormed creationTries.nodes 64 (.bytes creationTries.postStateRoot) ∧
    (∀ call, Reaches creationTries.nodes
      (.bytes creationTries.stateRoot, .bytes creationTries.postStateRoot, []) call →
        ¬ ExtensionAgainstBranch creationTries.nodes call.1 call.2.1) ∧
    (∀ k k' address, creationTries.addressPreimages.get? k = some address →
      creationTries.addressPreimages.get? k' = some address → k = k') ∧
    ∃ diff, fromTries emptyAccounts 65 creationTries = .ok diff ∧
      (∀ s, s.length = 64 → (∀ z ∈ s, z < 16) →
        valueAt creationTries.nodes (.bytes creationTries.stateRoot) s ≠
          valueAt creationTries.nodes (.bytes creationTries.postStateRoot) s →
        ∃ address accounts, creationTries.addressPreimages.get? (nibbleListToBytes s) = some address ∧
          diff.mainTrie.get? address = some accounts ∧
          (valueAt creationTries.nodes (.bytes creationTries.stateRoot) s).mapM
            (accountFromRlp emptyAccounts) = .ok accounts.1 ∧
          (valueAt creationTries.nodes (.bytes creationTries.postStateRoot) s).mapM
            (accountFromRlp emptyAccounts) = .ok accounts.2) ∧
      ∀ address ∈ diff.mainTrie.keys, ∃ s, s.length = 64 ∧ (∀ z ∈ s, z < 16) ∧
        valueAt creationTries.nodes (.bytes creationTries.stateRoot) s ≠
          valueAt creationTries.nodes (.bytes creationTries.postStateRoot) s ∧
        creationTries.addressPreimages.get? (nibbleListToBytes s) = some address := by
  obtain ⟨diff, ran⟩ : ∃ diff, fromTries emptyAccounts 65 creationTries = .ok diff := ⟨_, rfl⟩
  exact ⟨accountsStore_wellFormed.2, accountsStore_wellFormed.1, creationTries_matched,
    creationTries_oneToOne, diff, ran, fromTries_account_diffs accountsStore_wellFormed.2
      accountsStore_wellFormed.1 creationTries_matched creationTries_oneToOne ran⟩

/-- An RLP decoding for the storage examples: the payload `[code, root]` is the account with code
hash `nodeHash code` and storage root `nodeHash root`, and a one-byte payload is a slot value. -/
def slotAccounts : RlpDecoding :=
  ⟨fun | [code, root] => some ⟨0, 0, nodeHash code, nodeHash root⟩ | _ => none,
    fun | [b] => some [b] | _ => none⟩

/-- The witness data of a block that changes the storage of the account `accountKey 1` and the
code of the account `accountKey 4` (`slotStore`), with preimages for every account and slot key. -/
def slotTries : EthereumTrieTransitionDB :=
  ⟨slotStore, ⟨[(nibbleListToBytes (accountKey 1), List.replicate 20 1),
      (nibbleListToBytes (accountKey 4), List.replicate 20 4),
      (nibbleListToBytes (accountKey 7), List.replicate 20 7)], by decide⟩,
    ⟨[(nibbleListToBytes (accountKey 1), List.replicate 32 1),
      (nibbleListToBytes (accountKey 2), List.replicate 32 2),
      (nibbleListToBytes (accountKey 3), List.replicate 32 3),
      (nibbleListToBytes (accountKey 4), List.replicate 32 4)], by decide⟩, nodeHash 20, nodeHash 24⟩

theorem slotTries_oneToOne : ∀ k k' address, slotTries.addressPreimages.get? k = some address →
    slotTries.addressPreimages.get? k' = some address → k = k' :=
  fun _ _ _ => PyDict.eq_of_get?_eq (by decide)

theorem slotTries_slotsOneToOne : ∀ k k' key, slotTries.storageKeyPreimages.get? k = some key →
    slotTries.storageKeyPreimages.get? k' = some key → k = k' :=
  fun _ _ _ => PyDict.eq_of_get?_eq (by decide)

theorem slotStore_extensionFree {root : UInt8} (trie : root ∈ [20, 24, 30, 31, 32]) :
    ExtensionFree slotStore (.bytes (nodeHash root)) := by
  simp only [List.mem_cons, List.mem_singleton, List.not_mem_nil, or_false] at trie
  rcases trie with rfl | rfl | rfl | rfl | rfl <;>
    first
    | exact .leaf rfl
    | exact .hashBranch rfl (by
        simp only [List.forall_mem_cons, List.mem_nil_iff, false_implies, implies_true, and_true]
        exact ⟨.leaf rfl, .leaf rfl, .leaf rfl⟩)

theorem slotTries_recorded :
    computeDiff slotStore recordLeafDiff 65 (.bytes (nodeHash 20)) (.bytes (nodeHash 24)) [] [] =
      .ok [(nibbleListToBytes (accountKey 1), some ⟨(accountKey 1).drop 1, [1, 30]⟩,
          some ⟨(accountKey 1).drop 1, [1, 31]⟩),
        (nibbleListToBytes (accountKey 4), some ⟨(accountKey 4).drop 1, [2, 32]⟩,
          some ⟨(accountKey 4).drop 1, [3, 32]⟩)] :=
  rfl

theorem slotStorage_recorded :
    computeDiff slotStore recordLeafDiff 65 (.bytes (nodeHash 30)) (.bytes (nodeHash 31)) [] [] =
      .ok [(nibbleListToBytes (accountKey 2), some ⟨(accountKey 2).drop 1, [8]⟩,
          some ⟨(accountKey 2).drop 1, [9]⟩),
        (nibbleListToBytes (accountKey 3), none, some ⟨(accountKey 3).drop 1, [10]⟩),
        (nibbleListToBytes (accountKey 4), some ⟨(accountKey 4).drop 1, [11]⟩, none)] :=
  rfl

end MptDiff
