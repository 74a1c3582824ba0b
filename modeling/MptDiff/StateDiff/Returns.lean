import MptDiff.StateDiff.FromTries
import MptDiff.StateDiff.StorageDiffs
import MptDiff.Walk.Hands
import MptDiff.Walk.Walkable

namespace MptDiff

/-! # When `from_tries` returns, and what it raises

`from_tries` returns when the state tries and the storage tries of every changed account can be
walked and read; on well-formed tries it raises only `BadBranch`, a missing preimage, or a leaf
that does not decode.
-/

variable {nodes : NodeStore}

/-- Every key at which the tries `left` and `right` store different values has a preimage, and
the values the two tries store there decode. -/
def Decodable {α : Type} (nodes : NodeStore) (left right : Ref) (preimages : PyDict Bytes Bytes)
    (decode : Bytes → Except PyError α) : Prop :=
  ∀ s, s.length = 64 → (∀ z ∈ s, z < 16) → valueAt nodes left s ≠ valueAt nodes right s →
    (∃ key, preimages.get? (nibbleListToBytes s) = some key) ∧
      (∃ value, (valueAt nodes left s).mapM decode = .ok value) ∧
      ∃ value, (valueAt nodes right s).mapM decode = .ok value

section Reads

variable {left right : Ref}

theorem Decodable.entry {α : Type} {preimages : PyDict Bytes Bytes}
    {decode : Bytes → Except PyError α} {s : Bytes} {t : LeafDiff}
    (decodable : Decodable nodes left right preimages decode)
    (difference : Difference nodes 64 left right [] s t) :
    ∃ key values, DecodedEntry preimages decode t key values := by
  obtain ⟨⟨key, found⟩, ⟨leftValue, leftDecoded⟩, ⟨rightValue, rightDecoded⟩⟩ :=
    decodable s difference.length difference.nibbles difference.differ
  rw [← difference.leftValue, optionMapM_map] at leftDecoded
  rw [← difference.rightValue, optionMapM_map] at rightDecoded
  exact ⟨key, (leftValue, rightValue), ⟨difference.key ▸ found, leftDecoded, rightDecoded⟩⟩

end Reads

variable {rlp : RlpDecoding} {fuel : Nat} {self : StateDiff} {address key k : Bytes}
  {left right : Option LeafNode}

theorem processStorageDiff_eq_setStorage {values : Option Nat × Option Nat}
    (entry : DecodedEntry self.storageKeyPreimages (decodeStorageValue rlp) (key, left, right) k
      values) :
    processStorageDiff rlp address key left right self = .ok (self.setStorage address k values) := by
  obtain ⟨leftValue, rightValue⟩ := values
  obtain ⟨found, leftDecoded, rightDecoded⟩ := entry
  dsimp only at leftDecoded rightDecoded
  unfold processStorageDiff
  rw [PyDict.getItem_eq_ok.mpr found, leftDecoded, rightDecoded]
  rcases left with _ | _ <;> rcases right with _ | _ <;> (try cases pure_eq_ok.mp leftDecoded) <;>
    (try cases pure_eq_ok.mp rightDecoded) <;> rfl

theorem processAccountDiff_eq_computeDiff {accounts : Option Account × Option Account}
    (entry : DecodedEntry self.addressPreimages (accountFromRlp rlp) (key, left, right) address
      accounts) :
    processAccountDiff rlp fuel key left right self =
      computeDiff self.nodes (processStorageDiff rlp address) fuel (storageRootRef accounts.1)
        (storageRootRef accounts.2) [] { self with mainTrie := self.mainTrie.setItem address accounts } := by
  obtain ⟨found, leftDecoded, rightDecoded⟩ := entry
  dsimp only at leftDecoded rightDecoded
  unfold processAccountDiff
  rw [PyDict.getItem_eq_ok.mpr found, leftDecoded, rightDecoded]
  rfl

/-- `from_tries` returns when its two state tries can be walked, every changed account has an
address preimage and decodes, and the storage tries of every changed account can be walked and
their changed slots read, within a budget above 64. -/
theorem fromTries_returns {tries : EthereumTrieTransitionDB}
    (walkable : Walkable tries.nodes (.bytes tries.stateRoot) (.bytes tries.postStateRoot))
    (decodable : Decodable tries.nodes (.bytes tries.stateRoot) (.bytes tries.postStateRoot)
      tries.addressPreimages (accountFromRlp rlp))
    (storage : ∀ s (accounts : Option Account × Option Account), s.length = 64 → (∀ z ∈ s, z < 16) →
      valueAt tries.nodes (.bytes tries.stateRoot) s ≠
        valueAt tries.nodes (.bytes tries.postStateRoot) s →
      (valueAt tries.nodes (.bytes tries.stateRoot) s).mapM (accountFromRlp rlp) = .ok accounts.1 →
      (valueAt tries.nodes (.bytes tries.postStateRoot) s).mapM (accountFromRlp rlp) =
        .ok accounts.2 →
      Walkable tries.nodes (storageRootRef accounts.1) (storageRootRef accounts.2) ∧
        Decodable tries.nodes (storageRootRef accounts.1) (storageRootRef accounts.2)
          tries.storageKeyPreimages (decodeStorageValue rlp))
    (enough : 64 < fuel) : ∃ diff, fromTries rlp fuel tries = .ok diff := by
  refine walkable.computeDiff_exists (I := fun d : StateDiff => d.nodes = tries.nodes ∧
    d.addressPreimages = tries.addressPreimages ∧ d.storageKeyPreimages = tries.storageKeyPreimages)
    enough (fun t d ⟨u, difference⟩ ⟨sameNodes, sameAddresses, sameSlots⟩ => ?_) ⟨rfl, rfl, rfl⟩
  obtain ⟨address, accounts, entry⟩ := decodable.entry difference
  have ⟨storageWalkable, storageDecodable⟩ := storage u accounts difference.length
    difference.nibbles difference.differ (entry.decodes_valueAt difference).1
    (entry.decodes_valueAt difference).2
  obtain ⟨d', walked⟩ : ∃ d', computeDiff tries.nodes (processStorageDiff rlp address) fuel
      (storageRootRef accounts.1) (storageRootRef accounts.2) []
      { d with mainTrie := d.mainTrie.setItem address accounts } = .ok d' :=
    storageWalkable.computeDiff_exists (I := fun d : StateDiff =>
      d.storageKeyPreimages = tries.storageKeyPreimages) enough (fun t' d ⟨u', difference'⟩ same => by
        obtain ⟨k, values, entry'⟩ := storageDecodable.entry difference'
        exact ⟨_, processStorageDiff_eq_setStorage (same ▸ entry'), same⟩) sameSlots
  have keeps := computeDiff_processStorageDiff_keeps walked ⟨rfl, rfl, rfl, fun _ _ => rfl⟩
  refine ⟨d', ?_, keeps.nodes.trans sameNodes, keeps.addressPreimages.trans sameAddresses,
    keeps.storageKeyPreimages.trans sameSlots⟩
  rw [processAccountDiff_eq_computeDiff (sameAddresses ▸ entry)]
  nth_rewrite 1 [sameNodes]
  exact walked

set_option maxRecDepth 4000 in
theorem slotStorage_walkable :
    Walkable slotStore (.bytes (nodeHash 30)) (.bytes (nodeHash 31)) ∧
      Decodable slotStore (.bytes (nodeHash 30)) (.bytes (nodeHash 31)) slotTries.storageKeyPreimages
        (decodeStorageValue slotAccounts) := by
  have free : ExtensionFree slotStore (.bytes (nodeHash 30)) := slotStore_extensionFree (by decide)
  refine ⟨⟨slotStore_wellFormed.2.2.1, slotStore_wellFormed.2.2.2.1, fun call reached =>
    ⟨computeDiff_ok_matched slotStorage_recorded call reached, free.reaches call reached⟩⟩,
    fun s length nibbles differ => ?_⟩
  obtain ⟨t, member, key, leftValue, rightValue⟩ := (computeDiff_reports_differences
    slotStore_wellFormed.2.2.1 slotStore_wellFormed.2.2.2.1 rfl free.reaches
    slotStorage_recorded).entry_of_differ rfl length nibbles differ
  rw [← key, ← leftValue, ← rightValue]
  simp only [List.mem_cons, List.mem_singleton, List.not_mem_nil, or_false] at member
  rcases member with rfl | rfl | rfl <;> exact ⟨⟨_, rfl⟩, ⟨_, rfl⟩, ⟨_, rfl⟩⟩

set_option maxRecDepth 4000 in
theorem slotTries_returns :
    Walkable slotTries.nodes (.bytes slotTries.stateRoot) (.bytes slotTries.postStateRoot) ∧
    Decodable slotTries.nodes (.bytes slotTries.stateRoot) (.bytes slotTries.postStateRoot)
      slotTries.addressPreimages (accountFromRlp slotAccounts) ∧
    (∀ s (accounts : Option Account × Option Account), s.length = 64 → (∀ z ∈ s, z < 16) →
      valueAt slotTries.nodes (.bytes slotTries.stateRoot) s ≠
        valueAt slotTries.nodes (.bytes slotTries.postStateRoot) s →
      (valueAt slotTries.nodes (.bytes slotTries.stateRoot) s).mapM
        (accountFromRlp slotAccounts) = .ok accounts.1 →
      (valueAt slotTries.nodes (.bytes slotTries.postStateRoot) s).mapM
        (accountFromRlp slotAccounts) = .ok accounts.2 →
      Walkable slotTries.nodes (storageRootRef accounts.1) (storageRootRef accounts.2) ∧
        Decodable slotTries.nodes (storageRootRef accounts.1) (storageRootRef accounts.2)
          slotTries.storageKeyPreimages (decodeStorageValue slotAccounts)) ∧
    64 < 65 ∧ ∃ diff, fromTries slotAccounts 65 slotTries = .ok diff := by
  have walkable : Walkable slotStore (.bytes (nodeHash 20)) (.bytes (nodeHash 24)) :=
    ⟨slotStore_wellFormed.1, slotStore_wellFormed.2.1, fun call reached =>
      ⟨computeDiff_ok_matched slotTries_recorded call reached, slotTries_matched call reached⟩⟩
  have decodable : Decodable slotStore (.bytes (nodeHash 20)) (.bytes (nodeHash 24))
      slotTries.addressPreimages (accountFromRlp slotAccounts) := fun s length nibbles differ => by
    obtain ⟨key, values⟩ := slotTries_differ length nibbles differ
    rcases key with key | key <;> rcases values with ⟨stored, stored'⟩ | ⟨stored, stored'⟩ <;>
      rw [key, stored, stored'] <;> exact ⟨⟨_, rfl⟩, ⟨_, rfl⟩, ⟨_, rfl⟩⟩
  refine (fun storage => ⟨walkable, decodable, storage, by decide,
    fromTries_returns walkable decodable storage (by decide)⟩) fun s accounts length nibbles differ
      left right => ?_
  obtain ⟨a, a'⟩ := accounts
  replace left : (valueAt slotStore (.bytes (nodeHash 20)) s).mapM (accountFromRlp slotAccounts) =
    .ok a := left
  replace right : (valueAt slotStore (.bytes (nodeHash 24)) s).mapM (accountFromRlp slotAccounts) =
    .ok a' := right
  rcases (slotTries_differ length nibbles differ).2 with ⟨stored, stored'⟩ | ⟨stored, stored'⟩ <;>
    rw [stored] at left <;> rw [stored'] at right <;>
    cases Except.ok.inj left <;> cases Except.ok.inj right
  · exact slotStorage_walkable
  · have run : computeDiff slotStore recordLeafDiff 65 (.bytes (nodeHash 32)) (.bytes (nodeHash 32))
        [] [] = .ok [] := rfl
    exact ⟨⟨slotStore_wellFormed.2.2.2.2.1, slotStore_wellFormed.2.2.2.2.1, fun call reached =>
      ⟨computeDiff_ok_matched run call reached,
        (slotStore_extensionFree (by decide : (32 : UInt8) ∈ [20, 24, 30, 31, 32])).reaches call
          reached⟩⟩,
      fun _ _ _ differ => absurd rfl differ⟩

/-- When the two roots are equal `from_tries` returns the empty diff, whatever the store holds;
and when two walkable state tries store the same accounts it returns the empty diff within a
budget above 64. -/
theorem fromTries_unchanged :
    (∀ (rlp : RlpDecoding) (fuel : Nat) (tries : EthereumTrieTransitionDB),
      tries.stateRoot = tries.postStateRoot →
      fromTries rlp (fuel + 1) tries =
        .ok ⟨.empty, .empty, tries.nodes, tries.addressPreimages, tries.storageKeyPreimages⟩) ∧
    ∀ (rlp : RlpDecoding) (fuel : Nat) (tries : EthereumTrieTransitionDB),
      Walkable tries.nodes (.bytes tries.stateRoot) (.bytes tries.postStateRoot) →
      (∀ s, s.length = 64 → (∀ z ∈ s, z < 16) →
        valueAt tries.nodes (.bytes tries.stateRoot) s =
          valueAt tries.nodes (.bytes tries.postStateRoot) s) →
      64 < fuel →
      fromTries rlp fuel tries =
        .ok ⟨.empty, .empty, tries.nodes, tries.addressPreimages, tries.storageKeyPreimages⟩ := by
  refine ⟨fun _ _ tries same => ?_, fun _ _ _ walkable same enough =>
    walkable.computeDiff_same enough same _ _⟩
  show computeDiffStep tries.nodes _ _ [] >>= _ = _
  rw [computeDiffStep, if_pos (congrArg Ref.bytes same)]
  rfl

/-- Every account decoded from a value one of the two state tries stores has a well-formed storage
trie. -/
def StorageWellFormed (rlp : RlpDecoding) (nodes : NodeStore) (L R : Ref) : Prop :=
  ∀ s v account, s.length = 64 → (valueAt nodes L s = some v ∨ valueAt nodes R s = some v) →
    accountFromRlp rlp v = .ok account → WellFormed nodes 64 (.bytes account.storageRoot)

theorem StorageWellFormed.handed {L R : Ref} {s : Bytes} {t : LeafDiff}
    (storageWellFormed : StorageWellFormed rlp nodes L R) (handed : Handed nodes 64 L R s t) :
    (∀ account, t.2.1.mapM (fun leaf => accountFromRlp rlp leaf.value) = .ok account →
      WellFormed nodes 64 (storageRootRef account)) ∧
    ∀ account, t.2.2.mapM (fun leaf => accountFromRlp rlp leaf.value) = .ok account →
      WellFormed nodes 64 (storageRootRef account) := by
  have decoded : ∀ (leaf : Option LeafNode) (account : Option Account),
      (∀ l, leaf = some l → valueAt nodes L s = some l.value ∨ valueAt nodes R s = some l.value) →
      leaf.mapM (fun leaf => accountFromRlp rlp leaf.value) = .ok account →
      WellFormed nodes 64 (storageRootRef account) := fun leaf account stored read => by
    rcases leaf with _ | l
    · cases pure_eq_ok.mp read
      exact .absent (resolve_none nodes)
    · obtain ⟨account, found, rfl⟩ := optionMapM_some_eq_ok read
      exact storageWellFormed s l.value account handed.length (stored l rfl) found
  exact ⟨fun account => decoded _ account fun l same => .inl (handed.leftStored l same),
    fun account => decoded _ account fun l same => .inr (handed.rightStored l same)⟩

theorem processAccountDiff_wellFormed_error {path : Bytes} {e : PyError}
    (leftStorage : ∀ account, left.mapM (fun leaf => accountFromRlp rlp leaf.value) = .ok account →
      WellFormed self.nodes 64 (storageRootRef account))
    (rightStorage : ∀ account, right.mapM (fun leaf => accountFromRlp rlp leaf.value) = .ok account →
      WellFormed self.nodes 64 (storageRootRef account))
    (enough : 64 < fuel) (failed : processAccountDiff rlp fuel path left right self = .error e) :
    e = .badBranch ∨ e = .keyError ∨ e = .decodingError ∨ e = .overflowError := by
  rcases bind_eq_error.mp failed with failed | ⟨address, -, failed⟩
  · exact .inr (.inl (PyDict.getItem_eq_error failed))
  rcases bind_eq_error.mp failed with failed | ⟨leftAccount, leftDecoded, failed⟩
  · obtain ⟨_, -, failed⟩ := optionMapM_eq_error failed
    exact .inr (.inr (.inl (accountFromRlp_eq_error failed)))
  rcases bind_eq_error.mp failed with failed | ⟨rightAccount, rightDecoded, failed⟩
  · obtain ⟨_, -, failed⟩ := optionMapM_eq_error failed
    exact .inr (.inr (.inl (accountFromRlp_eq_error failed)))
  rcases computeDiff_error_of_wellFormed (I := fun _ => True) (leftStorage _ leftDecoded)
      (rightStorage _ rightDecoded) (fun _ _ _ _ _ _ _ => trivial)
      (fun _ _ _ _ _ _ _ _ => processStorageDiff_ne_outOfFuel) trivial enough failed with
    ⟨same, -⟩ | ⟨_, _, _, _, _, -, -, -, failed⟩
  · exact .inl same
  · exact .inr (processStorageDiff_eq_error failed)

/-- On well-formed state tries whose stored accounts all have well-formed storage tries, within a
budget above 64, `from_tries` raises only `BadBranch`, `KeyError` for a missing preimage, or an
error decoding a leaf: never a missing node, a node type mismatch or an invalid node reference. -/
theorem fromTries_errors {tries : EthereumTrieTransitionDB} {e : PyError}
    (leftWellFormed : WellFormed tries.nodes 64 (.bytes tries.stateRoot))
    (rightWellFormed : WellFormed tries.nodes 64 (.bytes tries.postStateRoot))
    (storageWellFormed : StorageWellFormed rlp tries.nodes (.bytes tries.stateRoot)
      (.bytes tries.postStateRoot))
    (enough : 64 < fuel) (failed : fromTries rlp fuel tries = .error e) :
    e = .badBranch ∨ e = .keyError ∨ e = .decodingError ∨ e = .overflowError := by
  have start := Positioned.start leftWellFormed rightWellFormed
  have handler : ∀ caller key l r (d : StateDiff) {e : PyError},
      Reaches tries.nodes (.bytes tries.stateRoot, .bytes tries.postStateRoot, []) caller →
      Emits tries.nodes caller key l r → d.nodes = tries.nodes →
      processAccountDiff rlp fuel key l r d = .error e →
      e = .badBranch ∨ e = .keyError ∨ e = .decodingError ∨ e = .overflowError :=
    fun _ _ _ _ _ _ reached emitted same failed => by
      obtain ⟨u, handed⟩ := (start.reaches reached).choose_spec.emitted emitted
      have ⟨leftStorage, rightStorage⟩ := storageWellFormed.handed handed
      exact processAccountDiff_wellFormed_error (same ▸ leftStorage) (same ▸ rightStorage) enough failed
  rcases computeDiff_error_of_wellFormed (I := fun d : StateDiff => d.nodes = tries.nodes)
      leftWellFormed rightWellFormed (fun _ _ _ _ _ same ran => (processAccountDiff_nodes ran).trans same)
      (fun caller key l r d reached emitted same failed => by
        rcases handler caller key l r d reached emitted same failed with h | h | h | h <;> cases h)
      rfl enough failed with ⟨same, -⟩ | ⟨caller, key, l, r, t, reached, emitted, same, failed⟩
  · exact .inl same
  · exact handler caller key l r t reached emitted same failed

theorem slotStore_stateValue {root : UInt8} {s v : Bytes} (trie : root ∈ [20, 24, 40, 44])
    (stored : valueAt slotStore (.bytes (nodeHash root)) s = some v) :
    v ∈ [[1, 30], [1, 31], [2, 32], [3, 32], [5, 32], [6], [7]] := by
  have leafValue : ∀ {k : UInt8} {fuel : Nat} {key : Bytes}, k ∈ [21, 22, 23, 25, 26, 42, 43, 45] →
      lookup slotStore fuel (.bytes (nodeHash k)) key = some v →
      v ∈ [[1, 30], [1, 31], [2, 32], [3, 32], [5, 32], [6], [7]] := fun leaf found => by
    simp only [List.mem_cons, List.mem_singleton, List.not_mem_nil, or_false] at leaf
    rcases leaf with rfl | rfl | rfl | rfl | rfl | rfl | rfl | rfl <;>
      rw [lookup_leaf_eq_some (by rfl) found] <;> decide
  simp only [List.mem_cons, List.mem_singleton, List.not_mem_nil, or_false] at trie
  rcases trie with rfl | rfl | rfl | rfl <;>
    obtain ⟨c, member, found⟩ := lookup_hashBranch_eq_some (by rfl) stored <;>
    simp only [List.mem_cons, List.mem_singleton, List.not_mem_nil, or_false] at member
  case inl | inr.inl => rcases member with rfl | rfl | rfl <;> exact leafValue (by decide) found
  case inr.inr.inr => rcases member with rfl | rfl <;> exact leafValue (by decide) found
  case inr.inr.inl =>
    rcases member with rfl | rfl
    · exact leafValue (by decide) found
    · obtain ⟨c, member, found⟩ := lookup_hashBranch_eq_some (by rfl) found
      simp only [List.mem_cons, List.mem_singleton, List.not_mem_nil, or_false] at member
      rcases member with rfl | rfl <;> exact leafValue (by decide) found

theorem slotStore_storageWellFormed {L R : UInt8} (left : L ∈ [20, 24, 40, 44])
    (right : R ∈ [20, 24, 40, 44]) :
    StorageWellFormed slotAccounts slotStore (.bytes (nodeHash L)) (.bytes (nodeHash R)) :=
  fun _ v _ _ stored decoded => by
    have member := stored.elim (slotStore_stateValue left) (slotStore_stateValue right)
    obtain ⟨code, root, rfl, rfl⟩ := slotAccounts_accountFromRlp decoded
    simp only [List.mem_cons, List.cons.injEq, List.mem_singleton, List.not_mem_nil, and_true,
      List.cons_ne_nil, and_false, or_false] at member
    rcases member with ⟨-, rfl⟩ | ⟨-, rfl⟩ | ⟨-, rfl⟩ | ⟨-, rfl⟩ | ⟨-, rfl⟩ <;>
      exact slotStore_storage_wellFormed (by decide)

/-- The witness data of slotTries read over the state tries 40 and 44, whose branch below the
nibble 4 collapsed into a leaf. -/
def collapseTries : EthereumTrieTransitionDB :=
  { slotTries with stateRoot := nodeHash 40, postStateRoot := nodeHash 44 }

set_option maxRecDepth 4000 in
theorem collapseTries_errors :
    WellFormed collapseTries.nodes 64 (.bytes collapseTries.stateRoot) ∧
    WellFormed collapseTries.nodes 64 (.bytes collapseTries.postStateRoot) ∧
    StorageWellFormed slotAccounts collapseTries.nodes (.bytes collapseTries.stateRoot)
      (.bytes collapseTries.postStateRoot) ∧ 64 < 65 ∧
    fromTries slotAccounts 65 collapseTries = .error .badBranch ∧
    (PyError.badBranch = .badBranch ∨ PyError.badBranch = .keyError ∨
      PyError.badBranch = .decodingError ∨ PyError.badBranch = .overflowError) :=
  have storageWellFormed : StorageWellFormed slotAccounts collapseTries.nodes
      (.bytes collapseTries.stateRoot) (.bytes collapseTries.postStateRoot) :=
    slotStore_storageWellFormed (by decide) (by decide)
  have failed : fromTries slotAccounts 65 collapseTries = .error .badBranch := rfl
  ⟨slotStore_wellFormed.2.2.2.2.2.1, slotStore_wellFormed.2.2.2.2.2.2, storageWellFormed, by decide,
    failed, fromTries_errors slotStore_wellFormed.2.2.2.2.2.1 slotStore_wellFormed.2.2.2.2.2.2
      storageWellFormed (by decide) failed⟩

end MptDiff
