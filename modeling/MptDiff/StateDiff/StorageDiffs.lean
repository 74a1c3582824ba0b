import MptDiff.StateDiff.AccountDiffs

namespace MptDiff

/-! # The storage diffs of `from_tries`

The slot map an address ends with is the one its own storage walk wrote, and it holds exactly
the slot differences of the account's two storage tries.
-/

/-- The storage tries of an account pair are well-formed and their walk meets no extension facing
a branch. -/
structure StorageWalkable (nodes : NodeStore) (accounts : Option Account × Option Account) :
    Prop where
  leftWellFormed : WellFormed nodes 64 (storageRootRef accounts.1)
  rightWellFormed : WellFormed nodes 64 (storageRootRef accounts.2)
  matched : ∀ call, Reaches nodes (storageRootRef accounts.1, storageRootRef accounts.2, []) call →
    ¬ ExtensionAgainstBranch nodes call.1 call.2.1

/-- `after` is `before` up to `_main_trie` and the slot map of `address`. -/
structure StateDiff.KeepsOtherSlots (address : Bytes) (before after : StateDiff) : Prop where
  nodes : after.nodes = before.nodes
  addressPreimages : after.addressPreimages = before.addressPreimages
  storageKeyPreimages : after.storageKeyPreimages = before.storageKeyPreimages
  others : ∀ a ≠ address, after.storageTries.get? a = before.storageTries.get? a

variable {rlp : RlpDecoding} {fuel : Nat} {s self self' : StateDiff} {address key a : Bytes}
  {value : Option Nat × Option Nat}

theorem StateDiff.KeepsOtherSlots.setStorage (keeps : KeepsOtherSlots address s self) :
    KeepsOtherSlots address s (self.setStorage address key value) :=
  ⟨keeps.nodes, keeps.addressPreimages, keeps.storageKeyPreimages, fun a other => by
    rw [get?_storageTries_setStorage, if_neg other, keeps.others a other]⟩

theorem processStorageDiff_writes :
    WritesDecoded (processStorageDiff rlp address) (StateDiff.slots address)
      StateDiff.storageKeyPreimages (decodeStorageValue rlp) := by
  intro path left right self self' ran
  obtain ⟨key, found, ran⟩ := bind_eq_ok.mp ran
  obtain ⟨leftDecoded, leftOk, ran⟩ := bind_eq_ok.mp ran
  obtain ⟨rightDecoded, rightOk, ran⟩ := bind_eq_ok.mp ran
  have written : self' = self.setStorage address key (leftDecoded, rightDecoded) := by
    rcases left with _ | _ <;> rcases right with _ | _ <;> (try cases pure_eq_ok.mp leftOk) <;>
      (try cases pure_eq_ok.mp rightOk) <;> exact (pure_eq_ok.mp ran).symm
  subst written
  exact ⟨key, (leftDecoded, rightDecoded), ⟨PyDict.getItem_eq_ok.mp found, leftOk, rightOk⟩,
    by rw [StateDiff.slots_setStorage, if_pos rfl], rfl⟩

theorem computeDiff_processStorageDiff_keeps {nodes : NodeStore} {l r : Ref} {path : Bytes}
    (ran : computeDiff nodes (processStorageDiff rlp address) fuel l r path self = .ok self')
    (keeps : StateDiff.KeepsOtherSlots address s self) : StateDiff.KeepsOtherSlots address s self' :=
  computeDiff_keeps (I := StateDiff.KeepsOtherSlots address s) (fun _ _ _ _ _ holds ran => by
    obtain ⟨_, _, rfl⟩ := processStorageDiff_eq_ok ran
    exact holds.setStorage) keeps ran

theorem processAccountDiff_keepsOtherSlots {k : Bytes} {left right : Option LeafNode}
    (ran : processAccountDiff rlp fuel k left right self = .ok self') :
    ∃ address accounts,
      DecodedEntry self.addressPreimages (accountFromRlp rlp) (k, left, right) address accounts ∧
      StateDiff.KeepsOtherSlots address self self' := by
  obtain ⟨address, accounts, entry, walked⟩ := processAccountDiff_walks ran
  exact ⟨address, accounts, entry,
    computeDiff_processStorageDiff_keeps walked ⟨rfl, rfl, rfl, fun _ _ => rfl⟩⟩

/-- Every address of `_storage_tries` has a slot: the handler creates the map of an address only
to write a slot into it. -/
def StateDiff.SlotsNonempty (diff : StateDiff) : Prop :=
  ∀ a ∈ diff.storageTries.keys, (diff.slots a).keys ≠ []

theorem StateDiff.SlotsNonempty.setStorage (nonempty : self.SlotsNonempty) :
    (self.setStorage address key value).SlotsNonempty := fun a member => by
  rw [slots_setStorage]
  split_ifs with same
  · exact List.ne_nil_of_mem (PyDict.mem_keys_setItem.mpr (.inl rfl))
  · rcases mem_keys_setStorage.mp member with rfl | member
    exacts [absurd rfl same, nonempty a member]

theorem fromTries_slotsNonempty {tries : EthereumTrieTransitionDB} {diff : StateDiff}
    (ran : fromTries rlp fuel tries = .ok diff) : diff.SlotsNonempty := by
  refine computeDiff_keeps (fun _ _ _ _ _ holds ran => ?_)
    (fun _ member => absurd member (List.not_mem_nil _)) ran
  obtain ⟨address, accounts, -, walked⟩ := processAccountDiff_walks ran
  refine computeDiff_keeps (I := StateDiff.SlotsNonempty) (fun _ _ _ _ _ holds ran => ?_) ?_ walked
  · obtain ⟨_, _, rfl⟩ := processStorageDiff_eq_ok ran
    exact holds.setStorage
  · exact holds

theorem StateDiff.SlotsNonempty.mem_iff (nonempty : self.SlotsNonempty) :
    address ∈ self.storageTries.keys ↔ (self.slots address).keys ≠ [] := by
  refine ⟨nonempty address, fun slotted => ?_⟩
  by_contra missing
  exact slotted (by rw [slots, PyDict.get?_eq_none_of_not_mem missing]; rfl)

theorem replay_slots_untouched {T : List LeafDiff}
    (untouched : ∀ t ∈ T, self.addressPreimages.get? t.1 ≠ some address)
    (ran : replay (processAccountDiff rlp fuel) T self = .ok self') :
    self'.storageTries.get? address = self.storageTries.get? address := by
  refine (foldlM_preserves (I := fun d : StateDiff => d.addressPreimages = self.addressPreimages ∧
    d.storageTries.get? address = self.storageTries.get? address)
    (fun t member d d' ⟨same, holds⟩ ran => ?_) ⟨rfl, rfl⟩ ran).2
  obtain ⟨a, accounts, entry, keeps⟩ := processAccountDiff_keepsOtherSlots ran
  refine ⟨keeps.addressPreimages.trans same, ?_⟩
  rw [keeps.others address fun other => untouched t member (by rw [← same, other]; exact entry.preimage),
    holds]

/-- The run lemma of `_storage_tries`: over a record whose keys are distinct, with one to one
address preimages, each account of the record ends with the slot map its own storage walk wrote
into an empty map. -/
theorem replay_storage_walk :
    ∀ {T : List LeafDiff} {self self' : StateDiff}, (T.map Prod.fst).Nodup →
      (∀ k k' a, self.addressPreimages.get? k = some a → self.addressPreimages.get? k' = some a →
        k = k') →
      (∀ t ∈ T, ∀ a, self.addressPreimages.get? t.1 = some a → a ∉ self.storageTries.keys) →
      replay (processAccountDiff rlp fuel) T self = .ok self' →
      ∀ t ∈ T, ∀ a accounts, DecodedEntry self.addressPreimages (accountFromRlp rlp) t a accounts →
        ∃ mid mid' : StateDiff, mid.storageKeyPreimages = self.storageKeyPreimages ∧
          mid.slots a = .empty ∧
          computeDiff self.nodes (processStorageDiff rlp a) fuel (storageRootRef accounts.1)
            (storageRootRef accounts.2) [] mid = .ok mid' ∧ self'.slots a = mid'.slots a
  | [], _, _, _, _, _, _, _, member, _, _, _ => absurd member (List.not_mem_nil _)
  | t :: T, self, self', nodup, oneToOne, fresh, ran, t', member, a, accounts, entry => by
      obtain ⟨next, first, rest⟩ := bind_eq_ok.mp ran
      obtain ⟨a₀, accounts₀, entry₀, walked⟩ := processAccountDiff_walks first
      have keeps : StateDiff.KeepsOtherSlots a₀ self next :=
        computeDiff_processStorageDiff_keeps walked ⟨rfl, rfl, rfl, fun _ _ => rfl⟩
      obtain ⟨notFirst, nodup⟩ := List.nodup_cons.mp nodup
      have others : ∀ t ∈ T, self.addressPreimages.get? t.1 ≠ some a₀ := fun t member found =>
        notFirst (List.mem_map.mpr ⟨t, member, oneToOne _ _ _ found entry₀.preimage⟩)
      rcases List.mem_cons.mp member with rfl | member
      · obtain ⟨rfl, rfl⟩ := entry.unique entry₀
        refine ⟨{ self with mainTrie := self.mainTrie.setItem a accounts }, next, rfl, ?_, walked, ?_⟩
        · show (self.storageTries.get? a).getD .empty = .empty
          rw [PyDict.get?_eq_none_of_not_mem (fresh _ (List.mem_cons_self _ _) a entry.preimage)]
          rfl
        · unfold StateDiff.slots
          rw [replay_slots_untouched (fun t member => by rw [keeps.addressPreimages]; exact others t member)
            rest]
      · have fresh' : ∀ t ∈ T, ∀ a, next.addressPreimages.get? t.1 = some a →
            a ∉ next.storageTries.keys := fun t member a found => by
          rw [keeps.addressPreimages] at found
          rw [PyDict.mem_keys_iff, keeps.others a fun same => others t member (same ▸ found),
            ← PyDict.mem_keys_iff]
          exact fresh t (List.mem_cons_of_mem _ member) a found
        obtain ⟨mid, mid', preimages, empty, walk, same⟩ := replay_storage_walk nodup
          (keeps.addressPreimages ▸ oneToOne) fresh' rest t' member a accounts
          (keeps.addressPreimages ▸ entry)
        exact ⟨mid, mid', preimages.trans keeps.storageKeyPreimages, empty, keeps.nodes ▸ walk, same⟩

theorem fromTries_storage_walk {tries : EthereumTrieTransitionDB} {diff : StateDiff}
    (leftWellFormed : WellFormed tries.nodes 64 (.bytes tries.stateRoot))
    (rightWellFormed : WellFormed tries.nodes 64 (.bytes tries.postStateRoot))
    (matched : ∀ call, Reaches tries.nodes (.bytes tries.stateRoot, .bytes tries.postStateRoot, [])
      call → ¬ ExtensionAgainstBranch tries.nodes call.1 call.2.1)
    (oneToOne : ∀ k k' address, tries.addressPreimages.get? k = some address →
      tries.addressPreimages.get? k' = some address → k = k')
    (walkable : ∀ s accounts, s.length = 64 → (∀ z ∈ s, z < 16) →
      valueAt tries.nodes (.bytes tries.stateRoot) s ≠
        valueAt tries.nodes (.bytes tries.postStateRoot) s →
      (valueAt tries.nodes (.bytes tries.stateRoot) s).mapM (accountFromRlp rlp) = .ok accounts.1 →
      (valueAt tries.nodes (.bytes tries.postStateRoot) s).mapM (accountFromRlp rlp) =
        .ok accounts.2 →
      StorageWalkable tries.nodes accounts)
    (ran : fromTries rlp fuel tries = .ok diff) :
    ∀ address accounts, diff.mainTrie.get? address = some accounts →
      StorageWalkable tries.nodes accounts ∧ ∃ mid mid' : StateDiff,
        mid.storageKeyPreimages = tries.storageKeyPreimages ∧ mid.slots address = .empty ∧
        computeDiff tries.nodes (processStorageDiff rlp address) fuel (storageRootRef accounts.1)
          (storageRootRef accounts.2) [] mid = .ok mid' ∧ diff.slots address = mid'.slots address := by
  intro address accounts found
  obtain ⟨T, reports, replayed⟩ :=
    computeDiff_replays_reports (by decide) leftWellFormed rightWellFormed matched ran
  rcases processAccountDiff_writes.replay_written replayed found with found | ⟨t, member, entry⟩
  · exact nomatch found
  obtain ⟨u, difference⟩ := reports.sound t member
  exact ⟨walkable u accounts difference.length difference.nibbles difference.differ
    (entry.decodes_valueAt difference).1 (entry.decodes_valueAt difference).2,
    replay_storage_walk reports.nodup oneToOne (fun _ _ _ _ => List.not_mem_nil _) replayed t member
      address accounts entry⟩

theorem fromTries_slot_records {tries : EthereumTrieTransitionDB} {diff : StateDiff}
    (leftWellFormed : WellFormed tries.nodes 64 (.bytes tries.stateRoot))
    (rightWellFormed : WellFormed tries.nodes 64 (.bytes tries.postStateRoot))
    (matched : ∀ call, Reaches tries.nodes (.bytes tries.stateRoot, .bytes tries.postStateRoot, [])
      call → ¬ ExtensionAgainstBranch tries.nodes call.1 call.2.1)
    (oneToOne : ∀ k k' address, tries.addressPreimages.get? k = some address →
      tries.addressPreimages.get? k' = some address → k = k')
    (slotsOneToOne : ∀ k k' key, tries.storageKeyPreimages.get? k = some key →
      tries.storageKeyPreimages.get? k' = some key → k = k')
    (walkable : ∀ s accounts, s.length = 64 → (∀ z ∈ s, z < 16) →
      valueAt tries.nodes (.bytes tries.stateRoot) s ≠
        valueAt tries.nodes (.bytes tries.postStateRoot) s →
      (valueAt tries.nodes (.bytes tries.stateRoot) s).mapM (accountFromRlp rlp) = .ok accounts.1 →
      (valueAt tries.nodes (.bytes tries.postStateRoot) s).mapM (accountFromRlp rlp) =
        .ok accounts.2 →
      StorageWalkable tries.nodes accounts)
    (ran : fromTries rlp fuel tries = .ok diff) :
    ∀ address accounts, diff.mainTrie.get? address = some accounts →
      RecordsDifferences tries.nodes 64 (storageRootRef accounts.1) (storageRootRef accounts.2)
        tries.storageKeyPreimages (decodeStorageValue rlp) (diff.slots address) := by
  intro address accounts found
  obtain ⟨walk, mid, mid', preimages, empty, walked, same⟩ := fromTries_storage_walk leftWellFormed
    rightWellFormed matched oneToOne walkable ran address accounts found
  rw [same, ← preimages]
  exact processStorageDiff_writes.records walked (by decide) walk.leftWellFormed
    walk.rightWellFormed walk.matched (preimages ▸ slotsOneToOne) (by rw [empty]; rfl)

/-- On a run of `from_tries` that returns normally over two well-formed state tries and meets no
extension facing a branch, with one to one preimages of addresses and of slot keys, and storage
tries of each changed account that are well-formed and meet no extension facing a branch, each
address of `_main_trie` has as slot map exactly the slot differences of the storage tries of its
two accounts, and it is in `_storage_tries` exactly when some slot differs. -/
theorem fromTries_storage_diffs {tries : EthereumTrieTransitionDB} {diff : StateDiff}
    (leftWellFormed : WellFormed tries.nodes 64 (.bytes tries.stateRoot))
    (rightWellFormed : WellFormed tries.nodes 64 (.bytes tries.postStateRoot))
    (matched : ∀ call, Reaches tries.nodes (.bytes tries.stateRoot, .bytes tries.postStateRoot, [])
      call → ¬ ExtensionAgainstBranch tries.nodes call.1 call.2.1)
    (oneToOne : ∀ k k' address, tries.addressPreimages.get? k = some address →
      tries.addressPreimages.get? k' = some address → k = k')
    (slotsOneToOne : ∀ k k' key, tries.storageKeyPreimages.get? k = some key →
      tries.storageKeyPreimages.get? k' = some key → k = k')
    (walkable : ∀ s accounts, s.length = 64 → (∀ z ∈ s, z < 16) →
      valueAt tries.nodes (.bytes tries.stateRoot) s ≠
        valueAt tries.nodes (.bytes tries.postStateRoot) s →
      (valueAt tries.nodes (.bytes tries.stateRoot) s).mapM (accountFromRlp rlp) = .ok accounts.1 →
      (valueAt tries.nodes (.bytes tries.postStateRoot) s).mapM (accountFromRlp rlp) =
        .ok accounts.2 →
      StorageWalkable tries.nodes accounts)
    (ran : fromTries rlp fuel tries = .ok diff) :
    ∀ address accounts, diff.mainTrie.get? address = some accounts →
      RecordsDifferences tries.nodes 64 (storageRootRef accounts.1) (storageRootRef accounts.2)
        tries.storageKeyPreimages (decodeStorageValue rlp) (diff.slots address) ∧
      (address ∈ diff.storageTries.keys ↔ ∃ u, u.length = 64 ∧ (∀ z ∈ u, z < 16) ∧
        valueAt tries.nodes (storageRootRef accounts.1) u ≠
          valueAt tries.nodes (storageRootRef accounts.2) u) := by
  intro address accounts found
  have records := fromTries_slot_records leftWellFormed rightWellFormed matched oneToOne
    slotsOneToOne walkable ran address accounts found
  refine ⟨records, (fromTries_slotsNonempty ran).mem_iff.trans ⟨fun slotted => ?_, ?_⟩⟩
  · obtain ⟨key, member⟩ := List.exists_mem_of_ne_nil _ slotted
    obtain ⟨u, length, nibbles, differ, -⟩ := records.sound key member
    exact ⟨u, length, nibbles, differ⟩
  · rintro ⟨u, length, nibbles, differ⟩
    obtain ⟨key, values, -, found, -⟩ := records.complete u length nibbles differ
    exact List.ne_nil_of_mem (PyDict.mem_keys_of_get? found)

theorem slotStore_storageWalkable {c c' r r' : UInt8} (root : r ∈ [30, 31, 32])
    (root' : r' ∈ [30, 31, 32]) :
    StorageWalkable slotStore (some ⟨0, 0, nodeHash c, nodeHash r⟩, some ⟨0, 0, nodeHash c', nodeHash r'⟩) :=
  ⟨slotStore_storage_wellFormed root, slotStore_storage_wellFormed root',
    (slotStore_extensionFree (List.mem_cons_of_mem _ (List.mem_cons_of_mem _ root))).reaches⟩

theorem slotTries_matched : ∀ call, Reaches slotTries.nodes
    (.bytes slotTries.stateRoot, .bytes slotTries.postStateRoot, []) call →
      ¬ ExtensionAgainstBranch slotTries.nodes call.1 call.2.1 :=
  (slotStore_extensionFree (by decide)).reaches

/-- The keys and the value pairs at which the state tries of slotTries differ. -/
theorem slotTries_differ {s : Bytes} (length : s.length = 64) (nibbles : ∀ z ∈ s, z < 16)
    (differ : valueAt slotStore (.bytes (nodeHash 20)) s ≠ valueAt slotStore (.bytes (nodeHash 24)) s) :
    (nibbleListToBytes s = nibbleListToBytes (accountKey 1) ∨
      nibbleListToBytes s = nibbleListToBytes (accountKey 4)) ∧
    (valueAt slotStore (.bytes (nodeHash 20)) s = some [1, 30] ∧
        valueAt slotStore (.bytes (nodeHash 24)) s = some [1, 31] ∨
      valueAt slotStore (.bytes (nodeHash 20)) s = some [2, 32] ∧
        valueAt slotStore (.bytes (nodeHash 24)) s = some [3, 32]) := by
  obtain ⟨t, member, key, leftValue, rightValue⟩ := (computeDiff_reports_differences
    slotStore_wellFormed.1 slotStore_wellFormed.2.1 rfl slotTries_matched
    slotTries_recorded).entry_of_differ rfl length nibbles differ
  rw [← key, ← leftValue, ← rightValue]
  simp only [List.mem_cons, List.mem_singleton, List.not_mem_nil, or_false] at member
  rcases member with rfl | rfl <;> decide

/-- The accounts of slotTries read at a key where its state tries differ, either way, have
walkable storage tries. -/
theorem slotTries_walkable {L R : UInt8} (roots : (L, R) = (20, 24) ∨ (L, R) = (24, 20))
    {s : Bytes} {accounts : Option Account × Option Account} (length : s.length = 64)
    (nibbles : ∀ z ∈ s, z < 16)
    (differ : valueAt slotStore (.bytes (nodeHash L)) s ≠ valueAt slotStore (.bytes (nodeHash R)) s)
    (left : (valueAt slotStore (.bytes (nodeHash L)) s).mapM (accountFromRlp slotAccounts) = .ok accounts.1)
    (right : (valueAt slotStore (.bytes (nodeHash R)) s).mapM (accountFromRlp slotAccounts) = .ok accounts.2) :
    StorageWalkable slotStore accounts := by
  obtain ⟨a, a'⟩ := accounts
  rcases roots with same | same <;> obtain ⟨rfl, rfl⟩ := Prod.mk.inj same
  · rcases (slotTries_differ length nibbles differ).2 with ⟨stored, stored'⟩ | ⟨stored, stored'⟩ <;>
      rw [stored] at left <;> rw [stored'] at right <;>
      cases Except.ok.inj left <;> cases Except.ok.inj right <;>
      exact slotStore_storageWalkable (by decide) (by decide)
  · rcases (slotTries_differ length nibbles (Ne.symm differ)).2 with ⟨stored', stored⟩ | ⟨stored', stored⟩ <;>
      rw [stored] at left <;> rw [stored'] at right <;>
      cases Except.ok.inj left <;> cases Except.ok.inj right <;>
      exact slotStore_storageWalkable (by decide) (by decide)

theorem slotTries_storageWalkable : ∀ s accounts, s.length = 64 → (∀ z ∈ s, z < 16) →
    valueAt slotTries.nodes (.bytes slotTries.stateRoot) s ≠
      valueAt slotTries.nodes (.bytes slotTries.postStateRoot) s →
    (valueAt slotTries.nodes (.bytes slotTries.stateRoot) s).mapM
      (accountFromRlp slotAccounts) = .ok accounts.1 →
    (valueAt slotTries.nodes (.bytes slotTries.postStateRoot) s).mapM
      (accountFromRlp slotAccounts) = .ok accounts.2 →
    StorageWalkable slotTries.nodes accounts :=
  fun _ _ length nibbles => slotTries_walkable (.inl rfl) length nibbles

set_option maxRecDepth 4000 in
theorem slotTries_storage_diffs :
    WellFormed slotTries.nodes 64 (.bytes slotTries.stateRoot) ∧
    WellFormed slotTries.nodes 64 (.bytes slotTries.postStateRoot) ∧
    (∀ call, Reaches slotTries.nodes
      (.bytes slotTries.stateRoot, .bytes slotTries.postStateRoot, []) call →
        ¬ ExtensionAgainstBranch slotTries.nodes call.1 call.2.1) ∧
    (∀ k k' address, slotTries.addressPreimages.get? k = some address →
      slotTries.addressPreimages.get? k' = some address → k = k') ∧
    (∀ k k' key, slotTries.storageKeyPreimages.get? k = some key →
      slotTries.storageKeyPreimages.get? k' = some key → k = k') ∧
    (∀ s accounts, s.length = 64 → (∀ z ∈ s, z < 16) →
      valueAt slotTries.nodes (.bytes slotTries.stateRoot) s ≠
        valueAt slotTries.nodes (.bytes slotTries.postStateRoot) s →
      (valueAt slotTries.nodes (.bytes slotTries.stateRoot) s).mapM
        (accountFromRlp slotAccounts) = .ok accounts.1 →
      (valueAt slotTries.nodes (.bytes slotTries.postStateRoot) s).mapM
        (accountFromRlp slotAccounts) = .ok accounts.2 →
      StorageWalkable slotTries.nodes accounts) ∧
    ∃ diff, fromTries slotAccounts 65 slotTries = .ok diff ∧
      (diff.slots (List.replicate 20 1)).keys =
        [List.replicate 32 2, List.replicate 32 3, List.replicate 32 4] ∧
      ∀ address accounts, diff.mainTrie.get? address = some accounts →
        RecordsDifferences slotTries.nodes 64 (storageRootRef accounts.1)
          (storageRootRef accounts.2) slotTries.storageKeyPreimages
          (decodeStorageValue slotAccounts) (diff.slots address) ∧
        (address ∈ diff.storageTries.keys ↔ ∃ u, u.length = 64 ∧ (∀ z ∈ u, z < 16) ∧
          valueAt slotTries.nodes (storageRootRef accounts.1) u ≠
            valueAt slotTries.nodes (storageRootRef accounts.2) u) :=
  have ran : fromTries slotAccounts 65 slotTries = .ok _ := rfl
  ⟨slotStore_wellFormed.1, slotStore_wellFormed.2.1, slotTries_matched, slotTries_oneToOne,
    slotTries_slotsOneToOne, slotTries_storageWalkable,
    _, ran, by decide, fromTries_storage_diffs slotStore_wellFormed.1 slotStore_wellFormed.2.1
      slotTries_matched slotTries_oneToOne slotTries_slotsOneToOne
      slotTries_storageWalkable ran⟩

theorem slotAccounts_accountFromRlp {v : Bytes} {account : Account}
    (found : accountFromRlp slotAccounts v = .ok account) :
    ∃ code root, v = [code, root] ∧ account = ⟨0, 0, nodeHash code, nodeHash root⟩ := by
  rcases v with _ | ⟨code, _ | ⟨root, _ | _⟩⟩
  · exact nomatch found
  · exact nomatch found
  · exact ⟨code, root, rfl, (Except.ok.inj found).symm⟩
  · exact nomatch found

/-- The accumulators' insertion order is the walker's order: `_main_trie` gains the addresses of
the leaf pairs in the order `_compute_diff` hands them to the account handler, and the slot map of
each address gains its slot keys in the order the storage walk of its accounts hands them on. -/
theorem fromTries_insertion_order {tries : EthereumTrieTransitionDB} {diff : StateDiff}
    (leftWellFormed : WellFormed tries.nodes 64 (.bytes tries.stateRoot))
    (rightWellFormed : WellFormed tries.nodes 64 (.bytes tries.postStateRoot))
    (matched : ∀ call, Reaches tries.nodes (.bytes tries.stateRoot, .bytes tries.postStateRoot, [])
      call → ¬ ExtensionAgainstBranch tries.nodes call.1 call.2.1)
    (oneToOne : ∀ k k' address, tries.addressPreimages.get? k = some address →
      tries.addressPreimages.get? k' = some address → k = k')
    (slotsOneToOne : ∀ k k' key, tries.storageKeyPreimages.get? k = some key →
      tries.storageKeyPreimages.get? k' = some key → k = k')
    (walkable : ∀ s accounts, s.length = 64 → (∀ z ∈ s, z < 16) →
      valueAt tries.nodes (.bytes tries.stateRoot) s ≠
        valueAt tries.nodes (.bytes tries.postStateRoot) s →
      (valueAt tries.nodes (.bytes tries.stateRoot) s).mapM (accountFromRlp rlp) = .ok accounts.1 →
      (valueAt tries.nodes (.bytes tries.postStateRoot) s).mapM (accountFromRlp rlp) =
        .ok accounts.2 →
      StorageWalkable tries.nodes accounts)
    (ran : fromTries rlp fuel tries = .ok diff) :
    (∃ T, computeDiff tries.nodes recordLeafDiff fuel (.bytes tries.stateRoot)
        (.bytes tries.postStateRoot) [] [] = .ok T ∧
      diff.mainTrie.keys = T.filterMap fun t => tries.addressPreimages.get? t.1) ∧
    ∀ address accounts, diff.mainTrie.get? address = some accounts →
      ∃ T, computeDiff tries.nodes recordLeafDiff fuel (storageRootRef accounts.1)
          (storageRootRef accounts.2) [] [] = .ok T ∧
        (diff.slots address).keys = T.filterMap fun t => tries.storageKeyPreimages.get? t.1 := by
  refine ⟨?_, fun address accounts found => ?_⟩
  · obtain ⟨T, recorded⟩ := computeDiff_recorded_of_ok ran []
    have ⟨reports, replays⟩ :=
      computeDiff_eq_replay_reports (by decide) leftWellFormed rightWellFormed matched recorded
    exact ⟨T, recorded, processAccountDiff_writes.replay_keys reports.nodup oneToOne
      (fun _ _ _ _ => List.not_mem_nil _) ((replays _ _).symm.trans ran)⟩
  · obtain ⟨walk, mid, mid', preimages, empty, walked, same⟩ := fromTries_storage_walk
      leftWellFormed rightWellFormed matched oneToOne walkable ran address accounts found
    obtain ⟨T, recorded⟩ := computeDiff_recorded_of_ok walked []
    have ⟨reports, replays⟩ := computeDiff_eq_replay_reports (by decide) walk.leftWellFormed
      walk.rightWellFormed walk.matched recorded
    have ordered := processStorageDiff_writes.replay_keys reports.nodup
      (preimages ▸ slotsOneToOne) (fun _ _ _ _ => by rw [empty]; exact List.not_mem_nil _)
      ((replays _ _).symm.trans walked)
    rw [empty, preimages] at ordered
    refine ⟨T, recorded, ?_⟩
    rw [same, ordered]
    rfl

set_option maxRecDepth 4000 in
theorem slotTries_insertion_order :
    WellFormed slotTries.nodes 64 (.bytes slotTries.stateRoot) ∧
    WellFormed slotTries.nodes 64 (.bytes slotTries.postStateRoot) ∧
    (∀ call, Reaches slotTries.nodes
      (.bytes slotTries.stateRoot, .bytes slotTries.postStateRoot, []) call →
        ¬ ExtensionAgainstBranch slotTries.nodes call.1 call.2.1) ∧
    (∀ k k' address, slotTries.addressPreimages.get? k = some address →
      slotTries.addressPreimages.get? k' = some address → k = k') ∧
    (∀ k k' key, slotTries.storageKeyPreimages.get? k = some key →
      slotTries.storageKeyPreimages.get? k' = some key → k = k') ∧
    (∀ s accounts, s.length = 64 → (∀ z ∈ s, z < 16) →
      valueAt slotTries.nodes (.bytes slotTries.stateRoot) s ≠
        valueAt slotTries.nodes (.bytes slotTries.postStateRoot) s →
      (valueAt slotTries.nodes (.bytes slotTries.stateRoot) s).mapM
        (accountFromRlp slotAccounts) = .ok accounts.1 →
      (valueAt slotTries.nodes (.bytes slotTries.postStateRoot) s).mapM
        (accountFromRlp slotAccounts) = .ok accounts.2 →
      StorageWalkable slotTries.nodes accounts) ∧
    ∃ diff, fromTries slotAccounts 65 slotTries = .ok diff ∧
      diff.mainTrie.keys = [List.replicate 20 1, List.replicate 20 4] ∧
      (diff.slots (List.replicate 20 1)).keys =
        [List.replicate 32 2, List.replicate 32 3, List.replicate 32 4] ∧
      (∃ T, computeDiff slotTries.nodes recordLeafDiff 65 (.bytes slotTries.stateRoot)
          (.bytes slotTries.postStateRoot) [] [] = .ok T ∧
        diff.mainTrie.keys = T.filterMap fun t => slotTries.addressPreimages.get? t.1) ∧
      ∀ address accounts, diff.mainTrie.get? address = some accounts →
        ∃ T, computeDiff slotTries.nodes recordLeafDiff 65 (storageRootRef accounts.1)
            (storageRootRef accounts.2) [] [] = .ok T ∧
          (diff.slots address).keys =
            T.filterMap fun t => slotTries.storageKeyPreimages.get? t.1 :=
  have ran : fromTries slotAccounts 65 slotTries = .ok _ := rfl
  ⟨slotStore_wellFormed.1, slotStore_wellFormed.2.1, slotTries_matched, slotTries_oneToOne,
    slotTries_slotsOneToOne, slotTries_storageWalkable,
    _, ran, by decide, by decide, fromTries_insertion_order slotStore_wellFormed.1
      slotStore_wellFormed.2.1 slotTries_matched slotTries_oneToOne slotTries_slotsOneToOne
      slotTries_storageWalkable ran⟩

end MptDiff
