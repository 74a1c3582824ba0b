import MptDiff.StateDiff.Returns
import MptDiff.Walk.FastPath
import MptDiff.Walk.Hands

namespace MptDiff

/-! # What `from_tries` records, whatever the shapes

On every run over well-formed tries, complete or not, `from_tries` records only what the tries
store, once per key and in the walk's order; the storage hypothesis ranges over the accounts
the state tries store, not over every payload.
-/

/-- The decoded pair `values` was read at the 64-nibble key `s` of two tries: each side present
is the decoding of what its trie stores at `s`, and not both sides are absent. -/
structure ReadAt {α : Type} (nodes : NodeStore) (left right : Ref)
    (decode : Bytes → Except PyError α) (s : Bytes) (values : Option α × Option α) : Prop where
  length : s.length = 64
  leftRead : ∀ x, values.1 = some x → ∃ v, valueAt nodes left s = some v ∧ decode v = .ok x
  rightRead : ∀ y, values.2 = some y → ∃ v, valueAt nodes right s = some v ∧ decode v = .ok y
  present : values ≠ (none, none)

section Reads

variable {σ α : Type} {nodes : NodeStore} {L R : Ref} {decode : Bytes → Except PyError α}

theorem decoded_of_stored {side : Option LeafNode} {value : Option α} {ref : Ref} {s : Bytes}
    (decoded : side.mapM (fun leaf => decode leaf.value) = .ok value)
    (stored : ∀ l, side = some l → valueAt nodes ref s = some l.value) :
    ∀ x, value = some x → ∃ v, valueAt nodes ref s = some v ∧ decode v = .ok x := by
  intro x present
  rcases side with _ | l
  · exact nomatch (Except.ok.inj decoded).trans present
  obtain ⟨y, first, rfl⟩ := optionMapM_some_eq_ok decoded
  cases Option.some.inj present
  exact ⟨l.value, stored l rfl, first⟩

theorem DecodedEntry.readAt {preimages : PyDict Bytes Bytes} {t : LeafDiff} {key s : Bytes}
    {values : Option α × Option α} (entry : DecodedEntry preimages decode t key values)
    (handed : Handed nodes 64 L R s t) :
    preimages.get? (nibbleListToBytes s) = some key ∧ ReadAt nodes L R decode s values := by
  refine ⟨handed.key ▸ entry.preimage, handed.length,
    decoded_of_stored entry.leftDecoded handed.leftStored,
    decoded_of_stored entry.rightDecoded handed.rightStored, fun absent => handed.differ ?_⟩
  have leftDecoded := entry.leftDecoded
  have rightDecoded := entry.rightDecoded
  rw [absent] at leftDecoded rightDecoded
  rcases t with ⟨_, _ | _, _ | _⟩
  · rfl
  all_goals first
    | exact nomatch (optionMapM_some_eq_ok leftDecoded).choose_spec.2
    | exact nomatch (optionMapM_some_eq_ok rightDecoded).choose_spec.2

variable {process : LeafDiffHandler σ} {view : σ → PyDict Bytes (Option α × Option α)}
  {preimages : σ → PyDict Bytes Bytes}

/-- The run lemma of a writing handler, whatever shapes the walk meets: a property of the dict's
entries that every pair read from the two tries, under the preimage of its key, has is kept. -/
theorem WritesDecoded.reads (writes : WritesDecoded process view preimages decode) {fuel : Nat}
    {s s' : σ} {P : Bytes → Option α × Option α → Prop}
    (ran : computeDiff nodes process fuel L R [] s = .ok s')
    (leftWellFormed : WellFormed nodes 64 L) (rightWellFormed : WellFormed nodes 64 R)
    (read : ∀ u key values, (preimages s).get? (nibbleListToBytes u) = some key →
      ReadAt nodes L R decode u values → P key values)
    (holds : ∀ key values, (view s).get? key = some values → P key values) :
    ∀ key values, (view s').get? key = some values → P key values := by
  refine (computeDiff_preserves_handed (I := fun d => preimages d = preimages s ∧
    ∀ key values, (view d).get? key = some values → P key values) leftWellFormed rightWellFormed
    ran (fun key x y d d' ⟨u, handed⟩ ⟨same, holds⟩ ran => ?_) ⟨rfl, holds⟩).2
  obtain ⟨k, values, entry, written, kept⟩ := writes _ _ _ _ _ ran
  refine ⟨kept.trans same, fun key' values' found => ?_⟩
  rw [written, PyDict.get?_setItem] at found
  split_ifs at found with here
  · cases Option.some.inj found
    subst here
    obtain ⟨preimage, readAt⟩ := entry.readAt handed
    exact read u _ _ (same ▸ preimage) readAt
  · exact holds key' values' found

theorem WritesDecoded.replays_record (writes : WritesDecoded process view preimages decode)
    {fuel : Nat} {s s' : σ} (ran : computeDiff nodes process fuel L R [] s = .ok s')
    (leftWellFormed : WellFormed nodes 64 L) (rightWellFormed : WellFormed nodes 64 R)
    (oneToOne : ∀ k k' key, (preimages s).get? k = some key → (preimages s).get? k' = some key →
      k = k')
    (empty : (view s).keys = []) :
    ∃ T, computeDiff nodes recordLeafDiff fuel L R [] [] = .ok T ∧
      (view s').keys = T.filterMap (fun t => (preimages s).get? t.1) ∧
      ∀ t ∈ T, ∃ key values, DecodedEntry (preimages s) decode t key values ∧
        (view s').get? key = some values := by
  obtain ⟨T, recorded⟩ := computeDiff_recorded_of_ok ran []
  rw [List.nil_append] at recorded
  obtain ⟨T', appended, replays⟩ := computeDiff_eq_replay recorded
  obtain rfl : T = T' := appended
  have nodup := recorded_nodup leftWellFormed rightWellFormed recorded
  have replayed := (replays process s).symm.trans ran
  refine ⟨T, recorded, ?_, writes.replay_entries nodup oneToOne replayed⟩
  rw [writes.replay_keys nodup oneToOne (fun _ _ _ _ => by rw [empty]; exact List.not_mem_nil _)
    replayed, empty, List.nil_append]

end Reads

/-- Every slot of every slot map of `diff` was read, under the preimage of its key, from the
storage tries of an account pair read from `L` and `R` under the preimage of its address. -/
def SlotsRead (nodes : NodeStore) (L R : Ref) (rlp : RlpDecoding)
    (addressPreimages storageKeyPreimages : PyDict Bytes Bytes) (diff : StateDiff) : Prop :=
  ∀ address key values, (diff.slots address).get? key = some values → ∃ s accounts u,
    addressPreimages.get? (nibbleListToBytes s) = some address ∧
    ReadAt nodes L R (accountFromRlp rlp) s accounts ∧
    storageKeyPreimages.get? (nibbleListToBytes u) = some key ∧
    ReadAt nodes (storageRootRef accounts.1) (storageRootRef accounts.2) (decodeStorageValue rlp) u
      values

variable {rlp : RlpDecoding} {fuel : Nat} {nodes : NodeStore} {L R : Ref}

theorem processAccountDiff_slotsRead {addressPreimages storageKeyPreimages : PyDict Bytes Bytes}
    {key : Bytes} {x y : Option LeafNode} {self self' : StateDiff}
    (storageWellFormed : StorageWellFormed rlp nodes L R)
    (same : self.nodes = nodes ∧ self.addressPreimages = addressPreimages ∧
      self.storageKeyPreimages = storageKeyPreimages)
    (handed : ∃ u, Handed nodes 64 L R u (key, x, y))
    (holds : SlotsRead nodes L R rlp addressPreimages storageKeyPreimages self)
    (ran : processAccountDiff rlp fuel key x y self = .ok self') :
    (self'.nodes = nodes ∧ self'.addressPreimages = addressPreimages ∧
      self'.storageKeyPreimages = storageKeyPreimages) ∧
    SlotsRead nodes L R rlp addressPreimages storageKeyPreimages self' := by
  obtain ⟨rfl, rfl, rfl⟩ := same
  obtain ⟨s, handed⟩ := handed
  obtain ⟨address, accounts, entry, walked⟩ := processAccountDiff_walks ran
  obtain ⟨preimage, readAt⟩ := entry.readAt handed
  have ⟨leftStorage, rightStorage⟩ := storageWellFormed.handed handed
  have keeps := computeDiff_processStorageDiff_keeps walked ⟨rfl, rfl, rfl, fun _ _ => rfl⟩
  refine ⟨⟨keeps.nodes, keeps.addressPreimages, keeps.storageKeyPreimages⟩,
    fun a k v found => ?_⟩
  by_cases other : a = address
  · subst other
    exact processStorageDiff_writes.reads walked (P := fun k v => ∃ s accounts u,
      self.addressPreimages.get? (nibbleListToBytes s) = some a ∧
      ReadAt self.nodes L R (accountFromRlp rlp) s accounts ∧
      self.storageKeyPreimages.get? (nibbleListToBytes u) = some k ∧
      ReadAt self.nodes (storageRootRef accounts.1) (storageRootRef accounts.2)
        (decodeStorageValue rlp) u v)
      (leftStorage _ entry.leftDecoded) (rightStorage _ entry.rightDecoded)
      (fun u k v slotPreimage slotRead => ⟨s, accounts, u, preimage, readAt, slotPreimage, slotRead⟩)
      (holds a) k v found
  · rw [StateDiff.slots, keeps.others a other] at found
    exact holds a k v found

/-- Whatever shapes two well-formed state tries have, a run of `from_tries` that returns records
nothing they do not store: each entry of `_main_trie` is an account pair read, under the preimage
of its address, from what the two state tries store; and each slot of a slot map is a value pair
read, under the preimage of its key, from what the storage tries of such an account pair of its
address store.  No entry has both sides absent. -/
theorem fromTries_reads_stored {tries : EthereumTrieTransitionDB} {diff : StateDiff}
    (leftWellFormed : WellFormed tries.nodes 64 (.bytes tries.stateRoot))
    (rightWellFormed : WellFormed tries.nodes 64 (.bytes tries.postStateRoot))
    (storageWellFormed : StorageWellFormed rlp tries.nodes (.bytes tries.stateRoot)
      (.bytes tries.postStateRoot))
    (ran : fromTries rlp fuel tries = .ok diff) :
    (∀ address accounts, diff.mainTrie.get? address = some accounts → ∃ s,
      tries.addressPreimages.get? (nibbleListToBytes s) = some address ∧
      ReadAt tries.nodes (.bytes tries.stateRoot) (.bytes tries.postStateRoot) (accountFromRlp rlp) s
        accounts) ∧
    ∀ address key values, (diff.slots address).get? key = some values → ∃ s accounts u,
      tries.addressPreimages.get? (nibbleListToBytes s) = some address ∧
      ReadAt tries.nodes (.bytes tries.stateRoot) (.bytes tries.postStateRoot) (accountFromRlp rlp) s
        accounts ∧
      tries.storageKeyPreimages.get? (nibbleListToBytes u) = some key ∧
      ReadAt tries.nodes (storageRootRef accounts.1) (storageRootRef accounts.2)
        (decodeStorageValue rlp) u values := by
  refine ⟨processAccountDiff_writes.reads ran leftWellFormed rightWellFormed
    (fun s _ _ preimage readAt => ⟨s, preimage, readAt⟩)
    (fun _ _ found => nomatch PyDict.get?_empty.symm.trans found), ?_⟩
  exact (computeDiff_preserves_handed (I := fun d : StateDiff =>
    (d.nodes = tries.nodes ∧ d.addressPreimages = tries.addressPreimages ∧
      d.storageKeyPreimages = tries.storageKeyPreimages) ∧
    SlotsRead tries.nodes (.bytes tries.stateRoot) (.bytes tries.postStateRoot) rlp
      tries.addressPreimages tries.storageKeyPreimages d) leftWellFormed rightWellFormed ran
    (fun _ _ _ _ _ handed ⟨same, holds⟩ ran =>
      processAccountDiff_slotsRead storageWellFormed same handed holds ran)
    ⟨⟨rfl, rfl, rfl⟩, fun _ _ _ found => nomatch PyDict.get?_empty.symm.trans found⟩).2

theorem fromTries_storage_walk_wellFormed {tries : EthereumTrieTransitionDB} {diff : StateDiff}
    (leftWellFormed : WellFormed tries.nodes 64 (.bytes tries.stateRoot))
    (rightWellFormed : WellFormed tries.nodes 64 (.bytes tries.postStateRoot))
    (oneToOne : ∀ k k' address, tries.addressPreimages.get? k = some address →
      tries.addressPreimages.get? k' = some address → k = k')
    (ran : fromTries rlp fuel tries = .ok diff) {address : Bytes}
    {accounts : Option Account × Option Account} (found : diff.mainTrie.get? address = some accounts) :
    (∃ t s, Handed tries.nodes 64 (.bytes tries.stateRoot) (.bytes tries.postStateRoot) s t ∧
      DecodedEntry tries.addressPreimages (accountFromRlp rlp) t address accounts) ∧
      ∃ mid mid' : StateDiff, mid.storageKeyPreimages = tries.storageKeyPreimages ∧
        mid.slots address = .empty ∧
        computeDiff tries.nodes (processStorageDiff rlp address) fuel (storageRootRef accounts.1)
          (storageRootRef accounts.2) [] mid = .ok mid' ∧ diff.slots address = mid'.slots address := by
  obtain ⟨T, recorded⟩ := computeDiff_recorded_of_ok ran []
  rw [List.nil_append] at recorded
  obtain ⟨T', appended, replays⟩ := computeDiff_eq_replay recorded
  obtain rfl : T = T' := appended
  have replayed := (replays _ _).symm.trans ran
  rcases processAccountDiff_writes.replay_written replayed found with found | ⟨t, member, entry⟩
  · exact nomatch PyDict.get?_empty.symm.trans found
  obtain ⟨s, handed⟩ := recorded_handed leftWellFormed rightWellFormed recorded t member
  exact ⟨⟨t, s, handed, entry⟩, replay_storage_walk (recorded_nodup leftWellFormed rightWellFormed recorded)
    oneToOne (fun _ _ _ _ => List.not_mem_nil _) replayed t member address accounts entry⟩

/-- Whatever shapes two well-formed state tries have, on a run of `from_tries` that returns with
one to one preimages the accumulators are exact images of the walks' records: `_main_trie` holds,
in the order of the account walk's handler calls, one entry per call, the decoded pair under the
preimage of its key, none lost or overwritten; and the slot map of each of its addresses is the
same image of the record of the storage walk of its account pair. -/
theorem fromTries_replays_calls {tries : EthereumTrieTransitionDB} {diff : StateDiff}
    (leftWellFormed : WellFormed tries.nodes 64 (.bytes tries.stateRoot))
    (rightWellFormed : WellFormed tries.nodes 64 (.bytes tries.postStateRoot))
    (storageWellFormed : StorageWellFormed rlp tries.nodes (.bytes tries.stateRoot)
      (.bytes tries.postStateRoot))
    (oneToOne : ∀ k k' address, tries.addressPreimages.get? k = some address →
      tries.addressPreimages.get? k' = some address → k = k')
    (slotsOneToOne : ∀ k k' key, tries.storageKeyPreimages.get? k = some key →
      tries.storageKeyPreimages.get? k' = some key → k = k')
    (ran : fromTries rlp fuel tries = .ok diff) :
    (∃ T, computeDiff tries.nodes recordLeafDiff fuel (.bytes tries.stateRoot)
        (.bytes tries.postStateRoot) [] [] = .ok T ∧
      diff.mainTrie.keys = T.filterMap (fun t => tries.addressPreimages.get? t.1) ∧
      ∀ t ∈ T, ∃ address accounts,
        DecodedEntry tries.addressPreimages (accountFromRlp rlp) t address accounts ∧
        diff.mainTrie.get? address = some accounts) ∧
    ∀ address accounts, diff.mainTrie.get? address = some accounts →
      ∃ T, computeDiff tries.nodes recordLeafDiff fuel (storageRootRef accounts.1)
          (storageRootRef accounts.2) [] [] = .ok T ∧
        (diff.slots address).keys = T.filterMap (fun t => tries.storageKeyPreimages.get? t.1) ∧
        ∀ t ∈ T, ∃ key values,
          DecodedEntry tries.storageKeyPreimages (decodeStorageValue rlp) t key values ∧
          (diff.slots address).get? key = some values := by
  refine ⟨processAccountDiff_writes.replays_record ran leftWellFormed rightWellFormed oneToOne rfl,
    fun address accounts found => ?_⟩
  obtain ⟨⟨t, s, handed, entry⟩, mid, mid', preimages, empty, walked, same⟩ :=
    fromTries_storage_walk_wellFormed leftWellFormed rightWellFormed oneToOne ran found
  have ⟨leftStorage, rightStorage⟩ := storageWellFormed.handed handed
  obtain ⟨T', recorded', keys, entries⟩ := processStorageDiff_writes.replays_record walked
    (leftStorage _ entry.leftDecoded) (rightStorage _ entry.rightDecoded)
    (preimages ▸ slotsOneToOne) (by rw [empty]; rfl)
  rw [preimages] at keys entries
  rw [same]
  exact ⟨T', recorded', keys, entries⟩

set_option maxRecDepth 4000 in
theorem slotTries_reads_stored :
    WellFormed slotTries.nodes 64 (.bytes slotTries.stateRoot) ∧
    WellFormed slotTries.nodes 64 (.bytes slotTries.postStateRoot) ∧
    StorageWellFormed slotAccounts slotTries.nodes (.bytes slotTries.stateRoot)
      (.bytes slotTries.postStateRoot) ∧
    ∃ diff, fromTries slotAccounts 65 slotTries = .ok diff ∧
      (diff.slots (List.replicate 20 1)).get? (List.replicate 32 4) = some (some 11, none) ∧
      (∀ address accounts, diff.mainTrie.get? address = some accounts → ∃ s,
        slotTries.addressPreimages.get? (nibbleListToBytes s) = some address ∧
        ReadAt slotTries.nodes (.bytes slotTries.stateRoot) (.bytes slotTries.postStateRoot)
          (accountFromRlp slotAccounts) s accounts) ∧
      ∀ address key values, (diff.slots address).get? key = some values → ∃ s accounts u,
        slotTries.addressPreimages.get? (nibbleListToBytes s) = some address ∧
        ReadAt slotTries.nodes (.bytes slotTries.stateRoot) (.bytes slotTries.postStateRoot)
          (accountFromRlp slotAccounts) s accounts ∧
        slotTries.storageKeyPreimages.get? (nibbleListToBytes u) = some key ∧
        ReadAt slotTries.nodes (storageRootRef accounts.1) (storageRootRef accounts.2)
          (decodeStorageValue slotAccounts) u values :=
  have ran : fromTries slotAccounts 65 slotTries = .ok _ := rfl
  ⟨slotStore_wellFormed.1, slotStore_wellFormed.2.1, (slotStore_storageWellFormed (by decide) (by decide)), _, ran, rfl,
    fromTries_reads_stored slotStore_wellFormed.1 slotStore_wellFormed.2.1
      (slotStore_storageWellFormed (by decide) (by decide)) ran⟩

set_option maxRecDepth 4000 in
theorem slotTries_replays_calls :
    WellFormed slotTries.nodes 64 (.bytes slotTries.stateRoot) ∧
    WellFormed slotTries.nodes 64 (.bytes slotTries.postStateRoot) ∧
    StorageWellFormed slotAccounts slotTries.nodes (.bytes slotTries.stateRoot)
      (.bytes slotTries.postStateRoot) ∧
    (∀ k k' address, slotTries.addressPreimages.get? k = some address →
      slotTries.addressPreimages.get? k' = some address → k = k') ∧
    (∀ k k' key, slotTries.storageKeyPreimages.get? k = some key →
      slotTries.storageKeyPreimages.get? k' = some key → k = k') ∧
    ∃ diff, fromTries slotAccounts 65 slotTries = .ok diff ∧
      diff.mainTrie.keys = [List.replicate 20 1, List.replicate 20 4] ∧
      (∃ T, computeDiff slotTries.nodes recordLeafDiff 65 (.bytes slotTries.stateRoot)
          (.bytes slotTries.postStateRoot) [] [] = .ok T ∧
        diff.mainTrie.keys = T.filterMap (fun t => slotTries.addressPreimages.get? t.1) ∧
        ∀ t ∈ T, ∃ address accounts,
          DecodedEntry slotTries.addressPreimages (accountFromRlp slotAccounts) t address accounts ∧
          diff.mainTrie.get? address = some accounts) ∧
      ∀ address accounts, diff.mainTrie.get? address = some accounts →
        ∃ T, computeDiff slotTries.nodes recordLeafDiff 65 (storageRootRef accounts.1)
            (storageRootRef accounts.2) [] [] = .ok T ∧
          (diff.slots address).keys = T.filterMap (fun t => slotTries.storageKeyPreimages.get? t.1) ∧
          ∀ t ∈ T, ∃ key values,
            DecodedEntry slotTries.storageKeyPreimages (decodeStorageValue slotAccounts) t key
              values ∧
            (diff.slots address).get? key = some values :=
  have ran : fromTries slotAccounts 65 slotTries = .ok _ := rfl
  ⟨slotStore_wellFormed.1, slotStore_wellFormed.2.1, (slotStore_storageWellFormed (by decide) (by decide)), slotTries_oneToOne,
    slotTries_slotsOneToOne, _, ran, by decide, fromTries_replays_calls slotStore_wellFormed.1
      slotStore_wellFormed.2.1 (slotStore_storageWellFormed (by decide) (by decide)) slotTries_oneToOne
      slotTries_slotsOneToOne ran⟩

/-- An account whose storage root did not change gets no slot map: the storage walk of its two
equal roots takes the fast path.  This holds on every run of `from_tries` over well-formed state
tries with one to one address preimages, whatever shapes the walk meets, and whatever else of the
account changed. -/
theorem fromTries_same_storage_root {tries : EthereumTrieTransitionDB} {diff : StateDiff}
    (leftWellFormed : WellFormed tries.nodes 64 (.bytes tries.stateRoot))
    (rightWellFormed : WellFormed tries.nodes 64 (.bytes tries.postStateRoot))
    (oneToOne : ∀ k k' address, tries.addressPreimages.get? k = some address →
      tries.addressPreimages.get? k' = some address → k = k')
    (ran : fromTries rlp fuel tries = .ok diff) :
    ∀ address accounts, diff.mainTrie.get? address = some accounts →
      storageRootRef accounts.1 = storageRootRef accounts.2 → address ∉ diff.storageTries.keys := by
  intro address accounts found sameRoot
  obtain ⟨-, mid, mid', -, empty, walked, same⟩ :=
    fromTries_storage_walk_wellFormed leftWellFormed rightWellFormed oneToOne ran found
  rw [sameRoot] at walked
  cases computeDiff_same walked
  rw [(fromTries_slotsNonempty ran).mem_iff, same, empty]
  exact fun nonempty => nonempty rfl

set_option maxRecDepth 4000 in
/-- The account at accountKey 4 of slotTries changes its code over the same storage trie. -/
theorem slotTries_same_storage_root :
    WellFormed slotTries.nodes 64 (.bytes slotTries.stateRoot) ∧
    WellFormed slotTries.nodes 64 (.bytes slotTries.postStateRoot) ∧
    (∀ k k' address, slotTries.addressPreimages.get? k = some address →
      slotTries.addressPreimages.get? k' = some address → k = k') ∧
    ∃ diff accounts, fromTries slotAccounts 65 slotTries = .ok diff ∧
      diff.mainTrie.get? (List.replicate 20 4) = some accounts ∧ accounts.1 ≠ accounts.2 ∧
      storageRootRef accounts.1 = storageRootRef accounts.2 ∧
      List.replicate 20 4 ∉ diff.storageTries.keys ∧
      ∀ address accounts, diff.mainTrie.get? address = some accounts →
        storageRootRef accounts.1 = storageRootRef accounts.2 → address ∉ diff.storageTries.keys :=
  have ran : fromTries slotAccounts 65 slotTries = .ok _ := rfl
  have unchanged := fromTries_same_storage_root slotStore_wellFormed.1 slotStore_wellFormed.2.1
    slotTries_oneToOne ran
  ⟨slotStore_wellFormed.1, slotStore_wellFormed.2.1, slotTries_oneToOne, _, _, ran, rfl, by decide,
    rfl, unchanged _ _ rfl rfl, unchanged⟩

end MptDiff
