import Mathlib.Algebra.Group.Nat.Basic
import MptDiff.Walk.Run

namespace MptDiff

/-! # The state diff and its leaf handlers

The RLP decoding the handlers call belongs to the `ethereum_rlp` library, outside this
repository, and is a parameter (`RlpDecoding`).
-/

/-- `Account` as the handlers build it: its `code` is left unset. -/
structure Account where
  nonce : Nat
  balance : Nat
  codeHash : Bytes
  storageRoot : Bytes
deriving DecidableEq, Repr

/-- The decoders of `ethereum_rlp` the handlers call: `Account.from_rlp`, and `rlp.decode` of a
byte string; `none` is a payload that does not decode to that shape. -/
structure RlpDecoding where
  accountFromRlp : Bytes → Option Account
  decode : Bytes → Option Bytes

/-- `U256(n)`, raising `OverflowError` outside `[0, 2^256)`. -/
def u256 (n : Int) : Except PyError Nat :=
  if 0 ≤ n ∧ n < Int.pow 2 256 then pure n.toNat else throw .overflowError

/-- `int.from_bytes(b, "big")`. -/
def intFromBytesBig (b : Bytes) : Nat :=
  b.foldl (fun value byte => value * 256 + byte.toNat) 0

/-- `Account.from_rlp(value)`. -/
def accountFromRlp (rlp : RlpDecoding) (value : Bytes) : Except PyError Account :=
  match rlp.accountFromRlp value with
  | some account => pure account
  | none => throw .decodingError

/-- `U256(int.from_bytes(rlp.decode(value), "big"))`. -/
def decodeStorageValue (rlp : RlpDecoding) (value : Bytes) : Except PyError Nat :=
  match rlp.decode value with
  | some decoded => u256 (intFromBytesBig decoded)
  | none => throw .decodingError

/-- `StateDiff`: the account pairs `_main_trie`, the storage slot pairs `_storage_tries` by
address, and the witness data `_nodes`, `_address_preimages`, `_storage_key_preimages`. -/
structure StateDiff where
  mainTrie : PyDict Bytes (Option Account × Option Account)
  storageTries : PyDict Bytes (PyDict Bytes (Option Nat × Option Nat))
  nodes : NodeStore
  addressPreimages : PyDict Bytes Bytes
  storageKeyPreimages : PyDict Bytes Bytes

/-- `StateDiff()`: every map empty. -/
def StateDiff.empty : StateDiff := ⟨.empty, .empty, .empty, .empty, .empty⟩

/-- `if address not in self._storage_tries: self._storage_tries[address] = {}`, then
`self._storage_tries[address][key] = value`. -/
def StateDiff.setStorage (self : StateDiff) (address key : Bytes)
    (value : Option Nat × Option Nat) : StateDiff :=
  let storageTries :=
    if address ∈ self.storageTries.keys then self.storageTries
    else self.storageTries.setItem address .empty
  { self with
    storageTries := storageTries.setItem address
      (((storageTries.get? address).getD .empty).setItem key value) }

/-- The slot map of `address` in `_storage_tries`, empty when the address has none. -/
def StateDiff.slots (address : Bytes) (diff : StateDiff) : PyDict Bytes (Option Nat × Option Nat) :=
  (diff.storageTries.get? address).getD .empty

/-- `_process_storage_diff` bound to `address`. -/
def processStorageDiff (rlp : RlpDecoding) (address : Bytes) : LeafDiffHandler StateDiff :=
  fun path left right self => do
    let key ← self.storageKeyPreimages.getItem path
    let leftDecoded ← left.mapM fun leaf => decodeStorageValue rlp leaf.value
    let rightDecoded ← right.mapM fun leaf => decodeStorageValue rlp leaf.value
    match left, right with
    | none, _ => pure (self.setStorage address key (none, rightDecoded))
    | some _, none => pure (self.setStorage address key (leftDecoded, none))
    | some _, some _ => pure (self.setStorage address key (leftDecoded, rightDecoded))

/-- The storage root of an account, `None` for an absent account. -/
def storageRootRef : Option Account → Ref
  | none => .none
  | some account => .bytes account.storageRoot

/-- `_process_account_diff`, whose storage walk gets the same recursion budget. -/
def processAccountDiff (rlp : RlpDecoding) (fuel : Nat) : LeafDiffHandler StateDiff :=
  fun path left right self => do
    let address ← self.addressPreimages.getItem path
    let leftAccount ← left.mapM fun leaf => accountFromRlp rlp leaf.value
    let rightAccount ← right.mapM fun leaf => accountFromRlp rlp leaf.value
    let self := { self with mainTrie := self.mainTrie.setItem address (leftAccount, rightAccount) }
    computeDiff self.nodes (processStorageDiff rlp address) fuel (storageRootRef leftAccount)
      (storageRootRef rightAccount) [] self

/-- `EthereumTrieTransitionDB` (`mpt.ethereum_tries`, not under `src/`): the fields
`from_tries` reads. -/
structure EthereumTrieTransitionDB where
  nodes : NodeStore
  addressPreimages : PyDict Bytes Bytes
  storageKeyPreimages : PyDict Bytes Bytes
  stateRoot : Bytes
  postStateRoot : Bytes

/-- `StateDiff.from_tries(tries)`. -/
def fromTries (rlp : RlpDecoding) (fuel : Nat) (tries : EthereumTrieTransitionDB) :
    Except PyError StateDiff :=
  let diff : StateDiff :=
    ⟨.empty, .empty, tries.nodes, tries.addressPreimages, tries.storageKeyPreimages⟩
  computeDiff diff.nodes (processAccountDiff rlp fuel) fuel (.bytes tries.stateRoot)
    (.bytes tries.postStateRoot) [] diff

theorem u256_eq_error {n : Int} {e : PyError} (failed : u256 n = .error e) : e = .overflowError := by
  unfold u256 at failed
  split_ifs at failed
  · exact absurd failed pure_ne_error
  · exact (Except.error.inj failed).symm

theorem u256_eq_ok {n : Int} {v : Nat} (read : u256 n = .ok v) : (v : Int) = n ∧ v < 2 ^ 256 := by
  unfold u256 at read
  split_ifs at read with fits
  cases pure_eq_ok.mp read
  exact ⟨Int.toNat_of_nonneg fits.1, (Int.toNat_lt fits.1).mpr (by rw [Int.natCast_pow]; exact fits.2)⟩

theorem u256_natCast {n : Nat} (fits : n < 2 ^ 256) : u256 n = .ok n := by
  have fits : (n : Int) < ((2 ^ 256 : Nat) : Int) := Int.ofNat_lt.mpr fits
  rw [Int.natCast_pow] at fits
  rw [u256, if_pos ⟨Int.ofNat_nonneg n, fits⟩]
  rfl

theorem accountFromRlp_eq_error {rlp : RlpDecoding} {value : Bytes} {e : PyError}
    (failed : accountFromRlp rlp value = .error e) : e = .decodingError := by
  unfold accountFromRlp at failed
  split at failed
  · exact absurd failed pure_ne_error
  · exact (Except.error.inj failed).symm

theorem decodeStorageValue_eq_error {rlp : RlpDecoding} {value : Bytes} {e : PyError}
    (failed : decodeStorageValue rlp value = .error e) : e = .decodingError ∨ e = .overflowError := by
  unfold decodeStorageValue at failed
  split at failed
  · exact .inr (u256_eq_error failed)
  · exact .inl (Except.error.inj failed).symm

theorem processStorageDiff_eq_error {rlp : RlpDecoding} {address path : Bytes}
    {left right : Option LeafNode} {self : StateDiff} {e : PyError}
    (failed : processStorageDiff rlp address path left right self = .error e) :
    e = .keyError ∨ e = .decodingError ∨ e = .overflowError := by
  rcases bind_eq_error.mp failed with failed | ⟨_, -, failed⟩
  · exact .inl (PyDict.getItem_eq_error failed)
  rcases bind_eq_error.mp failed with failed | ⟨_, -, failed⟩
  · obtain ⟨_, -, failed⟩ := optionMapM_eq_error failed
    exact .inr (decodeStorageValue_eq_error failed)
  rcases bind_eq_error.mp failed with failed | ⟨_, -, failed⟩
  · obtain ⟨_, -, failed⟩ := optionMapM_eq_error failed
    exact .inr (decodeStorageValue_eq_error failed)
  rcases left with _ | _ <;> rcases right with _ | _ <;> exact absurd failed pure_ne_error

/-- Every address with storage diffs also has an account diff. -/
def StateDiff.StorageNested (diff : StateDiff) : Prop :=
  ∀ address ∈ diff.storageTries.keys, address ∈ diff.mainTrie.keys

variable {rlp : RlpDecoding} {self self' : StateDiff} {address path : Bytes}
  {left right : Option LeafNode}

@[simp] theorem StateDiff.mainTrie_setStorage {key : Bytes} {value : Option Nat × Option Nat} :
    (self.setStorage address key value).mainTrie = self.mainTrie := rfl

theorem StateDiff.mem_keys_setStorage {key a : Bytes} {value : Option Nat × Option Nat} :
    a ∈ (self.setStorage address key value).storageTries.keys ↔
      a = address ∨ a ∈ self.storageTries.keys := by
  unfold setStorage
  split_ifs <;> simp

theorem StateDiff.get?_storageTries_setStorage {key a : Bytes} {value : Option Nat × Option Nat} :
    (self.setStorage address key value).storageTries.get? a =
      if a = address then some ((self.slots address).setItem key value)
      else self.storageTries.get? a := by
  unfold setStorage slots
  dsimp only
  rw [PyDict.get?_setItem]
  split_ifs with same present
  · rfl
  · rw [PyDict.get?_setItem, if_pos rfl, PyDict.get?_eq_none_of_not_mem present]
    rfl
  · rfl
  · rw [PyDict.get?_setItem, if_neg same]

theorem StateDiff.slots_setStorage {key a : Bytes} {value : Option Nat × Option Nat} :
    (self.setStorage address key value).slots a =
      if a = address then (self.slots address).setItem key value else self.slots a := by
  conv_lhs => unfold slots
  rw [get?_storageTries_setStorage]
  split_ifs <;> rfl

theorem StateDiff.slots_eq_empty {diff : StateDiff} (nested : diff.StorageNested)
    (absent : diff.mainTrie.get? address = none) : diff.slots address = .empty := by
  have missing : address ∉ diff.storageTries.keys := fun member => by
    simpa [absent] using PyDict.mem_keys_iff.mp (nested address member)
  rw [StateDiff.slots, PyDict.get?_eq_none_of_not_mem missing]
  rfl

theorem processStorageDiff_eq_ok
    (ran : processStorageDiff rlp address path left right self = .ok self') :
    ∃ key value, self' = self.setStorage address key value := by
  obtain ⟨key, -, ran⟩ := bind_eq_ok.mp ran
  obtain ⟨_, -, ran⟩ := bind_eq_ok.mp ran
  obtain ⟨_, -, ran⟩ := bind_eq_ok.mp ran
  rcases left with _ | _ <;> rcases right with _ | _ <;>
    exact ⟨key, _, (pure_eq_ok.mp ran).symm⟩

theorem processAccountDiff_eq_ok {fuel : Nat}
    (ran : processAccountDiff rlp fuel path left right self = .ok self') :
    ∃ (address : Bytes) (accounts : Option Account × Option Account) (roots : Ref × Ref),
      computeDiff self.nodes (processStorageDiff rlp address) fuel
      roots.1 roots.2 [] { self with mainTrie := self.mainTrie.setItem address accounts } =
        .ok self' := by
  obtain ⟨address, -, ran⟩ := bind_eq_ok.mp ran
  obtain ⟨leftAccount, -, ran⟩ := bind_eq_ok.mp ran
  obtain ⟨rightAccount, -, ran⟩ := bind_eq_ok.mp ran
  exact ⟨address, (leftAccount, rightAccount),
    (storageRootRef leftAccount, storageRootRef rightAccount), ran⟩

theorem processStorageDiff_nested
    (ran : processStorageDiff rlp address path left right self = .ok self')
    (nested : self.StorageNested ∧ address ∈ self.mainTrie.keys) :
    self'.StorageNested ∧ address ∈ self'.mainTrie.keys := by
  obtain ⟨key, value, rfl⟩ := processStorageDiff_eq_ok ran
  refine ⟨fun a member => ?_, nested.2⟩
  rcases StateDiff.mem_keys_setStorage.mp member with rfl | member
  · exact nested.2
  · exact nested.1 a member

theorem processAccountDiff_nested {fuel : Nat}
    (ran : processAccountDiff rlp fuel path left right self = .ok self')
    (nested : self.StorageNested) : self'.StorageNested := by
  obtain ⟨address, accounts, roots, walked⟩ := processAccountDiff_eq_ok ran
  refine (computeDiff_keeps (I := fun d : StateDiff => d.StorageNested ∧ address ∈ d.mainTrie.keys)
    (fun _ _ _ _ _ holds ran => processStorageDiff_nested ran holds) ?_ walked).1
  exact ⟨fun a member => PyDict.mem_keys_setItem.mpr (.inr (nested a member)),
    PyDict.mem_keys_setItem.mpr (.inl rfl)⟩

theorem fromTries_nested {fuel : Nat} {tries : EthereumTrieTransitionDB} {diff : StateDiff}
    (ran : fromTries rlp fuel tries = .ok diff) : diff.StorageNested :=
  computeDiff_keeps (fun _ _ _ _ _ holds ran => processAccountDiff_nested ran holds)
    (fun _ member => absurd member (List.not_mem_nil _)) ran

end MptDiff
