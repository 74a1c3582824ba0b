import Mathlib.Data.String.Basic
import MptDiff.StateDiff.FromData

namespace MptDiff

/-! # Writing a diff as JSON and reading it back

The JSON writer `HexPrinting.stateDiffsJson` is not in the source; `from_data` reads what it
writes back to the same diff, with each zero slot value read as absent.
-/

/-- Printers for the hex fields of the JSON, each string with its two-character prefix, whose
output the parsing builtins read back. -/
structure HexPrinting (hex : HexParsing) where
  intHex : Nat → String
  bytesHex : Bytes → String
  int16_intHex : ∀ n : Nat, hex.int16 ((intHex n).drop 2) = .ok n
  fromhex_bytesHex : ∀ b, hex.fromhex ((bytesHex b).drop 2) = .ok b

/-- What `None if n == 0 else U256(n)` makes of a slot value written as a number, an absent one as
zero: zero reads as absent. -/
def zeroAsAbsent : Option Nat → Option Nat
  | some 0 => none
  | value => value

/-- A slot pair as `from_data` reads it back. -/
def zeroAsAbsentPair (values : Option Nat × Option Nat) : Option Nat × Option Nat :=
  (zeroAsAbsent values.1, zeroAsAbsent values.2)

/-- A slot value that fits a `U256`, zero included. -/
def FitsU256 : Option Nat → Prop
  | none => True
  | some v => v < 2 ^ 256

/-- A `StateDiff` whose keys and values fit their declared types, a slot value possibly zero. -/
structure StateDiff.Sized (diff : StateDiff) : Prop where
  accounts : ∀ address accounts, diff.mainTrie.get? address = some accounts →
    address.length = 20 ∧ ∀ a, accounts.1 = some a ∨ accounts.2 = some a → a.Typed
  slots : ∀ address key values, (diff.slots address).get? key = some values →
    address.length = 20 ∧ key.length = 32 ∧ FitsU256 values.1 ∧ FitsU256 values.2

theorem NonzeroU256.fits {value : Option Nat} (nonzero : NonzeroU256 value) : FitsU256 value := by
  cases value with
  | none => trivial
  | some v => exact nonzero.2

theorem NonzeroU256.zeroAsAbsent {value : Option Nat} (nonzero : NonzeroU256 value) :
    zeroAsAbsent value = value := by
  match value, nonzero with
  | none, _ => rfl
  | some (_ + 1), _ => rfl

theorem StateDiff.Typed.sized {diff : StateDiff} (typed : diff.Typed) : diff.Sized :=
  ⟨typed.accounts, fun address key values found =>
    have ⟨length, keyLength, pre, post⟩ := typed.slots address key values found
    ⟨length, keyLength, pre.fits, post.fits⟩⟩

theorem optionalU256_getD {value : Option Nat} (fits : FitsU256 value) :
    optionalU256 (value.getD 0 : Nat) = .ok (zeroAsAbsent value) := by
  match value, fits with
  | none, _ => rfl
  | some 0, _ => rfl
  | some (v + 1), fits =>
      rw [Option.getD_some, optionalU256, if_neg (by omega), u256_natCast fits]
      rfl

namespace HexPrinting

variable {hex : HexParsing} (print : HexPrinting hex)

/-- The `preAccount` or `postAccount` object of an account. -/
def accountJson (account : Account) : AccountJson :=
  ⟨print.intHex account.balance, print.intHex account.nonce, print.bytesHex account.codeHash,
    print.bytesHex account.storageRoot⟩

/-- The element of a `storage` list for a slot, an absent value written as zero. -/
def storageDiffJson (slot : Bytes × (Option Nat × Option Nat)) : StorageDiffJson :=
  ⟨print.bytesHex slot.1, print.intHex (slot.2.1.getD 0), print.intHex (slot.2.2.getD 0)⟩

/-- The entry of `stateDiffs` for an address and its accounts, with a `storage` list when the
address has a slot map. -/
def stateDiffJson (diff : StateDiff) (address : Bytes) (accounts : Option Account × Option Account) :
    StateDiffJson :=
  ⟨print.bytesHex address, accounts.1.map print.accountJson, accounts.2.map print.accountJson,
    (diff.storageTries.get? address).map fun slots => slots.items.map print.storageDiffJson⟩

/-- The JSON list `stateDiffs` of a `StateDiff`: one entry for each address of `_main_trie`, in
order. -/
def stateDiffsJson (diff : StateDiff) : List StateDiffJson :=
  diff.mainTrie.items.map fun item => print.stateDiffJson diff item.1 item.2

variable {print}

theorem fixedFromhex_bytesHex {width : Nat} {b : Bytes} (length : b.length = width) :
    fixedFromhex hex width ((print.bytesHex b).drop 2) = .ok b := by
  rw [fixedFromhex, print.fromhex_bytesHex]
  exact if_pos length

theorem parseAccount_accountJson {account : Account} (typed : account.Typed) :
    parseAccount hex (print.accountJson account) = .ok account := by
  simp only [parseAccount, accountJson, print.int16_intHex, ok_bind, u256_natCast typed.1, uint_natCast,
    fixedFromhex_bytesHex typed.2.1, fixedFromhex_bytesHex typed.2.2]
  rfl

theorem mapM_accountJson {account : Option Account} (typed : ∀ a, account = some a → a.Typed) :
    (account.map print.accountJson).mapM (parseAccount hex) = .ok account := by
  cases account with
  | none => rfl
  | some a =>
      show some <$> parseAccount hex (print.accountJson a) = _
      rw [parseAccount_accountJson (typed a rfl)]
      rfl

theorem readStorageDiff_storageDiffJson {slot : Bytes × (Option Nat × Option Nat)}
    (sized : slot.1.length = 32 ∧ FitsU256 slot.2.1 ∧ FitsU256 slot.2.2) :
    readStorageDiff hex (print.storageDiffJson slot) = .ok (slot.1, zeroAsAbsentPair slot.2) := by
  simp only [readStorageDiff, storageDiffJson, fixedFromhex_bytesHex sized.1, print.int16_intHex, ok_bind,
    optionalU256_getD sized.2.1, optionalU256_getD sized.2.2]
  rfl

theorem storage_stateDiffJson {diff : StateDiff} {address : Bytes}
    {accounts : Option Account × Option Account} :
    (print.stateDiffJson diff address accounts).storage.getD [] =
      (diff.slots address).items.map print.storageDiffJson := by
  unfold stateDiffJson StateDiff.slots
  cases diff.storageTries.get? address <;> rfl

theorem readStateDiff_stateDiffJson {diff : StateDiff} (sized : diff.Sized) {address : Bytes}
    {accounts : Option Account × Option Account} (found : diff.mainTrie.get? address = some accounts) :
    readStateDiff hex (print.stateDiffJson diff address accounts) =
      .ok ⟨address, accounts, ((diff.slots address).mapValues zeroAsAbsentPair).items⟩ := by
  obtain ⟨length, accountsTyped⟩ := sized.accounts address accounts found
  have slots : ((diff.slots address).items.map print.storageDiffJson).mapM (readStorageDiff hex) =
      .ok ((diff.slots address).mapValues zeroAsAbsentPair).items :=
    mapM_eq_ok.mpr (List.forall₂_map_left_iff.mpr (List.forall₂_map_right_iff.mpr
      (List.forall₂_same.mpr fun slot member =>
        readStorageDiff_storageDiffJson (sized.slots address slot.1 slot.2
          (PyDict.get?_of_mem_items member)).2)))
  simp only [readStateDiff, storage_stateDiffJson, slots]
  simp only [stateDiffJson, fixedFromhex_bytesHex length,
    mapM_accountJson fun a side => accountsTyped a (.inl side),
    mapM_accountJson fun a side => accountsTyped a (.inr side)]
  rfl

/-- The entries `from_data` reads from the JSON form of a diff. -/
def parsedEntries (diff : StateDiff) : List ParsedStateDiff :=
  diff.mainTrie.items.map fun item =>
    ⟨item.1, item.2, ((diff.slots item.1).mapValues zeroAsAbsentPair).items⟩

theorem address_parsedEntries {diff : StateDiff} :
    (parsedEntries diff).map ParsedStateDiff.address = diff.mainTrie.keys :=
  List.map_map _ _ _

theorem mainTrie_parsedEntries {diff : StateDiff} :
    ((parsedEntries diff).foldl writeStateDiff .empty).mainTrie = diff.mainTrie := by
  rw [mainTrie_foldl_writeStateDiff, parsedEntries, List.foldl_map]
  exact PyDict.foldl_setItem_self diff.mainTrie

theorem slots_parsedEntries {diff : StateDiff} (nested : diff.StorageNested) (address : Bytes) :
    ((parsedEntries diff).foldl writeStateDiff .empty).slots address =
      (diff.slots address).mapValues zeroAsAbsentPair := by
  by_cases member : address ∈ diff.mainTrie.keys
  · obtain ⟨⟨address, accounts⟩, item, rfl⟩ := List.mem_map.mp member
    obtain ⟨pre, post, split⟩ := List.append_of_mem item
    have distinct := diff.mainTrie.nodupKeys
    rw [split, List.map_append, List.map_cons, List.nodup_append, List.nodup_cons] at distinct
    have notPre : address ∉ pre.map Prod.fst := fun old => distinct.2.2 old (List.mem_cons_self _ _)
    rw [parsedEntries, split, List.map_append, List.map_cons, List.foldl_append, List.foldl_cons,
      slots_foldl_writeStateDiff_of_not_mem (by rw [List.map_map]; exact distinct.2.1.1),
      slots_writeStateDiff, if_pos rfl,
      slots_foldl_writeStateDiff_of_not_mem (by rw [List.map_map]; exact notPre)]
    exact PyDict.foldl_setItem_self _
  · rw [slots_foldl_writeStateDiff_of_not_mem (address_parsedEntries ▸ member),
      StateDiff.slots_eq_empty nested (PyDict.get?_eq_none_of_not_mem member)]
    rfl

theorem fromData_stateDiffsJson_sized {diff : StateDiff} (sized : diff.Sized)
    (nested : diff.StorageNested) :
    ∃ diff', fromData hex (print.stateDiffsJson diff) = .ok diff' ∧ diff'.mainTrie = diff.mainTrie ∧
      ∀ address, diff'.slots address = (diff.slots address).mapValues zeroAsAbsentPair := by
  have read : (print.stateDiffsJson diff).mapM (readStateDiff hex) = .ok (parsedEntries diff) :=
    mapM_eq_ok.mpr (List.forall₂_map_left_iff.mpr (List.forall₂_map_right_iff.mpr
      (List.forall₂_same.mpr fun _ member =>
        readStateDiff_stateDiffJson sized (PyDict.get?_of_mem_items member))))
  refine ⟨_, ?_, mainTrie_parsedEntries, slots_parsedEntries nested⟩
  rw [fromData, parseStateDiff_eq_map, foldlM_eq_map_mapM, read]
  rfl

/-- Round trip: `from_data` reads the JSON form of a typed diff, whose storage diffs are nested in
its account diffs, back to the same `_main_trie`, with its keys in the same order, and to the same
slot map of every address. -/
theorem fromData_stateDiffsJson {diff : StateDiff} (typed : diff.Typed) (nested : diff.StorageNested) :
    ∃ diff', fromData hex (print.stateDiffsJson diff) = .ok diff' ∧
      diff'.mainTrie = diff.mainTrie ∧ ∀ address, diff'.slots address = diff.slots address := by
  obtain ⟨diff', ran, main, slots⟩ := @fromData_stateDiffsJson_sized hex print diff typed.sized nested
  refine ⟨diff', ran, main, fun address => (slots address).trans (PyDict.mapValues_eq_self ?_)⟩
  intro slot member
  obtain ⟨-, -, pre, post⟩ := typed.slots address slot.1 slot.2 (PyDict.get?_of_mem_items member)
  exact Prod.ext pre.zeroAsAbsent post.zeroAsAbsent

end HexPrinting

/-- Witness data of the types `from_tries` declares: `Address` preimages of 20 bytes, `Bytes32`
slot key preimages, and account payloads that decode to typed accounts. -/
structure TypedWitness (rlp : RlpDecoding) (tries : EthereumTrieTransitionDB) : Prop where
  addresses : ∀ k address, tries.addressPreimages.get? k = some address → address.length = 20
  keys : ∀ k key, tries.storageKeyPreimages.get? k = some key → key.length = 32
  accounts : ∀ value account, accountFromRlp rlp value = .ok account → account.Typed

theorem decodeStorageValue_fits {rlp : RlpDecoding} {x : Option LeafNode} {value : Option Nat}
    (decoded : x.mapM (fun leaf => decodeStorageValue rlp leaf.value) = .ok value) : FitsU256 value := by
  cases value with
  | none => trivial
  | some v =>
      obtain ⟨leaf, -, read⟩ := optionMapM_eq_ok_some decoded
      unfold decodeStorageValue at read
      split at read
      · exact (u256_eq_ok read).2
      · exact nomatch read

section FromTries

variable {rlp : RlpDecoding} {fuel : Nat} {tries : EthereumTrieTransitionDB} {diff : StateDiff}

theorem TypedWitness.decoded (witness : TypedWitness rlp tries) {x : Option LeafNode}
    {accounts : Option Account} (decoded : x.mapM (fun leaf => accountFromRlp rlp leaf.value) = .ok accounts)
    (a : Account) (found : accounts = some a) : a.Typed := by
  subst found
  obtain ⟨leaf, -, read⟩ := optionMapM_eq_ok_some decoded
  exact witness.accounts _ _ read

/-- The slot maps of a `StateDiff` fit their types: every slot map under an address of 20 bytes,
every slot key of 32 bytes, every value a `U256`. -/
def StateDiff.SlotsSized (diff : StateDiff) : Prop :=
  ∀ a k values, (diff.slots a).get? k = some values →
    a.length = 20 ∧ k.length = 32 ∧ FitsU256 values.1 ∧ FitsU256 values.2

theorem processAccountDiff_slotsSized (witness : TypedWitness rlp tries) {path : Bytes}
    {left right : Option LeafNode} {self self' : StateDiff}
    (ran : processAccountDiff rlp fuel path left right self = .ok self')
    (holds : self.addressPreimages = tries.addressPreimages ∧
      self.storageKeyPreimages = tries.storageKeyPreimages ∧ self.SlotsSized) :
    self'.addressPreimages = tries.addressPreimages ∧
      self'.storageKeyPreimages = tries.storageKeyPreimages ∧ self'.SlotsSized := by
  obtain ⟨address, accounts, entry, walked⟩ := processAccountDiff_walks ran
  have keeps := computeDiff_processStorageDiff_keeps walked ⟨rfl, rfl, rfl, fun _ _ => rfl⟩
  have length : address.length = 20 := witness.addresses _ _ (holds.1 ▸ entry.preimage)
  obtain ⟨-, written⟩ := processStorageDiff_writes.computeDiff_entries
    (P := fun k values => k.length = 32 ∧ FitsU256 values.1 ∧ FitsU256 values.2)
    (fun _ _ _ entry => ⟨witness.keys _ _ entry.preimage, decodeStorageValue_fits entry.leftDecoded,
      decodeStorageValue_fits entry.rightDecoded⟩)
    walked holds.2.1 fun k values found => (holds.2.2 address k values found).2
  refine ⟨keeps.addressPreimages.trans holds.1, keeps.storageKeyPreimages.trans holds.2.1,
    fun a k values found => ?_⟩
  by_cases same : a = address
  · subst same
    exact ⟨length, written k values found⟩
  · have unchanged : self'.slots a = self.slots a := by
      rw [StateDiff.slots, keeps.others a same]
      rfl
    exact holds.2.2 a k values (unchanged ▸ found)

theorem fromTries_sized (witness : TypedWitness rlp tries) (ran : fromTries rlp fuel tries = .ok diff) :
    diff.Sized := by
  have accounts := (processAccountDiff_writes.computeDiff_entries
    (P := fun address accounts => address.length = 20 ∧
      ∀ a, accounts.1 = some a ∨ accounts.2 = some a → a.Typed)
    (fun _ _ _ entry => ⟨witness.addresses _ _ entry.preimage, fun a side =>
      side.elim (witness.decoded entry.leftDecoded a) (witness.decoded entry.rightDecoded a)⟩)
    ran rfl (fun _ _ found => nomatch found)).2
  have slots := computeDiff_keeps (I := fun d : StateDiff => d.addressPreimages = tries.addressPreimages ∧
      d.storageKeyPreimages = tries.storageKeyPreimages ∧ d.SlotsSized)
    (fun _ _ _ _ _ holds ran => processAccountDiff_slotsSized witness ran holds)
    ⟨rfl, rfl, by exact fun _ _ _ found => nomatch found⟩ ran
  exact ⟨accounts, slots.2.2⟩

/-- From the tries to JSON and back: on witness data of the declared types, when `from_tries`
returns a diff, `from_data` reads the JSON form of that diff back to the same `_main_trie`, keys
in the same order, and for every address to the same slot map with each zero value read as
absent. -/
theorem fromTries_stateDiffsJson {hex : HexParsing} (print : HexPrinting hex)
    (witness : TypedWitness rlp tries) (ran : fromTries rlp fuel tries = .ok diff) :
    ∃ diff', fromData hex (print.stateDiffsJson diff) = .ok diff' ∧ diff'.mainTrie = diff.mainTrie ∧
      ∀ address, diff'.slots address = (diff.slots address).mapValues zeroAsAbsentPair :=
  HexPrinting.fromData_stateDiffsJson_sized (fromTries_sized witness ran) (fromTries_nested ran)

end FromTries

theorem ofNat_toNat_ofUInt8 (x : UInt8) : UInt8.ofNat (Char.ofUInt8 x).toNat = x := by
  apply UInt8.toNat.inj
  have fits : x.toNat < UInt8.size := x.toBitVec.isLt
  simpa [Char.ofUInt8, Char.toNat] using UInt8.toNat_ofNat_of_lt fits

/-- Printers that `charHex` reads back: a number as that many digits, a byte as one character. -/
def charPrinting : HexPrinting charHex where
  intHex n := "0x" ++ ⟨List.replicate n '1'⟩
  bytesHex b := "0x" ++ ⟨b.map Char.ofUInt8⟩
  int16_intHex n := by
    rw [String.drop_eq]
    show Except.ok ((List.replicate n '1').length : Int) = _
    rw [List.length_replicate]
  fromhex_bytesHex b := by
    rw [String.drop_eq]
    show Except.ok ((b.map Char.ofUInt8).map fun c => UInt8.ofNat c.toNat) = _
    rw [List.map_map]
    exact congrArg Except.ok (List.map_id'' ofNat_toNat_ofUInt8 b)

set_option maxRecDepth 2000 in
theorem createdEntry_round_trip :
    ∃ diff, fromData lengthHex [createdEntry] = .ok diff ∧ diff.Typed ∧ diff.StorageNested ∧
      ∃ diff', fromData charHex (charPrinting.stateDiffsJson diff) = .ok diff' ∧
        diff'.mainTrie = diff.mainTrie ∧ ∀ address, diff'.slots address = diff.slots address := by
  obtain ⟨diff, ran⟩ : ∃ diff, fromData lengthHex [createdEntry] = .ok diff := ⟨_, rfl⟩
  have typed := parseStateDiffs_typed ran StateDiff.typed_empty
  have nested : diff.StorageNested :=
    foldlM_preserves (fun _ _ _ _ nested parsed => parseStateDiff_nested parsed nested)
      (fun _ member => absurd member (List.not_mem_nil _)) ran
  exact ⟨diff, ran, typed, nested, HexPrinting.fromData_stateDiffsJson typed nested⟩

theorem slotTries_typedWitness : TypedWitness slotAccounts slotTries := by
  have addresses : ∀ p ∈ slotTries.addressPreimages.items, p.2.length = 20 := by decide
  have keys : ∀ p ∈ slotTries.storageKeyPreimages.items, p.2.length = 32 := by decide
  refine ⟨fun _ _ found => addresses _ (PyDict.mem_items_of_get? found),
    fun _ _ found => keys _ (PyDict.mem_items_of_get? found), fun _ _ read => ?_⟩
  obtain ⟨code, root, -, rfl⟩ := slotAccounts_accountFromRlp read
  exact ⟨Nat.two_pow_pos 256, List.length_replicate _ _, List.length_replicate _ _⟩

set_option maxRecDepth 4000 in
theorem slotTries_round_trip :
    TypedWitness slotAccounts slotTries ∧ ∃ diff, fromTries slotAccounts 65 slotTries = .ok diff ∧
      (diff.slots (List.replicate 20 1)).get? (List.replicate 32 2) = some (some 8, some 9) ∧
      ∃ diff', fromData charHex (charPrinting.stateDiffsJson diff) = .ok diff' ∧
        diff'.mainTrie = diff.mainTrie ∧
        ∀ address, diff'.slots address = (diff.slots address).mapValues zeroAsAbsentPair :=
  have ran : fromTries slotAccounts 65 slotTries = .ok _ := rfl
  ⟨slotTries_typedWitness, _, ran, rfl,
    fromTries_stateDiffsJson charPrinting slotTries_typedWitness ran⟩

end MptDiff
