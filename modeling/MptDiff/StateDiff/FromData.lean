import MptDiff.StateDiff.StorageDiffs

namespace MptDiff

/-! # `StateDiff.from_data`

A JSON object is a record of the keys the source reads, and the parsing builtins `int(s, 16)` and
`bytes.fromhex(s)` are parameters.  No read sees what the loop wrote, so `from_data` is all of
its reads followed by all of its writes; its errors, types and key order follow from that split.
-/

/-- A `preAccount` or `postAccount` object. -/
structure AccountJson where
  balance : String
  nonce : String
  codeHash : String
  storageHash : String

/-- An element of a diff's `storage` list. -/
structure StorageDiffJson where
  storageKey : String
  preValue : String
  postValue : String

/-- An element of `data["extra"]["stateDiffs"]`. -/
structure StateDiffJson where
  address : String
  preAccount : Option AccountJson
  postAccount : Option AccountJson
  storage : Option (List StorageDiffJson)

/-- The Python builtins `from_data` parses with: `int(s, 16)` and `bytes.fromhex(s)`. -/
structure HexParsing where
  int16 : String → Except PyError Int
  fromhex : String → Except PyError Bytes

/-- `Address.fromhex`, `Hash32.fromhex`, `Bytes32.fromhex`: `bytes.fromhex` into a
fixed-width bytes type, which rejects any other length with `ValueError`. -/
def fixedFromhex (hex : HexParsing) (width : Nat) (s : String) : Except PyError Bytes := do
  let b ← hex.fromhex s
  if b.length = width then pure b else throw .valueError

/-- `Uint(n)`, raising `OverflowError` for a negative `n`. -/
def uint (n : Int) : Except PyError Nat :=
  if 0 ≤ n then pure n.toNat else throw .overflowError

theorem uint_natCast (n : Nat) : uint n = .ok n := by
  rw [uint, if_pos (Int.ofNat_nonneg n)]
  rfl

/-- The account `from_data` builds from a `preAccount` or `postAccount` object. -/
def parseAccount (hex : HexParsing) (json : AccountJson) : Except PyError Account := do
  let balance ← u256 (← hex.int16 (json.balance.drop 2))
  let nonce ← uint (← hex.int16 (json.nonce.drop 2))
  let codeHash ← fixedFromhex hex 32 (json.codeHash.drop 2)
  let storageRoot ← fixedFromhex hex 32 (json.storageHash.drop 2)
  pure { nonce, balance, codeHash, storageRoot }

/-- `None if n == 0 else U256(n)`: a zero slot value is absent. -/
def optionalU256 (n : Int) : Except PyError (Option Nat) :=
  if n = 0 then pure none else some <$> u256 n

/-- One iteration of the inner loop `for storage_diff in diff["storage"]`. -/
def parseStorageDiff (hex : HexParsing) (address : Bytes) (stateDiff : StateDiff)
    (storageDiff : StorageDiffJson) : Except PyError StateDiff := do
  let key ← fixedFromhex hex 32 (storageDiff.storageKey.drop 2)
  let preInt ← hex.int16 (storageDiff.preValue.drop 2)
  let postInt ← hex.int16 (storageDiff.postValue.drop 2)
  let pre ← optionalU256 preInt
  let post ← optionalU256 postInt
  pure (stateDiff.setStorage address key (pre, post))

/-- One iteration of the outer loop `for diff in data["extra"]["stateDiffs"]`. -/
def parseStateDiff (hex : HexParsing) (stateDiff : StateDiff) (diff : StateDiffJson) :
    Except PyError StateDiff := do
  let address ← fixedFromhex hex 20 (diff.address.drop 2)
  let preAccount ← diff.preAccount.mapM (parseAccount hex)
  let postAccount ← diff.postAccount.mapM (parseAccount hex)
  let stateDiff ← (diff.storage.getD []).foldlM (parseStorageDiff hex address) stateDiff
  pure { stateDiff with mainTrie := stateDiff.mainTrie.setItem address (preAccount, postAccount) }

/-- `StateDiff.from_data(data)`, given `data["extra"]["stateDiffs"]`. -/
def fromData (hex : HexParsing) (stateDiffs : List StateDiffJson) : Except PyError StateDiff :=
  stateDiffs.foldlM (parseStateDiff hex) StateDiff.empty

variable {hex : HexParsing}

theorem parseStorageDiff_keys {address : Bytes} {storageDiffs : List StorageDiffJson}
    {stateDiff stateDiff' : StateDiff}
    (ran : storageDiffs.foldlM (parseStorageDiff hex address) stateDiff = .ok stateDiff') :
    stateDiff'.mainTrie = stateDiff.mainTrie ∧
      ∀ a ∈ stateDiff'.storageTries.keys, a = address ∨ a ∈ stateDiff.storageTries.keys := by
  refine foldlM_preserves (I := fun d : StateDiff => d.mainTrie = stateDiff.mainTrie ∧
      ∀ a ∈ d.storageTries.keys, a = address ∨ a ∈ stateDiff.storageTries.keys)
    (fun storageDiff _ d d' holds parsed => ?_) ⟨rfl, fun _ member => .inr member⟩ ran
  obtain ⟨key, -, parsed⟩ := bind_eq_ok.mp parsed
  obtain ⟨_, -, parsed⟩ := bind_eq_ok.mp parsed
  obtain ⟨_, -, parsed⟩ := bind_eq_ok.mp parsed
  obtain ⟨_, -, parsed⟩ := bind_eq_ok.mp parsed
  obtain ⟨_, -, parsed⟩ := bind_eq_ok.mp parsed
  rw [← pure_eq_ok.mp parsed]
  refine ⟨holds.1, fun a member => ?_⟩
  rcases StateDiff.mem_keys_setStorage.mp member with same | member
  · exact .inl same
  · exact holds.2 a member

theorem parseStateDiff_nested {stateDiff stateDiff' : StateDiff} {diff : StateDiffJson}
    (ran : parseStateDiff hex stateDiff diff = .ok stateDiff') (nested : stateDiff.StorageNested) :
    stateDiff'.StorageNested := by
  obtain ⟨address, -, ran⟩ := bind_eq_ok.mp ran
  obtain ⟨_, -, ran⟩ := bind_eq_ok.mp ran
  obtain ⟨_, -, ran⟩ := bind_eq_ok.mp ran
  obtain ⟨written, storageRan, ran⟩ := bind_eq_ok.mp ran
  obtain ⟨sameMain, storageKeys⟩ := parseStorageDiff_keys storageRan
  rw [← pure_eq_ok.mp ran]
  intro a member
  refine PyDict.mem_keys_setItem.mpr ?_
  rcases storageKeys a member with same | member
  · exact .inl same
  · exact .inr (sameMain ▸ nested a member)

/-- Every address with storage diffs also has an account diff, in a `StateDiff` built by
`from_tries` (well-formed tries or not) or by `from_data`. -/
theorem storage_tries_nested :
    (∀ (rlp : RlpDecoding) (fuel : Nat) (tries : EthereumTrieTransitionDB) (diff : StateDiff),
      fromTries rlp fuel tries = .ok diff →
        ∀ address ∈ diff.storageTries.keys, address ∈ diff.mainTrie.keys) ∧
    (∀ (hex : HexParsing) (stateDiffs : List StateDiffJson) (diff : StateDiff),
      fromData hex stateDiffs = .ok diff →
        ∀ address ∈ diff.storageTries.keys, address ∈ diff.mainTrie.keys) :=
  ⟨fun _ _ _ _ ran => fromTries_nested ran,
    fun _ _ _ ran => foldlM_preserves (fun _ _ _ _ nested parsed => parseStateDiff_nested parsed nested)
      (fun _ member => absurd member (List.not_mem_nil _)) ran⟩

/-- What `d[key]` holds after `d[k] = v` for the pairs of `pairs` in order, from an empty dict:
the value of the last pair for `key`. -/
def lastValue {β : Type} (pairs : List (Bytes × β)) (key : Bytes) : Option β :=
  (pairs.reverse.find? fun pair => pair.1 = key).map Prod.snd

theorem lastValue_nil {β : Type} {key : Bytes} : lastValue ([] : List (Bytes × β)) key = none := rfl

theorem lastValue_append {β : Type} {pairs pairs' : List (Bytes × β)} {key : Bytes} :
    lastValue (pairs ++ pairs') key = (lastValue pairs' key).or (lastValue pairs key) := by
  simp only [lastValue, List.reverse_append, List.find?_append, Option.map_or']

theorem lastValue_cons {β : Type} {k key : Bytes} {value : β} {pairs : List (Bytes × β)} :
    lastValue ((k, value) :: pairs) key =
      (lastValue pairs key).or (if k = key then some value else none) := by
  rw [← List.singleton_append, lastValue_append]
  by_cases same : k = key <;> simp [lastValue, same]

/-- A storage item as `from_data` reads it: the slot key and the two values, a zero value read
as absent. -/
def ParsesSlot (hex : HexParsing) (item : StorageDiffJson)
    (slot : Bytes × (Option Nat × Option Nat)) : Prop :=
  fixedFromhex hex 32 (item.storageKey.drop 2) = .ok slot.1 ∧
    (hex.int16 (item.preValue.drop 2) >>= optionalU256) = .ok slot.2.1 ∧
    (hex.int16 (item.postValue.drop 2) >>= optionalU256) = .ok slot.2.2

/-- An entry of `stateDiffs` as `from_data` reads it. -/
structure ParsedStateDiff where
  address : Bytes
  accounts : Option Account × Option Account
  slots : List (Bytes × (Option Nat × Option Nat))

/-- The entry `diff` reads as `parsed`. -/
def Parses (hex : HexParsing) (diff : StateDiffJson) (parsed : ParsedStateDiff) : Prop :=
  fixedFromhex hex 20 (diff.address.drop 2) = .ok parsed.address ∧
    diff.preAccount.mapM (parseAccount hex) = .ok parsed.accounts.1 ∧
    diff.postAccount.mapM (parseAccount hex) = .ok parsed.accounts.2 ∧
    List.Forall₂ (ParsesSlot hex) (diff.storage.getD []) parsed.slots

/-- The slot items of the entries for `address`, in input order. -/
def slotItems (parsed : List ParsedStateDiff) (address : Bytes) :
    List (Bytes × (Option Nat × Option Nat)) :=
  (parsed.filter fun entry => entry.address = address).flatMap ParsedStateDiff.slots

theorem slotItems_cons {entry : ParsedStateDiff} {parsed : List ParsedStateDiff} {address : Bytes} :
    slotItems (entry :: parsed) address =
      (if entry.address = address then entry.slots else []) ++ slotItems parsed address := by
  by_cases same : entry.address = address <;> simp [slotItems, same]

section Reads

variable {address : Bytes} {s s' : StateDiff}

theorem parseStorageDiff_reads {item : StorageDiffJson}
    (ran : parseStorageDiff hex address s item = .ok s') :
    ∃ slot, ParsesSlot hex item slot ∧ s' = s.setStorage address slot.1 slot.2 := by
  obtain ⟨key, keyParsed, ran⟩ := bind_eq_ok.mp ran
  obtain ⟨preInt, preParsed, ran⟩ := bind_eq_ok.mp ran
  obtain ⟨postInt, postParsed, ran⟩ := bind_eq_ok.mp ran
  obtain ⟨pre, preRead, ran⟩ := bind_eq_ok.mp ran
  obtain ⟨post, postRead, ran⟩ := bind_eq_ok.mp ran
  exact ⟨(key, pre, post), ⟨keyParsed, bind_eq_ok.mpr ⟨preInt, preParsed, preRead⟩,
    bind_eq_ok.mpr ⟨postInt, postParsed, postRead⟩⟩, (pure_eq_ok.mp ran).symm⟩

theorem parseStorageDiff_eq {item : StorageDiffJson} {slot : Bytes × (Option Nat × Option Nat)}
    (parses : ParsesSlot hex item slot) :
    parseStorageDiff hex address s item = .ok (s.setStorage address slot.1 slot.2) := by
  obtain ⟨key, pre, post⟩ := parses
  obtain ⟨preInt, preParsed, preRead⟩ := bind_eq_ok.mp pre
  obtain ⟨postInt, postParsed, postRead⟩ := bind_eq_ok.mp post
  exact bind_eq_ok.mpr ⟨_, key, bind_eq_ok.mpr ⟨_, preParsed, bind_eq_ok.mpr ⟨_, postParsed,
    bind_eq_ok.mpr ⟨_, preRead, bind_eq_ok.mpr ⟨_, postRead, rfl⟩⟩⟩⟩⟩

theorem parseStorageDiffs_reads : ∀ {items : List StorageDiffJson} {s s' : StateDiff},
    items.foldlM (parseStorageDiff hex address) s = .ok s' →
    ∃ slots, List.Forall₂ (ParsesSlot hex) items slots ∧ s'.mainTrie = s.mainTrie ∧
      ∀ a key, (s'.slots a).get? key =
        (lastValue (if address = a then slots else []) key).or ((s.slots a).get? key)
  | [], s, s', ran => by
      cases Except.ok.inj ran
      exact ⟨[], .nil, rfl, fun _ _ => by rw [ite_self]; rfl⟩
  | item :: items, s, s', ran => by
      obtain ⟨next, first, rest⟩ := bind_eq_ok.mp ran
      obtain ⟨slot, parses, rfl⟩ := parseStorageDiff_reads first
      obtain ⟨slots, each, main, read⟩ := parseStorageDiffs_reads rest
      refine ⟨slot :: slots, .cons parses each, main, fun a key => ?_⟩
      rw [read, StateDiff.slots_setStorage]
      by_cases same : address = a
      · subst same
        rw [if_pos rfl, if_pos rfl, if_pos rfl, PyDict.get?_setItem, lastValue_cons, Option.or_assoc]
        by_cases found : slot.1 = key
        · rw [if_pos found, if_pos found.symm]
          rfl
        · rw [if_neg found, if_neg (Ne.symm found)]
          rfl
      · rw [if_neg same, if_neg same, if_neg (Ne.symm same)]

theorem parseStateDiff_reads {diff : StateDiffJson} (ran : parseStateDiff hex s diff = .ok s') :
    ∃ parsed, Parses hex diff parsed ∧
      s'.mainTrie = s.mainTrie.setItem parsed.address parsed.accounts ∧
      ∀ a key, (s'.slots a).get? key =
        (lastValue (if parsed.address = a then parsed.slots else []) key).or ((s.slots a).get? key) := by
  obtain ⟨address, addressParsed, ran⟩ := bind_eq_ok.mp ran
  obtain ⟨pre, preParsed, ran⟩ := bind_eq_ok.mp ran
  obtain ⟨post, postParsed, ran⟩ := bind_eq_ok.mp ran
  obtain ⟨written, inner, ran⟩ := bind_eq_ok.mp ran
  obtain ⟨slots, each, main, read⟩ := parseStorageDiffs_reads inner
  cases pure_eq_ok.mp ran
  exact ⟨⟨address, (pre, post), slots⟩, ⟨addressParsed, preParsed, postParsed, each⟩,
    by rw [← main], read⟩

/-- The run lemma of the outer loop, from any state: each address holds the accounts of its last
entry, and each slot the values of its last item among the entries of its address; what the
entries do not write keeps its value. -/
theorem parseStateDiffs_reads : ∀ {stateDiffs : List StateDiffJson} {s s' : StateDiff},
    stateDiffs.foldlM (parseStateDiff hex) s = .ok s' →
    ∃ parsed, List.Forall₂ (Parses hex) stateDiffs parsed ∧
      (∀ a, s'.mainTrie.get? a =
        (lastValue (parsed.map fun entry => (entry.address, entry.accounts)) a).or (s.mainTrie.get? a)) ∧
      ∀ a key, (s'.slots a).get? key = (lastValue (slotItems parsed a) key).or ((s.slots a).get? key)
  | [], s, s', ran => by
      cases Except.ok.inj ran
      exact ⟨[], .nil, fun _ => rfl, fun _ _ => rfl⟩
  | diff :: stateDiffs, s, s', ran => by
      obtain ⟨next, first, rest⟩ := bind_eq_ok.mp ran
      obtain ⟨entry, parses, main, read⟩ := parseStateDiff_reads first
      obtain ⟨parsed, each, main', read'⟩ := parseStateDiffs_reads rest
      refine ⟨entry :: parsed, .cons parses each, fun a => ?_, fun a key => ?_⟩
      · rw [main', main, PyDict.get?_setItem, List.map_cons, lastValue_cons, Option.or_assoc]
        by_cases same : entry.address = a
        · rw [if_pos same, if_pos same.symm]
          rfl
        · rw [if_neg same, if_neg (Ne.symm same)]
          rfl
      · rw [read', read, slotItems_cons, lastValue_append, Option.or_assoc]

end Reads

/-- `from_data` returns exactly when every entry of the list reads as an address, two optional
accounts and a list of slots; it then maps each address to the accounts of its last entry, and
gives each address one slot map in which each key holds the values of its last item among all
the entries of the address. -/
theorem fromData_reads {stateDiffs : List StateDiffJson} :
    ((∃ diff, fromData hex stateDiffs = .ok diff) ↔
      ∃ parsed, List.Forall₂ (Parses hex) stateDiffs parsed) ∧
    ∀ diff, fromData hex stateDiffs = .ok diff →
      ∃ parsed, List.Forall₂ (Parses hex) stateDiffs parsed ∧
        (∀ address, diff.mainTrie.get? address =
          lastValue (parsed.map fun entry => (entry.address, entry.accounts)) address) ∧
        ∀ address key, (diff.slots address).get? key = lastValue (slotItems parsed address) key := by
  refine ⟨⟨fun ⟨_, ran⟩ => ?_, fun ⟨_, each⟩ => ?_⟩, fun _ ran => ?_⟩
  · obtain ⟨parsed, each, -⟩ := parseStateDiffs_reads ran
    exact ⟨parsed, each⟩
  · refine foldlM_exists_of_forall₂ (fun diff entry s parses => ?_) each
    obtain ⟨address, pre, post, slots⟩ := parses
    obtain ⟨written, inner⟩ : ∃ written,
        (diff.storage.getD []).foldlM (parseStorageDiff hex entry.address) s = .ok written :=
      foldlM_exists_of_forall₂ (R := ParsesSlot hex) (fun _ _ _ parses => ⟨_, parseStorageDiff_eq parses⟩)
        slots
    exact ⟨_, bind_eq_ok.mpr ⟨_, address, bind_eq_ok.mpr ⟨_, pre, bind_eq_ok.mpr ⟨_, post,
      bind_eq_ok.mpr ⟨_, inner, rfl⟩⟩⟩⟩⟩
  · obtain ⟨parsed, each, main, read⟩ := parseStateDiffs_reads ran
    refine ⟨parsed, each, fun a => ?_, fun a key => ?_⟩
    · rw [main a]
      exact Option.or_none
    · rw [read a key]
      exact Option.or_none

/-- The reads of one storage item, without its write: the slot key and the two values. -/
def readStorageDiff (hex : HexParsing) (storageDiff : StorageDiffJson) :
    Except PyError (Bytes × (Option Nat × Option Nat)) := do
  let key ← fixedFromhex hex 32 (storageDiff.storageKey.drop 2)
  let preInt ← hex.int16 (storageDiff.preValue.drop 2)
  let postInt ← hex.int16 (storageDiff.postValue.drop 2)
  let pre ← optionalU256 preInt
  let post ← optionalU256 postInt
  pure (key, pre, post)

/-- The reads of one entry of `stateDiffs`, without its writes. -/
def readStateDiff (hex : HexParsing) (diff : StateDiffJson) : Except PyError ParsedStateDiff := do
  let address ← fixedFromhex hex 20 (diff.address.drop 2)
  let preAccount ← diff.preAccount.mapM (parseAccount hex)
  let postAccount ← diff.postAccount.mapM (parseAccount hex)
  let slots ← (diff.storage.getD []).mapM (readStorageDiff hex)
  pure ⟨address, (preAccount, postAccount), slots⟩

/-- The writes of one entry, given what it read: its slots in order, then its accounts. -/
def writeStateDiff (stateDiff : StateDiff) (entry : ParsedStateDiff) : StateDiff :=
  let stateDiff := entry.slots.foldl (fun s slot => s.setStorage entry.address slot.1 slot.2) stateDiff
  { stateDiff with mainTrie := stateDiff.mainTrie.setItem entry.address entry.accounts }

theorem mainTrie_foldl_setStorage {address : Bytes} :
    ∀ (slots : List (Bytes × (Option Nat × Option Nat))) (s : StateDiff),
      (slots.foldl (fun s slot => s.setStorage address slot.1 slot.2) s).mainTrie = s.mainTrie
  | [], _ => rfl
  | _ :: slots, _ => mainTrie_foldl_setStorage slots _

theorem slots_foldl_setStorage {address a : Bytes} :
    ∀ (slots : List (Bytes × (Option Nat × Option Nat))) (s : StateDiff),
      (slots.foldl (fun s slot => s.setStorage address slot.1 slot.2) s).slots a =
        if address = a then slots.foldl (fun d slot => d.setItem slot.1 slot.2) (s.slots a) else s.slots a
  | [], _ => by split_ifs <;> rfl
  | slot :: slots, s => by
      rw [List.foldl_cons, slots_foldl_setStorage slots, StateDiff.slots_setStorage]
      by_cases same : address = a
      · subst same
        simp only [if_true]
        rfl
      · simp only [if_neg same, if_neg (Ne.symm same)]

theorem mainTrie_writeStateDiff {s : StateDiff} {entry : ParsedStateDiff} :
    (writeStateDiff s entry).mainTrie = s.mainTrie.setItem entry.address entry.accounts :=
  congrArg (·.setItem entry.address entry.accounts) (mainTrie_foldl_setStorage entry.slots s)

theorem slots_writeStateDiff {s : StateDiff} {entry : ParsedStateDiff} {a : Bytes} :
    (writeStateDiff s entry).slots a =
      if entry.address = a then entry.slots.foldl (fun d slot => d.setItem slot.1 slot.2) (s.slots a)
      else s.slots a :=
  slots_foldl_setStorage entry.slots s

theorem mainTrie_foldl_writeStateDiff : ∀ (entries : List ParsedStateDiff) (s : StateDiff),
    (entries.foldl writeStateDiff s).mainTrie =
      entries.foldl (fun d entry => d.setItem entry.address entry.accounts) s.mainTrie
  | [], _ => rfl
  | entry :: entries, s => by
      rw [List.foldl_cons, mainTrie_foldl_writeStateDiff entries, mainTrie_writeStateDiff]
      rfl

theorem slots_foldl_writeStateDiff : ∀ (entries : List ParsedStateDiff) (s : StateDiff) (a : Bytes),
    (entries.foldl writeStateDiff s).slots a =
      (slotItems entries a).foldl (fun d slot => d.setItem slot.1 slot.2) (s.slots a)
  | [], _, _ => rfl
  | entry :: entries, s, a => by
      rw [List.foldl_cons, slots_foldl_writeStateDiff entries, slots_writeStateDiff, slotItems_cons,
        List.foldl_append]
      split_ifs <;> rfl

theorem slots_foldl_writeStateDiff_of_not_mem {a : Bytes} {entries : List ParsedStateDiff} {s : StateDiff}
    (absent : a ∉ entries.map ParsedStateDiff.address) : (entries.foldl writeStateDiff s).slots a = s.slots a := by
  rw [slots_foldl_writeStateDiff, slotItems, List.filter_eq_nil_iff.mpr fun entry member same =>
    absent (List.mem_map.mpr ⟨entry, member, of_decide_eq_true same⟩)]
  rfl

theorem parseStorageDiff_eq_map {address : Bytes} :
    parseStorageDiff hex address = fun s storageDiff =>
      (fun slot => s.setStorage address slot.1 slot.2) <$> readStorageDiff hex storageDiff := by
  funext s storageDiff
  simp only [parseStorageDiff, readStorageDiff, map_bind, map_pure]

theorem parseStateDiff_eq_map :
    parseStateDiff hex = fun s diff => writeStateDiff s <$> readStateDiff hex diff := by
  funext s diff
  simp only [parseStateDiff, readStateDiff, writeStateDiff, parseStorageDiff_eq_map, foldlM_eq_map_mapM,
    map_bind, map_pure, bind_map_left]

/-- `from_data` is its reads, entry by entry, followed by its writes.  It raises exactly when an
entry does not read, with the error of the first such entry, all entries before it having read. -/
theorem fromData_reads_then_writes {stateDiffs : List StateDiffJson} :
    fromData hex stateDiffs =
        (fun entries => entries.foldl writeStateDiff StateDiff.empty) <$>
          stateDiffs.mapM (readStateDiff hex) ∧
      ∀ e, fromData hex stateDiffs = .error e ↔
        ∃ pre diff post, stateDiffs = pre ++ diff :: post ∧
          (∀ d ∈ pre, ∃ entry, readStateDiff hex d = .ok entry) ∧ readStateDiff hex diff = .error e := by
  have twoPhase : fromData hex stateDiffs =
      (fun entries => entries.foldl writeStateDiff StateDiff.empty) <$>
        stateDiffs.mapM (readStateDiff hex) := by
    rw [fromData, parseStateDiff_eq_map, foldlM_eq_map_mapM]
  exact ⟨twoPhase, fun e => by rw [twoPhase, map_eq_error, mapM_eq_error_iff]⟩

section ReadErrors

variable {e : PyError}

end ReadErrors

/-- An account whose fields fit their types in `Account`: a `U256` balance, and a `Hash32` code
hash and storage root. -/
def Account.Typed (account : Account) : Prop :=
  account.balance < 2 ^ 256 ∧ account.codeHash.length = 32 ∧ account.storageRoot.length = 32

instance (account : Account) : Decidable account.Typed :=
  inferInstanceAs (Decidable (_ ∧ _ ∧ _))

/-- A slot value as `from_data` keeps it: `None`, or a non-zero `U256`. -/
def NonzeroU256 : Option Nat → Prop
  | none => True
  | some v => 0 < v ∧ v < 2 ^ 256

instance : DecidablePred NonzeroU256
  | none => inferInstanceAs (Decidable True)
  | some v => inferInstanceAs (Decidable (0 < v ∧ v < 2 ^ 256))

/-- A slot of `_storage_tries`: a `Bytes32` key and its two values. -/
def SlotTyped (slot : Bytes × (Option Nat × Option Nat)) : Prop :=
  slot.1.length = 32 ∧ NonzeroU256 slot.2.1 ∧ NonzeroU256 slot.2.2

/-- A `StateDiff` whose two maps hold what their declared types allow: `Address` keys of 20 bytes,
typed accounts and typed slots. -/
structure StateDiff.Typed (diff : StateDiff) : Prop where
  accounts : ∀ address accounts, diff.mainTrie.get? address = some accounts →
    address.length = 20 ∧ ∀ a, accounts.1 = some a ∨ accounts.2 = some a → a.Typed
  slots : ∀ address key values, (diff.slots address).get? key = some values →
    address.length = 20 ∧ SlotTyped (key, values)

theorem StateDiff.typed_empty : StateDiff.empty.Typed :=
  ⟨(fun _ _ found => nomatch PyDict.get?_empty.symm.trans found),
    (fun _ _ _ found => nomatch PyDict.get?_empty.symm.trans found)⟩

theorem fixedFromhex_length {width : Nat} {s : String} {b : Bytes}
    (parsed : fixedFromhex hex width s = .ok b) : b.length = width := by
  obtain ⟨_, -, checked⟩ := bind_eq_ok.mp parsed
  split_ifs at checked with fits
  exact pure_eq_ok.mp checked ▸ fits

theorem parseAccount_typed {json : AccountJson} {account : Account}
    (parsed : parseAccount hex json = .ok account) : account.Typed := by
  obtain ⟨_, -, parsed⟩ := bind_eq_ok.mp parsed
  obtain ⟨_, balance, parsed⟩ := bind_eq_ok.mp parsed
  obtain ⟨_, -, parsed⟩ := bind_eq_ok.mp parsed
  obtain ⟨_, -, parsed⟩ := bind_eq_ok.mp parsed
  obtain ⟨_, codeHash, parsed⟩ := bind_eq_ok.mp parsed
  obtain ⟨_, storageRoot, parsed⟩ := bind_eq_ok.mp parsed
  cases pure_eq_ok.mp parsed
  exact ⟨(u256_eq_ok balance).2, fixedFromhex_length codeHash, fixedFromhex_length storageRoot⟩

theorem optionalU256_nonzero {n : Int} {value : Option Nat} (read : optionalU256 n = .ok value) :
    NonzeroU256 value := by
  unfold optionalU256 at read
  split_ifs at read with zero
  · cases pure_eq_ok.mp read
    trivial
  · have read : (some n).mapM u256 = .ok value := read
    obtain ⟨v, inRange, rfl⟩ := optionMapM_some_eq_ok read
    have same := (u256_eq_ok inRange).1
    exact ⟨by omega, (u256_eq_ok inRange).2⟩

theorem ParsesSlot.typed {item : StorageDiffJson} {slot : Bytes × (Option Nat × Option Nat)}
    (parses : ParsesSlot hex item slot) : SlotTyped slot := by
  obtain ⟨key, pre, post⟩ := parses
  obtain ⟨_, -, pre⟩ := bind_eq_ok.mp pre
  obtain ⟨_, -, post⟩ := bind_eq_ok.mp post
  exact ⟨fixedFromhex_length key, optionalU256_nonzero pre, optionalU256_nonzero post⟩

/-- An entry of `stateDiffs` as read, with its types: an `Address`, typed accounts and typed
slots. -/
structure ParsedStateDiff.Typed (entry : ParsedStateDiff) : Prop where
  address : entry.address.length = 20
  accounts : ∀ a, entry.accounts.1 = some a ∨ entry.accounts.2 = some a → a.Typed
  slots : ∀ slot ∈ entry.slots, SlotTyped slot

theorem Parses.typed {diff : StateDiffJson} {entry : ParsedStateDiff} (parses : Parses hex diff entry) :
    entry.Typed := by
  obtain ⟨address, pre, post, slots⟩ := parses
  have accountTyped : ∀ {json : Option AccountJson} {accounts}, json.mapM (parseAccount hex) = .ok accounts →
      ∀ a, accounts = some a → a.Typed := by
    rintro json _ run a rfl
    obtain ⟨_, -, parsed⟩ := optionMapM_eq_ok_some run
    exact parseAccount_typed parsed
  refine ⟨fixedFromhex_length address, fun a found => found.elim (accountTyped pre a) (accountTyped post a),
    fun slot member => ?_⟩
  obtain ⟨_, -, parses⟩ := exists_of_forall₂_mem slots member
  exact parses.typed

theorem lastValue_mem {β : Type} {pairs : List (Bytes × β)} {key : Bytes} {value : β}
    (found : lastValue pairs key = some value) : (key, value) ∈ pairs := by
  unfold lastValue at found
  obtain ⟨⟨k, _⟩, first, rfl⟩ := Option.map_eq_some'.mp found
  obtain rfl : k = key := by simpa using List.find?_some first
  exact List.mem_reverse.mp (List.mem_of_find?_eq_some first)

theorem mem_slotItems {parsed : List ParsedStateDiff} {address : Bytes}
    {slot : Bytes × (Option Nat × Option Nat)} (member : slot ∈ slotItems parsed address) :
    ∃ entry ∈ parsed, entry.address = address ∧ slot ∈ entry.slots := by
  simpa [slotItems, and_assoc] using member

theorem parseStateDiffs_typed {stateDiffs : List StateDiffJson} {s s' : StateDiff}
    (ran : stateDiffs.foldlM (parseStateDiff hex) s = .ok s') (typed : s.Typed) : s'.Typed := by
  obtain ⟨parsed, each, main, read⟩ := parseStateDiffs_reads ran
  have entries : ∀ entry ∈ parsed, entry.Typed := fun entry member => by
    obtain ⟨_, -, parses⟩ := exists_of_forall₂_mem each member
    exact parses.typed
  refine ⟨fun address accounts found => ?_, fun address key values found => ?_⟩
  · rcases Option.or_eq_some.mp ((main address).symm.trans found) with found | ⟨-, found⟩
    · obtain ⟨entry, member, same⟩ := List.mem_map.mp (lastValue_mem found)
      cases same
      exact ⟨(entries entry member).address, (entries entry member).accounts⟩
    · exact typed.accounts address accounts found
  · rcases Option.or_eq_some.mp ((read address key).symm.trans found) with found | ⟨-, found⟩
    · obtain ⟨entry, member, rfl, slot⟩ := mem_slotItems (lastValue_mem found)
      exact ⟨(entries entry member).address, (entries entry member).slots _ slot⟩
    · exact typed.slots address key values found

/-- What `from_data` returns is typed: every address is an `Address` of 20 bytes, every account has
a `U256` balance and a `Hash32` code hash and storage root, every slot key is a `Bytes32`, and
every slot value kept is a non-zero `U256`. -/
theorem fromData_typed {stateDiffs : List StateDiffJson} {diff : StateDiff}
    (ran : fromData hex stateDiffs = .ok diff) : diff.Typed :=
  parseStateDiffs_typed ran StateDiff.typed_empty

/-- A parsing that reads a hex string by its length alone: `bytes.fromhex` gives a zero byte for
every two digits, and `int(s, 16)` reads `0` as zero and any other string as one. -/
def lengthHex : HexParsing :=
  ⟨fun s => pure (if s = "0" then 0 else 1), fun s => pure (List.replicate (s.length / 2) 0)⟩

/-- An entry of `stateDiffs` for an account created with one slot written from zero. -/
def createdEntry : StateDiffJson :=
  ⟨"0x" ++ String.mk (List.replicate 40 'a'), none,
    some ⟨"0x1", "0x1", "0x" ++ String.mk (List.replicate 64 'b'),
      "0x" ++ String.mk (List.replicate 64 'c')⟩,
    some [⟨"0x" ++ String.mk (List.replicate 64 'd'), "0x0", "0x1"⟩]⟩

set_option maxRecDepth 2000 in
theorem createdEntry_typed :
    ∃ diff, fromData lengthHex [createdEntry] = .ok diff ∧ diff.Typed := by
  obtain ⟨diff, ran⟩ : ∃ diff, fromData lengthHex [createdEntry] = .ok diff := ⟨_, rfl⟩
  exact ⟨diff, ran, fromData_typed ran⟩

/-- The keys of a dict that holds the keys `seen`, after assigning the keys `keys` in order: a new
key goes last, an old one keeps its place. -/
def insertKeys (seen keys : List Bytes) : List Bytes :=
  keys.foldl (fun seen k => if k ∈ seen then seen else seen ++ [k]) seen

theorem insertKeys_append {seen keys keys' : List Bytes} :
    insertKeys seen (keys ++ keys') = insertKeys (insertKeys seen keys) keys' :=
  List.foldl_append _ _ _ _

theorem insertKeys_setItem {V : Type} {d : PyDict Bytes V} {key : Bytes} {value : V}
    {keys : List Bytes} :
    insertKeys (d.setItem key value).keys keys = insertKeys d.keys (key :: keys) := by
  rw [PyDict.keys_setItem]
  simp only [insertKeys, List.foldl_cons]
  congr

theorem StateDiff.storageTries_keys_setStorage {self : StateDiff} {address key : Bytes}
    {value : Option Nat × Option Nat} :
    (self.setStorage address key value).storageTries.keys =
      if address ∈ self.storageTries.keys then self.storageTries.keys
      else self.storageTries.keys ++ [address] := by
  unfold StateDiff.setStorage
  split_ifs with present <;> simp [PyDict.keys_setItem, present]

theorem keys_foldl_setItem {α V : Type} (key : α → Bytes) (value : α → V) :
    ∀ (xs : List α) (d : PyDict Bytes V),
      (xs.foldl (fun d x => d.setItem (key x) (value x)) d).keys = insertKeys d.keys (xs.map key)
  | [], _ => rfl
  | _ :: xs, _ => by rw [List.foldl_cons, keys_foldl_setItem key value xs, insertKeys_setItem]; rfl

theorem storageTries_keys_foldl_setStorage (address : Bytes) :
    ∀ (slots : List (Bytes × (Option Nat × Option Nat))) (s : StateDiff),
      (slots.foldl (fun s slot => s.setStorage address slot.1 slot.2) s).storageTries.keys =
        insertKeys s.storageTries.keys (slots.map fun _ => address)
  | [], _ => rfl
  | _ :: slots, _ => by
      rw [List.foldl_cons, storageTries_keys_foldl_setStorage address slots,
        StateDiff.storageTries_keys_setStorage]
      rfl

theorem storageTries_keys_foldl_writeStateDiff : ∀ (entries : List ParsedStateDiff) (s : StateDiff),
    (entries.foldl writeStateDiff s).storageTries.keys = insertKeys s.storageTries.keys
      (entries.flatMap fun entry => entry.slots.map fun _ => entry.address)
  | [], _ => rfl
  | entry :: entries, s => by
      rw [List.foldl_cons, storageTries_keys_foldl_writeStateDiff entries, List.flatMap_cons,
        insertKeys_append]
      exact congrArg (insertKeys · _) (storageTries_keys_foldl_setStorage entry.address entry.slots s)

theorem foldl_writeStateDiff_keys (entries : List ParsedStateDiff) (s : StateDiff) :
    let s' := entries.foldl writeStateDiff s
    s'.mainTrie.keys = insertKeys s.mainTrie.keys (entries.map ParsedStateDiff.address) ∧
      s'.storageTries.keys = insertKeys s.storageTries.keys
        (entries.flatMap fun entry => entry.slots.map fun _ => entry.address) ∧
      ∀ a, (s'.slots a).keys = insertKeys (s.slots a).keys ((slotItems entries a).map Prod.fst) :=
  ⟨by rw [mainTrie_foldl_writeStateDiff, keys_foldl_setItem],
    storageTries_keys_foldl_writeStateDiff entries s,
    fun a => by rw [slots_foldl_writeStateDiff, keys_foldl_setItem]⟩

/-- `from_data` keeps the insertion order of its input: `_main_trie` lists the addresses in the
order they first appear in `stateDiffs`, `_storage_tries` the addresses in the order their first
storage item appears, and each slot map the slot keys of its address in the order they first
appear among the entries of the address. -/
theorem fromData_insertion_order {stateDiffs : List StateDiffJson} {diff : StateDiff}
    (ran : fromData hex stateDiffs = .ok diff) :
    ∃ entries, stateDiffs.mapM (readStateDiff hex) = .ok entries ∧
      diff.mainTrie.keys = insertKeys [] (entries.map ParsedStateDiff.address) ∧
      diff.storageTries.keys = insertKeys []
        (entries.flatMap fun entry => entry.slots.map fun _ => entry.address) ∧
      ∀ address, (diff.slots address).keys = insertKeys [] ((slotItems entries address).map Prod.fst) := by
  rw [fromData, parseStateDiff_eq_map, foldlM_eq_map_mapM] at ran
  obtain ⟨entries, read, rfl⟩ := map_eq_ok.mp ran
  exact ⟨entries, read, foldl_writeStateDiff_keys entries StateDiff.empty⟩

/-- Parsing builtins for the examples: int(s, 16) reads the length of s, and bytes.fromhex(s)
one byte for each character. -/
def charHex : HexParsing :=
  ⟨fun s => pure s.length, fun s => pure (s.data.map fun c => UInt8.ofNat c.toNat)⟩

/-- The address a with the slot x, the address b, then a again with the slots y and x. -/
def repeatedEntries : List StateDiffJson :=
  [⟨"0x" ++ String.mk (List.replicate 20 'a'), none, none,
      some [⟨"0x" ++ String.mk (List.replicate 32 'x'), "0x", "0x1"⟩]⟩,
    ⟨"0x" ++ String.mk (List.replicate 20 'b'), none, none, none⟩,
    ⟨"0x" ++ String.mk (List.replicate 20 'a'), none, none,
      some [⟨"0x" ++ String.mk (List.replicate 32 'y'), "0x", "0x1"⟩,
        ⟨"0x" ++ String.mk (List.replicate 32 'x'), "0x1", "0x"⟩]⟩]

set_option maxRecDepth 4000 in
theorem repeatedEntries_insertion_order :
    ∃ diff, fromData charHex repeatedEntries = .ok diff ∧
      diff.mainTrie.keys = [List.replicate 20 97, List.replicate 20 98] ∧
      diff.storageTries.keys = [List.replicate 20 97] ∧
      (diff.slots (List.replicate 20 97)).keys = [List.replicate 32 120, List.replicate 32 121] ∧
      (diff.slots (List.replicate 20 97)).get? (List.replicate 32 120) = some (some 1, none) ∧
      ∃ entries, repeatedEntries.mapM (readStateDiff charHex) = .ok entries ∧
        diff.mainTrie.keys = insertKeys [] (entries.map ParsedStateDiff.address) ∧
        diff.storageTries.keys = insertKeys []
          (entries.flatMap fun entry => entry.slots.map fun _ => entry.address) ∧
        ∀ address, (diff.slots address).keys = insertKeys [] ((slotItems entries address).map Prod.fst) :=
  have ran : fromData charHex repeatedEntries = .ok _ := rfl
  ⟨_, ran, by decide, by decide, by decide, rfl, fromData_insertion_order ran⟩

/-- The shape of a built `StateDiff`: every address of `_storage_tries` has a slot, and the
witness data is the given one. -/
structure StateDiff.Shaped (nodes : NodeStore) (addressPreimages storageKeyPreimages : PyDict Bytes Bytes)
    (diff : StateDiff) : Prop where
  slotsNonempty : diff.SlotsNonempty
  nodes : diff.nodes = nodes
  addressPreimages : diff.addressPreimages = addressPreimages
  storageKeyPreimages : diff.storageKeyPreimages = storageKeyPreimages

section Shaped

variable {nodes : NodeStore} {addressPreimages storageKeyPreimages : PyDict Bytes Bytes}

theorem StateDiff.Shaped.foldl_setStorage {address : Bytes} :
    ∀ {slots : List (Bytes × (Option Nat × Option Nat))} {s : StateDiff},
      s.Shaped nodes addressPreimages storageKeyPreimages →
      (slots.foldl (fun s slot => s.setStorage address slot.1 slot.2) s).Shaped nodes addressPreimages
        storageKeyPreimages
  | [], _, shaped => shaped
  | slot :: _, s, shaped =>
      have next : (s.setStorage address slot.1 slot.2).Shaped nodes addressPreimages storageKeyPreimages :=
        ⟨shaped.slotsNonempty.setStorage, shaped.nodes, shaped.addressPreimages, shaped.storageKeyPreimages⟩
      (StateDiff.Shaped.foldl_setStorage next :)

theorem StateDiff.Shaped.writeStateDiff {s : StateDiff} {entry : ParsedStateDiff}
    (shaped : s.Shaped nodes addressPreimages storageKeyPreimages) :
    (writeStateDiff s entry).Shaped nodes addressPreimages storageKeyPreimages :=
  have written : (entry.slots.foldl (fun s slot => s.setStorage entry.address slot.1 slot.2) s).Shaped
      nodes addressPreimages storageKeyPreimages := shaped.foldl_setStorage
  ⟨written.slotsNonempty, written.nodes, written.addressPreimages, written.storageKeyPreimages⟩

end Shaped

/-- Both ways of building a `StateDiff` leave every address of `_storage_tries` with at least one
slot, and neither writes the witness data: `from_tries` keeps the nodes and preimages of its trie
DB, and `from_data` leaves them empty. -/
theorem stateDiff_shaped :
    (∀ (rlp : RlpDecoding) (fuel : Nat) (tries : EthereumTrieTransitionDB) (diff : StateDiff),
      fromTries rlp fuel tries = .ok diff →
        diff.Shaped tries.nodes tries.addressPreimages tries.storageKeyPreimages) ∧
    ∀ (hex : HexParsing) (stateDiffs : List StateDiffJson) (diff : StateDiff),
      fromData hex stateDiffs = .ok diff → diff.Shaped .empty .empty .empty := by
  refine ⟨fun rlp fuel tries diff ran => ?_, fun hex stateDiffs diff ran => ?_⟩
  · have kept := computeDiff_keeps (I := fun d : StateDiff => d.nodes = tries.nodes ∧
      d.addressPreimages = tries.addressPreimages ∧ d.storageKeyPreimages = tries.storageKeyPreimages)
      (fun _ _ _ _ _ holds ran => by
        obtain ⟨_, _, -, keeps⟩ := processAccountDiff_keepsOtherSlots ran
        exact ⟨keeps.nodes.trans holds.1, keeps.addressPreimages.trans holds.2.1,
          keeps.storageKeyPreimages.trans holds.2.2⟩) ⟨rfl, rfl, rfl⟩ ran
    exact ⟨fromTries_slotsNonempty ran, kept.1, kept.2.1, kept.2.2⟩
  · refine foldlM_preserves (fun diff _ s s' shaped parsed => ?_)
      ⟨fun _ member => absurd member (List.not_mem_nil _), rfl, rfl, rfl⟩ ran
    rw [parseStateDiff_eq_map] at parsed
    obtain ⟨entry, -, rfl⟩ := map_eq_ok.mp parsed
    exact shaped.writeStateDiff

end MptDiff
