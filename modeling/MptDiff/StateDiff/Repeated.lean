import MptDiff.StateDiff.FromData

namespace MptDiff

/-! # Reading the same diffs twice

`from_data` only assigns, and a second assignment of the same value moves no key, so reading a
list of diffs twice gives what reading it once gives.
-/

theorem mem_insertKeys_of_mem_seen {k : Bytes} :
    ∀ {seen keys : List Bytes}, k ∈ seen → k ∈ insertKeys seen keys
  | _, [], member => member
  | seen, k' :: _, member => by
      rw [insertKeys, List.foldl_cons]
      refine mem_insertKeys_of_mem_seen ?_
      split_ifs
      · exact member
      · exact List.mem_append_left _ member

theorem mem_insertKeys_of_mem {k : Bytes} :
    ∀ {seen keys : List Bytes}, k ∈ keys → k ∈ insertKeys seen keys
  | _, [], member => absurd member (List.not_mem_nil _)
  | seen, k' :: keys, member => by
      rw [insertKeys, List.foldl_cons]
      rcases List.mem_cons.mp member with rfl | later
      · refine mem_insertKeys_of_mem_seen ?_
        split_ifs with present
        · exact present
        · exact List.mem_append_right _ (List.mem_singleton_self k)
      · exact mem_insertKeys_of_mem later

theorem insertKeys_of_forall_mem : ∀ {seen keys : List Bytes}, (∀ k ∈ keys, k ∈ seen) →
    insertKeys seen keys = seen
  | _, [], _ => rfl
  | seen, k :: keys, present => by
      rw [insertKeys, List.foldl_cons, if_pos (present k (List.mem_cons_self k keys))]
      exact insertKeys_of_forall_mem fun k' member => present k' (List.mem_cons_of_mem k member)

theorem insertKeys_twice {seen keys : List Bytes} :
    insertKeys (insertKeys seen keys) keys = insertKeys seen keys :=
  insertKeys_of_forall_mem fun _ member => mem_insertKeys_of_mem member

theorem get?_foldl_setItem {α V : Type} (key : α → Bytes) (value : α → V) :
    ∀ (xs : List α) (d : PyDict Bytes V) (k : Bytes),
      (xs.foldl (fun d x => d.setItem (key x) (value x)) d).get? k =
        (lastValue (xs.map fun x => (key x, value x)) k).or (d.get? k)
  | [], _, _ => rfl
  | x :: xs, d, k => by
      rw [List.foldl_cons, get?_foldl_setItem key value xs, PyDict.get?_setItem, List.map_cons,
        lastValue_cons, Option.or_assoc]
      by_cases same : key x = k
      · rw [if_pos same.symm, if_pos same]
        rfl
      · rw [if_neg (Ne.symm same), if_neg same]
        rfl

theorem foldl_setItem_twice {α V : Type} (key : α → Bytes) (value : α → V) (xs : List α)
    (d : PyDict Bytes V) :
    xs.foldl (fun d x => d.setItem (key x) (value x)) (xs.foldl (fun d x => d.setItem (key x) (value x)) d) =
      xs.foldl (fun d x => d.setItem (key x) (value x)) d :=
  PyDict.ext_get? (by rw [keys_foldl_setItem, keys_foldl_setItem, insertKeys_twice]) fun k => by
    rw [get?_foldl_setItem, get?_foldl_setItem, ← Option.or_assoc, Option.or_self]

theorem foldl_setStorage_frame (address : Bytes) :
    ∀ (slots : List (Bytes × (Option Nat × Option Nat))) (s : StateDiff),
      ∃ t, slots.foldl (fun s slot => s.setStorage address slot.1 slot.2) s = { s with storageTries := t }
  | [], s => ⟨s.storageTries, rfl⟩
  | _ :: slots, _ => foldl_setStorage_frame address slots _

theorem foldl_writeStateDiff_frame : ∀ (entries : List ParsedStateDiff) (s : StateDiff),
    ∃ m t, entries.foldl writeStateDiff s = { s with mainTrie := m, storageTries := t }
  | [], s => ⟨s.mainTrie, s.storageTries, rfl⟩
  | entry :: entries, s => by
      obtain ⟨t, written⟩ := foldl_setStorage_frame entry.address entry.slots s
      obtain ⟨m', t', rest⟩ := foldl_writeStateDiff_frame entries (writeStateDiff s entry)
      rw [List.foldl_cons, rest, writeStateDiff, written]
      exact ⟨m', t', rfl⟩

theorem StateDiff.get?_storageTries_of_mem {diff : StateDiff} {address : Bytes}
    (member : address ∈ diff.storageTries.keys) :
    diff.storageTries.get? address = some (diff.slots address) := by
  obtain ⟨slots, found⟩ := Option.isSome_iff_exists.mp (PyDict.mem_keys_iff.mp member)
  rw [StateDiff.slots, found]
  rfl

theorem StateDiff.storageTries_eq {diff diff' : StateDiff}
    (keys : diff.storageTries.keys = diff'.storageTries.keys) (slots : ∀ a, diff.slots a = diff'.slots a) :
    diff.storageTries = diff'.storageTries :=
  PyDict.ext_get? keys fun a => by
    by_cases member : a ∈ diff.storageTries.keys
    · rw [StateDiff.get?_storageTries_of_mem member, StateDiff.get?_storageTries_of_mem (keys ▸ member),
        slots]
    · rw [PyDict.get?_eq_none_of_not_mem member, PyDict.get?_eq_none_of_not_mem (keys ▸ member)]

theorem foldl_writeStateDiff_twice (entries : List ParsedStateDiff) (s : StateDiff) :
    entries.foldl writeStateDiff (entries.foldl writeStateDiff s) = entries.foldl writeStateDiff s := by
  have main : (entries.foldl writeStateDiff (entries.foldl writeStateDiff s)).mainTrie =
      (entries.foldl writeStateDiff s).mainTrie := by
    rw [mainTrie_foldl_writeStateDiff, mainTrie_foldl_writeStateDiff, foldl_setItem_twice]
  have storageKeys : (entries.foldl writeStateDiff (entries.foldl writeStateDiff s)).storageTries.keys =
      (entries.foldl writeStateDiff s).storageTries.keys := by
    rw [storageTries_keys_foldl_writeStateDiff, storageTries_keys_foldl_writeStateDiff, insertKeys_twice]
  have slots : ∀ a, (entries.foldl writeStateDiff (entries.foldl writeStateDiff s)).slots a =
      (entries.foldl writeStateDiff s).slots a := fun a => by
    rw [slots_foldl_writeStateDiff, slots_foldl_writeStateDiff, foldl_setItem_twice]
  obtain ⟨m, t, frame⟩ := foldl_writeStateDiff_frame entries (entries.foldl writeStateDiff s)
  have storage := StateDiff.storageTries_eq storageKeys slots
  rw [frame] at main storage ⊢
  cases main
  cases storage
  rfl

/-- `from_data` on a list of diffs followed by the same list returns what it returns on the list
once: the same `StateDiff`, or the same error. -/
theorem fromData_append_self {hex : HexParsing} {stateDiffs : List StateDiffJson} :
    fromData hex (stateDiffs ++ stateDiffs) = fromData hex stateDiffs := by
  rw [fromData, fromData, parseStateDiff_eq_map, foldlM_eq_map_mapM, foldlM_eq_map_mapM,
    List.mapM_append]
  cases stateDiffs.mapM (readStateDiff hex) with
  | error e => rfl
  | ok entries =>
      show Except.ok ((entries ++ entries).foldl writeStateDiff StateDiff.empty) = _
      rw [List.foldl_append, foldl_writeStateDiff_twice]
      rfl

end MptDiff
