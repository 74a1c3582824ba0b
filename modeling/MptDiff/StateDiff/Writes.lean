import MptDiff.Walk.Reports

namespace MptDiff

/-! # Handlers that write decoded differences into a dict

`WritesDecoded` states once, for a view of a handler's state, what both leaf handlers of
`StateDiff` do: read the preimage of the key and write the decoded pair under it.
-/

/-- The handler's reading of the leaf pair `t`: the preimage `key` of its packed key, and the
decoded values of its two leaves. -/
structure DecodedEntry {α : Type} (preimages : PyDict Bytes Bytes)
    (decode : Bytes → Except PyError α) (t : LeafDiff) (key : Bytes) (values : Option α × Option α) :
    Prop where
  preimage : preimages.get? t.1 = some key
  leftDecoded : t.2.1.mapM (fun leaf => decode leaf.value) = .ok values.1
  rightDecoded : t.2.2.mapM (fun leaf => decode leaf.value) = .ok values.2

theorem DecodedEntry.unique {α : Type} {preimages : PyDict Bytes Bytes}
    {decode : Bytes → Except PyError α} {t : LeafDiff} {key key' : Bytes}
    {values values' : Option α × Option α} (entry : DecodedEntry preimages decode t key values)
    (entry' : DecodedEntry preimages decode t key' values') : key = key' ∧ values = values' :=
  ⟨Option.some.inj (entry.preimage.symm.trans entry'.preimage),
    Prod.ext (Except.ok.inj (entry.leftDecoded.symm.trans entry'.leftDecoded))
      (Except.ok.inj (entry.rightDecoded.symm.trans entry'.rightDecoded))⟩

theorem DecodedEntry.decodes_valueAt {α : Type} {preimages : PyDict Bytes Bytes}
    {decode : Bytes → Except PyError α} {t : LeafDiff} {key : Bytes} {values : Option α × Option α}
    {nodes : NodeStore} {n : Nat} {left right : Ref} {path s : Bytes}
    (entry : DecodedEntry preimages decode t key values)
    (difference : Difference nodes n left right path s t) :
    (valueAt nodes left s).mapM decode = .ok values.1 ∧
      (valueAt nodes right s).mapM decode = .ok values.2 := by
  rw [← difference.leftValue, ← difference.rightValue, optionMapM_map, optionMapM_map]
  exact ⟨entry.leftDecoded, entry.rightDecoded⟩

/-- A leaf handler that writes each pair it is handed, decoded, under the preimage of its key
into the dict `view` of its state, and keeps the `preimages` of its state. -/
def WritesDecoded {σ α : Type} (process : LeafDiffHandler σ)
    (view : σ → PyDict Bytes (Option α × Option α)) (preimages : σ → PyDict Bytes Bytes)
    (decode : Bytes → Except PyError α) : Prop :=
  ∀ key x y s s', process key x y s = .ok s' → ∃ k values,
    DecodedEntry (preimages s) decode (key, x, y) k values ∧ view s' = (view s).setItem k values ∧
      preimages s' = preimages s

/-- The dict `d` holds the differences of the tries `left` and `right` at keys of `n` nibbles:
each under the preimage of its packed key with its two values decoded, and nothing else. -/
structure RecordsDifferences {α : Type} (nodes : NodeStore) (n : Nat) (left right : Ref)
    (preimages : PyDict Bytes Bytes) (decode : Bytes → Except PyError α)
    (d : PyDict Bytes (Option α × Option α)) : Prop where
  complete : ∀ s, s.length = n → (∀ z ∈ s, z < 16) →
    valueAt nodes left s ≠ valueAt nodes right s →
    ∃ key values, preimages.get? (nibbleListToBytes s) = some key ∧ d.get? key = some values ∧
      (valueAt nodes left s).mapM decode = .ok values.1 ∧
      (valueAt nodes right s).mapM decode = .ok values.2
  sound : ∀ key ∈ d.keys, ∃ s, s.length = n ∧ (∀ z ∈ s, z < 16) ∧
    valueAt nodes left s ≠ valueAt nodes right s ∧ preimages.get? (nibbleListToBytes s) = some key

namespace WritesDecoded

variable {σ α : Type} {process : LeafDiffHandler σ} {view : σ → PyDict Bytes (Option α × Option α)}
  {preimages : σ → PyDict Bytes Bytes} {decode : Bytes → Except PyError α} {T : List LeafDiff}
  {s s' : σ}

theorem replay_untouched (writes : WritesDecoded process view preimages decode) {key : Bytes}
    (untouched : ∀ t ∈ T, (preimages s).get? t.1 ≠ some key) (ran : replay process T s = .ok s') :
    (view s').get? key = (view s).get? key := by
  refine (foldlM_preserves (I := fun d => preimages d = preimages s ∧
    (view d).get? key = (view s).get? key) (fun t member d d' ⟨same, holds⟩ ran => ?_)
    ⟨rfl, rfl⟩ ran).2
  obtain ⟨k, values, entry, written, kept⟩ := writes _ _ _ _ _ ran
  refine ⟨kept.trans same, ?_⟩
  rw [written, PyDict.get?_setItem, if_neg, holds]
  rintro rfl
  exact untouched t member (same ▸ entry.preimage)

theorem replay_written (writes : WritesDecoded process view preimages decode)
    (ran : replay process T s = .ok s') {key : Bytes} {values : Option α × Option α}
    (found : (view s').get? key = some values) :
    (view s).get? key = some values ∨ ∃ t ∈ T, DecodedEntry (preimages s) decode t key values := by
  refine (foldlM_preserves (I := fun d => preimages d = preimages s ∧ ∀ values,
    (view d).get? key = some values → (view s).get? key = some values ∨
      ∃ t ∈ T, DecodedEntry (preimages s) decode t key values)
    (fun t member d d' ⟨same, holds⟩ ran => ?_) ⟨rfl, fun _ => .inl⟩ ran).2 values found
  obtain ⟨k, values, entry, written, kept⟩ := writes _ _ _ _ _ ran
  refine ⟨kept.trans same, fun values' found => ?_⟩
  rw [written, PyDict.get?_setItem] at found
  split_ifs at found with written
  · obtain rfl := Option.some.inj found
    exact .inr ⟨t, member, written ▸ same ▸ entry⟩
  · exact holds values' found

theorem replay_entries (writes : WritesDecoded process view preimages decode) :
    ∀ {T : List LeafDiff} {s s' : σ}, (T.map Prod.fst).Nodup →
      (∀ k k' key, (preimages s).get? k = some key → (preimages s).get? k' = some key → k = k') →
      replay process T s = .ok s' →
      ∀ t ∈ T, ∃ key values, DecodedEntry (preimages s) decode t key values ∧
        (view s').get? key = some values
  | [], _, _, _, _, _, _, member => absurd member (List.not_mem_nil _)
  | t :: T, s, s', nodup, oneToOne, ran, t', member => by
      obtain ⟨next, first, rest⟩ := bind_eq_ok.mp ran
      obtain ⟨k, values, entry, written, kept⟩ := writes _ _ _ _ _ first
      obtain ⟨fresh, nodup⟩ := List.nodup_cons.mp nodup
      rcases List.mem_cons.mp member with rfl | member
      · refine ⟨k, values, entry, ?_⟩
        rw [writes.replay_untouched (fun t member found => ?_) rest, written, PyDict.get?_setItem,
          if_pos rfl]
        rw [kept] at found
        exact fresh (List.mem_map.mpr ⟨t, member, oneToOne _ _ _ found entry.preimage⟩)
      · rw [← kept]
        exact writes.replay_entries nodup (kept ▸ oneToOne) rest t' member

theorem replay_keys (writes : WritesDecoded process view preimages decode) :
    ∀ {T : List LeafDiff} {s s' : σ}, (T.map Prod.fst).Nodup →
      (∀ k k' key, (preimages s).get? k = some key → (preimages s).get? k' = some key → k = k') →
      (∀ t ∈ T, ∀ key, (preimages s).get? t.1 = some key → key ∉ (view s).keys) →
      replay process T s = .ok s' →
      (view s').keys = (view s).keys ++ T.filterMap fun t => (preimages s).get? t.1
  | [], _, _, _, _, _, ran => by
      cases pure_eq_ok.mp ran
      simp
  | t :: T, s, s', nodup, oneToOne, fresh, ran => by
      obtain ⟨next, first, rest⟩ := bind_eq_ok.mp ran
      obtain ⟨k, values, entry, written, kept⟩ := writes _ _ _ _ _ first
      obtain ⟨notLater, nodup⟩ := List.nodup_cons.mp nodup
      have appended : (view next).keys = (view s).keys ++ [k] := by
        rw [written, PyDict.keys_setItem, if_neg (fresh t (List.mem_cons_self _ _) k entry.preimage)]
      have fresh' : ∀ t' ∈ T, ∀ key, (preimages next).get? t'.1 = some key →
          key ∉ (view next).keys := by
        intro t' member key found
        rw [kept] at found
        rw [appended, List.mem_append, List.mem_singleton]
        rintro (old | rfl)
        · exact fresh t' (List.mem_cons_of_mem _ member) key found old
        · exact notLater (List.mem_map.mpr ⟨t', member, oneToOne _ _ _ found entry.preimage⟩)
      rw [writes.replay_keys nodup (kept ▸ oneToOne) fresh' rest, appended, kept]
      simp [entry.preimage]

theorem records (writes : WritesDecoded process view preimages decode) {nodes : NodeStore}
    {n fuel : Nat} {L R : Ref} (ran : computeDiff nodes process fuel L R [] s = .ok s')
    (even : n % 2 = 0) (leftWellFormed : WellFormed nodes n L)
    (rightWellFormed : WellFormed nodes n R)
    (matched : ∀ call, Reaches nodes (L, R, []) call →
      ¬ ExtensionAgainstBranch nodes call.1 call.2.1)
    (oneToOne : ∀ k k' key, (preimages s).get? k = some key → (preimages s).get? k' = some key →
      k = k')
    (empty : (view s).keys = []) : RecordsDifferences nodes n L R (preimages s) decode (view s') := by
  obtain ⟨T, reports, replayed⟩ :=
    computeDiff_replays_reports even leftWellFormed rightWellFormed matched ran
  refine ⟨fun u length nibbles differ => ?_, fun key member => ?_⟩
  · obtain ⟨t, member, packed⟩ := reports.complete u length nibbles differ
    obtain ⟨u', difference⟩ := reports.sound t member
    obtain rfl := difference.suffix_eq even length nibbles packed
    obtain ⟨key, values, entry, found⟩ := writes.replay_entries reports.nodup oneToOne replayed t member
    exact ⟨key, values, packed ▸ entry.preimage, found, entry.decodes_valueAt difference⟩
  · obtain ⟨values, found⟩ := Option.isSome_iff_exists.mp (PyDict.mem_keys_iff.mp member)
    rcases writes.replay_written replayed found with found | ⟨t, member, entry⟩
    · exact absurd (PyDict.mem_keys_of_get? found) (empty ▸ List.not_mem_nil _)
    obtain ⟨u, difference⟩ := reports.sound t member
    exact ⟨u, difference.length, difference.nibbles, difference.differ,
      difference.key ▸ entry.preimage⟩

theorem computeDiff_entries (writes : WritesDecoded process view preimages decode)
    {preimages₀ : PyDict Bytes Bytes} {P : Bytes → Option α × Option α → Prop}
    (decoded : ∀ t k values, DecodedEntry preimages₀ decode t k values → P k values)
    {nodes : NodeStore} {fuel : Nat} {left right : Ref} {path : Bytes}
    (ran : computeDiff nodes process fuel left right path s = .ok s')
    (same : preimages s = preimages₀) (holds : ∀ k values, (view s).get? k = some values → P k values) :
    preimages s' = preimages₀ ∧ ∀ k values, (view s').get? k = some values → P k values :=
  computeDiff_keeps (I := fun d => preimages d = preimages₀ ∧
      ∀ k values, (view d).get? k = some values → P k values)
    (fun key x y d d' holds ran => by
      obtain ⟨k, values, entry, written, kept⟩ := writes key x y d d' ran
      refine ⟨kept.trans holds.1, fun k' values' found => ?_⟩
      rw [written, PyDict.get?_setItem] at found
      split_ifs at found with here
      · cases found
        exact here ▸ decoded _ _ _ (holds.1 ▸ entry)
      · exact holds.2 k' values' found)
    ⟨same, holds⟩ ran

end WritesDecoded

end MptDiff
