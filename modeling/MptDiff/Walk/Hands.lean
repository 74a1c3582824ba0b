import MptDiff.Walk.Reports

namespace MptDiff

/-! # What the walk hands on, whatever the shapes

Whatever shapes it meets, a walk over two well-formed tries hands on only what the tries store,
and each key once.
-/

variable {nodes : NodeStore}

/-- Below the key part `q`, every value the trie at `node'` stores the trie at `node` stores too,
for keys of `n` nibbles in all. -/
def Within (nodes : NodeStore) (n : Nat) (node : Ref) (q : Bytes) (node' : Ref) : Prop :=
  ∀ s v, q.length + s.length = n → valueAt nodes node' s = some v →
    valueAt nodes node (q ++ s) = some v

/-- The leaf pair `t` is one a walk on `left` and `right` may hand on, at the key `s` of `n`
nibbles: it is keyed by `s` packed, each of its leaves holds what its side stores at `s`, and its
two sides differ. -/
structure Handed (nodes : NodeStore) (n : Nat) (left right : Ref) (s : Bytes) (t : LeafDiff) :
    Prop where
  length : s.length = n
  key : t.1 = nibbleListToBytes s
  leftStored : ∀ l, t.2.1 = some l → valueAt nodes left s = some l.value
  rightStored : ∀ r, t.2.2 = some r → valueAt nodes right s = some r.value
  differ : t.2.1.map LeafNode.value ≠ t.2.2.map LeafNode.value

variable {n m : Nat} {node node' node'' : Ref} {q q' : Bytes}

theorem StoresBelow.within (below : StoresBelow nodes n node q node') : Within nodes n node q node' :=
  fun s _ length stored => (below s length).trans stored

theorem within_none : Within nodes n node q .none := fun _ _ _ stored => by
  rw [valueAt_of_absent (resolve_none nodes)] at stored
  exact nomatch stored

theorem within_self : Within nodes n node [] node := fun _ _ _ stored => stored

theorem Within.trans (outer : Within nodes n node q node') (inner : Within nodes m node' q' node'')
    (length : q.length + m = n) : Within nodes n node (q ++ q') node'' := fun s v total stored => by
  simp only [List.length_append] at total
  rw [List.append_assoc]
  exact outer (q' ++ s) v (by rw [List.length_append]; omega) (inner s v (by omega) stored)

theorem Descends.within (descends : Descends nodes node q node') (wellFormed : WellFormed nodes n node) :
    Within nodes n node q node' := by
  cases descends with
  | child isChild =>
      cases isChild with
      | subnode resolved => exact (wellFormed.storesBelow_extension resolved).within
      | slot i resolved => exact (storesBelow_branch resolved i).within
  | dropped => exact within_none
  | shortLeaf resolved isPrefix => exact (storesBelow_shortLeaf resolved isPrefix).within
  | shortExtension resolved isPrefix shorter =>
      exact (wellFormed.storesBelow_shortExtension resolved isPrefix shorter).within

/-- A call of a walk from `L` and `R` is aligned, and below its path each of its sides stores
only what `L` and `R` store there. -/
def Positioned (nodes : NodeStore) (width : Nat) (L R : Ref) (call : DiffArgs) (n : Nat) : Prop :=
  Aligned nodes width call n ∧ Within nodes width L call.2.2 call.1 ∧
    Within nodes width R call.2.2 call.2.1

variable {width : Nat} {L R : Ref}

theorem Positioned.start (leftWellFormed : WellFormed nodes width L)
    (rightWellFormed : WellFormed nodes width R) : Positioned nodes width L R (L, R, []) width :=
  ⟨⟨Nat.zero_add width, leftWellFormed, rightWellFormed⟩, within_self, within_self⟩

theorem Positioned.calls {caller callee : DiffArgs} (positioned : Positioned nodes width L R caller n)
    (called : Calls nodes caller callee) : ∃ m < n, Positioned nodes width L R callee m := by
  obtain ⟨aligned, leftWithin, rightWithin⟩ := positioned
  obtain ⟨m, smaller, aligned'⟩ := aligned.calls called
  obtain ⟨q, extended, leftDescends, rightDescends⟩ := calls_descends called
  refine ⟨m, smaller, aligned', ?_, ?_⟩
  · rw [extended]
    exact leftWithin.trans (leftDescends.within aligned.2.1) aligned.1
  · rw [extended]
    exact rightWithin.trans (rightDescends.within aligned.2.2) aligned.1

theorem Positioned.reaches {caller callee : DiffArgs}
    (positioned : Positioned nodes width L R caller n) (reached : Reaches nodes caller callee) :
    ∃ m, Positioned nodes width L R callee m := by
  induction reached with
  | refl => exact ⟨n, positioned⟩
  | tail _ called ih =>
      obtain ⟨m, positioned'⟩ := ih
      obtain ⟨m', -, positioned''⟩ := positioned'.calls called
      exact ⟨m', positioned''⟩

theorem Positioned.emitted {caller : DiffArgs} {key : Bytes} {x y : Option LeafNode}
    (positioned : Positioned nodes width L R caller n) (emitted : Emits nodes caller key x y) :
    ∃ s, Handed nodes width L R s (key, x, y) := by
  obtain ⟨⟨pathLength, leftWellFormed, rightWellFormed⟩, leftWithin, rightWithin⟩ := positioned
  obtain ⟨s, keyed, leftLeaf, rightLeaf, differ⟩ := emits_leaves emitted
  have length : s.length = n := by
    rcases x with _ | l
    · rcases y with _ | r
      · exact absurd rfl differ
      obtain ⟨resolved, rfl⟩ := rightLeaf r rfl
      exact (rightWellFormed.leaf_length resolved).1
    · obtain ⟨resolved, rfl⟩ := leftLeaf l rfl
      exact (leftWellFormed.leaf_length resolved).1
  refine ⟨caller.2.2 ++ s, ⟨by rw [List.length_append]; omega, keyed, fun l same => ?_,
    fun r same => ?_, differ⟩⟩
  · obtain ⟨resolved, rfl⟩ := leftLeaf l same
    exact leftWithin _ _ (by omega) (valueAt_leaf_key resolved)
  · obtain ⟨resolved, rfl⟩ := rightLeaf r same
    exact rightWithin _ _ (by omega) (valueAt_leaf_key resolved)

theorem computeDiff_preserves_handed {σ : Type} {process : LeafDiffHandler σ} {I : σ → Prop}
    {fuel : Nat} {s s' : σ} (leftWellFormed : WellFormed nodes width L)
    (rightWellFormed : WellFormed nodes width R)
    (ran : computeDiff nodes process fuel L R [] s = .ok s')
    (handler : ∀ key x y s s', (∃ u, Handed nodes width L R u (key, x, y)) → I s →
      process key x y s = .ok s' → I s')
    (holds : I s) : I s' :=
  computeDiff_preserves (fun _ key x y _ _ reached emitted =>
    handler key x y _ _ (((Positioned.start leftWellFormed rightWellFormed).reaches
      reached).choose_spec.emitted emitted)) .refl holds ran

/-- A call of a step keeps to its part of the key space below `path`: a report names a key part
of `n` nibbles, a recursive call extends the path by nibbles. -/
def DiffCall.Keyed (n : Nat) (path : Bytes) : DiffCall → Prop
  | .processLeafDiff key _ _ => ∃ s, s.length = n ∧ (∀ z ∈ s, z < 16) ∧
      key = nibbleListToBytes (path ++ s)
  | .computeDiff _ _ p => ∃ q, p = path ++ q ∧ ∀ z ∈ q, z < 16

/-- The calls of a step keep to their key parts below `path`, and no key part is covered by two
of them. -/
structure StepKeys (n : Nat) (path : Bytes) (calls : List DiffCall) : Prop where
  keyed : ∀ c ∈ calls, c.Keyed n path
  disjoint : calls.Pairwise fun c c' =>
    ∀ s, s.length = n → (∀ z ∈ s, z < 16) → c.Covers path s → ¬ c'.Covers path s

/-- The record `T` names distinct keys, each packing `path` and a key part of `n` nibbles. -/
def KeysBelow (n : Nat) (path : Bytes) (T : List LeafDiff) : Prop :=
  (∀ t ∈ T, ∃ s, s.length = n ∧ (∀ z ∈ s, z < 16) ∧ t.1 = nibbleListToBytes (path ++ s)) ∧
    (T.map Prod.fst).Nodup

/-- What running one call of a step appends to the record, for keys of `width` nibbles in all: a
report itself, a recursive call a record of distinct keys below its path. -/
def DiffCall.RecordsKeys (width : Nat) : DiffCall → List LeafDiff → Prop
  | .processLeafDiff key x y, T => T = [(key, x, y)]
  | .computeDiff _ _ p, T => ∃ m, p.length + m = width ∧ KeysBelow m p T

variable {left right : Ref} {path : Bytes} {calls : List DiffCall}

theorem DiffCall.Valid.keyed {c : DiffCall} (valid : c.Valid nodes n left right path) :
    c.Keyed n path := by
  cases c with
  | processLeafDiff key x y =>
      obtain ⟨s, difference⟩ := valid
      exact ⟨s, difference.length, difference.nibbles, difference.key⟩
  | computeDiff l r p =>
      obtain ⟨q, rfl, nibbles, -⟩ := valid
      exact ⟨q, rfl, nibbles⟩

theorem StepCovers.stepKeys (covers : StepCovers nodes n left right path calls) :
    StepKeys n path calls :=
  ⟨fun c member => (covers.valid c member).keyed, covers.disjoint⟩

theorem StepKeys.slots {f g : Fin 16 → Ref} :
    StepKeys n path ((List.finRange 16).map fun i => .computeDiff (f i) (g i) (path ++ [nibble i])) :=
  ⟨fun c member => by
    obtain ⟨i, -, rfl⟩ := List.mem_map.mp member
    exact ⟨[nibble i], rfl, fun z member => List.mem_singleton.mp member ▸ nibble_lt i⟩,
    slots_disjoint⟩

theorem computeDiffStep_keys (leftWellFormed : WellFormed nodes n left)
    (rightWellFormed : WellFormed nodes n right) (pathNibbles : ∀ z ∈ path, z < 16)
    (even : (path.length + n) % 2 = 0) (stepped : computeDiffStep nodes left right path = .ok calls) :
    StepKeys n path calls := by
  unfold computeDiffStep at stepped
  split_ifs at stepped with same
  · rw [← pure_eq_ok.mp stepped]
    exact ⟨fun _ member => absurd member (List.not_mem_nil _), .nil⟩
  obtain ⟨lNode, lResolved⟩ := leftWellFormed.resolve_ok
  obtain ⟨rNode, rResolved⟩ := rightWellFormed.resolve_ok
  rw [lResolved, rResolved] at stepped
  by_cases facing : IsExtension lNode ∧ IsBranch rNode
  · obtain ⟨isExtension, isBranch⟩ := facing
    rcases lNode with _ | ⟨_ | ⟨keySegment, subnode⟩ | _⟩ <;> cases isExtension
    rcases rNode with _ | ⟨_ | _ | ⟨subnodes, value⟩⟩ <;> cases isBranch
    obtain ⟨-, -, nonempty, -⟩ := leftWellFormed.extension_parts lResolved
    obtain ⟨-, -, rfl, -⟩ := rightWellFormed.branch_parts rResolved
    cases (diffNodes_extension_branch nonempty).symm.trans stepped
    exact .slots
  · exact (diffNodes_covers leftWellFormed rightWellFormed lResolved rResolved pathNibbles even facing
      stepped).stepKeys

theorem StepKeys.keysBelow {pieces : List (DiffCall × List LeafDiff)}
    (keys : StepKeys n path calls) (pathNibbles : ∀ z ∈ path, z < 16)
    (even : (path.length + n) % 2 = 0) (order : pieces.map Prod.fst = calls)
    (recorded : ∀ p ∈ pieces, p.1.RecordsKeys (path.length + n) p.2) :
    KeysBelow n path (pieces.map Prod.snd).flatten := by
  subst order
  have each : ∀ p ∈ pieces, ∀ t ∈ p.2, ∃ s, s.length = n ∧ (∀ z ∈ s, z < 16) ∧
      t.1 = nibbleListToBytes (path ++ s) ∧ p.1.Covers path s := by
    intro ⟨c, T⟩ recordedBy t member
    have keyed := keys.keyed c (List.mem_map_of_mem _ recordedBy)
    have records := recorded _ recordedBy
    cases c with
    | processLeafDiff key x y =>
        obtain ⟨s, length, nibbles, rfl⟩ := keyed
        cases records
        obtain rfl := List.mem_singleton.mp member
        exact ⟨s, length, nibbles, rfl, rfl⟩
    | computeDiff l r p =>
        obtain ⟨q, rfl, qNibbles⟩ := keyed
        obtain ⟨m, width, below⟩ := records
        obtain ⟨s, length, nibbles, key⟩ := below.1 t member
        simp only [List.length_append] at width
        exact ⟨q ++ s, by rw [List.length_append]; omega,
          List.forall_mem_append.mpr ⟨qNibbles, nibbles⟩, by rw [key, List.append_assoc],
          covers_of_prefix (List.prefix_append q s)⟩
  refine ⟨fun t member => ?_, nodup_flatten_of_covers pathNibbles even keys.disjoint
    (fun p recordedBy => ?_) fun p recordedBy t member => each p recordedBy t member⟩
  · obtain ⟨_, piece, member⟩ := List.mem_flatten.mp member
    obtain ⟨p, recordedBy, rfl⟩ := List.mem_map.mp piece
    obtain ⟨s, length, nibbles, key, -⟩ := each p recordedBy t member
    exact ⟨s, length, nibbles, key⟩
  · obtain ⟨c, T⟩ := p
    cases c with
    | processLeafDiff => cases recorded _ recordedBy; exact List.nodup_singleton _
    | computeDiff => exact (recorded _ recordedBy).choose_spec.2.2

theorem StepKeys.of_isPrefix {done : List DiffCall} (keys : StepKeys n path calls)
    (isPrefix : done <+: calls) : StepKeys n path done :=
  ⟨fun c member => keys.keyed c (isPrefix.subset member),
    List.Pairwise.sublist isPrefix.sublist keys.disjoint⟩

/-- The run lemma of the keys, whatever the shapes: a walk from an aligned call hands on each key
at most once, each packing the path and a key part below it, also when it stops on an error. -/
theorem handOff_keys {width : Nat} (even : width % 2 = 0) :
    ∀ {fuel : Nat} {left right : Ref} {path : Bytes} {n : Nat},
      Aligned nodes width (left, right, path) n → (∀ z ∈ path, z < 16) →
      KeysBelow n path (handOff nodes fuel left right path).1
  | 0, _, _, _, _, _, _ => ⟨fun _ member => absurd member (List.not_mem_nil _), List.nodup_nil⟩
  | fuel + 1, left, right, path, n, aligned, pathNibbles => by
      have ⟨pathLength, leftWellFormed, rightWellFormed⟩ := aligned
      rw [handOff_succ]
      cases stepped : computeDiffStep nodes left right path with
      | error e => exact ⟨fun _ member => absurd member (List.not_mem_nil _), List.nodup_nil⟩
      | ok calls =>
          obtain ⟨done, isPrefix, handed⟩ := handOffCalls_prefix (handOffCall nodes fuel) calls
          have keys := (computeDiffStep_keys leftWellFormed rightWellFormed pathNibbles
            (pathLength ▸ even) stepped).of_isPrefix isPrefix
          have recorded : ∀ p ∈ done.map (fun c => (c, (handOffCall nodes fuel c).1)),
              p.1.RecordsKeys (path.length + n) p.2 := by
            intro p member
            obtain ⟨c, isDone, rfl⟩ := List.mem_map.mp member
            cases c with
            | processLeafDiff key x y => rfl
            | computeDiff l r p =>
                have called : Calls nodes (left, right, path) (l, r, p) :=
                  ⟨calls, stepped, isPrefix.subset isDone⟩
                obtain ⟨m, -, aligned'⟩ := aligned.calls called
                obtain ⟨q, rfl, qNibbles⟩ := keys.keyed _ isDone
                exact ⟨m, aligned'.1.trans pathLength.symm, handOff_keys even aligned'
                  (List.forall_mem_append.mpr ⟨pathNibbles, qNibbles⟩)⟩
          simpa [handed] using keys.keysBelow pathNibbles (pathLength ▸ even)
            (by rw [List.map_map]; exact List.map_id done) recorded

theorem handOff_nodup {fuel : Nat} (leftWellFormed : WellFormed nodes 64 L)
    (rightWellFormed : WellFormed nodes 64 R) :
    ((handOff nodes fuel L R []).1.map Prod.fst).Nodup :=
  (handOff_keys (by decide) (⟨rfl, leftWellFormed, rightWellFormed⟩ : Aligned nodes 64 (L, R, []) 64)
    fun _ member => absurd member (List.not_mem_nil _)).2

theorem handOff_handed {fuel : Nat} (leftWellFormed : WellFormed nodes width L)
    (rightWellFormed : WellFormed nodes width R) :
    ∀ t ∈ (handOff nodes fuel L R []).1, ∃ s, Handed nodes width L R s t := fun t member => by
  obtain ⟨caller, reached, emitted⟩ := handOff_emitted member
  exact ((Positioned.start leftWellFormed rightWellFormed).reaches reached).choose_spec.emitted emitted

theorem recorded_nodup {fuel : Nat} {T : List LeafDiff} (leftWellFormed : WellFormed nodes 64 L)
    (rightWellFormed : WellFormed nodes 64 R)
    (recorded : computeDiff nodes recordLeafDiff fuel L R [] [] = .ok T) : (T.map Prod.fst).Nodup := by
  obtain ⟨T, handed, rfl⟩ := handOff_of_recorded recorded
  have nodup : ((handOff nodes fuel L R []).1.map Prod.fst).Nodup :=
    handOff_nodup leftWellFormed rightWellFormed
  simpa [handed] using nodup

theorem recorded_handed {fuel : Nat} {T : List LeafDiff} (leftWellFormed : WellFormed nodes width L)
    (rightWellFormed : WellFormed nodes width R)
    (recorded : computeDiff nodes recordLeafDiff fuel L R [] [] = .ok T) :
    ∀ t ∈ T, ∃ s, Handed nodes width L R s t := fun t member => by
  obtain ⟨T, handed, rfl⟩ := handOff_of_recorded recorded
  exact handOff_handed leftWellFormed rightWellFormed t (by rw [handed]; exact member)

/-- Whatever the shapes of two well-formed tries, every walk over them, with any handler, runs the
handler on the pairs `handOff` lists and then returns or raises where the walk stops; each of those
pairs holds, on each side where it has a leaf, the leaf that side's trie stores under the pair's
key, its two sides differ, and no key is handed on twice.  A walk that raises `BadBranch` has
handed on only such pairs before it raises. -/
theorem computeDiff_hands_stored (leftWellFormed : WellFormed nodes 64 L)
    (rightWellFormed : WellFormed nodes 64 R) (fuel : Nat) :
    (∀ {σ : Type} (process : LeafDiffHandler σ) (s : σ),
      computeDiff nodes process fuel L R [] s = replayThen process (handOff nodes fuel L R []) s) ∧
    (∀ t ∈ (handOff nodes fuel L R []).1, ∃ s, Handed nodes 64 L R s t) ∧
    ((handOff nodes fuel L R []).1.map Prod.fst).Nodup :=
  ⟨fun _ s => computeDiff_eq_replayThen s, handOff_handed leftWellFormed rightWellFormed,
    handOff_nodup leftWellFormed rightWellFormed⟩

/-- On the state tries 40 and 44 of slotStore the walk hands on the changed account at nibble 1,
then raises BadBranch at the branch 41 facing the leaf 45. -/
theorem slotStore_hands_stored :
    WellFormed slotStore 64 (.bytes (nodeHash 40)) ∧ WellFormed slotStore 64 (.bytes (nodeHash 44)) ∧
    handOff slotStore 65 (.bytes (nodeHash 40)) (.bytes (nodeHash 44)) [] =
      ([(nibbleListToBytes (accountKey 1), some ⟨(accountKey 1).drop 1, [1, 30]⟩,
        some ⟨(accountKey 1).drop 1, [1, 31]⟩)], some .badBranch) ∧
    (∀ {σ : Type} (process : LeafDiffHandler σ) (s : σ),
      computeDiff slotStore process 65 (.bytes (nodeHash 40)) (.bytes (nodeHash 44)) [] s =
        replayThen process (handOff slotStore 65 (.bytes (nodeHash 40)) (.bytes (nodeHash 44)) []) s) ∧
    (∀ t ∈ (handOff slotStore 65 (.bytes (nodeHash 40)) (.bytes (nodeHash 44)) []).1,
      ∃ s, Handed slotStore 64 (.bytes (nodeHash 40)) (.bytes (nodeHash 44)) s t) ∧
    ((handOff slotStore 65 (.bytes (nodeHash 40)) (.bytes (nodeHash 44)) []).1.map Prod.fst).Nodup :=
  ⟨slotStore_wellFormed.2.2.2.2.2.1, slotStore_wellFormed.2.2.2.2.2.2, rfl,
    computeDiff_hands_stored slotStore_wellFormed.2.2.2.2.2.1 slotStore_wellFormed.2.2.2.2.2.2 65⟩

end MptDiff
