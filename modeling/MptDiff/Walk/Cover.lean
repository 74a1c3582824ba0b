import Mathlib.Data.List.FinRange
import MptDiff.Trie.Lookup
import MptDiff.Walk.Descent

namespace MptDiff

/-! # What one step of the walk accounts for

Every case of the match but Extension/Branch accounts, by a report or by one recursive call, for
each key part at which its two sides differ.
-/

/-- The leaf pair `t` is a difference of `left` and `right` at the key part `s` below `path`:
`s` has `n` nibbles, `t` is keyed by `path ++ s` packed, and its two leaves hold the values the
two tries store at `s`, which differ. -/
structure Difference (nodes : NodeStore) (n : Nat) (left right : Ref) (path s : Bytes)
    (t : LeafDiff) : Prop where
  length : s.length = n
  nibbles : ∀ z ∈ s, z < 16
  key : t.1 = nibbleListToBytes (path ++ s)
  leftValue : t.2.1.map LeafNode.value = valueAt nodes left s
  rightValue : t.2.2.map LeafNode.value = valueAt nodes right s
  differ : valueAt nodes left s ≠ valueAt nodes right s

/-- The keys a call covers, as parts below its caller's path: a report covers the key it names,
a recursive call every key below its path. -/
def DiffCall.Covers (path s : Bytes) : DiffCall → Prop
  | .processLeafDiff key _ _ => key = nibbleListToBytes (path ++ s)
  | .computeDiff _ _ path' => path' <+: path ++ s

/-- What a call of a step on `left` and `right` below `path` says about the two tries: a report
names one of their differences; a recursive call looks at the sub-tries below a key part. -/
def DiffCall.Valid (nodes : NodeStore) (n : Nat) (left right : Ref) (path : Bytes) :
    DiffCall → Prop
  | .processLeafDiff key x y => ∃ s, Difference nodes n left right path s (key, x, y)
  | .computeDiff l r p => ∃ q, p = path ++ q ∧ (∀ z ∈ q, z < 16) ∧
      StoresBelow nodes n left q l ∧ StoresBelow nodes n right q r

/-- The calls of one step account for the differences of `left` and `right` below `path`: each
call is valid, every key part at which the tries differ is covered by a call, and none by two. -/
structure StepCovers (nodes : NodeStore) (n : Nat) (left right : Ref) (path : Bytes)
    (calls : List DiffCall) : Prop where
  valid : ∀ c ∈ calls, c.Valid nodes n left right path
  covered : ∀ s, s.length = n → (∀ z ∈ s, z < 16) →
    valueAt nodes left s ≠ valueAt nodes right s → ∃ c ∈ calls, c.Covers path s
  disjoint : calls.Pairwise fun c c' =>
    ∀ s, s.length = n → (∀ z ∈ s, z < 16) → c.Covers path s → ¬ c'.Covers path s

/-- The node is an extension. -/
def IsExtension : Option InternalNode → Prop
  | some (.extensionNode _ _) => True
  | _ => False

/-- The left side resolves to an extension and the right side to a branch. -/
def ExtensionAgainstBranch (nodes : NodeStore) (left right : Ref) : Prop :=
  ∃ lNode rNode, resolve left nodes = .ok lNode ∧ resolve right nodes = .ok rNode ∧
    IsExtension lNode ∧ IsBranch rNode

variable {nodes : NodeStore} {n : Nat} {ref left right : Ref} {path : Bytes}

theorem nibbleListToBytes_append_inj {s₀ s : Bytes} (pathNibbles : ∀ z ∈ path, z < 16)
    (even : (path.length + n) % 2 = 0) (length₀ : s₀.length = n) (length : s.length = n)
    (nibbles₀ : ∀ z ∈ s₀, z < 16) (nibbles : ∀ z ∈ s, z < 16)
    (same : nibbleListToBytes (path ++ s₀) = nibbleListToBytes (path ++ s)) : s₀ = s :=
  List.append_cancel_left (nibbleListToBytes_inj (by simp [length₀, length])
    (by rw [List.length_append, length₀]; exact even)
    (List.forall_mem_append.mpr ⟨pathNibbles, nibbles₀⟩)
    (List.forall_mem_append.mpr ⟨pathNibbles, nibbles⟩) same)

theorem covers_of_key {x y : Option LeafNode} {s₀ s : Bytes} (key : s₀ = s) :
    (DiffCall.processLeafDiff (nibbleListToBytes (path ++ s₀)) x y).Covers path s :=
  key ▸ rfl

theorem covers_of_prefix {l r : Ref} {q s : Bytes} (isPrefix : q <+: s) :
    (DiffCall.computeDiff l r (path ++ q)).Covers path s :=
  (List.prefix_append_right_inj path).mpr isPrefix

theorem prefix_of_covers {l r : Ref} {q s : Bytes}
    (covers : (DiffCall.computeDiff l r (path ++ q)).Covers path s) : q <+: s :=
  (List.prefix_append_right_inj path).mp covers

theorem StepCovers.nil (same : ∀ s, s.length = n → valueAt nodes left s = valueAt nodes right s) :
    StepCovers nodes n left right path [] :=
  ⟨fun _ member => absurd member (List.not_mem_nil _),
    fun s length _ differ => absurd (same s length) differ, List.Pairwise.nil⟩

theorem StepCovers.single {c : DiffCall} (valid : c.Valid nodes n left right path)
    (covered : ∀ s, s.length = n → (∀ z ∈ s, z < 16) →
      valueAt nodes left s ≠ valueAt nodes right s → c.Covers path s) :
    StepCovers nodes n left right path [c] :=
  ⟨fun _ member => List.mem_singleton.mp member ▸ valid,
    fun s length nibbles differ => ⟨c, List.mem_singleton_self c, covered s length nibbles differ⟩,
    List.pairwise_singleton _ _⟩

theorem StepCovers.pair {c c' : DiffCall} (valid : c.Valid nodes n left right path)
    (valid' : c'.Valid nodes n left right path)
    (covered : ∀ s, s.length = n → (∀ z ∈ s, z < 16) →
      valueAt nodes left s ≠ valueAt nodes right s → c.Covers path s ∨ c'.Covers path s)
    (disjoint : ∀ s, s.length = n → (∀ z ∈ s, z < 16) → c.Covers path s → ¬ c'.Covers path s) :
    StepCovers nodes n left right path [c, c'] := by
  refine ⟨fun d member => ?_, fun s length nibbles differ => ?_, ?_⟩
  · rcases List.mem_pair.mp member with rfl | rfl
    exacts [valid, valid']
  · rcases covered s length nibbles differ with here | there
    exacts [⟨c, List.mem_cons_self _ _, here⟩,
      ⟨c', List.mem_cons_of_mem _ (List.mem_singleton_self _), there⟩]
  · simpa using disjoint

theorem slots_disjoint {f g : Fin 16 → Ref} :
    ((List.finRange 16).map fun i => DiffCall.computeDiff (f i) (g i) (path ++ [nibble i])).Pairwise
      fun c c' => ∀ s, s.length = n → (∀ z ∈ s, z < 16) → c.Covers path s → ¬ c'.Covers path s := by
  rw [List.pairwise_map]
  refine (List.nodup_finRange 16).imp fun {i j} differ s _ _ here there =>
    differ (nibble_injective ?_)
  obtain ⟨t, rfl⟩ := prefix_of_covers here
  obtain ⟨u, same⟩ := prefix_of_covers there
  exact (List.cons.inj same).1.symm

theorem StepCovers.slots {f g : Fin 16 → Ref} (depth : 0 < n)
    (leftBelow : ∀ i, StoresBelow nodes n left [nibble i] (f i))
    (rightBelow : ∀ i, StoresBelow nodes n right [nibble i] (g i)) :
    StepCovers nodes n left right path
      ((List.finRange 16).map fun i => .computeDiff (f i) (g i) (path ++ [nibble i])) := by
  refine ⟨fun c member => ?_, fun s length nibbles _ => ?_, ?_⟩
  · obtain ⟨i, -, rfl⟩ := List.mem_map.mp member
    exact ⟨[nibble i], rfl, fun z member => List.mem_singleton.mp member ▸ nibble_lt i,
      leftBelow i, rightBelow i⟩
  · obtain ⟨k, rest, rfl⟩ := List.exists_cons_of_length_pos (length ▸ depth : 0 < s.length)
    have slot : k.toNat < 16 := nibbles k (List.mem_cons_self k rest)
    have same : nibble ⟨k.toNat, slot⟩ = k := UInt8.toNat.inj (toNat_nibble _)
    exact ⟨_, List.mem_map.mpr ⟨⟨k.toNat, slot⟩, List.mem_finRange _, rfl⟩,
      covers_of_prefix ⟨rest, by rw [same]; rfl⟩⟩
  · exact slots_disjoint

theorem valueAt_leaf_key {leaf : LeafNode} (resolved : resolve ref nodes = .ok (some (.leafNode leaf))) :
    valueAt nodes ref leaf.restOfKey = some leaf.value := by
  rw [valueAt_of_leaf resolved, if_pos rfl]

theorem key_eq_of_stored {leaf : LeafNode} {s : Bytes}
    (resolved : resolve ref nodes = .ok (some (.leafNode leaf))) (stored : valueAt nodes ref s ≠ none) :
    leaf.restOfKey = s :=
  of_not_not fun other => stored (valueAt_eq_none_of_ne_key resolved other)

theorem WellFormed.prefix_of_stored {keySegment s : Bytes} {subnode : Ref}
    (wellFormed : WellFormed nodes n ref)
    (resolved : resolve ref nodes = .ok (some (.extensionNode keySegment subnode)))
    (length : s.length = n) (stored : valueAt nodes ref s ≠ none) : keySegment <+: s :=
  of_not_not fun outside => stored (wellFormed.valueAt_eq_none_of_not_prefix resolved length outside)

theorem stored_of_absent_left {s : Bytes} (lResolved : resolve left nodes = .ok none)
    (differ : valueAt nodes left s ≠ valueAt nodes right s) : valueAt nodes right s ≠ none := by
  rwa [valueAt_of_absent lResolved, ne_comm] at differ

theorem stored_of_absent_right {s : Bytes} (rResolved : resolve right nodes = .ok none)
    (differ : valueAt nodes left s ≠ valueAt nodes right s) : valueAt nodes left s ≠ none := by
  rwa [valueAt_of_absent rResolved] at differ

theorem valid_deleted {l : LeafNode} (leftWellFormed : WellFormed nodes n left)
    (lResolved : resolve left nodes = .ok (some (.leafNode l)))
    (missing : valueAt nodes right l.restOfKey = none) :
    (DiffCall.processLeafDiff (nibbleListToBytes (path ++ l.restOfKey)) (some l) none).Valid
      nodes n left right path :=
  have ⟨keyLength, nibbles⟩ := leftWellFormed.leaf_length lResolved
  ⟨_, keyLength, nibbles, rfl, (valueAt_leaf_key lResolved).symm, missing.symm,
    by rw [missing, valueAt_leaf_key lResolved]; exact Option.some_ne_none _⟩

theorem valid_created {r : LeafNode} (rightWellFormed : WellFormed nodes n right)
    (rResolved : resolve right nodes = .ok (some (.leafNode r)))
    (missing : valueAt nodes left r.restOfKey = none) :
    (DiffCall.processLeafDiff (nibbleListToBytes (path ++ r.restOfKey)) none (some r)).Valid
      nodes n left right path :=
  have ⟨keyLength, nibbles⟩ := rightWellFormed.leaf_length rResolved
  ⟨_, keyLength, nibbles, rfl, missing.symm, (valueAt_leaf_key rResolved).symm,
    by rw [missing, valueAt_leaf_key rResolved]; exact (Option.some_ne_none _).symm⟩

theorem not_nibble_prefix_of_getIndex {restOfKey : Bytes} {k : UInt8} {i : Fin 16}
    (indexed : getIndex restOfKey 0 = .ok k) (differs : i.val ≠ k.toNat) :
    ¬ [nibble i] <+: restOfKey := fun ⟨t, split⟩ => by
  obtain ⟨rest, rfl⟩ := getIndex_zero_eq_ok.mp indexed
  have same : nibble i = k := (List.cons.inj split).1
  exact differs (by rw [← same, toNat_nibble])

/-- The step lemma of the walk's reports: on two well-formed sub-tries at the same depth, every
case but Extension/Branch accounts for the differences of its two sides. -/
theorem diffNodes_covers {lNode rNode : Option InternalNode} {calls : List DiffCall}
    (leftWellFormed : WellFormed nodes n left) (rightWellFormed : WellFormed nodes n right)
    (lResolved : resolve left nodes = .ok lNode) (rResolved : resolve right nodes = .ok rNode)
    (pathNibbles : ∀ z ∈ path, z < 16) (even : (path.length + n) % 2 = 0)
    (matched : ¬ (IsExtension lNode ∧ IsBranch rNode))
    (stepped : diffNodes lNode rNode path = .ok calls) :
    StepCovers nodes n left right path calls := by
  rcases lNode with _ | ⟨l⟩ | ⟨ls, lsub⟩ | ⟨lsubs, lv⟩ <;>
    rcases rNode with _ | ⟨r⟩ | ⟨rs, rsub⟩ | ⟨rsubs, rv⟩ <;>
    simp only [diffNodes, bind_eq_ok, pure_eq_ok] at stepped
  case none.none =>
    subst stepped
    exact .nil fun s _ => by rw [valueAt_of_absent lResolved, valueAt_of_absent rResolved]
  case none.some.leafNode =>
    subst stepped
    refine .single (valid_created rightWellFormed rResolved (valueAt_of_absent lResolved))
      fun s _ _ differ => ?_
    exact covers_of_key (key_eq_of_stored rResolved (stored_of_absent_left lResolved differ))
  case none.some.extensionNode =>
    subst stepped
    obtain ⟨-, -, -, rsNibbles, -, -⟩ := rightWellFormed.extension_parts rResolved
    refine .single ⟨rs, rfl, rsNibbles, storesBelow_absent lResolved,
      rightWellFormed.storesBelow_extension rResolved⟩ fun s length _ differ => ?_
    exact covers_of_prefix (rightWellFormed.prefix_of_stored rResolved length
      (stored_of_absent_left lResolved differ))
  case none.some.branchNode =>
    obtain ⟨_, _, rfl⟩ := stepped
    obtain ⟨m, depth, -⟩ := rightWellFormed.branch_parts rResolved
    exact .slots (by omega) (fun _ => storesBelow_absent lResolved) (storesBelow_branch rResolved)
  case some.leafNode.none =>
    subst stepped
    refine .single (valid_deleted leftWellFormed lResolved (valueAt_of_absent rResolved))
      fun s _ _ differ => ?_
    exact covers_of_key (key_eq_of_stored lResolved (stored_of_absent_right rResolved differ))
  case some.leafNode.some.leafNode =>
    obtain ⟨lLength, lNibbles⟩ := leftWellFormed.leaf_length lResolved
    obtain ⟨rLength, rNibbles⟩ := rightWellFormed.leaf_length rResolved
    have onKeys : ∀ s, valueAt nodes left s ≠ valueAt nodes right s →
        l.restOfKey = s ∨ r.restOfKey = s := fun s differ =>
      (differ.ne_or_ne none).imp (key_eq_of_stored lResolved) (key_eq_of_stored rResolved)
    split_ifs at stepped with sameKey changed <;> simp only [pure_eq_ok] at stepped <;> subst stepped
    · refine .single ⟨l.restOfKey, lLength, lNibbles, rfl, (valueAt_leaf_key lResolved).symm,
        sameKey ▸ (valueAt_leaf_key rResolved).symm, ?_⟩ fun s _ _ differ => ?_
      · rw [valueAt_leaf_key lResolved, sameKey, valueAt_leaf_key rResolved]
        exact fun same => changed (Option.some.inj same)
      · exact (onKeys s differ).elim covers_of_key fun key => covers_of_key (sameKey.trans key)
    · exact .nil fun s _ => by
        rw [valueAt_of_leaf lResolved, valueAt_of_leaf rResolved, sameKey, not_not.mp changed]
    · refine .pair (valid_deleted leftWellFormed lResolved (valueAt_eq_none_of_ne_key rResolved
        (Ne.symm sameKey))) (valid_created rightWellFormed rResolved
        (valueAt_eq_none_of_ne_key lResolved sameKey))
        (fun s _ _ differ => (onKeys s differ).imp covers_of_key covers_of_key)
        fun s length nibbles here there => sameKey ?_
      exact (nibbleListToBytes_append_inj pathNibbles even lLength length lNibbles nibbles here).trans
        (nibbleListToBytes_append_inj pathNibbles even rLength length rNibbles nibbles there).symm
  case some.leafNode.some.extensionNode =>
    obtain ⟨lLength, lNibbles⟩ := leftWellFormed.leaf_length lResolved
    obtain ⟨-, -, -, rsNibbles, -, -⟩ := rightWellFormed.extension_parts rResolved
    have onKeys : ∀ s, s.length = n → valueAt nodes left s ≠ valueAt nodes right s →
        l.restOfKey = s ∨ rs <+: s := fun s length differ =>
      (differ.ne_or_ne none).imp (key_eq_of_stored lResolved)
        (rightWellFormed.prefix_of_stored rResolved length)
    split_ifs at stepped with isPrefix <;> simp only [pure_eq_ok] at stepped <;> subst stepped
    · refine .single ⟨rs, rfl, rsNibbles, storesBelow_shortLeaf lResolved isPrefix,
        rightWellFormed.storesBelow_extension rResolved⟩ fun s length _ differ => ?_
      refine covers_of_prefix ?_
      rcases onKeys s length differ with key | below
      exacts [key ▸ isPrefix, below]
    · refine .pair (valid_deleted leftWellFormed lResolved
        (rightWellFormed.valueAt_eq_none_of_not_prefix rResolved lLength isPrefix))
        ⟨rs, rfl, rsNibbles, storesBelow_leaf_of_not_prefix lResolved isPrefix,
          rightWellFormed.storesBelow_extension rResolved⟩
        (fun s length _ differ => (onKeys s length differ).imp covers_of_key
          covers_of_prefix)
        fun s length nibbles here there => isPrefix ?_
      have key := nibbleListToBytes_append_inj pathNibbles even lLength length lNibbles nibbles here
      exact key ▸ prefix_of_covers there
  case some.leafNode.some.branchNode =>
    obtain ⟨_, -, run⟩ := stepped
    obtain ⟨m, depth, -⟩ := rightWellFormed.branch_parts rResolved
    obtain ⟨lLength, -⟩ := leftWellFormed.leaf_length lResolved
    obtain ⟨k, rest, key⟩ := List.exists_cons_of_length_eq_add_one (lLength.trans depth.symm)
    have indexed : getIndex l.restOfKey 0 = .ok k := getIndex_zero_eq_ok.mpr ⟨rest, key⟩
    have slots : (List.finRange 16).mapM (fun i => do
        if i.val ≠ (← getIndex l.restOfKey 0).toNat then
          pure (DiffCall.computeDiff .none (rsubs i) (path ++ [nibble i]))
        else
          pure (.computeDiff (.node (.leafNode ⟨l.restOfKey.drop 1, l.value⟩)) (rsubs i)
            (path ++ [nibble i]))) =
        .ok ((List.finRange 16).map fun i => .computeDiff
          (if i.val ≠ k.toNat then .none else .node (.leafNode ⟨l.restOfKey.drop 1, l.value⟩))
          (rsubs i) (path ++ [nibble i])) :=
      mapM_eq_ok_map fun i _ => by
        rw [indexed]
        show (if _ then _ else _) = _
        split_ifs <;> rfl
    cases run.symm.trans slots
    refine .slots (by omega) (fun i => ?_) (storesBelow_branch rResolved)
    split_ifs with differs
    · exact storesBelow_leaf_of_not_prefix lResolved (not_nibble_prefix_of_getIndex indexed differs)
    · exact storesBelow_shortLeaf lResolved (nibble_prefix_of_getIndex indexed differs)
  case some.extensionNode.none =>
    subst stepped
    obtain ⟨-, -, -, lsNibbles, -, -⟩ := leftWellFormed.extension_parts lResolved
    refine .single ⟨ls, rfl, lsNibbles, leftWellFormed.storesBelow_extension lResolved,
      storesBelow_absent rResolved⟩ fun s length _ differ => ?_
    exact covers_of_prefix (leftWellFormed.prefix_of_stored lResolved length
      (stored_of_absent_right rResolved differ))
  case some.extensionNode.some.leafNode =>
    obtain ⟨rLength, rNibbles⟩ := rightWellFormed.leaf_length rResolved
    obtain ⟨-, -, -, lsNibbles, -, -⟩ := leftWellFormed.extension_parts lResolved
    have onKeys : ∀ s, s.length = n → valueAt nodes left s ≠ valueAt nodes right s →
        ls <+: s ∨ r.restOfKey = s := fun s length differ =>
      (differ.ne_or_ne none).imp (leftWellFormed.prefix_of_stored lResolved length)
        (key_eq_of_stored rResolved)
    split_ifs at stepped with isPrefix <;> simp only [pure_eq_ok] at stepped <;> subst stepped
    · refine .single ⟨ls, rfl, lsNibbles, leftWellFormed.storesBelow_extension lResolved,
        storesBelow_shortLeaf rResolved isPrefix⟩ fun s length _ differ => ?_
      refine covers_of_prefix ?_
      rcases onKeys s length differ with below | key
      exacts [below, key ▸ isPrefix]
    · refine .pair (valid_created rightWellFormed rResolved
        (leftWellFormed.valueAt_eq_none_of_not_prefix lResolved rLength isPrefix))
        ⟨ls, rfl, lsNibbles, leftWellFormed.storesBelow_extension lResolved,
          storesBelow_leaf_of_not_prefix rResolved isPrefix⟩
        (fun s length _ differ => (onKeys s length differ).symm.imp covers_of_key
          covers_of_prefix)
        fun s length nibbles here there => isPrefix ?_
      have key := nibbleListToBytes_append_inj pathNibbles even rLength length rNibbles nibbles here
      exact key ▸ prefix_of_covers there
  case some.extensionNode.some.extensionNode =>
    obtain ⟨-, -, -, lsNibbles, -, -⟩ := leftWellFormed.extension_parts lResolved
    obtain ⟨-, -, -, rsNibbles, -, -⟩ := rightWellFormed.extension_parts rResolved
    have onKeys : ∀ s, s.length = n → valueAt nodes left s ≠ valueAt nodes right s →
        ls <+: s ∨ rs <+: s := fun s length differ =>
      (differ.ne_or_ne none).imp (leftWellFormed.prefix_of_stored lResolved length)
        (rightWellFormed.prefix_of_stored rResolved length)
    split_ifs at stepped with same rPrefix lPrefix <;> simp only [pure_eq_ok] at stepped <;>
      subst stepped
    · subst same
      exact .single ⟨ls, rfl, lsNibbles, leftWellFormed.storesBelow_extension lResolved,
        rightWellFormed.storesBelow_extension rResolved⟩ fun s length _ differ =>
          covers_of_prefix ((onKeys s length differ).elim id id)
    · have shorter : rs.length < ls.length :=
        lt_of_le_of_ne rPrefix.length_le fun equal => same (rPrefix.eq_of_length equal).symm
      exact .single ⟨rs, rfl, rsNibbles, leftWellFormed.storesBelow_shortExtension lResolved rPrefix
        shorter, rightWellFormed.storesBelow_extension rResolved⟩ fun s length _ differ =>
          covers_of_prefix ((onKeys s length differ).elim rPrefix.trans id)
    · have shorter : ls.length < rs.length :=
        lt_of_le_of_ne lPrefix.length_le fun equal => same (lPrefix.eq_of_length equal)
      exact .single ⟨ls, rfl, lsNibbles, leftWellFormed.storesBelow_extension lResolved,
        rightWellFormed.storesBelow_shortExtension rResolved lPrefix shorter⟩ fun s length _ differ =>
          covers_of_prefix ((onKeys s length differ).elim id lPrefix.trans)
    · refine .pair ⟨ls, rfl, lsNibbles, leftWellFormed.storesBelow_extension lResolved,
          rightWellFormed.storesBelow_extension_of_incomparable rResolved rPrefix lPrefix⟩
        ⟨rs, rfl, rsNibbles, leftWellFormed.storesBelow_extension_of_incomparable lResolved lPrefix
          rPrefix, rightWellFormed.storesBelow_extension rResolved⟩
        (fun s length _ differ => (onKeys s length differ).imp covers_of_prefix covers_of_prefix)
        fun s _ _ here there => ?_
      rcases List.prefix_or_prefix_of_prefix (prefix_of_covers here) (prefix_of_covers there)
        with below | above
      exacts [lPrefix below, rPrefix above]
  case some.extensionNode.some.branchNode => exact absurd ⟨trivial, trivial⟩ matched
  case some.branchNode.none =>
    obtain ⟨_, _, rfl⟩ := stepped
    obtain ⟨m, depth, -⟩ := leftWellFormed.branch_parts lResolved
    exact .slots (by omega) (storesBelow_branch lResolved) fun _ => storesBelow_absent rResolved
  case some.branchNode.some.leafNode | some.branchNode.some.extensionNode =>
    obtain ⟨⟨⟩, checked, -⟩ := stepped
    exact nomatch checkBranchNode_eq_ok.mp checked
  case some.branchNode.some.branchNode =>
    obtain ⟨_, _, _, _, rfl⟩ := stepped
    obtain ⟨m, depth, -⟩ := leftWellFormed.branch_parts lResolved
    exact .slots (by omega) (storesBelow_branch lResolved) (storesBelow_branch rResolved)

theorem computeDiffStep_covers {calls : List DiffCall}
    (leftWellFormed : WellFormed nodes n left) (rightWellFormed : WellFormed nodes n right)
    (pathNibbles : ∀ z ∈ path, z < 16) (even : (path.length + n) % 2 = 0)
    (matched : ¬ ExtensionAgainstBranch nodes left right)
    (stepped : computeDiffStep nodes left right path = .ok calls) :
    StepCovers nodes n left right path calls := by
  unfold computeDiffStep at stepped
  split_ifs at stepped with same
  · rw [← pure_eq_ok.mp stepped]
    exact .nil fun s _ => by rw [same]
  obtain ⟨lNode, lResolved⟩ := leftWellFormed.resolve_ok
  obtain ⟨rNode, rResolved⟩ := rightWellFormed.resolve_ok
  rw [lResolved, rResolved] at stepped
  exact diffNodes_covers leftWellFormed rightWellFormed lResolved rResolved pathNibbles even
    (fun shape => matched ⟨lNode, rNode, lResolved, rResolved, shape⟩) stepped

end MptDiff
