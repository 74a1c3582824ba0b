import MptDiff.Trie.WellFormed

namespace MptDiff

/-! # What a trie stores

`valueAt nodes ref key` is the map a trie stands for, against which the walk's reports are
judged; it is not a function of the source.
-/

/-- `key` followed down from `ref` through at most `fuel` nodes. -/
def lookup (nodes : NodeStore) : Nat → Ref → Bytes → Option Bytes
  | 0, _, _ => none
  | fuel + 1, ref, key =>
      match resolve ref nodes with
      | .ok (some (.leafNode leaf)) => if leaf.restOfKey = key then some leaf.value else none
      | .ok (some (.extensionNode keySegment subnode)) =>
          if keySegment <+: key then lookup nodes fuel subnode (key.drop keySegment.length)
          else none
      | .ok (some (.branchNode subnodes value)) =>
          match key with
          | [] => if value = [] then none else some value
          | k :: rest =>
              if slot : k.toNat < 16 then lookup nodes fuel (subnodes ⟨k.toNat, slot⟩) rest else none
      | _ => none

/-- The value stored under `key` in the trie at `ref`: every node on the way takes at least
one nibble off a well-formed trie's key, so `key.length + 1` nodes are enough. -/
def valueAt (nodes : NodeStore) (ref : Ref) (key : Bytes) : Option Bytes :=
  lookup nodes (key.length + 1) ref key

variable {nodes : NodeStore} {ref : Ref} {key : Bytes} {fuel : Nat}

theorem lookup_of_absent (resolved : resolve ref nodes = .ok none) : lookup nodes fuel ref key = none := by
  cases fuel <;> simp [lookup, resolved]

theorem lookup_of_leaf {leaf : LeafNode} (resolved : resolve ref nodes = .ok (some (.leafNode leaf))) :
    lookup nodes (fuel + 1) ref key = if leaf.restOfKey = key then some leaf.value else none := by
  simp only [lookup, resolved]

theorem lookup_of_extension {keySegment : Bytes} {subnode : Ref}
    (resolved : resolve ref nodes = .ok (some (.extensionNode keySegment subnode))) :
    lookup nodes (fuel + 1) ref key =
      if keySegment <+: key then lookup nodes fuel subnode (key.drop keySegment.length) else none := by
  simp only [lookup, resolved]

theorem lookup_of_branch_cons {subnodes : Fin 16 → Ref} {value rest : Bytes} {k : UInt8}
    (resolved : resolve ref nodes = .ok (some (.branchNode subnodes value))) :
    lookup nodes (fuel + 1) ref (k :: rest) =
      if slot : k.toNat < 16 then lookup nodes fuel (subnodes ⟨k.toNat, slot⟩) rest else none := by
  simp only [lookup, resolved]

theorem lookup_of_branch {subnodes : Fin 16 → Ref} {value rest : Bytes} {i : Fin 16}
    (resolved : resolve ref nodes = .ok (some (.branchNode subnodes value))) :
    lookup nodes (fuel + 1) ref (nibble i :: rest) = lookup nodes fuel (subnodes i) rest := by
  simp only [lookup_of_branch_cons resolved, toNat_nibble, i.isLt, dif_pos]

theorem lookup_leaf_eq_some {leaf : LeafNode} {v : Bytes}
    (resolved : resolve ref nodes = .ok (some (.leafNode leaf)))
    (found : lookup nodes fuel ref key = some v) : v = leaf.value := by
  cases fuel with
  | zero => exact nomatch found
  | succ fuel =>
      rw [lookup_of_leaf resolved] at found
      split_ifs at found
      exact (Option.some.inj found).symm

theorem lookup_hashBranch_eq_some {children : List (Fin 16 × UInt8)} {v : Bytes}
    (resolved : resolve ref nodes = .ok (some (hashBranch children)))
    (found : lookup nodes fuel ref key = some v) :
    ∃ c ∈ children, lookup nodes (fuel - 1) (.bytes (nodeHash c.2)) key.tail = some v := by
  obtain _ | fuel := fuel
  · exact nomatch found
  rcases key with _ | ⟨k, rest⟩
  · simp [lookup, resolved, hashBranch] at found
  rw [lookup_of_branch_cons resolved] at found
  split_ifs at found with slot
  cases child : children.find? fun c => c.1 = ⟨k.toNat, slot⟩ with
  | none =>
      have absent : lookup nodes fuel (.bytes []) rest = none := lookup_of_absent rfl
      simp only [child, Option.map_none', Option.getD_none, absent] at found
      exact nomatch found
  | some c =>
      simp only [child, Option.map_some', Option.getD_some] at found
      exact ⟨c, List.mem_of_find?_eq_some child, found⟩

theorem WellFormed.lookup_stable {n : Nat} (wellFormed : WellFormed nodes n ref) :
    ∀ {fuel key}, key.length = n → n < fuel → lookup nodes fuel ref key = lookup nodes (n + 1) ref key := by
  induction wellFormed with
  | absent resolved => exact fun _ _ => by rw [lookup_of_absent resolved, lookup_of_absent resolved]
  | leaf resolved =>
      intro fuel key _ below
      obtain ⟨fuel, rfl⟩ : ∃ f, fuel = f + 1 := ⟨fuel - 1, by omega⟩
      rw [lookup_of_leaf resolved, lookup_of_leaf resolved]
  | @extension n ref keySegment subnode m resolved keyLength nonempty _ _ _ ih =>
      intro fuel key length below
      obtain ⟨fuel, rfl⟩ : ∃ f, fuel = f + 1 := ⟨fuel - 1, by omega⟩
      have segment := List.length_pos.mpr nonempty
      have rest : (key.drop keySegment.length).length = m := by rw [List.length_drop]; omega
      rw [lookup_of_extension resolved, lookup_of_extension resolved, ih rest (by omega),
        @ih n _ rest (by omega)]
  | branch m resolved keyLength _ ih =>
      intro fuel key length below
      obtain ⟨fuel, rfl⟩ : ∃ f, fuel = f + 1 := ⟨fuel - 1, by omega⟩
      subst keyLength
      obtain ⟨k, rest, rfl⟩ := List.exists_cons_of_length_eq_add_one length
      rw [lookup_of_branch_cons resolved, lookup_of_branch_cons resolved]
      split_ifs with slot
      · rw [ih _ (by simpa using length) (by omega), ih _ (by simpa using length) (by omega)]
      · rfl

theorem valueAt_of_absent (resolved : resolve ref nodes = .ok none) : valueAt nodes ref key = none :=
  lookup_of_absent resolved

theorem valueAt_of_leaf {leaf : LeafNode} (resolved : resolve ref nodes = .ok (some (.leafNode leaf))) :
    valueAt nodes ref key = if leaf.restOfKey = key then some leaf.value else none :=
  lookup_of_leaf resolved

theorem valueAt_of_branch {subnodes : Fin 16 → Ref} {value rest : Bytes} {i : Fin 16}
    (resolved : resolve ref nodes = .ok (some (.branchNode subnodes value))) :
    valueAt nodes ref (nibble i :: rest) = valueAt nodes (subnodes i) rest :=
  lookup_of_branch resolved

theorem valueAt_eq_none_of_ne_key {leaf : LeafNode}
    (resolved : resolve ref nodes = .ok (some (.leafNode leaf))) (other : leaf.restOfKey ≠ key) :
    valueAt nodes ref key = none := by
  rw [valueAt_of_leaf resolved, if_neg other]

theorem WellFormed.valueAt_extension {n : Nat} {keySegment : Bytes} {subnode : Ref}
    (wellFormed : WellFormed nodes n ref)
    (resolved : resolve ref nodes = .ok (some (.extensionNode keySegment subnode)))
    (length : key.length = n) :
    valueAt nodes ref key =
      if keySegment <+: key then valueAt nodes subnode (key.drop keySegment.length) else none := by
  obtain ⟨m, keyLength, nonempty, -, -, sub⟩ := wellFormed.extension_parts resolved
  have segment := List.length_pos.mpr nonempty
  unfold valueAt
  rw [lookup_of_extension resolved]
  split_ifs
  · exact sub.lookup_stable (by rw [List.length_drop]; omega) (by omega) |>.trans
      (by rw [List.length_drop]; congr 1; omega)
  · rfl

theorem WellFormed.valueAt_eq_none_of_not_prefix {n : Nat} {keySegment : Bytes} {subnode : Ref}
    (wellFormed : WellFormed nodes n ref)
    (resolved : resolve ref nodes = .ok (some (.extensionNode keySegment subnode)))
    (length : key.length = n) (outside : ¬ keySegment <+: key) : valueAt nodes ref key = none := by
  rw [wellFormed.valueAt_extension resolved length, if_neg outside]

theorem valueAt_shortLeaf {leaf : LeafNode} {q s : Bytes}
    (resolved : resolve ref nodes = .ok (some (.leafNode leaf))) (isPrefix : q <+: leaf.restOfKey) :
    valueAt nodes (.node (.leafNode ⟨leaf.restOfKey.drop q.length, leaf.value⟩)) s =
      valueAt nodes ref (q ++ s) := by
  obtain ⟨t, split⟩ := isPrefix
  rw [valueAt_of_leaf (resolve_node ..), valueAt_of_leaf resolved, ← split]
  simp

theorem WellFormed.valueAt_shortExtension {n : Nat} {keySegment q s : Bytes} {subnode : Ref}
    (wellFormed : WellFormed nodes n ref)
    (resolved : resolve ref nodes = .ok (some (.extensionNode keySegment subnode)))
    (isPrefix : q <+: keySegment) (shorter : q.length < keySegment.length)
    (length : q.length + s.length = n) :
    valueAt nodes (.node (.extensionNode (keySegment.drop q.length) subnode)) s =
      valueAt nodes ref (q ++ s) := by
  obtain ⟨m, keyLength, -, -, -, sub⟩ := wellFormed.extension_parts resolved
  obtain ⟨t, rfl⟩ := isPrefix
  simp only [List.length_append] at keyLength shorter
  rw [wellFormed.valueAt_extension resolved (by simp only [List.length_append]; omega)]
  unfold valueAt
  rw [lookup_of_extension (resolve_node ..)]
  simp only [List.drop_left, List.prefix_append_right_inj, List.length_append, ← List.drop_drop]
  split_ifs
  · exact sub.lookup_stable (by rw [List.length_drop]; omega) (by omega) |>.trans
      (by rw [List.length_drop]; congr 1; omega)
  · rfl

/-- Below the key part `q`, the trie at `node` stores what the trie at `node'` stores, for keys
of `n` nibbles in all. -/
def StoresBelow (nodes : NodeStore) (n : Nat) (node : Ref) (q : Bytes) (node' : Ref) : Prop :=
  ∀ s, q.length + s.length = n → valueAt nodes node (q ++ s) = valueAt nodes node' s

variable {n : Nat} {q : Bytes}

theorem storesBelow_absent (resolved : resolve ref nodes = .ok none) :
    StoresBelow nodes n ref q .none := fun _ _ => by
  rw [valueAt_of_absent resolved, valueAt_of_absent (resolve_none nodes)]

theorem storesBelow_leaf_of_not_prefix {leaf : LeafNode}
    (resolved : resolve ref nodes = .ok (some (.leafNode leaf))) (outside : ¬ q <+: leaf.restOfKey) :
    StoresBelow nodes n ref q .none := fun s _ => by
  rw [valueAt_of_leaf resolved, if_neg fun same => outside ⟨s, same.symm⟩,
    valueAt_of_absent (resolve_none nodes)]

theorem storesBelow_shortLeaf {leaf : LeafNode}
    (resolved : resolve ref nodes = .ok (some (.leafNode leaf))) (isPrefix : q <+: leaf.restOfKey) :
    StoresBelow nodes n ref q (.node (.leafNode ⟨leaf.restOfKey.drop q.length, leaf.value⟩)) :=
  fun _ _ => (valueAt_shortLeaf resolved isPrefix).symm

theorem WellFormed.storesBelow_extension {keySegment : Bytes} {subnode : Ref}
    (wellFormed : WellFormed nodes n ref)
    (resolved : resolve ref nodes = .ok (some (.extensionNode keySegment subnode))) :
    StoresBelow nodes n ref keySegment subnode := fun s length => by
  rw [wellFormed.valueAt_extension resolved (by rw [List.length_append]; exact length),
    if_pos (List.prefix_append _ _), List.drop_left]

theorem WellFormed.storesBelow_extension_of_incomparable {keySegment : Bytes} {subnode : Ref}
    (wellFormed : WellFormed nodes n ref)
    (resolved : resolve ref nodes = .ok (some (.extensionNode keySegment subnode)))
    (notBelow : ¬ keySegment <+: q) (notAbove : ¬ q <+: keySegment) :
    StoresBelow nodes n ref q .none := fun s length => by
  rw [wellFormed.valueAt_extension resolved (by rw [List.length_append]; exact length),
    valueAt_of_absent (resolve_none nodes), if_neg]
  intro isPrefix
  rcases List.prefix_or_prefix_of_prefix isPrefix (List.prefix_append q s) with below | above
  exacts [notBelow below, notAbove above]

theorem WellFormed.storesBelow_shortExtension {keySegment : Bytes} {subnode : Ref}
    (wellFormed : WellFormed nodes n ref)
    (resolved : resolve ref nodes = .ok (some (.extensionNode keySegment subnode)))
    (isPrefix : q <+: keySegment) (shorter : q.length < keySegment.length) :
    StoresBelow nodes n ref q (.node (.extensionNode (keySegment.drop q.length) subnode)) :=
  fun _ length => (wellFormed.valueAt_shortExtension resolved isPrefix shorter length).symm

theorem storesBelow_branch {subnodes : Fin 16 → Ref} {value : Bytes}
    (resolved : resolve ref nodes = .ok (some (.branchNode subnodes value))) (i : Fin 16) :
    StoresBelow nodes n ref [nibble i] (subnodes i) :=
  fun _ _ => valueAt_of_branch resolved

end MptDiff
