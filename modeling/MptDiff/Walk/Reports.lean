import MptDiff.Walk.Cover
import MptDiff.Walk.Safety

namespace MptDiff

/-! # What the walk reports

The Extension/Branch case compares an `int` with `bytes([i])`, which are never equal, so it pairs
every slot of the branch with `None` and never visits the extension's sub-trie.
-/

variable {nodes : NodeStore} {n : Nat} {left right : Ref} {path : Bytes}

/-- What a walk on `left` and `right` below `path` should record: each difference of the two
tries at a key part of `n` nibbles, once, and nothing else. -/
structure Reports (nodes : NodeStore) (n : Nat) (left right : Ref) (path : Bytes)
    (trace : List LeafDiff) : Prop where
  sound : ∀ t ∈ trace, ∃ s, Difference nodes n left right path s t
  complete : ∀ s, s.length = n → (∀ z ∈ s, z < 16) →
    valueAt nodes left s ≠ valueAt nodes right s → ∃ t ∈ trace, t.1 = nibbleListToBytes (path ++ s)
  nodup : (trace.map Prod.fst).Nodup

theorem Difference.suffix_eq {s u : Bytes} {t : LeafDiff} (even : n % 2 = 0)
    (difference : Difference nodes n left right [] s t) (length : u.length = n)
    (nibbles : ∀ z ∈ u, z < 16) (key : t.1 = nibbleListToBytes u) : s = u :=
  nibbleListToBytes_append_inj (fun _ member => absurd member (List.not_mem_nil _))
    (by rwa [List.length_nil, Nat.zero_add]) difference.length length difference.nibbles nibbles
    (difference.key.symm.trans key)

/-- What running one call of a step appends to the record, for keys of `width` nibbles in all:
a report appends itself, a recursive call what a walk below its path should record. -/
def DiffCall.Records (nodes : NodeStore) (width : Nat) : DiffCall → List LeafDiff → Prop
  | .processLeafDiff key x y, T => T = [(key, x, y)]
  | .computeDiff l r p, T => ∃ m, p.length + m = width ∧ Reports nodes m l r p T

section Records

variable {c : DiffCall} {T : List LeafDiff}

theorem DiffCall.Records.difference (records : c.Records nodes (path.length + n) T)
    (valid : c.Valid nodes n left right path) {t : LeafDiff} (member : t ∈ T) :
    ∃ s, Difference nodes n left right path s t ∧ c.Covers path s := by
  cases c with
  | processLeafDiff key x y =>
      obtain ⟨s, difference⟩ := valid
      subst records
      obtain rfl := List.mem_singleton.mp member
      exact ⟨s, difference, difference.key⟩
  | computeDiff l r p =>
      obtain ⟨q, rfl, qNibbles, leftBelow, rightBelow⟩ := valid
      obtain ⟨m, width, reports⟩ := records
      obtain ⟨s, difference⟩ := reports.sound t member
      have length : q.length + s.length = n := by
        rw [difference.length]
        simp only [List.length_append] at width
        omega
      refine ⟨q ++ s, ⟨by rw [List.length_append, length],
        List.forall_mem_append.mpr ⟨qNibbles, difference.nibbles⟩,
        by rw [difference.key, List.append_assoc], by rw [difference.leftValue, leftBelow s length],
        by rw [difference.rightValue, rightBelow s length],
        by rw [leftBelow s length, rightBelow s length]; exact difference.differ⟩,
        covers_of_prefix (List.prefix_append q s)⟩

theorem DiffCall.Records.complete (records : c.Records nodes (path.length + n) T)
    (valid : c.Valid nodes n left right path) {s : Bytes} (length : s.length = n)
    (nibbles : ∀ z ∈ s, z < 16) (differ : valueAt nodes left s ≠ valueAt nodes right s)
    (covers : c.Covers path s) : ∃ t ∈ T, t.1 = nibbleListToBytes (path ++ s) := by
  cases c with
  | processLeafDiff key x y =>
      subst records
      exact ⟨_, List.mem_singleton_self _, covers⟩
  | computeDiff l r p =>
      obtain ⟨q, rfl, -, leftBelow, rightBelow⟩ := valid
      obtain ⟨m, width, reports⟩ := records
      obtain ⟨s', rfl⟩ := prefix_of_covers covers
      have below : q.length + s'.length = n := by rwa [List.length_append] at length
      obtain ⟨t, member, key⟩ := reports.complete s'
        (by simp only [List.length_append] at width; omega)
        (fun z member => nibbles z (List.mem_append_right q member))
        (by rwa [← leftBelow s' below, ← rightBelow s' below])
      exact ⟨t, member, by rw [key, List.append_assoc]⟩

theorem DiffCall.Records.nodup {width : Nat} (records : c.Records nodes width T) :
    (T.map Prod.fst).Nodup := by
  cases c with
  | processLeafDiff => subst records; exact List.nodup_singleton _
  | computeDiff => exact records.choose_spec.2.nodup

end Records

theorem nodup_flatten_of_covers {pieces : List (DiffCall × List LeafDiff)}
    (pathNibbles : ∀ z ∈ path, z < 16) (even : (path.length + n) % 2 = 0)
    (disjoint : (pieces.map Prod.fst).Pairwise fun c c' =>
      ∀ s, s.length = n → (∀ z ∈ s, z < 16) → c.Covers path s → ¬ c'.Covers path s)
    (nodup : ∀ p ∈ pieces, (p.2.map Prod.fst).Nodup)
    (keyed : ∀ p ∈ pieces, ∀ t ∈ p.2, ∃ s, s.length = n ∧ (∀ z ∈ s, z < 16) ∧
      t.1 = nibbleListToBytes (path ++ s) ∧ p.1.Covers path s) :
    ((pieces.map Prod.snd).flatten.map Prod.fst).Nodup := by
  rw [List.map_flatten, List.map_map, List.nodup_flatten, List.pairwise_map]
  refine ⟨fun keys member => ?_, (List.pairwise_map.mp disjoint).imp_of_mem ?_⟩
  · obtain ⟨p, recordedBy, rfl⟩ := List.mem_map.mp member
    exact nodup p recordedBy
  intro p p' recordedBy recordedBy' apart key here there
  obtain ⟨t, member, rfl⟩ := List.mem_map.mp here
  obtain ⟨t', member', same⟩ := List.mem_map.mp there
  obtain ⟨s, length, nibbles, key, covered⟩ := keyed p recordedBy t member
  obtain ⟨s', length', nibbles', key', covered'⟩ := keyed p' recordedBy' t' member'
  have equal : s' = s := nibbleListToBytes_append_inj pathNibbles even length' length nibbles'
    nibbles (key'.symm.trans (same.trans key))
  exact apart s length nibbles covered (equal ▸ covered')

theorem StepCovers.reports {calls : List DiffCall} {pieces : List (DiffCall × List LeafDiff)}
    (covers : StepCovers nodes n left right path calls) (pathNibbles : ∀ z ∈ path, z < 16)
    (even : (path.length + n) % 2 = 0) (order : pieces.map Prod.fst = calls)
    (recorded : ∀ p ∈ pieces, p.1.Records nodes (path.length + n) p.2) :
    Reports nodes n left right path (pieces.map Prod.snd).flatten := by
  subst order
  have valid : ∀ p ∈ pieces, p.1.Valid nodes n left right path := fun p member =>
    covers.valid p.1 (List.mem_map_of_mem _ member)
  have each : ∀ p ∈ pieces, ∀ t ∈ p.2,
      ∃ s, Difference nodes n left right path s t ∧ p.1.Covers path s := fun p member _ =>
    (recorded p member).difference (valid p member)
  refine ⟨fun t member => ?_, fun s length nibbles differ => ?_, ?_⟩
  · obtain ⟨_, piece, member⟩ := List.mem_flatten.mp member
    obtain ⟨p, recordedBy, rfl⟩ := List.mem_map.mp piece
    obtain ⟨s, difference, -⟩ := each p recordedBy t member
    exact ⟨s, difference⟩
  · obtain ⟨c, called, covered⟩ := covers.covered s length nibbles differ
    obtain ⟨p, recordedBy, rfl⟩ := List.mem_map.mp called
    obtain ⟨t, member, key⟩ :=
      (recorded p recordedBy).complete (valid p recordedBy) length nibbles differ covered
    exact ⟨t, List.mem_flatten.mpr ⟨p.2, List.mem_map_of_mem _ recordedBy, member⟩, key⟩
  · refine nodup_flatten_of_covers pathNibbles even covers.disjoint
      (fun p recordedBy => (recorded p recordedBy).nodup) fun p recordedBy t member => ?_
    obtain ⟨s, difference, covered⟩ := each p recordedBy t member
    exact ⟨s, difference.length, difference.nibbles, difference.key, covered⟩

/-- The run lemma: a walk from an aligned call that meets no extension facing a branch appends
to its record what it should record. -/
theorem computeDiff_records {width : Nat} (even : width % 2 = 0) :
    ∀ {fuel : Nat} {left right : Ref} {path : Bytes} {n : Nat} {acc res : List LeafDiff},
      Aligned nodes width (left, right, path) n → (∀ z ∈ path, z < 16) →
      (∀ call, Reaches nodes (left, right, path) call →
        ¬ ExtensionAgainstBranch nodes call.1 call.2.1) →
      computeDiff nodes recordLeafDiff fuel left right path acc = .ok res →
      ∃ T, res = acc ++ T ∧ Reports nodes n left right path T
  | 0, _, _, _, _, _, _, _, _, _, run => nomatch run
  | fuel + 1, left, right, path, n, acc, res, aligned, pathNibbles, matched, run => by
      have ⟨pathLength, leftWellFormed, rightWellFormed⟩ := aligned
      obtain ⟨calls, stepped, ran⟩ := bind_eq_ok.mp run
      have covers := computeDiffStep_covers leftWellFormed rightWellFormed pathNibbles
        (pathLength ▸ even) (matched _ .refl) stepped
      refine (foldlM_appends (P := fun c T => c.Records nodes (path.length + n) T)
        (fun c member t t' ran => ?_) ran).elim fun pieces ⟨order, recorded, appended⟩ =>
          ⟨_, appended, covers.reports pathNibbles (pathLength ▸ even) order recorded⟩
      cases c with
      | processLeafDiff key x y => exact ⟨_, (pure_eq_ok.mp ran).symm, rfl⟩
      | computeDiff l r p =>
          have called : Calls nodes (left, right, path) (l, r, p) := ⟨calls, stepped, member⟩
          obtain ⟨m, -, aligned'⟩ := aligned.calls called
          obtain ⟨q, rfl, qNibbles, -⟩ := covers.valid _ member
          obtain ⟨T, rfl, reports⟩ := computeDiff_records even aligned'
            (List.forall_mem_append.mpr ⟨pathNibbles, qNibbles⟩)
            (fun call reached => matched call (.head called reached)) ran
          exact ⟨T, rfl, m, aligned'.1.trans pathLength.symm, reports⟩

theorem computeDiff_eq_replay_reports {L R : Ref} {fuel : Nat} {trace : List LeafDiff}
    (even : n % 2 = 0) (leftWellFormed : WellFormed nodes n L) (rightWellFormed : WellFormed nodes n R)
    (matched : ∀ call, Reaches nodes (L, R, []) call → ¬ ExtensionAgainstBranch nodes call.1 call.2.1)
    (recorded : computeDiff nodes recordLeafDiff fuel L R [] [] = .ok trace) :
    Reports nodes n L R [] trace ∧ ∀ {σ : Type} (process : LeafDiffHandler σ) (s : σ),
      computeDiff nodes process fuel L R [] s = replay process trace s := by
  obtain ⟨T, rfl, reports⟩ := computeDiff_records even
    ⟨Nat.zero_add n, leftWellFormed, rightWellFormed⟩
    (fun _ member => absurd member (List.not_mem_nil _)) matched recorded
  obtain ⟨T', appended, replays⟩ := computeDiff_eq_replay recorded
  rw [List.append_cancel_left appended.symm] at replays
  exact ⟨reports, replays⟩

theorem computeDiff_replays_reports {σ : Type} {process : LeafDiffHandler σ} {L R : Ref}
    {fuel : Nat} {s s' : σ} (even : n % 2 = 0) (leftWellFormed : WellFormed nodes n L)
    (rightWellFormed : WellFormed nodes n R)
    (matched : ∀ call, Reaches nodes (L, R, []) call → ¬ ExtensionAgainstBranch nodes call.1 call.2.1)
    (ran : computeDiff nodes process fuel L R [] s = .ok s') :
    ∃ T, Reports nodes n L R [] T ∧ replay process T s = .ok s' := by
  obtain ⟨trace, recorded⟩ := computeDiff_recorded_of_ok ran []
  have ⟨reports, replays⟩ :=
    computeDiff_eq_replay_reports even leftWellFormed rightWellFormed matched recorded
  exact ⟨trace, reports, (replays process s).symm.trans ran⟩

/-- The trie at `ref` has no extension node. -/
inductive ExtensionFree (nodes : NodeStore) : Ref → Prop
  | absent {ref} (resolved : resolve ref nodes = .ok none) : ExtensionFree nodes ref
  | leaf {ref leaf} (resolved : resolve ref nodes = .ok (some (.leafNode leaf))) :
      ExtensionFree nodes ref
  | branch {ref subnodes value}
      (resolved : resolve ref nodes = .ok (some (.branchNode subnodes value)))
      (subs : ∀ i, ExtensionFree nodes (subnodes i)) : ExtensionFree nodes ref

theorem ExtensionFree.not_extension {ref subnode : Ref} {keySegment : Bytes}
    (free : ExtensionFree nodes ref)
    (resolved : resolve ref nodes = .ok (some (.extensionNode keySegment subnode))) : False := by
  cases free with
  | absent resolved' | leaf resolved' | branch resolved' => exact nomatch resolved.symm.trans resolved'

theorem ExtensionFree.descends {node node' : Ref} {q : Bytes} (free : ExtensionFree nodes node)
    (descends : Descends nodes node q node') : ExtensionFree nodes node' := by
  cases descends with
  | child isChild =>
      cases isChild with
      | subnode resolved => exact (free.not_extension resolved).elim
      | slot i resolved =>
          cases free with
          | branch resolved' subs =>
              cases resolved.symm.trans resolved'
              exact subs i
          | absent resolved' | leaf resolved' => exact nomatch resolved.symm.trans resolved'
  | dropped => exact .absent (resolve_none nodes)
  | shortLeaf => exact .leaf (resolve_node ..)
  | shortExtension resolved => exact (free.not_extension resolved).elim

theorem ExtensionFree.reaches {L R : Ref} (free : ExtensionFree nodes L) :
    ∀ call, Reaches nodes (L, R, path) call → ¬ ExtensionAgainstBranch nodes call.1 call.2.1 := by
  have leftFree : ∀ call, Reaches nodes (L, R, path) call → ExtensionFree nodes call.1 := by
    intro call reached
    induction reached with
    | refl => exact free
    | tail _ called ih => exact ih.descends (calls_descends called).choose_spec.2.1
  rintro call reached ⟨lNode, rNode, lResolved, -, extension, -⟩
  rcases lNode with _ | ⟨_ | _ | _⟩ <;> try exact False.elim extension
  exact (leftFree call reached).not_extension lResolved

theorem ExtensionFree.hashBranch {ref : Ref} {children : List (Fin 16 × UInt8)}
    (resolved : resolve ref nodes = .ok (some (hashBranch children)))
    (subs : ∀ c ∈ children, ExtensionFree nodes (.bytes (nodeHash c.2))) : ExtensionFree nodes ref :=
  .branch resolved fun i => by
    cases found : children.find? fun c => c.1 = i with
    | none => exact .absent rfl
    | some c => exact subs c (List.mem_of_find?_eq_some found)

/-- On two well-formed tries of keys of an even number `n` of nibbles, a walk that returns and
meets no extension facing a branch records every key at which the tries store different
values, once, with the two leaves holding the two values, and nothing else. -/
theorem computeDiff_reports_differences {L R : Ref} {fuel : Nat} {trace : List LeafDiff}
    (leftWellFormed : WellFormed nodes n L) (rightWellFormed : WellFormed nodes n R)
    (even : n % 2 = 0)
    (matched : ∀ call, Reaches nodes (L, R, []) call → ¬ ExtensionAgainstBranch nodes call.1 call.2.1)
    (run : computeDiff nodes recordLeafDiff fuel L R [] [] = .ok trace) :
    Reports nodes n L R [] trace := by
  obtain ⟨T, rfl, reports⟩ := computeDiff_records even ⟨Nat.zero_add n, leftWellFormed,
    rightWellFormed⟩ (fun _ member => absurd member (List.not_mem_nil _)) matched run
  exact reports

theorem Reports.entry_of_differ {T : List LeafDiff} (reports : Reports nodes n left right [] T)
    (even : n % 2 = 0) {s : Bytes} (length : s.length = n) (nibbles : ∀ z ∈ s, z < 16)
    (differ : valueAt nodes left s ≠ valueAt nodes right s) :
    ∃ t ∈ T, t.1 = nibbleListToBytes s ∧ t.2.1.map LeafNode.value = valueAt nodes left s ∧
      t.2.2.map LeafNode.value = valueAt nodes right s := by
  obtain ⟨t, member, key⟩ := reports.complete s length nibbles differ
  rw [List.nil_append] at key
  obtain ⟨u, difference⟩ := reports.sound t member
  obtain rfl := difference.suffix_eq even length nibbles key
  exact ⟨t, member, key, difference.leftValue, difference.rightValue⟩

/-- Creating the account `accountKey 4` is reported as the one difference of the two tries. -/
theorem accountsStore_reports_differences :
    WellFormed accountsStore 64 (.bytes (nodeHash 4)) ∧
    WellFormed accountsStore 64 (.bytes (nodeHash 1)) ∧ 64 % 2 = 0 ∧
    (∀ call, Reaches accountsStore (.bytes (nodeHash 4), .bytes (nodeHash 1), []) call →
      ¬ ExtensionAgainstBranch accountsStore call.1 call.2.1) ∧
    computeDiff accountsStore recordLeafDiff 65 (.bytes (nodeHash 4)) (.bytes (nodeHash 1)) [] [] =
      .ok [(nibbleListToBytes (accountKey 4), none, some ⟨(accountKey 4).drop 1, [2]⟩)] ∧
    Reports accountsStore 64 (.bytes (nodeHash 4)) (.bytes (nodeHash 1)) []
      [(nibbleListToBytes (accountKey 4), none, some ⟨(accountKey 4).drop 1, [2]⟩)] := by
  have matched : ∀ call, Reaches accountsStore (.bytes (nodeHash 4), .bytes (nodeHash 1), []) call →
      ¬ ExtensionAgainstBranch accountsStore call.1 call.2.1 := ExtensionFree.reaches (.leaf rfl)
  have run : computeDiff accountsStore recordLeafDiff 65 (.bytes (nodeHash 4)) (.bytes (nodeHash 1))
      [] [] = .ok [(nibbleListToBytes (accountKey 4), none, some ⟨(accountKey 4).drop 1, [2]⟩)] := rfl
  exact ⟨accountsStore_wellFormed.2, accountsStore_wellFormed.1, rfl, matched, run,
    computeDiff_reports_differences accountsStore_wellFormed.2 accountsStore_wellFormed.1 rfl matched run⟩

/-- On two well-formed tries of keys of an even number `n` of nibbles, a walk with a budget above
`n` that meets no branch facing a leaf or an extension and no extension facing a branch returns
normally, and hands every handler, in order, a list of leaf pairs that holds each difference of
the two tries once and nothing else. -/
theorem computeDiff_hands_differences {L R : Ref} {fuel : Nat}
    (leftWellFormed : WellFormed nodes n L) (rightWellFormed : WellFormed nodes n R)
    (even : n % 2 = 0) (enough : n < fuel)
    (matched : ∀ call, Reaches nodes (L, R, []) call →
      ¬ BranchAgainstLeafOrExtension nodes call.1 call.2.1 ∧
        ¬ ExtensionAgainstBranch nodes call.1 call.2.1) :
    ∃ trace, Reports nodes n L R [] trace ∧
      ∀ {σ : Type} (process : LeafDiffHandler σ) (s : σ),
        computeDiff nodes process fuel L R [] s = replay process trace s := by
  obtain ⟨trace, recorded⟩ := computeDiff_exists_of_clear (s := []) leftWellFormed rightWellFormed
    (fun _ _ _ _ _ => pure_ne_error) enough fun call reached => (matched call reached).1
  exact ⟨trace, computeDiff_eq_replay_reports even leftWellFormed rightWellFormed
    (fun call reached => (matched call reached).2) recorded⟩

theorem accountsStore_hands_differences :
    WellFormed accountsStore 64 (.bytes (nodeHash 4)) ∧
    WellFormed accountsStore 64 (.bytes (nodeHash 1)) ∧ 64 % 2 = 0 ∧ 64 < 65 ∧
    (∀ call, Reaches accountsStore (.bytes (nodeHash 4), .bytes (nodeHash 1), []) call →
      ¬ BranchAgainstLeafOrExtension accountsStore call.1 call.2.1 ∧
        ¬ ExtensionAgainstBranch accountsStore call.1 call.2.1) ∧
    ∃ trace, Reports accountsStore 64 (.bytes (nodeHash 4)) (.bytes (nodeHash 1)) [] trace ∧
      ∀ {σ : Type} (process : LeafDiffHandler σ) (s : σ),
        computeDiff accountsStore process 65 (.bytes (nodeHash 4)) (.bytes (nodeHash 1)) [] s =
          replay process trace s := by
  have run : computeDiff accountsStore recordLeafDiff 65 (.bytes (nodeHash 4)) (.bytes (nodeHash 1))
      [] [] = .ok [(nibbleListToBytes (accountKey 4), none, some ⟨(accountKey 4).drop 1, [2]⟩)] := rfl
  have matched : ∀ call, Reaches accountsStore (.bytes (nodeHash 4), .bytes (nodeHash 1), []) call →
      ¬ BranchAgainstLeafOrExtension accountsStore call.1 call.2.1 ∧
        ¬ ExtensionAgainstBranch accountsStore call.1 call.2.1 :=
    have free : ExtensionFree accountsStore (.bytes (nodeHash 4)) := .leaf rfl
    fun call reached => ⟨computeDiff_ok_matched run call reached, free.reaches call reached⟩
  exact ⟨accountsStore_wellFormed.2, accountsStore_wellFormed.1, rfl, by decide, matched,
    computeDiff_hands_differences accountsStore_wellFormed.2 accountsStore_wellFormed.1 rfl
      (by decide) matched⟩

theorem diffNodes_extension_branch {keySegment : Bytes} {subnode : Ref}
    {subnodes : Fin 16 → Ref} {path : Bytes} (nonempty : keySegment ≠ []) :
    diffNodes (some (.extensionNode keySegment subnode)) (some (.branchNode subnodes [])) path =
      .ok ((List.finRange 16).map fun i => .computeDiff .none (subnodes i) (path ++ [nibble i])) := by
  obtain ⟨k, rest, rfl⟩ := List.exists_cons_of_ne_nil nonempty
  simp only [diffNodes, checkBranchNode, getIndex, if_true, pure_bind, reduceCtorEq, if_false]
  exact mapM_eq_ok_map fun _ _ => rfl

/-- A 64-nibble key with the given first nibbles and zeros after them. -/
def paddedKey (nibbles : Bytes) : Bytes := nibbles ++ List.replicate (64 - nibbles.length) 0

/-- Two tries of the same accounts before and after a block: `paddedKey [1, 2]` and
`paddedKey [1, 3]` share their first nibble and hang below an extension (under `nodeHash 5`);
the block deletes the second and creates `paddedKey [4]`, and the root becomes a branch (under
`nodeHash 9`). -/
def splitStore : NodeStore :=
  ⟨[(nodeHash 5, .extensionNode [1] (.bytes (nodeHash 6))),
    (nodeHash 6, .branchNode (fun i => if i = 2 then .bytes (nodeHash 7)
      else if i = 3 then .bytes (nodeHash 8) else .bytes []) []),
    (nodeHash 7, .leafNode ⟨(paddedKey [1, 2]).drop 2, [1]⟩),
    (nodeHash 8, .leafNode ⟨(paddedKey [1, 3]).drop 2, [3]⟩),
    (nodeHash 9, .branchNode (fun i => if i = 1 then .bytes (nodeHash 10)
      else if i = 4 then .bytes (nodeHash 11) else .bytes []) []),
    (nodeHash 10, .leafNode ⟨(paddedKey [1, 2]).drop 1, [1]⟩),
    (nodeHash 11, .leafNode ⟨(paddedKey [4]).drop 1, [2]⟩)], by decide⟩

theorem splitStore_wellFormed :
    WellFormed splitStore 64 (.bytes (nodeHash 5)) ∧ WellFormed splitStore 64 (.bytes (nodeHash 9)) := by
  refine ⟨.extension 63 rfl rfl (by decide) (by decide) ⟨_, _, rfl⟩
    (.branch 62 rfl rfl fun i => ?_), .branch 63 rfl rfl fun i => ?_⟩
  all_goals
    dsimp only
    split_ifs
    · exact .leaf rfl rfl (by decide)
    · exact .leaf rfl rfl (by decide)
    · exact .absent rfl

/-- An account stored with the same value in both tries is reported as created. -/
theorem extension_branch_reports_unchanged :
    WellFormed splitStore 64 (.bytes (nodeHash 5)) ∧ WellFormed splitStore 64 (.bytes (nodeHash 9)) ∧
    computeDiff splitStore recordLeafDiff 65 (.bytes (nodeHash 5)) (.bytes (nodeHash 9)) [] [] =
      .ok [(nibbleListToBytes (paddedKey [1, 2]), none, some ⟨(paddedKey [1, 2]).drop 1, [1]⟩),
        (nibbleListToBytes (paddedKey [4]), none, some ⟨(paddedKey [4]).drop 1, [2]⟩)] ∧
    valueAt splitStore (.bytes (nodeHash 5)) (paddedKey [1, 2]) = some [1] ∧
    valueAt splitStore (.bytes (nodeHash 9)) (paddedKey [1, 2]) = some [1] :=
  ⟨splitStore_wellFormed.1, splitStore_wellFormed.2, rfl, rfl, rfl⟩

/-- A deleted account is not reported. -/
theorem extension_branch_misses_deletion :
    WellFormed splitStore 64 (.bytes (nodeHash 5)) ∧ WellFormed splitStore 64 (.bytes (nodeHash 9)) ∧
    valueAt splitStore (.bytes (nodeHash 5)) (paddedKey [1, 3]) = some [3] ∧
    valueAt splitStore (.bytes (nodeHash 9)) (paddedKey [1, 3]) = none ∧
    ∃ trace, computeDiff splitStore recordLeafDiff 65 (.bytes (nodeHash 5)) (.bytes (nodeHash 9)) [] [] =
      .ok trace ∧ ∀ call ∈ trace, call.1 ≠ nibbleListToBytes (paddedKey [1, 3]) :=
  ⟨splitStore_wellFormed.1, splitStore_wellFormed.2, rfl, rfl,
    [(nibbleListToBytes (paddedKey [1, 2]), none, some ⟨(paddedKey [1, 2]).drop 1, [1]⟩),
      (nibbleListToBytes (paddedKey [4]), none, some ⟨(paddedKey [4]).drop 1, [2]⟩)], rfl, by decide⟩

end MptDiff
