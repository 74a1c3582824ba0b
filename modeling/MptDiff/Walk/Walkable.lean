import MptDiff.Walk.Reports

namespace MptDiff

/-! # Walkable tries

A pair is walkable when its walk meets neither a branch facing a leaf or an extension nor an
extension facing a branch.
-/

variable {nodes : NodeStore} {left right : Ref} {fuel : Nat}

/-- A pair of tries that a walk runs over to the end: well-formed at keys of 64 nibbles, and
meeting neither a branch facing a leaf or an extension nor an extension facing a branch. -/
structure Walkable (nodes : NodeStore) (left right : Ref) : Prop where
  leftWellFormed : WellFormed nodes 64 left
  rightWellFormed : WellFormed nodes 64 right
  matched : ∀ call, Reaches nodes (left, right, []) call →
    ¬ BranchAgainstLeafOrExtension nodes call.1 call.2.1 ∧
      ¬ ExtensionAgainstBranch nodes call.1 call.2.1

theorem Walkable.recorded (walkable : Walkable nodes left right) (enough : 64 < fuel) :
    ∃ trace, computeDiff nodes recordLeafDiff fuel left right [] [] = .ok trace ∧
      Reports nodes 64 left right [] trace ∧ ∀ {σ : Type} (process : LeafDiffHandler σ) (s : σ),
        computeDiff nodes process fuel left right [] s = replay process trace s := by
  obtain ⟨trace, recorded⟩ := computeDiff_exists_of_clear (s := []) walkable.leftWellFormed
    walkable.rightWellFormed (fun _ _ _ _ _ => pure_ne_error) enough
    fun call reached => (walkable.matched call reached).1
  exact ⟨trace, recorded, computeDiff_eq_replay_reports (by decide) walkable.leftWellFormed
    walkable.rightWellFormed (fun call reached => (walkable.matched call reached).2) recorded⟩

theorem Walkable.computeDiff_exists {σ : Type} {process : LeafDiffHandler σ} {I : σ → Prop}
    {s : σ} (walkable : Walkable nodes left right) (enough : 64 < fuel)
    (step : ∀ t s, (∃ u, Difference nodes 64 left right [] u t) → I s →
      ∃ s', process t.1 t.2.1 t.2.2 s = .ok s' ∧ I s') (holds : I s) :
    ∃ s', computeDiff nodes process fuel left right [] s = .ok s' := by
  obtain ⟨trace, -, reports, replays⟩ := walkable.recorded enough
  rw [replays]
  exact foldlM_exists (fun t member s holds => step t s (reports.sound t member) holds) holds

theorem Walkable.computeDiff_same (walkable : Walkable nodes left right) (enough : 64 < fuel)
    (same : ∀ s, s.length = 64 → (∀ z ∈ s, z < 16) → valueAt nodes left s = valueAt nodes right s)
    {σ : Type} (process : LeafDiffHandler σ) (s : σ) :
    computeDiff nodes process fuel left right [] s = .ok s := by
  obtain ⟨trace, -, reports, replays⟩ := walkable.recorded enough
  cases trace with
  | nil => exact replays process s
  | cons t _ =>
      obtain ⟨u, difference⟩ := reports.sound t (List.mem_cons_self _ _)
      exact absurd (same u difference.length difference.nibbles) difference.differ

theorem Descends.absent {node node' : Ref} {q : Bytes} (absent : resolve node nodes = .ok none)
    (descends : Descends nodes node q node') : resolve node' nodes = .ok none := by
  cases descends with
  | child isChild =>
      cases isChild with
      | subnode resolved | slot _ resolved => exact nomatch absent.symm.trans resolved
  | dropped => exact resolve_none nodes
  | shortLeaf resolved | shortExtension resolved => exact nomatch absent.symm.trans resolved

theorem Reaches.absent {L R : Ref} {path : Bytes} {call : DiffArgs}
    (reached : Reaches nodes (L, R, path) call) :
    (resolve L nodes = .ok none → resolve call.1 nodes = .ok none) ∧
      (resolve R nodes = .ok none → resolve call.2.1 nodes = .ok none) := by
  induction reached with
  | refl => exact ⟨id, id⟩
  | tail _ called ih =>
      obtain ⟨q, -, leftDescends, rightDescends⟩ := calls_descends called
      exact ⟨fun absent => leftDescends.absent (ih.1 absent),
        fun absent => rightDescends.absent (ih.2 absent)⟩

theorem matched_of_absent (absent : resolve left nodes = .ok none ∨ resolve right nodes = .ok none) :
    ¬ BranchAgainstLeafOrExtension nodes left right ∧ ¬ ExtensionAgainstBranch nodes left right := by
  constructor <;> rintro ⟨lNode, rNode, lResolved, rResolved, leftShape, rightShape⟩ <;>
    rcases absent with absent | absent
  all_goals first
    | (cases lResolved.symm.trans absent; exact leftShape)
    | (cases rResolved.symm.trans absent; exact rightShape)

theorem Reports.created {n : Nat} {T : List LeafDiff} (reports : Reports nodes n left right [] T)
    (absent : resolve left nodes = .ok none) : ∀ t ∈ T, t.2.1 = none := fun t member => by
  obtain ⟨u, difference⟩ := reports.sound t member
  exact Option.map_eq_none'.mp (difference.leftValue.trans (valueAt_of_absent absent))

theorem Reports.deleted {n : Nat} {T : List LeafDiff} (reports : Reports nodes n left right [] T)
    (absent : resolve right nodes = .ok none) : ∀ t ∈ T, t.2.2 = none := fun t member => by
  obtain ⟨u, difference⟩ := reports.sound t member
  exact Option.map_eq_none'.mp (difference.rightValue.trans (valueAt_of_absent absent))

/-- A 32-byte hash missing from the store is walked as the empty trie, on either side and below
any path, whatever the handler: the walk never reports a missing node.  Against a well-formed trie
it hands on every leaf of that trie, once, as created or as deleted, and nothing else. -/
theorem computeDiff_missing_node_as_empty {h : Bytes} (hashLength : h.length = 32)
    (missing : h ∉ nodes.keys) :
    (∀ {σ : Type} (process : LeafDiffHandler σ) (fuel : Nat) (other : Ref) (path : Bytes) (s : σ),
      computeDiff nodes process fuel (.bytes h) other path s =
        computeDiff nodes process fuel .none other path s ∧
      computeDiff nodes process fuel other (.bytes h) path s =
        computeDiff nodes process fuel other .none path s) ∧
    ∀ {n fuel : Nat} {other : Ref}, WellFormed nodes n other → n % 2 = 0 → n < fuel →
      ∃ created deleted : List LeafDiff,
        Reports nodes n (.bytes h) other [] created ∧ (∀ t ∈ created, t.2.1 = none) ∧
        Reports nodes n other (.bytes h) [] deleted ∧ (∀ t ∈ deleted, t.2.2 = none) ∧
        ∀ {σ : Type} (process : LeafDiffHandler σ) (s : σ),
          computeDiff nodes process fuel (.bytes h) other [] s = replay process created s ∧
          computeDiff nodes process fuel other (.bytes h) [] s = replay process deleted s := by
  have absent := resolve_missing hashLength missing
  refine ⟨fun process fuel other path s => ?_, fun wellFormed even enough => ?_⟩
  · cases fuel with
    | zero => exact ⟨rfl, rfl⟩
    | succ fuel =>
        simp only [computeDiff_succ, computeDiffStep_absent_left absent,
          computeDiffStep_absent_right absent, computeDiffStep_absent_left (resolve_none nodes),
          computeDiffStep_absent_right (resolve_none nodes), and_self]
  obtain ⟨created, createdReports, createdReplays⟩ := computeDiff_hands_differences (.absent absent)
    wellFormed even enough fun _ reached => matched_of_absent (.inl ((Reaches.absent reached).1 absent))
  obtain ⟨deleted, deletedReports, deletedReplays⟩ := computeDiff_hands_differences wellFormed
    (.absent absent) even enough fun _ reached => matched_of_absent (.inr ((Reaches.absent reached).2 absent))
  exact ⟨created, deleted, createdReports, createdReports.created absent, deletedReports,
    deletedReports.deleted absent, fun process s => ⟨createdReplays process s, deletedReplays process s⟩⟩

theorem accountsStore_missing_node_as_empty :
    (nodeHash 9).length = 32 ∧ nodeHash 9 ∉ accountsStore.keys ∧
    WellFormed accountsStore 64 (.bytes (nodeHash 1)) ∧
    (∀ {σ : Type} (process : LeafDiffHandler σ) (fuel : Nat) (other : Ref) (path : Bytes) (s : σ),
      computeDiff accountsStore process fuel (.bytes (nodeHash 9)) other path s =
        computeDiff accountsStore process fuel .none other path s ∧
      computeDiff accountsStore process fuel other (.bytes (nodeHash 9)) path s =
        computeDiff accountsStore process fuel other .none path s) ∧
    ∀ {n fuel : Nat} {other : Ref}, WellFormed accountsStore n other → n % 2 = 0 → n < fuel →
      ∃ created deleted : List LeafDiff,
        Reports accountsStore n (.bytes (nodeHash 9)) other [] created ∧ (∀ t ∈ created, t.2.1 = none) ∧
        Reports accountsStore n other (.bytes (nodeHash 9)) [] deleted ∧ (∀ t ∈ deleted, t.2.2 = none) ∧
        ∀ {σ : Type} (process : LeafDiffHandler σ) (s : σ),
          computeDiff accountsStore process fuel (.bytes (nodeHash 9)) other [] s =
            replay process created s ∧
          computeDiff accountsStore process fuel other (.bytes (nodeHash 9)) [] s =
            replay process deleted s :=
  ⟨rfl, by decide, accountsStore_wellFormed.1, computeDiff_missing_node_as_empty (h := nodeHash 9) rfl (by decide)⟩

/-- A leaf pair, read as its key and the values of its two leaves, with the two sides swapped. -/
def LeafDiff.swappedValues (t : LeafDiff) : Bytes × Option Bytes × Option Bytes :=
  (t.1, t.2.2.map LeafNode.value, t.2.1.map LeafNode.value)

/-- A leaf pair, read as its key and the values of its two leaves. -/
def LeafDiff.values (t : LeafDiff) : Bytes × Option Bytes × Option Bytes :=
  (t.1, t.2.1.map LeafNode.value, t.2.2.map LeafNode.value)

theorem LeafDiff.values_eq_swappedValues {t t' : LeafDiff} (same : t.swappedValues = t'.values) :
    t.values = t'.swappedValues := by
  simp only [swappedValues, values, Prod.mk.injEq] at same ⊢
  exact ⟨same.1, same.2.2, same.2.1⟩

theorem Reports.mirror_mem {T T' : List LeafDiff} (reports : Reports nodes 64 left right [] T)
    (reports' : Reports nodes 64 right left [] T') {t' : LeafDiff} (member' : t' ∈ T') :
    ∃ t ∈ T, t.swappedValues = t'.values := by
  obtain ⟨u, difference'⟩ := reports'.sound t' member'
  obtain ⟨t, member, key⟩ := reports.complete u difference'.length difference'.nibbles
    (Ne.symm difference'.differ)
  obtain ⟨u', difference⟩ := reports.sound t member
  obtain rfl := difference.suffix_eq (by decide) difference'.length difference'.nibbles key
  refine ⟨t, member, ?_⟩
  rw [LeafDiff.values, LeafDiff.swappedValues, key, ← difference'.key, difference.leftValue,
    difference.rightValue, difference'.leftValue, difference'.rightValue]

theorem Reports.nodup_values {T : List LeafDiff} (reports : Reports nodes 64 left right [] T) :
    (T.map LeafDiff.values).Nodup ∧ (T.map LeafDiff.swappedValues).Nodup :=
  ⟨List.Nodup.of_map Prod.fst (by rw [List.map_map]; exact reports.nodup),
    List.Nodup.of_map Prod.fst (by rw [List.map_map]; exact reports.nodup)⟩

/-- A pair walkable in both directions: the walk and its mirror image both return with the
recording handler, and record the same keys with the same values on swapped sides, in some
order. -/
theorem computeDiff_mirror (walkable : Walkable nodes left right)
    (mirror : Walkable nodes right left) (enough : 64 < fuel) :
    ∃ trace trace', computeDiff nodes recordLeafDiff fuel left right [] [] = .ok trace ∧
      computeDiff nodes recordLeafDiff fuel right left [] [] = .ok trace' ∧
      (trace'.map LeafDiff.values).Perm (trace.map LeafDiff.swappedValues) := by
  obtain ⟨trace, recorded, reports, -⟩ := walkable.recorded enough
  obtain ⟨trace', recorded', reports', -⟩ := mirror.recorded enough
  refine ⟨trace, trace', recorded, recorded', (List.perm_ext_iff_of_nodup
    reports'.nodup_values.1 reports.nodup_values.2).mpr fun a => ⟨fun member => ?_, fun member => ?_⟩⟩
  · obtain ⟨t', recorded', rfl⟩ := List.mem_map.mp member
    obtain ⟨t, recorded, same⟩ := reports.mirror_mem reports' recorded'
    exact List.mem_map.mpr ⟨t, recorded, same⟩
  · obtain ⟨t, recorded, rfl⟩ := List.mem_map.mp member
    obtain ⟨t', recorded', same⟩ := reports'.mirror_mem reports recorded
    exact List.mem_map.mpr ⟨t', recorded', LeafDiff.values_eq_swappedValues same⟩

theorem accountsStore_mirror :
    Walkable accountsStore (.bytes (nodeHash 1)) .none ∧
    Walkable accountsStore .none (.bytes (nodeHash 1)) ∧ 64 < 65 ∧
    ∃ trace trace', computeDiff accountsStore recordLeafDiff 65 (.bytes (nodeHash 1)) .none [] [] =
        .ok trace ∧
      computeDiff accountsStore recordLeafDiff 65 .none (.bytes (nodeHash 1)) [] [] = .ok trace' ∧
      (trace'.map LeafDiff.values).Perm (trace.map LeafDiff.swappedValues) := by
  have free : ExtensionFree accountsStore (.bytes (nodeHash 1)) := .branch rfl fun i => by
    show ExtensionFree accountsStore (if i = 1 then _ else _)
    split_ifs
    exacts [.leaf rfl, .leaf rfl, .absent rfl]
  obtain ⟨trace, run⟩ : ∃ trace, computeDiff accountsStore recordLeafDiff 65 (.bytes (nodeHash 1))
      .none [] [] = .ok trace := ⟨_, rfl⟩
  obtain ⟨trace', run'⟩ : ∃ trace', computeDiff accountsStore recordLeafDiff 65 .none
      (.bytes (nodeHash 1)) [] [] = .ok trace' := ⟨_, rfl⟩
  have walkable : Walkable accountsStore (.bytes (nodeHash 1)) .none :=
    ⟨accountsStore_wellFormed.1, .absent rfl,
      fun call reached => ⟨computeDiff_ok_matched run call reached, free.reaches call reached⟩⟩
  have absent : ExtensionFree accountsStore .none := .absent (resolve_none accountsStore)
  have mirror : Walkable accountsStore .none (.bytes (nodeHash 1)) :=
    ⟨.absent rfl, accountsStore_wellFormed.1, fun call reached =>
      ⟨computeDiff_ok_matched run' call reached, absent.reaches call reached⟩⟩
  exact ⟨walkable, mirror, by decide, computeDiff_mirror walkable mirror (by decide)⟩

end MptDiff
