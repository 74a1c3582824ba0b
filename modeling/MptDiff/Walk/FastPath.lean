import MptDiff.Walk.Alignment

namespace MptDiff

/-! # The fast path of `_compute_diff`

`computeDiffStepPlain` and `computeDiffPlain` are the walk without the fast path; they are not in
the source.
-/

variable {σ : Type} {nodes : NodeStore} {process : LeafDiffHandler σ}

/-- One call of `_compute_diff` without the fast path: the two `resolve` calls and the match. -/
def computeDiffStepPlain (nodes : NodeStore) (left right : Ref) (path : Bytes) :
    Except PyError (List DiffCall) := do
  let lNode ← resolve left nodes
  let rNode ← resolve right nodes
  diffNodes lNode rNode path

theorem computeDiffStep_eq_plain {left right : Ref} {path : Bytes} :
    computeDiffStep nodes left right path =
      if left = right then pure [] else computeDiffStepPlain nodes left right path := rfl

/-- `_compute_diff` without the fast path, on a budget of nested calls as `computeDiff`. -/
def computeDiffPlain (nodes : NodeStore) (process : LeafDiffHandler σ) :
    Nat → Ref → Ref → Bytes → σ → Except PyError σ
  | 0, _, _, _, _ => throw .outOfFuel
  | fuel + 1, left, right, path, self => do
      let calls ← computeDiffStepPlain nodes left right path
      calls.foldlM (fun self call => match call with
        | .processLeafDiff path left right => process path left right self
        | .computeDiff left right path => computeDiffPlain nodes process fuel left right path self)
        self

/-- One call a step of `computeDiffPlain` makes, as `runCall` for `computeDiff`. -/
def runCallPlain (nodes : NodeStore) (process : LeafDiffHandler σ) (fuel : Nat) (self : σ) :
    DiffCall → Except PyError σ
  | .processLeafDiff path left right => process path left right self
  | .computeDiff left right path => computeDiffPlain nodes process fuel left right path self

theorem computeDiffPlain_succ {fuel : Nat} {left right : Ref} {path : Bytes} {self : σ} :
    computeDiffPlain nodes process (fuel + 1) left right path self =
      computeDiffStepPlain nodes left right path >>= fun calls =>
        calls.foldlM (runCallPlain nodes process fuel) self := rfl

theorem computeDiff_same {fuel : Nat} {ref : Ref} {path : Bytes} {s s' : σ}
    (ran : computeDiff nodes process fuel ref ref path s = .ok s') : s' = s := by
  cases fuel with
  | zero => exact nomatch ran
  | succ fuel =>
      rw [computeDiff_succ, computeDiffStep_eq_plain, if_pos rfl] at ran
      exact (Except.ok.inj ran).symm

theorem computeDiffStepPlain_self {ref : Ref} {node : Option InternalNode} {path : Bytes}
    (resolved : resolve ref nodes = .ok node) :
    computeDiffStepPlain nodes ref ref path = diffNodes node node path := by
  simp only [computeDiffStepPlain, resolved]
  rfl

theorem computeDiffPlain_self {m : Nat} {ref : Ref} (wellFormed : WellFormed nodes m ref) :
    ∀ {fuel : Nat} {path : Bytes} (s : σ), m < fuel →
      computeDiffPlain nodes process fuel ref ref path s = .ok s := by
  induction wellFormed with
  | absent resolved =>
      rintro (_ | fuel) path s enough
      · omega
      rw [computeDiffPlain_succ, computeDiffStepPlain_self resolved]
      rfl
  | leaf resolved =>
      rintro (_ | fuel) path s enough
      · omega
      rw [computeDiffPlain_succ, computeDiffStepPlain_self resolved]
      simp [diffNodes]
      rfl
  | extension m resolved keyLength nonempty _ _ _ ih =>
      rintro (_ | fuel) path s enough
      · omega
      have shorter : m < fuel := by
        have := List.length_pos.mpr nonempty
        omega
      rw [computeDiffPlain_succ, computeDiffStepPlain_self resolved]
      simpa [diffNodes, runCallPlain] using ih s shorter
  | branch m resolved keyLength _ ih =>
      rintro (_ | fuel) path s enough
      · omega
      rw [computeDiffPlain_succ, computeDiffStepPlain_self resolved]
      simp only [diffNodes, checkBranchNode, if_true, bind_pure_unit]
      refine foldlM_eq_ok_self fun call member => ?_
      obtain ⟨i, -, rfl⟩ := List.mem_map.mp member
      exact ih i s (by omega)

/-- From an aligned call with `n` nibbles left and a budget above `n`, the walk without the fast
path returns what the walk with it returns. -/
theorem computeDiffPlain_eq {width : Nat} :
    ∀ {fuel n : Nat} {left right : Ref} {path : Bytes} (s : σ),
      Aligned nodes width (left, right, path) n → n < fuel →
      computeDiffPlain nodes process fuel left right path s =
        computeDiff nodes process fuel left right path s
  | 0, _, _, _, _, _, _, enough => absurd enough (Nat.not_lt_zero _)
  | fuel + 1, n, left, right, path, s, aligned, enough => by
      by_cases same : left = right
      · subst same
        rw [computeDiffPlain_self aligned.2.1 s enough, computeDiff_succ, computeDiffStep_eq_plain,
          if_pos rfl]
        rfl
      rw [computeDiffPlain_succ, computeDiff_succ, computeDiffStep_eq_plain, if_neg same]
      cases stepped : computeDiffStepPlain nodes left right path with
      | error e => rfl
      | ok calls =>
          refine foldlM_congr fun call member t => ?_
          cases call with
          | processLeafDiff key l r => rfl
          | computeDiff l r p =>
              have called : Calls nodes (left, right, path) (l, r, p) :=
                ⟨calls, by rw [computeDiffStep_eq_plain, if_neg same]; exact stepped, member⟩
              obtain ⟨m, smaller, aligned'⟩ := aligned.calls called
              exact computeDiffPlain_eq t aligned' (by omega)

/-- The fast path `if left == right: return` of `_compute_diff` is exact on well-formed tries:
with a budget above the key width, the walk without it returns what the walk with it returns,
for every handler and every state.  On two equal references to no valid node, such as a byte
string of neither 0 nor 32 bytes, the fast path returns where the walk without it raises. -/
theorem computeDiff_fast_path {fuel n : Nat} {L R : Ref} {path : Bytes} (process : LeafDiffHandler σ)
    (s : σ) (leftWellFormed : WellFormed nodes n L) (rightWellFormed : WellFormed nodes n R)
    (enough : n < fuel) :
    computeDiffPlain nodes process fuel L R path s = computeDiff nodes process fuel L R path s ∧
      ∀ b : Bytes, b ≠ [] → b.length ≠ 32 →
        computeDiff nodes process fuel (.bytes b) (.bytes b) path s = .ok s ∧
          computeDiffPlain nodes process fuel (.bytes b) (.bytes b) path s = .error .invalidNodeType := by
  obtain ⟨fuel, rfl⟩ : ∃ f, fuel = f + 1 := ⟨fuel - 1, by omega⟩
  refine ⟨computeDiffPlain_eq s ⟨rfl, leftWellFormed, rightWellFormed⟩ enough,
    fun b nonempty invalid => ⟨?_, ?_⟩⟩
  · rw [computeDiff_succ, computeDiffStep_eq_plain, if_pos rfl]
    rfl
  · have rejected : resolve (.bytes b) nodes = .error .invalidNodeType := by
      simp only [resolve, if_neg nonempty, if_neg invalid]
      rfl
    rw [computeDiffPlain_succ, computeDiffStepPlain, rejected]
    rfl

/-- The tries 20 and 24 of slotStore share the account leaf 23, which the walk meets on both sides
below the nibble 7 and leaves by the fast path. -/
theorem slotStore_fast_path :
    WellFormed slotStore 64 (.bytes (nodeHash 20)) ∧ WellFormed slotStore 64 (.bytes (nodeHash 24)) ∧
      Reaches slotStore (.bytes (nodeHash 20), .bytes (nodeHash 24), [])
        (.bytes (nodeHash 23), .bytes (nodeHash 23), [nibble 7]) ∧
      (computeDiffPlain slotStore recordLeafDiff 65 (.bytes (nodeHash 20)) (.bytes (nodeHash 24)) [] [] =
          computeDiff slotStore recordLeafDiff 65 (.bytes (nodeHash 20)) (.bytes (nodeHash 24)) [] [] ∧
        ∀ b : Bytes, b ≠ [] → b.length ≠ 32 →
          computeDiff slotStore recordLeafDiff 65 (.bytes b) (.bytes b) [] [] = .ok [] ∧
            computeDiffPlain slotStore recordLeafDiff 65 (.bytes b) (.bytes b) [] [] =
              .error .invalidNodeType) :=
  ⟨slotStore_wellFormed.1, slotStore_wellFormed.2.1, .single ⟨_, rfl, by decide⟩,
    computeDiff_fast_path recordLeafDiff [] slotStore_wellFormed.1 slotStore_wellFormed.2.1
      (by decide)⟩

end MptDiff
