import Mathlib.Logic.Relation
import MptDiff.Walk.Step

namespace MptDiff

/-! # Running `_compute_diff`

Python recurses without a bound; the model recurses on a budget of `fuel` nested calls and raises
`outOfFuel` when it is spent.
-/

/-- A `process_leaf_diff` callback: given the packed key and the two leaves, it updates the
state it closes over, or raises. -/
abbrev LeafDiffHandler (σ : Type) :=
  Bytes → Option LeafNode → Option LeafNode → σ → Except PyError σ

variable {σ : Type} {nodes : NodeStore} {processLeafDiff : LeafDiffHandler σ}

/-- `_compute_diff(left, right, path, process_leaf_diff)` run on the state `self`. -/
def computeDiff (nodes : NodeStore) (processLeafDiff : LeafDiffHandler σ) :
    Nat → Ref → Ref → Bytes → σ → Except PyError σ
  | 0, _, _, _, _ => throw .outOfFuel
  | fuel + 1, left, right, path, self => do
      let calls ← computeDiffStep nodes left right path
      calls.foldlM (fun self call => match call with
        | .processLeafDiff path left right => processLeafDiff path left right self
        | .computeDiff left right path =>
            computeDiff nodes processLeafDiff fuel left right path self)
        self

/-- The arguments of one call of `process_leaf_diff`: the packed key and the two leaves. -/
abbrev LeafDiff := Bytes × Option LeafNode × Option LeafNode

/-- A `process_leaf_diff` that only records its arguments. -/
def recordLeafDiff : LeafDiffHandler (List LeafDiff) :=
  fun path left right calls => pure (calls ++ [(path, left, right)])

/-- One call a step makes, run on the state `self` with the budget `fuel` left: the body of the
loop in `computeDiff`. -/
def runCall (nodes : NodeStore) (processLeafDiff : LeafDiffHandler σ) (fuel : Nat) (self : σ) :
    DiffCall → Except PyError σ
  | .processLeafDiff path left right => processLeafDiff path left right self
  | .computeDiff left right path => computeDiff nodes processLeafDiff fuel left right path self

theorem computeDiff_succ {fuel : Nat} {left right : Ref} {path : Bytes} {self : σ} :
    computeDiff nodes processLeafDiff (fuel + 1) left right path self =
      computeDiffStep nodes left right path >>= fun calls =>
        calls.foldlM (runCall nodes processLeafDiff fuel) self := rfl

/-- The handler run on the leaf pairs of a record, in order. -/
def replay (processLeafDiff : LeafDiffHandler σ) (trace : List LeafDiff) (self : σ) :
    Except PyError σ :=
  trace.foldlM (fun self t => processLeafDiff t.1 t.2.1 t.2.2 self) self

/-- A call of `_compute_diff`: its two references and its path. -/
abbrev DiffArgs := Ref × Ref × Bytes

/-- The call `caller` of `_compute_diff` makes the call `callee` directly. -/
def Calls (nodes : NodeStore) (caller callee : DiffArgs) : Prop :=
  ∃ calls, computeDiffStep nodes caller.1 caller.2.1 caller.2.2 = .ok calls ∧
    DiffCall.computeDiff callee.1 callee.2.1 callee.2.2 ∈ calls

/-- The call `caller` hands `path`, `left` and `right` to `process_leaf_diff` directly. -/
def Emits (nodes : NodeStore) (caller : DiffArgs) (path : Bytes)
    (left right : Option LeafNode) : Prop :=
  ∃ calls, computeDiffStep nodes caller.1 caller.2.1 caller.2.2 = .ok calls ∧
    DiffCall.processLeafDiff path left right ∈ calls

/-- The calls of `_compute_diff` reached from `start`, `start` included. -/
def Reaches (nodes : NodeStore) (start : DiffArgs) : DiffArgs → Prop :=
  Relation.ReflTransGen (Calls nodes) start

/-- A state invariant that every handler call of a reachable call keeps is kept by the run. -/
theorem computeDiff_preserves {I : σ → Prop} {start : DiffArgs}
    (handler : ∀ caller path left right s s', Reaches nodes start caller →
      Emits nodes caller path left right → I s → processLeafDiff path left right s = .ok s' →
      I s') :
    ∀ {fuel left right path s s'}, Reaches nodes start (left, right, path) → I s →
      computeDiff nodes processLeafDiff fuel left right path s = .ok s' → I s'
  | 0, _, _, _, _, _, _, _, run => nomatch run
  | fuel + 1, left, right, path, s, s', reached, holds, run => by
      obtain ⟨calls, stepped, rest⟩ := bind_eq_ok.mp run
      refine foldlM_preserves (fun call member t t' holds' ran => ?_) holds rest
      cases call with
      | processLeafDiff path' l r =>
          exact handler _ path' l r t t' reached ⟨calls, stepped, member⟩ holds' ran
      | computeDiff l r path' =>
          exact computeDiff_preserves handler (reached.tail ⟨calls, stepped, member⟩) holds' ran

theorem computeDiff_keeps {I : σ → Prop}
    (handler : ∀ path left right s s', I s → processLeafDiff path left right s = .ok s' → I s')
    {fuel : Nat} {left right : Ref} {path : Bytes} {s s' : σ} (holds : I s)
    (run : computeDiff nodes processLeafDiff fuel left right path s = .ok s') : I s' :=
  computeDiff_preserves
    (fun _ path left right s s' _ _ => handler path left right s s') .refl holds run

/-- An error of a run is the budget running out, an error of a reachable call, or an error of
the handler on a leaf pair that a reachable call hands it, in a state that every invariant of the
handler holds of. -/
theorem computeDiff_error {start : DiffArgs} {I : σ → Prop}
    (keeps : ∀ path left right s s', I s → processLeafDiff path left right s = .ok s' → I s') :
    ∀ {fuel left right path s e}, Reaches nodes start (left, right, path) → I s →
      computeDiff nodes processLeafDiff fuel left right path s = .error e →
      e = .outOfFuel ∨
      (∃ caller, Reaches nodes start caller ∧
        computeDiffStep nodes caller.1 caller.2.1 caller.2.2 = .error e) ∨
      ∃ caller key l r t, Reaches nodes start caller ∧ Emits nodes caller key l r ∧ I t ∧
        processLeafDiff key l r t = .error e
  | 0, _, _, _, _, _, _, _, failed => .inl (Except.error.inj failed).symm
  | fuel + 1, left, right, path, s, e, reached, holds, failed => by
      rcases bind_eq_error.mp failed with stepped | ⟨calls, stepped, failed⟩
      · exact .inr (.inl ⟨_, reached, stepped⟩)
      obtain ⟨call, member, t, holds, failed⟩ := foldlM_error (I := I) (fun call _ s s' holds ran => by
        cases call with
        | processLeafDiff key l r => exact keeps key l r s s' holds ran
        | computeDiff l r path' => exact computeDiff_keeps keeps holds ran) holds failed
      cases call with
      | processLeafDiff key l r =>
          exact .inr (.inr ⟨_, key, l, r, t, reached, ⟨calls, stepped, member⟩, holds, failed⟩)
      | computeDiff l r path' =>
          exact computeDiff_error keeps (reached.tail ⟨calls, stepped, member⟩) holds failed

theorem computeDiff_ok_reaches {caller callee : DiffArgs} (reached : Reaches nodes caller callee) :
    ∀ {fuel s s'}, computeDiff nodes processLeafDiff fuel caller.1 caller.2.1 caller.2.2 s = .ok s' →
      ∃ calls, computeDiffStep nodes callee.1 callee.2.1 callee.2.2 = .ok calls := by
  induction reached using Relation.ReflTransGen.head_induction_on with
  | refl =>
      intro fuel s s' run
      cases fuel with
      | zero => exact nomatch run
      | succ fuel =>
          obtain ⟨calls, stepped, -⟩ := bind_eq_ok.mp run
          exact ⟨calls, stepped⟩
  | head called _ ih =>
      intro fuel s s' run
      cases fuel with
      | zero => exact nomatch run
      | succ fuel =>
          obtain ⟨calls, stepped, rest⟩ := bind_eq_ok.mp run
          obtain ⟨calls', stepped', member⟩ := called
          cases stepped.symm.trans stepped'
          obtain ⟨t, t', ran⟩ := foldlM_ok_mem rest member
          exact ih ran

theorem computeDiff_ne_outOfFuel (bound : DiffArgs → Nat → Prop) {I : σ → Prop}
    (descend : ∀ caller callee m, bound caller m → Calls nodes caller callee →
      ∃ m' < m, bound callee m')
    (handler : ∀ caller m path left right s, bound caller m → Emits nodes caller path left right →
      I s → processLeafDiff path left right s ≠ .error .outOfFuel)
    (keeps : ∀ path left right s s', I s → processLeafDiff path left right s = .ok s' → I s') :
    ∀ {fuel left right path m s}, I s → bound (left, right, path) m → m < fuel →
      computeDiff nodes processLeafDiff fuel left right path s ≠ .error .outOfFuel
  | 0, _, _, _, _, _, _, _, below => absurd below (Nat.not_lt_zero _)
  | fuel + 1, left, right, path, m, s, holds, bounded, below => by
      intro failed
      rcases bind_eq_error.mp failed with stepped | ⟨calls, stepped, failed⟩
      · rcases computeDiffStep_eq_error stepped with same | same | same <;> exact nomatch same
      obtain ⟨call, member, t, holds', failed⟩ := foldlM_error (I := I)
        (fun call _ t t' holds ran => by
          cases call with
          | processLeafDiff path' l r => exact keeps path' l r t t' holds ran
          | computeDiff l r path' => exact computeDiff_keeps keeps holds ran) holds failed
      cases call with
      | processLeafDiff path' l r =>
          exact handler _ m path' l r t bounded ⟨calls, stepped, member⟩ holds' failed
      | computeDiff l r path' =>
          obtain ⟨m', smaller, bounded'⟩ := descend _ (l, r, path') m bounded ⟨calls, stepped, member⟩
          exact computeDiff_ne_outOfFuel bound descend handler keeps holds' bounded' (by omega) failed

/-- The leaf pairs the calls of a step hand on, each call's after those of the calls before it, up
to the first call that raises, and that call's error. -/
def handOffCalls (handOffCall : DiffCall → List LeafDiff × Option PyError) :
    List DiffCall → List LeafDiff × Option PyError
  | [] => ([], none)
  | call :: calls =>
      match handOffCall call with
      | (handed, some e) => (handed, some e)
      | (handed, none) =>
          let rest := handOffCalls handOffCall calls
          (handed ++ rest.1, rest.2)

/-- The leaf pairs a walk hands to `process_leaf_diff`, in order, and the error it stops at. -/
def handOff (nodes : NodeStore) : Nat → Ref → Ref → Bytes → List LeafDiff × Option PyError
  | 0, _, _, _ => ([], some .outOfFuel)
  | fuel + 1, left, right, path =>
      match computeDiffStep nodes left right path with
      | .error e => ([], some e)
      | .ok calls => handOffCalls (fun
          | .processLeafDiff path left right => ([(path, left, right)], none)
          | .computeDiff left right path => handOff nodes fuel left right path) calls

/-- What one call of a step hands on. -/
def handOffCall (nodes : NodeStore) (fuel : Nat) : DiffCall → List LeafDiff × Option PyError
  | .processLeafDiff path left right => ([(path, left, right)], none)
  | .computeDiff left right path => handOff nodes fuel left right path

theorem handOff_succ {fuel : Nat} {left right : Ref} {path : Bytes} :
    handOff nodes (fuel + 1) left right path =
      match computeDiffStep nodes left right path with
      | .error e => ([], some e)
      | .ok calls => handOffCalls (handOffCall nodes fuel) calls := rfl

/-- A handler run on the pairs a walk hands on, then the walk's end: it returns, or raises. -/
def replayThen (processLeafDiff : LeafDiffHandler σ) (handed : List LeafDiff × Option PyError)
    (self : σ) : Except PyError σ :=
  replay processLeafDiff handed.1 self >>= fun self =>
    match handed.2 with
    | none => pure self
    | some e => throw e

theorem replayThen_append (handed : List LeafDiff) (rest : List LeafDiff × Option PyError)
    (self : σ) :
    replayThen processLeafDiff (handed ++ rest.1, rest.2) self =
      replay processLeafDiff handed self >>= replayThen processLeafDiff rest := by
  simp only [replayThen, replay, List.foldlM_append, bind_assoc]
  rfl

theorem foldlM_runCall_eq {fuel : Nat} :
    ∀ {calls : List DiffCall}, (∀ call ∈ calls, ∀ self, runCall nodes processLeafDiff fuel self call =
      replayThen processLeafDiff (handOffCall nodes fuel call) self) →
    ∀ self, calls.foldlM (runCall nodes processLeafDiff fuel) self =
      replayThen processLeafDiff (handOffCalls (handOffCall nodes fuel) calls) self
  | [], _, _ => rfl
  | call :: calls, each, self => by
      rw [List.foldlM_cons, each call (List.mem_cons_self _ _), handOffCalls]
      rcases handOffCall nodes fuel call with ⟨handed, _ | e⟩
      · rw [replayThen_append, show replayThen processLeafDiff (handed, none) self =
          replay processLeafDiff handed self from bind_pure _]
        exact congrArg _ (funext (foldlM_runCall_eq fun call member =>
          each call (List.mem_cons_of_mem _ member)))
      · rw [replayThen, bind_assoc]
        rfl

/-- The run lemma of the hand-off: every run of a walk, whatever its handler, runs the handler on
the pairs the walk hands on, in order, and then returns or raises where the walk stops. -/
theorem computeDiff_eq_replayThen :
    ∀ {fuel left right path} (self : σ), computeDiff nodes processLeafDiff fuel left right path self =
      replayThen processLeafDiff (handOff nodes fuel left right path) self
  | 0, _, _, _, _ => rfl
  | fuel + 1, left, right, path, self => by
      rw [computeDiff_succ, handOff_succ]
      cases computeDiffStep nodes left right path with
      | error e => rfl
      | ok calls =>
          refine foldlM_runCall_eq (fun call _ self => ?_) self
          cases call with
          | processLeafDiff key l r =>
              show _ = ((processLeafDiff key l r self >>= pure) >>= pure)
              rw [bind_pure, bind_pure]
              rfl
          | computeDiff l r p => exact computeDiff_eq_replayThen self

theorem handOffCalls_prefix (handOffCall : DiffCall → List LeafDiff × Option PyError) :
    ∀ calls : List DiffCall, ∃ done, done <+: calls ∧
      (handOffCalls handOffCall calls).1 = (done.map fun call => (handOffCall call).1).flatten
  | [] => ⟨[], List.nil_prefix, rfl⟩
  | call :: calls => by
      rw [handOffCalls]
      rcases handed : handOffCall call with ⟨T, _ | e⟩
      · obtain ⟨done, isPrefix, rest⟩ := handOffCalls_prefix handOffCall calls
        exact ⟨call :: done, List.cons_prefix_cons.mpr ⟨rfl, isPrefix⟩, by simp [handed, rest]⟩
      · exact ⟨[call], List.cons_prefix_cons.mpr ⟨rfl, List.nil_prefix⟩, by simp [handed]⟩

theorem handOff_emitted : ∀ {fuel left right path} {t : LeafDiff},
    t ∈ (handOff nodes fuel left right path).1 →
    ∃ caller, Reaches nodes (left, right, path) caller ∧ Emits nodes caller t.1 t.2.1 t.2.2
  | 0, _, _, _, _, member => absurd member (List.not_mem_nil _)
  | fuel + 1, left, right, path, t, member => by
      rw [handOff_succ] at member
      cases stepped : computeDiffStep nodes left right path with
      | error e => simp only [stepped, List.not_mem_nil] at member
      | ok calls =>
          obtain ⟨done, isPrefix, handed⟩ := handOffCalls_prefix (handOffCall nodes fuel) calls
          simp only [stepped, handed, List.mem_flatten, List.mem_map] at member
          obtain ⟨_, ⟨call, isDone, rfl⟩, member⟩ := member
          cases call with
          | processLeafDiff key l r =>
              obtain rfl := List.mem_singleton.mp member
              exact ⟨_, .refl, calls, stepped, isPrefix.subset isDone⟩
          | computeDiff l r p =>
              obtain ⟨caller, reached, emitted⟩ := handOff_emitted member
              exact ⟨caller, .head ⟨calls, stepped, isPrefix.subset isDone⟩ reached, emitted⟩

theorem replay_recordLeafDiff : ∀ (trace acc : List LeafDiff),
    replay recordLeafDiff trace acc = .ok (acc ++ trace)
  | [], acc => by rw [List.append_nil]; rfl
  | t :: trace, acc => by
      show replay recordLeafDiff trace (acc ++ [t]) = _
      rw [replay_recordLeafDiff trace, List.append_assoc]
      rfl

theorem handOff_of_recorded {fuel : Nat} {left right : Ref} {path : Bytes} {acc res : List LeafDiff}
    (recorded : computeDiff nodes recordLeafDiff fuel left right path acc = .ok res) :
    ∃ trace, handOff nodes fuel left right path = (trace, none) ∧ res = acc ++ trace := by
  rw [computeDiff_eq_replayThen] at recorded
  rcases handed : handOff nodes fuel left right path with ⟨trace, _ | e⟩ <;>
    rw [handed, replayThen, replay_recordLeafDiff] at recorded
  · exact ⟨trace, rfl, (Except.ok.inj recorded).symm⟩
  · exact nomatch recorded

theorem computeDiff_eq_replay {fuel : Nat} {left right : Ref} {path : Bytes} {acc res : List LeafDiff}
    (recorded : computeDiff nodes recordLeafDiff fuel left right path acc = .ok res) :
    ∃ trace, res = acc ++ trace ∧ ∀ {τ : Type} (process : LeafDiffHandler τ) (s : τ),
      computeDiff nodes process fuel left right path s = replay process trace s := by
  obtain ⟨trace, handed, rfl⟩ := handOff_of_recorded recorded
  exact ⟨trace, rfl, fun process s => by rw [computeDiff_eq_replayThen, handed]; exact bind_pure _⟩

theorem computeDiff_recorded_of_ok {fuel : Nat} {left right : Ref} {path : Bytes} {s s' : σ}
    (run : computeDiff nodes processLeafDiff fuel left right path s = .ok s') (acc : List LeafDiff) :
    ∃ trace, computeDiff nodes recordLeafDiff fuel left right path acc = .ok (acc ++ trace) := by
  rcases handed : handOff nodes fuel left right path with ⟨trace, _ | e⟩ <;>
    rw [computeDiff_eq_replayThen, handed] at run ⊢
  · exact ⟨trace, by rw [replayThen, replay_recordLeafDiff]; rfl⟩
  · obtain ⟨_, -, thrown⟩ := bind_eq_ok.mp run
    exact nomatch thrown

/-- A walk hands any handler, in order, the leaf pairs the recorder records: no step reads the
handler's state, so the record is all that a handler is given. -/
theorem computeDiff_replays_record {fuel : Nat} {left right : Ref} {path : Bytes}
    {trace : List LeafDiff}
    (recorded : computeDiff nodes recordLeafDiff fuel left right path [] = .ok trace) (s : σ) :
    computeDiff nodes processLeafDiff fuel left right path s = replay processLeafDiff trace s := by
  obtain ⟨trace', rfl, replays⟩ := computeDiff_eq_replay recorded
  exact replays processLeafDiff s

theorem leaf_replays_record :
    computeDiff .empty recordLeafDiff 1 (.node (.leafNode ⟨[1, 2], [7]⟩)) .none [] [] =
      .ok [([18], some ⟨[1, 2], [7]⟩, none)] ∧
    ∀ {σ : Type} (process : LeafDiffHandler σ) (s : σ),
      computeDiff .empty process 1 (.node (.leafNode ⟨[1, 2], [7]⟩)) .none [] s =
        replay process [([18], some ⟨[1, 2], [7]⟩, none)] s := by
  have recorded : computeDiff .empty recordLeafDiff 1 (.node (.leafNode ⟨[1, 2], [7]⟩)) .none [] [] =
      .ok [([18], some ⟨[1, 2], [7]⟩, none)] := rfl
  exact ⟨recorded, fun _ s => computeDiff_replays_record recorded s⟩

end MptDiff
