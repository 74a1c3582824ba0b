import Mathlib.Data.List.Forall2
import Mathlib.Data.List.Nodup

namespace MptDiff

/-! # The Python runtime the differ runs on

`bytes` are lists of `UInt8`, a `dict` is its list of items in insertion order with each key
once, and every exception the differ can raise is a constructor of `PyError`, carried by
`Except`.
-/

/-- A Python `bytes` object (also `Bytes`, `Bytes32`, `Hash32` and `Address`). -/
abbrev Bytes := List UInt8

/-- The exceptions raised by the modelled code, by the Python error the source raises. -/
inductive PyError where
  /-- `resolve`: `ValueError("Invalid node type: ...")`. -/
  | invalidNodeType
  /-- `check_branch_node` rejects its argument. -/
  | badBranch
  /-- `IndexError`: `rest_of_key[0]` or `key_segment[0]` of an empty key. -/
  | indexError
  /-- `KeyError`: a preimage missing from `_address_preimages` or `_storage_key_preimages`. -/
  | keyError
  /-- An RLP payload that does not decode to the expected shape. -/
  | decodingError
  /-- `ValueError` of `int(·, 16)`, `bytes.fromhex` or a fixed-width bytes constructor. -/
  | valueError
  /-- `OverflowError` of `U256(·)` or `Uint(·)`. -/
  | overflowError
  /-- The walk did not finish within its recursion budget (the model's fuel). -/
  | outOfFuel
deriving DecidableEq, Repr

/-- The two kinds of Python value the Extension/Branch cases of `_compute_diff` compare:
indexing a `bytes` object gives an `int`, while `bytes([i])` is a `bytes` object. -/
inductive PyObj where
  | int (value : Nat)
  | bytes (value : Bytes)
deriving DecidableEq

/-- `b[i]` on a `bytes` object, raising `IndexError` past its end. -/
def getIndex : Bytes → Nat → Except PyError UInt8
  | x :: _, 0 => pure x
  | _ :: rest, i + 1 => getIndex rest i
  | [], _ => throw .indexError

theorem getIndex_eq_error {b : Bytes} {i : Nat} {e : PyError}
    (failed : getIndex b i = .error e) : e = .indexError := by
  induction b generalizing i with
  | nil => exact (Except.error.inj failed).symm
  | cons x rest ih =>
      cases i with
      | zero => exact nomatch failed
      | succ i => exact ih failed

theorem getIndex_zero_eq_ok {b : Bytes} {x : UInt8} :
    getIndex b 0 = .ok x ↔ ∃ rest, b = x :: rest := by
  cases b with
  | nil => exact ⟨fun h => (nomatch h), fun ⟨_, h⟩ => (nomatch h)⟩
  | cons y rest =>
      exact ⟨fun h => ⟨rest, by rw [Except.ok.inj h]⟩, fun ⟨_, h⟩ => by cases h; rfl⟩

theorem getIndex_zero_eq_error {b : Bytes} {e : PyError} (failed : getIndex b 0 = .error e) :
    b = [] ∧ e = .indexError := by
  cases b with
  | nil => exact ⟨rfl, (Except.error.inj failed).symm⟩
  | cons => exact nomatch failed

theorem ok_bind {ε α β : Type} {a : α} {f : α → Except ε β} : (Except.ok a >>= f) = f a :=
  pure_bind a f

theorem bind_eq_ok {ε α β : Type} {x : Except ε α} {f : α → Except ε β} {b : β} :
    (x >>= f) = .ok b ↔ ∃ a, x = .ok a ∧ f a = .ok b := by
  cases x with
  | error e => exact ⟨fun h => (nomatch h), fun ⟨_, h, _⟩ => (nomatch h)⟩
  | ok a => exact ⟨fun h => ⟨a, rfl, h⟩, fun ⟨_, h, run⟩ => (Except.ok.inj h) ▸ run⟩

theorem bind_eq_error {ε α β : Type} {x : Except ε α} {f : α → Except ε β} {e : ε} :
    (x >>= f) = .error e ↔ x = .error e ∨ ∃ a, x = .ok a ∧ f a = .error e := by
  cases x with
  | error e' =>
      exact ⟨fun h => .inl (by cases h; rfl),
        fun h => h.elim (fun h => by cases h; rfl) fun ⟨_, h, _⟩ => (nomatch h)⟩
  | ok a => exact ⟨fun h => .inr ⟨a, rfl, h⟩, fun h => h.elim (fun h => (nomatch h))
      fun ⟨_, h, run⟩ => (Except.ok.inj h) ▸ run⟩

theorem pure_eq_ok {ε α : Type} {a b : α} : (pure a : Except ε α) = .ok b ↔ a = b :=
  ⟨Except.ok.inj, congrArg _⟩

theorem pure_ne_error {ε α : Type} {a : α} {e : ε} : (pure a : Except ε α) ≠ .error e :=
  fun h => Except.noConfusion h

theorem map_eq_error {ε α β : Type} {g : α → β} {x : Except ε α} {e : ε} :
    g <$> x = .error e ↔ x = .error e := by
  cases x <;> simp [Functor.map, Except.map]

theorem map_eq_ok {ε α β : Type} {g : α → β} {x : Except ε α} {b : β} :
    g <$> x = .ok b ↔ ∃ a, x = .ok a ∧ g a = b := by
  cases x <;> simp [Functor.map, Except.map]

theorem bind_congr_of_ne {ε α β : Type} {x : Except ε α} {f g : α → Except ε β} {e : ε}
    (same : ∀ a, f a ≠ .error e → g a = f a) (ne : x >>= f ≠ .error e) : x >>= g = x >>= f := by
  cases x with
  | error => rfl
  | ok a => exact same a ne

theorem mapM_eq_ok {ε α β : Type} {f : α → Except ε β} {xs : List α} :
    ∀ {ys : List β}, xs.mapM f = .ok ys ↔ List.Forall₂ (fun x y => f x = .ok y) xs ys := by
  induction xs with
  | nil =>
      intro ys
      show (Except.ok [] : Except ε (List β)) = .ok ys ↔ _
      cases ys <;> simp
  | cons x xs ih =>
      intro ys
      simp only [List.mapM_cons, bind_eq_ok, ih, pure_eq_ok]
      constructor
      · rintro ⟨y, first, ys, rest, rfl⟩
        exact List.Forall₂.cons first rest
      · rintro (_ | ⟨first, rest⟩)
        exact ⟨_, first, _, rest, rfl⟩

theorem mapM_eq_ok_map {ε α β : Type} {f : α → Except ε β} {g : α → β} {xs : List α}
    (each : ∀ x ∈ xs, f x = .ok (g x)) : xs.mapM f = .ok (xs.map g) :=
  mapM_eq_ok.mpr (List.forall₂_map_right_iff.mpr (List.forall₂_same.mpr each))

theorem mapM_eq_error {ε α β : Type} {f : α → Except ε β} {e : ε} :
    ∀ {xs : List α}, xs.mapM f = .error e → ∃ x ∈ xs, f x = .error e
  | [], run => nomatch (show (Except.ok [] : Except ε (List β)) = .error e from run)
  | x :: xs, run => by
      rw [List.mapM_cons] at run
      rcases bind_eq_error.mp run with first | ⟨y, _, rest⟩
      · exact ⟨x, List.mem_cons_self x xs, first⟩
      · rcases bind_eq_error.mp rest with rest | ⟨_, _, done⟩
        · obtain ⟨z, member, failed⟩ := mapM_eq_error rest
          exact ⟨z, List.mem_cons_of_mem x member, failed⟩
        · exact absurd done pure_ne_error

theorem mapM_eq_error_iff {ε α β : Type} {f : α → Except ε β} {e : ε} :
    ∀ {xs : List α}, xs.mapM f = .error e ↔
      ∃ pre x post, xs = pre ++ x :: post ∧ (∀ y ∈ pre, ∃ z, f y = .ok z) ∧ f x = .error e
  | [] => ⟨(fun run => nomatch run), fun ⟨pre, _, _, split, _⟩ => by simp at split⟩
  | x :: xs => by
      rw [List.mapM_cons, bind_eq_error]
      constructor
      · rintro (first | ⟨z, first, rest⟩)
        · exact ⟨[], x, xs, rfl, (fun _ member => nomatch member), first⟩
        rcases bind_eq_error.mp rest with rest | ⟨_, _, done⟩
        · obtain ⟨pre, y, post, rfl, before, failed⟩ := mapM_eq_error_iff.mp rest
          refine ⟨x :: pre, y, post, rfl, fun w member => ?_, failed⟩
          rcases List.mem_cons.mp member with rfl | member
          exacts [⟨z, first⟩, before w member]
        · exact absurd done pure_ne_error
      · rintro ⟨_ | ⟨w, pre⟩, y, post, split, before, failed⟩
        · cases split
          exact .inl failed
        · cases split
          obtain ⟨z, first⟩ := before _ (List.mem_cons_self _ _)
          exact .inr ⟨z, first, bind_eq_error.mpr (.inl (mapM_eq_error_iff.mpr
            ⟨pre, y, post, rfl, fun v member => before v (List.mem_cons_of_mem _ member), failed⟩))⟩

theorem optionMapM_eq_error {ε α β : Type} {f : α → Except ε β} {e : ε} :
    ∀ {o : Option α}, o.mapM f = .error e → ∃ a, o = some a ∧ f a = .error e
  | none, run => nomatch run
  | some a, run => by
      rcases bind_eq_error.mp run with failed | ⟨_, _, done⟩
      · exact ⟨a, rfl, failed⟩
      · exact absurd done pure_ne_error

theorem optionMapM_some_eq_ok {ε α β : Type} {f : α → Except ε β} {a : α} {b : Option β}
    (run : (some a).mapM f = .ok b) : ∃ y, f a = .ok y ∧ b = some y := by
  have run : some <$> f a = .ok b := run
  cases found : f a with
  | error e => rw [found] at run; exact nomatch run
  | ok y => rw [found] at run; exact ⟨y, rfl, (Except.ok.inj run).symm⟩

theorem optionMapM_map {ε α β γ : Type} {f : β → Except ε γ} {g : α → β} :
    ∀ o : Option α, (o.map g).mapM f = o.mapM (f ∘ g)
  | none | some _ => rfl

theorem optionMapM_eq_ok_some {ε α β : Type} {f : α → Except ε β} {y : β} :
    ∀ {o : Option α}, o.mapM f = .ok (some y) → ∃ x, o = some x ∧ f x = .ok y
  | none, run => nomatch pure_eq_ok.mp run
  | some x, run => by
      obtain ⟨_, found, same⟩ := optionMapM_some_eq_ok run
      exact ⟨x, rfl, Option.some.inj same ▸ found⟩

theorem exists_of_forall₂_mem {α β : Type} {R : α → β → Prop} {y : β} :
    ∀ {xs : List α} {ys : List β}, List.Forall₂ R xs ys → y ∈ ys → ∃ x ∈ xs, R x y
  | _, _, .nil, member => absurd member (List.not_mem_nil y)
  | x :: _, _ :: _, .cons related rest, member => by
      rcases List.mem_cons.mp member with rfl | member
      · exact ⟨x, List.mem_cons_self _ _, related⟩
      · obtain ⟨x', found, related'⟩ := exists_of_forall₂_mem rest member
        exact ⟨x', List.mem_cons_of_mem x found, related'⟩

section Fold

variable {ε σ α : Type} {f : σ → α → Except ε σ}

theorem foldlM_eq_map_mapM {β : Type} {read : α → Except ε β} {write : σ → β → σ} :
    ∀ (xs : List α) (s : σ), xs.foldlM (fun s x => write s <$> read x) s =
      (fun ys => ys.foldl write s) <$> xs.mapM read
  | [], _ => rfl
  | x :: xs, s => by
      simp only [List.foldlM_cons, List.mapM_cons, bind_map_left, map_bind, map_pure, List.foldl_cons,
        foldlM_eq_map_mapM xs]
      simp only [map_eq_pure_bind]

/-- A state-passing loop keeps every invariant that each of its iterations keeps. -/
theorem foldlM_preserves {I : σ → Prop} :
    ∀ {xs : List α} {s s' : σ}, (∀ x ∈ xs, ∀ s s', I s → f s x = .ok s' → I s') →
      I s → xs.foldlM f s = .ok s' → I s'
  | [], _, _, _, holds, run => (Except.ok.inj run) ▸ holds
  | x :: xs, s, s', step, holds, run => by
      obtain ⟨next, first, rest⟩ := bind_eq_ok.mp run
      exact foldlM_preserves (fun y member => step y (List.mem_cons_of_mem x member))
        (step x (List.mem_cons_self x xs) s next holds first) rest

theorem foldlM_exists {I : σ → Prop} :
    ∀ {xs : List α} {s : σ}, (∀ x ∈ xs, ∀ s, I s → ∃ s', f s x = .ok s' ∧ I s') → I s →
      ∃ s', xs.foldlM f s = .ok s'
  | [], s, _, _ => ⟨s, rfl⟩
  | x :: xs, s, step, holds => by
      obtain ⟨next, first, holds⟩ := step x (List.mem_cons_self x xs) s holds
      obtain ⟨s', rest⟩ := foldlM_exists (fun y member => step y (List.mem_cons_of_mem x member)) holds
      exact ⟨s', by rw [List.foldlM_cons, first]; exact rest⟩

theorem foldlM_exists_of_forall₂ {β : Type} {R : α → β → Prop}
    (step : ∀ x y s, R x y → ∃ s', f s x = .ok s') :
    ∀ {xs : List α} {ys : List β} {s : σ}, List.Forall₂ R xs ys → ∃ s', xs.foldlM f s = .ok s'
  | _, _, s, .nil => ⟨s, rfl⟩
  | x :: _, y :: _, s, .cons related rest => by
      obtain ⟨next, first⟩ := step x y s related
      obtain ⟨s', rest⟩ := foldlM_exists_of_forall₂ step rest (s := next)
      exact ⟨s', by rw [List.foldlM_cons, first]; exact rest⟩

theorem foldlM_ok_mem :
    ∀ {xs : List α} {s s' : σ} {x : α}, xs.foldlM f s = .ok s' → x ∈ xs → ∃ t t', f t x = .ok t'
  | [], _, _, _, _, member => absurd member (List.not_mem_nil _)
  | y :: xs, s, s', x, run, member => by
      obtain ⟨next, first, rest⟩ := bind_eq_ok.mp run
      rcases List.mem_cons.mp member with rfl | member
      · exact ⟨s, next, first⟩
      · exact foldlM_ok_mem rest member

theorem foldlM_error {I : σ → Prop} :
    ∀ {xs : List α} {s : σ} {e : ε}, (∀ x ∈ xs, ∀ s s', I s → f s x = .ok s' → I s') →
      I s → xs.foldlM f s = .error e → ∃ x ∈ xs, ∃ t, I t ∧ f t x = .error e
  | [], _, _, _, _, run => nomatch run
  | x :: xs, s, e, step, holds, run => by
      rcases bind_eq_error.mp run with first | ⟨next, ran, rest⟩
      · exact ⟨x, List.mem_cons_self x xs, s, holds, first⟩
      · obtain ⟨y, member, t, holds', failed⟩ :=
          foldlM_error (fun y member => step y (List.mem_cons_of_mem x member))
            (step x (List.mem_cons_self x xs) s next holds ran) rest
        exact ⟨y, List.mem_cons_of_mem x member, t, holds', failed⟩

theorem foldlM_appends {β : Type} {g : List β → α → Except ε (List β)} {P : α → List β → Prop} :
    ∀ {xs : List α} {s s' : List β}, (∀ x ∈ xs, ∀ t t', g t x = .ok t' → ∃ T, t' = t ++ T ∧ P x T) →
      xs.foldlM g s = .ok s' →
      ∃ pieces : List (α × List β), pieces.map Prod.fst = xs ∧ (∀ p ∈ pieces, P p.1 p.2) ∧
        s' = s ++ (pieces.map Prod.snd).flatten
  | [], _, _, _, run => ⟨[], rfl, fun _ member => absurd member (List.not_mem_nil _),
      by rw [← Except.ok.inj run]; simp⟩
  | x :: xs, s, s', step, run => by
      obtain ⟨next, first, rest⟩ := bind_eq_ok.mp run
      obtain ⟨T, rfl, piece⟩ := step x (List.mem_cons_self x xs) s next first
      obtain ⟨pieces, order, each, rfl⟩ :=
        foldlM_appends (fun y member => step y (List.mem_cons_of_mem x member)) rest
      refine ⟨(x, T) :: pieces, by rw [List.map_cons, order], fun p member => ?_, by simp⟩
      rcases List.mem_cons.mp member with rfl | member
      exacts [piece, each p member]

theorem foldlM_eq_ok_self {s : σ} :
    ∀ {xs : List α}, (∀ x ∈ xs, f s x = .ok s) → xs.foldlM f s = .ok s
  | [], _ => rfl
  | x :: xs, same => by
      rw [List.foldlM_cons, same x (List.mem_cons_self x xs)]
      exact foldlM_eq_ok_self fun y member => same y (List.mem_cons_of_mem x member)

theorem foldlM_congr {g : σ → α → Except ε σ} :
    ∀ {xs : List α} {s : σ}, (∀ x ∈ xs, ∀ t, g t x = f t x) → xs.foldlM g s = xs.foldlM f s
  | [], _, _ => rfl
  | x :: xs, s, same => by
      rw [List.foldlM_cons, List.foldlM_cons, same x (List.mem_cons_self x xs)]
      exact congrArg (f s x >>= ·)
        (funext fun _ => foldlM_congr fun y member => same y (List.mem_cons_of_mem x member))

theorem foldlM_congr_of_ne {g : σ → α → Except ε σ} {e : ε}
    (same : ∀ x t, f t x ≠ .error e → g t x = f t x) :
    ∀ {xs : List α} {s : σ}, xs.foldlM f s ≠ .error e → xs.foldlM g s = xs.foldlM f s
  | [], _, _ => rfl
  | x :: xs, s, ne => by
      simp only [List.foldlM_cons] at ne ⊢
      rw [same x s fun failed => ne (by rw [failed]; rfl)]
      cases ran : f s x with
      | error => rfl
      | ok t =>
          rw [ran] at ne
          exact foldlM_congr_of_ne same ne

end Fold

/-- A Python `dict`: its items in insertion order, each key once. -/
structure PyDict (K V : Type) where
  items : List (K × V)
  nodupKeys : (items.map Prod.fst).Nodup

namespace PyDict

variable {K V : Type}

def empty : PyDict K V := ⟨[], List.nodup_nil⟩

def keys (d : PyDict K V) : List K := d.items.map Prod.fst

@[simp] theorem keys_empty : (empty : PyDict K V).keys = [] := rfl

theorem ext_items {d d' : PyDict K V} (same : d.items = d'.items) : d = d' := by
  cases d
  cases d'
  cases same
  rfl

/-- {k: f(v) for k, v in d.items()}: the same keys in the same order. -/
def mapValues {W : Type} (f : V → W) (d : PyDict K V) : PyDict K W :=
  ⟨d.items.map fun item => (item.1, f item.2), by rw [List.map_map]; exact d.nodupKeys⟩

theorem mapValues_eq_self {f : V → V} {d : PyDict K V} (fixed : ∀ item ∈ d.items, f item.2 = item.2) :
    d.mapValues f = d :=
  ext_items <| calc d.items.map (fun item => (item.1, f item.2))
      _ = d.items.map id := List.map_congr_left fun item member => Prod.ext rfl (fixed item member)
      _ = d.items := List.map_id _

variable [DecidableEq K]

/-- `d.get(key)`. -/
def get? (d : PyDict K V) (key : K) : Option V :=
  (d.items.find? (·.1 = key)).map Prod.snd

@[simp] theorem get?_empty {key : K} : (empty : PyDict K V).get? key = none := rfl

/-- `d[key]`, raising `KeyError` when the key is missing. -/
def getItem (d : PyDict K V) (key : K) : Except PyError V :=
  match d.get? key with
  | some value => pure value
  | none => throw .keyError

private theorem keys_replace (items : List (K × V)) (key : K) (value : V) :
    (items.map fun item => if item.1 = key then (key, value) else item).map Prod.fst =
      items.map Prod.fst := by
  simp only [List.map_map]
  exact List.map_congr_left fun item _ => by by_cases same : item.1 = key <;> simp [same]

/-- `d[key] = value`: an existing key keeps its place, a new key goes last. -/
def setItem (d : PyDict K V) (key : K) (value : V) : PyDict K V :=
  if present : key ∈ d.keys then
    ⟨d.items.map fun item => if item.1 = key then (key, value) else item,
      (keys_replace d.items key value).symm ▸ d.nodupKeys⟩
  else
    ⟨d.items ++ [(key, value)], by
      rw [List.map_append, List.nodup_append_comm]
      exact List.Nodup.cons present d.nodupKeys⟩

theorem keys_setItem {d : PyDict K V} {key : K} {value : V} :
    (d.setItem key value).keys = if key ∈ d.keys then d.keys else d.keys ++ [key] := by
  unfold setItem
  split_ifs with present
  · exact keys_replace d.items key value
  · simp [keys]

@[simp] theorem mem_keys_setItem {d : PyDict K V} {key k : K} {value : V} :
    k ∈ (d.setItem key value).keys ↔ k = key ∨ k ∈ d.keys := by
  rw [keys_setItem]
  split_ifs with present
  · exact ⟨.inr, fun h => h.elim (fun same => same ▸ present) id⟩
  · simp [or_comm]

theorem mem_items_of_get? {d : PyDict K V} {key : K} {value : V}
    (found : d.get? key = some value) : (key, value) ∈ d.items := by
  obtain ⟨item, lookup, rfl⟩ := Option.map_eq_some'.mp found
  have same : item.1 = key := by simpa using List.find?_some lookup
  exact same ▸ List.mem_of_find?_eq_some lookup

theorem mem_keys_of_get? {d : PyDict K V} {key : K} {value : V}
    (found : d.get? key = some value) : key ∈ d.keys :=
  List.mem_map.mpr ⟨_, mem_items_of_get? found, rfl⟩

theorem eq_of_get?_eq {d : PyDict K V} (distinct : (d.items.map Prod.snd).Nodup) {k k' : K}
    {value : V} (found : d.get? k = some value) (found' : d.get? k' = some value) : k = k' :=
  congrArg Prod.fst (List.inj_on_of_nodup_map distinct (mem_items_of_get? found)
    (mem_items_of_get? found') rfl)

theorem get?_setItem {d : PyDict K V} {key k : K} {value : V} :
    (d.setItem key value).get? k = if k = key then some value else d.get? k := by
  unfold setItem get?
  split
  · rename_i present
    have same : ((fun item : K × V => decide (item.1 = k)) ∘
        fun item => if item.1 = key then (key, value) else item) = fun item => decide (item.1 = k) := by
      funext item
      by_cases here : item.1 = key <;> simp [here]
    rw [List.find?_map, same]
    cases found : d.items.find? (fun item => decide (item.1 = k)) with
    | none =>
        split_ifs with other
        · subst other
          obtain ⟨item, member, rfl⟩ := List.mem_map.mp present
          exact absurd (List.find?_eq_none.mp found item member) (by simp)
        · rfl
    | some item =>
        have keyed : item.1 = k := by simpa using List.find?_some found
        split_ifs with other <;> simp [keyed, other]
  · rw [List.find?_append]
    split_ifs with other
    · subst other
      rename_i absent
      rw [List.find?_eq_none.mpr fun item member same =>
        absent (List.mem_map.mpr ⟨item, member, by simpa using same⟩)]
      simp
    · simp [Ne.symm other]

theorem mem_keys_iff {d : PyDict K V} {key : K} : key ∈ d.keys ↔ (d.get? key).isSome := by
  simp [keys, get?, List.find?_isSome]

theorem get?_eq_none_of_not_mem {d : PyDict K V} {key : K} (missing : key ∉ d.keys) :
    d.get? key = none :=
  Option.not_isSome_iff_eq_none.mp (mt mem_keys_iff.mpr missing)

theorem getItem_eq_error {d : PyDict K V} {key : K} {e : PyError}
    (failed : d.getItem key = .error e) : e = .keyError := by
  unfold getItem at failed
  split at failed
  · exact absurd failed pure_ne_error
  · exact (Except.error.inj failed).symm

theorem getItem_eq_ok {d : PyDict K V} {key : K} {value : V} :
    d.getItem key = .ok value ↔ d.get? key = some value := by
  unfold getItem
  split <;> rename_i found <;> simp [found, pure, Except.pure]

theorem get?_of_mem_items {d : PyDict K V} {key : K} {value : V} (member : (key, value) ∈ d.items) :
    d.get? key = some value := by
  cases found : d.get? key with
  | none => simpa [found] using mem_keys_iff.mp (List.mem_map_of_mem Prod.fst member)
  | some value' =>
      exact congrArg (some ·.2) (List.inj_on_of_nodup_map d.nodupKeys (mem_items_of_get? found) member rfl)

theorem items_setItem_of_not_mem {d : PyDict K V} {key : K} {value : V} (absent : key ∉ d.keys) :
    (d.setItem key value).items = d.items ++ [(key, value)] := by
  rw [setItem, dif_neg absent]

theorem ext_get? {d d' : PyDict K V} (sameKeys : d.keys = d'.keys)
    (sameValues : ∀ k, d.get? k = d'.get? k) : d = d' := by
  have length : d.items.length = d'.items.length := by
    simpa [PyDict.keys] using congrArg List.length sameKeys
  refine ext_items (List.ext_getElem length fun i bound bound' => ?_)
  have key : d.items[i].1 = d'.items[i].1 := by
    simpa [PyDict.keys, bound, bound'] using congrArg (·[i]?) sameKeys
  have found : d.get? d.items[i].1 = some d.items[i].2 :=
    get?_of_mem_items (List.getElem_mem bound)
  have found' : d'.get? d'.items[i].1 = some d'.items[i].2 :=
    get?_of_mem_items (List.getElem_mem bound')
  rw [sameValues, key, found'] at found
  exact Prod.ext key (Option.some.inj found).symm

theorem foldl_setItem_items : ∀ {d : PyDict K V} {pairs : List (K × V)},
    (pairs.map Prod.fst).Nodup → (∀ k ∈ pairs.map Prod.fst, k ∉ d.keys) →
      (pairs.foldl (fun d item => d.setItem item.1 item.2) d).items = d.items ++ pairs
  | _, [], _, _ => (List.append_nil _).symm
  | d, (k, v) :: pairs, nodup, fresh => by
      obtain ⟨new, nodup⟩ := List.nodup_cons.mp nodup
      have fresh' : ∀ k' ∈ pairs.map Prod.fst, k' ∉ (d.setItem k v).keys := fun k' member => by
        rw [mem_keys_setItem]
        rintro (rfl | old)
        · exact new member
        · exact fresh k' (List.mem_cons_of_mem k member) old
      rw [List.foldl_cons, foldl_setItem_items nodup fresh',
        items_setItem_of_not_mem (fresh k (List.mem_cons_self k _)), List.append_assoc]
      rfl

theorem foldl_setItem_self (d : PyDict K V) :
    d.items.foldl (fun d item => d.setItem item.1 item.2) empty = d :=
  ext_items ((foldl_setItem_items d.nodupKeys fun _ _ => List.not_mem_nil _).trans (List.nil_append _))

end PyDict

end MptDiff
