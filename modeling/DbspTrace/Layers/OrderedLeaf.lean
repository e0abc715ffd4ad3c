import DbspTrace.Layers.Advance
import Mathlib.Algebra.Group.Defs

/-
  `OrderedLeaf` (`trace/layers/ordered_leaf.rs`): a vector of `(key, weight)` pairs, its
  merge builder and its cursor, written as the source computes them. A panic of the Rust code
  (an index or slice out of range, the `reserve` of a negative length, the debug build's
  `step <<= step`) is `none`. Weights form an additive commutative group with decidable
  equality (`R: Eq + HasZero + AddAssignByRef`, used with `isize`); keys a linear order.

  `push_merge` is modelled with its loop (`mergeLoop`) given `(upper1 - lower1) + (upper2 - lower2)`
  rounds of fuel: each round raises `lower1 + lower2` by at least one while both are below their
  bounds. The abstract merge it refines, and the proofs, are in `Layers.Merge`; the cursor's
  laws in `Layers.Cursor`.

  Proved here: `push_merge_debug_panics`, the debug build's `push_merge` of a leaf with keys
  `0..=2069` and a leaf whose only key is `2070` panics in `advance`.
-/

namespace DbspTrace.Layers

variable {α K R : Type}

/-- The entries `xs[lower..upper]` of an in-range slice. -/
def subrange (xs : List α) (lower upper : Nat) : List α := (xs.drop lower).take (upper - lower)

/-- `&xs[lower..upper]`; `none` is the out-of-range panic. -/
def sliceOf (xs : List α) (lower upper : Nat) : Option (List α) :=
  if lower ≤ upper ∧ upper ≤ xs.length then some (subrange xs lower upper) else none

theorem sliceOf_eq {xs : List α} {lower upper : Nat} (h1 : lower ≤ upper) (h2 : upper ≤ xs.length) :
    sliceOf xs lower upper = some (subrange xs lower upper) := by
  simp [sliceOf, h1, h2]

section Subrange

variable {xs : List α} {l m u : Nat}

@[simp] theorem subrange_self : subrange xs u u = [] := by simp [subrange]

theorem subrange_of_not_lt (h : ¬l < u) : subrange xs l u = [] := by
  simp [subrange, Nat.sub_eq_zero_of_le (not_lt.mp h)]

theorem subrange_to_length (xs : List α) (l : Nat) : subrange xs l xs.length = xs.drop l :=
  List.take_of_length_le (by simp)

theorem length_subrange_le (xs : List α) (l u : Nat) : (subrange xs l u).length ≤ u - l :=
  List.length_take_le _ _

theorem length_subrange (hu : u ≤ xs.length) : (subrange xs l u).length = u - l := by
  simp only [subrange, List.length_take, List.length_drop]; omega

theorem subrange_cons {x : α} (hx : xs[l]? = some x) (h : l < u) :
    subrange xs l u = x :: subrange xs (l + 1) u := by
  obtain ⟨hl, rfl⟩ := List.getElem?_eq_some_iff.mp hx
  obtain ⟨n, hn⟩ : ∃ n, u - l = n + 1 := ⟨u - l - 1, by omega⟩
  rw [subrange, subrange, List.drop_eq_getElem_cons hl, hn, List.take_succ_cons]
  congr 2; omega

theorem subrange_append (h1 : l ≤ m) (h2 : m ≤ u) :
    subrange xs l m ++ subrange xs m u = subrange xs l u := by
  have : u - l = (m - l) + (u - m) := by omega
  rw [subrange, subrange, subrange, this, List.take_add, List.drop_drop, Nat.add_sub_cancel' h1]

theorem drop_subrange (s : Nat) : (subrange xs l u).drop s = subrange xs (l + s) u := by
  rw [subrange, subrange, List.drop_take, List.drop_drop, Nat.sub_sub]

theorem take_subrange {s : Nat} (h : s ≤ u - l) : (subrange xs l u).take s = subrange xs l (l + s) := by
  rw [subrange, subrange, List.take_take, Nat.add_sub_cancel_left, Nat.min_eq_left h]

theorem getElem?_subrange {i : Nat} (h : i < u - l) : (subrange xs l u)[i]? = xs[l + i]? := by
  rw [subrange, List.getElem?_take_of_lt h, List.getElem?_drop]

theorem exists_getElem?_eq_some (h : l < xs.length) : ∃ x, xs[l]? = some x :=
  ⟨xs[l], List.getElem?_eq_getElem h⟩

end Subrange

/-- A layer of `(key, weight)` pairs (`OrderedLeaf<K, R>`). -/
structure OrderedLeaf (K R : Type) where
  vals : List (K × R)
  deriving DecidableEq, Repr

/-- `OrderedLeafCursor`: the current position and the navigable range `[bounds.0, bounds.1)`. -/
structure OrderedLeafCursor where
  pos : Nat
  bounds : Nat × Nat
  deriving DecidableEq, Repr

/-- `OrderedLeafBuilder<K, R>`. -/
structure OrderedLeafBuilder (K R : Type) where
  vals : List (K × R)
  deriving DecidableEq, Repr

namespace OrderedLeaf

/-- `Trie::keys` (and `tuples`). -/
def keys (t : OrderedLeaf K R) : Nat := t.vals.length

/-- `Trie::is_empty`. -/
def isEmpty (t : OrderedLeaf K R) : Bool := t.keys == 0

/-- `Trie::cursor_from`. -/
def cursorFrom (_t : OrderedLeaf K R) (lower upper : Nat) : OrderedLeafCursor :=
  { bounds := (lower, upper), pos := lower }

/-- `Trie::cursor`. -/
def cursor (t : OrderedLeaf K R) : OrderedLeafCursor := t.cursorFrom 0 t.keys

end OrderedLeaf

/-! ## The merge builder -/

section Merge

variable [LinearOrder K] [AddCommGroup R] [DecidableEq R]

/-- `MergeBuilder::copy_range`: `self.vals.extend_from_slice(&other.vals[lower..upper])`. -/
def OrderedLeafBuilder.copyRange (b : OrderedLeafBuilder K R) (other : OrderedLeaf K R)
    (lower upper : Nat) : Option (OrderedLeafBuilder K R) :=
  (sliceOf other.vals lower upper).map fun run => ⟨b.vals ++ run⟩

/-- The loop of `push_merge`, on the builder's `vals` and the two lower bounds. -/
def mergeLoop (sem : ShlSemantics) (trie1 trie2 : OrderedLeaf K R) (upper1 upper2 : Nat) :
    Nat → List (K × R) → Nat → Nat → Option (List (K × R) × Nat × Nat)
  | 0, vals, lower1, lower2 => some (vals, lower1, lower2)
  | fuel + 1, vals, lower1, lower2 =>
    if lower1 < upper1 ∧ lower2 < upper2 then
      match trie1.vals[lower1]?, trie2.vals[lower2]? with
      | some (k1, w1), some (k2, w2) =>
        match compare k1 k2 with
        | .lt => do
          let rest ← sliceOf trie1.vals (1 + lower1) upper1
          let n ← advance sem rest fun x => x.1 < k2
          let step := min (1 + n) 1000
          let run ← sliceOf trie1.vals lower1 (lower1 + step)
          mergeLoop sem trie1 trie2 upper1 upper2 fuel (vals ++ run) (lower1 + step) lower2
        | .eq =>
          let sum := w1 + w2
          mergeLoop sem trie1 trie2 upper1 upper2 fuel
            (if sum = 0 then vals else vals ++ [(k1, sum)]) (lower1 + 1) (lower2 + 1)
        | .gt => do
          let rest ← sliceOf trie2.vals (1 + lower2) upper2
          let n ← advance sem rest fun x => x.1 < k1
          let step := min (1 + n) 1000
          let run ← sliceOf trie2.vals lower2 (lower2 + step)
          mergeLoop sem trie1 trie2 upper1 upper2 fuel (vals ++ run) lower1 (lower2 + step)
      | _, _ => none
    else some (vals, lower1, lower2)

/-- `MergeBuilder::push_merge`: merges `trie1[cursor1.bounds]` and `trie2[cursor2.bounds]` into
    the builder and returns the builder's new length. `self.vals.reserve((upper1 - lower1) +
    (upper2 - lower2))` panics when a range is inverted (debug: subtraction overflow; release:
    capacity overflow). -/
def pushMerge (sem : ShlSemantics) (b : OrderedLeafBuilder K R) (trie1 : OrderedLeaf K R)
    (cursor1 : OrderedLeafCursor) (trie2 : OrderedLeaf K R) (cursor2 : OrderedLeafCursor) :
    Option (OrderedLeafBuilder K R × Nat) := do
  let (lower1, upper1) := cursor1.bounds
  let (lower2, upper2) := cursor2.bounds
  if upper1 < lower1 ∨ upper2 < lower2 then none else
  let (vals, lower1, lower2) ← mergeLoop sem trie1 trie2 upper1 upper2
    ((upper1 - lower1) + (upper2 - lower2)) b.vals lower1 lower2
  let b ← if lower1 < upper1 then OrderedLeafBuilder.copyRange ⟨vals⟩ trie1 lower1 upper1
    else some ⟨vals⟩
  let b ← if lower2 < upper2 then b.copyRange trie2 lower2 upper2 else some b
  return (b, b.vals.length)

namespace OrderedLeaf

/-- `Trie::merge`: a builder `with_capacity`, one `push_merge` of the full cursors, `done`. -/
def merge (sem : ShlSemantics) (t other : OrderedLeaf K R) : Option (OrderedLeaf K R) :=
  (pushMerge sem ⟨[]⟩ t t.cursor other other.cursor).map fun r => ⟨r.1.vals⟩

/-- `Add for OrderedLeaf`. -/
def add (sem : ShlSemantics) (t rhs : OrderedLeaf K R) : Option (OrderedLeaf K R) :=
  if t.isEmpty then some rhs else if rhs.isEmpty then some t else t.merge sem rhs

/-- `AddAssign for OrderedLeaf` (the new value of `self`). -/
def addAssign (sem : ShlSemantics) (t rhs : OrderedLeaf K R) : Option (OrderedLeaf K R) :=
  if !rhs.isEmpty then t.merge sem rhs else some t

/-- `AddAssignByRef for OrderedLeaf` (the new value of `self`). -/
def addAssignByRef (sem : ShlSemantics) (t other : OrderedLeaf K R) : Option (OrderedLeaf K R) :=
  if !other.isEmpty then t.merge sem other else some t

/-- `AddByRef for OrderedLeaf`. -/
def addByRef (sem : ShlSemantics) (t rhs : OrderedLeaf K R) : Option (OrderedLeaf K R) :=
  t.merge sem rhs

/-- `NegByRef for OrderedLeaf` (and `Neg`). -/
def negByRef (t : OrderedLeaf K R) : OrderedLeaf K R :=
  ⟨t.vals.map fun (k, v) => (k, -v)⟩

end OrderedLeaf

/-- In the debug build `push_merge` panics as soon as its first round copies a run of
    more than 2069 entries of `trie1` that sort below the head of `trie2`. -/
theorem pushMerge_debug_eq_none (b : OrderedLeafBuilder K R) {t1 t2 : OrderedLeaf K R} {k1 k2 : K}
    {w1 w2 : R} (h1 : t1.vals[0]? = some (k1, w1)) (h2 : t2.vals[0]? = some (k2, w2))
    (hlt : k1 < k2) (hrest : ∀ i < 2069, holdsAt (t1.vals.drop 1) (fun x => x.1 < k2) i = true) :
    pushMerge .debug b t1 t1.cursor t2 t2.cursor = none := by
  obtain ⟨hl1, -⟩ := List.getElem?_eq_some_iff.mp h1
  obtain ⟨hl2, -⟩ := List.getElem?_eq_some_iff.mp h2
  obtain ⟨f, hf⟩ : ∃ f, t1.vals.length - 0 + (t2.vals.length - 0) = f + 1 :=
    ⟨_, (Nat.succ_pred_eq_of_pos (by omega)).symm⟩
  simp only [pushMerge, OrderedLeaf.cursor, OrderedLeaf.cursorFrom, OrderedLeaf.keys, hf, mergeLoop,
    hl1, hl2, and_self, ↓reduceIte, h1, h2, compare_lt_iff_lt.mpr hlt, Nat.not_lt_zero, or_self,
    Nat.add_zero, sliceOf_eq (show 1 + 0 ≤ t1.vals.length by omega) le_rfl, Nat.zero_add, subrange_to_length,
    advance_debug_eq_none hrest, Option.none_bind, Option.some_bind, Option.bind_eq_bind]
/-- The debug build's `push_merge` of the sorted leaf with keys `0..=2069` (weight 1) and the leaf
    `[(2070, 1)]` panics: its first round calls `advance` on 2069 keys below 2070. -/
theorem push_merge_debug_panics :
    ((List.range 2070).map fun k => (k, (1 : Int))).Pairwise (·.1 < ·.1) ∧
      pushMerge .debug ⟨[]⟩ ⟨(List.range 2070).map fun k => (k, (1 : Int))⟩
        (OrderedLeaf.cursor ⟨(List.range 2070).map fun k => (k, (1 : Int))⟩)
        ⟨[(2070, 1)]⟩ (OrderedLeaf.cursor ⟨[(2070, 1)]⟩) = none := by
  have h1 : (OrderedLeaf.vals ⟨(List.range 2070).map fun k => (k, (1 : Int))⟩)[0]? = some (0, 1) := by
    rw [List.getElem?_map, List.getElem?_range (by decide)]; rfl
  have h2 : (OrderedLeaf.vals (⟨[(2070, 1)]⟩ : OrderedLeaf Nat Int))[0]? = some (2070, 1) := rfl
  have hlt : (0 : Nat) < 2070 := by decide
  refine ⟨List.pairwise_map.mpr (List.pairwise_lt_range 2070),
    @pushMerge_debug_eq_none Nat Int _ _ _ ⟨[]⟩ ⟨(List.range 2070).map fun k => (k, (1 : Int))⟩
      ⟨[(2070, 1)]⟩ 0 2070 1 1 h1 h2 hlt fun i hi => ?_⟩
  unfold holdsAt
  rw [List.getElem?_drop, List.getElem?_map, List.getElem?_range (by omega)]
  simp only [Option.map_some', decide_eq_true_eq]
  omega

end Merge

/-! ## The cursor -/

namespace OrderedLeafCursor

/-- `Cursor::valid`. -/
def valid (c : OrderedLeafCursor) : Bool := c.pos < c.bounds.2

/-- `Cursor::key`: `&storage.vals[self.pos]`. -/
def key (c : OrderedLeafCursor) (storage : OrderedLeaf K R) : Option (K × R) :=
  storage.vals[c.pos]?

/-- `Cursor::step`. -/
def step (c : OrderedLeafCursor) : OrderedLeafCursor :=
  let c := { c with pos := c.pos + 1 }
  if c.valid then c else { c with pos := c.bounds.2 }

@[simp] theorem step_bounds (c : OrderedLeafCursor) : c.step.bounds = c.bounds := by
  unfold step; by_cases h : c.pos + 1 < c.bounds.2 <;> simp [valid, h]

theorem step_pos (c : OrderedLeafCursor) :
    c.step.pos = if c.pos + 1 < c.bounds.2 then c.pos + 1 else c.bounds.2 := by
  unfold step; by_cases h : c.pos + 1 < c.bounds.2 <;> simp [valid, h]

/-- `OrderedLeafCursor::seek_key`:
    `self.pos += advance(&storage.vals[self.pos..self.bounds.1], |(k, _)| k.lt(key))`. -/
def seekKey [LinearOrder K] (sem : ShlSemantics) (c : OrderedLeafCursor) (storage : OrderedLeaf K R)
    (key : K) : Option OrderedLeafCursor := do
  let slice ← sliceOf storage.vals c.pos c.bounds.2
  let n ← advance sem slice fun x => x.1 < key
  return { c with pos := c.pos + n }

/-- `Cursor::seek`. -/
def seek [LinearOrder K] (sem : ShlSemantics) (c : OrderedLeafCursor) (storage : OrderedLeaf K R)
    (key : K × R) : Option OrderedLeafCursor :=
  c.seekKey sem storage key.1

/-- `Cursor::rewind`. -/
def rewind (c : OrderedLeafCursor) : OrderedLeafCursor := { c with pos := c.bounds.1 }

/-- `Cursor::reposition`. -/
def reposition (_c : OrderedLeafCursor) (lower upper : Nat) : OrderedLeafCursor :=
  { pos := lower, bounds := (lower, upper) }

end OrderedLeafCursor

end DbspTrace.Layers
