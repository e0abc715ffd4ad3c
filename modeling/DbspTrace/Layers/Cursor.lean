import DbspTrace.Layers.OrderedLeaf

/-
  The cursor of `OrderedLeaf` (`OrderedLeafCursor`) driven by any sequence of calls. A cursor
  made by `cursor_from(l, u)` or reset by `reposition(_, l, u)` navigates `[l, u)`; the calls are
  `step`, `seek`, `seek_key` and `rewind` (`CursorOp`), run one after another by `run`.

  Proved, for a leaf with keys in non-decreasing order and `l ≤ u ≤ vals.len()`, with `advance`
  as in the release build (or over exact integers):
  * `apply_within`, `run_within`: every call keeps the bounds `(l, u)` and `l ≤ pos ≤ u`, and
    never panics (the slice `seek_key` takes is in range);
  * `key_of_valid`: while the cursor is valid, `key()` is in range;
  * `seekKey_spec`: `seek_key(k)` moves `pos` to the least `p ≥ pos` with `p = u` or
    `vals[p].0 ≥ k`.
-/

namespace DbspTrace.Layers

variable {K R : Type}

/-- Keys in non-decreasing order (`OrderedLeaf`'s sortedness). -/
def KeysSorted [LinearOrder K] (xs : List (K × R)) : Prop := xs.Pairwise (·.1 ≤ ·.1)

instance [LinearOrder K] (xs : List (K × R)) : Decidable (KeysSorted xs) :=
  inferInstanceAs (Decidable (xs.Pairwise _))

/-- The calls on an `OrderedLeafCursor`: `Cursor::step`, `Cursor::seek`,
    `OrderedLeafCursor::seek_key` and `Cursor::rewind`. -/
inductive CursorOp (K R : Type) where
  | step
  | seek (key : K × R)
  | seekKey (key : K)
  | rewind
  deriving Repr

namespace OrderedLeafCursor

/-- The cursor navigates `[l, u)` and its position lies in `[l, u]`. -/
structure Within (c : OrderedLeafCursor) (l u : Nat) : Prop where
  bounds_eq : c.bounds = (l, u)
  lower_le : l ≤ c.pos
  le_upper : c.pos ≤ u

theorem within_cursorFrom (storage : OrderedLeaf K R) {l u : Nat} (h : l ≤ u) :
    (storage.cursorFrom l u).Within l u :=
  ⟨rfl, le_rfl, h⟩

theorem within_reposition (c : OrderedLeafCursor) {l u : Nat} (h : l ≤ u) :
    (c.reposition l u).Within l u :=
  ⟨rfl, le_rfl, h⟩

/-- While a cursor within `[l, u]` is valid, `key()` reads an entry of the leaf. -/
theorem key_of_valid {storage : OrderedLeaf K R} {l u : Nat} (hu : u ≤ storage.vals.length) {c : OrderedLeafCursor} (hc : c.Within l u)
    (hv : c.valid = true) : ∃ x, c.key storage = some x := by
  have : c.pos < u := by simpa [valid, hc.bounds_eq] using hv
  exact exists_getElem?_eq_some (by omega)

variable [LinearOrder K]

/-- One call on the cursor over `storage`; `none` is a panic. -/
def apply (sem : ShlSemantics) (storage : OrderedLeaf K R) (c : OrderedLeafCursor) :
    CursorOp K R → Option OrderedLeafCursor
  | .step => some c.step
  | .seek key => c.seek sem storage key
  | .seekKey key => c.seekKey sem storage key
  | .rewind => some c.rewind

/-- The calls `ops`, one after another. -/
def run (sem : ShlSemantics) (storage : OrderedLeaf K R) :
    OrderedLeafCursor → List (CursorOp K R) → Option OrderedLeafCursor
  | c, [] => some c
  | c, op :: ops => (c.apply sem storage op).bind fun c' => run sem storage c' ops

/-! ## `seek_key` -/

/-- Where `seek_key(key)` from `pos` must land in a range ending at `u`: the least `p ≥ pos`
    that is `u` or holds a key at least `key`. -/
def IsSeekTarget (storage : OrderedLeaf K R) (u pos : Nat) (key : K) (p : Nat) : Prop :=
  pos ≤ p ∧ p ≤ u ∧ (p = u ∨ ∃ x, storage.vals[p]? = some x ∧ key ≤ x.1) ∧
    ∀ q, pos ≤ q → q < p → ∃ x, storage.vals[q]? = some x ∧ x.1 < key

section Seek

variable {sem : ShlSemantics} {storage : OrderedLeaf K R} {c : OrderedLeafCursor}

/-- `seek_key(key)` on a cursor inside the leaf does not panic and lands on its target. -/
theorem seekKey_spec (hsem : sem ≠ .debug) (hsort : KeysSorted storage.vals)
    (hp : c.pos ≤ c.bounds.2) (hu : c.bounds.2 ≤ storage.vals.length) (key : K) :
    ∃ p, c.seekKey sem storage key = some { c with pos := p } ∧
      IsSeekTarget storage c.bounds.2 c.pos key p := by
  set slice := subrange storage.vals c.pos c.bounds.2
  set f : K × R → Bool := fun x => decide (x.1 < key)
  have hmono : MonotoneFalse f slice :=
    (hsort.sublist ((List.take_sublist _ _).trans (List.drop_sublist _ _))).imp
      fun hab hb => decide_eq_true (lt_of_le_of_lt hab (of_decide_eq_true hb))
  have hlen : slice.length = c.bounds.2 - c.pos := length_subrange hu
  have hget : ∀ i (hi : i < slice.length), storage.vals[c.pos + i]? = some slice[i] := fun i hi => by
    rw [← List.getElem?_eq_getElem hi, getElem?_subrange (by omega)]
  set n := (slice.takeWhile f).length
  have hn : n ≤ slice.length := (List.takeWhile_prefix f).length_le
  refine ⟨c.pos + n, ?_, by omega, by omega, ?_, fun q hq hqn => ?_⟩
  · simp only [seekKey, sliceOf_eq hp hu, Option.bind_eq_bind, Option.some_bind,
      advance_of_monotoneFalse hsem hmono]
    rfl
  · rcases hn.lt_or_eq with hlt | heq
    · refine .inr ⟨slice[n], hget n hlt, ?_⟩
      have := mt (getElem_iff_lt_takeWhile hmono hlt).mp (lt_irrefl n)
      simpa [f] using this
    · exact .inl (by omega)
  · have hi : q - c.pos < slice.length := by omega
    refine ⟨slice[q - c.pos], by rw [← hget _ hi]; congr 1; omega, ?_⟩
    exact of_decide_eq_true ((getElem_iff_lt_takeWhile hmono hi).mpr (by omega))

end Seek

/-! ## The bounds invariant -/

section Run

variable {sem : ShlSemantics} {storage : OrderedLeaf K R} {l u : Nat}

/-- Every call keeps the cursor within `[l, u]` and does not panic. -/
theorem apply_within (hsem : sem ≠ .debug) (hsort : KeysSorted storage.vals)
    (hu : u ≤ storage.vals.length) {c : OrderedLeafCursor} (hc : c.Within l u) (op : CursorOp K R) :
    ∃ c', c.apply sem storage op = some c' ∧ c'.Within l u := by
  obtain ⟨hb, hl, hpu⟩ := hc
  have seek : ∀ key, ∃ c', c.seekKey sem storage key = some c' ∧ c'.Within l u := fun key => by
    obtain ⟨p, hs, hp1, hp2, -⟩ :=
      seekKey_spec hsem hsort (by rw [hb]; exact hpu) (by rw [hb]; exact hu) key
    rw [hb] at hp2
    exact ⟨_, hs, hb, hl.trans hp1, hp2⟩
  cases op with
  | step =>
    refine ⟨c.step, rfl, by rw [step_bounds, hb], ?_, ?_⟩ <;> simp only [step_pos, hb] <;>
      split_ifs <;> omega
  | seek key => exact seek key.1
  | seekKey key => exact seek key
  | rewind => exact ⟨c.rewind, rfl, hb, by simp [rewind, hb], by simp [rewind, hb]; omega⟩

/-- Any sequence of calls from a cursor within `[l, u]` runs without panicking and ends within
    `[l, u]`. -/
theorem run_within (hsem : sem ≠ .debug) (hsort : KeysSorted storage.vals)
    (hu : u ≤ storage.vals.length) (ops : List (CursorOp K R)) :
    ∀ {c : OrderedLeafCursor}, c.Within l u → ∃ c', c.run sem storage ops = some c' ∧ c'.Within l u := by
  induction ops with
  | nil => exact fun hc => ⟨_, rfl, hc⟩
  | cons op ops ih =>
    intro c hc
    obtain ⟨c', happ, hc'⟩ := apply_within hsem hsort hu hc op
    obtain ⟨c'', hrun, hc''⟩ := ih hc'
    exact ⟨c'', by rw [run, happ, Option.some_bind, hrun], hc''⟩

end Run

/-! ## Cursors from `cursor_from` and `reposition` -/

/-- Over a leaf with sorted keys, from `cursor_from(l, u)` or `reposition(_, l, u)` with
    `l ≤ u ≤ vals.len()`, any sequence of calls runs without panicking and leaves the bounds
    `(l, u)` and `l ≤ pos ≤ u`; `key()` is in range while valid, and a `seek_key` from there
    lands on its target (release build). -/
theorem cursor_within_bounds_and_seekKey_least (storage : OrderedLeaf K R)
    (hsort : KeysSorted storage.vals) {l u : Nat} (hlu : l ≤ u) (hu : u ≤ storage.vals.length)
    (c0 : OrderedLeafCursor) (ops : List (CursorOp K R)) :
    ∀ c ∈ [storage.cursorFrom l u, c0.reposition l u], ∃ c', c.run .release storage ops = some c' ∧
      c'.bounds = (l, u) ∧ l ≤ c'.pos ∧ c'.pos ≤ u ∧ (c'.valid = true → ∃ x, c'.key storage = some x) ∧
      ∀ key, ∃ p, c'.seekKey .release storage key = some { c' with pos := p } ∧
        IsSeekTarget storage u c'.pos key p := by
  intro c hc
  have hw : c.Within l u := by
    rcases List.mem_pair.mp hc with rfl | rfl
    · exact within_cursorFrom storage hlu
    · exact within_reposition c0 hlu
  have hsem : ShlSemantics.release ≠ .debug := by decide
  obtain ⟨c', hrun, hw'⟩ := run_within hsem hsort hu ops hw
  have hb := hw'.bounds_eq
  refine ⟨c', hrun, hb, hw'.lower_le, hw'.le_upper, key_of_valid hu hw', fun key => ?_⟩
  obtain ⟨p, hs, ht⟩ :=
    seekKey_spec hsem hsort (by rw [hb]; exact hw'.le_upper) (by rw [hb]; exact hu) key
  exact ⟨p, hs, by rwa [hb] at ht⟩

theorem cursor_within_bounds_and_seekKey_least_small :
    KeysSorted [(1, (0 : Int)), (3, 0), (3, 0), (7, 0)] ∧
    ∀ c ∈ [OrderedLeaf.cursorFrom ⟨[(1, (0 : Int)), (3, 0), (3, 0), (7, 0)]⟩ 1 4,
        OrderedLeafCursor.reposition ⟨0, (0, 0)⟩ 1 4],
      ∃ c', c.run .release ⟨[(1, (0 : Int)), (3, 0), (3, 0), (7, 0)]⟩
          [.seekKey 3, .step, .rewind, .seek (7, 0)] = some c' ∧
        c'.bounds = (1, 4) ∧ 1 ≤ c'.pos ∧ c'.pos ≤ 4 ∧
        (c'.valid = true → ∃ x, c'.key ⟨[(1, (0 : Int)), (3, 0), (3, 0), (7, 0)]⟩ = some x) ∧
        ∀ key, ∃ p, c'.seekKey .release ⟨[(1, (0 : Int)), (3, 0), (3, 0), (7, 0)]⟩ key =
            some { c' with pos := p } ∧
          IsSeekTarget ⟨[(1, (0 : Int)), (3, 0), (3, 0), (7, 0)]⟩ 4 c'.pos key p :=
  ⟨by decide, cursor_within_bounds_and_seekKey_least ⟨[(1, (0 : Int)), (3, 0), (3, 0), (7, 0)]⟩
    (by decide) (by decide) (by decide) ⟨0, (0, 0)⟩ [.seekKey 3, .step, .rewind, .seek (7, 0)]⟩

end OrderedLeafCursor

end DbspTrace.Layers
