import Mathlib.Data.List.Basic
import Mathlib.Tactic.IntervalCases

/-
  `advance` (`trace/layers/mod.rs`): the exponential search behind the leaf merge's run copies
  and the leaf cursor's `seek_key`. It counts the prefix of `slice` on which `function` holds,
  relying on `function` staying false once it is false (`MonotoneFalse`).

  The loops are modelled as the source writes them, with `step <<= step` evaluated in one of
  three ways (`ShlSemantics`): over unbounded integers, as the release build does (shift amount
  masked to its low six bits, result wrapped to 64 bits), or as the debug build does (a shift
  amount of 64 or more panics; `none`). Each round of the growing loop raises `index` by
  `step ≥ 1` below `slice.len()`, so `slice.len()` rounds of fuel are enough; the shrinking loop
  halves `step`, so `step` rounds are enough.

  Proved:
  * `holdsAt_eq_decide`: on a monotone-false slice the loop guard at `i` is `i < n`, where `n`
    is the length of the `takeWhile` prefix. Every later fact is arithmetic on `n`.
  * `advance_eq_takeWhile`: over exact integers and in the release build, `advance` returns
    `slice.iter().take_while(function).count()`, which never exceeds `slice.len()`.
  * `advance_debug_panics`: in the debug build a slice of 2069 elements on which `function`
    holds drives `step` through `1, 2, 8, 2048` and then evaluates `2048 << 2048`, which panics.
-/

namespace DbspTrace.Layers

variable {α : Type}

/-- How `step <<= step` on a `usize` is evaluated. -/
inductive ShlSemantics where
  | exact
  | release
  | debug
  deriving DecidableEq, Repr

/-- `step <<= step`; `none` is the debug build's "attempt to shift left with overflow". -/
def shlStep : ShlSemantics → Nat → Option Nat
  | .exact, step => some (step <<< step)
  | .release, step => some ((step <<< (step % 64)) % 2 ^ 64)
  | .debug, step => if step < 64 then some ((step <<< step) % 2 ^ 64) else none

/-- `index < slice.len() && function(&slice[index])`. -/
def holdsAt (slice : List α) (function : α → Bool) (index : Nat) : Bool :=
  match slice[index]? with
  | some x => function x
  | none => false

/-- The growing loop of `advance`:
    `while index + step < slice.len() && function(&slice[index + step]) { index += step; step <<= step; }`. -/
def gallop (sem : ShlSemantics) (slice : List α) (function : α → Bool) :
    Nat → Nat → Nat → Option (Nat × Nat)
  | 0, index, step => some (index, step)
  | fuel + 1, index, step =>
    if holdsAt slice function (index + step) then
      (shlStep sem step).bind (gallop sem slice function fuel (index + step))
    else some (index, step)

/-- The shrinking loop of `advance`:
    `while step > 0 { if index + step < slice.len() && function(..) { index += step; } step >>= 1; }`. -/
def refine (slice : List α) (function : α → Bool) : Nat → Nat → Nat → Nat
  | 0, index, _ => index
  | fuel + 1, index, step =>
    if 0 < step then
      refine slice function fuel
        (if holdsAt slice function (index + step) then index + step else index) (step >>> 1)
    else index

/-- `advance(slice, function)` with `small_limit = 8`. -/
def advance (sem : ShlSemantics) (slice : List α) (function : α → Bool) : Option Nat :=
  if holdsAt slice function 8 then
    if holdsAt slice function 9 then
      (gallop sem slice function slice.length 9 1).map fun (index, step) =>
        refine slice function step index (step >>> 1) + 1
    else some 9
  else some ((slice.take 8).countP function)

/-! ## The precondition -/

/-- Once `function` is false along `slice` it stays false (the joint property `advance`
    relies on). -/
def MonotoneFalse (function : α → Bool) (slice : List α) : Prop :=
  slice.Pairwise fun a b => function b → function a

instance (function : α → Bool) (slice : List α) : Decidable (MonotoneFalse function slice) :=
  inferInstanceAs (Decidable (List.Pairwise _ _))

section Prefix

variable {function : α → Bool}

theorem getElem_iff_lt_takeWhile {slice : List α} (h : MonotoneFalse function slice) {i : Nat}
    (hi : i < slice.length) : function slice[i] = true ↔ i < (slice.takeWhile function).length := by
  induction slice generalizing i with
  | nil => simp at hi
  | cons x xs ih =>
    rw [MonotoneFalse, List.pairwise_cons] at h
    cases hx : function x with
    | true =>
      cases i with
      | zero => simp [List.takeWhile_cons, hx]
      | succ j => simp [List.takeWhile_cons, hx, ih h.2 (by simpa using hi)]
    | false =>
      cases i with
      | zero => simp [List.takeWhile_cons, hx]
      | succ j =>
        have hj : j < xs.length := by simpa using hi
        have hxs : function xs[j] = false := by
          cases hy : function xs[j]
          · rfl
          · simpa [hx] using h.1 _ (List.getElem_mem hj) hy
        simp [List.takeWhile_cons, hx, hxs]

/-- On a monotone-false slice the guard `index < slice.len() && function(&slice[index])` is
    `index < n` for the length `n` of the `takeWhile` prefix. -/
theorem holdsAt_eq_decide {slice : List α} (h : MonotoneFalse function slice) (i : Nat) :
    holdsAt slice function i = decide (i < (slice.takeWhile function).length) := by
  unfold holdsAt
  by_cases hi : i < slice.length
  · rw [List.getElem?_eq_getElem hi]
    exact Bool.eq_iff_iff.mpr ((getElem_iff_lt_takeWhile h hi).trans decide_eq_true_iff.symm)
  · have := (List.takeWhile_prefix function : slice.takeWhile function <+: slice).length_le
    rw [List.getElem?_eq_none (by omega)]
    simp only [Bool.false_eq, decide_eq_false_iff_not]
    omega

/-- The linear count of the small case, `slice[..limit].iter().filter(..).count()`. -/
theorem countP_take_eq_min {slice : List α} (h : MonotoneFalse function slice) (k : Nat) :
    (slice.take k).countP function = min k (slice.takeWhile function).length := by
  induction slice generalizing k with
  | nil => simp
  | cons x xs ih =>
    rw [MonotoneFalse, List.pairwise_cons] at h
    cases k with
    | zero => simp
    | succ k =>
      cases hx : function x with
      | true => simp [List.countP_cons, hx, ih h.2 k]; omega
      | false =>
        have hall : (xs.take k).countP function = 0 :=
          List.countP_eq_zero.mpr fun b hb hfb => by
            simpa [hx] using h.1 b (List.mem_of_mem_take hb) hfb
        simp [List.countP_cons, hx, hall]

end Prefix

/-! ## The two loops -/

/-- The values `step` takes in the growing loop: powers of two, below `2^64` in the release
    build. -/
def IsStep (sem : ShlSemantics) (step : Nat) : Prop :=
  ∃ k, step = 2 ^ k ∧ (sem = .release → k < 64)

theorem one_le_of_isStep {sem : ShlSemantics} {step : Nat} (h : IsStep sem step) : 1 ≤ step := by
  obtain ⟨k, rfl, -⟩ := h
  exact Nat.one_le_two_pow

theorem release_exponent_lt {k : Nat} (hk : k < 64) : k + 2 ^ k % 64 < 64 := by
  by_cases h6 : k < 6
  · interval_cases k <;> decide
  · have : 2 ^ k % 64 = 0 := by
      rw [show k = 6 + (k - 6) by omega, Nat.pow_add]
      exact Nat.mul_mod_right _ _
    omega

/-- Outside the debug build `step <<= step` maps a power of two to a power of two. -/
theorem shlStep_isStep {sem : ShlSemantics} (hsem : sem ≠ .debug) {step : Nat}
    (h : IsStep sem step) : ∃ step', shlStep sem step = some step' ∧ IsStep sem step' := by
  obtain ⟨k, rfl, hk⟩ := h
  cases sem with
  | exact => exact ⟨_, rfl, k + 2 ^ k, by rw [Nat.shiftLeft_eq, Nat.pow_add], nofun⟩
  | release =>
    have hk' := release_exponent_lt (hk rfl)
    refine ⟨_, rfl, k + 2 ^ k % 64, ?_, fun _ => hk'⟩
    rw [Nat.shiftLeft_eq, ← Nat.pow_add, Nat.mod_eq_of_lt (Nat.pow_lt_pow_right (by omega) hk')]
  | debug => exact absurd rfl hsem

/-- The values `step` takes in the shrinking loop: zero or a power of two. -/
def HalvingStep (step : Nat) : Prop :=
  step = 0 ∨ ∃ k, step = 2 ^ k

theorem halvingStep_shiftRight (k : Nat) : HalvingStep (2 ^ k >>> 1) := by
  cases k with
  | zero => exact .inl rfl
  | succ j => exact .inr ⟨j, by simp [Nat.shiftRight_eq_div_pow, Nat.pow_succ]⟩

theorem pow_two_eq_shiftRight (k : Nat) : (2 ^ k = 1 ∧ 2 ^ k >>> 1 = 0) ∨ 2 ^ k = 2 * (2 ^ k >>> 1) := by
  cases k with
  | zero => exact .inl ⟨rfl, rfl⟩
  | succ j => exact .inr (by simp [Nat.shiftRight_eq_div_pow, Nat.pow_succ]; omega)

section Loops

variable {sem : ShlSemantics} {slice : List α} {function : α → Bool} {n : Nat}

theorem gallop_spec (hsem : sem ≠ .debug) (hh : ∀ i, holdsAt slice function i = decide (i < n))
    (fuel index step : Nat) (hstep : IsStep sem step) (hlt : index < n) (hfuel : n ≤ fuel + index) :
    ∃ i s, gallop sem slice function fuel index step = some (i, s) ∧ i < n ∧ n ≤ i + s ∧
      IsStep sem s := by
  induction fuel generalizing index step with
  | zero => omega
  | succ fuel ih =>
    simp only [gallop, hh]
    by_cases hc : index + step < n
    · obtain ⟨s', hs', hok⟩ := shlStep_isStep hsem hstep
      have := one_le_of_isStep hstep
      rw [if_pos (decide_eq_true hc), hs', Option.some_bind]
      exact ih _ _ hok hc (by omega)
    · exact ⟨index, step, by simp [hc], hlt, by omega, hstep⟩

theorem refine_spec (hh : ∀ i, holdsAt slice function i = decide (i < n))
    (fuel index step : Nat) (hstep : HalvingStep step) (hlt : index < n)
    (hle : n ≤ index + max (2 * step) 1) (hfuel : step ≤ fuel) :
    refine slice function fuel index step + 1 = n := by
  induction fuel generalizing index step with
  | zero => simp only [refine]; omega
  | succ fuel ih =>
    simp only [refine, hh]
    split
    · obtain ⟨k, rfl⟩ := hstep.resolve_left (by omega)
      have hnext := halvingStep_shiftRight k
      have hpq := pow_two_eq_shiftRight k
      generalize 2 ^ k >>> 1 = q at hnext hpq ⊢
      generalize 2 ^ k = p at hpq hle hfuel ⊢
      by_cases hc : index + p < n
      · rw [if_pos (decide_eq_true hc)]
        exact ih _ _ hnext hc (by omega) (by omega)
      · rw [if_neg (by simpa using hc)]
        exact ih _ _ hnext hlt (by omega) (by omega)
    · omega

end Loops

/-! ## `advance` against `take_while` -/

theorem advance_of_monotoneFalse {sem : ShlSemantics} (hsem : sem ≠ .debug) {slice : List α}
    {function : α → Bool} (h : MonotoneFalse function slice) :
    advance sem slice function = some (slice.takeWhile function).length := by
  have hh := holdsAt_eq_decide h
  have hn := (List.takeWhile_prefix function : slice.takeWhile function <+: slice).length_le
  generalize hN : (slice.takeWhile function).length = n at hh hn ⊢
  unfold advance
  rw [hh 8, hh 9]
  by_cases h8 : 8 < n
  · by_cases h9 : 9 < n
    · obtain ⟨i, s, hg, hi, hs, k, rfl, -⟩ :=
        gallop_spec hsem hh slice.length 9 1 ⟨0, rfl, by omega⟩ h9 (by omega)
      simp only [decide_eq_true h8, decide_eq_true h9, ↓reduceIte, hg, Option.map_some']
      congr 1
      have hpq := pow_two_eq_shiftRight k
      have hnext := halvingStep_shiftRight k
      generalize 2 ^ k >>> 1 = q at hnext hpq ⊢
      generalize 2 ^ k = p at hpq hs ⊢
      exact refine_spec hh p i q hnext hi (by omega) (by omega)
    · simp only [decide_eq_true h8, decide_eq_false h9, Bool.false_eq_true, ↓reduceIte]
      congr 1
      omega
  · simp only [decide_eq_false h8, Bool.false_eq_true, ↓reduceIte, countP_take_eq_min h, hN]
    congr 1
    omega

/-- `advance` returns `slice.iter().take_while(function).count()` on every monotone-false
    slice, with `step <<= step` taken over exact integers and as the release build takes it;
    the count never exceeds `slice.len()`. -/
theorem advance_eq_takeWhile (slice : List α) (function : α → Bool)
    (h : MonotoneFalse function slice) :
    advance .exact slice function = some (slice.takeWhile function).length ∧
      advance .release slice function = some (slice.takeWhile function).length ∧
      (slice.takeWhile function).length ≤ slice.length :=
  ⟨advance_of_monotoneFalse (by decide) h, advance_of_monotoneFalse (by decide) h,
    (List.takeWhile_prefix function : slice.takeWhile function <+: slice).length_le⟩

theorem advance_eq_takeWhile_range :
    MonotoneFalse (· < 25) (List.range 40) ∧
      (advance .exact (List.range 40) (· < 25) = some ((List.range 40).takeWhile (· < 25)).length ∧
        advance .release (List.range 40) (· < 25) = some ((List.range 40).takeWhile (· < 25)).length ∧
        ((List.range 40).takeWhile (· < 25)).length ≤ (List.range 40).length) :=
  ⟨by decide, advance_eq_takeWhile _ _ (by decide)⟩

example : advance .release (List.range 40) (· < 25) = some 25 := by decide

/-! ## The debug build -/

theorem lt_length_of_holdsAt {slice : List α} {function : α → Bool} {i : Nat}
    (h : holdsAt slice function i = true) : i < slice.length := by
  unfold holdsAt at h
  by_contra hi
  rw [List.getElem?_eq_none (by omega)] at h
  exact Bool.false_ne_true h

theorem holdsAt_replicate (n : Nat) (a : α) (function : α → Bool) (i : Nat) :
    holdsAt (List.replicate n a) function i = (decide (i < n) && function a) := by
  unfold holdsAt
  rw [List.getElem?_replicate]
  by_cases h : i < n <;> simp [h]

/-- In the debug build `advance` panics on every slice whose first 2069 elements satisfy
    `function`: `step` runs through `1, 2, 8, 2048` and `2048 <<= 2048` overflows. -/
theorem advance_debug_eq_none {slice : List α} {function : α → Bool}
    (h : ∀ i < 2069, holdsAt slice function i = true) :
    advance .debug slice function = none := by
  obtain ⟨fuel, hf⟩ : ∃ fuel, slice.length = fuel + 4 :=
    ⟨slice.length - 4, by have := lt_length_of_holdsAt (h 2068 (by decide)); omega⟩
  simp only [advance, h 8 (by decide), h 9 (by decide), ↓reduceIte, hf, gallop, Nat.reduceAdd,
    h 10 (by decide), h 12 (by decide), h 20 (by decide), h 2068 (by decide), shlStep,
    Option.some_bind, Option.none_bind, Nat.reduceLT, Nat.reduceShiftLeft, Nat.reduceMod,
    Nat.reducePow, Option.map_none']

theorem advance_debug_panics :
    MonotoneFalse (fun _ => true) (List.replicate 2069 ()) ∧
      advance .debug (List.replicate 2069 ()) (fun _ => true) = none :=
  ⟨List.pairwise_of_forall fun _ _ _ => rfl, advance_debug_eq_none fun i hi => by
    rw [holdsAt_replicate, decide_eq_true hi]; rfl⟩

end DbspTrace.Layers
