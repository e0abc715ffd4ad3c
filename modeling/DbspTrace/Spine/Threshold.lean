import DbspTrace.Spine.Ops

/-
  The threshold test of `tidy_layers`, `smaller <= (1 << length) / 8`, where `smaller` sums
  `1 << index` for each single and `2 << index` for each merge below `length - 2`. Its literals are
  untyped and so `i32`.

  Proved:
  * `fitsBelow_exact`: over exact integers the test compares the weight of the levels below
    (`weightFrom`, a single at level `i` weighing `2^i` and a merge `2^(i+1)`) with
    `2^length / 8`;
  * `tidyLayers_i32_eq_exact`: on a spine of at most 30 levels the release and debug builds
    decide as over exact integers;
  * `tidyLayers_shift_overflows`: from `with_effort(1)`, inserting batches of 2 and 1 tuples,
    `exert(2^30)` and inserting a batch of `2^29 + 1` tuples makes the last `tidy_layers`
    evaluate `1 << 32`, a debug-build panic, where exact arithmetic goes on.
-/

namespace DbspTrace

variable {B M T : Type} [Batch B M T]

/-- The records a level at `index` stands for in the spine's accounting: `2^index` for a single
    (even a structurally empty one), `2^(index+1)` for a merge. -/
def MergeState.weight (s : MergeState B M) (index : Nat) : Nat :=
  match s with
  | .vacant => 0
  | .single _ => 2 ^ index
  | .double _ => 2 ^ (index + 1)

/-- The records the levels `merging`, the first at `index`, stand for. -/
def weightFrom : Nat → List (MergeState B M) → Nat
  | _, [] => 0
  | index, s :: rest => s.weight index + weightFrom (index + 1) rest

theorem weightFrom_append (index : Nat) (xs ys : List (MergeState B M)) :
    weightFrom index (xs ++ ys) = weightFrom index xs + weightFrom (index + xs.length) ys := by
  induction xs generalizing index with
  | nil => simp [weightFrom]
  | cons s xs ih =>
    rw [List.cons_append, weightFrom, weightFrom, ih, List.length_cons,
      show index + 1 + xs.length = index + (xs.length + 1) by omega, Nat.add_assoc]

theorem weight_le (s : MergeState B M) (index : Nat) : s.weight index ≤ 2 ^ (index + 1) := by
  cases s <;> simp [MergeState.weight, Nat.pow_succ]

/-- The weight of `n` levels from `index` is below `2^(index + n + 1)`. -/
theorem weightFrom_lt (index : Nat) (merging : List (MergeState B M)) :
    weightFrom index merging + 2 ^ (index + 1) ≤ 2 ^ (index + merging.length + 1) := by
  induction merging generalizing index with
  | nil => simp [weightFrom]
  | cons s rest ih =>
    have h1 := weight_le s index
    have h2 := ih (index + 1)
    simp only [weightFrom, List.length_cons] at h2 ⊢
    rw [show index + (rest.length + 1) + 1 = index + 1 + rest.length + 1 by omega]
    have : 2 ^ (index + 1 + 1) = 2 * 2 ^ (index + 1) := by rw [Nat.pow_succ]; ring
    omega

namespace Spine

/-! ## Over exact integers -/

theorem smallerFrom_exact (index : Nat) (acc : Int) (merging : List (MergeState B M)) :
    smallerFrom .exact index acc merging = .ok (acc + weightFrom index merging) := by
  induction merging generalizing index acc with
  | nil => simp [smallerFrom, weightFrom]
  | cons s rest ih =>
    cases s <;>
      simp only [smallerFrom, weightFrom, MergeState.weight, shlI32, addI32, ih, bind, Except.bind,
        pure, Except.pure, Nat.cast_add, Nat.cast_pow, Nat.cast_ofNat, Nat.cast_zero, one_mul] <;>
      congr 1 <;> ring

/-- Over exact integers the test is `weight(below) ≤ 2^length / 8`. -/
theorem fitsBelow_exact (below : List (MergeState B M)) (length : Nat) :
    fitsBelow .exact below length = .ok (decide (weightFrom 0 below ≤ 2 ^ length / 8)) := by
  have : ((2 ^ length : Nat) : Int).tdiv 8 = ((2 ^ length / 8 : Nat) : Int) :=
    (Int.ofNat_tdiv _ 8).symm
  simp only [fitsBelow, smallerFrom_exact, shlI32, bind, Except.bind, pure, Except.pure, one_mul,
    zero_add]
  rw [show ((2 : Int) ^ length) = ((2 ^ length : Nat) : Int) by push_cast; rfl, this]
  simp only [Int.ofNat_le]

/-! ## The `i32` evaluation on small spines -/

theorem wrapI32_natCast {n : Nat} (h : n < 2 ^ 31) : wrapI32 n = n := by
  rw [wrapI32, Int.emod_eq_of_lt (by omega) (by omega)]
  omega

theorem shlI32_one (arith : Arith) {n : Nat} (h : n ≤ 30) :
    shlI32 arith 1 n = .ok ((2 ^ n : Nat) : Int) := by
  have hlt : 2 ^ n < 2 ^ 31 := Nat.pow_lt_pow_right (by decide) (by omega)
  have hc : (1 : Int) * 2 ^ n = ((2 ^ n : Nat) : Int) := by push_cast; ring
  cases arith with
  | exact => simp only [shlI32, hc]
  | release => simp only [shlI32, Nat.mod_eq_of_lt (show n < 32 by omega), hc, wrapI32_natCast hlt]
  | debug => simp only [shlI32, if_pos (show n < 32 by omega), hc, wrapI32_natCast hlt]

theorem shlI32_two (arith : Arith) {n : Nat} (h : n ≤ 29) :
    shlI32 arith 2 n = .ok ((2 ^ (n + 1) : Nat) : Int) := by
  have hlt : 2 ^ (n + 1) < 2 ^ 31 := Nat.pow_lt_pow_right (by decide) (by omega)
  have hc : (2 : Int) * 2 ^ n = ((2 ^ (n + 1) : Nat) : Int) := by push_cast; ring
  cases arith with
  | exact => simp only [shlI32, hc]
  | release => simp only [shlI32, Nat.mod_eq_of_lt (show n < 32 by omega), hc, wrapI32_natCast hlt]
  | debug => simp only [shlI32, if_pos (show n < 32 by omega), hc, wrapI32_natCast hlt]

theorem addI32_natCast (arith : Arith) {a b : Nat} (h : a + b < 2 ^ 31) :
    addI32 arith a b = .ok ((a + b : Nat) : Int) := by
  cases arith with
  | exact => simp [addI32]
  | release => simp only [addI32, ← Nat.cast_add, wrapI32_natCast h]
  | debug => simp only [addI32]; rw [if_pos (by omega)]; simp

/-- On at most 30 levels, `smaller`'s `i32` sum is the exact weight. -/
theorem smallerFrom_small (arith : Arith) (index acc : Nat) (merging : List (MergeState B M))
    (hacc : acc < 2 ^ (index + 1)) (hlen : index + merging.length ≤ 30) :
    smallerFrom arith index acc merging = .ok ((acc + weightFrom index merging : Nat) : Int) := by
  induction merging generalizing index acc with
  | nil => simp [smallerFrom, weightFrom]
  | cons s rest ih =>
    simp only [List.length_cons] at hlen
    have hpow : 2 ^ (index + 1 + 1) = 2 ^ (index + 1) + 2 ^ (index + 1) := by rw [Nat.pow_succ]; ring
    have h31 : 2 ^ (index + 1 + 1) ≤ 2 ^ 31 := Nat.pow_le_pow_right (by decide) (by omega)
    have hstep : ∀ w, w ≤ 2 ^ (index + 1) → acc + w < 2 ^ (index + 1 + 1) := fun w hw => by omega
    have hi : 2 ^ index ≤ 2 ^ (index + 1) := Nat.pow_le_pow_right (by decide) (by omega)
    cases s with
    | vacant =>
      simpa only [smallerFrom, weightFrom, MergeState.weight, Nat.zero_add, bind, Except.bind, pure,
        Except.pure, Nat.add_zero] using ih (index + 1) acc (by omega) (by omega)
    | single b =>
      simp only [smallerFrom, shlI32_one arith (show index ≤ 30 by omega), bind, Except.bind,
        addI32_natCast arith (show acc + 2 ^ index < 2 ^ 31 by have := hstep _ hi; omega),
        ih (index + 1) (acc + 2 ^ index) (hstep _ hi) (by omega), weightFrom, MergeState.weight,
        Nat.add_assoc]
    | double v =>
      simp only [smallerFrom, shlI32_two arith (show index ≤ 29 by omega), bind, Except.bind,
        addI32_natCast arith (show acc + 2 ^ (index + 1) < 2 ^ 31 by have := hstep _ le_rfl; omega),
        ih (index + 1) (acc + 2 ^ (index + 1)) (hstep _ le_rfl) (by omega), weightFrom,
        MergeState.weight, Nat.add_assoc]

/-- On at most 30 levels the test decides in the release and debug builds as over exact
    integers. -/
theorem fitsBelow_small (arith : Arith) (below : List (MergeState B M)) {length : Nat}
    (hb : below.length ≤ 30) (hl : length ≤ 30) :
    fitsBelow arith below length = fitsBelow .exact below length := by
  have hs : ∀ a : Arith, smallerFrom a 0 0 below = .ok (weightFrom 0 below : Int) := fun a => by
    simpa using smallerFrom_small a 0 0 below (by decide) (by omega)
  simp only [fitsBelow, hs, shlI32_one arith hl, shlI32_one .exact hl, bind, Except.bind]

theorem tidyDown_small (arith : Arith) (level : Nat) (top : Option B) :
    ∀ rbelow : List (MergeState B M), rbelow.length + 1 ≤ 30 →
      tidyDown arith level top rbelow = tidyDown .exact level top rbelow
  | [], _ => rfl
  | s :: rbelow, h => by
    simp only [List.length_cons] at h
    have ih := tidyDown_small arith level top rbelow (by omega)
    simp only [tidyDown, fitsBelow_small arith rbelow.reverse (by simpa using (by omega : rbelow.length ≤ 30))
      (show rbelow.length + 2 ≤ 30 by omega), ih]

/-- On a spine of at most 30 levels, `tidy_layers` does in the release and debug builds what it
    does over exact integers. -/
theorem tidyLayers_i32_eq_exact (arith : Arith) (merging : List (MergeState B M))
    (h : merging.length ≤ 30) : tidyLayers arith merging = tidyLayers .exact merging := by
  unfold tidyLayers
  split
  · next top rbelow hrev =>
    have : rbelow.length + 1 = merging.length := by
      simpa using congrArg List.length hrev.symm
    exact tidyDown_small arith _ top rbelow (by omega)
  · rfl

/-- Three levels in the debug build: `tidy_layers` draws the single of one update down into a
    merge with the single at level 0, as over exact integers. -/
theorem tidyLayers_i32_eq_exact_debug :
    ([.single (some ⟨1⟩), .vacant, .single (some ⟨1⟩)] : List (MergeState CountBatch Nat)).length ≤ 30 ∧
    tidyLayers .debug ([.single (some ⟨1⟩), .vacant, .single (some ⟨1⟩)] :
        List (MergeState CountBatch Nat)) =
      tidyLayers .exact [.single (some ⟨1⟩), .vacant, .single (some ⟨1⟩)] :=
  ⟨by decide, tidyLayers_i32_eq_exact .debug _ (by decide)⟩

end Spine

/-! ## Thirty-two levels -/

/-- From `with_effort(1)`: a batch of 2 tuples, one of 1 tuple, `exert(2^30)` and a batch of
    `2^29 + 1` tuples. The exert rolls both batches up to level 30 and the last insert moves that
    batch to level 31 under the new one at level 30, so `tidy_layers` sees 32 levels and evaluates
    `1 << 32`: the debug build panics, where exact arithmetic merges the two batches. Below 31
    levels no build diverges (`tidyLayers_i32_eq_exact`). -/
theorem tidyLayers_shift_overflows :
    (Spine.withEffort 1 : Spine CountBatch Nat).run .debug
        [.insert ⟨2⟩, .insert ⟨1⟩, .exert (2 ^ 30), .insert ⟨2 ^ 29 + 1⟩] =
      .error "attempt to shift left with overflow" ∧
    (Spine.withEffort 1 : Spine CountBatch Nat).run .exact
        [.insert ⟨2⟩, .insert ⟨1⟩, .exert (2 ^ 30), .insert ⟨2 ^ 29 + 1⟩] =
      .ok ⟨List.replicate 30 .vacant ++ [.double (.inProgress ⟨3⟩ ⟨2 ^ 29 + 1⟩ 0)], 1,
        true⟩ :=
  ⟨rfl, rfl⟩

end DbspTrace
