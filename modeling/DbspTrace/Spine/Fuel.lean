import DbspTrace.Spine.Ops

/-
  The fuel `introduce_batch` hands each merge in progress,
  `let mut fuel = 8 << batch_index; fuel *= self.effort; let mut fuel = fuel as isize;`, on `usize`
  as the code computes it. `Spine.introduceBatch` takes it over exact integers; here it is also
  evaluated as the release build does (the shift amount masked to 6 bits, the product wrapped to
  64 bits, `as isize` reading the top bit as the sign) and as the debug build does (a shift
  amount of 64 or more, or a product of `2^64` or more, panics).

  Proved:
  * `introduceFuel_exact_range`: either build computes the exact fuel `8 * 2^i * effort` exactly
    when it is below `2^63`; from index 61 on both compute no fuel at all, whatever the effort.
    The exact-integer results about the spine therefore describe the compiled code on every run
    whose `introduce_batch` calls stay in that range.
-/

namespace DbspTrace

/-- An integer read as an `isize` (two's complement on 64 bits). -/
def wrapIsize (x : Int) : Int := (x + 2 ^ 63) % 2 ^ 64 - 2 ^ 63

/-- The fuel of `introduce_batch(_, batch_index)` with `self.effort = effort`, evaluated under
    `arith`. -/
def introduceFuel : Arith → Nat → Nat → Except String Int
  | .exact, effort, batchIndex => .ok ((8 * 2 ^ batchIndex * effort : Nat) : Int)
  | .release, effort, batchIndex =>
    .ok (wrapIsize ((8 * 2 ^ (batchIndex % 64) % 2 ^ 64 * effort % 2 ^ 64 : Nat) : Int))
  | .debug, effort, batchIndex =>
    if batchIndex < 64 then
      if 8 * 2 ^ batchIndex % 2 ^ 64 * effort < 2 ^ 64 then
        .ok (wrapIsize ((8 * 2 ^ batchIndex % 2 ^ 64 * effort : Nat) : Int))
      else .error "attempt to multiply with overflow"
    else .error "attempt to shift left with overflow"

theorem wrapIsize_lt (x : Int) : wrapIsize x < 2 ^ 63 := by
  unfold wrapIsize
  omega

theorem wrapIsize_natCast {n : Nat} (h : n < 2 ^ 63) : wrapIsize n = n := by
  rw [wrapIsize, Int.emod_eq_of_lt (by omega) (by omega)]
  omega

/-- The exact fuel is below `2^63` only at indices below 60. -/
theorem index_lt_of_fuel_lt {effort i : Nat} (he : 0 < effort) (h : 8 * 2 ^ i * effort < 2 ^ 63) :
    i < 60 := by
  have h1 : 2 ^ (i + 3) < 2 ^ 63 := by
    calc 2 ^ (i + 3) = 8 * 2 ^ i := by rw [Nat.pow_add]; ring
      _ ≤ 8 * 2 ^ i * effort := Nat.le_mul_of_pos_right _ he
      _ < 2 ^ 63 := h
  have := (Nat.pow_lt_pow_iff_right (by decide : 1 < 2)).mp h1
  omega

/-- `8 << i` is `0` on 64 bits from `i = 61` on. -/
theorem shl_eight_eq_zero {i : Nat} (h1 : 61 ≤ i) : 8 * 2 ^ i % 2 ^ 64 = 0 :=
  Nat.mod_eq_zero_of_dvd ⟨2 ^ (i - 61), by
    rw [show 8 * 2 ^ i = 2 ^ 3 * 2 ^ (61 + (i - 61)) by rw [Nat.add_sub_cancel' h1]; rfl,
      Nat.pow_add, ← Nat.mul_assoc, ← Nat.pow_add]⟩

/-- Whatever either build computes is a fuel below `2^63`. -/
theorem introduceFuel_lt {arith : Arith} {effort i : Nat} {x : Int} (harith : arith ≠ .exact)
    (h : introduceFuel arith effort i = .ok x) : x < 2 ^ 63 := by
  cases arith with
  | exact => exact absurd rfl harith
  | release => exact Except.ok.inj h ▸ wrapIsize_lt _
  | debug =>
    simp only [introduceFuel] at h
    split_ifs at h
    exact Except.ok.inj h ▸ wrapIsize_lt _

/-- An exact fuel below `2^63` is computed exactly: its index is below 60, so neither the shift
    nor the product wraps. -/
theorem introduceFuel_of_lt (arith : Arith) {effort i : Nat} (he : 0 < effort)
    (h : 8 * 2 ^ i * effort < 2 ^ 63) :
    introduceFuel arith effort i = .ok ((8 * 2 ^ i * effort : Nat) : Int) := by
  have hi := index_lt_of_fuel_lt he h
  have h8 : 8 * 2 ^ i % 2 ^ 64 = 8 * 2 ^ i :=
    Nat.mod_eq_of_lt (by have := Nat.le_mul_of_pos_right (8 * 2 ^ i) he; omega)
  cases arith with
  | exact => rfl
  | release =>
    rw [introduceFuel, Nat.mod_eq_of_lt (show i < 64 by omega), h8, Nat.mod_eq_of_lt (by omega),
      wrapIsize_natCast h]
  | debug =>
    rw [introduceFuel, if_pos (show i < 64 by omega), h8, if_pos (by omega), wrapIsize_natCast h]

/-- Over `usize`, `introduce_batch` computes the exact fuel `8 * 2^i * effort`, the one the spine's
    model takes, exactly when that fuel is below `2^63`: in the release build a larger one wraps
    (to a negative fuel at `2^63`), and in the debug build it wraps or panics. From index 61 on,
    `8 << batch_index` is `0` on 64 bits, so both builds hand the merges no fuel, whatever the
    effort. -/
theorem introduceFuel_exact_range (arith : Arith) {effort : Nat} (he : 0 < effort) (i : Nat) :
    (introduceFuel arith effort i = .ok ((8 * 2 ^ i * effort : Nat) : Int) ↔
      arith = .exact ∨ 8 * 2 ^ i * effort < 2 ^ 63) ∧
    (arith ≠ .exact → 61 ≤ i → i < 64 → introduceFuel arith effort i = .ok 0) := by
  refine ⟨⟨fun h => ?_, ?_⟩, fun harith h1 h2 => ?_⟩
  · by_cases hx : arith = .exact
    · exact .inl hx
    · exact .inr (by exact_mod_cast introduceFuel_lt hx h)
  · rintro (rfl | h)
    · rfl
    · exact introduceFuel_of_lt arith he h
  · cases arith with
    | exact => exact absurd rfl harith
    | release =>
      rw [introduceFuel, Nat.mod_eq_of_lt h2, shl_eight_eq_zero h1, Nat.zero_mul, Nat.zero_mod,
        wrapIsize_natCast (by norm_num)]
      rfl
    | debug =>
      rw [introduceFuel, if_pos h2, shl_eight_eq_zero h1, Nat.zero_mul, if_pos (by norm_num),
        wrapIsize_natCast (by norm_num)]
      rfl

/-- At `with_effort(1)`, a batch at index 59 gets its exact fuel `2^62` in the release build. -/
theorem introduceFuel_exact_range_release :
    0 < 1 ∧ ((introduceFuel .release 1 59 = .ok ((8 * 2 ^ 59 * 1 : Nat) : Int) ↔
      Arith.release = .exact ∨ 8 * 2 ^ 59 * 1 < 2 ^ 63) ∧
    (Arith.release ≠ .exact → 61 ≤ 59 → 59 < 64 → introduceFuel .release 1 59 = .ok 0)) :=
  ⟨by decide, introduceFuel_exact_range .release (by decide) 59⟩

end DbspTrace
