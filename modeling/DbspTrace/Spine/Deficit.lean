import DbspTrace.Spine.Sizes

/-
  The fuel discipline of the spine, in the words of the module comment of
  `trace/spine_fueled.rs`: every merge in progress is handed enough fuel to complete before the
  levels below it can fill up and have to push a batch into it.

  The accounting is by weight (`MergeState.weight`): a single at level `k` stands for `2^k`
  records and a merge for `2^(k+1)`. `MergeState.Fueled credit k W` is the discipline at a level
  `k` with levels of weight `W` under it: a merge there has `W < 2^k`, so the levels below can
  complete a merge into it only after it is gone; and a merge in progress that still needs `d`
  fuel (its inputs' updates less the fuel handed so far) has `d + credit ≤ 4 (2^k - W)`: each of
  the `2^k - W` records the levels below may still gain comes with `(8 << L) * effort ≥ 4` fuel.

  The discipline needs three things of the batch type (`MergeLaws`): `LenLaws`, and a merger
  that finishes no later than the call at which the fuel it has been handed exceeds the updates
  of its inputs. It needs the fuel of `introduce_batch` and the threshold of `tidy_layers` over
  exact integers, and fewer than `isize::MAX` updates inserted in all, so that
  `MergeVariant::complete` with `isize::MAX` fuel always finishes.

  Proved:
  * `fueled_applyFuel`: `apply_fuel` never panics, and leaves every merge in progress with its
    fuel as credit and no completed merge;
  * `disciplined_introduceBatch`: the roll-up, the insertion and the tidying after it never
    panic and restore the discipline (`Spine.Disciplined`), which every public operation keeps;
  * `run_never_panics`: from `with_effort(e)`, no sequence of inserts, exerts and `recede_to`
    calls, nor a `consolidate` after it, panics;
  * `inflating_merge_panics`: a merger that finishes in time but whose merges outgrow their
    inputs leads to an insertion into an incomplete merge.
-/

namespace DbspTrace

variable {B M T : Type} [Batch B M T]

/-- What the fuel discipline needs of a batch type. -/
structure MergeLaws (B M T : Type) [Batch B M T] extends LenLaws B M T : Prop where
  /-- A merger finishes no later than the call at which the fuel handed to it exceeds the
      updates of its inputs. -/
  finishes : ∀ {b1 b2 : B} {m : M} {h : Int} (fuel : Int), MergerRun b1 b2 m h →
    (Batch.len b1 + Batch.len b2 : Int) < h + fuel → 0 < (Batch.work m b1 b2 fuel).2

/-- `OrdIndexedZSet`, as `CountBatch` models it, obeys the laws: its merger finishes on its
    first call. -/
theorem countBatch_mergeLaws : MergeLaws CountBatch Nat Unit :=
  ⟨countBatch_lenLaws, fun _ _ _ => lt_max_of_lt_right (by decide)⟩

/-- A merger that copies one update per unit of fuel obeys the laws: once handed more fuel than
    its inputs hold, it has more fuel than updates left to copy. -/
theorem copyBatch_mergeLaws : MergeLaws CopyBatch Int Unit :=
  ⟨copyBatch_lenLaws, fun fuel hr hlt => by
    have := CopyBatch.mergerRun_bounds hr
    simp only [Batch.work, Batch.len] at hlt ⊢
    omega⟩

/-- The fuel discipline at a level at `index` with levels of weight `below` under it, `credit`
    fuel handed beyond what it requires. -/
def MergeState.Fueled (credit : Int) (index below : Nat) : MergeState B M → Prop
  | .double (.inProgress b1 b2 m) => below < 2 ^ index ∧ ∃ h : Int, 0 ≤ h ∧ MergerRun b1 b2 m h ∧
      h ≤ Batch.len b1 + Batch.len b2 ∧
      Batch.len b1 + Batch.len b2 + credit ≤ h + 4 * (2 ^ index - below : Int)
  | .double (.completed _) => below < 2 ^ index
  | _ => True

/-- The fuel discipline at every level of `merging`, the first at `index` with levels of weight
    `below` under it. -/
def FueledFrom (credit : Int) : Nat → Nat → List (MergeState B M) → Prop
  | _, _, [] => True
  | index, below, s :: rest =>
    s.Fueled credit index below ∧ FueledFrom credit (index + 1) (below + s.weight index) rest

/-- The updates held by the levels. -/
def lenSum (merging : List (MergeState B M)) : Nat := (merging.map MergeState.len).sum

@[simp] theorem lenSum_nil : lenSum ([] : List (MergeState B M)) = 0 := rfl

theorem lenSum_cons (s : MergeState B M) (rest : List (MergeState B M)) :
    lenSum (s :: rest) = s.len + lenSum rest := by simp [lenSum]

theorem lenSum_append (xs ys : List (MergeState B M)) :
    lenSum (xs ++ ys) = lenSum xs + lenSum ys := by simp [lenSum]

@[simp] theorem lenSum_replicate_vacant (n : Nat) :
    lenSum (List.replicate n (.vacant : MergeState B M)) = 0 := by
  simp [lenSum, List.sum_replicate, MergeState.len]

/-! ## Weights and credit -/

namespace MergeState

variable {credit : Int} {index below : Nat} {s s' : MergeState B M}

@[simp] theorem weight_vacant (index : Nat) : (vacant : MergeState B M).weight index = 0 := rfl

theorem weight_work (fuel : Int) : (s.work fuel).weight index = s.weight index := by
  rcases s with _ | _ | v <;> rfl

theorem weight_insertSlot {batch : Option B} (h : Spine.insertSlot batch s = .ok s') :
    s'.weight index = s.weight index + 2 ^ index := by
  rcases s with _ | old | v
  · cases h
    simp [weight]
  · cases h
    rcases old with _ | _ <;> rcases batch with _ | _ <;> simp [beginMerge, weight, Nat.two_pow_succ]
  · cases h

@[simp] theorem weight_beginMerge (b1 b2 : Option B) :
    (beginMerge b1 b2 : MergeState B M).weight index = 2 ^ (index + 1) := by
  rcases b1 with _ | _ <;> rcases b2 with _ | _ <;> rfl

theorem Fueled.mono {c c' : Int} (hc : c' ≤ c) (hs : s.Fueled c index below) :
    s.Fueled c' index below := by
  rcases s with _ | _ | (⟨b1, b2, m⟩ | b)
  · trivial
  · trivial
  · obtain ⟨hb, h, h0, hr, hle, hf⟩ := hs
    exact ⟨hb, h, h0, hr, hle, by omega⟩
  · exact hs

/-- More weight below a merge in progress uses up four times as much credit. -/
theorem Fueled.shift (hs : s.Fueled credit index below) (hc : s.isComplete = false) {d : Nat}
    (hd : 4 * (d : Int) < credit) {below' : Nat} (hb : below' ≤ below + d) :
    s.Fueled 0 index below' := by
  rcases s with _ | _ | (⟨b1, b2, m⟩ | b)
  · trivial
  · trivial
  · obtain ⟨-, h, h0, hr, hle, hf⟩ := hs
    refine ⟨?_, h, h0, hr, hle, ?_⟩
    · have : (below' : Int) < 2 ^ index := by omega
      exact_mod_cast this
    · omega
  · cases hc

/-- A fresh merge of two batches of at most `2^index` updates keeps the discipline when the
    levels below weigh at most `2^(index+1) / 4`. -/
theorem fueled_beginMerge {b1 b2 : Option B} (h1 : optLen b1 ≤ 2 ^ index)
    (h2 : optLen b2 ≤ 2 ^ index) (hb : 4 * below ≤ 2 ^ (index + 1)) :
    (beginMerge b1 b2 : MergeState B M).Fueled 0 index below := by
  have hlt : below < 2 ^ index := by
    have : 1 ≤ 2 ^ index := Nat.one_le_two_pow
    rw [Nat.two_pow_succ] at hb
    omega
  rcases b1 with _ | b1 <;> rcases b2 with _ | b2
  · exact hlt
  · exact hlt
  · exact hlt
  · simp only [optLen_some] at h1 h2
    refine ⟨hlt, 0, le_rfl, .begin, by positivity, ?_⟩
    have h1' : (Batch.len b1 : Int) ≤ 2 ^ index := by exact_mod_cast h1
    have h2' : (Batch.len b2 : Int) ≤ 2 ^ index := by exact_mod_cast h2
    have hb' : (4 * below : Int) ≤ 2 ^ index + 2 ^ index := by
      rw [Nat.two_pow_succ] at hb; exact_mod_cast hb
    omega

end MergeState

namespace MergeState

variable {credit : Int} {index below : Nat} {s s' : MergeState B M}

@[simp] theorem len_vacant : (vacant : MergeState B M).len = 0 := rfl

@[simp] theorem len_single (b : Option B) : (single b : MergeState B M).len = optLen b := by
  cases b <;> rfl

theorem len_beginMerge (b1 b2 : Option B) :
    (beginMerge b1 b2 : MergeState B M).len = optLen b1 + optLen b2 := by
  rcases b1 with _ | _ <;> rcases b2 with _ | _ <;> simp [beginMerge, len]

theorem len_insertSlot {batch : Option B} (h : Spine.insertSlot batch s = .ok s') :
    s'.len = s.len + optLen batch := by
  rcases s with _ | old | v
  · cases h
    rw [len_single]
    exact (Nat.zero_add _).symm
  · cases h
    rw [len_beginMerge, len_single]
  · cases h

@[simp] theorem len_completed (b : Option B) :
    (double (.completed b) : MergeState B M).len = optLen b := by
  cases b <;> rfl

/-- A step of a merge does not lengthen the level. -/
theorem len_work (hl : LenLaws B M T) (hs : s.Sized index) (fuel : Int) :
    (s.work fuel).len ≤ s.len := by
  rcases s with _ | _ | (⟨b1, b2, m⟩ | b)
  · exact le_rfl
  · exact le_rfl
  · obtain ⟨-, -, h, hr⟩ := hs
    simp only [MergeState.work, MergeVariant.work_inProgress]
    split_ifs with hpos
    · simpa [len] using hl.done_len fuel hr hpos
    · exact le_rfl
  · exact le_rfl

theorem one_le_weight (index : Nat) (h : s.isVacant = false) : 1 ≤ s.weight index := by
  rcases s with _ | _ | _
  · cases h
  · exact Nat.one_le_two_pow
  · exact Nat.one_le_two_pow

/-- The discipline rules out a merge at a level whose merges would need more credit than there
    is. -/
theorem Fueled.not_isDouble (hs : s.Fueled credit index below) (hc : s.isComplete = false)
    (hlt : 4 * 2 ^ index < credit + 4 * below) : s.isDouble = false := by
  rcases s with _ | _ | (⟨b1, b2, m⟩ | b)
  · rfl
  · rfl
  · obtain ⟨-, h, -, -, hle, hf⟩ := hs
    omega
  · cases hc

/-- A merge that `begin_merge` starts completes with `isize::MAX` fuel when its inputs hold fewer
    than `isize::MAX` updates. -/
theorem complete_beginMerge (hl : MergeLaws B M T) (b1 b2 : Option B)
    (hbud : (optLen b1 + optLen b2 : Int) < isizeMax) :
    ∃ b, (beginMerge b1 b2 : MergeState B M).complete = .ok b ∧ optLen b ≤ optLen b1 + optLen b2 := by
  rcases b1 with _ | b1 <;> rcases b2 with _ | b2
  · exact ⟨_, rfl, le_rfl⟩
  · exact ⟨_, rfl, by simp⟩
  · exact ⟨_, rfl, by simp⟩
  · simp only [optLen_some] at hbud
    have hpos := hl.finishes isizeMax (MergerRun.begin : MergerRun b1 b2 _ 0) (by omega)
    refine ⟨some (Batch.done (Batch.work (Batch.beginMerge b1 b2) b1 b2 isizeMax).1), ?_,
      hl.done_len isizeMax .begin hpos⟩
    simp only [beginMerge, complete, MergeVariant.complete, MergeVariant.work_inProgress, if_pos hpos]

/-- A batch of at most `2^index` updates moves into a level at `index` that is not a merge and
    keeps the discipline there when the levels below weigh at most `2^(index+1) / 4`. -/
theorem insertSlot_fueled (hd : s.isDouble = false) (hs : s.Sized index) {b : Option B}
    (hb : optLen b ≤ 2 ^ index) (hbelow : 4 * below ≤ 2 ^ (index + 1)) :
    ∃ s', Spine.insertSlot b s = .ok s' ∧ s'.Fueled 0 index below := by
  rcases s with _ | old | v
  · exact ⟨_, rfl, trivial⟩
  · exact ⟨_, rfl, fueled_beginMerge hs hb hbelow⟩
  · cases hd

end MergeState

open MergeState

section Lists

variable {credit : Int} {index below : Nat}

@[simp] theorem fueledFrom_nil : FueledFrom credit index below ([] : List (MergeState B M)) :=
  trivial

@[simp] theorem fueledFrom_cons {s : MergeState B M} {rest : List (MergeState B M)} :
    FueledFrom credit index below (s :: rest) ↔
      s.Fueled credit index below ∧ FueledFrom credit (index + 1) (below + s.weight index) rest :=
  Iff.rfl

theorem fueledFrom_append (xs ys : List (MergeState B M)) :
    FueledFrom credit index below (xs ++ ys) ↔ FueledFrom credit index below xs ∧
      FueledFrom credit (index + xs.length) (below + weightFrom index xs) ys := by
  induction xs generalizing index below with
  | nil => simp [weightFrom]
  | cons s xs ih =>
    simp [ih, weightFrom, and_assoc, Nat.add_right_comm index 1, Nat.add_assoc]

theorem fueledFrom_replicate_vacant (n : Nat) :
    FueledFrom credit index below (List.replicate n (.vacant : MergeState B M)) := by
  induction n generalizing index with
  | zero => trivial
  | succ n ih => exact ⟨trivial, by simpa using ih⟩

@[simp] theorem weightFrom_replicate_vacant (n : Nat) :
    weightFrom index (List.replicate n (.vacant : MergeState B M)) = 0 := by
  induction n generalizing index with
  | zero => rfl
  | succ n ih => simp [weightFrom, ih]

theorem FueledFrom.mono {c c' : Int} (hc : c' ≤ c) :
    ∀ {index below} {merging : List (MergeState B M)},
      FueledFrom c index below merging → FueledFrom c' index below merging
  | _, _, [], _ => trivial
  | _, _, _ :: _, h => ⟨h.1.mono hc, FueledFrom.mono hc h.2⟩

/-- Levels with no completed merge that had `credit` keep the discipline under up to `d` more
    weight below them when `4 d < credit`. -/
theorem FueledFrom.shift {d : Nat} (hd : 4 * (d : Int) < credit) :
    ∀ {index below below'} {merging : List (MergeState B M)},
      FueledFrom credit index below merging → AllLevels (fun _ s => s.isComplete = false) index merging →
        below' ≤ below + d → FueledFrom 0 index below' merging
  | _, _, _, [], _, _, _ => trivial
  | _, _, _, _ :: _, h, hc, hb =>
    ⟨h.1.shift hc.1 hd hb, FueledFrom.shift hd h.2 hc.2 (by omega)⟩


theorem fueledFrom_padTo {c : Int} (index : Nat) {merging : List (MergeState B M)}
    (h : FueledFrom c 0 0 merging) : FueledFrom c 0 0 (Spine.padTo index merging) :=
  (fueledFrom_append _ _).mpr ⟨h, fueledFrom_replicate_vacant _⟩

theorem allLevels_padTo {P : Nat → MergeState B M → Prop} (index : Nat)
    {merging : List (MergeState B M)} (h : AllLevels P 0 merging) (hv : ∀ i, P i .vacant) :
    AllLevels P 0 (Spine.padTo index merging) :=
  (allLevels_append _ _).mpr ⟨h, allLevels_replicate_vacant hv _⟩

theorem lenSum_padTo (index : Nat) (merging : List (MergeState B M)) :
    lenSum (Spine.padTo index merging) = lenSum merging := by
  simp [Spine.padTo, lenSum_append]

theorem fueledFrom_vacants_cons {c : Int} {L : Nat} {s : MergeState B M}
    {rest : List (MergeState B M)} :
    FueledFrom c 0 0 (List.replicate L .vacant ++ s :: rest) ↔
      s.Fueled c L 0 ∧ FueledFrom c (L + 1) (s.weight L) rest := by
  simp [fueledFrom_append, fueledFrom_replicate_vacant]

/-- Levels up to `L` hold no merge once every merge in progress has `8 << L` fuel as credit and
    none is complete. -/
theorem FueledFrom.not_isDouble {c : Int} {L : Nat} (hc : 8 * 2 ^ L ≤ c) :
    ∀ {index below : Nat} {xs : List (MergeState B M)}, FueledFrom c index below xs →
      AllLevels (fun _ s => s.isComplete = false) index xs → index + xs.length ≤ L + 1 →
        AllLevels (fun _ s => s.isDouble = false) index xs
  | _, _, [], _, _, _ => trivial
  | index, below, s :: xs, hf, hcx, hlen => by
    simp only [List.length_cons] at hlen
    have h1 : (2 : Int) ^ index ≤ 2 ^ L := by
      exact_mod_cast Nat.pow_le_pow_right (by decide) (by omega)
    have h2 : (1 : Int) ≤ 2 ^ L := by exact_mod_cast Nat.one_le_two_pow
    exact ⟨hf.1.not_isDouble hcx.1 (by omega),
      FueledFrom.not_isDouble hc hf.2 hcx.2 (by omega)⟩

theorem one_le_weightFrom (index : Nat) :
    ∀ {xs : List (MergeState B M)}, xs.any (fun m => !m.isVacant) = true → 1 ≤ weightFrom index xs
  | s :: xs, h => by
    simp only [List.any_cons, Bool.or_eq_true] at h
    simp only [weightFrom]
    rcases h with h | h
    · have := one_le_weight index (show s.isVacant = false by simpa using h)
      omega
    · have := one_le_weightFrom (index + 1) h
      omega

theorem eq_replicate_of_all_vacant {xs : List (MergeState B M)}
    (h : (xs.any fun m => !m.isVacant) = false) : xs = List.replicate xs.length .vacant :=
  List.eq_replicate_iff.mpr ⟨rfl, fun b hb => by
    have := List.any_eq_false.mp h b hb
    cases b <;> simp_all [isVacant]⟩

/-- The weight a roll-up can add above `L + 1` costs less than `8 << L` fuel. -/
theorem four_mul_lt_of_eight_le {L : Nat} {F : Int} (hF : 8 * 2 ^ L ≤ F) :
    4 * ((2 ^ (L + 1) - 1 : Nat) : Int) < F := by
  rw [Nat.cast_sub Nat.one_le_two_pow]
  push_cast [pow_succ]
  omega

end Lists

/-! ## `apply_fuel` -/

namespace MergeState

variable {credit : Int} {index below : Nat} {s : MergeState B M}

theorem isComplete_iff : s.isComplete = true ↔ ∃ b, s = .double (.completed b) := by
  rcases s with _ | _ | (_ | b) <;> simp [isComplete]

@[simp] theorem complete_completed (b : Option B) :
    (double (.completed b) : MergeState B M).complete = .ok b := rfl

@[simp] theorem isDouble_work (fuel : Int) : (s.work fuel).isDouble = s.isDouble := by
  rcases s with _ | _ | v <;> rfl

theorem Fueled.below_lt (hs : s.Fueled credit index below) (hd : s.isDouble = true) :
    below < 2 ^ index := by
  rcases s with _ | _ | (_ | _)
  · cases hd
  · cases hd
  · exact hs.1
  · exact hs

/-- A step of a merge that does not complete it turns the fuel into credit. -/
theorem Fueled.work (hl : MergeLaws B M T) (hs : s.Fueled 0 index below) {fuel : Int}
    (hfuel : 0 ≤ fuel) (hc : (s.work fuel).isComplete = false) : (s.work fuel).Fueled fuel index below := by
  rcases s with _ | _ | (⟨b1, b2, m⟩ | b)
  · trivial
  · trivial
  · obtain ⟨hb, h, h0, hr, hle, hf⟩ := hs
    simp only [MergeState.work, MergeVariant.work_inProgress] at hc ⊢
    split_ifs at hc ⊢ with hpos
    · cases hc
    · have hfin : h + fuel ≤ Batch.len b1 + Batch.len b2 :=
        not_lt.mp fun hlt => hpos (hl.finishes fuel hr hlt)
      exact ⟨hb, h + fuel, by omega, hr.work fuel (not_lt.mp hpos), hfin, by omega⟩
  · cases hc

end MergeState

namespace Spine

/-- One pass of `apply_fuel` with fuel `fuel ≥ 0` from the level `s` at `index`, with levels of
    weight `below` under it, never panics: a merge that completes moves into a level that is not
    a merge, for that level's discipline would have it weigh less than the completed merge below
    it. Afterwards every merge in progress has the fuel as credit, and none is complete. -/
theorem fueled_applyFuelFrom (hl : MergeLaws B M T) {fuel : Int} (hfuel : 0 ≤ fuel) :
    ∀ {rest : List (MergeState B M)} {s : MergeState B M} {index below : Nat},
      s.Sized index → AllLevels MergeState.Sized (index + 1) rest →
      s.Fueled 0 index below → FueledFrom 0 (index + 1) (below + s.weight index) rest →
      ∃ merging', applyFuelFrom fuel s rest = .ok merging' ∧
        FueledFrom fuel index below merging' ∧
        AllLevels (fun _ s => s.isComplete = false) index merging' ∧
        lenSum merging' ≤ s.len + lenSum rest
  | [], s, index, below, hs, _, hf, _ => by
    have hlen := len_work hl.toLenLaws hs fuel
    simp only [applyFuelFrom]
    split_ifs with hc
    · obtain ⟨c, hwc⟩ := isComplete_iff.mp hc
      rw [hwc, len_completed] at hlen
      rw [hwc]
      exact ⟨_, rfl, ⟨trivial, trivial, trivial⟩, ⟨rfl, rfl, trivial⟩, by simpa [lenSum_cons] using hlen⟩
    · have hc' := Bool.eq_false_iff.mpr hc
      exact ⟨_, rfl, ⟨hf.work hl hfuel hc', trivial⟩, ⟨hc', trivial⟩,
        by simpa [lenSum_cons] using hlen⟩
  | next :: rest, s, index, below, hs, hrest, hf, hfrest => by
    have hlen := len_work hl.toLenLaws hs fuel
    simp only [applyFuelFrom]
    split_ifs with hc
    · obtain ⟨c, hwc⟩ := isComplete_iff.mp hc
      rw [hwc, len_completed] at hlen
      have hsd : s.isDouble = true := by rw [← isDouble_work fuel, hwc]; rfl
      have hws : s.weight index = 2 ^ (index + 1) := by
        rcases s with _ | _ | _ <;> first | rfl | cases hsd
      have hlt := hf.below_lt hsd
      have hcs : optLen c ≤ 2 ^ (index + 1) := by
        have := hs.work hl.toLenLaws fuel
        rwa [hwc] at this
      obtain ⟨hnext, hnexts⟩ := hfrest
      have hnd : next.isDouble = false := by
        by_contra hnd
        have := hnext.below_lt (by simpa using hnd)
        omega
      obtain ⟨next', hins, hfn⟩ := insertSlot_fueled hnd hrest.1 hcs
        (show 4 * below ≤ 2 ^ (index + 1 + 1) by rw [pow_succ, pow_succ]; omega)
      have hw : below + next'.weight (index + 1) =
          below + s.weight index + next.weight (index + 1) := by
        rw [weight_insertSlot hins, hws]; omega
      obtain ⟨m', hm', hfm', hcm', hlm'⟩ := fueled_applyFuelFrom hl hfuel
        (hrest.1.insertSlot hcs hins) hrest.2 hfn (by rwa [hw])
      refine ⟨.vacant :: m', ?_, ⟨trivial, by simpa using hfm'⟩, ⟨rfl, hcm'⟩, ?_⟩
      · simp only [hwc, complete_completed, ok_bind, hins, hm', fmap_ok]
      · have := len_insertSlot hins
        simp only [lenSum_cons, len_vacant] at hlm' ⊢
        omega
    · have hc' := Bool.eq_false_iff.mpr hc
      obtain ⟨m', hm', hfm', hcm', hlm'⟩ :=
        fueled_applyFuelFrom hl hfuel hrest.1 hrest.2 hfrest.1 hfrest.2
      refine ⟨s.work fuel :: m', by rw [hm']; rfl, ⟨hf.work hl hfuel hc', by rwa [weight_work]⟩,
        ⟨hc', hcm'⟩, ?_⟩
      simp only [lenSum_cons] at hlm' ⊢
      omega

/-- `apply_fuel` with fuel `fuel ≥ 0` on disciplined levels never panics, and leaves every
    merge in progress with the fuel as credit and no completed merge. -/
theorem fueled_applyFuel (hl : MergeLaws B M T) {fuel : Int} (hfuel : 0 ≤ fuel)
    {merging : List (MergeState B M)} (hs : AllLevels MergeState.Sized 0 merging)
    (hf : FueledFrom 0 0 0 merging) :
    ∃ merging', applyFuel fuel merging = .ok merging' ∧ FueledFrom fuel 0 0 merging' ∧
      AllLevels (fun _ s => s.isComplete = false) 0 merging' ∧ lenSum merging' ≤ lenSum merging := by
  cases merging with
  | nil => exact ⟨[], rfl, trivial, trivial, le_rfl⟩
  | cons s rest =>
    simpa [lenSum_cons] using fueled_applyFuelFrom hl hfuel hs.1 hs.2 hf.1 (by simpa using hf.2)

end Spine

/-! ## `roll_up` and the insertion after it -/

namespace Spine

section Shapes

variable {batch : Option B}

@[simp] theorem insertSlot_vacant : insertSlot batch (.vacant : MergeState B M) = .ok (.single batch) :=
  rfl

@[simp] theorem insertSlot_single (old : Option B) :
    insertSlot batch (.single old : MergeState B M) = .ok (MergeState.beginMerge old batch) := rfl

theorem insertAt_append {index : Nat} (xs : List (MergeState B M)) (s : MergeState B M) (rest)
    (h : xs.length = index) :
    insertAt batch index (xs ++ s :: rest) = (insertSlot batch s).map fun s' => xs ++ s' :: rest := by
  subst h
  induction xs with
  | nil => rfl
  | cons x xs ih =>
    show (insertAt batch xs.length (xs ++ s :: rest)).map (x :: ·) = _
    rw [ih]
    cases insertSlot batch s <;> rfl

theorem insertAt_length {index : Nat} (xs : List (MergeState B M)) (h : xs.length = index) :
    insertAt batch index xs = (insertSlot batch .vacant).map fun s' => xs ++ [s'] := by
  subst h
  induction xs with
  | nil => rfl
  | cons x xs ih =>
    show (insertAt batch xs.length xs).map (x :: ·) = _
    rw [ih]
    cases insertSlot batch (.vacant : MergeState B M) <;> rfl

theorem completeAt_append {index : Nat} (xs : List (MergeState B M)) (s : MergeState B M) (rest)
    (h : xs.length = index) :
    completeAt index (xs ++ s :: rest) = s.complete.map fun b => (b, xs ++ .vacant :: rest) := by
  subst h
  induction xs with
  | nil => rfl
  | cons x xs ih =>
    show (completeAt xs.length (xs ++ s :: rest)).map (fun r => (r.1, x :: r.2)) = _
    rw [ih]
    cases s.complete <;> rfl

theorem getD_append_cons {index : Nat} (xs : List (MergeState B M)) (s : MergeState B M) (rest)
    (h : xs.length = index) : (xs ++ s :: rest).getD index .vacant = s := by
  subst h
  rw [List.getD_eq_getElem?_getD, List.getElem?_append_right (le_refl _)]
  simp

theorem padTo_eq_append (index : Nat) (merging : List (MergeState B M)) :
    ∃ xs s rest, padTo index merging = xs ++ s :: rest ∧ xs.length = index := by
  have hlen : index < (padTo index merging).length := by simp [padTo]; omega
  refine ⟨(padTo index merging).take index, (padTo index merging)[index],
    (padTo index merging).drop (index + 1), ?_, by simp; omega⟩
  rw [← List.drop_eq_getElem_cons hlen, List.take_append_drop]

end Shapes

/-- `roll_up`'s loop over levels that are not merges never panics when they and the carry hold
    fewer than `isize::MAX` updates: it leaves the levels vacant and carries at most their updates. -/
theorem rollPrefix_vacates (hl : MergeLaws B M T) {index : Nat} :
    ∀ (xs : List (MergeState B M)) (carry : Option B) (rest : List (MergeState B M)),
      AllLevels (fun _ s => s.isDouble = false) index xs →
      (optLen carry + lenSum xs : Int) < isizeMax →
      ∃ carry', rollPrefix xs.length carry (xs ++ rest) =
          .ok (carry', List.replicate xs.length .vacant ++ rest) ∧
        optLen carry' ≤ optLen carry + lenSum xs
  | [], carry, rest, _, _ => ⟨carry, rfl, by simp [lenSum]⟩
  | s :: xs, carry, rest, hd, hbud => by
    have hbud1 : (optLen carry + s.len : Int) < isizeMax := by
      rw [lenSum_cons] at hbud; push_cast at hbud; omega
    obtain ⟨s1, c1, hs1, hc1, hle1⟩ : ∃ s1 c1, insertSlot carry s = .ok s1 ∧ s1.complete = .ok c1 ∧
        optLen c1 ≤ optLen carry + s.len := by
      rcases s with _ | old | v
      · exact ⟨_, _, rfl, rfl, by simp⟩
      · obtain ⟨c1, hc1, hle⟩ := complete_beginMerge hl old carry
          (by rw [len_single] at hbud1; omega)
        exact ⟨_, c1, rfl, hc1, by rw [len_single]; omega⟩
      · cases hd.1
    obtain ⟨c2, hr, hle2⟩ := rollPrefix_vacates hl xs c1 rest hd.2
      (by rw [lenSum_cons] at hbud; push_cast at hbud hle1 ⊢; omega)
    refine ⟨c2, ?_, by rw [lenSum_cons]; omega⟩
    rw [List.length_cons, List.cons_append, rollPrefix]
    simp only [hs1, hc1, hr, ok_bind, List.replicate_succ, List.cons_append]

section RollUp

/-- After `apply_fuel` handed every merge in progress at least `8 << L` fuel, `roll_up(L)` and
    the insertion of a batch of at most `2^L` updates at `L` never panic and restore the
    discipline: no level up to `L` holds a merge, `L + 1` holds none when the roll-up completes a
    merge into it, and the levels above `L + 1` gain less weight than a quarter of the fuel. -/
theorem fueled_rollUp_insertAt (hl : MergeLaws B M T) {L : Nat} {F : Int} (hF : 8 * 2 ^ L ≤ F)
    {merging : List (MergeState B M)} (hs : AllLevels MergeState.Sized 0 merging)
    (hf : FueledFrom F 0 0 merging) (hc : AllLevels (fun _ s => s.isComplete = false) 0 merging)
    {batch : Option B} (hb : optLen batch ≤ 2 ^ L)
    (hbud : (lenSum merging + optLen batch : Int) < isizeMax) :
    ∃ m2 m3, rollUp L merging = .ok m2 ∧ insertAt batch L m2 = .ok m3 ∧
      FueledFrom 0 0 0 m3 ∧ lenSum m3 ≤ lenSum merging + optLen batch := by
  obtain ⟨xs, a, rest, hpad, hxs⟩ := padTo_eq_append L merging
  have hs' := sized_padTo L hs
  have hf' := fueledFrom_padTo L hf
  have hc' := allLevels_padTo L hc fun _ => rfl
  have hlen := lenSum_padTo L merging
  rw [hpad] at hs' hf' hc' hlen
  rw [lenSum_append, lenSum_cons] at hlen
  obtain ⟨hfx, hfa, hfrest⟩ : FueledFrom F 0 0 xs ∧ a.Fueled F L (weightFrom 0 xs) ∧
      FueledFrom F (L + 1) (weightFrom 0 xs + a.weight L) rest := by
    simpa [fueledFrom_append, hxs] using hf'
  obtain ⟨hcx, hca, hcrest⟩ : AllLevels (fun _ s => s.isComplete = false) 0 xs ∧
      a.isComplete = false ∧ AllLevels (fun _ s => s.isComplete = false) (L + 1) rest := by
    simpa [allLevels_append, hxs] using hc'
  obtain ⟨hsa, hsrest⟩ : a.Sized L ∧ AllLevels MergeState.Sized (L + 1) rest := by
    simpa [allLevels_append, hxs] using ((allLevels_append _ _).mp hs').2
  have h2L : (1 : Int) ≤ 2 ^ L := by exact_mod_cast Nat.one_le_two_pow
  have hF4 : (4 * 2 ^ L : Int) < F := by omega
  have hxd := hfx.not_isDouble hF hcx (by omega)
  have had : a.isDouble = false := hfa.not_isDouble hca (by omega)
  have hvac := List.length_replicate L (.vacant : MergeState B M)
  simp only [rollUp, hpad, List.take_left' hxs]
  by_cases hany : (xs.any fun m => !m.isVacant) = true
  · -- the levels below `L` roll up into `L`
    have hX : 1 ≤ weightFrom 0 xs := one_le_weightFrom 0 hany
    obtain ⟨merged, hroll, hmle⟩ := rollPrefix_vacates hl xs none (a :: rest) hxd (by simp; omega)
    have hmsz : optLen merged ≤ 2 ^ L := by simpa [hxs] using (sized_rollPrefix hl.toLenLaws hs' (by simp) hroll).1
    rw [hxs] at hroll
    simp only [if_pos hany, hroll, ok_bind, insertAt_append _ a rest hvac]
    rcases a with _ | old | v
    · -- `L` was vacant: the carry lands there and the batch merges with it
      simp only [insertSlot_vacant, map_ok, ok_bind, getD_append_cons _ _ _ hvac, isDouble,
        Bool.false_eq_true, if_false]
      refine ⟨_, _, rfl, by rw [insertAt_append _ _ rest hvac]; rfl, ?_, ?_⟩
      · refine fueledFrom_vacants_cons.mpr ⟨fueled_beginMerge hmsz hb (by simp), ?_⟩
        exact hfrest.shift (four_mul_lt_of_eight_le hF) hcrest (by simp; omega)
      · simp only [lenSum_append, lenSum_cons, lenSum_replicate_vacant, len_beginMerge]
        simp at hmle
        omega
    · -- `L` was single: the carry merges with it and the merge completes into `L + 1`
      have hold : optLen old ≤ 2 ^ L := hsa
      obtain ⟨merged', hcomp, hm'le⟩ := complete_beginMerge hl old merged (by
        simp only [len_single] at hlen; simp at hmle; omega)
      have hm'sz : optLen merged' ≤ 2 ^ (L + 1) :=
        (sized_beginMerge hold hmsz).complete hl.toLenLaws hcomp
      simp only [insertSlot_single, map_ok, ok_bind, getD_append_cons _ _ _ hvac,
        isDouble_beginMerge, if_true, completeAt_append _ _ rest hvac, hcomp]
      have hvac1 : ∀ rest' : List (MergeState B M), List.replicate L .vacant ++ .vacant :: rest' =
          List.replicate (L + 1) .vacant ++ rest' := by simp [List.replicate_succ']
      have hpow : 4 * 2 ^ L ≤ 2 ^ (L + 1 + 1) := by rw [pow_succ, pow_succ]; omega
      rcases rest with _ | ⟨c, post⟩
      · refine ⟨List.replicate L .vacant ++ [.vacant, .single merged'],
          List.replicate L .vacant ++ [.single batch, .single merged'], ?_,
          by rw [insertAt_append _ _ _ hvac]; rfl, ?_, ?_⟩
        · rw [hvac1, List.append_nil, insertAt_length _ (List.length_replicate _ _)]
          simp [List.replicate_succ']
        · exact fueledFrom_vacants_cons.mpr ⟨trivial, trivial, trivial⟩
        · simp only [lenSum_append, lenSum_cons, lenSum_replicate_vacant, len_single, len_vacant,
            lenSum_nil, optLen_none] at hlen hmle ⊢
          omega
      · obtain ⟨hfc, hfpost⟩ := hfrest
        have hcd : c.isDouble = false := hfc.not_isDouble hcrest.1 (by
          simp only [weight]; push_cast [pow_succ]; omega)
        obtain ⟨c', hc', hfc'⟩ := insertSlot_fueled hcd hsrest.1 hm'sz hpow
        refine ⟨List.replicate L .vacant ++ .vacant :: c' :: post,
          List.replicate L .vacant ++ .single batch :: c' :: post, ?_,
          by rw [insertAt_append _ _ _ hvac]; rfl, ?_, ?_⟩
        · rw [hvac1, insertAt_append _ _ _ (List.length_replicate _ _), hc', map_ok, ← hvac1]
        · refine fueledFrom_vacants_cons.mpr ⟨trivial, hfc', ?_⟩
          refine hfpost.shift (four_mul_lt_of_eight_le hF) hcrest.2 ?_
          rw [weight_insertSlot hc']
          simp only [weight]
          rw [pow_succ]
          omega
        · have := len_insertSlot hc'
          simp only [lenSum_append, lenSum_cons, lenSum_replicate_vacant, len_single, len_vacant,
            optLen_none] at hlen hmle ⊢
          omega
    · cases had
  · -- nothing lies below `L`: the batch goes to `L`
    have hxv : xs = List.replicate L .vacant :=
      hxs ▸ eq_replicate_of_all_vacant (by simpa using hany)
    subst hxv
    obtain ⟨a', ha', haf⟩ := insertSlot_fueled had hsa hb (show 4 * 0 ≤ 2 ^ (L + 1) by simp)
    simp only [if_neg hany]
    refine ⟨_, _, rfl, by rw [insertAt_append _ _ _ hvac, ha']; rfl, ?_, ?_⟩
    · refine fueledFrom_vacants_cons.mpr ⟨haf, ?_⟩
      refine hfrest.shift (show 4 * ((2 ^ L : Nat) : Int) < F by push_cast; omega) hcrest ?_
      rw [weight_insertSlot ha']
      simp
    · have := len_insertSlot ha'
      simp only [lenSum_append, lenSum_cons, lenSum_replicate_vacant] at hlen ⊢
      omega

end RollUp

/-! ## `tidy_layers` -/

/-- Drawing the top down keeps the discipline over exact integers: the merge it may start has
    levels of weight `W ≤ 2^(k+2) / 8` under it at `k`. -/
theorem fueled_tidyDown {level : Nat} {top : Option B} (htop : optLen top ≤ 2 ^ level) :
    ∀ {rbelow : List (MergeState B M)},
      AllLevels MergeState.Sized 0 (rbelow.reverse ++ [.single top]) →
      FueledFrom 0 0 0 (rbelow.reverse ++ [.single top]) →
      ∃ merging', tidyDown .exact level top rbelow = .ok merging' ∧ FueledFrom 0 0 0 merging' ∧
        lenSum merging' = lenSum (rbelow.reverse ++ [.single top])
  | [], _, hf => ⟨_, rfl, by simpa using hf, by simp⟩
  | s :: rbelow, hs, hf => by
    simp only [List.reverse_cons, List.append_assoc, List.singleton_append] at hs hf ⊢
    obtain ⟨hsb, hss, hstop, -⟩ : AllLevels MergeState.Sized 0 rbelow.reverse ∧
        s.Sized rbelow.length ∧ optLen top ≤ 2 ^ (rbelow.length + 1) ∧ True := by
      simpa [allLevels_append] using hs
    have hfb : FueledFrom 0 0 0 rbelow.reverse := ((fueledFrom_append _ _).mp hf).1
    simp only [tidyDown]
    split_ifs with hlevel
    · have htop' : optLen top ≤ 2 ^ rbelow.length :=
        htop.trans (Nat.pow_le_pow_right (by decide) (by omega))
      have hs' : AllLevels MergeState.Sized 0 (rbelow.reverse ++ [.single top]) :=
        (allLevels_append _ _).mpr ⟨hsb, by simpa using htop'⟩
      have hf' : FueledFrom 0 0 0 (rbelow.reverse ++ [.single top]) :=
        (fueledFrom_append _ _).mpr ⟨hfb, trivial, trivial⟩
      rcases s with _ | (_ | batch) | v
      · obtain ⟨m', hm', hfm', hlm'⟩ := fueled_tidyDown htop hs' hf'
        exact ⟨m', hm', hfm', by simp [hlm', lenSum_append, lenSum_cons]⟩
      · obtain ⟨m', hm', hfm', hlm'⟩ := fueled_tidyDown htop hs' hf'
        exact ⟨m', hm', hfm', by simp [hlm', lenSum_append, lenSum_cons]⟩
      · simp only [fitsBelow_exact, ok_bind]
        split_ifs with hfits
        · have hW := (Nat.le_div_iff_mul_le (by decide)).mp (of_decide_eq_true hfits)
          refine ⟨_, rfl, (fueledFrom_append _ _).mpr ⟨hfb, ?_, trivial⟩, ?_⟩
          · rw [List.length_reverse, Nat.zero_add]
            exact fueled_beginMerge htop' hss (by rw [pow_succ, pow_succ] at hW; rw [pow_succ]; omega)
          · simp [lenSum_append, lenSum_cons, len_beginMerge]
            omega
        · exact ⟨_, rfl, hf, rfl⟩
      · exact ⟨_, rfl, hf, rfl⟩
    · exact ⟨_, rfl, hf, rfl⟩

/-- `tidy_layers` over exact integers never panics and keeps the discipline and the updates. -/
theorem fueled_tidyLayers {merging : List (MergeState B M)}
    (hs : AllLevels MergeState.Sized 0 merging) (hf : FueledFrom 0 0 0 merging) :
    ∃ merging', tidyLayers .exact merging = .ok merging' ∧ FueledFrom 0 0 0 merging' ∧
      lenSum merging' = lenSum merging := by
  unfold tidyLayers
  split
  · next top rbelow hrev =>
    have hm : merging = rbelow.reverse ++ [.single top] := by
      rw [← List.reverse_cons, ← hrev, List.reverse_reverse]
    rw [hm] at hs hf ⊢
    exact fueled_tidyDown ((len_single top).ge.trans (nextPowerOfTwoLog_spec _).1) hs hf
  · exact ⟨_, rfl, hf, rfl⟩

end Spine

/-! ## `complete_merges` and `map_batches_mut` -/

namespace MergeState

variable {s : MergeState B M} {credit : Int} {index below : Nat}

/-- What `map_batches_mut(f)` leaves of a level that is not a merge in progress. -/
def mapBatch (f : B → B) : MergeState B M → MergeState B M
  | .double (.completed (some b)) => .double (.completed (some (f b)))
  | .single (some b) => .single (some (f b))
  | s => s

theorem weight_mapBatch (f : B → B) : (s.mapBatch f).weight index = s.weight index := by
  rcases s with _ | (_ | b) | (⟨⟩ | (_ | b)) <;> rfl

theorem Fueled.mapBatch (f : B → B) (hs : s.Fueled credit index below) :
    (s.mapBatch f).Fueled credit index below := by
  rcases s with _ | (_ | b) | (⟨⟩ | (_ | b)) <;> exact hs

theorem len_mapBatch_recedeTo (hl : LenLaws B M T) (frontier : T) :
    (s.mapBatch (Batch.recedeTo frontier)).len ≤ s.len := by
  rcases s with _ | (_ | b) | (⟨⟩ | (_ | b))
  all_goals first | exact le_rfl | exact hl.recede_len frontier b

/-- `complete_merges` finishes a merge in progress: it has been handed `h ≥ 0` fuel, and its
    inputs hold fewer than `isize::MAX` updates. -/
theorem Fueled.finish (hl : MergeLaws B M T) (hf : s.Fueled 0 index below)
    (hbud : (s.len : Int) < isizeMax) :
    let s' := if s.isInprogress then s.work isizeMax else s
    s'.isInprogress = false ∧ s'.Fueled 0 index below ∧ s'.len ≤ s.len := by
  dsimp only
  rcases s with _ | _ | (⟨b1, b2, m⟩ | b)
  · exact ⟨rfl, trivial, le_rfl⟩
  · exact ⟨rfl, trivial, le_rfl⟩
  · obtain ⟨hb, h, h0, hr, -, -⟩ := hf
    have hpos := hl.finishes isizeMax hr (by simp only [MergeState.len] at hbud; omega)
    simp only [isInprogress, if_true, MergeState.work, MergeVariant.work_inProgress, if_pos hpos]
    exact ⟨trivial, hb, hl.done_len isizeMax hr hpos⟩
  · exact ⟨rfl, hf, le_rfl⟩

end MergeState

section Lists

theorem FueledFrom.exists_of_mem {c : Int} {s : MergeState B M} :
    ∀ {index below : Nat} {merging : List (MergeState B M)}, FueledFrom c index below merging →
      s ∈ merging → ∃ k W, s.Fueled c k W
  | _, _, [], _, hs => absurd hs (List.not_mem_nil _)
  | _, _, _ :: _, hf, hs => by
    rcases List.mem_cons.mp hs with rfl | hs
    · exact ⟨_, _, hf.1⟩
    · exact hf.2.exists_of_mem hs

/-- A map of the levels that keeps each level's weight and discipline keeps the discipline. -/
theorem FueledFrom.map {c : Int} {f : MergeState B M → MergeState B M}
    {P : MergeState B M → Prop} (hw : ∀ k s, (f s).weight k = s.weight k)
    (hfs : ∀ k W s, P s → s.Fueled c k W → (f s).Fueled c k W) :
    ∀ {index below : Nat} {merging : List (MergeState B M)}, (∀ s ∈ merging, P s) →
      FueledFrom c index below merging → FueledFrom c index below (merging.map f)
  | _, _, [], _, _ => trivial
  | _, _, s :: _, hp, hf =>
    ⟨hfs _ _ _ (hp s (List.mem_cons_self _ _)) hf.1, by
      rw [hw]; exact FueledFrom.map hw hfs (fun t ht => hp t (List.mem_cons_of_mem _ ht)) hf.2⟩

theorem len_le_lenSum {s : MergeState B M} :
    ∀ {merging : List (MergeState B M)}, s ∈ merging → s.len ≤ lenSum merging
  | _ :: _, .head _ => by rw [lenSum_cons]; omega
  | _ :: _, .tail _ hs => by
    have := len_le_lenSum hs
    rw [lenSum_cons]
    omega

theorem lenSum_map_le {f : MergeState B M → MergeState B M} :
    ∀ {merging : List (MergeState B M)}, (∀ s ∈ merging, (f s).len ≤ s.len) →
      lenSum (merging.map f) ≤ lenSum merging
  | [], _ => le_rfl
  | s :: _, h => by
    rw [List.map_cons, lenSum_cons, lenSum_cons]
    exact Nat.add_le_add (h s (List.mem_cons_self _ _))
      (lenSum_map_le fun t ht => h t (List.mem_cons_of_mem _ ht))

end Lists

namespace Spine

/-- `map_batches_mut(f)` over levels with no merge in progress never panics. -/
theorem mapBatchesMut_eq (f : B → B) :
    ∀ {merging : List (MergeState B M)}, (∀ s ∈ merging, s.isInprogress = false) →
      mapBatchesMut f merging = .ok (merging.map (MergeState.mapBatch f))
  | [], _ => rfl
  | s :: rest, h => by
    have hrest := mapBatchesMut_eq f fun s hs => h s (List.mem_cons_of_mem _ hs)
    simp only [mapBatchesMut] at hrest ⊢
    rw [List.mapM_cons, hrest]
    have hs := h s (List.mem_cons_self _ _)
    rcases s with _ | (_ | b) | (⟨⟩ | (_ | b)) <;> first | rfl | cases hs

/-- `complete_merges` on disciplined levels holding fewer than `isize::MAX` updates never panics
    and leaves no merge in progress. -/
theorem fueled_completeMerges (hl : MergeLaws B M T) {merging : List (MergeState B M)}
    (hf : FueledFrom 0 0 0 merging) (hbud : (lenSum merging : Int) < isizeMax) :
    ∃ merging', completeMerges merging = .ok merging' ∧ FueledFrom 0 0 0 merging' ∧
      (∀ s ∈ merging', s.isInprogress = false) ∧ lenSum merging' ≤ lenSum merging := by
  have hlt : ∀ s ∈ merging, (s.len : Int) < isizeMax := fun s hs => by
    have := len_le_lenSum hs
    omega
  have hfin : ∀ s ∈ merging,
      let s' := if s.isInprogress then s.work isizeMax else s
      s'.isInprogress = false ∧ s'.len ≤ s.len := fun s hs =>
    have ⟨_, _, hk⟩ := hf.exists_of_mem hs
    have h := hk.finish hl (hlt s hs)
    ⟨h.1, h.2.2⟩
  have hdone : ∀ s ∈ merging.map (fun s => if s.isInprogress then s.work isizeMax else s),
      s.isInprogress = false := by
    simp only [List.mem_map]
    rintro _ ⟨s, hs, rfl⟩
    exact (hfin s hs).1
  refine ⟨_, ?_, hf.map (fun k s => ?_) (fun k W s hs hk => (hk.finish hl hs).2.1) hlt, hdone,
    lenSum_map_le fun s hs => (hfin s hs).2⟩
  · simp only [completeMerges]
    rw [if_pos (List.all_eq_true.mpr fun s hs => by simp [hdone s hs])]
  · split <;> simp only [MergeState.weight_work]

/-! ## The public operations -/

/-- The discipline a spine keeps between public operations: every level within its size, every
    merge fueled, and a positive effort. -/
structure Disciplined (sp : Spine B M) : Prop where
  sized : sp.Sized
  fueled : FueledFrom 0 0 0 sp.merging
  effort_pos : 0 < sp.effort

variable {sp : Spine B M}

theorem disciplined_withEffort (effort : Nat) : (withEffort effort : Spine B M).Disciplined :=
  ⟨trivial, trivial, show 0 < ite _ _ _ by split_ifs <;> omega⟩

/-- `introduce_batch` of a batch of at most `2^L` updates never panics and keeps the discipline:
    `apply_fuel` hands every merge in progress `(8 << L) * effort ≥ 8 << L` fuel. -/
theorem disciplined_introduceBatch (hl : MergeLaws B M T) (hd : sp.Disciplined)
    {batch : Option B} {L : Nat} (hb : optLen batch ≤ 2 ^ L)
    (hbud : (lenSum sp.merging + optLen batch : Int) < isizeMax) :
    ∃ sp', sp.introduceBatch .exact batch L = .ok sp' ∧ sp'.Disciplined ∧
      lenSum sp'.merging ≤ lenSum sp.merging + optLen batch := by
  have hF : (8 * 2 ^ L : Int) ≤ 8 * 2 ^ L * sp.effort :=
    le_mul_of_one_le_right (by positivity) (by exact_mod_cast hd.effort_pos)
  obtain ⟨m1, h1, hf1, hc1, hl1⟩ :=
    fueled_applyFuel hl (show (0 : Int) ≤ 8 * 2 ^ L * sp.effort by positivity) hd.sized hd.fueled
  have hs1 := sized_applyFuel hl.toLenLaws hd.sized h1
  obtain ⟨m2, m3, h2, h3, hf3, hl3⟩ := fueled_rollUp_insertAt hl hF hs1 hf1 hc1 hb (by omega)
  have hs3 := sized_insertAt (sized_rollUp hl.toLenLaws hs1 h2) (by rwa [Nat.zero_add]) h3
  obtain ⟨m4, h4, hf4, hl4⟩ := fueled_tidyLayers hs3 hf3
  refine ⟨{ sp with merging := m4 }, ?_, ⟨sized_tidyLayers hs3 h4, hf4, hd.effort_pos⟩, ?_⟩
  · simp only [introduceBatch, h1, h2, h3, h4, ok_bind]
  · show lenSum m4 ≤ _
    omega

theorem disciplined_insert (hl : MergeLaws B M T) (hd : sp.Disciplined) {b : B}
    (hlow : Batch.lowerEqUpper b = false)
    (hbud : (lenSum sp.merging + Batch.len b : Int) < isizeMax) :
    ∃ sp', sp.insert .exact b = .ok sp' ∧ sp'.Disciplined ∧
      lenSum sp'.merging ≤ lenSum sp.merging + Batch.len b := by
  simp only [Spine.insert, hlow, Bool.false_eq_true, if_false]
  split_ifs
  · exact ⟨sp, rfl, hd, Nat.le_add_right _ _⟩
  · have hd' : ({ sp with dirty := true } : Spine B M).Disciplined :=
      ⟨hd.sized, hd.fueled, hd.effort_pos⟩
    exact disciplined_introduceBatch hl hd' (nextPowerOfTwoLog_spec _).1 hbud

theorem disciplined_exert (hl : MergeLaws B M T) (hd : sp.Disciplined) (effort : Nat)
    (hbud : (lenSum sp.merging : Int) < isizeMax) :
    ∃ sp', sp.exert .exact effort = .ok sp' ∧ sp'.Disciplined ∧
      lenSum sp'.merging ≤ lenSum sp.merging := by
  obtain ⟨m1, h1, hf1, hl1⟩ := fueled_tidyLayers hd.sized hd.fueled
  have hs1 := sized_tidyLayers hd.sized h1
  have hd1 : ({ sp with merging := m1 } : Spine B M).Disciplined := ⟨hs1, hf1, hd.effort_pos⟩
  simp only [Spine.exert, h1, ok_bind]
  split_ifs
  · exact ⟨_, rfl, hd1, hl1.le⟩
  · obtain ⟨m2, h2, hf2, -, hl2⟩ :=
      fueled_applyFuel hl (show (0 : Int) ≤ effort by positivity) hs1 hf1
    refine ⟨{ sp with merging := m2 }, by rw [h2]; rfl,
      ⟨sized_applyFuel hl.toLenLaws hs1 h2, hf2.mono (by positivity), hd.effort_pos⟩, ?_⟩
    show lenSum m2 ≤ _
    omega
  · obtain ⟨sp', h', hd', hl'⟩ := disciplined_introduceBatch hl hd1
      (show optLen (none : Option B) ≤ 2 ^ nextPowerOfTwoLog effort by simp)
      (by simpa [hl1] using hbud)
    exact ⟨sp', h', hd', by simpa [hl1] using hl'⟩

theorem disciplined_recedeTo (hl : MergeLaws B M T) (hd : sp.Disciplined) (frontier : T)
    (hbud : (lenSum sp.merging : Int) < isizeMax) :
    ∃ sp', sp.recedeTo frontier = .ok sp' ∧ sp'.Disciplined ∧
      lenSum sp'.merging ≤ lenSum sp.merging := by
  obtain ⟨m1, h1, hf1, hdone, hl1⟩ := fueled_completeMerges hl hd.fueled hbud
  have h2 := mapBatchesMut_eq (Batch.recedeTo frontier) hdone
  refine ⟨{ sp with merging := m1.map (MergeState.mapBatch (Batch.recedeTo frontier)) }, ?_,
    ⟨sized_mapBatchesMut hl.toLenLaws frontier (sized_completeMerges hl.toLenLaws hd.sized h1) h2,
      hf1.map (fun _ _ => MergeState.weight_mapBatch _)
        (fun _ _ _ (_ : True) hk => hk.mapBatch _) (fun _ _ => trivial),
      hd.effort_pos⟩, ?_⟩
  · simp only [recedeTo, h1, h2, ok_bind]
  · exact (lenSum_map_le fun s _ => MergeState.len_mapBatch_recedeTo hl.toLenLaws frontier).trans hl1

end Spine

/-- The updates an operation inserts. -/
def SpineOp.insertedLen : SpineOp B T → Nat
  | .insert b => Batch.len b
  | _ => 0

namespace Spine

variable {sp : Spine B M}

theorem disciplined_apply (hl : MergeLaws B M T) (hd : sp.Disciplined) {op : SpineOp B T}
    (hlow : ∀ b, op = .insert b → Batch.lowerEqUpper b = false)
    (hbud : (lenSum sp.merging + op.insertedLen : Int) < isizeMax) :
    ∃ sp', sp.apply .exact op = .ok sp' ∧ sp'.Disciplined ∧
      lenSum sp'.merging ≤ lenSum sp.merging + op.insertedLen := by
  cases op with
  | insert b => exact disciplined_insert hl hd (hlow b rfl) hbud
  | exert effort => exact disciplined_exert hl hd effort (by simpa [SpineOp.insertedLen] using hbud)
  | recedeTo frontier =>
    exact disciplined_recedeTo hl hd frontier (by simpa [SpineOp.insertedLen] using hbud)

/-- A run of operations from a disciplined spine never panics while the updates held and
    inserted stay below `isize::MAX`. -/
theorem disciplined_run (hl : MergeLaws B M T) :
    ∀ {sp : Spine B M} {ops : List (SpineOp B T)}, sp.Disciplined →
      (∀ b, .insert b ∈ ops → Batch.lowerEqUpper b = false) →
      (lenSum sp.merging + (ops.map SpineOp.insertedLen).sum : Int) < isizeMax →
      ∃ sp', sp.run .exact ops = .ok sp' ∧ sp'.Disciplined ∧
        lenSum sp'.merging ≤ lenSum sp.merging + (ops.map SpineOp.insertedLen).sum
  | sp, [], hd, _, _ => ⟨sp, rfl, hd, Nat.le_add_right _ _⟩
  | sp, op :: ops, hd, hlow, hbud => by
    simp only [List.map_cons, List.sum_cons, Nat.cast_add] at hbud
    obtain ⟨sp1, h1, hd1, hl1⟩ := disciplined_apply hl hd
      (fun b hb => hlow b (hb ▸ List.mem_cons_self _ _)) (by omega)
    obtain ⟨sp', h', hd', hl'⟩ := disciplined_run hl hd1
      (fun b hb => hlow b (List.mem_cons_of_mem _ hb)) (by omega)
    refine ⟨sp', by simp only [run, h1, ok_bind, h'], hd', ?_⟩
    simp only [List.map_cons, List.sum_cons]
    omega

/-- The loop of `consolidate` never panics on a disciplined spine: each round is an exert. -/
theorem disciplined_consolidateLoop (hl : MergeLaws B M T) :
    ∀ (rounds : Nat) {sp : Spine B M}, sp.Disciplined → (lenSum sp.merging : Int) < isizeMax →
      ∃ r, consolidateLoop .exact rounds sp = .ok r
  | 0, _, _, _ => ⟨_, rfl⟩
  | rounds + 1, sp, hd, hbud => by
    simp only [consolidateLoop]
    split_ifs
    · exact ⟨_, rfl⟩
    · obtain ⟨sp1, h1, hd1, hl1⟩ := disciplined_exert hl hd isizeMax.toNat hbud
      rw [h1, ok_bind]
      exact disciplined_consolidateLoop hl rounds hd1 (by omega)

end Spine

/-- From `with_effort(e)`, over exact integers and with a merger that obeys `MergeLaws`, no
    sequence of inserts of batches with `lower() != upper()`, exerts and `recede_to` calls that
    inserts fewer than `isize::MAX` updates in all panics, nor does any number of rounds of
    `consolidate` after it. -/
theorem run_never_panics (hl : MergeLaws B M T) (effort : Nat) (ops : List (SpineOp B T))
    (hlow : ∀ b, SpineOp.insert b ∈ ops → Batch.lowerEqUpper b = false)
    (hbud : ((ops.map SpineOp.insertedLen).sum : Int) < isizeMax) (rounds : Nat) :
    ∃ sp, (Spine.withEffort effort : Spine B M).run .exact ops = .ok sp ∧
      ∃ r, Spine.consolidate .exact rounds sp = .ok r := by
  have hbud' : (lenSum (Spine.withEffort effort : Spine B M).merging +
      (ops.map SpineOp.insertedLen).sum : Int) < isizeMax := by
    simpa [Spine.withEffort, lenSum] using hbud
  obtain ⟨sp, h, hd, hl'⟩ := Spine.disciplined_run hl (Spine.disciplined_withEffort effort) hlow hbud'
  obtain ⟨r, hr⟩ := Spine.disciplined_consolidateLoop hl rounds hd (by omega)
  exact ⟨sp, h, _, by rw [Spine.consolidate, hr]; rfl⟩

/-- A merger that works in steps: two batches of 8 start a merge at level 3, which two inserts of
    one update hand 8 fuel each and the exert 4 more, completing it; then a `consolidate` of
    three rounds. -/
theorem run_never_panics_copy :
    ∃ sp, (Spine.withEffort 1 : Spine CopyBatch Int).run .exact
        [.insert ⟨8⟩, .insert ⟨8⟩, .insert ⟨1⟩, .insert ⟨1⟩, .exert 4] = .ok sp ∧
      ∃ r, Spine.consolidate .exact 3 sp = .ok r :=
  run_never_panics copyBatch_mergeLaws 1 [.insert ⟨8⟩, .insert ⟨8⟩, .insert ⟨1⟩, .insert ⟨1⟩, .exert 4]
    (fun _ _ => rfl) (by simp [SpineOp.insertedLen, isizeMax, Batch.len]) 3

/-- A batch known by its length whose merger does nothing until it has been handed more fuel
    than its inputs hold, and whose merge holds ten times the updates of its inputs. -/
structure SlowBatch where
  len : Nat
  deriving DecidableEq, Repr

/-- The merger holds the updates of its inputs and the fuel handed so far. -/
instance SlowBatch.instBatch : Batch SlowBatch (Nat × Int) Unit where
  len b := b.len
  lowerEqUpper _ := false
  beginMerge b1 b2 := (b1.len + b2.len, 0)
  work m _ _ fuel := ((m.1, m.2 + fuel), if (m.1 : Int) < m.2 + fuel then 1 else 0)
  done m := ⟨10 * m.1⟩
  recedeTo _ b := b

theorem SlowBatch.mergerRun_eq {b1 b2 : SlowBatch} {m : Nat × Int} {h : Int}
    (hr : MergerRun b1 b2 m h) : m = (b1.len + b2.len, h) := by
  induction hr with
  | begin => rfl
  | work fuel _ _ ih => subst ih; rfl

set_option maxRecDepth 4000 in
/-- A merger that finishes as soon as it has been handed more fuel than its inputs hold, but
    whose merges grow, breaks the discipline: from `with_effort(1)` a sequence of inserts and
    exerts inserts a batch into an incomplete merge. -/
theorem inflating_merge_panics :
    (∀ {b1 b2 : SlowBatch} {m : Nat × Int} {h : Int} (fuel : Int), MergerRun b1 b2 m h →
      (Batch.len b1 + Batch.len b2 : Int) < h + fuel → 0 < (Batch.work m b1 b2 fuel).2) ∧
    (Spine.withEffort 1 : Spine SlowBatch (Nat × Int)).run .exact
        [.insert ⟨4⟩, .insert ⟨4⟩, .insert ⟨3⟩, .exert 1, .insert ⟨2⟩, .insert ⟨3⟩, .insert ⟨1⟩,
          .exert 1, .exert 2, .exert 2, .exert 1, .insert ⟨1⟩, .exert 2, .insert ⟨1⟩,
          .insert ⟨3⟩] =
      .error "Attempted to insert batch into incomplete merge!" := by
  refine ⟨fun fuel hr hlt => ?_, rfl⟩
  obtain rfl := SlowBatch.mergerRun_eq hr
  show (0 : Int) < if _ then 1 else 0
  rw [if_pos (by push_cast; exact hlt)]
  decide

end DbspTrace
