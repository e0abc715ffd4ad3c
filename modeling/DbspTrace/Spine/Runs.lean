import DbspTrace.Spine.Consolidate
import DbspTrace.Spine.Contents
import DbspTrace.Spine.Recorded

/-
  What a whole run from `with_effort(e)` gives, over exact integers, with fewer than
  `isize::MAX` updates inserted and a merger that obeys `MergeLaws`.

  Proved:
  * `run_merge_deficit`: the invariant the module comment of `spine_fueled.rs` states holds in
    every state a run reaches, for the fuel each merge has been handed as the run over
    `Recorded B` records it: under a merge in progress at level `k` the levels hold fewer than
    `2^k` records, counted as updates or as the spine accounts them, and the effort the merge
    still needs is at most four times the records they may still gain before reaching `2^k`;
  * `consolidate_returns_sum`: with the laws of `Spine/Contents` too, `consolidate` after any such
    run returns, and returns a batch representing the sum of the inserted batches, or nothing
    exactly when that sum is zero.
-/

namespace DbspTrace

variable {B M T : Type} [Batch B M T]

/-! ## The deficit of a merge in progress -/

/-- A level within the size bound holds no more updates than it stands for. -/
theorem MergeState.len_le_weight {s : MergeState B M} {index : Nat} (hs : s.Sized index) :
    s.len ≤ s.weight index := by
  have h2 : 2 ^ (index + 1) = 2 ^ index + 2 ^ index := by rw [Nat.pow_succ]; omega
  rcases s with _ | (_ | b) | (⟨b1, b2, m⟩ | (_ | b))
  all_goals simp only [MergeState.Sized, MergeState.len, MergeState.weight, optLen_none,
    optLen_some] at hs ⊢
  all_goals omega

theorem lenSum_le_weightFrom : ∀ {index : Nat} {merging : List (MergeState B M)},
    AllLevels MergeState.Sized index merging → lenSum merging ≤ weightFrom index merging
  | _, [], _ => le_rfl
  | _, _ :: _, h => by
    have h1 := MergeState.len_le_weight h.1
    have h2 := lenSum_le_weightFrom h.2
    rw [lenSum_cons, weightFrom]
    omega

/-- The discipline read off the `k`-th level: it has the weight of the levels before it under
    it. -/
theorem FueledFrom.at_level {c : Int} : ∀ {index below k : Nat} {merging : List (MergeState B M)}
    {s : MergeState B M}, FueledFrom c index below merging → merging[k]? = some s →
      s.Fueled c (index + k) (below + weightFrom index (merging.take k))
  | _, _, 0, _ :: _, _, h, hk => by
    obtain rfl := Option.some.inj (by simpa using hk)
    simpa [weightFrom] using h.1
  | _, _, k + 1, _ :: rest, s, h, hk => by
    have hk' : rest[k]? = some s := by simpa using hk
    simpa [weightFrom, Nat.add_assoc, Nat.add_comm 1 k] using FueledFrom.at_level h.2 hk'

/-- The invariant the module comment of `spine_fueled.rs` states, in every state a run reaches
    from `with_effort(e)`, for the fuel the spine hands each merge, as the same run over
    `Recorded B` records it (with the records dropped, that run is the code's run): under a merge
    in progress at level `k` the levels hold fewer than `2^k` records, counted as updates or as
    the spine accounts them (`2^i` for a batch at level `i`, `2^(i+1)` for a merge); the merge has
    been handed `handed` fuel, no more than its inputs' updates, by calls after each of which it
    stayed in progress; and the effort it still needs is at most four times the records the
    levels below may still gain before they reach `2^k`. -/
theorem run_merge_deficit (hl : MergeLaws B M T) (effort : Nat) (ops : List (SpineOp B T))
    (hlow : ∀ b, SpineOp.insert b ∈ ops → Batch.lowerEqUpper b = false)
    (hbud : ((ops.map SpineOp.insertedLen).sum : Int) < isizeMax) :
    ∃ sp : Spine (Recorded B) (M × Int),
      (Spine.withEffort effort).run .exact (ops.map SpineOp.record) = .ok sp ∧
      (Spine.withEffort effort : Spine B M).run .exact ops = .ok sp.forget ∧
      ∀ (k : Nat) (b1 b2 : B) (m : M),
        sp.forget.merging[k]? = some (.double (.inProgress b1 b2 m)) →
        lenSum (sp.forget.merging.take k) ≤ weightFrom 0 (sp.forget.merging.take k) ∧
        weightFrom 0 (sp.forget.merging.take k) < 2 ^ k ∧
        ∃ handed : Int, sp.merging[k]? = some (.double (.inProgress ⟨b1⟩ ⟨b2⟩ (m, handed))) ∧
          MergerRun b1 b2 m handed ∧ 0 ≤ handed ∧ handed ≤ Batch.len b1 + Batch.len b2 ∧
          Batch.len b1 + Batch.len b2 - handed ≤
            4 * (2 ^ k - weightFrom 0 (sp.forget.merging.take k) : Int) := by
  obtain ⟨sp, h, hd, -⟩ := Spine.run_disciplined (Recorded.mergeLaws hl) effort
    (SpineOp.lowerEqUpper_record hlow) (by simpa [Function.comp_def] using hbud)
  refine ⟨sp, h, Spine.run_record h, fun k b1 b2 m hk => ?_⟩
  have htake : sp.forget.merging.take k = (sp.merging.take k).map MergeState.forget := by
    simp [Spine.forget, List.map_take]
  obtain ⟨s, hs, hfs⟩ := Option.map_eq_some'.mp (by simpa [Spine.forget] using hk)
  obtain ⟨handed, rfl⟩ := (MergeState.forget_eq_inProgress _).mp hfs
  have hsized : AllLevels MergeState.Sized 0 (sp.merging.take k) :=
    ((allLevels_append _ _).mp (by rw [List.take_append_drop]; exact hd.sized)).1
  have hf := hd.fueled.at_level hs
  simp only [Nat.zero_add, MergeState.Fueled, Recorded.len_eq] at hf
  obtain ⟨hw, r, h0, hr, hle, hdef⟩ := hf
  obtain ⟨rfl, hr⟩ := Recorded.mergerRun_iff.mp hr
  rw [htake, forget_lenSum, forget_weightFrom]
  exact ⟨lenSum_le_weightFrom hsized, hw, _, hs, hr, h0, hle, by omega⟩

/-- Two batches of 8 updates start a merge at level 3 and an insert of one update hands it 8 fuel:
    the merge in progress left has its deficit. -/
theorem run_merge_deficit_copy :
    ∃ sp : Spine (Recorded CopyBatch) (Int × Int),
      (Spine.withEffort 1).run .exact
          (([.insert ⟨8⟩, .insert ⟨8⟩, .insert ⟨1⟩] : List (SpineOp CopyBatch Unit)).map
            SpineOp.record) = .ok sp ∧
      (Spine.withEffort 1 : Spine CopyBatch Int).run .exact
          [.insert ⟨8⟩, .insert ⟨8⟩, .insert ⟨1⟩] = .ok sp.forget ∧
      ∀ (k : Nat) (b1 b2 : CopyBatch) (m : Int),
        sp.forget.merging[k]? = some (.double (.inProgress b1 b2 m)) →
        lenSum (sp.forget.merging.take k) ≤ weightFrom 0 (sp.forget.merging.take k) ∧
        weightFrom 0 (sp.forget.merging.take k) < 2 ^ k ∧
        ∃ handed : Int, sp.merging[k]? = some (.double (.inProgress ⟨b1⟩ ⟨b2⟩ (m, handed))) ∧
          MergerRun b1 b2 m handed ∧ 0 ≤ handed ∧ handed ≤ Batch.len b1 + Batch.len b2 ∧
          Batch.len b1 + Batch.len b2 - handed ≤
            4 * (2 ^ k - weightFrom 0 (sp.forget.merging.take k) : Int) :=
  run_merge_deficit copyBatch_mergeLaws 1 [.insert ⟨8⟩, .insert ⟨8⟩, .insert ⟨1⟩]
    (fun _ _ => rfl) (by simp [SpineOp.insertedLen, isizeMax, Batch.len])

/-! ## What `consolidate` returns -/

section Denote

variable {Z : Type} [AddCommGroup Z] {denote : B → Z}

/-- On a reduced spine the batch `consolidate` returns represents what the levels hold, and is
    missing exactly when they hold zero, if only batches without updates represent zero. -/
theorem optDenote_soleBatch (hs : SumLaws B M T denote)
    (hz : ∀ b : B, denote b = 0 → Batch.len b = 0) {merging : List (MergeState B M)}
    (hred : Spine.reduced merging = true) :
    optDenote denote (Spine.soleBatch merging) = contentsOf denote merging ∧
      (Spine.soleBatch merging = none ↔ contentsOf denote merging = 0) := by
  rcases soleBatch_of_reduced hs hred with ⟨hsole, h0⟩ | ⟨b, hsole, hb, hcb⟩
  · simp [hsole, h0, optDenote]
  · have hne : denote b ≠ 0 := fun h0 => (Nat.pos_iff_ne_zero.mp hb) (hz b h0)
    simp [hsole, hcb, hne, optDenote]

/-- `consolidate` is correct: over exact integers, for a merger that obeys `MergeLaws`, completed
    merges that represent the sum of their inputs, a `recede_to` that keeps what a batch
    represents and batches that represent zero exactly when they hold no updates, after any run
    from `with_effort(e)` that inserts fewer than `isize::MAX` updates `consolidate` returns, and
    what it returns represents the sum of the inserted batches, `None` exactly when that sum is
    zero. -/
theorem consolidate_returns_sum (hl : MergeLaws B M T) (hs : SumLaws B M T denote)
    (hz : ∀ b : B, denote b = 0 → Batch.len b = 0) (effort : Nat) (ops : List (SpineOp B T))
    (hlow : ∀ b, SpineOp.insert b ∈ ops → Batch.lowerEqUpper b = false)
    (hbud : ((ops.map SpineOp.insertedLen).sum : Int) < isizeMax) :
    ∃ sp, (Spine.withEffort effort : Spine B M).run .exact ops = .ok sp ∧
      ∃ rounds r, Spine.consolidate .exact rounds sp = .ok (some r) ∧
        optDenote denote r = (ops.map (SpineOp.inserted denote)).sum ∧
        (r = none ↔ (ops.map (SpineOp.inserted denote)).sum = 0) := by
  obtain ⟨sp, h, hd, hbud'⟩ := Spine.run_disciplined hl effort hlow hbud
  obtain ⟨rounds, sp', hr⟩ := Spine.consolidateLoop_ends hl sp hd hbud'
  obtain ⟨hc, hst⟩ := Spine.contents_run hs (fun s hs => absurd hs (List.not_mem_nil s)) h
  obtain ⟨hred, hc'⟩ := Spine.contents_consolidateLoop hs hst hr
  simp only [Spine.withEffort, contentsOf_nil, zero_add] at hc
  refine ⟨sp, h, rounds, Spine.soleBatch sp'.merging, by rw [Spine.consolidate, hr]; rfl, ?_⟩
  rw [← hc, ← hc']
  exact optDenote_soleBatch hs hz hred

/-- A merge at level 3 worked over three calls, then a `consolidate` that returns the 18
    updates inserted. -/
theorem consolidate_returns_sum_copy :
    ∃ sp, (Spine.withEffort 1 : Spine CopyBatch Int).run .exact
        [.insert ⟨8⟩, .insert ⟨8⟩, .insert ⟨1⟩, .insert ⟨1⟩, .exert 4] = .ok sp ∧
      ∃ rounds r, Spine.consolidate .exact rounds sp = .ok (some r) ∧
        optDenote (fun b : CopyBatch => (b.len : Int)) r =
          (([.insert ⟨8⟩, .insert ⟨8⟩, .insert ⟨1⟩, .insert ⟨1⟩, .exert 4] :
            List (SpineOp CopyBatch Unit)).map (SpineOp.inserted fun b => (b.len : Int))).sum ∧
        (r = none ↔
          (([.insert ⟨8⟩, .insert ⟨8⟩, .insert ⟨1⟩, .insert ⟨1⟩, .exert 4] :
            List (SpineOp CopyBatch Unit)).map (SpineOp.inserted fun b => (b.len : Int))).sum = 0) :=
  consolidate_returns_sum copyBatch_mergeLaws copyBatch_sumLaws (fun _ h => by simpa using h) 1
    [.insert ⟨8⟩, .insert ⟨8⟩, .insert ⟨1⟩, .insert ⟨1⟩, .exert 4] (fun _ _ => rfl)
    (by simp [SpineOp.insertedLen, isizeMax, Batch.len])

end Denote

end DbspTrace
