import DbspTrace.Spine.Levels

/-
  The size bound of the levels: in every state the spine reaches without a panic, a single batch
  at level `k` has at most `2^k` updates, each input of a merge in progress at `k` at most `2^k`,
  and a completed merge at `k` at most `2^(k+1)`.

  It needs two things of the batch type (`LenLaws`): a completed merge is no longer than its two
  inputs, and `recede_to` does not lengthen a batch. `OrdIndexedZSet` has both (equal keys add
  up, and drop out when the sum is zero; its `recede_to` does nothing). The bound needs neither
  a merger that finishes nor exact arithmetic in `tidy_layers`: whatever the threshold decides,
  the batch drawn down lands at a level its length fits.

  Proved:
  * `run_sized`: the bound in every state `run` reaches from `with_effort(e)`, under any
    `Arith`;
  * `recede_breaks_sizes`: a batch type whose merges obey the law but whose `recede_to` doubles
    a batch breaks the bound after one insert and one `recede_to`.
-/

namespace DbspTrace

variable {B M T : Type} [Batch B M T]

/-- What the size bound needs of a batch type. -/
structure LenLaws (B M T : Type) [Batch B M T] : Prop where
  /-- A completed merge is no longer than its two inputs together. -/
  done_len : ∀ {b1 b2 : B} {m : M} {h : Int} (fuel : Int), MergerRun b1 b2 m h →
    0 < (Batch.work m b1 b2 fuel).2 →
      Batch.len (Batch.done (Batch.work m b1 b2 fuel).1 : B) ≤ Batch.len b1 + Batch.len b2
  /-- `recede_to` does not lengthen a batch. -/
  recede_len : ∀ (t : T) (b : B), Batch.len (Batch.recedeTo t b) ≤ Batch.len b

/-- `OrdIndexedZSet`'s merger and its `recede_to`, as `CountBatch` models them, obey the laws. -/
theorem countBatch_lenLaws : LenLaws CountBatch Nat Unit :=
  ⟨fun _ hr _ => by
    obtain ⟨rfl, -⟩ := CountBatch.mergerRun_eq hr
    exact (Nat.zero_add _).le, fun _ _ => le_rfl⟩

/-- A merger that copies one update per unit of fuel obeys the laws. -/
theorem copyBatch_lenLaws : LenLaws CopyBatch Int Unit :=
  ⟨fun _ hr hpos => (CopyBatch.work_done hr hpos).le, fun _ _ => le_rfl⟩

/-- The size bound of a level at `index`; the merger of a merge in progress is reached from
    `begin_merge` of its inputs. -/
def MergeState.Sized (index : Nat) : MergeState B M → Prop
  | .vacant => True
  | .single b => optLen b ≤ 2 ^ index
  | .double (.inProgress b1 b2 m) =>
    Batch.len b1 ≤ 2 ^ index ∧ Batch.len b2 ≤ 2 ^ index ∧ ∃ h, MergerRun b1 b2 m h
  | .double (.completed b) => optLen b ≤ 2 ^ (index + 1)

theorem pow_le_pow_succ (index : Nat) : 2 ^ index ≤ 2 ^ (index + 1) :=
  Nat.pow_le_pow_right (by decide) (Nat.le_succ index)

/-! ## One level -/

namespace MergeState

variable {index : Nat} {s s' : MergeState B M}

theorem sized_beginMerge {b1 b2 : Option B} (h1 : optLen b1 ≤ 2 ^ index)
    (h2 : optLen b2 ≤ 2 ^ index) : (beginMerge b1 b2 : MergeState B M).Sized index := by
  have := pow_le_pow_succ index
  rcases b1 with _ | b1 <;> rcases b2 with _ | b2 <;> simp only [beginMerge, Sized, optLen_none,
    optLen_some] at h1 h2 ⊢
  · omega
  · omega
  · omega
  · exact ⟨h1, h2, 0, .begin⟩

theorem Sized.work (hl : LenLaws B M T) (hs : s.Sized index) (fuel : Int) :
    (s.work fuel).Sized index := by
  rcases s with _ | b | (⟨b1, b2, m⟩ | b)
  · exact hs
  · exact hs
  · obtain ⟨h1, h2, h, hrun⟩ := hs
    simp only [MergeState.work, MergeVariant.work_inProgress]
    split_ifs with hpos
    · have := hl.done_len fuel hrun hpos
      simp only [Sized, optLen_some, Nat.two_pow_succ]
      omega
    · exact ⟨h1, h2, _, hrun.work fuel (not_lt.mp hpos)⟩
  · exact hs

/-- `complete` hands out at most `2^(index+1)` updates from a level at `index`. -/
theorem Sized.complete (hl : LenLaws B M T) (hs : s.Sized index) {b : Option B}
    (h : s.complete = .ok b) : optLen b ≤ 2 ^ (index + 1) := by
  rcases s with _ | b' | v
  · cases h
    simp
  · cases h
    exact hs.trans (pow_le_pow_succ index)
  · have hw := hs.work hl isizeMax
    simp only [MergeState.complete, MergeVariant.complete] at h
    simp only [MergeState.work] at hw
    generalize (v.work isizeMax).1 = w at h hw
    cases w with
    | inProgress => cases h
    | completed b' => cases h; exact hw

theorem Sized.insertSlot (hs : s.Sized index) {batch : Option B}
    (hb : optLen batch ≤ 2 ^ index) (h : Spine.insertSlot batch s = .ok s') : s'.Sized index := by
  rcases s with _ | old | v
  · cases h
    exact hb
  · cases h
    exact sized_beginMerge hs hb
  · cases h

end MergeState

open MergeState

/-! ## Levels -/

namespace Spine

variable {arith : Arith} {batch : Option B} {merging merging' : List (MergeState B M)}

theorem sized_insertAt : ∀ {index i : Nat} {merging merging' : List (MergeState B M)},
    AllLevels Sized i merging → optLen batch ≤ 2 ^ (i + index) →
      insertAt batch index merging = .ok merging' → AllLevels Sized i merging'
  | 0, i, [], _, _, hb, h => by
    obtain ⟨s', hs', rfl⟩ := map_eq_ok.mp h
    exact ⟨Sized.insertSlot (show MergeState.Sized i (.vacant : MergeState B M) from trivial) hb hs',
      trivial⟩
  | 0, i, s :: rest, _, hm, hb, h => by
    obtain ⟨s', hs', rfl⟩ := map_eq_ok.mp h
    exact ⟨hm.1.insertSlot hb hs', hm.2⟩
  | index + 1, i, [], _, _, hb, h => by
    obtain ⟨rest', hrest', rfl⟩ := map_eq_ok.mp h
    exact ⟨trivial, sized_insertAt (show AllLevels Sized (i + 1) ([] : List (MergeState B M)) from trivial)
      (by rwa [Nat.add_right_comm i 1, Nat.add_assoc]) hrest'⟩
  | index + 1, i, s :: rest, _, hm, hb, h => by
    obtain ⟨rest', hrest', rfl⟩ := map_eq_ok.mp h
    exact ⟨hm.1, sized_insertAt hm.2 (by rwa [Nat.add_right_comm i 1, Nat.add_assoc]) hrest'⟩

theorem sized_completeAt (hl : LenLaws B M T) : ∀ {index i : Nat} {merging merging' : List (MergeState B M)}
    {b : Option B}, AllLevels Sized i merging → completeAt index merging = .ok (b, merging') →
      optLen b ≤ 2 ^ (i + index + 1) ∧ AllLevels Sized i merging'
  | _, _, [], _, _, _, h => by simp [completeAt] at h
  | 0, i, s :: rest, _, _, hm, h => by
    obtain ⟨b', hb', he⟩ := map_eq_ok.mp h
    cases he
    exact ⟨hm.1.complete hl hb', trivial, hm.2⟩
  | index + 1, i, s :: rest, _, _, hm, h => by
    obtain ⟨⟨b', rest'⟩, hr, he⟩ := map_eq_ok.mp h
    cases he
    obtain ⟨hb, hrest⟩ := sized_completeAt hl hm.2 hr
    exact ⟨by rwa [show i + (index + 1) + 1 = i + 1 + index + 1 by omega], hm.1, hrest⟩

theorem sized_padTo {i : Nat} (index : Nat) (hm : AllLevels Sized i merging) :
    AllLevels Sized i (padTo index merging) :=
  (allLevels_append _ _).mpr ⟨hm, allLevels_replicate_vacant (fun _ => trivial) _⟩

theorem sized_rollPrefix (hl : LenLaws B M T) : ∀ {index i : Nat} {merged : Option B}
    {merging : List (MergeState B M)} {r : Option B × List (MergeState B M)},
    AllLevels Sized i merging → optLen merged ≤ 2 ^ i → rollPrefix index merged merging = .ok r →
      optLen r.1 ≤ 2 ^ (i + index) ∧ AllLevels Sized i r.2
  | 0, i, _, _, _, hm, hb, h => by cases h; exact ⟨hb, hm⟩
  | index + 1, i, _, [], _, _, hb, h => by
    cases h
    exact ⟨hb.trans (Nat.pow_le_pow_right (by decide) (by omega)), trivial⟩
  | index + 1, i, _, s :: rest, _, hm, hb, h => by
    simp only [rollPrefix, bind_eq_ok] at h
    obtain ⟨s', hs', merged', hmerged', ⟨merged'', rest'⟩, hr, he⟩ := h
    cases he
    obtain ⟨hb', hrest'⟩ := sized_rollPrefix hl hm.2 ((hm.1.insertSlot hb hs').complete hl hmerged') hr
    exact ⟨by rwa [Nat.add_right_comm i 1, Nat.add_assoc] at hb', trivial, hrest'⟩

theorem sized_rollUp (hl : LenLaws B M T) {index : Nat} (hm : AllLevels Sized 0 merging)
    (h : rollUp index merging = .ok merging') : AllLevels Sized 0 merging' := by
  simp only [rollUp] at h
  split_ifs at h with hany
  · simp only [bind_eq_ok] at h
    obtain ⟨⟨merged, m1⟩, hr, m2, hm2, h⟩ := h
    obtain ⟨hb1, hm1⟩ := sized_rollPrefix hl (sized_padTo index hm) (by simp) hr
    have hs2 := sized_insertAt hm1 hb1 hm2
    split_ifs at h with hd
    · obtain ⟨⟨merged', m3⟩, hc, h⟩ := bind_eq_ok.mp h
      obtain ⟨hb3, hm3⟩ := sized_completeAt hl hs2 hc
      exact sized_insertAt hm3 hb3 h
    · cases h
      exact hs2
  · cases h
    exact sized_padTo index hm

theorem sized_applyFuelFrom (hl : LenLaws B M T) (fuel : Int) :
    ∀ {rest : List (MergeState B M)} {s : MergeState B M} {i : Nat} {merging' : List (MergeState B M)},
    s.Sized i → AllLevels Sized (i + 1) rest → applyFuelFrom fuel s rest = .ok merging' →
      AllLevels Sized i merging'
  | [], s, i, _, hs, _, h => by
    simp only [applyFuelFrom] at h
    split_ifs at h
    · obtain ⟨c, hc, h⟩ := bind_eq_ok.mp h
      cases h
      exact ⟨trivial, (hs.work hl fuel).complete hl hc, trivial⟩
    · cases h
      exact ⟨hs.work hl fuel, trivial⟩
  | next :: rest, s, i, _, hs, hrest, h => by
    simp only [applyFuelFrom] at h
    split_ifs at h
    · simp only [bind_eq_ok] at h
      obtain ⟨c, hc, next', hnext', h⟩ := h
      obtain ⟨m', hm', rfl⟩ := fmap_eq_ok.mp h
      exact ⟨trivial, sized_applyFuelFrom hl fuel
        (hrest.1.insertSlot ((hs.work hl fuel).complete hl hc) hnext') hrest.2 hm'⟩
    · obtain ⟨m', hm', rfl⟩ := fmap_eq_ok.mp h
      exact ⟨hs.work hl fuel, sized_applyFuelFrom hl fuel hrest.1 hrest.2 hm'⟩

theorem sized_applyFuel (hl : LenLaws B M T) {fuel : Int} (hm : AllLevels Sized 0 merging)
    (h : applyFuel fuel merging = .ok merging') : AllLevels Sized 0 merging' := by
  cases merging with
  | nil => cases h; trivial
  | cons s rest => exact sized_applyFuelFrom hl fuel hm.1 hm.2 h

theorem sized_tidyDown {level : Nat} {top : Option B} (htop : optLen top ≤ 2 ^ level) :
    ∀ {rbelow merging' : List (MergeState B M)},
    AllLevels Sized 0 (rbelow.reverse ++ [.single top]) → tidyDown arith level top rbelow = .ok merging' →
      AllLevels Sized 0 merging'
  | [], _, hm, h => by cases h; simpa using hm
  | s :: rbelow, _, hm, h => by
    simp only [List.reverse_cons, List.append_assoc, List.singleton_append, allLevels_append,
      allLevels_cons, List.length_reverse, Nat.zero_add] at hm
    obtain ⟨hbelow, hs, htop', -⟩ := hm
    simp only [tidyDown] at h
    split_ifs at h with hlevel
    · have htop'' : optLen top ≤ 2 ^ rbelow.length :=
        htop.trans (Nat.pow_le_pow_right (by decide) (by omega))
      split at h
      · exact sized_tidyDown htop ((allLevels_append _ _).mpr ⟨hbelow, by simpa using htop''⟩) h
      · exact sized_tidyDown htop ((allLevels_append _ _).mpr ⟨hbelow, by simpa using htop''⟩) h
      · obtain ⟨fits, -, h⟩ := bind_eq_ok.mp h
        split_ifs at h <;> cases h <;> simp only [allLevels_append, allLevels_cons,
          List.length_reverse, Nat.zero_add]
        · exact ⟨hbelow, sized_beginMerge htop'' hs, trivial⟩
        · exact ⟨hbelow, hs, htop', trivial⟩
      · cases h
        simpa [allLevels_append] using ⟨hbelow, hs, htop'⟩
    · cases h
      simpa [allLevels_append] using ⟨hbelow, hs, htop'⟩

theorem sized_tidyLayers (hm : AllLevels Sized 0 merging)
    (h : tidyLayers arith merging = .ok merging') : AllLevels Sized 0 merging' := by
  unfold tidyLayers at h
  split at h
  · next top rbelow hrev =>
    have hlen : (MergeState.single top : MergeState B M).len = optLen top := by cases top <;> rfl
    refine sized_tidyDown (hlen.ge.trans (nextPowerOfTwoLog_spec _).1) ?_ h
    rwa [← List.reverse_cons, ← hrev, List.reverse_reverse]
  · cases h
    exact hm

theorem sized_completeMerges (hl : LenLaws B M T) {i : Nat} (hm : AllLevels Sized i merging)
    (h : completeMerges merging = .ok merging') : AllLevels Sized i merging' := by
  simp only [completeMerges] at h
  split_ifs at h
  cases h
  exact allLevels_map (fun _ s hs => by split_ifs <;> first | exact hs.work hl _ | exact hs) hm

theorem sized_mapBatchesMut (hl : LenLaws B M T) (frontier : T) {i : Nat}
    (hm : AllLevels Sized i merging)
    (h : mapBatchesMut (Batch.recedeTo frontier) merging = .ok merging') :
    AllLevels Sized i merging' := by
  refine allLevels_mapM (fun i s s' hs hs' => ?_) hm h
  have := hl.recede_len frontier
  rcases s with _ | (_ | b) | (⟨b1, b2, m⟩ | (_ | b)) <;> cases hs'
  · trivial
  · exact hs
  · exact (this b).trans hs
  · exact hs
  · exact (this b).trans hs

/-! ## The public operations -/

/-- The size bound of every level of a spine. -/
def Sized (sp : Spine B M) : Prop := AllLevels MergeState.Sized 0 sp.merging

variable {sp sp' : Spine B M}

end Spine

/-- A batch known by its length whose merger holds the merged length and finishes on its first
    call, and whose `recede_to` doubles it. -/
structure GrowBatch where
  len : Nat
  deriving DecidableEq, Repr

instance GrowBatch.instBatch : Batch GrowBatch Nat Unit where
  len b := b.len
  lowerEqUpper _ := false
  beginMerge b1 b2 := b1.len + b2.len
  work merged _ _ fuel := (merged, max (fuel - merged) 1)
  done merged := ⟨merged⟩
  recedeTo _ b := ⟨2 * b.len⟩

end DbspTrace
