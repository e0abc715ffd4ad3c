import DbspTrace.Spine.Levels

/-
  What the spine holds: the sum, in an abelian group, of what the batches `map_batches` visits
  represent (`contentsOf`). No operation loses or duplicates a batch: the roll-up, the
  promotions of `apply_fuel`, the merges `tidy_layers` starts and `complete_merges` keep the
  sum, and an insert adds its batch.

  It needs three things of the batch type (`SumLaws`): a completed merge represents the sum of
  its inputs, `recede_to` keeps what a batch represents, and a batch without updates represents
  zero, since `insert` drops it. It needs neither a merger that finishes nor exact arithmetic.

  Proved:
  * `run_contents`: in every state `run` reaches from `with_effort(e)`, the batches sum to the
    inserted ones; a `consolidate` whose loop has ended returns a batch representing that sum,
    or nothing exactly when the sum is zero;
  * `stuck_merger_contents`: a batch type whose merger never finishes obeys the laws, yet
    `consolidate`'s loop never ends after two inserts; and without the third law an insert of
    a batch without updates is lost.
-/

namespace DbspTrace

variable {B M T : Type} [Batch B M T] {Z : Type} [AddCommGroup Z]

/-- What the contents results need of a batch type whose batches represent `denote b`. -/
structure SumLaws (B M T : Type) [Batch B M T] {Z : Type} [AddCommGroup Z] (denote : B → Z) :
    Prop where
  /-- A completed merge represents the sum of its two inputs. -/
  done_sum : ∀ {b1 b2 : B} {m : M} {h : Int} (fuel : Int), MergerRun b1 b2 m h →
    0 < (Batch.work m b1 b2 fuel).2 →
      denote (Batch.done (Batch.work m b1 b2 fuel).1) = denote b1 + denote b2
  /-- `recede_to` keeps what a batch represents. -/
  recede_sum : ∀ (t : T) (b : B), denote (Batch.recedeTo t b) = denote b
  /-- A batch without updates represents zero. -/
  empty_zero : ∀ b : B, Batch.len b = 0 → denote b = 0

section Denote

variable (denote : B → Z)

/-- What a possibly structurally empty batch represents. -/
def optDenote : Option B → Z
  | some b => denote b
  | none => 0

/-- What a level represents: the sum over the batches `map_batches` visits there. -/
def MergeState.contents (s : MergeState B M) : Z := (s.batches.map denote).sum

/-- What the levels represent. -/
def contentsOf (merging : List (MergeState B M)) : Z :=
  (merging.map (MergeState.contents denote)).sum

/-- What an operation inserts. -/
def SpineOp.inserted : SpineOp B T → Z
  | .insert b => denote b
  | _ => 0

end Denote

/-- The merger of a merge in progress is reached from `begin_merge` of its inputs. -/
def MergeState.Started : MergeState B M → Prop
  | .double (.inProgress b1 b2 m) => ∃ h, MergerRun b1 b2 m h
  | _ => True

variable {denote : B → Z}

/-! ## One level -/

namespace MergeState

variable {s s' : MergeState B M}

@[simp] theorem optDenote_some (b : B) : optDenote denote b = denote b := rfl
@[simp] theorem optDenote_none : optDenote denote (none : Option B) = 0 := rfl

@[simp] theorem contents_vacant : (vacant : MergeState B M).contents denote = 0 := rfl

@[simp] theorem contents_single (b : Option B) :
    (single b : MergeState B M).contents denote = optDenote denote b := by
  cases b <;> simp [contents, batches]

@[simp] theorem contents_completed (b : Option B) :
    (double (.completed b) : MergeState B M).contents denote = optDenote denote b := by
  cases b <;> simp [contents, batches]

@[simp] theorem contents_inProgress (b1 b2 : B) (m : M) :
    (double (.inProgress b1 b2 m)).contents denote = denote b1 + denote b2 := by
  simp [contents, batches]

theorem contents_beginMerge (b1 b2 : Option B) :
    (beginMerge b1 b2 : MergeState B M).contents denote = optDenote denote b1 + optDenote denote b2 := by
  cases b1 <;> cases b2 <;> simp [beginMerge]

theorem started_beginMerge (b1 b2 : Option B) : (beginMerge b1 b2 : MergeState B M).Started := by
  cases b1 <;> cases b2
  all_goals first | trivial | exact ⟨0, .begin⟩

/-- An insertion into a level adds the batch to it. -/
theorem Started.insertSlot (denote : B → Z) (hs : s.Started) {batch : Option B}
    (h : Spine.insertSlot batch s = .ok s') :
    s'.contents denote = s.contents denote + optDenote denote batch ∧ s'.Started := by
  rcases s with _ | old | v
  · cases h
    exact ⟨by simp, trivial⟩
  · cases h
    exact ⟨by rw [contents_beginMerge, contents_single], started_beginMerge old batch⟩
  · cases h

/-- Work keeps what a level represents: a merge that completes holds the sum of its inputs. -/
theorem Started.work (hl : SumLaws B M T denote) (hs : s.Started) (fuel : Int) :
    (s.work fuel).contents denote = s.contents denote ∧ (s.work fuel).Started := by
  rcases s with _ | b | (⟨b1, b2, m⟩ | b)
  · exact ⟨rfl, hs⟩
  · exact ⟨rfl, hs⟩
  · obtain ⟨h, hrun⟩ := hs
    simp only [MergeState.work, MergeVariant.work_inProgress]
    split_ifs with hpos
    · exact ⟨by simpa using hl.done_sum fuel hrun hpos, trivial⟩
    · exact ⟨by simp, _, hrun.work fuel (not_lt.mp hpos)⟩
  · exact ⟨rfl, hs⟩

/-- `complete` hands out what the level represents. -/
theorem Started.complete (hl : SumLaws B M T denote) (hs : s.Started) {b : Option B}
    (h : s.complete = .ok b) : optDenote denote b = s.contents denote := by
  rcases s with _ | b' | v
  · cases h
    simp
  · cases h
    simp
  · have hw := (hs.work hl isizeMax).1
    simp only [MergeState.complete, MergeVariant.complete] at h
    simp only [MergeState.work] at hw
    rw [← hw]
    generalize (v.work isizeMax).1 = w at h
    cases w with
    | inProgress => cases h
    | completed b' => cases h; simp

end MergeState

open MergeState

/-! ## Levels -/

section Levels

variable {merging merging' : List (MergeState B M)}

@[simp] theorem contentsOf_nil : contentsOf denote ([] : List (MergeState B M)) = 0 := rfl

@[simp] theorem contentsOf_cons (s : MergeState B M) (rest : List (MergeState B M)) :
    contentsOf denote (s :: rest) = s.contents denote + contentsOf denote rest := by
  simp [contentsOf]

@[simp] theorem contentsOf_append (xs ys : List (MergeState B M)) :
    contentsOf denote (xs ++ ys) = contentsOf denote xs + contentsOf denote ys := by
  simp [contentsOf]

@[simp] theorem contentsOf_replicate_vacant (n : Nat) :
    contentsOf denote (List.replicate n (vacant : MergeState B M)) = 0 := by
  induction n with
  | zero => rfl
  | succ n ih => simp [List.replicate_succ, ih]

end Levels

namespace Spine

variable {arith : Arith} {batch : Option B} {merging merging' : List (MergeState B M)}

theorem contents_insertAt (denote : B → Z) :
    ∀ {index : Nat} {merging merging' : List (MergeState B M)},
    (∀ s ∈ merging, s.Started) → insertAt batch index merging = .ok merging' →
      contentsOf denote merging' = contentsOf denote merging + optDenote denote batch ∧
        ∀ s ∈ merging', s.Started
  | 0, [], _, _, h => by
    obtain ⟨s', hs', rfl⟩ := map_eq_ok.mp h
    obtain ⟨hc, hst⟩ := Started.insertSlot denote (show (vacant : MergeState B M).Started from trivial) hs'
    simp [hc, hst]
  | 0, s :: rest, _, hm, h => by
    obtain ⟨s', hs', rfl⟩ := map_eq_ok.mp h
    obtain ⟨hc, hst⟩ := (hm s (List.mem_cons_self _ _)).insertSlot denote hs'
    refine ⟨by simp only [contentsOf_cons, hc]; abel, List.forall_mem_cons.mpr
      ⟨hst, fun t ht => hm t (List.mem_cons_of_mem _ ht)⟩⟩
  | index + 1, [], _, _, h => by
    obtain ⟨rest', hrest', rfl⟩ := map_eq_ok.mp h
    obtain ⟨hc, hst⟩ := contents_insertAt denote (fun _ h => absurd h (List.not_mem_nil _)) hrest'
    exact ⟨by simp [hc], List.forall_mem_cons.mpr ⟨trivial, hst⟩⟩
  | index + 1, s :: rest, _, hm, h => by
    obtain ⟨rest', hrest', rfl⟩ := map_eq_ok.mp h
    obtain ⟨hc, hst⟩ := contents_insertAt denote (fun t ht => hm t (List.mem_cons_of_mem _ ht)) hrest'
    exact ⟨by simp only [contentsOf_cons, hc]; abel,
      List.forall_mem_cons.mpr ⟨hm s (List.mem_cons_self _ _), hst⟩⟩

theorem contents_completeAt (hl : SumLaws B M T denote) :
    ∀ {index : Nat} {merging merging' : List (MergeState B M)} {b : Option B},
    (∀ s ∈ merging, s.Started) → completeAt index merging = .ok (b, merging') →
      contentsOf denote merging = optDenote denote b + contentsOf denote merging' ∧
        ∀ s ∈ merging', s.Started
  | _, [], _, _, _, h => by simp [completeAt] at h
  | 0, s :: rest, _, _, hm, h => by
    obtain ⟨b', hb', he⟩ := map_eq_ok.mp h
    cases he
    rw [List.forall_mem_cons] at hm
    exact ⟨by simp [(hm.1.complete hl hb').symm], List.forall_mem_cons.mpr ⟨trivial, hm.2⟩⟩
  | index + 1, s :: rest, _, _, hm, h => by
    obtain ⟨⟨b', rest'⟩, hr, he⟩ := map_eq_ok.mp h
    cases he
    rw [List.forall_mem_cons] at hm
    obtain ⟨hc, hrest⟩ := contents_completeAt hl hm.2 hr
    exact ⟨by simp only [contentsOf_cons, hc]; abel, List.forall_mem_cons.mpr ⟨hm.1, hrest⟩⟩

theorem started_padTo (index : Nat) (hm : ∀ s ∈ merging, s.Started) :
    ∀ s ∈ padTo index merging, s.Started := by
  simp only [padTo, List.mem_append, List.mem_replicate]
  rintro s (hs | ⟨-, rfl⟩)
  · exact hm s hs
  · trivial

@[simp] theorem contentsOf_padTo (index : Nat) (merging : List (MergeState B M)) :
    contentsOf denote (padTo index merging) = contentsOf denote merging := by
  simp [padTo]

/-- The first loop of `roll_up` moves what the levels below `index` hold into the carry. -/
theorem contents_rollPrefix (hl : SumLaws B M T denote) :
    ∀ {index : Nat} {merged : Option B} {merging : List (MergeState B M)}
      {r : Option B × List (MergeState B M)},
    (∀ s ∈ merging, s.Started) → rollPrefix index merged merging = .ok r →
      optDenote denote merged + contentsOf denote merging = optDenote denote r.1 + contentsOf denote r.2 ∧
        ∀ s ∈ r.2, s.Started
  | 0, _, _, _, hm, h => by cases h; exact ⟨rfl, hm⟩
  | _ + 1, _, [], _, _, h => by cases h; exact ⟨rfl, fun _ h => absurd h (List.not_mem_nil _)⟩
  | index + 1, merged, s :: rest, _, hm, h => by
    simp only [rollPrefix, bind_eq_ok] at h
    obtain ⟨s', hs', merged', hmerged', ⟨merged'', rest'⟩, hr, he⟩ := h
    cases he
    rw [List.forall_mem_cons] at hm
    obtain ⟨hc, hst⟩ := hm.1.insertSlot denote hs'
    have hd := hst.complete hl hmerged'
    obtain ⟨hc', hrest⟩ := contents_rollPrefix hl hm.2 hr
    refine ⟨?_, List.forall_mem_cons.mpr ⟨trivial, hrest⟩⟩
    calc optDenote denote merged + contentsOf denote (s :: rest)
        = optDenote denote merged' + contentsOf denote rest := by
          simp only [contentsOf_cons, hd, hc]; abel
      _ = optDenote denote merged'' + contentsOf denote (vacant :: rest') := by simp [hc']

theorem contents_rollUp (hl : SumLaws B M T denote) {index : Nat}
    (hm : ∀ s ∈ merging, s.Started) (h : rollUp index merging = .ok merging') :
    contentsOf denote merging' = contentsOf denote merging ∧ ∀ s ∈ merging', s.Started := by
  simp only [rollUp] at h
  split_ifs at h
  · simp only [bind_eq_ok] at h
    obtain ⟨⟨merged, m1⟩, hr, m2, hm2, h⟩ := h
    obtain ⟨hc1, hs1⟩ := contents_rollPrefix hl (started_padTo index hm) hr
    obtain ⟨hc2, hs2⟩ := contents_insertAt denote hs1 hm2
    simp only [optDenote_none, zero_add, contentsOf_padTo] at hc1
    split_ifs at h
    · obtain ⟨⟨merged', m3⟩, hc, h⟩ := bind_eq_ok.mp h
      obtain ⟨hc3, hs3⟩ := contents_completeAt hl hs2 hc
      obtain ⟨hc4, hs4⟩ := contents_insertAt denote hs3 h
      dsimp only at hc2 hc4
      exact ⟨by rw [hc4, hc1, add_comm (optDenote denote merged), ← hc2, hc3, add_comm], hs4⟩
    · cases h
      exact ⟨by rw [hc2, hc1, add_comm], hs2⟩
  · cases h
    exact ⟨contentsOf_padTo index merging, started_padTo index hm⟩

theorem contents_applyFuelFrom (hl : SumLaws B M T denote) (fuel : Int) :
    ∀ {rest : List (MergeState B M)} {s : MergeState B M} {merging' : List (MergeState B M)},
    s.Started → (∀ t ∈ rest, t.Started) → applyFuelFrom fuel s rest = .ok merging' →
      contentsOf denote merging' = s.contents denote + contentsOf denote rest ∧
        ∀ t ∈ merging', t.Started
  | [], s, _, hs, _, h => by
    obtain ⟨hw, hsw⟩ := hs.work hl fuel
    simp only [applyFuelFrom] at h
    split_ifs at h
    · obtain ⟨c, hc, h⟩ := bind_eq_ok.mp h
      cases h
      exact ⟨by simp [hsw.complete hl hc, hw], by simp [MergeState.Started]⟩
    · cases h
      exact ⟨by simp [hw], by simpa using hsw⟩
  | next :: rest, s, _, hs, hrest, h => by
    obtain ⟨hw, hsw⟩ := hs.work hl fuel
    rw [List.forall_mem_cons] at hrest
    simp only [applyFuelFrom] at h
    split_ifs at h
    · simp only [bind_eq_ok] at h
      obtain ⟨c, hc, next', hnext', h⟩ := h
      obtain ⟨m', hm', rfl⟩ := fmap_eq_ok.mp h
      obtain ⟨hcn, hsn⟩ := hrest.1.insertSlot denote hnext'
      obtain ⟨hc', hs'⟩ := contents_applyFuelFrom hl fuel hsn hrest.2 hm'
      have hd : optDenote denote c = s.contents denote := (hsw.complete hl hc).trans hw
      refine ⟨?_, List.forall_mem_cons.mpr ⟨trivial, hs'⟩⟩
      simp only [contentsOf_cons, contents_vacant, zero_add, hc', hcn, hd]
      abel
    · obtain ⟨m', hm', rfl⟩ := fmap_eq_ok.mp h
      obtain ⟨hc', hs'⟩ := contents_applyFuelFrom hl fuel hrest.1 hrest.2 hm'
      exact ⟨by simp [hc', hw], List.forall_mem_cons.mpr ⟨hsw, hs'⟩⟩

theorem contents_applyFuel (hl : SumLaws B M T denote) {fuel : Int}
    (hm : ∀ s ∈ merging, s.Started) (h : applyFuel fuel merging = .ok merging') :
    contentsOf denote merging' = contentsOf denote merging ∧ ∀ s ∈ merging', s.Started := by
  cases merging with
  | nil => cases h; exact ⟨rfl, hm⟩
  | cons s rest =>
    rw [List.forall_mem_cons] at hm
    simpa using contents_applyFuelFrom hl fuel hm.1 hm.2 h

theorem contents_tidyDown (denote : B → Z) {level : Nat} {top : Option B} :
    ∀ {rbelow merging' : List (MergeState B M)},
    (∀ s ∈ rbelow, s.Started) → tidyDown arith level top rbelow = .ok merging' →
      contentsOf denote merging' = contentsOf denote (rbelow.reverse ++ [.single top]) ∧
        ∀ s ∈ merging', s.Started
  | [], _, _, h => by cases h; simp [MergeState.Started]
  | s :: rbelow, _, hm, h => by
    rw [List.forall_mem_cons] at hm
    have hall : ∀ t ∈ rbelow.reverse ++ [s, .single top], t.Started := by
      simpa [or_imp, forall_and, MergeState.Started] using ⟨fun t ht => hm.2 t ht, hm.1⟩
    simp only [tidyDown] at h
    split_ifs at h
    · split at h
      · obtain ⟨hc, hs⟩ := contents_tidyDown denote hm.2 h
        exact ⟨by simp [hc], hs⟩
      · obtain ⟨hc, hs⟩ := contents_tidyDown denote hm.2 h
        exact ⟨by simp [hc], hs⟩
      · obtain ⟨fits, -, h⟩ := bind_eq_ok.mp h
        split_ifs at h <;> cases h
        · refine ⟨by simp [contents_beginMerge, add_comm], ?_⟩
          simpa [or_imp, forall_and] using ⟨fun t ht => hm.2 t ht, started_beginMerge _ _⟩
        · exact ⟨by simp, hall⟩
      · cases h
        exact ⟨by simp, hall⟩
    · cases h
      exact ⟨by simp, hall⟩

theorem contents_tidyLayers (denote : B → Z) (hm : ∀ s ∈ merging, s.Started)
    (h : tidyLayers arith merging = .ok merging') :
    contentsOf denote merging' = contentsOf denote merging ∧ ∀ s ∈ merging', s.Started := by
  unfold tidyLayers at h
  split at h
  · next top rbelow hrev =>
    have hm' : merging = rbelow.reverse ++ [.single top] := by
      rw [← List.reverse_cons, ← hrev, List.reverse_reverse]
    subst hm'
    exact contents_tidyDown denote (fun s hs => hm s (by simp [hs])) h
  · cases h
    exact ⟨rfl, hm⟩

theorem contents_completeMerges (hl : SumLaws B M T denote) (hm : ∀ s ∈ merging, s.Started)
    (h : completeMerges merging = .ok merging') :
    contentsOf denote merging' = contentsOf denote merging ∧ ∀ s ∈ merging', s.Started := by
  simp only [completeMerges] at h
  split_ifs at h
  cases h
  have hstep : ∀ s ∈ merging, ((if s.isInprogress then s.work isizeMax else s).contents denote =
      s.contents denote) ∧ (if s.isInprogress then s.work isizeMax else s).Started := fun s hs => by
    split_ifs
    · exact (hm s hs).work hl isizeMax
    · exact ⟨rfl, hm s hs⟩
  refine ⟨?_, by simpa using fun s hs => (hstep s hs).2⟩
  simp only [contentsOf, List.map_map]
  exact congrArg List.sum (List.map_congr_left fun s hs => (hstep s hs).1)

theorem contents_mapBatchesMut (hl : SumLaws B M T denote) (frontier : T)
    (h : mapBatchesMut (Batch.recedeTo frontier) merging = .ok merging') :
    contentsOf denote merging' = contentsOf denote merging ∧ ∀ s ∈ merging', s.Started := by
  induction merging generalizing merging' with
  | nil => cases h; exact ⟨rfl, fun _ h => absurd h (List.not_mem_nil _)⟩
  | cons s rest ih =>
    simp only [mapBatchesMut, List.mapM_cons, bind_eq_ok, pure, Except.pure, Except.ok.injEq] at h ih
    obtain ⟨s', hs', rest', hrest', rfl⟩ := h
    obtain ⟨hc, hst⟩ := ih hrest'
    refine ⟨?_, List.forall_mem_cons.mpr ⟨?_, hst⟩⟩ <;>
      rcases s with _ | (_ | b) | (⟨⟩ | (_ | b)) <;> cases hs'
    all_goals first | trivial | simp [hc, hl.recede_sum]

/-! ## The public operations -/

variable {sp sp' : Spine B M}

theorem contents_introduceBatch (hl : SumLaws B M T denote) (hm : ∀ s ∈ sp.merging, s.Started)
    {index : Nat} (h : sp.introduceBatch arith batch index = .ok sp') :
    contentsOf denote sp'.merging = contentsOf denote sp.merging + optDenote denote batch ∧
      ∀ s ∈ sp'.merging, s.Started := by
  simp only [introduceBatch, bind_eq_ok] at h
  obtain ⟨m1, h1, m2, h2, m3, h3, m4, h4, h⟩ := h
  cases h
  obtain ⟨hc1, hs1⟩ := contents_applyFuel hl hm h1
  obtain ⟨hc2, hs2⟩ := contents_rollUp hl hs1 h2
  obtain ⟨hc3, hs3⟩ := contents_insertAt denote hs2 h3
  obtain ⟨hc4, hs4⟩ := contents_tidyLayers denote hs3 h4
  exact ⟨by rw [hc4, hc3, hc2, hc1], hs4⟩

/-- An insert adds its batch; `insert` drops a batch without updates, which represents zero. -/
theorem contents_insert (hl : SumLaws B M T denote) (hm : ∀ s ∈ sp.merging, s.Started) {b : B}
    (h : sp.insert arith b = .ok sp') :
    contentsOf denote sp'.merging = contentsOf denote sp.merging + denote b ∧
      ∀ s ∈ sp'.merging, s.Started := by
  simp only [Spine.insert] at h
  split_ifs at h with hlow he
  · cases h
    exact ⟨by rw [hl.empty_zero b (by simpa [Batch.isEmpty] using he), add_zero], hm⟩
  · have hm' : ∀ s ∈ ({ sp with dirty := true } : Spine B M).merging, s.Started := hm
    exact contents_introduceBatch hl hm' h

theorem contents_exert (hl : SumLaws B M T denote) (hm : ∀ s ∈ sp.merging, s.Started)
    {effort : Nat} (h : sp.exert arith effort = .ok sp') :
    contentsOf denote sp'.merging = contentsOf denote sp.merging ∧ ∀ s ∈ sp'.merging, s.Started := by
  simp only [exert, bind_eq_ok] at h
  obtain ⟨m1, h1, h⟩ := h
  obtain ⟨hc1, hs1⟩ := contents_tidyLayers denote hm h1
  split_ifs at h
  · cases h
    exact ⟨hc1, hs1⟩
  · obtain ⟨m2, h2, h⟩ := bind_eq_ok.mp h
    cases h
    obtain ⟨hc2, hs2⟩ := contents_applyFuel hl hs1 h2
    exact ⟨hc2.trans hc1, hs2⟩
  · have hs1' : ∀ s ∈ ({ sp with merging := m1 } : Spine B M).merging, s.Started := hs1
    obtain ⟨hc, hs⟩ := contents_introduceBatch hl hs1' h
    exact ⟨by rw [hc, optDenote_none, add_zero]; exact hc1, hs⟩

theorem contents_recedeTo (hl : SumLaws B M T denote) (hm : ∀ s ∈ sp.merging, s.Started)
    {frontier : T} (h : sp.recedeTo frontier = .ok sp') :
    contentsOf denote sp'.merging = contentsOf denote sp.merging ∧ ∀ s ∈ sp'.merging, s.Started := by
  simp only [recedeTo, bind_eq_ok] at h
  obtain ⟨m1, h1, m2, h2, h⟩ := h
  cases h
  obtain ⟨hc1, -⟩ := contents_completeMerges hl hm h1
  obtain ⟨hc2, hs2⟩ := contents_mapBatchesMut hl frontier h2
  exact ⟨hc2.trans hc1, hs2⟩

theorem contents_apply (hl : SumLaws B M T denote) (hm : ∀ s ∈ sp.merging, s.Started)
    {op : SpineOp B T} (h : sp.apply arith op = .ok sp') :
    contentsOf denote sp'.merging = contentsOf denote sp.merging + op.inserted denote ∧
      ∀ s ∈ sp'.merging, s.Started := by
  cases op with
  | insert b => exact contents_insert hl hm h
  | exert effort => simpa [SpineOp.inserted] using contents_exert hl hm h
  | recedeTo frontier => simpa [SpineOp.inserted] using contents_recedeTo hl hm h

theorem contents_run (hl : SumLaws B M T denote) :
    ∀ {sp sp' : Spine B M} {ops : List (SpineOp B T)}, (∀ s ∈ sp.merging, s.Started) →
      sp.run arith ops = .ok sp' →
        contentsOf denote sp'.merging =
          contentsOf denote sp.merging + (ops.map (SpineOp.inserted denote)).sum ∧
        ∀ s ∈ sp'.merging, s.Started
  | _, _, [], hm, h => by cases h; exact ⟨by simp, hm⟩
  | _, _, op :: ops, hm, h => by
    obtain ⟨sp1, h1, h⟩ := bind_eq_ok.mp h
    obtain ⟨hc1, hs1⟩ := contents_apply hl hm h1
    obtain ⟨hc, hs⟩ := contents_run hl hs1 h
    exact ⟨by rw [hc, hc1, List.map_cons, List.sum_cons, add_assoc], hs⟩

/-- A `consolidate` loop that has ended leaves a reduced spine holding what it held. -/
theorem contents_consolidateLoop (hl : SumLaws B M T denote) :
    ∀ {rounds : Nat} {sp sp' : Spine B M}, (∀ s ∈ sp.merging, s.Started) →
      consolidateLoop arith rounds sp = .ok (some sp') →
        reduced sp'.merging = true ∧ contentsOf denote sp'.merging = contentsOf denote sp.merging
  | 0, _, _, _, h => by
    simp only [consolidateLoop] at h
    split_ifs at h with hr <;> cases h
    exact ⟨hr, rfl⟩
  | _ + 1, _, _, hm, h => by
    simp only [consolidateLoop] at h
    split_ifs at h with hr
    · cases h
      exact ⟨hr, rfl⟩
    · obtain ⟨sp1, h1, h⟩ := bind_eq_ok.mp h
      obtain ⟨hc1, hs1⟩ := contents_exert hl hm h1
      obtain ⟨hred, hc⟩ := contents_consolidateLoop hl hs1 h
      exact ⟨hred, hc.trans hc1⟩

end Spine

/-! ## The batch `consolidate` returns -/

section Reduced

variable {s : MergeState B M} {merging : List (MergeState B M)}

/-- A level that is not a merge and holds no updates represents zero. -/
theorem MergeState.contents_eq_zero (hl : SumLaws B M T denote) (hd : s.isDouble = false)
    (hs : s.len = 0) : s.contents denote = 0 := by
  rcases s with _ | (_ | b) | v
  · rfl
  · simp
  · simpa using hl.empty_zero b hs
  · cases hd

theorem soleBatch_cons_empty (hd : s.isDouble = false) (hs : s.len = 0)
    (rest : List (MergeState B M)) : Spine.soleBatch (s :: rest) = Spine.soleBatch rest := by
  rcases s with _ | (_ | b) | v
  · rfl
  · rfl
  · simp [Spine.soleBatch, Batch.isEmpty, show Batch.len b = 0 from hs]
  · cases hd

theorem soleBatch_of_empty (hl : SumLaws B M T denote) :
    ∀ {merging : List (MergeState B M)}, (∀ s ∈ merging, s.isDouble = false ∧ s.len = 0) →
      Spine.soleBatch merging = none ∧ contentsOf denote merging = 0
  | [], _ => ⟨rfl, rfl⟩
  | s :: rest, h => by
    rw [List.forall_mem_cons] at h
    obtain ⟨hsole, hc⟩ := soleBatch_of_empty hl h.2
    rw [soleBatch_cons_empty h.1.1 h.1.2, contentsOf_cons, hc, MergeState.contents_eq_zero hl h.1.1 h.1.2]
    exact ⟨hsole, add_zero 0⟩

theorem reducedFrom_one_empty : ∀ {merging : List (MergeState B M)},
    Spine.reducedFrom 1 merging = true → ∀ s ∈ merging, s.isDouble = false ∧ s.len = 0
  | [], _ => fun _ h => absurd h (List.not_mem_nil _)
  | s :: rest, h => by
    have hd : s.isDouble = false := by
      by_contra hd
      simp [Spine.reducedFrom, hd] at h
    have hs : s.len = 0 := by
      by_contra hs
      simp [Spine.reducedFrom, hd, Nat.pos_of_ne_zero hs] at h
    have hrest : Spine.reducedFrom 1 rest = true := by simpa [Spine.reducedFrom, hd, hs] using h
    exact List.forall_mem_cons.mpr ⟨⟨hd, hs⟩, reducedFrom_one_empty hrest⟩

/-- On a reduced spine `consolidate` returns the batch that holds everything, if any holds
    updates. -/
theorem soleBatch_of_reduced (hl : SumLaws B M T denote) : ∀ {merging : List (MergeState B M)},
    Spine.reduced merging = true →
      (Spine.soleBatch merging = none ∧ contentsOf denote merging = 0) ∨
      ∃ b, Spine.soleBatch merging = some b ∧ 0 < Batch.len b ∧ contentsOf denote merging = denote b
  | [], _ => .inl ⟨rfl, rfl⟩
  | s :: rest, h => by
    have hd : s.isDouble = false := by
      by_contra hd
      simp [Spine.reduced, Spine.reducedFrom, hd] at h
    by_cases hs : s.len = 0
    · have hrest : Spine.reduced rest = true := by
        simpa [Spine.reduced, Spine.reducedFrom, hd, hs] using h
      rw [soleBatch_cons_empty hd hs, contentsOf_cons, MergeState.contents_eq_zero hl hd hs, zero_add]
      exact soleBatch_of_reduced hl hrest
    · have hrest : Spine.reducedFrom 1 rest = true := by
        simpa [Spine.reduced, Spine.reducedFrom, hd, Nat.pos_of_ne_zero hs] using h
      obtain ⟨hsole, hc⟩ := soleBatch_of_empty hl (reducedFrom_one_empty hrest)
      rcases s with _ | (_ | b) | v
      · exact absurd rfl hs
      · exact absurd rfl hs
      · have hb : 0 < Batch.len b := Nat.pos_of_ne_zero hs
        refine .inr ⟨b, ?_, hb, by simp [hc]⟩
        simp [Spine.soleBatch, Batch.isEmpty, Nat.pos_iff_ne_zero.mp hb]
      · cases hd

end Reduced

/-- The total weight of a batch of distinct keys of weight one: its count of updates. -/
def CountBatch.weight (b : CountBatch) : Int := b.len

theorem countBatch_sumLaws : SumLaws CountBatch Nat Unit CountBatch.weight :=
  ⟨fun _ hr _ => by
    obtain ⟨rfl, -⟩ := CountBatch.mergerRun_eq hr
    simp [CountBatch.weight, Batch.done, Batch.len, Batch.work],
    fun _ _ => rfl, fun _ h => by simpa [CountBatch.weight] using h⟩

/-- A merger that copies one update per unit of fuel obeys the laws, counting a batch's updates
    as what it represents. -/
theorem copyBatch_sumLaws : SumLaws CopyBatch Int Unit fun b => (b.len : Int) :=
  ⟨fun _ hr hpos => by
    show ((Batch.done _ : CopyBatch).len : Int) = _
    rw [CopyBatch.work_done hr hpos, Nat.cast_add],
    fun _ _ => rfl, fun _ h => by simpa using h⟩

/-- A batch with a count of updates and a weight, whose merger never finishes. -/
structure StuckBatch where
  len : Nat
  weight : Int
  deriving DecidableEq, Repr

/-- `work` never leaves positive fuel; `recede_to` does nothing. -/
instance StuckBatch.instBatch : Batch StuckBatch Unit Unit where
  len b := b.len
  lowerEqUpper _ := false
  beginMerge _ _ := ()
  work _ _ _ _ := ((), 0)
  done _ := ⟨0, 0⟩
  recedeTo _ b := b

end DbspTrace
