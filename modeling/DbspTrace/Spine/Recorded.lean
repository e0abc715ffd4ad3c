import DbspTrace.Spine.Deficit

/-
  The fuel the spine hands to each merge, recorded. The code keeps no count of it, so the batch
  type is instrumented instead (`Recorded`): its merger is the merger of `B` paired with the fuel
  handed to `work` so far, and nothing else changes. The spine is generic in its batch type, so
  the spine over `Recorded B` makes the calls the spine over `B` makes, and forgetting the records
  (`Spine.forget`) gives the code's spine back after every operation.

  Proved:
  * `Spine.run_forget`: the spine over `Recorded B` simulates the spine over `B` step for step: a
    run of the recorded operations, with the records forgotten, is the run of the operations,
    panics included (`Spine.run_record` from `with_effort(e)`);
  * `Recorded.mergerRun_iff`: a recorded merger holds exactly the fuel handed to it;
  * `Recorded.mergeLaws`: the instrumented batch type obeys the laws `B` obeys.
-/

namespace DbspTrace

variable {B M T : Type} [Batch B M T]

/-- A batch of `B` in a spine whose mergers record the fuel handed to them. -/
structure Recorded (B : Type) where
  batch : B
  deriving DecidableEq, Repr

/-- `B`, each merger paired with the fuel handed to its `work` calls so far. -/
instance Recorded.instBatch : Batch (Recorded B) (M × Int) T where
  len b := Batch.len b.batch
  lowerEqUpper b := Batch.lowerEqUpper b.batch
  beginMerge b1 b2 := (Batch.beginMerge b1.batch b2.batch, 0)
  work m b1 b2 fuel :=
    (((Batch.work m.1 b1.batch b2.batch fuel).1, m.2 + fuel), (Batch.work m.1 b1.batch b2.batch fuel).2)
  done m := ⟨Batch.done m.1⟩
  recedeTo t b := ⟨Batch.recedeTo t b.batch⟩

namespace Recorded

variable (b b1 b2 : Recorded B) (m : M × Int) (fuel : Int) (t : T)

@[simp] theorem len_eq : Batch.len b = Batch.len b.batch := rfl
@[simp] theorem lowerEqUpper_eq : Batch.lowerEqUpper b = Batch.lowerEqUpper b.batch := rfl
@[simp] theorem isEmpty_eq : Batch.isEmpty b = Batch.isEmpty b.batch := rfl
@[simp] theorem beginMerge_eq :
    (Batch.beginMerge b1 b2 : M × Int) = (Batch.beginMerge b1.batch b2.batch, 0) := rfl
@[simp] theorem work_eq : Batch.work m b1 b2 fuel =
    (((Batch.work m.1 b1.batch b2.batch fuel).1, m.2 + fuel),
      (Batch.work m.1 b1.batch b2.batch fuel).2) := rfl
@[simp] theorem done_eq : (Batch.done m : Recorded B) = ⟨Batch.done m.1⟩ := rfl
@[simp] theorem recedeTo_eq : Batch.recedeTo t b = ⟨Batch.recedeTo t b.batch⟩ := rfl

end Recorded

/-! ## Forgetting the records -/

/-- The merge with its merger's record dropped. -/
def MergeVariant.forget : MergeVariant (Recorded B) (M × Int) → MergeVariant B M
  | .inProgress b1 b2 m => .inProgress b1.batch b2.batch m.1
  | .completed b => .completed (b.map Recorded.batch)

/-- The level with its merger's record dropped. -/
def MergeState.forget : MergeState (Recorded B) (M × Int) → MergeState B M
  | .vacant => .vacant
  | .single b => .single (b.map Recorded.batch)
  | .double v => .double v.forget

/-- The spine the code holds: the levels with their records dropped. -/
def Spine.forget (sp : Spine (Recorded B) (M × Int)) : Spine B M :=
  ⟨sp.merging.map MergeState.forget, sp.effort, sp.dirty⟩

/-- The operation on the instrumented spine. -/
def SpineOp.record : SpineOp B T → SpineOp (Recorded B) T
  | .insert batch => .insert ⟨batch⟩
  | .exert effort => .exert effort
  | .recedeTo frontier => .recedeTo frontier

section Except

variable {α β γ : Type} {x : Except String α}

theorem map_bind_eq {f : α → Except String β} {g : β → γ} :
    (x >>= f).map g = x >>= fun a => (f a).map g := by
  cases x <;> rfl

theorem bind_map_eq {f : α → β} {g : β → Except String γ} :
    x.map f >>= g = x >>= fun a => g (f a) := by
  cases x <;> rfl

theorem map_map_eq {f : α → β} {g : β → γ} : (x.map f).map g = x.map (g ∘ f) := by
  cases x <;> rfl

theorem fmap_eq_map {f : α → β} : f <$> x = x.map f := rfl

theorem map_pure_eq {a : α} {f : α → β} : (pure a : Except String α).map f = pure (f a) := rfl

end Except

namespace MergeState

variable (s : MergeState (Recorded B) (M × Int))

@[simp] theorem forget_vacant : (vacant : MergeState (Recorded B) (M × Int)).forget = vacant := rfl
@[simp] theorem forget_single (b : Option (Recorded B)) :
    (single b : MergeState (Recorded B) (M × Int)).forget = single (b.map Recorded.batch) := rfl

@[simp] theorem forget_len : s.forget.len = s.len := by
  rcases s with _ | (_ | b) | (⟨b1, b2, m⟩ | (_ | b)) <;> rfl

@[simp] theorem forget_isVacant : s.forget.isVacant = s.isVacant := by
  rcases s with _ | _ | (_ | _) <;> rfl

@[simp] theorem forget_isDouble : s.forget.isDouble = s.isDouble := by
  rcases s with _ | _ | (_ | _) <;> rfl

@[simp] theorem forget_isComplete : s.forget.isComplete = s.isComplete := by
  rcases s with _ | _ | (_ | _) <;> rfl

@[simp] theorem forget_isInprogress : s.forget.isInprogress = s.isInprogress := by
  rcases s with _ | _ | (_ | _) <;> rfl

@[simp] theorem forget_weight (index : Nat) : s.forget.weight index = s.weight index := by
  rcases s with _ | _ | (_ | _) <;> rfl

@[simp] theorem forget_beginMerge (b1 b2 : Option (Recorded B)) :
    (beginMerge b1 b2 : MergeState (Recorded B) (M × Int)).forget =
      beginMerge (b1.map Recorded.batch) (b2.map Recorded.batch) := by
  rcases b1 with _ | _ <;> rcases b2 with _ | _ <;> rfl

@[simp] theorem forget_work (fuel : Int) : (s.work fuel).forget = s.forget.work fuel := by
  rcases s with _ | _ | (⟨b1, b2, m⟩ | b)
  · rfl
  · rfl
  · simp only [work, forget, MergeVariant.forget, MergeVariant.work_inProgress, Recorded.work_eq]
    split_ifs <;> rfl
  · rfl

/-- The levels holding a given merge in progress of the code's spine: that merge, its merger
    paired with some record. -/
theorem forget_eq_inProgress {b1 b2 : B} {m : M} :
    s.forget = .double (.inProgress b1 b2 m) ↔
      ∃ handed, s = .double (.inProgress ⟨b1⟩ ⟨b2⟩ (m, handed)) := by
  constructor
  · intro h
    rcases s with _ | _ | (⟨⟨c1⟩, ⟨c2⟩, ⟨m', handed⟩⟩ | _) <;>
      simp only [forget, MergeVariant.forget, double.injEq, MergeVariant.inProgress.injEq,
        reduceCtorEq] at h
    obtain ⟨rfl, rfl, rfl⟩ := h
    exact ⟨handed, rfl⟩
  · rintro ⟨handed, rfl⟩
    rfl

theorem forget_complete : s.complete.map (Option.map Recorded.batch) = s.forget.complete := by
  rcases s with _ | _ | (⟨b1, b2, m⟩ | b)
  · rfl
  · rfl
  · simp only [complete, MergeVariant.complete, forget, MergeVariant.forget,
      MergeVariant.work_inProgress, Recorded.work_eq]
    split_ifs <;> rfl
  · rfl

end MergeState

section Levels

variable (merging : List (MergeState (Recorded B) (M × Int)))

@[simp] theorem forget_getD_isDouble (index : Nat) :
    ((merging.map MergeState.forget).getD index .vacant).isDouble =
      (merging.getD index .vacant).isDouble := by
  induction merging generalizing index with
  | nil => rfl
  | cons s rest ih =>
    cases index with
    | zero => exact MergeState.forget_isDouble s
    | succ index => exact ih index

@[simp] theorem forget_any_notVacant :
    (merging.map MergeState.forget).any (fun s => !s.isVacant) = merging.any fun s => !s.isVacant := by
  induction merging <;> simp [*]

@[simp] theorem forget_any_isDouble :
    (merging.map MergeState.forget).any MergeState.isDouble = merging.any MergeState.isDouble := by
  induction merging <;> simp [*]

@[simp] theorem forget_lenSum : lenSum (merging.map MergeState.forget) = lenSum merging := by
  simp [lenSum, Function.comp_def]

@[simp] theorem forget_weightFrom (index : Nat) :
    weightFrom index (merging.map MergeState.forget) = weightFrom index merging := by
  induction merging generalizing index <;> simp [weightFrom, *]

end Levels

theorem map_ite_eq {α β : Type} {c : Prop} [Decidable c] {x y : Except String α} {f : α → β} :
    (if c then x else y).map f = if c then x.map f else y.map f := by
  split <;> rfl

namespace Spine

variable (batch : Option (Recorded B))

theorem forget_insertSlot (s : MergeState (Recorded B) (M × Int)) :
    (insertSlot batch s).map MergeState.forget = insertSlot (batch.map Recorded.batch) s.forget := by
  rcases s with _ | old | v
  · rfl
  · exact congrArg Except.ok (MergeState.forget_beginMerge old batch)
  · rfl

theorem forget_insertAt : ∀ (index : Nat) (merging : List (MergeState (Recorded B) (M × Int))),
    (insertAt batch index merging).map (List.map MergeState.forget) =
      insertAt (batch.map Recorded.batch) index (merging.map MergeState.forget)
  | 0, [] => rfl
  | 0, s :: rest => by
    simp only [insertAt, List.map_cons, ← forget_insertSlot, map_map_eq]
    rfl
  | index + 1, [] => by
    have ih := forget_insertAt index []
    rw [List.map_nil] at ih
    simp only [insertAt, List.map_nil, ← ih, map_map_eq]
    rfl
  | index + 1, s :: rest => by
    simp only [insertAt, List.map_cons, ← forget_insertAt index rest, map_map_eq]
    rfl

theorem forget_completeAt : ∀ (index : Nat) (merging : List (MergeState (Recorded B) (M × Int))),
    (completeAt index merging).map (fun r => (r.1.map Recorded.batch, r.2.map MergeState.forget)) =
      completeAt index (merging.map MergeState.forget)
  | 0, [] | _ + 1, [] => rfl
  | 0, s :: rest => by
    simp only [completeAt, List.map_cons, ← MergeState.forget_complete, map_map_eq]
    rfl
  | index + 1, s :: rest => by
    simp only [completeAt, List.map_cons, ← forget_completeAt index rest, map_map_eq]
    rfl

theorem forget_padTo (index : Nat) (merging : List (MergeState (Recorded B) (M × Int))) :
    (padTo index merging).map MergeState.forget = padTo index (merging.map MergeState.forget) := by
  simp [padTo]

theorem forget_rollPrefix : ∀ (index : Nat) (merged : Option (Recorded B))
    (merging : List (MergeState (Recorded B) (M × Int))),
    (rollPrefix index merged merging).map
        (fun r => (r.1.map Recorded.batch, r.2.map MergeState.forget)) =
      rollPrefix index (merged.map Recorded.batch) (merging.map MergeState.forget)
  | 0, _, _ => rfl
  | _ + 1, _, [] => rfl
  | index + 1, merged, s :: rest => by
    simp only [rollPrefix, List.map_cons, ← forget_insertSlot, bind_map_eq, map_bind_eq,
      ← MergeState.forget_complete, ← forget_rollPrefix index]
    rfl

theorem forget_rollUp (index : Nat) (merging : List (MergeState (Recorded B) (M × Int))) :
    (rollUp index merging).map (List.map MergeState.forget) =
      rollUp index (merging.map MergeState.forget) := by
  simp only [rollUp, ← forget_padTo, ← List.map_take, forget_any_notVacant]
  split_ifs
  · have := forget_rollPrefix index none (padTo index merging)
    simp only [Option.map_none'] at this
    simp only [map_bind_eq, ← this, bind_map_eq, ← forget_insertAt, forget_getD_isDouble,
      map_ite_eq, ← forget_completeAt]
    rfl
  · rfl

theorem forget_applyFuelFrom (fuel : Int) : ∀ (s : MergeState (Recorded B) (M × Int))
    (rest : List (MergeState (Recorded B) (M × Int))),
    (applyFuelFrom fuel s rest).map (List.map MergeState.forget) =
      applyFuelFrom fuel s.forget (rest.map MergeState.forget)
  | s, [] => by
    simp only [applyFuelFrom, List.map_nil, ← MergeState.forget_work, MergeState.forget_isComplete,
      map_ite_eq, map_bind_eq, ← MergeState.forget_complete, bind_map_eq]
    rfl
  | s, next :: rest => by
    simp only [applyFuelFrom, List.map_cons, ← MergeState.forget_work,
      MergeState.forget_isComplete, map_ite_eq, map_bind_eq, ← MergeState.forget_complete,
      bind_map_eq, ← forget_insertSlot, fmap_eq_map, ← forget_applyFuelFrom, map_map_eq]
    rfl

theorem forget_applyFuel (fuel : Int) (merging : List (MergeState (Recorded B) (M × Int))) :
    (applyFuel fuel merging).map (List.map MergeState.forget) =
      applyFuel fuel (merging.map MergeState.forget) := by
  cases merging with
  | nil => rfl
  | cons s rest => exact forget_applyFuelFrom fuel s rest

theorem forget_smallerFrom (arith : Arith) : ∀ (index : Nat) (smaller : Int)
    (merging : List (MergeState (Recorded B) (M × Int))),
    smallerFrom arith index smaller (merging.map MergeState.forget) =
      smallerFrom arith index smaller merging
  | _, _, [] => rfl
  | index, smaller, s :: rest => by
    rcases s with _ | _ | _ <;> simp only [smallerFrom, List.map_cons, MergeState.forget,
      forget_smallerFrom]

theorem forget_fitsBelow (arith : Arith) (below : List (MergeState (Recorded B) (M × Int)))
    (length : Nat) : fitsBelow arith (below.map MergeState.forget) length = fitsBelow arith below length := by
  simp only [fitsBelow, forget_smallerFrom]

theorem forget_tidyDown (arith : Arith) (level : Nat) (top : Option (Recorded B)) :
    ∀ rbelow : List (MergeState (Recorded B) (M × Int)),
    (tidyDown arith level top rbelow).map (List.map MergeState.forget) =
      tidyDown arith level (top.map Recorded.batch) (rbelow.map MergeState.forget)
  | [] => rfl
  | s :: rbelow => by
    simp only [tidyDown, List.map_cons, List.length_map]
    split_ifs
    · match s with
      | .vacant | .single none => exact forget_tidyDown arith level top rbelow
      | .single (some batch) =>
        simp only [MergeState.forget_single, Option.map_some', ← List.map_reverse,
          forget_fitsBelow, map_bind_eq, map_ite_eq, map_ok, List.map_append, List.map_cons,
          List.map_nil, MergeState.forget_beginMerge]
      | .double v => simp [MergeState.forget]
    · simp [MergeState.forget]

theorem forget_tidyLayers (arith : Arith) (merging : List (MergeState (Recorded B) (M × Int))) :
    (tidyLayers arith merging).map (List.map MergeState.forget) =
      tidyLayers arith (merging.map MergeState.forget) := by
  unfold tidyLayers
  rw [← List.map_reverse]
  rcases merging.reverse with _ | ⟨_ | top | v, rbelow⟩
  · rfl
  · rfl
  · have hlen : (MergeState.single (top.map Recorded.batch) : MergeState B M).len =
        (MergeState.single top : MergeState (Recorded B) (M × Int)).len :=
      MergeState.forget_len (.single top)
    simp only [List.map_cons, MergeState.forget_single, hlen, ← forget_tidyDown]
  · rfl

theorem forget_reducedFrom : ∀ (nonEmpty : Nat) (merging : List (MergeState (Recorded B) (M × Int))),
    reducedFrom nonEmpty (merging.map MergeState.forget) = reducedFrom nonEmpty merging
  | _, [] => rfl
  | nonEmpty, s :: rest => by
    simp only [reducedFrom, List.map_cons, MergeState.forget_isDouble, MergeState.forget_len,
      forget_reducedFrom]

theorem forget_completeMerges (merging : List (MergeState (Recorded B) (M × Int))) :
    (completeMerges merging).map (List.map MergeState.forget) =
      completeMerges (merging.map MergeState.forget) := by
  have hmap : (merging.map fun s => if s.isInprogress then s.work isizeMax else s).map
      MergeState.forget = (merging.map MergeState.forget).map
        fun s => if s.isInprogress then s.work isizeMax else s := by
    simp only [List.map_map]
    exact List.map_congr_left fun s _ => by
      simp only [Function.comp, MergeState.forget_isInprogress]
      split_ifs <;> simp
  have hall : ∀ l : List (MergeState (Recorded B) (M × Int)),
      (l.map MergeState.forget).all (fun m => !m.isInprogress) = l.all fun m => !m.isInprogress := by
    intro l
    induction l <;> simp [*]
  simp only [completeMerges, ← hmap, hall, map_ite_eq]
  rfl

/-- `map_batches_mut` with a function `g` on recorded batches that does what `f` does. -/
theorem forget_mapBatchesMut (f : B → B) (g : Recorded B → Recorded B)
    (hg : ∀ b, (g b).batch = f b.batch) :
    ∀ merging : List (MergeState (Recorded B) (M × Int)),
    (mapBatchesMut g merging).map (List.map MergeState.forget) =
      mapBatchesMut f (merging.map MergeState.forget)
  | [] => rfl
  | s :: rest => by
    have ih := forget_mapBatchesMut f g hg rest
    simp only [mapBatchesMut] at ih ⊢
    rcases s with _ | (_ | b) | (⟨b1, b2, m⟩ | (_ | b))
    all_goals simp only [List.mapM_cons, List.map_cons, map_bind_eq, ← ih, bind_map_eq, ok_bind,
      map_pure_eq, MergeState.forget, MergeVariant.forget, Option.map_some', Option.map_none', hg]
    all_goals rfl

theorem forget_introduceBatch (arith : Arith) (sp : Spine (Recorded B) (M × Int))
    (batch : Option (Recorded B)) (batchIndex : Nat) :
    (introduceBatch arith sp batch batchIndex).map Spine.forget =
      introduceBatch arith sp.forget (batch.map Recorded.batch) batchIndex := by
  simp only [introduceBatch, Spine.forget, map_bind_eq, ← forget_applyFuel, bind_map_eq,
    ← forget_rollUp, ← forget_insertAt, ← forget_tidyLayers]
  rfl

theorem forget_insert (arith : Arith) (sp : Spine (Recorded B) (M × Int)) (batch : Recorded B) :
    (sp.insert arith batch).map Spine.forget = sp.forget.insert arith batch.batch := by
  simp only [insert, Recorded.lowerEqUpper_eq, Recorded.isEmpty_eq, Recorded.len_eq]
  split_ifs
  · rfl
  · rfl
  · exact forget_introduceBatch arith { sp with dirty := true } (some batch) _

theorem forget_exert (arith : Arith) (sp : Spine (Recorded B) (M × Int)) (effort : Nat) :
    (sp.exert arith effort).map Spine.forget = sp.forget.exert arith effort := by
  simp only [exert, map_bind_eq, Spine.forget, ← forget_tidyLayers, bind_map_eq]
  congr 1
  funext merging
  simp only [reduced, forget_reducedFrom, forget_any_isDouble]
  split_ifs
  · rfl
  · simp only [map_bind_eq, ← forget_applyFuel, bind_map_eq]
    rfl
  · exact forget_introduceBatch arith { sp with merging } none _

theorem forget_recedeTo (sp : Spine (Recorded B) (M × Int)) (frontier : T) :
    (sp.recedeTo frontier).map Spine.forget = sp.forget.recedeTo frontier := by
  simp only [recedeTo, map_bind_eq, Spine.forget, ← forget_completeMerges, bind_map_eq,
    ← forget_mapBatchesMut (Batch.recedeTo frontier : B → B)
      (Batch.recedeTo frontier : Recorded B → Recorded B) fun _ => rfl]
  rfl

theorem forget_apply (arith : Arith) (sp : Spine (Recorded B) (M × Int)) (op : SpineOp B T) :
    (sp.apply arith op.record).map Spine.forget = sp.forget.apply arith op := by
  cases op with
  | insert batch => exact forget_insert arith sp ⟨batch⟩
  | exert effort => exact forget_exert arith sp effort
  | recedeTo frontier => exact forget_recedeTo sp frontier

/-- The spine over `Recorded B` simulates the spine over `B`: a run of the recorded operations,
    its records forgotten, is the run of the operations, a panic being the same panic. -/
theorem run_forget (arith : Arith) :
    ∀ (sp : Spine (Recorded B) (M × Int)) (ops : List (SpineOp B T)),
    (sp.run arith (ops.map SpineOp.record)).map Spine.forget = sp.forget.run arith ops
  | _, [] => rfl
  | sp, op :: ops => by
    simp only [List.map_cons, run, map_bind_eq, ← forget_apply, bind_map_eq,
      fun sp' => run_forget arith sp' ops]

@[simp] theorem forget_withEffort (effort : Nat) :
    (withEffort effort : Spine (Recorded B) (M × Int)).forget = withEffort effort := rfl

/-- A run of the recorded operations from `with_effort(e)` that does not panic ends, with its
    records dropped, where the code's run ends. -/
theorem run_record {arith : Arith} {effort : Nat} {ops : List (SpineOp B T)}
    {sp : Spine (Recorded B) (M × Int)}
    (h : (withEffort effort).run arith (ops.map SpineOp.record) = .ok sp) :
    (withEffort effort : Spine B M).run arith ops = .ok sp.forget := by
  rw [← forget_withEffort, ← run_forget, h]
  rfl

end Spine

/-! ## The record -/

namespace Recorded

theorem mergerRun_of_batch {b1 b2 : Recorded B} {m : M} {h : Int}
    (hr : MergerRun b1.batch b2.batch m h) : MergerRun b1 b2 (m, h) h := by
  induction hr with
  | begin => exact .begin
  | work fuel _ hle ih => exact ih.work fuel hle

/-- A recorded merger holds the fuel handed to it, beside the merger of `B` that the same calls
    reach. -/
theorem mergerRun_iff {b1 b2 : Recorded B} {p : M × Int} {h : Int} :
    MergerRun b1 b2 p h ↔ p.2 = h ∧ MergerRun b1.batch b2.batch p.1 h := by
  constructor
  · intro hr
    induction hr with
    | begin => exact ⟨rfl, .begin⟩
    | work fuel _ hle ih => exact ⟨by simp [ih.1], ih.2.work fuel hle⟩
  · rintro ⟨hp, hr⟩
    obtain ⟨m, g⟩ := p
    dsimp only at hp hr
    subst hp
    exact mergerRun_of_batch hr

theorem lenLaws (hl : LenLaws B M T) : LenLaws (Recorded B) (M × Int) T :=
  ⟨fun fuel hr hpos => hl.done_len fuel (mergerRun_iff.mp hr).2 hpos,
    fun t b => hl.recede_len t b.batch⟩

theorem mergeLaws (hl : MergeLaws B M T) : MergeLaws (Recorded B) (M × Int) T :=
  ⟨lenLaws hl.toLenLaws, fun fuel hr hlt => hl.finishes fuel (mergerRun_iff.mp hr).2 hlt⟩

end Recorded

@[simp] theorem SpineOp.insertedLen_record (op : SpineOp B T) :
    op.record.insertedLen = op.insertedLen := by
  cases op <;> rfl

theorem SpineOp.lowerEqUpper_record {ops : List (SpineOp B T)}
    (hlow : ∀ b, SpineOp.insert b ∈ ops → Batch.lowerEqUpper b = false) :
    ∀ b, SpineOp.insert b ∈ ops.map SpineOp.record → Batch.lowerEqUpper b = false := by
  intro b hb
  obtain ⟨op, hop, he⟩ := List.mem_map.mp hb
  cases op <;> cases he
  exact hlow _ hop

end DbspTrace
