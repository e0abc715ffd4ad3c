import DbspTrace.Spine.Threshold

/-
  The vocabulary the invariants of the spine are stated in: a property of every level at its
  index (`AllLevels`), the length of a possibly structurally empty batch (`optLen`), the step of
  an in-progress merge, and the two rules of the `Except` monad that take apart an operation that
  did not panic.
-/

namespace DbspTrace

variable {B M T : Type} [Batch B M T]

/-! ## Operations that did not panic -/

section Except

variable {α β : Type} {x : Except String α} {b : β}

theorem bind_eq_ok {f : α → Except String β} :
    x >>= f = .ok b ↔ ∃ a, x = .ok a ∧ f a = .ok b := by
  cases x <;> simp [bind, Except.bind]

theorem map_eq_ok {f : α → β} : x.map f = .ok b ↔ ∃ a, x = .ok a ∧ f a = b := by
  cases x <;> simp [Except.map]

theorem fmap_eq_ok {f : α → β} : f <$> x = .ok b ↔ ∃ a, x = .ok a ∧ f a = b := map_eq_ok

@[simp] theorem ok_bind {a : α} {f : α → Except String β} : (Except.ok a >>= f) = f a := rfl

@[simp] theorem fmap_ok {a : α} {f : α → β} : f <$> (Except.ok a : Except String α) = .ok (f a) :=
  rfl

@[simp] theorem map_ok {a : α} {f : α → β} : (Except.ok a : Except String α).map f = .ok (f a) :=
  rfl

end Except

/-! ## Batches and levels -/

/-- The updates of a possibly structurally empty batch. -/
def optLen : Option B → Nat
  | some b => Batch.len b
  | none => 0

@[simp] theorem optLen_some (b : B) : optLen (some b) = Batch.len b := rfl
@[simp] theorem optLen_none : optLen (none : Option B) = 0 := rfl

/-- The step of an in-progress merge: the merger works, and the merge is complete when it leaves
    positive fuel. -/
theorem MergeVariant.work_inProgress (b1 b2 : B) (m : M) (fuel : Int) :
    (MergeVariant.inProgress b1 b2 m).work fuel =
      if 0 < (Batch.work m b1 b2 fuel).2 then
        (.completed (some (Batch.done (Batch.work m b1 b2 fuel).1)), (Batch.work m b1 b2 fuel).2)
      else (.inProgress b1 b2 (Batch.work m b1 b2 fuel).1, (Batch.work m b1 b2 fuel).2) := rfl

/-- A merger whose every call leaves positive fuel is handed only `begin_merge` of its inputs,
    before any fuel: its first call completes the merge. -/
theorem MergerRun.eq_begin_of_finishes (hw : ∀ (m : M) (b1 b2 : B) fuel, 0 < (Batch.work m b1 b2 fuel).2)
    {b1 b2 : B} {m : M} {h : Int} (hr : MergerRun b1 b2 m h) :
    m = Batch.beginMerge b1 b2 ∧ h = 0 := by
  cases hr with
  | begin => exact ⟨rfl, rfl⟩
  | work fuel _ hle => exact absurd (hw _ _ _ fuel) (not_lt.mpr hle)

/-- `MergeVariant::work` calls `OrdIndexedZSetMerger::work` only on the empty builder
    `begin_merge` makes, before any fuel: its first call completes the merge. -/
theorem CountBatch.mergerRun_eq {b1 b2 : CountBatch} {m : Nat} {h : Int}
    (hr : MergerRun b1 b2 m h) : m = 0 ∧ h = 0 :=
  hr.eq_begin_of_finishes fun _ _ _ _ => lt_max_of_lt_right one_pos

/-- A `CopyBatch` merger handed to `work` has copied no more than its inputs hold, and at least
    the fuel handed to it. -/
theorem CopyBatch.mergerRun_bounds {b1 b2 : CopyBatch} {copied h : Int}
    (hr : MergerRun b1 b2 copied h) : 0 ≤ copied ∧ copied ≤ b1.len + b2.len ∧ h ≤ copied := by
  induction hr with
  | begin => exact ⟨le_rfl, by positivity, le_rfl⟩
  | work fuel _ hle ih =>
    simp only [Batch.work] at hle ⊢
    omega

/-- The call that completes a `CopyBatch` merge has copied its inputs. -/
theorem CopyBatch.work_done {b1 b2 : CopyBatch} {copied h : Int} (hr : MergerRun b1 b2 copied h)
    {fuel : Int} (hpos : 0 < (Batch.work copied b1 b2 fuel).2) :
    (Batch.done (Batch.work copied b1 b2 fuel).1 : CopyBatch).len = b1.len + b2.len := by
  have := CopyBatch.mergerRun_bounds hr
  simp only [Batch.work, Batch.done] at hpos ⊢
  omega

/-- `P index level` for every level of `merging`, the first at `index`. -/
def AllLevels (P : Nat → MergeState B M → Prop) : Nat → List (MergeState B M) → Prop
  | _, [] => True
  | index, s :: rest => P index s ∧ AllLevels P (index + 1) rest

section AllLevels

variable {P : Nat → MergeState B M → Prop} {index : Nat}

@[simp] theorem allLevels_nil : AllLevels P index [] := trivial

@[simp] theorem allLevels_cons {s : MergeState B M} {rest : List (MergeState B M)} :
    AllLevels P index (s :: rest) ↔ P index s ∧ AllLevels P (index + 1) rest := Iff.rfl

theorem allLevels_append (xs ys : List (MergeState B M)) :
    AllLevels P index (xs ++ ys) ↔ AllLevels P index xs ∧ AllLevels P (index + xs.length) ys := by
  induction xs generalizing index with
  | nil => simp
  | cons s xs ih => simp [ih, and_assoc, Nat.add_right_comm index 1, Nat.add_assoc]

theorem allLevels_replicate_vacant (h : ∀ i, P i .vacant) (n : Nat) :
    AllLevels P index (List.replicate n .vacant) := by
  induction n generalizing index with
  | zero => trivial
  | succ n ih => exact ⟨h index, ih⟩

theorem allLevels_map {Q : Nat → MergeState B M → Prop} {f : MergeState B M → MergeState B M}
    (hf : ∀ i s, P i s → Q i (f s)) {merging : List (MergeState B M)}
    (h : AllLevels P index merging) : AllLevels Q index (merging.map f) := by
  induction merging generalizing index with
  | nil => trivial
  | cons s rest ih => exact ⟨hf _ _ h.1, ih h.2⟩

/-- A level-wise `mapM` in `Except` that does not panic keeps a property every step keeps. -/
theorem allLevels_mapM {Q : Nat → MergeState B M → Prop}
    {f : MergeState B M → Except String (MergeState B M)}
    (hf : ∀ i s s', P i s → f s = .ok s' → Q i s') {merging merging' : List (MergeState B M)}
    (h : AllLevels P index merging) (hm : merging.mapM f = .ok merging') :
    AllLevels Q index merging' := by
  induction merging generalizing index merging' with
  | nil => cases hm; trivial
  | cons s rest ih =>
    simp only [List.mapM_cons, bind_eq_ok, pure, Except.pure, Except.ok.injEq] at hm
    obtain ⟨s', hs', rest', hrest', rfl⟩ := hm
    exact ⟨hf _ _ _ h.1 hs', ih h.2 hrest'⟩

end AllLevels

end DbspTrace
