import DbspTrace.Spine.Deficit

/-
  The loop of `Trace::consolidate`, `while !self.reduced() { self.exert(&mut isize::MAX) }`,
  ends. Each round tidies, then either fuels every merge with `isize::MAX`, which completes it
  (`apply_fuel`), or, with no merge left, rolls every level below 63 up into level 63 and inserts
  an empty batch there (`introduce_batch(None, 63)`).

  A round decreases, lexicographically (`roundMeasure`): the batches that are not structurally
  empty, since merges only join them; then whether a level below 63 other than the top is
  occupied, since the roll-up to 63 empties them all and nothing later refills them. While one
  is, a round decreases the structurally empty batches or the merges. Once none is, the levels
  from 63 up count like a binary number that each insertion at 63 increments and each completed
  merge carries one level up: a round lowers the top level left by `tidy_layers`, or adds weight
  below it, or completes the merges. A carry into the top moves it up, and the next tidying
  draws it down past the two levels the carry emptied.

  Proved, over exact integers and for a merger that obeys `MergeLaws`:
  * `roundMeasure_lt`: a round from a disciplined spine holding fewer than `isize::MAX` updates
    leaves a reduced spine or lowers the measure;
  * `consolidate_terminates`: after any run of inserts, exerts and `recede_to` calls that
    inserts fewer than `isize::MAX` updates, some number of rounds ends the loop.
-/

namespace DbspTrace

variable {B M T : Type} [Batch B M T]

/-! ## Counting batches -/

namespace MergeState

/-- The batches a level holds that are not structurally empty. -/
def someCount : MergeState B M → Nat
  | .single (some _) | .double (.completed (some _)) => 1
  | .double (.inProgress ..) => 2
  | _ => 0

/-- The structurally empty batches a level holds. -/
def noneCount : MergeState B M → Nat
  | .single none | .double (.completed none) => 1
  | _ => 0

/-- One for a merge. -/
def doubleCount (s : MergeState B M) : Nat := if s.isDouble then 1 else 0

/-- One for a merge in progress. -/
def inProgressCount (s : MergeState B M) : Nat := if s.isInprogress then 1 else 0

/-- A merge in progress whose merger was handed `h ≥ 0` fuel from `begin_merge` on. -/
def Ready : MergeState B M → Prop
  | .double (.inProgress b1 b2 m) => ∃ h, 0 ≤ h ∧ MergerRun b1 b2 m h
  | _ => True

end MergeState

/-- One for a batch that is not structurally empty. -/
def optSome : Option B → Nat
  | some _ => 1
  | none => 0

/-- One for a structurally empty batch. -/
def optNone : Option B → Nat
  | some _ => 0
  | none => 1

@[simp] theorem optSome_none : optSome (none : Option B) = 0 := rfl

/-- The sum of `f` over the levels. -/
def levelSum (f : MergeState B M → Nat) (merging : List (MergeState B M)) : Nat :=
  (merging.map f).sum

/-- Every level below 63 other than the top is vacant: what `roll_up(63)` leaves. -/
def Spine.confined (merging : List (MergeState B M)) : Bool :=
  (merging.dropLast.take 63).all MergeState.isVacant

/-- The top level is not vacant. -/
def TopFilled (merging : List (MergeState B M)) : Prop :=
  ∀ s ∈ merging.getLast?, s.isVacant = false

/-- What a round of `consolidate` decreases, lexicographically: the batches that are not
    structurally empty; whether a level below 63 other than the top is occupied; while one is,
    the structurally empty batches and the merges; once none is, the length after tidying, the
    weight the levels below its top may still gain, and the merges. -/
def roundMeasure (merging : List (MergeState B M)) : Nat × Nat × Nat × Nat × Nat :=
  if Spine.confined merging then
    match Spine.tidyLayers .exact merging with
    | .ok m => (levelSum MergeState.someCount merging, 0, m.length,
        2 ^ m.length - weightFrom 0 m.dropLast, levelSum MergeState.doubleCount m)
    | .error _ => (levelSum MergeState.someCount merging, 0, 0, 0, 0)
  else (levelSum MergeState.someCount merging, 1, levelSum MergeState.noneCount merging,
    levelSum MergeState.doubleCount merging, 0)

/-- The lexicographic order on round measures. -/
def RoundLt : Nat × Nat × Nat × Nat × Nat → Nat × Nat × Nat × Nat × Nat → Prop :=
  Prod.Lex (· < ·) (Prod.Lex (· < ·) (Prod.Lex (· < ·) (Prod.Lex (· < ·) (· < ·))))

theorem roundLt_wf : WellFounded RoundLt :=
  wellFounded_lt.prod_lex (wellFounded_lt.prod_lex (wellFounded_lt.prod_lex
    (wellFounded_lt.prod_lex wellFounded_lt)))

theorem roundLt_iff {a1 a2 a3 a4 a5 b1 b2 b3 b4 b5 : Nat} :
    RoundLt (a1, a2, a3, a4, a5) (b1, b2, b3, b4, b5) ↔ a1 < b1 ∨ a1 = b1 ∧
      (a2 < b2 ∨ a2 = b2 ∧ (a3 < b3 ∨ a3 = b3 ∧ (a4 < b4 ∨ a4 = b4 ∧ a5 < b5))) := by
  simp [RoundLt, Prod.lex_def]

section LevelSum

variable (f : MergeState B M → Nat)

@[simp] theorem levelSum_nil : levelSum f ([] : List (MergeState B M)) = 0 := rfl

@[simp] theorem levelSum_cons (s : MergeState B M) (rest : List (MergeState B M)) :
    levelSum f (s :: rest) = f s + levelSum f rest := by
  simp [levelSum]

@[simp] theorem levelSum_append (xs ys : List (MergeState B M)) :
    levelSum f (xs ++ ys) = levelSum f xs + levelSum f ys := by
  simp [levelSum]

@[simp] theorem levelSum_reverse (xs : List (MergeState B M)) :
    levelSum f xs.reverse = levelSum f xs := by
  simp [levelSum, List.sum_reverse]

@[simp] theorem levelSum_replicate (n : Nat) (s : MergeState B M) :
    levelSum f (List.replicate n s) = n * f s := by
  simp [levelSum, List.sum_replicate]

theorem levelSum_eq_zero {xs : List (MergeState B M)} (h : ∀ s ∈ xs, f s = 0) :
    levelSum f xs = 0 :=
  List.sum_eq_zero fun n hn => by
    obtain ⟨s, hs, rfl⟩ := List.mem_map.mp hn
    exact h s hs

end LevelSum

/-! ## One level -/

namespace MergeState

variable {s s' : MergeState B M}

@[simp] theorem someCount_vacant : (vacant : MergeState B M).someCount = 0 := rfl
@[simp] theorem noneCount_vacant : (vacant : MergeState B M).noneCount = 0 := rfl
@[simp] theorem doubleCount_vacant : (vacant : MergeState B M).doubleCount = 0 := rfl
@[simp] theorem inProgressCount_vacant : (vacant : MergeState B M).inProgressCount = 0 := rfl

@[simp] theorem someCount_single (b : Option B) :
    (single b : MergeState B M).someCount = optSome b := by cases b <;> rfl
@[simp] theorem noneCount_single (b : Option B) :
    (single b : MergeState B M).noneCount = optNone b := by cases b <;> rfl
@[simp] theorem doubleCount_single (b : Option B) :
    (single b : MergeState B M).doubleCount = 0 := rfl
@[simp] theorem inProgressCount_single (b : Option B) :
    (single b : MergeState B M).inProgressCount = 0 := rfl

theorem someCount_beginMerge (b1 b2 : Option B) :
    (beginMerge b1 b2 : MergeState B M).someCount = optSome b1 + optSome b2 := by
  cases b1 <;> cases b2 <;> rfl

theorem noneCount_beginMerge_le (b1 b2 : Option B) :
    (beginMerge b1 b2 : MergeState B M).noneCount ≤ optNone b1 := by
  cases b1 <;> cases b2 <;> simp [beginMerge, noneCount, optNone]

@[simp] theorem doubleCount_beginMerge (b1 b2 : Option B) :
    (beginMerge b1 b2 : MergeState B M).doubleCount = 1 := by
  simp [doubleCount]

@[simp] theorem noneCount_beginMerge_some (b1 : Option B) (b2 : B) :
    (beginMerge b1 (some b2) : MergeState B M).noneCount = 0 := by
  cases b1 <;> rfl

@[simp] theorem inProgressCount_beginMerge_some (b1 b2 : B) :
    (beginMerge (some b1) (some b2) : MergeState B M).inProgressCount = 1 := rfl

theorem ready_beginMerge (b1 b2 : Option B) : (beginMerge b1 b2 : MergeState B M).Ready := by
  cases b1 <;> cases b2
  all_goals first | trivial | exact ⟨0, le_rfl, .begin⟩

/-- Inserting a batch into a level adds it to the level's batches. -/
theorem counts_insertSlot {b : Option B} (h : Spine.insertSlot b s = .ok s') :
    s'.someCount = s.someCount + optSome b ∧ s'.noneCount ≤ s.noneCount + optNone b ∧
      s'.Ready := by
  rcases s with _ | old | v
  · cases h
    exact ⟨by simp, by simp, trivial⟩
  · cases h
    have := noneCount_beginMerge_le old b
    exact ⟨by simp [someCount_beginMerge], by simp; omega, ready_beginMerge old b⟩
  · cases h

/-- With `isize::MAX` fuel a level completes exactly when it is a merge: a merger handed
    `h ≥ 0` fuel before finishes, as its inputs hold fewer updates. The batch it hands on is one
    batch for the two inputs of a merge in progress. -/
theorem work_full (hl : MergeLaws B M T) (hr : s.Ready) (hb : (s.len : Int) < isizeMax) :
    (s.isDouble = false ∧ s.work isizeMax = s) ∨
      (s.isDouble = true ∧ ∃ c, s.work isizeMax = .double (.completed c) ∧
        optLen c ≤ s.len ∧ optSome c + s.inProgressCount ≤ s.someCount ∧
        optNone c ≤ s.noneCount) := by
  rcases s with _ | b | (⟨b1, b2, m⟩ | (_ | b))
  · exact .inl ⟨rfl, rfl⟩
  · exact .inl ⟨rfl, rfl⟩
  · obtain ⟨h, h0, hrun⟩ := hr
    have hpos := hl.finishes isizeMax hrun (by simp only [MergeState.len] at hb; omega)
    refine .inr ⟨rfl, some _, ?_, hl.done_len isizeMax hrun hpos, le_rfl, le_rfl⟩
    simp only [MergeState.work, MergeVariant.work_inProgress, if_pos hpos]
  · exact .inr ⟨rfl, none, rfl, le_rfl, le_rfl, le_rfl⟩
  · exact .inr ⟨rfl, some b, rfl, le_rfl, le_rfl, le_rfl⟩

end MergeState

/-! ## `tidy_layers` over exact integers -/

/-- The threshold of `tidy_layers` for a top over the single just above the levels `rest`
    (nearest first), over exact integers. -/
def tidyFits (rest : List (MergeState B M)) : Prop :=
  weightFrom 0 rest.reverse ≤ 2 ^ (rest.length + 2) / 8

/-- `tidy_layers` leaves a top with appropriate level `level` over the levels `kept` (nearest
    first): there are none, the top is low enough, or the level under it is a single batch too
    heavy to merge with, or a merge. -/
def TidyStops (level : Nat) : List (MergeState B M) → Prop
  | [] => True
  | s :: rest => level < rest.length + 1 →
      (∃ b, s = .single (some b) ∧ ¬ tidyFits rest) ∨ s.isDouble = true

namespace Spine

variable {level : Nat} {top : Option B}

theorem tidyLayers_append_single (arith : Arith) (xs : List (MergeState B M)) (top : Option B) :
    tidyLayers arith (xs ++ [.single top]) =
      tidyDown arith (nextPowerOfTwoLog (MergeState.single top : MergeState B M).len) top
        xs.reverse := by
  simp [tidyLayers]

theorem tidyDown_of_stops : ∀ {kept : List (MergeState B M)}, TidyStops level kept →
    tidyDown .exact level top kept = .ok (kept.reverse ++ [.single top])
  | [], _ => rfl
  | s :: rest, h => by
    simp only [tidyDown, List.reverse_cons, List.append_assoc, List.singleton_append]
    split_ifs with hl
    · rcases h hl with ⟨b, rfl, hf⟩ | hd
      · simp only [fitsBelow_exact, ok_bind, tidyFits, List.length_reverse] at hf ⊢
        rw [if_neg (by simpa using hf)]
      · rcases s with _ | _ | v
        · cases hd
        · cases hd
        · rfl
    · rfl

/-- What `tidy_layers` does under a single top over exact integers: it drops vacant and
    structurally empty levels from under the top, then leaves it, or merges it with the single
    batch it reached. -/
theorem tidyDown_exact_cases : ∀ {rbelow m' : List (MergeState B M)},
    tidyDown .exact level top rbelow = .ok m' →
      ∃ dropped kept, rbelow = dropped ++ kept ∧
        (∀ s ∈ dropped, s = .vacant ∨ s = .single none) ∧
        ((m' = kept.reverse ++ [.single top] ∧ TidyStops level kept) ∨
          ∃ b rest, kept = .single (some b) :: rest ∧ tidyFits rest ∧
            m' = rest.reverse ++ [MergeState.beginMerge top (some b)])
  | [], _, h => by
    cases h
    exact ⟨[], [], rfl, by simp, .inl ⟨rfl, trivial⟩⟩
  | s :: rest, m', h => by
    have hstop : ∀ (hs : TidyStops level (s :: rest)),
        ∃ dropped kept, s :: rest = dropped ++ kept ∧
          (∀ s ∈ dropped, s = .vacant ∨ s = .single none) ∧
          ((rest.reverse ++ [s, .single top] = kept.reverse ++ [.single top] ∧
            TidyStops level kept) ∨
            ∃ b rest', kept = .single (some b) :: rest' ∧ tidyFits rest' ∧
              rest.reverse ++ [s, .single top] =
                rest'.reverse ++ [MergeState.beginMerge top (some b)]) :=
      fun hs => ⟨[], s :: rest, rfl, by simp, .inl ⟨by simp, hs⟩⟩
    simp only [tidyDown] at h
    split_ifs at h with hl
    · split at h
      · obtain ⟨d, k, rfl, hd, hk⟩ := tidyDown_exact_cases h
        exact ⟨.vacant :: d, k, rfl, by simpa using hd, hk⟩
      · obtain ⟨d, k, rfl, hd, hk⟩ := tidyDown_exact_cases h
        exact ⟨.single none :: d, k, rfl, by simpa using hd, hk⟩
      · next b =>
        simp only [fitsBelow_exact, ok_bind] at h
        split_ifs at h with hf <;> cases h
        · exact ⟨[], _, rfl, by simp, .inr ⟨b, rest, rfl, by simpa [tidyFits] using hf, rfl⟩⟩
        · exact hstop fun _ => .inl ⟨b, rfl, by simpa [tidyFits] using hf⟩
      · cases h
        exact hstop fun _ => .inr rfl
    · cases h
      exact hstop fun h => absurd h hl

theorem tidyDown_exact_ok : ∀ rbelow : List (MergeState B M),
    ∃ m', tidyDown .exact level top rbelow = .ok m'
  | [] => ⟨_, rfl⟩
  | s :: rest => by
    simp only [tidyDown]
    split_ifs
    · split
      · exact tidyDown_exact_ok rest
      · exact tidyDown_exact_ok rest
      · simp only [fitsBelow_exact, ok_bind]
        split_ifs <;> exact ⟨_, rfl⟩
      · exact ⟨_, rfl⟩
    · exact ⟨_, rfl⟩

/-- Vacant and structurally empty levels that the top may sink below are dropped. -/
theorem tidyDown_drop {rest : List (MergeState B M)} (hlevel : level ≤ rest.length) :
    ∀ {dropped : List (MergeState B M)}, (∀ s ∈ dropped, s = .vacant ∨ s = .single none) →
      tidyDown .exact level top (dropped ++ rest) = tidyDown .exact level top rest
  | [], _ => rfl
  | s :: dropped, hd => by
    have hlt : level < (dropped ++ rest).length + 1 := by simp; omega
    rw [List.cons_append]
    simp only [tidyDown, if_pos hlt]
    rcases hd s (List.mem_cons_self _ _) with rfl | rfl <;>
      exact tidyDown_drop hlevel fun s hs => hd s (List.mem_cons_of_mem _ hs)

/-- Under a single top `tidy_layers` leaves at most the levels it was given, and exactly as many
    only when it leaves them unchanged. -/
theorem tidyDown_length {rbelow m' : List (MergeState B M)}
    (h : tidyDown .exact level top rbelow = .ok m') :
    m'.length ≤ rbelow.length + 1 ∧
      (m'.length = rbelow.length + 1 → m' = rbelow.reverse ++ [.single top]) := by
  obtain ⟨dropped, kept, rfl, -, ⟨rfl, -⟩ | ⟨b, rest, rfl, -, rfl⟩⟩ := tidyDown_exact_cases h
  · refine ⟨by simp, fun hl => ?_⟩
    obtain rfl : dropped = [] := by simpa using hl
    simp
  · constructor <;> simp <;> omega

variable {arith : Arith} {merging m' : List (MergeState B M)}

/-- `tidy_layers` works only on a spine whose top level is a single batch. -/
theorem tidyLayers_of_not_single (h : ∀ xs top, merging ≠ xs ++ [.single top]) :
    tidyLayers arith merging = .ok merging := by
  unfold tidyLayers
  split
  · next top rbelow heq =>
    exact absurd (by rw [← List.reverse_reverse merging, heq]; simp) (h rbelow.reverse top)
  · rfl

theorem tidyLayers_exact_ok (merging : List (MergeState B M)) :
    ∃ m', tidyLayers .exact merging = .ok m' := by
  unfold tidyLayers
  split
  · exact tidyDown_exact_ok _
  · exact ⟨_, rfl⟩

/-- `tidyDown_exact_cases` for the whole spine: `tidy_layers` leaves it, or draws its single
    top down over dropped levels, then leaves it or merges it with the single batch reached. -/
theorem tidyLayers_exact_cases (h : tidyLayers .exact merging = .ok m') :
    m' = merging ∨ ∃ xs top dropped kept, merging = xs ++ [.single top] ∧
      xs.reverse = dropped ++ kept ∧ (∀ s ∈ dropped, s = .vacant ∨ s = .single none) ∧
      ((m' = kept.reverse ++ [.single top] ∧
          TidyStops (nextPowerOfTwoLog (optLen top)) kept) ∨
        ∃ b rest, kept = .single (some b) :: rest ∧ tidyFits rest ∧
          m' = rest.reverse ++ [MergeState.beginMerge top (some b)]) := by
  rcases List.eq_nil_or_concat merging with rfl | ⟨xs, s, rfl⟩
  · exact .inl (by cases h; rfl)
  rw [List.concat_eq_append] at h ⊢
  rcases s with _ | top | v
  · rw [tidyLayers_of_not_single fun _ _ he => by simpa using List.append_inj_right' he rfl] at h
    exact .inl (by cases h; rfl)
  · rw [tidyLayers_append_single, MergeState.len_single] at h
    obtain ⟨dropped, kept, hxs, hd, hk⟩ := tidyDown_exact_cases h
    exact .inr ⟨xs, top, dropped, kept, rfl, hxs, hd, hk⟩
  · rw [tidyLayers_of_not_single fun _ _ he => by simpa using List.append_inj_right' he rfl] at h
    exact .inl (by cases h; rfl)

/-- `tidy_layers` keeps the batches that are not structurally empty, and keeps or drops the
    structurally empty ones; a merge it starts is one in progress or replaces a structurally
    empty top. -/
theorem counts_tidyLayers (h : tidyLayers .exact merging = .ok m') :
    levelSum MergeState.someCount m' = levelSum MergeState.someCount merging ∧
      levelSum MergeState.noneCount m' ≤ levelSum MergeState.noneCount merging ∧
      (levelSum MergeState.doubleCount m' ≤ levelSum MergeState.doubleCount merging ∨
        0 < levelSum MergeState.inProgressCount m' ∨
        levelSum MergeState.noneCount m' < levelSum MergeState.noneCount merging) := by
  rcases tidyLayers_exact_cases h with rfl | ⟨xs, top, dropped, kept, rfl, hxs, hd, hk⟩
  · exact ⟨rfl, le_rfl, .inl le_rfl⟩
  have hsum : ∀ f : MergeState B M → Nat, levelSum f xs = levelSum f dropped + levelSum f kept :=
    fun f => by rw [← levelSum_reverse, hxs, levelSum_append]
  have h0 : ∀ f : MergeState B M → Nat, f .vacant = 0 → f (.single none) = 0 →
      levelSum f dropped = 0 := fun f hv hn =>
    levelSum_eq_zero f fun s hs => by rcases hd s hs with rfl | rfl <;> assumption
  have hs0 := h0 MergeState.someCount rfl rfl
  have hd0 := h0 MergeState.doubleCount rfl rfl
  simp only [levelSum_append, hsum, hs0, hd0] at *
  rcases hk with ⟨rfl, -⟩ | ⟨b, rest, rfl, -, rfl⟩
  · simp only [levelSum_append, levelSum_reverse]
    omega
  · rcases top with _ | a <;> simp [MergeState.someCount_beginMerge, optSome, optNone] <;> omega

/-- The levels `tidy_layers` leaves under the top are a prefix of those under the old top. -/
theorem tidyLayers_dropLast_initial (h : tidyLayers .exact merging = .ok m') :
    m'.dropLast <+: merging.dropLast := by
  rcases tidyLayers_exact_cases h with rfl | ⟨xs, top, dropped, kept, rfl, hxs, -, hk⟩
  · exact List.prefix_refl _
  have hxs' : xs = kept.reverse ++ dropped.reverse := by
    rw [← List.reverse_reverse xs, hxs, List.reverse_append]
  rw [List.dropLast_concat, hxs']
  rcases hk with ⟨rfl, -⟩ | ⟨b, rest, rfl, -, rfl⟩
  · rw [List.dropLast_concat]
    exact List.prefix_append _ _
  · rw [List.dropLast_concat, List.reverse_cons, List.append_assoc]
    exact List.prefix_append _ _

theorem tidyLayers_length (h : tidyLayers .exact merging = .ok m') :
    m'.length ≤ merging.length ∧ (m'.length = merging.length → m' = merging) := by
  rcases tidyLayers_exact_cases h with rfl | ⟨xs, top, dropped, kept, rfl, hxs, -, hk⟩
  · exact ⟨le_rfl, fun _ => rfl⟩
  have hl := congrArg List.length hxs
  simp only [List.length_reverse, List.length_append] at hl
  rcases hk with ⟨rfl, -⟩ | ⟨b, rest, rfl, -, rfl⟩
  · refine ⟨by simp; omega, fun he => ?_⟩
    obtain rfl : dropped = [] := List.eq_nil_of_length_eq_zero (by simp at he; omega)
    rw [← List.reverse_reverse xs, hxs, List.nil_append]
  · simp only [List.length_cons] at hl
    constructor <;> simp <;> omega

/-- A tidied spine is tidy. -/
theorem tidyLayers_idem (h : tidyLayers .exact merging = .ok m') :
    tidyLayers .exact m' = .ok m' := by
  rcases tidyLayers_exact_cases h with rfl | ⟨xs, top, dropped, kept, rfl, -, -, hk⟩
  · exact h
  rcases hk with ⟨rfl, hs⟩ | ⟨b, rest, rfl, -, rfl⟩
  · rw [tidyLayers_append_single, List.reverse_reverse, MergeState.len_single]
    exact tidyDown_of_stops hs
  · refine tidyLayers_of_not_single fun ys t he => ?_
    have := List.append_inj_right' he rfl
    rcases top with _ | a <;> simp [MergeState.beginMerge] at this

end Spine

/-! ## `apply_fuel` with `isize::MAX` fuel -/

/-- What a pass of `apply_fuel` with `isize::MAX` fuel needs to complete every merge: each merge
    in progress handed `h ≥ 0` fuel from `begin_merge` on, and fewer than `isize::MAX` updates in
    all. -/
def FullFuel (merging : List (MergeState B M)) : Prop :=
  (∀ s ∈ merging, s.Ready) ∧ (lenSum merging : Int) < isizeMax

namespace MergeState

variable {s s' : MergeState B M}

@[simp] theorem weight_single (b : Option B) (index : Nat) :
    (single b : MergeState B M).weight index = 2 ^ index := rfl

theorem weight_of_isDouble {index : Nat} (h : s.isDouble = true) :
    s.weight index = 2 ^ (index + 1) := by
  rcases s with _ | _ | _ <;> first | rfl | cases h

theorem inProgressCount_of_not_isDouble (h : s.isDouble = false) : s.inProgressCount = 0 := by
  rcases s with _ | _ | _ <;> first | rfl | cases h

theorem isComplete_of_not_isDouble (h : s.isDouble = false) : s.isComplete = false := by
  rcases s with _ | _ | _ <;> first | rfl | cases h

theorem work_of_not_isDouble (h : s.isDouble = false) (fuel : Int) : s.work fuel = s := by
  rcases s with _ | _ | _ <;> first | rfl | cases h

theorem not_isDouble_of_insertSlot {b : Option B} (h : Spine.insertSlot b s = .ok s') :
    s.isDouble = false := by
  rcases s with _ | _ | _ <;> first | rfl | cases h

theorem isDouble_of_isComplete_work {fuel : Int} (h : (s.work fuel).isComplete = true) :
    s.isDouble = true := by
  obtain ⟨c, hc⟩ := isComplete_iff.mp h
  rw [← isDouble_work fuel, hc]
  rfl

end MergeState

namespace Spine

open MergeState

variable {s next : MergeState B M} {rest out : List (MergeState B M)}

/-- A pass of `apply_fuel` keeps the weight of the levels: a completed merge weighs what the
    batch it carries one level up adds there. -/
theorem weightFrom_applyFuelFrom (fuel : Int) :
    ∀ (index : Nat) {rest out : List (MergeState B M)} {s : MergeState B M},
      applyFuelFrom fuel s rest = .ok out → weightFrom index out = weightFrom index (s :: rest)
  | index, [], out, s, h => by
    simp only [applyFuelFrom] at h
    split_ifs at h with hc
    · obtain ⟨c, hwc⟩ := isComplete_iff.mp hc
      rw [hwc, complete_completed, ok_bind] at h
      cases h
      simp only [weightFrom, weight_vacant, weight_of_isDouble (isDouble_of_isComplete_work hc)]
      simp [MergeState.weight]
    · cases h
      simp [weightFrom, weight_work]
  | index, next :: rest, out, s, h => by
    simp only [applyFuelFrom] at h
    split_ifs at h with hc
    · obtain ⟨c, hwc⟩ := isComplete_iff.mp hc
      rw [hwc, complete_completed, ok_bind] at h
      obtain ⟨next', hins, h⟩ := bind_eq_ok.mp h
      obtain ⟨out', h', rfl⟩ := fmap_eq_ok.mp h
      have := weightFrom_applyFuelFrom fuel (index + 1) h'
      simp only [weightFrom, weight_insertSlot hins] at this ⊢
      rw [weight_of_isDouble (isDouble_of_isComplete_work hc), this, weight_vacant]
      omega
    · obtain ⟨out', h', rfl⟩ := fmap_eq_ok.mp h
      simp only [weightFrom, weight_work, weightFrom_applyFuelFrom fuel (index + 1) h']

/-- A pass of `apply_fuel` leaves vacant the vacant levels at the bottom of the spine below
    its top: nothing under them completes. -/
theorem take_dropLast_applyFuelFrom (fuel : Int) :
    ∀ {rest out : List (MergeState B M)} {s : MergeState B M} (k : Nat),
      applyFuelFrom fuel s rest = .ok out →
      ((s :: rest).dropLast.take k).all MergeState.isVacant →
      (out.dropLast.take k).all MergeState.isVacant
  | [], out, s, k, h, _ => by
    simp only [applyFuelFrom] at h
    split_ifs at h with hc
    · obtain ⟨c, hwc⟩ := isComplete_iff.mp hc
      rw [hwc, complete_completed, ok_bind] at h
      cases h
      cases k <;> simp [MergeState.isVacant]
    · cases h
      simp
  | next :: rest, out, s, 0, _, _ => by simp
  | next :: rest, out, s, k + 1, h, hv => by
    simp only [List.dropLast_cons₂, List.take_succ_cons, List.all_cons, Bool.and_eq_true] at hv
    obtain ⟨hsv, hv⟩ := hv
    have hsd : s.isDouble = false := by rcases s with _ | _ | _ <;> first | rfl | cases hsv
    simp only [applyFuelFrom, work_of_not_isDouble hsd] at h
    rw [if_neg (by simp [isComplete_of_not_isDouble hsd])] at h
    obtain ⟨out', h', rfl⟩ := fmap_eq_ok.mp h
    have ih := take_dropLast_applyFuelFrom fuel k h' hv
    cases out' with
    | nil => rfl
    | cons y ys =>
      simp only [List.dropLast_cons₂, List.take_succ_cons, List.all_cons, hsv, ih, Bool.and_self]

/-- The last level of a pass with `isize::MAX` fuel: a merge completes and carries its batch one
    level up; any other level stays. -/
theorem applyFuelFrom_full_nil (hl : MergeLaws B M T) (hf : FullFuel [s])
    (h : applyFuelFrom isizeMax s [] = .ok out) :
    (s.isDouble = false ∧ out = [s]) ∨
      (s.isDouble = true ∧ ∃ c, optSome c + s.inProgressCount ≤ s.someCount ∧
        optNone c ≤ s.noneCount ∧ out = [.vacant, .single c]) := by
  have hs : (s.len : Int) < isizeMax := by simpa [lenSum] using hf.2
  rcases work_full hl (hf.1 s (List.mem_singleton_self _)) hs with
    ⟨hd, hw⟩ | ⟨hd, c, hw, -, hsome, hnone⟩
  · simp only [applyFuelFrom, hw] at h
    rw [if_neg (by simp [isComplete_of_not_isDouble hd])] at h
    cases h
    exact .inl ⟨hd, rfl⟩
  · simp only [applyFuelFrom, hw, MergeState.isComplete, if_true, complete_completed,
      ok_bind] at h
    cases h
    exact .inr ⟨hd, c, hsome, hnone, rfl⟩

/-- One level of a pass with `isize::MAX` fuel: a merge completes and its batch moves into the
    next level, which then holds fewer than `isize::MAX` updates with what is above it; any
    other level stays. -/
theorem applyFuelFrom_full_cons (hl : MergeLaws B M T) (hf : FullFuel (s :: next :: rest))
    (h : applyFuelFrom isizeMax s (next :: rest) = .ok out) :
    (s.isDouble = false ∧ ∃ out', applyFuelFrom isizeMax next rest = .ok out' ∧
        out = s :: out' ∧ FullFuel (next :: rest)) ∨
      (s.isDouble = true ∧ ∃ c next' out', optSome c + s.inProgressCount ≤ s.someCount ∧
        optNone c ≤ s.noneCount ∧ insertSlot c next = .ok next' ∧
        applyFuelFrom isizeMax next' rest = .ok out' ∧ out = .vacant :: out' ∧
        FullFuel (next' :: rest)) := by
  obtain ⟨hr, hb⟩ := hf
  rw [lenSum_cons] at hb
  rcases work_full hl (hr s (List.mem_cons_self _ _)) (by omega) with
    ⟨hd, hw⟩ | ⟨hd, c, hw, hlen, hsome, hnone⟩
  · simp only [applyFuelFrom, hw] at h
    rw [if_neg (by simp [isComplete_of_not_isDouble hd])] at h
    obtain ⟨out', h', rfl⟩ := fmap_eq_ok.mp h
    exact .inl ⟨hd, out', h', rfl, fun x hx => hr x (List.mem_cons_of_mem _ hx), by omega⟩
  · simp only [applyFuelFrom, hw, MergeState.isComplete, if_true, complete_completed,
      ok_bind] at h
    obtain ⟨next', hins, h⟩ := bind_eq_ok.mp h
    obtain ⟨out', h', rfl⟩ := fmap_eq_ok.mp h
    have hc := counts_insertSlot hins
    have hl' := len_insertSlot hins
    refine .inr ⟨hd, c, next', out', hsome, hnone, hins, h', rfl, ?_, ?_⟩
    · intro x hx
      rcases List.mem_cons.mp hx with rfl | hx
      · exact hc.2.2
      · exact hr x (List.mem_cons_of_mem _ (List.mem_cons_of_mem _ hx))
    · rw [lenSum_cons] at hb ⊢
      omega

/-- A pass with `isize::MAX` fuel leaves no merge. -/
theorem noDouble_applyFuelFrom_full (hl : MergeLaws B M T) :
    ∀ {rest out : List (MergeState B M)} {s : MergeState B M}, FullFuel (s :: rest) →
      applyFuelFrom isizeMax s rest = .ok out → ∀ x ∈ out, x.isDouble = false
  | [], out, s, hf, h => by
    rcases applyFuelFrom_full_nil hl hf h with ⟨hd, rfl⟩ | ⟨-, c, -, -, rfl⟩
    · simpa using hd
    · simp [MergeState.isDouble]
  | next :: rest, out, s, hf, h => by
    rcases applyFuelFrom_full_cons hl hf h with
      ⟨hd, out', h', rfl, hf'⟩ | ⟨-, c, next', out', -, -, -, h', rfl, hf'⟩
    · exact List.forall_mem_cons.mpr ⟨hd, noDouble_applyFuelFrom_full hl hf' h'⟩
    · exact List.forall_mem_cons.mpr ⟨rfl, noDouble_applyFuelFrom_full hl hf' h'⟩

/-- A pass with `isize::MAX` fuel joins the two batches of every merge in progress into one, and
    adds no structurally empty batch. -/
theorem counts_applyFuelFrom_full (hl : MergeLaws B M T) :
    ∀ {rest out : List (MergeState B M)} {s : MergeState B M}, FullFuel (s :: rest) →
      applyFuelFrom isizeMax s rest = .ok out →
      levelSum someCount out + levelSum inProgressCount (s :: rest) ≤
          levelSum someCount (s :: rest) ∧
        levelSum noneCount out ≤ levelSum noneCount (s :: rest)
  | [], out, s, hf, h => by
    rcases applyFuelFrom_full_nil hl hf h with ⟨hd, rfl⟩ | ⟨-, c, hs, hn, rfl⟩
    · simp [inProgressCount_of_not_isDouble hd]
    · simp only [levelSum_cons, levelSum_nil, someCount_vacant, someCount_single,
        noneCount_vacant, noneCount_single]
      omega
  | next :: rest, out, s, hf, h => by
    rcases applyFuelFrom_full_cons hl hf h with
      ⟨hd, out', h', rfl, hf'⟩ | ⟨-, c, next', out', hs, hn, hins, h', rfl, hf'⟩
    · have ih := counts_applyFuelFrom_full hl hf' h'
      simp only [levelSum_cons, inProgressCount_of_not_isDouble hd] at ih ⊢
      omega
    · have ih := counts_applyFuelFrom_full hl hf' h'
      have hc := counts_insertSlot hins
      have hip := inProgressCount_of_not_isDouble (not_isDouble_of_insertSlot hins)
      simp only [levelSum_cons, someCount_vacant, noneCount_vacant] at ih ⊢
      omega

/-- Where a pass with `isize::MAX` fuel leaves the top level: in place; carried one level up,
    leaving its level vacant, and the level below too when the top was not a merge; or, into a
    vacant top, carried from the merge below it. -/
theorem applyFuelFrom_full_top (hl : MergeLaws B M T) :
    ∀ {rest out : List (MergeState B M)} {s : MergeState B M}, FullFuel (s :: rest) →
      applyFuelFrom isizeMax s rest = .ok out →
      (∃ ys, out = ys ++ [rest.getLastD s] ∧ ys.length = rest.length) ∨
      (∃ ys c, out = ys ++ [.vacant, .single c] ∧ ys.length = rest.length ∧
        ((rest.getLastD s).isDouble = false → ∃ zs, ys = zs ++ [.vacant])) ∨
      (rest.getLastD s = .vacant ∧
        ∃ zs c, out = zs ++ [.vacant, .single c] ∧ zs.length + 1 = rest.length)
  | [], out, s, hf, h => by
    rcases applyFuelFrom_full_nil hl hf h with ⟨-, rfl⟩ | ⟨hd, c, -, -, rfl⟩
    · exact .inl ⟨[], rfl, rfl⟩
    · exact .inr (.inl ⟨[], c, rfl, rfl, fun h' => absurd hd (by simpa using h')⟩)
  | next :: rest, out, s, hf, h => by
    rw [List.getLastD_cons]
    rcases applyFuelFrom_full_cons hl hf h with
      ⟨-, out', h', rfl, hf'⟩ | ⟨-, c, next', out', -, -, hins, h', rfl, hf'⟩
    · rcases applyFuelFrom_full_top hl hf' h' with
        ⟨ys, rfl, hl'⟩ | ⟨ys, c, rfl, hl', hz⟩ | ⟨hv, zs, c, rfl, hl'⟩
      · exact .inl ⟨s :: ys, rfl, by simp [hl']⟩
      · refine .inr (.inl ⟨s :: ys, c, rfl, by simp [hl'], fun hd => ?_⟩)
        obtain ⟨zs, rfl⟩ := hz hd
        exact ⟨s :: zs, rfl⟩
      · exact .inr (.inr ⟨hv, s :: zs, c, rfl, by simp [hl']⟩)
    · cases rest with
      | nil =>
        rcases applyFuelFrom_full_nil hl hf' h' with ⟨hd', rfl⟩ | ⟨-, c', -, -, rfl⟩
        · rcases next with _ | old | v
          · cases hins
            exact .inr (.inr ⟨rfl, [], c, rfl, rfl⟩)
          · cases hins
            simp at hd'
          · cases hins
        · exact .inr (.inl ⟨[.vacant], c', rfl, rfl, fun _ => ⟨[], rfl⟩⟩)
      | cons x xs =>
        have ih := applyFuelFrom_full_top hl hf' h'
        simp only [List.getLastD_cons] at ih ⊢
        rcases ih with
          ⟨ys, rfl, hl'⟩ | ⟨ys, c', rfl, hl', hz⟩ | ⟨hv, zs, c', rfl, hl'⟩
        · exact .inl ⟨.vacant :: ys, rfl, by simp [hl']⟩
        · refine .inr (.inl ⟨.vacant :: ys, c', rfl, by simp [hl'], fun hd => ?_⟩)
          obtain ⟨zs, rfl⟩ := hz hd
          exact ⟨.vacant :: zs, rfl⟩
        · exact .inr (.inr ⟨hv, .vacant :: zs, c', rfl, by simp [hl']⟩)

/-- With no merge, a pass of `apply_fuel` changes nothing. -/
theorem applyFuelFrom_of_noDouble (fuel : Int) :
    ∀ {rest : List (MergeState B M)} {s : MergeState B M}, s.isDouble = false →
      (∀ x ∈ rest, x.isDouble = false) → applyFuelFrom fuel s rest = .ok (s :: rest)
  | [], s, hs, _ => by
    simp only [applyFuelFrom, work_of_not_isDouble hs, isComplete_of_not_isDouble hs]
    rfl
  | next :: rest, s, hs, hr => by
    simp only [applyFuelFrom, work_of_not_isDouble hs, isComplete_of_not_isDouble hs]
    rw [List.forall_mem_cons] at hr
    rw [applyFuelFrom_of_noDouble fuel hr.1 hr.2]
    rfl

theorem applyFuel_of_noDouble (fuel : Int) {merging : List (MergeState B M)}
    (h : ∀ x ∈ merging, x.isDouble = false) : applyFuel fuel merging = .ok merging := by
  cases merging with
  | nil => rfl
  | cons s rest =>
    rw [List.forall_mem_cons] at h
    exact applyFuelFrom_of_noDouble fuel h.1 h.2

/-! ## `roll_up(63)` and the empty batch at 63 -/

theorem someCount_complete {c : Option B} (h : s.complete = .ok c) : optSome c ≤ s.someCount := by
  rcases s with _ | b | (⟨b1, b2, m⟩ | b)
  · cases h
    exact le_rfl
  · cases h
    simp
  · cases c <;> simp [optSome, someCount]
  · rw [complete_completed] at h
    cases h
    cases c <;> simp [optSome, someCount]

theorem someCount_insertAt {b : Option B} :
    ∀ {index : Nat} {ms ms' : List (MergeState B M)}, insertAt b index ms = .ok ms' →
      levelSum someCount ms' = levelSum someCount ms + optSome b
  | 0, [], ms', h => by
    cases h
    simp
  | 0, s :: rest, ms', h => by
    obtain ⟨s', hs, rfl⟩ := map_eq_ok.mp h
    simp only [levelSum_cons, (counts_insertSlot hs).1]
    omega
  | index + 1, [], ms', h => by
    obtain ⟨r, hr, rfl⟩ := map_eq_ok.mp h
    simpa using someCount_insertAt hr
  | index + 1, s :: rest, ms', h => by
    obtain ⟨r, hr, rfl⟩ := map_eq_ok.mp h
    simp only [levelSum_cons, someCount_insertAt hr]
    omega

theorem someCount_completeAt :
    ∀ {index : Nat} {ms ms' : List (MergeState B M)} {c : Option B},
      completeAt index ms = .ok (c, ms') → optSome c + levelSum someCount ms' ≤ levelSum someCount ms
  | _, [], _, _, h => by simp [completeAt] at h
  | 0, s :: rest, ms', c, h => by
    obtain ⟨c', hc, he⟩ := map_eq_ok.mp h
    cases he
    have := someCount_complete hc
    simp only [levelSum_cons, someCount_vacant]
    omega
  | index + 1, s :: rest, ms', c, h => by
    obtain ⟨⟨c', r⟩, hr, he⟩ := map_eq_ok.mp h
    cases he
    have := someCount_completeAt hr
    simp only [levelSum_cons]
    omega

/-- The loop of `roll_up` leaves the levels it passes vacant and carries at most their batches. -/
theorem rollPrefix_spec : ∀ {xs rest ms : List (MergeState B M)} {carry c : Option B},
    rollPrefix xs.length carry (xs ++ rest) = .ok (c, ms) →
      ms = List.replicate xs.length .vacant ++ rest ∧
        optSome c ≤ optSome carry + levelSum someCount xs
  | [], rest, ms, carry, c, h => by
    cases h
    exact ⟨rfl, by simp⟩
  | x :: xs, rest, ms, carry, c, h => by
    simp only [List.length_cons, List.cons_append, rollPrefix] at h
    obtain ⟨s1, hs1, h⟩ := bind_eq_ok.mp h
    obtain ⟨c1, hc1, h⟩ := bind_eq_ok.mp h
    obtain ⟨⟨c2, r⟩, hr, h⟩ := bind_eq_ok.mp h
    cases h
    obtain ⟨rfl, hc2⟩ := rollPrefix_spec hr
    have h1 := (counts_insertSlot hs1).1
    have h2 := someCount_complete hc1
    refine ⟨rfl, ?_⟩
    simp only [levelSum_cons]
    omega

theorem insertAt_length_append {b : Option B} (xs : List (MergeState B M))
    {rest m' : List (MergeState B M)}
    (h : insertAt b xs.length (xs ++ rest) = .ok m') : ∃ t r, m' = xs ++ t :: r := by
  cases rest with
  | nil =>
    rw [List.append_nil, insertAt_length xs rfl] at h
    obtain ⟨s', -, rfl⟩ := map_eq_ok.mp h
    exact ⟨s', [], rfl⟩
  | cons y ys =>
    rw [insertAt_append xs y ys rfl] at h
    obtain ⟨s', -, rfl⟩ := map_eq_ok.mp h
    exact ⟨s', ys, rfl⟩

/-- `roll_up(index)` leaves the levels below `index` vacant, and keeps or joins the batches that
    are not structurally empty. -/
theorem rollUp_spec {index : Nat} {merging m' : List (MergeState B M)}
    (h : rollUp index merging = .ok m') :
    ∃ t rest, m' = List.replicate index .vacant ++ t :: rest ∧
      levelSum someCount m' ≤ levelSum someCount merging := by
  obtain ⟨xs, s, rest, hp, rfl⟩ := padTo_eq_append index merging
  have hNs : levelSum someCount (xs ++ s :: rest) = levelSum someCount merging := by
    rw [← hp, padTo, levelSum_append, levelSum_replicate, someCount_vacant, Nat.mul_zero,
      Nat.add_zero]
  simp only [rollUp, hp, List.take_left] at h
  split_ifs at h with hany
  · obtain ⟨⟨c, ms⟩, hr, h⟩ := bind_eq_ok.mp h
    obtain ⟨rfl, hc⟩ := rollPrefix_spec hr
    obtain ⟨ms2, hi, h⟩ := bind_eq_ok.mp h
    dsimp only at hi
    rw [insertAt_append _ _ _ (List.length_replicate _ _)] at hi
    obtain ⟨s', hs', rfl⟩ := map_eq_ok.mp hi
    have h1 := (counts_insertSlot hs').1
    simp only [optSome_none, Nat.zero_add, levelSum_append, levelSum_cons] at hc hNs
    rw [getD_append_cons _ _ _ (List.length_replicate _ _)] at h
    split_ifs at h with hd
    · obtain ⟨⟨b, ms3⟩, hca, h⟩ := bind_eq_ok.mp h
      have h2 := someCount_completeAt hca
      rw [completeAt_append _ _ _ (List.length_replicate _ _)] at hca
      obtain ⟨b', -, he⟩ := map_eq_ok.mp hca
      cases he
      dsimp only at h
      have h3 := someCount_insertAt h
      rw [show List.replicate xs.length (.vacant : MergeState B M) ++ .vacant :: rest =
          List.replicate (xs.length + 1) .vacant ++ rest by
        rw [List.replicate_succ', List.append_assoc]; rfl] at h
      obtain ⟨t, r, rfl⟩ := insertAt_length_append (List.replicate (xs.length + 1) .vacant)
        (by rwa [List.length_replicate])
      refine ⟨.vacant, t :: r, by rw [List.replicate_succ', List.append_assoc]; rfl, ?_⟩
      simp only [levelSum_append, levelSum_cons, levelSum_replicate, someCount_vacant] at h1 h2 h3 ⊢
      omega
    · cases h
      refine ⟨s', rest, rfl, ?_⟩
      simp only [levelSum_append, levelSum_cons, levelSum_replicate, someCount_vacant] at h1 ⊢
      omega
  · cases h
    exact ⟨s, rest, congrArg (· ++ s :: rest) (eq_replicate_of_all_vacant (by simpa using hany)),
      hNs.le⟩

/-- `roll_up(index)` changes nothing when the levels below `index` are vacant. -/
theorem rollUp_of_vacant {index : Nat} {merging : List (MergeState B M)}
    (hlen : index < merging.length) (hv : (merging.take index).all MergeState.isVacant) :
    rollUp index merging = .ok merging := by
  have hp : padTo index merging = merging := by
    simp only [padTo, show index + 1 - merging.length = 0 by omega, List.replicate_zero,
      List.append_nil]
  simp only [rollUp, hp]
  rw [if_neg]
  simp only [List.all_eq_true] at hv
  simpa using hv

/-! ## Confined spines -/

variable {m m' : List (MergeState B M)}

theorem confined_of_dropLast_initial (hp : m'.dropLast <+: m.dropLast) (hc : confined m = true) :
    confined m' = true := by
  simp only [confined, List.all_eq_true] at hc ⊢
  exact fun x hx => hc x ((hp.take 63).subset hx)

/-- A confined spine of at most 64 levels has only vacant levels under its top. -/
theorem dropLast_eq_replicate (hc : confined m = true) (hlen : m.length ≤ 64) :
    m.dropLast = List.replicate m.dropLast.length .vacant := by
  simp only [confined, List.take_of_length_le (show m.dropLast.length ≤ 63 by simp; omega)] at hc
  exact eq_replicate_of_all_vacant (by simpa using hc)

theorem reducedFrom_replicate_vacant (n : Nat) (ms : List (MergeState B M)) :
    reducedFrom 0 (List.replicate n .vacant ++ ms) = reducedFrom 0 ms := by
  induction n with
  | zero => rfl
  | succ n ih => simpa [List.replicate_succ, reducedFrom, MergeState.isDouble] using ih

/-- A confined spine of at most 64 levels whose top is not a merge is reduced. -/
theorem reduced_of_confined_short (hc : confined m = true) (hlen : m.length ≤ 64)
    (hd : ∀ x ∈ m.getLast?, x.isDouble = false) : reduced m = true := by
  rcases List.eq_nil_or_concat m with rfl | ⟨xs, x, rfl⟩
  · rfl
  rw [List.concat_eq_append] at hc hlen hd ⊢
  have hxs := dropLast_eq_replicate hc hlen
  rw [List.dropLast_concat] at hxs
  have hx : x.isDouble = false := hd x (by simp)
  rw [hxs, reduced, reducedFrom_replicate_vacant]
  by_cases h0 : 0 < x.len <;> simp [reducedFrom, hx, h0]

/-- A merge under the top of a confined spine lies at level 63 or above. -/
theorem long_of_confined (hc : confined m = true)
    (hd : ∃ x ∈ m.dropLast, x.isDouble = true) : 64 < m.length := by
  by_contra hlen
  obtain ⟨x, hx, hxd⟩ := hd
  rw [dropLast_eq_replicate hc (by omega)] at hx
  rw [List.eq_of_mem_replicate hx] at hxd
  cases hxd

/-- A confined spine of more than 64 levels is vacant below level 63. -/
theorem eq_replicate_of_confined_long (hc : confined m = true) (hlen : 64 < m.length) :
    ∃ s rest, m = List.replicate 63 .vacant ++ s :: rest ∧ rest ≠ [] := by
  have htake : m.dropLast.take 63 = m.take 63 := by
    rw [List.dropLast_eq_take, List.take_take, Nat.min_eq_left (by omega)]
  have h63 : m.take 63 = List.replicate 63 .vacant := by
    have := eq_replicate_of_all_vacant
      (show ((m.take 63).any fun m => !m.isVacant) = false by
        simpa [confined, htake] using hc)
    rwa [List.length_take, Nat.min_eq_left (by omega)] at this
  obtain ⟨s, rest, hd⟩ : ∃ s rest, m.drop 63 = s :: rest ∧ rest ≠ [] := by
    match hm : m.drop 63 with
    | [] => simp at hm; omega
    | [_] => have := congrArg List.length hm; simp at this; omega
    | s :: t :: rest => exact ⟨s, t :: rest, rfl, List.cons_ne_nil _ _⟩
  exact ⟨s, rest, by rw [← List.take_append_drop 63 m, h63, hd.1], hd.2⟩

theorem confined_replicate (s : MergeState B M) (rest : List (MergeState B M)) :
    confined (List.replicate 63 .vacant ++ s :: rest) = true := by
  rw [confined, List.dropLast_append_of_ne_nil _ (List.cons_ne_nil _ _),
    List.take_left' (List.length_replicate _ _)]
  simp [List.all_eq_true, MergeState.isVacant]

/-! ## Rounds of `consolidate` -/

theorem nextPowerOfTwoLog_le {n k : Nat} (h : n ≤ 2 ^ k) : nextPowerOfTwoLog n ≤ k := by
  obtain ⟨-, h2⟩ := nextPowerOfTwoLog_spec n
  by_contra hk
  have := h2 (by omega)
  have : 2 ^ k ≤ 2 ^ (nextPowerOfTwoLog n - 1) := Nat.pow_le_pow_right (by decide) (by omega)
  omega

theorem nextPowerOfTwoLog_isizeMax : nextPowerOfTwoLog isizeMax.toNat = 63 := by decide

theorem FueledFrom.ready {c : Int} {i w : Nat} {ms : List (MergeState B M)}
    (hf : FueledFrom c i w ms) : ∀ s ∈ ms, s.Ready := fun s hs => by
  obtain ⟨k, W, hk⟩ := hf.exists_of_mem hs
  rcases s with _ | _ | (⟨b1, b2, m⟩ | b)
  · trivial
  · trivial
  · obtain ⟨-, h, h0, hr, -⟩ := hk
    exact ⟨h, h0, hr⟩
  · trivial

theorem one_le_doubleCount (h : m.any MergeState.isDouble = true) :
    1 ≤ levelSum doubleCount m := by
  obtain ⟨x, hx, hxd⟩ := List.any_eq_true.mp h
  obtain ⟨ys, zs, rfl⟩ := List.append_of_mem hx
  simp [doubleCount, hxd]
  omega

theorem doubleCount_eq_zero (h : ∀ x ∈ m, x.isDouble = false) : levelSum doubleCount m = 0 :=
  levelSum_eq_zero _ fun x hx => by simp [doubleCount, h x hx]

theorem cons_eq_dropLast_append_getLastD :
    ∀ (s : MergeState B M) (rest : List (MergeState B M)),
      s :: rest = (s :: rest).dropLast ++ [rest.getLastD s]
  | _, [] => rfl
  | s, x :: xs => by
    rw [List.getLastD_cons, List.dropLast_cons₂, List.cons_append,
      ← cons_eq_dropLast_append_getLastD x xs]

theorem weightFrom_dropLast_lt (h : m ≠ []) : weightFrom 0 m.dropLast < 2 ^ m.length := by
  have := weightFrom_lt 0 m.dropLast
  have hpos := List.length_pos.mpr h
  rw [List.length_dropLast, show 0 + (m.length - 1) + 1 = m.length by omega] at this
  omega

/-- A batch carried over vacant levels `ws` sinks under `tidy_layers` at least to the level just
    above the levels `ys` under them, when it is no heavier than `ys` allow. -/
theorem tidyLayers_carry {ys : List (MergeState B M)} (ws : List (MergeState B M))
    (hws : ∀ w ∈ ws, w = .vacant) {c : Option B} (hc : nextPowerOfTwoLog (optLen c) ≤ ys.length)
    (h : tidyLayers .exact (ys ++ ws ++ [.single c]) = .ok m') :
    m'.length ≤ ys.length + 1 ∧ (m'.length = ys.length + 1 → m' = ys ++ [.single c]) := by
  rw [tidyLayers_append_single, MergeState.len_single, List.reverse_append,
    tidyDown_drop (by simpa using hc) fun s hs => .inl (hws s (List.mem_reverse.mp hs))] at h
  simpa using tidyDown_length h

/-! ## A round of `consolidate` -/

/-- A round of `consolidate` over exact integers: `tidy_layers`, then nothing more if that leaves
    the spine reduced; else `apply_fuel(isize::MAX)` if there is a merge; else the empty batch of
    `introduce_batch(None, 63)`, whose fuel changes nothing without a merge. -/
theorem exert_isizeMax_cases {sp sp' : Spine B M}
    (h : sp.exert .exact isizeMax.toNat = .ok sp') :
    ∃ m1, tidyLayers .exact sp.merging = .ok m1 ∧
      ((reduced m1 = true ∧ sp'.merging = m1) ∨
        (reduced m1 = false ∧ m1.any MergeState.isDouble = true ∧
          applyFuel isizeMax m1 = .ok sp'.merging) ∨
        (reduced m1 = false ∧ (∀ x ∈ m1, x.isDouble = false) ∧ ∃ m4 m5, rollUp 63 m1 = .ok m4 ∧
          insertAt none 63 m4 = .ok m5 ∧ tidyLayers .exact m5 = .ok sp'.merging)) := by
  obtain ⟨m1, h1⟩ := tidyLayers_exact_ok sp.merging
  refine ⟨m1, h1, ?_⟩
  simp only [exert, h1, ok_bind] at h
  split_ifs at h with hr hd
  · cases h
    exact .inl ⟨hr, rfl⟩
  · obtain ⟨m2, h2, h⟩ := bind_eq_ok.mp h
    cases h
    refine .inr (.inl ⟨by simpa using hr, hd, ?_⟩)
    rwa [show ((isizeMax.toNat : Nat) : Int) = isizeMax by decide] at h2
  · have hnd : ∀ x ∈ m1, x.isDouble = false := by simpa using hd
    simp only [introduceBatch, nextPowerOfTwoLog_isizeMax, applyFuel_of_noDouble _ hnd,
      ok_bind] at h
    obtain ⟨m4, h4, h⟩ := bind_eq_ok.mp h
    obtain ⟨m5, h5, h⟩ := bind_eq_ok.mp h
    obtain ⟨m6, h6, h⟩ := bind_eq_ok.mp h
    cases h
    exact .inr (.inr ⟨by simpa using hr, hnd, m4, m5, h4, h5, h6⟩)

/-- After a pass with `isize::MAX` fuel over a confined spine with a merge, the next tidying
    leaves fewer levels than the pass found, or as many with the same weight under the top and
    fewer merges, unless the pass left the spine reduced. -/
theorem tidy_after_full_pass (hl : MergeLaws B M T) {m1 m2 m3 : List (MergeState B M)}
    (hf : FullFuel m1) (hc : confined m1 = true) (hany : m1.any MergeState.isDouble = true)
    (h2 : applyFuel isizeMax m1 = .ok m2) (hb2 : (lenSum m2 : Int) < isizeMax)
    (h3 : tidyLayers .exact m2 = .ok m3) :
    reduced m2 = true ∨ m3.length < m1.length ∨
      (m3.length = m1.length ∧ weightFrom 0 m3.dropLast = weightFrom 0 m1.dropLast ∧
        levelSum doubleCount m3 < levelSum doubleCount m1) := by
  obtain ⟨s, rest, rfl⟩ : ∃ s rest, m1 = s :: rest := by
    cases m1 with
    | nil => cases hany
    | cons s rest => exact ⟨s, rest, rfl⟩
  have hnd := noDouble_applyFuelFrom_full hl hf h2
  have hw := weightFrom_applyFuelFrom isizeMax 0 h2
  have hc2 : confined m2 = true := take_dropLast_applyFuelFrom isizeMax 63 h2 hc
  have hD1 := one_le_doubleCount hany
  have hD2 := doubleCount_eq_zero hnd
  have hm1 := cons_eq_dropLast_append_getLastD s rest
  have hxs : (s :: rest).dropLast.length = rest.length := by simp
  rw [hm1, weightFrom_append, hxs] at hw
  -- every batch of the spine sinks at least to level 63
  have happ : ∀ c, MergeState.single c ∈ m2 → nextPowerOfTwoLog (optLen c) ≤ 63 := fun c hc =>
    nextPowerOfTwoLog_le (by
      have := len_le_lenSum hc
      rw [MergeState.len_single] at this
      unfold isizeMax at hb2
      omega)
  -- a top that is not a merge has the merge below it, at level 63 or above
  have hlong : (rest.getLastD s).isDouble = false → 64 < rest.length + 1 := fun htop => by
    have hex : ∃ x ∈ (s :: rest).dropLast, x.isDouble = true := by
      obtain ⟨x, hx, hxd⟩ := List.any_eq_true.mp hany
      rw [hm1, List.mem_append, List.mem_singleton] at hx
      rcases hx with hx | rfl
      · exact ⟨x, hx, hxd⟩
      · rw [htop] at hxd
        cases hxd
    simpa using long_of_confined hc hex
  rcases applyFuelFrom_full_top hl hf h2 with
    ⟨ys, rfl, hys⟩ | ⟨ys, c, rfl, hys, hz⟩ | ⟨htop, zs, c, rfl, hzs⟩
  · -- the top stays: as many levels and as much weight under the top, and no merge
    obtain ⟨hle, heq⟩ := tidyLayers_length h3
    simp only [List.length_append, List.length_singleton, List.length_cons, List.length_nil,
      hys] at hle heq ⊢
    rcases Nat.lt_or_ge m3.length (rest.length + 1) with hlt | hge
    · exact .inr (.inl hlt)
    obtain rfl := heq (by omega)
    rw [weightFrom_append, hys] at hw
    refine .inr (.inr ⟨by simp [hys], by rw [List.dropLast_concat]; omega, by omega⟩)
  · have hc' := happ c (by simp)
    by_cases hshort : ys.length + 2 ≤ 64
    · exact .inl (reduced_of_confined_short hc2 (by simpa using hshort)
        (by simp [MergeState.isDouble]))
    cases htd : (rest.getLastD s).isDouble
    · -- a carry into the top: the top sinks over the two levels the carry emptied
      obtain ⟨zs, rfl⟩ := hz htd
      have hl' := hlong htd
      simp only [List.length_append, List.length_singleton] at hys
      have h3' : tidyLayers .exact (zs ++ [.vacant, .vacant] ++ [.single c]) = .ok m3 := by
        simpa only [List.append_assoc] using h3
      have := (tidyLayers_carry [.vacant, .vacant] (by simp) (by omega) h3').1
      exact .inr (.inl (by simp; omega))
    · -- the top completes: the carry sinks back over the level it emptied
      have h3' : tidyLayers .exact (ys ++ [.vacant] ++ [.single c]) = .ok m3 := by
        simpa only [List.append_assoc] using h3
      obtain ⟨hle, heq⟩ := tidyLayers_carry [.vacant] (by simp) (by omega) h3'
      rcases Nat.lt_or_ge m3.length (rest.length + 1) with hlt | hge
      · exact .inr (.inl (by simpa using hlt))
      obtain rfl := heq (by omega)
      rw [weightFrom_append, hys] at hw
      simp only [weightFrom, weight_of_isDouble htd, weight_vacant, weight_single] at hw
      simp only [weightFrom_append, levelSum_append] at hD2 ⊢
      refine .inr (.inr ⟨by simp [hys], ?_, ?_⟩)
      · rw [List.dropLast_concat]
        omega
      · simp only [levelSum_cons, levelSum_nil, doubleCount_single] at hD1 hD2 ⊢
        omega
  · -- a carry into a vacant top sinks over the level it emptied
    have hl' := hlong (by rw [htop]; rfl)
    have hc' := happ c (by simp)
    have h3' : tidyLayers .exact (zs ++ [.vacant] ++ [.single c]) = .ok m3 := by
      simpa only [List.append_assoc] using h3
    have := (tidyLayers_carry [.vacant] (by simp) (by omega) h3').1
    exact .inr (.inl (by simp; omega))

/-- After `roll_up(63)` and the empty batch at 63 the spine, once tidied, is confined, and holds
    no more batches that are not structurally empty. -/
theorem confined_after_empty_batch {m1 m4 m5 m6 : List (MergeState B M)}
    (h4 : rollUp 63 m1 = .ok m4) (h5 : insertAt none 63 m4 = .ok m5)
    (h6 : tidyLayers .exact m5 = .ok m6) :
    confined m6 = true ∧ levelSum someCount m6 ≤ levelSum someCount m1 := by
  obtain ⟨t, r, rfl, hNs⟩ := rollUp_spec h4
  rw [insertAt_append _ _ _ (List.length_replicate _ _)] at h5
  obtain ⟨t', ht, rfl⟩ := map_eq_ok.mp h5
  have h1 := (counts_insertSlot ht).1
  have h2 := (counts_tidyLayers h6).1
  refine ⟨confined_of_dropLast_initial (tidyLayers_dropLast_initial h6) (confined_replicate t' r), ?_⟩
  simp only [levelSum_append, levelSum_cons, optSome_none] at hNs h1 h2 ⊢
  omega

/-- On a confined spine without merges that is not reduced, `roll_up(63)` changes nothing and the
    empty batch at 63 adds weight `2^63` under the top: the next tidying leaves fewer levels, or
    as many with more weight under the top. -/
theorem tidy_after_empty_batch {m1 m4 m5 m6 : List (MergeState B M)} (hc : confined m1 = true)
    (hnd : ∀ x ∈ m1, x.isDouble = false) (hnr : reduced m1 = false)
    (h4 : rollUp 63 m1 = .ok m4) (h5 : insertAt none 63 m4 = .ok m5)
    (h6 : tidyLayers .exact m5 = .ok m6) :
    m6.length < m1.length ∨
      (m6.length = m1.length ∧ weightFrom 0 m1.dropLast < weightFrom 0 m6.dropLast) := by
  have hlen : 64 < m1.length := by
    by_contra h
    rw [reduced_of_confined_short hc (by omega)
      fun x hx => hnd x (List.mem_of_mem_getLast? hx)] at hnr
    cases hnr
  obtain ⟨s, rest, rfl, hrest⟩ := eq_replicate_of_confined_long hc hlen
  rw [rollUp_of_vacant (by simp) (by
    rw [List.take_left' (List.length_replicate _ _)]
    simp [List.all_eq_true, MergeState.isVacant])] at h4
  cases h4
  rw [insertAt_append _ _ _ (List.length_replicate _ _)] at h5
  obtain ⟨s', hs', rfl⟩ := map_eq_ok.mp h5
  obtain ⟨hle, heq⟩ := tidyLayers_length h6
  simp only [List.length_append, List.length_cons, List.length_replicate] at hle heq ⊢
  rcases Nat.lt_or_ge m6.length (63 + (rest.length + 1)) with hlt | hge
  · exact .inl hlt
  obtain rfl := heq (by omega)
  refine .inr ⟨by simp only [List.length_append, List.length_cons, List.length_replicate], ?_⟩
  simp only [List.dropLast_append_of_ne_nil _ (List.cons_ne_nil _ _),
    List.dropLast_cons_of_ne_nil hrest, weightFrom_append, weightFrom_replicate_vacant,
    List.length_replicate]
  rw [weightFrom, weightFrom, weight_insertSlot hs']
  omega

theorem roundMeasure_of_not_confined (h : confined m = false) :
    roundMeasure m = (levelSum someCount m, 1, levelSum noneCount m, levelSum doubleCount m, 0) := by
  simp [roundMeasure, h]

theorem roundMeasure_of_confined {m1 : List (MergeState B M)} (h : confined m = true)
    (h1 : tidyLayers .exact m = .ok m1) :
    roundMeasure m = (levelSum someCount m, 0, m1.length,
      2 ^ m1.length - weightFrom 0 m1.dropLast, levelSum doubleCount m1) := by
  simp [roundMeasure, h, h1]

/-- A round that fuels the merges lowers the measure, or leaves a reduced spine. -/
theorem roundLt_of_applyFuel (hl : MergeLaws B M T) {m1 m2 : List (MergeState B M)}
    (hf : FullFuel m1) (h1 : tidyLayers .exact m = .ok m1)
    (hany : m1.any MergeState.isDouble = true) (h2 : applyFuel isizeMax m1 = .ok m2)
    (hb2 : (lenSum m2 : Int) < isizeMax) :
    reduced m2 = true ∨ RoundLt (roundMeasure m2) (roundMeasure m) := by
  obtain ⟨s, rest, rfl⟩ : ∃ s rest, m1 = s :: rest := by
    cases m1 with
    | nil => cases hany
    | cons s rest => exact ⟨s, rest, rfl⟩
  obtain ⟨hs1, hn1, hd1⟩ := counts_tidyLayers h1
  obtain ⟨hs2, hn2⟩ := counts_applyFuelFrom_full hl hf h2
  have hD1 := one_le_doubleCount hany
  have hD2 := doubleCount_eq_zero (noDouble_applyFuelFrom_full hl hf h2)
  obtain ⟨m3, h3⟩ := tidyLayers_exact_ok m2
  cases hc : confined m with
  | false =>
    rw [roundMeasure_of_not_confined hc]
    cases hc2 : confined m2 with
    | false =>
      rw [roundMeasure_of_not_confined hc2, roundLt_iff]
      omega
    | true =>
      rw [roundMeasure_of_confined hc2 h3, roundLt_iff]
      omega
  | true =>
    have hc1 := confined_of_dropLast_initial (tidyLayers_dropLast_initial h1) hc
    have hc2 : confined m2 = true := take_dropLast_applyFuelFrom isizeMax 63 h2 hc1
    rw [roundMeasure_of_confined hc h1]
    rcases tidy_after_full_pass hl hf hc1 hany h2 hb2 h3 with hr | hlt | ⟨hlen, hw, hD⟩
    · exact .inl hr
    · rw [roundMeasure_of_confined hc2 h3, roundLt_iff]
      omega
    · rw [roundMeasure_of_confined hc2 h3, roundLt_iff, hlen, hw]
      omega

/-- A round that introduces the empty batch at 63 lowers the measure. -/
theorem roundLt_of_emptyBatch {m1 m4 m5 m6 : List (MergeState B M)}
    (h1 : tidyLayers .exact m = .ok m1) (hnd : ∀ x ∈ m1, x.isDouble = false)
    (hnr : reduced m1 = false) (h4 : rollUp 63 m1 = .ok m4) (h5 : insertAt none 63 m4 = .ok m5)
    (h6 : tidyLayers .exact m5 = .ok m6) : RoundLt (roundMeasure m6) (roundMeasure m) := by
  obtain ⟨hs1, -, -⟩ := counts_tidyLayers h1
  obtain ⟨hc6, hs6⟩ := confined_after_empty_batch h4 h5 h6
  rw [roundMeasure_of_confined hc6 (tidyLayers_idem h6)]
  cases hc : confined m with
  | false =>
    rw [roundMeasure_of_not_confined hc, roundLt_iff]
    omega
  | true =>
    have hc1 := confined_of_dropLast_initial (tidyLayers_dropLast_initial h1) hc
    have hne : m1 ≠ [] := by
      rintro rfl
      cases hnr
    have hW := weightFrom_dropLast_lt hne
    rw [roundMeasure_of_confined hc h1, roundLt_iff]
    rcases tidy_after_empty_batch hc1 hnd hnr h4 h5 h6 with hlt | ⟨hlen, hw⟩
    · omega
    · rw [hlen]
      omega

/-- A round of `consolidate` from a disciplined spine that holds fewer than `isize::MAX` updates
    leaves a reduced spine or lowers the round measure. -/
theorem roundMeasure_lt (hl : MergeLaws B M T) {sp sp' : Spine B M} (hd : sp.Disciplined)
    (hbud : (lenSum sp.merging : Int) < isizeMax) (hbud' : (lenSum sp'.merging : Int) < isizeMax)
    (h : sp.exert .exact isizeMax.toNat = .ok sp') :
    reduced sp'.merging = true ∨ RoundLt (roundMeasure sp'.merging) (roundMeasure sp.merging) := by
  obtain ⟨m1, h1, hcase⟩ := exert_isizeMax_cases h
  obtain ⟨m1', h1', hf1, hl1⟩ := fueled_tidyLayers hd.sized hd.fueled
  rw [h1] at h1'
  cases h1'
  rcases hcase with ⟨hr, he⟩ | ⟨-, hany, h2⟩ | ⟨hnr, hnd, m4, m5, h4, h5, h6⟩
  · exact .inl (he ▸ hr)
  · exact roundLt_of_applyFuel hl ⟨FueledFrom.ready hf1, by omega⟩ h1 hany h2 hbud'
  · exact .inr (roundLt_of_emptyBatch h1 hnd hnr h4 h5 h6)

/-- The loop of `consolidate` ends on a disciplined spine that holds fewer than `isize::MAX`
    updates: each round leaves a reduced spine or lowers the round measure. -/
theorem consolidateLoop_ends (hl : MergeLaws B M T) (sp : Spine B M) :
    sp.Disciplined → (lenSum sp.merging : Int) < isizeMax →
      ∃ rounds r, consolidateLoop .exact rounds sp = .ok (some r) := by
  induction (InvImage.wf (fun sp : Spine B M => roundMeasure sp.merging) roundLt_wf).apply sp with
  | intro sp _ ih =>
    intro hd hbud
    by_cases hr : reduced sp.merging = true
    · exact ⟨0, sp, by simp [consolidateLoop, hr]⟩
    obtain ⟨sp', h', hd', hl'⟩ := disciplined_exert hl hd isizeMax.toNat hbud
    have hbud' : (lenSum sp'.merging : Int) < isizeMax := by omega
    have hstep : ∀ n, consolidateLoop .exact (n + 1) sp = consolidateLoop .exact n sp' := fun n => by
      simp [consolidateLoop, hr, h']
    rcases roundMeasure_lt hl hd hbud hbud' h' with hr' | hlt
    · exact ⟨1, sp', by rw [hstep]; simp [consolidateLoop, hr']⟩
    · obtain ⟨n, r, hn⟩ := ih sp' hlt hd' hbud'
      exact ⟨n + 1, r, by rw [hstep, hn]⟩

/-- A run from `with_effort(e)` that inserts fewer than `isize::MAX` updates ends in a
    disciplined spine holding fewer than `isize::MAX` updates. -/
theorem run_disciplined (hl : MergeLaws B M T) (effort : Nat) {ops : List (SpineOp B T)}
    (hlow : ∀ b, SpineOp.insert b ∈ ops → Batch.lowerEqUpper b = false)
    (hbud : ((ops.map SpineOp.insertedLen).sum : Int) < isizeMax) :
    ∃ sp, (withEffort effort : Spine B M).run .exact ops = .ok sp ∧ sp.Disciplined ∧
      (lenSum sp.merging : Int) < isizeMax := by
  obtain ⟨sp, h, hd, hl'⟩ := disciplined_run hl (disciplined_withEffort effort) hlow
    (by simpa [withEffort, lenSum] using hbud)
  simp only [withEffort, lenSum_nil, Nat.zero_add] at hl'
  exact ⟨sp, h, hd, by omega⟩

end Spine

/-- From `with_effort(e)`, over exact integers and with a merger that obeys `MergeLaws`, after any
    inserts of batches with `lower() != upper()`, exerts and `recede_to` calls that insert fewer
    than `isize::MAX` updates in all, the loop of `consolidate` ends. -/
theorem consolidate_terminates (hl : MergeLaws B M T) (effort : Nat) (ops : List (SpineOp B T))
    (hlow : ∀ b, SpineOp.insert b ∈ ops → Batch.lowerEqUpper b = false)
    (hbud : ((ops.map SpineOp.insertedLen).sum : Int) < isizeMax) :
    ∃ sp, (Spine.withEffort effort : Spine B M).run .exact ops = .ok sp ∧
      ∃ rounds b, Spine.consolidate .exact rounds sp = .ok (some b) := by
  obtain ⟨sp, h, hd, hbud'⟩ := Spine.run_disciplined hl effort hlow hbud
  obtain ⟨rounds, r, hr⟩ := Spine.consolidateLoop_ends hl sp hd hbud'
  exact ⟨sp, h, rounds, _, by rw [Spine.consolidate, hr]; rfl⟩

/-- A merge at level 3 worked over three calls, then a `consolidate` that ends. -/
theorem consolidate_terminates_copy :
    ∃ sp, (Spine.withEffort 1 : Spine CopyBatch Int).run .exact
        [.insert ⟨8⟩, .insert ⟨8⟩, .insert ⟨1⟩, .insert ⟨1⟩, .exert 4] = .ok sp ∧
      ∃ rounds b, Spine.consolidate .exact rounds sp = .ok (some b) :=
  consolidate_terminates copyBatch_mergeLaws 1 [.insert ⟨8⟩, .insert ⟨8⟩, .insert ⟨1⟩, .insert ⟨1⟩, .exert 4]
    (fun _ _ => rfl) (by simp [SpineOp.insertedLen, isizeMax, Batch.len])

end DbspTrace
