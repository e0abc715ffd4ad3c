import DbspTrace.Spine.Basic

/-
  The operations of the fueled spine, written as `trace/spine_fueled.rs` computes them, on the
  list of levels (`Vec<MergeState<B>>`). A panic is an `Except.error` carrying its message.

  The loops over levels are structural recursions over the list: `rollPrefix` is the first loop
  of `roll_up`, `applyFuelFrom` the loop of `apply_fuel` (its range is fixed when the loop
  starts, so a level that the last promotion appends is not worked), `tidyDown` the loop of
  `tidy_layers` (over the levels below the top, nearest first) and `smallerFrom` its sum.

  `introduce_batch`'s fuel `(8 << batch_index) * effort` is taken over exact integers. The
  threshold of `tidy_layers`, whose untyped literals are `i32`, is evaluated under `Arith`: over
  exact integers, as the release build does (wrapping, the shift amount masked to 5 bits), or as
  the debug build does (overflow panics).
-/

namespace DbspTrace

variable {B M T : Type} [Batch B M T]

/-! ## The `i32` arithmetic of `tidy_layers` -/

/-- How `tidy_layers` evaluates `smaller += 1 << index`, `2 << index` and
    `smaller <= (1 << length) / 8`. -/
inductive Arith where
  | exact
  | release
  | debug
  deriving DecidableEq, Repr

/-- An integer read as an `i32` (two's complement wrap). -/
def wrapI32 (x : Int) : Int := (x + 2 ^ 31) % 2 ^ 32 - 2 ^ 31

/-- `v << n` on `i32`. -/
def shlI32 : Arith → Int → Nat → Except String Int
  | .exact, v, n => .ok (v * 2 ^ n)
  | .release, v, n => .ok (wrapI32 (v * 2 ^ (n % 32)))
  | .debug, v, n =>
    if n < 32 then .ok (wrapI32 (v * 2 ^ n)) else .error "attempt to shift left with overflow"

/-- `a + b` on `i32`. -/
def addI32 : Arith → Int → Int → Except String Int
  | .exact, a, b => .ok (a + b)
  | .release, a, b => .ok (wrapI32 (a + b))
  | .debug, a, b =>
    if -2 ^ 31 ≤ a + b ∧ a + b < 2 ^ 31 then .ok (a + b) else .error "attempt to add with overflow"

namespace Spine

/-! ## Single levels -/

/-- `insert_at` on the level itself. -/
def insertSlot (batch : Option B) : MergeState B M → Except String (MergeState B M)
  | .vacant => .ok (.single batch)
  | .single old => .ok (MergeState.beginMerge old batch)
  | .double _ => .error "Attempted to insert batch into incomplete merge!"

/-- `Spine::insert_at`: the spine is first extended with vacant levels up to `index`. -/
def insertAt (batch : Option B) : Nat → List (MergeState B M) → Except String (List (MergeState B M))
  | 0, [] => (insertSlot batch .vacant).map ([·])
  | 0, s :: rest => (insertSlot batch s).map (· :: rest)
  | index + 1, [] => (insertAt batch index []).map (.vacant :: ·)
  | index + 1, s :: rest => (insertAt batch index rest).map (s :: ·)

/-- `Spine::complete_at`: the level's batch, the level left vacant. -/
def completeAt : Nat → List (MergeState B M) → Except String (Option B × List (MergeState B M))
  | _, [] => .error "index out of bounds"
  | 0, s :: rest => s.complete.map fun b => (b, .vacant :: rest)
  | index + 1, s :: rest => (completeAt index rest).map fun r => (r.1, s :: r.2)

/-- `while self.merging.len() <= index { self.merging.push(MergeState::Vacant) }`. -/
def padTo (index : Nat) (merging : List (MergeState B M)) : List (MergeState B M) :=
  merging ++ List.replicate (index + 1 - merging.length) .vacant

/-! ## `roll_up` -/

/-- The first loop of `roll_up`:
    `for i in 0..index { self.insert_at(merged, i); merged = self.complete_at(i); }`. -/
def rollPrefix : Nat → Option B → List (MergeState B M) →
    Except String (Option B × List (MergeState B M))
  | 0, merged, merging => .ok (merged, merging)
  | _ + 1, merged, [] => .ok (merged, [])
  | index + 1, merged, s :: rest => do
    let s ← insertSlot merged s
    let merged ← s.complete
    let (merged, rest) ← rollPrefix index merged rest
    .ok (merged, .vacant :: rest)

/-- `Spine::roll_up`: merges every batch below `index` into level `index`, and completes the
    merge that this may start there into `index + 1`. -/
def rollUp (index : Nat) (merging : List (MergeState B M)) :
    Except String (List (MergeState B M)) := do
  let merging := padTo index merging
  if (merging.take index).any fun m => !m.isVacant then
    let (merged, merging) ← rollPrefix index none merging
    let merging ← insertAt merged index merging
    if (merging.getD index .vacant).isDouble then
      let (merged, merging) ← completeAt index merging
      insertAt merged (index + 1) merging
    else .ok merging
  else .ok merging

/-! ## `apply_fuel` -/

/-- The loop of `apply_fuel` from the level `s` on: each level works with its own copy of
    `fuel`, and a completed merge is extracted and inserted one level up. -/
def applyFuelFrom (fuel : Int) (s : MergeState B M) :
    List (MergeState B M) → Except String (List (MergeState B M))
  | [] =>
    let s := s.work fuel
    if s.isComplete then do
      let complete ← s.complete
      .ok [.vacant, .single complete]
    else .ok [s]
  | next :: rest =>
    let s := s.work fuel
    if s.isComplete then do
      let complete ← s.complete
      let next ← insertSlot complete next
      (.vacant :: ·) <$> applyFuelFrom fuel next rest
    else (s :: ·) <$> applyFuelFrom fuel next rest

/-- `Spine::apply_fuel`. -/
def applyFuel (fuel : Int) : List (MergeState B M) → Except String (List (MergeState B M))
  | [] => .ok []
  | s :: rest => applyFuelFrom fuel s rest

/-! ## `tidy_layers` -/

/-- The loop of `tidy_layers` that sums `1 << index` for each single and `2 << index` for each
    merge among the levels below `length - 2`. -/
def smallerFrom (arith : Arith) : Nat → Int → List (MergeState B M) → Except String Int
  | _, smaller, [] => .ok smaller
  | index, smaller, s :: rest => do
    let smaller ← match s with
      | .vacant => .ok smaller
      | .single _ => do addI32 arith smaller (← shlI32 arith 1 index)
      | .double _ => do addI32 arith smaller (← shlI32 arith 2 index)
    smallerFrom arith (index + 1) smaller rest

/-- `smaller <= (1 << length) / 8` for the levels `below`. -/
def fitsBelow (arith : Arith) (below : List (MergeState B M)) (length : Nat) :
    Except String Bool := do
  let smaller ← smallerFrom arith 0 0 below
  let bound ← shlI32 arith 1 length
  .ok (decide (smaller ≤ bound.tdiv 8))

/-- The loop of `tidy_layers` once the top level is `Single(top)` with appropriate level `level`;
    `rbelow` are the levels below the top, nearest first. Returns the new levels. -/
def tidyDown (arith : Arith) (level : Nat) (top : Option B) :
    List (MergeState B M) → Except String (List (MergeState B M))
  | [] => .ok [.single top]
  | s :: rbelow =>
    if level < rbelow.length + 1 then
      match s with
      | .vacant | .single none => tidyDown arith level top rbelow
      | .single (some batch) => do
        if ← fitsBelow arith rbelow.reverse (rbelow.length + 2) then
          .ok (rbelow.reverse ++ [MergeState.beginMerge top (some batch)])
        else .ok (rbelow.reverse ++ [s, .single top])
      | .double _ => .ok (rbelow.reverse ++ [s, .single top])
    else .ok (rbelow.reverse ++ [s, .single top])

/-- `Spine::tidy_layers`: draws a single top level down over vacant and structurally empty
    levels, and into a merge with the single batch below it when few records lie under that. -/
def tidyLayers (arith : Arith) (merging : List (MergeState B M)) :
    Except String (List (MergeState B M)) :=
  match merging.reverse with
  | .single top :: rbelow =>
    tidyDown arith (nextPowerOfTwoLog (MergeState.single top : MergeState B M).len) top rbelow
  | _ => .ok merging

/-! ## `reduced` -/

/-- The loop of `Spine::reduced`, with the count of non-empty levels seen so far. -/
def reducedFrom : Nat → List (MergeState B M) → Bool
  | _, [] => true
  | nonEmpty, s :: rest =>
    if s.isDouble then false
    else
      let nonEmpty := if 0 < s.len then nonEmpty + 1 else nonEmpty
      if 1 < nonEmpty then false else reducedFrom nonEmpty rest

/-- `Spine::reduced`: no merge, and at most one level holding updates. -/
def reduced (merging : List (MergeState B M)) : Bool := reducedFrom 0 merging

/-! ## `recede_to` -/

/-- `Spine::complete_merges`: every in-progress merge works with `isize::MAX` fuel. -/
def completeMerges (merging : List (MergeState B M)) : Except String (List (MergeState B M)) :=
  let merging := merging.map fun s => if s.isInprogress then s.work isizeMax else s
  if merging.all fun m => !m.isInprogress then .ok merging
  else .error "assertion failed: self.merging.iter().all(|m| !m.is_inprogress())"

/-- `Spine::map_batches_mut` (the levels are visited from the top in the source; no result
    depends on the order). -/
def mapBatchesMut (f : B → B) (merging : List (MergeState B M)) :
    Except String (List (MergeState B M)) :=
  merging.mapM fun
    | .double (.inProgress ..) => .error "map_batches_mut called on an in-progress batch"
    | .double (.completed (some b)) => .ok (.double (.completed (some (f b))))
    | .single (some b) => .ok (.single (some (f b)))
    | s => .ok s

/-! ## The public operations -/

/-- `Spine::introduce_batch`: fuel the merges in progress, roll up the levels below
    `batch_index`, insert the batch there and tidy. -/
def introduceBatch (arith : Arith) (sp : Spine B M) (batch : Option B) (batchIndex : Nat) :
    Except String (Spine B M) := do
  let fuel : Int := 8 * 2 ^ batchIndex * sp.effort
  let merging ← applyFuel fuel sp.merging
  let merging ← rollUp batchIndex merging
  let merging ← insertAt batch batchIndex merging
  let merging ← tidyLayers arith merging
  .ok { sp with merging }

/-- `Trace::insert`. -/
def insert (arith : Arith) (sp : Spine B M) (batch : B) : Except String (Spine B M) :=
  if Batch.lowerEqUpper batch then .error "assertion failed: batch.lower() != batch.upper()"
  else if Batch.isEmpty batch then .ok sp
  else introduceBatch arith { sp with dirty := true } (some batch)
    (nextPowerOfTwoLog (Batch.len batch))

/-- `Trace::exert` with `*effort = effort ≥ 0`. -/
def exert (arith : Arith) (sp : Spine B M) (effort : Nat) : Except String (Spine B M) := do
  let sp := { sp with merging := ← tidyLayers arith sp.merging }
  if reduced sp.merging then .ok sp
  else if sp.merging.any MergeState.isDouble then
    .ok { sp with merging := ← applyFuel effort sp.merging }
  else introduceBatch arith sp none (nextPowerOfTwoLog effort)

/-- `Trace::recede_to`. -/
def recedeTo (sp : Spine B M) (frontier : T) : Except String (Spine B M) := do
  let merging ← completeMerges sp.merging
  let merging ← mapBatchesMut (Batch.recedeTo frontier) merging
  .ok { sp with merging }

/-- The loop of `Trace::consolidate`, `while !self.reduced() { self.exert(&mut fuel) }` with
    `fuel = isize::MAX`, run for at most `rounds` rounds; `none` if it has not ended by then. -/
def consolidateLoop (arith : Arith) : Nat → Spine B M → Except String (Option (Spine B M))
  | 0, sp => .ok (if reduced sp.merging then some sp else none)
  | rounds + 1, sp =>
    if reduced sp.merging then .ok (some sp)
    else do consolidateLoop arith rounds (← sp.exert arith isizeMax.toNat)

/-- The batch `Trace::consolidate` returns from a reduced spine: the first non-empty single. -/
def soleBatch : List (MergeState B M) → Option B
  | [] => none
  | .single (some b) :: rest => if Batch.isEmpty b then soleBatch rest else some b
  | _ :: rest => soleBatch rest

/-- `Trace::consolidate`, given `rounds` rounds of its loop: `none` if the loop has not ended. -/
def consolidate (arith : Arith) (rounds : Nat) (sp : Spine B M) :
    Except String (Option (Option B)) :=
  (consolidateLoop arith rounds sp).map (Option.map fun sp => soleBatch sp.merging)

end Spine

/-- The public operations a spine's user calls between `with_effort` and `consolidate`. -/
inductive SpineOp (B T : Type) where
  | insert (batch : B)
  | exert (effort : Nat)
  | recedeTo (frontier : T)

namespace Spine

/-- One public operation. -/
def apply (arith : Arith) (sp : Spine B M) : SpineOp B T → Except String (Spine B M)
  | .insert batch => sp.insert arith batch
  | .exert effort => sp.exert arith effort
  | .recedeTo frontier => sp.recedeTo frontier

/-- The operations `ops`, one after another. -/
def run (arith : Arith) : Spine B M → List (SpineOp B T) → Except String (Spine B M)
  | sp, [] => .ok sp
  | sp, op :: ops => do run arith (← sp.apply arith op) ops

end Spine

end DbspTrace
