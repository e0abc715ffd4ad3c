import Mathlib.Data.List.Sort
import Mathlib.Algebra.Group.Int
import Mathlib.Data.Int.Cast.Lemmas
import Mathlib.Tactic.Ring
import Mathlib.Tactic.Abel
import Mathlib.Tactic.IntervalCases

/-
  The fueled spine (`trace/spine_fueled.rs`), generic in its batch type: what it uses of a batch
  (`Batch`), the state of one level (`MergeState`, `MergeVariant`) and the spine record. The
  operations are in `Spine.Ops`.

  A merger is opaque: the spine sees only what `Merger::work` hands back (the merger and the fuel
  left) and what `done` returns. `MergerRun b1 b2 m h` says that `m` is reached from
  `begin_merge(b1, b2)` by `work` calls that each left no positive fuel and were handed `h` units
  of fuel in all: these are the only mergers `MergeVariant::work` calls, since a call that leaves
  positive fuel completes the merge with `done()`. The laws the results assume of a merger are
  stated over them, so they say nothing of a merger called again after it finished.

  Left out: the `lower`/`upper` antichains of the spine (the only use that matters, `insert`'s
  assertion on the batch, is `Batch.lowerEqUpper`), `cursor_storage` and the activator.
-/

namespace DbspTrace

/-- What `Spine<B>` uses of its batch type: `len`, `lower() == upper()`, `Batch::begin_merge`,
    the merger's `work(b1, b2, &mut fuel)` (the merger and the fuel it leaves) and `done`, and
    `recede_to(frontier)`. -/
class Batch (B : Type) (M T : outParam Type) where
  len : B → Nat
  lowerEqUpper : B → Bool
  beginMerge : B → B → M
  work : M → B → B → Int → M × Int
  done : M → B
  recedeTo : T → B → B

variable {B M T : Type} [Batch B M T]

/-- Modelled from the spec: `BatchReader::is_empty`, `len() == 0`. -/
def Batch.isEmpty (b : B) : Bool := Batch.len b == 0

/-- `isize::MAX`. -/
def isizeMax : Int := 2 ^ 63 - 1

/-- The merger states `MergeVariant::work` hands to `work` for a merge of `b1` and `b2`, with
    the total fuel handed to it so far: `begin_merge(b1, b2)`, then what each call that left no
    positive fuel (so that the merge stayed in progress) returned. -/
inductive MergerRun (b1 b2 : B) : M → Int → Prop
  | begin : MergerRun b1 b2 (Batch.beginMerge b1 b2) 0
  | work {m : M} {h : Int} (fuel : Int) : MergerRun b1 b2 m h → (Batch.work m b1 b2 fuel).2 ≤ 0 →
      MergerRun b1 b2 (Batch.work m b1 b2 fuel).1 (h + fuel)

/-! ## `next_power_of_two().trailing_zeros()` -/

/-- The least `k ≥ start` with `n ≤ 2 ^ k`, looked for in at most `fuel` steps. -/
def ceilLog2From (n : Nat) : Nat → Nat → Nat
  | 0, k => k
  | fuel + 1, k => if n ≤ 2 ^ k then k else ceilLog2From n fuel (k + 1)

/-- `n.next_power_of_two().trailing_zeros()`: the least `k` with `n ≤ 2 ^ k`. -/
def nextPowerOfTwoLog (n : Nat) : Nat := ceilLog2From n n 0

theorem ceilLog2From_spec (n : Nat) :
    ∀ fuel k, n ≤ 2 ^ (k + fuel) → (0 < k → 2 ^ (k - 1) < n) →
      n ≤ 2 ^ ceilLog2From n fuel k ∧ (0 < ceilLog2From n fuel k → 2 ^ (ceilLog2From n fuel k - 1) < n)
  | 0, k, h, hk => ⟨h, hk⟩
  | fuel + 1, k, h, hk => by
    unfold ceilLog2From
    split_ifs with hn
    · exact ⟨hn, hk⟩
    · exact ceilLog2From_spec n fuel (k + 1) (by rwa [show k + 1 + fuel = k + (fuel + 1) by omega])
        fun _ => by simpa using Nat.lt_of_not_le hn

/-- `next_power_of_two().trailing_zeros()` is the least `k` with `n ≤ 2 ^ k`. -/
theorem nextPowerOfTwoLog_spec (n : Nat) :
    n ≤ 2 ^ nextPowerOfTwoLog n ∧ (0 < nextPowerOfTwoLog n → 2 ^ (nextPowerOfTwoLog n - 1) < n) :=
  ceilLog2From_spec n n 0 (by simpa using (Nat.lt_pow_self (by decide) n).le) (by simp)

/-! ## Levels -/

/-- `MergeVariant<B>`: an in-progress merge of two batches, or a finished one (`Complete`). -/
inductive MergeVariant (B M : Type) where
  | inProgress (b1 b2 : B) (merger : M)
  | completed (b : Option B)
  deriving DecidableEq, Repr

/-- `MergeState<B>`: an empty level, a single (possibly structurally empty) batch, or a merge. -/
inductive MergeState (B M : Type) where
  | vacant
  | single (b : Option B)
  | double (v : MergeVariant B M)
  deriving DecidableEq, Repr

namespace MergeVariant

/-- `MergeVariant::work`: a step of an in-progress merge; if the merger leaves positive fuel the
    merge is complete with `done()`. Returns the new variant and the fuel left. -/
def work : MergeVariant B M → Int → MergeVariant B M × Int
  | .inProgress b1 b2 merger, fuel =>
    let (merger, fuel) := Batch.work merger b1 b2 fuel
    if 0 < fuel then (.completed (some (Batch.done merger)), fuel)
    else (.inProgress b1 b2 merger, fuel)
  | .completed b, fuel => (.completed b, fuel)

/-- `MergeVariant::complete`: work with `isize::MAX` fuel, then the batch, or a panic. -/
def complete (v : MergeVariant B M) : Except String (Option B) :=
  match (v.work isizeMax).1 with
  | .completed b => .ok b
  | .inProgress .. => .error "Failed to complete a merge!"

end MergeVariant

namespace MergeState

/-- `MergeState::len`: the number of updates held. -/
def len : MergeState B M → Nat
  | .single (some b) => Batch.len b
  | .double (.inProgress b1 b2 _) => Batch.len b1 + Batch.len b2
  | .double (.completed (some b)) => Batch.len b
  | _ => 0

/-- `MergeState::is_vacant`. -/
def isVacant : MergeState B M → Bool
  | .vacant => true
  | _ => false

/-- `MergeState::is_single`. -/
def isSingle : MergeState B M → Bool
  | .single _ => true
  | _ => false

/-- `MergeState::is_double`. -/
def isDouble : MergeState B M → Bool
  | .double _ => true
  | _ => false

/-- `MergeState::is_complete`. -/
def isComplete : MergeState B M → Bool
  | .double (.completed _) => true
  | _ => false

/-- `MergeState::is_inprogress`. -/
def isInprogress : MergeState B M → Bool
  | .double (.inProgress ..) => true
  | _ => false

/-- `MergeState::complete`: the level's batch (its merge completed); the level becomes vacant. -/
def complete : MergeState B M → Except String (Option B)
  | .vacant => .ok none
  | .single b => .ok b
  | .double v => v.complete

/-- `MergeState::work`: only a merge does work. -/
def work (s : MergeState B M) (fuel : Int) : MergeState B M :=
  match s with
  | .double v => .double (v.work fuel).1
  | s => s

/-- `MergeState::begin_merge`: two batches start a merge; a missing one makes it complete. -/
def beginMerge : Option B → Option B → MergeState B M
  | some b1, some b2 => .double (.inProgress b1 b2 (Batch.beginMerge b1 b2))
  | none, some b => .double (.completed (some b))
  | some b, none => .double (.completed (some b))
  | none, none => .double (.completed none)

/-- The batches `map_batches` visits at this level, in its order. -/
def batches : MergeState B M → List B
  | .double (.inProgress b1 b2 _) => [b1, b2]
  | .double (.completed (some b)) => [b]
  | .single (some b) => [b]
  | _ => []

@[simp] theorem isDouble_beginMerge (b1 b2 : Option B) :
    (beginMerge b1 b2 : MergeState B M).isDouble = true := by
  cases b1 <;> cases b2 <;> rfl

end MergeState

/-! ## The spine -/

/-- `Spine<B>`: the levels, the effort multiplier and the dirty flag. -/
structure Spine (B M : Type) where
  merging : List (MergeState B M)
  effort : Nat
  dirty : Bool
  deriving DecidableEq, Repr

namespace Spine

/-- `Spine::with_effort`: an effort of zero is raised to one. -/
def withEffort (effort : Nat) : Spine B M :=
  { merging := [], effort := if effort = 0 then 1 else effort, dirty := false }

/-- `TraceReader::map_batches`: the batches it visits, from the top level down. -/
def mapBatches (sp : Spine B M) : List B :=
  sp.merging.reverse.flatMap MergeState.batches

/-- `BatchReader::len` of the spine: the sum of the lengths of the visited batches. -/
def len (sp : Spine B M) : Nat := (sp.mapBatches.map Batch.len).sum

end Spine

/-! ## `OrdIndexedZSet` as the spine sees it -/

/-- A batch known by its length. With `CountBatch.instBatch` it behaves in the spine as an
    `OrdIndexedZSet` of that many tuples with keys disjoint from every other batch's. -/
structure CountBatch where
  len : Nat
  deriving DecidableEq, Repr

/-- `OrdIndexedZSetMerger`: the merger is its builder, known by the tuples it holds, empty at
    `begin_merge`. Every `work` call pushes the whole merge of the two batches into the builder
    and leaves `max(fuel - pushed, 1)` fuel, `pushed` being the builder's length that
    `push_merge` returns (as `OrderedLeafBuilder::push_merge` does). The first call therefore
    completes the merge, and `MergeVariant::work` never calls the merger again; a second call
    would push the merge once more. `recede_to` does nothing (`Time = ()`), and `lower() = {()}`
    differs from `upper() = {}`. -/
instance CountBatch.instBatch : Batch CountBatch Nat Unit where
  len b := b.len
  lowerEqUpper _ := false
  beginMerge _ _ := 0
  work builder b1 b2 fuel :=
    let pushed := builder + (b1.len + b2.len)
    (pushed, max (fuel - pushed) 1)
  done builder := ⟨builder⟩
  recedeTo _ b := b

/-- A batch known by its length, for a merger that works in steps (not from the source): the
    merger is the count of updates copied so far, and `work` copies one update per unit of fuel,
    as many as the fuel allows, and hands back what it did not use, so the merge completes on
    the call whose fuel exceeds what was left to copy. -/
structure CopyBatch where
  len : Nat
  deriving DecidableEq, Repr

instance CopyBatch.instBatch : Batch CopyBatch Int Unit where
  len b := b.len
  lowerEqUpper _ := false
  beginMerge _ _ := 0
  work copied b1 b2 fuel :=
    let copy := max 0 (min fuel (b1.len + b2.len - copied))
    (copied + copy, fuel - copy)
  done copied := ⟨copied.toNat⟩
  recedeTo _ b := b

end DbspTrace
