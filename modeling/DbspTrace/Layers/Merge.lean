import DbspTrace.Layers.OrderedLeaf
import Mathlib.Data.List.Sort
import Mathlib.Algebra.Group.Int
import Mathlib.Tactic.Abel

/-
  What `push_merge` computes. `mergeSpec` is the merge of two key-ascending lists of
  `(key, weight)` pairs: key order, the weights of a shared key summed, a zero sum dropped.
  Read as Z-sets (`weightOf`, the weight of each key), it is pointwise addition.

  Proved:
  * `pushMerge_spec`: in the release build, `push_merge` over two in-range, key-ascending cursor
    ranges appends `mergeSpec` of the two ranges to the builder and returns the new length. The
    proof is the loop invariant of `mergeLoop` (`mergeLoop_spec`): what is already written, then
    the merge of what is left of the two ranges, is the merge of the whole ranges. Each galloping
    round copies a run of keys below the other range's head (`gallop_run`, from
    `advance_of_monotoneFalse`).
  * `lookupKey_mergeSpec`: the entry of each key in the merge, from its entries in the ranges.
  * `ZLeaf`: canonical leaves (keys strictly ascending, no zero weight) as a structure carrying
    that invariant. `merge`, `+`, `+=`, `add_by_ref` and `add_assign_by_ref` all compute its
    addition (`merge_eq_add`, `add_eq_add`, `addAssign_eq_add`, ...), `neg_by_ref` its
    negation, and the operations make it an additive commutative group whose Z-set
    (`ZLeaf.toZSet`) is the pointwise sum (`toZSet_add`).
-/

namespace DbspTrace.Layers

variable {K R : Type}

/-! ## Key order and lookup -/

section Order

variable [LinearOrder K]

/-- Keys strictly ascending, as `push_merge` requires of each range. -/
def KeysAscending (xs : List (K × R)) : Prop := xs.Pairwise (·.1 < ·.1)

instance (xs : List (K × R)) : Decidable (KeysAscending xs) :=
  inferInstanceAs (Decidable (xs.Pairwise _))

@[simp] theorem keysAscending_nil : KeysAscending ([] : List (K × R)) := List.Pairwise.nil

theorem keysAscending_cons {x : K × R} {xs : List (K × R)} :
    KeysAscending (x :: xs) ↔ (∀ y ∈ xs, x.1 < y.1) ∧ KeysAscending xs := List.pairwise_cons

theorem KeysAscending.sublist {xs ys : List (K × R)} (h : KeysAscending ys) (hs : xs.Sublist ys) :
    KeysAscending xs := List.Pairwise.sublist hs h

/-- Every key of a key-ascending list is at least its head's key. -/
theorem KeysAscending.head_le {x : K × R} {xs : List (K × R)} (h : KeysAscending (x :: xs)) :
    ∀ y ∈ x :: xs, x.1 ≤ y.1 := by
  intro y hy
  rcases List.mem_cons.mp hy with rfl | hy
  · exact le_rfl
  · exact (keysAscending_cons.mp h).1 y hy |>.le

/-- The weight a list holds for `k`: that of its first pair with key `k`. -/
def lookupKey : List (K × R) → K → Option R
  | [], _ => none
  | x :: xs, k => if x.1 = k then some x.2 else lookupKey xs k

@[simp] theorem lookupKey_nil (k : K) : lookupKey ([] : List (K × R)) k = none := rfl

theorem lookupKey_cons (x : K × R) (xs : List (K × R)) (k : K) :
    lookupKey (x :: xs) k = if x.1 = k then some x.2 else lookupKey xs k := rfl

theorem lookupKey_eq_none {xs : List (K × R)} {k : K} (h : ∀ y ∈ xs, y.1 ≠ k) :
    lookupKey xs k = none := by
  induction xs with
  | nil => rfl
  | cons x xs ih =>
    rw [lookupKey_cons, if_neg (h x (List.mem_cons_self _ _))]
    exact ih fun y hy => h y (List.mem_cons_of_mem _ hy)

/-- A key below the head of a key-ascending list is not in it. -/
theorem lookupKey_of_lt_head {x : K × R} {xs : List (K × R)} {k : K} (h : KeysAscending (x :: xs))
    (hk : k < x.1) : lookupKey (x :: xs) k = none :=
  lookupKey_eq_none fun y hy => (lt_of_lt_of_le hk (h.head_le y hy)).ne'

/-- The head's key of a key-ascending list is not in its tail. -/
theorem lookupKey_tail_head {x : K × R} {xs : List (K × R)} (h : KeysAscending (x :: xs)) :
    lookupKey xs x.1 = none :=
  lookupKey_eq_none fun y hy => ((keysAscending_cons.mp h).1 y hy).ne'

theorem mem_iff_lookupKey {xs : List (K × R)} (h : KeysAscending xs) {k : K} {w : R} :
    (k, w) ∈ xs ↔ lookupKey xs k = some w := by
  induction xs with
  | nil => simp
  | cons x xs ih =>
    rw [List.mem_cons, lookupKey_cons, ih (keysAscending_cons.mp h).2]
    by_cases hk : x.1 = k
    · subst hk
      rw [if_pos rfl, lookupKey_tail_head h, Option.some_inj]
      constructor
      · rintro (he | hm)
        · exact (congrArg Prod.snd he).symm
        · simp at hm
      · rintro rfl; exact .inl rfl
    · rw [if_neg hk]
      exact or_iff_right fun he => hk (he ▸ rfl)

/-- Two key-ascending lists with the same lookups are equal. -/
theorem eq_of_lookupKey {xs ys : List (K × R)} (hx : KeysAscending xs) (hy : KeysAscending ys)
    (h : ∀ k, lookupKey xs k = lookupKey ys k) : xs = ys := by
  have : IsAntisymm (K × R) fun a b => a.1 < b.1 :=
    ⟨fun _ _ h1 h2 => absurd (h1.trans h2) (lt_irrefl _)⟩
  have nodup : ∀ {zs : List (K × R)}, KeysAscending zs → zs.Nodup :=
    List.Pairwise.imp fun hab he => (he ▸ hab).ne rfl
  refine List.eq_of_perm_of_sorted ((List.perm_ext_iff_of_nodup (nodup hx) (nodup hy)).2
    fun z => ?_) hx hy
  rw [← Prod.mk.eta (p := z), mem_iff_lookupKey hx, mem_iff_lookupKey hy, h]

end Order

/-! ## Z-sets -/

section ZSet

variable [LinearOrder K] [AddCommGroup R]

/-- The weight of a key in the Z-set a list of pairs represents: the sum of its pairs' weights. -/
def weightOf : List (K × R) → K → R
  | [], _ => 0
  | x :: xs, k => (if x.1 = k then x.2 else 0) + weightOf xs k

theorem weightOf_eq_zero {xs : List (K × R)} {k : K} (h : ∀ y ∈ xs, y.1 ≠ k) : weightOf xs k = 0 := by
  induction xs with
  | nil => rfl
  | cons x xs ih =>
    rw [weightOf, if_neg (h x (List.mem_cons_self _ _)), ih fun y hy => h y (List.mem_cons_of_mem _ hy),
      add_zero]

/-- On a key-ascending list the Z-set's weight is the looked-up weight. -/
theorem weightOf_eq_lookupKey {xs : List (K × R)} (h : KeysAscending xs) (k : K) :
    weightOf xs k = (lookupKey xs k).getD 0 := by
  induction xs with
  | nil => rfl
  | cons x xs ih =>
    rw [weightOf, lookupKey_cons]
    split_ifs with hk
    · subst hk
      rw [weightOf_eq_zero fun y hy => ((keysAscending_cons.mp h).1 y hy).ne', add_zero]; rfl
    · rw [zero_add, ih (keysAscending_cons.mp h).2]

/-- A leaf in the form batches keep it: keys strictly ascending, no zero weight. -/
structure Canonical (xs : List (K × R)) : Prop where
  ascending : KeysAscending xs
  nonzero : ∀ x ∈ xs, x.2 ≠ 0

instance [DecidableEq R] (xs : List (K × R)) : Decidable (Canonical xs) :=
  decidable_of_iff (KeysAscending xs ∧ ∀ x ∈ xs, x.2 ≠ 0) ⟨fun h => ⟨h.1, h.2⟩, fun h => ⟨h.1, h.2⟩⟩

/-- Canonical lists with the same weight for a key hold the same entry for it. -/
theorem Canonical.lookupKey_eq {xs ys : List (K × R)} (hx : Canonical xs) (hy : Canonical ys)
    {k : K} (h : weightOf xs k = weightOf ys k) : lookupKey xs k = lookupKey ys k := by
  have nz : ∀ {zs : List (K × R)} {w : R}, Canonical zs → lookupKey zs k = some w → w ≠ 0 :=
    fun hz hw => hz.nonzero _ ((mem_iff_lookupKey hz.ascending).mpr hw)
  rw [weightOf_eq_lookupKey hx.ascending, weightOf_eq_lookupKey hy.ascending] at h
  cases h1 : lookupKey xs k <;> cases h2 : lookupKey ys k <;>
    simp only [h1, h2, Option.getD_none, Option.getD_some] at h
  · rfl
  · exact absurd h.symm (nz hy h2)
  · exact absurd h (nz hx h1)
  · rw [h]

/-- Canonical lists representing the same Z-set are equal. -/
theorem Canonical.eq_of_weightOf {xs ys : List (K × R)} (hx : Canonical xs) (hy : Canonical ys)
    (h : ∀ k, weightOf xs k = weightOf ys k) : xs = ys :=
  eq_of_lookupKey hx.ascending hy.ascending fun _ => hx.lookupKey_eq hy (h _)

theorem Canonical.neg {xs : List (K × R)} (h : Canonical xs) :
    Canonical (xs.map fun x => (x.1, -x.2)) :=
  ⟨List.pairwise_map.mpr h.ascending, by
    simpa only [List.forall_mem_map, neg_ne_zero] using h.nonzero⟩

end ZSet

/-! ## The abstract merge -/

section Spec

variable [LinearOrder K] [AddCommGroup R] [DecidableEq R]

/-- The merge of two key-ascending lists: key order, weights of a shared key summed, a zero sum
    dropped. -/
def mergeSpec : List (K × R) → List (K × R) → List (K × R)
  | [], ys => ys
  | x :: xs, [] => x :: xs
  | x :: xs, y :: ys =>
    if x.1 < y.1 then x :: mergeSpec xs (y :: ys)
    else if y.1 < x.1 then y :: mergeSpec (x :: xs) ys
    else if x.2 + y.2 = 0 then mergeSpec xs ys else (x.1, x.2 + y.2) :: mergeSpec xs ys
termination_by xs ys => xs.length + ys.length

@[simp] theorem mergeSpec_nil_left (ys : List (K × R)) : mergeSpec [] ys = ys := by
  simp [mergeSpec]

@[simp] theorem mergeSpec_nil_right (xs : List (K × R)) : mergeSpec xs [] = xs := by
  cases xs <;> simp [mergeSpec]

theorem mergeSpec_cons_cons (x y : K × R) (xs ys : List (K × R)) :
    mergeSpec (x :: xs) (y :: ys) =
      if x.1 < y.1 then x :: mergeSpec xs (y :: ys)
      else if y.1 < x.1 then y :: mergeSpec (x :: xs) ys
      else if x.2 + y.2 = 0 then mergeSpec xs ys else (x.1, x.2 + y.2) :: mergeSpec xs ys := by
  rw [mergeSpec]

/-- The entry a key gets in the merge: a key of one list only keeps its weight, a key of both
    gets the sum of its weights unless that is zero. -/
def mergeEntry : Option R → Option R → Option R
  | none, w => w
  | some w, none => some w
  | some w1, some w2 => if w1 + w2 = 0 then none else some (w1 + w2)

@[simp] theorem mergeEntry_none_right (w : Option R) : mergeEntry w none = w := by
  cases w <;> rfl

theorem mergeSpec_comm (xs ys : List (K × R)) : mergeSpec xs ys = mergeSpec ys xs := by
  induction xs, ys using mergeSpec.induct with
  | case1 ys => cases ys <;> simp
  | case2 x xs => simp
  | case3 x xs y ys hlt ih =>
    rw [mergeSpec_cons_cons, mergeSpec_cons_cons, if_pos hlt, if_neg (lt_asymm hlt), if_pos hlt, ih]
  | case4 x xs y ys hnlt hgt ih =>
    rw [mergeSpec_cons_cons, mergeSpec_cons_cons, if_neg hnlt, if_pos hgt, if_pos hgt, ih]
  | case5 x xs y ys h1 h2 hz ih =>
    rw [mergeSpec_cons_cons, mergeSpec_cons_cons, if_neg h1, if_neg h2, if_neg h2, if_neg h1,
      if_pos hz, if_pos (by rwa [add_comm]), ih]
  | case6 x xs y ys h1 h2 hz ih =>
    rw [mergeSpec_cons_cons, mergeSpec_cons_cons, if_neg h1, if_neg h2, if_neg h2, if_neg h1,
      if_neg hz, if_neg (by rwa [add_comm]), ih, le_antisymm (not_lt.mp h2) (not_lt.mp h1),
      add_comm]

/-- Every key of the merge satisfies a property that all keys of both inputs satisfy. -/
theorem mergeSpec_keys (P : K → Prop) {xs ys : List (K × R)} (hx : ∀ x ∈ xs, P x.1)
    (hy : ∀ y ∈ ys, P y.1) : ∀ z ∈ mergeSpec xs ys, P z.1 := by
  induction xs, ys using mergeSpec.induct with
  | case1 ys => simpa using hy
  | case2 x xs => simpa using hx
  | case3 x xs y ys hlt ih =>
    rw [mergeSpec_cons_cons, if_pos hlt]
    exact List.forall_mem_cons.mpr ⟨hx x (List.mem_cons_self _ _),
      ih (fun a ha => hx a (List.mem_cons_of_mem _ ha)) hy⟩
  | case4 x xs y ys hnlt hgt ih =>
    rw [mergeSpec_cons_cons, if_neg hnlt, if_pos hgt]
    exact List.forall_mem_cons.mpr ⟨hy y (List.mem_cons_self _ _),
      ih hx fun a ha => hy a (List.mem_cons_of_mem _ ha)⟩
  | case5 x xs y ys h1 h2 hz ih =>
    rw [mergeSpec_cons_cons, if_neg h1, if_neg h2, if_pos hz]
    exact ih (fun a ha => hx a (List.mem_cons_of_mem _ ha)) fun a ha => hy a (List.mem_cons_of_mem _ ha)
  | case6 x xs y ys h1 h2 hz ih =>
    rw [mergeSpec_cons_cons, if_neg h1, if_neg h2, if_neg hz]
    exact List.forall_mem_cons.mpr ⟨hx x (List.mem_cons_self _ _),
      ih (fun a ha => hx a (List.mem_cons_of_mem _ ha)) fun a ha => hy a (List.mem_cons_of_mem _ ha)⟩

theorem keysAscending_mergeSpec {xs ys : List (K × R)} (hx : KeysAscending xs)
    (hy : KeysAscending ys) : KeysAscending (mergeSpec xs ys) := by
  induction xs, ys using mergeSpec.induct with
  | case1 ys => simpa using hy
  | case2 x xs => simpa using hx
  | case3 x xs y ys hlt ih =>
    rw [mergeSpec_cons_cons, if_pos hlt, keysAscending_cons]
    exact ⟨mergeSpec_keys _ (keysAscending_cons.mp hx).1
      fun b hb => lt_of_lt_of_le hlt (hy.head_le b hb), ih (keysAscending_cons.mp hx).2 hy⟩
  | case4 x xs y ys hnlt hgt ih =>
    rw [mergeSpec_cons_cons, if_neg hnlt, if_pos hgt, keysAscending_cons]
    exact ⟨mergeSpec_keys _ (fun a ha => lt_of_lt_of_le hgt (hx.head_le a ha))
      (keysAscending_cons.mp hy).1, ih hx (keysAscending_cons.mp hy).2⟩
  | case5 x xs y ys h1 h2 hz ih =>
    rw [mergeSpec_cons_cons, if_neg h1, if_neg h2, if_pos hz]
    exact ih (keysAscending_cons.mp hx).2 (keysAscending_cons.mp hy).2
  | case6 x xs y ys h1 h2 hz ih =>
    have heq : x.1 = y.1 := le_antisymm (not_lt.mp h2) (not_lt.mp h1)
    rw [mergeSpec_cons_cons, if_neg h1, if_neg h2, if_neg hz, keysAscending_cons]
    exact ⟨mergeSpec_keys _ (keysAscending_cons.mp hx).1
      (heq ▸ (keysAscending_cons.mp hy).1), ih (keysAscending_cons.mp hx).2 (keysAscending_cons.mp hy).2⟩

/-- The merge's entry for each key, from the two inputs' entries. -/
theorem lookupKey_mergeSpec {xs ys : List (K × R)} (hx : KeysAscending xs)
    (hy : KeysAscending ys) (k : K) :
    lookupKey (mergeSpec xs ys) k = mergeEntry (lookupKey xs k) (lookupKey ys k) := by
  induction xs, ys using mergeSpec.induct with
  | case1 ys => simp [mergeEntry]
  | case2 x xs => simp
  | case3 x xs y ys hlt ih =>
    rw [mergeSpec_cons_cons, if_pos hlt, lookupKey_cons, lookupKey_cons x,
      ih (keysAscending_cons.mp hx).2 hy]
    split_ifs with hk
    · subst hk; rw [lookupKey_of_lt_head hy hlt]; rfl
    · rfl
  | case4 x xs y ys hnlt hgt ih =>
    rw [mergeSpec_cons_cons, if_neg hnlt, if_pos hgt, lookupKey_cons, lookupKey_cons y,
      ih hx (keysAscending_cons.mp hy).2]
    split_ifs with hk
    · subst hk; rw [lookupKey_of_lt_head hx hgt]; rfl
    · rfl
  | case5 x xs y ys h1 h2 hz ih =>
    have heq : x.1 = y.1 := le_antisymm (not_lt.mp h2) (not_lt.mp h1)
    rw [mergeSpec_cons_cons, if_neg h1, if_neg h2, if_pos hz, lookupKey_cons, lookupKey_cons,
      ih (keysAscending_cons.mp hx).2 (keysAscending_cons.mp hy).2, ← heq]
    split_ifs with hk
    · subst hk
      rw [lookupKey_tail_head hx, heq, lookupKey_tail_head hy, mergeEntry, mergeEntry, if_pos hz]
    · rfl
  | case6 x xs y ys h1 h2 hz ih =>
    have heq : x.1 = y.1 := le_antisymm (not_lt.mp h2) (not_lt.mp h1)
    rw [mergeSpec_cons_cons, if_neg h1, if_neg h2, if_neg hz, lookupKey_cons, lookupKey_cons,
      lookupKey_cons, ih (keysAscending_cons.mp hx).2 (keysAscending_cons.mp hy).2, ← heq]
    split_ifs with hk
    · rw [mergeEntry, if_neg hz]
    · rfl

/-- Prepending a run whose keys are below every key of the other list. -/
theorem mergeSpec_append_left {run xs ys : List (K × R)} (h : ∀ a ∈ run, ∀ b ∈ ys, a.1 < b.1) :
    mergeSpec (run ++ xs) ys = run ++ mergeSpec xs ys := by
  induction run with
  | nil => rfl
  | cons a run ih =>
    cases ys with
    | nil => simp
    | cons b ys =>
      rw [List.cons_append, mergeSpec_cons_cons, if_pos (h a (List.mem_cons_self _ _) b
        (List.mem_cons_self _ _)), ih fun a' ha' => h a' (List.mem_cons_of_mem _ ha'),
        List.cons_append]

theorem mergeSpec_append_right {run xs ys : List (K × R)} (h : ∀ a ∈ run, ∀ b ∈ xs, a.1 < b.1) :
    mergeSpec xs (run ++ ys) = run ++ mergeSpec xs ys := by
  rw [mergeSpec_comm, mergeSpec_append_left h, mergeSpec_comm]

/-- Merging a list with its negation cancels every entry. -/
theorem mergeSpec_neg (xs : List (K × R)) : mergeSpec xs (xs.map fun x => (x.1, -x.2)) = [] := by
  induction xs with
  | nil => simp
  | cons x xs ih =>
    rw [List.map_cons, mergeSpec_cons_cons, if_neg (lt_irrefl _), if_neg (lt_irrefl _),
      if_pos (add_neg_cancel x.2), ih]

theorem weightOf_mergeSpec (xs ys : List (K × R)) (k : K) :
    weightOf (mergeSpec xs ys) k = weightOf xs k + weightOf ys k := by
  induction xs, ys using mergeSpec.induct with
  | case1 ys => simp [weightOf]
  | case2 x xs => simp [weightOf]
  | case3 x xs y ys hlt ih =>
    simp only [mergeSpec_cons_cons, if_pos hlt, weightOf, ih]; abel
  | case4 x xs y ys hnlt hgt ih =>
    simp only [mergeSpec_cons_cons, if_neg hnlt, if_pos hgt, weightOf, ih]; abel
  | case5 x xs y ys h1 h2 hz ih =>
    have heq : x.1 = y.1 := le_antisymm (not_lt.mp h2) (not_lt.mp h1)
    rw [mergeSpec_cons_cons, if_neg h1, if_neg h2, if_pos hz]
    simp only [weightOf, ih, ← heq]
    split_ifs
    · rw [eq_neg_of_add_eq_zero_left hz]; abel
    · abel
  | case6 x xs y ys h1 h2 hz ih =>
    have heq : x.1 = y.1 := le_antisymm (not_lt.mp h2) (not_lt.mp h1)
    rw [mergeSpec_cons_cons, if_neg h1, if_neg h2, if_neg hz]
    simp only [weightOf, ih, ← heq]
    split_ifs <;> abel

theorem nonzero_mergeSpec {xs ys : List (K × R)} (hx : ∀ x ∈ xs, x.2 ≠ 0)
    (hy : ∀ y ∈ ys, y.2 ≠ 0) : ∀ z ∈ mergeSpec xs ys, z.2 ≠ 0 := by
  induction xs, ys using mergeSpec.induct with
  | case1 ys => simpa using hy
  | case2 x xs => simpa using hx
  | case3 x xs y ys hlt ih =>
    rw [mergeSpec_cons_cons, if_pos hlt]
    exact List.forall_mem_cons.mpr ⟨hx x (List.mem_cons_self _ _),
      ih (fun a ha => hx a (List.mem_cons_of_mem _ ha)) hy⟩
  | case4 x xs y ys hnlt hgt ih =>
    rw [mergeSpec_cons_cons, if_neg hnlt, if_pos hgt]
    exact List.forall_mem_cons.mpr ⟨hy y (List.mem_cons_self _ _),
      ih hx fun a ha => hy a (List.mem_cons_of_mem _ ha)⟩
  | case5 x xs y ys h1 h2 hz ih =>
    rw [mergeSpec_cons_cons, if_neg h1, if_neg h2, if_pos hz]
    exact ih (fun a ha => hx a (List.mem_cons_of_mem _ ha)) fun a ha => hy a (List.mem_cons_of_mem _ ha)
  | case6 x xs y ys h1 h2 hz ih =>
    rw [mergeSpec_cons_cons, if_neg h1, if_neg h2, if_neg hz]
    exact List.forall_mem_cons.mpr ⟨hz,
      ih (fun a ha => hx a (List.mem_cons_of_mem _ ha)) fun a ha => hy a (List.mem_cons_of_mem _ ha)⟩

theorem Canonical.mergeSpec {xs ys : List (K × R)} (hx : Canonical xs) (hy : Canonical ys) :
    Canonical (mergeSpec xs ys) :=
  ⟨keysAscending_mergeSpec hx.ascending hy.ascending, nonzero_mergeSpec hx.nonzero hy.nonzero⟩

end Spec

/-! ## `push_merge` computes the abstract merge -/

section Refinement

variable [LinearOrder K]

private theorem forall_mem_take_of_le_takeWhile {α : Type} {p : α → Bool} {l : List α} {m : Nat}
    (h : m ≤ (l.takeWhile p).length) : ∀ y ∈ l.take m, p y := by
  intro y hy
  rw [← List.takeWhile_append_dropWhile p l, List.take_append_of_le_length h] at hy
  exact List.mem_takeWhile_imp (List.mem_of_mem_take hy)

/-- One galloping round from `l`, whose key is below `bound`: the release build's `advance` over
    the rest of the range returns some `n`, and the run of `min (1 + n) 1000` entries copied from
    `l` stays in the range and has only keys below `bound`. -/
theorem gallop_run {xs : List (K × R)} {l u : Nat} {x : K × R} {bound : K} (hx : xs[l]? = some x)
    (hlu : l < u) (hasc : KeysAscending (subrange xs l u)) (hk : x.1 < bound) :
    ∃ n, advance .release (subrange xs (1 + l) u) (fun y => y.1 < bound) = some n ∧
      l + min (1 + n) 1000 ≤ u ∧ ∀ y ∈ subrange xs l (l + min (1 + n) 1000), y.1 < bound := by
  have hcons := subrange_cons hx hlu
  rw [hcons, keysAscending_cons] at hasc
  rw [Nat.add_comm 1 l]
  set r := subrange xs (l + 1) u
  set f : K × R → Bool := fun y => decide (y.1 < bound)
  have hmono : MonotoneFalse f r :=
    hasc.2.imp fun hab hb => decide_eq_true (hab.trans (of_decide_eq_true hb))
  have hlen : (r.takeWhile f).length ≤ u - (l + 1) :=
    (List.takeWhile_prefix f).length_le.trans (length_subrange_le xs (l + 1) u)
  refine ⟨_, advance_of_monotoneFalse (by decide) hmono, by omega, fun y hy => ?_⟩
  obtain ⟨s, hs⟩ : ∃ s, min (1 + (r.takeWhile f).length) 1000 = s + 1 := ⟨_, (Nat.succ_pred_eq_of_pos (by omega)).symm⟩
  have ht : (subrange xs l u).take (s + 1) = subrange xs l (l + (s + 1)) := take_subrange (by omega)
  rw [hs, ← ht, hcons, List.take_succ_cons] at hy
  rcases List.mem_cons.mp hy with rfl | hy
  · exact hk
  · have hle : s ≤ (r.takeWhile f).length := by omega
    exact of_decide_eq_true (forall_mem_take_of_le_takeWhile hle y hy)

variable [AddCommGroup R] [DecidableEq R]

/-- The invariant of `push_merge`'s loop in the release build: from in-range, key-ascending
    ranges and enough fuel, the loop stops inside the ranges, and what it has written followed by
    what is left of the two ranges is what it started from followed by their merge. -/
theorem mergeLoop_spec (t1 t2 : OrderedLeaf K R) {u1 u2 : Nat} (hu1 : u1 ≤ t1.vals.length)
    (hu2 : u2 ≤ t2.vals.length) (fuel : Nat) (vals : List (K × R)) (l1 l2 : Nat)
    (hl1 : l1 ≤ u1) (hl2 : l2 ≤ u2) (hfuel : (u1 - l1) + (u2 - l2) ≤ fuel)
    (hs1 : KeysAscending (subrange t1.vals l1 u1)) (hs2 : KeysAscending (subrange t2.vals l2 u2)) :
    ∃ vals' l1' l2', mergeLoop .release t1 t2 u1 u2 fuel vals l1 l2 = some (vals', l1', l2') ∧
      l1' ≤ u1 ∧ l2' ≤ u2 ∧
      vals' ++ subrange t1.vals l1' u1 ++ subrange t2.vals l2' u2 =
        vals ++ mergeSpec (subrange t1.vals l1 u1) (subrange t2.vals l2 u2) := by
  induction fuel generalizing vals l1 l2 with
  | zero =>
    obtain rfl : l1 = u1 := by omega
    obtain rfl : l2 = u2 := by omega
    exact ⟨vals, l1, l2, rfl, le_rfl, le_rfl, by simp⟩
  | succ fuel ih =>
    by_cases hb : l1 < u1 ∧ l2 < u2
    swap
    · refine ⟨vals, l1, l2, by rw [mergeLoop, if_neg hb], hl1, hl2, ?_⟩
      rcases not_and_or.mp hb with h | h
      · obtain rfl : l1 = u1 := by omega
        simp
      · obtain rfl : l2 = u2 := by omega
        simp
    obtain ⟨⟨k1, w1⟩, hx⟩ := exists_getElem?_eq_some (show l1 < t1.vals.length by omega)
    obtain ⟨⟨k2, w2⟩, hy⟩ := exists_getElem?_eq_some (show l2 < t2.vals.length by omega)
    have hc1 := subrange_cons hx hb.1
    have hc2 := subrange_cons hy hb.2
    rcases lt_trichotomy k1 k2 with hlt | rfl | hgt
    · -- `Ordering::Less`: copy a run of `trie1`
      obtain ⟨n, hadv, hle, hrun⟩ := gallop_run hx hb.1 hs1 hlt
      obtain ⟨vals', l1', l2', hloop, h1', h2', heq⟩ :=
        ih (vals ++ subrange t1.vals l1 (l1 + min (1 + n) 1000)) (l1 + min (1 + n) 1000) l2
          hle hl2 (by omega) (drop_subrange _ ▸ hs1.sublist (List.drop_sublist _ _)) hs2
      refine ⟨vals', l1', l2', ?_, h1', h2', ?_⟩
      · simpa only [mergeLoop, if_pos hb, hx, hy, compare_lt_iff_lt.mpr hlt, Option.bind_eq_bind,
          sliceOf_eq (show 1 + l1 ≤ u1 by omega) hu1, sliceOf_eq (Nat.le_add_right l1 _)
            (hle.trans hu1), hadv, Option.some_bind] using hloop
      · rw [heq, ← subrange_append (Nat.le_add_right l1 _) hle, mergeSpec_append_left,
          List.append_assoc]
        intro a ha b hb'
        rw [hc2] at hs2 hb'
        exact lt_of_lt_of_le (hrun a ha) (hs2.head_le b hb')
    · -- `Ordering::Equal`: add the two weights
      obtain ⟨vals', l1', l2', hloop, h1', h2', heq⟩ :=
        ih (if w1 + w2 = 0 then vals else vals ++ [(k1, w1 + w2)]) (l1 + 1) (l2 + 1) (by omega)
          (by omega) (by omega) (drop_subrange 1 ▸ hs1.sublist (List.drop_sublist _ _))
          (drop_subrange 1 ▸ hs2.sublist (List.drop_sublist _ _))
      refine ⟨vals', l1', l2', ?_, h1', h2', ?_⟩
      · simpa only [mergeLoop, if_pos hb, hx, hy, compare_eq_iff_eq.mpr rfl] using hloop
      · rw [heq, hc1, hc2, mergeSpec_cons_cons, if_neg (lt_irrefl _), if_neg (lt_irrefl _)]
        split_ifs <;> simp
    · -- `Ordering::Greater`: copy a run of `trie2`
      obtain ⟨n, hadv, hle, hrun⟩ := gallop_run hy hb.2 hs2 hgt
      obtain ⟨vals', l1', l2', hloop, h1', h2', heq⟩ :=
        ih (vals ++ subrange t2.vals l2 (l2 + min (1 + n) 1000)) l1 (l2 + min (1 + n) 1000)
          hl1 hle (by omega) hs1 (drop_subrange _ ▸ hs2.sublist (List.drop_sublist _ _))
      refine ⟨vals', l1', l2', ?_, h1', h2', ?_⟩
      · simpa only [mergeLoop, if_pos hb, hx, hy, compare_gt_iff_gt.mpr hgt, Option.bind_eq_bind,
          sliceOf_eq (show 1 + l2 ≤ u2 by omega) hu2, sliceOf_eq (Nat.le_add_right l2 _)
            (hle.trans hu2), hadv, Option.some_bind] using hloop
      · rw [heq, ← subrange_append (Nat.le_add_right l2 _) hle, mergeSpec_append_right,
          List.append_assoc]
        intro a ha b hb'
        rw [hc1] at hs1 hb'
        exact lt_of_lt_of_le (hrun a ha) (hs1.head_le b hb')

/-- `push_merge` in the release build: on in-range cursors over key-ascending ranges it appends
    the merge of the two ranges to the builder and returns the new length. -/
theorem pushMerge_spec (b : OrderedLeafBuilder K R) (t1 t2 : OrderedLeaf K R)
    (c1 c2 : OrderedLeafCursor) (h1 : c1.bounds.1 ≤ c1.bounds.2) (hu1 : c1.bounds.2 ≤ t1.vals.length)
    (h2 : c2.bounds.1 ≤ c2.bounds.2) (hu2 : c2.bounds.2 ≤ t2.vals.length)
    (hs1 : KeysAscending (subrange t1.vals c1.bounds.1 c1.bounds.2))
    (hs2 : KeysAscending (subrange t2.vals c2.bounds.1 c2.bounds.2)) :
    pushMerge .release b t1 c1 t2 c2 =
      some (⟨b.vals ++ mergeSpec (subrange t1.vals c1.bounds.1 c1.bounds.2)
          (subrange t2.vals c2.bounds.1 c2.bounds.2)⟩,
        (b.vals ++ mergeSpec (subrange t1.vals c1.bounds.1 c1.bounds.2)
          (subrange t2.vals c2.bounds.1 c2.bounds.2)).length) := by
  obtain ⟨p1, l1, u1⟩ := c1
  obtain ⟨p2, l2, u2⟩ := c2
  dsimp only at *
  obtain ⟨vals, l1', l2', hloop, h1', h2', heq⟩ :=
    mergeLoop_spec t1 t2 hu1 hu2 _ b.vals l1 l2 h1 h2 le_rfl hs1 hs2
  rw [← heq]
  simp only [pushMerge, if_neg (show ¬(u1 < l1 ∨ u2 < l2) by omega), hloop, Option.bind_eq_bind,
    Option.some_bind]
  split_ifs with hlt1 hlt2 hlt2 <;> simp [OrderedLeafBuilder.copyRange, sliceOf_eq h1' hu1,
    sliceOf_eq h2' hu2, subrange_of_not_lt, hlt1, hlt2, Nat.add_assoc]

theorem OrderedLeaf.merge_eq {t1 t2 : OrderedLeaf K R} (h1 : KeysAscending t1.vals)
    (h2 : KeysAscending t2.vals) : t1.merge .release t2 = some ⟨mergeSpec t1.vals t2.vals⟩ := by
  have hs : ∀ t : OrderedLeaf K R, subrange t.vals t.cursor.bounds.1 t.cursor.bounds.2 = t.vals :=
    fun t => subrange_to_length t.vals 0
  rw [OrderedLeaf.merge, pushMerge_spec ⟨[]⟩ t1 t2 t1.cursor t2.cursor (Nat.zero_le _) le_rfl
    (Nat.zero_le _) le_rfl (by rwa [hs]) (by rwa [hs]), hs, hs]
  rfl

end Refinement

/-! ## Canonical leaves form a group -/

theorem OrderedLeaf.isEmpty_iff {t : OrderedLeaf K R} : t.isEmpty = true ↔ t.vals = [] := by
  simp [OrderedLeaf.isEmpty, OrderedLeaf.keys]

/-- A leaf in canonical form: the invariant as a field. -/
structure ZLeaf (K R : Type) [LinearOrder K] [AddCommGroup R] where
  leaf : OrderedLeaf K R
  canonical : Canonical leaf.vals

namespace ZLeaf

variable [LinearOrder K] [AddCommGroup R]

@[ext] theorem ext {a b : ZLeaf K R} (h : a.leaf = b.leaf) : a = b := by
  cases a; cases b; cases h; rfl

instance : Zero (ZLeaf K R) := ⟨⟨⟨[]⟩, ⟨List.Pairwise.nil, by simp⟩⟩⟩

instance : Neg (ZLeaf K R) := ⟨fun a => ⟨a.leaf.negByRef, Canonical.neg a.canonical⟩⟩

@[simp] theorem zero_vals : (0 : ZLeaf K R).leaf.vals = [] := rfl

@[simp] theorem neg_leaf (a : ZLeaf K R) : (-a).leaf = a.leaf.negByRef := rfl

/-- The Z-set a canonical leaf represents. -/
def toZSet (a : ZLeaf K R) : K → R := weightOf a.leaf.vals

theorem toZSet_injective : Function.Injective (@toZSet K R _ _) := fun a b h =>
  ZLeaf.ext (congrArg OrderedLeaf.mk (a.canonical.eq_of_weightOf b.canonical (congrFun h)))

variable [DecidableEq R]

instance : Add (ZLeaf K R) :=
  ⟨fun a b => ⟨⟨mergeSpec a.leaf.vals b.leaf.vals⟩, a.canonical.mergeSpec b.canonical⟩⟩

@[simp] theorem add_vals (a b : ZLeaf K R) :
    (a + b).leaf.vals = mergeSpec a.leaf.vals b.leaf.vals := rfl

theorem toZSet_add (a b : ZLeaf K R) : (a + b).toZSet = a.toZSet + b.toZSet :=
  funext (weightOf_mergeSpec a.leaf.vals b.leaf.vals)

instance : AddCommGroup (ZLeaf K R) where
  add_assoc a b c := toZSet_injective (by simp only [toZSet_add, add_assoc])
  zero_add a := ZLeaf.ext (congrArg OrderedLeaf.mk (mergeSpec_nil_left _))
  add_zero a := ZLeaf.ext (congrArg OrderedLeaf.mk (mergeSpec_nil_right _))
  add_comm a b := ZLeaf.ext (congrArg OrderedLeaf.mk (mergeSpec_comm _ _))
  neg_add_cancel a := ZLeaf.ext (congrArg OrderedLeaf.mk
    ((mergeSpec_comm _ _).trans (mergeSpec_neg a.leaf.vals)))
  nsmul := nsmulRec
  zsmul := zsmulRec

/-! ### The leaf operations compute the group's -/

variable (a b : ZLeaf K R)

theorem merge_eq_add : a.leaf.merge .release b.leaf = some (a + b).leaf :=
  OrderedLeaf.merge_eq a.canonical.ascending b.canonical.ascending

theorem add_leaf : (a + b).leaf = ⟨mergeSpec a.leaf.vals b.leaf.vals⟩ := rfl

theorem add_eq_add : a.leaf.add .release b.leaf = some (a + b).leaf := by
  unfold OrderedLeaf.add
  split_ifs with ha hb
  · rw [add_leaf, OrderedLeaf.isEmpty_iff.mp ha, mergeSpec_nil_left]
  · rw [add_leaf, OrderedLeaf.isEmpty_iff.mp hb, mergeSpec_nil_right]
  · exact merge_eq_add a b

theorem addAssign_eq_add : a.leaf.addAssign .release b.leaf = some (a + b).leaf := by
  unfold OrderedLeaf.addAssign
  split_ifs with hb
  · exact merge_eq_add a b
  · have hb' : b.leaf.vals = [] := OrderedLeaf.isEmpty_iff.mp (by simpa using hb)
    rw [add_leaf, hb', mergeSpec_nil_right]

theorem addAssignByRef_eq_add : a.leaf.addAssignByRef .release b.leaf = some (a + b).leaf := by
  unfold OrderedLeaf.addAssignByRef
  split_ifs with hb
  · exact merge_eq_add a b
  · have hb' : b.leaf.vals = [] := OrderedLeaf.isEmpty_iff.mp (by simpa using hb)
    rw [add_leaf, hb', mergeSpec_nil_right]

theorem addByRef_eq_add : a.leaf.addByRef .release b.leaf = some (a + b).leaf :=
  merge_eq_add a b

end ZLeaf

/-! ## `push_merge` and the sum of leaves -/

section Sum

variable [LinearOrder K] [AddCommGroup R] [DecidableEq R]

/-- `push_merge` (release build) on key-ascending in-range cursor ranges keeps the builder's
    contents as a prefix and appends the key-ascending list holding each key's `mergeEntry`; on
    canonical leaves `merge`, `+`, `+=`, `add_by_ref` and `add_assign_by_ref` agree, give a
    canonical leaf whose Z-set is the pointwise sum, and obey the laws of an abelian group with
    the empty leaf as zero and `neg_by_ref` as negation. -/
theorem pushMerge_spec_and_leaf_group_laws :
    (∀ (b : OrderedLeafBuilder K R) (t1 t2 : OrderedLeaf K R) (c1 c2 : OrderedLeafCursor),
      c1.bounds.1 ≤ c1.bounds.2 → c1.bounds.2 ≤ t1.vals.length →
      c2.bounds.1 ≤ c2.bounds.2 → c2.bounds.2 ≤ t2.vals.length →
      KeysAscending (subrange t1.vals c1.bounds.1 c1.bounds.2) →
      KeysAscending (subrange t2.vals c2.bounds.1 c2.bounds.2) →
      ∃ app, pushMerge .release b t1 c1 t2 c2 = some (⟨b.vals ++ app⟩, (b.vals ++ app).length) ∧
        KeysAscending app ∧
        ∀ k w, (k, w) ∈ app ↔ mergeEntry (lookupKey (subrange t1.vals c1.bounds.1 c1.bounds.2) k)
          (lookupKey (subrange t2.vals c2.bounds.1 c2.bounds.2) k) = some w) ∧
    (∀ a b : OrderedLeaf K R, Canonical a.vals → Canonical b.vals →
      ∃ s, a.merge .release b = some s ∧ a.add .release b = some s ∧
        a.addAssign .release b = some s ∧ a.addByRef .release b = some s ∧
        a.addAssignByRef .release b = some s ∧ Canonical s.vals ∧
        ∀ k, weightOf s.vals k = weightOf a.vals k + weightOf b.vals k) ∧
    (∀ a b : OrderedLeaf K R, Canonical a.vals → Canonical b.vals →
      a.merge .release b = b.merge .release a) ∧
    (∀ a b c : OrderedLeaf K R, Canonical a.vals → Canonical b.vals → Canonical c.vals →
      (a.merge .release b).bind (fun ab => ab.merge .release c) =
        (b.merge .release c).bind (fun bc => a.merge .release bc)) ∧
    (∀ a : OrderedLeaf K R, Canonical a.vals →
      a.merge .release ⟨[]⟩ = some a ∧ OrderedLeaf.merge .release ⟨[]⟩ a = some a) ∧
    (∀ a : OrderedLeaf K R, Canonical a.vals → a.merge .release a.negByRef = some ⟨[]⟩) := by
  refine ⟨fun b t1 t2 c1 c2 h1 hu1 h2 hu2 hs1 hs2 => ⟨_, pushMerge_spec b t1 t2 c1 c2 h1 hu1 h2 hu2
    hs1 hs2, keysAscending_mergeSpec hs1 hs2, fun k w => by
      rw [mem_iff_lookupKey (keysAscending_mergeSpec hs1 hs2), lookupKey_mergeSpec hs1 hs2]⟩,
    fun a b ha hb => ?_, fun a b ha hb => ?_, fun a b c ha hb hc => ?_, fun a ha => ?_,
    fun a ha => ?_⟩
  · let za : ZLeaf K R := ⟨a, ha⟩
    let zb : ZLeaf K R := ⟨b, hb⟩
    exact ⟨(za + zb).leaf, ZLeaf.merge_eq_add za zb, ZLeaf.add_eq_add za zb,
      ZLeaf.addAssign_eq_add za zb, ZLeaf.addByRef_eq_add za zb, ZLeaf.addAssignByRef_eq_add za zb,
      (za + zb).canonical, congrFun (ZLeaf.toZSet_add za zb)⟩
  · rw [ZLeaf.merge_eq_add ⟨a, ha⟩ ⟨b, hb⟩, ZLeaf.merge_eq_add ⟨b, hb⟩ ⟨a, ha⟩, add_comm]
  · rw [ZLeaf.merge_eq_add ⟨a, ha⟩ ⟨b, hb⟩, ZLeaf.merge_eq_add ⟨b, hb⟩ ⟨c, hc⟩, Option.some_bind,
      Option.some_bind, ZLeaf.merge_eq_add _ ⟨c, hc⟩, ZLeaf.merge_eq_add ⟨a, ha⟩, add_assoc]
  · exact ⟨(ZLeaf.merge_eq_add ⟨a, ha⟩ 0).trans (by rw [add_zero]),
      (ZLeaf.merge_eq_add 0 ⟨a, ha⟩).trans (by rw [zero_add])⟩
  · exact (ZLeaf.merge_eq_add ⟨a, ha⟩ (-⟨a, ha⟩)).trans (by rw [add_neg_cancel])

theorem pushMerge_spec_and_leaf_group_laws_small :
    (∃ app, pushMerge .release (⟨[(0, 7)]⟩ : OrderedLeafBuilder Nat Int) ⟨[(1, 2), (3, 1)]⟩
        ⟨0, (0, 2)⟩ ⟨[(3, -1), (4, 5)]⟩ ⟨0, (0, 2)⟩ = some (⟨[(0, 7)] ++ app⟩, ([(0, 7)] ++ app).length) ∧
      KeysAscending app ∧ ∀ k w, (k, w) ∈ app ↔
        mergeEntry (lookupKey (subrange [(1, 2), (3, 1)] 0 2) k)
          (lookupKey (subrange [(3, -1), (4, 5)] 0 2) k) = some w) ∧
    (∃ s, OrderedLeaf.merge .release (⟨[(1, 2), (3, 1)]⟩ : OrderedLeaf Nat Int) ⟨[(3, -1), (4, 5)]⟩ = some s ∧
      OrderedLeaf.add .release ⟨[(1, 2), (3, 1)]⟩ ⟨[(3, -1), (4, 5)]⟩ = some s ∧
      OrderedLeaf.addAssign .release ⟨[(1, 2), (3, 1)]⟩ ⟨[(3, -1), (4, 5)]⟩ = some s ∧
      OrderedLeaf.addByRef .release ⟨[(1, 2), (3, 1)]⟩ ⟨[(3, -1), (4, 5)]⟩ = some s ∧
      OrderedLeaf.addAssignByRef .release ⟨[(1, 2), (3, 1)]⟩ ⟨[(3, -1), (4, 5)]⟩ = some s ∧
      Canonical s.vals ∧
      ∀ k, weightOf s.vals k = weightOf [(1, 2), (3, 1)] k + weightOf [(3, -1), (4, 5)] k) ∧
    OrderedLeaf.merge .release (⟨[(1, 2), (3, 1)]⟩ : OrderedLeaf Nat Int) ⟨[(3, -1), (4, 5)]⟩ =
      OrderedLeaf.merge .release ⟨[(3, -1), (4, 5)]⟩ ⟨[(1, 2), (3, 1)]⟩ ∧
    (OrderedLeaf.merge .release (⟨[(1, 2), (3, 1)]⟩ : OrderedLeaf Nat Int) ⟨[(3, -1), (4, 5)]⟩).bind
        (fun ab => ab.merge .release ⟨[(4, 1)]⟩) =
      (OrderedLeaf.merge .release (⟨[(3, -1), (4, 5)]⟩ : OrderedLeaf Nat Int) ⟨[(4, 1)]⟩).bind
        (fun bc => OrderedLeaf.merge .release ⟨[(1, 2), (3, 1)]⟩ bc) ∧
    (OrderedLeaf.merge .release (⟨[(1, 2), (3, 1)]⟩ : OrderedLeaf Nat Int) ⟨[]⟩ = some ⟨[(1, 2), (3, 1)]⟩ ∧
      OrderedLeaf.merge .release ⟨[]⟩ (⟨[(1, 2), (3, 1)]⟩ : OrderedLeaf Nat Int) = some ⟨[(1, 2), (3, 1)]⟩) ∧
    OrderedLeaf.merge .release (⟨[(1, 2), (3, 1)]⟩ : OrderedLeaf Nat Int)
      (OrderedLeaf.negByRef ⟨[(1, 2), (3, 1)]⟩) = some ⟨[]⟩ :=
  ⟨pushMerge_spec_and_leaf_group_laws.1 ⟨[(0, 7)]⟩ ⟨[(1, 2), (3, 1)]⟩ ⟨[(3, -1), (4, 5)]⟩ ⟨0, (0, 2)⟩
      ⟨0, (0, 2)⟩ (by decide) (by decide) (by decide) (by decide) (by decide) (by decide),
    pushMerge_spec_and_leaf_group_laws.2.1 ⟨[(1, 2), (3, 1)]⟩ ⟨[(3, -1), (4, 5)]⟩ (by decide)
      (by decide),
    pushMerge_spec_and_leaf_group_laws.2.2.1 ⟨[(1, 2), (3, 1)]⟩ ⟨[(3, -1), (4, 5)]⟩ (by decide)
      (by decide),
    pushMerge_spec_and_leaf_group_laws.2.2.2.1 ⟨[(1, 2), (3, 1)]⟩ ⟨[(3, -1), (4, 5)]⟩ ⟨[(4, 1)]⟩
      (by decide) (by decide) (by decide),
    pushMerge_spec_and_leaf_group_laws.2.2.2.2.1 ⟨[(1, 2), (3, 1)]⟩ (by decide),
    pushMerge_spec_and_leaf_group_laws.2.2.2.2.2 ⟨[(1, 2), (3, 1)]⟩ (by decide)⟩

end Sum

end DbspTrace.Layers
