import Mathlib.Data.Int.ConditionallyCompleteOrder
import Mathlib.Data.Int.Notation
import Mathlib.Data.Int.Order.Basic
import Mathlib.Order.ConditionallyCompleteLattice.Finset
import DiscoSkip.Lib.Loop
import DiscoSkip.Lib.PermOn

/-!
# The unsorted multivector

A chunk of a priority queue (`multivector_asr`) has its pairs in no order, but for the
first, which is a minimum. To be split in two halves, its pairs are moved by a *quickselect*
such that the median is where it would be if they were sorted: it partitions them into those
below a pivot, those of the same key and those above, and goes on in the part that the median
is in. As a minimum in the first place is not moved, it is still the first afterwards.

The indices are integers without bounds, which is exact up to a capacity of `2 ^ 30`: the
greatest number computed is the sum of two indices of the array, which is then one of an `int`.
An index outside the array is an error, as is a loop that does not end (`none`).
-/

namespace DiscoSkip

open Lib

namespace MultivectorAsr

/-- The array of the entries, for indices from `0` up to the capacity. -/
abbrev Entries (K V : Type) := ℤ → K × V

section Quickselect

variable {K V : Type} [LinearOrder K] (cap : ℕ)

omit [LinearOrder K] in
/-- The entry at an index of the array. -/
def get (list : Entries K V) (i : ℤ) : Option (K × V) :=
  if 0 ≤ i ∧ i < cap then some (list i) else none

omit [LinearOrder K] in
def swap (list : Entries K V) (n m : ℤ) : Option (Entries K V) :=
  if n ≠ m then
    if (0 ≤ n ∧ n < cap) ∧ 0 ≤ m ∧ m < cap then some (list ∘ Equiv.swap n m) else none
  else some list

/-- A turn of the loop that expands the upper region without a swap. -/
def shrinkTurn (list : Entries K V) (pivotK : K) (u hi : ℤ) : Option (ℤ ⊕ ℤ) :=
  if u ≤ hi then do
    let e ← get cap list hi
    if pivotK < e.1 then some (.inr (hi - 1)) else some (.inl hi)
  else some (.inl hi)

/-- The entries with `lo`, `u` and `hi`. -/
abbrev Partition (K V : Type) := Entries K V × ℤ × ℤ × ℤ

/-- A turn of the partition: below `lo` are the keys less than the pivot, from there to `u`
    those equal to it, above `hi` those greater, and between are those to go. -/
def partitionTurn (pivotK : K) : Partition K V → Option ((Entries K V × ℤ × ℤ) ⊕ Partition K V)
  | (list, lo, u, hi) =>
    if u ≤ hi then do
      let e ← get cap list u
      if e.1 < pivotK then do
        let list ← swap cap list lo u
        some (.inr (list, lo + 1, u + 1, hi))
      else if pivotK < e.1 then do
        let hi ← loop (shrinkTurn cap list pivotK u) (hi - u + 2).toNat hi
        if hi < u then some (.inl (list, lo, hi))
        else do
          let list ← swap cap list u hi
          some (.inr (list, lo, u, hi - 1))
      else some (.inr (list, lo, u + 1, hi))
    else some (.inl (list, lo, hi))

/-- The partition by the key in the middle: where the keys equal to it begin and end. -/
def partition3 (list : Entries K V) (lo hi : ℤ) : Option (Entries K V × ℤ × ℤ) := do
  let pivot ← get cap list ((hi + lo) / 2)
  loop (partitionTurn cap pivot.1) (hi - lo + 2).toNat (list, lo, lo, hi)

/-- The quickselect, with so many calls at most. -/
def quickselect : ℕ → Entries K V → ℤ → ℤ → ℤ → Option (Entries K V)
  | 0, _, _, _, _ => none
  | fuel + 1, list, left, right, k =>
    if k ≤ right ∧ left ≤ k ∧ 0 ≤ left then
      if left = right then some list
      else do
        let (list, lo, hi) ← partition3 cap list left right
        if lo ≤ k ∧ k ≤ hi then some list
        else if k < lo then quickselect fuel list left (lo - 1) k
        else quickselect fuel list (hi + 1) right k
    else none

def quickselectMedian (list : Entries K V) (size : ℕ) : Option (Entries K V) :=
  if 2 ≤ cap ∧ 2 ≤ size then quickselect cap size list 0 (size - 1) (size / 2) else some list

end Quickselect

/-! ## The partition -/

section Spec

variable {K V : Type} [LinearOrder K] {cap : ℕ} {list list₀ : Entries K V} {p : K}
  {left right lo hi u k : ℤ} {s : Set ℤ}

omit [LinearOrder K] in
theorem get_eq {i : ℤ} (h0 : 0 ≤ i) (h : i < cap) : get cap list i = some (list i) :=
  if_pos ⟨h0, h⟩

omit [LinearOrder K] in
/-- Swapping two indices of a set, or the same. -/
theorem swap_spec (list : Entries K V) {n m : ℤ} (hn : 0 ≤ n ∧ n < cap) (hm : 0 ≤ m ∧ m < cap)
    (h : n ≠ m → n ∈ s ∧ m ∈ s) : swap cap list n m = some (list ∘ Equiv.swap n m) ∧
      PermOn s list (list ∘ Equiv.swap n m) := by
  rw [swap]
  obtain rfl | hne := eq_or_ne n m
  · rw [if_neg (not_not.2 rfl), Equiv.swap_self]
    exact ⟨rfl, .refl s list⟩
  · rw [if_pos hne, if_pos ⟨hn, hm⟩]
    exact ⟨rfl, .swap (h hne).1 (h hne).2⟩

/-- The upper region ends up as large as it can without a swap. -/
theorem loop_shrink (h0 : 0 ≤ u) (hhi : hi < cap) (hu : u ≤ hi) (hp : p < (list u).1) :
    ∃ hi', loop (shrinkTurn cap list p u) (hi - u + 2).toNat hi = some hi' ∧ hi' ≤ hi ∧
      (∀ i, hi' < i → i ≤ hi → p < (list i).1) ∧
      (hi' = u - 1 ∨ u < hi' ∧ (list hi').1 ≤ p) := by
  refine loop_spec (P := fun hi' => u - 1 ≤ hi' ∧ hi' ≤ hi ∧
      ∀ i, hi' < i → i ≤ hi → p < (list i).1)
    (Q := fun hi' => hi' ≤ hi ∧ (∀ i, hi' < i → i ≤ hi → p < (list i).1) ∧
      (hi' = u - 1 ∨ u < hi' ∧ (list hi').1 ≤ p))
    (μ := fun hi' => (hi' - u + 1).toNat) ?_ ⟨by omega, le_rfl, fun i hi hi' => by omega⟩ (by omega)
  rintro hi' ⟨hge, hle, hgt⟩
  rw [shrinkTurn]
  split
  · next hu' =>
    rw [get_eq (by omega) (by omega), Option.bind_eq_bind, Option.bind_some]
    split
    · next hk =>
      refine .inr ⟨_, rfl, ⟨by omega, by omega, fun i hi hi' => ?_⟩, by omega⟩
      obtain rfl | hlt := eq_or_lt_of_le (Int.le_of_sub_one_lt hi)
      · exact hk
      · exact hgt i hlt hi'
    · next hk =>
      refine .inl ⟨_, rfl, hle, hgt, .inr ⟨lt_of_le_of_ne hu' fun he => ?_, not_lt.1 hk⟩⟩
      subst he
      exact hk hp
  · exact .inl ⟨_, rfl, hle, hgt, .inl (by omega)⟩

/-- The regions of the partition, of entries that are those of `list₀` but for a permutation
    of the places `s`. -/
structure Regions (list₀ : Entries K V) (s : Set ℤ) (p : K) (left right : ℤ)
    (list : Entries K V) (lo u hi : ℤ) : Prop where
  perm : PermOn s list₀ list
  left_le : left ≤ lo
  lo_le : lo ≤ u
  u_le : u ≤ hi + 1
  hi_le : hi ≤ right
  less : ∀ i, left ≤ i → i < lo → (list i).1 < p
  equal : ∀ i, lo ≤ i → i < u → (list i).1 = p
  greater : ∀ i, hi < i → i ≤ right → p < (list i).1

/-- The places that may be moved: the first one need not be if it is a minimum. -/
structure Movable (list₀ : Entries K V) (left right : ℤ) (s : Set ℤ) : Prop where
  subset : s ⊆ Set.Icc left right
  rest : ∀ i, left < i → i ≤ right → i ∈ s
  first : left ∈ s ∨ ∀ i, left ≤ i → i ≤ right → (list₀ left).1 ≤ (list₀ i).1

theorem movable_Icc : Movable list₀ left right (Set.Icc left right) :=
  ⟨subset_rfl, fun _ h h' => ⟨h.le, h'⟩, or_iff_not_imp_left.2 fun h _ hi hi' =>
    absurd ⟨le_rfl, hi.trans hi'⟩ h⟩

theorem movable_Ioc (h : ∀ i, left ≤ i → i ≤ right → (list₀ left).1 ≤ (list₀ i).1) :
    Movable list₀ left right (Set.Ioc left right) :=
  ⟨Set.Ioc_subset_Icc_self, fun _ h h' => ⟨h, h'⟩, .inr h⟩

namespace Movable

variable (hm : Movable list₀ left right s) (hp : PermOn s list₀ list)
include hm hp

/-- A place whose key is not the least may be moved. -/
theorem mem_of_lt {i j : ℤ} (hi : left ≤ i) (hi' : i ≤ right) (hj : left ≤ j) (hj' : j ≤ right)
    (hlt : (list j).1 < (list i).1) : i ∈ s := by
  obtain rfl | hne := eq_or_lt_of_le hi
  · by_contra hls
    have hmin := hm.first.resolve_left hls
    obtain ⟨j', hj0, hj1, hjj⟩ : ∃ j', left ≤ j' ∧ j' ≤ right ∧ list j = list₀ j' := by
      by_cases hjs : j ∈ s
      · obtain ⟨j', hjs', heq⟩ := hp.exists_mem hjs
        exact ⟨j', (hm.subset hjs').1, (hm.subset hjs').2, heq⟩
      · exact ⟨j, hj, hj', hp.eq_of_notMem hjs⟩
    rw [hjj, hp.eq_of_notMem hls] at hlt
    exact absurd hlt (not_lt.2 (hmin j' hj0 hj1))
  · exact hm.rest i hne hi'

end Movable

namespace Regions

variable (h : Regions list₀ s p left right list lo u hi) (hm : Movable list₀ left right s)
  (h0 : 0 ≤ left) (hcap : right < cap)
include h hm h0 hcap

/-- A key less than the pivot goes to the end of the lower region. -/
theorem less_step (hu : u ≤ hi) (hk : (list u).1 < p) : ∃ list',
    swap cap list lo u = some list' ∧
      Regions list₀ s p left right list' (lo + 1) (u + 1) hi := by
  obtain ⟨hperm, hleft, hlo, -, hhi, hless, hequal, hgreater⟩ := h
  have hmem : lo ≠ u → lo ∈ s ∧ u ∈ s := fun hne => by
    have hlt : lo < u := lt_of_le_of_ne hlo hne
    refine ⟨hm.mem_of_lt hperm hleft (by omega) (by omega) (hu.trans hhi) ?_,
      hm.rest u (by omega) (hu.trans hhi)⟩
    rwa [hequal lo le_rfl hlt]
  have hlo' : 0 ≤ lo ∧ lo < cap := by omega
  have hu' : 0 ≤ u ∧ u < cap := by omega
  obtain ⟨hswap, hperm'⟩ := swap_spec list hlo' hu' hmem
  refine ⟨_, hswap, hperm.trans hperm', by omega, by omega, by omega, hhi, fun i hi hi' => ?_,
    fun i hi hi' => ?_, fun i hi hi' => ?_⟩
  · obtain rfl | hne := eq_or_ne i lo
    · rwa [Function.comp_apply, Equiv.swap_apply_left]
    · rw [Function.comp_apply, Equiv.swap_apply_of_ne_of_ne hne (by omega)]
      exact hless i hi (by omega)
  · obtain rfl | hne := eq_or_ne i u
    · rw [Function.comp_apply, Equiv.swap_apply_right]
      exact hequal lo le_rfl (by omega)
    · rw [Function.comp_apply, Equiv.swap_apply_of_ne_of_ne (by omega) hne]
      exact hequal i (by omega) (by omega)
  · rw [Function.comp_apply, Equiv.swap_apply_of_ne_of_ne (by omega) (by omega)]
    exact hgreater i hi hi'

omit hm h0 hcap in
/-- A key equal to the pivot is left where it is. -/
theorem equal_step (hu : u ≤ hi) (hk : (list u).1 = p) :
    Regions list₀ s p left right list lo (u + 1) hi := by
  obtain ⟨hperm, hleft, hlo, -, hhi, hless, hequal, hgreater⟩ := h
  refine ⟨hperm, hleft, by omega, by omega, hhi, hless, fun i hi hi' => ?_, hgreater⟩
  obtain rfl | hne := eq_or_ne i u
  · exact hk
  · exact hequal i hi (by omega)

omit hm h0 hcap in
/-- The upper region is expanded. -/
theorem expand {hi' : ℤ} (hu : u - 1 ≤ hi') (hle : hi' ≤ hi)
    (hgt : ∀ i, hi' < i → i ≤ hi → p < (list i).1) :
    Regions list₀ s p left right list lo u hi' := by
  obtain ⟨hperm, hleft, hlo, -, hhi, hless, hequal, hgreater⟩ := h
  refine ⟨hperm, hleft, hlo, by omega, hle.trans hhi, hless, hequal, fun i hi₁ hi₂ => ?_⟩
  obtain hle | hlt := le_or_gt i hi
  · exact hgt i hi₁ hle
  · exact hgreater i hlt hi₂

/-- A key greater than the pivot goes to the start of the upper region. -/
theorem greater_step (hu : u < hi) (hk : p < (list u).1) (hk' : (list hi).1 ≤ p) : ∃ list',
    swap cap list u hi = some list' ∧ Regions list₀ s p left right list' lo u (hi - 1) := by
  obtain ⟨hperm, hleft, hlo, -, hhi, hless, hequal, hgreater⟩ := h
  have hmem : u ∈ s ∧ hi ∈ s :=
    ⟨hm.mem_of_lt hperm (by omega) (by omega) (by omega) hhi (hk'.trans_lt hk),
      hm.rest hi (by omega) hhi⟩
  have hu' : 0 ≤ u ∧ u < cap := by omega
  have hhi' : 0 ≤ hi ∧ hi < cap := by omega
  obtain ⟨hswap, hperm'⟩ := swap_spec list hu' hhi' fun _ => hmem
  refine ⟨_, hswap, hperm.trans hperm', hleft, hlo, by omega, by omega, fun i hi hi' => ?_,
    fun i hi hi' => ?_, fun i hi hi' => ?_⟩
  · rw [Function.comp_apply, Equiv.swap_apply_of_ne_of_ne (by omega) (by omega)]
    exact hless i hi hi'
  · rw [Function.comp_apply, Equiv.swap_apply_of_ne_of_ne (by omega) (by omega)]
    exact hequal i hi hi'
  · obtain heq | hlt := eq_or_lt_of_le (Int.le_of_sub_one_lt hi)
    · rwa [← heq, Function.comp_apply, Equiv.swap_apply_right]
    · rw [Function.comp_apply, Equiv.swap_apply_of_ne_of_ne (by omega) (by omega)]
      exact hgreater i hlt hi'

/-- A turn of the partition keeps the regions, and leaves less to go. -/
theorem turn :
    (∃ r, partitionTurn cap p (list, lo, u, hi) = some (.inl r) ∧
      Regions list₀ s p left right r.1 r.2.1 (r.2.2 + 1) r.2.2) ∨
    ∃ r, partitionTurn cap p (list, lo, u, hi) = some (.inr r) ∧
      Regions list₀ s p left right r.1 r.2.1 r.2.2.1 r.2.2.2 ∧
      (r.2.2.2 - r.2.2.1 + 1).toNat < (hi - u + 1).toNat := by
  have hleft := h.left_le
  have hlo := h.lo_le
  have hle := h.u_le
  have hhi := h.hi_le
  rw [partitionTurn]
  split
  · next hu =>
    rw [get_eq (by omega) (by omega), Option.bind_eq_bind, Option.bind_some]
    split
    · next hk =>
      obtain ⟨list', hswap, hr⟩ := h.less_step hm h0 hcap hu hk
      refine .inr ⟨(list', lo + 1, u + 1, hi), ?_, hr, by dsimp only; omega⟩
      rw [hswap]
      rfl
    · split
      · next hk =>
        have hc : hi < cap := by omega
        obtain ⟨hi', hloop, hle', hgt, hend⟩ := loop_shrink (h0.trans (hleft.trans hlo)) hc hu hk
        rw [hloop, Option.bind_eq_bind, Option.bind_some]
        have hr := h.expand (by omega) hle' hgt
        obtain rfl | ⟨hlt, hk'⟩ := hend
        · -- all that were to go are greater
          refine .inl ⟨(list, lo, u - 1), if_pos (by omega), ?_⟩
          dsimp only
          rwa [Int.sub_add_cancel]
        · obtain ⟨list', hswap, hr'⟩ := hr.greater_step hm h0 hcap hlt hk hk'
          refine .inr ⟨(list', lo, u, hi' - 1), ?_, hr', by dsimp only; omega⟩
          rw [if_neg (by omega), hswap]
          rfl
      · next hlt hgt =>
        have hk : (list u).1 = p := le_antisymm (not_lt.1 hgt) (not_lt.1 hlt)
        exact .inr ⟨(list, lo, u + 1, hi), rfl, h.equal_step hu hk, by dsimp only; omega⟩
  · next hu =>
    refine .inl ⟨(list, lo, hi), rfl, ?_⟩
    dsimp only
    rwa [show hi + 1 = u by omega]

end Regions

/-- The partition ends, with at least one key equal to the pivot. -/
theorem partition3_spec (hm : Movable list left right s) (h0 : 0 ≤ left) (hle : left ≤ right)
    (hcap : right < cap) : ∃ r, partition3 cap list left right = some r ∧ ∃ p,
      Regions list s p left right r.1 r.2.1 (r.2.2 + 1) r.2.2 ∧ r.2.1 ≤ r.2.2 := by
  have hmid : left ≤ (right + left) / 2 ∧ (right + left) / 2 ≤ right := by omega
  rw [partition3, get_eq (by omega) (by omega), Option.bind_eq_bind, Option.bind_some]
  generalize hp : (list ((right + left) / 2)).1 = p
  have hinit : Regions list s p left right list left left right :=
    ⟨.refl s list, le_rfl, le_rfl, by omega, le_rfl, fun i hi hi' => by omega,
      fun i hi hi' => by omega, fun i hi hi' => by omega⟩
  obtain ⟨r, hloop, hr⟩ := loop_spec (P := fun r : Partition K V =>
      Regions list s p left right r.1 r.2.1 r.2.2.1 r.2.2.2)
    (Q := fun r : Entries K V × ℤ × ℤ => Regions list s p left right r.1 r.2.1 (r.2.2 + 1) r.2.2)
    (μ := fun r : Partition K V => (r.2.2.2 - r.2.2.1 + 1).toNat)
    (n := (right - left + 2).toNat) (s := (list, left, left, right))
    (fun r hr => hr.turn hm h0 hcap) hinit (by dsimp only; omega)
  refine ⟨r, hloop, p, hr, ?_⟩
  -- the pivot is somewhere, and it is neither below nor above
  by_contra hlt
  obtain ⟨j, hj, hj', hjp⟩ : ∃ j, left ≤ j ∧ j ≤ right ∧ (r.1 j).1 = p := by
    by_cases hmem : (right + left) / 2 ∈ s
    · obtain ⟨j, hjs, heq⟩ := hr.perm.exists_mem' hmem
      exact ⟨j, (hm.subset hjs).1, (hm.subset hjs).2, by rw [heq, hp]⟩
    · exact ⟨_, hmid.1, hmid.2, by rw [hr.perm.eq_of_notMem hmem, hp]⟩
  obtain hjl | hjg := lt_or_ge j r.2.1
  · exact absurd hjp (hr.less j hj hjl).ne
  · exact absurd hjp (hr.greater j (by omega) hj').ne'

/-! ## The selection -/

/-- The entries of a range, moved such that the `k`-th of them is in its place, those below it
    are not greater and those above not less. -/
structure Selected (s : Set ℤ) (left right k : ℤ) (list list' : Entries K V) : Prop where
  perm : PermOn s list list'
  lower : ∀ i, left ≤ i → i < k → (list' i).1 ≤ (list' k).1
  upper : ∀ i, k < i → i ≤ right → (list' k).1 ≤ (list' i).1

namespace Regions

variable {list' : Entries K V} (h : Regions list₀ s p left right list lo (hi + 1) hi)
  (hm : Movable list₀ left right s) (hle : lo ≤ hi)
include h hm hle

/-- What is below the pivot may be moved as before: if the first one may not, then it is still
    a minimum. -/
theorem movable_lower (hlt : left < lo) :
    Movable list left (lo - 1) (s ∩ Set.Icc left (lo - 1)) := by
  have hhi := h.hi_le
  refine ⟨Set.inter_subset_right, fun i hi hi' => ⟨hm.rest i hi (by omega), hi.le, hi'⟩,
    or_iff_not_imp_left.2 fun hn i hi hi' => ?_⟩
  by_contra hc
  have hls : left ∈ s :=
    hm.mem_of_lt h.perm le_rfl (by omega) hi (by omega) (not_le.1 hc)
  exact hn ⟨hls, le_rfl, by omega⟩

omit hm hle in
/-- What is not below the pivot is not less. -/
theorem le_key {i : ℤ} (hi₁ : lo ≤ i) (hi₂ : i ≤ right) : p ≤ (list i).1 := by
  obtain hle | hlt := le_or_gt i hi
  · exact (h.equal i hi₁ (Int.lt_add_one_of_le hle)).ge
  · exact (h.greater i hlt hi₂).le

omit hm hle in
/-- What is not above the pivot is not greater. -/
theorem key_le {i : ℤ} (hi₁ : left ≤ i) (hi₂ : i ≤ hi) : (list i).1 ≤ p := by
  obtain hlt | hle := lt_or_ge i lo
  · exact (h.less i hi₁ hlt).le
  · exact (h.equal i hle (Int.lt_add_one_of_le hi₂)).le

omit hm hle in
/-- The `k`-th entry is the pivot's. -/
theorem selected_equal (hlo : lo ≤ k) (hhi : k ≤ hi) : Selected s left right k list₀ list := by
  have hk : (list k).1 = p := h.equal k hlo (Int.lt_add_one_of_le hhi)
  refine ⟨h.perm, fun i hi₁ hi₂ => ?_, fun i hi₁ hi₂ => ?_⟩
  · exact (h.key_le hi₁ (by omega)).trans hk.ge
  · exact hk.le.trans (h.le_key (by omega) hi₂)

omit hm hle in
/-- The `k`-th entry is selected from those below the pivot. -/
theorem selected_lower (hk : left ≤ k) (hk' : k < lo)
    (hs : Selected (s ∩ Set.Icc left (lo - 1)) left (lo - 1) k list list') :
    Selected s left right k list₀ list' := by
  refine ⟨h.perm.trans (hs.perm.mono Set.inter_subset_left), hs.lower, fun i hi₁ hi₂ => ?_⟩
  obtain hl | hl := le_or_gt i (lo - 1)
  · exact hs.upper i hi₁ hl
  · -- the entry is where it was, while that of `k` was below the pivot before, too
    have hless : ∀ j ∈ Set.Icc left (lo - 1), (list j).1 < p := fun j hj =>
      h.less j hj.1 (Int.lt_of_le_sub_one hj.2)
    have hkp : (list' k).1 < p := (hs.perm.mono Set.inter_subset_right).forall_mem
      (p := fun e => e.1 < p) hless k ⟨hk, Int.le_sub_one_of_lt hk'⟩
    rw [hs.perm.eq_of_notMem (i := i) fun hmem => absurd hmem.2.2 (not_le.2 hl)]
    exact hkp.le.trans (h.le_key (by omega) hi₂)

/-- The `k`-th entry is selected from those above the pivot. -/
theorem selected_upper (hk : hi < k) (hk' : k ≤ right)
    (hs : Selected (Set.Icc (hi + 1) right) (hi + 1) right k list list') :
    Selected s left right k list₀ list' := by
  have hleft := h.left_le
  have hsub : Set.Icc (hi + 1) right ⊆ s := fun i hmem =>
    hm.rest i (by have := hmem.1; omega) hmem.2
  refine ⟨h.perm.trans (hs.perm.mono hsub), fun i hi₁ hi₂ => ?_, hs.upper⟩
  obtain hl | hl := le_or_gt (hi + 1) i
  · exact hs.lower i hl hi₂
  · have hgreater : ∀ j ∈ Set.Icc (hi + 1) right, p < (list j).1 := fun j hj =>
      h.greater j (Int.lt_of_add_one_le hj.1) hj.2
    have hkp : p < (list' k).1 := hs.perm.forall_mem
      (p := fun e => p < e.1) hgreater k ⟨Int.add_one_le_of_lt hk, hk'⟩
    rw [hs.perm.eq_of_notMem (i := i) fun hmem => absurd hmem.1 (not_le.2 hl)]
    exact (h.key_le hi₁ (Int.lt_add_one_iff.1 hl)).trans hkp.le

end Regions

/-- The selection ends, whatever the keys are, and only moves what may be moved. -/
theorem quickselect_spec {fuel : ℕ} (hm : Movable list left right s) (h0 : 0 ≤ left)
    (hk : left ≤ k) (hk' : k ≤ right) (hcap : right < cap) (hfuel : right - left < fuel) :
    ∃ list', quickselect cap fuel list left right k = some list' ∧
      Selected s left right k list list' := by
  induction fuel generalizing list left right s with
  | zero => omega
  | succ fuel ih =>
    rw [quickselect, if_pos ⟨hk', hk, h0⟩]
    split
    · next heq =>
      exact ⟨list, rfl, .refl s list, fun i hi₁ hi₂ => by omega, fun i hi₁ hi₂ => by omega⟩
    · next hne =>
      obtain ⟨⟨list₁, lo, hi⟩, hpart, p, hr, hle⟩ :=
        partition3_spec hm h0 (hk.trans hk') hcap
      dsimp only at hr hle
      have hleft := hr.left_le
      have hright := hr.hi_le
      rw [hpart, Option.bind_eq_bind, Option.bind_some]
      dsimp only
      split
      · next hmid => exact ⟨list₁, rfl, hr.selected_equal hmid.1 hmid.2⟩
      · next hmid =>
        split
        · next hlo =>
          obtain ⟨list', hsel, hs⟩ := ih (hr.movable_lower hm hle (by omega)) h0 hk
            (Int.le_sub_one_of_lt hlo) (by omega) (by omega)
          exact ⟨list', hsel, hr.selected_lower hk hlo hs⟩
        · next hlo =>
          have hhi : hi < k := by omega
          obtain ⟨list', hsel, hs⟩ := ih movable_Icc (by omega) (Int.add_one_le_of_lt hhi) hk' hcap
            (by omega)
          exact ⟨list', hsel, hr.selected_upper hm hle hhi hk' hs⟩

end Spec

end MultivectorAsr

end DiscoSkip
