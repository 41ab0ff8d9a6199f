import Mathlib.Data.Nat.Bitwise
import Mathlib.Data.UInt
import Mathlib.Data.Set.Pairwise.Basic
import Mathlib.Order.CompletePartialOrder
import Mathlib.Order.Interval.Set.Disjoint

/-!
# Packings

A *packing* places blocks in an area of some size, each of so many bytes at an
offset, such that they neither overlap nor get out of the area. Packings are built
from smaller ones:

* blocks at a stride that is no less than their length (`Packing.stride`);
* a packing after another one (`Packing.append`);
* a packing in every block of another one (`Packing.nest`);
* what is left of a packing when blocks are left out, cut short, or called other
  names (`Packing.of_map`).

An *area* is a set of addresses, which are words of 64 bits, and so wrap around. Where
a packing fits in the words, the areas of its blocks from any address on are disjoint
(`Packing.disjoint_area`) and within the whole (`Packing.area_subset`).

Sizes are often rounded up (`roundUp64`), so that all blocks start at multiples of 64.
-/

namespace DiscoSkip.Lib

variable {ι κ : Type*}

/-- The blocks of `s`, of `len i` bytes at the offset `off i`, do not overlap, and are
    within `size` bytes. -/
structure Packing (s : Set ι) (off len : ι → ℕ) (size : ℕ) : Prop where
  within : ∀ i ∈ s, off i + len i ≤ size
  apart : s.Pairwise fun i j => off i + len i ≤ off j ∨ off j + len j ≤ off i

namespace Packing

variable {s : Set ι} {t : Set κ} {off len : ι → ℕ} {off' len' : κ → ℕ} {size size' : ℕ}

/-- Blocks of `n` bytes at the stride `d`. -/
theorem stride {n d : ℕ} (h : n ≤ d) (m : ℕ) :
    Packing (Set.Iio m) (fun i => d * i) (fun _ => n) (d * m) := by
  have hlt : ∀ {i j : ℕ}, i < j → d * i + n ≤ d * j := fun {i j} hij =>
    calc d * i + n ≤ d * i + d := Nat.add_le_add_left h _
      _ = d * (i + 1) := (Nat.mul_succ d i).symm
      _ ≤ d * j := Nat.mul_le_mul_left d hij
  exact ⟨fun i hi => hlt hi, fun i _ j _ hij => hij.lt_or_gt.imp hlt hlt⟩

/-- A packing after another one. -/
theorem append (h : Packing s off len size) (h' : Packing t off' len' size') :
    Packing {x | x.elim (· ∈ s) (· ∈ t)} (Sum.elim off fun k => size + off' k) (Sum.elim len len')
      (size + size') where
  within x hx := by
    cases x with
    | inl i => exact (h.within i hx).trans (Nat.le_add_right _ _)
    | inr k =>
      have := h'.within k hx
      simp only [Sum.elim_inr]
      omega
  apart x hx y hy hxy := by
    -- a block of the first packing is before every block of the second one
    have hcross : ∀ i ∈ s, ∀ k, off i + len i ≤ size + off' k := fun i hi k =>
      (h.within i hi).trans (Nat.le_add_right _ _)
    cases x with
    | inl i =>
      cases y with
      | inl j => exact h.apart hx hy fun e => hxy (congrArg _ e)
      | inr k => exact .inl (hcross i hx k)
    | inr k =>
      cases y with
      | inl j => exact .inr (hcross j hy k)
      | inr l =>
        have := h'.apart hx hy fun e => hxy (congrArg _ e)
        simp only [Sum.elim_inr]
        omega

/-- A packing in every block of another one. -/
theorem nest (h : Packing s off (fun _ => size') size) (h' : Packing t off' len' size') :
    Packing (s ×ˢ t) (fun x => off x.1 + off' x.2) (fun x => len' x.2) size where
  within x hx := by
    have := h.within x.1 hx.1
    have := h'.within x.2 hx.2
    omega
  apart x hx y hy hxy := by
    have hx' := h'.within x.2 hx.2
    have hy' := h'.within y.2 hy.2
    by_cases e : x.1 = y.1
    · have := h'.apart hx.2 hy.2 fun e' => hxy (Prod.ext e e')
      beta_reduce
      rw [e]
      omega
    · have := h.apart hx.1 hy.1 e
      omega

/-- The blocks of `t` are blocks of `s`, or parts of them from their start. -/
theorem of_map (h : Packing s off len size) {f : κ → ι} (hinj : Set.InjOn f t)
    (hmaps : Set.MapsTo f t s) (hoff : ∀ k ∈ t, off' k = off (f k))
    (hlen : ∀ k ∈ t, len' k ≤ len (f k)) (hsize : size ≤ size') :
    Packing t off' len' size' where
  within k hk := by
    have := h.within _ (hmaps hk)
    have := hlen k hk
    rw [hoff k hk]
    omega
  apart k hk l hl hkl := by
    have := h.apart (hmaps hk) (hmaps hl) fun e => hkl (hinj hk hl e)
    have := hlen k hk
    have := hlen l hl
    beta_reduce
    rw [hoff k hk, hoff l hl]
    omega

end Packing

/-! ## Areas -/

/-- The addresses of `n` bytes, from `a` on. -/
def area (a : UInt64) (n : ℕ) : Set UInt64 := {x | (x - a).toNat < n}

/-- An area by the offsets of its addresses from a base. -/
theorem mem_area (base : UInt64) {a x : UInt64} {n : ℕ} (h : (a - base).toNat + n ≤ 2 ^ 64) :
    x ∈ area a n ↔ (x - base).toNat ∈ Set.Ico (a - base).toNat ((a - base).toNat + n) := by
  have hsub : x - a = x - base - (a - base) := (sub_sub_sub_cancel_right x a base).symm
  have hx := (x - base).toNat_lt
  change (x - a).toNat < n ↔ _
  rw [Set.mem_Ico, hsub, UInt64.toNat_sub]
  omega

theorem area_subset_area (a : UInt64) {m n : ℕ} (h : m ≤ n) : area a m ⊆ area a n :=
  fun _ hx => lt_of_lt_of_le hx h

/-- A part of an area. -/
theorem area_add_subset (a o : UInt64) {m n : ℕ} (h : o.toNat + m ≤ n) :
    area (a + o) m ⊆ area a n := by
  intro x (hx : (x - (a + o)).toNat < m)
  have hsum : x - a = x - (a + o) + o := by rw [sub_add_eq_sub_sub, sub_add_cancel]
  change (x - a).toNat < n
  rw [hsum, UInt64.toNat_add]
  have := Nat.mod_le ((x - (a + o)).toNat + o.toNat) (2 ^ 64)
  omega

namespace Packing

variable {s : Set ι} {off len : ι → ℕ} {size : ℕ} {base : UInt64} {addr : ι → UInt64}

/-- The areas of the blocks are disjoint. -/
theorem disjoint_area (h : Packing s off len size) (hsize : size ≤ 2 ^ 64)
    (haddr : ∀ i ∈ s, (addr i - base).toNat = off i) :
    s.PairwiseDisjoint fun i => area (addr i) (len i) := by
  intro i hi j hj hij
  refine Set.disjoint_left.2 fun x hx hx' => ?_
  have hwi := h.within i hi
  have hwj := h.within j hj
  rw [mem_area base (by rw [haddr i hi]; omega), haddr i hi, Set.mem_Ico] at hx
  rw [mem_area base (by rw [haddr j hj]; omega), haddr j hj, Set.mem_Ico] at hx'
  have := h.apart hi hj hij
  omega

/-- The area of a block is in the whole. -/
theorem area_subset (h : Packing s off len size) (hsize : size ≤ 2 ^ 64)
    (haddr : ∀ i ∈ s, (addr i - base).toNat = off i) {i : ι} (hi : i ∈ s) :
    area (addr i) (len i) ⊆ area base size := by
  intro x hx
  have hw := h.within i hi
  rw [mem_area base (by rw [haddr i hi]; omega), haddr i hi, Set.mem_Ico] at hx
  exact lt_of_lt_of_le hx.2 hw

end Packing

/-- The offset of a block can be counted in a word if the whole can. -/
theorem Packing.offset_mod {s : Set ι} {off len : ι → ℕ} {size : ℕ} (h : Packing s off len size)
    (hsize : size < 2 ^ 64) {i : ι} (hi : i ∈ s) : off i % 2 ^ 64 = off i :=
  Nat.mod_eq_of_lt (lt_of_le_of_lt (Nat.le_of_add_right_le (h.within i hi)) hsize)

/-- Blocks of `len i` bytes at the addresses which `addr` accepts to give do not overlap,
    are in `size` bytes from `base` on, and start at multiples of `d` from it. -/
structure Kept {ε : Type*} (addr : ι → Except ε UInt64) (len : ι → ℕ) (base : UInt64)
    (d size : ℕ) : Prop where
  apart : ∀ {i j a b}, i ≠ j → addr i = .ok a → addr j = .ok b →
    Disjoint (area a (len i)) (area b (len j))
  within : ∀ {i a}, addr i = .ok a → area a (len i) ⊆ area base size
  aligned : ∀ {i a}, addr i = .ok a → d ∣ (a - base).toNat

/-- The blocks of a packing are kept at addresses that are at their offsets. -/
theorem Packing.kept {ε : Type*} {s : Set ι} {off len : ι → ℕ} {size d : ℕ} {base : UInt64}
    {addr : ι → Except ε UInt64} (h : Packing s off len size) (hsize : size ≤ 2 ^ 64)
    (haddr : ∀ i a, addr i = .ok a → i ∈ s ∧ (a - base).toNat = off i)
    (hd : ∀ i ∈ s, d ∣ off i) : Kept addr len base d size := by
  -- the address of a block, if it has one
  let addrOf : ι → UInt64 := fun i => match addr i with
    | .ok a => a
    | .error _ => base
  have hof : ∀ {i a}, addr i = .ok a → addrOf i = a := fun {i a} hi => by simp only [addrOf, hi]
  have hp : Packing {i | ∃ a, addr i = .ok a} off len size :=
    h.of_map (Set.injOn_id _) (fun i ⟨a, hi⟩ => (haddr i a hi).1) (fun _ _ => rfl)
      (fun _ _ => le_rfl) le_rfl
  have hoff : ∀ i ∈ {i | ∃ a, addr i = .ok a}, (addrOf i - base).toNat = off i := by
    rintro i ⟨a, hi⟩
    rw [hof hi]
    exact (haddr i a hi).2
  refine ⟨fun {i j a b} hij hi hj => ?_, fun {i a} hi => ?_, fun {i a} hi => ?_⟩
  · rw [← hof hi, ← hof hj]
    exact hp.disjoint_area hsize hoff ⟨a, hi⟩ ⟨b, hj⟩ hij
  · rw [← hof hi]
    exact hp.area_subset hsize hoff ⟨a, hi⟩
  · rw [(haddr i a hi).2]
    exact hd i (haddr i a hi).1

/-! ## Sizes rounded up -/

/-- The least multiple of 64 from `n` on. -/
def roundUp64 (n : ℕ) : ℕ := (n + 63) / 64 * 64

theorem le_roundUp64 (n : ℕ) : n ≤ roundUp64 n := by
  rw [roundUp64]
  omega

theorem dvd_roundUp64 (n : ℕ) : 64 ∣ roundUp64 n := ⟨(n + 63) / 64, Nat.mul_comm _ _⟩

/-- The mask of all bits but the lowest six. -/
theorem and_not_63 {x : ℕ} (h : x < 2 ^ 64) : x &&& (2 ^ 64 - 2 ^ 6) = x / 64 * 64 := by
  have hdiv : x / 64 * 64 = x / 2 ^ 6 * 2 ^ 6 := rfl
  have hmask : (2 : ℕ) ^ 64 - 2 ^ 6 = 2 ^ 64 - (63 + 1) := rfl
  have h63 : (63 : ℕ) = 2 ^ 6 - 1 := rfl
  refine Nat.eq_of_testBit_eq fun i => ?_
  rw [hdiv, Nat.testBit_and, hmask, Nat.testBit_two_pow_sub_succ (by decide),
    Nat.testBit_mul_two_pow, Nat.testBit_div_two_pow, h63, Nat.testBit_two_pow_sub_one]
  by_cases h6 : 6 ≤ i
  · by_cases hi : i < 64
    · simp [hi, h6]
    · have hx : x.testBit i = false :=
        Nat.testBit_eq_false_of_lt (h.trans_le (Nat.pow_le_pow_right (by decide) (by omega)))
      simp [hx, h6]
  · simp only [h6, decide_false, Bool.false_and, decide_eq_true (Nat.lt_of_not_ge h6)]
    simp

end DiscoSkip.Lib
