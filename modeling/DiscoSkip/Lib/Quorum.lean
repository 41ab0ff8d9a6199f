import Mathlib.Data.Nat.ModEq
import Mathlib.Data.Finset.Card
import Mathlib.Data.Finset.Image
import Mathlib.Data.Finset.Range

/-!
# Rotating quorums

Of `n` places on a circle, the window of `c` is the `q` consecutive places
`(c + i) % n`, `i < q`. The slots `i` of a window are distinct places when it
fits (`window_inj`), and two windows of a majority share a place
(`window_inter`).
-/

namespace DiscoSkip.Lib

variable {n q : ℕ}

/-- Different slots of a window are different places. -/
theorem window_inj (hq : q ≤ n) (c : ℕ) {i j : ℕ} (hi : i < q) (hj : j < q)
    (h : (c + i) % n = (c + j) % n) : i = j :=
  Nat.ModEq.eq_of_lt_of_lt (Nat.ModEq.add_left_cancel' c h) (hi.trans_le hq) (hj.trans_le hq)

/-- The places of a window. -/
def window (n q c : ℕ) : Finset ℕ := (Finset.range q).image fun i => (c + i) % n

theorem card_window (hq : q ≤ n) (c : ℕ) : (window n q c).card = q := by
  rw [window, Finset.card_image_of_injOn, Finset.card_range]
  intro i hi j hj h
  exact window_inj hq c (Finset.mem_range.1 hi) (Finset.mem_range.1 hj) h

theorem window_subset (hn : 0 < n) (c : ℕ) : window n q c ⊆ Finset.range n := by
  intro r hr
  obtain ⟨i, _, rfl⟩ := Finset.mem_image.1 hr
  exact Finset.mem_range.2 (Nat.mod_lt _ hn)

/-- Two windows of a majority share a place. -/
theorem window_inter (hq : q ≤ n) (hn : n < 2 * q) (c d : ℕ) :
    ∃ i < q, ∃ j < q, (c + i) % n = (d + j) % n := by
  have hne : (window n q c ∩ window n q d).Nonempty := by
    rw [← Finset.card_pos]
    have hsum := Finset.card_union_add_card_inter (window n q c) (window n q d)
    have hle : (window n q c ∪ window n q d).card ≤ n := by
      have hn0 : 0 < n := by omega
      have h := Finset.card_le_card
        (Finset.union_subset (window_subset (q := q) hn0 c) (window_subset (q := q) hn0 d))
      rwa [Finset.card_range] at h
    rw [card_window hq, card_window hq] at hsum
    omega
  obtain ⟨r, hr⟩ := hne
  obtain ⟨hc, hd⟩ := Finset.mem_inter.1 hr
  obtain ⟨i, hi, hri⟩ := Finset.mem_image.1 hc
  obtain ⟨j, hj, hrj⟩ := Finset.mem_image.1 hd
  exact ⟨i, Finset.mem_range.1 hi, j, Finset.mem_range.1 hj, hri.trans hrj.symm⟩

end DiscoSkip.Lib
