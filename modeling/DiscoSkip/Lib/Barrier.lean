import Mathlib.Logic.Function.Basic
import Mathlib.Order.Lattice
import Mathlib.Order.Monotone.Basic

/-!
# Barriers by flags

Processes go through stages, in the order `T` of these. At a *barrier* each of them raises
a flag at one stage, waits for the flags of some of the others at a later one, and lowers
its own flag later still (`Barrier`). It does so again and again, once in every round.

As the flags are used again, a process that waits may see a flag that is left from an
earlier round, and one that comes late may find a flag lowered already. Neither happens if
there is a barrier between the lowering of a flag and the next time it is awaited, and one
between the awaiting of a flag and its lowering (`Barriers`). Then, in whatever order the
processes move (`Barriers.Move`),

* `Barriers.Kept.raised`: a flag that is seen up where it is awaited is of the same round;
* `Barriers.Kept.move`: no process gets past a barrier before those that it waits for have
  come to it in the same round;
* `Barriers.Kept.le_lower`: none of these leaves it before the process has got past it;
* `Barriers.Kept.up_of_le`: a process that is not ahead of the others never waits.
-/

namespace DiscoSkip.Lib

variable {T : Type*} [LinearOrder T]

/-- The stages of a barrier in every round. -/
structure Barrier (T : Type*) where
  /-- Where a process raises its flag, -/
  raise : ℕ → T
  /-- where it waits for the flags of the others, -/
  await : ℕ → T
  /-- and where it lowers its flag, maybe after it has come to the next round. -/
  lower : ℕ → T

/-- Whether the flag of a process at the stage `t`, which it has not gone through, is up. -/
def Barrier.Up (b : Barrier T) (t : T) : Prop := ∃ r, b.raise r < t ∧ t ≤ b.lower r

/-- A flag that has been lowered after the last round has been raised in this one. -/
theorem Barrier.Up.raised {b : Barrier T} (hraise : Monotone b.raise) (hlower : Monotone b.lower)
    {t : T} {r : ℕ} (h : b.Up t) (hlow : ∀ s, s + 1 = r → b.lower s < t) : b.raise r < t := by
  obtain ⟨r', hlt, hle⟩ := h
  refine (hraise (not_lt.1 fun hr => ?_)).trans_lt hlt
  cases r with
  | zero => exact absurd hr (Nat.not_lt_zero _)
  | succ s => exact (hle.trans (hlower (Nat.le_of_lt_succ hr))).not_gt (hlow s rfl)

/-- The barriers of processes `P`. -/
structure Barriers (ι P T : Type*) [LinearOrder T] where
  barrier : ι → Barrier T
  /-- Whom a process waits for at a barrier. -/
  WaitsFor : ι → P → P → Prop
  raise_mono : ∀ i, Monotone (barrier i).raise
  lower_mono : ∀ i, Monotone (barrier i).lower
  raise_lt : ∀ i r, (barrier i).raise r < (barrier i).await r
  /-- Before a flag is awaited again, those who wait for it have waited at another barrier
      for its owner, which it has come to after it has lowered the flag. -/
  before : ∀ i r, ∃ g s, (∀ p q, WaitsFor i p q → WaitsFor g p q) ∧
    (barrier i).lower r ≤ (barrier g).raise s ∧ (barrier g).await s < (barrier i).await (r + 1)
  /-- Before a flag is lowered, its owner has waited at another barrier for those who
      wait for it, which they come to after they have found it. -/
  after : ∀ i r, ∃ h s, (∀ p q, WaitsFor i p q → WaitsFor h q p) ∧
    (barrier i).await r ≤ (barrier h).raise s ∧ (barrier h).await s ≤ (barrier i).lower r

namespace Barriers

variable {ι P : Type*} (B : Barriers ι P T)

/-- Whoever has got past a barrier, all whom it waits for have come to it. -/
def Kept (t : P → T) : Prop :=
  ∀ i p q, B.WaitsFor i p q → ∀ r, (B.barrier i).await r < t p → (B.barrier i).raise r < t q

/-- The process `p` goes on to the stage `u`. If it gets past a barrier, those whose flags
    it has waited for have come to it. -/
structure Move (t : P → T) (p : P) (u : T) : Prop where
  le : t p ≤ u
  raised : ∀ i q r, B.WaitsFor i p q → t p ≤ (B.barrier i).await r → (B.barrier i).await r < u →
    (B.barrier i).raise r < t q

variable {B} {t : P → T} {p q : P} {u : T} {i : ι} {r : ℕ}

/-- A flag that a process waits for and that is up has been raised in the same round. -/
theorem Kept.raised (h : B.Kept t) (hpq : B.WaitsFor i p q) (hp : t p = (B.barrier i).await r)
    (hup : (B.barrier i).Up (t q)) : (B.barrier i).raise r < t q := by
  refine hup.raised (B.raise_mono i) (B.lower_mono i) ?_
  rintro s rfl
  obtain ⟨g, s', hg, hlower, hawait⟩ := B.before i s
  exact hlower.trans_lt (h g p q (hg p q hpq) s' (hawait.trans_eq hp.symm))

theorem Kept.move [DecidableEq P] (h : B.Kept t) (hm : B.Move t p u) :
    B.Kept (Function.update t p u) := by
  intro i a b hab r hlt
  -- nobody comes to an earlier stage, so all depends on the barriers that `p` gets past
  have hle : t b ≤ Function.update t p u b := by
    rcases eq_or_ne b p with rfl | hb
    · rw [Function.update_self]
      exact hm.le
    · rw [Function.update_of_ne hb]
  refine lt_of_lt_of_le ?_ hle
  rcases eq_or_ne a p with rfl | ha
  · rw [Function.update_self] at hlt
    rcases lt_or_ge ((B.barrier i).await r) (t a) with hpast | hpast
    · exact h i a b hab r hpast
    · exact hm.raised i b r hab hpast hlt
  · rw [Function.update_of_ne ha] at hlt
    exact h i a b hab r hlt

/-- As long as a process has not got past a barrier, the flags that it waits for there are
    not lowered. -/
theorem Kept.le_lower (h : B.Kept t) (hpq : B.WaitsFor i p q)
    (hp : t p ≤ (B.barrier i).await r) : t q ≤ (B.barrier i).lower r := by
  obtain ⟨g, s, hg, hraise, hawait⟩ := B.after i r
  by_contra hlt
  have hlast := h g q p (hg p q hpq) s (hawait.trans_lt (not_le.1 hlt))
  exact hlast.not_ge (hp.trans hraise)

/-- A process that waits for others which are at least as far does not wait. -/
theorem Kept.up_of_le (h : B.Kept t) (hpq : B.WaitsFor i p q) (hp : t p = (B.barrier i).await r)
    (hle : t p ≤ t q) : (B.barrier i).Up (t q) :=
  ⟨r, (B.raise_lt i r).trans_le (hp.ge.trans hle), h.le_lower hpq hp.le⟩

/-- Those a process has waited for have got past no later barrier that they wait for it at. -/
theorem Kept.le_await (h : B.Kept t) (hqp : B.WaitsFor i q p) (hp : t p ≤ (B.barrier i).raise r) :
    t q ≤ (B.barrier i).await r :=
  not_lt.1 fun hlt => (h i q p hqp r hlt).not_ge hp

end Barriers

end DiscoSkip.Lib
