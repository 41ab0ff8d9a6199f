import Mathlib.Data.Finset.Card
import Mathlib.Data.Finset.Range

/-!
# Loops

A loop `for (i = 0; i < n; ++i)` over a state is `Nat.fold`. Its rule: a
property of the index and the state which holds at the start and is kept by
every turn holds, at the end, of `n`.

A loop `while (true)` runs its body on a state until this breaks, with a result
(`loop`). It is given the number of turns it may take at most. Its rule
(`loop_spec`): if every turn keeps a property of the state and lowers a
measure, or breaks with a result as it should be, then the loop breaks with one,
if it may take more turns than the measure is at the start.
-/

namespace DiscoSkip.Lib

/-- The invariant rule of a counted loop. -/
theorem fold_inv {α : Type*} {P : ℕ → α → Prop} {n : ℕ} {f : (i : ℕ) → i < n → α → α} {a : α}
    (h0 : P 0 a) (hs : ∀ i (h : i < n) b, P i b → P (i + 1) (f i h b)) : P n (n.fold f a) := by
  induction n with
  | zero => exact h0
  | succ n ih =>
    rw [Nat.fold_succ]
    exact hs n n.lt_succ_self _ (ih fun i h b hb => hs i (Nat.lt_succ_of_lt h) b hb)

section While

variable {σ α : Type*} {body : σ → Option (α ⊕ σ)} {s : σ} {n : ℕ}

/-- The loop with the body, which may break with a result, go on or throw; `n` turns at
    most. -/
def loop (body : σ → Option (α ⊕ σ)) : ℕ → σ → Option α
  | 0, _ => none
  | n + 1, s => (body s).bind (Sum.elim some (loop body n))

/-- The rule of a loop with the invariant `P`, the measure `μ` and the results `Q`. -/
theorem loop_spec {P : σ → Prop} {Q : α → Prop} {μ : σ → ℕ}
    (hbody : ∀ s, P s → (∃ a, body s = some (.inl a) ∧ Q a) ∨
      ∃ s', body s = some (.inr s') ∧ P s' ∧ μ s' < μ s)
    (hs : P s) (hn : μ s < n) : ∃ a, loop body n s = some a ∧ Q a := by
  induction n generalizing s with
  | zero => exact absurd hn (Nat.not_lt_zero _)
  | succ n ih =>
    rw [loop]
    obtain ⟨a, ha, hq⟩ | ⟨s', hs', hp, hlt⟩ := hbody s hs
    · exact ⟨a, by rw [ha]; rfl, hq⟩
    · obtain ⟨a, ha, hq⟩ := ih hp (by omega)
      exact ⟨a, by rw [hs']; exact ha, hq⟩

end While

end DiscoSkip.Lib
