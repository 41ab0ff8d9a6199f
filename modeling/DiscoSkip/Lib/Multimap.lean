import Mathlib.Data.List.Basic
import Mathlib.Order.Lattice

/-!
# Ordered multimaps

A list of key/value pairs whose keys do not decrease may hold several values of a key, in
the order they were put in: a pair is put after those of keys up to its own (`putLast`), and
that order is kept (`KeyOrdered.putLast`). Where a key divides such a list, its pairs below
and its pairs above are those before and after (`filter_take_drop`).
-/

namespace DiscoSkip.Lib

variable {K V : Type*}

section Filter

variable {α : Type*} {p : α → Bool} {l : List α} {i : ℕ}

/-- A list that is divided at `i` by a property. -/
theorem filter_take_drop (ht : ∀ x ∈ l.take i, p x = true) (hd : ∀ x ∈ l.drop i, p x = false) :
    l.filter p = l.take i ∧ l.filter (fun x => !p x) = l.drop i := by
  have hd' : ∀ x ∈ l.drop i, (!p x) = true := fun x hx => by rw [hd x hx]; rfl
  have ht' : ∀ x ∈ l.take i, ¬(!p x) = true := fun x hx => by rw [ht x hx]; decide
  constructor
  · conv_lhs => rw [← List.take_append_drop i l]
    rw [List.filter_append, List.filter_eq_self.2 ht,
      List.filter_eq_nil_iff.2 fun x hx => by rw [hd x hx]; decide, List.append_nil]
  · conv_lhs => rw [← List.take_append_drop i l]
    rw [List.filter_append, List.filter_eq_self.2 hd', List.filter_eq_nil_iff.2 ht',
      List.nil_append]

end Filter

variable [LinearOrder K]

/-- The keys do not decrease. -/
def KeyOrdered (l : List (K × V)) : Prop := l.Pairwise fun a b => a.1 ≤ b.1

instance (l : List (K × V)) : Decidable (KeyOrdered l) :=
  inferInstanceAs (Decidable (l.Pairwise _))

/-- The pairs of keys up to `k`. -/
def upTo (k : K) (l : List (K × V)) : List (K × V) := l.filter fun a => decide (a.1 ≤ k)

/-- The pairs of keys above `k`. -/
def above (k : K) (l : List (K × V)) : List (K × V) := l.filter fun a => !decide (a.1 ≤ k)

/-- Putting a pair after those of its key. -/
def putLast (e : K × V) (l : List (K × V)) : List (K × V) := upTo e.1 l ++ e :: above e.1 l

variable {k : K} {e : K × V} {l : List (K × V)} {i : ℕ}

theorem mem_upTo : e ∈ upTo k l ↔ e ∈ l ∧ e.1 ≤ k := by simp [upTo]

theorem mem_above : e ∈ above k l ↔ e ∈ l ∧ k < e.1 := by simp [above]

theorem upTo_above_of_cut (ht : ∀ x ∈ l.take i, x.1 ≤ k) (hd : ∀ x ∈ l.drop i, k < x.1) :
    upTo k l = l.take i ∧ above k l = l.drop i :=
  filter_take_drop (fun x hx => decide_eq_true (ht x hx))
    fun x hx => decide_eq_false (not_le.2 (hd x hx))

theorem length_putLast : (putLast e l).length = l.length + 1 := by
  rw [putLast, List.length_append, List.length_cons, upTo, above,
    List.length_eq_length_filter_add (l := l) fun a => decide (a.1 ≤ e.1)]
  rfl

namespace KeyOrdered

theorem upTo (h : KeyOrdered l) : KeyOrdered (upTo k l) := h.filter _

theorem above (h : KeyOrdered l) : KeyOrdered (above k l) := h.filter _

/-- The key of a pair is not above those that come after it. -/
theorem le (h : KeyOrdered l) {j : ℕ} (hij : i ≤ j) (hj : j < l.length) :
    l[i].1 ≤ l[j].1 := by
  obtain rfl | hij := hij.eq_or_lt
  · exact le_rfl
  · exact List.pairwise_iff_getElem.1 h i j (by omega) hj hij

theorem cons_above (h : KeyOrdered l) : KeyOrdered (e :: Lib.above e.1 l) :=
  List.pairwise_cons.2 ⟨fun _ hx => (mem_above.1 hx).2.le, h.above⟩

theorem putLast (h : KeyOrdered l) (e : K × V) : KeyOrdered (putLast e l) :=
  List.pairwise_append.2 ⟨h.upTo, h.cons_above, fun x hx y hy => by
    obtain ⟨-, hxe⟩ := mem_upTo.1 hx
    rcases List.mem_cons.1 hy with rfl | hy
    · exact hxe
    · exact hxe.trans (mem_above.1 hy).2.le⟩

end KeyOrdered

end DiscoSkip.Lib
