import Mathlib.Order.Lattice
import Mathlib.Data.List.Basic

/-!
# Lists of pairs, sorted by their keys

A list of key/value pairs is *sorted* if its keys strictly increase, so that it
is a map. A key `k` cuts such a list in two, into the keys below `k` and the
others (`KeySorted.exists_cut`), and this is where a pair of the key `k` belongs.
-/

namespace DiscoSkip.Lib

variable {K V : Type*} [LinearOrder K]

/-- The keys strictly increase. -/
def KeySorted (l : List (K × V)) : Prop := l.Pairwise fun a b => a.1 < b.1

instance (l : List (K × V)) : Decidable (KeySorted l) :=
  inferInstanceAs (Decidable (l.Pairwise _))

/-- The lists `lo` and `hi` are cut at the key `k`: it is above the keys of `lo`,
    and not above those of `hi`. -/
structure Cut (k : K) (lo hi : List (K × V)) : Prop where
  lo : ∀ e ∈ lo, e.1 < k
  hi : ∀ e ∈ hi, k ≤ e.1

namespace KeySorted

variable {l l₁ l₂ lo hi : List (K × V)} {k : K} {a b : V}

theorem nil : KeySorted ([] : List (K × V)) := List.Pairwise.nil

theorem left (h : KeySorted (l₁ ++ l₂)) : KeySorted l₁ := (List.pairwise_append.1 h).1

theorem right (h : KeySorted (l₁ ++ l₂)) : KeySorted l₂ := (List.pairwise_append.1 h).2.1

theorem lt_of_append (h : KeySorted (l₁ ++ l₂)) {e e' : K × V} (he : e ∈ l₁) (he' : e' ∈ l₂) :
    e.1 < e'.1 := (List.pairwise_append.1 h).2.2 e he e' he'

/-- The first key is the least. -/
theorem head_le {e : K × V} {t : List (K × V)} (h : KeySorted (e :: t)) {e' : K × V}
    (he' : e' ∈ e :: t) : e.1 ≤ e'.1 := by
  rcases List.mem_cons.1 he' with rfl | ht
  · exact le_rfl
  · exact ((List.pairwise_cons.1 h).1 e' ht).le

/-- Every key has one value. -/
theorem eq_of_mem (h : KeySorted l) (ha : (k, a) ∈ l) (hb : (k, b) ∈ l) : a = b := by
  induction l with
  | nil => exact absurd ha List.not_mem_nil
  | cons e t ih =>
    obtain ⟨he, ht⟩ := List.pairwise_cons.1 h
    rcases List.mem_cons.1 ha with rfl | ha' <;> rcases List.mem_cons.1 hb with hb' | hb'
    · exact (Prod.mk.inj hb').2.symm
    · exact absurd (he _ hb') (lt_irrefl k)
    · subst hb'
      exact absurd (he _ ha') (lt_irrefl k)
    · exact ih ht ha' hb'

/-- Every key cuts a sorted list. -/
theorem exists_cut (h : KeySorted l) (k : K) : ∃ lo hi, l = lo ++ hi ∧ Cut k lo hi := by
  induction l with
  | nil => exact ⟨[], [], rfl, by simp, by simp⟩
  | cons e t ih =>
    obtain ⟨he, ht⟩ := List.pairwise_cons.1 h
    by_cases hk : e.1 < k
    · obtain ⟨lo, hi, rfl, hc⟩ := ih ht
      refine ⟨e :: lo, hi, rfl, fun x hx => ?_, hc.hi⟩
      rcases List.mem_cons.1 hx with rfl | hx
      · exact hk
      · exact hc.lo x hx
    · refine ⟨[], e :: t, rfl, by simp, fun x hx => ?_⟩
      exact (not_lt.1 hk).trans (h.head_le hx)

/-- A pair belongs where its key cuts the list, if the key is not there yet. -/
theorem insert (h : KeySorted (lo ++ hi)) (hc : Cut k lo hi) (hk : ∀ e ∈ hi, e.1 ≠ k) (a : V) :
    KeySorted (lo ++ (k, a) :: hi) := by
  refine List.pairwise_append.2 ⟨h.left, List.pairwise_cons.2 ⟨fun e he => ?_, h.right⟩, ?_⟩
  · exact lt_of_le_of_ne (hc.hi e he) (hk e he).symm
  · intro e he e' he'
    rcases List.mem_cons.1 he' with rfl | he'
    · exact hc.lo e he
    · exact h.lt_of_append he he'

/-- Pairs of distinct keys are sorted in one way. -/
theorem eq_of_perm (h₁ : KeySorted l₁) (h₂ : KeySorted l₂) (hp : l₁.Perm l₂) : l₁ = l₂ :=
  hp.eq_of_pairwise (fun _ _ _ _ hab hba => absurd hab (lt_asymm hba)) h₁ h₂

theorem pairwise_mergeSort (l : List (K × V)) :
    (l.mergeSort fun a b => decide (a.1 ≤ b.1)).Pairwise fun a b => a.1 ≤ b.1 := by
  refine (List.pairwise_mergeSort (fun a b c hab hbc => ?_) (fun a b => ?_) l).imp of_decide_eq_true
  · exact decide_eq_true ((of_decide_eq_true hab).trans (of_decide_eq_true hbc))
  · simpa using le_total a.1 b.1

theorem le_of_mergeSort {e e' : K × V} {i j : ℕ}
    (he : (l.mergeSort fun a b => decide (a.1 ≤ b.1))[i]? = some e)
    (he' : (l.mergeSort fun a b => decide (a.1 ≤ b.1))[j]? = some e') (hij : i < j) :
    e.1 ≤ e'.1 := by
  obtain ⟨hi, rfl⟩ := List.getElem?_eq_some_iff.1 he
  obtain ⟨hj, rfl⟩ := List.getElem?_eq_some_iff.1 he'
  exact List.pairwise_iff_getElem.1 (pairwise_mergeSort l) i j hi hj hij

/-- Pairs of distinct keys can be sorted. -/
theorem mergeSort (h : (l.map Prod.fst).Nodup) :
    KeySorted (l.mergeSort fun a b => decide (a.1 ≤ b.1)) := by
  have hp := List.mergeSort_perm l fun a b => decide (a.1 ≤ b.1)
  have hne := List.pairwise_map.1 ((hp.map Prod.fst).nodup_iff.2 h)
  exact ((pairwise_mergeSort l).and hne).imp fun hab => lt_of_le_of_ne hab.1 hab.2

theorem exists_perm (h : (l.map Prod.fst).Nodup) : ∃ l', KeySorted l' ∧ l'.Perm l :=
  ⟨_, mergeSort h, List.mergeSort_perm l _⟩

theorem nodup_keys (h : KeySorted l) : (l.map Prod.fst).Nodup :=
  List.pairwise_map.2 (h.imp fun hab => hab.ne)

/-- Two lists, the keys of one below those of the other, sort to the halves of the
    sorted list of all their pairs. -/
theorem exists_halves {u t : List (K × V)} (h : KeySorted (lo ++ hi))
    (hp : (u ++ t).Perm (lo ++ hi))
    (hlt : ∀ e ∈ u, ∀ e' ∈ t, e.1 < e'.1) :
    ∃ u' t', u'.Perm u ∧ t'.Perm t ∧ u' ++ t' = lo ++ hi := by
  have hnd : ((u ++ t).map Prod.fst).Nodup :=
    (hp.map Prod.fst).nodup_iff.2 (List.pairwise_map.2 (h.imp fun hab => hab.ne))
  rw [List.map_append, List.nodup_append] at hnd
  obtain ⟨u', hu, hup⟩ := exists_perm hnd.1
  obtain ⟨t', ht, htp⟩ := exists_perm hnd.2.1
  refine ⟨u', t', hup, htp, eq_of_perm ?_ h ((hup.append htp).trans hp)⟩
  exact List.pairwise_append.2
    ⟨hu, ht, fun e he e' he' => hlt e (hup.mem_iff.1 he) e' (htp.mem_iff.1 he')⟩

end KeySorted

namespace Cut

variable {lo hi lo' hi' : List (K × V)} {k : K}

/-- A list is cut at a key in one way. -/
theorem unique (h : Cut k lo hi) (h' : Cut k lo' hi') (he : lo ++ hi = lo' ++ hi') :
    lo = lo' ∧ hi = hi' := by
  rcases List.append_eq_append_iff.1 he with ⟨m, rfl, rfl⟩ | ⟨m, rfl, rfl⟩
  · cases m with
    | nil => simp
    | cons e m =>
      exact absurd (h.hi e (by simp)) (not_le.2 (h'.lo e (by simp)))
  · cases m with
    | nil => simp
    | cons e m =>
      exact absurd (h'.hi e (by simp)) (not_le.2 (h.lo e (by simp)))

end Cut

end DiscoSkip.Lib
