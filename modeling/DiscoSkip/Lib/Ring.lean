import Mathlib.Data.List.Basic
import Mathlib.Logic.Function.Basic
import DiscoSkip.Lib.Quorum

/-!
# Lists in a ring

An array of a fixed capacity holds a list from a place on, going on at its start after its
end (`contents`).

A list of one element less than that may be held with a *hole*: a place in between, whose
element does not count (`HasHole`). A hole moves by copying the element next to it
(`HasHole.left`, `HasHole.right`), and is filled by writing to it (`HasHole.fill`). Thus an
element is inserted where a hole has been moved to from one of the ends, and is removed by
moving its hole to one of the ends.
-/

namespace DiscoSkip.Lib

variable {α : Type*} {cap : ℕ} [NeZero cap]

/-- The place `i` after the place `m`. -/
def place (i : ℕ) (m : Fin cap) : Fin cap := Fin.ofNat cap (i + m)

/-- The first `n` elements from the place `m` on. -/
def contents (a : Fin cap → α) (m : Fin cap) (n : ℕ) : List α :=
  (List.range n).map fun i => a (place i m)

section Contents

variable {a : Fin cap → α} {m : Fin cap} {n i j : ℕ} {x : α}

@[simp] theorem place_zero : place 0 m = m := by
  ext
  simp [place]

@[simp] theorem place_place : place i (place j m) = place (i + j) m := by
  ext
  simp [place, Nat.add_assoc]

/-- Going round once. -/
@[simp] theorem place_cap : place cap m = m := by
  ext
  simp [place, Nat.mod_eq_of_lt m.isLt]

theorem place_inj (hi : i < cap) (hj : j < cap) (h : place i m = place j m) : i = j := by
  refine window_inj le_rfl m hi hj ?_
  rw [Nat.add_comm _ i, Nat.add_comm _ j]
  exact congrArg Fin.val h

@[simp] theorem length_contents : (contents a m n).length = n := by simp [contents]

@[simp] theorem contents_zero : contents a m 0 = [] := rfl

theorem getElem_contents (h : i < (contents a m n).length) :
    (contents a m n)[i] = a (place i m) := by simp [contents]

theorem getElem?_contents (h : i < n) : (contents a m n)[i]? = some (a (place i m)) := by
  simp [contents, h]

theorem contents_succ : contents a m (n + 1) = contents a m n ++ [a (place n m)] := by
  rw [contents, List.range_succ, List.map_append]
  rfl

theorem contents_eq_cons : contents a m (n + 1) = a m :: contents a (place 1 m) n := by
  rw [contents, List.range_succ_eq_map, List.map_cons, List.map_map, place_zero, contents]
  refine congrArg _ (List.map_congr_left fun i _ => ?_)
  rw [Function.comp_apply, place_place]

theorem contents_update (hn : n ≤ cap) (hi : i < n) :
    contents (Function.update a (place i m) x) m n = (contents a m n).set i x := by
  refine List.ext_getElem (by simp) fun j hj _ => ?_
  rw [length_contents] at hj
  rw [getElem_contents, List.getElem_set, getElem_contents]
  split
  · next h => rw [← h, Function.update_self]
  · next h =>
    exact Function.update_of_ne (fun hp => h (place_inj (by omega) (by omega) hp.symm)) _ _

end Contents

section Hole

/-- From the place `m` on, the array holds the list `l` with a hole before its place `i`. -/
def HasHole (l : List α) (i : ℕ) (a : Fin cap → α) (m : Fin cap) : Prop :=
  ∃ x, contents a m (l.length + 1) = l.take i ++ x :: l.drop i

variable {a : Fin cap → α} {m : Fin cap} {l : List α} {i : ℕ}

theorem hasHole_length (h : contents a m l.length = l) : HasHole l l.length a m :=
  ⟨a (place l.length m), by rw [contents_succ, h, List.take_length, List.drop_length]⟩

theorem hasHole_zero (h : contents a (place 1 m) l.length = l) : HasHole l 0 a m :=
  ⟨a m, by rw [contents_eq_cons, h]; rfl⟩

/-- What is left of a list without one of its elements has a hole there. -/
theorem hasHole_eraseIdx (h : contents a m l.length = l) (hi : i < l.length) :
    HasHole (l.eraseIdx i) i a m := by
  refine ⟨l[i], ?_⟩
  rw [List.length_eraseIdx_of_lt hi, Nat.sub_add_cancel (by omega), h,
    List.eraseIdx_eq_take_drop_succ,
    List.take_left' (by simp; omega), List.drop_left' (by simp; omega),
    List.cons_getElem_drop_succ, List.take_append_drop]

namespace HasHole

variable (h : HasHole l i a m)
include h

/-- The element at a place before the hole. -/
theorem get_before {j : ℕ} (hj : j < i) (hi : j < l.length) : a (place j m) = l[j] := by
  obtain ⟨x, hx⟩ := h
  have hp : (contents a m (l.length + 1))[j]? = l[j]? := by
    rw [hx, List.getElem?_append_left (by simp; omega), List.getElem?_take_of_lt hj]
  rwa [getElem?_contents (by omega), List.getElem?_eq_getElem hi, Option.some.injEq] at hp

/-- The element at a place after the hole. -/
theorem get_after {j : ℕ} (hj : i ≤ j) (hl : j < l.length) : a (place (j + 1) m) = l[j] := by
  obtain ⟨x, hx⟩ := h
  have hp : (contents a m (l.length + 1))[j + 1]? = l[j]? := by
    rw [hx, List.getElem?_append_right (by simp; omega), List.length_take,
      Nat.min_eq_left (by omega), show j + 1 - i = j - i + 1 by omega, List.getElem?_cons_succ,
      List.getElem?_drop, Nat.add_sub_cancel' hj]
  rwa [getElem?_contents (by omega), List.getElem?_eq_getElem hl, Option.some.injEq] at hp

/-- Writing to the hole puts an element there. -/
theorem fill (hcap : l.length < cap) (hi : i ≤ l.length) (e : α) :
    contents (Function.update a (place i m) e) m (l.length + 1) = l.take i ++ e :: l.drop i := by
  obtain ⟨x, hx⟩ := h
  rw [contents_update (by omega) (by omega), hx, List.set_append_right _ _ (by simp),
    List.length_take, Nat.min_eq_left hi, Nat.sub_self, List.set_cons_zero]

/-- Copying the element after the hole moves it on. -/
theorem right (hcap : l.length < cap) (hi : i < l.length) :
    HasHole l (i + 1) (Function.update a (place i m) (a (place (i + 1) m))) m := by
  refine ⟨l[i], ?_⟩
  rw [h.fill hcap hi.le, h.get_after le_rfl hi, List.take_succ_eq_append_getElem hi,
      List.append_assoc,
    List.drop_eq_getElem_cons hi]
  rfl

omit h in
/-- Copying the element before the hole moves it back. -/
theorem left (h : HasHole l (i + 1) a m) (hcap : l.length < cap) (hi : i < l.length) :
    HasHole l i (Function.update a (place (i + 1) m) (a (place i m))) m := by
  refine ⟨l[i], ?_⟩
  rw [h.fill hcap hi, h.get_before (Nat.lt_succ_self i) hi, List.take_succ_eq_append_getElem hi,
      List.append_assoc,
    List.drop_eq_getElem_cons hi]
  rfl

omit h in
theorem contents_of_length (h : HasHole l l.length a m) : contents a m l.length = l := by
  obtain ⟨x, hx⟩ := h
  rw [contents_succ, List.take_length, List.drop_length] at hx
  exact (List.append_inj hx (by simp)).1

omit h in
theorem contents_of_zero (h : HasHole l 0 a m) : contents a (place 1 m) l.length = l := by
  obtain ⟨x, hx⟩ := h
  rw [contents_eq_cons] at hx
  exact (List.cons.inj hx).2

end HasHole

end Hole

end DiscoSkip.Lib
