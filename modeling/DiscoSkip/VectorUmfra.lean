import Mathlib.Data.List.Perm.Basic
import DiscoSkip.VectorSfra

/-!
# Unsorted chunks

The other chunk of a skip-vector node: an unsorted vector of key/value pairs of a
fixed capacity, with the minimum in the slot 0 and the maximum in the slot 1
(`vector_umfra`). A vector is the list of the pairs in its slots; its size is the
length of the list.

The source moves the pairs by hand. There are two moves: a pair is *displaced*
from its slot to the end (`displace`), and a pair is moved to another slot, and
the last pair into the gap (`moveTo`). The loops that look for the next minimum
or maximum are one (`scan`), by a strict order `r` and its converse.
-/

namespace DiscoSkip

open Lib

/-- The pairs in the slots of a chunk. -/
abbrev VectorUmfra (K V : Type*) := List (K × V)

/-- What `std::nth_element` does, of a range and a position of it: it permutes the
    range, such that nothing before the position is above the pair there, and
    nothing after it below. -/
structure NthElement (K V : Type*) [LinearOrder K] where
  run : List (K × V) → ℕ → List (K × V)
  perm : ∀ l n, (run l n).Perm l
  before : ∀ l n i e m, (run l n)[i]? = some e → (run l n)[n]? = some m → i < n → e.1 ≤ m.1
  after : ∀ l n i e m, (run l n)[i]? = some e → (run l n)[n]? = some m → n < i → m.1 ≤ e.1

/-- Sorting the whole range does it. -/
def NthElement.ofSort {K V : Type*} [LinearOrder K] : NthElement K V where
  run l _ := l.mergeSort fun a b => decide (a.1 ≤ b.1)
  perm l _ := List.mergeSort_perm l _
  before _ _ _ _ _ he hm hi := KeySorted.le_of_mergeSort he hm hi
  after _ _ _ _ _ he hm hi := KeySorted.le_of_mergeSort hm he hi

namespace VectorUmfra

variable {K V : Type*} [LinearOrder K]

/-- The slot of a key, if it is there. -/
def find (v : VectorUmfra K V) (k : K) : Option ℕ := v.findIdx? (·.1 = k)

/-- The key in a slot, if there is one. -/
def keyAt (v : VectorUmfra K V) (pos : ℕ) : Option K := v[pos]?.map Prod.fst

def swap (v : VectorUmfra K V) (n m : ℕ) : VectorUmfra K V :=
  if n = m then v
  else
    match v[n]?, v[m]? with
    | some a, some b => (v.set n b).set m a
    | _, _ => v

/-- The loop over the slots from `i` on that looks for a better key than the best
    one so far, and its slot. -/
def scan (better : K → K → Prop) [DecidableRel better] :
    VectorUmfra K V → ℕ → K × ℕ → K × ℕ
  | [], _, best => best
  | e :: rest, i, best => scan better rest (i + 1) (if better e.1 best.1 then (e.1, i) else best)

/-- The last pair is moved to a slot, for the pair there to go. -/
def fillGap (v : VectorUmfra K V) (pos : ℕ) : VectorUmfra K V :=
  match v.getLast? with
  | some e => (v.set pos e).dropLast
  | none => v

/-- The pair of the slot `pos` is moved to another one, for the pair there to go, and
    the last one into the gap. -/
def moveTo (v : VectorUmfra K V) (slot pos : ℕ) : VectorUmfra K V :=
  match v[pos]? with
  | some e => fillGap (v.set slot e) pos
  | none => v

/-- A pair is put into a slot, and the one there at the end. -/
def displace (v : VectorUmfra K V) (slot : ℕ) (e : K × V) : VectorUmfra K V :=
  match v[slot]? with
  | some m => v.set slot e ++ [m]
  | none => v ++ [e]

/-- Partitioning a vector around its median, with the maximum at the end. -/
def quickselectMedian (nth : NthElement K V) (cap : ℕ) (v : VectorUmfra K V) : VectorUmfra K V :=
  if 2 < cap ∧ 2 < v.length then
    let v := v.swap 1 (v.length - 1)
    v.take 1 ++ nth.run ((v.drop 1).take (v.length - 2)) (v.length / 2 - 1) ++
      v.drop (v.length - 1)
  else v

/-- The maximum, at the end, goes back to its slot. -/
def restoreInvariant (cap : ℕ) (v : VectorUmfra K V) : VectorUmfra K V :=
  if 2 < cap ∧ 2 < v.length then v.swap 1 (v.length - 1) else v

/-- The best pair is looked for and swapped to its slot, that of the minimum or
    maximum; the other one is in place. -/
def findNew (better : K → K → Prop) [DecidableRel better] (slot cap : ℕ) (v : VectorUmfra K V) :
    VectorUmfra K V :=
  if cap ≤ 2 ∨ v.length ≤ 2 then v
  else
    match v[slot]? with
    | some e =>
      let pos := (scan better (v.drop 2) 2 (e.1, slot)).2
      if pos ≠ slot then v.swap slot pos else v
    | none => v

def findNewMin (cap : ℕ) (v : VectorUmfra K V) : VectorUmfra K V := findNew (· < ·) 0 cap v

def findNewMax (cap : ℕ) (v : VectorUmfra K V) : VectorUmfra K V := findNew (· > ·) 1 cap v

/-- Inserting a pair into a vector of the capacity `cap`. -/
def insert (cap : ℕ) (v : VectorUmfra K V) (e : K × V) : VectorSfra.Inserted K V :=
  if (v.find e.1).isSome then .exists
  else if v.length = cap then .overfull
  else if 1 ≤ cap ∧ (v.keyAt 0).any (e.1 < ·) then .ok (v.displace 0 e)
  else if 2 ≤ cap ∧ (v.keyAt 1).any (· < e.1) then .ok (v.displace 1 e)
  else .ok (v ++ [e])

/-- The pair of a slot, that of the minimum or maximum, is replaced by the best of
    those after it. -/
def pull (better : K → K → Prop) [DecidableRel better] (slot : ℕ) (v : VectorUmfra K V) :
    VectorUmfra K V :=
  match v[slot + 1]? with
  | some e => v.moveTo slot (scan better (v.drop (slot + 2)) (slot + 2) (e.1, slot + 1)).2
  | none => v.dropLast

/-- Removing a key: its value, if it was there, and what is left. -/
def remove (cap : ℕ) (v : VectorUmfra K V) (k : K) : Option V × VectorUmfra K V :=
  if v.keyAt 0 = some k then (v[0]?.map Prod.snd, pull (· < ·) 0 v)
  else if 2 ≤ cap ∧ v.keyAt 1 = some k then (v[1]?.map Prod.snd, pull (· > ·) 1 v)
  else
    match v.find k with
    | some pos => (v[pos]?.map Prod.snd, v.fillGap pos)
    | none => (none, v)

/-- The value of a key, if it is there. -/
def contains (v : VectorUmfra K V) (k : K) : Option V :=
  match v.find k with
  | some pos => v[pos]?.map Prod.snd
  | none => none

/-- The minimum key; of an empty vector, the source returns junk. -/
def first (v : VectorUmfra K V) : Option K := v.keyAt 0

def last (v : VectorUmfra K V) : Option K :=
  if 2 ≤ v.length then v.keyAt 1 else if v.length = 1 then v.keyAt 0 else none

/-- The maximum key; of an empty vector, there is an exception. -/
def maxKey (v : VectorUmfra K V) : Option K :=
  if v.length = 0 then none else if v.length = 1 then v.keyAt 0 else v.keyAt 1

/-- The pair with the biggest key that is not above `k`. -/
def findLte (v : VectorUmfra K V) (k : K) : Option (K × V) :=
  match v.findIdx? (·.1 ≤ k) with
  | some i =>
    match v[i]? with
    | some e => v[(scan (fun a b => b < a ∧ a ≤ k) (v.drop i) i (e.1, i)).2]?
    | none => none
  | none => none

/-- The loop that steals the pairs above `k`, from the slot `i` of the victim on. -/
def splitLoop (k : K) : ℕ → VectorUmfra K V → ℕ → VectorUmfra K V →
    VectorUmfra K V × VectorUmfra K V
  | 0, victim, _, v => (victim, v)
  | fuel + 1, victim, i, v =>
    match victim[i]?, victim.getLast? with
    | some e, some l =>
      if e.1 < k then splitLoop k fuel victim (i + 1) v
      else if k < l.1 then splitLoop k fuel victim.dropLast i (v ++ [l])
      else splitLoop k fuel (victim.set i l).dropLast (i + 1) (v ++ [e])
    | _, _ => (victim, v)

/-- The number of pairs above `k`. -/
def elementsToSteal (cap : ℕ) (victim : VectorUmfra K V) (k : K) : ℕ :=
  (if (victim.keyAt 0).any (k < ·) then 1 else 0) +
    (if 2 ≤ cap ∧ (victim.keyAt 1).any (k < ·) then 1 else 0) +
    (victim.drop 2).countP (k < ·.1)

/-- Stealing the pairs above that of `e` from the victim, with `e` as the first
    one: what the victim keeps, and what is stolen. -/
def splitInsert (cap : ℕ) (victim : VectorUmfra K V) (e : K × V) :
    VectorUmfra K V × VectorUmfra K V :=
  let n := victim.elementsToSteal cap e.1
  if cap = 1 ∨ n = 0 then (victim, [e])
  else
    match victim with
    | [] => (victim, [e])
    | [m] => if n = 1 then ([], [e, m]) else (victim, [e])
    | m :: x :: rest =>
      -- the pairs below `k` besides the minimum, of which one is the new maximum
      let newMax := scan (fun a b => a < e.1 ∧ b < a) rest 2 (m.1, 0)
      if n = victim.length then ([], e :: x :: m :: rest.take (n - 2))
      else if newMax.1 = m.1 then ([m], e :: (x :: rest).take n)
      else
        let kept := victim.moveTo 1 newMax.2
        splitLoop e.1 kept.length kept 2 [e, x]

/-- The vector after inserting a pair, where the flag is not asked for. -/
def insertSeq (cap : ℕ) (v : VectorUmfra K V) (e : K × V) : VectorUmfra K V :=
  match v.insert cap e with
  | .ok v' => v'
  | .exists | .overfull => v

/-- Stealing the latter half, and inserting a pair on its side of the median. (Of an
    empty victim, the median is junk.) -/
def stealHalfAndInsert (nth : NthElement K V) (cap : ℕ) (victim : VectorUmfra K V) (e : K × V) :
    VectorUmfra K V × VectorUmfra K V :=
  let victim := victim.quickselectMedian nth cap
  let medianPos := victim.length / 2
  if (victim.keyAt medianPos).any (e.1 < ·) then
    (insertSeq cap (findNewMax cap (victim.take medianPos)) e,
      restoreInvariant cap (victim.drop medianPos))
  else
    (restoreInvariant cap (victim.take (medianPos + 1)),
      insertSeq cap (findNewMin cap (restoreInvariant cap (victim.drop (medianPos + 1)))) e)

/-- Stealing the latter half. -/
def stealHalf (nth : NthElement K V) (cap : ℕ) (victim : VectorUmfra K V) :
    VectorUmfra K V × VectorUmfra K V :=
  let victim := victim.quickselectMedian nth cap
  let medianPos := victim.length / 2
  (findNewMax cap (victim.take medianPos), restoreInvariant cap (victim.drop medianPos))

/-- Stealing all pairs of the victim, which are above those of `v`. -/
def merge (cap : ℕ) (v victim : VectorUmfra K V) : VectorUmfra K V :=
  if victim.length = 0 then v
  else if cap = 1 ∨ v.length = 0 then victim
  else
    match victim with
    | [] => v
    | [m] => v.displace 1 m
    | m :: x :: rest => displace (v ++ [m]) 1 x ++ rest

/-! ## The moves -/

section Moves

variable {v : VectorUmfra K V} {slot pos j : ℕ} {e x : K × V}

omit [LinearOrder K]

theorem swap_perm (v : VectorUmfra K V) (n m : ℕ) : (v.swap n m).Perm v := by
  rw [swap]
  split
  · exact .refl v
  · split
    · next a b ha hb =>
      obtain ⟨hn, rfl⟩ := List.getElem?_eq_some_iff.1 ha
      obtain ⟨hm, rfl⟩ := List.getElem?_eq_some_iff.1 hb
      exact List.set_set_perm hn hm
    · exact .refl v

/-- After a swap, the slots have each other's pairs. -/
theorem getElem?_swap {n m : ℕ} (hn : n < v.length) (hm : m < v.length) (j : ℕ) :
    (v.swap n m)[j]? = if j = n then v[m]? else if j = m then v[n]? else v[j]? := by
  rw [swap]
  split
  · next h =>
    subst h
    split
    · next hj => rw [hj]
    · rfl
  · rw [List.getElem?_eq_getElem hn, List.getElem?_eq_getElem hm]
    dsimp only
    rw [List.getElem?_set, List.getElem?_set, List.length_set]
    grind

/-- What the gap leaves is the vector without the pair that was there. -/
theorem fillGap_perm (hx : v[pos]? = some x) : (x :: v.fillGap pos).Perm v := by
  obtain ⟨hpos, hx'⟩ := List.getElem?_eq_some_iff.1 hx
  have hne : v ≠ [] := List.ne_nil_of_length_pos (by omega)
  obtain ⟨l, y, rfl⟩ := (List.eq_nil_or_concat' v).resolve_left hne
  rw [fillGap, List.getLast?_concat]
  dsimp only
  rw [List.length_append, List.length_singleton] at hpos
  by_cases hl : pos < l.length
  · -- the last pair is in the gap
    rw [List.set_append_left _ _ hl, List.dropLast_concat]
    rw [List.getElem?_append_left hl, List.getElem?_eq_getElem hl, Option.some.injEq] at hx
    subst hx
    calc (l[pos] :: l.set pos y).Perm (l[pos] :: y :: l.eraseIdx pos) :=
          (List.set_perm_cons_eraseIdx hl y).cons _
      _ |>.Perm (y :: l[pos] :: l.eraseIdx pos) := .swap _ _ _
      _ |>.Perm (y :: l) := (List.getElem_cons_eraseIdx_perm hl).cons _
      _ |>.Perm (l ++ [y]) := (List.perm_append_singleton y l).symm
  · -- the last pair is the one to go
    have hpos' : pos = l.length := by omega
    subst hpos'
    rw [List.getElem?_append_right (Nat.le_refl _), Nat.sub_self, List.getElem?_cons_zero,
      Option.some.injEq] at hx
    rw [List.set_append_right _ _ (Nat.le_refl _), Nat.sub_self, List.set_cons_zero,
      List.dropLast_concat, ← hx]
    exact (List.perm_append_singleton y l).symm

theorem length_fillGap (v : VectorUmfra K V) (pos : ℕ) : (v.fillGap pos).length = v.length - 1 := by
  rw [fillGap]
  split
  · rw [List.length_dropLast, List.length_set]
  · next h => rw [List.getLast?_eq_none_iff.1 h, List.length_nil]

/-- The other slots are kept, but for the last one. -/
theorem getElem?_fillGap (hj : j ≠ pos) (hlen : j + 1 < v.length) :
    (v.fillGap pos)[j]? = v[j]? := by
  rw [fillGap]
  split
  · rw [List.getElem?_dropLast, List.length_set, if_pos (by omega), List.getElem?_set_ne hj.symm]
  · rfl

/-- A move leaves the vector without the pair of the slot. -/
theorem moveTo_perm (hslot : v[slot]? = some e) (hpos : v[pos]? = some x) (hlt : slot < pos) :
    (e :: v.moveTo slot pos).Perm v := by
  obtain ⟨hs, rfl⟩ := List.getElem?_eq_some_iff.1 hslot
  have hgap : (x :: fillGap (v.set slot x) pos).Perm (v.set slot x) :=
    fillGap_perm (by rw [List.getElem?_set_ne hlt.ne, hpos])
  have hset := List.set_perm_cons_eraseIdx hs x
  rw [moveTo, hpos]
  exact ((hgap.trans hset).cons_inv.cons _).trans (List.getElem_cons_eraseIdx_perm hs)

theorem length_moveTo (hpos : v[pos]? = some x) : (v.moveTo slot pos).length = v.length - 1 := by
  rw [moveTo, hpos]
  dsimp only
  rw [length_fillGap, List.length_set]

theorem getElem?_moveTo_slot (hpos : v[pos]? = some x) (hlt : slot < pos) :
    (v.moveTo slot pos)[slot]? = some x := by
  obtain ⟨hp, -⟩ := List.getElem?_eq_some_iff.1 hpos
  rw [moveTo, hpos]
  dsimp only
  rw [getElem?_fillGap hlt.ne (by rw [List.length_set]; omega), List.getElem?_set_self (by omega)]

theorem getElem?_moveTo (hpos : v[pos]? = some x) (hj : j ≠ slot) (hjpos : j ≠ pos)
    (hlen : j + 1 < v.length) : (v.moveTo slot pos)[j]? = v[j]? := by
  rw [moveTo, hpos]
  dsimp only
  rw [getElem?_fillGap hjpos (by rw [List.length_set]; omega), List.getElem?_set_ne hj.symm]

theorem displace_perm (v : VectorUmfra K V) (slot : ℕ) (e : K × V) :
    (v.displace slot e).Perm (e :: v) := by
  rw [displace]
  split
  · next m hm =>
    obtain ⟨hs, rfl⟩ := List.getElem?_eq_some_iff.1 hm
    calc (v.set slot e ++ [v[slot]]).Perm (v[slot] :: v.set slot e) :=
          List.perm_append_singleton _ _
      _ |>.Perm (v[slot] :: e :: v.eraseIdx slot) := (List.set_perm_cons_eraseIdx hs e).cons _
      _ |>.Perm (e :: v[slot] :: v.eraseIdx slot) := .swap _ _ _
      _ |>.Perm (e :: v) := (List.getElem_cons_eraseIdx_perm hs).cons _
  · exact List.perm_append_singleton e v

end Moves

/-! ## The minimum and the maximum -/

/-- No key is better than the one in a slot, if there is one. -/
def Extreme (better : K → K → Prop) (v : VectorUmfra K V) (slot : ℕ) : Prop :=
  ∀ m, v[slot]? = some m → ∀ e ∈ v, ¬ better e.1 m.1

/-- The invariant of the source: the minimum is in the slot 0, and the maximum in
    the slot 1. -/
structure MinMax (v : VectorUmfra K V) : Prop where
  min : Extreme (· < ·) v 0
  max : Extreme (· > ·) v 1

section Extreme

variable {v v' : VectorUmfra K V} {better : K → K → Prop} {slot : ℕ}

omit [LinearOrder K]

theorem Extreme.of_perm (h : Extreme better v slot) (hp : v'.Perm v) (hs : v'[slot]? = v[slot]?) :
    Extreme better v' slot :=
  fun m hm e he => h m (hs ▸ hm) e (hp.mem_iff.1 he)

/-- It is enough to compare with one pair, that of the slot. -/
theorem Extreme.of_eq {m : K × V} (hm : v[slot]? = some m) (h : ∀ e ∈ v, ¬ better e.1 m.1) :
    Extreme better v slot := by
  intro m' hm'
  rw [hm, Option.some.injEq] at hm'
  exact hm' ▸ h

theorem Extreme.of_length_le (h : v.length ≤ slot) : Extreme better v slot :=
  fun m hm => absurd (List.getElem?_eq_some_iff.1 hm).1 (by omega)

/-- The best of the keys in the slots from `i` on that `P` holds of, and the one it
    starts with. -/
theorem scan_spec (better : K → K → Prop) [IsStrictOrder K better]
    {r : K → K → Prop} [DecidableRel r] {P : K → Prop} (hr : ∀ a b, r a b ↔ P a ∧ better a b)
    {i p : ℕ} {m : K × V} (hm : v[p]? = some m) :
    ∃ e, v[(scan r (v.drop i) i (m.1, p)).2]? = some e ∧
      (scan r (v.drop i) i (m.1, p)).1 = e.1 ∧
      (e = m ∧ (scan r (v.drop i) i (m.1, p)).2 = p ∨
        P e.1 ∧ better e.1 m.1 ∧ i ≤ (scan r (v.drop i) i (m.1, p)).2) ∧
      ∀ j e', i ≤ j → v[j]? = some e' → P e'.1 → ¬ better e'.1 e.1 := by
  induction hl : v.drop i generalizing i p m with
  | nil =>
    refine ⟨m, hm, rfl, .inl ⟨rfl, rfl⟩, fun j e' hij he' => ?_⟩
    have hlen := List.drop_eq_nil_iff.1 hl
    exact absurd (List.getElem?_eq_some_iff.1 he').1 (by omega)
  | cons x rest ih =>
    have hx : v[i]? = some x := by
      rw [← Nat.add_zero i, ← List.getElem?_drop, hl, List.getElem?_cons_zero]
    have hrest : v.drop (i + 1) = rest := by rw [← List.drop_drop, hl,
      List.drop_one, List.tail_cons]
    rw [scan]
    split
    · next hb =>
      -- the pair of this slot is the best one so far
      obtain ⟨hPx, hxm⟩ := (hr _ _).1 hb
      obtain ⟨e, he, hk, hor, hall⟩ := ih hx hrest
      have hbetter : ¬ better x.1 e.1 := by
        rcases hor with ⟨rfl, -⟩ | ⟨-, hex, -⟩
        · exact irrefl_of better e.1
        · exact fun h => irrefl_of better e.1 (trans_of better hex h)
      refine ⟨e, he, hk, .inr ?_, fun j e' hij he' hP => ?_⟩
      · rcases hor with ⟨rfl, hp⟩ | ⟨hP, hex, hi⟩
        · exact ⟨hPx, hxm, by rw [hp]⟩
        · exact ⟨hP, trans_of better hex hxm, by omega⟩
      · rcases Nat.eq_or_lt_of_le hij with rfl | hlt
        · rw [hx, Option.some.injEq] at he'
          exact he' ▸ hbetter
        · exact hall j e' hlt he' hP
    · next hb =>
      obtain ⟨e, he, hk, hor, hall⟩ := ih hm hrest
      refine ⟨e, he, hk, hor.imp_right fun h => ⟨h.1, h.2.1, by omega⟩, fun j e' hij he' hP => ?_⟩
      rcases Nat.eq_or_lt_of_le hij with rfl | hlt
      · rw [hx, Option.some.injEq] at he'
        subst he'
        rcases hor with ⟨rfl, -⟩ | ⟨-, hex, -⟩
        · exact fun h => hb ((hr _ _).2 ⟨hP, h⟩)
        · exact fun h => hb ((hr _ _).2 ⟨hP, trans_of better h hex⟩)
      · exact hall j e' hlt he' hP

end Extreme

section Restore

variable {v : VectorUmfra K V} {slot other cap : ℕ}

omit [LinearOrder K] in
/-- Every pair is in one of the first two slots, or in a later one. -/
theorem mem_slots {e : K × V} (h : slot = 0 ∧ other = 1 ∨ slot = 1 ∧ other = 0) (he : e ∈ v) :
    v[slot]? = some e ∨ v[other]? = some e ∨ ∃ j, 2 ≤ j ∧ v[j]? = some e := by
  obtain ⟨j, hj⟩ := List.mem_iff_getElem?.1 he
  by_cases hs : j = slot
  · exact .inl (hs ▸ hj)
  · by_cases ho : j = other
    · exact .inr (.inl (ho ▸ hj))
    · exact .inr (.inr ⟨j, by omega, hj⟩)

omit [LinearOrder K] in
/-- Looking for the minimum while the maximum is in its slot, or for the maximum
    while the minimum is. -/
theorem findNew_spec (better : K → K → Prop) [IsStrictOrder K better] [DecidableRel better]
    (h : slot = 0 ∧ other = 1 ∨ slot = 1 ∧ other = 0) (hcap : v.length ≤ cap)
    (hv : Extreme (fun a b => better b a) v other) :
    (findNew better slot cap v).Perm v ∧ Extreme better (findNew better slot cap v) slot ∧
      Extreme (fun a b => better b a) (findNew better slot cap v) other := by
  rw [findNew]
  split
  · next hlen =>
    -- of two pairs, each is the other one's extreme
    refine ⟨.refl v, fun m hm e he => ?_, hv⟩
    rcases mem_slots h he with hs | ho | ⟨j, hj, hje⟩
    · rw [hm, Option.some.injEq] at hs
      exact hs ▸ irrefl_of better m.1
    · exact hv e ho m (List.mem_of_getElem? hm)
    · exact absurd (List.getElem?_eq_some_iff.1 hje).1 (by omega)
  · next hlen =>
    obtain ⟨m, hm⟩ : ∃ m, v[slot]? = some m := ⟨_, List.getElem?_eq_getElem (by omega)⟩
    obtain ⟨e, he, -, hor, hall⟩ := scan_spec better (v := v) (r := better)
      (P := fun _ => True) (i := 2) (fun _ _ => (iff_of_eq (true_and _)).symm) hm
    rw [hm]
    dsimp only
    set pos := (scan better (v.drop 2) 2 (m.1, slot)).2
    have hbest : ∀ x ∈ v, ¬ better x.1 e.1 := by
      intro x hx
      rcases mem_slots h hx with hs | ho | ⟨j, hj, hje⟩
      · rw [hm, Option.some.injEq] at hs
        rcases hor with ⟨rfl, -⟩ | ⟨-, hem, -⟩
        · exact hs ▸ irrefl_of better e.1
        · exact fun hxe => irrefl_of better e.1 (trans_of better hem (hs ▸ hxe))
      · exact hv x ho e (List.mem_of_getElem? he)
      · exact hall j x hj hje trivial
    have hpos := (List.getElem?_eq_some_iff.1 he).1
    have hother : pos ≠ other := by omega
    split
    · have hget := getElem?_swap (v := v) (n := slot) (m := pos) (by omega) hpos
      have hp := swap_perm v slot pos
      refine ⟨hp, .of_eq ((hget slot).trans (by rw [if_pos rfl, he])) fun x hx => ?_, ?_⟩
      · exact hbest x (hp.mem_iff.1 hx)
      · refine hv.of_perm hp ?_
        rw [hget, if_neg (by omega), if_neg (Ne.symm hother)]
    · next hslot =>
      rw [not_not.1 hslot, hm, Option.some.injEq] at he
      exact ⟨.refl v, .of_eq hm (he ▸ hbest), hv⟩

theorem findNewMin_spec (hcap : v.length ≤ cap) (hv : Extreme (· > ·) v 1) :
    (findNewMin cap v).Perm v ∧ MinMax (findNewMin cap v) := by
  obtain ⟨hp, hmin, hmax⟩ := findNew_spec (· < ·) (.inl ⟨rfl, rfl⟩) hcap hv
  exact ⟨hp, hmin, hmax⟩

theorem findNewMax_spec (hcap : v.length ≤ cap) (hv : Extreme (· < ·) v 0) :
    (findNewMax cap v).Perm v ∧ MinMax (findNewMax cap v) := by
  obtain ⟨hp, hmax, hmin⟩ := findNew_spec (· > ·) (.inr ⟨rfl, rfl⟩) hcap hv
  exact ⟨hp, hmin, hmax⟩

omit [LinearOrder K] in
theorem restoreInvariant_perm (cap : ℕ) (v : VectorUmfra K V) :
    (restoreInvariant cap v).Perm v := by
  rw [restoreInvariant]
  split
  · exact swap_perm v _ _
  · exact .refl v

omit [LinearOrder K] in
theorem getElem?_restoreInvariant (cap : ℕ) (v : VectorUmfra K V) :
    (restoreInvariant cap v)[0]? = v[0]? := by
  rw [restoreInvariant]
  split
  · next h => rw [getElem?_swap (by omega) (by omega), if_neg (by omega), if_neg (by omega)]
  · rfl

/-- The maximum is the last pair. -/
def LastMax (v : VectorUmfra K V) : Prop := ∀ l, v.getLast? = some l → ∀ e ∈ v, e.1 ≤ l.1

theorem restoreInvariant_max (hcap : v.length ≤ cap) (hv : LastMax v) :
    Extreme (· > ·) (restoreInvariant cap v) 1 := by
  rw [restoreInvariant]
  split
  · next h =>
    obtain ⟨l, hl⟩ : ∃ l, v.getLast? = some l :=
      ⟨_, List.getLast?_eq_some_getLast (List.ne_nil_of_length_pos (by omega))⟩
    refine .of_eq (m := l) ?_ fun e he => not_lt.2 (hv l hl e ((swap_perm _ _ _).mem_iff.1 he))
    rw [getElem?_swap (by omega) (by omega), if_pos rfl, ← List.getLast?_eq_getElem?, hl]
  · next h =>
    match v, hv with
    | [], _ => exact .of_length_le (by simp)
    | [m], _ => exact .of_length_le (by simp)
    | [m, x], hv => exact .of_eq (m := x) rfl fun e he => not_lt.2 (hv x rfl e he)
    | _ :: _ :: _ :: _, _ =>
      rw [List.length_cons, List.length_cons, List.length_cons] at h hcap
      omega

/-- The first pair is the minimum, and the last one the maximum. -/
theorem restoreInvariant_minMax (hcap : v.length ≤ cap) (hmin : Extreme (· < ·) v 0)
    (hmax : LastMax v) : MinMax (restoreInvariant cap v) :=
  ⟨hmin.of_perm (restoreInvariant_perm cap v) (getElem?_restoreInvariant cap v),
    restoreInvariant_max hcap hmax⟩

end Restore

/-! ## The operations -/

/-- The keys are distinct. -/
def Distinct (v : VectorUmfra K V) : Prop := (v.map Prod.fst).Nodup

section Operations

variable {v : VectorUmfra K V} {cap pos : ℕ} {k : K} {e m x : K × V}

omit [LinearOrder K] in
theorem Distinct.perm {v' : VectorUmfra K V} (h : Distinct v) (hp : v'.Perm v) : Distinct v' :=
  (hp.map Prod.fst).nodup_iff.2 h

omit [LinearOrder K] in
/-- A key has one slot. -/
theorem Distinct.slot_unique (h : Distinct v) {i j : ℕ} (hi : v[i]? = some e) (hj : v[j]? = some x)
    (hk : e.1 = x.1) : i = j := by
  have hi' : i < (v.map Prod.fst).length := by
    rw [List.length_map]
    exact (List.getElem?_eq_some_iff.1 hi).1
  refine (List.getElem?_inj hi' h).1 ?_
  rw [List.getElem?_map, List.getElem?_map, hi, hj, Option.map_some, Option.map_some, hk]

omit [LinearOrder K] in
/-- A key has one pair. -/
theorem Distinct.eq_of_mem (h : Distinct v) (he : e ∈ v) (hx : x ∈ v) (hk : e.1 = x.1) : e = x := by
  obtain ⟨i, hi⟩ := List.mem_iff_getElem?.1 he
  obtain ⟨j, hj⟩ := List.mem_iff_getElem?.1 hx
  rw [h.slot_unique hi hj hk, hj, Option.some.injEq] at hi
  exact hi.symm

omit [LinearOrder K] in
/-- The other pairs have other keys. -/
theorem Distinct.mem_rest {w : VectorUmfra K V} (h : Distinct v) (hp : (m :: w).Perm v)
    (he : e ∈ w) : e ∈ v ∧ e.1 ≠ m.1 := by
  refine ⟨hp.mem_iff.1 (List.mem_cons_of_mem _ he), fun hk => ?_⟩
  exact (List.nodup_cons.1 (h.perm hp)).1 (List.mem_map.2 ⟨e, he, hk⟩)

theorem minMax_nil : MinMax ([] : VectorUmfra K V) :=
  ⟨.of_length_le (Nat.le_refl _), .of_length_le (Nat.zero_le _)⟩

theorem minMax_singleton (m : K × V) : MinMax [m] := by
  refine ⟨.of_eq (m := m) rfl fun e he => ?_, .of_length_le (Nat.le_refl _)⟩
  rw [List.mem_singleton.1 he]
  exact lt_irrefl _

theorem minMax_cons_cons {l : VectorUmfra K V} : MinMax (m :: x :: l) ↔
    m.1 ≤ x.1 ∧ ∀ e ∈ l, m.1 ≤ e.1 ∧ e.1 ≤ x.1 := by
  constructor
  · intro h
    have hmin : ∀ e ∈ m :: x :: l, m.1 ≤ e.1 := fun e he => not_lt.1 (h.min m rfl e he)
    have hmax : ∀ e ∈ m :: x :: l, e.1 ≤ x.1 := fun e he => not_lt.1 (h.max x rfl e he)
    exact ⟨hmin x (by simp), fun e he => ⟨hmin e (by simp [he]), hmax e (by simp [he])⟩⟩
  · rintro ⟨hmx, hl⟩
    refine ⟨.of_eq (m := m) rfl fun e he => not_lt.2 ?_,
      .of_eq (m := x) rfl fun e he => not_lt.2 ?_⟩
    · rcases List.mem_cons.1 he with rfl | he
      · exact le_rfl
      · rcases List.mem_cons.1 he with rfl | he
        · exact hmx
        · exact (hl e he).1
    · rcases List.mem_cons.1 he with rfl | he
      · exact hmx
      · rcases List.mem_cons.1 he with rfl | he
        · exact le_rfl
        · exact (hl e he).2

theorem find_eq_some (h : v.find k = some pos) : ∃ a, v[pos]? = some (k, a) := by
  obtain ⟨hlt, hk, -⟩ := List.findIdx?_eq_some_iff_getElem.1 h
  refine ⟨v[pos].2, ?_⟩
  rw [List.getElem?_eq_getElem hlt, ← of_decide_eq_true hk]

theorem find_eq_none : v.find k = none ↔ ∀ e ∈ v, e.1 ≠ k := by
  rw [find, List.findIdx?_eq_none_iff]
  exact forall₂_congr fun e _ => decide_eq_false_iff_not

theorem insert_eq_exists (he : ∃ e' ∈ v, e'.1 = e.1) : v.insert cap e = .exists := by
  rw [insert, if_pos]
  rw [Option.isSome_iff_ne_none, Ne, find_eq_none]
  exact fun h => he.elim fun e' h' => h e' h'.1 h'.2

theorem insert_eq_overfull (he : ∀ e' ∈ v, e'.1 ≠ e.1) (hcap : v.length = cap) :
    v.insert cap e = .overfull := by
  rw [insert, find_eq_none.2 he, if_neg (by simp), if_pos hcap]

/-- A new pair goes to the slot of the minimum or maximum if it is one. -/
theorem insert_eq_ok (hv : MinMax v) (he : ∀ e' ∈ v, e'.1 ≠ e.1) (hcap : v.length < cap) :
    ∃ v', v.insert cap e = .ok v' ∧ v'.Perm (e :: v) ∧ MinMax v' := by
  rw [insert, find_eq_none.2 he, if_neg (by simp), if_neg hcap.ne]
  split
  · next hlt =>
    refine ⟨_, rfl, displace_perm v 0 e, ?_⟩
    match v, hv with
    | [], _ => exact minMax_singleton e
    | [m], _ =>
      have hem : e.1 < m.1 := by simpa [keyAt] using hlt.2
      exact minMax_cons_cons.2 ⟨hem.le, by simp⟩
    | m :: x :: l, hv =>
      have hem : e.1 < m.1 := by simpa [keyAt] using hlt.2
      obtain ⟨hmx, hl⟩ := minMax_cons_cons.1 hv
      refine minMax_cons_cons.2 ⟨hem.le.trans hmx, fun a ha => ?_⟩
      rcases List.mem_append.1 ha with ha | ha
      · exact ⟨hem.le.trans (hl a ha).1, (hl a ha).2⟩
      · rw [List.mem_singleton.1 ha]
        exact ⟨hem.le, hmx⟩
  · next hmin =>
    split
    · next hlt =>
      refine ⟨_, rfl, displace_perm v 1 e, ?_⟩
      match v, hv with
      | [], _ => exact minMax_singleton e
      | [m], _ => exact absurd hlt.2 (by simp [keyAt])
      | m :: x :: l, hv =>
        have hxe : x.1 < e.1 := by simpa [keyAt] using hlt.2
        obtain ⟨hmx, hl⟩ := minMax_cons_cons.1 hv
        refine minMax_cons_cons.2 ⟨hmx.trans hxe.le, fun a ha => ?_⟩
        rcases List.mem_append.1 ha with ha | ha
        · exact ⟨(hl a ha).1, (hl a ha).2.trans hxe.le⟩
        · rw [List.mem_singleton.1 ha]
          exact ⟨hmx, hxe.le⟩
    · next hmax =>
      refine ⟨_, rfl, List.perm_append_singleton e v, ?_⟩
      match v, hv with
      | [], _ => exact minMax_singleton e
      | [m], _ =>
        have hme : m.1 ≤ e.1 := by simpa [keyAt, show 1 ≤ cap by omega] using hmin
        exact minMax_cons_cons.2 ⟨hme, by simp⟩
      | m :: x :: l, hv =>
        rw [List.length_cons, List.length_cons] at hcap
        have hme : m.1 ≤ e.1 := by simpa [keyAt, show 1 ≤ cap by omega] using hmin
        have hex : e.1 ≤ x.1 := by simpa [keyAt, show 2 ≤ cap by omega] using hmax
        obtain ⟨hmx, hl⟩ := minMax_cons_cons.1 hv
        refine minMax_cons_cons.2 ⟨hmx, fun a ha => ?_⟩
        rcases List.mem_append.1 ha with ha | ha
        · exact hl a ha
        · rw [List.mem_singleton.1 ha]
          exact ⟨hme, hex⟩

/-- The pairs besides the minimum have their minimum, and the maximum stays. -/
theorem pull_min (hv : MinMax v) (hd : Distinct v) (hm : v[0]? = some m) :
    (m :: pull (· < ·) 0 v).Perm v ∧ MinMax (pull (· < ·) 0 v) := by
  rw [pull]
  split
  · next x hx =>
    obtain ⟨e, he, -, hor, hall⟩ := scan_spec (· < ·) (v := v) (r := (· < ·))
      (P := fun _ => True) (i := 2) (fun _ _ => (iff_of_eq (true_and _)).symm) hx
    set pos := (scan (· < ·) (v.drop (0 + 2)) (0 + 2) (x.1, 0 + 1)).2
    have hpos := (List.getElem?_eq_some_iff.1 he).1
    have hlt : 0 < pos := by omega
    have hp := moveTo_perm hm he hlt
    refine ⟨hp, .of_eq (getElem?_moveTo_slot he hlt) fun a ha => ?_, ?_⟩
    · -- the pair moved is the best of those in the slots after the first one
      obtain ⟨hav, hne⟩ := hd.mem_rest hp ha
      obtain ⟨j, hj⟩ := List.mem_iff_getElem?.1 hav
      match j, hj with
      | 0, hj => exact absurd (by rw [hm, Option.some.injEq] at hj; rw [hj]) hne
      | 1, hj =>
        rw [hx, Option.some.injEq] at hj
        rcases hor with ⟨rfl, -⟩ | ⟨-, hex, -⟩
        · exact hj ▸ lt_irrefl _
        · exact hj ▸ not_lt_of_gt hex
      | j + 2, hj => exact hall (j + 2) a (by omega) hj trivial
    · -- the maximum is moved only if it is the only pair left
      by_cases hone : pos = 1
      · refine .of_length_le ?_
        rw [length_moveTo he]
        by_contra hlen
        obtain ⟨y, hy⟩ : ∃ y, v[2]? = some y := ⟨_, List.getElem?_eq_getElem (by omega)⟩
        have hxe : x = e := by
          rw [hone, hx, Option.some.injEq] at he
          exact he
        have hyx : ¬ y.1 < x.1 := hxe ▸ hall 2 y (Nat.le_refl _) hy trivial
        have hxy : ¬ x.1 < y.1 := hv.max x hx y (List.mem_of_getElem? hy)
        exact absurd (hd.slot_unique hy hx (le_antisymm (not_lt.1 hxy) (not_lt.1 hyx))) (by omega)
      · refine fun b hb a ha => ?_
        rw [getElem?_moveTo he (by omega) (Ne.symm hone) (by omega)] at hb
        exact hv.max b hb a (hd.mem_rest hp ha).1
  · next hnone =>
    -- there is only this pair
    have hlen := List.getElem?_eq_none_iff.1 hnone
    match v, hm with
    | [a], hm =>
      obtain rfl : a = m := Option.some.inj hm
      exact ⟨.refl _, minMax_nil⟩
    | _ :: _ :: _, _ => exact absurd hlen (by simp)

/-- The pairs besides the maximum have their maximum, and the minimum stays. -/
theorem pull_max (hv : MinMax v) (hd : Distinct v) (hm : v[1]? = some m) :
    (m :: pull (· > ·) 1 v).Perm v ∧ MinMax (pull (· > ·) 1 v) := by
  rw [pull]
  split
  · next x hx =>
    obtain ⟨e, he, -, hor, hall⟩ := scan_spec (· > ·) (v := v) (r := (· > ·))
      (P := fun _ => True) (i := 3) (fun _ _ => (iff_of_eq (true_and _)).symm) hx
    set pos := (scan (· > ·) (v.drop (1 + 2)) (1 + 2) (x.1, 1 + 1)).2
    have hpos := (List.getElem?_eq_some_iff.1 he).1
    have hlt : 1 < pos := by omega
    have hp := moveTo_perm hm he hlt
    refine ⟨hp, fun b hb a ha => ?_, .of_eq (getElem?_moveTo_slot he hlt) fun a ha => ?_⟩
    · rw [getElem?_moveTo he (by omega) (by omega) (by omega)] at hb
      exact hv.min b hb a (hd.mem_rest hp ha).1
    · obtain ⟨hav, hne⟩ := hd.mem_rest hp ha
      obtain ⟨j, hj⟩ := List.mem_iff_getElem?.1 hav
      match j, hj with
      | 0, hj => exact hv.min a hj e (List.mem_of_getElem? he)
      | 1, hj => exact absurd (by rw [hm, Option.some.injEq] at hj; rw [hj]) hne
      | 2, hj =>
        rw [hx, Option.some.injEq] at hj
        rcases hor with ⟨rfl, -⟩ | ⟨-, hex, -⟩
        · exact hj ▸ lt_irrefl _
        · exact hj ▸ not_lt_of_gt hex
      | j + 3, hj => exact hall (j + 3) a (by omega) hj trivial
  · next hnone =>
    have hlen := List.getElem?_eq_none_iff.1 hnone
    match v, hm with
    | [a, b], hm =>
      obtain rfl : b = m := Option.some.inj hm
      exact ⟨.swap _ _ _, minMax_singleton a⟩
    | _ :: _ :: _ :: _, _ => exact absurd hlen (by simp)

omit [LinearOrder K] in
theorem keyAt_eq_some : v.keyAt pos = some k ↔ ∃ a, v[pos]? = some (k, a) := by
  rw [keyAt, Option.map_eq_some_iff]
  constructor
  · rintro ⟨e, he, rfl⟩
    exact ⟨e.2, he⟩
  · rintro ⟨a, ha⟩
    exact ⟨(k, a), ha, rfl⟩

theorem remove_eq_none (hk : ∀ e ∈ v, e.1 ≠ k) : v.remove cap k = (none, v) := by
  have hat : ∀ i, v.keyAt i ≠ some k := by
    intro i h
    obtain ⟨a, ha⟩ := keyAt_eq_some.1 h
    exact hk _ (List.mem_of_getElem? ha) rfl
  rw [remove, if_neg (hat 0), if_neg (fun h => hat 1 h.2), find_eq_none.2 hk]

/-- Removing a key leaves the other pairs. -/
theorem remove_eq_some (hv : MinMax v) (hd : Distinct v) (hcap : v.length ≤ cap) {a : V}
    (ha : (k, a) ∈ v) :
    ∃ v', v.remove cap k = (some a, v') ∧ ((k, a) :: v').Perm v ∧ MinMax v' := by
  have hval : ∀ {i : ℕ} {b : V}, v[i]? = some (k, b) → v[i]? = some (k, a) := by
    intro i b hb
    rw [hb, hd.eq_of_mem (List.mem_of_getElem? hb) ha rfl]
  rw [remove]
  split
  · next h0 =>
    obtain ⟨b, hb⟩ := keyAt_eq_some.1 h0
    rw [hval hb]
    exact ⟨_, rfl, pull_min hv hd (hval hb)⟩
  · next h0 =>
    split
    · next h1 =>
      obtain ⟨b, hb⟩ := keyAt_eq_some.1 h1.2
      rw [hval hb]
      exact ⟨_, rfl, pull_max hv hd (hval hb)⟩
    · next h1 =>
      cases hf : v.find k with
      | none => exact absurd rfl (find_eq_none.1 hf _ ha)
      | some pos =>
        obtain ⟨b, hb⟩ := find_eq_some hf
        have hlt := (List.getElem?_eq_some_iff.1 hb).1
        -- the key is in neither slot, and they stay
        have hpos0 : pos ≠ 0 := fun h => h0 (keyAt_eq_some.2 ⟨b, h ▸ hb⟩)
        have hpos1 : pos ≠ 1 := fun h => h1 ⟨by omega, keyAt_eq_some.2 ⟨b, h ▸ hb⟩⟩
        have hp := fillGap_perm (hval hb)
        have hstay : ∀ i, i < 2 → (v.fillGap pos)[i]? = v[i]? := fun i hi =>
          getElem?_fillGap (by omega) (by omega)
        dsimp only
        rw [hval hb]
        refine ⟨_, rfl, hp, fun m hm e he => ?_, fun m hm e he => ?_⟩
        · exact hv.min m (hstay 0 (by omega) ▸ hm) e (hd.mem_rest hp he).1
        · exact hv.max m (hstay 1 (by omega) ▸ hm) e (hd.mem_rest hp he).1

theorem contains_eq_some (hd : Distinct v) {a : V} (ha : (k, a) ∈ v) : v.contains k = some a := by
  rw [contains]
  cases hf : v.find k with
  | none => exact absurd rfl (find_eq_none.1 hf _ ha)
  | some pos =>
    obtain ⟨b, hb⟩ := find_eq_some hf
    dsimp only
    rw [hb, hd.eq_of_mem (List.mem_of_getElem? hb) ha rfl]
    rfl

theorem contains_eq_none (hk : ∀ e ∈ v, e.1 ≠ k) : v.contains k = none := by
  rw [contains, find_eq_none.2 hk]

omit [LinearOrder K] in
theorem maxKey_eq_last (v : VectorUmfra K V) : v.maxKey = v.last := by
  rw [maxKey, last]
  grind

theorem findLte_eq_none (hk : ∀ e ∈ v, k < e.1) : v.findLte k = none := by
  rw [findLte, List.findIdx?_eq_none_iff.2 fun e he => decide_eq_false (not_le.2 (hk e he))]

/-- The pair found has the greatest of the keys not above `k`. -/
theorem findLte_eq_some (hd : Distinct v) (he : e ∈ v) (hek : e.1 ≤ k)
    (hmax : ∀ e' ∈ v, e'.1 ≤ k → e'.1 ≤ e.1) : v.findLte k = some e := by
  rw [findLte]
  cases hf : v.findIdx? (·.1 ≤ k) with
  | none =>
    have := List.findIdx?_eq_none_iff.1 hf e he
    exact absurd hek (of_decide_eq_false this)
  | some i =>
    obtain ⟨hi, hik, hbefore⟩ := List.findIdx?_eq_some_iff_getElem.1 hf
    dsimp only
    rw [List.getElem?_eq_getElem hi]
    dsimp only
    obtain ⟨b, hb, -, hor, hall⟩ := scan_spec (· > ·) (v := v) (P := (· ≤ k))
      (r := fun a b => b < a ∧ a ≤ k) (i := i) (fun a b => and_comm) (List.getElem?_eq_getElem hi)
    rw [hb, Option.some.injEq]
    have hbk : b.1 ≤ k := by
      rcases hor with ⟨rfl, -⟩ | ⟨h, -, -⟩
      · exact of_decide_eq_true hik
      · exact h
    -- no pair is before the first one that is not above `k`
    obtain ⟨j, hj⟩ := List.mem_iff_getElem?.1 he
    have hij : i ≤ j := by
      by_contra hlt
      obtain ⟨hj', rfl⟩ := List.getElem?_eq_some_iff.1 hj
      exact absurd (decide_eq_true hek) (hbefore j (by omega))
    refine hd.eq_of_mem (List.mem_of_getElem? hb) he (le_antisymm ?_ ?_)
    · exact hmax b (List.mem_of_getElem? hb) hbk
    · exact not_lt.1 (hall j e hij hj hek)

/-- The pairs of the victim, above all others, bring its maximum. -/
theorem merge_spec {w : VectorUmfra K V} (hv : MinMax v) (hw : MinMax w)
    (hlt : ∀ e ∈ v, ∀ e' ∈ w, e.1 < e'.1) (hcap : v.length + w.length ≤ cap) :
    (merge cap v w).Perm (v ++ w) ∧ MinMax (merge cap v w) := by
  unfold merge
  split
  · next h =>
    rw [List.eq_nil_of_length_eq_zero h, List.append_nil]
    exact ⟨.refl v, hv⟩
  · next hw0 =>
    split
    · next h =>
      have hv0 : v.length = 0 := by omega
      rw [List.eq_nil_of_length_eq_zero hv0, List.nil_append]
      exact ⟨.refl w, hw⟩
    · next h =>
      match w, hw, hlt with
      | [], _, _ => exact absurd rfl hw0
      | [m], _, hlt =>
        refine ⟨(displace_perm v 1 m).trans (List.perm_append_singleton m v).symm, ?_⟩
        have hm : ∀ e ∈ v, e.1 < m.1 := fun e he => hlt e he m List.mem_cons_self
        match v, hv with
        | [], _ => exact absurd rfl (not_or.1 h).2
        | [a], _ => exact minMax_cons_cons.2 ⟨(hm a (by simp)).le, by simp⟩
        | a :: b :: l, hv =>
          obtain ⟨hab, hl⟩ := minMax_cons_cons.1 hv
          refine minMax_cons_cons.2 ⟨(hm a (by simp)).le, fun e he => ?_⟩
          rcases List.mem_append.1 he with he | he
          · exact ⟨(hl e he).1, (hm e (by simp [he])).le⟩
          · rw [List.mem_singleton.1 he]
            exact ⟨hab, (hm b (by simp)).le⟩
      | m :: x :: rest, hw, hlt =>
        obtain ⟨hmx, hrest⟩ := minMax_cons_cons.1 hw
        have hperm : (displace (v ++ [m]) 1 x ++ rest).Perm (v ++ m :: x :: rest) := by
          calc (displace (v ++ [m]) 1 x ++ rest).Perm (x :: (v ++ [m]) ++ rest) :=
                (displace_perm _ 1 x).append_right rest
            _ |>.Perm ((v ++ [m]) ++ x :: rest) := by
                rw [List.cons_append]
                exact List.perm_middle.symm
            _ |>.Perm (v ++ m :: x :: rest) := by rw [List.append_assoc, List.singleton_append]
        refine ⟨hperm, ?_⟩
        match v, hv with
        | [], _ => exact absurd rfl (not_or.1 h).2
        | [a], _ =>
          have hlow : ∀ e ∈ m :: x :: rest, a.1 < e.1 := hlt a (by simp)
          refine minMax_cons_cons.2 ⟨(hlow x (by simp)).le, fun e he => ?_⟩
          rcases List.mem_cons.1 he with rfl | he
          · exact ⟨(hlow e (by simp)).le, hmx⟩
          · change e ∈ rest at he
            exact ⟨(hlow e (by simp [he])).le, (hrest e he).2⟩
        | a :: b :: l, hv =>
          obtain ⟨hab, hl⟩ := minMax_cons_cons.1 hv
          have hlow : ∀ e ∈ a :: b :: l, e.1 < x.1 := fun e he => hlt e he x (by simp)
          have hmin : ∀ e ∈ m :: x :: rest, a.1 < e.1 := hlt a (by simp)
          refine minMax_cons_cons.2 ⟨(hlow a (by simp)).le, fun e he => ?_⟩
          simp only [List.append_eq, List.mem_append, List.mem_singleton] at he
          rcases he with ((he | rfl) | rfl) | he
          · exact ⟨(hl e he).1, (hlow e (by simp [he])).le⟩
          · exact ⟨(hmin e (by simp)).le, hmx⟩
          · exact ⟨hab, (hlow e (by simp)).le⟩
          · exact ⟨(hmin e (by simp [he])).le, (hrest e he).2⟩

end Operations

/-! ## Halves -/

section Halves

variable (nth : NthElement K V) {v : VectorUmfra K V} {cap : ℕ}

/-- A vector around its median: the pairs before it are not above it, those after it
    not below it, the first pair is the minimum and the last one the maximum. -/
structure Parted (a : VectorUmfra K V) (m : K × V) (b : VectorUmfra K V) : Prop where
  before : ∀ e ∈ a, e.1 ≤ m.1
  after : ∀ e ∈ b, m.1 ≤ e.1
  min : Extreme (· < ·) (a ++ m :: b) 0
  max : LastMax (a ++ m :: b)

omit [LinearOrder K] in
/-- A vector by its ends, and what is between. -/
theorem eq_ends {w : VectorUmfra K V} {a x : K × V} (hw : 2 < w.length) (ha : w[0]? = some a)
    (hx : w[w.length - 1]? = some x) :
    w.take 1 = [a] ∧ w.drop (w.length - 1) = [x] ∧
      w = a :: (w.drop 1).take (w.length - 2) ++ [x] := by
  obtain ⟨h0, rfl⟩ := List.getElem?_eq_some_iff.1 ha
  obtain ⟨h1, rfl⟩ := List.getElem?_eq_some_iff.1 hx
  have htake : w.take 1 = [w[0]] := by rw [List.take_one, List.head?_eq_getElem?, ha]; rfl
  have hdrop : w.drop (w.length - 1) = [w[w.length - 1]] := by
    rw [List.drop_eq_getElem_cons h1, Nat.sub_add_cancel (by omega), List.drop_length]
  refine ⟨htake, hdrop, ?_⟩
  conv => lhs; rw [← List.take_append_drop 1 w, ← List.take_append_drop (w.length - 2) (w.drop 1)]
  rw [List.drop_drop, show 1 + (w.length - 2) = w.length - 1 by omega, htake, hdrop]
  simp

theorem quickselectMedian_spec (hv : MinMax v) (hcap : v.length ≤ cap) (hne : v ≠ []) :
    ∃ a m b, quickselectMedian nth cap v = a ++ m :: b ∧ (a ++ m :: b).Perm v ∧
      a.length = v.length / 2 ∧ Parted a m b := by
  rw [quickselectMedian]
  split
  · next h =>
    obtain ⟨m₀, hm₀⟩ : ∃ m, v[0]? = some m := ⟨_, List.getElem?_eq_getElem (by omega)⟩
    obtain ⟨x, hx⟩ : ∃ x, v[1]? = some x := ⟨_, List.getElem?_eq_getElem (by omega)⟩
    have hget := getElem?_swap (v := v) (n := 1) (m := v.length - 1) (by omega) (by omega)
    have hlen : (v.swap 1 (v.length - 1)).length = v.length := (swap_perm _ _ _).length_eq
    dsimp only
    set w := v.swap 1 (v.length - 1) with hw
    have hwp : w.Perm v := swap_perm _ _ _
    obtain ⟨htake, hdrop, hends⟩ := eq_ends (w := w) (a := m₀) (x := x) (by omega)
      (by rw [hget, if_neg (by omega), if_neg (by omega), hm₀])
      (by rw [hlen, hget, if_neg (by omega), if_pos rfl, hx])
    rw [htake, hdrop]
    set mid := (w.drop 1).take (w.length - 2) with hmid
    have hmidlen : mid.length = v.length - 2 := by
      rw [hmid, List.length_take, List.length_drop]
      omega
    -- the range is permuted around the pair at the position of the median
    set pos := w.length / 2 - 1 with hpos
    have hnp := nth.perm mid pos
    have hnlen := hnp.length_eq
    obtain ⟨m, hm⟩ : ∃ m, (nth.run mid pos)[pos]? = some m :=
      ⟨_, List.getElem?_eq_getElem (by omega)⟩
    have hsplit : nth.run mid pos = (nth.run mid pos).take pos ++
        m :: (nth.run mid pos).drop (pos + 1) := by
      obtain ⟨hlt, rfl⟩ := List.getElem?_eq_some_iff.1 hm
      rw [← List.drop_eq_getElem_cons hlt, List.take_append_drop]
    have hq : [m₀] ++ nth.run mid pos ++ [x] = (m₀ :: (nth.run mid pos).take pos) ++
        m :: ((nth.run mid pos).drop (pos + 1) ++ [x]) := by
      conv => lhs; rw [hsplit]
      simp
    have hqp : ((m₀ :: (nth.run mid pos).take pos) ++
        m :: ((nth.run mid pos).drop (pos + 1) ++ [x])).Perm v := by
      rw [← hq]
      refine (List.Perm.append_right [x] (List.Perm.append_left [m₀] hnp)).trans ?_
      rw [List.singleton_append, ← hends]
      exact hwp
    have hmv : m ∈ v := hqp.mem_iff.1 (by simp)
    refine ⟨_, m, _, hq, hqp, ?_, ?_, ?_, ?_, ?_⟩
    · rw [List.length_cons, List.length_take]
      omega
    · intro e he
      rcases List.mem_cons.1 he with rfl | he
      · exact not_lt.1 (hv.min e hm₀ m hmv)
      · obtain ⟨i, hi, rfl⟩ := List.mem_take_iff_getElem.1 he
        exact nth.before mid pos i _ m (List.getElem?_eq_getElem (by omega)) hm (by omega)
    · intro e he
      rcases List.mem_append.1 he with he | he
      · obtain ⟨i, hi, rfl⟩ := List.mem_drop_iff_getElem.1 he
        exact nth.after mid pos _ _ m (List.getElem?_eq_getElem (by omega)) hm (by omega)
      · rw [List.mem_singleton.1 he]
        exact not_lt.1 (hv.max x hx m hmv)
    · exact .of_eq (m := m₀) rfl fun e he => hv.min m₀ hm₀ e (hqp.mem_iff.1 he)
    · intro l hl e he
      rw [← hq, List.getLast?_concat, Option.some.injEq] at hl
      exact hl ▸ not_lt.1 (hv.max x hx e (hqp.mem_iff.1 he))
  · next h =>
    -- one or two pairs are in order
    match v, hv with
    | [m], hv =>
      refine ⟨[], m, [], rfl, .refl _, by simp, by simp, by simp, hv.min, fun l hl e he => ?_⟩
      rw [List.mem_singleton.1 he, show m = l from Option.some.inj hl]
    | [a, m], hv =>
      have hle := (minMax_cons_cons.1 hv).1
      refine ⟨[a], m, [], rfl, .refl _, by simp, by simpa using hle, by simp, hv.min,
        fun l hl e he => ?_⟩
      obtain rfl : m = l := Option.some.inj hl
      exact not_lt.1 (hv.max m rfl e he)
    | _ :: _ :: _ :: _, _ =>
      rw [List.length_cons, List.length_cons, List.length_cons] at h hcap
      omega

omit [LinearOrder K] in
theorem Extreme.left {better : K → K → Prop} {a b : VectorUmfra K V}
    (h : Extreme better (a ++ b) 0) : Extreme better a 0 := by
  intro m hm e he
  have hlt := (List.getElem?_eq_some_iff.1 hm).1
  exact h m (by rw [List.getElem?_append_left hlt, hm]) e (List.mem_append_left _ he)

theorem LastMax.right {a b : VectorUmfra K V} (h : LastMax (a ++ b)) : LastMax b := by
  intro l hl e he
  exact h l (by rw [List.getLast?_append, hl, Option.some_or]) e (List.mem_append_right _ he)

theorem Parted.lt {a b : VectorUmfra K V} {m : K × V} (h : Parted a m b)
    (hd : Distinct (a ++ m :: b)) {e e' : K × V} (he : e ∈ a) (he' : e' ∈ m :: b) :
    e.1 < e'.1 := by
  rw [Distinct, List.map_append] at hd
  have hne := (List.nodup_append.1 hd).2.2 _ (List.mem_map_of_mem he) _ (List.mem_map_of_mem he')
  refine lt_of_le_of_ne ((h.before e he).trans ?_) hne
  rcases List.mem_cons.1 he' with rfl | he'
  · exact le_rfl
  · exact h.after e' he'

theorem Parted.lt_after {a b : VectorUmfra K V} {m : K × V} (h : Parted a m b)
    (hd : Distinct (a ++ m :: b)) {e : K × V} (he : e ∈ b) : m.1 < e.1 := by
  rw [Distinct, List.map_append, List.map_cons] at hd
  have hne := (List.nodup_cons.1 (List.nodup_append.1 hd).2.1).1
  exact lt_of_le_of_ne (h.after e he) fun hk => hne (hk ▸ List.mem_map_of_mem he)

theorem insertSeq_spec {e : K × V} (hv : MinMax v) (he : ∀ e' ∈ v, e'.1 ≠ e.1)
    (hcap : v.length < cap) : (insertSeq cap v e).Perm (e :: v) ∧ MinMax (insertSeq cap v e) := by
  obtain ⟨v', hok, hp, hm⟩ := insert_eq_ok hv he hcap
  rw [insertSeq, hok]
  exact ⟨hp, hm⟩

/-- The pairs are halved at the median. -/
theorem stealHalf_spec (hv : MinMax v) (hd : Distinct v) (hcap : v.length ≤ cap) :
    ∃ u t, stealHalf nth cap v = (u, t) ∧ (u ++ t).Perm v ∧ u.length = v.length / 2 ∧
      (∀ e ∈ u, ∀ e' ∈ t, e.1 < e'.1) ∧ MinMax u ∧ MinMax t := by
  rcases eq_or_ne v [] with rfl | hne
  · have hq : quickselectMedian nth cap ([] : VectorUmfra K V) = [] := by simp [quickselectMedian]
    refine ⟨[], [], ?_, .refl _, by simp, by simp, minMax_nil, minMax_nil⟩
    simp [stealHalf, hq, findNewMax, findNew, restoreInvariant]
  · obtain ⟨a, m, b, hq, hp, hlen, hpart⟩ := quickselectMedian_spec nth hv hcap hne
    have hplen := hp.length_eq
    rw [List.length_append, List.length_cons] at hplen
    have hhalf : (a ++ m :: b).length / 2 = a.length := by rw [hp.length_eq, hlen]
    rw [stealHalf]
    rw [hq, hhalf, List.take_left, List.drop_left]
    obtain ⟨hup, hum⟩ := findNewMax_spec (show a.length ≤ cap by omega) hpart.min.left
    have htp := restoreInvariant_perm cap (m :: b)
    refine ⟨_, _, rfl, (hup.append htp).trans hp, hup.length_eq.trans hlen, fun e he e' he' => ?_,
      hum, restoreInvariant_minMax (by rw [List.length_cons]; omega) ?_ hpart.max.right⟩
    · exact hpart.lt (hd.perm hp) (hup.mem_iff.1 he) (htp.mem_iff.1 he')
    · refine .of_eq (m := m) rfl fun e he => not_lt.2 ?_
      rcases List.mem_cons.1 he with rfl | he
      · exact le_rfl
      · exact hpart.after e he

/-- The pairs are halved at the median, and the new one goes where it belongs. -/
theorem stealHalfAndInsert_spec {e : K × V} (hv : MinMax v) (hd : Distinct v)
    (hcap : v.length ≤ cap) (hne : v ≠ []) (he : ∀ e' ∈ v, e'.1 ≠ e.1) :
    ∃ u t, stealHalfAndInsert nth cap v e = (u, t) ∧ (u ++ t).Perm (e :: v) ∧
      u.length = v.length / 2 + 1 ∧ (∀ e ∈ u, ∀ e' ∈ t, e.1 < e'.1) ∧ MinMax u ∧ MinMax t := by
  obtain ⟨a, m, b, hq, hp, hlen, hpart⟩ := quickselectMedian_spec nth hv hcap hne
  have hplen := hp.length_eq
  rw [List.length_append, List.length_cons] at hplen
  have hhalf : (a ++ m :: b).length / 2 = a.length := by rw [hp.length_eq, hlen]
  have hd' := hd.perm hp
  have hmem : ∀ e' ∈ a ++ m :: b, e'.1 ≠ e.1 := fun e' he' => he e' (hp.mem_iff.1 he')
  have hmedian : keyAt (a ++ m :: b) a.length = some m.1 := by
    rw [keyAt, List.getElem?_append_right (Nat.le_refl _), Nat.sub_self]
    rfl
  rw [stealHalfAndInsert]
  rw [hq, hhalf, hmedian, Option.any_some]
  split
  · next hlt =>
    -- the pair goes to the victim, below the median
    have hem : e.1 < m.1 := of_decide_eq_true hlt
    rw [List.take_left, List.drop_left]
    obtain ⟨hnp, hnm⟩ := findNewMax_spec (show a.length ≤ cap by omega) hpart.min.left
    obtain ⟨hup, hum⟩ := insertSeq_spec (e := e) hnm
      (fun e' he' => hmem e' (List.mem_append_left _ (hnp.mem_iff.1 he')))
      (show _ < cap by rw [hnp.length_eq]; omega)
    have hup' := hup.trans (hnp.cons e)
    have htp := restoreInvariant_perm cap (m :: b)
    refine ⟨_, _, rfl, (hup'.append htp).trans (hp.cons e), ?_, fun x hx y hy => ?_, hum,
      restoreInvariant_minMax (by rw [List.length_cons]; omega) ?_ hpart.max.right⟩
    · rw [hup'.length_eq, List.length_cons, hlen]
    · have hy' := htp.mem_iff.1 hy
      rcases List.mem_cons.1 (hup'.mem_iff.1 hx) with rfl | hx
      · rcases List.mem_cons.1 hy' with rfl | hy'
        · exact hem
        · exact hem.trans_le (hpart.after y hy')
      · exact hpart.lt hd' hx hy'
    · refine .of_eq (m := m) rfl fun e he => not_lt.2 ?_
      rcases List.mem_cons.1 he with rfl | he
      · exact le_rfl
      · exact hpart.after e he
  · next hlt =>
    -- the pair is stolen, and the victim keeps the median
    have hme : m.1 < e.1 := lt_of_le_of_ne (not_lt.1 fun h => hlt (decide_eq_true h))
      (hmem m (by simp))
    have happ : a ++ m :: b = (a ++ [m]) ++ b := by rw [List.append_assoc, List.singleton_append]
    have hlen' : (a ++ [m]).length = a.length + 1 := by rw [List.length_append,
      List.length_singleton]
    rw [happ, ← hlen', List.take_left, List.drop_left]
    have hrp := restoreInvariant_perm cap b
    obtain ⟨hnp, hnm⟩ := findNewMin_spec (v := restoreInvariant cap b)
      (show _ ≤ cap by rw [hrp.length_eq]; omega)
      (restoreInvariant_max (by omega) (LastMax.right (happ ▸ hpart.max)))
    have hnp' := hnp.trans hrp
    obtain ⟨htp, htm⟩ := insertSeq_spec (e := e) hnm
      (fun e' he' => hmem e' (by simp [hnp'.mem_iff.1 he']))
      (show _ < cap by rw [hnp'.length_eq]; omega)
    have htp' := htp.trans (hnp'.cons e)
    have hup := restoreInvariant_perm cap (a ++ [m])
    refine ⟨_, _, rfl, ?_, ?_, fun x hx y hy => ?_, restoreInvariant_minMax (by omega)
      (Extreme.left (happ ▸ hpart.min)) fun l hl x hx => ?_, htm⟩
    · refine (hup.append htp').trans (List.perm_middle.trans (.cons e ?_))
      rw [← happ]
      exact hp
    · rw [hup.length_eq, hlen', hlen]
    · have hx' : x.1 ≤ m.1 := by
        rcases List.mem_append.1 (hup.mem_iff.1 hx) with hx | hx
        · exact hpart.before x hx
        · rw [List.mem_singleton.1 hx]
      rcases List.mem_cons.1 (htp'.mem_iff.1 hy) with rfl | hy
      · exact hx'.trans_lt hme
      · exact hx'.trans_lt (hpart.lt_after hd' hy)
    · rw [List.getLast?_concat, Option.some.injEq] at hl
      rcases List.mem_append.1 hx with hx | hx
      · exact hl ▸ hpart.before x hx
      · rw [List.mem_singleton.1 hx, hl]

end Halves

/-! ## Splitting -/

section Split

variable {v w : VectorUmfra K V} {cap : ℕ} {k : K} {e : K × V}

theorem lt_of_slots {i : ℕ} (hlen : v.length ≤ i)
    (hlo : ∀ j e, j < i → v[j]? = some e → e.1 < k) (he : e ∈ v) : e.1 < k := by
  obtain ⟨j, hj⟩ := List.mem_iff_getElem?.1 he
  have := (List.getElem?_eq_some_iff.1 hj).1
  exact hlo j e (by omega) hj

/-- The loop keeps the keys of the slots before `i` below `k`. It moves every pair at
    most once, so that there is fuel for all of them. -/
theorem splitLoop_spec (fuel i : ℕ) (hfuel : w.length ≤ fuel + i) (hi : 2 ≤ i)
    (hlen : i ≤ w.length) (hk : ∀ e ∈ w, e.1 ≠ k)
    (hlo : ∀ j e, j < i → w[j]? = some e → e.1 < k) :
    ∃ u t, splitLoop k fuel w i v = (u, v ++ t) ∧ (u ++ t).Perm w ∧
      (∀ e ∈ u, e.1 < k) ∧ (∀ e ∈ t, k < e.1) ∧ ∀ j, j < 2 → u[j]? = w[j]? := by
  induction fuel generalizing w i v with
  | zero =>
    refine ⟨w, [], by rw [splitLoop, List.append_nil], by rw [List.append_nil],
      fun e he => lt_of_slots (by omega) hlo he, by simp, fun _ _ => rfl⟩
  | succ fuel ih =>
    rw [splitLoop]
    split
    · next e l he hl =>
      have hlt := (List.getElem?_eq_some_iff.1 he).1
      split
      · next hek =>
        -- the pair stays
        refine ih (i + 1) (by omega) (by omega) (by omega) hk fun j a hj ha => ?_
        rcases Nat.lt_succ_iff_lt_or_eq.1 hj with hj | rfl
        · exact hlo j a hj ha
        · rw [he, Option.some.injEq] at ha
          exact ha ▸ hek
      · next hek =>
        split
        · next hkl =>
          -- the last pair goes
          obtain ⟨w', rfl⟩ := List.getLast?_eq_some_iff.1 hl
          rw [List.length_append, List.length_singleton] at hfuel hlen hlt
          rw [List.dropLast_concat]
          have hget : ∀ j, j < w'.length → (w' ++ [l])[j]? = w'[j]? := fun j hj =>
            List.getElem?_append_left hj
          obtain ⟨u, t, heq, hp, hu, ht, hstay⟩ := ih (w := w') (v := v ++ [l]) i (by omega) hi
            (by omega) (fun a ha => hk a (List.mem_append_left _ ha))
            (fun j a hj ha => hlo j a hj (by rw [hget j (by omega), ha]))
          refine ⟨u, l :: t, ?_, ?_, hu, ?_, fun j hj => ?_⟩
          · rw [heq, List.append_assoc, List.singleton_append]
          · exact List.perm_middle.trans ((hp.cons l).trans (List.perm_append_singleton l w').symm)
          · intro a ha
            rcases List.mem_cons.1 ha with rfl | ha
            · exact hkl
            · exact ht a ha
          · rw [hstay j hj, hget j (by omega)]
        · next hkl =>
          -- the pair goes, and the last one, which stays, takes its slot
          have hke : k < e.1 :=
            lt_of_le_of_ne (not_lt.1 hek) (hk e (List.mem_of_getElem? he)).symm
          have hlk : l.1 < k := lt_of_le_of_ne (not_lt.1 hkl) (hk l (List.mem_of_getLast? hl))
          have hgap : (w.set i l).dropLast = w.fillGap i := by rw [fillGap, hl]
          have hp := fillGap_perm he
          have hlast : i + 1 < w.length := by
            by_contra hge
            rw [List.getLast?_eq_getElem?, show w.length - 1 = i by omega, he,
              Option.some.injEq] at hl
            exact absurd (hl ▸ hlk) (not_lt_of_gt hke)
          have hgaplen := length_fillGap w i
          obtain ⟨u, t, heq, hp', hu, ht, hstay⟩ := ih (w := w.fillGap i) (v := v ++ [e])
            (i + 1) (by omega) (by omega) (by omega)
            (fun a ha => hk a (hp.mem_iff.1 (List.mem_cons_of_mem _ ha))) fun j a hj ha => by
              rcases Nat.lt_succ_iff_lt_or_eq.1 hj with hj | rfl
              · rw [getElem?_fillGap hj.ne (by omega)] at ha
                exact hlo j a hj ha
              · rw [← hgap, List.getElem?_dropLast, List.length_set, if_pos (by omega),
                  List.getElem?_set_self hlt, Option.some.injEq] at ha
                exact ha ▸ hlk
          refine ⟨u, e :: t, ?_, ?_, hu, ?_, fun j hj => ?_⟩
          · rw [hgap, heq, List.append_assoc, List.singleton_append]
          · exact List.perm_middle.trans ((hp'.cons e).trans hp)
          · intro a ha
            rcases List.mem_cons.1 ha with rfl | ha
            · exact hke
            · exact ht a ha
          · rw [hstay j hj, getElem?_fillGap (by omega) (by omega)]
    · next hnone =>
      have hge : w.length ≤ i := by
        by_contra hlt
        obtain ⟨l, hl⟩ : ∃ l, w.getLast? = some l :=
          ⟨_, List.getLast?_eq_some_getLast (List.ne_nil_of_length_pos (by omega))⟩
        exact hnone _ l (List.getElem?_eq_getElem (by omega)) hl
      exact ⟨w, [], by rw [List.append_nil], by rw [List.append_nil],
        fun e he => lt_of_slots hge hlo he, by simp, fun _ _ => rfl⟩

theorem elementsToSteal_eq (hcap : v.length ≤ cap) :
    v.elementsToSteal cap k = v.countP (k < ·.1) := by
  match v with
  | [] => simp [elementsToSteal, keyAt]
  | [m] => simp [elementsToSteal, keyAt, List.countP_singleton]
  | m :: x :: l =>
    rw [List.length_cons, List.length_cons] at hcap
    simp only [elementsToSteal, keyAt, List.getElem?_cons_zero, List.getElem?_cons_succ,
      Option.map_some, Option.any_some, List.drop_succ_cons, List.drop_zero, List.countP_cons,
      show 2 ≤ cap by omega, true_and, decide_eq_true_eq]
    omega

/-- The pairs of `v` and the new one, split at it. -/
structure IsSplit (v : VectorUmfra K V) (e : K × V) (u t : VectorUmfra K V) : Prop where
  perm : (u ++ t).Perm (e :: v)
  cut : Cut e.1 u t
  keeps : MinMax u
  steals : MinMax t

section Cases

variable {m x : K × V} {rest : VectorUmfra K V} (hv : MinMax (m :: x :: rest))

include hv

/-- All pairs are above the new one. -/
theorem isSplit_all (hall : ∀ a ∈ m :: x :: rest, e.1 < a.1) :
    IsSplit (m :: x :: rest) e [] (e :: x :: m :: rest) := by
  have hmem : ∀ a ∈ x :: m :: rest, a ∈ m :: x :: rest := fun a ha =>
    (List.Perm.swap m x rest).mem_iff.1 ha
  refine ⟨.cons e (.swap _ _ _), ⟨by simp, fun a ha => ?_⟩, minMax_nil,
    minMax_cons_cons.2 ⟨(hall x (by simp)).le, fun a ha => ?_⟩⟩
  · rcases List.mem_cons.1 ha with rfl | ha
    · exact le_rfl
    · exact (hall a (hmem a ha)).le
  · have ha' := hmem a (List.mem_cons_of_mem _ ha)
    exact ⟨(hall a ha').le, not_lt.1 (hv.max x rfl a ha')⟩

/-- All pairs but the minimum are above the new one. -/
theorem isSplit_min (hme : m.1 < e.1) (habove : ∀ a ∈ x :: rest, e.1 < a.1) :
    IsSplit (m :: x :: rest) e [m] (e :: x :: rest) := by
  refine ⟨.swap _ _ _, ⟨by simpa using hme, fun a ha => ?_⟩, minMax_singleton m,
    minMax_cons_cons.2 ⟨(habove x (by simp)).le, fun a ha => ?_⟩⟩
  · rcases List.mem_cons.1 ha with rfl | ha
    · exact le_rfl
    · exact (habove a ha).le
  · exact ⟨(habove a (by simp [ha])).le, ((minMax_cons_cons.1 hv).2 a ha).2⟩

/-- Of the pairs besides the maximum, which is above the new one, some are split off
    by the loop, and the biggest of the others is in the slot of the maximum. -/
theorem isSplit_loop (hd : Distinct (m :: x :: rest)) (he : ∀ a ∈ m :: x :: rest, a.1 ≠ e.1)
    (hme : m.1 < e.1) (hex : e.1 < x.1) {y : K × V} {pos : ℕ} (hpos : 2 ≤ pos)
    (hy : (m :: x :: rest)[pos]? = some y) (hye : y.1 < e.1)
    (hall : ∀ j a, 2 ≤ j → (m :: x :: rest)[j]? = some a → a.1 < e.1 → ¬ a.1 > y.1) :
    ∃ u t, splitLoop e.1 (moveTo (m :: x :: rest) 1 pos).length (moveTo (m :: x :: rest) 1 pos) 2
      [e, x] = (u, t) ∧ IsSplit (m :: x :: rest) e u t := by
  have hposlt := (List.getElem?_eq_some_iff.1 hy).1
  have hp : (x :: moveTo (m :: x :: rest) 1 pos).Perm (m :: x :: rest) :=
    moveTo_perm rfl hy (by omega)
  have hslot0 : (moveTo (m :: x :: rest) 1 pos)[0]? = some m :=
    getElem?_moveTo hy (by omega) (by omega) (by omega)
  have hslot1 : (moveTo (m :: x :: rest) 1 pos)[1]? = some y :=
    getElem?_moveTo_slot hy (by omega)
  have hlen : (moveTo (m :: x :: rest) 1 pos).length = (m :: x :: rest).length - 1 :=
    length_moveTo hy
  set kept := moveTo (m :: x :: rest) 1 pos
  obtain ⟨u, t, heq, hut, hu, ht, hstay⟩ := splitLoop_spec (k := e.1) (v := [e, x]) (w := kept)
    kept.length 2 (by omega) (by omega) (by omega)
    (fun a ha => he a (hd.mem_rest hp ha).1) fun j a hj ha => by
      match j, hj with
      | 0, _ => exact (Option.some.inj (hslot0.symm.trans ha)) ▸ hme
      | 1, _ => exact (Option.some.inj (hslot1.symm.trans ha)) ▸ hye
  have hmem : ∀ a ∈ u ++ t, a ∈ m :: x :: rest ∧ a.1 ≠ x.1 := fun a ha =>
    hd.mem_rest hp (hut.mem_iff.1 ha)
  refine ⟨u, [e, x] ++ t, heq, ?_, ⟨hu, fun a ha => ?_⟩, ⟨?_, ?_⟩,
    minMax_cons_cons.2 ⟨hex.le, fun a ha => ?_⟩⟩
  · calc (u ++ ([e, x] ++ t)).Perm (e :: (u ++ x :: t)) := List.perm_middle
      _ |>.Perm (e :: x :: (u ++ t)) := List.perm_middle.cons e
      _ |>.Perm (e :: x :: kept) := (hut.cons x).cons e
      _ |>.Perm (e :: m :: x :: rest) := hp.cons e
  · rcases List.mem_cons.1 ha with rfl | ha
    · exact le_rfl
    · rcases List.mem_cons.1 ha with rfl | ha
      · exact hex.le
      · exact (ht a ha).le
  · refine .of_eq ((hstay 0 (by omega)).trans hslot0) fun a ha => ?_
    exact hv.min m rfl a (hmem a (List.mem_append_left _ ha)).1
  · -- the pairs below the new one were all looked at
    refine .of_eq ((hstay 1 (by omega)).trans hslot1) fun a ha => ?_
    obtain ⟨hav, hax⟩ := hmem a (List.mem_append_left _ ha)
    obtain ⟨j, hj⟩ := List.mem_iff_getElem?.1 hav
    match j, hj with
    | 0, hj => exact (Option.some.inj hj) ▸ hv.min m rfl y (List.mem_of_getElem? hy)
    | 1, hj => exact absurd (congrArg Prod.fst (Option.some.inj hj)).symm hax
    | j + 2, hj => exact hall (j + 2) a (by omega) hj (hu a ha)
  · exact ⟨(ht a ha).le, not_lt.1 (hv.max x rfl a (hmem a (List.mem_append_right _ ha)).1)⟩

end Cases

/-- The pairs are split at the new one, whichever of them are above it. -/
theorem splitInsert_spec (hv : MinMax v) (hd : Distinct v) (hcap : v.length ≤ cap)
    (he : ∀ a ∈ v, a.1 ≠ e.1) (hfit : v.countP (e.1 < ·.1) + 1 ≤ cap) :
    ∃ u t, splitInsert cap v e = (u, t) ∧ IsSplit v e u t := by
  have hlt_of : ∀ a ∈ v, ¬ e.1 < a.1 → a.1 < e.1 := fun a ha h =>
    lt_of_le_of_ne (not_lt.1 h) (he a ha)
  unfold splitInsert
  rw [elementsToSteal_eq hcap]
  dsimp only
  set n := v.countP (e.1 < ·.1) with hn
  split
  · -- no pair is above the new one
    have hn0 : n = 0 := by omega
    have hall : ∀ a ∈ v, ¬ e.1 < a.1 := fun a ha h =>
      List.countP_eq_zero.1 (hn ▸ hn0) a ha (decide_eq_true h)
    exact ⟨v, [e], rfl, List.perm_append_singleton e v,
      ⟨fun a ha => hlt_of a ha (hall a ha), by simp⟩, hv, minMax_singleton e⟩
  · next hn0 =>
    match v, hv with
    | [], _ => exact absurd (.inr (hn.trans rfl)) hn0
    | [m], _ =>
      have hem : e.1 < m.1 := by
        by_contra h
        exact hn0 (.inr (hn.trans (by simp [h])))
      have hn1 : n = 1 := hn.trans (by simp [hem])
      dsimp only
      rw [if_pos hn1]
      exact ⟨[], [e, m], rfl, .refl _, ⟨by simp, by simpa using hem.le⟩, minMax_nil,
        minMax_cons_cons.2 ⟨hem.le, by simp⟩⟩
    | m :: x :: rest, hv =>
      have hmin : ∀ a ∈ m :: x :: rest, m.1 ≤ a.1 := fun a ha => not_lt.1 (hv.min m rfl a ha)
      -- some pair is above the new one, so that the maximum is
      have hex : e.1 < x.1 := by
        by_contra h
        refine hn0 (.inr (hn.trans (List.countP_eq_zero.2 fun a ha => ?_)))
        exact fun ha' => h ((of_decide_eq_true ha').trans_le (not_lt.1 (hv.max x rfl a ha)))
      dsimp only
      split
      · next hlen =>
        rw [show n - 2 = rest.length by rw [hlen]; rfl, List.take_length]
        exact ⟨_, _, rfl, isSplit_all hv fun a ha =>
          of_decide_eq_true (List.countP_eq_length.1 (hn.symm.trans hlen) a ha)⟩
      · next hlen =>
        -- some pair is not above it, so that the minimum is not
        have hme : m.1 < e.1 := by
          refine hlt_of m (by simp) fun h => hlen (hn.trans (List.countP_eq_length.2
            fun a ha => ?_))
          exact decide_eq_true (h.trans_le (hmin a ha))
        obtain ⟨y, hy, hykey, hor, hall⟩ := scan_spec (· > ·) (v := m :: x :: rest)
          (P := (· < e.1)) (r := fun a b => a < e.1 ∧ b < a) (i := 2) (p := 0) (m := m)
          (fun a b => Iff.rfl) rfl
        rw [List.drop_succ_cons, List.drop_succ_cons, List.drop_zero] at hy hykey hor
        split
        · next hnew =>
          have hym : y = m := hd.eq_of_mem (List.mem_of_getElem? hy) (by simp) (hykey ▸ hnew)
          have habove : ∀ a ∈ x :: rest, e.1 < a.1 := by
            intro a ha
            rcases List.mem_cons.1 ha with rfl | ha
            · exact hex
            · by_contra h
              obtain ⟨j, hj⟩ := List.mem_iff_getElem?.1 ha
              have hj' : (m :: x :: rest)[j + 2]? = some a := hj
              have hle : ¬ a.1 > y.1 := hall (j + 2) a (by omega) hj' (hlt_of a (by simp [ha]) h)
              have heq : a.1 = m.1 := le_antisymm (hym ▸ not_lt.1 hle) (hmin a (by simp [ha]))
              exact absurd (hd.slot_unique (j := 0) hj' rfl heq) (by omega)
          have hnlen : n = (x :: rest).length := by
            rw [hn, List.countP_cons_of_neg (by simpa using hme.le), List.countP_eq_length]
            exact fun a ha => decide_eq_true (habove a ha)
          rw [hnlen, List.take_length]
          exact ⟨_, _, rfl, isSplit_min hv hme habove⟩
        · next hnew =>
          obtain ⟨hye, hmy, hpos⟩ := hor.resolve_left fun h => hnew (by rw [hykey, h.1])
          exact isSplit_loop hv hd he hme hex hpos hy hye hall

end Split

end VectorUmfra

end DiscoSkip
