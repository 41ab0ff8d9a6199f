import Mathlib.Data.Int.Notation
import DiscoSkip.Lib.KeySorted

/-!
# Chunks

The chunk of a skip-vector node: a sorted vector of key/value pairs of a fixed
capacity (`vector_sfra`). A vector is the list of the pairs it holds; its size is
the length of the list.

Everything is by the position `find` returns, of a binary search: in a sorted
vector, that is where the key cuts it (`find_spec`). The lemmas say what the
other operations do by this cut.
-/

namespace DiscoSkip

open Lib

/-- The pairs a chunk holds. -/
abbrev VectorSfra (K V : Type*) := List (K × V)

namespace VectorSfra

variable {K V : Type*} [LinearOrder K]

/-- The loop of the binary search, between `left` and `right`. -/
def findLoop (v : VectorSfra K V) (k : K) : ℕ → ℤ → ℤ → ℤ
  | 0, left, _ => left
  | fuel + 1, left, right =>
    if left ≤ right then
      let mid := left + (right - left) / 2
      match v[mid.toNat]? with
      | some e =>
        if e.1 = k then mid
        else if k < e.1 then findLoop v k fuel left (mid - 1)
        else findLoop v k fuel (mid + 1) right
      | none => left
    else left

/-- The position of a key, or the one it should be inserted at; `size` for the end. -/
def find (v : VectorSfra K V) (k : K) : ℕ := (v.findLoop k v.length 0 (v.length - 1)).toNat

/-- The key at a position, if there is one. -/
def keyAt (v : VectorSfra K V) (pos : ℕ) : Option K := v[pos]?.map Prod.fst

def contains (v : VectorSfra K V) (k : K) : Bool := v.keyAt (v.find k) = some k

/-- The minimum key; of an empty vector, the source returns junk. -/
def first (v : VectorSfra K V) : Option K := v.head?.map Prod.fst

def last (v : VectorSfra K V) : Option K := v.getLast?.map Prod.fst

/-- The pair with the biggest key that is not above `k`. -/
def findLte (v : VectorSfra K V) (k : K) : Option (K × V) :=
  let pos := v.find k
  match v[pos]? with
  | some e => if k < e.1 then (if pos = 0 then none else v[pos - 1]?) else some e
  | none => if pos = 0 then none else v[pos - 1]?

/-- The value of a key, if it is there (`contains`, with a value to return). -/
def containsValue (v : VectorSfra K V) (k : K) : Option V :=
  match v[v.find k]? with
  | some e => if e.1 = k then some e.2 else none
  | none => none

/-- The maximum key; of an empty vector, there is an exception. -/
def maxKey (v : VectorSfra K V) : Option K := v.getLast?.map Prod.fst

/-- What inserting a pair does. -/
inductive Inserted (K V : Type*)
  | exists
  | overfull
  | ok (v : VectorSfra K V)

/-- Inserting a pair into a vector of the capacity `cap`. -/
def insert (cap : ℕ) (v : VectorSfra K V) (e : K × V) : Inserted K V :=
  let pos := v.find e.1
  if v.keyAt pos = some e.1 then .exists
  else if v.length = cap then .overfull
  else .ok (v.take pos ++ e :: v.drop pos)

/-- Removing a key: its value, if it was there, and what is left. -/
def remove (v : VectorSfra K V) (k : K) : Option V × VectorSfra K V :=
  let pos := v.find k
  match v[pos]? with
  | some e => if e.1 = k then (some e.2, v.eraseIdx pos) else (none, v)
  | none => (none, v)

/-- Stealing the pairs above that of `e` from the victim, with `e` as the first
    one: what the victim keeps, and what is stolen. -/
def splitInsert (victim : VectorSfra K V) (e : K × V) : VectorSfra K V × VectorSfra K V :=
  let startPos := victim.find e.1
  (victim.take startPos, e :: victim.drop startPos)

/-- Stealing the pairs from the key `k` on, if there are any. -/
def splitAt (victim : VectorSfra K V) (k : K) : Option (VectorSfra K V × VectorSfra K V) :=
  let startPos := victim.find k
  if victim.length ≤ startPos then none
  else some (victim.take startPos, victim.drop startPos)

/-- Stealing the latter half. -/
def stealHalf (victim : VectorSfra K V) : VectorSfra K V × VectorSfra K V :=
  let medianPos := victim.length / 2
  (victim.take medianPos, victim.drop medianPos)

/-- Stealing the latter half, and inserting a pair on its side of the median. -/
def stealHalfAndInsert (cap : ℕ) (victim : VectorSfra K V) (e : K × V) :
    VectorSfra K V × VectorSfra K V :=
  let insertPos := victim.find e.1
  let medianPos := victim.length / 2
  if insertPos ≤ medianPos then
    let kept := victim.take medianPos
    (match VectorSfra.insert cap kept e with
      | .ok v => v
      | .exists | .overfull => kept, victim.drop medianPos)
  else
    let firstToSteal := medianPos + 1
    let firstBatchSize := insertPos - firstToSteal
    (victim.take firstToSteal, (victim.drop firstToSteal).take firstBatchSize ++
      e :: victim.drop (firstToSteal + firstBatchSize))

/-- Stealing all pairs of the victim, which are above those of `v`. -/
def merge (v victim : VectorSfra K V) : VectorSfra K V := v ++ victim

/-! ## The binary search -/

variable {v lo hi : VectorSfra K V} {k : K}

omit [LinearOrder K] in
theorem keyAt_eq_some {pos : ℕ} : v.keyAt pos = some k ↔ ∃ e, v[pos]? = some e ∧ e.1 = k := by
  rw [keyAt, Option.map_eq_some_iff]

omit [LinearOrder K] in
theorem first_eq_some : v.first = some k ↔ ∃ x t, v = (k, x) :: t := by
  rcases v with _ | ⟨⟨k', x⟩, t⟩ <;> simp [first]

/-- The first key is the least. -/
theorem first_le (hv : KeySorted v) (hk : v.first = some k) {e : K × V} (he : e ∈ v) :
    k ≤ e.1 := by
  obtain ⟨x, t, rfl⟩ := first_eq_some.1 hk
  exact hv.head_le he

omit [LinearOrder K] in
/-- The last key is one of the keys. -/
theorem exists_mem_of_last (hk : v.last = some k) : ∃ e ∈ v, e.1 = k := by
  obtain ⟨e, he, rfl⟩ := Option.map_eq_some_iff.1 hk
  exact ⟨e, List.mem_of_getLast? he, rfl⟩

omit [LinearOrder K] in
theorem first_append (hk : lo.first = some k) (hi : VectorSfra K V) :
    (lo ++ hi).first = some k := by
  obtain ⟨x, t, rfl⟩ := first_eq_some.1 hk
  exact first_eq_some.2 ⟨x, t ++ hi, rfl⟩

/-- A first key that is not above the key of a cut is below it, or is this key. -/
theorem first_of_cut (hc : Cut k lo hi) {f : K} (hf : (lo ++ hi).first = some f) (hfk : f ≤ k) :
    lo.first = some f ∨ lo = [] ∧ hi.first = some k := by
  cases lo with
  | nil =>
    obtain ⟨x, t, hhi⟩ := first_eq_some.1 hf
    rw [List.nil_append] at hhi
    have hkf : k ≤ f := hc.hi (f, x) (hhi ▸ List.mem_cons_self)
    exact .inr ⟨rfl, hf.trans (congrArg some (le_antisymm hfk hkf))⟩
  | cons e lo => exact .inl hf

/-- The binary search keeps the keys before `left` below `k`, and those after
    `right` above it. -/
theorem findLoop_spec (k : K) (fuel : ℕ) (left right : ℤ) (hv : KeySorted v) (hl : 0 ≤ left)
    (hr : right < v.length) (hlr : left ≤ right + 1) (hfuel : right - left < fuel)
    (hlo : ∀ i : ℕ, i < left → ∀ e, v[i]? = some e → e.1 < k)
    (hhi : ∀ i : ℕ, right < i → ∀ e, v[i]? = some e → k ≤ e.1) :
    0 ≤ v.findLoop k fuel left right ∧ v.findLoop k fuel left right ≤ v.length ∧
      (∀ i : ℕ, i < v.findLoop k fuel left right → ∀ e, v[i]? = some e → e.1 < k) ∧
      ∀ i : ℕ, v.findLoop k fuel left right ≤ i → ∀ e, v[i]? = some e → k ≤ e.1 := by
  induction fuel generalizing left right with
  | zero =>
    rw [findLoop]
    exact ⟨hl, by omega, hlo, fun i hi => hhi i (by omega)⟩
  | succ fuel ih =>
    rw [findLoop]
    split
    · next hle =>
      have hmid : 0 ≤ left + (right - left) / 2 ∧ left + (right - left) / 2 ≤ right ∧
          left ≤ left + (right - left) / 2 := by omega
      set mid := left + (right - left) / 2
      have hlt : mid.toNat < v.length := by omega
      dsimp only
      rw [List.getElem?_eq_getElem hlt]
      dsimp only
      -- the keys before and after the middle are below and above that of the middle
      have hbefore : ∀ i : ℕ, i < mid → ∀ e, v[i]? = some e → e.1 < v[mid.toNat].1 := by
        intro i hi e he
        obtain ⟨hi', rfl⟩ := List.getElem?_eq_some_iff.1 he
        exact List.pairwise_iff_getElem.1 hv i mid.toNat hi' hlt (by omega)
      have hafter : ∀ i : ℕ, mid < i → ∀ e, v[i]? = some e → v[mid.toNat].1 < e.1 := by
        intro i hi e he
        obtain ⟨hi', rfl⟩ := List.getElem?_eq_some_iff.1 he
        exact List.pairwise_iff_getElem.1 hv mid.toNat i hlt hi' (by omega)
      have hself : ∀ i : ℕ, (i : ℤ) = mid → ∀ e, v[i]? = some e → e = v[mid.toNat] := by
        intro i hi e he
        obtain ⟨hi', rfl⟩ := List.getElem?_eq_some_iff.1 he
        congr 1
        omega
      split
      · next hk =>
        refine ⟨by omega, by omega, fun i hi e he => hk ▸ hbefore i hi e he, fun i hi e he => ?_⟩
        rcases (show (i : ℤ) = mid ∨ mid < i by omega) with hi | hi
        · rw [hself i hi e he, hk]
        · exact (hk ▸ hafter i hi e he).le
      · next hne =>
        split
        · next hk =>
          refine ih left (mid - 1) hl (by omega) (by omega) (by omega) hlo fun i hi e he => ?_
          rcases (show (i : ℤ) = mid ∨ mid < i by omega) with hi | hi
          · rw [hself i hi e he]
            exact hk.le
          · exact (hk.trans (hafter i hi e he)).le
        · next hk =>
          have hk' : v[mid.toNat].1 < k := lt_of_le_of_ne (not_lt.1 hk) hne
          refine ih (mid + 1) right (by omega) hr (by omega) (by omega) (fun i hi e he => ?_) hhi
          rcases (show (i : ℤ) = mid ∨ (i : ℤ) < mid by omega) with hi | hi
          · rw [hself i hi e he]
            exact hk'
          · exact (hbefore i hi e he).trans hk'
    · next hle => exact ⟨hl, by omega, hlo, fun i hi => hhi i (by omega)⟩

/-- The position of a key is where it cuts the vector. -/
theorem find_spec (hv : KeySorted v) (k : K) :
    v.find k ≤ v.length ∧ Cut k (v.take (v.find k)) (v.drop (v.find k)) := by
  obtain ⟨h0, hle, hlo, hhi⟩ := findLoop_spec k v.length 0 (v.length - 1) hv (by omega) (by omega)
    (by omega) (by omega) (fun i hi => by omega) fun i hi e he => by
      obtain ⟨hi', _⟩ := List.getElem?_eq_some_iff.1 he
      omega
  have hfind : (v.find k : ℤ) = v.findLoop k v.length 0 (v.length - 1) := Int.toNat_of_nonneg h0
  refine ⟨by omega, fun e he => ?_, fun e he => ?_⟩
  · obtain ⟨i, hi, rfl⟩ := List.mem_take_iff_getElem.1 he
    exact hlo i (by omega) _ (List.getElem?_eq_getElem (by omega))
  · obtain ⟨i, hi, rfl⟩ := List.mem_drop_iff_getElem.1 he
    exact hhi (v.find k + i) (by omega) _ (List.getElem?_eq_getElem (by omega))

/-- The position of a key, by the cut. -/
theorem find_eq (hv : KeySorted (lo ++ hi)) (hc : Cut k lo hi) : (lo ++ hi).find k = lo.length := by
  obtain ⟨hle, hc'⟩ := find_spec hv k
  have h := (hc.unique hc' (List.take_append_drop _ _).symm).1
  have hlen := congrArg List.length h
  rw [List.length_take, Nat.min_eq_left hle] at hlen
  exact hlen.symm

/-! ## The operations -/

section Operations

variable (hv : KeySorted (lo ++ hi)) (hc : Cut k lo hi)

include hv hc

theorem keyAt_find : (lo ++ hi).keyAt ((lo ++ hi).find k) = hi.first := by
  rw [find_eq hv hc, keyAt, List.getElem?_append_right (Nat.le_refl _), Nat.sub_self, first,
    List.head?_eq_getElem?]

/-- A key is there if it is the first one that is not below itself. -/
theorem mem_iff_first : (∃ e ∈ lo ++ hi, e.1 = k) ↔ hi.first = some k := by
  constructor
  · rintro ⟨e, he, rfl⟩
    rcases List.mem_append.1 he with he | he
    · exact absurd (hc.lo e he) (lt_irrefl _)
    · cases hi with
      | nil => exact absurd he List.not_mem_nil
      | cons x hi =>
        exact congrArg some (le_antisymm (hv.right.head_le he) (hc.hi x List.mem_cons_self))
  · intro h
    obtain ⟨e, he, rfl⟩ := Option.map_eq_some_iff.1 h
    exact ⟨e, List.mem_append_right _ (List.mem_of_mem_head? he), rfl⟩

theorem contains_eq_true : (lo ++ hi).contains k = true ↔ hi.first = some k := by
  rw [contains, keyAt_find hv hc, decide_eq_true_iff]

theorem splitInsert_eq (x : V) : (lo ++ hi).splitInsert (k, x) = (lo, (k, x) :: hi) := by
  rw [splitInsert]
  dsimp only
  rw [find_eq hv hc, List.take_left, List.drop_left]

theorem splitAt_eq (hne : hi ≠ []) : (lo ++ hi).splitAt k = some (lo, hi) := by
  have hpos := List.length_pos_iff.2 hne
  rw [splitAt]
  rw [find_eq hv hc, List.take_left, List.drop_left, if_neg (by rw [List.length_append]; omega)]

theorem insert_eq_exists (h : hi.first = some k) (cap : ℕ) (x : V) :
    (lo ++ hi).insert cap (k, x) = .exists := by
  rw [insert]
  dsimp only
  rw [keyAt_find hv hc, if_pos h]

theorem insert_eq_overfull (h : hi.first ≠ some k) {cap : ℕ} (hcap : (lo ++ hi).length = cap)
    (x : V) : (lo ++ hi).insert cap (k, x) = .overfull := by
  rw [insert]
  dsimp only
  rw [keyAt_find hv hc, if_neg h, if_pos hcap]

theorem insert_eq_ok (h : hi.first ≠ some k) {cap : ℕ} (hcap : (lo ++ hi).length ≠ cap)
    (x : V) : (lo ++ hi).insert cap (k, x) = .ok (lo ++ (k, x) :: hi) := by
  rw [insert]
  dsimp only
  rw [keyAt_find hv hc, if_neg h, if_neg hcap, find_eq hv hc, List.take_left, List.drop_left]

/-- The halves, with the pair inserted, are the vector with the pair inserted, cut
    after one more than half of it. -/
theorem stealHalfAndInsert_spec (h : hi.first ≠ some k) {cap n : ℕ} (hn : (lo ++ hi).length = n)
    (hpos : 0 < n) (hcap : n ≤ cap) (x : V) :
    ∃ a b, (lo ++ hi).stealHalfAndInsert cap (k, x) = (a, b) ∧ a ++ b = lo ++ (k, x) :: hi ∧
      a.length = n / 2 + 1 ∧ b.length = n - n / 2 := by
  have hfind := find_eq hv hc
  have hlen : lo.length + hi.length = n := by rw [← hn, List.length_append]
  rw [stealHalfAndInsert]
  dsimp only
  rw [hfind, hn]
  split
  · next hle =>
    -- the pair goes to the first half, which is a cut of the same key
    have htake : (lo ++ hi).take (n / 2) = lo ++ hi.take (n / 2 - lo.length) := by
      rw [List.take_append, List.take_of_length_le hle]
    have hv' : KeySorted (lo ++ hi.take (n / 2 - lo.length)) := by
      rw [← htake]
      exact List.Pairwise.sublist (List.take_sublist _ _) hv
    have hc' : Cut k lo (hi.take (n / 2 - lo.length)) :=
      ⟨hc.lo, fun e he => hc.hi e (List.mem_of_mem_take he)⟩
    have hlen' : (lo ++ hi.take (n / 2 - lo.length)).length = n / 2 := by
      rw [← htake, List.length_take]
      omega
    have hfirst : VectorSfra.first (hi.take (n / 2 - lo.length)) ≠ some k := by
      intro h'
      obtain ⟨e, he, rfl⟩ := Option.map_eq_some_iff.1 h'
      refine h ((mem_iff_first hv hc).1 ⟨e, ?_, rfl⟩)
      exact List.mem_append_right _ (List.mem_of_mem_take (List.mem_of_mem_head? he))
    have hne : (lo ++ hi.take (n / 2 - lo.length)).length ≠ cap := by omega
    rw [htake, insert_eq_ok hv' hc' hfirst hne x, List.drop_append, List.drop_of_length_le hle,
      List.nil_append]
    refine ⟨_, _, rfl, ?_, ?_, ?_⟩
    · rw [List.append_assoc, List.cons_append, List.take_append_drop]
    · rw [List.length_append] at hlen' ⊢
      rw [List.length_cons]
      omega
    · rw [List.length_drop]
      omega
  · next hlt =>
    -- the pair goes to the second half, after the first batch
    have hadd : n / 2 + 1 + (lo.length - (n / 2 + 1)) = lo.length := by omega
    refine ⟨_, _, rfl, ?_, ?_, ?_⟩
    · have hbatch : ((lo ++ hi).drop (n / 2 + 1)).take (lo.length - (n / 2 + 1)) =
          lo.drop (n / 2 + 1) := by
        rw [List.drop_append_of_le_length (by omega), ← List.length_drop, List.take_left]
      rw [hadd, List.drop_left, hbatch, List.take_append_of_le_length (by omega),
        ← List.append_assoc, List.take_append_drop]
    · rw [List.length_take, List.length_append]
      omega
    · rw [hadd, List.drop_left, List.length_append, List.length_take, List.length_drop,
        List.length_append, List.length_cons]
      omega

/-- The pair found has the greatest of the keys not above `k`. -/
theorem findLte_spec : (lo ++ hi).findLte k =
    if hi.first = some k then hi.head? else lo.getLast? := by
  have hbelow : (if lo.length = 0 then none else (lo ++ hi)[lo.length - 1]?) = lo.getLast? := by
    split
    · next h0 => rw [List.eq_nil_of_length_eq_zero h0, List.getLast?_nil]
    · next h0 => rw [List.getElem?_append_left (by omega), List.getLast?_eq_getElem?]
  rw [findLte, find_eq hv hc, hbelow, List.getElem?_append_right (Nat.le_refl _), Nat.sub_self]
  cases hi with
  | nil => rfl
  | cons e hi =>
    have hk := hc.hi e List.mem_cons_self
    simp only [List.getElem?_cons_zero, first, List.head?_cons, Option.map_some,
      Option.some.injEq]
    by_cases hek : e.1 = k
    · rw [if_pos hek, if_neg (by rw [hek]; exact lt_irrefl k)]
    · rw [if_neg hek, if_pos (lt_of_le_of_ne hk (Ne.symm hek))]

/-- The pair of a key that is there is the first one that is not below. -/
theorem exists_cons_of_mem {a : V} (ha : (k, a) ∈ lo ++ hi) : ∃ hi', hi = (k, a) :: hi' := by
  obtain ⟨x, t, rfl⟩ := first_eq_some.1 ((mem_iff_first hv hc).1 ⟨_, ha, rfl⟩)
  have hx : (k, x) ∈ lo ++ (k, x) :: t := by simp
  exact ⟨t, by rw [hv.eq_of_mem ha hx]⟩

theorem getElem?_find : (lo ++ hi)[(lo ++ hi).find k]? = hi.head? := by
  rw [find_eq hv hc, List.getElem?_append_right (Nat.le_refl _), Nat.sub_self,
    List.head?_eq_getElem?]

end Operations

omit [LinearOrder K] in
theorem head_ne_of_not_mem (hk : ∀ e ∈ lo ++ hi, e.1 ≠ k) {e : K × V} (he : hi.head? = some e) :
    e.1 ≠ k :=
  hk e (List.mem_append_right _ (List.mem_of_mem_head? he))

theorem containsValue_eq_some (hv : KeySorted v) {a : V} (ha : (k, a) ∈ v) :
    v.containsValue k = some a := by
  obtain ⟨lo, hi, rfl, hc⟩ := hv.exists_cut k
  obtain ⟨hi', rfl⟩ := exists_cons_of_mem hv hc ha
  rw [containsValue, getElem?_find hv hc]
  exact if_pos rfl

theorem containsValue_eq_none (hv : KeySorted v) (hk : ∀ e ∈ v, e.1 ≠ k) :
    v.containsValue k = none := by
  obtain ⟨lo, hi, rfl, hc⟩ := hv.exists_cut k
  rw [containsValue, getElem?_find hv hc]
  split
  · next e he => exact if_neg (head_ne_of_not_mem hk he)
  · rfl

theorem remove_eq_some (hv : KeySorted v) {a : V} (ha : (k, a) ∈ v) :
    ∃ v', v.remove k = (some a, v') ∧ ((k, a) :: v').Perm v ∧ KeySorted v' := by
  obtain ⟨lo, hi, rfl, hc⟩ := hv.exists_cut k
  obtain ⟨hi', rfl⟩ := exists_cons_of_mem hv hc ha
  refine ⟨lo ++ hi', ?_, List.perm_middle.symm, ?_⟩
  · rw [remove, getElem?_find hv hc, find_eq hv hc]
    dsimp only [List.head?_cons]
    rw [if_pos rfl, List.eraseIdx_append_of_length_le (Nat.le_refl _), Nat.sub_self]
    rfl
  · exact hv.sublist (List.Sublist.append_left (List.sublist_cons_self _ _) _)

theorem remove_eq_none (hv : KeySorted v) (hk : ∀ e ∈ v, e.1 ≠ k) : v.remove k = (none, v) := by
  obtain ⟨lo, hi, rfl, hc⟩ := hv.exists_cut k
  rw [remove, getElem?_find hv hc]
  split
  · next e he => exact if_neg (head_ne_of_not_mem hk he)
  · rfl

/-- The pair found is one of those whose keys are not above `k`. -/
theorem findLte_mem (hv : KeySorted v) {e : K × V} (he : v.findLte k = some e) :
    e ∈ v ∧ e.1 ≤ k := by
  obtain ⟨lo, hi, rfl, hc⟩ := hv.exists_cut k
  rw [findLte_spec hv hc] at he
  split at he
  · next hk =>
    refine ⟨List.mem_append_right _ (List.mem_of_mem_head? he), ?_⟩
    rw [first, he, Option.map_some, Option.some.injEq] at hk
    exact hk.le
  · have hm := List.mem_of_getLast? he
    exact ⟨List.mem_append_left _ hm, (hc.lo e hm).le⟩

/-- The pair found has the greatest of these keys. -/
theorem le_findLte (hv : KeySorted v) {e e' : K × V} (he : v.findLte k = some e) (he' : e' ∈ v)
    (hk : e'.1 ≤ k) : e'.1 ≤ e.1 := by
  obtain ⟨lo, hi, rfl, hc⟩ := hv.exists_cut k
  rw [findLte_spec hv hc] at he
  split at he
  · next hf =>
    rw [first, he, Option.map_some, Option.some.injEq] at hf
    exact hk.trans hf.ge
  · next hf =>
    rcases List.mem_append.1 he' with hlo | hhi
    · obtain ⟨l, rfl⟩ := List.getLast?_eq_some_iff.1 he
      rcases List.mem_append.1 hlo with hm | hm
      · exact (hv.left.lt_of_append hm List.mem_cons_self).le
      · rw [List.mem_singleton.1 hm]
    · have heq := le_antisymm hk (hc.hi e' hhi)
      exact absurd ((mem_iff_first hv hc).1 ⟨e', he', heq⟩) hf

/-- No pair is found if all keys are above `k`. -/
theorem lt_of_findLte_eq_none (hv : KeySorted v) (he : v.findLte k = none) {e : K × V}
    (hm : e ∈ v) : k < e.1 := by
  obtain ⟨lo, hi, rfl, hc⟩ := hv.exists_cut k
  rw [findLte_spec hv hc] at he
  split at he
  · next hf =>
    rw [first, he] at hf
    exact absurd hf (by simp)
  · next hf =>
    rw [List.getLast?_eq_none_iff.1 he, List.nil_append] at hm
    refine lt_of_le_of_ne (hc.hi e hm) fun heq => hf ?_
    exact (mem_iff_first hv hc).1 ⟨e, List.mem_append_right _ hm, heq.symm⟩

/-- The vector split off at a key it holds begins with the key. -/
theorem first_of_splitAt {kept stolen : VectorSfra K V} (hc : v.contains k = true)
    (hs : v.splitAt k = some (kept, stolen)) : stolen.first = some k := by
  rw [splitAt] at hs
  split at hs
  · exact absurd hs (by simp)
  · obtain ⟨-, rfl⟩ := Prod.mk.inj (Option.some.inj hs)
    rw [first, List.head?_drop]
    exact of_decide_eq_true hc

end VectorSfra

end DiscoSkip
