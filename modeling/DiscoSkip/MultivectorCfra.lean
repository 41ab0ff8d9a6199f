import Mathlib.Data.Int.Notation
import DiscoSkip.Lib.Loop
import DiscoSkip.Lib.Machine
import DiscoSkip.Lib.Multimap
import DiscoSkip.Lib.Ring

/-!
# The circular multivector

A sorted vector of key/value pairs (`multivector_cfra`), which may hold several pairs of one
key. The pairs are in an array of a fixed capacity, from `min_index` on, round its end. What
is inserted or removed shifts the shorter half of the pairs, that of the lower ones along
with `min_index`.

A function is partial where it may go round for ever, or outside the range it searches.
-/

namespace DiscoSkip

open Lib

structure MultivectorCfra (K V : Type) (cap : ℕ) where
  list : Fin cap → K × V
  size : ℕ
  minIndex : Fin cap

namespace MultivectorCfra

inductive InsertResult
  | success
  | mustSplit
  deriving DecidableEq

section Model

variable {K V : Type} [LinearOrder K] {cap : ℕ} [NeZero cap]

def incMinIndex (m : Fin cap) : Fin cap := Fin.ofNat cap (m + 1)

def decMinIndex (m : Fin cap) : Fin cap := Fin.ofNat cap (m + cap - 1)

/-- From a logical index to a physical one. -/
def phys (idx : ℕ) (minIdx : Fin cap) : Fin cap := place idx minIdx

variable (v : MultivectorCfra K V cap) (k : K)

/-- The key at a logical index. -/
def keyAt (i : ℕ) : K := (v.list (phys i v.minIndex)).1

/-- An empty vector; the array holds anything. -/
def new (list : Fin cap → K × V) : MultivectorCfra K V cap := ⟨list, 0, 0⟩

def findAnyTurn : ℤ × ℤ → Option (ℕ ⊕ ℤ × ℤ)
  | (left, right) =>
    if left ≤ right then
      let mid := left + (right - left) / 2
      let readK := v.keyAt mid.toNat
      if readK = k then some (.inl mid.toNat)
      else if k < readK then some (.inr (left, mid - 1))
      else some (.inr (mid + 1, right))
    else some (.inl left.toNat)

/-- The position of an instance of a key, or where it should be inserted. -/
def findAny : Option ℕ := loop (v.findAnyTurn k) (v.size + 1) (0, v.size - 1)

def findFirstTurn : ℤ × ℤ → Option (ℤ × ℤ ⊕ ℤ × ℤ)
  | (left, right) =>
    if left < right then
      let mid := left + (right - left) / 2
      let readK := v.keyAt mid.toNat
      if readK = k then some (.inr (left, mid))
      else if k < readK then some (.inr (left, mid - 1))
      else some (.inr (mid + 1, right))
    else some (.inl (left, right))

/-- The position of the first instance of a key, or of the first key greater than it. -/
def findFirst : Option ℕ := do
  let (left, right) ← loop (v.findFirstTurn k) (v.size + 1) (0, v.size - 1)
  if right < left then some left.toNat
  else if k ≤ v.keyAt left.toNat then some left.toNat
  else some (left + 1).toNat

def findLastTurn : ℤ × ℤ → Option (ℤ × ℤ ⊕ ℤ × ℤ)
  | (left, right) =>
    if left < right then
      let mid := left + (right - left + 1) / 2
      let readK := v.keyAt mid.toNat
      if k < readK then some (.inr (left, mid - 1))
      else if readK < k then some (.inr (mid + 1, right))
      else some (.inr (mid, right))
    else some (.inl (left, right))

/-- The position of the last instance of a key, or of the last key smaller than it; `-1` if
    there is none. -/
def findLast : Option ℤ := do
  let (left, right) ← loop (v.findLastTurn k) (v.size + 1) (0, v.size - 1)
  if right < left then some right
  else if v.keyAt right.toNat ≤ k then some right
  else some (right - 1)

/-- A turn of the loop that makes room above the keys up to `k`, from the right. -/
def shiftRightTurn (m : Fin cap) :
    (Fin cap → K × V) × ℕ → Option ((Fin cap → K × V) × ℕ ⊕ (Fin cap → K × V) × ℕ)
  | (_, 0) => none
  | (list, i + 1) =>
    if k < (list (phys i m)).1 then
      some (.inr (Function.update list (phys (i + 1) m) (list (phys i m)), i))
    else some (.inl (list, i + 1))

/-- The same from the left. -/
def shiftLeftTurn (m : Fin cap) :
    (Fin cap → K × V) × ℕ → Option ((Fin cap → K × V) × ℕ ⊕ (Fin cap → K × V) × ℕ)
  | (list, i) =>
    if (list (phys (i + 1) m)).1 ≤ k then
      some (.inr (Function.update list (phys i m) (list (phys (i + 1) m)), i + 1))
    else some (.inl (list, i))

/-- Room for a pair of the key `k`: the array, the logical index of the place, and
    `min_index`. -/
def makeRoom : Option ((Fin cap → K × V) × ℕ × Fin cap) :=
  if 0 < v.size ∧ v.keyAt (v.size / 2) ≤ k then do
    let (list, i) ← loop (shiftRightTurn k v.minIndex) (v.size + 1) (v.list, v.size)
    some (list, i, v.minIndex)
  else if 0 < v.size then do
    let minIdx := decMinIndex v.minIndex
    let (list, i) ← loop (shiftLeftTurn k minIdx) (v.size + 1) (v.list, 0)
    some (list, i, minIdx)
  else some (v.list, 0, v.minIndex)

/-- Inserting a pair after those of its key. -/
def insert (e : K × V) : Option (InsertResult × MultivectorCfra K V cap) :=
  if v.size = cap then some (.mustSplit, v)
  else do
    let (list, i, minIdx) ← v.makeRoom e.1
    some (.success, ⟨Function.update list (phys i minIdx) e, v.size + 1, minIdx⟩)

/-- A turn of the loop that closes a gap from the right, up to `size`. -/
def closeRightTurn (size : ℕ) (m : Fin cap) :
    (Fin cap → K × V) × ℕ → Option ((Fin cap → K × V) ⊕ (Fin cap → K × V) × ℕ)
  | (list, j) =>
    if j < size then some (.inr (Function.update list (phys j m) (list (phys (j + 1) m)), j + 1))
    else some (.inl list)

/-- The same from the left. -/
def closeLeftTurn (m : Fin cap) :
    (Fin cap → K × V) × ℕ → Option ((Fin cap → K × V) ⊕ (Fin cap → K × V) × ℕ)
  | (list, 0) => some (.inl list)
  | (list, j + 1) => some (.inr (Function.update list (phys (j + 1) m) (list (phys j m)), j))

/-- Removing the first pair of a key: its value, if there is one. -/
def remove : Option (Option V × MultivectorCfra K V cap) := do
  let i ← v.findFirst k
  if v.size ≤ i ∨ k < v.keyAt i then some (none, v)
  else
    let val := (v.list (phys i v.minIndex)).2
    let size := v.size - 1
    if v.size / 2 ≤ i then do
      let list ← loop (closeRightTurn size v.minIndex) (v.size + 1) (v.list, i)
      some (some val, ⟨list, size, v.minIndex⟩)
    else do
      let list ← loop (closeLeftTurn v.minIndex) (v.size + 1) (v.list, i)
      some (some val, ⟨list, size, incMinIndex v.minIndex⟩)

/-- The value of the first pair of a key (`contains`, with a value to return). -/
def containsValue : Option (Option V) := do
  let i ← v.findFirst k
  if v.size ≤ i ∨ v.keyAt i ≠ k then some none
  else some (some (v.list (phys i v.minIndex)).2)

def contains : Option Bool := do
  let pos ← v.findAny k
  some (pos < v.size ∧ v.keyAt pos = k)

def extractMin : Option (K × V) × MultivectorCfra K V cap :=
  if v.size = 0 then (none, v)
  else (some (v.list (phys 0 v.minIndex)), ⟨v.list, v.size - 1, incMinIndex v.minIndex⟩)

/-- The minimum key; it is asserted that there is one. -/
def first : Option K := if 1 ≤ v.size ∧ v.size ≤ cap then some (v.keyAt 0) else none

def last : Option K := if 0 < v.size then some (v.keyAt (v.size - 1)) else none

/-- The value of the last pair with the greatest key up to `k`. -/
def findLte : Option (Option V) := do
  let pos ← v.findLast k
  if pos < 0 then some none
  else some (some (v.list (phys pos.toNat v.minIndex)).2)

/-- The pairs, in their logical order. -/
def logical : List (K × V) := contents v.list v.minIndex v.size

end Model

/-! ## The binary searches -/

section Search

variable {K V : Type} [LinearOrder K] {cap : ℕ} [NeZero cap] {v : MultivectorCfra K V cap} {k : K}
  {lo hi : K → Prop} {left right mid : ℤ}

omit [LinearOrder K] in
theorem length_logical : v.logical.length = v.size := length_contents

omit [LinearOrder K] in
theorem keyAt_eq {i : ℕ} (hi : i < v.logical.length) : v.keyAt i = v.logical[i].1 :=
  congrArg Prod.fst (getElem_contents hi).symm

theorem keyAt_le (hv : KeyOrdered v.logical) {i j : ℕ} (hij : i ≤ j) (hj : j < v.size) :
    v.keyAt i ≤ v.keyAt j := by
  have hj' : j < v.logical.length := hj.trans_eq length_logical.symm
  rw [keyAt_eq hj', keyAt_eq (hij.trans_lt hj')]
  exact hv.le hij hj'

/-- The keys to the left of what is searched are known to be `lo`, those to the right `hi`. -/
structure Bounds (v : MultivectorCfra K V cap) (lo hi : K → Prop) (left right : ℤ) : Prop where
  nonneg : 0 ≤ left
  le : left ≤ right + 1
  lt : right < v.size
  left : ∀ j : ℕ, (j : ℤ) < left → lo (v.keyAt j)
  right : ∀ j : ℕ, right < j → j < v.size → hi (v.keyAt j)

omit [LinearOrder K] in
theorem Bounds.init : Bounds v lo hi 0 (v.size - 1) :=
  ⟨le_rfl, by omega, by omega, fun _ hj => by omega, fun _ hj hj' => by omega⟩

namespace Bounds

variable (h : Bounds v lo hi left right) (hv : KeyOrdered v.logical)
include h hv

/-- What is known of the key in the middle rules out everything to its right. -/
theorem setRight {right' : ℤ} (hm : left ≤ mid) (hr : mid - 1 ≤ right') (hr' : right' ≤ right)
    (hmid : ∀ x, v.keyAt mid.toNat ≤ x → hi x) : Bounds v lo hi left right' where
  nonneg := h.nonneg
  le := by omega
  lt := hr'.trans_lt h.lt
  left := h.left
  right j hj hj' := by
    have hnn : 0 ≤ left := h.nonneg
    exact hmid _ (keyAt_le hv (by omega) hj')

/-- What is known of the key in the middle rules out everything to its left. -/
theorem setLeft {left' : ℤ} (hm : mid ≤ right) (hl : left ≤ left') (hl' : left' ≤ mid + 1)
    (hmid : ∀ x, x ≤ v.keyAt mid.toNat → lo x) : Bounds v lo hi left' right where
  nonneg := h.nonneg.trans hl
  le := by omega
  lt := h.lt
  left j hj := by
    have hlt : right < v.size := h.lt
    exact hmid _ (keyAt_le hv (by omega) (by omega))
  right := h.right

end Bounds

/-- `findAny` finds an instance of the key, or where it should be. -/
theorem findAny_spec (hv : KeyOrdered v.logical) (k : K) : ∃ i, v.findAny k = some i ∧
    ((i < v.size ∧ v.keyAt i = k) ∨ Bounds v (· < k) (k < ·) i (i - 1)) := by
  refine loop_spec (P := fun b => Bounds v (· < k) (k < ·) b.1 b.2)
    (Q := fun i => (i < v.size ∧ v.keyAt i = k) ∨ Bounds v (· < k) (k < ·) i (i - 1))
    (μ := fun b => (b.2 - b.1 + 1).toNat) (fun (left, right) hb => ?_) .init (by dsimp only; omega)
  dsimp only at hb ⊢
  have hnn : 0 ≤ left := hb.nonneg
  have hlt : right < v.size := hb.lt
  rw [findAnyTurn]
  split
  · next hle =>
    dsimp only
    split
    · next heq => exact .inl ⟨_, rfl, .inl ⟨by omega, heq⟩⟩
    · split
      · next hk =>
        exact .inr ⟨_, rfl, hb.setRight hv (by omega) le_rfl (by omega) fun x hx => hk.trans_le hx,
          by omega⟩
      · next hne hk =>
        have hk : v.keyAt (left + (right - left) / 2).toNat < k := lt_of_le_of_ne (not_lt.1 hk) hne
        exact .inr ⟨_, rfl, hb.setLeft hv (by omega) (by omega) le_rfl fun x hx => hx.trans_lt hk,
          by omega⟩
  · next hle =>
    refine .inl ⟨_, rfl, .inr ?_⟩
    have := hb.le
    rw [Int.toNat_of_nonneg hnn, show left - 1 = right by omega]
    exact hb

/-- A turn of `findFirst`: it ends where nothing is left to search, or searches less. -/
theorem findFirstTurn_spec (hv : KeyOrdered v.logical) (k : K) (b : ℤ × ℤ)
    (hb : Bounds v (· < k) (k ≤ ·) b.1 b.2) :
    (∃ b', v.findFirstTurn k b = some (.inl b') ∧
      Bounds v (· < k) (k ≤ ·) b'.1 b'.2 ∧ ¬b'.1 < b'.2) ∨
      ∃ b', v.findFirstTurn k b = some (.inr b') ∧ Bounds v (· < k) (k ≤ ·) b'.1 b'.2 ∧
        (b'.2 - b'.1 + 1).toNat < (b.2 - b.1 + 1).toNat := by
  obtain ⟨left, right⟩ := b
  dsimp only at hb ⊢
  rw [findFirstTurn]
  split
  · dsimp only
    split
    · next heq =>
      exact .inr ⟨_, rfl, hb.setRight hv (by omega) (by omega) (by omega)
        fun x hx => heq ▸ hx, by omega⟩
    · split
      · next hk =>
        exact .inr ⟨_, rfl, hb.setRight hv (by omega) le_rfl (by omega)
          fun x hx => (hk.trans_le hx).le, by omega⟩
      · next hne hk =>
        have hk : v.keyAt (left + (right - left) / 2).toNat < k :=
          lt_of_le_of_ne (not_lt.1 hk) hne
        exact .inr ⟨_, rfl, hb.setLeft hv (by omega) (by omega) le_rfl
          fun x hx => hx.trans_lt hk, by omega⟩
  · next hge => exact .inl ⟨_, rfl, hb, hge⟩

/-- `findFirst` finds where the keys below `k` end. -/
theorem findFirst_spec (hv : KeyOrdered v.logical) (k : K) : ∃ i : ℕ, v.findFirst k = some i ∧
    Bounds v (· < k) (k ≤ ·) i (i - 1) := by
  have hsearch : ∃ b, loop (v.findFirstTurn k) (v.size + 1) (0, (v.size : ℤ) - 1) = some b ∧
      Bounds v (· < k) (k ≤ ·) b.1 b.2 ∧ ¬b.1 < b.2 :=
    loop_spec (P := fun b : ℤ × ℤ => Bounds v (· < k) (k ≤ ·) b.1 b.2)
      (Q := fun b : ℤ × ℤ => Bounds v (· < k) (k ≤ ·) b.1 b.2 ∧ ¬b.1 < b.2)
      (μ := fun b : ℤ × ℤ => (b.2 - b.1 + 1).toNat) (findFirstTurn_spec hv k) .init
      (by dsimp only; omega)
  obtain ⟨⟨left, right⟩, hloop, hb, hge⟩ := hsearch
  dsimp only at hb hge
  have hnn : 0 ≤ left := hb.nonneg
  have hle : left ≤ right + 1 := hb.le
  rw [findFirst, hloop]
  dsimp only [Option.bind_eq_bind, Option.bind_some]
  split
  · refine ⟨_, rfl, ?_⟩
    rw [Int.toNat_of_nonneg hnn, show left - 1 = right by omega]
    exact hb
  · obtain rfl : left = right := by omega
    split
    · next hk =>
      refine ⟨_, rfl, ?_⟩
      rw [Int.toNat_of_nonneg hnn]
      exact hb.setRight hv le_rfl le_rfl (by omega) fun x hx => hk.trans hx
    · next hk =>
      refine ⟨_, rfl, ?_⟩
      rw [Int.toNat_of_nonneg (by omega), show left + 1 - 1 = left by omega]
      exact hb.setLeft hv le_rfl (by omega) le_rfl fun x hx => hx.trans_lt (not_le.1 hk)

/-- A turn of `findLast`: it ends where nothing is left to search, or searches less. -/
theorem findLastTurn_spec (hv : KeyOrdered v.logical) (k : K) (b : ℤ × ℤ)
    (hb : Bounds v (· ≤ k) (k < ·) b.1 b.2) :
    (∃ b', v.findLastTurn k b = some (.inl b') ∧
      Bounds v (· ≤ k) (k < ·) b'.1 b'.2 ∧ ¬b'.1 < b'.2) ∨
      ∃ b', v.findLastTurn k b = some (.inr b') ∧ Bounds v (· ≤ k) (k < ·) b'.1 b'.2 ∧
        (b'.2 - b'.1 + 1).toNat < (b.2 - b.1 + 1).toNat := by
  obtain ⟨left, right⟩ := b
  dsimp only at hb ⊢
  rw [findLastTurn]
  split
  · dsimp only
    split
    · next hk =>
      exact .inr ⟨_, rfl, hb.setRight hv (by omega) le_rfl (by omega)
        fun x hx => hk.trans_le hx, by omega⟩
    · split
      · next hk =>
        exact .inr ⟨_, rfl, hb.setLeft hv (by omega) (by omega) le_rfl
          fun x hx => (hx.trans_lt hk).le, by omega⟩
      · next hk _ =>
        exact .inr ⟨_, rfl, hb.setLeft hv (by omega) (by omega) (by omega)
          fun x hx => hx.trans (not_lt.1 hk), by omega⟩
  · next hge => exact .inl ⟨_, rfl, hb, hge⟩

/-- `findLast` finds where the keys up to `k` end. -/
theorem findLast_spec (hv : KeyOrdered v.logical) (k : K) : ∃ p : ℤ, v.findLast k = some p ∧
    Bounds v (· ≤ k) (k < ·) (p + 1) p := by
  have hsearch : ∃ b, loop (v.findLastTurn k) (v.size + 1) (0, (v.size : ℤ) - 1) = some b ∧
      Bounds v (· ≤ k) (k < ·) b.1 b.2 ∧ ¬b.1 < b.2 :=
    loop_spec (P := fun b : ℤ × ℤ => Bounds v (· ≤ k) (k < ·) b.1 b.2)
      (Q := fun b : ℤ × ℤ => Bounds v (· ≤ k) (k < ·) b.1 b.2 ∧ ¬b.1 < b.2)
      (μ := fun b : ℤ × ℤ => (b.2 - b.1 + 1).toNat) (findLastTurn_spec hv k) .init
      (by dsimp only; omega)
  obtain ⟨⟨left, right⟩, hloop, hb, hge⟩ := hsearch
  dsimp only at hb hge
  have hle : left ≤ right + 1 := hb.le
  rw [findLast, hloop]
  dsimp only [Option.bind_eq_bind, Option.bind_some]
  split
  · refine ⟨_, rfl, ?_⟩
    rw [show right + 1 = left by omega]
    exact hb
  · obtain rfl : left = right := by omega
    split
    · next hk =>
      exact ⟨_, rfl, hb.setLeft hv le_rfl (by omega) le_rfl fun x hx => hx.trans hk⟩
    · next hk =>
      refine ⟨_, rfl, ?_⟩
      rw [Int.sub_add_cancel]
      exact hb.setRight hv le_rfl le_rfl (by omega) fun x hx => (not_le.1 hk).trans_le hx

end Search

/-! ## Shifting -/

section Shift

variable {K V : Type} [LinearOrder K] {cap : ℕ} [NeZero cap] {v : MultivectorCfra K V cap} {k : K}
  {list : Fin cap → K × V} {m : Fin cap} {l : List (K × V)} {i n : ℕ}

/-- The array has a hole where a pair of the key `k` is to be put. -/
structure Room (l : List (K × V)) (k : K) (m : Fin cap) (r : (Fin cap → K × V) × ℕ) : Prop where
  hole : HasHole l r.2 r.1 m
  le : r.2 ≤ l.length
  upTo : upTo k l = l.take r.2
  above : above k l = l.drop r.2

theorem incMinIndex_eq : incMinIndex m = place 1 m := by
  rw [incMinIndex, place, Nat.add_comm]

theorem place_decMinIndex : place 1 (decMinIndex m) = m := by
  have hcap : 0 < cap := Nat.pos_of_neZero cap
  have hdec : decMinIndex m = place (cap - 1) m :=
    congrArg (Fin.ofNat cap) (by omega)
  rw [hdec, place_place, Nat.add_sub_cancel' hcap, place_cap]

theorem Room.of_cut (h : HasHole l i list m) (hi : i ≤ l.length)
    (ht : ∀ x ∈ l.take i, x.1 ≤ k) (hd : ∀ x ∈ l.drop i, k < x.1) : Room l k m (list, i) :=
  ⟨h, hi, (upTo_above_of_cut ht hd).1, (upTo_above_of_cut ht hd).2⟩

/-- Room from the right, if there is a key up to `k`, at `p`. -/
theorem loop_shiftRight {p : ℕ} (hl : KeyOrdered l) (hcap : l.length < cap) (hp : p < l.length)
    (hpk : l[p].1 ≤ k) (h : HasHole l l.length list m) (hn : l.length < n) :
    ∃ r, loop (shiftRightTurn k m) n (list, l.length) = some r ∧ Room l k m r := by
  -- all that has been shifted is above `k`, so that the loop ends before `p`
  refine loop_spec (P := fun r : (Fin cap → K × V) × ℕ => HasHole l r.2 r.1 m ∧ p < r.2 ∧
      r.2 ≤ l.length ∧
      ∀ x ∈ l.drop r.2, k < x.1)
    (Q := Room l k m)
    (μ := Prod.snd) ?_ ⟨h, hp, le_rfl, by simp⟩ hn
  rintro ⟨list, _ | i⟩ ⟨h, hpi, hil, hd⟩
  · exact absurd hpi (Nat.not_lt_zero _)
  · have hil' : i < l.length := hil
    have hread : list (phys i m) = l[i] := h.get_before (Nat.lt_succ_self i) hil'
    rw [shiftRightTurn, hread]
    split
    · next hk =>
      refine .inr ⟨_, rfl, ⟨hread ▸ h.left hcap hil', ?_, hil'.le, ?_⟩, Nat.lt_succ_self i⟩
      · refine lt_of_le_of_ne (Nat.lt_succ_iff.1 hpi) fun he => ?_
        subst he
        exact absurd hk (not_lt.2 hpk)
      · rw [List.drop_eq_getElem_cons hil']
        exact List.forall_mem_cons.2 ⟨hk, hd⟩
    · next hk =>
      refine .inl ⟨_, rfl, .of_cut h hil (fun x hx => ?_) hd⟩
      obtain ⟨j, hj, rfl⟩ := List.mem_iff_getElem.1 hx
      rw [List.length_take] at hj
      rw [List.getElem_take]
      exact (hl.le (by omega) hil').trans (not_lt.1 hk)

/-- Room from the left, if there is a key above `k`, at `p`. -/
theorem loop_shiftLeft {p : ℕ} (hl : KeyOrdered l) (hcap : l.length < cap) (hp : p < l.length)
    (hpk : k < l[p].1) (h : HasHole l 0 list m) (hn : l.length < n) :
    ∃ r, loop (shiftLeftTurn k m) n (list, 0) = some r ∧ Room l k m r := by
  -- all that has been shifted is up to `k`, so that the loop ends at `p`
  refine loop_spec (P := fun r : (Fin cap → K × V) × ℕ => HasHole l r.2 r.1 m ∧ r.2 ≤ p ∧
      ∀ x ∈ l.take r.2, x.1 ≤ k)
    (Q := Room l k m)
    (μ := fun r : (Fin cap → K × V) × ℕ => l.length - r.2) ?_ ⟨h, Nat.zero_le p, by simp⟩
    (by dsimp only; omega)
  rintro ⟨list, i⟩ ⟨h, hip, ht⟩
  have hil : i < l.length := hip.trans_lt hp
  have hread : list (phys (i + 1) m) = l[i] := h.get_after le_rfl hil
  rw [shiftLeftTurn, hread]
  split
  · next hk =>
    refine .inr ⟨_, rfl, ⟨hread ▸ h.right hcap hil, ?_, ?_⟩, by dsimp only; omega⟩
    · refine Nat.lt_of_le_of_ne hip fun he => ?_
      subst he
      exact absurd hpk (not_lt.2 hk)
    · rw [List.take_succ_eq_append_getElem hil]
      exact List.forall_mem_append.2 ⟨ht, List.forall_mem_singleton.2 hk⟩
  · next hk =>
    refine .inl ⟨_, rfl, .of_cut h hil.le ht fun x hx => ?_⟩
    obtain ⟨j, hj, rfl⟩ := List.mem_iff_getElem.1 hx
    rw [List.length_drop] at hj
    rw [List.getElem_drop]
    exact (not_le.1 hk).trans_le (hl.le (by omega) (by omega))

omit [LinearOrder K] in
theorem loop_closeRight (hcap : l.length < cap) (h : HasHole l i list m) (hi : i ≤ l.length)
    (hn : l.length < n) : ∃ r, loop (closeRightTurn l.length m) n (list, i) = some r ∧
      contents r m l.length = l := by
  refine loop_spec (P := fun r : (Fin cap → K × V) × ℕ => HasHole l r.2 r.1 m ∧ r.2 ≤ l.length)
    (Q := fun r => contents r m l.length = l)
    (μ := fun r : (Fin cap → K × V) × ℕ => l.length - r.2) ?_ ⟨h, hi⟩
    (by dsimp only; omega)
  rintro ⟨list, j⟩ ⟨h, hj⟩
  rw [closeRightTurn]
  split
  · next hlt => exact .inr ⟨_, rfl, ⟨h.right hcap hlt, hlt⟩, by dsimp only; omega⟩
  · next hge =>
    obtain rfl : j = l.length := le_antisymm hj (not_lt.1 hge)
    exact .inl ⟨_, rfl, h.contents_of_length⟩

omit [LinearOrder K] in
theorem loop_closeLeft (hcap : l.length < cap) (h : HasHole l i list m) (hi : i ≤ l.length)
    (hn : l.length < n) : ∃ r, loop (closeLeftTurn m) n (list, i) = some r ∧
      contents r (place 1 m) l.length = l := by
  refine loop_spec (P := fun r : (Fin cap → K × V) × ℕ => HasHole l r.2 r.1 m ∧ r.2 ≤ l.length)
    (Q := fun r => contents r (place 1 m) l.length = l) (μ := Prod.snd) ?_ ⟨h, hi⟩
    (by dsimp only; omega)
  rintro ⟨list, _ | j⟩ ⟨h, hj⟩
  · exact .inl ⟨_, rfl, h.contents_of_zero⟩
  · exact .inr ⟨_, rfl, ⟨h.left hcap hj, Nat.le_of_succ_le hj⟩, Nat.lt_succ_self j⟩

end Shift

/-! ## The operations -/

section Operations

variable {K V : Type} [LinearOrder K] {cap : ℕ} [NeZero cap] {v : MultivectorCfra K V cap} {k : K}
  {i : ℕ}

/-- Every pair has room as long as the vector is not full. -/
theorem makeRoom_spec (hv : KeyOrdered v.logical) (hcap : v.size < cap) (k : K) :
    ∃ list i m, v.makeRoom k = some (list, i, m) ∧ Room v.logical k m (list, i) := by
  have hlen : v.logical.length = v.size := length_logical
  have hc : contents v.list v.minIndex v.logical.length = v.logical := by rw [hlen, logical]
  rw [makeRoom]
  split
  · next hk =>
    have hp : v.size / 2 < v.logical.length := by omega
    obtain ⟨⟨list, i⟩, hloop, hr⟩ := loop_shiftRight (n := v.size + 1) hv (by omega) hp
      (keyAt_eq hp ▸ hk.2) (hasHole_length hc) (by omega)
    rw [hlen] at hloop
    exact ⟨list, i, v.minIndex, by rw [hloop]; rfl, hr⟩
  · next hk =>
    split
    · next hpos =>
      have hp : v.size / 2 < v.logical.length := by omega
      have hkp : k < v.logical[v.size / 2].1 := by
        rw [← keyAt_eq hp]
        exact not_le.1 fun hle => hk ⟨hpos, hle⟩
      have hhole : HasHole v.logical 0 v.list (decMinIndex v.minIndex) :=
        hasHole_zero (by rw [place_decMinIndex, hc])
      obtain ⟨⟨list, i⟩, hloop, hr⟩ := loop_shiftLeft (n := v.size + 1) hv (by omega) hp hkp
        hhole (by omega)
      exact ⟨list, i, _, by dsimp only; rw [hloop]; rfl, hr⟩
    · have hnil : v.logical = [] := List.length_eq_zero_iff.1 (by omega)
      refine ⟨_, _, _, rfl, .of_cut ?_ (Nat.zero_le _) (by simp) (by simp [hnil])⟩
      exact ⟨v.list v.minIndex, by rw [hnil]; simp [contents]⟩

theorem insert_spec (hv : KeyOrdered v.logical) (hcap : v.size < cap) (e : K × V) :
    ∃ v', v.insert e = some (.success, v') ∧ v'.logical = putLast e v.logical := by
  obtain ⟨list, i, m, hroom, hr⟩ := makeRoom_spec hv hcap e.1
  have hlen : v.logical.length = v.size := length_logical
  refine ⟨⟨Function.update list (phys i m) e, v.size + 1, m⟩, ?_, ?_⟩
  · rw [insert, if_neg hcap.ne, hroom]
    rfl
  · rw [putLast, hr.upTo, hr.above, ← hr.hole.fill (by omega) hr.le, hlen]
    rfl

/-- The pairs before the first one of a key, and the others. -/
theorem findFirst_logical (hv : KeyOrdered v.logical) (k : K) :
    ∃ i, v.findFirst k = some i ∧ i ≤ v.size ∧ (∀ x ∈ v.logical.take i, x.1 < k) ∧
      ∀ x ∈ v.logical.drop i, k ≤ x.1 := by
  obtain ⟨i, hi, hb⟩ := findFirst_spec hv k
  have hlt : (i : ℤ) - 1 < v.size := hb.lt
  refine ⟨i, hi, by omega, fun x hx => ?_, fun x hx => ?_⟩
  · obtain ⟨j, hj, rfl⟩ := List.mem_iff_getElem.1 hx
    rw [List.length_take, length_logical] at hj
    rw [List.getElem_take, ← keyAt_eq]
    exact hb.left j (by omega)
  · obtain ⟨j, hj, rfl⟩ := List.mem_iff_getElem.1 hx
    rw [List.length_drop, length_logical] at hj
    rw [List.getElem_drop, ← keyAt_eq]
    exact hb.right _ (by omega) (by omega)

/-- The pairs up to the last one of a key, and the others. -/
theorem findLast_logical (hv : KeyOrdered v.logical) (k : K) :
    ∃ p : ℤ, v.findLast k = some p ∧ -1 ≤ p ∧ p < v.size ∧
      (∀ x ∈ v.logical.take (p + 1).toNat, x.1 ≤ k) ∧
        ∀ x ∈ v.logical.drop (p + 1).toNat, k < x.1 := by
  obtain ⟨p, hp, hb⟩ := findLast_spec hv k
  have hlt : p < v.size := hb.lt
  have hnn : 0 ≤ p + 1 := hb.nonneg
  refine ⟨p, hp, by omega, hlt, fun x hx => ?_, fun x hx => ?_⟩
  · obtain ⟨j, hj, rfl⟩ := List.mem_iff_getElem.1 hx
    rw [List.length_take, length_logical] at hj
    rw [List.getElem_take, ← keyAt_eq]
    exact hb.left j (by omega)
  · obtain ⟨j, hj, rfl⟩ := List.mem_iff_getElem.1 hx
    rw [List.length_drop, length_logical] at hj
    rw [List.getElem_drop, ← keyAt_eq]
    exact hb.right _ (by omega) (by omega)

/-- Where the keys below `k` end, there is the first pair of `k`, if there is one. -/
theorem find_of_cut {l : List (K × V)} (ht : ∀ x ∈ l.take i, x.1 < k)
    (hd : ∀ x ∈ l.drop i, k ≤ x.1) (hl : KeyOrdered l) :
    (∃ hi : i < l.length, l[i].1 = k ∧ l.find? (·.1 = k) = some l[i] ∧
        l.eraseP (·.1 = k) = l.eraseIdx i) ∨
      (∀ hi : i < l.length, k < l[i].1) ∧ l.find? (·.1 = k) = none ∧ l.eraseP (·.1 = k) = l := by
  have hlt (j : ℕ) (hj : j < l.length) (hji : j < i) : l[j].1 < k :=
    ht _ (List.mem_take_iff_getElem.2 ⟨j, by omega, rfl⟩)
  by_cases hi : ∃ hi : i < l.length, l[i].1 = k
  · obtain ⟨hi, hk⟩ := hi
    have hidx : l.findIdx? (fun x => decide (x.1 = k)) = some i :=
      List.findIdx?_eq_some_iff_getElem.2 ⟨hi, decide_eq_true hk, fun j hj => by
        simpa using (hlt j (hj.trans hi) hj).ne⟩
    refine .inl ⟨hi, hk, List.find?_eq_some_iff_getElem.2 ⟨decide_eq_true hk, i, hi, rfl,
      fun j hj => by simpa using (hlt j (hj.trans hi) hj).ne⟩, ?_⟩
    rw [List.eraseP_eq_eraseIdx, hidx]
  · have hgt (hi' : i < l.length) : k < l[i].1 := by
      refine lt_of_le_of_ne (hd _ ?_) fun h => hi ⟨hi', h.symm⟩
      rw [List.drop_eq_getElem_cons hi']
      exact List.mem_cons_self
    have hne : ∀ x ∈ l, x.1 ≠ k := by
      intro x hx
      obtain ⟨j, hj, rfl⟩ := List.mem_iff_getElem.1 hx
      by_cases hji : j < i
      · exact (hlt j hj hji).ne
      · exact ((hgt (by omega)).trans_le (hl.le (not_lt.1 hji) hj)).ne'
    exact .inr ⟨hgt, List.find?_eq_none.2 fun x hx => by simpa using hne x hx,
      List.eraseP_of_forall_not fun x hx => by simpa using hne x hx⟩

theorem remove_spec (hv : KeyOrdered v.logical) (hcap : v.size ≤ cap) (k : K) :
    ∃ v', v.remove k = some ((v.logical.find? (·.1 = k)).map Prod.snd, v') ∧
      v'.logical = v.logical.eraseP (·.1 = k) := by
  obtain ⟨i, hi, hle, ht, hd⟩ := findFirst_logical hv k
  have hlen : v.logical.length = v.size := length_logical
  rw [remove, hi, Option.bind_eq_bind, Option.bind_some]
  obtain ⟨hil, hk, hfind, herase⟩ | ⟨hgt, hfind, herase⟩ := find_of_cut ht hd hv
  · have hc : contents v.list v.minIndex v.logical.length = v.logical := by rw [hlen, logical]
    have hel : (v.logical.eraseIdx i).length = v.size - 1 := by
      rw [List.length_eraseIdx_of_lt hil, hlen]
    have hhole : HasHole (v.logical.eraseIdx i) i v.list v.minIndex := hasHole_eraseIdx hc hil
    have hval : v.list (phys i v.minIndex) = v.logical[i] := (getElem_contents hil).symm
    rw [if_neg (by rw [keyAt_eq hil, hk]; simp; omega), hfind, herase]
    dsimp only
    split
    · obtain ⟨list, hloop, hlist⟩ := loop_closeRight (n := v.size + 1) (by omega) hhole
        (by omega) (by omega)
      rw [hel] at hloop
      refine ⟨⟨list, v.size - 1, v.minIndex⟩, by rw [hloop, hval]; rfl, ?_⟩
      rw [← hlist, hel]
      rfl
    · obtain ⟨list, hloop, hlist⟩ := loop_closeLeft (n := v.size + 1) (by omega) hhole
        (by omega) (by omega)
      refine ⟨⟨list, v.size - 1, incMinIndex v.minIndex⟩, by rw [hloop, hval]; rfl, ?_⟩
      rw [← hlist, hel, ← incMinIndex_eq]
      rfl
  · refine ⟨v, ?_, herase.symm⟩
    rw [hfind, if_pos]
    · rfl
    · obtain hlt | hge := Nat.lt_or_ge i v.size
      · exact .inr (by rw [keyAt_eq (hlt.trans_eq hlen.symm)]; exact hgt _)
      · exact .inl hge

theorem containsValue_spec (hv : KeyOrdered v.logical) (k : K) :
    v.containsValue k = some ((v.logical.find? (·.1 = k)).map Prod.snd) := by
  obtain ⟨i, hi, hle, ht, hd⟩ := findFirst_logical hv k
  have hlen : v.logical.length = v.size := length_logical
  rw [containsValue, hi, Option.bind_eq_bind, Option.bind_some]
  obtain ⟨hil, hk, hfind, -⟩ | ⟨hgt, hfind, -⟩ := find_of_cut ht hd hv
  · rw [hfind, if_neg (by rw [keyAt_eq hil, hk]; simp; omega)]
    exact congrArg (fun e => some (some e.2)) (getElem_contents hil).symm
  · rw [hfind, if_pos]
    · rfl
    · obtain hlt | hge := Nat.lt_or_ge i v.size
      · exact .inr (by rw [keyAt_eq (hlt.trans_eq hlen.symm)]; exact (hgt _).ne')
      · exact .inl hge

theorem contains_spec (hv : KeyOrdered v.logical) (k : K) :
    v.contains k = some (v.logical.any (·.1 = k)) := by
  obtain ⟨i, hi, hspec⟩ := findAny_spec hv k
  have hlen : v.logical.length = v.size := length_logical
  rw [contains, hi, Option.bind_eq_bind, Option.bind_some, Option.some.injEq, Bool.eq_iff_iff]
  rw [decide_eq_true_iff, List.any_eq_true]
  constructor
  · rintro ⟨hlt, hk⟩
    have hil : i < v.logical.length := hlt.trans_eq hlen.symm
    exact ⟨v.logical[i], List.getElem_mem hil, decide_eq_true (keyAt_eq hil ▸ hk)⟩
  · rintro ⟨x, hx, hk⟩
    obtain hin | hb := hspec
    · exact hin
    · -- all keys are on one side of the place
      obtain ⟨j, hj, rfl⟩ := List.mem_iff_getElem.1 hx
      have hk : v.keyAt j = k := keyAt_eq hj ▸ of_decide_eq_true hk
      obtain hji | hij := Nat.lt_or_ge j i
      · exact absurd hk (hb.left j (by omega)).ne
      · exact absurd hk (hb.right j (by omega) (by omega)).ne'

theorem findLte_spec (hv : KeyOrdered v.logical) (k : K) :
    v.findLte k = some ((upTo k v.logical).getLast?.map Prod.snd) := by
  obtain ⟨p, hp, hge, hlt, ht, hd⟩ := findLast_logical hv k
  have hlen : v.logical.length = v.size := length_logical
  rw [findLte, hp, Option.bind_eq_bind, Option.bind_some, (upTo_above_of_cut ht hd).1]
  split
  · next hneg =>
    rw [show (p + 1).toNat = 0 by omega]
    rfl
  · next hnn =>
    obtain ⟨n, rfl⟩ := Int.eq_ofNat_of_zero_le (not_lt.1 hnn)
    have hn : n < v.logical.length := by omega
    rw [show ((n : ℤ) + 1).toNat = n + 1 by omega, List.take_succ_eq_append_getElem hn,
      List.getLast?_append, List.getLast?_singleton, Int.toNat_natCast]
    exact congrArg (fun e => some (some e.2)) (getElem_contents hn).symm

omit [LinearOrder K] in
theorem extractMin_spec : v.extractMin.1 = v.logical.head? ∧
    v.extractMin.2.logical = v.logical.tail := by
  rw [extractMin]
  split
  · next h => simp [logical, h]
  · next h =>
    obtain ⟨n, hn⟩ := Nat.exists_eq_succ_of_ne_zero h
    simp only [logical, hn, contents_eq_cons, phys, place_zero, Nat.succ_eq_add_one,
      Nat.add_sub_cancel, incMinIndex_eq]
    exact ⟨rfl, rfl⟩

omit [LinearOrder K] in
theorem first_spec (hcap : v.size ≤ cap) : v.first = v.logical.head?.map Prod.fst := by
  rw [first]
  split
  · next h =>
    obtain ⟨n, hn⟩ := Nat.exists_eq_add_of_le' h.1
    rw [logical, hn, contents_eq_cons, keyAt, phys, place_zero]
    rfl
  · next h =>
    have : v.size = 0 := by omega
    rw [logical, this]
    rfl

omit [LinearOrder K] in
theorem last_spec : v.last = v.logical.getLast?.map Prod.fst := by
  rw [last]
  split
  · next h =>
    obtain ⟨n, hn⟩ := Nat.exists_eq_add_of_lt h
    rw [Nat.zero_add] at hn
    rw [logical, hn, contents_succ, List.getLast?_append, List.getLast?_singleton,
      Nat.add_sub_cancel]
    rfl
  · next h =>
    have : v.size = 0 := by omega
    rw [logical, this]
    rfl

end Operations

/-! ## The refinement -/

section Machine

variable {K V : Type}

inductive Call (K V : Type)
  | insert (e : K × V)
  | remove (k : K)
  | containsValue (k : K)
  | contains (k : K)
  | extractMin
  | findLte (k : K)
  | first
  | last

/-- What a call returns. -/
inductive Result (K V : Type)
  | inserted (r : InsertResult)
  | value (x : Option V)
  | found (b : Bool)
  | entry (e : Option (K × V))
  | key (k : Option K)
  deriving DecidableEq

structure Event (K V : Type) where
  call : Call K V
  result : Result K V

variable [LinearOrder K] {cap : ℕ} [NeZero cap]

/-- A call of a vector. -/
def call (v : MultivectorCfra K V cap) :
    Call K V → Option (Result K V × MultivectorCfra K V cap)
  | .insert e => (v.insert e).map fun (r, v') => (.inserted r, v')
  | .remove k => (v.remove k).map fun (x, v') => (.value x, v')
  | .containsValue k => (v.containsValue k).map fun x => (.value x, v)
  | .contains k => (v.contains k).map fun b => (.found b, v)
  | .extractMin => some (.entry v.extractMin.1, v.extractMin.2)
  | .findLte k => (v.findLte k).map fun x => (.value x, v)
  | .first => v.first.map fun k => (.key (some k), v)
  | .last => some (.key v.last, v)

/-- The calls of a vector whose array first holds anything. -/
def machine (list : Fin cap → K × V) :
    Machine (MultivectorCfra K V cap) (Call K V) (Event K V) where
  init := new list
  step v c := (v.call c).map fun (r, v') => (⟨c, r⟩, v')

/-- A call of the list of the pairs, of `cap` at most. -/
def specCall (cap : ℕ) (l : List (K × V)) : Call K V → Option (Result K V × List (K × V))
  | .insert e =>
    if l.length = cap then some (.inserted .mustSplit, l)
    else some (.inserted .success, putLast e l)
  | .remove k => some (.value ((l.find? (·.1 = k)).map Prod.snd), l.eraseP (·.1 = k))
  | .containsValue k => some (.value ((l.find? (·.1 = k)).map Prod.snd), l)
  | .contains k => some (.found (l.any (·.1 = k)), l)
  | .extractMin => some (.entry l.head?, l.tail)
  | .findLte k => some (.value ((upTo k l).getLast?.map Prod.snd), l)
  | .first => l.head?.map fun e => (.key (some e.1), l)
  | .last => some (.key (l.getLast?.map Prod.fst), l)

/-- The calls of an ordered list, which is what a vector is for. -/
def spec (cap : ℕ) : Machine (List (K × V)) (Call K V) (Event K V) where
  init := []
  step l c := (specCall cap l c).map fun (r, l') => (⟨c, r⟩, l')

/-- A vector whose pairs are ordered, and no more than the array can hold. -/
structure Ordered (v : MultivectorCfra K V cap) : Prop where
  ordered : KeyOrdered v.logical
  size_le : v.size ≤ cap

variable {v v' : MultivectorCfra K V cap} {list : Fin cap → K × V} {c : Call K V}

/-- A call does with the pairs what it should. -/
theorem call_spec (hv : Ordered v) (c : Call K V) :
    (v.call c).map (fun (r, v') => (r, v'.logical)) = specCall cap v.logical c := by
  have hlen : v.logical.length = v.size := length_logical
  cases c with
  | insert e =>
    rw [call, specCall, hlen]
    split
    · next hfull => rw [insert, if_pos hfull]; rfl
    · next hfull =>
      obtain ⟨v', hv', hl⟩ := insert_spec hv.ordered (lt_of_le_of_ne hv.size_le hfull) e
      rw [hv', ← hl]
      rfl
  | remove k =>
    obtain ⟨v', hv', hl⟩ := remove_spec hv.ordered hv.size_le k
    rw [call, specCall, hv', ← hl]
    rfl
  | containsValue k => rw [call, specCall, containsValue_spec hv.ordered]; rfl
  | contains k => rw [call, specCall, contains_spec hv.ordered]; rfl
  | extractMin =>
    rw [call, specCall, ← extractMin_spec.1, ← extractMin_spec.2]
    rfl
  | findLte k => rw [call, specCall, findLte_spec hv.ordered]; rfl
  | first => rw [call, specCall, first_spec hv.size_le, Option.map_map, Option.map_map]; rfl
  | last => rw [call, specCall, last_spec]; rfl

omit [NeZero cap] in
/-- A call keeps the list ordered, and within the capacity. -/
theorem specCall_keeps {l l' : List (K × V)} {r : Result K V} (hl : KeyOrdered l)
    (hcap : l.length ≤ cap) (h : specCall cap l c = some (r, l')) :
    KeyOrdered l' ∧ l'.length ≤ cap := by
  cases c with
  | insert e =>
    rw [specCall] at h
    split at h
    · obtain ⟨rfl, rfl⟩ := Prod.mk.inj (Option.some.inj h)
      exact ⟨hl, hcap⟩
    · next hne =>
      obtain ⟨rfl, rfl⟩ := Prod.mk.inj (Option.some.inj h)
      refine ⟨hl.putLast e, ?_⟩
      rw [length_putLast]
      omega
  | remove k =>
    obtain ⟨rfl, rfl⟩ := Prod.mk.inj (Option.some.inj h)
    exact ⟨hl.sublist List.eraseP_sublist, (List.length_eraseP_le).trans hcap⟩
  | extractMin =>
    obtain ⟨rfl, rfl⟩ := Prod.mk.inj (Option.some.inj h)
    exact ⟨hl.tail, by rw [List.length_tail]; omega⟩
  | first =>
    obtain ⟨e, -, he⟩ := Option.map_eq_some_iff.1 h
    obtain ⟨rfl, rfl⟩ := Prod.mk.inj he
    exact ⟨hl, hcap⟩
  | containsValue | contains | findLte | last =>
    obtain ⟨rfl, rfl⟩ := Prod.mk.inj (Option.some.inj h)
    exact ⟨hl, hcap⟩

theorem Ordered.call {r : Result K V} (hv : Ordered v) (h : v.call c = some (r, v')) :
    Ordered v' := by
  have hspec : specCall cap v.logical c = some (r, v'.logical) := by
    rw [← call_spec hv, h]
    rfl
  obtain ⟨hl, hle⟩ := specCall_keeps hv.ordered (length_logical.trans_le hv.size_le) hspec
  exact ⟨hl, length_logical.symm.trans_le hle⟩

theorem ordered_new (list : Fin cap → K × V) : Ordered (new list) :=
  ⟨List.Pairwise.nil, Nat.zero_le _⟩

/-- What holds of a vector after any calls. -/
structure Refines (v : MultivectorCfra K V cap) : Prop extends Ordered v where
  /-- Every call does what it does with the list of the pairs. -/
  call : ∀ c, (v.call c).map (fun (r, v') => (r, v'.logical)) = specCall cap v.logical c
  /-- `findFirst` ends, with the position after all keys below `k`. -/
  findFirst : ∀ k, ∃ i, v.findFirst k = some i ∧ i ≤ v.size ∧
    (∀ x ∈ v.logical.take i, x.1 < k) ∧ ∀ x ∈ v.logical.drop i, k ≤ x.1
  /-- `findLast` ends, with the position before all keys above `k`. -/
  findLast : ∀ k, ∃ p : ℤ, v.findLast k = some p ∧ -1 ≤ p ∧ p < v.size ∧
    (∀ x ∈ v.logical.take (p + 1).toNat, x.1 ≤ k) ∧ ∀ x ∈ v.logical.drop (p + 1).toNat, k < x.1

theorem Ordered.refines (hv : Ordered v) : Refines v where
  toOrdered := hv
  call := call_spec hv
  findFirst := findFirst_logical hv.ordered
  findLast := findLast_logical hv.ordered

/-- The calls of a vector are those of the ordered list of its pairs. -/
theorem refines_of_run {tr : List (Event K V)}
    (h : (machine list).Run (fun _ _ => True) tr v) :
    Refines v ∧ (spec cap).Run (fun _ _ => True) tr v.logical := by
  obtain ⟨l, hrun, hv, rfl⟩ : ∃ l, (spec cap).Run (fun _ _ => True) tr l ∧
      Ordered v ∧ l = v.logical :=
    Trace.simulate (C := fun v l => Ordered v ∧ l = v.logical) ⟨ordered_new list, rfl⟩
      (fun v l e v' ⟨hv, hl⟩ ⟨c, _, hst⟩ => by
      subst hl
      obtain ⟨⟨r, v''⟩, hc, he⟩ := Option.map_eq_some_iff.1 hst
      obtain ⟨rfl, rfl⟩ := Prod.mk.inj he
      refine ⟨v''.logical, ⟨c, trivial, ?_⟩, hv.call hc, rfl⟩
      change (specCall cap v.logical c).map _ = _
      rw [← call_spec hv, hc]
      rfl) h
  exact ⟨hv.refines, hrun⟩

theorem refines_of_run_wrapped : ∃ tr, ∃ v : MultivectorCfra ℕ ℕ 2, Refines v ∧
    (spec 2).Run (fun _ _ => True) tr v.logical ∧ v.logical = [(2, 10), (2, 30)] :=
  have ⟨tr, v, hr, hv⟩ := Lib.Machine.exists_run_of_play
    (G := fun _ _ => True) (m := machine fun _ : Fin 2 => ((0 : ℕ), (0 : ℕ)))
    (fun r => r.2.logical) [.insert (2, 10), .insert (1, 20), .extractMin, .insert (2, 30)]
    (b := [(2, 10), (2, 30)]) (by decide +kernel)
  ⟨tr, v, (refines_of_run hr).1, (refines_of_run hr).2, hv⟩

end Machine

end MultivectorCfra

end DiscoSkip
