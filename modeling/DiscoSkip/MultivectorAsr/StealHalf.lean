import Mathlib.Data.Nat.Bitwise
import DiscoSkip.MultivectorAsr

/-!
# Splitting an unsorted multivector

A chunk that is full is locked and gives its latter half to a new chunk (`stealHalf`), when
all that was reserved in it has been inserted. The pairs are selected by their median, and
moved one at a time, each leaving an empty key behind. How many pairs the chunk has is in
the lower half of its counter, above which are a lock and a version.

The chunk is left with the lower half of its pairs, and the new one has the upper half with
the least of them in the first place, where a chunk is to have its minimum (`Halved`).
-/

namespace DiscoSkip

open Lib

namespace MultivectorAsr

section Counter

def insertMask : ℕ := 0x00000000FFFFFFFF

def lockBit : ℕ := 0x0000000100000000

def extractionStateValue : ℕ := 0xFFFFFFFFFFFFFFFF

inductive State
  | faaInsertion
  | casInsertion
  | locked
  | extraction
  deriving DecidableEq

def getState (counter : ℕ) : State :=
  if counter = 0 then .faaInsertion
  else if counter = extractionStateValue then .extraction
  else if counter &&& lockBit = lockBit then .locked
  else .casInsertion

def getInsertCounter (counter : ℕ) : ℕ := counter &&& insertMask

/-- As many as there is room for, of those reserved. -/
def getValidReservations (cap counter : ℕ) : ℕ :=
  if cap < getInsertCounter counter then cap else getInsertCounter counter

def setInsertCounter (counter count : ℕ) : Option ℕ :=
  if count ≤ insertMask then some ((counter &&& (2 ^ 64 - 1 - insertMask)) + count) else none

variable {cap counter n : ℕ}

theorem getValidReservations_le : getValidReservations cap counter ≤ cap := by
  rw [getValidReservations]
  split <;> omega

theorem getInsertCounter_eq : getInsertCounter counter = counter % 2 ^ 32 :=
  Nat.and_two_pow_sub_one_eq_mod counter 32

theorem getValidReservations_lt : getValidReservations cap counter < 2 ^ 32 := by
  have hlt : getInsertCounter counter < 2 ^ 32 := by
    rw [getInsertCounter_eq]
    exact Nat.mod_lt _ (by decide)
  rw [getValidReservations]
  split <;> omega

/-- The insertions are set without a carry. -/
theorem getInsertCounter_set (counter : ℕ) (hn : n < 2 ^ 32) :
    ∃ counter', setInsertCounter counter n = some counter' ∧ getInsertCounter counter' = n := by
  refine ⟨_, if_pos (Nat.le_of_lt_succ hn), ?_⟩
  have hzero : (counter &&& (2 ^ 64 - 1 - insertMask)) % 2 ^ 32 = 0 := by
    rw [Nat.and_mod_two_pow, show (2 ^ 64 - 1 - insertMask) % 2 ^ 32 = 0 from rfl, Nat.and_zero]
  rw [getInsertCounter_eq, Nat.add_mod, hzero, Nat.zero_add, Nat.mod_mod, Nat.mod_eq_of_lt hn]

end Counter

/-- A chunk: its array, and the counters of what was inserted. -/
structure Chunk (K V : Type) where
  list : Entries K V
  faaCounter : ℕ
  casCounter : ℕ

section Model

variable {K V : Type} [LinearOrder K] (cap : ℕ) (empty : K)

/-- Waiting until all that was reserved is inserted. It does not end for what never is. -/
def waitForInsertions (list : Entries K V) (reservations : ℕ) : Option Unit :=
  if ∀ i < reservations, (list i).1 ≠ empty then some () else none

/-- Taking the `j`-th entry of the victim into the `i`-th, whose key is left empty. -/
def rob (list : Entries K V) (i : ℤ) (victim : Entries K V) (j : ℤ) :
    Option (Entries K V × Entries K V) := do
  let e ← get cap victim j
  if e.1 ≠ empty ∧ 0 ≤ i ∧ i < cap then
    some (Function.update list i e, Function.update victim j (empty, e.2))
  else none

def robTurn (firstToSteal entriesToSteal : ℕ) : (Entries K V × Entries K V) × ℕ →
    Option (Entries K V × Entries K V ⊕ (Entries K V × Entries K V) × ℕ)
  | ((list, victim), i) =>
    if i < entriesToSteal then do
      let lists ← rob cap empty list i victim (firstToSteal + i)
      some (.inr (lists, i + 1))
    else some (.inl (list, victim))

/-- Stealing the latter half of the entries of another chunk: both chunks after it. -/
def stealHalf (chunk victim : Chunk K V) : Option (Chunk K V × Chunk K V) :=
  if getState victim.casCounter = .locked then do
    let victimSize := getValidReservations cap victim.casCounter
    waitForInsertions empty victim.list victimSize
    let list ← quickselectMedian cap victim.list victimSize
    if victimSize ≤ cap then
      let medianPos := victimSize / 2
      let entriesToSteal := victimSize - medianPos
      let (mine, list) ← loop (robTurn cap empty medianPos entriesToSteal) (entriesToSteal + 1)
        ((chunk.list, list), 0)
      let victimCounter ← setInsertCounter victim.casCounter medianPos
      some (⟨mine, entriesToSteal, chunk.casCounter⟩, ⟨list, victim.faaCounter, victimCounter⟩)
    else none
  else none

/-- What is checked of a locked chunk: that exactly the slots of its size are populated. -/
def verifyLocked (list : Entries K V) (size : ℕ) : Bool :=
  size ≤ cap ∧ (∀ i < size, (list i).1 ≠ empty) ∧ ∀ i < cap, size ≤ i → (list i).1 = empty

end Model

section Spec

variable {K V : Type} [LinearOrder K] {cap : ℕ} {empty : K} {list list₀ mine₀ : Entries K V}
  {chunk victim : Chunk K V} {n first : ℕ} {s : Set ℤ}

/-- The median is selected, of how many entries there are. -/
theorem quickselectMedian_spec (hm : Movable list 0 (n - 1) s) (hn : n ≤ cap) : ∃ list',
    quickselectMedian cap list n = some list' ∧ Selected s 0 (n - 1) (n / 2 : ℕ) list list' := by
  rw [quickselectMedian]
  split
  · exact quickselect_spec hm le_rfl (by omega) (by omega) (by omega) (by omega)
  · exact ⟨list, rfl, .refl s list, fun i hi hi' => by omega, fun i hi hi' => by omega⟩

/-- The first `i` entries stolen. -/
def stolen (mine₀ list₀ : Entries K V) (first i : ℕ) : Entries K V := fun x =>
  if 0 ≤ x ∧ x < i then list₀ (first + x) else mine₀ x

/-- What is left behind where they were. -/
def robbed (empty : K) (list₀ : Entries K V) (first i : ℕ) : Entries K V := fun x =>
  if first ≤ x ∧ x < first + i then (empty, (list₀ x).2) else list₀ x

theorem rob_step {i : ℕ} (hi : first + i < cap) (he : (list₀ (first + i)).1 ≠ empty) :
    rob cap empty (stolen mine₀ list₀ first i) i (robbed empty list₀ first i) (first + i) =
      some (stolen mine₀ list₀ first (i + 1), robbed empty list₀ first (i + 1)) := by
  have hval : robbed empty list₀ first i (first + i) = list₀ (first + i) := if_neg (by omega)
  rw [rob, get_eq (by omega) (by omega), hval, Option.bind_eq_bind, Option.bind_some,
    if_pos ⟨he, by omega, by omega⟩]
  congr 2
  · funext x
    obtain rfl | hne := eq_or_ne x i
    · rw [Function.update_self, stolen, if_pos (by omega)]
    · rw [Function.update_of_ne hne, stolen, stolen]
      exact if_congr (by omega) rfl rfl
  · funext x
    obtain rfl | hne := eq_or_ne x (first + i)
    · rw [Function.update_self, robbed, if_pos (by omega)]
    · rw [Function.update_of_ne hne, robbed, robbed]
      exact if_congr (by omega) rfl rfl

/-- The loop steals what is left to be stolen. -/
theorem loop_rob_from (hn : first + n ≤ cap) (he : ∀ i < n, (list₀ (first + i)).1 ≠ empty)
    {i k : ℕ} (hk : i + k = n) :
    loop (robTurn cap empty first n) (k + 1)
        ((stolen mine₀ list₀ first i, robbed empty list₀ first i), i) =
      some (stolen mine₀ list₀ first n, robbed empty list₀ first n) := by
  induction k generalizing i with
  | zero =>
    obtain rfl : i = n := hk
    rw [loop, robTurn, if_neg (Nat.lt_irrefl i)]
    rfl
  | succ k ih =>
    rw [loop, robTurn, if_pos (by omega), rob_step (by omega) (he i (by omega))]
    exact ih (by omega)

theorem loop_rob (hn : first + n ≤ cap) (he : ∀ i < n, (list₀ (first + i)).1 ≠ empty) :
    loop (robTurn cap empty first n) (n + 1) ((mine₀, list₀), 0) =
      some (stolen mine₀ list₀ first n, robbed empty list₀ first n) := by
  have hmine : stolen mine₀ list₀ first 0 = mine₀ := funext fun x => if_neg (by omega)
  have hlist : robbed empty list₀ first 0 = list₀ := funext fun x => if_neg (by omega)
  rw [← loop_rob_from hn he (Nat.zero_add n), hmine, hlist]

/-- The first `n` entries of an array. -/
def entries (list : Entries K V) (n : ℕ) : List (K × V) := (List.range n).map fun i : ℕ => list i

omit [LinearOrder K] in
theorem forall_entries {q : K × V → Prop} :
    (∀ a ∈ entries list n, q a) ↔ ∀ i : ℕ, i < n → q (list i) := by
  simp [entries]

omit [LinearOrder K] in
/-- What is stolen is what is not left, of as many entries. -/
theorem entries_split {k m : ℕ} :
    entries (robbed empty list₀ k m) k ++ entries (stolen mine₀ list₀ k m) m =
      entries list₀ (k + m) := by
  rw [entries, entries, entries, List.range_add, List.map_append, List.map_map]
  congr 1
  · refine List.map_congr_left fun i hi => if_neg ?_
    have hi' := List.mem_range.1 hi
    omega
  · refine List.map_congr_left fun i hi => ?_
    have hi' := List.mem_range.1 hi
    rw [stolen, if_pos (by omega), Function.comp_apply, Int.natCast_add]

omit [LinearOrder K] in
theorem entries_perm (h : PermOn (Set.Icc 0 ((n : ℤ) - 1)) list₀ list) :
    (entries list n).Perm (entries list₀ n) := by
  have hnodup : ((List.range n).map (Nat.cast : ℕ → ℤ)).Nodup :=
    List.nodup_range.map fun _ _ => Int.ofNat.inj
  have hperm := h.map_perm hnodup fun i hi => by
    obtain ⟨h0, hn⟩ := hi
    obtain ⟨j, rfl⟩ := Int.eq_ofNat_of_zero_le h0
    exact List.mem_map_of_mem (List.mem_range.2 (by omega))
  rwa [List.map_map, List.map_map] at hperm

/-- How a chunk of `n` entries is to be split: the lower half of the entries is left, in the
    order of their places, the upper half is stolen, and the least of it is first. -/
structure Halved (cap : ℕ) (empty : K) (n : ℕ) (chunk victim chunk' victim' : Chunk K V) :
    Prop where
  perm : (entries victim'.list (n / 2) ++ entries chunk'.list ((n + 1) / 2)).Perm
    (entries victim.list n)
  le : ∀ a ∈ entries victim'.list (n / 2), ∀ b ∈ entries chunk'.list ((n + 1) / 2), a.1 ≤ b.1
  first_le : ∀ b ∈ entries chunk'.list ((n + 1) / 2), (chunk'.list 0).1 ≤ b.1
  size : getValidReservations cap victim'.casCounter = n / 2
  size' : chunk'.faaCounter = (n + 1) / 2
  -- a chunk of one entry loses it
  first : 2 ≤ n → (∀ a ∈ entries victim.list n, (victim.list 0).1 ≤ a.1) →
    victim'.list 0 = victim.list 0
  verify : verifyLocked cap empty victim.list n → verifyLocked cap empty victim'.list (n / 2)
  verify' : verifyLocked cap empty chunk.list 0 → verifyLocked cap empty chunk'.list ((n + 1) / 2)

/-- A chunk steals the entries from the median on, once they are selected. -/
theorem halved (hn : n ≤ cap) (he : ∀ i < n, (list i).1 ≠ empty)
    (hs : Selected (Set.Icc 0 ((n : ℤ) - 1)) 0 (n - 1) (n / 2 : ℕ) victim.list list)
    (hfirst : 2 ≤ n → (∀ a ∈ entries victim.list n, (victim.list 0).1 ≤ a.1) →
      list 0 = victim.list 0)
    {counter : ℕ} (hc : getInsertCounter counter = n / 2) :
    Halved cap empty n chunk victim
      ⟨stolen chunk.list list (n / 2) ((n + 1) / 2), (n + 1) / 2, chunk.casCounter⟩
      ⟨robbed empty list (n / 2) ((n + 1) / 2), victim.faaCounter, counter⟩ := by
  have hsum : n / 2 + (n + 1) / 2 = n := by omega
  have hrobbed : ∀ i : ℕ, i < n / 2 →
      robbed empty list (n / 2) ((n + 1) / 2) i = list i := fun i hi => if_neg (by omega)
  have hstolen : ∀ i : ℕ, i < (n + 1) / 2 →
      stolen chunk.list list (n / 2) ((n + 1) / 2) i = list ((n / 2 : ℕ) + i) := fun i hi =>
    if_pos (by omega)
  have hupper : ∀ i : ℕ, i < (n + 1) / 2 → (list (n / 2 : ℕ)).1 ≤ (list ((n / 2 : ℕ) + i)).1 := by
    intro i hi
    obtain rfl | hpos := Nat.eq_zero_or_pos i
    · exact le_rfl
    · exact hs.upper _ (by omega) (by omega)
  refine ⟨?_, ?_, ?_, ?_, rfl, fun h2 hmin => ?_, fun hv => ?_, fun hv => ?_⟩ <;> dsimp only
  · rw [entries_split, hsum]
    exact entries_perm hs.perm
  · refine forall_entries.2 fun i hi => forall_entries.2 fun j hj => ?_
    rw [hrobbed i hi, hstolen j hj]
    exact (hs.lower i (by omega) (by omega)).trans (hupper j hj)
  · refine forall_entries.2 fun j hj => ?_
    have hfirst : stolen chunk.list list (n / 2) ((n + 1) / 2) 0 = list (n / 2 : ℕ) :=
      (hstolen 0 (by omega)).trans (congrArg list (Int.add_zero _))
    rw [hfirst, hstolen j hj]
    exact hupper j hj
  · rw [getValidReservations, hc, if_neg (by omega)]
  · exact (hrobbed 0 (by omega)).trans (hfirst h2 hmin)
  · obtain ⟨-, -, hempty⟩ := of_decide_eq_true hv
    refine decide_eq_true ⟨by omega, fun i hi => ?_, fun i hi hle => ?_⟩
    · rw [hrobbed i hi]
      exact he i (by omega)
    · obtain hlt | hge := lt_or_ge i n
      · rw [robbed, if_pos (by omega)]
      · rw [robbed, if_neg (by omega), hs.perm.eq_of_notMem fun hmem => absurd hmem.2 (by omega)]
        exact hempty i hi hge
  · obtain ⟨-, -, hempty⟩ := of_decide_eq_true hv
    refine decide_eq_true ⟨by omega, fun i hi => ?_, fun i hi hle => ?_⟩
    · rw [hstolen i hi, ← Int.natCast_add]
      exact he _ (by omega)
    · rw [stolen, if_neg (by omega)]
      exact hempty i hi i.zero_le

/-- The median is selected, and a minimum in the first place is left there. -/
theorem quickselectMedian_first (list : Entries K V) (hn : n ≤ cap) : ∃ list',
    quickselectMedian cap list n = some list' ∧
      Selected (Set.Icc 0 ((n : ℤ) - 1)) 0 (n - 1) (n / 2 : ℕ) list list' ∧
      ((∀ a ∈ entries list n, (list 0).1 ≤ a.1) → list' 0 = list 0) := by
  have hall : Movable list 0 (n - 1) (Set.Icc 0 ((n : ℤ) - 1)) := movable_Icc
  obtain ⟨list', hsel, hs⟩ := quickselectMedian_spec hall hn
  refine ⟨list', hsel, hs, fun hmin => ?_⟩
  have hmov : Movable list 0 (n - 1) (Set.Ioc 0 ((n : ℤ) - 1)) := movable_Ioc fun i h0 hi => by
    obtain ⟨j, rfl⟩ := Int.eq_ofNat_of_zero_le h0
    exact forall_entries.1 hmin j (by omega)
  obtain ⟨list'', hsel', hs'⟩ := quickselectMedian_spec hmov hn
  obtain rfl : list' = list'' := Option.some.inj (hsel.symm.trans hsel')
  exact hs'.perm.eq_of_notMem fun hmem => absurd hmem.1 (lt_irrefl 0)

theorem stealHalf_spec (hlock : getState victim.casCounter = .locked)
    (hn : getValidReservations cap victim.casCounter = n)
    (he : ∀ i < n, (victim.list i).1 ≠ empty) : ∃ chunk' victim',
      stealHalf cap empty chunk victim = some (chunk', victim') ∧
        Halved cap empty n chunk victim chunk' victim' := by
  have hcap : n ≤ cap := hn ▸ getValidReservations_le
  have hlt : n < 2 ^ 32 := hn ▸ getValidReservations_lt
  obtain ⟨list, hsel, hs, hfirst⟩ := quickselectMedian_first victim.list hcap
  have he' : ∀ i : ℕ, i < n → (list i).1 ≠ empty := fun i hi =>
    hs.perm.forall_mem (p := fun e => e.1 ≠ empty) (fun j hj => by
      obtain ⟨j, rfl⟩ := Int.eq_ofNat_of_zero_le hj.1
      exact he j (by have := hj.2; omega)) i ⟨by omega, by omega⟩
  have hhalf : n / 2 < 2 ^ 32 := by omega
  obtain ⟨counter, hset, hc⟩ := getInsertCounter_set victim.casCounter hhalf
  have hsteal : n - n / 2 = (n + 1) / 2 := by omega
  have hrob : loop (robTurn cap empty (n / 2) ((n + 1) / 2)) ((n + 1) / 2 + 1)
      ((chunk.list, list), 0) = some (stolen chunk.list list (n / 2) ((n + 1) / 2),
        robbed empty list (n / 2) ((n + 1) / 2)) :=
    loop_rob (by omega) fun i hi => by
      rw [← Int.natCast_add]
      exact he' _ (by omega)
  refine ⟨_, _, ?_, halved hcap he' hs (fun _ => hfirst) hc⟩
  rw [stealHalf, if_pos hlock]
  dsimp only
  rw [hn, waitForInsertions, if_pos he, hsel]
  dsimp only [Option.bind_eq_bind, Option.bind_some]
  rw [if_pos hcap, hsteal, hrob, hset]
  rfl

/-- The selection and the split of the chunk that is selected in.

The array may have any keys and any range, and the selection any number of calls at most that
is greater than its range is long. A chunk that steals may hold anything, as what it steals is
put over it. -/
theorem selects (cap : ℕ) (empty : K) :
    (∀ (list : Entries K V) (left right k : ℤ) (fuel : ℕ), 0 ≤ left → left ≤ k → k ≤ right →
      right < cap → right - left < fuel →
      ∃ list', quickselect cap fuel list left right k = some list' ∧
        Selected (Set.Icc left right) left right k list list' ∧
        ((∀ i, left ≤ i → i ≤ right → (list left).1 ≤ (list i).1) →
          Selected (Set.Ioc left right) left right k list list')) ∧
    ∀ (chunk victim : Chunk K V) (n : ℕ), getState victim.casCounter = .locked →
      getValidReservations cap victim.casCounter = n → (∀ i < n, (victim.list i).1 ≠ empty) →
      ∃ chunk' victim', stealHalf cap empty chunk victim = some (chunk', victim') ∧
        Halved cap empty n chunk victim chunk' victim' := by
  refine ⟨fun list left right k fuel h0 hk hk' hcap hfuel => ?_,
    fun chunk victim n hlock hn he => ?_⟩
  · have hall : Movable list left right (Set.Icc left right) := movable_Icc
    obtain ⟨list', hsel, hs⟩ := quickselect_spec hall h0 hk hk' hcap hfuel
    refine ⟨list', hsel, hs, fun hmin => ?_⟩
    obtain ⟨list'', hsel', hs'⟩ := quickselect_spec (movable_Ioc hmin) h0 hk hk' hcap hfuel
    obtain rfl : list' = list'' := Option.some.inj (hsel.symm.trans hsel')
    exact hs'
  · exact stealHalf_spec hlock hn he

end Spec

/-- A locked chunk of four pairs, two of which have the same key as the minimum. -/
def sample : Chunk ℕ ℕ where
  list i := [(1, 10), (3, 20), (1, 30), (1, 40)].getD i.toNat (0, 0)
  faaCounter := 5
  casCounter := 0x300000004

def fresh : Chunk ℕ ℕ := ⟨fun _ => (0, 0), 0, 0⟩

theorem selects_sample :
    (∃ list', quickselect 4 4 sample.list 0 3 2 = some list' ∧
      Selected (Set.Icc 0 3) 0 3 2 sample.list list' ∧
      ((∀ i, 0 ≤ i → i ≤ 3 → (sample.list 0).1 ≤ (sample.list i).1) →
        Selected (Set.Ioc 0 3) 0 3 2 sample.list list')) ∧
    ∃ chunk' victim', stealHalf 4 0 fresh sample = some (chunk', victim') ∧
      Halved 4 0 4 fresh sample chunk' victim' :=
  ⟨(selects 4 0).1 sample.list 0 3 2 4 le_rfl (by decide) (by decide) (by decide) (by decide),
    (selects 4 0).2 fresh sample 4 (by decide) (by decide) (by decide)⟩

example : (stealHalf 4 0 fresh sample).map (fun r => (entries r.1.list 2, entries r.2.list 4)) =
    some ([(1, 40), (3, 20)], [(1, 10), (1, 30), (0, 40), (0, 20)]) := by decide

end MultivectorAsr

end DiscoSkip
