import Mathlib.Data.List.Sort
import DiscoSkip.SkipMap.Refine

/-!
# Ranges

`range` applies a function to the pairs of the keys from `lo` to `hi`: from the data node
where the way down ends, it goes along the nodes until one of them has a key above `hi`.
The two chunk implementations walk along their pairs in different ways.

* A sorted chunk applies the function to exactly the pairs of the range (`sfra_range`).
* An unsorted chunk sorts its pairs between the minimum and the maximum, and walks along
  all of them. Once it has reached a key of the range, it applies the function to the next
  of these pairs before it stops, even if the key is above `hi` (`umfra_range`).
-/

namespace DiscoSkip

open Lib

variable {σ K V : Type*} [LinearOrder K]

/-- What is applied to the pairs of a range, with the state it keeps between them. It gets
    a key, a value and the exit flag, and may change the value and the flag. -/
abbrev Elemental (σ K V : Type*) := σ → K → V → Bool → σ × V × Bool

variable (f : Elemental σ K V) (lo hi : K)

/-- `iterate_element` -/
def iterateElement (e : K × V) (st : σ) (exitFlag : Bool) : (K × V) × σ × Bool :=
  ((e.1, (f st e.1 e.2 exitFlag).2.1), (f st e.1 e.2 exitFlag).1, (f st e.1 e.2 exitFlag).2.2)

namespace VectorSfra

/-- The second loop of `range`. -/
def rangeTo : VectorSfra K V → σ → Bool → VectorSfra K V × σ × Bool × Bool
  | [], st, exitFlag => ([], st, exitFlag, false)
  | e :: v, st, exitFlag =>
    if exitFlag then (e :: v, st, exitFlag, false)
    else if hi < e.1 then (e :: v, st, exitFlag, true)
    else
      let (e, st, exitFlag) := iterateElement f e st exitFlag
      let (v, r) := rangeTo v st exitFlag
      (e :: v, r)

/-- The vector after it, the state, the exit flag, and whether the end of the range was
    reached. -/
def range : VectorSfra K V → σ → Bool → VectorSfra K V × σ × Bool × Bool
  | [], st, exitFlag => ([], st, exitFlag, false)
  | e :: v, st, exitFlag =>
    if e.1 < lo then
      let (v, r) := range v st exitFlag
      (e :: v, r)
    else rangeTo f hi (e :: v) st exitFlag

end VectorSfra

namespace VectorUmfra

/-- All but the maximum are sorted. -/
def sort (cap : ℕ) (v : VectorUmfra K V) : VectorUmfra K V :=
  if 3 < cap ∧ 3 < v.length then v.take 2 ++ (v.drop 2).insertionSort (·.1 ≤ ·.1) else v

/-- `iterate_element_range1`: where it is unknown if the key is below `lo`. It returns
    whether the range was reached. -/
def iterateElementRange1 (e : K × V) (st : σ) (exitFlag : Bool) : Bool × (K × V) × σ × Bool :=
  if e.1 < lo then (false, e, st, exitFlag)
  else if hi < e.1 then (true, e, st, true)
  else
    let (e, st, exitFlag) := iterateElement f e st exitFlag
    (true, e, st, exitFlag || decide (e.1 = hi))

/-- `iterate_element_range2`: where it is known that the key is not below `lo`. -/
def iterateElementRange2 (e : K × V) (st : σ) (exitFlag : Bool) : (K × V) × σ × Bool :=
  let (e, st, exitFlag) := iterateElement f e st (exitFlag || decide (hi < e.1))
  (e, st, exitFlag || decide (e.1 = hi))

/-- The loops of `range` between the minimum and the maximum: the first one until the range
    is reached, and the second one after it. -/
def rangeSorted : Bool → List (K × V) → σ → Bool → List (K × V) × σ × Bool
  | _, [], st, exitFlag => ([], st, exitFlag)
  | fromReached, e :: v, st, exitFlag =>
    if exitFlag then (e :: v, st, exitFlag)
    else if fromReached then
      let (e, st, exitFlag) := iterateElementRange2 f hi e st exitFlag
      let (v, r) := rangeSorted true v st exitFlag
      (e :: v, r)
    else
      let (fromReached, e, st, exitFlag) := iterateElementRange1 f lo hi e st exitFlag
      let (v, r) := rangeSorted fromReached v st exitFlag
      (e :: v, r)

/-- The vector after it, the state, the exit flag, and whether this is set. -/
def range (cap : ℕ) (v : VectorUmfra K V) (st : σ) (exitFlag : Bool) :
    VectorUmfra K V × σ × Bool × Bool :=
  match v.sort cap with
  | [] => ([], st, exitFlag, exitFlag)
  | [min] =>
    let (_, min, st, exitFlag) :=
      if exitFlag then (false, min, st, exitFlag) else iterateElementRange1 f lo hi min st exitFlag
    ([min], st, exitFlag, exitFlag)
  | min :: max :: v =>
    let (fromReached, min, st, exitFlag) :=
      if exitFlag then (false, min, st, exitFlag) else iterateElementRange1 f lo hi min st exitFlag
    let (v, st, exitFlag) := rangeSorted f lo hi fromReached v st exitFlag
    let (_, max, st, exitFlag) :=
      if exitFlag then (false, max, st, exitFlag) else iterateElementRange1 f lo hi max st exitFlag
    (min :: max :: v, st, exitFlag, exitFlag)

end VectorUmfra

namespace SkipMap

/-- The chunk implementations of data layers with ranges. -/
inductive Layout (K V : Type*) [LinearOrder K]
  | sfra
  | umfra (nth : NthElement K V)

namespace Layout

def vec (cap : ℕ) : Layout K V → SortedChunk K V cap
  | .sfra => .sfra cap
  | .umfra nth => .umfra nth cap

def range (cap : ℕ) (v : List (K × V)) (st : σ) (exitFlag : Bool) :
    Layout K V → List (K × V) × σ × Bool × Bool
  | .sfra => VectorSfra.range f lo hi v st exitFlag
  | .umfra _ => VectorUmfra.range f lo hi cap v st exitFlag

end Layout

/-- The loop of `range` along the nodes. -/
def rangeNodes (layout : Layout K V) (cap : ℕ) :
    List (Node K V) → σ → Bool → List (Node K V) × σ
  | [], st, _ => ([], st)
  | n :: ns, st, exitFlag =>
    let (v, st, exitFlag, done) := layout.range f lo hi cap n.v st exitFlag
    if done || exitFlag then ({ n with v } :: ns, st)
    else
      let (ns, st) := rangeNodes layout cap ns st exitFlag
      ({ n with v } :: ns, st)

/-- `range`, on a data layer with these chunks: the state of the function after it, and the
    skip vector. -/
def State.range (cfg : Config K V) (layout : Layout K V) (s : State K V) (st : σ) :
    Option (σ × State K V) :=
  if hi < lo then some (st, s)
  else
    (State.skipTo cfg lo cfg.layers 0 s).bind fun (p, s) =>
      (locate p s.data).map fun (before, first, rest) =>
        let (ns, st) :=
          rangeNodes f lo hi layout (getVectorSize cfg.data.exp) (first :: rest) st false
        (st, { s with data := before ++ ns })

end SkipMap

/-! ## Walking along sorted pairs -/

/-- The function is applied, in turn, to the pairs of the range. -/
def applyIn : List (K × V) → σ → List (K × V) × σ
  | [], st => ([], st)
  | e :: l, st =>
    if lo ≤ e.1 ∧ e.1 ≤ hi then
      let (e, st, _) := iterateElement f e st false
      let (l, st) := applyIn l st
      (e :: l, st)
    else
      let (l, st) := applyIn l st
      (e :: l, st)

/-- The pair `q` is the first one above the range, it is not the last one of the list, and
    the pair before it is in the range, below its end. -/
def Overruns (l : List (K × V)) : Prop :=
  ∃ a p q r b, l = a ++ p :: q :: r :: b ∧ lo ≤ p.1 ∧ p.1 < hi ∧ hi < q.1

/-- It logs the keys, the last one first. -/
def logKeys : Elemental (List K) K V := fun st k v exitFlag => (k :: st, v, exitFlag)

section Walk

variable {f lo hi} {l l' : List (K × V)} {e : K × V} {st : σ}

theorem applyIn_of_mem (he : lo ≤ e.1 ∧ e.1 ≤ hi) (l : List (K × V)) (st : σ) :
    applyIn f lo hi (e :: l) st =
      ((iterateElement f e st false).1 :: (applyIn f lo hi l (iterateElement f e st false).2.1).1,
        (applyIn f lo hi l (iterateElement f e st false).2.1).2) := by
  rw [applyIn, if_pos he]

theorem applyIn_of_not_mem (he : ¬ (lo ≤ e.1 ∧ e.1 ≤ hi)) (l : List (K × V)) (st : σ) :
    applyIn f lo hi (e :: l) st = (e :: (applyIn f lo hi l st).1, (applyIn f lo hi l st).2) := by
  rw [applyIn, if_neg he]

theorem applyIn_append (l l' : List (K × V)) (st : σ) : applyIn f lo hi (l ++ l') st =
    ((applyIn f lo hi l st).1 ++ (applyIn f lo hi l' (applyIn f lo hi l st).2).1,
      (applyIn f lo hi l' (applyIn f lo hi l st).2).2) := by
  induction l generalizing st with
  | nil => rfl
  | cons e l ih =>
    rw [List.cons_append]
    by_cases he : lo ≤ e.1 ∧ e.1 ≤ hi
    · rw [applyIn_of_mem he, applyIn_of_mem he, ih]
      rfl
    · rw [applyIn_of_not_mem he, applyIn_of_not_mem he, ih]
      rfl

theorem applyIn_eq_self (h : ∀ e ∈ l, ¬ (lo ≤ e.1 ∧ e.1 ≤ hi)) (st : σ) :
    applyIn f lo hi l st = (l, st) := by
  induction l with
  | nil => rfl
  | cons e l ih =>
    rw [applyIn_of_not_mem (h e List.mem_cons_self), ih fun e he => h e (List.mem_cons_of_mem _ he)]

variable (f lo hi) in
/-- The keys stay. -/
theorem map_fst_applyIn (l : List (K × V)) (st : σ) :
    (applyIn f lo hi l st).1.map Prod.fst = l.map Prod.fst := by
  induction l generalizing st with
  | nil => rfl
  | cons e l ih =>
    by_cases he : lo ≤ e.1 ∧ e.1 ≤ hi
    · rw [applyIn_of_mem he, List.map_cons, List.map_cons, ih]
      rfl
    · rw [applyIn_of_not_mem he, List.map_cons, List.map_cons, ih]

theorem keySorted_of_keys (h : KeySorted l) (hk : l'.map Prod.fst = l.map Prod.fst) :
    KeySorted l' := by
  have hmap : (l.map Prod.fst).Pairwise (· < ·) := List.pairwise_map.2 h
  rw [← hk] at hmap
  exact List.pairwise_map.1 hmap

/-- What is after a key that is not below the end of the range is not in the range. -/
theorem applyIn_after (h : KeySorted (e :: l)) (he : hi ≤ e.1) (st : σ) :
    applyIn f lo hi l st = (l, st) := by
  refine applyIn_eq_self (fun e' he' hin => ?_) st
  exact absurd (he.trans_lt ((List.pairwise_cons.1 h).1 e' he')) (not_lt.2 hin.2)

variable (hf : ∀ st k v b, (f st k v b).2.2 = b)

include hf

omit [LinearOrder K] in
theorem iterateElement_flag (e : K × V) (st : σ) (b : Bool) : (iterateElement f e st b).2.2 = b :=
  hf st e.1 e.2 b

theorem sfra_rangeTo (h : KeySorted l) (hlo : ∀ e ∈ l, lo ≤ e.1) (st : σ) :
    ∃ done, VectorSfra.rangeTo f hi l st false =
      ((applyIn f lo hi l st).1, (applyIn f lo hi l st).2, false, done) ∧
        (done = true → ∃ e ∈ l, hi ≤ e.1) := by
  induction l generalizing st with
  | nil => exact ⟨false, rfl, nofun⟩
  | cons e l ih =>
    obtain ⟨hhead, htail⟩ := List.pairwise_cons.1 h
    rw [VectorSfra.rangeTo, if_neg Bool.false_ne_true]
    split
    · next hlt =>
      refine ⟨true, ?_, fun _ => ⟨e, List.mem_cons_self, hlt.le⟩⟩
      rw [applyIn_of_not_mem fun hin => not_lt.2 hin.2 hlt, applyIn_after h hlt.le]
    · next hle =>
      obtain ⟨done, heq, hdone⟩ := ih htail (fun e he => hlo e (List.mem_cons_of_mem _ he))
        (iterateElement f e st false).2.1
      refine ⟨done, ?_, fun hd => ?_⟩
      · rw [applyIn_of_mem ⟨hlo e List.mem_cons_self, not_lt.1 hle⟩]
        have hflag := iterateElement_flag hf e st false
        dsimp only
        rw [hflag, heq]
      · obtain ⟨e', he', hhi⟩ := hdone hd
        exact ⟨e', List.mem_cons_of_mem _ he', hhi⟩

/-- A sorted chunk applies the function to exactly the pairs of the range. -/
theorem sfra_range (h : KeySorted l) (st : σ) :
    ∃ done, VectorSfra.range f lo hi l st false =
      ((applyIn f lo hi l st).1, (applyIn f lo hi l st).2, false, done) ∧
        (done = true → ∃ e ∈ l, hi ≤ e.1) := by
  induction l generalizing st with
  | nil => exact ⟨false, rfl, nofun⟩
  | cons e l ih =>
    rw [VectorSfra.range]
    split
    · next hlt =>
      obtain ⟨done, heq, hdone⟩ := ih (List.pairwise_cons.1 h).2 st
      refine ⟨done, ?_, fun hd => ?_⟩
      · rw [applyIn_of_not_mem fun hin => not_lt.2 hin.1 hlt, heq]
      · obtain ⟨e', he', hhi⟩ := hdone hd
        exact ⟨e', List.mem_cons_of_mem _ he', hhi⟩
    · next hle =>
      refine sfra_rangeTo hf h (fun e' he' => ?_) st
      exact (not_lt.1 hle).trans (h.head_le he')

end Walk

/-! ## Walking along the pairs of an unsorted chunk -/

namespace VectorUmfra

/-- The walk of `range` along all pairs in order, with the last one as the maximum. -/
def rangeChain : Bool → List (K × V) → σ → Bool → List (K × V) × σ × Bool
  | _, [], st, exitFlag => ([], st, exitFlag)
  | fromReached, e :: v, st, exitFlag =>
    if exitFlag then (e :: v, st, exitFlag)
    else if fromReached = true ∧ v ≠ [] then
      let (e, st, exitFlag) := iterateElementRange2 f hi e st exitFlag
      let (v, r) := rangeChain true v st exitFlag
      (e :: v, r)
    else
      let (fromReached, e, st, exitFlag) := iterateElementRange1 f lo hi e st exitFlag
      let (v, r) := rangeChain fromReached v st exitFlag
      (e :: v, r)

section Chain

variable {f lo hi} {l v : List (K × V)} {e min max : K × V} {st : σ} {c : Bool}

theorem rangeChain_exit (l : List (K × V)) (st : σ) :
    rangeChain f lo hi c l st true = (l, st, true) := by
  cases l <;> rfl

/-- Before the maximum, the walk is that of the two loops. -/
theorem rangeChain_append (l : List (K × V)) (st : σ) (exitFlag : Bool) :
    rangeChain f lo hi c (l ++ [max]) st exitFlag =
      let r := rangeSorted f lo hi c l st exitFlag
      let (_, max, s) :=
        if r.2.2 then (false, max, r.2.1, r.2.2) else iterateElementRange1 f lo hi max r.2.1 r.2.2
      (r.1 ++ [max], s) := by
  induction l generalizing c st exitFlag with
  | nil =>
    rw [List.nil_append, rangeChain, rangeSorted]
    cases exitFlag with
    | true => rfl
    | false =>
      rw [if_neg Bool.false_ne_true, if_neg fun h => h.2 rfl]
      rfl
  | cons e l ih =>
    rw [List.cons_append, rangeChain, rangeSorted]
    cases exitFlag with
    | true => rfl
    | false =>
      rw [if_neg Bool.false_ne_true, if_neg Bool.false_ne_true]
      cases c with
      | true =>
        rw [if_pos ⟨rfl, by simp⟩, if_pos rfl]
        obtain ⟨e, st, x⟩ := iterateElementRange2 f hi e st false
        dsimp only
        rw [ih]
        rfl
      | false =>
        rw [if_neg fun h => Bool.false_ne_true h.1, if_neg Bool.false_ne_true]
        obtain ⟨r, e, st, x⟩ := iterateElementRange1 f lo hi e st false
        dsimp only
        rw [ih]
        rfl

/-- What happens below the end of the range. -/
theorem rangeChain_of_lt (hlt : e.1 < lo) (l : List (K × V)) (st : σ) :
    rangeChain f lo hi false (e :: l) st false =
      (e :: (rangeChain f lo hi false l st false).1, (rangeChain f lo hi false l st false).2) := by
  rw [rangeChain, if_neg Bool.false_ne_true, if_neg fun h => Bool.false_ne_true h.1,
    iterateElementRange1, if_pos hlt]

theorem rangeChain_of_mem (hf : ∀ st k v b, (f st k v b).2.2 = b) (he : lo ≤ e.1 ∧ e.1 ≤ hi)
    (l : List (K × V)) (st : σ) : rangeChain f lo hi c (e :: l) st false =
      ((iterateElement f e st false).1 ::
          (rangeChain f lo hi true l (iterateElement f e st false).2.1 (decide (e.1 = hi))).1,
        (rangeChain f lo hi true l (iterateElement f e st false).2.1 (decide (e.1 = hi))).2) := by
  have hflag := iterateElement_flag hf e st false
  have hkey : (iterateElement f e st false).1.1 = e.1 := rfl
  rw [rangeChain, if_neg Bool.false_ne_true]
  split
  · rw [iterateElementRange2, decide_eq_false (not_lt.2 he.2), Bool.or_false]
    dsimp only
    rw [hflag, hkey, Bool.false_or]
  · rw [iterateElementRange1, if_neg (not_lt.2 he.1), if_neg (not_lt.2 he.2)]
    dsimp only
    rw [hflag, hkey, Bool.false_or]

/-- The walk is applied to the pairs of the range if it does not overrun its end. -/
theorem rangeChain_spec (hf : ∀ st k v b, (f st k v b).2.2 = b) (h : KeySorted l)
    (hl : ¬ Overruns lo hi l) (hlo : c = true → ∀ e ∈ l, lo ≤ e.1)
    (hnext : c = true → ∀ q r b, l = q :: r :: b → q.1 ≤ hi) (st : σ) :
    ∃ exitFlag, rangeChain f lo hi c l st false =
      ((applyIn f lo hi l st).1, (applyIn f lo hi l st).2, exitFlag) ∧
        (exitFlag = true → ∃ e ∈ l, hi ≤ e.1) := by
  induction l generalizing st c with
  | nil => exact ⟨false, rfl, nofun⟩
  | cons e l ih =>
    have htail := (List.pairwise_cons.1 h).2
    have hl' : ¬ Overruns lo hi l := by
      rintro ⟨a, p, q, r, b, rfl, hp⟩
      exact hl ⟨e :: a, p, q, r, b, rfl, hp⟩
    obtain hlt | hle := lt_or_ge e.1 lo
    · cases c with
      | true => exact absurd (hlo rfl e List.mem_cons_self) (not_le.2 hlt)
      | false =>
        obtain ⟨x, heq, hx⟩ := ih (c := false) htail hl'
          (fun h => absurd h Bool.false_ne_true) (fun h => absurd h Bool.false_ne_true) st
        refine ⟨x, ?_, fun hx' => ?_⟩
        · rw [rangeChain_of_lt hlt, heq, applyIn_of_not_mem fun hin => not_lt.2 hin.1 hlt]
        · obtain ⟨e', he', hhi⟩ := hx hx'
          exact ⟨e', List.mem_cons_of_mem _ he', hhi⟩
    · obtain hgt | hhi := lt_or_ge hi e.1
      · -- above the range, the walk stops
        refine ⟨true, ?_, fun _ => ⟨e, List.mem_cons_self, hgt.le⟩⟩
        rw [rangeChain, if_neg Bool.false_ne_true, if_neg, iterateElementRange1,
          if_neg (not_lt.2 hle), if_pos hgt]
        · dsimp only
          rw [rangeChain_exit, applyIn_of_not_mem fun hin => not_lt.2 hin.2 hgt,
            applyIn_after h hgt.le]
        · rintro ⟨hr, hne⟩
          obtain ⟨r, b, rfl⟩ := List.exists_cons_of_ne_nil hne
          exact absurd (hnext hr e r b rfl) (not_le.2 hgt)
      · rw [rangeChain_of_mem hf ⟨hle, hhi⟩, applyIn_of_mem ⟨hle, hhi⟩]
        by_cases heq : e.1 = hi
        · refine ⟨true, ?_, fun _ => ⟨e, List.mem_cons_self, heq.ge⟩⟩
          rw [decide_eq_true heq, rangeChain_exit, applyIn_after h heq.ge]
        · obtain ⟨x, hw, hx⟩ := ih (c := true) htail hl'
            (fun _ e' he' => hle.trans ((List.pairwise_cons.1 h).1 e' he').le)
            (fun _ q r b hqrb => not_lt.1 fun hq =>
              hl ⟨[], e, q, r, b, by rw [hqrb]; rfl, hle, lt_of_le_of_ne hhi heq, hq⟩)
            (iterateElement f e st false).2.1
          refine ⟨x, ?_, fun hx' => ?_⟩
          · rw [decide_eq_false heq, hw]
          · obtain ⟨e', he', hhi'⟩ := hx hx'
            exact ⟨e', List.mem_cons_of_mem _ he', hhi'⟩

/-- A walk that overruns the end of the range goes on up to there. -/
theorem rangeChain_overruns (h : KeySorted l) (hl : Overruns lo hi l)
    (hlo : c = true → ∀ e ∈ l, lo ≤ e.1) (st : List K) :
    (∃ k ∈ (rangeChain (logKeys : Elemental (List K) K V) lo hi c l st false).2.1, hi < k) ∧
      (rangeChain (logKeys : Elemental (List K) K V) lo hi c l st false).2.2 = true := by
  obtain ⟨a, p, q, r, b, rfl, hp, hp', hq⟩ := hl
  induction a generalizing st c with
  | nil =>
    rw [List.nil_append, rangeChain_of_mem (fun _ _ _ _ => rfl) ⟨hp, hp'.le⟩,
      decide_eq_false hp'.ne, rangeChain, if_neg Bool.false_ne_true, if_pos ⟨rfl, by simp⟩,
      iterateElementRange2, decide_eq_true hq]
    refine ⟨⟨q.1, ?_, hq⟩, rfl⟩
    simp only [iterateElement, logKeys, Bool.false_or, Bool.true_or]
    rw [rangeChain_exit]
    exact List.mem_cons_self
  | cons e a ih =>
    obtain ⟨hhead, htail⟩ := List.pairwise_cons.1 h
    have hep : e.1 < p.1 := hhead p (by simp)
    rw [List.cons_append]
    obtain hlt | hle := lt_or_ge e.1 lo
    · cases c with
      | true => exact absurd (hlo rfl e List.mem_cons_self) (not_le.2 hlt)
      | false =>
        rw [rangeChain_of_lt hlt]
        exact ih st htail fun h => absurd h Bool.false_ne_true
    · rw [rangeChain_of_mem (fun _ _ _ _ => rfl) ⟨hle, (hep.trans hp').le⟩,
        decide_eq_false (hep.trans hp').ne]
      exact ih _ htail fun _ e' he' => hle.trans (hhead e' he').le

end Chain

/-! ### The chunk -/

section Range

variable {f lo hi} {v : VectorUmfra K V} {st : σ} {cap : ℕ}

/-- What sorting leaves: the minimum, the maximum and the pairs between them in order. -/
theorem sort_spec (h : Chunk.Agree cap (SortedChunk.pairs v) v) :
    v.sort cap = [] ∧ SortedChunk.pairs v = [] ∨
      (∃ m, v.sort cap = [m] ∧ SortedChunk.pairs v = [m]) ∨
      ∃ min max l, v.sort cap = min :: max :: l ∧ SortedChunk.pairs v = min :: (l ++ [max]) := by
  match v, h with
  | [], _ => exact .inl ⟨by rw [sort, if_neg (by simp)], SortedChunk.pairs_nil⟩
  | [m], _ =>
    refine .inr (.inl ⟨m, by rw [sort, if_neg (by simp)], SortedChunk.pairs_of_sorted ?_⟩)
    exact List.pairwise_singleton _ m
  | m :: x :: v, h =>
    refine .inr (.inr ⟨m, x, v.insertionSort (·.1 ≤ ·.1), ?_, ?_⟩)
    · rw [sort]
      split
      · rfl
      · next hlen =>
        -- there is at most one pair between the minimum and the maximum
        have hcap := h.length_le'
        match v, hlen, hcap with
        | [], _, _ => rfl
        | [_], _, _ => rfl
        | _ :: _ :: _, hlen, hcap =>
          simp only [List.length_cons] at hlen hcap
          omega
    · have hsort := List.perm_insertionSort (·.1 ≤ ·.1) v
      obtain ⟨hmx, hv⟩ := minMax_cons_cons.1 h.minMax
      have hperm : (m :: (v.insertionSort (·.1 ≤ ·.1) ++ [x])).Perm (m :: x :: v) :=
        (((hsort.append_right [x]).trans List.perm_append_comm).cons m)
      have hle : (m :: (v.insertionSort (·.1 ≤ ·.1) ++ [x])).Pairwise fun a b => a.1 ≤ b.1 := by
        refine List.pairwise_cons.2 ⟨fun e he => ?_, List.pairwise_append.2 ⟨?_, ?_, ?_⟩⟩
        · obtain he | he := List.mem_append.1 he
          · exact (hv e (hsort.mem_iff.1 he)).1
          · exact List.mem_singleton.1 he ▸ hmx
        · have : Std.Total fun a b : K × V => a.1 ≤ b.1 := ⟨fun a b => le_total a.1 b.1⟩
          have : IsTrans (K × V) fun a b => a.1 ≤ b.1 := ⟨fun _ _ _ => le_trans⟩
          exact List.pairwise_insertionSort (fun a b : K × V => a.1 ≤ b.1) v
        · exact List.pairwise_singleton _ x
        · intro e he e' he'
          rw [List.mem_singleton.1 he']
          exact (hv e (hsort.mem_iff.1 he)).2
      have hne := List.pairwise_map.1 ((hperm.map Prod.fst).nodup_iff.2 h.distinct)
      have hs : KeySorted (m :: (v.insertionSort (·.1 ≤ ·.1) ++ [x])) :=
        (hle.and hne).imp fun hab => lt_of_le_of_ne hab.1 hab.2
      exact KeySorted.eq_of_perm h.sorted hs (h.perm.symm.trans hperm.symm)

variable (f lo hi) in
/-- An unsorted chunk walks along its pairs in order. -/
theorem range_eq (h : Chunk.Agree cap (SortedChunk.pairs v) v) (st : σ) :
    ∃ u, range f lo hi cap v st false =
        (u, (rangeChain f lo hi false (SortedChunk.pairs v) st false).2.1,
          (rangeChain f lo hi false (SortedChunk.pairs v) st false).2.2,
          (rangeChain f lo hi false (SortedChunk.pairs v) st false).2.2) ∧
      u.Perm (rangeChain f lo hi false (SortedChunk.pairs v) st false).1 := by
  rw [range]
  obtain ⟨hs, hp⟩ | ⟨m, hs, hp⟩ | ⟨m, x, l, hs, hp⟩ := sort_spec h
  · rw [hs, hp]
    exact ⟨[], rfl, .refl _⟩
  · rw [hs, hp, rangeChain, if_neg Bool.false_ne_true, if_neg fun h => h.2 rfl]
    dsimp only
    rw [if_neg Bool.false_ne_true]
    obtain ⟨r, m, st, x⟩ := iterateElementRange1 f lo hi m st false
    exact ⟨[m], rfl, .refl _⟩
  · rw [hs, hp, rangeChain, if_neg Bool.false_ne_true, if_neg fun h => Bool.false_ne_true h.1]
    dsimp only
    rw [if_neg Bool.false_ne_true]
    obtain ⟨r, m, st, flag⟩ := iterateElementRange1 f lo hi m st false
    dsimp only
    rw [rangeChain_append]
    obtain ⟨l, st, flag⟩ := rangeSorted f lo hi r l st flag
    dsimp only
    obtain ⟨r, x, st, flag⟩ :=
      if flag = true then (false, x, st, flag) else iterateElementRange1 f lo hi x st flag
    exact ⟨m :: x :: l, rfl, (List.perm_append_comm : ([x] ++ l).Perm (l ++ [x])).cons m⟩

end Range

end VectorUmfra

/-! ## The range of a skip vector -/

namespace SkipMap

section Layout

variable {f lo hi} {cap : ℕ} {layout : Layout K V} {v : List (K × V)}

/-- The chunks of the layout do not overrun the range on these pairs. -/
def Layout.Stops (lo hi : K) (layout : Layout K V) (l : List (K × V)) : Prop :=
  layout = .sfra ∨ ¬ Overruns lo hi l

theorem Layout.range_spec (hf : ∀ st k v b, (f st k v b).2.2 = b)
    (hv : (layout.vec cap).Ok v) (hl : layout.Stops lo hi (SortedChunk.pairs v)) (st : σ) :
    ∃ u flag done, layout.range f lo hi cap v st false =
        (u, (applyIn f lo hi (SortedChunk.pairs v) st).2, flag, done) ∧
      SortedChunk.pairs u = (applyIn f lo hi (SortedChunk.pairs v) st).1 ∧
      (done = true ∨ flag = true → ∃ e ∈ SortedChunk.pairs v, hi ≤ e.1) := by
  have hs : KeySorted (SortedChunk.pairs v) := hv.sorted
  have hs' := keySorted_of_keys hs (map_fst_applyIn f lo hi _ st)
  cases layout with
  | sfra =>
    obtain ⟨heq, -, -⟩ := hv
    obtain ⟨done, hr, hdone⟩ := sfra_range hf hs st
    have hr' := (congrArg (fun w => VectorSfra.range f lo hi w st false) heq).trans hr
    refine ⟨_, _, _, hr', ?_, ?_⟩
    · exact SortedChunk.pairs_of_sorted hs'
    · rintro (hd | hd)
      · exact hdone hd
      · exact nomatch hd
  | umfra nth =>
    have hno : ¬ Overruns lo hi (SortedChunk.pairs v) := hl.resolve_left nofun
    obtain ⟨u, hr, hp⟩ := VectorUmfra.range_eq f lo hi hv st
    obtain ⟨flag, hc, hflag⟩ := VectorUmfra.rangeChain_spec hf hs hno
      (fun h => absurd h Bool.false_ne_true) (fun h => absurd h Bool.false_ne_true) st
    rw [hc] at hr hp
    refine ⟨u, flag, flag, hr, ?_, fun h => hflag (h.elim id id)⟩
    have hnd : (u.map Prod.fst).Nodup := (hp.map Prod.fst).nodup_iff.2 hs'.nodup_keys
    exact KeySorted.eq_of_perm (KeySorted.mergeSort hnd) hs' ((SortedChunk.pairs_perm u).trans hp)

/-- A chunk that does not stop where it should goes on above the range. -/
theorem Layout.range_overruns (hv : (layout.vec cap).Ok v)
    (hl : ¬ layout.Stops lo hi (SortedChunk.pairs v)) (st : List K) :
    ∃ u st', layout.range logKeys lo hi cap v st false = (u, st', true, true) ∧
      ∃ k ∈ st', hi < k := by
  rw [Layout.Stops, not_or, not_not] at hl
  cases layout with
  | sfra => exact absurd rfl hl.1
  | umfra nth =>
    obtain ⟨u, hr, -⟩ := VectorUmfra.range_eq logKeys lo hi hv st
    obtain ⟨hk, hflag⟩ := VectorUmfra.rangeChain_overruns hv.sorted hl.2
      (fun h => absurd h Bool.false_ne_true) st
    rw [hflag] at hr
    exact ⟨u, _, hr, hk⟩

end Layout

section Nodes

variable {f lo hi} {cap : ℕ} {layout : Layout K V} {ns : List (Node K V)}

/-- The function is applied to the pairs of the range if no chunk overruns it. -/
theorem rangeNodes_spec (hf : ∀ st k v b, (f st k v b).2.2 = b) (hs : KeySorted (entries ns))
    (hvec : ∀ n ∈ ns, (layout.vec cap).Ok n.v) (hl : ∀ n ∈ ns, layout.Stops lo hi n.pairs)
    (st : σ) : (rangeNodes f lo hi layout cap ns st false).2 = (applyIn f lo hi (entries ns) st).2 ∧
      entries (rangeNodes f lo hi layout cap ns st false).1 =
        (applyIn f lo hi (entries ns) st).1 := by
  induction ns generalizing st with
  | nil => exact ⟨rfl, rfl⟩
  | cons n ns ih =>
    obtain ⟨u, flag, done, hr, hu, hstop⟩ := Layout.range_spec hf (hvec n List.mem_cons_self)
      (hl n List.mem_cons_self) st
    rw [entries_cons] at hs
    rw [entries_cons, applyIn_append, rangeNodes, hr]
    dsimp only
    split
    · next hd =>
      -- a key is not below the end of the range, and so the other nodes are above it
      obtain ⟨e, he, hhi⟩ := hstop (Bool.or_eq_true_iff.1 hd)
      have hrest : ∀ e' ∈ entries ns, ¬ (lo ≤ e'.1 ∧ e'.1 ≤ hi) := fun e' he' hin =>
        absurd (hhi.trans_lt (hs.lt_of_append he he')) (not_lt.2 hin.2)
      rw [applyIn_eq_self hrest, entries_cons]
      exact ⟨rfl, congrArg (· ++ entries ns) hu⟩
    · next hd =>
      have hflag : flag = false := by
        cases flag with
        | false => rfl
        | true => exact absurd (Bool.or_true done) hd
      obtain ⟨h₁, h₂⟩ := ih hs.right (fun n hn => hvec n (List.mem_cons_of_mem _ hn))
        (fun n hn => hl n (List.mem_cons_of_mem _ hn)) (applyIn f lo hi n.pairs st).2
      rw [hflag]
      refine ⟨h₁, ?_⟩
      rw [entries_cons]
      exact congrArg₂ (· ++ ·) hu h₂

theorem rangeNodes_overruns (hs : KeySorted (entries ns))
    (hvec : ∀ n ∈ ns, (layout.vec cap).Ok n.v) {n : Node K V} (hn : n ∈ ns)
    (hl : ¬ layout.Stops lo hi n.pairs) (st : List K) :
    ∃ k ∈ (rangeNodes logKeys lo hi layout cap ns st false).2, hi < k := by
  induction ns generalizing st with
  | nil => exact absurd hn List.not_mem_nil
  | cons m ns ih =>
    rw [entries_cons] at hs
    by_cases hm : layout.Stops lo hi m.pairs
    · obtain ⟨u, flag, done, hr, -, hstop⟩ := Layout.range_spec (f := logKeys)
        (fun _ _ _ _ => rfl) (hvec m List.mem_cons_self) hm st
      have hn' : n ∈ ns := (List.mem_cons.1 hn).resolve_left fun heq => hl (heq ▸ hm)
      -- the overrun is ahead, and the keys before it are below the end of the range
      have hgoes : ¬ (done || flag) = true := by
        intro hd
        obtain ⟨e, he, hhi⟩ := hstop (Bool.or_eq_true_iff.1 hd)
        rw [Layout.Stops, not_or, not_not] at hl
        obtain ⟨-, a, p, q, r, b, hp, -, hlt, -⟩ := hl
        have hmem : p ∈ entries ns := mem_entries.2 ⟨n, hn', hp ▸ by simp⟩
        exact absurd (hhi.trans_lt (hs.lt_of_append he hmem)) (not_lt.2 hlt.le)
      have hflag : flag = false := by
        cases flag with
        | false => rfl
        | true => exact absurd (Bool.or_true done) hgoes
      rw [rangeNodes, hr]
      dsimp only
      rw [if_neg hgoes, hflag]
      exact ih hs.right (fun n hn => hvec n (List.mem_cons_of_mem _ hn)) hn' _
    · obtain ⟨u, st', hr, hk⟩ := Layout.range_overruns (hvec m List.mem_cons_self) hm st
      rw [rangeNodes, hr]
      exact hk

end Nodes

universe u v

variable {K : Type u} {V : Type v} [LinearOrder K] {cfg : Config K V} {layout : Layout K V}
  {s : State K V} {lo hi : K}

theorem mem_of_mem_logged {l : List (K × V)} {st : List K} {k : K}
    (h : k ∈ (applyIn logKeys lo hi l st).2) : k ∈ st ∨ k ≤ hi := by
  induction l generalizing st with
  | nil => exact .inl h
  | cons e l ih =>
    by_cases he : lo ≤ e.1 ∧ e.1 ≤ hi
    · rw [applyIn_of_mem he] at h
      obtain h | h := ih h
      · obtain rfl | h := List.mem_cons.1 h
        · exact .inr he.2
        · exact .inl h
      · exact .inr h
    · rw [applyIn_of_not_mem he] at h
      exact ih h

namespace State

variable (layout) in
/-- The way down leads to a part of the data layer, and all keys before it are too small. -/
theorem Ok.range (h : s.Ok cfg none) (hle : lo ≤ hi) :
    ∃ (before rest : List (Node K V)) (s' : State K V), s.data = before ++ rest ∧
      (∀ e ∈ entries before, e.1 < lo) ∧
      ∀ (σ : Type u) (f : Elemental σ K V) (st : σ),
        State.range f lo hi cfg layout s st =
          some ((rangeNodes f lo hi layout (getVectorSize cfg.data.exp) rest st false).2,
            { s' with data := before ++
                (rangeNodes f lo hi layout (getVectorSize cfg.data.exp) rest st false).1 }) := by
  obtain ⟨p, s', hs', hok, hdata, pre, c, rest, hns, rfl, -, hpre⟩ :=
    h.skipTo le_rfl (h.startAt_zero (k := lo) le_rfl)
  refine ⟨pre, c :: rest, s', hdata ▸ hns, hpre, fun σ f st => ?_⟩
  have hlocate : locate c.id s'.data = some (pre, c, rest) := by
    have hd := hok.data.nodup
    rw [hns] at hd ⊢
    exact locate_eq hd
  rw [State.range, if_neg (not_lt.2 hle), hs', Option.bind_some]
  dsimp only
  rw [hlocate]
  rfl

/-- `range` applies a function that leaves the exit flag alone to the pairs of the range, in
    order, and changes no other pair. -/
def Exact (cfg : Config K V) (layout : Layout K V) (lo hi : K) (s : State K V) : Prop :=
  ∀ (σ : Type u) (f : Elemental σ K V), (∀ st k v b, (f st k v b).2.2 = b) → ∀ st, ∃ s',
    State.range f lo hi cfg layout s st = some ((applyIn f lo hi (entries s.data) st).2, s') ∧
      entries s'.data = (applyIn f lo hi (entries s.data) st).1

/-- `range` visits exactly the range if and only if no unsorted chunk of the data layer
    overruns it. -/
theorem exact_iff (h : s.Ok cfg none) (hvec : cfg.data.vec = layout.vec _) (hle : lo ≤ hi) :
    s.Exact cfg layout lo hi ↔ layout = .sfra ∨ ∀ n ∈ s.data, ¬ Overruns lo hi n.pairs := by
  obtain ⟨before, rest, s', hdata, hbefore, hrange⟩ := h.range layout hle
  have hs := h.data.sorted
  have hvecs : ∀ n ∈ rest, (layout.vec _).Ok n.v := fun n hn =>
    hvec ▸ h.data.vecs n (hdata ▸ List.mem_append_right _ hn)
  rw [hdata, entries_append] at hs
  constructor
  · intro hexact
    by_contra hno
    rw [not_or, not_forall] at hno
    obtain ⟨hlayout, n, hn⟩ := hno
    rw [Classical.not_imp, not_not] at hn
    obtain ⟨hn, hover⟩ := hn
    -- the node is not before the way down ends, since it has a key of the range
    have hrest : n ∈ rest := by
      rw [hdata] at hn
      refine (List.mem_append.1 hn).resolve_left fun hn => ?_
      obtain ⟨a, p, q, r, b, hp, hlo, -⟩ := hover
      exact absurd (hbefore p (mem_entries.2 ⟨n, hn, hp ▸ by simp⟩)) (not_lt.2 hlo)
    obtain ⟨k, hk, hhi⟩ := rangeNodes_overruns hs.right hvecs hrest
      (fun hl => hl.elim hlayout fun hl => hl hover) []
    obtain ⟨s'', hs'', -⟩ := hexact (List K) logKeys (fun _ _ _ _ => rfl) []
    have hlog := congrArg Prod.fst (Option.some.inj ((hrange _ _ _).symm.trans hs''))
    dsimp only at hlog
    rw [hlog] at hk
    obtain hk | hk := mem_of_mem_logged hk
    · exact absurd hk List.not_mem_nil
    · exact absurd hhi (not_lt.2 hk)
  · intro hl σ f hf st
    have hstops : ∀ n ∈ rest, layout.Stops lo hi n.pairs := fun n hn =>
      hl.imp_right fun hl => hl n (hdata ▸ List.mem_append_right _ hn)
    obtain ⟨hst, hent⟩ := rangeNodes_spec hf hs.right hvecs hstops st
    have hpre : applyIn f lo hi (entries before) st = (entries before, st) :=
      applyIn_eq_self (fun e he hin => not_lt.2 hin.1 (hbefore e he)) st
    refine ⟨{ s' with data := before ++
        (rangeNodes f lo hi layout (getVectorSize cfg.data.exp) rest st false).1 },
      (hrange σ f st).trans ?_, ?_⟩
    · rw [hdata, entries_append, applyIn_append, hpre, hst]
    · rw [hdata, entries_append, hent, entries_append, applyIn_append, hpre]

/-- One index layer over unsorted chunks. -/
def overUnsorted : Config ℕ ℕ where
  mergeThreshold := 2
  threshold_le := le_refl 2
  layers := 1
  layers_pos := Nat.one_pos
  index := ⟨0, SortedChunk.sfra 1⟩
  data := ⟨1, (Layout.umfra .ofSort).vec 4⟩

/-- After these calls, one chunk has the keys. -/
def oddCalls : List (Call ℕ ℕ overUnsorted) :=
  [.insert 1 10 0, .insert 3 30 0, .insert 5 50 0, .insert 9 90 0]

theorem exact_iff_oddCalls : ∃ rs s, run overUnsorted 1 .init oddCalls = some (rs, s) ∧
    (s.Exact overUnsorted (.umfra .ofSort) 1 4 ↔
      (Layout.umfra .ofSort : Layout ℕ ℕ) = .sfra ∨ ∀ n ∈ s.data, ¬ Overruns 1 4 n.pairs) := by
  obtain ⟨s, hs, hok, -⟩ := run_spec Ok.init Represents.init 0 oddCalls
  exact ⟨_, s, hs, exact_iff hok rfl (by decide)⟩

/-- The range from `1` to `4` visits the key `5`. -/
theorem not_exact_oddCalls : ∃ rs s, run overUnsorted 1 .init oddCalls = some (rs, s) ∧
    s.Ok overUnsorted none ∧ ¬ s.Exact overUnsorted (.umfra .ofSort) 1 4 := by
  obtain ⟨s, hs, hok, -⟩ := run_spec Ok.init Represents.init 0 oddCalls
  refine ⟨_, s, hs, hok, fun hexact => ?_⟩
  have hlog : ((run overUnsorted 1 .init oddCalls).bind fun p =>
      (State.range logKeys 1 4 overUnsorted (.umfra .ofSort) p.2 []).map Prod.fst) =
      some [5, 3, 1] := by decide +kernel
  obtain ⟨s', hs', -⟩ := hexact (List ℕ) logKeys (fun _ _ _ _ => rfl) []
  rw [hs, Option.bind_some, hs', Option.map_some, Option.some.injEq] at hlog
  have hmem : 5 ∈ (applyIn logKeys 1 4 (entries s.data) []).2 := by
    rw [show (applyIn logKeys 1 4 (entries s.data) []).2 = [5, 3, 1] from hlog]
    exact List.mem_cons_self
  obtain hk | hk := mem_of_mem_logged hmem
  · exact absurd hk List.not_mem_nil
  · exact absurd hk (by decide)

end State

end SkipMap

end DiscoSkip
