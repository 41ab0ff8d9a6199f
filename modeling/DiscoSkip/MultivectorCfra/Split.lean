import Mathlib.Data.List.GetD
import DiscoSkip.MultivectorCfra

/-!
# Splitting a circular multivector

A vector takes pairs from another one by copying them to the start of its array, in two
blocks where they go round the end of that of the victim. It is assumed to be empty, but
where its `min_index` is left is not changed: an empty vector that was used before may have
it elsewhere, and what it then reads is what happens to be there (`Aligned`).

Whatever vectors do to each other, they lose nothing exactly as long as they are aligned
when they steal (`splits_of_run`); they always are if `min_index` is `0` (`aligned_zero`).
-/

namespace DiscoSkip

open Lib

namespace MultivectorCfra

section Model

variable {K V : Type} [LinearOrder K] {cap : ℕ} [NeZero cap]

omit [LinearOrder K] in
/-- Copying `n` entries, as long as they are inside both arrays. -/
def memcpy (dst : Fin cap → K × V) (d : ℕ) (src : Fin cap → K × V) (s n : ℕ) :
    Option (Fin cap → K × V) :=
  if h : d + n ≤ cap ∧ s + n ≤ cap then
    some fun j => if hj : d ≤ j ∧ j < d + n then src ⟨s + (j - d), by omega⟩ else dst j
  else none

/-- Copying `n` entries of the victim, which may go round the end of its array. -/
def copyFrom (dst : Fin cap → K × V) (d : ℕ) (victim : MultivectorCfra K V cap)
    (physStartPoint n : ℕ) : Option (Fin cap → K × V) :=
  if cap < physStartPoint + n then do
    let firstBatchSize := cap - physStartPoint
    let secondBatchSize := n - firstBatchSize
    let list ← memcpy dst d victim.list physStartPoint firstBatchSize
    memcpy list (d + firstBatchSize) victim.list 0 secondBatchSize
  else memcpy dst d victim.list physStartPoint n

/-- Inserting a pair as the first one, and stealing all above its key: what is left of both
    vectors. -/
def splitInsert (v victim : MultivectorCfra K V cap) (e : K × V) :
    Option (MultivectorCfra K V cap × MultivectorCfra K V cap) := do
  let last ← victim.findLast e.1
  let startPos := (last + 1).toNat
  let entriesToSteal := victim.size - startPos
  if entriesToSteal + 1 ≤ cap then
    let list ← copyFrom (Function.update v.list 0 e) 1 victim
      ((victim.minIndex + startPos) % cap) entriesToSteal
    some ({ v with list, size := 1 + entriesToSteal },
      { victim with size := victim.size - entriesToSteal })
  else none

/-- Stealing the latter half. -/
def stealHalf (v victim : MultivectorCfra K V cap) :
    Option (MultivectorCfra K V cap × MultivectorCfra K V cap) :=
  if victim.size ≤ cap then do
    let entriesToSteal := (victim.size + 1) / 2
    let startPos := victim.size - entriesToSteal
    let list ← copyFrom v.list 0 victim ((victim.minIndex + startPos) % cap) entriesToSteal
    some ({ v with list, size := entriesToSteal },
      { victim with size := victim.size - entriesToSteal })
  else none

end Model

section Copy

variable {K V : Type} [LinearOrder K] {cap : ℕ} [NeZero cap] {v victim : MultivectorCfra K V cap}
  {dst : Fin cap → K × V} {d s n : ℕ} {m : Fin cap}

/-- A place is at its distance from the start, before or after the end of the array. -/
theorem place_add_eq {x : ℕ} (hx : x < cap) : (place (s + x) m : ℕ) =
    if (m + s) % cap + x < cap then (m + s) % cap + x else (m + s) % cap + x - cap := by
  have hlt : (m + s) % cap < cap := Nat.mod_lt _ (Nat.pos_of_neZero cap)
  have hp : (place (s + x) m : ℕ) = ((m + s) % cap + x) % cap := by
    rw [Nat.mod_add_mod]
    exact congrArg (· % cap) (by omega)
  rw [hp]
  split
  · next h => exact Nat.mod_eq_of_lt h
  · next h => rw [Nat.mod_eq_sub_mod (not_lt.1 h), Nat.mod_eq_of_lt (by omega)]

omit [LinearOrder K] in
/-- Copying puts the entries of the victim in a row, and keeps the others. -/
theorem copyFrom_spec (dst : Fin cap → K × V) (victim : MultivectorCfra K V cap) (s : ℕ)
    (hd : d + n ≤ cap) : ∃ list,
    copyFrom dst d victim ((victim.minIndex + s) % cap) n = some list ∧
      ∀ j : Fin cap, list j = if d ≤ j ∧ j < d + n then
        victim.list (place (s + (j - d)) victim.minIndex) else dst j := by
  have hlt : (victim.minIndex + s) % cap < cap := Nat.mod_lt _ (Nat.pos_of_neZero cap)
  have hread (j p : Fin cap) (hj : d ≤ j ∧ j < d + n)
      (hp : (p : ℕ) = if (victim.minIndex + s) % cap + (j - d) < cap then
        (victim.minIndex + s) % cap + (j - d) else (victim.minIndex + s) % cap + (j - d) - cap) :
      victim.list p = victim.list (place (s + (j - d)) victim.minIndex) :=
    congrArg victim.list (Fin.ext (hp.trans (place_add_eq (by omega)).symm))
  rw [copyFrom]
  split
  · next hwrap =>
    dsimp only
    rw [memcpy, dif_pos (by omega), Option.bind_eq_bind, Option.bind_some, memcpy,
      dif_pos (by omega)]
    refine ⟨_, rfl, fun j => ?_⟩
    by_cases hj : d ≤ j ∧ j < d + n
    · rw [if_pos hj]
      split
      · exact hread j _ hj (by rw [if_neg (by omega)]; dsimp only; omega)
      · rw [dif_pos (by omega)]
        exact hread j _ hj (by rw [if_pos (by omega)])
    · rw [if_neg hj, dif_neg (by omega), dif_neg (by omega)]
  · next hwrap =>
    rw [memcpy, dif_pos (by omega)]
    refine ⟨_, rfl, fun j => ?_⟩
    by_cases hj : d ≤ j ∧ j < d + n
    · rw [dif_pos hj, if_pos hj]
      exact hread j _ hj (by rw [if_pos (by omega)])
    · rw [dif_neg hj, if_neg hj]

end Copy

/-! ## Alignment -/

section Aligned

variable {K V : Type} {cap : ℕ} [NeZero cap] {v : MultivectorCfra K V cap} {l : List (K × V)}

/-- The pairs, at the start of the array, are what is read from `min_index` on: where there
    is none of them, it is what the array holds. -/
def Aligned (v : MultivectorCfra K V cap) (l : List (K × V)) : Prop :=
  ∀ i (_ : i < l.length), l.getD (phys i v.minIndex) (v.list (phys i v.minIndex)) = l[i]

instance [DecidableEq K] [DecidableEq V] : Decidable (Aligned v l) :=
  inferInstanceAs (Decidable (∀ i (_ : i < l.length), _))

theorem aligned_nil : Aligned v [] := fun _ h => absurd h (Nat.not_lt_zero _)

theorem aligned_zero (h0 : v.minIndex = 0) (hcap : l.length ≤ cap) : Aligned v l := by
  intro i hi
  have hp : (phys i v.minIndex : ℕ) = i := by
    rw [h0]
    exact Nat.mod_eq_of_lt (by simp; omega)
  rw [hp, List.getD_eq_getElem _ _ hi]

/-- Different pairs, none of which the array holds, are aligned in no other way. -/
theorem aligned_iff (hcap : l.length ≤ cap) (hl : l.Nodup) (hv : ∀ j, v.list j ∉ l) :
    Aligned v l ↔ v.minIndex = 0 ∨ l = [] := by
  constructor
  · intro h
    refine or_iff_not_imp_right.2 fun hne => ?_
    have hpos : 0 < l.length := List.length_pos_iff.2 hne
    have h0 := h 0 hpos
    rw [phys, place_zero] at h0
    by_cases hlt : (v.minIndex : ℕ) < l.length
    · rw [List.getD_eq_getElem _ _ hlt] at h0
      exact Fin.ext (hl.getElem_inj_iff.1 h0)
    · rw [List.getD_eq_default _ _ (not_lt.1 hlt)] at h0
      exact absurd (h0 ▸ List.getElem_mem hpos) (hv _)
  · rintro (h0 | rfl)
    · exact aligned_zero h0 hcap
    · exact aligned_nil

/-- An array that starts with the pairs has them from `min_index` on if they are aligned. -/
theorem contents_iff_aligned {list : Fin cap → K × V}
    (hlist : ∀ j : Fin cap, list j = l.getD j (v.list j)) :
    contents list v.minIndex l.length = l ↔ Aligned v l := by
  rw [List.ext_getElem_iff]
  simp only [length_contents, getElem_contents, hlist, true_and]
  exact ⟨fun h i hi => h i hi hi, fun h i hi _ => h i hi⟩

end Aligned

/-! ## What is stolen -/

section Steal

variable {K V : Type} [LinearOrder K] {cap : ℕ} [NeZero cap] {v victim : MultivectorCfra K V cap}
  {s n : ℕ}

omit [LinearOrder K] in
theorem getD_drop_logical (hs : s + n = victim.size) (j : ℕ) (x : K × V) :
    (victim.logical.drop s).getD j x =
      if j < n then victim.list (place (s + j) victim.minIndex) else x := by
  rw [List.getD_eq_getElem?_getD, List.getElem?_drop]
  split
  · rw [logical, getElem?_contents (by omega), Option.getD_some]
  · rw [List.getElem?_eq_none (by rw [length_logical]; omega), Option.getD_none]

omit [LinearOrder K] in
/-- What a victim keeps, that has only given away its last pairs. -/
theorem logical_take (hs : s ≤ victim.size) :
    ({ victim with size := s } : MultivectorCfra K V cap).logical = victim.logical.take s := by
  rw [logical, logical, contents, contents, ← List.map_take, List.take_range, Nat.min_eq_left hs]

omit [LinearOrder K] in
theorem stealHalf_spec (hv : victim.size ≤ cap) : ∃ list w,
    v.stealHalf victim =
      some (⟨list, (victim.logical.drop (victim.size / 2)).length, v.minIndex⟩, w) ∧
    (∀ j : Fin cap, list j = (victim.logical.drop (victim.size / 2)).getD j (v.list j)) ∧
    w.logical = victim.logical.take (victim.size / 2) := by
  obtain ⟨list, hcopy, hlist⟩ := copyFrom_spec v.list victim
    (victim.size - (victim.size + 1) / 2) (d := 0) (n := (victim.size + 1) / 2) (by omega)
  have hs : victim.size - (victim.size + 1) / 2 = victim.size / 2 := by omega
  have hlen : (victim.logical.drop (victim.size / 2)).length = (victim.size + 1) / 2 := by
    rw [List.length_drop, length_logical]
    omega
  refine ⟨list, { victim with size := victim.size / 2 }, ?_, fun j => ?_, ?_⟩
  · rw [stealHalf, if_pos hv]
    dsimp only
    rw [hcopy, hlen, hs]
    rfl
  · rw [hlist, getD_drop_logical (n := (victim.size + 1) / 2) (by omega), hs]
    simp
  · exact logical_take (by omega)

theorem splitInsert_spec (hv : Ordered victim) {e : K × V}
    (hroom : (above e.1 victim.logical).length + 1 ≤ cap) : ∃ list w,
    v.splitInsert victim e =
      some (⟨list, (e :: above e.1 victim.logical).length, v.minIndex⟩, w) ∧
    (∀ j : Fin cap, list j = (e :: above e.1 victim.logical).getD j (v.list j)) ∧
    w.logical = upTo e.1 victim.logical := by
  obtain ⟨p, hp, hge, hlt, ht, hd⟩ := findLast_logical hv.ordered e.1
  obtain ⟨hupTo, habove⟩ := upTo_above_of_cut ht hd
  generalize hs : (p + 1).toNat = s at hupTo habove
  have hlen : (above e.1 victim.logical).length = victim.size - s := by
    rw [habove, List.length_drop, length_logical]
  rw [hlen] at hroom
  obtain ⟨list, hcopy, hlist⟩ := copyFrom_spec (Function.update v.list 0 e) victim s
    (d := 1) (n := victim.size - s) (by omega)
  refine ⟨list, { victim with size := s }, ?_, fun j => ?_, ?_⟩
  · rw [splitInsert, hp, Option.bind_eq_bind, Option.bind_some, hs]
    dsimp only
    rw [if_pos hroom, hcopy, List.length_cons, hlen, Nat.add_comm 1, Nat.sub_sub_self (by omega)]
    rfl
  · rw [hlist]
    obtain ⟨j, hj⟩ := j
    cases j with
    | zero => simp [Function.update]
    | succ j =>
      rw [List.getD_cons_succ, habove, getD_drop_logical (n := victim.size - s) (by omega),
        Function.update_of_ne (by simp [Fin.ext_iff])]
      simp only [Nat.add_sub_cancel]
      exact if_congr (by omega) rfl rfl
  · rw [hupTo]
    exact logical_take (by omega)

/-- It is asserted that there is room. -/
theorem room_of_splitInsert (hv : Ordered victim) {e : K × V}
    {p : MultivectorCfra K V cap × MultivectorCfra K V cap}
    (h : v.splitInsert victim e = some p) : (above e.1 victim.logical).length + 1 ≤ cap := by
  obtain ⟨last, hlast, -, -, ht, hd⟩ := findLast_logical hv.ordered e.1
  rw [(upTo_above_of_cut ht hd).2, List.length_drop, length_logical]
  rw [splitInsert, hlast, Option.bind_eq_bind, Option.bind_some] at h
  by_contra hroom
  exact absurd h (by dsimp only; rw [if_neg hroom]; simp)

end Steal

/-! ## Vectors that steal from each other -/

section Pool

variable {ι K V : Type}

/-- A call of a vector, or its stealing from another one. -/
inductive Action (ι K V : Type)
  | call (i : ι) (c : Call K V)
  | stealHalf (i victim : ι)
  | splitInsert (i victim : ι) (e : K × V)

variable [DecidableEq ι] [LinearOrder K] {cap : ℕ} [NeZero cap]

/-- Vectors that are called, and steal from each other; their arrays first hold anything. -/
def pool (list : ι → Fin cap → K × V) :
    Machine (ι → MultivectorCfra K V cap) (Action ι K V) (Action ι K V) where
  init i := new (list i)
  step s a := match a with
    | .call i c => ((s i).call c).map fun (_, v) => (a, Function.update s i v)
    | .stealHalf i victim => ((s i).stealHalf (s victim)).map fun (v, w) =>
        (a, Function.update (Function.update s victim w) i v)
    | .splitInsert i victim e => ((s i).splitInsert (s victim) e).map fun (v, w) =>
        (a, Function.update (Function.update s victim w) i v)

/-- Only an empty vector steals, and from another one. -/
def Steals (s : ι → MultivectorCfra K V cap) : Action ι K V → Prop
  | .call _ _ => True
  | .stealHalf i victim | .splitInsert i victim _ => i ≠ victim ∧ (s i).size = 0

instance Steals.decidable (s : ι → MultivectorCfra K V cap) : DecidablePred (Steals s)
  | .call _ _ => inferInstanceAs (Decidable True)
  | .stealHalf _ _ | .splitInsert _ _ _ => inferInstanceAs (Decidable (_ ∧ _))

/-- What is stolen is aligned. -/
def StealsAligned (s : ι → MultivectorCfra K V cap) (a : Action ι K V) : Prop :=
  Steals s a ∧ match a with
    | .call _ _ => True
    | .stealHalf i victim => Aligned (s i) ((s victim).logical.drop ((s victim).size / 2))
    | .splitInsert i victim e => Aligned (s i) (e :: above e.1 (s victim).logical)

instance StealsAligned.decidable [DecidableEq V] (s : ι → MultivectorCfra K V cap) :
    DecidablePred (StealsAligned s)
  | .call _ _ => inferInstanceAs (Decidable (_ ∧ True))
  | .stealHalf _ _ | .splitInsert _ _ _ => inferInstanceAs (Decidable (_ ∧ Aligned _ _))

/-- `v` gets the latter half of the pairs of the victim, which keeps the others. -/
def HalfStolen (v victim : MultivectorCfra K V cap) : Prop :=
  ∃ r w, v.stealHalf victim = some (r, w) ∧
    w.logical = victim.logical.take (victim.size / 2) ∧
    r.logical = victim.logical.drop (victim.size / 2)

/-- `v` gets the pair, followed by all of the victim above it, which keeps the others. -/
def SplitInserted (v victim : MultivectorCfra K V cap) (e : K × V) : Prop :=
  ∃ r w, v.splitInsert victim e = some (r, w) ∧ w.logical = upTo e.1 victim.logical ∧
    r.logical = e :: above e.1 victim.logical

variable {s s' : ι → MultivectorCfra K V cap} {v victim r w : MultivectorCfra K V cap}

omit [LinearOrder K] in
/-- What a vector has that got the pairs `l` at the start of its array. -/
theorem logical_iff_aligned {list : Fin cap → K × V} {l : List (K × V)}
    (hlist : ∀ j : Fin cap, list j = l.getD j (v.list j)) :
    (⟨list, l.length, v.minIndex⟩ : MultivectorCfra K V cap).logical = l ↔ Aligned v l :=
  contents_iff_aligned hlist

omit [LinearOrder K] in
theorem halfStolen_iff (hv : victim.size ≤ cap) :
    HalfStolen v victim ↔ Aligned v (victim.logical.drop (victim.size / 2)) := by
  obtain ⟨list, w, hst, hlist, hw⟩ := stealHalf_spec (v := v) hv
  rw [← logical_iff_aligned hlist]
  constructor
  · rintro ⟨r, w', hst', -, hr⟩
    obtain ⟨rfl, rfl⟩ := Prod.mk.inj (Option.some.inj (hst.symm.trans hst'))
    exact hr
  · exact fun hr => ⟨_, w, hst, hw, hr⟩

theorem splitInserted_iff (hv : Ordered victim) {e : K × V}
    (hroom : (above e.1 victim.logical).length + 1 ≤ cap) :
    SplitInserted v victim e ↔ Aligned v (e :: above e.1 victim.logical) := by
  obtain ⟨list, w, hst, hlist, hw⟩ := splitInsert_spec (v := v) hv hroom
  rw [← logical_iff_aligned hlist]
  constructor
  · rintro ⟨r, w', hst', -, hr⟩
    obtain ⟨rfl, rfl⟩ := Prod.mk.inj (Option.some.inj (hst.symm.trans hst'))
    exact hr
  · exact fun hr => ⟨_, w, hst, hw, hr⟩

/-- A vector is as ordered as the pairs it has. -/
theorem Ordered.of_logical {l : List (K × V)} (hl : KeyOrdered l) (hcap : l.length ≤ cap)
    (h : v.logical = l) : Ordered v :=
  ⟨h ▸ hl, by rw [← length_logical, h]; exact hcap⟩

/-- An aligned step keeps all vectors ordered. -/
theorem ordered_step {list : ι → Fin cap → K × V} {a : Action ι K V} (hs : ∀ i, Ordered (s i))
    (hst : ((pool list).Step StealsAligned) s a s') (i : ι) : Ordered (s' i) := by
  obtain ⟨b, ⟨-, hal⟩, hst⟩ := hst
  have hkeep {j k : ι} {r w : MultivectorCfra K V cap} (hr : Ordered r) (hw : Ordered w) :
      Ordered (Function.update (Function.update s k w) j r i) := by
    rw [Function.update_apply, Function.update_apply]
    split
    · exact hr
    · split
      · exact hw
      · exact hs i
  have hle (j : ι) : (s j).logical.length ≤ cap := length_logical.trans_le (hs j).size_le
  cases b with
  | call j c =>
    obtain ⟨⟨r, v⟩, hc, he⟩ := Option.map_eq_some_iff.1 hst
    obtain ⟨-, rfl⟩ := Prod.mk.inj he
    rw [Function.update_apply]
    split
    · exact (hs j).call hc
    · exact hs i
  | stealHalf j k =>
    obtain ⟨r, w, hsteal, hw, hr⟩ := (halfStolen_iff (hs k).size_le).2 hal
    simp only [pool, hsteal, Option.map_some, Option.some.injEq, Prod.mk.injEq] at hst
    obtain ⟨-, rfl⟩ := hst
    have hsub := List.drop_sublist ((s k).size / 2) (s k).logical
    have hsub' := List.take_sublist ((s k).size / 2) (s k).logical
    exact hkeep (.of_logical ((hs k).ordered.sublist hsub) (hsub.length_le.trans (hle k)) hr)
      (.of_logical ((hs k).ordered.sublist hsub') (hsub'.length_le.trans (hle k)) hw)
  | splitInsert j k e =>
    obtain ⟨⟨r, w⟩, hsteal, he⟩ := Option.map_eq_some_iff.1 hst
    obtain ⟨-, rfl⟩ := Prod.mk.inj he
    have hroom : (above e.1 (s k).logical).length + 1 ≤ cap := room_of_splitInsert (hs k) hsteal
    obtain ⟨r', w', hsteal', hw, hr⟩ := (splitInserted_iff (hs k) hroom).2 hal
    obtain ⟨rfl, rfl⟩ := Prod.mk.inj (Option.some.inj (hsteal.symm.trans hsteal'))
    have hsub : (upTo e.1 (s k).logical).Sublist (s k).logical := List.filter_sublist
    exact hkeep (.of_logical (hs k).ordered.cons_above hroom hr)
      (.of_logical (hs k).ordered.upTo (hsub.length_le.trans (hle k)) hw)

theorem ordered_of_run {list : ι → Fin cap → K × V} {tr : List (Action ι K V)}
    (h : (pool list).Run StealsAligned tr s) (i : ι) : Ordered (s i) := by
  refine Trace.invariant (P := fun _ s => ∀ i, Ordered (s i)) (fun i => ordered_new (list i)) ?_ h i
  intro tr s a s' _ ih hst
  exact ordered_step ih hst

/-- As long as vectors are aligned when they steal, the next to steal loses nothing exactly
    if it is aligned, too. -/
theorem splits_of_run {list : ι → Fin cap → K × V} {tr : List (Action ι K V)}
    (h : (pool list).Run StealsAligned tr s) (i victim : ι) :
    (HalfStolen (s i) (s victim) ↔
      Aligned (s i) ((s victim).logical.drop ((s victim).size / 2))) ∧
    ∀ e, (above e.1 (s victim).logical).length + 1 ≤ cap →
      (SplitInserted (s i) (s victim) e ↔ Aligned (s i) (e :: above e.1 (s victim).logical)) :=
  ⟨halfStolen_iff (ordered_of_run h victim).size_le,
    fun _ hroom => splitInserted_iff (ordered_of_run h victim) hroom⟩

end Pool

section Witness

/-- The arrays of two vectors, which hold zeroes. -/
def zeroes (_ : Bool) (_ : Fin 2) : ℕ × ℕ := (0, 0)

theorem splits_of_run_used : ∃ s : Bool → MultivectorCfra ℕ ℕ 2,
    HalfStolen (s true) (s false) ∧ (s false).logical = [(2, 20), (3, 30)] := by
  obtain ⟨tr, s, hr, hs⟩ := Lib.Machine.exists_run_of_play (G := StealsAligned)
    (m := pool zeroes)
    (fun r => ((r.2 false).logical,
      decide (Aligned (r.2 true) ((r.2 false).logical.drop ((r.2 false).size / 2)))))
    [.call false (.insert (1, 10)), .stealHalf true false, .call true .extractMin,
      .call true (.insert (0, 50)), .call true .extractMin,
      .call false (.insert (2, 20)), .call false (.insert (3, 30))]
    (b := ([(2, 20), (3, 30)], true)) (by decide +kernel)
  obtain ⟨hl, hal⟩ := Prod.mk.inj hs
  exact ⟨s, (splits_of_run hr true false).1.2 (of_decide_eq_true hal), hl⟩

/-- A vector that was used and is empty again steals a pair of its victim, and then reads what
    its array held before. -/
theorem not_splits : ¬∀ (tr : List (Action Bool ℕ ℕ)) (s : Bool → MultivectorCfra ℕ ℕ 2),
    (pool zeroes).Run Steals tr s → ∀ i victim, i ≠ victim → (s i).size = 0 →
      HalfStolen (s i) (s victim) := by
  intro hall
  obtain ⟨tr, s, hr, hs⟩ := Lib.Machine.exists_run_of_play (G := Steals) (m := pool zeroes)
    (fun r => ((r.2 true).size, (r.2 false).logical,
      ((r.2 true).stealHalf (r.2 false)).map fun p => p.1.logical))
    [.call true (.insert (1, 10)), .call true .extractMin, .call false (.insert (2, 20)),
      .call false (.insert (3, 30))]
    (b := (0, [(2, 20), (3, 30)], some [(0, 0)])) (by decide +kernel)
  obtain ⟨hsize, hs⟩ := Prod.mk.inj hs
  obtain ⟨hl, hst⟩ := Prod.mk.inj hs
  obtain ⟨r, w, hst', -, hr'⟩ := hall tr s hr true false (by decide) hsize
  dsimp only at hl hst
  have h2 : (s false).size = 2 := by rw [← length_logical, hl]; rfl
  rw [hst', Option.map_some, hr', hl, h2] at hst
  exact absurd hst (by decide)

end Witness

end MultivectorCfra

end DiscoSkip
