import DiscoSkip.VectorUmfra

/-!
# The chunks agree

A *family* of vectors is worked on by the operations of a chunk implementation, one
after the other: by those of sorted chunks (`sfra`), or by those of unsorted ones
(`umfra`). They have the same results, and the same pairs in corresponding
vectors, if every operation is called as its callers do (`Permitted`).

It is enough that the operations keep corresponding vectors in agreement (`Agree`):
one is sorted, and the other one is a permutation of it that has the minimum and
the maximum in their slots.
-/

namespace DiscoSkip

open Lib

variable {ι K V : Type*} [DecidableEq ι] [LinearOrder K]

/-- The operations of a chunk implementation. -/
structure Chunk (K V : Type*) where
  insert : List (K × V) → K × V → VectorSfra.Inserted K V
  remove : List (K × V) → K → Option V × List (K × V)
  contains : List (K × V) → K → Option V
  findLte : List (K × V) → K → Option (K × V)
  first : List (K × V) → Option K
  last : List (K × V) → Option K
  maxKey : List (K × V) → Option K
  /-- What the victim keeps, and what is stolen; and so below. -/
  splitInsert : List (K × V) → K × V → List (K × V) × List (K × V)
  stealHalf : List (K × V) → List (K × V) × List (K × V)
  stealHalfAndInsert : List (K × V) → K × V → List (K × V) × List (K × V)
  merge : List (K × V) → List (K × V) → List (K × V)

/-- An operation on the vector `i` of a family, for some with a victim `j`. -/
inductive ChunkOp (ι K V : Type*)
  | insert (i : ι) (e : K × V)
  | remove (i : ι) (k : K)
  | contains (i : ι) (k : K)
  | findLte (i : ι) (k : K)
  | first (i : ι)
  | last (i : ι)
  | maxKey (i : ι)
  | getSize (i : ι)
  | splitInsert (i j : ι) (e : K × V)
  | stealHalf (i j : ι)
  | stealHalfAndInsert (i j : ι) (e : K × V)
  | merge (i j : ι)

/-- What an operation returns. -/
inductive ChunkResult (K V : Type*)
  | done
  | inserted (result overfull : Bool)
  | value (a : Option V)
  | pair (e : Option (K × V))
  | key (k : Option K)
  | size (n : ℕ)
  deriving DecidableEq

namespace Chunk

/-- Sorted chunks, of the capacity `cap`. -/
def sfra (cap : ℕ) : Chunk K V where
  insert := VectorSfra.insert cap
  remove := VectorSfra.remove
  contains := VectorSfra.containsValue
  findLte := VectorSfra.findLte
  first := VectorSfra.first
  last := VectorSfra.last
  maxKey := VectorSfra.maxKey
  splitInsert := VectorSfra.splitInsert
  stealHalf := VectorSfra.stealHalf
  stealHalfAndInsert := VectorSfra.stealHalfAndInsert cap
  merge := VectorSfra.merge

/-- Unsorted chunks, of the capacity `cap`. -/
def umfra (nth : NthElement K V) (cap : ℕ) : Chunk K V where
  insert := VectorUmfra.insert cap
  remove := VectorUmfra.remove cap
  contains := VectorUmfra.contains
  findLte := VectorUmfra.findLte
  first := VectorUmfra.first
  last := VectorUmfra.last
  maxKey := VectorUmfra.maxKey
  splitInsert := VectorUmfra.splitInsert cap
  stealHalf := VectorUmfra.stealHalf nth cap
  stealHalfAndInsert := VectorUmfra.stealHalfAndInsert nth cap
  merge := VectorUmfra.merge cap

variable (c : Chunk K V)

/-- The family after an operation with a victim: what it keeps, and what is stolen. -/
def steal (f : ι → List (K × V)) (i j : ι) (halves : List (K × V) × List (K × V)) :
    ι → List (K × V) :=
  Function.update (Function.update f j halves.1) i halves.2

/-- An operation of a chunk implementation: its result, and the family after it. An insertion
    is called with a flag `overfull` that is false, as an unsorted chunk writes to it only
    when it is full. -/
def exec (f : ι → List (K × V)) : ChunkOp ι K V → ChunkResult K V × (ι → List (K × V))
  | .insert i e =>
    match c.insert (f i) e with
    | .exists => (.inserted false false, f)
    | .overfull => (.inserted false true, f)
    | .ok v => (.inserted true false, Function.update f i v)
  | .remove i k => (.value (c.remove (f i) k).1, Function.update f i (c.remove (f i) k).2)
  | .contains i k => (.value (c.contains (f i) k), f)
  | .findLte i k => (.pair (c.findLte (f i) k), f)
  | .first i => (.key (c.first (f i)), f)
  | .last i => (.key (c.last (f i)), f)
  | .maxKey i => (.key (c.maxKey (f i)), f)
  | .getSize i => (.size (f i).length, f)
  | .splitInsert i j e => (.done, steal f i j (c.splitInsert (f j) e))
  | .stealHalf i j => (.done, steal f i j (c.stealHalf (f j)))
  | .stealHalfAndInsert i j e => (.done, steal f i j (c.stealHalfAndInsert (f j) e))
  | .merge i j => (.done, steal f i j ([], c.merge (f i) (f j)))

/-- The operations in a row: their results, and the family after them. -/
def run : (ι → List (K × V)) → List (ChunkOp ι K V) → List (ChunkResult K V) × (ι → List (K × V))
  | f, [] => ([], f)
  | f, op :: ops =>
    let r := run (c.exec f op).2 ops
    ((c.exec f op).1 :: r.1, r.2)

end Chunk

/-- The callers of an operation see to this: that there is a first pair; that the
    vector to steal into is empty, a pair to insert new and that what is stolen
    with it fits; that the vector that is halved for a new pair is full, of which it
    is enough here that it is not empty; and that the pairs to merge are above the
    others, and fit. -/
def ChunkOp.Permitted (cap : ℕ) (f : ι → List (K × V)) : ChunkOp ι K V → Prop
  | .first i => f i ≠ []
  | .splitInsert i j e =>
    f i = [] ∧ (∀ a ∈ f j, a.1 ≠ e.1) ∧ (f j).countP (e.1 < ·.1) + 1 ≤ cap
  | .stealHalf i _ => f i = []
  | .stealHalfAndInsert i j e => f i = [] ∧ f j ≠ [] ∧ ∀ a ∈ f j, a.1 ≠ e.1
  | .merge i j =>
    (∀ a ∈ f i, ∀ b ∈ f j, a.1 < b.1) ∧ (f i).length + (f j).length ≤ cap
  | _ => True

instance (cap : ℕ) (f : ι → List (K × V)) (op : ChunkOp ι K V) : Decidable (op.Permitted cap f) :=
  match op with
  | .first i => inferInstanceAs (Decidable (f i ≠ []))
  | .splitInsert _ _ _ => inferInstanceAs (Decidable (_ ∧ _ ∧ _))
  | .stealHalf i _ => inferInstanceAs (Decidable (f i = []))
  | .stealHalfAndInsert _ _ _ => inferInstanceAs (Decidable (_ ∧ _ ∧ _))
  | .merge _ _ => inferInstanceAs (Decidable (_ ∧ _))
  | .insert _ _ | .remove _ _ | .contains _ _ | .findLte _ _ | .last _ | .maxKey _ | .getSize _ =>
    inferInstanceAs (Decidable True)

namespace Chunk

/-- Every operation in a row is called as it should be, by the vectors it finds. -/
def Permitted (cap : ℕ) : (ι → List (K × V)) → List (ChunkOp ι K V) → Prop
  | _, [] => True
  | f, op :: ops => op.Permitted cap f ∧ Permitted cap ((sfra cap).exec f op).2 ops

instance decidablePermitted (cap : ℕ) : (f : ι → List (K × V)) → (ops : List (ChunkOp ι K V)) →
    Decidable (Permitted cap f ops)
  | _, [] => inferInstanceAs (Decidable True)
  | f, op :: ops =>
    have := decidablePermitted cap ((sfra cap).exec f op).2 ops
    inferInstanceAs (Decidable (_ ∧ _))

/-- Corresponding vectors: a sorted one, and one of the same pairs with the minimum
    and the maximum in their slots. -/
structure Agree (cap : ℕ) (s : VectorSfra K V) (u : VectorUmfra K V) : Prop where
  sorted : KeySorted s
  perm : u.Perm s
  length_le : s.length ≤ cap
  minMax : VectorUmfra.MinMax u

namespace Agree

variable {cap : ℕ} {s : VectorSfra K V} {u : VectorUmfra K V} {k : K} {e : K × V}

theorem nil (cap : ℕ) : Agree cap ([] : VectorSfra K V) [] :=
  ⟨.nil, .refl _, Nat.zero_le _, VectorUmfra.minMax_nil⟩

section

variable (h : Agree cap s u)

include h

theorem distinct : VectorUmfra.Distinct u :=
  (h.perm.map Prod.fst).nodup_iff.2 (List.pairwise_map.2 (h.sorted.imp fun hab => hab.ne))

theorem length_eq : u.length = s.length := h.perm.length_eq

theorem length_le' : u.length ≤ cap := h.length_eq.trans_le h.length_le

theorem mem_iff : e ∈ u ↔ e ∈ s := h.perm.mem_iff

omit [LinearOrder K] h in
/-- A key is there, or not. -/
theorem key_cases (s : VectorSfra K V) (k : K) : (∃ a, (k, a) ∈ s) ∨ ∀ e ∈ s, e.1 ≠ k := by
  by_cases hk : ∃ a, (k, a) ∈ s
  · exact .inl hk
  · exact .inr fun e he hek => hk ⟨e.2, hek ▸ he⟩

theorem contains_eq (k : K) : u.contains k = s.containsValue k := by
  rcases key_cases s k with ⟨a, ha⟩ | hk
  · rw [VectorUmfra.contains_eq_some h.distinct (h.mem_iff.2 ha),
      VectorSfra.containsValue_eq_some h.sorted ha]
  · rw [VectorUmfra.contains_eq_none fun e he => hk e (h.mem_iff.1 he),
      VectorSfra.containsValue_eq_none h.sorted hk]

theorem findLte_eq (k : K) : u.findLte k = s.findLte k := by
  cases hs : s.findLte k with
  | none =>
    exact VectorUmfra.findLte_eq_none fun e he =>
      VectorSfra.lt_of_findLte_eq_none h.sorted hs (h.mem_iff.1 he)
  | some e =>
    obtain ⟨he, hek⟩ := VectorSfra.findLte_mem h.sorted hs
    exact VectorUmfra.findLte_eq_some h.distinct (h.mem_iff.2 he) hek fun e' he' =>
      VectorSfra.le_findLte h.sorted hs (h.mem_iff.1 he')

/-- The minimum is the first pair of either vector. -/
theorem first_eq : u.first = s.first := by
  cases hs : s with
  | nil =>
    have hu : u = [] := List.Perm.eq_nil (hs ▸ h.perm)
    rw [hu]
    rfl
  | cons e t =>
    subst hs
    obtain ⟨m, hm⟩ : ∃ m, u[0]? = some m :=
      ⟨_, List.getElem?_eq_getElem (by rw [h.length_eq]; exact Nat.succ_pos _)⟩
    have hle : m.1 ≤ e.1 := not_lt.1 (h.minMax.min m hm e (h.mem_iff.2 List.mem_cons_self))
    have hge : e.1 ≤ m.1 := h.sorted.head_le (h.mem_iff.1 (List.mem_of_getElem? hm))
    rw [VectorUmfra.first, VectorUmfra.keyAt, hm]
    exact congrArg some (le_antisymm hle hge)

/-- The maximum is in its slot, or at the end. -/
theorem last_eq : u.last = s.last := by
  rcases List.eq_nil_or_concat' s with rfl | ⟨l, e, rfl⟩
  · rw [List.Perm.eq_nil h.perm]
    rfl
  · have hmax : ∀ a ∈ l ++ [e], a.1 ≤ e.1 := by
      intro a ha
      rcases List.mem_append.1 ha with ha | ha
      · exact (h.sorted.lt_of_append ha List.mem_cons_self).le
      · rw [List.mem_singleton.1 ha]
    have heu : e ∈ u := h.mem_iff.2 (by simp)
    have hslot : ∀ m, m ∈ u → e.1 ≤ m.1 → m.1 = e.1 := fun m hm hle =>
      le_antisymm (hmax m (h.mem_iff.1 hm)) hle
    have hlast : VectorSfra.last (l ++ [e]) = some e.1 := by
      rw [VectorSfra.last, List.getLast?_concat]
      rfl
    rw [hlast]
    match u, heu, hslot, h with
    | [m], heu, hslot, _ =>
      exact congrArg some (hslot m (by simp) (List.mem_singleton.1 heu ▸ le_rfl))
    | m :: x :: t, heu, hslot, h =>
      refine congrArg some (hslot x (by simp) ?_)
      exact not_lt.1 (h.minMax.max x rfl e heu)

theorem maxKey_eq : u.maxKey = s.maxKey := (VectorUmfra.maxKey_eq_last u).trans h.last_eq

/-- Inserting a pair: it is there, there is no room, or it is inserted. -/
theorem insert (e : K × V) :
    u.insert cap e = .exists ∧ s.insert cap e = .exists ∨
      u.insert cap e = .overfull ∧ s.insert cap e = .overfull ∨
      ∃ u' s', u.insert cap e = .ok u' ∧ s.insert cap e = .ok s' ∧ Agree cap s' u' := by
  obtain ⟨k, a⟩ := e
  have hs := h.sorted
  obtain ⟨lo, hi, rfl, hc⟩ := hs.exists_cut k
  rcases key_cases (lo ++ hi) k with ⟨x, hx⟩ | hk
  · have hfirst := (VectorSfra.mem_iff_first hs hc).1 ⟨_, hx, rfl⟩
    exact .inl ⟨VectorUmfra.insert_eq_exists ⟨_, h.mem_iff.2 hx, rfl⟩,
      VectorSfra.insert_eq_exists hs hc hfirst cap a⟩
  · have hfirst : VectorSfra.first hi ≠ some k := fun hf =>
      ((VectorSfra.mem_iff_first hs hc).2 hf).elim fun e he => hk e he.1 he.2
    have hku : ∀ e ∈ u, e.1 ≠ k := fun e he => hk e (h.mem_iff.1 he)
    by_cases hfull : (lo ++ hi).length = cap
    · exact .inr (.inl ⟨VectorUmfra.insert_eq_overfull hku (h.length_eq.trans hfull),
        VectorSfra.insert_eq_overfull hs hc hfirst hfull a⟩)
    · have hlt : (lo ++ hi).length < cap := lt_of_le_of_ne h.length_le hfull
      obtain ⟨u', hu', hp, hm⟩ := VectorUmfra.insert_eq_ok (e := (k, a)) h.minMax hku
        (h.length_eq.trans_lt hlt)
      refine .inr (.inr ⟨u', _, hu', VectorSfra.insert_eq_ok hs hc hfirst hfull a, ?_, ?_, ?_, hm⟩)
      · exact hs.insert hc (fun e he => hk e (List.mem_append_right _ he)) a
      · exact hp.trans ((h.perm.cons _).trans List.perm_middle.symm)
      · rw [List.perm_middle.length_eq, List.length_cons]
        exact hlt

/-- Removing a key: it is not there, or its pair is removed. -/
theorem remove (k : K) : (u.remove cap k).1 = (s.remove k).1 ∧
    Agree cap (s.remove k).2 (u.remove cap k).2 := by
  rcases key_cases s k with ⟨a, ha⟩ | hk
  · obtain ⟨s', hs', hsp, hss⟩ := VectorSfra.remove_eq_some h.sorted ha
    obtain ⟨u', hu', hup, hum⟩ := VectorUmfra.remove_eq_some h.minMax h.distinct h.length_le'
      (h.mem_iff.2 ha)
    rw [hs', hu']
    refine ⟨rfl, hss, ((hup.trans h.perm).trans hsp.symm).cons_inv, ?_, hum⟩
    have := hsp.length_eq
    rw [List.length_cons] at this
    exact (Nat.le_succ _).trans (this.trans_le h.length_le)
  · rw [VectorSfra.remove_eq_none h.sorted hk,
      VectorUmfra.remove_eq_none fun e he => hk e (h.mem_iff.1 he)]
    exact ⟨rfl, h⟩

/-- Stealing all pairs of a vector above. -/
theorem merge {s' : VectorSfra K V} {u' : VectorUmfra K V} (h' : Agree cap s' u')
    (hlt : ∀ a ∈ s, ∀ b ∈ s', a.1 < b.1) (hcap : s.length + s'.length ≤ cap) :
    Agree cap (s.merge s') (u.merge cap u') := by
  obtain ⟨hp, hm⟩ := VectorUmfra.merge_spec h.minMax h'.minMax
    (fun a ha b hb => hlt a (h.mem_iff.1 ha) b (h'.mem_iff.1 hb))
    (show _ ≤ cap by rw [h.length_eq, h'.length_eq]; exact hcap)
  refine ⟨List.pairwise_append.2 ⟨h.sorted, h'.sorted, hlt⟩, hp.trans (h.perm.append h'.perm),
    ?_, hm⟩
  rw [VectorSfra.merge, List.length_append]
  exact hcap

end

/-- The halves of the sorted vector, and those of the pairs. -/
theorem halves {a b : VectorSfra K V} {t : VectorUmfra K V} (hs : KeySorted (a ++ b))
    (hp : (u ++ t).Perm (a ++ b)) (hlt : ∀ e ∈ u, ∀ e' ∈ t, e.1 < e'.1)
    (hlen : u.length = a.length) (ha : a.length ≤ cap) (hb : b.length ≤ cap)
    (hu : VectorUmfra.MinMax u) (ht : VectorUmfra.MinMax t) : Agree cap a u ∧ Agree cap b t := by
  obtain ⟨u', t', hup, htp, heq⟩ := hs.exists_halves hp hlt
  obtain ⟨rfl, rfl⟩ := List.append_inj heq (hup.length_eq.trans hlen)
  exact ⟨⟨hs.left, hup.symm, ha, hu⟩, ⟨hs.right, htp.symm, hb, ht⟩⟩

section

variable (h : Agree cap s u)

include h

theorem splitInsert (hk : ∀ a ∈ s, a.1 ≠ e.1) (hfit : s.countP (e.1 < ·.1) + 1 ≤ cap) :
    Agree cap (s.splitInsert e).1 (u.splitInsert cap e).1 ∧
      Agree cap (s.splitInsert e).2 (u.splitInsert cap e).2 := by
  obtain ⟨k, x⟩ := e
  have hs := h.sorted
  obtain ⟨lo, hi, rfl, hc⟩ := hs.exists_cut k
  have hhi : ∀ a ∈ hi, k < a.1 := fun a ha =>
    lt_of_le_of_ne (hc.hi a ha) (hk a (List.mem_append_right _ ha)).symm
  obtain ⟨v, t, heq, hsplit⟩ := VectorUmfra.splitInsert_spec (e := (k, x)) h.minMax h.distinct
    h.length_le' (fun a ha => hk a (h.mem_iff.1 ha)) (by rw [h.perm.countP_eq]; exact hfit)
  have hs' : KeySorted (lo ++ (k, x) :: hi) := hs.insert hc (fun a ha => (hhi a ha).ne') x
  have hp : (v ++ t).Perm (lo ++ (k, x) :: hi) :=
    hsplit.perm.trans ((h.perm.cons _).trans List.perm_middle.symm)
  have hlt : ∀ a ∈ v, ∀ b ∈ t, a.1 < b.1 := fun a ha b hb =>
    (hsplit.cut.lo a ha).trans_le (hsplit.cut.hi b hb)
  -- either is cut at the new key, and so the first halves are of one length
  have hlen : v.length = lo.length := by
    obtain ⟨v', t', hvp, htp, heq'⟩ := hs'.exists_halves hp hlt
    have hcut : Cut k v' t' := ⟨fun a ha => hsplit.cut.lo a (hvp.mem_iff.1 ha),
      fun a ha => hsplit.cut.hi a (htp.mem_iff.1 ha)⟩
    have hcut' : Cut k lo ((k, x) :: hi) := by
      refine ⟨hc.lo, fun a ha => ?_⟩
      rcases List.mem_cons.1 ha with rfl | ha
      · exact le_rfl
      · exact hc.hi a ha
    rw [← hvp.length_eq, (hcut.unique hcut' heq').1]
  have hlo := h.length_le
  rw [List.length_append] at hlo
  have hfit' : hi.length + 1 ≤ cap := by
    refine (Nat.succ_le_succ ?_).trans hfit
    rw [List.countP_append, List.countP_eq_length.2 fun a ha => decide_eq_true (hhi a ha)]
    exact Nat.le_add_left _ _
  rw [VectorSfra.splitInsert_eq hs hc, heq]
  have hcap : lo.length ≤ cap := by omega
  exact halves hs' hp hlt hlen hcap hfit' hsplit.keeps hsplit.steals

theorem stealHalf (nth : NthElement K V) :
    Agree cap s.stealHalf.1 (u.stealHalf nth cap).1 ∧
      Agree cap s.stealHalf.2 (u.stealHalf nth cap).2 := by
  obtain ⟨v, t, heq, hp, hlen, hlt, hv, ht⟩ :=
    VectorUmfra.stealHalf_spec nth h.minMax h.distinct h.length_le'
  have hcap := h.length_le
  have happ := List.take_append_drop (s.length / 2) s
  rw [heq, VectorSfra.stealHalf]
  dsimp only
  refine halves (by rw [happ]; exact h.sorted) (by rw [happ]; exact hp.trans h.perm) hlt ?_ ?_ ?_
    hv ht
  · rw [hlen, h.length_eq, List.length_take]
    omega
  · rw [List.length_take]
    omega
  · rw [List.length_drop]
    omega

theorem stealHalfAndInsert (nth : NthElement K V) (hne : s ≠ []) (hk : ∀ a ∈ s, a.1 ≠ e.1) :
    Agree cap (s.stealHalfAndInsert cap e).1 (u.stealHalfAndInsert nth cap e).1 ∧
      Agree cap (s.stealHalfAndInsert cap e).2 (u.stealHalfAndInsert nth cap e).2 := by
  obtain ⟨k, x⟩ := e
  have hcap := h.length_le
  have hpos := List.length_pos_iff.2 hne
  have hlenu := h.length_eq
  obtain ⟨v, t, heq, hp, hlen, hlt, hv, ht⟩ :=
    VectorUmfra.stealHalfAndInsert_spec (e := (k, x)) nth h.minMax h.distinct h.length_le'
      (List.ne_nil_of_length_pos (by omega)) fun a ha => hk a (h.mem_iff.1 ha)
  have hs := h.sorted
  obtain ⟨lo, hi, rfl, hc⟩ := hs.exists_cut k
  have hfirst : VectorSfra.first hi ≠ some k := fun hf =>
    ((VectorSfra.mem_iff_first hs hc).2 hf).elim fun e he => hk e he.1 he.2
  obtain ⟨a, b, hab, happ, ha, hb⟩ :=
    VectorSfra.stealHalfAndInsert_spec hs hc hfirst rfl hpos hcap x
  rw [heq, hab]
  dsimp only
  refine halves ?_ ?_ hlt (by omega) (by omega) (by omega) hv ht
  · rw [happ]
    exact hs.insert hc (fun a ha => hk a (List.mem_append_right _ ha)) x
  · rw [happ]
    exact hp.trans ((h.perm.cons _).trans List.perm_middle.symm)

end

end Agree

section Run

variable (nth : NthElement K V) {cap : ℕ} {f g : ι → List (K × V)}

theorem update_agree (h : ∀ i, Agree cap (f i) (g i)) (i : ι) {s u : List (K × V)}
    (hsu : Agree cap s u) (j : ι) :
    Agree cap (Function.update f i s j) (Function.update g i u j) := by
  by_cases hj : j = i
  · subst hj
    rw [Function.update_self, Function.update_self]
    exact hsu
  · rw [Function.update_of_ne hj, Function.update_of_ne hj]
    exact h j

theorem steal_agree (h : ∀ i, Agree cap (f i) (g i)) (i j : ι)
    {p q : List (K × V) × List (K × V)} (hpq : Agree cap p.1 q.1 ∧ Agree cap p.2 q.2) (l : ι) :
    Agree cap (steal f i j p l) (steal g i j q l) :=
  update_agree (update_agree h j hpq.1) i hpq.2 l

/-- An operation has one result, and keeps the families in agreement. -/
theorem exec_agree (h : ∀ i, Agree cap (f i) (g i)) {op : ChunkOp ι K V}
    (hop : op.Permitted cap f) :
    ((umfra nth cap).exec g op).1 = ((sfra cap).exec f op).1 ∧
      ∀ i, Agree cap (((sfra cap).exec f op).2 i) (((umfra nth cap).exec g op).2 i) := by
  cases op with
  | insert i e =>
    rw [exec, exec]
    dsimp only [sfra, umfra]
    rcases (h i).insert e with ⟨hu, hs⟩ | ⟨hu, hs⟩ | ⟨u, s, hu, hs, hsu⟩
    · rw [hu, hs]
      exact ⟨rfl, h⟩
    · rw [hu, hs]
      exact ⟨rfl, h⟩
    · rw [hu, hs]
      exact ⟨rfl, update_agree h i hsu⟩
  | remove i k =>
    exact ⟨congrArg ChunkResult.value ((h i).remove k).1, update_agree h i ((h i).remove k).2⟩
  | contains i k => exact ⟨congrArg ChunkResult.value ((h i).contains_eq k), h⟩
  | findLte i k => exact ⟨congrArg ChunkResult.pair ((h i).findLte_eq k), h⟩
  | first i => exact ⟨congrArg ChunkResult.key (h i).first_eq, h⟩
  | last i => exact ⟨congrArg ChunkResult.key (h i).last_eq, h⟩
  | maxKey i => exact ⟨congrArg ChunkResult.key (h i).maxKey_eq, h⟩
  | getSize i => exact ⟨congrArg ChunkResult.size (h i).length_eq, h⟩
  | splitInsert i j e => exact ⟨rfl, steal_agree h i j ((h j).splitInsert hop.2.1 hop.2.2)⟩
  | stealHalf i j => exact ⟨rfl, steal_agree h i j ((h j).stealHalf nth)⟩
  | stealHalfAndInsert i j e =>
    exact ⟨rfl, steal_agree h i j ((h j).stealHalfAndInsert nth hop.2.1 hop.2.2)⟩
  | merge i j =>
    exact ⟨rfl, steal_agree h i j ⟨.nil cap, (h i).merge (h j) hop.1 hop.2⟩⟩

/-- And so do operations in a row. -/
theorem run_agree (h : ∀ i, Agree cap (f i) (g i)) {ops : List (ChunkOp ι K V)}
    (hops : Permitted cap f ops) :
    ((umfra nth cap).run g ops).1 = ((sfra cap).run f ops).1 ∧
      ∀ i, Agree cap (((sfra cap).run f ops).2 i) (((umfra nth cap).run g ops).2 i) := by
  induction ops generalizing f g with
  | nil => exact ⟨rfl, h⟩
  | cons op ops ih =>
    obtain ⟨hres, hnext⟩ := exec_agree nth h hops.1
    obtain ⟨hress, hend⟩ := ih hnext hops.2
    exact ⟨congrArg₂ List.cons hres hress, hend⟩

theorem Permitted.take {ops : List (ChunkOp ι K V)} (h : Permitted cap f ops) (n : ℕ) :
    Permitted cap f (ops.take n) := by
  induction ops generalizing f n with
  | nil =>
    rw [List.take_nil]
    exact h
  | cons op ops ih =>
    cases n with
    | zero => exact trivial
    | succ n => exact ⟨h.1, ih h.2 n⟩

/-- The chunk implementations agree: whatever operations are called, as they should
    be, on vectors that are empty at first, the results are the same, and after
    every operation, corresponding vectors hold the same pairs, of distinct keys
    and within the capacity, with the minimum and the maximum of the unsorted ones
    in their slots. -/
theorem umfra_agrees_sfra {ops : List (ChunkOp ι K V)} (hops : Permitted cap (fun _ => []) ops) :
    ((umfra nth cap).run (fun _ => []) ops).1 = ((sfra cap).run (fun _ => []) ops).1 ∧
      ∀ n i, (((umfra nth cap).run (fun _ => []) (ops.take n)).2 i).Perm
          (((sfra cap).run (fun _ => []) (ops.take n)).2 i) ∧
        (((umfra nth cap).run (fun _ => []) (ops.take n)).2 i).length ≤ cap ∧
        VectorUmfra.Distinct (((umfra nth cap).run (fun _ => []) (ops.take n)).2 i) ∧
        VectorUmfra.MinMax (((umfra nth cap).run (fun _ => []) (ops.take n)).2 i) := by
  have hnil : ∀ _ : ι, Agree cap ([] : List (K × V)) [] := fun _ => .nil cap
  refine ⟨(run_agree nth hnil hops).1, fun n i => ?_⟩
  have h := (run_agree nth hnil (hops.take n)).2 i
  exact ⟨h.perm, h.length_le', h.distinct, h.minMax⟩

end Run

/-- A chunk that gets full, is halved for a new pair, split, and merged again. -/
def splits : List (ChunkOp ℕ ℕ ℕ) :=
  [.insert 0 (5, 50), .insert 0 (3, 30), .insert 0 (9, 90), .insert 0 (7, 70), .insert 0 (8, 80),
    .stealHalfAndInsert 1 0 (8, 80), .splitInsert 2 0 (4, 40), .remove 2 4, .stealHalf 3 1,
    .merge 0 2, .maxKey 0, .first 3, .findLte 1 8, .remove 0 3, .last 0, .contains 0 7]

theorem umfra_agrees_sfra_splits : Permitted 4 (fun _ => []) splits ∧
    ((umfra .ofSort 4).run (fun _ => []) splits).1 = ((sfra 4).run (fun _ => []) splits).1 := by
  have hops : Permitted 4 (fun _ => []) splits := by decide +kernel
  exact ⟨hops, (umfra_agrees_sfra .ofSort hops).1⟩

end Chunk

end DiscoSkip
