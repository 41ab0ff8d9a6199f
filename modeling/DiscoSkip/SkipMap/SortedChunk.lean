import DiscoSkip.Chunk

/-!
# Chunks as sorted vectors

A chunk implementation is *sorted* if its vectors work as sorted ones do: each of them
represents a sorted vector, and the operations, on vectors that represent sorted ones, have
the results that they have on these. The nodes of a skip vector may use any such
implementation, sorted chunks (`SortedChunk.sfra`) and unsorted ones
(`SortedChunk.umfra`) among them.

What a vector represents are its pairs in order (`pairs`).
-/

namespace DiscoSkip

open Lib

variable {K T : Type*} [LinearOrder K]

/-- A chunk implementation that works as one of sorted vectors, of the capacity `cap`. -/
structure SortedChunk (K T : Type*) [LinearOrder K] (cap : ℕ) extends Chunk K T where
  /-- A vector represents a sorted one. -/
  Rep : List (K × T) → List (K × T) → Prop
  nil : Rep [] []
  sorted : ∀ {s u}, Rep s u → KeySorted s
  perm : ∀ {s u}, Rep s u → u.Perm s
  length_le : ∀ {s u}, Rep s u → s.length ≤ cap
  insert_rep : ∀ {s u} e, Rep s u →
    insert u e = .exists ∧ VectorSfra.insert cap s e = .exists ∨
      insert u e = .overfull ∧ VectorSfra.insert cap s e = .overfull ∨
      ∃ u' s', insert u e = .ok u' ∧ VectorSfra.insert cap s e = .ok s' ∧ Rep s' u'
  remove_rep : ∀ {s u} k, Rep s u →
    (remove u k).1 = (VectorSfra.remove s k).1 ∧ Rep (VectorSfra.remove s k).2 (remove u k).2
  contains_eq : ∀ {s u} k, Rep s u → contains u k = VectorSfra.containsValue s k
  findLte_eq : ∀ {s u} k, Rep s u → findLte u k = VectorSfra.findLte s k
  first_eq : ∀ {s u}, Rep s u → first u = VectorSfra.first s
  last_eq : ∀ {s u}, Rep s u → last u = VectorSfra.last s
  splitInsert_rep : ∀ {s u e}, Rep s u → (∀ a ∈ s, a.1 ≠ e.1) → s.countP (e.1 < ·.1) + 1 ≤ cap →
    Rep (VectorSfra.splitInsert s e).1 (splitInsert u e).1 ∧
      Rep (VectorSfra.splitInsert s e).2 (splitInsert u e).2
  stealHalf_rep : ∀ {s u}, Rep s u →
    Rep (VectorSfra.stealHalf s).1 (stealHalf u).1 ∧ Rep (VectorSfra.stealHalf s).2 (stealHalf u).2
  stealHalfAndInsert_rep : ∀ {s u e}, Rep s u → s ≠ [] → (∀ a ∈ s, a.1 ≠ e.1) →
    Rep (VectorSfra.stealHalfAndInsert cap s e).1 (stealHalfAndInsert u e).1 ∧
      Rep (VectorSfra.stealHalfAndInsert cap s e).2 (stealHalfAndInsert u e).2
  merge_rep : ∀ {s u s' u'}, Rep s u → Rep s' u' → (∀ a ∈ s, ∀ b ∈ s', a.1 < b.1) →
    s.length + s'.length ≤ cap → Rep (VectorSfra.merge s s') (merge u u')

namespace SortedChunk

variable {cap : ℕ}

theorem sfra_nil (cap : ℕ) :
    ([] : List (K × T)) = [] ∧ KeySorted ([] : List (K × T)) ∧ ([] : List (K × T)).length ≤ cap :=
  ⟨rfl, .nil, Nat.zero_le _⟩

/-- Both parts of a split vector are sorted, and fit. -/
theorem sfra_splitInsert {s : List (K × T)} {e : K × T} (hs : KeySorted s) (hlen : s.length ≤ cap)
    (hk : ∀ a ∈ s, a.1 ≠ e.1) (hfit : s.countP (e.1 < ·.1) + 1 ≤ cap) :
    (KeySorted (VectorSfra.splitInsert s e).1 ∧ (VectorSfra.splitInsert s e).1.length ≤ cap) ∧
      KeySorted (VectorSfra.splitInsert s e).2 ∧ (VectorSfra.splitInsert s e).2.length ≤ cap := by
  obtain ⟨lo, hi, rfl, hc⟩ := hs.exists_cut e.1
  rw [VectorSfra.splitInsert_eq hs hc]
  rw [List.length_append] at hlen
  have hhi : ∀ a ∈ hi, e.1 < a.1 := fun a ha =>
    lt_of_le_of_ne (hc.hi a ha) (hk a (List.mem_append_right _ ha)).symm
  refine ⟨⟨hs.left, by dsimp only; omega⟩, List.pairwise_cons.2 ⟨hhi, hs.right⟩, ?_⟩
  rw [List.countP_append, List.countP_eq_length.2 fun a ha => decide_eq_true (hhi a ha)] at hfit
  rw [List.length_cons]
  omega

/-- So are those of a vector that half was stolen of, with a pair inserted. -/
theorem sfra_stealHalfAndInsert {s : List (K × T)} {e : K × T} (hs : KeySorted s)
    (hlen : s.length ≤ cap) (hne : s ≠ []) (hk : ∀ a ∈ s, a.1 ≠ e.1) :
    (KeySorted (VectorSfra.stealHalfAndInsert cap s e).1 ∧
        (VectorSfra.stealHalfAndInsert cap s e).1.length ≤ cap) ∧
      KeySorted (VectorSfra.stealHalfAndInsert cap s e).2 ∧
        (VectorSfra.stealHalfAndInsert cap s e).2.length ≤ cap := by
  obtain ⟨k, x⟩ := e
  obtain ⟨lo, hi, rfl, hc⟩ := hs.exists_cut k
  have hpos := List.length_pos_iff.2 hne
  have hfirst : VectorSfra.first hi ≠ some k := fun hf =>
    ((VectorSfra.mem_iff_first hs hc).2 hf).elim fun e he => hk e he.1 he.2
  obtain ⟨a, b, hab, happ, ha, hb⟩ :=
    VectorSfra.stealHalfAndInsert_spec hs hc hfirst rfl hpos hlen x
  have hs' : KeySorted (a ++ b) :=
    happ ▸ hs.insert hc (fun e he => hk e (List.mem_append_right _ he)) x
  rw [hab]
  exact ⟨⟨hs'.left, by dsimp only; omega⟩, hs'.right, by dsimp only; omega⟩

/-- Sorted chunks represent themselves. -/
def sfra (cap : ℕ) : SortedChunk K T cap where
  __ := Chunk.sfra cap
  Rep s u := u = s ∧ KeySorted s ∧ s.length ≤ cap
  nil := sfra_nil cap
  sorted h := h.2.1
  perm h := h.1 ▸ .refl _
  length_le h := h.2.2
  insert_rep := by
    rintro _ s ⟨k, x⟩ ⟨rfl, hs, hlen⟩
    change VectorSfra.insert cap s (k, x) = _ ∧ _ ∨ VectorSfra.insert cap s (k, x) = _ ∧ _ ∨ _
    obtain ⟨lo, hi, rfl, hc⟩ := hs.exists_cut k
    by_cases hk : VectorSfra.first hi = some k
    · have heq := VectorSfra.insert_eq_exists hs hc hk cap x
      exact .inl ⟨heq, heq⟩
    · by_cases hfull : (lo ++ hi).length = cap
      · have heq := VectorSfra.insert_eq_overfull hs hc hk hfull x
        exact .inr (.inl ⟨heq, heq⟩)
      · have heq := VectorSfra.insert_eq_ok hs hc hk hfull x
        refine .inr (.inr ⟨_, _, heq, heq, rfl, hs.insert hc (fun e he hek => hk ?_) x, ?_⟩)
        · exact (VectorSfra.mem_iff_first hs hc).1 ⟨e, List.mem_append_right _ he, hek⟩
        · rw [List.perm_middle.length_eq, List.length_cons]
          exact lt_of_le_of_ne hlen hfull
  remove_rep := by
    rintro _ s k ⟨rfl, hs, hlen⟩
    refine ⟨rfl, rfl, ?_⟩
    rcases Chunk.Agree.key_cases s k with ⟨a, ha⟩ | hk
    · obtain ⟨s', heq, hp, hs'⟩ := VectorSfra.remove_eq_some hs ha
      rw [heq]
      refine ⟨hs', (Nat.le_succ _).trans (LE.le.trans ?_ hlen)⟩
      exact hp.length_eq.le
    · rw [VectorSfra.remove_eq_none hs hk]
      exact ⟨hs, hlen⟩
  contains_eq _ h := h.1 ▸ rfl
  findLte_eq _ h := h.1 ▸ rfl
  first_eq h := h.1 ▸ rfl
  last_eq h := h.1 ▸ rfl
  splitInsert_rep := by
    rintro _ s e ⟨rfl, hs, hlen⟩ hk hfit
    obtain ⟨hleft, hright⟩ := sfra_splitInsert hs hlen hk hfit
    exact ⟨⟨rfl, hleft⟩, rfl, hright⟩
  stealHalf_rep := by
    rintro _ s ⟨rfl, hs, hlen⟩
    refine ⟨⟨rfl, hs.sublist (List.take_sublist _ _), ?_⟩, rfl,
      hs.sublist (List.drop_sublist _ _), ?_⟩
    · exact (List.length_take_le _ _).trans ((Nat.div_le_self _ _).trans hlen)
    · rw [VectorSfra.stealHalf, List.length_drop]
      exact (Nat.sub_le _ _).trans hlen
  stealHalfAndInsert_rep := by
    rintro _ s e ⟨rfl, hs, hlen⟩ hne hk
    obtain ⟨hleft, hright⟩ := sfra_stealHalfAndInsert hs hlen hne hk
    exact ⟨⟨rfl, hleft⟩, rfl, hright⟩
  merge_rep := by
    rintro _ s _ s' ⟨rfl, hs, -⟩ ⟨rfl, hs', -⟩ hlt hlen
    refine ⟨rfl, List.pairwise_append.2 ⟨hs, hs', hlt⟩, ?_⟩
    rw [VectorSfra.merge, List.length_append]
    exact hlen

/-- Unsorted chunks represent the sorted ones in agreement with them. -/
def umfra (nth : NthElement K T) (cap : ℕ) : SortedChunk K T cap where
  __ := Chunk.umfra nth cap
  Rep := Chunk.Agree cap
  nil := .nil cap
  sorted h := h.sorted
  perm h := h.perm
  length_le h := h.length_le
  insert_rep e h := h.insert e
  remove_rep k h := h.remove k
  contains_eq k h := h.contains_eq k
  findLte_eq k h := h.findLte_eq k
  first_eq h := h.first_eq
  last_eq h := h.last_eq
  splitInsert_rep h := h.splitInsert
  stealHalf_rep h := h.stealHalf nth
  stealHalfAndInsert_rep h := h.stealHalfAndInsert nth
  merge_rep h := h.merge

/-! ## What a vector represents -/

/-- The pairs of a vector, in the order of their keys. -/
def pairs (u : List (K × T)) : List (K × T) :=
  u.mergeSort fun a b => decide (a.1 ≤ b.1)

theorem pairs_perm (u : List (K × T)) : (pairs u).Perm u := List.mergeSort_perm u _

theorem length_pairs (u : List (K × T)) : (pairs u).length = u.length := (pairs_perm u).length_eq

@[simp] theorem pairs_nil : pairs ([] : List (K × T)) = [] := List.mergeSort_nil

theorem pairs_eq_nil {u : List (K × T)} : pairs u = [] ↔ u = [] := by
  rw [← List.length_eq_zero_iff, length_pairs, List.length_eq_zero_iff]

theorem pairs_of_sorted {u : List (K × T)} (h : KeySorted u) : pairs u = u :=
  KeySorted.eq_of_perm (KeySorted.mergeSort h.nodup_keys) h (pairs_perm u)

variable (c : SortedChunk K T cap)

/-- The vectors that represent their pairs. -/
def Ok (u : List (K × T)) : Prop := c.Rep (pairs u) u

variable {c} {s u w lo hi : List (K × T)} {k : K} {x : T}

/-- A vector represents its pairs only. -/
theorem Rep.pairs_eq (h : c.Rep s u) : c.Ok u ∧ pairs u = s := by
  have hnd : (u.map Prod.fst).Nodup := ((c.perm h).map Prod.fst).nodup_iff.2 (c.sorted h).nodup_keys
  have heq : pairs u = s :=
    KeySorted.eq_of_perm (KeySorted.mergeSort hnd) (c.sorted h) ((pairs_perm u).trans (c.perm h))
  refine ⟨?_, heq⟩
  rw [Ok, heq]
  exact h

theorem ok_nil : c.Ok [] := (Rep.pairs_eq c.nil).1

namespace Ok

variable (h : c.Ok u)

include h

theorem sorted : KeySorted (pairs u) := c.sorted h

theorem length_le : u.length ≤ cap := length_pairs u ▸ c.length_le h

theorem first_eq : c.first u = VectorSfra.first (pairs u) := c.first_eq h

theorem last_eq : c.last u = VectorSfra.last (pairs u) := c.last_eq h

theorem findLte_eq (k : K) : c.findLte u k = VectorSfra.findLte (pairs u) k := c.findLte_eq k h

theorem contains_eq (k : K) : c.contains u k = VectorSfra.containsValue (pairs u) k :=
  c.contains_eq k h

/-- Removing a key that is not there. -/
theorem remove_none (hk : ∀ e ∈ pairs u, e.1 ≠ k) :
    (c.remove u k).1 = none ∧ c.Ok (c.remove u k).2 ∧ pairs (c.remove u k).2 = pairs u := by
  obtain ⟨h₁, h₂⟩ := c.remove_rep k h
  rw [VectorSfra.remove_eq_none h.sorted hk] at h₁ h₂
  exact ⟨h₁, Rep.pairs_eq h₂⟩

theorem remove_some {hi : List (K × T)} (hp : pairs u = lo ++ (k, x) :: hi) :
    (c.remove u k).1 = some x ∧ c.Ok (c.remove u k).2 ∧ pairs (c.remove u k).2 = lo ++ hi := by
  have hs := h.sorted
  rw [hp] at hs
  obtain ⟨h₁, h₂⟩ := c.remove_rep k h
  obtain ⟨v, hv, hperm, hvs⟩ := VectorSfra.remove_eq_some (k := k) (a := x) hs (by simp)
  rw [hp, hv] at h₁ h₂
  have hsub : KeySorted (lo ++ hi) :=
    hs.sublist (List.Sublist.append_left (List.sublist_cons_self _ _) _)
  have heq : v = lo ++ hi :=
    KeySorted.eq_of_perm hvs hsub ((hperm.trans List.perm_middle).cons_inv)
  exact ⟨h₁, heq ▸ Rep.pairs_eq h₂⟩

/-- All pairs of the victim are above those of `u`, and there is room for them. -/
theorem merge (hw : c.Ok w) (hlt : ∀ a ∈ pairs u, ∀ b ∈ pairs w, a.1 < b.1)
    (hcap : u.length + w.length ≤ cap) :
    c.Ok (c.merge u w) ∧ pairs (c.merge u w) = pairs u ++ pairs w := by
  refine Rep.pairs_eq (c.merge_rep h hw hlt ?_)
  rw [length_pairs, length_pairs]
  exact hcap

theorem stealHalf : c.Ok (c.stealHalf u).1 ∧ c.Ok (c.stealHalf u).2 ∧
    pairs (c.stealHalf u).1 = (pairs u).take (u.length / 2) ∧
    pairs (c.stealHalf u).2 = (pairs u).drop (u.length / 2) := by
  obtain ⟨h₁, h₂⟩ := c.stealHalf_rep h
  rw [VectorSfra.stealHalf, length_pairs] at h₁ h₂
  exact ⟨(Rep.pairs_eq h₁).1, (Rep.pairs_eq h₂).1, (Rep.pairs_eq h₁).2, (Rep.pairs_eq h₂).2⟩

variable (hp : pairs u = lo ++ hi) (hc : Cut k lo hi)

include hp hc

omit c h in
theorem ne_of_cut (hs : KeySorted (pairs u)) (hk : VectorSfra.first hi ≠ some k) :
    ∀ e ∈ pairs u, e.1 ≠ k := by
  rw [hp] at hs ⊢
  exact fun e he hek => hk ((VectorSfra.mem_iff_first hs hc).1 ⟨e, he, hek⟩)

theorem insert_exists (hk : VectorSfra.first hi = some k) (x : T) :
    c.insert u (k, x) = .exists := by
  have hs := h.sorted
  rw [hp] at hs
  have heq := VectorSfra.insert_eq_exists hs hc hk cap x
  rw [← hp] at heq
  obtain ⟨hi', -⟩ | ⟨-, hs'⟩ | ⟨u', s', -, hs', -⟩ := c.insert_rep (k, x) h
  · exact hi'
  · rw [heq] at hs'
    exact nomatch hs'
  · rw [heq] at hs'
    exact nomatch hs'

theorem insert_overfull (hk : VectorSfra.first hi ≠ some k) (hcap : u.length = cap) (x : T) :
    c.insert u (k, x) = .overfull := by
  have hs := h.sorted
  rw [hp] at hs
  have heq := VectorSfra.insert_eq_overfull hs hc hk ((hp ▸ length_pairs u).trans hcap) x
  rw [← hp] at heq
  obtain ⟨-, hs'⟩ | ⟨hi', -⟩ | ⟨u', s', -, hs', -⟩ := c.insert_rep (k, x) h
  · rw [heq] at hs'
    exact nomatch hs'
  · exact hi'
  · rw [heq] at hs'
    exact nomatch hs'

theorem insert_ok (hk : VectorSfra.first hi ≠ some k) (hcap : u.length ≠ cap) (x : T) :
    ∃ u', c.insert u (k, x) = .ok u' ∧ c.Ok u' ∧ pairs u' = lo ++ (k, x) :: hi := by
  have hs := h.sorted
  rw [hp] at hs
  have hlen : (lo ++ hi).length ≠ cap := fun heq => hcap ((hp ▸ length_pairs u).symm.trans heq)
  have heq := VectorSfra.insert_eq_ok hs hc hk hlen x
  rw [← hp] at heq
  obtain ⟨-, hs'⟩ | ⟨-, hs'⟩ | ⟨u', s', hu', hs', hrep⟩ := c.insert_rep (k, x) h
  · rw [heq] at hs'
    exact nomatch hs'
  · rw [heq] at hs'
    exact nomatch hs'
  · rw [heq] at hs'
    obtain rfl := VectorSfra.Inserted.ok.inj hs'
    exact ⟨u', hu', Rep.pairs_eq hrep⟩

/-- The pairs above the key are stolen, if there is room for the new one with them. -/
theorem splitInsert (hk : VectorSfra.first hi ≠ some k) (hfit : hi.length + 1 ≤ cap) (x : T) :
    c.Ok (c.splitInsert u (k, x)).1 ∧ c.Ok (c.splitInsert u (k, x)).2 ∧
      pairs (c.splitInsert u (k, x)).1 = lo ∧
      pairs (c.splitInsert u (k, x)).2 = (k, x) :: hi := by
  have hs := h.sorted
  have hne := ne_of_cut hp hc hs hk
  have hcount : (pairs u).countP (k < ·.1) + 1 ≤ cap := by
    rw [hp, List.countP_append,
      List.countP_eq_zero.2 fun a ha => by simpa using (hc.lo a ha).le, Nat.zero_add]
    exact (Nat.succ_le_succ List.countP_le_length).trans hfit
  obtain ⟨h₁, h₂⟩ := c.splitInsert_rep (e := (k, x)) h hne hcount
  rw [hp] at hs h₁ h₂
  rw [VectorSfra.splitInsert_eq hs hc] at h₁ h₂
  exact ⟨(Rep.pairs_eq h₁).1, (Rep.pairs_eq h₂).1, (Rep.pairs_eq h₁).2, (Rep.pairs_eq h₂).2⟩

/-- The halves of the vector with the new pair. -/
theorem stealHalfAndInsert (hk : VectorSfra.first hi ≠ some k) (hpos : 0 < u.length) (x : T) :
    c.Ok (c.stealHalfAndInsert u (k, x)).1 ∧ c.Ok (c.stealHalfAndInsert u (k, x)).2 ∧
      pairs (c.stealHalfAndInsert u (k, x)).1 ++ pairs (c.stealHalfAndInsert u (k, x)).2 =
        lo ++ (k, x) :: hi ∧
      (c.stealHalfAndInsert u (k, x)).1 ≠ [] := by
  have hs := h.sorted
  have hne := ne_of_cut hp hc hs hk
  have hpos' : pairs u ≠ [] := fun h0 => by
    rw [pairs_eq_nil.1 h0] at hpos
    exact absurd hpos (Nat.lt_irrefl 0)
  obtain ⟨h₁, h₂⟩ := c.stealHalfAndInsert_rep (e := (k, x)) h hpos' hne
  have hlen := c.length_le h
  rw [hp] at hs h₁ h₂ hlen hpos'
  obtain ⟨a, b, hab, happ, ha, -⟩ := VectorSfra.stealHalfAndInsert_spec hs hc hk rfl
    (List.length_pos_iff.2 hpos') hlen x
  rw [hab] at h₁ h₂
  obtain ⟨ho₁, he₁⟩ := Rep.pairs_eq h₁
  obtain ⟨ho₂, he₂⟩ := Rep.pairs_eq h₂
  refine ⟨ho₁, ho₂, ?_, fun h0 => ?_⟩
  · rw [he₁, he₂]
    exact happ
  · rw [h0, pairs_nil] at he₁
    have ha0 : a = [] := he₁.symm
    rw [ha0] at ha
    exact nomatch ha

end Ok

end SortedChunk

end DiscoSkip
