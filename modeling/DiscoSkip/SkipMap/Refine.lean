import DiscoSkip.SkipMap.Search

/-!
# The skip vector is a map

A state *represents* a map if the entries of its data layer are the pairs of the map. The
calls return what the map returns, and represent the map after the call: a search finds
the node that covers the key, and

* an insertion puts the pair there and, layer by layer, an entry for the new node of the
  layer below (`Ok.stitch`);
* a removal takes the key from the uppermost layer that has it and, layer by layer, from
  the node that its entry led to (`Ok.removeColumn`).

A removal never has to restart: only an entry leads to a node that is no orphan, and
the search would have found its key above.
-/

namespace DiscoSkip.SkipMap

open Lib

variable {K V : Type*} [LinearOrder K] {cfg : Config K V}

namespace State

/-- The pairs of the data layer are those of the map. -/
def Represents (s : State K V) (m : K → Option V) : Prop :=
  ∀ k x, (k, x) ∈ entries s.data ↔ m k = some x

section Calls

variable {s s' : State K V} {k : K} {x : V} {m : K → Option V} {layer p fresh : ℕ}

/-- The key of an index entry is in the data layer. -/
theorem Ok.exists_data (h : s.Ok cfg none) (hlayer : layer < cfg.layers)
    (he : (k, p) ∈ entries (s.index layer)) : ∃ x, (k, x) ∈ entries s.data := by
  induction layer generalizing p with
  | zero => exact (h.head_of_entry hlayer he).exists_mem
  | succ layer ih =>
    obtain ⟨q, hq⟩ := IsHead.exists_mem (h.head_of_entry hlayer he)
    exact ih (Nat.lt_of_succ_lt hlayer) hq

theorem Represents.isSome_iff (hr : s.Represents m) :
    (m k).isSome ↔ ∃ x, (k, x) ∈ entries s.data := by
  rw [Option.isSome_iff_exists]
  exact exists_congr fun x => (hr k x).symm

variable (s') in
/-- The map with the pair, if it has none of the key. -/
theorem Represents.insert (hr : s.Represents m) (hk : m k = none)
    (hmem : ∀ e, e ∈ entries s'.data ↔ e = (k, x) ∨ e ∈ entries s.data) :
    s'.Represents (put m k (some x)) := by
  intro k' x'
  rw [hmem, hr k' x', Prod.mk.injEq]
  by_cases hkk : k' = k
  · subst hkk
    rw [put_self, hk, Option.some.injEq]
    simp [eq_comm]
  · rw [put_of_ne hkk]
    simp [hkk]

variable (s') in
/-- The map without the key. -/
theorem Represents.remove (hr : s.Represents m)
    (hmem : ∀ e, e ∈ entries s'.data ↔ e ∈ entries s.data ∧ e.1 ≠ k) :
    s'.Represents (put m k none) := by
  intro k' x'
  rw [hmem, hr k' x']
  by_cases hkk : k' = k
  · subst hkk
    rw [put_self]
    simp
  · rw [put_of_ne hkk]
    simp [hkk]

variable (s') in
theorem Represents.of_entries_eq (hr : s.Represents m) (h : entries s'.data = entries s.data) :
    s'.Represents m := fun k x => h ▸ hr k x

/-! ## Lookups -/

theorem Ok.contains (h : s.Ok cfg none) (hr : s.Represents m) (k : K) :
    ∃ s', contains cfg k s = some (m k, s') ∧ s'.Ok cfg none ∧ s'.Represents m := by
  obtain ⟨q, s₁, hs₁, h₁, hdata, hq⟩ := h.skipTo le_rfl (h.startAt_zero (k := k) le_rfl)
  obtain ⟨ns, n, heq, hv⟩ := h₁.data.visit hq cfg.threshold_le (.checkNext false)
  have hr₁ := (hr.of_entries_eq _ (congrArg entries hdata)).of_entries_eq
    { s₁ with data := ns } hv.entries_eq
  refine ⟨{ s₁ with data := ns }, ?_, h₁.visitData hv, hr₁⟩
  rw [State.contains, hs₁, Option.bind_some]
  dsimp only
  rw [heq, Option.map_some]
  dsimp only
  obtain ⟨pre, post, rfl, hcov⟩ := hv.covers
  have hvec := hv.ok.vecs n (by simp)
  rw [hvec.contains_eq]
  cases hm : m k with
  | none =>
    rw [VectorSfra.containsValue_eq_none hvec.sorted]
    intro e he hek
    have hmem := (hr₁ k e.2).1 ((hcov.mem_iff rfl).2 (hek ▸ he))
    rw [hm] at hmem
    exact nomatch hmem
  | some x =>
    rw [VectorSfra.containsValue_eq_some hvec.sorted ((hcov.mem_iff rfl).1 ((hr₁ k x).2 hm))]

/-! ## Insertions -/

/-- A new entry for the loose head below; the head for it, if there is one, is loose. -/
theorem Ok.grownIndex {e : K × ℕ} (h : s.Ok cfg (some (layer, e))) (hlayer : layer < cfg.layers)
    {ns : List (Node K ℕ)} {new : Option ℕ} (hle : s.fresh ≤ fresh)
    (hg : Grown cfg.index fresh e.1 e.2 (s.index layer) ns new) :
    ({ s.setIndex layer ns with fresh } : State K V).Ok cfg
      (new.map fun q => (layer + 1, e.1, q)) := by
  refine h.setIndex hlayer hle hg.ok (fun e' => ?_) (fun e' => ?_) fun i e' hi hi' => ?_
  · rw [h.links layer hlayer.le e', hg.mem_iff]
    cases new <;> simp [hlayer, eq_comm, or_comm]
  · rw [hg.head_iff e']
    have hlink := h.links (layer + 1) hlayer e'
    rw [HeadAt] at hlink
    rw [hlink]
    cases new <;> simp [eq_comm, or_comm]
  · cases new <;> simp [hi.symm, hi'.symm]

/-- The new nodes of the layers get their entries. -/
theorem Ok.stitch {nodes : ℕ → ℕ} (n : ℕ) {down : ℕ} (h : s.Ok cfg (some (layer, k, down)))
    (hn : layer + n < cfg.layers)
    (hcov : ∀ i, layer ≤ i → i ≤ layer + n → CoveredAt k (nodes i) (s.index i)) :
    ∃ s', stitch cfg k nodes n layer down s = some s' ∧ s'.Ok cfg none ∧ s'.data = s.data := by
  induction n generalizing layer down s with
  | zero =>
    obtain ⟨pre, c, post, hns, hid, hc, hk⟩ := hcov layer le_rfl le_rfl
    have hok := h.index layer hn
    rw [hns] at hok
    obtain ⟨ns, fresh', hins, hle, hg⟩ := hok.insert hc hk down
    rw [← hns] at hg
    refine ⟨_, ?_, h.grownIndex hn hle hg, rfl⟩
    rw [State.stitch, hns, ← hid, editAt_eq hok.nodup, hins]
    rfl
  | succ n ih =>
    obtain ⟨pre, c, post, hns, hid, hc, hk⟩ := hcov layer le_rfl (Nat.le_add_right _ _)
    have hlayer : layer < cfg.layers := by omega
    have hok := h.index layer hlayer
    rw [hns] at hok
    obtain ⟨ns, q, fresh', hpart, hle, hg⟩ := hok.partition hc hk down
    rw [← hns] at hg
    have h' := h.grownIndex hlayer hle hg
    obtain ⟨s', hs', hok', hdata⟩ := ih h' (by omega) fun i hi hin => by
      change CoveredAt k (nodes i) (put s.index layer _ i)
      rw [put_of_ne (by omega)]
      exact hcov i (by omega) (by omega)
    refine ⟨s', ?_, hok', hdata⟩
    rw [State.stitch, hns, ← hid, editAt_eq hok.nodup, hpart]
    exact hs'

/-- An insertion returns whether the key was not there, and puts the pair there if not. -/
theorem Ok.insert (h : s.Ok cfg none) (hr : s.Represents m) (w : Walk) (k : K) (x : V)
    {newHeight : ℕ} (hheight : newHeight ≤ cfg.layers) :
    ∃ s', insert cfg k w x newHeight s = some ((m k).isNone, s') ∧ s'.Ok cfg none ∧
      s'.Represents (if (m k).isNone then put m k (some x) else m) := by
  obtain ⟨stop, nodes, s₁, hs₁, hsr⟩ :=
    h.search w le_rfl (h.startAt_zero (k := k) le_rfl) fun _ => 0
  have h₁ := hsr.ok
  have hr₁ : s₁.Represents m := hr.of_entries_eq _ (congrArg entries hsr.data_eq)
  rw [State.insert, hs₁, Option.bind_some]
  cases stop with
  | found layer p =>
    -- an index layer has the key, and so the map has it
    obtain ⟨hlayer, ⟨pre, n, post, q, hns, -, hq⟩, -⟩ := hsr.stops
    have hmem : (k, q) ∈ entries (s₁.index layer) :=
      mem_entries.2 ⟨n, hns ▸ List.mem_append_right _ List.mem_cons_self, hq⟩
    have hsome := hr₁.isSome_iff.2 (h₁.exists_data hlayer hmem)
    have hnone : (m k).isNone = false := by rw [← Option.not_isSome, hsome]; rfl
    refine ⟨s₁, by rw [hnone], h₁, ?_⟩
    rw [hnone]
    exact hr₁
  | down p =>
    obtain ⟨hp, hcovered⟩ := hsr.stops
    obtain ⟨ns, n, heq, hv⟩ := h₁.data.visit hp cfg.threshold_le w
    have h₂ := h₁.visitData hv
    have hr₂ := hr₁.of_entries_eq { s₁ with data := ns } hv.entries_eq
    obtain ⟨pre, post, rfl, hcov⟩ := hv.covers
    have hok := hv.ok
    have hvec := hok.vecs n (by simp)
    dsimp only
    rw [heq, Option.bind_some]
    dsimp only
    cases hm : m k with
    | some y =>
      have hy : (k, y) ∈ n.pairs := (hcov.mem_iff rfl).1 ((hr₂ k y).2 hm)
      split
      · refine ⟨_, ?_, h₂, hr₂⟩
        rw [editAt_eq hok.nodup, Node.insert_exists hvec hy]
        rfl
      · refine ⟨_, ?_, h₂, hr₂⟩
        rw [hvec.contains_eq, VectorSfra.containsValue_eq_some hvec.sorted hy,
          if_pos Option.isSome_some]
        rfl
    | none =>
      have hk : ∀ e ∈ n.pairs, e.1 ≠ k := by
        intro e he hek
        have hmem := (hr₂ k e.2).1 ((hcov.mem_iff rfl).2 (hek ▸ he))
        rw [hm] at hmem
        exact Option.some_ne_none _ hmem.symm
      have hlinks : ∀ e, IsHead (pre ++ n :: post) e ↔ e ∈ entries (s₁.index 0) := fun e =>
        (h₂.links 0 (Nat.zero_le _) e).trans (by simp [cfg.layers_pos])
      split
      · obtain ⟨ns, fresh', hins, hle, hg⟩ := hok.insert hcov hk x
        refine ⟨{ s₁ with data := pre ++ (ns ++ post), fresh := fresh' }, ?_, ?_, ?_⟩
        · rw [editAt_eq hok.nodup, hins]
          rfl
        · refine h₂.setData hle hg.ok (fun e => ?_) fun i e _ => .rfl
          rw [hg.head_iff, hlinks e]
          simp
        · exact hr₂.insert { s₁ with data := pre ++ (ns ++ post), fresh := fresh' } hm
            hg.mem_iff
      · next hheight0 =>
        obtain ⟨ns, q, fresh', hpart, hle, hg⟩ := hok.partition hcov hk x
        have h₃ : ({ s₁ with data := pre ++ (ns ++ post), fresh := fresh' } : State K V).Ok cfg
            (some (0, k, q)) := by
          refine h₂.setData hle hg.ok (fun e => ?_) fun i e hi => ?_
          · rw [hg.head_iff, hlinks e]
            simp [eq_comm, or_comm]
          · simp [hi.symm]
        obtain ⟨s', hs', hok', hdata⟩ := h₃.stitch (newHeight - 1) (by omega)
          fun i _ hi => hcovered i (by omega)
        refine ⟨s', ?_, hok', ?_⟩
        · rw [hvec.contains_eq, VectorSfra.containsValue_eq_none hvec.sorted hk,
            if_neg (by simp), editAt_eq hok.nodup, hpart, Option.map_some, Option.bind_some]
          dsimp only
          rw [hs']
          rfl
        · refine hr₂.insert _ hm fun e => ?_
          rw [hdata]
          exact hg.mem_iff e

/-! ## Removals -/

/-- An index layer without the key: the head below that the entry of the key led to is
    loose. -/
theorem Ok.shrunkIndex {release : Bool} {q : ℕ}
    (h : s.Ok cfg (if release then some (layer + 1, k, p) else none)) (hlayer : layer < cfg.layers)
    (hq : (k, q) ∈ entries (s.index layer)) {ns : List (Node K ℕ)}
    (hs : Shrunk cfg.index s.fresh k (s.index layer) ns)
    (habove : layer + 1 < cfg.layers → ∀ e ∈ entries (s.index (layer + 1)), e.1 ≠ k) :
    (s.setIndex layer ns).Ok cfg (some (layer, k, q)) := by
  have hloose : ∀ {i e}, (if release then some (layer + 1, k, p) else none) = some (i, e) →
      i = layer + 1 ∧ e = (k, p) := by
    intro i e hie
    cases release with
    | false => exact nomatch hie
    | true =>
      obtain ⟨rfl, rfl⟩ := Prod.mk.inj (Option.some.inj hie)
      exact ⟨rfl, rfl⟩
  refine h.setIndex hlayer (le_refl s.fresh) hs.ok (fun e => ?_) (fun e => ?_)
    fun i e hi hi' => ?_
  · rw [h.links layer hlayer.le e, hs.mem_iff]
    constructor
    · rintro (⟨-, he⟩ | he)
      · by_cases hek : e.1 = k
        · -- the layer has one entry of the key
          obtain ⟨k', q'⟩ := e
          obtain rfl : k' = k := hek
          rw [(h.index layer hlayer).sorted.eq_of_mem he hq]
          exact .inr rfl
        · exact .inl ⟨he, hek⟩
      · exact absurd (hloose he).1 (Nat.lt_succ_self layer).ne
    · rintro (⟨he, -⟩ | he)
      · exact .inl ⟨hlayer, he⟩
      · obtain ⟨-, rfl⟩ := Prod.mk.inj (Option.some.inj he)
        exact .inl ⟨hlayer, hq⟩
  · rw [hs.head_iff e]
    have hlink := h.links (layer + 1) hlayer e
    rw [HeadAt] at hlink
    rw [hlink]
    constructor
    · rintro ⟨he | he, hek⟩
      · exact .inl he
      · exact absurd (congrArg Prod.fst (hloose he).2) hek
    · rintro (he | he)
      · exact ⟨.inl he, habove he.1 e he.2⟩
      · exact absurd (Prod.mk.inj (Option.some.inj he)).1 (Nat.lt_succ_self layer).ne
  · constructor
    · exact fun he => absurd (Prod.mk.inj (Option.some.inj he)).1.symm hi
    · exact fun he => absurd (hloose he).1 hi'

/-- The data layer without the key, whose head was loose. -/
theorem Ok.shrunkData {q : ℕ} (h : s.Ok cfg (some (0, k, q))) {data : List (Node K V)}
    (hs : Shrunk cfg.data s.fresh k s.data data)
    (habove : ∀ e ∈ entries (s.index 0), e.1 ≠ k) :
    ({ s with data } : State K V).Ok cfg none := by
  refine h.setData (le_refl s.fresh) hs.ok (fun e => ?_) fun i e hi => ?_
  · rw [hs.head_iff e]
    have hlink := h.links 0 (Nat.zero_le _) e
    rw [HeadAt] at hlink
    rw [hlink]
    constructor
    · rintro ⟨⟨-, he⟩ | he, hek⟩
      · exact .inl he
      · exact absurd (congrArg Prod.fst (Prod.mk.inj (Option.some.inj he)).2).symm hek
    · rintro (he | he)
      · exact ⟨.inl ⟨cfg.layers_pos, he⟩, habove e he⟩
      · exact absurd he.symm (Option.some_ne_none _)
  · simp [hi.symm]

/-- The key is removed from a node, and from those that its entries lead to. -/
theorem Ok.removeColumn (release : Bool) {n : Node K ℕ} {q : ℕ}
    (h : s.Ok cfg (if release then some (layer + 1, k, n.id) else none))
    (hlayer : layer < cfg.layers) (hn : n ∈ s.index layer) (hq : (k, q) ∈ n.pairs)
    (hrelease : n.orphan = true ∨ (release = true ↔ VectorSfra.first n.pairs = some k))
    (habove : layer + 1 < cfg.layers → ∀ e ∈ entries (s.index (layer + 1)), e.1 ≠ k) :
    ∃ s', removeColumn cfg k layer n.id release s = some s' ∧ s'.Ok cfg none ∧
      ∀ e, e ∈ entries s'.data ↔ e ∈ entries s.data ∧ e.1 ≠ k := by
  induction layer generalizing s n q release with
  | zero =>
    obtain ⟨pre, post, hns⟩ := List.append_of_mem hn
    have hok := h.index 0 hlayer
    rw [hns] at hok
    obtain ⟨u, hu, hs⟩ := hok.remove release hq hrelease
    rw [← hns] at hs
    have h₁ := h.shrunkIndex hlayer (mem_entries.2 ⟨n, hn, hq⟩) hs habove
    -- the loose head is the node of the key in the data layer
    obtain ⟨d, hd, ho, rfl, hf⟩ : IsHead s.data (k, q) :=
      (h₁.links 0 (Nat.zero_le _) (k, q)).2 (.inr rfl)
    obtain ⟨x, t, hp⟩ := VectorSfra.first_eq_some.1 hf
    obtain ⟨pre', post', hdata⟩ := List.append_of_mem hd
    have hok' := h.data
    rw [hdata] at hok'
    obtain ⟨u', hu', hs'⟩ := hok'.remove true
      (hp ▸ List.mem_cons_self : (k, x) ∈ d.pairs) (.inr (iff_of_true rfl hf))
    rw [← hdata] at hs'
    refine ⟨_, ?_, h₁.shrunkData hs' fun e he => ?_, hs'.mem_iff⟩
    · rw [State.removeColumn, hns, editAt_eq hok.nodup, hu]
      dsimp only [Option.map_some, Option.bind_some]
      rw [hdata, editAt_eq hok'.nodup, hu']
      rfl
    · rw [show (s.setIndex 0 (pre ++ ([u] ++ post))).index 0 = pre ++ ([u] ++ post) from
        put_self s.index 0 _] at he
      exact ((hs.mem_iff e).1 he).2
  | succ layer ih =>
    obtain ⟨pre, post, hns⟩ := List.append_of_mem hn
    have hok := h.index (layer + 1) hlayer
    rw [hns] at hok
    obtain ⟨u, hu, hs⟩ := hok.remove release hq hrelease
    rw [← hns] at hs
    have h₁ := h.shrunkIndex hlayer (mem_entries.2 ⟨n, hn, hq⟩) hs habove
    obtain ⟨d, hd, ho, rfl, hf⟩ :
        IsHead ((s.setIndex (layer + 1) (pre ++ ([u] ++ post))).index layer) (k, q) :=
      (h₁.links (layer + 1) hlayer.le (k, q)).2 (.inr rfl)
    obtain ⟨q, t, hp⟩ := VectorSfra.first_eq_some.1 hf
    obtain ⟨s', hs', hok', hmem⟩ := ih true h₁ (Nat.lt_of_succ_lt hlayer) hd
      (hp ▸ List.mem_cons_self) (.inr (iff_of_true rfl hf)) fun _ e he => by
        rw [show (s.setIndex (layer + 1) (pre ++ ([u] ++ post))).index (layer + 1) =
          pre ++ ([u] ++ post) from put_self s.index _ _] at he
        exact ((hs.mem_iff e).1 he).2
    refine ⟨s', ?_, hok', hmem⟩
    rw [State.removeColumn, hns, editAt_eq hok.nodup, hu]
    exact hs'

/-- A removal returns at the first attempt whether the key was there, and takes it away. -/
theorem Ok.tryRemove (h : s.Ok cfg none) (hr : s.Represents m) (k : K) :
    ∃ s', tryRemove cfg k s = some (some (m k).isSome, s') ∧ s'.Ok cfg none ∧
      s'.Represents (put m k none) := by
  obtain ⟨stop, nodes, s₁, hs₁, hsr⟩ :=
    h.search (.checkNext true) le_rfl (h.startAt_zero (k := k) le_rfl) fun _ => 0
  have h₁ := hsr.ok
  have hr₁ : s₁.Represents m := hr.of_entries_eq _ (congrArg entries hsr.data_eq)
  rw [State.tryRemove, hs₁, Option.bind_some]
  cases stop with
  | found layer p =>
    obtain ⟨hlayer, ⟨pre, n, post, q, hns, rfl, hq⟩, habove⟩ := hsr.stops
    have hok := h₁.index layer hlayer
    have hn : n ∈ s₁.index layer := hns ▸ List.mem_append_right _ List.mem_cons_self
    -- a node that is no orphan and begins with the key has its entry above
    have hfirst : ¬ (n.orphan = false ∧ VectorSfra.first n.pairs = some k) := by
      rintro ⟨ho, hf⟩
      obtain ⟨habove', he⟩ | he :=
        (h₁.links (layer + 1) hlayer (k, n.id)).1 ⟨n, hn, ho, rfl, hf⟩
      · exact habove (layer + 1) (Nat.lt_succ_self _) habove' _ he rfl
      · exact nomatch he
    have hsome := hr₁.isSome_iff.2 (h₁.exists_data hlayer (mem_entries.2 ⟨n, hn, hq⟩))
    obtain ⟨s', hs', hok', hmem⟩ := h₁.removeColumn false hlayer hn hq
      (by
        cases ho : n.orphan with
        | true => exact .inl rfl
        | false => exact .inr (iff_of_false Bool.false_ne_true fun hf => hfirst ⟨ho, hf⟩))
      fun hlayer' => habove (layer + 1) (Nat.lt_succ_self _) hlayer'
    refine ⟨s', ?_, hok', hr₁.remove _ hmem⟩
    have hlocate : locate n.id (s₁.index layer) = some (pre, n, post) := by
      rw [hns] at hok ⊢
      exact locate_eq hok.nodup
    dsimp only
    rw [hlocate, Option.bind_some]
    dsimp only
    rw [(hok.vecs n hn).first_eq, ← Node.pairs, if_neg hfirst, hs', hsome]
    rfl
  | down p =>
    obtain ⟨hp, hcovered⟩ := hsr.stops
    obtain ⟨ns, n, heq, hv⟩ := h₁.data.visit hp cfg.threshold_le (.checkNext true)
    have h₂ := h₁.visitData hv
    have hr₂ := hr₁.of_entries_eq { s₁ with data := ns } hv.entries_eq
    obtain ⟨pre, post, rfl, hcov⟩ := hv.covers
    have hok := hv.ok
    have hn : n ∈ pre ++ n :: post := by simp
    have hnone := (hcovered 0 cfg.layers_pos).ne
    have hlinks : ∀ e, IsHead (pre ++ n :: post) e ↔ e ∈ entries (s₁.index 0) := fun e =>
      (h₂.links 0 (Nat.zero_le _) e).trans (by simp [cfg.layers_pos])
    have hfirst : ¬ (n.orphan = false ∧ VectorSfra.first n.pairs = some k) := by
      rintro ⟨ho, hf⟩
      exact hnone (k, n.id) ((hlinks _).1 ⟨n, hn, ho, rfl, hf⟩) rfl
    dsimp only
    rw [heq, Option.bind_some]
    dsimp only
    rw [(hok.vecs n hn).first_eq, ← Node.pairs, if_neg hfirst, editAt_eq hok.nodup]
    by_cases hk : ∃ x, (k, x) ∈ n.pairs
    · obtain ⟨x, hx⟩ := hk
      have hm := (hr₂ k x).1 ((hcov.mem_iff rfl).2 hx)
      obtain ⟨u, hu, hs⟩ := hok.remove false hx (by
        cases ho : n.orphan with
        | true => exact .inl rfl
        | false => exact .inr (iff_of_false Bool.false_ne_true fun hf => hfirst ⟨ho, hf⟩))
      refine ⟨{ s₁ with data := pre ++ ([u] ++ post) }, ?_, ?_, ?_⟩
      · rw [hu, hm]
        rfl
      · refine h₂.setData (le_refl s₁.fresh) hs.ok (fun e => ?_) fun i e _ => .rfl
        rw [hs.head_iff, hlinks e]
        simpa using hnone e
      · exact hr₂.remove { s₁ with data := pre ++ ([u] ++ post) } hs.mem_iff
    · have hk' : ∀ e ∈ n.pairs, e.1 ≠ k := fun e he hek => hk ⟨e.2, hek ▸ he⟩
      have hm : m k = none := Option.not_isSome_iff_eq_none.1 fun hsome => by
        obtain ⟨x, hx⟩ := hr₂.isSome_iff.1 hsome
        exact hk ⟨x, (hcov.mem_iff rfl).1 hx⟩
      obtain ⟨u, hu, hok', hentries, hhead⟩ := hok.remove_none hk'
      refine ⟨{ s₁ with data := pre ++ ([u] ++ post) }, ?_, ?_, ?_⟩
      · rw [hu, hm]
        rfl
      · refine h₂.setData (le_refl s₁.fresh) hok' (fun e => ?_) fun i e _ => .rfl
        rw [hhead e, hlinks e]
        simp
      · have heqm : put m k none = m := hm ▸ put_eq_self m k
        rw [heqm]
        exact hr₂.of_entries_eq { s₁ with data := pre ++ ([u] ++ post) } hentries

theorem Ok.remove (h : s.Ok cfg none) (hr : s.Represents m) (k : K) (fuel : ℕ) :
    ∃ s', remove cfg k (fuel + 1) s = some ((m k).isSome, s') ∧ s'.Ok cfg none ∧
      s'.Represents (put m k none) := by
  obtain ⟨s', hs', hok, hr'⟩ := h.tryRemove hr k
  refine ⟨s', ?_, hok, hr'⟩
  rw [State.remove, hs']
  rfl

end Calls

/-! ## Calls in a row -/

/-- The layer below the index layer has a node that is no orphan, with the pointer `p`. -/
def NonOrphanAt (s : State K V) : (layer p : ℕ) → Prop
  | 0, p => ∃ n ∈ s.data, n.orphan = false ∧ n.id = p
  | layer + 1, p => ∃ n ∈ s.index layer, n.orphan = false ∧ n.id = p

/-- What a skip vector should be. -/
structure Sound (cfg : Config K V) (s : State K V) : Prop where
  sorted_data : KeySorted (entries s.data)
  sorted_index : ∀ layer < cfg.layers, KeySorted (entries (s.index layer))
  length_data : ∀ n ∈ s.data, n.v.length ≤ getVectorSize cfg.data.exp
  length_index : ∀ layer < cfg.layers, ∀ n ∈ s.index layer,
    n.v.length ≤ getVectorSize cfg.index.exp
  /-- An entry points to a node that is no orphan, with its key as the first one. -/
  leads : ∀ layer < cfg.layers, ∀ e ∈ entries (s.index layer), s.HeadAt layer e
  /-- A node that is no orphan is the target of one entry. -/
  target : ∀ layer ≤ cfg.layers, ∀ p, s.NonOrphanAt layer p →
    layer < cfg.layers ∧ ∃! e, e ∈ entries (s.index layer) ∧ e.2 = p

section Sound

variable {s : State K V} {layer p : ℕ}

theorem Ok.exists_headAt (h : s.Ok cfg none) (hlayer : layer ≤ cfg.layers)
    (hp : s.NonOrphanAt layer p) : ∃ f, s.HeadAt layer (f, p) := by
  cases layer with
  | zero =>
    obtain ⟨n, hn, ho, rfl⟩ := hp
    obtain ⟨f, -, -, -, hf⟩ := Node.exists_first (h.data.nonempty n hn ho)
    exact ⟨f, n, hn, ho, rfl, hf⟩
  | succ layer =>
    obtain ⟨n, hn, ho, rfl⟩ := hp
    obtain ⟨f, -, -, -, hf⟩ := Node.exists_first ((h.index layer hlayer).nonempty n hn ho)
    exact ⟨f, n, hn, ho, rfl, hf⟩

theorem Ok.headAt_unique (h : s.Ok cfg none) (hlayer : layer ≤ cfg.layers) {e e' : K × ℕ}
    (he : s.HeadAt layer e) (he' : s.HeadAt layer e') (hp : e.2 = e'.2) : e = e' := by
  cases layer with
  | zero => exact h.data.isHead_unique he he' hp
  | succ layer => exact (h.index layer hlayer).isHead_unique he he' hp

theorem Ok.sound (h : s.Ok cfg none) : s.Sound cfg where
  sorted_data := h.data.sorted
  sorted_index layer hlayer := (h.index layer hlayer).sorted
  length_data n hn := (h.data.vecs n hn).length_le
  length_index layer hlayer n hn := ((h.index layer hlayer).vecs n hn).length_le
  leads layer hlayer e he := h.head_of_entry hlayer he
  target layer hlayer p hp := by
    obtain ⟨f, hf⟩ := h.exists_headAt hlayer hp
    obtain ⟨hlt, he⟩ | he := (h.links layer hlayer (f, p)).1 hf
    · refine ⟨hlt, (f, p), ⟨he, rfl⟩, fun e' ⟨he', hp'⟩ => ?_⟩
      exact h.headAt_unique hlayer (h.head_of_entry hlt he') hf hp'
    · exact nomatch he

theorem Ok.init : (init : State K V).Ok cfg none where
  index _ _ := layerOk_init _ Nat.one_pos
  data := layerOk_init _ Nat.one_pos
  links layer _ e := by
    have hhead : ¬ (State.init : State K V).HeadAt layer e := by
      cases layer <;> simp [HeadAt, State.init]
    have hentries : e ∉ entries ((State.init : State K V).index layer) := by
      simp [State.init, Node.pairs]
    simp [hhead, hentries]

theorem Represents.init : (init : State K V).Represents fun _ => none := by
  intro k x
  simp [State.init, Node.pairs]

end Sound

end State

section Run

/-- A call of a map, with insertions if the key is absent. -/
def Call.onMap {cfg : Config K V} (m : K → Option V) : Call K V cfg → Result V × (K → Option V)
  | .insert k x _ | .insertSeq k x _ =>
    (.done (m k).isNone, if (m k).isNone then put m k (some x) else m)
  | .remove k => (.done (m k).isSome, put m k none)
  | .contains k => (.value (m k), m)

/-- The calls of a map one after the other: their results, and the map after them. -/
def runOnMap {cfg : Config K V} : (K → Option V) → List (Call K V cfg) →
    List (Result V) × (K → Option V)
  | m, [] => ([], m)
  | m, call :: calls =>
    let r := runOnMap (call.onMap m).2 calls
    ((call.onMap m).1 :: r.1, r.2)

variable {s : State K V} {m : K → Option V}

/-- A call returns what the map returns, and represents the map after it. -/
theorem exec_refines (h : s.Ok cfg none) (hr : s.Represents m) (fuel : ℕ) (call : Call K V cfg) :
    ∃ s', exec cfg (fuel + 1) s call = some ((call.onMap m).1, s') ∧ s'.Ok cfg none ∧
      s'.Represents (call.onMap m).2 := by
  cases call with
  | insert k x height =>
    obtain ⟨s', hs', hok, hr'⟩ := h.insert hr (.checkNext true) k x (Nat.le_of_lt_succ height.2)
    exact ⟨s', by rw [exec, hs']; rfl, hok, hr'⟩
  | insertSeq k x height =>
    obtain ⟨s', hs', hok, hr'⟩ := h.insert hr .checkNextSequential k x (Nat.le_of_lt_succ height.2)
    exact ⟨s', by rw [exec, hs']; rfl, hok, hr'⟩
  | remove k =>
    obtain ⟨s', hs', hok, hr'⟩ := h.remove hr k fuel
    exact ⟨s', by rw [exec, hs']; rfl, hok, hr'⟩
  | contains k =>
    obtain ⟨s', hs', hok, hr'⟩ := h.contains hr k
    exact ⟨s', by rw [exec, hs']; rfl, hok, hr'⟩

theorem run_spec (h : s.Ok cfg none) (hr : s.Represents m) (fuel : ℕ)
    (calls : List (Call K V cfg)) :
    ∃ s', run cfg (fuel + 1) s calls = some ((runOnMap m calls).1, s') ∧ s'.Ok cfg none ∧
      s'.Represents (runOnMap m calls).2 := by
  induction calls generalizing s m with
  | nil => exact ⟨s, rfl, h, hr⟩
  | cons call calls ih =>
    obtain ⟨s₁, hs₁, h₁, hr₁⟩ := exec_refines h hr fuel call
    obtain ⟨s', hs', hok, hr'⟩ := ih h₁ hr₁
    refine ⟨s', ?_, hok, hr'⟩
    rw [run, hs₁, Option.bind_some]
    dsimp only
    rw [hs']
    rfl

/-- The calls in a row return what the map returns, a removal at its first attempt; after
    them, the skip vector is as it should be, and has the pairs of the map. -/
theorem run_refines (cfg : Config K V) (fuel : ℕ) (calls : List (Call K V cfg)) :
    ∃ s, run cfg (fuel + 1) .init calls = some ((runOnMap (fun _ => none) calls).1, s) ∧
      s.Sound cfg ∧ s.Represents (runOnMap (fun _ => none) calls).2 := by
  obtain ⟨s, hs, hok, hr⟩ := run_spec State.Ok.init State.Represents.init fuel calls
  exact ⟨s, hs, hok.sound, hr⟩

end Run

end DiscoSkip.SkipMap
