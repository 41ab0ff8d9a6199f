import DiscoSkip.SkipMap.Layer

/-!
# The way down

A state is *well formed* (`State.Ok`) if its layers are, and if the entries of every index
layer are the heads of the layer below, each with its first key and its pointer. While a
key is inserted or removed, layer by layer, one head is `loose`: its entry is missing.

The ways down keep this, and the entries of all layers. They end at a place where a walk
along the data layer may start (`Ok.skipTo`), and a search that does not find the key has
gone down from the nodes that cover it (`Ok.search`).
-/

namespace DiscoSkip.SkipMap

open Lib

variable {K V : Type*} [LinearOrder K] {cfg : Config K V}

namespace State

/-- The heads of the layer below the index layer. -/
def HeadAt (s : State K V) : (layer : ℕ) → K × ℕ → Prop
  | 0, e => IsHead s.data e
  | layer + 1, e => IsHead (s.index layer) e

/-- The well-formed states, with a head of the layer below the given one that is loose. -/
structure Ok (cfg : Config K V) (loose : Option (ℕ × K × ℕ)) (s : State K V) : Prop where
  index : ∀ layer < cfg.layers, LayerOk cfg.index s.fresh (s.index layer)
  data : LayerOk cfg.data s.fresh s.data
  /-- The heads of the uppermost layer have no entries. -/
  links : ∀ layer ≤ cfg.layers, ∀ e, s.HeadAt layer e ↔
    (layer < cfg.layers ∧ e ∈ entries (s.index layer)) ∨ loose = some (layer, e)

section Set

variable {s : State K V} {loose loose' : Option (ℕ × K × ℕ)} {layer fresh i : ℕ}
  {ns : List (Node K ℕ)} {e : K × ℕ}

theorem headAt_setIndex_self :
    ({ s.setIndex layer ns with fresh } : State K V).HeadAt (layer + 1) e ↔ IsHead ns e := by
  rw [HeadAt]
  change IsHead (put s.index layer ns layer) e ↔ _
  rw [put_self]

theorem headAt_setIndex_of_ne (h : i ≠ layer + 1) :
    ({ s.setIndex layer ns with fresh } : State K V).HeadAt i e ↔ s.HeadAt i e := by
  cases i with
  | zero => exact .rfl
  | succ i =>
    rw [HeadAt]
    change IsHead (put s.index layer ns i) e ↔ _
    rw [put_of_ne fun hi => h (congrArg Nat.succ hi)]
    exact .rfl

/-- A new index layer: its entries are the heads below, and its heads are the entries
    above. -/
theorem Ok.setIndex (h : s.Ok cfg loose) (hlayer : layer < cfg.layers) (hle : s.fresh ≤ fresh)
    (hok : LayerOk cfg.index fresh ns)
    (hbelow : ∀ e, s.HeadAt layer e ↔ e ∈ entries ns ∨ loose' = some (layer, e))
    (habove : ∀ e, IsHead ns e ↔
      (layer + 1 < cfg.layers ∧ e ∈ entries (s.index (layer + 1))) ∨ loose' = some (layer + 1, e))
    (hloose : ∀ i e, i ≠ layer → i ≠ layer + 1 → (loose' = some (i, e) ↔ loose = some (i, e))) :
    ({ s.setIndex layer ns with fresh } : State K V).Ok cfg loose' := by
  refine ⟨fun i hi => ?_, h.data.mono hle, fun i hi e => ?_⟩
  · change LayerOk cfg.index fresh (put s.index layer ns i)
    by_cases hil : i = layer
    · subst hil
      rw [put_self]
      exact hok
    · rw [put_of_ne hil]
      exact (h.index i hi).mono hle
  · change _ ↔ (i < cfg.layers ∧ e ∈ entries (put s.index layer ns i)) ∨ _
    by_cases hil : i = layer
    · subst hil
      rw [put_self, headAt_setIndex_of_ne (Nat.lt_succ_self i).ne, hbelow e]
      simp [hlayer]
    · rw [put_of_ne hil]
      by_cases hil' : i = layer + 1
      · subst hil'
        rw [headAt_setIndex_self, habove e]
      · rw [headAt_setIndex_of_ne hil', hloose i e hil hil']
        exact h.links i hi e

/-- A new data layer. -/
theorem Ok.setData (h : s.Ok cfg loose) {data : List (Node K V)} (hle : s.fresh ≤ fresh)
    (hok : LayerOk cfg.data fresh data)
    (habove : ∀ e, IsHead data e ↔ e ∈ entries (s.index 0) ∨ loose' = some (0, e))
    (hloose : ∀ i e, i ≠ 0 → (loose' = some (i, e) ↔ loose = some (i, e))) :
    ({ s with data, fresh } : State K V).Ok cfg loose' := by
  refine ⟨fun i hi => (h.index i hi).mono hle, hok, fun i hi e => ?_⟩
  cases i with
  | zero =>
    rw [HeadAt, habove e]
    simp [cfg.layers_pos]
  | succ i =>
    rw [hloose (i + 1) e (Nat.succ_ne_zero i)]
    exact h.links (i + 1) hi e

/-- The entries of an index layer lead to heads below. -/
theorem Ok.head_of_entry (h : s.Ok cfg loose) (hlayer : layer < cfg.layers)
    (he : e ∈ entries (s.index layer)) : s.HeadAt layer e :=
  (h.links layer hlayer.le e).2 (.inl ⟨hlayer, he⟩)

end Set

/-! ## The ways down -/

section Down

variable {s : State K V} {k : K} {layer p : ℕ}

/-- A walk for the key may start in the layer below. -/
def StartAt (k : K) (s : State K V) : (layer p : ℕ) → Prop
  | 0, p => Start k p s.data
  | layer + 1, p => Start k p (s.index layer)

theorem Ok.startAt_zero (h : s.Ok cfg none) (hlayer : layer ≤ cfg.layers) :
    s.StartAt k layer 0 := by
  cases layer with
  | zero => exact h.data.start_zero k
  | succ layer => exact (h.index layer hlayer).start_zero k

theorem Ok.startAt_of_headAt (h : s.Ok cfg none) (hlayer : layer ≤ cfg.layers) {e : K × ℕ}
    (he : s.HeadAt layer e) (hk : e.1 ≤ k) : s.StartAt k layer e.2 := by
  cases layer with
  | zero => exact h.data.start_of_isHead he hk
  | succ layer => exact (h.index layer hlayer).start_of_isHead he hk

/-- A visit of an index layer keeps the state well formed. -/
theorem Ok.visitIndex (h : s.Ok cfg none) (hlayer : layer < cfg.layers) {ns : List (Node K ℕ)}
    {n : Node K ℕ} (hv : Visited cfg.index s.fresh k (s.index layer) ns n) :
    (s.setIndex layer ns).Ok cfg none := by
  refine h.setIndex hlayer (le_refl s.fresh) hv.ok (fun e => ?_) (fun e => ?_)
    fun i e _ _ => .rfl
  · rw [h.links layer hlayer.le e, hv.entries_eq]
    simp [hlayer]
  · rw [hv.head_iff e]
    exact h.links (layer + 1) hlayer e

/-- And so does a visit of the data layer. -/
theorem Ok.visitData (h : s.Ok cfg none) {ns : List (Node K V)} {n : Node K V}
    (hv : Visited cfg.data s.fresh k s.data ns n) :
    ({ s with data := ns } : State K V).Ok cfg none := by
  refine h.setData (le_refl s.fresh) hv.ok (fun e => ?_) fun i e _ => .rfl
  rw [hv.head_iff e]
  exact (h.links 0 (Nat.zero_le _) e).trans (by simp [cfg.layers_pos])

/-- Where a call goes down from a node. -/
theorem Ok.startAt_findLte (h : s.Ok cfg none) (hlayer : layer < cfg.layers) {n : Node K ℕ}
    (hn : n ∈ s.index layer) :
    s.StartAt k layer (((cfg.index.vec.findLte n.v k).map Prod.snd).getD 0) := by
  have hvec := (h.index layer hlayer).vecs n hn
  cases hf : cfg.index.vec.findLte n.v k with
  | none => exact h.startAt_zero hlayer.le
  | some e =>
    rw [hvec.findLte_eq] at hf
    obtain ⟨he, hek⟩ := VectorSfra.findLte_mem hvec.sorted hf
    exact h.startAt_of_headAt hlayer.le (h.head_of_entry hlayer (mem_entries.2 ⟨n, hn, he⟩)) hek

/-- The way down ends where a walk along the data layer may start. -/
theorem Ok.skipTo (h : s.Ok cfg none) (hlayer : layer ≤ cfg.layers) (hp : s.StartAt k layer p) :
    ∃ q s', skipTo cfg k layer p s = some (q, s') ∧ s'.Ok cfg none ∧ s'.data = s.data ∧
      Start k q s'.data := by
  induction layer generalizing s p with
  | zero => exact ⟨p, s, rfl, h, rfl, hp⟩
  | succ layer ih =>
    obtain ⟨ns, n, heq, hv⟩ := (h.index layer hlayer).visit hp cfg.threshold_le (.checkNext false)
    have h' := h.visitIndex hlayer hv
    have hn : n ∈ (s.setIndex layer ns).index layer := by
      obtain ⟨pre, post, rfl, -⟩ := hv.covers
      change n ∈ put s.index layer (pre ++ n :: post) layer
      rw [put_self]
      exact List.mem_append_right _ List.mem_cons_self
    obtain ⟨q, s', hs', hok, hdata, hq⟩ := ih h' (Nat.le_of_lt hlayer)
      (h'.startAt_findLte hlayer hn)
    refine ⟨q, s', ?_, hok, hdata, hq⟩
    rw [State.skipTo, heq, Option.bind_some]
    exact hs'

/-- The node with the pointer `p` covers the key and does not have it. -/
def CoveredAt {T : Type*} (k : K) (p : ℕ) (ns : List (Node K T)) : Prop :=
  ∃ pre n post, ns = pre ++ n :: post ∧ n.id = p ∧ Covers k pre n post ∧ ∀ e ∈ n.pairs, e.1 ≠ k

theorem CoveredAt.ne {T : Type*} {ns : List (Node K T)} (h : CoveredAt k p ns) :
    ∀ e ∈ entries ns, e.1 ≠ k := by
  obtain ⟨pre, n, post, rfl, -, hcov, hn⟩ := h
  exact fun e he hek => hn e ((hcov.mem_iff hek).1 he) hek

/-- A search through the index layers below `layer` leads from `s` to `s'`. It stops at a
    node that has the key, where no layer it passed has it, or above the data layer. -/
structure Searched (cfg : Config K V) (k : K) (layer : ℕ) (s : State K V) (nodes : ℕ → ℕ)
    (stop : Stop) (nodes' : ℕ → ℕ) (s' : State K V) : Prop where
  ok : s'.Ok cfg none
  data_eq : s'.data = s.data
  frame : ∀ i, layer ≤ i → s'.index i = s.index i ∧ nodes' i = nodes i
  stops : match stop with
    | .found i p => i < layer ∧
      (∃ pre n post x, s'.index i = pre ++ n :: post ∧ n.id = p ∧ (k, x) ∈ n.pairs) ∧
      ∀ j, i < j → j < layer → ∀ e ∈ entries (s'.index j), e.1 ≠ k
    | .down p => Start k p s'.data ∧ ∀ i < layer, CoveredAt k (nodes' i) (s'.index i)

theorem Ok.search (h : s.Ok cfg none) (w : Walk) (hlayer : layer ≤ cfg.layers)
    (hp : s.StartAt k layer p) (nodes : ℕ → ℕ) :
    ∃ stop nodes' s', search cfg k w layer p nodes s = some (stop, nodes', s') ∧
      Searched cfg k layer s nodes stop nodes' s' := by
  induction layer generalizing s p nodes with
  | zero => exact ⟨.down p, nodes, s, rfl, h, rfl, fun i _ => ⟨rfl, rfl⟩,
      hp, fun i hi => nomatch hi⟩
  | succ layer ih =>
    obtain ⟨ns, n, heq, hv⟩ := (h.index layer hlayer).visit hp cfg.threshold_le w
    have h' := h.visitIndex hlayer hv
    obtain ⟨pre, post, rfl, hcov⟩ := hv.covers
    have hns : (s.setIndex layer (pre ++ n :: post)).index layer = pre ++ n :: post :=
      put_self s.index layer _
    have hn : n ∈ (s.setIndex layer (pre ++ n :: post)).index layer := by
      rw [hns]
      exact List.mem_append_right _ List.mem_cons_self
    have hvec := hv.ok.vecs n (hns ▸ hn)
    have hstart := h'.startAt_findLte (k := k) hlayer hn
    have hframe : ∀ i, layer + 1 ≤ i → (s.setIndex layer (pre ++ n :: post)).index i = s.index i ∧
        put nodes layer n.id i = nodes i := fun i hi =>
      ⟨put_of_ne (by omega), put_of_ne (by omega)⟩
    -- going down, without the key in this layer
    have hdown : ∀ q, (s.setIndex layer (pre ++ n :: post)).StartAt k layer q →
        (∀ e ∈ n.pairs, e.1 ≠ k) →
        ∃ stop nodes' s', State.search cfg k w layer q (put nodes layer n.id)
            (s.setIndex layer (pre ++ n :: post)) = some (stop, nodes', s') ∧
          Searched cfg k (layer + 1) s nodes stop nodes' s' := by
      intro q hq hk
      obtain ⟨stop, nodes', s', hs', hsr⟩ := ih h' (Nat.le_of_lt hlayer) hq (put nodes layer n.id)
      obtain ⟨hindex, hnodes⟩ := hsr.frame layer le_rfl
      rw [hns] at hindex
      rw [put_self] at hnodes
      have hcovered : CoveredAt k (nodes' layer) (s'.index layer) :=
        ⟨pre, n, post, hindex, hnodes.symm, hcov, hk⟩
      refine ⟨stop, nodes', s', hs', hsr.ok, hsr.data_eq, fun i hi => ?_, ?_⟩
      · obtain ⟨h₁, h₂⟩ := hsr.frame i (by omega)
        exact ⟨h₁.trans (hframe i hi).1, h₂.trans (hframe i hi).2⟩
      · have hstops := hsr.stops
        cases stop with
        | found i p =>
          obtain ⟨hi, hfound, hnone⟩ := hstops
          refine ⟨hi.trans (Nat.lt_succ_self _), hfound, fun j hij hj => ?_⟩
          obtain hj | rfl := Nat.lt_succ_iff_lt_or_eq.1 hj
          · exact hnone j hij hj
          · exact hcovered.ne
        | down p =>
          obtain ⟨hq, hall⟩ := hstops
          refine ⟨hq, fun i hi => ?_⟩
          obtain hi | rfl := Nat.lt_succ_iff_lt_or_eq.1 hi
          · exact hall i hi
          · exact hcovered
    rw [State.search, heq, Option.bind_some]
    dsimp only
    cases hf : cfg.index.vec.findLte n.v k with
    | none =>
      rw [hf] at hstart
      rw [hvec.findLte_eq] at hf
      exact hdown 0 hstart fun e he => (VectorSfra.lt_of_findLte_eq_none hvec.sorted hf he).ne'
    | some e =>
      obtain ⟨f, down⟩ := e
      rw [hf] at hstart
      rw [hvec.findLte_eq] at hf
      obtain ⟨he, hek⟩ := VectorSfra.findLte_mem hvec.sorted hf
      dsimp only
      split
      · next hfk =>
        subst hfk
        refine ⟨_, _, _, rfl, h', rfl, hframe, Nat.lt_succ_self _,
          ⟨pre, n, post, down, hns, rfl, he⟩, fun j hj hj' => ?_⟩
        omega
      · next hfk =>
        refine hdown down hstart fun e he' hek' => hfk (le_antisymm hek ?_)
        exact hek' ▸ VectorSfra.le_findLte hvec.sorted hf he' hek'.le

end Down

end State

end DiscoSkip.SkipMap
