import DiscoSkip.Linear
import DiscoSkip.Sequential

/-!
# Deployments that are always steady

In two deployments, all runs in which no sequence number wraps around are steady, so that
nothing else has to be asked of them:

* with one server, every CAS is on the only slot of its quorum. The keys are atomic
  registers, whatever the number of clients and of operations in flight, and with or
  without the cache and the writebacks (`linearizable_oneServer`);
* with one client that writes a key, and without the writebacks, no CAS of it ever fails:
  its quorum holds the register it has written last (`SoloOk.run`). The key is a
  regular register for all the others (`regular_oneWriter`).
-/

namespace DiscoSkip

open Function

/-- A run all of whose steps have a property is one of the steps that have it. -/
theorem Proto.Run.admit {L : Layout} {H K : Proto → Event → Prop}
    (hK : ∀ tr a c f e w, Proto.Run L H tr a → f < L.asyncParallelism → H a e →
      Move L c f (a.view c f) e w → K a e) {tr : List Event} {a : Proto}
    (h : Proto.Run L H tr a) : Proto.Run L (fun a e => H a e ∧ K a e) tr a := by
  refine h.invariant (P := Proto.Run L fun a e => H a e ∧ K a e) .nil fun tr a e a' hr ih hs => ?_
  obtain ⟨c, f, w, hc, hf, he, hm, rfl⟩ := hs
  exact .cons ih ⟨c, f, w, hc, hf, ⟨he, hK tr a c f e w hr hf he hm⟩, hm, rfl⟩

/-- What the CAS of a chain expects. -/
theorem Move.chain_cas {L : Layout} {c f k k' r : ℕ} {w w' : View} {x t y cached : Register}
    {v : UInt64} {got : ℕ → Option Register} (h : Move L c f w (.cas c f r k .put x t y) w')
    (hph : w.phase = .putChain k' v cached got) :
    x = cached ∧ y = w.cells r k ∧ ∃ i < L.effectiveMajority, r = srv L c i := by
  cases h with
  | casChain hi =>
    obtain ⟨_, _, rfl, _⟩ := Phase.putChain.inj hph
    exact ⟨rfl, rfl, _, hi, rfl⟩
  | casPut => cases hph

/-! ## One server -/

section OneServer

variable {L : Layout} {c f k : ℕ} {w : View} {e : Event} {tr : List Event} {a : Proto}
  {H : Proto → Event → Prop}

/-- With a quorum of one server, every step is steady. -/
theorem Move.steady_of_one (hone : L.effectiveMajority = 1) (hm : Move L c f (a.view c f) e w) :
    a.Steady L k e := by
  have hzero : ∀ {i : ℕ}, i < L.effectiveMajority → i = 0 := fun hi =>
    Nat.lt_one_iff.1 (hone ▸ hi)
  cases e with
  | cas c' f' r k' kd x t y =>
    cases kd with
    | put =>
      rintro rfl rfl v cached got hph hno i hi
      obtain ⟨rfl, rfl⟩ := Prod.mk.inj hm.owner_eq
      obtain ⟨rfl, hy, j, hj, rfl⟩ := hm.chain_cas hph
      rw [hzero hi, ← hzero hj]
      change ((a.view c' f').cells _ _).seq ≤ _
      rw [← hy]
      exact UInt16.le_refl _
    | _ => trivial
  | stepped c' f' =>
    intro _
    cases hph : a.phase c' f' with
    | putChain k' v cached got =>
      rintro g hgot ⟨j, hj, rfl⟩ i hi
      rw [hzero hi, ← hzero hj]
      exact UInt16.le_refl _
    | putCas k' v t need exp got =>
      intro g hgot m hm hneed hne _
      refine ⟨by rw [hzero hm, hone], fun i hi => ?_⟩
      rw [hzero hi, ← hzero hm]
      exact ⟨hneed, hne⟩
    | _ => trivial
  | _ => trivial

/-- With a quorum of one server, a Get has nothing to write back but zero. -/
theorem back_of_one (hone : L.effectiveMajority = 1) (h : Proto.Run L H tr a) :
    ∀ c f k m exp got, a.phase c f = .getBack k m exp got → m = .zero := by
  refine h.invariant (P := fun _ a => ∀ c f k m exp got,
    a.phase c f = .getBack k m exp got → m = .zero) (by simp) fun tr a e a' _ ih hs => ?_
  obtain ⟨c, f, w, _, _, _, hm, rfl⟩ := hs
  refine Proto.forall_setView (P := fun _ _ ph => ∀ k m exp got, ph = .getBack k m exp got →
    m = .zero) (fun c' f' _ => ih c' f') ?_
  have hold := ih c f
  change ∀ k m exp got, (a.view c f).phase = .getBack k m exp got → m = .zero at hold
  generalize a.view c f = w₀ at hold hm
  intro k m exp got hph
  cases hm with
  | stutter => exact hold k m exp got hph
  | casGet =>
    obtain ⟨_, rfl, _⟩ := Phase.getBack.inj hph
    exact hold _ _ _ _ rfl
  | getMax hgot _ hmax _ hex =>
    obtain ⟨_, rfl, _⟩ := Phase.getBack.inj hph
    obtain ⟨j, hj, hne⟩ := hex
    refine hmax.resolve_right ?_
    rintro ⟨i, hi, heq⟩
    rw [hone] at hi hj
    rw [Nat.lt_one_iff.1 hj, ← Nat.lt_one_iff.1 hi] at hne
    exact hne heq.symm
  | _ => cases hph

/-- What the Gets hold is not above the cells. -/
theorem BackOk.run (hH : ∀ a e, H a e → e.SeqBelow) (h : Proto.Run L H tr a) :
    ∀ c f, BackOk L c a.cells (a.phase c f) := by
  refine h.invariant (P := fun _ a => ∀ c f, BackOk L c a.cells (a.phase c f)) ?_
    fun tr a e a' hr ih hs => ?_
  · exact fun _ _ => trivial
  have hb := Bounded.run hH hr
  have hle := hb.cells_mono hs
  obtain ⟨c, f, w, _, _, _, hm, rfl⟩ := hs
  exact Proto.forall_setView (P := fun c _ => BackOk L c w.cells)
    (fun c' f' _ => (ih c' f').mono hle) ((ih c f).move (hb.view c f) hm)

/-- With a quorum of one server, a Get ends with what its server holds. -/
theorem getsSettle_of_one (hone : L.effectiveMajority = 1) (hH : ∀ a e, H a e → e.SeqBelow) :
    GetsSettle L k True H := by
  intro _ tr a c f w m v hr _ hm i hi
  have hback := BackOk.run hH hr c f
  have hzero := back_of_one hone hr c f
  change BackOk L c (a.view c f).cells (a.view c f).phase at hback
  change ∀ k m exp got, (a.view c f).phase = .getBack k m exp got → m = .zero at hzero
  change m.tag ≤ ((a.view c f).cells _ _).tag
  generalize a.view c f = w₀ at hback hzero hm ⊢
  cases hm with
  | getDone hgot _ hmax =>
    rcases hmax with rfl | ⟨j, hj, rfl⟩
    · exact Register.zero_tag_le _
    · rw [hone] at hi hj
      rw [Nat.lt_one_iff.1 hi, ← Nat.lt_one_iff.1 hj]
      exact hback j (hone ▸ hj) _ (hgot j (hone ▸ hj))
  | backDone =>
    rw [hzero _ _ _ _ rfl]
    exact Register.zero_tag_le _

/-- A register that has just been installed is one that a CAS has installed, over one of a
    lesser tag. -/
theorem Move.cas_of_installed (hok : ViewOk L (a.view c f)) (hst : a.Steady L k e)
    (hk : (a.phase c f).key = some k) (hm : Move L c f (a.view c f) e w)
    (hnone : (a.phase c f).installed L c = none) {t : Register}
    (ht : w.phase.installed L c = some t) :
    ∃ i < L.effectiveMajority, (a.cells (srv L c i) k).tag < t.tag := by
  obtain ⟨rfl, i, hi, htaken⟩ := Phase.of_installed ht
  have hno : ∀ i < L.effectiveMajority, ¬(a.phase c f).Taken i := fun i hi hti => by
    rw [Phase.installed_eq_some hi hti] at hnone
    cases hnone
  by_cases hcas : ∃ r k x t y, e = .cas c f r k .put x t y
  · obtain ⟨r, k', x, t, y, rfl⟩ := hcas
    obtain ⟨hkey, htgt, htgt', j, hj, rfl, hy, _, _, hiff⟩ := hm.taken_of_cas hok.phase
    obtain rfl : k' = k := Option.some.inj (hkey.symm.trans hk)
    have hx : y = x := by
      rcases (hiff i hi).1 htaken with hti | ⟨_, hx⟩
      · exact absurd hti (hno i hi)
      · exact hx
    have hlt := (hok.cas hm rfl).resolve_right fun h => absurd h.1 (by simp)
    refine ⟨j, hj, ?_⟩
    rw [htgt', ← htgt]
    change ((a.view c f).cells _ _).tag < _
    rw [← hy, hx]
    exact Register.tag_lt_of_seq hlt.2
  · by_cases hstep : e = .stepped c f
    · subst hstep
      exact absurd (((hm.taken_of_stepped (hst hk)).1 i hi).1 htaken) (hno i hi)
    · by_cases hend : e.ended = none
      · exact absurd htaken (hm.not_taken (by simpa using hcas) hstep hend i).2
      · rcases hm.op_cases with ⟨_, hend', _⟩ | ⟨hend', _⟩ | ⟨_, hidle, _⟩
        · exact absurd hend' hend
        · exact absurd hend' hend
        · rw [hidle] at htaken
          exact htaken.elim

/-- What the call of a Put has installed is not above the cell of some server. -/
theorem SettledOn.le_cell (h : SettledOn L k True tr a) (hhist : HistoryOk L tr a)
    (hregs : RegsOk L k tr a) {o : OpCall} (ho : o ∈ callsOn k tr) {t : Register}
    (ht : o.reg = some t) :
    ∃ i < L.effectiveMajority, t.tag ≤ (a.cells (srv L o.client i) k).tag := by
  by_cases hs : o.stop = none
  · have hins := (hregs.installed o ho hs).symm.trans ht
    obtain ⟨rfl, i, hi, htaken⟩ := Phase.of_installed hins
    have hkey := Phase.key_eq_of_op (hhist.op o (mem_callsOn.1 ho).1 hs)
    rw [(mem_callsOn.1 ho).2] at hkey
    exact ⟨i, hi, h.taken _ _ hkey i hi htaken⟩
  · exact ⟨0, L.effectiveMajority_pos,
      h.done o ho (.inr trivial) hs t ht 0 L.effectiveMajority_pos⟩

/-- A step with one server keeps the tags of the Puts different: what is installed is above
    the cell, which is not below what has been installed before. -/
theorem TagsDiffer.step (h : TagsDiffer k tr) (hn : L.numServers = 1)
    (hset : SettledOn L k True tr a) (hhist : HistoryOk L tr a) (hregs : RegsOk L k tr a)
    (hok : ViewOk L (a.view c f)) (hst : a.Steady L k e) (hm : Move L c f (a.view c f) e w) :
    TagsDiffer k (e :: tr) := by
  have hsrv : ∀ c i, srv L c i = 0 := fun c i => by
    change _ % L.numServers = 0
    rw [hn, Nat.mod_one]
  -- the register of a Put is new, or it was there before
  have hnew : ∀ o ∈ callsOn k tr, o.IsPut → ∀ t, (e.marks tr.length o).reg = some t →
      o.reg = some t ∨ o.Open c f ∧ o.reg = none ∧ (a.cells 0 k).tag < t.tag := by
    intro o ho hput t ht
    by_cases hr : o.reg = none
    swap
    · obtain ⟨t', ht'⟩ := Option.ne_none_iff_exists'.1 hr
      have hkeep := (marked (n := tr.length) hhist hok hst hm ho (hregs.installed o ho)).reg_eq
        hhist (mem_callsOn.1 ho).1 (hregs.installed o ho) ht'
      rw [ht', ← hkeep]
      exact .inl ht
    cases marked (n := tr.length) hhist hok hst hm ho (hregs.installed o ho) with
    | other heq =>
      rw [heq] at ht
      exact .inl ht
    | goes hopen _ hr' =>
      obtain ⟨⟨rfl, rfl⟩, hs⟩ := id hopen
      have hkey := Phase.key_eq_of_op (hhist.op o (mem_callsOn.1 ho).1 hs)
      rw [(mem_callsOn.1 ho).2] at hkey
      obtain ⟨i, hi, hlt⟩ := hm.cas_of_installed hok hst hkey
        ((hregs.installed o ho hs).symm.trans hr) (hr'.symm.trans ht)
      rw [hsrv] at hlt
      exact .inr ⟨hopen, hr, hlt⟩
    | putDone _ _ _ _ _ _ hr' => exact absurd (hr'.symm.trans hr) (by simp)
    | getDone _ _ _ _ hget =>
      obtain ⟨_, _, hput⟩ := hput
      exact absurd (hget.symm.trans hput) (by simp)
  have hle : ∀ o ∈ callsOn k tr, ∀ t, o.reg = some t → t.tag ≤ (a.cells 0 k).tag := by
    intro o ho t ht
    obtain ⟨i, _, hle⟩ := hset.le_cell hhist hregs ho ht
    rwa [hsrv] at hle
  have hcons : callsOn k (e :: tr) =
      ((e.opens tr.length).toList.filter fun o => o.op.key = k) ++
        (callsOn k tr).map (e.marks tr.length) := by
    rw [callsOn, calls, List.filter_append, List.filter_map, callsOn]
    congr 2
    exact List.filter_congr fun o _ => by simp
  rw [TagsDiffer, hcons, List.pairwise_append, List.pairwise_map]
  refine ⟨?_, ?_, fun o ho o' _ _ _ t _ ht => ?_⟩
  · cases e.opens tr.length with
    | none => exact .nil
    | some o => exact (List.pairwise_singleton _ o).filter _
  · have hafter : (callsOn k tr).Pairwise OpCall.After := hhist.after.filter _
    refine (hafter.and h).imp_of_mem fun {o o'} ho ho' hoo hput hput' t t' ht ht' => ?_
    rw [marks_isPut] at hput hput'
    rcases hnew o ho hput t ht with ht | ⟨hopen, _, hlt⟩ <;>
      rcases hnew o' ho' hput' t' ht' with ht' | ⟨hopen', _, hlt'⟩
    · exact hoo.2 hput hput' t t' ht ht'
    · exact ((hle o ho t ht).trans_lt hlt').ne
    · exact ((hle o' ho' t' ht').trans_lt hlt).ne'
    · -- they are not both in progress
      obtain ⟨s, hs, _⟩ := hoo.1.2 (hopen.1.1.trans hopen'.1.1.symm)
        (hopen.1.2.trans hopen'.1.2.symm)
      exact absurd (hopen'.2.symm.trans hs) (by simp)
  · have hopen := Option.mem_toList.1 (List.mem_of_mem_filter ho)
    exact absurd ((of_opens hopen).2.2.2.2.symm.trans ht) (by simp)

end OneServer

/-- Only the client `w` puts the key `k`. -/
def Cluster.OneWriter (w k : ℕ) (_ : Cluster) : Action → Prop
  | .doPut c _ k' _ => k' = k → c = w
  | .doGet .. | .rdma .. | .tryStepForward .. => True

instance (w k : ℕ) (s : Cluster) : DecidablePred (Cluster.OneWriter w k s)
  | .doPut .. => inferInstanceAs (Decidable (_ → _))
  | .doGet .. | .rdma .. | .tryStepForward .. => .isTrue trivial

/-- The same, of the protocol. -/
def Proto.OneWriter (w k : ℕ) (_ : Proto) : Event → Prop
  | .invokePut c _ k' _ => k' = k → c = w
  | _ => True

/-- What the only client that writes a key finds, in the column `col` of the slots of its
    quorum: the register `M` it has written last, or the one it is writing. -/
def SoloPhase (L : Layout) (c : ℕ) (M : Register) (col : ℕ → Register) : Phase → Prop
  | .idle | .getBack .. => ∀ i < L.effectiveMajority, col i = M
  | .putRead _ _ got | .getRead _ got => (∀ i < L.effectiveMajority, col i = M) ∧
      ∀ i < L.effectiveMajority, ∀ x, got i = some x → x = M
  | .putChain _ v cached got => cached = M ∧ ∀ i < L.effectiveMajority,
      (got i = none → col i = M) ∧
        ∀ x, got i = some x → x = M ∧ col i = regOf L c (cached.seq + 1) v
  | .putCas _ _ t need exp got => ∀ i < L.effectiveMajority, need i = true ∧ exp i = M ∧
      (got i = none → col i = M) ∧ ∀ x, got i = some x → x = M ∧ col i = t

/-- What is kept of the key in the client that writes it. -/
structure SoloView (L : Layout) (c k : ℕ) (M : Register) (w : View) : Prop where
  zero_or : M = .zero ∨ Register.zero.tag < M.tag
  cache : L.regCacheEnabled = true → ∀ x, w.cache k = some x → x = M
  phase : SoloPhase L c M (fun i => w.cells (srv L c i) k) (w.phase.at k)

/-- What is kept of a key that only the client `c` writes, without writebacks. -/
structure SoloOk (L : Layout) (c k : ℕ) (a : Proto) : Prop where
  writer : ∀ c' f v, (a.phase c' f).op = some (.put k v) → c' = c
  noBack : ∀ c' f k m exp got, a.phase c' f ≠ .getBack k m exp got
  solo : ∃ M, SoloView L c k M (a.view c 0)

section OneWriter

variable {L : Layout} {c k : ℕ} {w : View} {e : Event} {tr : List Event} {a : Proto}
  {H : Proto → Event → Prop}

theorem SoloOk.init (L : Layout) (c k : ℕ) : SoloOk L c k {} where
  writer _ _ _ h := absurd h (by simp [Phase.op])
  noBack _ _ _ _ _ _ := by simp
  solo := ⟨.zero, .inl rfl, fun _ _ h => absurd h (by simp [Proto.view, Cache.empty]),
    fun _ _ => rfl⟩

/-- A column in which every slot of the quorum but those of the key is as it was. -/
theorem SoloPhase.congr {M : Register} {col col' : ℕ → Register} {ph : Phase}
    (h : SoloPhase L c M col ph) (hcol : ∀ i < L.effectiveMajority, col' i = col i) :
    SoloPhase L c M col' ph := by
  cases ph with
  | idle | getBack => exact fun i hi => (hcol i hi).trans (h i hi)
  | putRead | getRead => exact ⟨fun i hi => (hcol i hi).trans (h.1 i hi), h.2⟩
  | putChain =>
    refine ⟨h.1, fun i hi => ?_⟩
    rw [hcol i hi]
    exact h.2 i hi
  | putCas =>
    intro i hi
    rw [hcol i hi]
    exact h i hi

/-- A CAS of the slot `i`, which finds the register `M` it expects. -/
theorem column_cas (hq : L.effectiveMajority ≤ L.numServers) {cells : ℕ → ℕ → Register} {i : ℕ}
    (hi : i < L.effectiveMajority) {M t : Register} (h : cells (srv L c i) k = M) :
    casCell cells (srv L c i) k M t (srv L c i) k = t ∧ ∀ j < L.effectiveMajority, j ≠ i →
      casCell cells (srv L c i) k M t (srv L c j) k = cells (srv L c j) k :=
  ⟨casCell_self h, fun _ hj hji => casCell_ne (.inl (srv_ne hq hi hj hji))⟩

/-- The answers of the CASes of a Put of which one more has succeeded. -/
theorem answers_update {got : ℕ → Option Register} {col col' : ℕ → Register} {M t : Register}
    {i : ℕ} (hother : ∀ j < L.effectiveMajority, j ≠ i → col' j = col j) (hself : col' i = t)
    {y : Register} (hy : y = M) (h : ∀ j < L.effectiveMajority, (got j = none → col j = M) ∧
      ∀ x, got j = some x → x = M ∧ col j = t) :
    ∀ j < L.effectiveMajority, (update got i (some y) j = none → col' j = M) ∧
      ∀ x, update got i (some y) j = some x → x = M ∧ col' j = t := by
  intro j hj
  by_cases hji : j = i
  · subst hji
    rw [update_self, hself]
    refine ⟨fun hn => absurd hn (by simp), fun x hx => ⟨?_, rfl⟩⟩
    exact (Option.some.inj hx).symm.trans hy
  · rw [update_of_ne hji, hother j hj hji]
    exact h j hj

/-- The register told to the cache is the one that is kept from then on. -/
theorem eq_of_toCache {ca : Cache} {M x : Register} (hen : L.regCacheEnabled = true)
    (h : toCache L ca k M k = some x) : x = M := by
  rw [toCache, if_pos hen, Cache.put, update_self] at h
  exact (Option.some.inj h).symm

/-- A move of the only client that writes the key: no CAS of it fails. -/
theorem SoloView.move (hq : L.effectiveMajority ≤ L.numServers)
    (hwb : L.regWritebackEnabled = false) {f : ℕ} {M : Register} {v v' : View}
    (h : SoloView L c k M v) (hok : ViewOk L v) (hm : Move L c f v e v')
    (hback : ∀ k m exp got, v.phase ≠ .getBack k m exp got) : ∃ M', SoloView L c k M' v' := by
  obtain ⟨hM, hcache, hph⟩ := h
  by_cases hkey : v.phase.key ≠ some k ∧ v'.phase.key ≠ some k
  · obtain ⟨hcells, hca, _⟩ := hm.other_key hkey.1 hkey.2
    refine ⟨M, hM, fun hen x hx => hcache hen x (hca ▸ hx), ?_⟩
    rw [Phase.at, if_neg hkey.2]
    rw [Phase.at, if_neg hkey.1] at hph
    exact hph.congr fun i _ => hcells _
  rw [not_and_or, not_not, not_not] at hkey
  obtain ⟨hat, hat'⟩ := hm.at_eq hkey
  rw [hat] at hph
  have hphase := hok.phase
  cases hm with
  | stutter => exact ⟨M, hM, hcache, hat'.symm ▸ hph⟩
  | casGet | backDone => exact absurd rfl (hback _ _ _ _)
  | getMax _ _ _ hen => exact absurd (hwb.symm.trans hen) (by simp)
  | putHit hen hk =>
    obtain rfl := Option.some.inj (hkey.resolve_left (by simp [Phase.key]))
    exact ⟨M, hM, hcache, hat'.symm ▸ ⟨hcache hen _ hk, fun i hi => ⟨fun _ => hph i hi, by simp⟩⟩⟩
  | putMiss | getStart => exact ⟨M, hM, hcache, hat'.symm ▸ ⟨hph, by simp⟩⟩
  | @readPut cells ca k' u got j hj _ | @readGet cells ca k' got j hj _ =>
    obtain rfl : k' = k := Option.some.inj (hkey.elim id id)
    refine ⟨M, hM, hcache, hat'.symm ▸ ⟨hph.1, fun i hi x hx => ?_⟩⟩
    by_cases hij : i = j
    · subst hij
      rw [update_self] at hx
      exact (Option.some.inj hx).symm.trans (hph.1 i hi)
    · rw [update_of_ne hij] at hx
      exact hph.2 i hi x hx
  | @casChain cells ca k' u cached got i hi hg =>
    obtain rfl : k' = k := Option.some.inj (hkey.elim id id)
    obtain ⟨rfl, hslots⟩ := hph
    have hcell := (hslots i hi).1 hg
    obtain ⟨hself, hother⟩ := column_cas (L := L) (c := c) hq hi
      (t := regOf L c (cached.seq + 1) u) hcell
    exact ⟨cached, hM, hcache, hat'.symm ▸ ⟨rfl, answers_update hother hself hcell hslots⟩⟩
  | @casPut cells ca k' u t need exp got i hi hg =>
    obtain rfl : k' = k := Option.some.inj (hkey.elim id id)
    have hexp := (hph i hi).2.1
    have hcell := (hph i hi).2.2.1 hg
    obtain ⟨hself, hother⟩ := column_cas (L := L) (c := c) hq hi (t := t) hcell
    have hans := answers_update hother hself hcell fun j hj => (hph j hj).2.2
    refine ⟨M, hM, hcache, hat'.symm ▸ fun j hj => ⟨(hph j hj).1, (hph j hj).2.1, ?_⟩⟩
    rw [hexp]
    exact hans j hj
  | @readDone cells ca k' u got z g hgot hle hz =>
    refine ⟨M, hM, hcache, hat'.symm ▸ fun i hi => ⟨rfl, hph.2 i hi _ (hgot i hi), ?_⟩⟩
    exact ⟨fun _ => hph.1 i hi, by simp⟩
  | @chainDone cells ca k' u cached got hgot =>
    obtain rfl : k' = k := Option.some.inj (hkey.resolve_right (by simp [Phase.key]))
    refine ⟨_, .inr ?_, fun hen x hx => eq_of_toCache hen hx, hat'.symm ▸ fun i hi => ?_⟩
    · exact (Register.zero_tag_le cached).trans_lt
        (Register.tag_lt_of_seq (Register.seq_lt_succ hphase.1 (UInt16.le_refl _)))
    · exact ((hph.2 i hi).2 _ (hgot i hi)).2
  | @chainRetry cells ca k' u cached got z g hgot hex =>
    obtain ⟨i, hi, hne⟩ := hex
    exact absurd (((hph.2 i hi).2 _ (hgot i hi)).1.trans hph.1.symm) hne
  | @casDone cells ca k' u t need exp got g hgot _ =>
    obtain rfl : k' = k := Option.some.inj (hkey.resolve_right (by simp [Phase.key]))
    refine ⟨t, .inr ?_, fun hen x hx => eq_of_toCache hen hx, hat'.symm ▸ fun i hi => ?_⟩
    · obtain ⟨j, hj, hn⟩ := hphase.exists_need
      exact (Register.zero_tag_le (exp j)).trans_lt (Register.tag_lt_of_seq (hphase.exp_lt j hj hn))
    · exact ((hph i hi).2.2.2 _ (hgot i hi)).2
  | @casRetry cells ca k' u t need exp got g hgot hex =>
    obtain ⟨i, hi, _, hne⟩ := hex
    exact absurd (((hph i hi).2.2.2 _ (hgot i hi)).1.trans (hph i hi).2.1.symm) hne
  | @casReset cells ca k' u t need exp got m g hgot hm' hout =>
    exact absurd (((hph m hm').2.2.2 _ (hgot m hm')).1.trans (hph m hm').2.1.symm) hout.2.1
  | @getDone cells ca k' got m g hgot hle hmax =>
    obtain rfl : k' = k := Option.some.inj (hkey.resolve_right (by simp [Phase.key]))
    have hg : ∀ i < L.effectiveMajority, g i = M := fun i hi => hph.2 i hi _ (hgot i hi)
    obtain rfl : m = M := by
      rcases hmax with rfl | ⟨i, hi, rfl⟩
      · -- the maximum is zero only if there is nothing else
        have hle' := hle 0 L.effectiveMajority_pos
        rw [hg 0 L.effectiveMajority_pos] at hle'
        exact (hM.resolve_right (not_lt.2 hle')).symm
      · exact hg i hi
    exact ⟨m, hM, fun hen x hx => eq_of_toCache hen hx, hat'.symm ▸ hph.1⟩

/-- The Puts on a key that has one writer are its own. -/
theorem Move.writer {f c' : ℕ} {v v' : View} {u : UInt64} (hm : Move L c' f v e v')
    (hone : ∀ u, e = .invokePut c' f k u → c' = c)
    (h : ∀ u, v.phase.op = some (.put k u) → c' = c) (hop : v'.phase.op = some (.put k u)) :
    c' = c := by
  rcases hm.op_cases with ⟨_, _, hw⟩ | ⟨_, _, hst, _⟩ | ⟨_, hidle, _⟩
  · exact h u (hw.symm.trans hop)
  · have hst' := hst.trans hop
    cases e with
    | invokePut c₁ f₁ k₁ u₁ =>
      obtain ⟨rfl, rfl⟩ := Prod.mk.inj hm.owner_eq
      obtain ⟨rfl, rfl⟩ := Op.put.inj (Option.some.inj hst')
      exact hone _ rfl
    | _ => cases hst'
  · rw [hidle] at hop
    cases hop

/-- Without the writebacks, no Get writes back. -/
theorem Move.noBack (hwb : L.regWritebackEnabled = false) {f c' : ℕ} {v v' : View}
    (hm : Move L c' f v e v') (h : ∀ k m exp got, v.phase ≠ .getBack k m exp got) (k : ℕ)
    (m : Register) (exp : ℕ → Register) (got : ℕ → Option Register) :
    v'.phase ≠ .getBack k m exp got := by
  cases hm with
  | stutter => exact h k m exp got
  | casGet => exact absurd rfl (h _ _ _ _)
  | getMax _ _ _ hen => exact absurd (hwb.symm.trans hen) (by simp)
  | _ => simp

/-- The cells of the key are only changed by its writer. -/
theorem Move.cells_of_ne {f c' : ℕ} {v v' : View} (hm : Move L c' f v e v')
    (hop : ∀ u, v.phase.op ≠ some (.put k u))
    (hback : ∀ k m exp got, v.phase ≠ .getBack k m exp got) (r : ℕ) :
    v'.cells r k = v.cells r k := by
  cases hm with
  | @casChain cells ca k' u cached got i | @casPut cells ca k' u t need exp got i =>
    refine casCell_ne (.inr ?_)
    rintro rfl
    exact hop u rfl
  | casGet => exact absurd rfl (hback _ _ _ _)
  | _ => rfl

theorem SoloOk.step (hq : L.effectiveMajority ≤ L.numServers)
    (hwb : L.regWritebackEnabled = false) (hasync : L.asyncParallelism ≤ 1)
    (h : SoloOk L c k a) (hb : Bounded L a) {c' f : ℕ} (hf : f < L.asyncParallelism)
    (hone : a.OneWriter c k e) (hm : Move L c' f (a.view c' f) e w) :
    SoloOk L c k (a.setView c' f w) := by
  have hback := hm.noBack hwb (h.noBack c' f)
  refine ⟨Proto.forall_setView (P := fun c' _ ph => ∀ u, ph.op = some (.put k u) → c' = c)
    (fun c' f' _ => h.writer c' f') fun u hop => ?_,
    Proto.forall_setView (P := fun _ _ ph => ∀ k m exp got, ph ≠ .getBack k m exp got)
      (fun c' f' _ => h.noBack c' f') hback, ?_⟩
  · refine hm.writer (fun u he => ?_) (h.writer c' f) hop
    subst he
    exact hone rfl
  obtain ⟨M, hM⟩ := h.solo
  by_cases hc : c' = c
  · subst hc
    obtain rfl : f = 0 := Nat.lt_one_iff.1 (hf.trans_le hasync)
    obtain ⟨M', hM'⟩ := hM.move hq hwb (hb.view c' 0) hm (h.noBack c' 0)
    refine ⟨M', ?_⟩
    rw [Proto.view, Proto.setView_cache_self, Proto.setView_phase_self]
    exact hM'
  · -- the others neither write the key nor back
    have hcells := hm.cells_of_ne (fun u hop => hc (h.writer c' f u hop)) (h.noBack c' f)
    refine ⟨M, hM.zero_or, ?_, ?_⟩
    · rw [Proto.view, Proto.setView_cache_ne _ _ _ (Ne.symm hc)]
      exact hM.cache
    · rw [Proto.view, Proto.setView_phase_ne _ _ (.inl (Ne.symm hc))]
      exact hM.phase.congr fun i _ => hcells _

/-- The steps on a key that has one writer are steady: its CASes find what they expect. -/
theorem SoloOk.steady (hasync : L.asyncParallelism ≤ 1) (h : SoloOk L c k a) {c' f : ℕ}
    (hf : f < L.asyncParallelism) (hm : Move L c' f (a.view c' f) e w) : a.Steady L k e := by
  obtain rfl : f = 0 := Nat.lt_one_iff.1 (hf.trans_le hasync)
  obtain ⟨M, _, _, hph⟩ := h.solo
  have hat : ∀ ph, a.phase c 0 = ph → ph.key = some k →
      SoloPhase L c M (fun i => a.cells (srv L c i) k) ph := by
    rintro ph rfl hk
    have hph' : SoloPhase L c M (fun i => a.cells (srv L c i) k) ((a.phase c 0).at k) := hph
    rwa [Phase.at, if_pos hk] at hph'
  cases e with
  | cas c₁ f₁ r k' kd x t y =>
    cases kd with
    | put =>
      rintro rfl rfl v cached got hchain hno i hi
      obtain ⟨rfl, rfl⟩ := Prod.mk.inj hm.owner_eq
      obtain rfl := h.writer c₁ 0 v (by rw [hchain]; rfl)
      obtain ⟨rfl, hslots⟩ := hat _ hchain rfl
      -- no slot has been taken, so that none has its answer
      have hnone : got i = none := by
        by_contra hne
        obtain ⟨x, hx⟩ := Option.ne_none_iff_exists'.1 hne
        refine hno i hi ?_
        rw [hchain, Phase.Taken, hx, ((hslots i hi).2 x hx).1]
      exact UInt16.le_of_eq (congrArg Register.seq ((hslots i hi).1 hnone))
    | _ => trivial
  | stepped c₁ f₁ =>
    obtain ⟨rfl, rfl⟩ := Prod.mk.inj hm.owner_eq
    intro hk
    cases hphase : a.phase c₁ 0 with
    | putChain k' v cached got =>
      rw [hphase] at hk
      obtain rfl : k' = k := Option.some.inj hk
      obtain rfl := h.writer c₁ 0 v (by rw [hphase]; rfl)
      obtain ⟨rfl, hslots⟩ := hat _ hphase rfl
      intro g hgot _ i hi
      exact UInt16.le_of_eq (congrArg Register.seq ((hslots i hi).2 _ (hgot i hi)).1)
    | putCas k' v t need exp got =>
      rw [hphase] at hk
      obtain rfl : k' = k := Option.some.inj hk
      obtain rfl := h.writer c₁ 0 v (by rw [hphase]; rfl)
      have hslots := hat _ hphase rfl
      intro g hgot m hm' _ hne
      exact absurd (((hslots m hm').2.2.2 _ (hgot m hm')).1.trans (hslots m hm').2.1.symm) hne
    | _ => trivial
  | _ => trivial

end OneWriter

/-- Only its writer puts a key. -/
theorem Cluster.oneWriter_of_step {L : Layout} {s s' : Cluster} {a : Proto} {act : Action}
    {e : Event} {w k : ℕ} (hg : s.OneWriter w k act) (hs : s.step L act = some (e, s')) :
    a.OneWriter w k e := by
  cases e with
  | invokePut c f k' v =>
    obtain rfl := Cluster.step_invokePut hs
    exact hg
  | _ => trivial

end DiscoSkip
