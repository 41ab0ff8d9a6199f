import DiscoSkip.History
import DiscoSkip.PutWritten

/-!
# Steady targets

A Put keeps its target, once a CAS of it has succeeded, in the runs that are *steady*
(`Proto.Steady`). There are three ways in which a Put may lose it, all of them by meeting
another one:

* the optimistic chain has succeeded on a server, and finds a greater sequence number on
  another one, above which the target is bumped;
* a slot is outrun in the step `cas`, and another one is not;
* a slot that is not the last one of the quorum is outrun, so that those that follow are
  taken for written.

Besides, the optimistic chain does not read its quorum first. For its target to be new, no
server of the quorum may hold a greater sequence number than the register cached, when the
first CAS of the chain succeeds.

In a steady run, what has been written to a slot stays below its cell
(`TakenOk.move`), and the target is above all that the slots have held before the
Put started (`Phase.Floor.move`).
-/

namespace DiscoSkip

open Function

/-! ## The condition -/

/-- Of a Put in its optimistic chain: if a CAS has succeeded, no other one has found a
    sequence number greater than that of the register cached. -/
def PutFuture.ChainKeeps (d : DsConf) (bufs : Scratch) (p : PutFuture) : Prop :=
  (∃ i < d.quorum, bufs.swapBufs (d.quorumIndices i) = p.expected i) →
    ∀ i < d.quorum, (bufs.swapBufs (d.quorumIndices i)).seq ≤ (p.expected i).seq

instance (d : DsConf) (bufs : Scratch) (p : PutFuture) : Decidable (p.ChainKeeps d bufs) :=
  inferInstanceAs (Decidable ((∃ i < _, _) → ∀ i < _, _))

/-- Of a Put in the step `cas`: a slot is outrun only if it is the last one, and none has
    been taken. -/
def PutFuture.CasKeeps (d : DsConf) (bufs : Scratch) (p : PutFuture) : Prop :=
  ∀ m < d.quorum, p.Outrun d bufs m → m + 1 = d.quorum ∧ ∀ i < d.quorum,
    p.needsCas (d.quorumIndices i) = true ∧ bufs.swapBufs (d.quorumIndices i) ≠ p.expected i

instance (d : DsConf) (bufs : Scratch) (p : PutFuture) : Decidable (p.CasKeeps d bufs) :=
  inferInstanceAs (Decidable (∀ m < _, p.Outrun d bufs m → _ ∧ ∀ i < _, _ ∧ _))

/-- A CAS of the optimistic chain of a Put, if it is the first one to succeed, does so with
    no greater sequence number on the servers of its quorum. -/
def Cluster.FirstCas (L : Layout) (s : Cluster) (c f r : ℕ) : Rdma → Prop
  | .cas k x _ => ((s.clients c).futures f).kind = .put →
      ((s.clients c).futures f).putF.step = .optimisticChain → s.cells r k = x →
      (∀ i < L.effectiveMajority, s.inflight c f (srv L c i) = none →
        ((s.clients c).scratch f).swapBufs (srv L c i) ≠ x) →
      ∀ i < L.effectiveMajority, (s.cells (srv L c i) k).seq ≤ x.seq
  | .read _ | .bulk .. => True

instance (L : Layout) (s : Cluster) (c f r : ℕ) : DecidablePred (s.FirstCas L c f r)
  | .cas .. => inferInstanceAs (Decidable (_ → _ → _ → (∀ i < _, _ → _) → ∀ i < _, _))
  | .read _ | .bulk .. => .isTrue trivial

/-- The Puts keep their targets. -/
def Cluster.Steady (L : Layout) (s : Cluster) : Action → Prop
  | .rdma c f r => ∀ op ∈ s.inflight c f r, s.FirstCas L c f r op
  | .tryStepForward c f =>
    ((s.clients c).futures f).kind = .put →
      (DsConf.ofClient L c).Ready ((s.clients c).futures f).putF.ongoingPerServer →
      (((s.clients c).futures f).putF.step = .optimisticChain →
        ((s.clients c).futures f).putF.ChainKeeps (.ofClient L c) ((s.clients c).scratch f)) ∧
      (((s.clients c).futures f).putF.step = .cas →
        ((s.clients c).futures f).putF.CasKeeps (.ofClient L c) ((s.clients c).scratch f))
  | _ => True

instance (L : Layout) (s : Cluster) : DecidablePred (Cluster.Steady L s)
  | .rdma .. => inferInstanceAs (Decidable (∀ op ∈ _, _))
  | .tryStepForward .. => inferInstanceAs (Decidable (_ → _ → (_ → _) ∧ (_ → _)))
  | .doPut .. | .doGet .. => .isTrue trivial

namespace Phase

/-- The CAS of the slot `i` of a Put has succeeded. -/
def Taken (i : ℕ) : Phase → Prop
  | .putChain _ _ cached got => got i = some cached
  | .putCas _ _ _ need exp got => need i = false ∨ got i = some (exp i)
  | _ => False

instance (i : ℕ) : DecidablePred (Taken i)
  | .putChain .. => inferInstanceAs (Decidable (_ = _))
  | .putCas .. => inferInstanceAs (Decidable (_ ∨ _))
  | .idle | .putRead .. | .getRead .. | .getBack .. => .isFalse id

/-- The register that the CASes of a Put are to install. -/
def target (L : Layout) (c : ℕ) : Phase → Register
  | .putChain _ v cached _ => regOf L c (cached.seq + 1) v
  | .putCas _ _ t _ _ _ => t
  | _ => .zero

/-- The register a Put has installed, if it has. -/
def installed (L : Layout) (c : ℕ) (ph : Phase) : Option Register :=
  if ∃ i < L.effectiveMajority, ph.Taken i then some (ph.target L c) else none

/-- With all the answers there, a Put keeps its target, or it has not succeeded anywhere
    and is to try all its slots again. -/
def Steady (L : Layout) : Phase → Prop
  | .putChain _ _ cached got => ∀ g : ℕ → Register,
      (∀ i < L.effectiveMajority, got i = some (g i)) →
      (∃ i < L.effectiveMajority, g i = cached) →
      ∀ i < L.effectiveMajority, (g i).seq ≤ cached.seq
  | .putCas _ _ t need exp got => ∀ g : ℕ → Register,
      (∀ i < L.effectiveMajority, got i = some (g i)) →
      ∀ m < L.effectiveMajority, need m = true → g m ≠ exp m → t.seq ≤ (g m).seq →
        m + 1 = L.effectiveMajority ∧ ∀ i < L.effectiveMajority, need i = true ∧ g i ≠ exp i
  | _ => True

end Phase

/-- The step is steady, as far as the key `k` is concerned. -/
def Proto.Steady (L : Layout) (k : ℕ) (a : Proto) : Event → Prop
  | .cas c f _ k' .put x _ y => k' = k → y = x → ∀ v cached got,
      a.phase c f = .putChain k v cached got →
      (∀ i < L.effectiveMajority, ¬(a.phase c f).Taken i) →
      ∀ i < L.effectiveMajority, (a.cells (srv L c i) k).seq ≤ cached.seq
  | .stepped c f => (a.phase c f).key = some k → (a.phase c f).Steady L
  | _ => True

/-! ### The cluster -/

section Cluster

variable {L : Layout} {s s' : Cluster} {a : Proto} {c f k : ℕ}

/-- With all the answers there, a future has nothing in flight. -/
theorem InFlight.eq_none {d : DsConf} {infl : ℕ → Option Rdma} {got : ℕ → Option Register}
    {op : ℕ → Rdma} (h : InFlight d infl got op) {g : ℕ → Register}
    (hgot : ∀ i < d.quorum, got i = some (g i)) (r : ℕ) : infl r = none := by
  by_cases hr : ∃ i < d.quorum, d.quorumIndices i = r
  · obtain ⟨i, hi, rfl⟩ := hr
    rw [h.1 i hi, hgot i hi]
    exact if_neg (by simp)
  · push Not at hr
    exact h.2 r hr

/-- A CAS is executed from its request in flight. -/
theorem Cluster.step_cas {act : Action} {r : ℕ} {kd : Kind} {x t y : Register}
    (h : s.step L act = some (.cas c f r k kd x t y, s')) :
    act = .rdma c f r ∧ s.inflight c f r = some (.cas k x t) ∧ y = s.cells r k := by
  cases act with
  | doPut | doGet =>
    simp only [step] at h
    split at h <;> simp at h
  | tryStepForward c' f' =>
    rcases Cluster.step_cases h with ⟨_, _, _, _, hact, _⟩ | ⟨_, _, _, hact, _⟩ |
      ⟨_, _, _, _, _, hact, _⟩ | ⟨_, _, _, _, _, _, _, _, hact, _⟩ | ⟨c₁, f₁, _, he⟩
    case inr.inr.inr.inr =>
      rcases Cluster.stepEvent_cases c₁ f₁ ((s.clients c₁).futures f₁) _ with
        hev | ⟨_, _, _, hev⟩ | ⟨_, _, hev⟩ | ⟨_, _, _, _, _, _, hev⟩ <;>
        (rw [hev] at he; cases he)
    all_goals cases hact
  | rdma c' f' r' =>
    simp only [step] at h
    split at h
    · next op hop =>
      cases op with
      | cas k' x' t' =>
        obtain ⟨he, _⟩ := Prod.mk.inj (Option.some.inj h)
        cases he
        exact ⟨rfl, hop, rfl⟩
      | read | bulk => simp [execute] at h
    · simp at h

theorem Sim.steady {act : Action} {e : Event} (h : Sim L s a) (hg : s.Steady L act)
    (hs : s.step L act = some (e, s')) : a.Steady L k e := by
  cases e with
  | cas c f r k' kd x t y =>
    cases kd with
    | put =>
      rintro rfl rfl v cached got hph hno
      obtain ⟨rfl, hop, hy⟩ := Cluster.step_cas hs
      have hp := h.phase c f
      rw [hph] at hp hno
      obtain ⟨hk, hst, _, _, hi, hb⟩ := hp
      obtain ⟨_, _, _, _, hcas⟩ := hi.slot hop
      obtain ⟨_, rfl, rfl⟩ := Rdma.cas.inj hcas
      have hfirst := hg _ hop hk hst hy.symm fun i hiq hnone => ?_
      · rw [← h.cells]
        exact hfirst
      -- a slot that has its answer has not found the register cached
      have hgot : got i ≠ none := fun hn => by
        have := hi.1 i hiq
        rw [if_pos hn] at this
        exact absurd (hnone.symm.trans this) (by simp)
      obtain ⟨x, hx⟩ := Option.ne_none_iff_exists'.1 hgot
      have hbx := hb i hiq x hx
      intro hc
      refine hno i hiq ?_
      rw [Phase.Taken, hx, ← hbx]
      exact congrArg some hc
    | _ => trivial
  | stepped c f =>
    intro _
    obtain rfl := Cluster.step_stepped hs
    have hp := h.phase c f
    cases hph : a.phase c f with
    | putChain k' v cached got =>
      rw [hph] at hp
      obtain ⟨hk, hst, _, hn, hi, hb⟩ := hp
      intro g hgot ⟨j, hj, hgj⟩ i hiq
      have hr : (DsConf.ofClient L c).Ready ((s.clients c).futures f).putF.ongoingPerServer := by
        intro r _
        rw [(h.counts c f).put r, hi.eq_none hgot r]
        simp
      have hkeep := (hg hk hr).1 hst ⟨j, hj, ?_⟩ i hiq
      · rwa [hb i hiq _ (hgot i hiq), (hn i hiq).2] at hkeep
      · rw [hb j hj _ (hgot j hj), (hn j hj).2, hgj]
    | putCas k' v t need exp got =>
      intro g hgot m hm hneed hne hout
      have hr := h.ready_put hph hgot
      rw [hph] at hp
      obtain ⟨hk, hst, ⟨_, _, ht, _⟩, hn, _, hb⟩ := hp
      have hkeep := (hg hk hr).2 hst m hm
      rw [PutFuture.Outrun, (hn m hm).1, (hn m hm).2, hb m hm _ (hgot m hm), ht] at hkeep
      obtain ⟨hlast, hall⟩ := hkeep ⟨hneed, hne, hout⟩
      refine ⟨hlast, fun i hiq => ?_⟩
      have := hall i hiq
      rwa [(hn i hiq).1, (hn i hiq).2, hb i hiq _ (hgot i hiq)] at this
    | _ => trivial
  | _ => trivial

end Cluster

/-! ## The targets -/

section Taken

variable {L : Layout} {c f k : ℕ} {w w' : View} {e : Event}

theorem Phase.installed_eq_some {ph : Phase} {i : ℕ} (hi : i < L.effectiveMajority)
    (h : ph.Taken i) : ph.installed L c = some (ph.target L c) := if_pos ⟨i, hi, h⟩

theorem Phase.installed_eq_none {ph : Phase} (h : ∀ i < L.effectiveMajority, ¬ph.Taken i) :
    ph.installed L c = none := if_neg fun ⟨i, hi, ht⟩ => h i hi ht

theorem Phase.of_installed {ph : Phase} {t : Register} (h : ph.installed L c = some t) :
    t = ph.target L c ∧ ∃ i < L.effectiveMajority, ph.Taken i := by
  rw [Phase.installed] at h
  split at h
  · next hex => exact ⟨(Option.some.inj h).symm, hex⟩
  · exact absurd h (by simp)

/-- A CAS of a Put: of a slot which is not taken, and is from then on if the CAS succeeds. -/
theorem Move.taken_of_cas (hok : PhaseOk L w.phase) {r : ℕ} {x t y : Register}
    (h : Move L c f w (.cas c f r k .put x t y) w') :
    w.phase.key = some k ∧ t = w.phase.target L c ∧ w'.phase.target L c = w.phase.target L c ∧
      ∃ i < L.effectiveMajority, r = srv L c i ∧ y = w.cells r k ∧
        w'.cells = casCell w.cells r k x t ∧ ¬w.phase.Taken i ∧
        ∀ j < L.effectiveMajority, w'.phase.Taken j ↔ w.phase.Taken j ∨ j = i ∧ y = x := by
  cases h with
  | @casChain cells ca _ v _ got i hi hg =>
    refine ⟨rfl, rfl, rfl, i, hi, rfl, rfl, rfl, ?_, fun j _ => ?_⟩
    · simp [Phase.Taken, hg]
    · by_cases hji : j = i
      · subst hji
        simp [Phase.Taken, hg]
      · simp [Phase.Taken, hji]
  | @casPut cells ca _ v _ need exp got i hi hg =>
    have hn := hok.need_of_none i hi hg
    refine ⟨rfl, rfl, rfl, i, hi, rfl, rfl, rfl, ?_, fun j _ => ?_⟩
    · simp [Phase.Taken, hg, hn]
    · by_cases hji : j = i
      · subst hji
        simp [Phase.Taken, hg, hn]
      · simp [Phase.Taken, hji]

/-- A steady step of a Put: it takes no slot, and keeps its target if it has taken one. -/
theorem Move.taken_of_stepped (hst : w.phase.Steady L) (h : Move L c f w (.stepped c f) w') :
    (∀ i < L.effectiveMajority, w'.phase.Taken i ↔ w.phase.Taken i) ∧
      ∀ i < L.effectiveMajority, w.phase.Taken i → w'.phase.target L c = w.phase.target L c := by
  cases h with
  | stutter => exact ⟨fun _ _ => .rfl, fun _ _ _ => rfl⟩
  | readDone => exact ⟨fun i _ => by simp [Phase.Taken], fun _ _ h => h.elim⟩
  | @chainRetry cells ca k v cached got z g hgot hex hle hz =>
    refine ⟨fun i hi => ?_, fun i hi ht => ?_⟩
    · rw [Phase.Taken, Phase.Taken, hgot i hi]
      by_cases hg : g i = cached <;> simp [hg]
    · have ht' : g i = cached := Option.some.inj ((hgot i hi).symm.trans ht)
      have hz' : z = cached.seq := by
        rcases hz with hz | ⟨j, hj, _, rfl⟩
        · exact hz
        · exact UInt16.le_antisymm (hst g hgot ⟨i, hi, ht'⟩ j hj) hle.1
      rw [hz']
      rfl
  | @casRetry cells ca k v t need exp got g hgot =>
    refine ⟨fun i hi => ?_, fun _ _ _ => rfl⟩
    rw [Phase.Taken, Phase.Taken, hgot i hi]
    by_cases hn : need i = true <;> by_cases hg : g i = exp i <;> simp [hn, hg]
  | @casReset cells ca k v t need exp got m g hgot hm hout =>
    -- the slot outrun is the last one, and none has been taken
    obtain ⟨hlast, hall⟩ := hst g hgot m hm hout.1 hout.2.1 hout.2.2
    have hno : ∀ i < L.effectiveMajority, ¬(Phase.putCas k v t need exp got).Taken i := by
      intro i hi
      rw [Phase.Taken, hgot i hi]
      simp [hall i hi]
    refine ⟨fun i hi => iff_of_false ?_ (hno i hi), fun i hi ht => absurd ht (hno i hi)⟩
    have him : i ≤ m := Nat.lt_succ_iff.1 (hi.trans_eq hlast.symm)
    simp [Phase.Taken, him]

/-- A Put that ends has taken all its slots. -/
theorem Move.taken_of_putDone {v : UInt64} {t : Register}
    (h : Move L c f w (.putDone c f k v t) w') :
    w.phase.key = some k ∧ t = w.phase.target L c ∧
      ∀ i < L.effectiveMajority, w.phase.Taken i := by
  cases h with
  | chainDone hgot => exact ⟨rfl, rfl, hgot⟩
  | @casDone cells ca _ _ _ need exp got g hgot hall =>
    refine ⟨rfl, rfl, fun i hi => ?_⟩
    rw [Phase.Taken, hgot i hi, Option.some_inj, ← Bool.not_eq_true, ← imp_iff_not_or]
    exact hall i hi

/-- All other moves are of operations that have taken no slot. -/
theorem Move.not_taken (h : Move L c f w e w') (hcas : ∀ r k x t y, e ≠ .cas c f r k .put x t y)
    (hst : e ≠ .stepped c f) (hdone : e.ended = none) (i : ℕ) :
    ¬w.phase.Taken i ∧ ¬w'.phase.Taken i := by
  cases h with
  | putHit | putMiss | getStart | readPut | readGet | casGet | getMax =>
    exact ⟨by simp [Phase.Taken], by simp [Phase.Taken]⟩
  | casChain | casPut => exact absurd rfl (hcas _ _ _ _ _)
  | stutter | readDone | chainRetry | casRetry | casReset => exact absurd rfl hst
  | chainDone | casDone | getDone | backDone => cases hdone

/-- Nor has an operation that starts. -/
theorem Move.not_taken_of_starts (h : Move L c f w e w') (hs : e.starts ≠ none) (i : ℕ) :
    ¬w'.phase.Taken i := by
  cases h with
  | putHit | putMiss | getStart => simp [Phase.Taken]
  | _ => exact absurd rfl hs

/-- The cells of the slots a Put has taken are not below its target. -/
def TakenOk (L : Layout) (c k : ℕ) (cells : ℕ → ℕ → Register) (ph : Phase) : Prop :=
  ph.key = some k → ∀ i < L.effectiveMajority, ph.Taken i →
    (ph.target L c).tag ≤ (cells (srv L c i) k).tag

theorem TakenOk.mono {cells cells' : ℕ → ℕ → Register} {ph : Phase} (h : TakenOk L c k cells ph)
    (hle : ∀ r k, (cells r k).tag ≤ (cells' r k).tag) : TakenOk L c k cells' ph :=
  fun hk i hi ht => (h hk i hi ht).trans (hle _ _)

/-- A move keeps the key. -/
theorem Move.key_of_key (h : Move L c f w e w') (hk : w'.phase.key = some k)
    (hst : e.starts = none) : w.phase.key = some k := by
  cases h with
  | putHit | putMiss | getStart => cases hst
  | chainDone | casDone | getDone | backDone => cases hk
  | _ => exact hk

/-- A steady move keeps what has been written. -/
theorem TakenOk.move {a : Proto} (h : TakenOk L c k a.cells (a.phase c f))
    (hok : ViewOk L (a.view c f)) (hst : a.Steady L k e) (hm : Move L c f (a.view c f) e w) :
    TakenOk L c k w.cells w.phase := by
  have hle := hok.cells_mono hm
  intro hk i hi ht
  by_cases hs : e.starts = none
  swap
  · exact absurd ht (hm.not_taken_of_starts hs i)
  have hk' : (a.phase c f).key = some k := hm.key_of_key hk hs
  by_cases hend : e.ended = none
  swap
  · -- nor has one that is over
    rcases hm.op_cases with ⟨_, hend', _⟩ | ⟨hend', _⟩ | ⟨_, hidle, _⟩
    · exact absurd hend' hend
    · exact absurd hend' hend
    · rw [hidle] at ht
      exact ht.elim
  by_cases hcas : ∃ r k x t y, e = .cas c f r k .put x t y
  · obtain ⟨r, k', x, t, y, rfl⟩ := hcas
    obtain ⟨hkey, htgt, htgt', j, hj, rfl, rfl, hcells, _, htaken⟩ := hm.taken_of_cas hok.phase
    obtain rfl : k' = k := Option.some.inj (hkey.symm.trans hk')
    rw [htgt']
    rcases (htaken i hi).1 ht with ht | ⟨rfl, hx⟩
    · exact (h hk' i hi ht).trans (hle _ _)
    · rw [hcells, casCell_self hx, htgt]
  · by_cases hstep : e = .stepped c f
    · subst hstep
      obtain ⟨htaken, htgt⟩ := hm.taken_of_stepped (hst hk')
      have ht' := (htaken i hi).1 ht
      rw [htgt i hi ht']
      exact (h hk' i hi ht').trans (hle _ _)
    · exact absurd ht (hm.not_taken (by simpa using hcas) hstep hend i).2

end Taken

/-! ## What an operation that starts later finds -/

/-- An operation of the client `c` that finds no tag below `b` in the slot `j`: a Get does
    not end below it, and the target of a Put is above it. -/
def Phase.Floor (L : Layout) (c j : ℕ) (b : ℕ ×ₗ ℕ) : Phase → Prop
  | .idle => True
  | .putRead _ _ got | .getRead _ got => ∀ x, got j = some x → b ≤ x.tag
  | .putChain k v cached got => (∀ x, got j = some x → b ≤ x.tag) ∧
      ((∃ i < L.effectiveMajority, (Phase.putChain k v cached got).Taken i) →
        b < (regOf L c (cached.seq + 1) v).tag)
  | .putCas _ _ t _ _ _ => b < t.tag
  | .getBack _ m _ _ => b ≤ m.tag

section Floor

variable {L : Layout} {c f j k : ℕ} {b : ℕ ×ₗ ℕ} {w w' : View} {e : Event}

theorem le_of_update {got : ℕ → Option Register} {i : ℕ} {y : Register}
    (h : ∀ x, got j = some x → b ≤ x.tag) (hy : j = i → b ≤ y.tag) :
    ∀ x, update got i (some y) j = some x → b ≤ x.tag := by
  intro x hx
  by_cases hji : j = i
  · subst hji
    rw [update_self] at hx
    exact Option.some.inj hx ▸ hy rfl
  · rw [update_of_ne hji] at hx
    exact h x hx

/-- An operation that starts has not found anything. -/
theorem Phase.Floor.of_starts (h : Move L c f w e w') (hs : e.starts ≠ none) :
    w'.phase.Floor L c j b := by
  cases h with
  | putHit => exact ⟨by simp, by simp [Phase.Taken]⟩
  | putMiss | getStart => exact fun _ hx => absurd hx (by simp)
  | _ => exact absurd rfl hs

/-- An operation goes on without finding less than `b` in its slot, if its cell is not below. -/
theorem Phase.Floor.move {a : Proto} (hj : j < L.effectiveMajority)
    (h : (a.phase c f).Floor L c j b) (hok : ViewOk L (a.view c f)) (hst : a.Steady L k e)
    (hk : (a.phase c f).key = some k) (hb : b ≤ (a.cells (srv L c j) k).tag)
    (hm : Move L c f (a.view c f) e w) : w.phase.Floor L c j b := by
  generalize hv : a.view c f = w₀ at hm hok
  have hphase := hok.phase
  have hcells : w₀.cells = a.cells := by rw [← hv]; rfl
  have hph : w₀.phase = a.phase c f := by rw [← hv]; rfl
  rw [← hph] at h hk
  rw [← hcells] at hb
  cases hm with
  | stutter => exact h
  | putHit | putMiss | getStart => cases hk
  | chainDone | casDone | getDone | backDone => trivial
  | readPut | readGet =>
    obtain rfl := Option.some.inj hk
    exact le_of_update h fun hji => hji ▸ hb
  | @casChain cells ca k' v cached got i hi hg =>
    obtain rfl := Option.some.inj hk
    refine ⟨le_of_update h.1 fun hji => hji ▸ hb, fun ⟨i', hi', ht⟩ => ?_⟩
    by_cases htaken : ∃ i < L.effectiveMajority, (Phase.putChain k' v cached got).Taken i
    · exact h.2 htaken
    · -- this is the first slot taken: the cells do not hold greater sequence numbers
      have hx : cells (srv L c i) k' = cached := by
        by_contra hne
        refine htaken ⟨i', hi', ?_⟩
        by_cases hii : i' = i
        · subst hii
          rw [Phase.Taken, update_self] at ht
          exact absurd (Option.some.inj ht) hne
        · rwa [Phase.Taken, update_of_ne hii] at ht
      have hle := hst rfl hx v cached got hph.symm (by
        rw [← hph]
        exact fun i hi ht => htaken ⟨i, hi, ht⟩) j hj
      rw [← hcells] at hle
      exact hb.trans_lt (Register.tag_lt_of_seq (Register.seq_lt_succ hphase.1 hle))
  | casPut | casGet | casRetry => exact h
  | @readDone cells ca k' v got z g hgot hle hz =>
    have hz' : z < 65535 := by
      rcases hz with rfl | ⟨i, hi, rfl⟩
      · decide
      · exact hphase i _ (hgot i hi)
    exact (h _ (hgot j hj)).trans_lt (Register.tag_lt_of_seq (Register.seq_lt_succ hz' (hle j hj)))
  | @chainRetry cells ca k' v cached got z g hgot hex hle hz =>
    have hz' : z < 65535 := by
      rcases hz with rfl | ⟨i, hi, _, rfl⟩
      · exact hphase.1
      · exact (hphase.2 i _ (hgot i hi)).1
    have hgz : (g j).seq ≤ z := by
      by_cases hg : g j = cached
      · exact hg ▸ hle.1
      · exact hle.2 j hj hg
    exact (h.1 _ (hgot j hj)).trans_lt (Register.tag_lt_of_seq (Register.seq_lt_succ hz' hgz))
  | @casReset cells ca k' v t need exp got m g hgot hm' hout =>
    have hlt := Register.seq_lt_succ (hphase.got_lt m hm' _ (hgot m hm')) hout.2.2
    exact lt_trans h (Register.tag_lt_of_seq hlt)
  | getMax hgot hle => exact (h _ (hgot j hj)).trans (hle j hj)

/-- What has been installed is above what has been found. -/
theorem Phase.Floor.installed {ph : Phase} (h : ph.Floor L c j b) {t : Register}
    (ht : ph.installed L c = some t) : b < t.tag := by
  obtain ⟨rfl, hex⟩ := Phase.of_installed ht
  cases ph with
  | putChain => exact h.2 hex
  | putCas => exact h
  | idle | putRead | getRead | getBack =>
    obtain ⟨_, _, ht⟩ := hex
    exact ht.elim

/-- A Put that ends is above what it has found. -/
theorem Phase.Floor.putDone {v : UInt64} {t : Register} (h : w.phase.Floor L c j b)
    (hm : Move L c f w (.putDone c f k v t) w') : b < t.tag := by
  obtain ⟨_, rfl, htaken⟩ := hm.taken_of_putDone
  exact h.installed (Phase.installed_eq_some L.effectiveMajority_pos
    (htaken 0 L.effectiveMajority_pos))

/-- A Get does not end below what it has found. -/
theorem Phase.Floor.getDone (hj : j < L.effectiveMajority) {v : UInt64} {m : Register}
    (h : w.phase.Floor L c j b) (hm : Move L c f w (.getDone c f k m v) w') : b ≤ m.tag := by
  cases hm with
  | getDone hgot hle => exact (h _ (hgot j hj)).trans (hle j hj)
  | backDone => exact h

end Floor

end DiscoSkip
