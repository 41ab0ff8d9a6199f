import DiscoSkip.Monotone
import DiscoSkip.Simulation

/-!
# The order of the Gets

With the writeback, a Get that starts after another one has ended should not
return an older register. What a Get leaves behind, when it ends, is a quorum of
cells of tags not below its maximum (`Settled`), which every later Get meets.

The writeback does not quite do that: it takes any failed CAS for a cell that
has moved on *past* the maximum, although it may have moved on to a lesser tag.
The Gets are in order in the runs in which this does not happen
(`Cluster.WritebackPasses`).
-/

namespace DiscoSkip

open Function

/-! ## The condition -/

/-- Those of the CASes of a writeback that have failed have found a register
    with a tag not below the maximum. -/
def GetFuture.Passes (d : DsConf) (bufs : Scratch) (g : GetFuture) : Prop :=
  ∀ i < d.quorum, g.expected i ≠ g.maxReg → bufs.swapBufs (d.quorumIndices i) ≠ g.expected i →
    ¬bufs.swapBufs (d.quorumIndices i) < g.maxReg

instance (d : DsConf) (bufs : Scratch) (g : GetFuture) : Decidable (g.Passes d bufs) :=
  inferInstanceAs (Decidable (∀ i < _, _))

/-- Whenever a Get is to end its writeback, the failed CASes have passed the maximum. -/
def Cluster.WritebackPasses (L : Layout) (s : Cluster) : Action → Prop
  | .tryStepForward c f =>
    ((s.clients c).futures f).kind = .get → ((s.clients c).futures f).getF.step = .writingBack →
      (DsConf.ofClient L c).Ready ((s.clients c).futures f).getF.ongoingPerServer →
      ((s.clients c).futures f).getF.Passes (.ofClient L c) ((s.clients c).scratch f)
  | _ => True

instance (L : Layout) (s : Cluster) : DecidablePred (Cluster.WritebackPasses L s)
  | .tryStepForward .. => inferInstanceAs (Decidable (_ → _ → _ → _))
  | .doPut .. | .doGet .. | .rdma .. => .isTrue trivial

/-- The same, of the protocol. -/
def Proto.WritebackPasses (L : Layout) (a : Proto) : Event → Prop
  | .getDone c f _ _ _ => ∀ k m exp got, a.phase c f = .getBack k m exp got →
      ∀ i < L.effectiveMajority, ∀ x, got i = some x → x ≠ exp i → exp i ≠ m → m.tag ≤ x.tag
  | _ => True

/-- Only a future's own step forward ends its Get, once it is free to step. -/
theorem Cluster.step_getDone {L : Layout} {s s' : Cluster} {act : Action} {c f k : ℕ}
    {m : Register} {v : UInt64} (h : s.step L act = some (.getDone c f k m v, s')) :
    act = .tryStepForward c f ∧ ((s.clients c).futures f).kind = .get ∧
      (DsConf.ofClient L c).Ready ((s.clients c).futures f).getF.ongoingPerServer := by
  rcases Cluster.step_cases h with ⟨_, _, _, _, _, he⟩ | ⟨_, _, _, _, he⟩ | ⟨_, _, _, _, _, _, he⟩ |
    ⟨_, _, _, _, _, _, _, _, _, he⟩ | ⟨c', f', rfl, he⟩
  case inr.inr.inr.inr =>
    rcases Cluster.stepEvent_cases c' f' ((s.clients c').futures f') _ with
      hev | ⟨_, _, _, hev⟩ | ⟨_, _, hev⟩ | ⟨hk, hs, hs', _, _, _, hev⟩
        <;> rw [hev] at he <;> cases he
    refine ⟨rfl, hk, ?_⟩
    by_contra hr
    rw [tryStepForward_get hk, GetFuture.tryStepForward, if_neg hr] at hs'
    exact hs hs'
  all_goals cases he

theorem Sim.writebackPasses {L : Layout} {s s' : Cluster} {a : Proto} {act : Action} {e : Event}
    (h : Sim L s a) (hg : s.WritebackPasses L act) (hs : s.step L act = some (e, s')) :
    a.WritebackPasses L e := by
  cases e with
  | getDone c f k m v =>
    obtain ⟨rfl, hk, hr⟩ := Cluster.step_getDone hs
    intro k' m' exp got hph i hi x hx hne hne'
    have hp := h.phase c f
    rw [hph] at hp
    obtain ⟨_, hst, ⟨_, hm, _, hexp⟩, _, hb⟩ := hp
    have hpass := hg hk hst hr i hi
    rw [hexp i hi, hm, hb i hi hne' x hx] at hpass
    exact Register.not_lt_iff.1 (hpass hne' hne)
  | _ => trivial

/-! ## What a Get leaves behind -/

section Settled

variable {L : Layout} {c f : ℕ} {cells cells' : ℕ → ℕ → Register} {ph : Phase} {w w' : View}
  {e : Event}

/-- What a Get has seen is not above the cells it saw it in, and its maximum is
    not above those that it has found, or made, equal to it. -/
def BackOk (L : Layout) (c : ℕ) (cells : ℕ → ℕ → Register) : Phase → Prop
  | .getRead k got => ∀ i < L.effectiveMajority, ∀ x, got i = some x →
      x.tag ≤ (cells (srv L c i) k).tag
  | .getBack k m exp got => ∀ i < L.effectiveMajority, ∀ x, got i = some x →
      x.tag ≤ (cells (srv L c i) k).tag ∧
        (x = exp i ∨ exp i = m → m.tag ≤ (cells (srv L c i) k).tag)
  | _ => True

theorem BackOk.mono (hle : ∀ r k, (cells r k).tag ≤ (cells' r k).tag) (h : BackOk L c cells ph) :
    BackOk L c cells' ph := by
  cases ph with
  | getRead k got => exact fun i hi x hx => (h i hi x hx).trans (hle _ _)
  | getBack k m exp got =>
    exact fun i hi x hx => ⟨(h i hi x hx).1.trans (hle _ _),
      fun he => ((h i hi x hx).2 he).trans (hle _ _)⟩
  | _ => trivial

theorem BackOk.move (hok : ViewOk L w) (h : BackOk L c w.cells w.phase) (hm : Move L c f w e w') :
    BackOk L c w'.cells w'.phase := by
  have hle := hok.cells_mono hm
  cases hm with
  | stutter => exact h
  | getStart => exact fun _ _ _ hx => absurd hx (by simp)
  | readGet =>
    exact fun i hi x hx => forall_update
      (P := fun i x => i < L.effectiveMajority → x.tag ≤ (_ : Register).tag)
      (fun i x hx hi => h i hi x hx) (fun _ => le_rfl) i x hx hi
  | @casGet cells ca k m exp got i hi hg =>
    intro j hj x hx
    by_cases hji : j = i
    · subst hji
      rw [update_self] at hx
      obtain rfl := Option.some.inj hx
      refine ⟨hle _ _, fun he => ?_⟩
      -- the CAS of a slot that was to be written back has succeeded
      have hne := (hok.phase.2 j hj).2 hg
      exact (congrArg Register.tag (casCell_self (he.resolve_right hne))).ge
    · rw [update_of_ne hji] at hx
      exact ⟨(h j hj x hx).1.trans (hle _ _), fun he => ((h j hj x hx).2 he).trans (hle _ _)⟩
  | @getMax cells ca k got m g hgot =>
    intro i hi x hx
    dsimp only at hx
    split at hx
    · next he =>
      obtain rfl := Option.some.inj hx
      have hi' := h i hi _ (hgot i hi)
      rw [he] at hi'
      exact ⟨hi', fun _ => hi'⟩
    · exact absurd hx (by simp)
  | _ => trivial

/-- Every Get that is over has left a quorum of cells of tags not below its
    maximum. -/
structure Settled (L : Layout) (tr : List Event) (a : Proto) : Prop where
  back : ∀ c f, BackOk L c a.cells (a.phase c f)
  done : ∀ c f k m v, .getDone c f k m v ∈ tr →
    ∀ i < L.effectiveMajority, m.tag ≤ (a.cells (srv L c i) k).tag

/-- A Get that ends leaves its maximum in all cells of its quorum, or passed there. -/
theorem BackOk.getDone {a : Proto} (hen : L.regWritebackEnabled = true)
    (h : BackOk L c a.cells (a.phase c f)) {k : ℕ} {m : Register} {v : UInt64}
    (hpass : a.WritebackPasses L (.getDone c f k m v))
    (hm : Move L c f (a.view c f) (.getDone c f k m v) w) {i : ℕ} (hi : i < L.effectiveMajority) :
    m.tag ≤ (a.cells (srv L c i) k).tag := by
  generalize hv : a.view c f = w₀ at hm
  cases hm with
  | getDone hgot _ _ hall =>
    obtain ⟨rfl, _, hph⟩ := View.mk.inj hv
    rw [hph] at h
    rw [← hall hen i hi]
    exact h i hi _ (hgot i hi)
  | @backDone cells ca k m exp got hgot =>
    obtain ⟨rfl, _, hph⟩ := View.mk.inj hv
    rw [hph] at h
    obtain ⟨x, hx⟩ := Option.ne_none_iff_exists'.1 (hgot i hi)
    by_cases he : x = exp i ∨ exp i = m
    · exact (h i hi x hx).2 he
    · -- the CAS has failed, but it has found a register past the maximum
      push Not at he
      exact (hpass _ _ _ _ hph i hi x hx he.1 he.2).trans (h i hi x hx).1

variable {H : Proto → Event → Prop} (hH : ∀ a e, H a e → e.SeqBelow ∧ a.WritebackPasses L e)

include hH in
/-- The Gets that are over stay settled. -/
theorem Settled.run (hen : L.regWritebackEnabled = true) {tr : List Event} {a : Proto}
    (h : Proto.Run L H tr a) : Settled L tr a := by
  refine h.invariant (P := Settled L) ?_ fun tr a e a' hr ⟨hback, hdone⟩ hs => ?_
  · exact ⟨fun _ _ => trivial, by simp⟩
  have hb := Bounded.run (fun a e h => (hH a e h).1) hr
  have hle := hb.cells_mono hs
  obtain ⟨c, f, w, _, _, he, hm, rfl⟩ := hs
  refine ⟨Proto.forall_setView (P := fun c _ => BackOk L c w.cells)
    (fun c' f' _ => (hback c' f').mono hle) ((hback c f).move (hb.view c f) hm), ?_⟩
  intro c' f' k m v hmem i hi
  rcases List.mem_cons.1 hmem with rfl | hmem
  · -- the Get that ends here is that of the future that moves
    obtain ⟨rfl, rfl⟩ := Prod.mk.inj hm.owner_eq
    exact ((hback c' f').getDone hen (hH _ _ he).2 hm hi).trans (hle _ _)
  · exact (hdone c' f' k m v hmem i hi).trans (hle _ _)

end Settled

/-! ## What a later Get finds -/

section Later

variable {L : Layout} {c f j k : ℕ} {b : ℕ ×ₗ ℕ} {w w' : View} {e : Event}

/-- A Get of the key `k` that sees no tag below `b` in the slot `j`, unless it is over. -/
def SeesFrom (j k : ℕ) (b : ℕ ×ₗ ℕ) : Phase → Prop
  | .idle => True
  | .getRead k' got => k' = k ∧ ∀ x, got j = some x → b ≤ x.tag
  | .getBack k' m _ _ => k' = k ∧ b ≤ m.tag
  | _ => False

theorem SeesFrom.move (hj : j < L.effectiveMajority) (h : SeesFrom j k b w.phase)
    (hb : b ≤ (w.cells (srv L c j) k).tag) (hm : Move L c f w e w') (he : ¬e.Invokes c f) :
    SeesFrom j k b w'.phase := by
  cases hm with
  | stutter => exact h
  | putHit | putMiss | getStart => exact absurd ⟨rfl, rfl⟩ he
  | readPut | casChain | casPut | readDone | chainRetry | casRetry | casReset => exact h.elim
  | chainDone | casDone | getDone | backDone => trivial
  | @readGet cells ca k' got i hi hg =>
    obtain ⟨rfl, hgot⟩ := h
    refine ⟨rfl, fun x hx => ?_⟩
    by_cases hji : j = i
    · subst hji
      rw [update_self] at hx
      exact Option.some.inj hx ▸ hb
    · rw [update_of_ne hji] at hx
      exact hgot x hx
  | casGet => exact h
  | getMax hgot hle => exact ⟨h.1, (h.2 _ (hgot j hj)).trans (hle j hj)⟩

/-- The maximum of such a Get. -/
theorem SeesFrom.getDone (hj : j < L.effectiveMajority) (h : SeesFrom j k b w.phase) {k' : ℕ}
    {m : Register} {v : UInt64} (hm : Move L c f w (.getDone c f k' m v) w') : b ≤ m.tag := by
  cases hm with
  | getDone hgot hle => exact (h.2 _ (hgot j hj)).trans (hle j hj)
  | backDone => exact h.2

variable {H : Proto → Event → Prop} (hH : ∀ a e, H a e → e.SeqBelow)

include hH in
/-- A Get started when the cell of its slot `j` had a tag not below `b` ends with
    a maximum not below `b`. -/
theorem SeesFrom.run (hj : j < L.effectiveMajority) {pre mid : List Event} {a : Proto}
    {m : Register} {v : UInt64}
    (h : Proto.Run L H (.getDone c f k m v :: (mid ++ .invokeGet c f k :: pre)) a)
    (hmid : ∀ e ∈ mid, ¬e.Invokes c f)
    (hb : ∀ a₀, Proto.Run L H pre a₀ → b ≤ (a₀.cells (srv L c j) k).tag) : b ≤ m.tag := by
  obtain ⟨a₂, h₂, hs₂⟩ := h.last
  obtain ⟨a₁, h₁, hmid'⟩ := h₂.of_append
  obtain ⟨a₀, h₀, hs₁⟩ := h₁.last
  have hb₀ := Bounded.run hH h₀
  -- the Get has just started
  have hstart : SeesFrom j k b (a₁.phase c f) ∧ b ≤ (a₁.cells (srv L c j) k).tag := by
    refine ⟨?_, (hb a₀ h₀).trans (hb₀.cells_mono hs₁ _ _)⟩
    obtain ⟨c', f', w, _, _, _, hm, rfl⟩ := hs₁
    obtain ⟨rfl, rfl⟩ := Prod.mk.inj hm.owner_eq
    rw [Proto.setView_phase_self, hm.invokeGet]
    exact ⟨rfl, fun x hx => absurd hx (by simp)⟩
  have hb₁ := Bounded.run hH h₁
  have hsees : SeesFrom j k b (a₂.phase c f) := by
    refine ((hmid'.guard hmid).invariant (P := fun _ a => Bounded L a ∧
      SeesFrom j k b (a.phase c f) ∧
      b ≤ (a.cells (srv L c j) k).tag) ⟨hb₁, hstart⟩ ?_).2.1
    rintro tr a e a' - ⟨hba, hsa, hca⟩ ⟨hs, hne⟩
    have hle := hba.cells_mono hs
    refine ⟨?_, ?_, hca.trans (hle _ _)⟩
    · obtain ⟨_, _, _, _, _, he, _⟩ := id hs
      exact hba.step hs (hH _ _ he)
    · obtain ⟨c', f', w, _, _, _, hm, rfl⟩ := hs
      by_cases hcf : c ≠ c' ∨ f ≠ f'
      · rw [Proto.setView_phase_ne _ _ hcf]
        exact hsa
      · push Not at hcf
        obtain ⟨rfl, rfl⟩ := hcf
        rw [Proto.setView_phase_self]
        exact SeesFrom.move hj hsa hca hm hne
  obtain ⟨c', f', w, _, _, _, hm, _⟩ := hs₂
  obtain ⟨rfl, rfl⟩ := Prod.mk.inj hm.owner_eq
  exact SeesFrom.getDone hj hsees hm

end Later

/-! ## The Gets in order -/

/-- In every run admitted by `G`, with sequence numbers below the last one, a Get
    that starts after another one has ended does not end with a lesser tag. -/
def GetsOrdered (L : Layout) (G : Cluster → Action → Prop) : Prop :=
  ∀ (c c' f f' k : ℕ) (m m' : Register) (v v' : UInt64) (pre mid post : List Event) (s : Cluster),
    (Cluster.machine L).Run G
      (post ++ .getDone c' f' k m' v' :: (mid ++ .invokeGet c' f' k :: pre)) s →
    (∀ e ∈ post ++ .getDone c' f' k m' v' :: (mid ++ .invokeGet c' f' k :: pre), e.SeqBelow) →
    (∀ e ∈ mid, ¬e.Invokes c' f') → .getDone c f k m v ∈ pre → m.tag ≤ m'.tag

/-- The Gets are in order, in the runs in which the failed CASes of a writeback
    have passed the maximum. -/
theorem getsOrdered {L : Layout} (hq : L.effectiveMajority ≤ L.numServers)
    (hmaj : L.numServers < 2 * L.effectiveMajority) (hen : L.regWritebackEnabled = true) :
    GetsOrdered L (Cluster.WritebackPasses L) := by
  intro c c' f f' k m m' v v' pre mid post s h hseq hmid hdone
  have hn : 0 < L.numServers := L.effectiveMajority_pos.trans_le hq
  obtain ⟨a, hr, _⟩ := exists_run (H := Proto.WritebackPasses L) hq hn
    (fun s a act e s' hs hg hst => hs.writebackPasses hg hst) h hseq
  obtain ⟨a', hr', _⟩ := hr.of_append
  -- the two quorums share a server
  obtain ⟨i, hi, j, hj, hij⟩ :=
    Lib.window_inter hq hmaj (UInt8.ofNat c).toNat (UInt8.ofNat c').toNat
  have hsrv : srv L c i = srv L c' j := hij
  refine SeesFrom.run (fun a e h => h.2) hj hr' hmid fun a₀ h₀ => ?_
  rw [← hsrv]
  exact (Settled.run (fun a e h => ⟨h.2, h.1⟩) hen h₀).done c f k m v hdone i hi

/-- For instance, where the first of two Gets finds the Put of a client on one
    server and writes it back to another one, where the second Get finds it. -/
theorem getsOrdered_threeServers :
    GetsOrdered (.threeServers 1 true true) (Cluster.WritebackPasses (.threeServers 1 true true)) ∧
      ∃ s, (Cluster.machine (.threeServers 1 true true)).Run
        (Cluster.WritebackPasses (.threeServers 1 true true))
        [.getDone 2 0 7 ⟨5, 0, 1⟩ 5, .cas 2 0 0 7 .get .zero ⟨5, 0, 1⟩ .zero,
          .getMax 2 0 7 ⟨5, 0, 1⟩, .read 2 0 0 7 .zero, .read 2 0 2 7 ⟨5, 0, 1⟩, .invokeGet 2 0 7,
          .getDone 1 0 7 ⟨5, 0, 1⟩ 5, .cas 1 0 2 7 .get .zero ⟨5, 0, 1⟩ .zero,
          .getMax 1 0 7 ⟨5, 0, 1⟩, .read 1 0 2 7 .zero, .read 1 0 1 7 ⟨5, 0, 1⟩,
          .invokeGet 1 0 7, .cas 0 0 1 7 .put .zero ⟨5, 0, 1⟩ .zero, .stepped 0 0,
          .read 0 0 1 7 .zero, .read 0 0 0 7 .zero, .invokePut 0 0 7 5] s :=
  ⟨getsOrdered (by decide) (by decide) rfl, Lib.Machine.run_of_play
    [.doPut 0 0 7 5, .rdma 0 0 0, .rdma 0 0 1, .tryStepForward 0 0, .rdma 0 0 1,
      .doGet 1 0 7, .rdma 1 0 1, .rdma 1 0 2, .tryStepForward 1 0, .rdma 1 0 2,
      .tryStepForward 1 0, .doGet 2 0 7, .rdma 2 0 2, .rdma 2 0 0, .tryStepForward 2 0,
      .rdma 2 0 0, .tryStepForward 2 0] (by decide +kernel)⟩

/-- In general, they are not. The Put of the client 4 has reached the server 1,
    and the client 0 has read it there, and nothing on the server 0, when the Put
    of the client 2, with a lesser tag, reaches the server 0. The writeback of
    the client 0 fails there, and it returns the value of the client 4 all the
    same; the client 5, after that, finds that of the client 2. -/
theorem not_getsOrdered : ¬GetsOrdered (.threeServers 1 true true) Cluster.Any := by
  intro h
  obtain ⟨s, hs⟩ : ∃ s, (Cluster.machine (.threeServers 1 true true)).Run Cluster.Any
      [.getDone 5 0 7 ⟨22, 2, 1⟩ 22, .cas 5 0 2 7 .get .zero ⟨22, 2, 1⟩ .zero,
        .getMax 5 0 7 ⟨22, 2, 1⟩, .read 5 0 0 7 ⟨22, 2, 1⟩, .read 5 0 2 7 .zero, .invokeGet 5 0 7,
        .getDone 0 0 7 ⟨11, 4, 1⟩ 11, .cas 0 0 0 7 .get .zero ⟨11, 4, 1⟩ ⟨22, 2, 1⟩,
        .getMax 0 0 7 ⟨11, 4, 1⟩, .cas 2 0 0 7 .put .zero ⟨22, 2, 1⟩ .zero,
        .read 0 0 1 7 ⟨11, 4, 1⟩, .read 0 0 0 7 .zero, .invokeGet 0 0 7,
        .cas 4 0 1 7 .put .zero ⟨11, 4, 1⟩ .zero, .stepped 2 0, .stepped 4 0, .read 2 0 0 7 .zero,
        .read 2 0 2 7 .zero, .invokePut 2 0 7 22, .read 4 0 2 7 .zero, .read 4 0 1 7 .zero,
        .invokePut 4 0 7 11] s :=
    Lib.Machine.run_of_play
      [.doPut 4 0 7 11, .rdma 4 0 1, .rdma 4 0 2, .doPut 2 0 7 22, .rdma 2 0 2, .rdma 2 0 0,
        .tryStepForward 4 0, .tryStepForward 2 0, .rdma 4 0 1, .doGet 0 0 7, .rdma 0 0 0,
        .rdma 0 0 1, .rdma 2 0 0, .tryStepForward 0 0, .rdma 0 0 0, .tryStepForward 0 0,
        .doGet 5 0 7, .rdma 5 0 2, .rdma 5 0 0, .tryStepForward 5 0, .rdma 5 0 2,
        .tryStepForward 5 0] (by decide +kernel)
  have hle := h 0 5 0 0 7 ⟨11, 4, 1⟩ ⟨22, 2, 1⟩ 11 22 _
    [.cas 5 0 2 7 .get .zero ⟨22, 2, 1⟩ .zero, .getMax 5 0 7 ⟨22, 2, 1⟩,
      .read 5 0 0 7 ⟨22, 2, 1⟩, .read 5 0 2 7 .zero] [] s hs (by decide) (by decide) (by decide)
  exact Register.not_lt_iff.2 hle (by decide)

end DiscoSkip
