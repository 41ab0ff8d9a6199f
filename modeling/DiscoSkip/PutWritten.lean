import DiscoSkip.Monotone
import DiscoSkip.Simulation

/-!
# What a Put has written

A Put that is over should have written its final target to all the replicas of
its quorum: the step `cas` counts the replicas on which it has succeeded, and
ends with the quorum complete (`Written`).

After a reset, this is so only if the slot that was outrun is the last one: the
loop goes on, after the reset, and takes the slots that follow for successes.
The condition `Cluster.OutrunLast` says that no other slot is outrun.
-/

namespace DiscoSkip

open Function

/-! ## The condition -/

/-- Whenever a Put steps on after its CASes, no slot is outrun, but for the last
    one of the quorum. -/
def Cluster.OutrunLast (L : Layout) (s : Cluster) : Action → Prop
  | .tryStepForward c f =>
    ((s.clients c).futures f).kind = .put → ((s.clients c).futures f).putF.step = .cas →
      (DsConf.ofClient L c).Ready ((s.clients c).futures f).putF.ongoingPerServer →
      ∀ i < L.effectiveMajority - 1,
        ¬((s.clients c).futures f).putF.Outrun (.ofClient L c) ((s.clients c).scratch f) i
  | _ => True

instance (L : Layout) (s : Cluster) : DecidablePred (Cluster.OutrunLast L s)
  | .tryStepForward .. => inferInstanceAs (Decidable (_ → _ → _ → ∀ i < _, _))
  | .doPut .. | .doGet .. | .rdma .. => .isTrue trivial

/-- The same, of a phase: with all the answers there, no slot is outrun, but for
    the last one. -/
def Phase.OutrunLast (L : Layout) : Phase → Prop
  | .putCas _ _ t need exp got => ∀ g : ℕ → Register,
      (∀ i < L.effectiveMajority, got i = some (g i)) →
      ∀ i < L.effectiveMajority - 1, need i = true → g i ≠ exp i → (g i).seq < t.seq
  | _ => True

/-- The same, of the protocol. -/
def Proto.OutrunLast (L : Layout) (a : Proto) : Event → Prop
  | .stepped c f => (a.phase c f).OutrunLast L
  | _ => True

/-- A step that ends no operation is a step forward. -/
theorem Cluster.step_stepped {L : Layout} {s s' : Cluster} {act : Action} {c f : ℕ}
    (h : s.step L act = some (.stepped c f, s')) : act = .tryStepForward c f := by
  rcases Cluster.step_cases h with ⟨_, _, _, _, _, he⟩ | ⟨_, _, _, _, he⟩ | ⟨_, _, _, _, _, _, he⟩ |
    ⟨_, _, _, _, _, _, _, _, _, he⟩ | ⟨c', f', rfl, he⟩
  case inr.inr.inr.inr =>
    rcases Cluster.stepEvent_cases c' f' ((s.clients c').futures f') _ with
      hev | ⟨_, _, _, hev⟩ | ⟨_, _, hev⟩ | ⟨_, _, _, _, _, _, hev⟩ <;> rw [hev] at he <;> cases he
    rfl
  all_goals cases he

/-- A Put all of whose CASes have been answered is free to step. -/
theorem Sim.ready_put {L : Layout} {s : Cluster} {a : Proto} (h : Sim L s a) {c f k : ℕ}
    {v : UInt64} {t : Register} {need : ℕ → Bool} {exp g : ℕ → Register}
    {got : ℕ → Option Register} (hph : a.phase c f = .putCas k v t need exp got)
    (hgot : ∀ i < L.effectiveMajority, got i = some (g i)) :
    (DsConf.ofClient L c).Ready ((s.clients c).futures f).putF.ongoingPerServer := by
  have hp := h.phase c f
  rw [hph] at hp
  obtain ⟨_, _, _, _, hi, _⟩ := hp
  intro r _
  have hnone : s.inflight c f r = none := by
    by_cases hs : ∃ i < (DsConf.ofClient L c).quorum, (DsConf.ofClient L c).quorumIndices i = r
    · obtain ⟨i, hiq, rfl⟩ := hs
      rw [hi.1 i hiq, hgot i hiq]
      simp
    · push Not at hs
      exact hi.2 r hs
  rw [(h.counts c f).put r, hnone]
  simp

theorem Sim.outrunLast {L : Layout} {s s' : Cluster} {a : Proto} {act : Action} {e : Event}
    (h : Sim L s a) (hg : s.OutrunLast L act) (hs : s.step L act = some (e, s')) :
    a.OutrunLast L e := by
  cases e with
  | stepped c f =>
    obtain rfl := Cluster.step_stepped hs
    have hp := h.phase c f
    change (a.phase c f).OutrunLast L
    cases hph : a.phase c f with
    | putCas k v t need exp got =>
      intro g hgot i hi hneed hne
      have hr := h.ready_put hph hgot
      rw [hph] at hp
      obtain ⟨hk, hst, ⟨_, _, ht, _⟩, hn, _, hb⟩ := hp
      have hi' : i < (DsConf.ofClient L c).quorum := by
        change i < L.effectiveMajority
        omega
      have hout := hg hk hst hr i hi
      rw [PutFuture.Outrun, (hn i hi').1, (hn i hi').2, hb i hi' _ (hgot i hi'), ht] at hout
      by_contra hge
      exact hout ⟨hneed, hne, UInt16.not_lt.1 hge⟩
    | _ => trivial
  | _ => trivial

/-! ## The writes of a Put -/

section Written

variable {L : Layout} {c f k : ℕ} {v : UInt64} {mid : List Event} {w w' : View} {e : Event}

/-- A CAS of the future `f` of the client `c` has replaced a register of the key
    `k` by `t`, in the slot `i`. -/
def Written (L : Layout) (c f k : ℕ) (t : Register) (mid : List Event) (i : ℕ) : Prop :=
  ∃ x, .cas c f (srv L c i) k .put x t x ∈ mid

theorem Written.cons {t : Register} {i : ℕ} (h : Written L c f k t mid i) :
    Written L c f k t (e :: mid) i :=
  h.imp fun _ hx => List.mem_cons_of_mem _ hx

/-- A Put of `v` to the key `k`, with the events `mid`, that has really written
    its target to the slots it counts, unless it is over. -/
def Counted (L : Layout) (c f k : ℕ) (v : UInt64) (mid : List Event) : Phase → Prop
  | .idle => True
  | .putRead k' v' _ => k' = k ∧ v' = v
  | .putCas k' v' t need exp got => (k' = k ∧ v' = v) ∧
      (∀ i < L.effectiveMajority, got i = none → need i = true) ∧
      ∀ i < L.effectiveMajority, ∀ x, got i = some x → need i = false ∨ x = exp i →
        Written L c f k t mid i
  | _ => False

theorem Counted.cons {ph : Phase} (h : Counted L c f k v mid ph) :
    Counted L c f k v (e :: mid) ph := by
  cases ph with
  | putCas => exact ⟨h.1, h.2.1, fun i hi x hx hc => (h.2.2 i hi x hx hc).cons⟩
  | _ => exact h

theorem Counted.move (h : Counted L c f k v mid w.phase) (hm : Move L c f w e w')
    (he : ¬e.Invokes c f) (hout : e = .stepped c f → w.phase.OutrunLast L) :
    Counted L c f k v (e :: mid) w'.phase := by
  cases hm with
  | stutter => exact h.cons
  | putHit | putMiss | getStart => exact absurd ⟨rfl, rfl⟩ he
  | casChain | chainRetry | readGet | casGet | getMax => exact h.elim
  | chainDone | casDone | getDone | backDone => trivial
  | readPut => exact h
  | readDone => exact ⟨h, fun _ _ _ => rfl, by simp⟩
  | @casPut cells ca k' v' t need exp got i hi hg =>
    obtain ⟨⟨rfl, rfl⟩, hnone, hw⟩ := h
    refine ⟨⟨rfl, rfl⟩, fun j hj hn => hnone j hj (eq_none_of_update hn), fun j hj x hx hc => ?_⟩
    by_cases hji : j = i
    · subst hji
      rw [update_self] at hx
      obtain rfl := Option.some.inj hx
      have hx' := hc.resolve_left (by simp [hnone j hj hg])
      refine ⟨exp j, ?_⟩
      rw [hx']
      exact List.mem_cons_self
    · rw [update_of_ne hji] at hx
      exact (hw j hj x hx hc).cons
  | @casRetry cells ca k' v' t need exp got g hgot hex hbelow =>
    obtain ⟨hkv, hnone, hw⟩ := h
    refine ⟨hkv, fun i _ hn => by simpa using hn, fun i hi x hx _ => ?_⟩
    dsimp only at hx
    split at hx
    · exact absurd hx (by simp)
    · next hc =>
      rw [not_and_or, Bool.not_eq_true, not_not] at hc
      exact (hw i hi _ (hgot i hi) hc).cons
  | @casReset cells ca k' v' t need exp got m g hgot hm hm' hbelow =>
    -- the slot outrun is the last one, so that all of them are to be tried again
    have hlast : ∀ i < L.effectiveMajority, i ≤ m := by
      intro i hi
      by_contra hlt
      have := hout rfl g hgot m (by omega) hm'.1 hm'.2.1
      exact absurd this (UInt16.not_lt.2 hm'.2.2)
    refine ⟨h.1, fun i hi _ => by simpa using hlast i hi, fun i hi x hx _ => ?_⟩
    dsimp only at hx
    rw [if_pos (hlast i hi)] at hx
    exact absurd hx (by simp)

/-- Without the cache, a Put starts by reading. -/
theorem Counted.start (hcache : L.regCacheEnabled = false) {c' f' : ℕ}
    (hm : Move L c f w (.invokePut c' f' k v) w') : Counted L c f k v [] w'.phase := by
  cases hm with
  | putHit hen => exact absurd (hcache.symm.trans hen) (by simp)
  | putMiss => exact ⟨rfl, rfl⟩

/-- A Put that ends has written its target to all its quorum. -/
theorem Counted.putDone (h : Counted L c f k v mid w.phase) {k' : ℕ} {v' : UInt64} {t : Register}
    (hm : Move L c f w (.putDone c f k' v' t) w') {i : ℕ} (hi : i < L.effectiveMajority) :
    Written L c f k t mid i := by
  cases hm with
  | chainDone => exact h.elim
  | casDone hgot hall =>
    refine h.2.2 i hi _ (hgot i hi) ?_
    rw [← Bool.not_eq_true, ← imp_iff_not_or]
    exact hall i hi

end Written

/-! ## The Puts written -/

/-- In every run admitted by `G`, with sequence numbers below the last one, a Put
    that is over has replaced a register by its final target on every server of
    its quorum. -/
def PutsWritten (L : Layout) (G : Cluster → Action → Prop) : Prop :=
  ∀ (c f k : ℕ) (v : UInt64) (t : Register) (pre mid post : List Event) (s : Cluster),
    (Cluster.machine L).Run G (post ++ .putDone c f k v t :: (mid ++ .invokePut c f k v :: pre)) s →
    (∀ e ∈ post ++ .putDone c f k v t :: (mid ++ .invokePut c f k v :: pre), e.SeqBelow) →
    (∀ e ∈ mid, ¬e.Invokes c f) →
    ∀ i < L.effectiveMajority,
      ∃ x, .cas c f ((DsConf.ofClient L c).quorumIndices i) k .put x t x ∈ mid

/-- Without the cache, the Puts are written, in the runs in which no slot but the
    last one is outrun. -/
theorem putsWritten {L : Layout} (hq : L.effectiveMajority ≤ L.numServers)
    (hcache : L.regCacheEnabled = false) : PutsWritten L (Cluster.OutrunLast L) := by
  intro c f k v t pre mid post s h hseq hmid i hi
  have hn : 0 < L.numServers := L.effectiveMajority_pos.trans_le hq
  obtain ⟨a, hr, _⟩ := exists_run (H := Proto.OutrunLast L) hq hn
    (fun s a act e s' hs hg hst => hs.outrunLast hg hst) h hseq
  obtain ⟨a₃, h₃, _⟩ := hr.of_append
  obtain ⟨a₂, h₂, hs₂⟩ := h₃.last
  obtain ⟨a₁, h₁, hmid'⟩ := h₂.of_append
  obtain ⟨a₀, _, hs₁⟩ := h₁.last
  -- the Put has just started
  have hstart : Counted L c f k v [] (a₁.phase c f) := by
    obtain ⟨c', f', w, _, _, _, hm, rfl⟩ := hs₁
    obtain ⟨rfl, rfl⟩ := Prod.mk.inj hm.owner_eq
    rw [Proto.setView_phase_self]
    exact Counted.start hcache hm
  have hcount : Counted L c f k v mid (a₂.phase c f) := by
    refine (hmid'.guard hmid).invariant (P := fun tr a => Counted L c f k v tr (a.phase c f))
      hstart ?_
    rintro tr a e a' - ha ⟨⟨c', f', w, _, _, he, hm, rfl⟩, hne⟩
    by_cases hcf : c ≠ c' ∨ f ≠ f'
    · rw [Proto.setView_phase_ne _ _ hcf]
      exact ha.cons
    · push Not at hcf
      obtain ⟨rfl, rfl⟩ := hcf
      rw [Proto.setView_phase_self]
      exact ha.move hm hne fun hst => by
        subst hst
        exact he.1
  obtain ⟨c', f', w, _, _, _, hm, _⟩ := hs₂
  obtain ⟨rfl, rfl⟩ := Prod.mk.inj hm.owner_eq
  exact hcount.putDone hm hi

/-- For instance, where the Put of the client 1 outruns that of the client 0 in
    the last slot of its quorum: it is reset, and ends with the new target on
    both its servers. -/
theorem putsWritten_threeServers :
    PutsWritten (.threeServers 1 false false) (Cluster.OutrunLast (.threeServers 1 false false)) ∧
      ∃ s, (Cluster.machine (.threeServers 1 false false)).Run
        (Cluster.OutrunLast (.threeServers 1 false false))
        [.putDone 0 0 7 11 ⟨11, 0, 2⟩, .cas 0 0 0 7 .put ⟨11, 0, 1⟩ ⟨11, 0, 2⟩ ⟨11, 0, 1⟩,
          .stepped 0 0, .cas 0 0 1 7 .put ⟨22, 1, 1⟩ ⟨11, 0, 2⟩ ⟨22, 1, 1⟩,
          .cas 0 0 0 7 .put .zero ⟨11, 0, 2⟩ ⟨11, 0, 1⟩, .stepped 0 0,
          .cas 0 0 1 7 .put .zero ⟨11, 0, 1⟩ ⟨22, 1, 1⟩, .cas 0 0 0 7 .put .zero ⟨11, 0, 1⟩ .zero,
          .cas 1 0 1 7 .put .zero ⟨22, 1, 1⟩ .zero, .stepped 1 0, .stepped 0 0,
          .read 1 0 2 7 .zero, .read 1 0 1 7 .zero, .read 0 0 1 7 .zero, .read 0 0 0 7 .zero,
          .invokePut 1 0 7 22, .invokePut 0 0 7 11] s :=
  ⟨putsWritten (by decide) rfl, Lib.Machine.run_of_play
    [.doPut 0 0 7 11, .doPut 1 0 7 22, .rdma 0 0 0, .rdma 0 0 1, .rdma 1 0 1, .rdma 1 0 2,
      .tryStepForward 0 0, .tryStepForward 1 0, .rdma 1 0 1, .rdma 0 0 0, .rdma 0 0 1,
      .tryStepForward 0 0, .rdma 0 0 0, .rdma 0 0 1, .tryStepForward 0 0, .rdma 0 0 0,
      .tryStepForward 0 0] (by decide +kernel)⟩

/-- In general, they are not. The Put of the client 2 outruns that of the client
    0 on the server 0, the first of its quorum. The reset bumps the target, and
    takes the server 1 for done: there, the old target has been written, and the
    final one never is. -/
theorem not_putsWritten : ¬PutsWritten (.threeServers 1 false false) Cluster.Any := by
  intro h
  obtain ⟨s, hs⟩ : ∃ s, (Cluster.machine (.threeServers 1 false false)).Run Cluster.Any
      [.putDone 0 0 7 11 ⟨11, 0, 2⟩, .cas 0 0 0 7 .put ⟨22, 2, 1⟩ ⟨11, 0, 2⟩ ⟨22, 2, 1⟩,
        .stepped 0 0, .cas 0 0 1 7 .put .zero ⟨11, 0, 1⟩ .zero,
        .cas 0 0 0 7 .put .zero ⟨11, 0, 1⟩ ⟨22, 2, 1⟩, .cas 2 0 0 7 .put .zero ⟨22, 2, 1⟩ .zero,
        .stepped 2 0, .stepped 0 0, .read 2 0 0 7 .zero, .read 2 0 2 7 .zero,
        .read 0 0 1 7 .zero, .read 0 0 0 7 .zero, .invokePut 0 0 7 11, .invokePut 2 0 7 22] s :=
    Lib.Machine.run_of_play
      [.doPut 2 0 7 22, .doPut 0 0 7 11, .rdma 0 0 0, .rdma 0 0 1, .rdma 2 0 2, .rdma 2 0 0,
        .tryStepForward 0 0, .tryStepForward 2 0, .rdma 2 0 0, .rdma 0 0 0, .rdma 0 0 1,
        .tryStepForward 0 0, .rdma 0 0 0, .tryStepForward 0 0] (by decide +kernel)
  obtain ⟨x, hx⟩ := h 0 0 7 11 ⟨11, 0, 2⟩ [.invokePut 2 0 7 22]
    [.cas 0 0 0 7 .put ⟨22, 2, 1⟩ ⟨11, 0, 2⟩ ⟨22, 2, 1⟩, .stepped 0 0,
      .cas 0 0 1 7 .put .zero ⟨11, 0, 1⟩ .zero, .cas 0 0 0 7 .put .zero ⟨11, 0, 1⟩ ⟨22, 2, 1⟩,
      .cas 2 0 0 7 .put .zero ⟨22, 2, 1⟩ .zero, .stepped 2 0, .stepped 0 0, .read 2 0 0 7 .zero,
      .read 2 0 2 7 .zero, .read 0 0 1 7 .zero, .read 0 0 0 7 .zero] [] s hs (by decide) (by decide)
    1 (by decide)
  have hsrv : (DsConf.ofClient (.threeServers 1 false false) 0).quorumIndices 1 = 1 := by decide
  simp [hsrv] at hx

end DiscoSkip
