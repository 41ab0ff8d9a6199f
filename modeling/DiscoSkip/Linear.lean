import DiscoSkip.CallRegisters
import DiscoSkip.ReadOrder
import DiscoSkip.Unique

/-!
# The registers are linearizable

The operations on a key, of all clients, are linearizable in the runs in which the Puts
keep their targets and the writebacks pass (`linearizable_of_steady`). Without the
writebacks, or where they do not pass, they are still regular (`regular_of_steady`). Both
ask that the quorums of any two clients meet, and that no sequence number wraps around.
In any run at all, a Get returns nothing but zero and what a Put was to write
(`getsWritten`).

The argument is that of the tags. What a call that is over has come to stays below the
cells of its quorum (`SettledOn`), of which a later call meets one (`FloorOk`); and every
register found anywhere is one of a Put, which does not start after a Get that returns it
is over (`SourcesOk`).
-/

namespace DiscoSkip

open Function

/-! ## What the calls leave behind -/

section Runs

variable {L : Layout} {c f k : ℕ} {w : View} {e : Event} {tr : List Event} {a : Proto}
  {gets : Prop}

/-- The calls of the key `k` that are over, the Puts and, if `gets`, the Gets, have left
    cells not below their registers on their quorums. -/
structure SettledOn (L : Layout) (k : ℕ) (gets : Prop) (tr : List Event) (a : Proto) : Prop where
  taken : ∀ c f, TakenOk L c k a.cells (a.phase c f)
  done : ∀ o ∈ callsOn k tr, o.IsPut ∨ gets → o.stop ≠ none → ∀ t, o.reg = some t →
    ∀ i < L.effectiveMajority, t.tag ≤ (a.cells (srv L o.client i) k).tag

/-- A call does not find less than a call before it has left behind. -/
def FloorOk (L : Layout) (k : ℕ) (gets : Prop) (tr : List Event) (a : Proto) : Prop :=
  ∀ o' ∈ callsOn k tr, ∀ o ∈ callsOn k tr, o'.IsPut ∨ gets → callHistory.Before o' o →
    ∀ b, o'.reg = some b →
    (o.stop = none → ∀ i < L.effectiveMajority, ∀ j < L.effectiveMajority,
      srv L o'.client i = srv L o.client j →
        (a.phase o.client o.future).Floor L o.client j b.tag) ∧
    ∀ t, o.reg = some t → b.tag ≤ t.tag ∧ (o.IsPut → b.tag < t.tag)

/-- The register is the initial one, or that of a Put. -/
def Sourced (k : ℕ) (tr : List Event) (reg : Register) : Prop :=
  reg = .zero ∨ ∃ o ∈ callsOn k tr, o.IsPut ∧ o.reg = some reg

/-- All registers that are found are sourced. -/
structure SourcesOk (k : ℕ) (tr : List Event) (a : Proto) : Prop where
  cells : ∀ r, Sourced k tr (a.cells r k)
  read : ∀ c f got, a.phase c f = .getRead k got → ∀ i x, got i = some x → Sourced k tr x
  back : ∀ c f m exp got, a.phase c f = .getBack k m exp got → Sourced k tr m
  /-- A Get that is over returns what a Put that does not start after it has installed. -/
  get : ∀ o ∈ callsOn k tr, ¬o.IsPut → ∀ t, o.reg = some t → t = .zero ∨
    ∃ o' ∈ callsOn k tr, o'.IsPut ∧ o'.reg = some t ∧ ¬callHistory.Before o o'

theorem SettledOn.step (h : SettledOn L k gets tr a) (hb : Bounded L a)
    (hst : a.Steady L k e) (hm : Move L c f (a.view c f) e w)
    (hmark : ∀ o ∈ callsOn k tr, Marked L k c f tr.length e w o (e.marks tr.length o))
    (hlast : gets → ∀ m v, e = .getDone c f k m v →
      ∀ i < L.effectiveMajority, m.tag ≤ (a.cells (srv L c i) k).tag) :
    SettledOn L k gets (e :: tr) (a.setView c f w) := by
  have hle : ∀ r k, (a.cells r k).tag ≤ (w.cells r k).tag := (hb.view c f).cells_mono hm
  refine ⟨Proto.forall_setView (P := fun c _ => TakenOk L c k w.cells)
    (fun c' f' _ => (h.taken c' f').mono hle) ((h.taken c f).move (hb.view c f) hst hm), ?_⟩
  intro o ho hlasts hs t ht i hi
  rw [Proto.setView_cells]
  rcases mem_callsOn_cons.1 ho with ⟨hopen, _⟩ | ⟨o, hmem, rfl⟩
  · exact absurd (of_opens hopen).2.2.2.1 hs
  rw [marks_client]
  refine le_trans ?_ (hle _ _)
  cases hmark o hmem with
  | other heq =>
    rw [heq] at hlasts hs ht
    exact h.done o hmem hlasts hs t ht i hi
  | goes _ hs' => exact absurd hs' hs
  | putDone v t' hopen _ _ he _ hr =>
    obtain rfl := Option.some.inj (hr.symm.trans ht)
    subst he
    obtain ⟨hk, rfl, htaken⟩ := hm.taken_of_putDone
    rw [hopen.1.1]
    exact h.taken c f hk i hi (htaken i hi)
  | getDone v m hopen _ hget he hr _ =>
    obtain rfl := Option.some.inj (hr.symm.trans ht)
    rw [hopen.1.1]
    refine hlast (hlasts.resolve_left ?_) m v he i hi
    rw [marks_isPut]
    rintro ⟨_, _, hput⟩
    exact absurd (hget.symm.trans hput) (by simp)

/-- What is before a call now has been before it. -/
theorem before_of_marks {o o' : OpCall} (hhist : HistoryOk L tr a) (ho : o ∈ calls tr)
    (h : callHistory.Before (e.marks tr.length o') (e.marks tr.length o)) :
    e.marks tr.length o' = o' ∧ callHistory.Before o' o := by
  obtain ⟨t, ht, hlt⟩ := h
  have hlt' : t < o.start := hlt.trans_eq marks_start
  rcases marks_stop_cases (n := tr.length) (e := e) (o := o') with hs | ⟨_, _, hs⟩
  · have ht' : o'.stop = some t := hs.symm.trans ht
    exact ⟨marks_of_stop ht', t, ht', hlt'⟩
  · -- it would have to end now, and the other one to start later
    obtain rfl : t = tr.length := (Option.some.inj (hs.symm.trans ht)).symm
    exact absurd (hhist.start_lt o ho) (not_lt.2 hlt'.le)

theorem FloorOk.step (h : FloorOk L k gets tr a) (hset : SettledOn L k gets tr a)
    (hinter : ∀ c d, ∃ i < L.effectiveMajority, ∃ j < L.effectiveMajority, srv L c i = srv L d j)
    (hhist : HistoryOk L tr a) (hb : Bounded L a) (hst : a.Steady L k e)
    (hm : Move L c f (a.view c f) e w)
    (hmark : ∀ o ∈ callsOn k tr, Marked L k c f tr.length e w o (e.marks tr.length o)) :
    FloorOk L k gets (e :: tr) (a.setView c f w) := by
  have hown : e.owner = (c, f) := hm.owner_eq
  intro o' ho' o ho hlasts hbef b hb'
  rcases mem_callsOn_cons.1 ho' with ⟨hopen', _⟩ | ⟨o', hmem', rfl⟩
  · obtain ⟨t, ht, _⟩ := hbef
    exact absurd ((of_opens hopen').2.2.2.1.symm.trans ht) (by simp)
  rcases mem_callsOn_cons.1 ho with ⟨hopen, _⟩ | ⟨o, hmem, rfl⟩
  · obtain ⟨hst', ⟨hcl, hfu⟩, _, _, hr⟩ := of_opens hopen
    refine ⟨fun _ i _ j _ _ => ?_, fun t ht => absurd (hr.symm.trans ht) (by simp)⟩
    rw [hcl, hfu, hown, Proto.setView_phase_self]
    exact Phase.Floor.of_starts hm (by simp [hst'])
  obtain ⟨heq', hbef'⟩ := before_of_marks hhist (mem_callsOn.1 hmem).1 hbef
  rw [heq'] at hb' hlasts ⊢
  obtain ⟨hfloor, hreg⟩ := h o' hmem' o hmem hlasts hbef' b hb'
  -- the slots of the future that moves which it shares with the earlier call
  have hmove : o.Open c f → ∀ i < L.effectiveMajority, ∀ j < L.effectiveMajority,
      srv L o'.client i = srv L c j → (a.phase c f).Floor L c j b.tag ∧
        b.tag ≤ (a.cells (srv L c j) k).tag := by
    rintro ⟨⟨rfl, rfl⟩, hs⟩ i hi j hj hij
    refine ⟨hfloor hs i hi j hj hij, hij ▸ hset.done o' hmem' hlasts ?_ b hb' i hi⟩
    obtain ⟨t, ht, _⟩ := hbef'
    exact fun hno => absurd (hno.symm.trans ht) (by simp)
  obtain ⟨i₀, hi₀, j₀, hj₀, hij₀⟩ := hinter o'.client c
  rw [marks_isPut]
  cases hmark o hmem with
  | other heq hne =>
    rw [heq]
    refine ⟨fun hs => ?_, hreg⟩
    rw [Proto.setView_phase_ne _ _ (hne hs)]
    exact hfloor hs
  | goes hopen hs' hr _ hop =>
    have hk : (a.phase c f).key = some k := by
      have := hhist.op o (mem_callsOn.1 hmem).1 hopen.2
      rw [hopen.1.1, hopen.1.2] at this
      rw [Phase.key_eq_of_op this, (mem_callsOn.1 hmem).2]
    have hfl : ∀ i < L.effectiveMajority, ∀ j < L.effectiveMajority,
        srv L o'.client i = srv L c j → w.phase.Floor L c j b.tag := by
      intro i hi j hj hij
      obtain ⟨hfl, hcell⟩ := hmove hopen i hi j hj hij
      exact hfl.move hj (hb.view c f) hst hk hcell hm
    refine ⟨fun _ => ?_, fun t ht => ?_⟩
    · rw [marks_client, marks_future, hopen.1.1, hopen.1.2, Proto.setView_phase_self]
      exact hfl
    · have hlt := (hfl i₀ hi₀ j₀ hj₀ hij₀).installed (hr.symm.trans ht)
      exact ⟨hlt.le, fun _ => hlt⟩
  | putDone v t' hopen hs' _ he _ hr =>
    refine ⟨fun hs => absurd (hs'.symm.trans hs) (by simp), fun t ht => ?_⟩
    obtain rfl := Option.some.inj (hr.symm.trans ht)
    subst he
    have hlt := Phase.Floor.putDone (hmove hopen i₀ hi₀ j₀ hj₀ hij₀).1 hm
    exact ⟨hlt.le, fun _ => hlt⟩
  | getDone v m hopen hs' hget he hr _ =>
    refine ⟨fun hs => absurd (hs'.symm.trans hs) (by simp), fun t ht => ?_⟩
    obtain rfl := Option.some.inj (hr.symm.trans ht)
    subst he
    refine ⟨Phase.Floor.getDone hj₀ (hmove hopen i₀ hi₀ j₀ hj₀ hij₀).1 hm, ?_⟩
    rintro ⟨_, _, hput⟩
    exact absurd (hget.symm.trans hput) (by simp)

/-- A writeback installs the maximum it holds. -/
theorem Move.getBack_of_cas {w' w : View} {r : ℕ} {x t y : Register}
    (h : Move L c f w (.cas c f r k .get x t y) w') :
    ∃ exp got, w.phase = .getBack k t exp got := by
  cases h
  exact ⟨_, _, rfl⟩

theorem Move.kind_of_cas {w' w : View} {r : ℕ} {kd : Kind} {x t y : Register}
    (h : Move L c f w (.cas c f r k kd x t y) w') : kd = .put ∨ kd = .get := by
  cases h <;> simp

/-- What a Get ends with is sourced. -/
theorem SourcesOk.of_getDone (h : SourcesOk k tr a) {m : Register} {v : UInt64}
    (hm : Move L c f (a.view c f) (.getDone c f k m v) w) : Sourced k tr m := by
  generalize hv : a.view c f = w₀ at hm
  cases hm with
  | @getDone cells ca _ got m g hgot _ hmax =>
    obtain ⟨_, _, hph⟩ := View.mk.inj hv
    rcases hmax with rfl | ⟨i, hi, rfl⟩
    · exact .inl rfl
    · exact h.read c f got hph i _ (hgot i hi)
  | backDone =>
    obtain ⟨_, _, hph⟩ := View.mk.inj hv
    exact h.back c f _ _ _ hph

theorem Phase.isPut_of_taken {ph : Phase} {i : ℕ} (h : ph.Taken i) {o : OpCall}
    (hop : ph.op = some o.op) : o.IsPut := by
  cases ph with
  | putChain | putCas => exact ⟨_, _, (Option.some.inj hop).symm⟩
  | _ => exact h.elim

/-- The call of a future that is busy with the key `k`. -/
theorem exists_call (hhist : HistoryOk L tr a) (hk : (a.phase c f).key = some k) :
    ∃ o ∈ callsOn k tr, o.Open c f := by
  obtain ⟨o, ho, hopen⟩ := hhist.exists_open c f (by rintro hidle; rw [hidle] at hk; cases hk)
  refine ⟨o, mem_callsOn.2 ⟨ho, ?_⟩, hopen⟩
  have hop := hhist.op o ho hopen.2
  rw [hopen.1.1, hopen.1.2] at hop
  exact Option.some.inj ((Phase.key_eq_of_op hop).symm.trans hk)

section Sources

variable (hhist : HistoryOk L tr a)
  (hmark : ∀ o ∈ callsOn k tr, Marked L k c f tr.length e w o (e.marks tr.length o))
  (hreg : ∀ o ∈ callsOn k tr, o.stop = none →
    o.reg = (a.phase o.client o.future).installed L o.client)

include hhist hmark hreg

theorem Sourced.cons {reg : Register} (h : Sourced k tr reg) : Sourced k (e :: tr) reg := by
  refine h.imp_right ?_
  rintro ⟨o, ho, hput, hr⟩
  refine ⟨_, mem_callsOn_cons.2 (.inr ⟨o, ho, rfl⟩), marks_isPut.2 hput, ?_⟩
  exact (hmark o ho).reg_eq hhist (mem_callsOn.1 ho).1 (hreg o ho) hr

variable (h : SourcesOk k tr a) (hm : Move L c f (a.view c f) e w)

include h hm

/-- What a CAS that succeeds leaves in a cell comes from a Put. -/
theorem SourcesOk.step_cells (hok : PhaseOk L (a.phase c f)) (r : ℕ) :
    Sourced k (e :: tr) (w.cells r k) := by
  have hold : Sourced k (e :: tr) (a.cells r k) := Sourced.cons hhist hmark hreg (h.cells r)
  rcases hm.cells_cases with ⟨hcells, _⟩ | ⟨i, k', kd, x, t, hi, rfl, hcells⟩
  · rw [hcells]
    exact hold
  rw [hcells]
  rcases casCell_cases (a.view c f).cells (srv L c i) k' r k x t with hc | ⟨_, rfl, hx, hc⟩ <;>
    rw [hc]
  · exact hold
  rcases hm.kind_of_cas with rfl | rfl
  · -- the call of the Put has installed it
    obtain ⟨hkey, htgt, htgt', j, hj, _, _, _, _, htaken⟩ := hm.taken_of_cas hok
    obtain ⟨o, ho, hopen⟩ := exists_call hhist hkey
    have ht : w.phase.Taken j := (htaken j hj).2 (.inr ⟨rfl, hx⟩)
    refine .inr ⟨_, mem_callsOn_cons.2 (.inr ⟨o, ho, rfl⟩), ?_, ?_⟩
    · cases hmark o ho with
      | other _ hne =>
        rcases hne hopen.2 with hne | hne
        · exact absurd hopen.1.1 hne
        · exact absurd hopen.1.2 hne
      | goes _ _ _ _ hop =>
        rw [marks_isPut]
        exact Phase.isPut_of_taken ht hop
      | putDone _ _ _ _ _ he | getDone _ _ _ _ _ he => cases he
    · cases hmark o ho with
      | other _ hne =>
        rcases hne hopen.2 with hne | hne
        · exact absurd hopen.1.1 hne
        · exact absurd hopen.1.2 hne
      | goes _ _ hr =>
        rw [hr, Phase.installed_eq_some hj ht, htgt', ← htgt]
      | putDone _ _ _ _ _ he | getDone _ _ _ _ _ he => cases he
  · obtain ⟨exp, got, hph⟩ := hm.getBack_of_cas
    exact Sourced.cons hhist hmark hreg (h.back c f _ exp got hph)

theorem SourcesOk.step_get {o : OpCall} (ho : o ∈ callsOn k (e :: tr)) (hget : ¬o.IsPut)
    {t : Register} (ht : o.reg = some t) : t = .zero ∨
      ∃ o' ∈ callsOn k (e :: tr), o'.IsPut ∧ o'.reg = some t ∧ ¬callHistory.Before o o' := by
  rcases mem_callsOn_cons.1 ho with ⟨hopen, _⟩ | ⟨o, hmem, rfl⟩
  · exact absurd ((of_opens hopen).2.2.2.2.symm.trans ht) (by simp)
  rw [marks_isPut] at hget
  have hkeep : ∀ o' ∈ callsOn k tr, o'.reg = some t → (e.marks tr.length o').reg = some t :=
    fun o' ho' => (hmark o' ho').reg_eq hhist (mem_callsOn.1 ho').1 (hreg o' ho')
  cases hmark o hmem with
  | other heq =>
    refine (h.get o hmem hget t (heq ▸ ht)).imp_right ?_
    rintro ⟨o', ho', hput, hr, hno⟩
    refine ⟨_, mem_callsOn_cons.2 (.inr ⟨o', ho', rfl⟩), marks_isPut.2 hput, hkeep o' ho' hr,
      fun hb => hno (before_of_marks hhist (mem_callsOn.1 ho').1 hb).2⟩
  | goes _ _ hr _ hop =>
    obtain ⟨rfl, i, _, htaken⟩ := Phase.of_installed (hr.symm.trans ht)
    exact absurd (Phase.isPut_of_taken htaken hop) hget
  | putDone _ _ _ _ hput => exact absurd hput hget
  | getDone v m _ hs _ he hr =>
    obtain rfl := Option.some.inj (hr.symm.trans ht)
    subst he
    refine (h.of_getDone hm).imp_right ?_
    rintro ⟨o', ho', hput, hr'⟩
    refine ⟨_, mem_callsOn_cons.2 (.inr ⟨o', ho', rfl⟩), marks_isPut.2 hput, hkeep o' ho' hr', ?_⟩
    rintro ⟨t', ht', hlt⟩
    -- the Put has started, when the Get ends
    obtain rfl := Option.some.inj (hs.symm.trans ht')
    have hlt' : tr.length < o'.start := hlt.trans_eq marks_start
    exact absurd (hhist.start_lt o' (mem_callsOn.1 ho').1) (not_lt.2 hlt'.le)

/-- Every steady step keeps the registers sourced. -/
theorem SourcesOk.step (hok : PhaseOk L (a.phase c f)) :
    SourcesOk k (e :: tr) (a.setView c f w) := by
  have hcons : ∀ {reg}, Sourced k tr reg → Sourced k (e :: tr) reg :=
    Sourced.cons hhist hmark hreg
  refine ⟨fun r => h.step_cells hhist hmark hreg hm hok r, ?_, ?_, fun o ho hget t ht =>
    h.step_get hhist hmark hreg hm ho hget ht⟩
  · refine fun c' f' => Proto.forall_setView (P := fun _ _ ph => ∀ got, ph = .getRead k got →
      ∀ i x, got i = some x → Sourced k (e :: tr) x)
      (fun c' f' _ got hg i x hx => hcons (h.read c' f' got hg i x hx)) ?_ c' f'
    generalize hv : a.view c f = w₀ at hm
    intro got hg i x hx
    cases hm with
    | stutter =>
      subst hv
      exact hcons (h.read c f got hg i x hx)
    | getStart =>
      obtain ⟨_, rfl⟩ := Phase.getRead.inj hg
      exact absurd hx (by simp)
    | @readGet cells ca k' got' j _ _ =>
      obtain ⟨rfl, hcells, hph⟩ := View.mk.inj hv
      obtain ⟨rfl, rfl⟩ := Phase.getRead.inj hg
      refine forall_update (P := fun _ => Sourced k' _) ?_ ?_ i x hx
      · exact fun i x hx => hcons (h.read c f got' hph i x hx)
      · exact hcons (h.cells _)
    | _ => cases hg
  · refine fun c' f' => Proto.forall_setView (P := fun _ _ ph => ∀ m exp got,
      ph = .getBack k m exp got → Sourced k (e :: tr) m)
      (fun c' f' _ m exp got hg => hcons (h.back c' f' m exp got hg)) ?_ c' f'
    generalize hv : a.view c f = w₀ at hm
    intro m exp got hg
    cases hm with
    | stutter =>
      subst hv
      exact hcons (h.back c f m exp got hg)
    | casGet =>
      obtain ⟨_, _, hph⟩ := View.mk.inj hv
      obtain ⟨rfl, rfl, rfl, _⟩ := Phase.getBack.inj hg
      exact hcons (h.back c f _ _ _ hph)
    | getMax hgot _ hmax =>
      obtain ⟨_, _, hph⟩ := View.mk.inj hv
      obtain ⟨rfl, rfl, _⟩ := Phase.getBack.inj hg
      rcases hmax with rfl | ⟨i, hi, rfl⟩
      · exact .inl rfl
      · exact hcons (h.read c f _ hph i _ (hgot i hi))
    | _ => cases hg

end Sources

/-! ## The order of the tags -/

variable {H : Proto → Event → Prop} (hH : ∀ a e, H a e → e.SeqBelow ∧ a.Steady L k e)

include hH

theorem SourcesOk.run (h : Proto.Run L H tr a) : SourcesOk k tr a := by
  refine h.invariant (P := SourcesOk k) ?_ fun tr a e a' hr ih hs => ?_
  · exact ⟨fun _ => .inl rfl, by simp, by simp, by simp [callsOn, calls]⟩
  obtain ⟨c, f, w, _, _, he, hm, rfl⟩ := hs
  have hb := Bounded.run (fun a e h => (hH a e h).1) hr
  have hreg := (RegsOk.run hH hr).installed
  exact ih.step (HistoryOk.run hr) (fun o ho => marked (HistoryOk.run hr) (hb.view c f)
    (hH _ _ he).2 hm ho (hreg o ho)) hreg hm (hb.phase c f)

/-- A Get that is over has left its quorum not below its register, as far as `gets` asks. -/
def GetsSettle (L : Layout) (k : ℕ) (gets : Prop) (H : Proto → Event → Prop) : Prop :=
  gets → ∀ tr a c f w m v, Proto.Run L H tr a → H a (.getDone c f k m v) →
    Move L c f (a.view c f) (.getDone c f k m v) w →
    ∀ i < L.effectiveMajority, m.tag ≤ (a.cells (srv L c i) k).tag

variable (hlast : GetsSettle L k gets H)

include hlast

theorem SettledOn.run (h : Proto.Run L H tr a) : SettledOn L k gets tr a := by
  refine h.invariant (P := SettledOn L k gets) ?_ fun tr a e a' hr ih hs => ?_
  · exact ⟨fun _ _ h => absurd h (by simp [Phase.key]), by simp [callsOn, calls]⟩
  obtain ⟨c, f, w, _, _, he, hm, rfl⟩ := hs
  have hb := Bounded.run (fun a e h => (hH a e h).1) hr
  refine ih.step hb (hH _ _ he).2 hm (fun o ho => marked (HistoryOk.run hr) (hb.view c f)
    (hH _ _ he).2 hm ho ((RegsOk.run hH hr).installed o ho)) ?_
  rintro hgets m v rfl
  exact hlast hgets tr a c f w m v hr he hm

variable
  (hinter : ∀ c d, ∃ i < L.effectiveMajority, ∃ j < L.effectiveMajority, srv L c i = srv L d j)

include hinter

theorem FloorOk.run (h : Proto.Run L H tr a) : FloorOk L k gets tr a := by
  refine h.invariant (P := FloorOk L k gets) ?_ fun tr a e a' hr ih hs => ?_
  · intro o ho
    simp [callsOn, calls] at ho
  obtain ⟨c, f, w, _, _, he, hm, rfl⟩ := hs
  have hb := Bounded.run (fun a e h => (hH a e h).1) hr
  exact ih.step (SettledOn.run hH hlast hr) hinter (HistoryOk.run hr) hb (hH _ _ he).2 hm
    fun o ho => marked (HistoryOk.run hr) (hb.view c f) (hH _ _ he).2 hm ho
      ((RegsOk.run hH hr).installed o ho)

end Runs

/-- The tag of the register a call has come to. -/
def OpCall.tag (o : OpCall) : ℕ ×ₗ ℕ := (o.reg.getD .zero).tag

theorem OpCall.tag_eq {o : OpCall} {t : Register} (h : o.reg = some t) : o.tag = t.tag := by
  rw [OpCall.tag, h, Option.getD_some]

/-- The calls that have come to a register. -/
def settledCalls (k : ℕ) (tr : List Event) : List OpCall :=
  (callsOn k tr).filter fun o => o.reg.isSome

theorem mem_settledCalls {k : ℕ} {tr : List Event} {o : OpCall} :
    o ∈ settledCalls k tr ↔ o ∈ callsOn k tr ∧ ∃ t, o.reg = some t := by
  rw [settledCalls, List.mem_filter, Option.isSome_iff_exists]

/-- The Puts on the key have different tags. -/
def TagsDiffer (k : ℕ) (tr : List Event) : Prop :=
  (callsOn k tr).Pairwise fun o o' => o.IsPut → o'.IsPut → ∀ t t', o.reg = some t →
    o'.reg = some t' → t.tag ≠ t'.tag

section Order

variable {L : Layout} {k : ℕ} {tr : List Event} {a : Proto} {gets : Prop}

/-- A call that comes after one which has settled does not come to less. -/
theorem FloorOk.tag_le (h : FloorOk L k gets tr a) {o o' : OpCall} (ho' : o' ∈ settledCalls k tr)
    (ho : o ∈ settledCalls k tr) (hlasts : o'.IsPut ∨ gets) (hb : callHistory.Before o' o) :
    o'.tag ≤ o.tag ∧ (o.IsPut → o'.tag < o.tag) := by
  obtain ⟨ho', b, hb'⟩ := mem_settledCalls.1 ho'
  obtain ⟨ho, t, ht⟩ := mem_settledCalls.1 ho
  rw [OpCall.tag_eq hb', OpCall.tag_eq ht]
  exact (h o' ho' o ho hlasts hb b hb').2 t ht

/-- What the calls read is regular, by their tags. -/
theorem regularTags (hregs : RegsOk L k tr a) (hfloor : FloorOk L k gets tr a)
    (hsrc : SourcesOk k tr a) : callHistory.RegularTags 0 (settledCalls k tr) OpCall.tag where
  write_lt w hw w' hw' hp hp' hb :=
    (hfloor.tag_le hw hw' (.inl (writes_iff.1 hp)) hb).2 (writes_iff.1 hp')
  write_le w hw o ho hp _ hb := (hfloor.tag_le hw ho (.inl (writes_iff.1 hp)) hb).1
  read o ho x hx := by
    obtain ⟨ho, t, ht⟩ := mem_settledCalls.1 ho
    have hget : ¬o.IsPut := fun hp => Lib.History.not_writes hx (writes_iff.2 hp)
    -- what is returned is the value of the register
    have hres : x = t.value.toUInt64 := by
      cases hop : o.op with
      | put k v => exact absurd ⟨k, v, hop⟩ hget
      | get k' =>
        rw [← hregs.get o ho k' hop t ht]
        simp only [callHistory, hop] at hx
        exact (Lib.Access.read.inj hx).symm
    have hput : ∀ o' ∈ callsOn k tr, o'.IsPut → ∀ t, o'.reg = some t →
        callHistory.access o' = .write t.value.toUInt64 ∧ Register.zero.tag < t.tag := by
      rintro o' ho' ⟨k', v, hop⟩ t ht
      obtain ⟨hval, _, hpos⟩ := hregs.put o' ho' k' v hop t ht
      refine ⟨?_, hpos⟩
      simp only [callHistory, hop, hval]
    rw [OpCall.tag_eq ht]
    rcases hsrc.get o ho hget t ht with rfl | ⟨o', ho', hp, ht', hno⟩
    · refine .inr ⟨hres, fun w hw hww => ?_⟩
      obtain ⟨hw, tw, htw⟩ := mem_settledCalls.1 hw
      rw [OpCall.tag_eq htw]
      exact (hput w hw (writes_iff.1 hww) tw htw).2
    · refine .inl ⟨o', mem_settledCalls.2 ⟨ho', t, ht'⟩, ?_, OpCall.tag_eq ht', hno⟩
      rw [(hput o' ho' hp t ht').1, hres]

/-- If the Gets settle too, the calls are atomic, by their tags. -/
theorem atomicTags (hhist : HistoryOk L tr a) (hregs : RegsOk L k tr a)
    (hfloor : FloorOk L k True tr a) (hsrc : SourcesOk k tr a) (hne : TagsDiffer k tr) :
    callHistory.AtomicTags 0 (settledCalls k tr) OpCall.tag where
  toRegularTags := regularTags hregs hfloor hsrc
  start_le o ho t ht := by
    obtain ⟨ho, _⟩ := mem_settledCalls.1 ho
    exact (hhist.stop_lt o (mem_callsOn.1 ho).1 t ht).1.le
  tag_ne := by
    refine (hne.filter _).imp_of_mem fun {o o'} ho ho' h hw hw' => ?_
    obtain ⟨_, t, ht⟩ := mem_settledCalls.1 ho
    obtain ⟨_, t', ht'⟩ := mem_settledCalls.1 ho'
    rw [OpCall.tag_eq ht, OpCall.tag_eq ht']
    exact h (writes_iff.1 hw) (writes_iff.1 hw') t t' ht ht'
  read_lt _ ho _ hw _ hp hb := (hfloor.tag_le ho hw (.inr trivial) hb).2 (writes_iff.1 hp)
  read_le _ ho _ ho' _ _ hb := (hfloor.tag_le ho ho' (.inr trivial) hb).1

/-- The calls that are over have come to a register. -/
theorem settled_of_stop (hregs : RegsOk L k tr a) :
    ∀ o ∈ callsOn k tr, (callHistory.stop o).isSome → o ∈ settledCalls k tr := by
  intro o ho hs
  refine mem_settledCalls.2 ⟨ho, Option.ne_none_iff_exists'.1 (hregs.ne_none o ho ?_)⟩
  exact Option.isSome_iff_ne_none.1 hs

variable {H : Proto → Event → Prop} (hH : ∀ a e, H a e → e.SeqBelow ∧ a.Steady L k e)
  (hinter : ∀ c d, ∃ i < L.effectiveMajority, ∃ j < L.effectiveMajority, srv L c i = srv L d j)

include hH hinter

theorem Proto.Run.regular (h : Proto.Run L H tr a) : callHistory.Regular 0 (callsOn k tr) := by
  have hregs := RegsOk.run hH h
  have hfloor : FloorOk L k False tr a := FloorOk.run hH (fun h => h.elim) hinter h
  exact (regularTags hregs hfloor (SourcesOk.run hH h)).regular
    (fun o ho => (mem_settledCalls.1 ho).1) (settled_of_stop hregs)

theorem Proto.Run.linearizable (hne : TagsDiffer k tr) (hlast : GetsSettle L k True H)
    (h : Proto.Run L H tr a) : callHistory.Linearizable 0 (callsOn k tr) := by
  have hregs := RegsOk.run hH h
  have hfloor := FloorOk.run hH hlast hinter h
  exact (atomicTags (HistoryOk.run h) hregs hfloor (SourcesOk.run hH h) hne).linearizable
    List.filter_sublist (settled_of_stop hregs)

end Order

/-! ## The runs that are steady -/

/-- With one operation at a time for each client, the Puts of clients of different ids
    have different tags. -/
theorem tagsDiffer_of_async {L : Layout} {k : ℕ} {tr : List Event} {a : Proto}
    (hasync : L.asyncParallelism ≤ 1) (hhist : HistoryOk L tr a) (hregs : RegsOk L k tr a)
    {gets : Prop} (hfloor : FloorOk L k gets tr a)
    (hid : ∀ o ∈ callsOn k tr, ∀ o' ∈ callsOn k tr,
      (DsConf.ofClient L o.client).clientIdx.toUInt16 =
        (DsConf.ofClient L o'.client).clientIdx.toUInt16 → o.client = o'.client) :
    TagsDiffer k tr := by
  refine (hhist.after.filter _).imp_of_mem fun {o o'} ho ho' hafter hp hp' t t' ht ht' heq => ?_
  obtain ⟨_, _, hop⟩ := id hp
  obtain ⟨_, _, hop'⟩ := id hp'
  have hc : o.client = o'.client := by
    refine hid o ho o' ho' ?_
    rw [← (hregs.put o ho _ _ hop t ht).2.1, ← (hregs.put o' ho' _ _ hop' t' ht').2.1]
    exact (Register.tag_eq_iff.1 heq).2
  have hf : o.future = o'.future := by
    have h := (hhist.owner o (mem_callsOn.1 ho).1).2.trans_le hasync
    have h' := (hhist.owner o' (mem_callsOn.1 ho').1).2.trans_le hasync
    rw [Nat.lt_one_iff.1 h, Nat.lt_one_iff.1 h']
  -- the two are of one future, so that the later one has a greater tag
  have hlt := (hfloor o' ho' o ho (.inl hp') (hafter.2 hc hf) t' ht').2 t ht
  exact absurd heq (hlt.2 hp).ne'

/-- The quorums of a majority share a server. -/
theorem srv_inter {L : Layout} (hq : L.effectiveMajority ≤ L.numServers)
    (hmaj : L.numServers < 2 * L.effectiveMajority) (c d : ℕ) :
    ∃ i < L.effectiveMajority, ∃ j < L.effectiveMajority, srv L c i = srv L d j :=
  Lib.window_inter hq hmaj (UInt8.ofNat c).toNat (UInt8.ofNat d).toNat

/-- The clients there are have different ids. -/
theorem client_eq_of_id {L : Layout} (hclients : L.numClients ≤ 256) {k : ℕ} {tr : List Event}
    {a : Proto} (hhist : HistoryOk L tr a) {o o' : OpCall} (ho : o ∈ callsOn k tr)
    (ho' : o' ∈ callsOn k tr)
    (h : (DsConf.ofClient L o.client).clientIdx.toUInt16 =
      (DsConf.ofClient L o'.client).clientIdx.toUInt16) : o.client = o'.client :=
  clientIdx_inj (L := L) ((hhist.owner o (mem_callsOn.1 ho).1).1.trans_le hclients)
    ((hhist.owner o' (mem_callsOn.1 ho').1).1.trans_le hclients) h

section Written

variable {L : Layout} {H : Proto → Event → Prop} {k : ℕ} {tr : List Event} {a : Proto}

/-- The value is one that a Put of the key was to write, up to the 32 bits that are kept. -/
def WrittenValue (k : ℕ) (tr : List Event) (x : UInt32) : Prop :=
  ∃ c f v, .invokePut c f k v ∈ tr ∧ x = v.toUInt32

theorem WrittenValue.cons {x : UInt32} {e : Event} (h : WrittenValue k tr x) :
    WrittenValue k (e :: tr) x := by
  obtain ⟨c, f, v, hmem, hx⟩ := h
  exact ⟨c, f, v, List.mem_cons_of_mem _ hmem, hx⟩

/-- The Put that a future is busy with has been started. -/
theorem invoked_run (h : Proto.Run L H tr a) :
    ∀ c f k v, (a.phase c f).op = some (.put k v) → .invokePut c f k v ∈ tr := by
  refine h.invariant (P := fun tr a => ∀ c f k v, (a.phase c f).op = some (.put k v) →
    .invokePut c f k v ∈ tr) ?_ fun tr a e a' _ ih hs => ?_
  · intro c f k v hop
    cases hop
  obtain ⟨c, f, w, _, _, _, hm, rfl⟩ := hs
  refine Proto.forall_setView (P := fun c f ph => ∀ k v, ph.op = some (.put k v) →
    .invokePut c f k v ∈ e :: tr)
    (fun c' f' _ k v hop => List.mem_cons_of_mem _ (ih c' f' k v hop)) fun k v hop => ?_
  rcases hm.op_cases with ⟨_, _, hw⟩ | ⟨_, _, hst, _⟩ | ⟨_, hidle, _⟩
  · exact List.mem_cons_of_mem _ (ih c f k v (hw.symm.trans hop))
  · have hst' := hst.trans hop
    cases e with
    | invokePut c' f' k' v' =>
      obtain ⟨rfl, rfl⟩ := Prod.mk.inj hm.owner_eq
      obtain ⟨rfl, rfl⟩ := Op.put.inj (Option.some.inj hst')
      exact List.mem_cons_self
    | _ => cases hst'
  · rw [hidle] at hop
    cases hop

/-- What a Put issues bears its value. -/
theorem value_of_issued (h : Proto.Run L H tr a) :
    ∀ c t, Issued c k tr t → WrittenValue k tr t.value := by
  refine h.invariant (P := fun tr _ => ∀ c t, Issued c k tr t → WrittenValue k tr t.value) ?_
    fun tr a e a' hr ih hs c t hi => ?_
  · rintro c t ⟨_, _, _, _, hmem⟩
    exact absurd hmem List.not_mem_nil
  rcases hi.of_cons with hi | ⟨f, r, x, y, rfl⟩
  · exact (ih c t hi).cons
  obtain ⟨c', f', w, _, _, _, hm, _⟩ := hs
  obtain ⟨rfl, rfl⟩ := Prod.mk.inj hm.owner_eq
  have htgt := TargetOk.run hr c f
  have hinv := invoked_run hr c f
  change TargetOk L c (a.view c f).phase at htgt
  change ∀ k v, (a.view c f).phase.op = some (.put k v) → _ at hinv
  generalize a.view c f = w₀ at htgt hinv hm
  cases hm with
  | @casChain cells ca k v => exact ⟨c, f, v, List.mem_cons_of_mem _ (hinv k v rfl), rfl⟩
  | @casPut cells ca k v =>
    obtain ⟨z, rfl⟩ := htgt
    exact ⟨c, f, v, List.mem_cons_of_mem _ (hinv k v rfl), rfl⟩

/-- What is known of a key has been written to it, or is the initial register. -/
theorem Known.value (h : Proto.Run L H tr a) {reg : Register} (hk : Known L k tr reg) :
    reg.value = 0 ∨ WrittenValue k tr reg.value := by
  rcases hk with rfl | ⟨c, _, hi⟩
  · exact .inl rfl
  · exact .inr (value_of_issued h c reg hi)

/-- The maximum a Get ends with is known. -/
theorem known_of_getDone (h : Proto.Run L H tr a) {c f : ℕ} {w : View} {m : Register}
    {v : UInt64} (hm : Move L c f (a.view c f) (.getDone c f k m v) w) : Known L k tr m := by
  have hph := (known_run h).2 c f
  change KnownPhase L tr (a.view c f).phase at hph
  generalize a.view c f = w₀ at hph hm
  cases hm with
  | getDone hgot _ hmax =>
    rcases hmax with rfl | ⟨i, hi, rfl⟩
    · exact .inl rfl
    · exact hph i _ (hgot i hi)
  | backDone => exact hph.1

end Written

/-- In any run, a Get returns zero or the value of a Put of its key that was started before
    the Get was over, up to the 32 bits of it that are kept. -/
theorem getsWritten {L : Layout} (hq : L.effectiveMajority ≤ L.numServers) {c f k : ℕ}
    {m : Register} {x : UInt64} {pre post : List Event} {s : Cluster}
    (h : (Cluster.machine L).Run Cluster.Any (post ++ .getDone c f k m x :: pre) s) :
    x = 0 ∨ ∃ c' f' v, .invokePut c' f' k v ∈ pre ∧ x = v.toUInt32.toUInt64 := by
  have hn : 0 < L.numServers := L.effectiveMajority_pos.trans_le hq
  obtain ⟨a, hr, _⟩ := exists_run (H := fun _ _ => True) (Q := fun _ => True) hq hn
    (fun _ _ _ _ _ _ _ _ => trivial) h fun _ _ => trivial
  obtain ⟨a₁, hr₁, _⟩ := hr.of_append
  obtain ⟨a₀, hr₀, c', f', w, _, _, _, hm, _⟩ := hr₁.last
  obtain ⟨rfl, rfl⟩ := Prod.mk.inj hm.owner_eq
  rw [hm.getDone_value]
  rcases Known.value hr₀ (known_of_getDone hr₀ hm) with hz | ⟨c', f', v, hmem, hv⟩
  · rw [hz]
    exact .inl rfl
  · rw [hv]
    exact .inr ⟨c', f', v, hmem, rfl⟩

/-- For instance, where a Get finds a Put of which one server has heard so far. -/
theorem getsWritten_threeServers :
    ∃ s, (Cluster.machine (.threeServers 1 true false)).Run Cluster.Any
      ([] ++ .getDone 1 0 7 ⟨5, 0, 1⟩ 5 :: [.read 1 0 2 7 .zero, .read 1 0 1 7 ⟨5, 0, 1⟩,
        .invokeGet 1 0 7, .cas 0 0 1 7 .put .zero ⟨5, 0, 1⟩ .zero, .stepped 0 0,
        .read 0 0 1 7 .zero, .read 0 0 0 7 .zero, .invokePut 0 0 7 0x100000005]) s ∧
      ((5 : UInt64) = 0 ∨ ∃ c' f' v, .invokePut c' f' 7 v ∈ ([.read 1 0 2 7 .zero,
        .read 1 0 1 7 ⟨5, 0, 1⟩, .invokeGet 1 0 7, .cas 0 0 1 7 .put .zero ⟨5, 0, 1⟩ .zero,
        .stepped 0 0, .read 0 0 1 7 .zero, .read 0 0 0 7 .zero,
        .invokePut 0 0 7 0x100000005] : List Event) ∧ 5 = v.toUInt32.toUInt64) := by
  refine Exists.imp (fun s hs => ⟨hs, getsWritten (by decide) hs⟩) ?_
  exact Lib.Machine.run_of_play
    [.doPut 0 0 7 0x100000005, .rdma 0 0 0, .rdma 0 0 1, .tryStepForward 0 0, .rdma 0 0 1,
      .doGet 1 0 7, .rdma 1 0 1, .rdma 1 0 2, .tryStepForward 1 0] (by decide +kernel)

end DiscoSkip
