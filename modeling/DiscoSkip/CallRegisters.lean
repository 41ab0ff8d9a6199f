import DiscoSkip.Steady

/-!
# The registers of the calls

What a step makes of a call (`marked`): most steps nothing; those of its own future let
it go on, with what its Put has installed by now, or end it, with the register it has come
to. In a steady run, the register of a call does not change, once it is there
(`Marked.reg_eq`), that of a Put bears its value and the id of its client, and what a
Get returns is the value of its register (`RegsOk.run`).
-/

namespace DiscoSkip

open Function

/-! ## The registers of the calls -/

section Registers

variable {L : Layout} {c f k n : ℕ} {w w' : View} {e : Event} {tr : List Event} {o : OpCall}

theorem mem_callsOn : o ∈ callsOn k tr ↔ o ∈ calls tr ∧ o.op.key = k := by
  rw [callsOn, List.mem_filter, decide_eq_true_iff]

theorem mem_callsOn_cons : o ∈ callsOn k (e :: tr) ↔
    (e.opens tr.length = some o ∧ o.op.key = k) ∨
      ∃ o' ∈ callsOn k tr, e.marks tr.length o' = o := by
  rw [mem_callsOn, mem_calls_cons, or_and_right]
  refine or_congr .rfl ⟨?_, ?_⟩
  · rintro ⟨⟨o', ho', rfl⟩, hk⟩
    rw [marks_op] at hk
    exact ⟨o', mem_callsOn.2 ⟨ho', hk⟩, rfl⟩
  · rintro ⟨o', ho', rfl⟩
    rw [marks_op]
    obtain ⟨ho', hk⟩ := mem_callsOn.1 ho'
    exact ⟨⟨o', ho', rfl⟩, hk⟩

/-- The target of a Put is a register of its client and its value. -/
def TargetOk (L : Layout) (c : ℕ) : Phase → Prop
  | .putCas _ v t _ _ _ => ∃ z, t = regOf L c z v
  | _ => True

theorem TargetOk.move (hm : Move L c f w e w') (h : TargetOk L c w.phase) :
    TargetOk L c w'.phase := by
  cases hm with
  | casPut | casRetry => exact h
  | readDone | chainRetry | casReset => exact ⟨_, rfl⟩
  | stutter => exact h
  | _ => trivial

theorem TargetOk.run {H : Proto → Event → Prop} {a : Proto} (h : Proto.Run L H tr a) :
    ∀ c f, TargetOk L c (a.phase c f) := by
  refine h.invariant (P := fun _ a => ∀ c f, TargetOk L c (a.phase c f)) ?_
    fun tr a e a' _ ih hs => ?_
  · exact fun _ _ => trivial
  obtain ⟨c, f, w, _, _, _, hm, rfl⟩ := hs
  exact Proto.forall_setView (P := fun c _ => TargetOk L c) (fun c' f' _ => ih c' f')
    (TargetOk.move hm (ih c f))

/-- What a Put installs: its value, the id of its client, and a sequence number that is
    not zero. -/
theorem TargetOk.spec {ph : Phase} (h : TargetOk L c ph) (hok : PhaseOk L ph) {v : UInt64}
    (hop : ph.op = some (.put k v)) {t : Register} (ht : ph.installed L c = some t) :
    t.value = v.toUInt32 ∧ t.clientId = (DsConf.ofClient L c).clientIdx.toUInt16 ∧
      Register.zero.tag < t.tag := by
  obtain ⟨rfl, i, _, htaken⟩ := Phase.of_installed ht
  have hpos : ∀ x y : UInt16, x < y → Register.zero.seq < y := by
    intro x y hxy
    exact UInt16.lt_of_le_of_lt (UInt16.le_iff_toNat_le.2 (Nat.zero_le _)) hxy
  cases ph with
  | putChain k' v' cached got =>
    cases hop
    refine ⟨rfl, rfl, Register.tag_lt_of_seq (hpos cached.seq _ ?_)⟩
    exact Register.seq_lt_succ hok.1 (UInt16.le_refl _)
  | putCas k' v' t need exp got =>
    cases hop
    obtain ⟨z, rfl⟩ := h
    obtain ⟨j, hj, hn⟩ := hok.exists_need
    exact ⟨rfl, rfl, Register.tag_lt_of_seq (hpos _ _ (hok.exp_lt j hj hn))⟩
  | _ => exact htaken.elim

/-- What an event tells a call in progress is what its Put has installed. -/
theorem tells_reg {a : Proto} (hok : ViewOk L (a.view c f)) (hst : a.Steady L k e)
    (hk : (a.phase c f).key = some k) (hm : Move L c f (a.view c f) e w) (hend : e.ended = none)
    (hreg : o.reg = (a.phase c f).installed L c) :
    (e.tells n o).reg = w.phase.installed L c ∧
      (o.reg ≠ none → (e.tells n o).reg = o.reg) := by
  by_cases hcas : ∃ r k x t y, e = .cas c f r k .put x t y
  · obtain ⟨r, k', x, t, y, rfl⟩ := hcas
    obtain ⟨_, rfl, htgt', i, hi, _, _, _, _, htaken⟩ := hm.taken_of_cas hok.phase
    have hv : (a.view c f).phase = a.phase c f := rfl
    rw [Event.tells]
    split
    · next hx =>
      have ht : w.phase.Taken i := (htaken i hi).2 (.inr ⟨rfl, hx⟩)
      rw [Phase.installed_eq_some hi ht, htgt']
      refine ⟨rfl, fun hne => ?_⟩
      obtain ⟨t, ht⟩ := Option.ne_none_iff_exists'.1 hne
      rw [ht] at hreg ⊢
      rw [(Phase.of_installed hreg.symm).1, hv]
    · next hx =>
      refine ⟨?_, fun _ => rfl⟩
      have hiff : (∃ i < L.effectiveMajority, w.phase.Taken i) ↔
          ∃ i < L.effectiveMajority, (a.phase c f).Taken i := by
        refine exists_congr fun j => and_congr_right fun hj => ?_
        rw [htaken j hj, or_iff_left fun h => hx h.2, hv]
      rw [hreg, Phase.installed, Phase.installed, htgt', hv]
      exact if_congr hiff.symm rfl rfl
  · have htell : (e.tells n o).reg = o.reg := by
      cases e with
      | cas c' f' r k' kd x t y =>
        cases kd with
        | put =>
          obtain ⟨rfl, rfl⟩ := Prod.mk.inj hm.owner_eq
          exact absurd ⟨_, _, _, _, _, rfl⟩ hcas
        | _ => rfl
      | putDone | getDone => cases hend
      | _ => rfl
    rw [htell]
    refine ⟨hreg.trans ?_, fun _ => rfl⟩
    by_cases hstep : e = .stepped c f
    · subst hstep
      obtain ⟨htaken, htgt⟩ := hm.taken_of_stepped (hst hk)
      by_cases hex : ∃ i < L.effectiveMajority, (a.phase c f).Taken i
      · obtain ⟨i, hi, ht⟩ := hex
        rw [Phase.installed_eq_some hi ht, Phase.installed_eq_some hi ((htaken i hi).2 ht),
          htgt i hi ht]
        rfl
      · push Not at hex
        rw [Phase.installed_eq_none hex,
          Phase.installed_eq_none fun i hi ht => hex i hi ((htaken i hi).1 ht)]
    · have hno := hm.not_taken (by simpa using hcas) hstep hend
      have hno' : (a.phase c f).installed L c = none :=
        Phase.installed_eq_none fun i _ => (hno i).1
      rw [hno', Phase.installed_eq_none fun i _ => (hno i).2]

/-- What a step makes of a call: nothing, if it is over or not of the future that moves; it
    goes on, and has come to what its Put has installed; or it ends. -/
inductive Marked (L : Layout) (k c f n : ℕ) (e : Event) (w : View) (o o' : OpCall) : Prop
  | other : o' = o → (o.stop = none → o.client ≠ c ∨ o.future ≠ f) → Marked L k c f n e w o o'
  | goes : o.Open c f → o'.stop = none → o'.reg = w.phase.installed L c →
      (o.reg ≠ none → o'.reg = o.reg) → w.phase.op = some o.op → Marked L k c f n e w o o'
  | putDone (v : UInt64) (t : Register) : o.Open c f → o'.stop = some n → o.IsPut →
      e = .putDone c f k v t → o.reg = some t → o'.reg = some t → Marked L k c f n e w o o'
  | getDone (v : UInt64) (m : Register) : o.Open c f → o'.stop = some n → o.op = .get k →
      e = .getDone c f k m v → o'.reg = some m → o'.result = m.value.toUInt64 →
      Marked L k c f n e w o o'

/-- The registers of the calls on the key `k`. -/
structure RegsOk (L : Layout) (k : ℕ) (tr : List Event) (a : Proto) : Prop where
  installed : ∀ o ∈ callsOn k tr, o.stop = none →
    o.reg = (a.phase o.client o.future).installed L o.client
  ne_none : ∀ o ∈ callsOn k tr, o.stop ≠ none → o.reg ≠ none
  put : ∀ o ∈ callsOn k tr, ∀ k' v, o.op = .put k' v → ∀ t, o.reg = some t →
    t.value = v.toUInt32 ∧ t.clientId = (DsConf.ofClient L o.client).clientIdx.toUInt16 ∧
      Register.zero.tag < t.tag
  get : ∀ o ∈ callsOn k tr, ∀ k', o.op = .get k' → ∀ t, o.reg = some t →
    o.result = t.value.toUInt64

/-- A call of a Get has no register before it is over. -/
theorem Phase.installed_of_get {ph : Phase} (h : ph.op = some (.get k)) :
    ph.installed L c = none := by
  refine installed_eq_none fun i _ ht => ?_
  cases ph with
  | putChain | putCas => cases h
  | _ => exact ht

/-- The value returned is that of the register. -/
theorem Move.getDone_value {c' f' : ℕ} {m : Register} {v : UInt64}
    (h : Move L c f w (.getDone c' f' k m v) w') : v = m.value.toUInt64 := by
  cases h <;> rfl

theorem marked {a : Proto} (hhist : HistoryOk L tr a) (hok : ViewOk L (a.view c f))
    (hst : a.Steady L k e) (hm : Move L c f (a.view c f) e w) (ho : o ∈ callsOn k tr)
    (hreg : o.stop = none → o.reg = (a.phase o.client o.future).installed L o.client) :
    Marked L k c f n e w o (e.marks n o) := by
  have hown : e.owner = (c, f) := hm.owner_eq
  obtain ⟨hmem, hkey⟩ := mem_callsOn.1 ho
  by_cases hopen : o.Open c f
  swap
  · refine .other (marks_of_not_open (by rwa [hown])) fun hs => ?_
    by_contra hcf
    push Not at hcf
    exact hopen ⟨hcf, hs⟩
  have hopen' : o.Open e.owner.1 e.owner.2 := by rwa [hown]
  obtain ⟨⟨rfl, rfl⟩, hs⟩ := id hopen
  have hop := hhist.op o hmem hs
  have hk : (a.phase o.client o.future).key = some k := hkey ▸ Phase.key_eq_of_op hop
  have hreg := hreg hs
  rcases hm.op_cases with ⟨_, hend, hw'⟩ | ⟨_, hidle, _⟩ | ⟨_, _, hend, hne⟩
  · obtain ⟨hw, hkeep⟩ := tells_reg (n := n) hok hst hk hm hend hreg
    rw [marks_of_open hopen']
    refine .goes hopen ?_ hw hkeep (hw'.trans hop)
    rw [tells_spec.2.2.2.2, if_pos hend, hs]
  · exact absurd hopen (hhist.not_open_of_idle hidle hmem)
  · have hend' : e.ended = some o.op := hend.trans hop
    rw [marks_of_open hopen']
    cases e with
    | putDone c' f' k' v t =>
      obtain ⟨rfl, rfl⟩ := Prod.mk.inj hown
      obtain ⟨hk', rfl, htaken⟩ := hm.taken_of_putDone
      obtain rfl : k' = k := Option.some.inj (hk'.symm.trans hk)
      refine .putDone v _ hopen rfl ⟨_, _, (Option.some.inj hend').symm⟩ rfl ?_ rfl
      exact hreg.trans (Phase.installed_eq_some L.effectiveMajority_pos
        (htaken 0 L.effectiveMajority_pos))
    | getDone c' f' k' m v =>
      obtain ⟨rfl, rfl⟩ := Prod.mk.inj hown
      have hop' : o.op = .get k' := (Option.some.inj hend').symm
      obtain rfl : k' = k := by rw [← hkey, hop']; rfl
      exact .getDone v m hopen rfl hop' rfl rfl hm.getDone_value
    | _ => exact absurd rfl hne

namespace Marked

variable {o' : OpCall} (h : Marked L k c f n e w o o')

include h

/-- The register of a call does not change, once it is there. -/
theorem reg_eq {a : Proto} (hhist : HistoryOk L tr a) (ho : o ∈ calls tr) {t : Register}
    (hreg : o.stop = none → o.reg = (a.phase o.client o.future).installed L o.client)
    (ht : o.reg = some t) : o'.reg = some t := by
  cases h with
  | other h => rw [h, ht]
  | goes _ _ _ hkeep => rw [hkeep (by simp [ht]), ht]
  | putDone v t' _ _ _ _ hr hr' => rw [hr', ← hr, ht]
  | getDone v m hopen _ hop _ _ _ =>
    have hno := hreg hopen.2
    rw [Phase.installed_of_get (k := k) (by rw [hhist.op o ho hopen.2, hop])] at hno
    exact absurd (ht.symm.trans hno) (by simp)

end Marked

/-- Every steady step keeps the registers of the calls. -/
theorem RegsOk.step {a : Proto} (h : RegsOk L k tr a) (hhist : HistoryOk L tr a)
    (htgt : ∀ c f, TargetOk L c (a.phase c f)) (hb : Bounded L a) (hst : a.Steady L k e)
    (hm : Move L c f (a.view c f) e w) (he : e.SeqBelow) :
    RegsOk L k (e :: tr) (a.setView c f w) := by
  have hown : e.owner = (c, f) := hm.owner_eq
  have hmark : ∀ o ∈ callsOn k tr, Marked L k c f tr.length e w o (e.marks tr.length o) :=
    fun o ho => marked hhist (hb.view c f) hst hm ho (h.installed o ho)
  have hok' : PhaseOk L w.phase := ((hb.view c f).move hm he).phase
  refine ⟨fun o ho hs => ?_, fun o ho hs => ?_, fun o ho k' v hop t ht => ?_,
    fun o ho k' hop t ht => ?_⟩
  · rcases mem_callsOn_cons.1 ho with ⟨hopen, _⟩ | ⟨o, hmem, rfl⟩
    · obtain ⟨hst', ⟨hcl, hfu⟩, _, _, hr⟩ := of_opens hopen
      rw [hr, hcl, hfu, hown, Proto.setView_phase_self]
      exact (Phase.installed_eq_none fun i _ =>
        hm.not_taken_of_starts (by simp [hst']) i).symm
    · cases hmark o hmem with
      | other heq hne =>
        rw [heq] at hs ⊢
        rw [Proto.setView_phase_ne _ _ (hne hs)]
        exact h.installed o hmem hs
      | goes hopen _ hr =>
        rw [marks_client, marks_future, hr, hopen.1.1, hopen.1.2, Proto.setView_phase_self]
      | putDone _ _ _ hs' | getDone _ _ _ hs' => exact absurd (hs'.symm.trans hs) (by simp)
  · rcases mem_callsOn_cons.1 ho with ⟨hopen, _⟩ | ⟨o, hmem, rfl⟩
    · exact absurd (of_opens hopen).2.2.2.1 hs
    · cases hmark o hmem with
      | other heq =>
        rw [heq] at hs ⊢
        exact h.ne_none o hmem hs
      | goes _ hs' => exact absurd hs' hs
      | putDone _ _ _ _ _ _ _ hr | getDone _ _ _ _ _ _ hr => simp [hr]
  · rcases mem_callsOn_cons.1 ho with ⟨hopen, _⟩ | ⟨o, hmem, rfl⟩
    · exact absurd ((of_opens hopen).2.2.2.2.symm.trans ht) (by simp)
    · rw [marks_op] at hop
      rw [marks_client]
      cases hmark o hmem with
      | other heq => exact h.put o hmem k' v hop t (heq ▸ ht)
      | goes hopen _ hr _ hop' =>
        obtain ⟨rfl, rfl⟩ := hopen.1
        have htgt' : TargetOk L o.client w.phase := TargetOk.move hm (htgt _ _)
        exact htgt'.spec hok' (hop'.trans (congrArg some hop)) (hr.symm.trans ht)
      | putDone _ _ _ _ _ _ hr hr' => exact h.put o hmem k' v hop t (hr.trans (hr'.symm.trans ht))
      | getDone _ _ _ _ hget => exact absurd (hget.symm.trans hop) (by simp)
  · rcases mem_callsOn_cons.1 ho with ⟨hopen, _⟩ | ⟨o, hmem, rfl⟩
    · exact absurd ((of_opens hopen).2.2.2.2.symm.trans ht) (by simp)
    · rw [marks_op] at hop
      cases hmark o hmem with
      | other heq =>
        rw [heq] at ht ⊢
        exact h.get o hmem k' hop t ht
      | goes _ _ hr _ hop' =>
        rw [hr, Phase.installed_of_get (hop'.trans (congrArg some hop))] at ht
        cases ht
      | putDone _ _ _ _ hput =>
        obtain ⟨_, _, hput⟩ := hput
        exact absurd (hput.symm.trans hop) (by simp)
      | getDone _ m _ _ _ _ hr hres =>
        obtain rfl := Option.some.inj (hr.symm.trans ht)
        exact hres

variable {H : Proto → Event → Prop} (hH : ∀ a e, H a e → e.SeqBelow ∧ a.Steady L k e)

include hH in
theorem RegsOk.run {a : Proto} (h : Proto.Run L H tr a) : RegsOk L k tr a := by
  refine h.invariant (P := RegsOk L k) ?_ fun tr a e a' hr ih hs => ?_
  · exact ⟨by simp [callsOn, calls], by simp [callsOn, calls], by simp [callsOn, calls],
      by simp [callsOn, calls]⟩
  · obtain ⟨c, f, w, _, _, he, hm, rfl⟩ := hs
    exact ih.step (HistoryOk.run hr) (TargetOk.run hr)
      (Bounded.run (fun a e h => (hH a e h).1) hr) (hH _ _ he).2 hm (hH _ _ he).1

end Registers

end DiscoSkip
