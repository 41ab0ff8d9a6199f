import DiscoSkip.SwarmKv.Seen.Data

/-!
# What reads and writes have seen in the end

A read waits for the registers of all servers in use, so from the end of `TryRead` on, it
has seen all that was in their slots when it started (`MaxReg.Looks`,
`OopsDataFuture.Looks`). A write has its tsp written to them, or has seen a tsp there that
is at least its own, but for the verified bit (`MaxReg.Writes`, `OopsDataFuture.Wrote`).
-/

namespace DiscoSkip.SwarmKv

open Lib

/-- The steps that write the entry of a write once its tsp is chosen for good. -/
def RegStep.rewrites : RegStep → Bool
  | .writeAll | .writeTs | .writeTsAndIn => true
  | _ => false

variable {cfg : Layout} {b c m kv s comp' : ℕ} {P : ℕ → List Request} {comp : ℕ → ℕ}
  {z z' : Local} {entry entry' : Ref → LogEntry} {x : MaxReg} {r r' : RelaxedMaxReg}
  {d d' : OopsDataFuture} {o : Outcome} {n : Counts} {progress : Bool}

namespace MaxReg

/-! ### Reads -/

/-- A register that has seen the tsp `b`, or is to read it, or has it in its buffer. -/
def Looks (cfg : Layout) (b s : ℕ) (entry : Ref → LogEntry) (Q : List Request) (x : MaxReg) :
    Prop :=
  b ≤ x.maxSeenTsp ∨ x.step = .done ∧ x.nextStep = some .tryReadAll ∨
    x.step = .tryReadAll ∧ x.nextStep = none ∧
      ((∃ q ∈ Q, q.op.readsTsps) ∨ b ≤ cfg.maxTspOf (entry (.read s)).tsps)

theorem Looks.of_isDone {Q : List Request} (h : x.Looks cfg b s entry Q) (hd : x.isDone) :
    b ≤ x.maxSeenTsp := by
  simp only [isDone, Bool.and_eq_true, decide_eq_true_eq, Bool.or_eq_true] at hd
  obtain h | ⟨-, hn⟩ | ⟨hs, -⟩ := h
  · exact h
  · simp [hn] at hd
  · exact RegStep.noConfusion (hs.symm.trans hd.1)

/-- Stepped forward, it goes on to read, or takes in what was read. -/
theorem Looks.tryStepForward {Q : List Request} (hx : x.Sound cfg m kv z.entry s Q comp')
    (h : x.Looks cfg b s z.entry Q) {reqs : List Request}
    (hp : (tryStepForward cfg c s z x).1.posted = z.posted ++ reqs.map (s, ·)) :
    (tryStepForward cfg c s z x).2.Looks cfg b s (tryStepForward cfg c s z x).1.entry
      (Q ++ reqs) := by
  cases hw : x.waits with
  | true =>
    rw [tryStepForward_of_waits hw] at hp ⊢
    refine h.imp_right fun h => h.imp_right fun ⟨hs, hn, h⟩ => ⟨hs, hn, h.imp_left ?_⟩
    rintro ⟨q, hq, hr⟩
    exact ⟨q, List.mem_append_left reqs hq, hr⟩
  | false =>
    obtain ⟨step, mark, hgo, heq⟩ := @tryStepForward_eq cfg c s z x hw
    have hseen : x.maxSeenTsp ≤ (MaxReg.tryStepForward cfg c s z x).2.maxSeenTsp :=
      tryStepForward_reg.2.2
    obtain h | ⟨hs, hn⟩ | ⟨hs, -, h⟩ := h
    · exact .inl (h.trans hseen)
    · obtain ⟨hstep, -⟩ | ⟨hnone, -⟩ := hgo
      · obtain rfl := Option.some.inj (hn.symm.trans hstep)
        rw [heq, refresh_of_done hs] at hp ⊢
        refine .inr (.inr ⟨rfl, rfl, .inl ?_⟩)
        obtain rfl := List.map_injective_iff.2 (Prod.mk_right_injective s)
          (List.append_cancel_left hp)
        obtain ⟨q, hq, hr⟩ := @requests_readsTsps cfg z
          { x with nextStep := none, madeProgress := mark } .tryReadAll (.inl rfl)
        exact ⟨q, List.mem_append_right Q hq, hr⟩
      · exact nomatch hn.symm.trans hnone
    · left
      have hb := h.resolve_left (hx.no_reads (hx.toPoll_eq_zero hw))
      have hread : x.step.readsTsps := by rw [hs]; rfl
      have hong : x.ongoingRemoteKv = some x.remoteKv := by
        rw [hx.ongoing (by rw [hs]; exact RegStep.noConfusion), hx.remoteKv]
      obtain ⟨k, ht⟩ := @take_of_readsTsps cfg c s z x hread
      rw [heq, transitionTo_maxSeenTsp, refresh, if_pos hong, ht]
      exact hb.trans (le_max_right _ _)

theorem Looks.congr {Q : List Request} (h : x.Looks cfg b s entry Q)
    (he : (entry' (.read s)).tsps = (entry (.read s)).tsps) : x.Looks cfg b s entry' Q := by
  unfold Looks
  rw [he]
  exact h

/-- A request of its future takes effect: the tsp is to be read yet, or is in the buffer. -/
theorem Looks.exec {Q rest : ℕ → List Request} {q : Request} {v v' : Server} {s' : ℕ}
    (h : x.Looks cfg b s entry (Q s)) (hb : s = s' → b ≤ cfg.maxTspOf (v.tsps kv))
    (hQ : Q s' = q :: rest s') (hrest : ∀ s ≠ s', rest s = Q s)
    (hkv : ∀ k ∈ q.op.slotsOf, k = kv) (hv : v.exec cfg c entry s' q.op = (v', entry')) :
    x.Looks cfg b s entry' (rest s) := by
  obtain rfl : (v.exec cfg c entry s' q.op).2 = entry' := by rw [hv]
  refine h.imp_right fun h => h.imp_right fun ⟨hs, hn, h⟩ => ⟨hs, hn, ?_⟩
  by_cases hss : s = s'
  · subst hss
    cases hq : q.op.readsTsps with
    | true =>
      rw [Server.exec_tsps_of_reads hq hkv]
      exact .inr (hb rfl)
    | false =>
      rw [Server.exec_tsps hq]
      refine h.imp_left ?_
      rintro ⟨q', hq', hr⟩
      rw [hQ] at hq'
      obtain rfl | hq' := List.mem_cons.1 hq'
      · exact absurd (hq.symm.trans hr) Bool.false_ne_true
      · exact ⟨q', hq', hr⟩
  · rwa [hrest s hss, Server.exec_entry_of_ne fun heq => hss (Ref.read.inj heq)]

/-- A register that does not swap leaves all entries as they are. -/
theorem tryStepForward_entry_of_not (h : x.step.swaps = false) :
    (MaxReg.tryStepForward cfg c s z x).1.entry = z.entry := by
  cases hw : x.waits with
  | true => rw [tryStepForward_of_waits hw]
  | false =>
    obtain ⟨step, mark, -, heq⟩ := @tryStepForward_eq cfg c s z x hw
    rw [heq, transitionTo_entry, refresh]
    split
    · cases hr : x.step.readsTsps with
      | true =>
        obtain ⟨k, ht⟩ := @take_of_readsTsps cfg c s z x hr
        rw [ht]
      | false => rw [take_of_not h hr]
    · rfl

end MaxReg

namespace RelaxedMaxReg

theorem relabel_tsps (p : Ref) : ((relabel s z r).1.entry p).tsps = (z.entry p).tsps := by
  obtain h | ⟨-, h⟩ := @relabel_eq_or z r s <;> rw [h]
  by_cases hp : p = .read s
  · subst hp
    simp [Local.setTsp]
  · rw [Local.setTsp_entry_of_ne _ _ _ hp]

/-- While the registers read, each visit keeps what the one of a server looks for. -/
theorem visit_looks {s' : ℕ} (h : r.Sound cfg m kv (z.pending P) comp z.entry)
    (hst : r.step = .tryRead) (hl : (r.reg s).Looks cfg b s z.entry (z.pending P s)) :
    ((visit cfg c (z, r, n) s').2.1.reg s).Looks cfg b s (visit cfg c (z, r, n) s').1.entry
      ((visit cfg c (z, r, n) s').1.pending P s) := by
  obtain ⟨n', hv⟩ := @visit_eq cfg c z r n s'
  obtain ⟨reqs, hp, -, -⟩ := (h.reg s').tryStepForward (c := c)
  have hswaps : (r.reg s').step.swaps = false := by
    have := (h.avoids s').1
    rwa [hst] at this
  have hpend : ((visit cfg c (z, r, n) s').1.pending P) =
      ((r.reg s').tryStepForward cfg c s' z).1.pending P := by
    rw [hv]
    exact Local.pending_congr relabel_posted
  rw [hpend]
  have hlook : ((visit cfg c (z, r, n) s').2.1.reg s).Looks cfg b s
      ((r.reg s').tryStepForward cfg c s' z).1.entry
      (((r.reg s').tryStepForward cfg c s' z).1.pending P s) := by
    rw [hv, relabel_reg]
    by_cases hs : s = s'
    · subst hs
      rw [setReg_self, Local.pending_self hp]
      exact hl.tryStepForward (h.reg s) hp
    · rw [setReg_of_ne hs, Local.pending_of_ne hp hs,
        MaxReg.tryStepForward_entry_of_not hswaps]
      exact hl
  refine hlook.congr ?_
  rw [hv]
  exact relabel_tsps _

/-- A step forward of a register that reads keeps what that of a server looks for, or it has
    seen it. -/
theorem Stepped.looks (hm : validateTsp m = m) (hs : Stepped cfg c z r progress z' r')
    (h : r.Sound cfg m kv (z.pending P) comp z.entry) (hu : r.usedServers cfg = cfg.servers kv)
    (hmem : s ∈ cfg.servers kv) (hst : r.step = .tryRead)
    (hl : (r.reg s).Looks cfg b s z.entry (z.pending P s)) :
    b ≤ r'.maxSeenTsp ∨
      r'.step = .tryRead ∧ (r'.reg s).Looks cfg b s z'.entry (z'.pending P s) := by
  have hvisit : ∀ {z₁ r₁ n}, visitAll cfg c z r = (z₁, r₁, n) →
      (r₁.reg s).Looks cfg b s z₁.entry (z₁.pending P s) := fun {z₁ r₁ n} hv =>
    (visitAll_induction (I := fun z r => r.step = .tryRead ∧
        r.Sound cfg m kv (z.pending P) comp z.entry ∧
        (r.reg s).Looks cfg b s z.entry (z.pending P s)) ⟨hst, h, hl⟩
      (fun z r n s' hs' ⟨hst, h, hl⟩ => by
        have hne : r.step ≠ .done := by simp [hst]
        exact ⟨visit_step.trans hst, h.visit hm (hu ▸ hs') hne, visit_looks h hst hl⟩) hv).2.2
  have hready : ∀ {z₁ r₁ n}, visitAll cfg c z r = (z₁, r₁, n) → cfg.majority ≤ n.ready →
      b ≤ r₁.maxSeenTsp := fun {z₁ r₁ n} hv hr => by
    obtain ⟨z₂, hd | ⟨hw, -⟩, -⟩ := ready_of_visitAll hu hv hr s hmem
    · exact ((hvisit hv).of_isDone hd).trans ((visitAll_le hv).2 s (hu ▸ hmem))
    · exact RelaxedStep.noConfusion (hst.symm.trans hw)
  cases hs with
  | idle hd => exact RelaxedStep.noConfusion (hst.symm.trans hd)
  | waits _ hv => exact .inr ⟨(visitAll_step hv).trans hst, hvisit hv⟩
  | progresses _ hv =>
    have hl := hvisit hv
    exact .inr ⟨(visitAll_step hv).trans hst, hl⟩
  | linearizes hw | writes hw | readsLog hw => exact RelaxedStep.noConfusion (hst.symm.trans hw)
  | finishes hw => simp [hst] at hw
  | inPlace _ hv hr =>
    have hb := hready hv hr
    exact .inl hb
  | reads _ hv hr _ hl hs =>
    obtain ⟨log, -, rfl⟩ := Option.map_eq_some_iff.1 hl
    exact .inl ((hready hv hr).trans hs.seen.1)

end RelaxedMaxReg

namespace OopsDataFuture

variable {d₁ : OopsDataFuture} {z₁ : Local} {step : DataStep} {kv' : ℕ}

theorem Entered.maxSeenTsp (he : Entered cfg c z d z' d') :
    d'.maxreg.maxSeenTsp = d.maxreg.maxSeenTsp := by
  cases he <;> rfl

theorem AfterRead.maxreg (ha : AfterRead cfg d d₁ step) : d₁.maxreg = d.maxreg := by
  cases ha <;> rfl

theorem Follows.maxreg (hf : Follows cfg c z d o z₁ d₁ step) : d₁.maxreg = d.maxreg := by
  cases hf with
  | afterNotify _ _ ha => exact ha.maxreg
  | afterRead _ ha => exact ha.maxreg
  | _ => rfl

/-- A read that has seen the tsp `b`, or one whose register of a server looks for it. -/
def Looks (cfg : Layout) (b s : ℕ) (entry : Ref → LogEntry) (Q : List Request)
    (d : OopsDataFuture) : Prop :=
  b ≤ d.maxreg.maxSeenTsp ∨ d.step = .rReading ∧ d.maxreg.step = .tryRead ∧
    (d.maxreg.reg s).Looks cfg b s entry Q

/-- A read starts by looking for all that is in the slots of a server. -/
theorem looks_of_enter {Q : List Request} (h : ∀ s, (d.maxreg.reg s).step = .done)
    (he : enter cfg c z d .rReading = some (z', d')) : d'.Looks cfg b s z'.entry Q := by
  obtain ⟨he, hs | ⟨hs, -⟩⟩ := entered he
  · cases he <;> first | exact DataStep.noConfusion hs | skip
    case rReading => exact .inr ⟨rfl, rfl, .inr (.inl ⟨h s, rfl⟩)⟩
  · exact DataStep.noConfusion hs

/-- Stepping forward, a read goes on to another step only once it has seen what it looks
    for. -/
theorem Looks.tryStepForward (hm : validateTsp m = m)
    (h : d.Sound cfg m kv (z.pending P) comp z.entry) (hmem : s ∈ cfg.servers kv)
    (hl : d.Looks cfg b s z.entry (z.pending P s))
    (ht : tryStepForward cfg c z d = some (o, z', d')) :
    d'.Looks cfg b s z'.entry (z'.pending P s) := by
  obtain ⟨p, z₁, r₁, hst, hcases⟩ := tryStepForward_cases ht
  have hlook : b ≤ r₁.maxSeenTsp ∨ d.step = .rReading ∧ r₁.step = .tryRead ∧
      (r₁.reg s).Looks cfg b s z₁.entry (z₁.pending P s) := by
    obtain hl | ⟨hd, hr, hl⟩ := hl
    · exact .inl (hl.trans hst.seen.1)
    · have hu := h.used_of_ne (by rw [hr]; exact RelaxedStep.noConfusion)
      exact (hst.looks hm h.maxreg hu hmem hr hl).imp_right fun h => ⟨hd, h⟩
  obtain ⟨rfl, rfl, -⟩ | ⟨-, hlin, -, z₂, d₂, step, hf, he⟩ := hcases
  · exact hlook
  · left
    rw [(entered he).1.maxSeenTsp, hf.maxreg]
    refine hlook.resolve_right fun ⟨_, hr, _⟩ => ?_
    simp [RelaxedMaxReg.isLinearized, hr] at hlin

/-- Falling through, the read has seen it already. -/
theorem Looks.afterRead {Q : List Request} (hl : d.Looks cfg b s entry Q)
    (hd : d.Falling cfg kv) (ha : AfterRead cfg d d₁ step)
    (he : enter cfg c z d₁ step = some (z', d')) : b ≤ d'.maxreg.maxSeenTsp := by
  rw [(entered he).1.maxSeenTsp, ha.maxreg]
  refine hl.resolve_right fun ⟨hr, _⟩ => ?_
  obtain hc | hc | hc := hd.confirms <;> exact DataStep.noConfusion (hc.symm.trans hr)

end OopsDataFuture

/-! ### Writes -/

namespace MaxReg

variable {tsp : ℕ}

/-- A register that is to write the tsp of the entry to write, or has seen it, but for the
    verified bit. -/
def Writes (tsp : ℕ) (x : MaxReg) : Prop :=
  x.writeEntry = .write ∧ (tsp ≤ validateTsp x.maxSeenTsp ∨ (∃ st ∈ x.nextStep, st.rewrites) ∨
    x.nextStep = none ∧ x.step.rewrites)

/-- What is skipped of the steps that write was seen. -/
theorem rewrites_of_settle {st : RegStep} {seen : ℕ} {skips : ℕ → ℕ → Bool} (h : st.rewrites)
    (hs : skips tsp seen → tsp ≤ seen) :
    (settle skips tsp seen st).rewrites ∨ tsp ≤ validateTsp seen := by
  have hle := fun h => (hs h).trans (le_validateTsp seen)
  cases st <;> first | exact absurd h Bool.false_ne_true | skip
  case writeTsAndIn => exact .inl rfl
  all_goals
    simp only [settle]
    repeat' split
  all_goals first
    | exact .inl rfl
    | exact .inr (hle ‹_›)

theorem Writes.tryStepForward (h : x.Writes (z.tspOf .write)) :
    (tryStepForward cfg c s z x).2.Writes (z.tspOf .write) := by
  obtain ⟨hw, h⟩ := h
  have hentry : (MaxReg.tryStepForward cfg c s z x).2.writeEntry = x.writeEntry :=
    tryStepForward_reg.2.1
  refine ⟨hentry.trans hw, ?_⟩
  cases hwait : x.waits with
  | true => rwa [tryStepForward_of_waits hwait]
  | false =>
    obtain ⟨step, mark, hgo, heq⟩ := @tryStepForward_eq cfg c s z x hwait
    have hf : Frame z x (refresh cfg c s z x) := refresh_frame
    have hstep : z.tspOf .write ≤ validateTsp (refresh cfg c s z x).2.maxSeenTsp ∨
        step.rewrites := by
      obtain h | ⟨st, hst, hr⟩ | ⟨hn, hr⟩ := h
      · exact .inl (h.trans (validateTsp_mono hf.le))
      · obtain ⟨hn, -⟩ | ⟨hn, -⟩ := hgo
        · obtain rfl := Option.some.inj (hst.symm.trans hn)
          exact .inr hr
        · exact nomatch hst.symm.trans hn
      · obtain ⟨hs, -⟩ | ⟨-, rfl, -⟩ := hgo
        · exact nomatch hn.symm.trans hs
        · right
          have hst : (refresh cfg c s z x).2.step = x.step := by rw [hf.reg]
          cases hx : x.step <;> rw [hx] at hr hst
          all_goals first
            | exact absurd hr Bool.false_ne_true
            | rw [following, hst]; rfl
    have htsp : (refresh cfg c s z x).1.tspOf (refresh cfg c s z x).2.writeEntry =
        z.tspOf .write := by
      rw [hf.tspOf, hf.reg]
      exact congrArg z.tspOf hw
    rw [heq, transitionTo_maxSeenTsp, transitionTo_nextStep, transitionTo_step]
    dsimp only
    rw [htsp]
    obtain h | hr := hstep
    · exact .inl h
    · obtain hr | h := @rewrites_of_settle (z.tspOf .write) step
        (refresh cfg c s z x).2.maxSeenTsp (fun a b => a ≤ b) hr of_decide_eq_true
      · exact .inr (.inr ⟨rfl, hr⟩)
      · exact .inl h

/-- Linearized, it has seen the tsp, but for the verified bit. -/
theorem Writes.of_isLinearized (h : x.Writes (z.tspOf .write)) (hl : x.isLinearized z) :
    z.tspOf .write ≤ validateTsp x.maxSeenTsp := by
  obtain ⟨hw, h | ⟨st, hst, hr⟩ | ⟨hn, hr⟩⟩ := h
  · exact h
  · simp only [isLinearized, hw, Bool.or_eq_true, Bool.and_eq_true, decide_eq_true_eq] at hl
    obtain (⟨-, hn⟩ | hn) | hl := hl
    · exact nomatch hst.symm.trans hn
    · obtain rfl := Option.some.inj (hst.symm.trans hn)
      exact absurd hr Bool.false_ne_true
    · exact hl
  · simp only [isLinearized, hw, hn, Bool.or_eq_true, Bool.and_eq_true, decide_eq_true_eq] at hl
    obtain (⟨hs, -⟩ | hn) | hl := hl
    · rw [hs] at hr
      exact absurd hr Bool.false_ne_true
    · exact nomatch hn
    · exact hl

theorem isLinearized_of_isDone (h : x.isDone) : x.isLinearized z := by
  simp only [isDone, isLinearized, Bool.and_eq_true, Bool.or_eq_true] at h ⊢
  exact .inl (h.2.imp (fun hn => ⟨h.1, hn⟩) id)

end MaxReg

namespace RelaxedMaxReg

theorem visitAll_tspOf_write (hv : visitAll cfg c z r = (z', r', n)) :
    z'.tspOf .write = z.tspOf .write :=
  visitAll_induction (I := fun z' _ => z'.tspOf .write = z.tspOf .write) rfl
    (fun _ _ _ _ _ h => visit_tspOf_write.trans h) hv

/-- Stepping forward overwrites the tsps of buffers only. -/
theorem Stepped.tspOf_write (hs : Stepped cfg c z r progress z' r') :
    z'.tspOf .write = z.tspOf .write := by
  induction hs with
  | idle => rfl
  | reads _ hv _ _ _ _ ih => exact ih.trans (visitAll_tspOf_write hv)
  | readsLog _ hv =>
    exact (Local.tspOf_setTsp_of_ne _ _ _ Ref.noConfusion).trans (visitAll_tspOf_write hv)
  | waits _ hv | progresses _ hv | linearizes _ hv | writes _ hv | finishes _ hv | inPlace _ hv =>
    exact visitAll_tspOf_write hv

/-- A step forward of a register that writes the tsp keeps it at that, or the tsp has been
    seen, but for the verified bit. -/
theorem Stepped.keepsWriting (hs : Stepped cfg c z r progress z' r')
    (hu : r.usedServers cfg = cfg.servers kv) (hmem : s ∈ cfg.servers kv) (hst : r.step = .write)
    (hw : (r.reg s).Writes (z.tspOf .write)) :
    z.tspOf .write ≤ validateTsp r'.maxSeenTsp ∨
      r'.step = .write ∧ (r'.reg s).Writes (z.tspOf .write) := by
  have hvisit : ∀ {z₁ r₁ n}, visitAll cfg c z r = (z₁, r₁, n) →
      (r₁.reg s).Writes (z.tspOf .write) := fun {z₁ r₁ n} hv =>
    (visitAll_induction (I := fun z₁ r₁ => z₁.tspOf .write = z.tspOf .write ∧
        (r₁.reg s).Writes (z.tspOf .write)) ⟨rfl, hw⟩ (fun z₁ r₁ n s' _ ⟨htsp, hw⟩ => by
      refine ⟨visit_tspOf_write.trans htsp, ?_⟩
      by_cases hs : s = s'
      · subst hs
        obtain ⟨n', hv⟩ := @visit_eq cfg c z₁ r₁ n s
        rw [hv, relabel_reg, setReg_self, ← htsp]
        exact MaxReg.Writes.tryStepForward (htsp.symm ▸ hw)
      · rwa [visit_reg_of_ne hs]) hv).2
  have hready : ∀ {z₁ r₁ n}, visitAll cfg c z r = (z₁, r₁, n) → cfg.majority ≤ n.ready →
      z.tspOf .write ≤ validateTsp r₁.maxSeenTsp := fun {z₁ r₁ n} hv hr => by
    obtain ⟨z₂, hx, htsp⟩ := ready_of_visitAll hu hv hr s hmem
    have hl : (r₁.reg s).isLinearized z₂ := hx.elim MaxReg.isLinearized_of_isDone And.right
    have heq := htsp.trans (visitAll_tspOf_write hv)
    rw [← heq]
    refine (MaxReg.Writes.of_isLinearized (heq ▸ hvisit hv) hl).trans (validateTsp_mono ?_)
    exact (visitAll_le hv).2 s (hu ▸ hmem)
  cases hs with
  | idle hd => exact RelaxedStep.noConfusion (hst.symm.trans hd)
  | waits _ hv => exact .inr ⟨(visitAll_step hv).trans hst, hvisit hv⟩
  | progresses _ hv =>
    have hw := hvisit hv
    exact .inr ⟨(visitAll_step hv).trans hst, hw⟩
  | linearizes _ hv hr | writes _ hv hr =>
    have hle := hready hv hr
    exact .inl hle
  | readsLog hr | inPlace hr | reads hr => exact RelaxedStep.noConfusion (hst.symm.trans hr)
  | finishes hr => simp [hst] at hr

end RelaxedMaxReg

namespace OopsDataFuture

variable {d₁ : OopsDataFuture} {z₁ : Local} {step : DataStep} {tsp : ℕ}

/-- How far a write has come with its tsp: the register of a server is to write it, or it has
    been seen. -/
def Wrote (s tsp : ℕ) (d : OopsDataFuture) : Prop :=
  match d.step with
  | .wTryOptimisticTs | .wReadToWrite => True
  | .wPrepareToRepare | .wTryRepare | .linearized | .done =>
    tsp ≤ validateTsp d.maxreg.maxSeenTsp
  | .writeTsAsVerified | .writeAsVerified =>
    tsp ≤ validateTsp d.maxreg.maxSeenTsp ∨
      d.maxreg.step = .write ∧ (d.maxreg.reg s).Writes tsp
  | .rReading | .rTryNotifyWriter | .replicateAsVerified => False

theorem wrote_of_first (he : enter cfg c z d .wTryOptimisticTs = some (z', d')) :
    d'.Wrote s tsp := by
  obtain ⟨-, hs | ⟨-, hs⟩⟩ := entered he <;> simp only [Wrote, hs]

/-- A step that writes is set up to write the tsp to all servers. -/
theorem wrote_of_writes (hs : step = .writeTsAsVerified ∨ step = .writeAsVerified)
    (he : enter cfg c z d step = some (z', d')) : d'.Wrote s (z'.tspOf .write) := by
  obtain ⟨he, hst⟩ := entered he
  have hst : d'.step = step := hst.resolve_right fun h => by
    rw [h.1] at hs
    exact hs.elim DataStep.noConfusion DataStep.noConfusion
  rw [← hst] at hs
  cases he with
  | writeTsAsVerified => exact .inr ⟨rfl, rfl, .inr (.inl ⟨.writeTsAndIn, rfl, rfl⟩)⟩
  | @writeAsVerified z' log =>
    refine .inr ⟨rfl, rfl, ?_⟩
    obtain h | h := @MaxReg.rewrites_of_settle (z'.tspOf .write) .writeAll
      (d.maxreg.reg s).maxSeenTsp (fun a b => a < b) rfl
      fun h => (of_decide_eq_true h).le
    · exact .inr (.inl ⟨_, rfl, h⟩)
    · exact .inl h
  | _ => exact hs.elim DataStep.noConfusion DataStep.noConfusion

/-- A step that only needs the tsp to have been seen. -/
theorem wrote_of_seen (hs : step = .wPrepareToRepare ∨ step = .wTryRepare ∨ step = .linearized ∨
      step = .done) (h : z.tspOf .write ≤ validateTsp d.maxreg.maxSeenTsp)
    (he : enter cfg c z d step = some (z', d')) : d'.Wrote s (z'.tspOf .write) := by
  obtain ⟨he, hst⟩ := entered he
  have hst : d'.step = step := hst.resolve_right fun h => by
    rw [h.1] at hs
    simp at hs
  rw [← hst] at hs
  cases he with
  | wPrepareToRepare | wTryRepare | linearized | done => exact h
  | _ => simp at hs

/-- A completion that is polled does not matter to how far a write has come. -/
theorem Wrote.polled {s' : ℕ} (hw : d.Wrote s tsp) :
    ({ d with
      maxreg := d.maxreg.setReg s'
        { d.maxreg.reg s' with toPoll := (d.maxreg.reg s').toPoll - 1 } } : OopsDataFuture).Wrote
      s tsp := by
  have hreg : (d.maxreg.reg s).Writes tsp → ((d.maxreg.setReg s'
      { d.maxreg.reg s' with toPoll := (d.maxreg.reg s').toPoll - 1 }).reg s).Writes tsp := by
    refine fun h => RelaxedMaxReg.forall_setReg (I := fun s₁ y => s₁ = s → y.Writes tsp) ?_ ?_ s rfl
    · rintro rfl
      exact h
    · rintro s₁ - rfl
      exact h
  cases hd : d.step <;> simp only [Wrote, hd] at hw ⊢
  case writeTsAsVerified | writeAsVerified => exact hw.imp_right fun ⟨hr, h⟩ => ⟨hr, hreg h⟩
  all_goals exact hw

/-- Its register stepped forward, a write has come as far, and once linearized, its tsp has
    been seen. -/
theorem Wrote.stepped {Q : ℕ → List Request} (h : d.Sound cfg m kv Q comp entry)
    (hmem : s ∈ cfg.servers kv) (hw : d.Wrote s (z.tspOf .write))
    (hs : RelaxedMaxReg.Stepped cfg c z d.maxreg progress z' r') :
    ({ d with maxreg := r' } : OopsDataFuture).Wrote s (z'.tspOf .write) := by
  have hle := validateTsp_mono hs.seen.1
  have hkeep (hw : z.tspOf .write ≤ validateTsp d.maxreg.maxSeenTsp ∨
      d.maxreg.step = .write ∧ (d.maxreg.reg s).Writes (z.tspOf .write)) :
      z.tspOf .write ≤ validateTsp r'.maxSeenTsp ∨
        r'.step = .write ∧ (r'.reg s).Writes (z.tspOf .write) := by
    obtain hw | ⟨hr, hw⟩ := hw
    · exact .inl (hw.trans hle)
    · exact hs.keepsWriting (h.used_of_ne (by rw [hr]; exact RelaxedStep.noConfusion)) hmem hr hw
  rw [hs.tspOf_write]
  cases hd : d.step <;> simp only [Wrote, hd] at hw ⊢
  case writeTsAsVerified | writeAsVerified => exact hkeep hw
  all_goals exact hw.trans hle

/-- Stepping forward, a write goes on to its end only once its tsp has been seen. -/
theorem Wrote.tryStepForward {Q : ℕ → List Request} (h : d.Sound cfg m kv Q comp entry)
    (hmem : s ∈ cfg.servers kv) (hw : d.Wrote s (z.tspOf .write))
    (ht : tryStepForward cfg c z d = some (o, z', d')) :
    d'.Wrote s (z'.tspOf .write) ∧ o ≠ .callsFirst := by
  obtain ⟨p, z₁, r₁, hst, ⟨rfl, rfl, rfl⟩ | ⟨-, hl, -, z₂, d₂, step, hf, he⟩⟩ :=
    tryStepForward_cases ht
  all_goals have hw₁ := hw.stepped h hmem hst
  · exact ⟨hw₁, Outcome.noConfusion⟩
  · have hend : ∀ {st : DataStep}, st = (if r₁.isDone then DataStep.done else .linearized) →
        st = .wPrepareToRepare ∨ st = .wTryRepare ∨ st = .linearized ∨ st = .done := by
      rintro st rfl
      split <;> simp
    have hno : d.step = .rReading ∨ d.step = .rTryNotifyWriter → False := by
      rintro (hd | hd) <;> simp only [Wrote, hd] at hw
    have hlt (h : validateTsp (z₁.tspOf .write) < r₁.maxSeenTsp) :
        z₁.tspOf .write ≤ validateTsp r₁.maxSeenTsp :=
      (le_validateTsp _).trans (h.le.trans (le_validateTsp _))
    cases hf with
    | verify | writeAnew | unnotified =>
      exact ⟨wrote_of_writes (.inl rfl) he, Outcome.noConfusion⟩
    | writeRead => exact ⟨wrote_of_writes (.inr rfl) he, Outcome.noConfusion⟩
    | prepare _ h =>
      refine ⟨wrote_of_seen (.inl rfl) ?_ he, Outcome.noConfusion⟩
      exact hlt h
    | repareUnread _ h =>
      refine ⟨wrote_of_seen (.inr (.inl rfl)) ?_ he, Outcome.noConfusion⟩
      exact hlt h
    | repare hd =>
      simp only [Wrote, show d.step = _ from hd] at hw₁
      exact ⟨wrote_of_seen (.inr (.inl rfl)) hw₁ he, Outcome.noConfusion⟩
    | notified hd =>
      simp only [Wrote, show d.step = _ from hd] at hw₁
      exact ⟨wrote_of_seen (hend rfl) hw₁ he, Outcome.noConfusion⟩
    | endsLater hd =>
      simp only [Wrote, show d.step = _ from hd] at hw₁
      exact ⟨wrote_of_seen (.inr (.inr (.inr rfl))) hw₁ he, Outcome.noConfusion⟩
    | ends hd =>
      refine ⟨wrote_of_seen (hend rfl) ?_ he, Outcome.noConfusion⟩
      have hr : r₁.step ≠ .write := fun hr => by simp [RelaxedMaxReg.isLinearized, hr] at hl
      obtain hd | hd | hd := hd
      all_goals simp only [Wrote, show d.step = _ from hd] at hw₁
      all_goals exact hw₁.resolve_right fun h => hr h.1
    | confirm hd | afterNotify hd => exact (hno (.inr hd)).elim
    | afterRead hd => exact (hno (.inl hd)).elim

end OopsDataFuture

end DiscoSkip.SwarmKv
