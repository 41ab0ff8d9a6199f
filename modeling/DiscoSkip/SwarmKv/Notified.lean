import DiscoSkip.SwarmKv.OopsClient.Steps

/-!
# Notified writes

A write that saw a tsp greater than its own, and is notified meanwhile, is over without a
newer tsp: a reader that saw the tsp of the write twice, and has set the notification word
of its log entry, answers for it.

What the step `WTryRepare` looks at are the notification words in the buffers of the
future. It has those of the log entry it *replicates* read, which is another one, and it
does not wait for them, nor does it clear what an earlier operation has left there. So a
write may be over though nobody has notified it (`not_notified`). It has been notified in
runs in which no write comes to that step with a word left, and none finds the word of
another entry there, without its own being set (`notified_of_run`).
-/

namespace DiscoSkip.SwarmKv

open Lib

/-- The log entry whose notification word is read by a request, or swapped. -/
def Op.notifOf : Op → Option LogAddr
  | .readNotif log | .casNotif log => some log
  | _ => none

namespace State

variable (cfg : Layout) (t : State)

/-- The log entry of the write whose call, from the step `WTryRepare` on, is over next. -/
def notifiedEnd (c : ℕ) : Option LogAddr :=
  (t.client c).call.bind fun call =>
    let d := (t.future c call.future).data
    if d.step = .wTryRepare then
      (d.tryStepForward cfg c (t.localOf c call.future)).bind fun (_, _, d') =>
        if d'.step = .done ∨ d'.step = .linearized then some ⟨c, d.logId⟩ else none
    else none

/-- The future of the client whose call goes on to the step `WTryRepare` next. -/
def repares (c : ℕ) : Option ℕ :=
  (t.client c).call.bind fun call =>
    let d := (t.future c call.future).data
    (d.tryStepForward cfg c (t.localOf c call.future)).bind fun (_, _, d') =>
      if d.step ≠ .wTryRepare ∧ d'.step = .wTryRepare then some call.future else none

/-- The log entry was notified on some server. -/
def Notified (log : LogAddr) : Prop := ∃ s < cfg.numServers, (t.server s).notif log ≠ 0

instance (log : LogAddr) : Decidable (t.Notified cfg log) :=
  inferInstanceAs (Decidable (∃ s < cfg.numServers, _))

end State

/-- A compare-and-swap of the step `NotifyAndReadTs` sets the notification word of the log
    entry, on a server. -/
def Notifies (log : LogAddr) : Action × State → Prop
  | (.exec c s, t) =>
    ∃ q ∈ (t.queue c s).head?, q.2.op = .casNotif log ∧ (t.server s).notif log = 0
  | _ => False

instance (log : LogAddr) : DecidablePred (Notifies log)
  | (.exec c s, t) =>
    inferInstanceAs (Decidable (∃ q ∈ (t.queue c s).head?, _ ∧ (t.server s).notif log = 0))
  | (.initClock .., _) | (.insert .., _) | (.update .., _) | (.read .., _) | (.run .., _)
  | (.poll .., _) | (.tick .., _) | (.forget .., _) => .isFalse id

/-- A write goes on to the step `WTryRepare` with a notification word set in the buffers of its
    future, or comes upon one that is set while it is there, only if that of its own log entry
    is. -/
def Notified.Guard (cfg : Layout) (t : State) : Action → Prop
  | .run c => ∀ f ∈ t.repares cfg c, ∀ s < cfg.numServers,
    ((t.future c f).entry (.read s)).notif ≠ 0 → t.Notified cfg ⟨c, (t.future c f).data.logId⟩
  | .exec c s => ∀ q ∈ (t.queue c s).head?, ∀ log ∈ q.2.op.notifOf,
    (t.server s).notif log ≠ 0 → (t.future c q.1).data.step = .wTryRepare →
      t.Notified cfg ⟨c, (t.future c q.1).data.logId⟩
  | _ => True

instance Notified.decidableGuard (cfg : Layout) (t : State) : DecidablePred (Notified.Guard cfg t)
  | .run c => inferInstanceAs (Decidable (∀ f ∈ t.repares cfg c, ∀ s < cfg.numServers,
      ((t.future c f).entry (.read s)).notif ≠ 0 →
        t.Notified cfg ⟨c, (t.future c f).data.logId⟩))
  | .exec c s => inferInstanceAs (Decidable (∀ q ∈ (t.queue c s).head?, ∀ log ∈ q.2.op.notifOf,
      (t.server s).notif log ≠ 0 → (t.future c q.1).data.step = .wTryRepare →
        t.Notified cfg ⟨c, (t.future c q.1).data.logId⟩))
  | .initClock .. | .insert .. | .update .. | .read .. | .poll .. | .tick .. | .forget .. =>
    .isTrue trivial

/-! ## The notification words in the buffers -/

section Frame

variable {cfg : Layout} {c s : ℕ} {z z' : Local} {x : MaxReg} {r r' : RelaxedMaxReg} {n : Counts}
  {d d' : OopsDataFuture} {p : Ref}

theorem Local.setTsp_notif (q : Ref) (tsp : ℕ) :
    ((z.setTsp q tsp).entry p).notif = (z.entry p).notif := by
  by_cases h : p = q
  · subst h
    simp [Local.setTsp]
  · rw [Local.setTsp_entry_of_ne _ _ _ h]

/-- Stepping a register forward only reads the notification words. -/
theorem MaxReg.tryStepForward_notif :
    ((tryStepForward cfg c s z x).1.entry p).notif = (z.entry p).notif := by
  cases hw : x.waits with
  | true => rw [tryStepForward_of_waits hw]
  | false =>
    obtain ⟨step, mark, -, heq⟩ := @tryStepForward_eq cfg c s z x hw
    rw [heq, transitionTo_entry, (refresh_frame (x := x)).entry p]

namespace RelaxedMaxReg

theorem relabel_notif : ((relabel s z r).1.entry p).notif = (z.entry p).notif := by
  obtain h | ⟨-, h⟩ := @relabel_eq_or z r s <;> rw [h]
  exact Local.setTsp_notif _ _

theorem visitAll_notif (h : visitAll cfg c z r = (z', r', n)) :
    (z'.entry p).notif = (z.entry p).notif := by
  refine visitAll_induction (I := fun z' _ => (z'.entry p).notif = (z.entry p).notif) rfl
    (fun z₁ r₁ n s _ ih => ?_) h
  obtain ⟨n', hv⟩ := @visit_eq cfg c z₁ r₁ n s
  rw [hv, relabel_notif, MaxReg.tryStepForward_notif, ih]

/-- And so does stepping all of them forward. -/
theorem Stepped.notif {b : Bool} (h : Stepped cfg c z r b z' r') :
    (z'.entry p).notif = (z.entry p).notif := by
  induction h with
  | idle => rfl
  | waits _ hv => exact visitAll_notif hv
  | progresses _ hv => exact visitAll_notif hv
  | linearizes _ hv => exact visitAll_notif hv
  | writes _ hv => exact visitAll_notif hv
  | finishes _ hv => exact visitAll_notif hv
  | inPlace _ hv => exact visitAll_notif hv
  | reads _ hv _ _ _ _ ih => exact ih.trans (visitAll_notif hv)
  | readsLog _ hv => exact (Local.setTsp_notif _ _).trans (visitAll_notif hv)

end RelaxedMaxReg

namespace OopsDataFuture

theorem newTsp_notif {b : Bool} (h : newTsp cfg c z d b = some z') :
    (z'.entry p).notif = (z.entry p).notif := by
  obtain ⟨_, _, _, -, -, rfl⟩ := newTsp_eq h
  exact Local.setTsp_notif _ _

/-- Setting up a step keeps the notification words, and the log entry of the write. -/
theorem Entered.frame (h : Entered cfg c z d z' d') :
    (z'.entry p).notif = (z.entry p).notif ∧ d'.logId = d.logId := by
  cases h with
  | wTryOptimisticTs hz => exact ⟨newTsp_notif hz, rfl⟩
  | replicateAsVerified hz => exact ⟨hz ▸ Local.setTsp_notif _ _, rfl⟩
  | writeTsAsVerified hz => exact ⟨hz ▸ Local.setTsp_notif _ _, rfl⟩
  | writeAsVerified hz => exact ⟨hz ▸ Local.setTsp_notif _ _, rfl⟩
  | _ => exact ⟨rfl, rfl⟩

theorem AfterRead.frame {step : DataStep} (h : AfterRead cfg d d' step) :
    d'.logId = d.logId ∧ step ≠ .wTryRepare := by
  cases h <;> exact ⟨rfl, nofun⟩

/-- Going on from a step keeps them as well. -/
theorem Follows.frame {o : Outcome} {step : DataStep} (h : Follows cfg c z d o z' d' step) :
    (z'.entry p).notif = (z.entry p).notif ∧ d'.logId = d.logId := by
  cases h with
  | writeAnew _ _ hz | unnotified _ hz | writeRead _ hz => exact ⟨newTsp_notif hz, rfl⟩
  | afterNotify _ _ ha | afterRead _ ha => exact ⟨rfl, ha.frame.1⟩
  | _ => exact ⟨rfl, rfl⟩

/-- A call that steps forward keeps the notification words, and the log entry of the write. -/
theorem tryStepForward_frame {o : Outcome} (h : tryStepForward cfg c z d = some (o, z', d')) :
    (∀ p, (z'.entry p).notif = (z.entry p).notif) ∧ d'.logId = d.logId := by
  obtain ⟨b, z₁, r₁, hr, ⟨rfl, rfl, -⟩ | ⟨-, -, -, z₂, d₂, step, hf, he⟩⟩ := tryStepForward_cases h
  · exact ⟨fun _ => hr.notif, rfl⟩
  · obtain ⟨he, -⟩ := entered he
    refine ⟨fun p => ?_, ?_⟩
    · exact (he.frame (p := p)).1.trans ((hf.frame (p := p)).1.trans hr.notif)
    · exact (he.frame (p := .write)).2.trans (hf.frame (p := .write)).2

/-- A write whose call is over next, from the step `WTryRepare` on, has found a
    notification word that is set. -/
theorem exists_notif {o : Outcome} (h : tryStepForward cfg c z d = some (o, z', d'))
    (hs : d.step = .wTryRepare) (hd : d'.step = .done ∨ d'.step = .linearized) :
    ∃ s < cfg.numServers, (z.entry (.read s)).notif ≠ 0 := by
  obtain ⟨b, z₁, r₁, hr, ⟨rfl, rfl, -⟩ | ⟨-, -, -, z₂, d₂, step, hf, he⟩⟩ := tryStepForward_cases h
  · rw [hs] at hd
    simp at hd
  · obtain ⟨-, hstep⟩ := entered he
    cases hf with
    | notified _ hn =>
      obtain ⟨s, hmem, hne⟩ := List.any_eq_true.1 hn
      refine ⟨s, List.mem_range.1 (List.mem_of_mem_filter hmem), ?_⟩
      rw [← hr.notif]
      simpa using hne
    | unnotified =>
      obtain hstep | ⟨hstep, -⟩ := hstep
      · rw [hstep] at hd
        simp at hd
      · exact nomatch hstep
    | verify hs' | prepare hs' | repareUnread hs' | writeAnew hs' | repare hs' | writeRead hs'
    | confirm hs' | afterNotify hs' | afterRead hs' | endsLater hs' =>
      exact nomatch hs.symm.trans hs'
    | ends hs' =>
      dsimp only at hs'
      rw [hs] at hs'
      simp at hs'

end OopsDataFuture

end Frame

/-! ## The run -/

/-- A notification word that a future has in the step `WTryRepare` stands for that of its own
    log entry. -/
def OopsFuture.NotifsOk (cfg : Layout) (t : State) (c : ℕ) (x : OopsFuture) : Prop :=
  x.data.step = .wTryRepare → ∀ s < cfg.numServers, (x.entry (.read s)).notif ≠ 0 →
    t.Notified cfg ⟨c, x.data.logId⟩

def State.NotifsOk (cfg : Layout) (t : State) : Prop :=
  ∀ c f, (t.future c f).NotifsOk cfg t c

variable {cfg : Layout} {t t' : State} {c f s : ℕ} {x x' : OopsFuture} {log : LogAddr}

theorem State.Notified.mono (h : t.Notified cfg log)
    (hle : ∀ s, (t.server s).notif log ≠ 0 → (t'.server s).notif log ≠ 0) :
    t'.Notified cfg log := by
  obtain ⟨s, hs, hn⟩ := h
  exact ⟨s, hs, hle s hn⟩

/-- What keeps the notification words and the log entry, and does not come to the step, keeps
    what they stand for. -/
theorem OopsFuture.NotifsOk.of_frame (h : x.NotifsOk cfg t c)
    (hn : ∀ p, (x'.entry p).notif = (x.entry p).notif) (hl : x'.data.logId = x.data.logId)
    (hstep : x'.data.step = .wTryRepare → x.data.step = .wTryRepare) : x'.NotifsOk cfg t c := by
  intro hs' s hs hne
  rw [hl]
  exact h (hstep hs') s hs (by rwa [← hn])

namespace State.NotifsOk

theorem setClient (h : t.NotifsOk cfg) {k : OopsState} : (t.setClient c k).NotifsOk cfg := h

theorem setFuture (h : t.NotifsOk cfg) (hx : x.NotifsOk cfg t c) :
    (t.setFuture c f x).NotifsOk cfg := by
  intro c' f'
  by_cases hc : (c', f') = (c, f)
  · cases hc
    rw [setFuture_future_self]
    exact hx
  · rw [setFuture_future_of_ne hc]
    exact h c' f'

theorem setLocal {z : Local} {d : OopsDataFuture} {call : Option Call} (h : t.NotifsOk cfg)
    (hd : ({ t.future c f with entry := z.entry, data := d } : OopsFuture).NotifsOk cfg t c) :
    (t.setLocal c f z d call).NotifsOk cfg := by
  intro c' f'
  by_cases hc : (c', f') = (c, f)
  · cases hc
    rw [setLocal_future_self]
    exact hd
  · rw [setLocal_future_of_ne hc]
    exact h c' f'

/-- An operation is started with another step. -/
theorem start {z : Local} {d : OopsDataFuture} {call : Option Call} (h : t.NotifsOk cfg)
    (hd : d.step ≠ .wTryRepare) : ((t.setFuture c f x).setLocal c f z d call).NotifsOk cfg := by
  intro c' f'
  by_cases hc : (c', f') = (c, f)
  · cases hc
    rw [setLocal_future_self]
    exact fun hs => absurd hs hd
  · rw [setLocal_future_of_ne hc, setFuture_future_of_ne hc]
    exact h c' f'

theorem startWrite {kv : ℕ} {v : Data} {step : OopsStep} {cached : Option ℕ} (h : t.NotifsOk cfg)
    (ht : t.startWrite cfg c f kv v step cached = some t') : t'.NotifsOk cfg := by
  obtain ⟨-, x, z, d, -, he, rfl⟩ := startWrite_cases ht
  refine start h.setClient ?_
  obtain ⟨-, hs | ⟨-, hs⟩⟩ := OopsDataFuture.entered he <;> rw [hs] <;> exact nofun

theorem startRead {kv : ℕ} (h : t.NotifsOk cfg) (ht : t.startRead cfg c f kv = some t') :
    t'.NotifsOk cfg := by
  obtain ⟨-, z, d, he, rfl⟩ := startRead_cases ht
  refine start h ?_
  obtain ⟨-, hs | ⟨-, hs⟩⟩ := OopsDataFuture.entered he <;> rw [hs] <;> exact nofun

/-- A call that steps forward may go on to the step `WTryRepare`. -/
theorem runCall {k : Call} (h : t.NotifsOk cfg) (hg : Notified.Guard cfg t (.run c))
    (hk : (t.client c).call = some k) (ht : t.runCall cfg c k = some t') : t'.NotifsOk cfg := by
  obtain ⟨o, z, d, hd, hcases⟩ := runCall_cases ht
  obtain ⟨hn, hl⟩ := OopsDataFuture.tryStepForward_frame hd
  have hx : ({ t.future c k.future with entry := z.entry, data := d } : OopsFuture).NotifsOk cfg
      t c := by
    by_cases hs : (t.future c k.future).data.step = .wTryRepare
    · exact (h c k.future).of_frame hn hl fun _ => hs
    · intro hs' s hlt hne
      have hrep : t.repares cfg c = some k.future := by
        rw [State.repares, hk, Option.bind_some]
        dsimp only
        rw [hd, Option.bind_some]
        exact if_pos ⟨hs, hs'⟩
      rw [show d.logId = _ from hl]
      exact hg k.future hrep s hlt fun h0 => hne ((hn _).trans h0)
  rcases hcases with ⟨k', -, rfl⟩ | ⟨b, -, -, rfl⟩ | ⟨b, n, d₁, step, z', d', -, -, har, he, rfl⟩
  · exact h.setLocal hx
  · obtain ⟨cache, st, hr, -⟩ := @returned_cases cfg (t.setLocal c k.future z d none) c k.future
      (k.ticked && (k.progress || b))
    have h₁ : (t.setLocal c k.future z d none).NotifsOk cfg := h.setLocal hx
    rw [hr]
    exact setFuture h₁.setClient ((h₁ c k.future).of_frame (fun _ => rfl) rfl id)
  · -- falling through from a read, which goes on with a step of its own
    refine h.setLocal fun hs' => ?_
    have hs' : d'.step = .wTryRepare := hs'
    obtain ⟨-, hs | ⟨-, hs⟩⟩ := OopsDataFuture.entered he
    · exact absurd (hs.symm.trans hs') har.frame.2
    · exact nomatch hs.symm.trans hs'

end State.NotifsOk

namespace Server

variable {v : Server} {entry : Ref → LogEntry} {op : Op}

/-- A notification word that is set stays so. -/
theorem exec_notif_ne (h : v.notif log ≠ 0) : (v.exec cfg c entry s op).1.notif log ≠ 0 := by
  cases op with
  | casNotif log' =>
    dsimp only [exec]
    split
    · by_cases hl : log = log'
      · subst hl
        rw [put_self]
        exact one_ne_zero
      · rwa [put_of_ne hl]
    · exact h
  | _ => exact h

/-- Only a compare-and-swap of the word sets it. -/
theorem eq_casNotif_of_exec (h : v.notif log = 0)
    (hne : (v.exec cfg c entry s op).1.notif log ≠ 0) :
    op = .casNotif log := by
  cases op with
  | casNotif log' =>
    by_cases hl : log = log'
    · rw [hl]
    · refine absurd h ?_
      dsimp only [exec] at hne
      split at hne
      · rwa [put_of_ne hl] at hne
      · exact hne
  | _ => exact absurd h hne

/-- What the buffers have of a notification word is what the server had. -/
theorem exec_entry_notif (p : Ref) : (((v.exec cfg c entry s op).2 p).notif = (entry p).notif) ∨
    ∃ log ∈ op.notifOf, ((v.exec cfg c entry s op).2 p).notif = v.notif log := by
  have hput : ∀ e : LogEntry, (put entry (.read s) e p).notif = (entry p).notif ∨
      (put entry (.read s) e p).notif = e.notif := by
    intro e
    by_cases hp : p = .read s
    · subst hp
      exact .inr (by rw [put_self])
    · exact .inl (by rw [put_of_ne hp])
  cases op with
  | readNotif log => exact (hput _).imp id fun h => ⟨log, rfl, h⟩
  | casNotif log => exact (hput _).imp id fun h => ⟨log, rfl, h⟩
  | readKv | readTsps | readLog | cas =>
    left
    by_cases hp : p = .read s
    · subst hp
      simp only [exec, put_self]
    · simp only [exec, put_of_ne hp]
  | writeLog | writeKv => exact .inl rfl

end Server

/-- No step clears a notification word. -/
theorem State.notif_ne_of_step {a : Action} (ht : step cfg t a = some t')
    (h : (t.server s).notif log ≠ 0) : (t'.server s).notif log ≠ 0 := by
  by_cases ha : ∃ c s, a = .exec c s
  · obtain ⟨c, s', rfl⟩ := ha
    obtain ⟨f, req, rest, v, entry, -, he, rfl⟩ := execute_cases ht
    by_cases hs : s = s'
    · subst hs
      dsimp only
      rw [put_self, show v = _ from (congrArg Prod.fst he).symm]
      exact Server.exec_notif_ne h
    · dsimp only
      rwa [put_of_ne hs]
  · rwa [server_of_step ht fun c s h => ha ⟨c, s, h⟩]

/-- A request that takes effect reads no word for a write in the step `WTryRepare`, unless the
    word of its own log entry is set. -/
theorem State.NotifsOk.execute (h : t.NotifsOk cfg) (hg : Notified.Guard cfg t (.exec c s))
    (ht : step cfg t (.exec c s) = some t') : t'.NotifsOk cfg := by
  have hstay : ∀ {log : LogAddr}, t.Notified cfg log → t'.Notified cfg log :=
    fun hn => hn.mono fun s h => notif_ne_of_step ht h
  obtain ⟨f, req, rest, v, entry, hq, he, rfl⟩ := execute_cases ht
  obtain ⟨rfl, rfl⟩ := Prod.mk.inj he
  refine fun c' f' hstep s' hs' hne => hstay ?_
  by_cases hc : (c', f') = (c, f)
  · cases hc
    simp only [setFuture_future_self, OopsFuture.landed] at hstep hne ⊢
    obtain heq | ⟨log, hlog, heq⟩ := @Server.exec_entry_notif cfg c s (t.server s)
      (t.future c f).entry req.op (.read s')
    · exact h c f hstep s' hs' (by rwa [← heq])
    · exact hg (f, req) (by rw [hq]; rfl) log hlog (by rwa [← heq]) hstep
  · rw [show State.future _ c' f' = _ from setFuture_future_of_ne hc] at hstep hne ⊢
    exact h c' f' hstep s' hs' hne

theorem State.NotifsOk.step (h : t.NotifsOk cfg) {a : Action} (hg : Notified.Guard cfg t a)
    (ht : step cfg t a = some t') : t'.NotifsOk cfg := by
  cases a with
  | initClock c =>
    simp only [SwarmKv.step] at ht
    split at ht <;> cases ht
    exact h.setClient
  | insert c f v => exact h.setClient.startWrite ht
  | update c f kv v => exact h.startWrite ht
  | read c f kv => exact h.startRead ht
  | run c =>
    obtain ⟨k, hk, ht⟩ := Option.bind_eq_some_iff.1 ht
    exact h.runCall hg hk ht
  | exec c s => exact h.execute hg ht
  | poll c s f =>
    obtain ⟨-, rfl⟩ := poll_cases ht
    exact h.setFuture ((h c f).of_frame (fun _ => rfl) rfl id)
  | tick c f =>
    simp only [SwarmKv.step] at ht
    split at ht <;> cases ht
    exact setFuture h.setClient ((h c f).of_frame (fun _ => rfl) rfl id)
  | forget c kv =>
    cases ht
    exact h.setClient

/-- A step that sets a notification word is one of a reader. -/
theorem notifies_of_step {a : Action} (ht : step cfg t a = some t') (h : (t.server s).notif log = 0)
    (hne : (t'.server s).notif log ≠ 0) : Notifies log (a, t) := by
  by_cases ha : ∃ c s, a = .exec c s
  · obtain ⟨c, s', rfl⟩ := ha
    obtain ⟨f, req, rest, v, entry, hq, he, rfl⟩ := State.execute_cases ht
    by_cases hs : s = s'
    · subst hs
      dsimp only at hne
      rw [put_self] at hne
      have hop := Server.eq_casNotif_of_exec h (by rwa [he])
      exact ⟨(f, req), by rw [hq]; rfl, hop, h⟩
    · dsimp only at hne
      rw [put_of_ne hs] at hne
      exact absurd h hne
  · rw [State.server_of_step ht fun c s h => ha ⟨c, s, h⟩] at hne
    exact absurd h hne

section Run

variable {tr : List (Action × State)}

/-- What sets a notification word that is set is in the run. -/
theorem exists_notifies_of_run {G : State → Action → Prop} (h : (machine cfg).Run G tr t)
    (hne : (t.server s).notif log ≠ 0) : ∃ p ∈ tr, Notifies log p := by
  induction h with
  | nil => exact absurd rfl hne
  | cons hr hst ih =>
    next tr t t' e =>
    obtain ⟨a, rfl, -, ht⟩ := of_machine_step hst
    by_cases h0 : (t.server s).notif log = 0
    · exact ⟨_, List.mem_cons_self, notifies_of_step ht h0 hne⟩
    · obtain ⟨p, hp, hn⟩ := ih h0
      exact ⟨p, List.mem_cons_of_mem _ hp, hn⟩

theorem notifsOk_of_run (h : (machine cfg).Run (Notified.Guard cfg) tr t) : t.NotifsOk cfg := by
  have h0 : (machine cfg).init.NotifsOk cfg := fun _ _ hs => nomatch hs
  refine Trace.invariant (P := fun _ => State.NotifsOk cfg) h0 (fun _ t _ t' _ ht hs => ?_) h
  obtain ⟨a, -, hg, hs⟩ := of_machine_step hs
  exact ht.step hg hs

/-- A write that is over by the notification words it has found left the step `WTryRepare`
    with one of them set. -/
theorem State.notifiedEnd_cases (h : t.notifiedEnd cfg c = some log) : ∃ f,
    (t.future c f).data.step = .wTryRepare ∧ log = ⟨c, (t.future c f).data.logId⟩ ∧
    ∃ s < cfg.numServers, ((t.future c f).entry (.read s)).notif ≠ 0 := by
  obtain ⟨call, -, h⟩ := Option.bind_eq_some_iff.1 h
  dsimp only at h
  split at h
  · next hs =>
    obtain ⟨⟨o, z, d'⟩, hd, h⟩ := Option.bind_eq_some_iff.1 h
    dsimp only at h
    split at h
    · next hend =>
      cases h
      exact ⟨call.future, hs, rfl, OopsDataFuture.exists_notif hd hs hend⟩
    · exact nomatch h
  · exact nomatch h

/-- In a run in which no write comes to the step `WTryRepare` with a notification word left, or
    finds one there that is set, without that of its own log entry being set, a write that is
    over by what it has found was notified before. -/
theorem notified_of_run (h : (machine cfg).Run (Notified.Guard cfg) tr t) :
    ∀ post pre c t₁ log, tr = post ++ (.run c, t₁) :: pre → t₁.notifiedEnd cfg c = some log →
      ∃ p ∈ pre, Notifies log p := by
  rintro post pre c t₁ log rfl hend
  obtain ⟨t₂, h₂, -⟩ := h.of_append
  obtain ⟨h₁, -, -⟩ := last_of_trace h₂
  obtain ⟨f, hs, rfl, s, hlt, hne⟩ := State.notifiedEnd_cases hend
  obtain ⟨s', -, hset⟩ := notifsOk_of_run h₁ c f hs s hlt hne
  exact exists_notifies_of_run h₁ hset

end Run

theorem racing_steady_mono (c : ℕ) :
    Monotone fun r => if 2 ≤ c ∨ r = 0 then 1000000 else 1001000 + 1000 * c := by
  intro a b h
  dsimp only
  split <;> split <;> omega

/-- Two servers, and four clients; the clock of the client `1` is ahead of the others'. -/
def racing : Layout where
  inPlace := false
  numClients := 4
  numServers := 2
  majority := 2
  numTsp := 3
  guessTs := true
  serverLogsPerClient := 2
  keysPerServer := 1
  asyncParallelism := 1
  deadServers := 0
  hashOf i d := i + d.value
  mainServerIdx _ := 0
  steady c r := if 2 ≤ c ∨ r = 0 then 1000000 else 1001000 + 1000 * c
  majority_pos := Nat.two_pos
  numTsp_pos := Nat.succ_pos 2
  mainServerIdx_lt _ := Nat.two_pos
  steady_mono := racing_steady_mono

namespace racing

/-- The client `2` inserts the key. -/
def inserted : List Action :=
  [.initClock 0, .initClock 1, .initClock 2, .initClock 3, .insert 2 0 ⟨0, 7⟩, .run 2] ++
    round 2 0 [0, 0, 0, 0, 1, 1, 1] [0, 1] 3 ++ round 2 0 [0, 1] [0, 1] 2

/-- The client `0` updates the key, on the server `0` at first. -/
def updating : List Action :=
  [.update 0 0 0 ⟨0, 9⟩, .run 0, .exec 0 0, .exec 0 0, .exec 0 0, .exec 0 0]

/-- The client `1` updates the key, with a greater tsp, on the server `1`. -/
def overtaking : List Action := [.update 1 0 0 ⟨0, 8⟩, .run 1, .exec 1 1, .exec 1 1, .exec 1 1]

/-- A client reads the greatest tsp twice, and so notifies its write on a server. -/
def notifying (c s : ℕ) : List Action :=
  [.read c 0 0, .run c] ++ round c 0 [0, 1] [0, 1] 1 ++ round c 0 [0, 1] [0, 1] 2 ++
    round c 0 [0, 1] [0, 1] 1 ++ round c 0 [0, 1] [0, 1] 2 ++ [.exec c s]

/-- The client `0` sees the greater tsp, reads its log entry and replicates it. -/
def replicating : List Action :=
  round 0 0 [1, 1, 1] [0, 1] 2 ++ round 0 0 [0, 1] [0, 1] 2 ++
    round 0 0 [0, 0, 0, 1] [0, 0, 1] 1

end racing

open racing in
/-- A write that is notified, and over by this. -/
theorem notified_of_run_racing : ∃ tr t, (machine racing).Run (Notified.Guard racing) tr t ∧
    (∃ pre t₁, tr = (.run 0, t₁) :: pre ∧ t₁.notifiedEnd racing 0 = some ⟨0, 0⟩) ∧
    ∀ post pre c t₁ log, tr = post ++ (.run c, t₁) :: pre →
      t₁.notifiedEnd racing c = some log → ∃ p ∈ pre, Notifies log p := by
  obtain ⟨tr, t, h, ht⟩ := Machine.exists_run_of_play
    (G := Notified.Guard racing) (m := machine racing)
    (fun r => decide (∃ p ∈ r.1.head?, p.1 = .run 0 ∧ p.2.notifiedEnd racing 0 = some ⟨0, 0⟩))
    (inserted ++ updating ++ notifying 2 0 ++ overtaking ++ notifying 3 1 ++ replicating)
    (b := true) (by decide +kernel)
  obtain ⟨⟨a, t₁⟩, hp, rfl, hend⟩ := of_decide_eq_true ht
  obtain ⟨pre, rfl⟩ := List.head?_eq_some_iff.1 hp
  exact ⟨_, t, h, ⟨pre, t₁, rfl, hend⟩, notified_of_run h⟩

open racing in
/-- Without the reader that notifies it, the write is over all the same: by the notification
    word of the write that it replicates. -/
theorem not_notified : ∃ tr t, (machine racing).Run (fun _ _ => True) tr t ∧
    ∃ pre t₁, tr = (.run 0, t₁) :: pre ∧ t₁.notifiedEnd racing 0 = some ⟨0, 0⟩ ∧
      ∀ p ∈ tr, ¬ Notifies ⟨0, 0⟩ p := by
  obtain ⟨tr, t, h, ht⟩ := Machine.exists_run_of_play
    (G := fun _ _ => True) (m := machine racing)
    (fun r => decide (∃ p ∈ r.1.head?, p.1 = .run 0 ∧
      p.2.notifiedEnd racing 0 = some ⟨0, 0⟩ ∧ ∀ q ∈ r.1, ¬ Notifies ⟨0, 0⟩ q))
    (inserted ++ updating ++ overtaking ++ notifying 3 1 ++ replicating)
    (b := true) (by decide +kernel)
  obtain ⟨⟨a, t₁⟩, hp, rfl, hend, hnot⟩ := of_decide_eq_true ht
  obtain ⟨pre, rfl⟩ := List.head?_eq_some_iff.1 hp
  exact ⟨_, t, h, pre, t₁, rfl, hend, hnot⟩

end DiscoSkip.SwarmKv
