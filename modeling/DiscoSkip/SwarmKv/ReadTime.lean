import DiscoSkip.SwarmKv.Seen.Ops
import DiscoSkip.SwarmKv.Seen.Run

/-!
# Reads do not go back in time

Once an operation is linearized, a slot of its key has its tsp, but for the verified bit,
and a read that starts from then on waits for all servers in use. So the read sees no
smaller tsp (`forward_of_run`), as long as no register is overtaken and no slot decreases
(`Slots.Guard`). But the new tsp that a write takes when it has lost to another may still be
smaller, though all clocks are set: `syncClock` subtracts unsigned words, and leaves a clock
behind where the steady clock has not come as far as the timestamp; and `newTs` only throws
below the greatest timestamp seen, not at it. The write swaps its tsp in all the same
(`not_forward`).
-/

namespace DiscoSkip.SwarmKv

open Lib

/-- The action that started the operation a future has. -/
def operation (tr : List (Action × State)) (c f : ℕ) : Option Action :=
  (tr.map Prod.fst).find? (·.starts c f)

/-- The key/value id of the update or read that a future has, and its tsp, once it is
    linearized: that of the entry written, or the greatest one seen. -/
def linearizedTsp (tr : List (Action × State)) (t : State) (c f : ℕ) : Option (ℕ × ℕ) :=
  let x := t.future c f
  if x.data.isLinearized then
    match operation tr c f with
    | some (.update _ _ kv _) => some (kv, (x.entry .write).kv.inPlaceTsp)
    | some (.read _ _ kv) => some (kv, x.data.maxreg.maxSeenTsp)
    | _ => none
  else none

variable {cfg : Layout} {b c f kv s : ℕ} {a : Action} {t t' : State}

namespace State

/-! ### What a step does to a future -/

/-- What a step does to a future, unless it starts an operation of it. -/
inductive Changes (cfg : Layout) (c f : ℕ) (t t' : State) : Prop
  /-- It may note another step, or progress. -/
  | stays (st : OopsStep) (progress : Bool) :
      t'.future c f = { t.future c f with step := st, progress } →
      t'.pending c f = t.pending c f →
      (∀ k ∈ (t'.client c).call, k.future = f → k.falls = 0 ∨ k ∈ (t.client c).call) →
      Changes cfg c f t t'
  | lands {s : ℕ} {q : Request} {rest : List Request} {v : Server} {entry : Ref → LogEntry} :
      t.pending c f s = q :: rest → t'.pending c f = put (t.pending c f) s rest →
      (t.server s).exec cfg c (t.future c f).entry s q.op = (v, entry) →
      t'.future c f = (t.future c f).landed s entry q.signaled →
      (t'.client c).call = (t.client c).call → Changes cfg c f t t'
  | polls {s : ℕ} : t'.future c f = (t.future c f).polled s → t'.pending c f = t.pending c f →
      (t'.client c).call = (t.client c).call → Changes cfg c f t t'
  | goes {k : Call} {o : Outcome} {z : Local} {d : OopsDataFuture} (st : OopsStep) :
      (t.client c).call = some k → k.future = f →
      (t.future c f).data.tryStepForward cfg c (t.localOf c f) = some (o, z, d) →
      t'.future c f = { t.future c f with step := st, entry := z.entry, data := d } →
      t'.pending c f = z.pending (t.pending c f) →
      (∀ k' ∈ (t'.client c).call, k'.falls = k.falls ∨ o = .callsFirst) → Changes cfg c f t t'
  | falls {k : Call} {progress : Bool} {z z' : Local} {d d₁ d' : OopsDataFuture}
      {step : DataStep} :
      (t.client c).call = some k → k.future = f → k.falls ≠ 0 →
      (t.future c f).data.tryStepForward cfg c (t.localOf c f) = some (.returns progress, z, d) →
      OopsDataFuture.AfterRead cfg d d₁ step →
      OopsDataFuture.enter cfg c z d₁ step = some (z', d') →
      t'.future c f = { t.future c f with entry := z'.entry, data := d' } →
      t'.pending c f = z'.pending (t.pending c f) → Changes cfg c f t t'

/-- A call of another future. -/
theorem changes_of_ne {c' f' : ℕ} {z : Local} {d : OopsDataFuture} {call : Option Call}
    {y : OopsFuture} {k : OopsState} (h : (c, f) ≠ (c', f'))
    (hk : ∀ k ∈ call, k.future = f') :
    Changes cfg c f t (((t.setClient c' k).setFuture c' f' y).setLocal c' f' z d call) := by
  refine .stays (t.future c f).step (t.future c f).progress ?_ ?_ ?_
  · rw [setLocal_future_of_ne h, setFuture_future_of_ne h, setClient_future]
  · rw [pending_setLocal_of_ne h]
    rfl
  · intro k hk' hf
    by_cases hc : c = c'
    · subst hc
      rw [setLocal_client_self] at hk'
      exact absurd (by rw [← hf, hk k hk']) h
    · rw [setLocal_client_of_ne hc, setFuture_client, setClient_client_of_ne hc] at hk'
      exact .inr hk'

/-- The same for one that has its operation already. -/
theorem changes_of_goesOn {c' f' : ℕ} {z : Local} {d : OopsDataFuture} {call : Option Call}
    (h : (c, f) ≠ (c', f')) (hk : ∀ k ∈ call, k.future = f') :
    Changes cfg c f t (t.setLocal c' f' z d call) := by
  have := @changes_of_ne cfg c f t c' f' z d call (t.future c' f') (t.client c') h hk
  rwa [setClient_eq_self, setFuture_eq_self] at this

/-- A future or client that stays as it is, but for the call, the step or the progress. -/
theorem changes_of_eq {st : OopsStep} {progress : Bool}
    (hx : t'.future c f = { t.future c f with step := st, progress })
    (hq : t'.queue = t.queue)
    (hk : ∀ k ∈ (t'.client c).call, k.falls = 0 ∨ k ∈ (t.client c).call) :
    Changes cfg c f t t' :=
  .stays st progress hx (by unfold pending; rw [hq]) fun k hk' _ => hk k hk'

theorem changes_of_runCall {k : Call} (hk : (t.client c).call = some k)
    (ht : t.runCall cfg c k = some t') : Changes cfg c k.future t t' := by
  obtain ⟨o, z, d, hd, ⟨k', hk', rfl⟩ | ⟨b, rfl, hn, rfl⟩ |
    ⟨b, n, d₁, st, z', d', rfl, hn, ha, he, rfl⟩⟩ := runCall_cases ht
  · refine .goes (t.future c k.future).step hk rfl hd setLocal_future_self
      pending_setLocal_self ?_
    rw [setLocal_client_self]
    rintro _ ⟨⟩
    obtain ⟨-, rfl⟩ | ⟨rfl, -⟩ := hk'
    · exact .inl rfl
    · exact .inr rfl
  · obtain ⟨cache, st, hr, -⟩ := @returned_cases cfg (t.setLocal c k.future z d none) c k.future
      (k.ticked && (k.progress || b))
    rw [hr]
    refine .goes st hk rfl hd ?_ pending_setLocal_self ?_
    · rw [setFuture_future_self, setLocal_future_self]
    · rw [setFuture_client, setClient_client_self]
      exact fun k' hk' => absurd hk' (Option.not_mem_none k')
  · exact .falls hk rfl (by rw [hn]; exact Nat.succ_ne_zero n) hd ha he setLocal_future_self
      pending_setLocal_self

theorem changes_of_step (ht : step cfg t a = some t') (ha : a.starts c f = false) :
    Changes cfg c f t t' := by
  have hne : ∀ {c' f'}, (decide (c' = c) && decide (f' = f)) = false → (c, f) ≠ (c', f') := by
    rintro c' f' h ⟨⟩
    simp at h
  cases a with
  | initClock c' =>
    simp only [step] at ht
    split at ht <;> cases ht
    refine changes_of_eq rfl rfl fun k hk => .inr ?_
    by_cases hc : c = c'
    · subst hc
      rwa [setClient_client_self] at hk
    · rwa [setClient_client_of_ne hc] at hk
  | insert c' f' v =>
    obtain ⟨-, y, z, d, -, -, rfl⟩ := startWrite_cases ht
    rw [setClient_setClient]
    refine changes_of_ne (hne ha) ?_
    rintro _ ⟨⟩
    rfl
  | update c' f' kv v =>
    obtain ⟨-, y, z, d, -, -, rfl⟩ := startWrite_cases ht
    refine changes_of_ne (hne ha) ?_
    rintro _ ⟨⟩
    rfl
  | read c' f' kv =>
    obtain ⟨-, z, d, -, rfl⟩ := startRead_cases ht
    have heq : ∀ y, t.setFuture c' f' y = (t.setClient c' (t.client c')).setFuture c' f' y :=
      fun y => by rw [setClient_eq_self]
    rw [heq]
    refine changes_of_ne (hne ha) ?_
    rintro _ ⟨⟩
    rfl
  | run c' =>
    obtain ⟨k, hk, ht⟩ := Option.bind_eq_some_iff.1 ht
    by_cases hc : (c, f) = (c', k.future)
    · cases hc
      exact changes_of_runCall hk ht
    · obtain ⟨o, z, d, -, ⟨k', hk', rfl⟩ | ⟨b, -, -, rfl⟩ |
        ⟨b, n, d₁, st, z', d', -, -, -, -, rfl⟩⟩ := runCall_cases ht
      · refine changes_of_goesOn hc ?_
        rintro _ ⟨⟩
        obtain ⟨-, rfl⟩ | ⟨-, rfl⟩ := hk' <;> rfl
      · obtain ⟨cache, st, hr, -⟩ := @returned_cases cfg (t.setLocal c' k.future z d none) c'
          k.future (k.ticked && (k.progress || b))
        rw [hr]
        refine .stays (t.future c f).step (t.future c f).progress ?_ ?_ ?_
        · rw [setFuture_future_of_ne hc, setClient_future, setLocal_future_of_ne hc]
        · exact pending_setLocal_of_ne hc
        · intro k₁ hk₁ _
          by_cases hc' : c = c'
          · subst hc'
            rw [setFuture_client, setClient_client_self] at hk₁
            exact absurd hk₁ (Option.not_mem_none k₁)
          · rw [setFuture_client, setClient_client_of_ne hc', setLocal_client_of_ne hc'] at hk₁
            exact .inr hk₁
      · refine changes_of_goesOn hc ?_
        rintro _ ⟨⟩
        rfl
  | exec c' s =>
    obtain ⟨f', req, rest, v, entry, hq, he, heq⟩ := execute_cases ht
    have hqueue : t'.queue = put t.queue c' (put (t.queue c') s rest) := by rw [heq]
    obtain ⟨rest', hp, hp', hother⟩ := pending_exec hq hqueue
    by_cases hc : (c, f) = (c', f')
    · cases hc
      refine .lands hp hp' he ?_ ?_
      · rw [heq]
        exact setFuture_future_self
      · rw [heq]
        rfl
    · refine .stays (t.future c f).step (t.future c f).progress ?_
        (hother c f hc) fun k hk _ => .inr ?_
      · rw [heq]
        exact setFuture_future_of_ne hc
      · rw [heq] at hk
        exact hk
  | poll c' s f' =>
    obtain ⟨-, rfl⟩ := poll_cases ht
    by_cases hc : (c, f) = (c', f')
    · cases hc
      exact .polls setFuture_future_self rfl rfl
    · exact changes_of_eq (setFuture_future_of_ne hc) rfl fun k hk => .inr hk
  | tick c' f' =>
    simp only [step] at ht
    split at ht <;> cases ht
    have hcall : ∀ k ∈ ((t.setClient c' { t.client c' with
        call := some ⟨f', true, false, 0⟩ }).client c).call,
        k.falls = 0 ∨ k ∈ (t.client c).call := by
      intro k hk
      by_cases hc : c = c'
      · subst hc
        rw [setClient_client_self] at hk
        obtain rfl := Option.some.inj hk
        exact .inl rfl
      · rw [setClient_client_of_ne hc] at hk
        exact .inr hk
    by_cases hc : (c, f) = (c', f')
    · cases hc
      exact changes_of_eq setFuture_future_self rfl hcall
    · exact changes_of_eq (setFuture_future_of_ne hc) rfl hcall
  | forget c' kv =>
    cases ht
    refine changes_of_eq rfl rfl fun k hk => .inr ?_
    by_cases hc : c = c'
    · subst hc
      rwa [setClient_client_self] at hk
    · rwa [setClient_client_of_ne hc] at hk

/-! ### Reads -/

/-- A future of the key that has seen the tsp `b` in the slots of a server, or looks for it. -/
structure Looking (cfg : Layout) (c f kv s b : ℕ) (t : State) : Prop where
  kvId : (t.future c f).kvId = kv
  slot : b ≤ cfg.maxTspOf ((t.server s).tsps kv)
  looks : (t.future c f).data.Looks cfg b s (t.future c f).entry (t.pending c f s)

/-- A read starts by looking for all that is in the slots of a server. -/
theorem looking_of_read (h : t.Sound cfg) (ht : step cfg t (.read c f kv) = some t') :
    Looking cfg c f kv s (cfg.maxTspOf ((t.server s).tsps kv)) t' := by
  obtain ⟨hf, z, d, he, rfl⟩ := startRead_cases ht
  have hdone := h.done_of_isFree hf
  refine ⟨?_, le_rfl, ?_⟩
  · rw [setLocal_future_self, setFuture_future_self]
  · rw [setLocal_future_self]
    refine OopsDataFuture.looks_of_enter ?_ he
    exact hdone

theorem Looking.of_changes (h : Looking cfg c f kv s b t) (hs : t.Sound cfg)
    (hmem : s ∈ cfg.servers kv) (hslot : b ≤ cfg.maxTspOf ((t'.server s).tsps kv))
    (hc : Changes cfg c f t t') : Looking cfg c f kv s b t' := by
  obtain ⟨rfl, hb, hl⟩ := h
  have hdata := hs.data c f
  have hlocal : (t.future c f).data.Sound cfg (t.top cfg (t.future c f).kvId)
      (t.future c f).kvId ((t.localOf c f).pending (t.pending c f))
      (t.future c f).completed (t.localOf c f).entry := by
    rw [localOf, pending_nil]
    exact hdata
  have hl' : (t.future c f).data.Looks cfg b s (t.localOf c f).entry
      ((t.localOf c f).pending (t.pending c f) s) := by
    rw [localOf, pending_nil]
    exact hl
  cases hc with
  | stays _ _ hx hp =>
    refine ⟨by rw [hx], hslot, ?_⟩
    rw [hx, hp]
    exact hl
  | @lands s' q rest v entry hq hp he hx =>
    refine ⟨by rw [hx]; rfl, hslot, ?_⟩
    rw [hx, hp]
    refine hl.imp_right ?_
    rintro ⟨hd, hr, hl⟩
    refine ⟨hd, hr, ?_⟩
    refine hl.exec (fun heq => heq ▸ hb) (hq.trans ?_) (fun _ hne => put_of_ne hne) ?_ he
    · rw [put_self]
    · exact (hdata.maxreg.reg s').slotsOf q (by rw [hq]; exact List.mem_cons_self)
  | @polls s' hx hp =>
    refine ⟨by rw [hx]; rfl, hslot, ?_⟩
    rw [hx, hp]
    refine hl.imp_right ?_
    rintro ⟨hd, hr, hl⟩
    refine ⟨hd, hr, ?_⟩
    exact RelaxedMaxReg.forall_setReg (I := fun s' y => s' = s →
      y.Looks cfg b s (t.future c f).entry (t.pending c f s)) (fun h => h ▸ hl)
      (fun _ _ h => h ▸ hl) s rfl
  | goes _ _ _ hd hx hp =>
    refine ⟨by rw [hx], hslot, ?_⟩
    rw [hx, hp]
    exact hl'.tryStepForward validateTsp_top hlocal hmem hd
  | falls hk hf hne hd ha he hx hp =>
    refine ⟨by rw [hx], hslot, .inl ?_⟩
    subst hf
    rw [hx]
    obtain ⟨-, -, hfall⟩ := hs.falls c _ hk hne
    exact (hl'.tryStepForward validateTsp_top hlocal hmem hd).afterRead
      (hfall.tryStepForward hd).1 ha he

/-- What a read looks for from its start, it has seen once it is linearized. -/
theorem Looking.of_trace (h0 : cfg.deadServers = 0) {tr₀ tr : List (Action × State)}
    (hrun : (machine cfg).Run (Slots.Guard cfg) tr₀ t)
    (h : Looking cfg c f kv s b t) (hmem : s ∈ cfg.servers kv)
    (ht : Trace ((machine cfg).Step (Slots.Guard cfg)) t tr t')
    (hno : ∀ e ∈ tr, e.1.starts c f = false) : Looking cfg c f kv s b t' := by
  refine Trace.invariant (P := fun tr t => (∀ e ∈ tr, e.1.starts c f = false) →
    Looking cfg c f kv s b t) (fun _ => h) (fun tr t₁ e t₂ htr ih hst hno => ?_) ht hno
  obtain ⟨a, rfl, hg, hst⟩ := of_machine_step hst
  obtain ⟨ha, hno⟩ := List.forall_mem_cons.1 hno
  have hs := seen_of_run h0 (hrun.append htr)
  refine (ih hno).of_changes hs hmem ((ih hno).slot.trans ?_) (changes_of_step hst ha)
  exact Layout.maxTspOf_le fun i hi =>
    (hs.slots.tsps_le hst s kv i).trans (Layout.le_maxTspOf hi)

/-! ### Updates -/

/-- A future of the key whose write has its tsp written, or seen. -/
structure Writing (cfg : Layout) (c f kv : ℕ) (t : State) : Prop where
  kvId : (t.future c f).kvId = kv
  wrote : (t.future c f).data.Wrote (cfg.mainServerIdx kv)
    ((t.future c f).entry .write).kv.inPlaceTsp
  falls : ∀ k ∈ (t.client c).call, k.future = f → k.falls = 0

theorem writing_of_update {v : Data} (ht : step cfg t (.update c f kv v) = some t') :
    Writing cfg c f kv t' := by
  obtain ⟨-, y, z, d, -, he, rfl⟩ := startWrite_cases ht
  refine ⟨?_, ?_, ?_⟩
  · rw [setLocal_future_self, setFuture_future_self]
  · rw [setLocal_future_self]
    exact OopsDataFuture.wrote_of_first he
  · rw [setLocal_client_self]
    rintro _ ⟨⟩ -
    rfl

theorem Writing.of_changes (h : Writing cfg c f kv t) (hs : t.Sound cfg)
    (hc : Changes cfg c f t t') : Writing cfg c f kv t' := by
  obtain ⟨rfl, hw, hf⟩ := h
  have hmem := @Layout.mainServerIdx_mem cfg (t.future c f).kvId
  cases hc with
  | stays _ _ hx _ hk =>
    refine ⟨by rw [hx], ?_, fun k hk' hkf => ?_⟩
    · rw [hx]
      exact hw
    · exact (hk k hk' hkf).elim id fun hk' => hf k hk' hkf
  | @lands s q _ v entry _ _ he hx hk =>
    refine ⟨by rw [hx]; rfl, ?_, fun k hk' hkf => hf k (hk ▸ hk') hkf⟩
    have hentry : entry .write = (t.future c f).entry .write := by
      have := @Server.exec_entry_of_ne cfg c s (t.server s) (t.future c f).entry q.op .write
        Ref.noConfusion
      rwa [he] at this
    rw [hx, show ((t.future c f).landed s entry q.signaled).entry = entry from rfl, hentry]
    exact hw
  | @polls s hx _ hk =>
    refine ⟨by rw [hx]; rfl, ?_, fun k hk' hkf => hf k (hk ▸ hk') hkf⟩
    rw [hx]
    exact OopsDataFuture.Wrote.polled hw
  | goes _ hk hkf hd hx hp hk' =>
    obtain ⟨hw', ho⟩ := OopsDataFuture.Wrote.tryStepForward (z := t.localOf c f) (hs.data c f)
      hmem hw hd
    refine ⟨by rw [hx], ?_, fun k' hk'' _ => ?_⟩
    · rw [hx]
      exact hw'
    · exact ((hk' k' hk'').resolve_right ho).trans (hf _ hk hkf)
  | falls hk hkf hne => exact absurd (hf _ hk hkf) hne

theorem Writing.of_trace (h0 : cfg.deadServers = 0) {tr₀ tr : List (Action × State)}
    (hrun : (machine cfg).Run (Slots.Guard cfg) tr₀ t) (h : Writing cfg c f kv t)
    (ht : Trace ((machine cfg).Step (Slots.Guard cfg)) t tr t')
    (hno : ∀ e ∈ tr, e.1.starts c f = false) : Writing cfg c f kv t' := by
  refine Trace.invariant (P := fun tr t => (∀ e ∈ tr, e.1.starts c f = false) →
    Writing cfg c f kv t) (fun _ => h) (fun tr t₁ e t₂ htr ih hst hno => ?_) ht hno
  obtain ⟨a, rfl, hg, hst⟩ := of_machine_step hst
  obtain ⟨ha, hno⟩ := List.forall_mem_cons.1 hno
  exact (ih hno).of_changes (seen_of_run h0 (hrun.append htr)) (changes_of_step hst ha)

/-- Once linearized, the tsp of a write is in some slot, but for the verified bit. -/
theorem Writing.le_top (h : Writing cfg c f kv t) (hs : t.Sound cfg)
    (hl : (t.future c f).data.isLinearized) :
    ((t.future c f).entry .write).kv.inPlaceTsp ≤ t.top cfg kv := by
  obtain ⟨rfl, hw, -⟩ := h
  have hle : ((t.future c f).entry .write).kv.inPlaceTsp ≤
      validateTsp (t.future c f).data.maxreg.maxSeenTsp := by
    simp only [OopsDataFuture.isLinearized, Bool.or_eq_true, decide_eq_true_eq] at hl
    obtain hd | hd := hl <;> simp only [OopsDataFuture.Wrote, hd] at hw <;> exact hw
  rw [← validateTsp_top]
  exact hle.trans (validateTsp_mono (hs.data c f).maxreg.seen)

end State

/-! ### Runs -/

/-- The last operation of a future that was started in a run is where all that came after is not
    another one. -/
theorem operation_eq {tr : List (Action × State)} (h : operation tr c f = some a) :
    ∃ tr₁ t₁ tr₂, tr = tr₁ ++ (a, t₁) :: tr₂ ∧ ∀ e ∈ tr₁, e.1.starts c f = false := by
  induction tr with
  | nil => exact nomatch h
  | cons e tr ih =>
    simp only [operation, List.map_cons, List.find?_cons] at h
    split at h
    · obtain rfl := Option.some.inj h
      exact ⟨[], e.2, tr, rfl, List.forall_mem_nil _⟩
    · next hs =>
      obtain ⟨tr₁, t₁, tr₂, rfl, htr₁⟩ := ih h
      exact ⟨e :: tr₁, t₁, tr₂, rfl, List.forall_mem_cons.2 ⟨hs, htr₁⟩⟩

variable {tr : List (Action × State)}

/-- The run of the operation of a future: up to its start, and from then on. -/
theorem trace_of_operation {t₀ : State} (h : operation tr c f = some a)
    (ht : Trace ((machine cfg).Step (Slots.Guard cfg)) t₀ tr t) : ∃ tr₁ t₁ tr₂ t₂,
    Trace ((machine cfg).Step (Slots.Guard cfg)) t₀ tr₂ t₁ ∧ step cfg t₁ a = some t₂ ∧
    Trace ((machine cfg).Step (Slots.Guard cfg)) t₀ ((a, t₁) :: tr₂) t₂ ∧
    Trace ((machine cfg).Step (Slots.Guard cfg)) t₂ tr₁ t ∧
    ∀ e ∈ tr₁, e.1.starts c f = false := by
  obtain ⟨tr₁, t₁, tr₂, rfl, hno⟩ := operation_eq h
  obtain ⟨t₂, h₂, h₁⟩ := ht.of_append
  obtain ⟨h₃, -, hst⟩ := last_of_trace h₂
  exact ⟨tr₁, t₁, tr₂, t₂, h₃, hst, h₂, h₁, hno⟩

theorem starts_of_operation (h : operation tr c f = some a) : a.starts c f :=
  List.find?_some h

theorem linearizedTsp_cases {tsp : ℕ} (h : linearizedTsp tr t c f = some (kv, tsp)) :
    (t.future c f).data.isLinearized ∧
      ((∃ v, operation tr c f = some (.update c f kv v) ∧
          tsp = ((t.future c f).entry .write).kv.inPlaceTsp) ∨
        operation tr c f = some (.read c f kv) ∧
          tsp = (t.future c f).data.maxreg.maxSeenTsp) := by
  simp only [linearizedTsp] at h
  split at h
  · next hl =>
    refine ⟨hl, ?_⟩
    split at h
    · next c' f' kv' v ho =>
      obtain ⟨rfl, rfl⟩ := Prod.mk.inj (Option.some.inj h)
      have hs := starts_of_operation ho
      simp only [Action.starts, Bool.and_eq_true, decide_eq_true_eq] at hs
      obtain ⟨rfl, rfl⟩ := hs
      exact .inl ⟨v, ho, rfl⟩
    · next c' f' kv' ho =>
      obtain ⟨rfl, rfl⟩ := Prod.mk.inj (Option.some.inj h)
      have hs := starts_of_operation ho
      simp only [Action.starts, Bool.and_eq_true, decide_eq_true_eq] at hs
      obtain ⟨rfl, rfl⟩ := hs
      exact .inr ⟨ho, rfl⟩
    · exact nomatch h
  · exact nomatch h

/-- No slot decreases, and so the greatest tsp does not. -/
theorem top_le_of_trace {tr₀ : List (Action × State)}
    (h : (machine cfg).Run (Slots.Guard cfg) tr₀ t)
    (ht : Trace ((machine cfg).Step (Slots.Guard cfg)) t tr t') : t.top cfg kv ≤ t'.top cfg kv := by
  refine Trace.invariant (P := fun _ t' => t.top cfg kv ≤ t'.top cfg kv) le_rfl
    (fun tr t₁ e t₂ htr ih hst => ih.trans ?_) ht
  obtain ⟨a, -, -, hst⟩ := of_machine_step hst
  exact State.top_mono ((slotsOk_of_run (h.append htr)).tsps_le hst)

/-- The tsp of an operation that is linearized is in some slot, but for the verified bit. -/
theorem linearizedTsp_le {tsp : ℕ} (h0 : cfg.deadServers = 0)
    (h : (machine cfg).Run (Slots.Guard cfg) tr t)
    (ho : linearizedTsp tr t c f = some (kv, tsp)) : tsp ≤ t.top cfg kv := by
  have hs := seen_of_run h0 h
  obtain ⟨hl, ⟨v, hop, rfl⟩ | ⟨hop, rfl⟩⟩ := linearizedTsp_cases ho
  all_goals obtain ⟨tr₁, t₁, tr₂, t₂, h₁, hst, h₂, htr, hno⟩ := trace_of_operation hop h
  · exact ((State.writing_of_update hst).of_trace h0 h₂ htr hno).le_top hs hl
  · have hread := State.looking_of_read (s := cfg.mainServerIdx kv) (seen_of_run h0 h₁) hst
    obtain ⟨rfl, -, -⟩ := hread.of_trace h0 h₂ Layout.mainServerIdx_mem htr hno
    exact (hs.data c f).maxreg.seen

/-- In a run in which no register is overtaken, while no server is dead, a read that starts once
    an operation on its key is linearized sees no smaller tsp, but for the verified bit. -/
theorem forward_of_run {c' f' tsp tsp' : ℕ} {tr' : List (Action × State)}
    (h0 : cfg.deadServers = 0) (h : (machine cfg).Run (Slots.Guard cfg) tr t)
    (ho : linearizedTsp tr t c f = some (kv, tsp))
    (h' : Trace ((machine cfg).Step (Slots.Guard cfg)) t tr' t')
    (hr : operation tr' c' f' = some (.read c' f' kv))
    (hl : linearizedTsp tr' t' c' f' = some (kv, tsp')) : tsp ≤ validateTsp tsp' := by
  obtain ⟨tr₁, t₁, tr₂, t₂, h₁, hst, h₂, htr, hno⟩ := trace_of_operation hr h'
  obtain ⟨hlin, ⟨v, ho', -⟩ | ⟨-, rfl⟩⟩ := linearizedTsp_cases hl
  · exact nomatch hr.symm.trans ho'
  calc tsp ≤ t.top cfg kv := linearizedTsp_le h0 h ho
    _ ≤ t₁.top cfg kv := top_le_of_trace h h₁
    _ ≤ _ := State.top_le fun s hs => ?_
  have hread := State.looking_of_read (s := s) (seen_of_run h0 (h.append h₁)) hst
  obtain ⟨-, -, hlook⟩ := hread.of_trace h0 (h.append h₂) hs htr hno
  refine hlook.resolve_right fun ⟨hd, _⟩ => ?_
  simp [OopsDataFuture.isLinearized, hd] at hlin

/-- Whether an update or read is that of a client whose clock is set. -/
def State.clockSet (t : State) : Action → Bool
  | .update c _ _ _ | .read c _ _ => (t.client c).clock.tsTimeOffset.isSome
  | _ => true

/-- Clients set their clocks before they update or read. -/
def ClocksSet (t : State) (a : Action) : Prop := t.clockSet a

instance (t : State) (a : Action) : Decidable (ClocksSet t a) :=
  inferInstanceAs (Decidable (t.clockSet a = true))

theorem behind_steady_mono (c : ℕ) : Monotone fun r =>
    if c = 1 then if r = 0 then 60000000000 else if r = 1 then 61000000000 else 360000000050
    else if r ≤ 1 then 1000000000000 else 1300000000000 := by
  intro a b h
  dsimp only
  split_ifs <;> omega

/-- One server with one slot, and three clients. The client `0` updates five minutes after it
    has set its clock; the machine of the client `1`, which was started a minute before that,
    stands still meanwhile, and so is at a minute and a second when it reads. It updates five
    minutes later. -/
def behind : Layout where
  inPlace := false
  numClients := 3
  numServers := 1
  majority := 1
  numTsp := 1
  guessTs := true
  serverLogsPerClient := 2
  keysPerServer := 1
  asyncParallelism := 1
  deadServers := 0
  hashOf i d := i + d.value
  mainServerIdx _ := 0
  steady c r :=
    if c = 1 then if r = 0 then 60000000000 else if r = 1 then 61000000000 else 360000000050
    else if r ≤ 1 then 1000000000000 else 1300000000000
  majority_pos := Nat.one_pos
  numTsp_pos := Nat.one_pos
  mainServerIdx_lt _ := Nat.one_pos
  steady_mono := behind_steady_mono

namespace behind

/-- The client `0` inserts the key, sets its clock, and then updates the key. -/
def written : List Action :=
  [.insert 0 0 ⟨0, 7⟩, .run 0] ++ round 0 0 [0, 0, 0] [0] 3 ++ round 0 0 [0] [0] 2 ++
    [.initClock 0, .update 0 0 0 ⟨0, 8⟩, .run 0] ++ round 0 0 [0, 0, 0] [0] 2 ++
    round 0 0 [0] [0] 2

/-- A client sets its clock and reads the key. -/
def reading (c : ℕ) : List Action :=
  [.initClock c, .read c 0 0, .run c] ++ round c 0 [0] [0] 1 ++ round c 0 [0] [0] 3

/-- The client `1` updates the key, with the same timestamp. -/
def overtaking : List Action :=
  [.update 1 0 0 ⟨0, 9⟩, .run 1, .run 1, .run 1] ++ round 1 0 [0] [0] 2

end behind

open behind in
/-- A read that sees the tsp of the update before it. -/
theorem forward_of_run_behind : ∃ tr t tr' t' tsp tsp',
    (machine behind).Run (Slots.Guard behind) tr t ∧ linearizedTsp tr t 0 0 = some (0, tsp) ∧
    Trace ((machine behind).Step (Slots.Guard behind)) t tr' t' ∧
    operation tr' 1 0 = some (.read 1 0 0) ∧ linearizedTsp tr' t' 1 0 = some (0, tsp') ∧
    tsp ≤ validateTsp tsp' := by
  obtain ⟨tr, t, tr', t', h, h', ht⟩ := Machine.exists_trace_of_play (G := Slots.Guard behind)
    (m := machine behind) (fun r r' =>
      (linearizedTsp r.1 r.2 0 0, operation r'.1 1 0, linearizedTsp r'.1 r'.2 1 0))
    written (reading 1) (b := (some (0, 2765000417887650053), some (.read 1 0 0),
      some (0, 2765000417887650053))) (by decide +kernel)
  obtain ⟨ho, ht⟩ := Prod.mk.inj ht
  obtain ⟨hr, hl⟩ := Prod.mk.inj ht
  exact ⟨tr, t, tr', t', _, _, h, ho, h', hr, hl, forward_of_run rfl h ho h' hr hl⟩

open behind in
/-- The update of the client `1` has seen the greater tsp of the one before it, but swaps it out
    for its own, and so the next read sees a smaller one. -/
theorem not_forward : ∃ tr t tr' t' tsp tsp',
    (machine behind).Run ClocksSet tr t ∧ linearizedTsp tr t 0 0 = some (0, tsp) ∧
    Trace ((machine behind).Step ClocksSet) t tr' t' ∧
    operation tr' 2 0 = some (.read 2 0 0) ∧ linearizedTsp tr' t' 2 0 = some (0, tsp') ∧
    (t'.future 2 0).data.isDone ∧ validateTsp tsp' < tsp := by
  obtain ⟨tr, t, tr', t', h, h', ht⟩ := Machine.exists_trace_of_play (G := ClocksSet)
    (m := machine behind) (fun r r' => (linearizedTsp r.1 r.2 0 0, operation r'.1 2 0,
      linearizedTsp r'.1 r'.2 2 0, (r'.2.future 2 0).data.isDone))
    written (reading 1 ++ overtaking ++ reading 2)
    (b := (some (0, 2765000417887650053), some (.read 2 0 0), some (0, 2765000417887649799), true))
    (by decide +kernel)
  obtain ⟨ho, ht⟩ := Prod.mk.inj ht
  obtain ⟨hr, ht⟩ := Prod.mk.inj ht
  obtain ⟨hl, hd⟩ := Prod.mk.inj ht
  exact ⟨tr, t, tr', t', _, _, h, ho, h', hr, hl, hd, by decide⟩

end DiscoSkip.SwarmKv
