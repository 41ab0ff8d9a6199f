import Mathlib.Data.Finset.Lattice.Fold
import Mathlib.Order.Lattice.Nat
import DiscoSkip.SwarmKv.Seen.Data

/-!
# What all futures know of the slots

In a run in which no register is overtaken, no future ever knows of a tsp that is greater
than all in the slots of its key on the servers in use, but for the verified bit
(`State.top`): not its registers, nor what they have not taken in yet, nor the pointer
cache of its client (`seen_of_run`).
-/

namespace DiscoSkip.SwarmKv

open Lib

variable {cfg : Layout} {c f m m' kv kv' s comp' : ℕ} {Q : ℕ → List Request} {comp : ℕ → ℕ}
  {z z' : Local} {entry entry' : Ref → LogEntry} {x : MaxReg} {r : RelaxedMaxReg}
  {d d' : OopsDataFuture} {o : Outcome} {q : Request} {v v' : Server} {t t' : State}

/-! ### What changes about a register -/

theorem Op.matters_eq_false {op : Op} (h : op.matters = false) :
    op.slotsOf = none ∧ op.fetches = false := by
  simpa [Op.matters] using h

/-- A register that is done is set to another key, with a hint within the bound. -/
theorem MaxReg.Sound.forKV {Q : List Request} {hint : Option ℕ}
    (h : x.Sound cfg m kv entry s Q comp') (hd : x.step = .done) (hh : hint.getD 0 ≤ m') :
    (x.forKV kv' hint).Sound cfg m' kv' entry s Q comp' := by
  have hno : ∀ q ∈ Q, q.op.slotsOf = none ∧ q.op.fetches = false := fun q hq =>
    Op.matters_eq_false (h.quiet (h.idle hd) q hq)
  have hs : x.step.swaps = false := by rw [hd]; rfl
  exact {
    remoteKv := rfl
    toPoll := h.toPoll
    idle := fun _ => h.idle hd
    ongoing := fun hne => absurd hd hne
    covered := h.covered
    slotsOf := fun q hq k hk => by simp [(hno q hq).1] at hk
    fetches := fun q hq hf => absurd ((hno q hq).2.symm.trans hf) Bool.false_ne_true
    seen := hh
    last := hh
    reads := fun hr => by
      rw [show (x.forKV kv' hint).step = .done from hd] at hr
      exact hr.elim (fun h => absurd h Bool.false_ne_true) fun h => RegStep.noConfusion h.1
    swapping := fun hr => absurd (hs.symm.trans hr) Bool.false_ne_true
    resting := fun _ => h.resting hs }

namespace RelaxedMaxReg.Sound

theorem forKV {hint : Option ℕ} {main : ℕ} (h : r.Sound cfg m kv Q comp entry)
    (hd : ∀ s, (r.reg s).step = .done) (hh : hint.getD 0 ≤ m') :
    (r.forKV cfg kv' main hint).Sound cfg m' kv' Q comp entry where
  reg s := by
    have hx : ((r.reg s).forKV kv' hint).Sound cfg m' kv' entry s (Q s) (comp s) :=
      (h.reg s).forKV (hd s) hh
    exact { hx with }
  seen := Nat.zero_le m'
  unused s _ := hd s
  ended _ := hd
  avoids := h.avoids

theorem mono (h : r.Sound cfg m kv Q comp entry) (hle : m ≤ m') :
    r.Sound cfg m' kv Q comp entry :=
  { h with
    reg := fun s => (h.reg s).mono hle
    seen := h.seen.trans hle }

/-- Only a step that reads to the buffers has one of them filled, and no register swaps
    meanwhile. -/
theorem swaps_of_fetches (h : r.Sound cfg m kv Q comp entry) (hq : q ∈ Q s) (hf : q.op.fetches)
    (s' : ℕ) : (r.reg s').step.swaps = false := by
  have hreg := (h.reg s).fetches q hq hf
  have hs := (h.avoids s).1
  have hs' := (h.avoids s').1
  unfold RelaxedStep.avoids at hs hs'
  split at hs
  · next hr => rwa [if_pos hr] at hs'
  · exact absurd (hs.symm.trans hreg) Bool.false_ne_true

/-- The first pending request to a server takes effect. -/
theorem exec {rest : List Request} (hm : validateTsp m' = m') (h : r.Sound cfg m kv Q comp entry)
    (hQ : Q s = q :: rest) (hle : m ≤ m')
    (hb : s ∈ cfg.servers kv → ∀ i < cfg.numTsp, v.tsps kv i ≤ m')
    (hb' : s ∈ cfg.servers kv → ∀ i < cfg.numTsp, v'.tsps kv i ≤ m')
    (hv : v.exec cfg c entry s q.op = (v', entry')) :
    r.Sound cfg m' kv (put Q s rest)
      (if q.signaled then put comp s (comp s + 1) else comp) entry' where
  reg s' := by
    by_cases hs : s' = s
    · subst hs
      have hmem : (r.reg s').step ≠ .done → s' ∈ cfg.servers kv := fun hne =>
        by_contra fun hn => hne (h.unused s' hn)
      have := (hQ ▸ h.reg s').exec hm hle (fun hne => hb (hmem hne)) (fun hne => hb' (hmem hne)) hv
      rw [put_self]
      cases hq : q.signaled <;> simpa [hq] using this
    · have hcomp : (if q.signaled then put comp s (comp s + 1) else comp) s' = comp s' := by
        split
        · exact put_of_ne hs
        · rfl
      rw [put_of_ne hs, hcomp]
      refine (h.reg s').exec_of_ne hs hle (fun hf => ?_) hv
      exact h.swaps_of_fetches (s := s) (by rw [hQ]; exact List.mem_cons_self) hf s'
  seen := h.seen.trans hle
  unused := h.unused
  ended := h.ended
  avoids := h.avoids

/-- A completion of a server is polled. -/
theorem polled (h : r.Sound cfg m kv Q comp entry) (hpos : 0 < comp s) :
    (r.setReg s { r.reg s with toPoll := (r.reg s).toPoll - 1 }).Sound cfg m kv Q
      (put comp s (comp s - 1)) entry where
  reg := by
    refine forall_setReg (I := fun s' y =>
      y.Sound cfg m kv entry s' (Q s') (put comp s (comp s - 1) s')) ?_ fun s' hs => ?_
    · rw [put_self]
      exact (h.reg s).polled.resolve_right hpos.ne'
    · rw [put_of_ne hs]
      exact h.reg s'
  seen := h.seen
  unused := forall_setReg (I := fun s' y => s' ∉ cfg.servers kv → y.step = .done) (h.unused s)
    fun s' _ => h.unused s'
  ended hd := forall_setReg (I := fun _ y => y.step = .done) (h.ended hd s)
    fun s' _ => h.ended hd s'
  avoids := forall_setReg (I := fun _ y => y.Avoids r.step.avoids) (h.avoids s)
    fun s' _ => h.avoids s'

/-- What the registers saw last in the slots of the client is within the bound. -/
theorem getMyTsp_le (h : r.Sound cfg m kv Q comp entry) : (r.getMyTsp cfg).getD 0 ≤ m := by
  unfold getMyTsp
  refine List.foldlRecOn (motive := fun a : Option ℕ => a.getD 0 ≤ m) _ _ (Nat.zero_le m)
    fun a ha s _ => ?_
  have hs := (h.reg s).last
  split
  · exact hs
  · next hv =>
    rw [hv] at hs
    exact max_le ha hs
  · exact ha

end RelaxedMaxReg.Sound

namespace OopsDataFuture

theorem Sound.mono (h : d.Sound cfg m kv Q comp entry) (hle : m ≤ m') :
    d.Sound cfg m' kv Q comp entry := { h with maxreg := h.maxreg.mono hle }

/-- At first, nothing was seen. -/
theorem Sound.new : new.Sound cfg m 0 (fun _ => []) (fun _ => 0) entry := by
  have hx (s : ℕ) : MaxReg.new.Sound cfg m 0 entry s [] 0 := {
    remoteKv := rfl
    toPoll := rfl
    idle := fun _ => rfl
    ongoing := fun hne => absurd rfl hne
    covered := trivial
    slotsOf := List.forall_mem_nil _
    fetches := List.forall_mem_nil _
    seen := Nat.zero_le m
    last := Nat.zero_le m
    reads := fun hr =>
      hr.elim (fun h => absurd h Bool.false_ne_true) fun h => RegStep.noConfusion h.1
    swapping := fun hs => absurd hs Bool.false_ne_true
    resting := fun _ => rfl }
  exact {
    maxreg := {
      reg := hx
      seen := Nat.zero_le m
      unused := fun _ _ => rfl
      ended := fun _ _ => rfl
      avoids := fun _ => ⟨rfl, nofun⟩ }
    allows := rfl
    used := fun hne => absurd rfl hne
    repare := DataStep.noConfusion }

/-- A future that is done stays so, and its call returns. -/
theorem returns_of_done (hd : d.step = .done)
    (h : tryStepForward cfg c z d = some (o, z', d')) : d'.step = .done ∧ ∃ b, o = .returns b := by
  obtain ⟨b, z₁, r₁, -, ⟨-, rfl, rfl⟩ | ⟨-, -, -, z₂, d₂, step, hf, -⟩⟩ := tryStepForward_cases h
  · exact ⟨hd, b, rfl⟩
  · exact absurd hd hf.ne_done

end OopsDataFuture

/-! ### The slots of a key -/

namespace State

/-- The greatest tsp in the slots of a key on the servers in use, marked verified. -/
def top (cfg : Layout) (t : State) (kv : ℕ) : ℕ :=
  validateTsp ((cfg.servers kv).toFinset.sup fun s => cfg.maxTspOf ((t.server s).tsps kv))

@[simp] theorem validateTsp_top : validateTsp (t.top cfg kv) = t.top cfg kv :=
  validateTsp_validateTsp _

theorem maxTspOf_le_top (hs : s ∈ cfg.servers kv) :
    cfg.maxTspOf ((t.server s).tsps kv) ≤ t.top cfg kv :=
  (Finset.le_sup (f := fun s => cfg.maxTspOf ((t.server s).tsps kv))
    (List.mem_toFinset.2 hs)).trans (le_validateTsp _)

theorem tsps_le_top (hs : s ∈ cfg.servers kv) : ∀ i < cfg.numTsp,
    (t.server s).tsps kv i ≤ t.top cfg kv :=
  fun _ hi => (Layout.le_maxTspOf hi).trans (maxTspOf_le_top hs)

/-- What bounds the slots of all servers in use, bounds what is below the top. -/
theorem top_le {b : ℕ} (h : ∀ s ∈ cfg.servers kv, cfg.maxTspOf ((t.server s).tsps kv) ≤ b) :
    t.top cfg kv ≤ validateTsp b :=
  validateTsp_mono (Finset.sup_le fun s hs => h s (List.mem_toFinset.1 hs))

theorem top_congr (h : t'.server = t.server) : t'.top cfg kv = t.top cfg kv := by
  rw [top, top, h]

theorem top_mono (h : ∀ s kv i, (t.server s).tsps kv i ≤ (t'.server s).tsps kv i) :
    t.top cfg kv ≤ t'.top cfg kv := by
  rw [← validateTsp_top (t := t')]
  exact top_le fun s hs => Layout.maxTspOf_le fun i hi => (h s kv i).trans (tsps_le_top hs i hi)

/-! ### The requests of a future -/

/-- The requests of a future that a server has not executed yet. -/
def pending (t : State) (c f s : ℕ) : List Request := ((t.queue c s).filter (·.1 = f)).map (·.2)

variable {call : Option Call}

theorem pending_setLocal_self :
    (t.setLocal c f z d call).pending c f = z.pending (t.pending c f) := by
  funext s
  have hf : (((z.posted.filter (·.1 = s)).map fun q => (f, q.2)).filter (·.1 = f)).map Prod.snd =
      z.postedTo s := by
    simp [Local.postedTo, List.filter_map, Function.comp_def]
  rw [pending, setLocal_queue_self, List.filter_append, List.map_append, hf]
  rfl

theorem pending_setLocal_of_ne {c' f' : ℕ} (h : (c', f') ≠ (c, f)) :
    (t.setLocal c f z d call).pending c' f' = t.pending c' f' := by
  funext s
  by_cases hc : c' = c
  · subst hc
    have hf : f ≠ f' := fun hf => h (by rw [hf])
    simp [pending, hf]
  · rw [pending, setLocal_queue_of_ne hc, pending]

theorem pending_nil {k : Clock} : (⟨k, entry, []⟩ : Local).pending Q = Q := by
  funext s
  simp [Local.pending, Local.postedTo]

/-- The first request to a server is none of its future's pending ones any more. -/
theorem pending_exec {rest : List (ℕ × Request)} (hq : t.queue c s = (f, q) :: rest)
    (hq' : t'.queue = put t.queue c (put (t.queue c) s rest)) :
    ∃ rest', t.pending c f s = q :: rest' ∧ t'.pending c f = put (t.pending c f) s rest' ∧
      ∀ c' f', (c', f') ≠ (c, f) → t'.pending c' f' = t.pending c' f' := by
  refine ⟨(rest.filter (·.1 = f)).map (·.2), by simp [pending, hq], ?_, fun c' f' hc => ?_⟩
  · funext s'
    by_cases hs : s' = s
    · subst hs
      simp [pending, hq']
    · simp [pending, hq', put_of_ne hs]
  · funext s'
    by_cases hc' : c' = c
    · subst hc'
      have hf : f ≠ f' := fun hf => hc (by rw [hf])
      by_cases hs : s' = s
      · subst hs
        simp [pending, hq', hq, hf]
      · simp [pending, hq', put_of_ne hs]
    · simp [pending, hq', put_of_ne hc']

/-! ### The run -/

/-- What is known of all futures, and of the pointer caches. A call that is to fall through has
    only this one to fall through from. -/
structure Sound (cfg : Layout) (t : State) : Prop where
  slots : t.SlotsOk
  data : ∀ c f, (t.future c f).data.Sound cfg (t.top cfg (t.future c f).kvId) (t.future c f).kvId
    (t.pending c f) (t.future c f).completed (t.future c f).entry
  ended : ∀ c f, (t.future c f).step = .done → (t.future c f).data.step = .done
  cache : ∀ c kv, ∀ v ∈ (t.client c).pointerCache kv, v ≤ t.top cfg kv
  falls : ∀ c, ∀ call ∈ (t.client c).call, call.falls ≠ 0 → call.falls = 1 ∧
    (t.future c call.future).step ≠ .done ∧
    (t.future c call.future).data.Falling cfg (t.future c call.future).kvId

namespace Sound

/-- A step that changes a future and its client only. -/
theorem change (h : t.Sound cfg) (hslots : t'.SlotsOk) (hserver : t'.server = t.server)
    (hclient : ∀ c' ≠ c, t'.client c' = t.client c')
    (hfuture : ∀ c' f', (c', f') ≠ (c, f) →
      t'.future c' f' = t.future c' f' ∧ t'.pending c' f' = t.pending c' f')
    (hdata : (t'.future c f).data.Sound cfg (t.top cfg (t'.future c f).kvId) (t'.future c f).kvId
      (t'.pending c f) (t'.future c f).completed (t'.future c f).entry)
    (hended : (t'.future c f).step = .done → (t'.future c f).data.step = .done)
    (hcache : ∀ kv, ∀ v ∈ (t'.client c).pointerCache kv, v ≤ t.top cfg kv)
    (hfalls : ∀ call ∈ (t'.client c).call, call.falls ≠ 0 → call.falls = 1 ∧
      (t'.future c call.future).step ≠ .done ∧
      (t'.future c call.future).data.Falling cfg (t'.future c call.future).kvId) :
    t'.Sound cfg where
  slots := hslots
  data c' f' := by
    rw [top_congr hserver]
    by_cases hc : (c', f') = (c, f)
    · cases hc
      exact hdata
    · obtain ⟨hf, hp⟩ := hfuture c' f' hc
      rw [hf, hp]
      exact h.data c' f'
  ended c' f' := by
    by_cases hc : (c', f') = (c, f)
    · cases hc
      exact hended
    · rw [(hfuture c' f' hc).1]
      exact h.ended c' f'
  cache c' kv := by
    rw [top_congr hserver]
    by_cases hc : c' = c
    · subst hc
      exact hcache kv
    · rw [hclient c' hc]
      exact h.cache c' kv
  falls c' call hk := by
    by_cases hc : c' = c
    · subst hc
      exact hfalls call hk
    · rw [hclient c' hc] at hk
      rw [(hfuture c' call.future fun heq => hc (Prod.mk.inj heq).1).1]
      exact h.falls c' call hk

/-- A client that changes neither its call, nor what it caches. -/
theorem setClient {k : OopsState} (h : t.Sound cfg)
    (hcall : ∀ call ∈ k.call, call.falls ≠ 0 → call ∈ (t.client c).call)
    (hcache : ∀ kv, ∀ v ∈ k.pointerCache kv, v ∈ (t.client c).pointerCache kv) :
    (t.setClient c k).Sound cfg := by
  refine h.change (c := c) (f := 0) h.slots.setClient rfl (fun c' hc => setClient_client_of_ne hc)
    (fun _ _ _ => ⟨rfl, rfl⟩) (h.data c 0) (h.ended c 0) (fun kv v hv => ?_) fun call hk hne => ?_
  · rw [setClient_client_self] at hv
    exact h.cache c kv v (hcache kv v hv)
  · rw [setClient_client_self] at hk
    exact h.falls c call (hcall call hk hne) hne

/-- A part of a call, of a future that may have been set to another operation before. -/
theorem setLocal {y : OopsFuture} {k : OopsState} (h : t.Sound cfg)
    (hslots : (((t.setClient c k).setFuture c f y).setLocal c f z d call).SlotsOk)
    (hdata : d.Sound cfg (t.top cfg y.kvId) y.kvId (z.pending (t.pending c f)) y.completed z.entry)
    (hended : y.step = .done → d.step = .done)
    (hcache : k.pointerCache = (t.client c).pointerCache)
    (hfalls : ∀ k ∈ call, k.falls ≠ 0 →
      k.falls = 1 ∧ k.future = f ∧ y.step ≠ .done ∧ d.Falling cfg y.kvId) :
    (((t.setClient c k).setFuture c f y).setLocal c f z d call).Sound cfg := by
  refine h.change (c := c) (f := f) hslots rfl (fun c' hc => ?_) (fun c' f' hc => ⟨?_, ?_⟩) ?_ ?_
    (fun kv v hv => ?_) fun call hk hne => ?_
  · rw [setLocal_client_of_ne hc, setFuture_client, setClient_client_of_ne hc]
  · rw [setLocal_future_of_ne hc, setFuture_future_of_ne hc, setClient_future]
  · rw [pending_setLocal_of_ne hc]
    rfl
  · rw [setLocal_future_self, setFuture_future_self, pending_setLocal_self]
    exact hdata
  · rw [setLocal_future_self, setFuture_future_self]
    exact hended
  · rw [setLocal_client_self, setFuture_client, setClient_client_self] at hv
    exact h.cache c kv v (hcache ▸ hv)
  · rw [setLocal_client_self] at hk
    obtain ⟨h₁, rfl, h₂, h₃⟩ := hfalls call hk hne
    rw [setLocal_future_self, setFuture_future_self]
    exact ⟨h₁, h₂, h₃⟩

/-- A future that is free has all its registers done. -/
theorem done_of_isFree (h : t.Sound cfg) (hf : t.isFree cfg c f) :
    ∀ s, ((t.future c f).data.maxreg.reg s).step = .done := by
  simp only [isFree, Bool.and_eq_true, decide_eq_true_eq] at hf
  have ha := (h.data c f).allows
  rw [h.ended c f hf.2] at ha
  exact (h.data c f).maxreg.ended ha

theorem cached_le (h : t.Sound cfg) : ((t.client c).pointerCache kv).getD 0 ≤ t.top cfg kv := by
  cases hc : (t.client c).pointerCache kv with
  | none => exact Nat.zero_le _
  | some v => exact h.cache c kv v hc

/-- The first step of an operation of a free future, with a hint within the bound. -/
theorem enters (h0 : cfg.deadServers = 0) (h : t.Sound cfg) (hf : t.isFree cfg c f)
    {hint : Option ℕ} (hh : hint.getD 0 ≤ t.top cfg kv) {k : Clock}
    (he : ∀ p, p ≠ .write → entry p = (t.future c f).entry p)
    (hd : d.maxreg = (t.future c f).data.maxreg.forKV cfg kv (cfg.mainServerIdx kv) hint)
    {step : DataStep} (hs : step ≠ .linearized ∧ step ≠ .done)
    (ht : OopsDataFuture.enter cfg c ⟨k, entry, []⟩ d step = some (z', d')) :
    d'.Sound cfg (t.top cfg kv) kv (z'.pending (t.pending c f)) (t.future c f).completed
      z'.entry := by
  have hdone := h.done_of_isFree hf
  have hw := (h.data c f).maxreg.of_write he fun s hs => by
    rw [hdone s] at hs
    exact absurd hs Bool.false_ne_true
  refine OopsDataFuture.enter_sound validateTsp_top ?_ (fun _ => ?_) (.inl fun s => ?_)
    (fun h => (h.elim hs.1 hs.2).elim) ht
  · rw [pending_nil, hd]
    exact hw.forKV hdone hh
  · rw [hd]
    exact RelaxedMaxReg.usedServers_forKV h0
  · rw [hd]
    exact hdone s

theorem startWrite (h0 : cfg.deadServers = 0) (h : t.Sound cfg) {dat : Data} {step : OopsStep}
    {cached : Option ℕ} (hstep : step ≠ .done) (hh : cached.getD 0 ≤ t.top cfg kv)
    (hslots : t'.SlotsOk) (ht : t.startWrite cfg c f kv dat step cached = some t') :
    t'.Sound cfg := by
  obtain ⟨hf, y, z, d, hy, he, rfl⟩ := startWrite_cases ht
  obtain ⟨tsp, -, rfl⟩ := prepareToWrite_cases hy
  refine h.setLocal hslots ?_ (fun hs => absurd hs hstep) rfl ?_
  · exact h.enters h0 hf hh (fun p hp => put_of_ne hp) rfl
      ⟨DataStep.noConfusion, DataStep.noConfusion⟩ he
  · rintro _ ⟨⟩ hne
    exact absurd rfl hne

theorem startRead (h0 : cfg.deadServers = 0) (h : t.Sound cfg) (hslots : t'.SlotsOk)
    (ht : t.startRead cfg c f kv = some t') : t'.Sound cfg := by
  obtain ⟨hf, z, d, he, rfl⟩ := startRead_cases ht
  generalize hy : ({ t.future c f with step := .readData, kvId := kv } : OopsFuture) = y at *
  have heq : t.setFuture c f y = (t.setClient c (t.client c)).setFuture c f y := by
    rw [setClient_eq_self]
  rw [heq] at hslots ⊢
  subst hy
  refine h.setLocal hslots ?_ OopsStep.noConfusion rfl ?_
  · exact h.enters h0 hf h.cached_le (fun p _ => rfl) rfl
      ⟨DataStep.noConfusion, DataStep.noConfusion⟩ he
  · rintro _ ⟨⟩ hne
    exact absurd rfl hne

/-- A part of a call of the operation a future has. -/
theorem goesOn (h : t.Sound cfg) (hslots : (t.setLocal c f z d call).SlotsOk)
    (hdata : d.Sound cfg (t.top cfg (t.future c f).kvId) (t.future c f).kvId
      (z.pending (t.pending c f)) (t.future c f).completed z.entry)
    (hended : (t.future c f).step = .done → d.step = .done)
    (hfalls : ∀ k ∈ call, k.falls ≠ 0 → k.falls = 1 ∧ k.future = f ∧ (t.future c f).step ≠ .done ∧
      d.Falling cfg (t.future c f).kvId) : (t.setLocal c f z d call).Sound cfg := by
  have heq : t = (t.setClient c (t.client c)).setFuture c f (t.future c f) := by
    rw [setClient_eq_self, setFuture_eq_self]
  have := @setLocal cfg c f z d t call (t.future c f) (t.client c) h (heq ▸ hslots) hdata hended rfl
    hfalls
  rwa [← heq] at this

/-- A call returns. -/
theorem returned {told : Bool} (h : t.Sound cfg) (hslots : (t.returned cfg c f told).SlotsOk) :
    (t.returned cfg c f told).Sound cfg := by
  obtain ⟨cache, st, hr, hst, hcache⟩ := @returned_cases cfg t c f told
  rw [hr] at hslots ⊢
  refine h.change (c := c) (f := f) hslots rfl (fun c' hc => ?_) (fun c' f' hc => ⟨?_, rfl⟩) ?_
    (fun hd => ?_) (fun kv v hv => ?_) fun call hk => ?_
  · rw [setFuture_client, setClient_client_of_ne hc]
  · rw [setFuture_future_of_ne hc, setClient_future]
  · rw [setFuture_future_self]
    exact h.data c f
  · rw [setFuture_future_self] at hd ⊢
    obtain rfl | ⟨-, hdone⟩ | ⟨rfl, -⟩ := hst
    · exact h.ended c f hd
    · exact of_decide_eq_true hdone
    · exact OopsStep.noConfusion hd
  · rw [setFuture_client, setClient_client_self] at hv
    obtain rfl | ⟨-, w, hw, rfl⟩ := hcache
    · exact h.cache c kv v hv
    · by_cases hkv : kv = (t.future c f).kvId
      · subst hkv
        simp only [put_self, Option.mem_def, Option.some.injEq] at hv
        subst hv
        exact hw.trans (validateTsp_top (t := t) ▸
          validateTsp_mono (h.data c f).maxreg.getMyTsp_le)
      · exact h.cache c kv v (by simpa [put_of_ne hkv] using hv)
  · rw [setFuture_client, setClient_client_self] at hk
    exact absurd hk (Option.not_mem_none call)

/-- A call goes on. -/
theorem runCall {k : Call} (h : t.Sound cfg) (hk : (t.client c).call = some k)
    (hg : (t.future c k.future).data.maxreg.overtaken cfg c (t.localOf c k.future) = false)
    (ht : t.runCall cfg c k = some t') : t'.Sound cfg := by
  have hslots := h.slots.runCall hg ht
  obtain ⟨o, z, d, hd, hcases⟩ := runCall_cases ht
  have hlocal : (t.future c k.future).data.Sound cfg (t.top cfg (t.future c k.future).kvId)
      (t.future c k.future).kvId ((t.localOf c k.future).pending (t.pending c k.future))
      (t.future c k.future).completed (t.localOf c k.future).entry := by
    rw [localOf, pending_nil]
    exact h.data c k.future
  have hdata := hlocal.tryStepForward validateTsp_top hd
  have hended : (t.future c k.future).step = .done → d.step = .done ∧ ∃ b, o = .returns b :=
    fun hs => OopsDataFuture.returns_of_done (h.ended c _ hs) hd
  have hfalls : k.falls ≠ 0 → k.falls = 1 ∧ (t.future c k.future).step ≠ .done ∧
      d.Falling cfg (t.future c k.future).kvId ∧ o ≠ .callsFirst := fun hne => by
    obtain ⟨h₁, h₂, h₃⟩ := h.falls c k hk hne
    exact ⟨h₁, h₂, h₃.tryStepForward hd⟩
  obtain ⟨k', ⟨rfl, rfl⟩ | ⟨rfl, rfl⟩, rfl⟩ | ⟨b, rfl, hn, rfl⟩ |
    ⟨b, n, d₁, step, z', d', rfl, hn, ha, he, rfl⟩ := hcases
  · refine h.goesOn hslots hdata (fun hs => (hended hs).1) ?_
    rintro _ ⟨⟩ hne
    obtain ⟨h₁, h₂, h₃, -⟩ := hfalls hne
    exact ⟨h₁, rfl, h₂, h₃⟩
  · refine h.goesOn hslots hdata (fun hs => (hended hs).1) ?_
    rintro _ ⟨⟩ -
    have hk0 : k.falls = 0 := by_contra fun hne => (hfalls hne).2.2.2 rfl
    refine ⟨by rw [hk0], rfl, fun hs => ?_, ?_⟩
    · obtain ⟨-, b, hb⟩ := hended hs
      exact Outcome.noConfusion hb
    · exact OopsDataFuture.falling_of_callsFirst validateTsp_top hlocal hd
  · have hok := OopsDataFuture.tryStepForward_ok h.slots.localOf hg hd
    have hret : (t.setLocal c k.future z d none).Sound cfg :=
      h.goesOn (h.slots.setLocal hok) hdata (fun hs => (hended hs).1)
        fun k hk => absurd hk (Option.not_mem_none k)
    exact hret.returned hslots
  · obtain ⟨h₁, h₂, h₃, -⟩ := hfalls (by rw [hn]; exact Nat.succ_ne_zero n)
    refine h.goesOn hslots (h₃.afterRead validateTsp_top hdata ha he) (fun hs => absurd hs h₂) ?_
    rintro _ ⟨⟩ hne
    -- only one call was to fall through
    dsimp only at hne
    omega

/-- A request takes effect. -/
theorem execute (h : t.Sound cfg) (ht : SwarmKv.step cfg t (.exec c s) = some t') :
    t'.Sound cfg := by
  have hle := h.slots.tsps_le ht
  have hslots : t'.SlotsOk := h.slots.step (a := .exec c s) trivial ht
  have htop := fun kv => @top_mono cfg kv t _ hle
  obtain ⟨f, req, rest, v, entry, hq, he, heq⟩ := execute_cases ht
  have hserver : t'.server s = v := by
    rw [heq]
    exact put_self _ _ _
  have hself : t'.future c f = (t.future c f).landed s entry req.signaled := by
    rw [heq]
    exact setFuture_future_self
  have hne : ∀ c' f', (c', f') ≠ (c, f) → t'.future c' f' = t.future c' f' := fun c' f' hc => by
    rw [heq]
    exact setFuture_future_of_ne hc
  have hsame : ∀ c' f', (t'.future c' f').step = (t.future c' f').step ∧
      (t'.future c' f').kvId = (t.future c' f').kvId ∧
      (t'.future c' f').data = (t.future c' f').data := fun c' f' => by
    by_cases hc : (c', f') = (c, f)
    · cases hc
      rw [hself]
      exact ⟨rfl, rfl, rfl⟩
    · rw [hne c' f' hc]
      exact ⟨rfl, rfl, rfl⟩
  have hqueue : t'.queue = put t.queue c (put (t.queue c) s rest) := by rw [heq]
  obtain ⟨rest', hp, hp', hother⟩ := pending_exec hq hqueue
  refine ⟨hslots, fun c' f' => ?_, fun c' f' => ?_, fun c' kv w hw => ?_, fun c' k hk hn => ?_⟩
  · by_cases hc : (c', f') = (c, f)
    · cases hc
      have hdata := h.data c f
      rw [hself, hp']
      refine { hdata with maxreg := hdata.maxreg.exec validateTsp_top hp (htop _) ?_ ?_ he }
      · exact fun hs i hi => (tsps_le_top hs i hi).trans (htop _)
      · exact fun hs => hserver ▸ tsps_le_top hs
    · rw [hne c' f' hc, hother c' f' hc]
      exact (h.data c' f').mono (htop _)
  · rw [(hsame c' f').1, (hsame c' f').2.2]
    exact h.ended c' f'
  · rw [show t'.client = t.client by rw [heq]; rfl] at hw
    exact (h.cache c' kv w hw).trans (htop kv)
  · rw [show t'.client = t.client by rw [heq]; rfl] at hk
    obtain ⟨hs, hkv, hd⟩ := hsame c' k.future
    rw [hs, hkv, hd]
    exact h.falls c' k hk hn

/-- A completion is polled, while its client is in no call. -/
theorem poll (h : t.Sound cfg) (hslots : t'.SlotsOk) (ht : t.poll c s f = some t') :
    t'.Sound cfg := by
  unfold State.poll at ht
  split at ht
  · next hc =>
    cases ht
    have hdata := h.data c f
    refine h.change (c := c) (f := f) hslots rfl (fun c' _ => rfl)
      (fun c' f' hc => ⟨setFuture_future_of_ne hc, rfl⟩) ?_ (fun hd => ?_) (h.cache c)
      fun call hk => ?_
    · rw [setFuture_future_self]
      exact {
        maxreg := hdata.maxreg.polled hc.2
        allows := hdata.allows
        used := fun hne => by
          refine (RelaxedMaxReg.usedServers_congr ?_).trans (hdata.used hne)
          exact RelaxedMaxReg.forall_setReg (I := fun s' y =>
            y.lazynessLevel = ((t.future c f).data.maxreg.reg s').lazynessLevel) rfl fun _ _ => rfl
        repare := fun hr => RelaxedMaxReg.forall_setReg (I := fun _ y => y.Replicates)
          (hdata.repare hr s) fun s' _ => hdata.repare hr s' }
    · rw [setFuture_future_self] at hd ⊢
      exact h.ended c f hd
    · have hnone := hc.1
      rw [setFuture_client] at hk
      rw [Option.mem_def.1 hk] at hnone
      exact nomatch hnone
  · exact nomatch ht

/-- A future is about to be stepped forward. -/
theorem tick (h : t.Sound cfg) (hslots : t'.SlotsOk)
    (ht : SwarmKv.step cfg t (.tick c f) = some t') : t'.Sound cfg := by
  simp only [SwarmKv.step] at ht
  split at ht <;> cases ht
  refine h.change (c := c) (f := f) hslots rfl (fun c' hc => ?_)
    (fun c' f' hc => ⟨setFuture_future_of_ne hc, rfl⟩) ?_ (fun hd => ?_) (fun kv w hw => ?_) ?_
  · rw [setFuture_client, setClient_client_of_ne hc]
  · rw [setFuture_future_self]
    exact h.data c f
  · rw [setFuture_future_self] at hd ⊢
    exact h.ended c f hd
  · rw [setFuture_client, setClient_client_self] at hw
    exact h.cache c kv w hw
  · rw [setFuture_client, setClient_client_self]
    rintro _ ⟨⟩ hne
    exact absurd rfl hne

theorem step {a : Action} (h0 : cfg.deadServers = 0) (h : t.Sound cfg) (hg : Slots.Guard cfg t a)
    (ht : SwarmKv.step cfg t a = some t') : t'.Sound cfg := by
  have hslots := h.slots.step hg ht
  cases a with
  | initClock c =>
    simp only [SwarmKv.step] at ht
    split at ht <;> cases ht
    exact h.setClient (fun _ hk _ => hk) fun _ _ hv => hv
  | insert c f v =>
    refine (h.setClient (fun call hk _ => ?_) fun kv w hw => ?_).startWrite h0 OopsStep.noConfusion
      (Nat.zero_le _) hslots ht
    · exact hk
    · exact hw
  | update c f kv v => exact h.startWrite h0 OopsStep.noConfusion h.cached_le hslots ht
  | read c f kv => exact h.startRead h0 hslots ht
  | run c =>
    obtain ⟨k, hk, ht⟩ := Option.bind_eq_some_iff.1 ht
    exact h.runCall hk (hg k hk) ht
  | exec c s => exact h.execute ht
  | poll c s f => exact h.poll hslots ht
  | tick c f => exact h.tick hslots ht
  | forget c kv =>
    cases ht
    refine h.setClient (fun _ hk _ => hk) fun kv' w hw => ?_
    by_cases hkv : kv' = kv
    · subst hkv
      simp at hw
    · simpa [put_of_ne hkv] using hw

end Sound

end State

/-- In a run in which no register is overtaken, while no server is dead, nothing that the
    futures and the clients know is greater than all in the slots. -/
theorem seen_of_run {tr : List (Action × State)} (h0 : cfg.deadServers = 0)
    (h : (machine cfg).Run (Slots.Guard cfg) tr t) : t.Sound cfg := by
  have hinit : (machine cfg).init.Sound cfg := {
    slots := slotsOk_of_run .nil
    data := fun _ _ => .new
    ended := fun _ _ _ => rfl
    cache := nofun
    falls := nofun }
  refine Trace.invariant (P := fun _ => State.Sound cfg) hinit (fun _ t _ t' _ ht hs => ?_) h
  obtain ⟨a, -, hg, hs⟩ := of_machine_step hs
  exact ht.step h0 hg hs

end DiscoSkip.SwarmKv
