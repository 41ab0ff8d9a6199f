import DiscoSkip.SwarmKv.OopsClient
import DiscoSkip.SwarmKv.OopsDataFuture.Steps

/-!
# What the actions do

A client starts an operation by setting up its first step (`startWrite_cases`,
`startRead_cases`), and goes on with a call by one part of it (`runCall_cases`).
-/

namespace DiscoSkip.SwarmKv

open Lib

namespace State

variable {cfg : Layout} {t t' : State} {c f s : ℕ} {z : Local} {d : OopsDataFuture}
  {call : Option Call} {x : OopsFuture} {k : OopsState}

/-! ### Setting parts of the state -/

@[simp] theorem setClient_server : (t.setClient c k).server = t.server := rfl

@[simp] theorem setClient_future : (t.setClient c k).future = t.future := rfl

@[simp] theorem setClient_queue : (t.setClient c k).queue = t.queue := rfl

@[simp] theorem setClient_client_self : (t.setClient c k).client c = k := put_self _ _ _

theorem setClient_client_of_ne {c' : ℕ} (h : c' ≠ c) : (t.setClient c k).client c' = t.client c' :=
  put_of_ne h

@[simp] theorem setFuture_server : (t.setFuture c f x).server = t.server := rfl

@[simp] theorem setFuture_client : (t.setFuture c f x).client = t.client := rfl

@[simp] theorem setFuture_queue : (t.setFuture c f x).queue = t.queue := rfl

@[simp] theorem setFuture_future_self : (t.setFuture c f x).future c f = x := by simp [setFuture]

theorem setFuture_future_of_ne {c' f' : ℕ} (h : (c', f') ≠ (c, f)) :
    (t.setFuture c f x).future c' f' = t.future c' f' := by
  by_cases hc : c' = c
  · subst hc
    have hf : f' ≠ f := fun hf => h (by rw [hf])
    simp [setFuture, put_of_ne hf]
  · simp [setFuture, put_of_ne hc]

@[simp] theorem setLocal_server : (t.setLocal c f z d call).server = t.server := rfl

@[simp] theorem setLocal_client_self : (t.setLocal c f z d call).client c =
    { t.client c with clock := z.clock, call } := put_self _ _ _

theorem setLocal_client_of_ne {c' : ℕ} (h : c' ≠ c) :
    (t.setLocal c f z d call).client c' = t.client c' := put_of_ne h

@[simp] theorem setLocal_future_self : (t.setLocal c f z d call).future c f =
    { t.future c f with entry := z.entry, data := d } := setFuture_future_self

theorem setLocal_future_of_ne {c' f' : ℕ} (h : (c', f') ≠ (c, f)) :
    (t.setLocal c f z d call).future c' f' = t.future c' f' := setFuture_future_of_ne h

@[simp] theorem setLocal_queue_self : (t.setLocal c f z d call).queue c s =
    t.queue c s ++ (z.posted.filter (·.1 = s)).map fun q => (f, q.2) := by
  simp [setLocal, postAll]

theorem setLocal_queue_of_ne {c' : ℕ} (h : c' ≠ c) :
    (t.setLocal c f z d call).queue c' = t.queue c' := put_of_ne h

@[simp] theorem setClient_setClient {k' : OopsState} :
    (t.setClient c k).setClient c k' = t.setClient c k' := by simp [setClient]

@[simp] theorem setClient_eq_self : t.setClient c (t.client c) = t := by simp [setClient]

@[simp] theorem setFuture_eq_self : t.setFuture c f (t.future c f) = t := by
  simp [setFuture]

/-- What a call may leave behind as it returns: a tsp in the pointer cache, if the operation
    is linearized, and the step of the future. -/
structure Leaves (cfg : Layout) (x : OopsFuture) (old cache : ℕ → Option ℕ) (st : OopsStep) :
    Prop where
  step : st = x.step ∨ st = .done ∧ x.data.isDone ∨ st = .linearized ∧ x.data.isLinearized
  cache : cache = old ∨ x.data.isLinearized ∧ ∃ v,
    v ≤ validateTsp ((x.data.maxreg.getMyTsp cfg).getD 0) ∧ cache = put old x.kvId (some v)

theorem returned_cases (told : Bool) : ∃ cache st, t.returned cfg c f told =
      (t.setClient c { t.client c with call := none, pointerCache := cache }).setFuture c f
        { t.future c f with step := st } ∧
    Leaves cfg (t.future c f) (t.client c).pointerCache cache st := by
  have hsame : t.setClient c { t.client c with call := none } =
      (t.setClient c { t.client c with call := none }).setFuture c f (t.future c f) :=
    setFuture_eq_self.symm
  have hlin (h : (t.future c f).data.isDone) : (t.future c f).data.isLinearized := by
    simp_all [OopsDataFuture.isDone, OopsDataFuture.isLinearized]
  have hdone (h : (t.future c f).data.isDone) : Leaves cfg (t.future c f) (t.client c).pointerCache
      (t.client c).pointerCache .done := ⟨.inr (.inl ⟨rfl, h⟩), .inl rfl⟩
  have hstay : Leaves cfg (t.future c f) (t.client c).pointerCache (t.client c).pointerCache
      (t.future c f).step := ⟨.inl rfl, .inl rfl⟩
  unfold returned
  dsimp only
  split
  · exact ⟨_, _, hsame, hstay⟩
  · simp only [setClient_future, setClient_client_self]
    by_cases hd : (t.future c f).data.isDone
    · simp only [hd, if_true]
      split
      case h_1 => exact ⟨_, _, rfl, hdone hd⟩
      case h_4 => exact ⟨_, _, rfl, hdone hd⟩
      case h_5 => exact ⟨_, _, hsame, hstay⟩
      all_goals
        refine ⟨_, _, ?_, (hdone hd).step, .inr ⟨hlin hd, _, le_validateTsp _, rfl⟩⟩
        simp
    · simp only [hd, if_false, Bool.false_eq_true]
      by_cases hl : (t.future c f).data.isLinearized
      · simp only [hl, if_true]
        split
        case h_1 => exact ⟨_, _, hsame, hstay⟩
        case h_4 => exact ⟨_, _, hsame, hstay⟩
        case h_5 => exact ⟨_, _, hsame, hstay⟩
        all_goals
          refine ⟨_, .linearized, ?_, .inr (.inr ⟨rfl, hl⟩), .inr ⟨hl, _, le_rfl, rfl⟩⟩
          simp
      · simp only [hl, if_false, Bool.false_eq_true]
        split <;> exact ⟨_, _, hsame, hstay⟩

/-! ### The actions -/

theorem prepareToWrite_cases {v : Data} {logId : ℕ} {y : OopsFuture}
    (h : x.prepareToWrite cfg c v logId = some y) : ∃ tsp,
    makeTsp 0 logId (cfg.procId c) false = some tsp ∧
    y = { x with entry := put x.entry .write { x.entry .write with
      kv := ⟨tsp, cfg.hashOf (filterLogIdAndClientProcId tsp) v, v⟩ } } := by
  obtain ⟨tsp, ht, rfl⟩ := Option.map_eq_some_iff.1 h
  exact ⟨tsp, ht, rfl⟩

/-- A write is started by preparing its entry, and setting up its first step. -/
theorem startWrite_cases {kv : ℕ} {v : Data} {step : OopsStep} {cached : Option ℕ}
    (h : t.startWrite cfg c f kv v step cached = some t') :
    t.isFree cfg c f ∧ ∃ x z d,
      (t.future c f).prepareToWrite cfg c v (t.client c).nextLogId = some x ∧
      OopsDataFuture.enter cfg c ⟨(t.client c).clock, x.entry, []⟩
        { x.data.forKV cfg kv cached with logId := (t.client c).nextLogId }
        .wTryOptimisticTs = some (z, d) ∧
      t' = (((t.setClient c { t.client c with nextLogId := (t.client c).nextLogId + 1 }).setFuture
        c f { x with step, kvId := kv }).setLocal c f z d (some ⟨f, false, false, 0⟩)) := by
  unfold startWrite at h
  dsimp only at h
  split at h
  · next hf =>
    obtain ⟨x, hx, h⟩ := Option.bind_eq_some_iff.1 h
    obtain ⟨⟨z, d⟩, hz, rfl⟩ := Option.map_eq_some_iff.1 h
    simp only [OopsDataFuture.doWrite, localOf, setFuture_client, setClient_client_self,
      setFuture_future_self] at hz
    exact ⟨hf.1, x, z, d, hx, hz, rfl⟩
  · exact absurd h (by simp)

theorem startRead_cases {kv : ℕ} (h : t.startRead cfg c f kv = some t') :
    t.isFree cfg c f ∧ ∃ z d,
      OopsDataFuture.enter cfg c ⟨(t.client c).clock, (t.future c f).entry, []⟩
        { (t.future c f).data.forKV cfg kv ((t.client c).pointerCache kv) with
          seen := fun _ => none }
        .rReading = some (z, d) ∧
      t' = ((t.setFuture c f { t.future c f with step := .readData, kvId := kv }).setLocal
        c f z d (some ⟨f, false, false, 0⟩)) := by
  unfold startRead at h
  dsimp only at h
  split at h
  · next hf =>
    obtain ⟨⟨z, d⟩, hz, rfl⟩ := Option.map_eq_some_iff.1 h
    simp only [OopsDataFuture.doRead, localOf, setFuture_client, setFuture_future_self] at hz
    exact ⟨hf.1, z, d, hz, rfl⟩
  · exact absurd h (by simp)

/-- A call goes on by one part of it: it steps forward, or as it returns, falls through. -/
theorem runCall_cases {call : Call} (h : t.runCall cfg c call = some t') : ∃ o z d,
    (t.future c call.future).data.tryStepForward cfg c (t.localOf c call.future) = some (o, z, d) ∧
    ((∃ call', (o = .calls ∧ call' = { call with progress := true } ∨
          o = .callsFirst ∧ call' = { call with progress := true, falls := call.falls + 1 }) ∧
        t' = t.setLocal c call.future z d (some call')) ∨
      (∃ b, o = .returns b ∧ call.falls = 0 ∧
        t' = (t.setLocal c call.future z d none).returned cfg c call.future
          (call.ticked && (call.progress || b))) ∨
      ∃ b n d₁ step z' d', o = .returns b ∧ call.falls = n + 1 ∧
        OopsDataFuture.AfterRead cfg d d₁ step ∧
        OopsDataFuture.enter cfg c z d₁ step = some (z', d') ∧
        t' = t.setLocal c call.future z' d' (some { call with falls := n })) := by
  unfold runCall at h
  dsimp only at h
  obtain ⟨⟨o, z, d⟩, hd, h⟩ := Option.bind_eq_some_iff.1 h
  refine ⟨o, z, d, hd, ?_⟩
  cases o with
  | calls =>
    cases h
    exact .inl ⟨_, .inl ⟨rfl, rfl⟩, rfl⟩
  | callsFirst =>
    cases h
    exact .inl ⟨_, .inr ⟨rfl, rfl⟩, rfl⟩
  | returns b =>
    dsimp only at h
    split at h
    · next hn =>
      cases h
      exact .inr (.inl ⟨b, rfl, hn, rfl⟩)
    · next n hn =>
      obtain ⟨⟨o, z', d'⟩, ha, rfl⟩ := Option.map_eq_some_iff.1 h
      obtain ⟨rfl, d₁, step, ha, he⟩ := OopsDataFuture.afterRead_cases ha
      exact .inr (.inr ⟨b, n, d₁, step, z', d', rfl, hn, ha, he, rfl⟩)

/-- The head of a queue takes effect. -/
theorem execute_cases (h : t.execute cfg c s = some t') : ∃ f req rest v entry,
    t.queue c s = (f, req) :: rest ∧
    (t.server s).exec cfg c (t.future c f).entry s req.op = (v, entry) ∧
    t' = { (t.setFuture c f ((t.future c f).landed s entry req.signaled)) with
      server := put t.server s v
      queue := put t.queue c (put (t.queue c) s rest) } := by
  unfold execute at h
  split at h
  · exact absurd h (by simp)
  · next f req rest hq =>
    cases h
    exact ⟨f, req, rest, _, _, hq, rfl, rfl⟩

theorem poll_cases (h : t.poll c s f = some t') : 0 < (t.future c f).completed s ∧
    t' = t.setFuture c f ((t.future c f).polled s) := by
  unfold poll at h
  split at h
  · next hc =>
    cases h
    exact ⟨hc.2, rfl⟩
  · exact absurd h (by simp)

theorem returned_server (told : Bool) : (t.returned cfg c f told).server = t.server := by
  obtain ⟨cache, st, h, -⟩ := @returned_cases cfg t c f told
  rw [h]
  rfl

/-- Only a request that takes effect changes the memory of a server. -/
theorem server_of_step {a : Action} (h : step cfg t a = some t') (ha : ∀ c s, a ≠ .exec c s) :
    t'.server = t.server := by
  cases a with
  | initClock c =>
    simp only [step] at h
    split at h <;> cases h
    rfl
  | insert c f v =>
    obtain ⟨-, x, z, d, -, -, rfl⟩ := startWrite_cases h
    rfl
  | update c f kv v =>
    obtain ⟨-, x, z, d, -, -, rfl⟩ := startWrite_cases h
    rfl
  | read c f kv =>
    obtain ⟨-, z, d, -, rfl⟩ := startRead_cases h
    rfl
  | run c =>
    obtain ⟨k, -, h⟩ := Option.bind_eq_some_iff.1 h
    obtain ⟨o, z, d, -, ⟨k', -, rfl⟩ | ⟨b, -, -, rfl⟩ | ⟨b, n, d₁, st, z', d', -, -, -, -, rfl⟩⟩ :=
      runCall_cases h
    · rfl
    · rw [returned_server]
      rfl
    · rfl
  | exec c s => exact absurd rfl (ha c s)
  | poll c s f =>
    obtain ⟨-, rfl⟩ := poll_cases h
    rfl
  | tick c f =>
    simp only [step] at h
    split at h <;> cases h
    rfl
  | forget c kv =>
    cases h
    rfl

/-- What is left in the queues once a request has taken effect was there before. -/
theorem mem_of_mem_tail {f : ℕ} {req : Request} {rest : List (ℕ × Request)}
    (h : t.queue c s = (f, req) :: rest) {c' s' : ℕ} {q : ℕ × Request}
    (hq : q ∈ put t.queue c (put (t.queue c) s rest) c' s') : q ∈ t.queue c' s' := by
  by_cases hc : c' = c
  · subst hc
    by_cases hs : s' = s
    · subst hs
      simp only [put_self] at hq
      rw [h]
      exact List.mem_cons_of_mem _ hq
    · simpa [put_of_ne hs] using hq
  · simpa [put_of_ne hc] using hq

end State

/-! ### Runs -/

section Run

variable {cfg : Layout} {t t' : State} {G : State → Action → Prop} {e : Action × State}

/-- A step of the machine is labelled by its action and the state it is taken in. -/
theorem of_machine_step (h : (machine cfg).Step G t e t') :
    ∃ a, e = (a, t) ∧ G t a ∧ step cfg t a = some t' := by
  obtain ⟨a, hg, ha⟩ := h
  obtain ⟨t₁, ht, he⟩ := Option.map_eq_some_iff.1 ha
  obtain ⟨rfl, rfl⟩ := Prod.mk.inj he
  exact ⟨a, rfl, hg, ht⟩

/-- The last step of a run of them. -/
theorem last_of_trace {t₀ : State} {a : Action} {tr : List (Action × State)}
    (h : Trace ((machine cfg).Step G) t₀ ((a, t) :: tr) t') :
    Trace ((machine cfg).Step G) t₀ tr t ∧ G t a ∧ step cfg t a = some t' := by
  obtain ⟨t₁, h, hst⟩ := h.last
  obtain ⟨a', he, hg, ht⟩ := of_machine_step hst
  obtain ⟨rfl, rfl⟩ := Prod.mk.inj he
  exact ⟨h, hg, ht⟩

end Run

end DiscoSkip.SwarmKv
