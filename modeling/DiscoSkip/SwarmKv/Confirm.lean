import DiscoSkip.SwarmKv.OopsClient.Steps

/-!
# Reads that confirm

A read confirms a tsp it has seen by `ReplicateAsVerified`. It should only be linearized
and done from then on. But the case `RTryNotifyWriter`, that has it confirm the tsp it had
before as well, falls through to that of a read that goes on, which notifies the writer of
this tsp once more (`not_confirms`). If what a read at `RTryNotifyWriter` sees is never the
tsp it had before, no call falls through (`State.NoFalls`), and a read that confirms
enters nothing else (`confirms_of_run`).
-/

namespace DiscoSkip.SwarmKv

open Lib

def Outcome.isReturn : Outcome → Bool
  | .returns _ => true
  | .calls | .callsFirst => false

/-- Where a read is from `ReplicateAsVerified` on. -/
def DataStep.confirms (step : DataStep) : Prop :=
  step = .replicateAsVerified ∨ step = .linearized ∨ step = .done

/-- A read that has notified a writer is about to see the tsp again that it had before. -/
def OopsDataFuture.seesAgain (cfg : Layout) (c : ℕ) (z : Local) (d : OopsDataFuture) : Bool :=
  d.step = .rTryNotifyWriter && (d.maxreg.tryStepForward cfg c z).any fun (progress, _, r) =>
    progress && r.isLinearized && r.maxSeenTsp = d.previousTs

/-- The step that is entered as the call of a client goes on, with the future it is of. -/
def State.enters (cfg : Layout) (t : State) (c : ℕ) : Option (ℕ × DataStep) :=
  (t.client c).call.bind fun call =>
    ((t.future c call.future).data.tryStepForward cfg c (t.localOf c call.future)).bind fun
      | (.calls, _, d) | (.callsFirst, _, d) => some (call.future, d.step)
      | (.returns _, z, d) =>
        match call.falls with
        | 0 => none
        | _ + 1 => (d.afterRead cfg c z).map fun (_, _, d) => (call.future, d.step)

/-- An operation starts on the future. -/
def Action.starts (c f : ℕ) : Action → Bool
  | .insert c' f' _ | .update c' f' _ _ | .read c' f' _ => c' = c && f' = f
  | _ => false

/-- No read that has notified a writer sees the tsp again that it had before. -/
def Confirms.Guard (cfg : Layout) (t : State) : Action → Prop
  | .run c => ∀ call ∈ (t.client c).call,
    (t.future c call.future).data.seesAgain cfg c (t.localOf c call.future) = false
  | _ => True

instance Confirms.decidableGuard (cfg : Layout) (t : State) : DecidablePred (Confirms.Guard cfg t)
  | .run c => inferInstanceAs (Decidable (∀ call ∈ (t.client c).call, _ = false))
  | .initClock .. | .insert .. | .update .. | .read .. | .exec .. | .poll .. | .tick ..
  | .forget .. => .isTrue trivial

/-- No call has one to fall through from. -/
def State.NoFalls (t : State) : Prop := ∀ c, ∀ call ∈ (t.client c).call, call.falls = 0

section Step

variable {cfg : Layout} {c f : ℕ} {z z' : Local} {d d' : OopsDataFuture} {o : Outcome}
  {t t' : State} {st : DataStep}

namespace OopsDataFuture

/-- It is what makes a call fall through. -/
theorem seesAgain_of_callsFirst (h : tryStepForward cfg c z d = some (.callsFirst, z', d')) :
    d.seesAgain cfg c z := by
  obtain ⟨⟨b, z₁, r₁⟩, hr, h⟩ := Option.bind_eq_some_iff.1 h
  dsimp only at h
  cases b with
  | false => cases h
  | true =>
    simp only [Bool.not_true, Bool.false_eq_true, if_false] at h
    split at h
    · cases h
    · next hl =>
      simp only [Bool.or_eq_true, Bool.not_eq_true', not_or, Bool.not_eq_false] at hl
      obtain ⟨z₂, d₂, step, hf, -⟩ | ⟨-, ho, -⟩ := follow_cases h
      · cases hf with
        | confirm hs hp =>
          dsimp only at hs hp
          simp only [seesAgain, hs, hr, hp, hl.1, decide_true, Bool.and_self, Option.any_some]
      · exact nomatch ho

/-- A call that steps forward stays at its step as it returns, and else goes on to another,
    which is linearized or done from `ReplicateAsVerified` on. -/
theorem step_of_tryStepForward (h : tryStepForward cfg c z d = some (o, z', d')) :
    (o.isReturn ∧ d'.step = d.step) ∨
      (o.isReturn = false ∧ (d.step.confirms → d'.step = .linearized ∨ d'.step = .done)) := by
  obtain ⟨b, z₁, r₁, -, ⟨-, rfl, rfl⟩ | ⟨-, -, -, z₂, d₂, step, hf, he⟩⟩ := tryStepForward_cases h
  · exact .inl ⟨rfl, rfl⟩
  · obtain ⟨-, hstep⟩ := entered he
    refine .inr ⟨by cases hf <;> rfl, fun hc => ?_⟩
    have hno : ∀ {st : DataStep}, d.step = st → ¬ st.confirms →
        d'.step = .linearized ∨ d'.step = .done := fun h hn => absurd (h ▸ hc) hn
    cases hf with
    | ends =>
      obtain hs | ⟨hs, -⟩ := hstep
      · rw [hs]
        split
        · exact .inr rfl
        · exact .inl rfl
      · split at hs <;> exact nomatch hs
    | endsLater =>
      obtain hs | ⟨hs, -⟩ := hstep
      · exact .inr hs
      · exact nomatch hs
    | verify hs | prepare hs | repareUnread hs | writeAnew hs | repare hs | notified hs
    | unnotified hs | writeRead hs | confirm hs | afterNotify hs | afterRead hs =>
      exact hno hs (by simp [DataStep.confirms])

end OopsDataFuture

namespace State

/-- The step a future is at after its call went on is the one that was entered, if any. -/
theorem step_of_runCall {k : Call} (hk : (t.client c).call = some k)
    (ht : t.runCall cfg c k = some t') :
    (t.enters cfg c = none ∧ (t'.future c k.future).data.step = (t.future c k.future).data.step) ∨
      t.enters cfg c = some (k.future, (t'.future c k.future).data.step) := by
  unfold runCall at ht
  unfold enters
  rw [hk, Option.bind_some]
  obtain ⟨⟨o, z, d⟩, hd, ht⟩ := Option.bind_eq_some_iff.1 ht
  rw [hd, Option.bind_some]
  cases o with
  | calls | callsFirst =>
    cases ht
    right
    rw [setLocal_future_self]
  | returns b =>
    dsimp only at ht ⊢
    cases hn : k.falls with
    | zero =>
      rw [hn] at ht
      cases ht
      obtain ⟨cache, st, hr, -⟩ := @returned_cases cfg (t.setLocal c k.future z d none) c k.future
        (k.ticked && (k.progress || b))
      refine .inl ⟨rfl, ?_⟩
      rw [hr, setFuture_future_self, setLocal_future_self]
      obtain ⟨-, hs⟩ | ⟨ho, -⟩ := OopsDataFuture.step_of_tryStepForward hd
      · exact hs
      · exact nomatch ho
    | succ n =>
      rw [hn] at ht
      obtain ⟨⟨o, z', d'⟩, ha, rfl⟩ := Option.map_eq_some_iff.1 ht
      right
      rw [setLocal_future_self]
      dsimp only
      rw [ha]
      rfl

/-- From `ReplicateAsVerified` on, a read is linearized or done by any step it enters, if its
    call does not fall through. -/
theorem enters_of_confirms (hn : t.NoFalls) (hc : (t.future c f).data.step.confirms)
    (h : t.enters cfg c = some (f, st)) : st = .linearized ∨ st = .done := by
  obtain ⟨k, hk, h⟩ := Option.bind_eq_some_iff.1 h
  obtain ⟨⟨o, z, d⟩, hd, h⟩ := Option.bind_eq_some_iff.1 h
  have hgo := OopsDataFuture.step_of_tryStepForward hd
  cases o with
  | calls | callsFirst =>
    cases h
    obtain ⟨ho, -⟩ | ⟨-, hs⟩ := hgo
    · exact nomatch ho
    · exact hs hc
  | returns b =>
    dsimp only at h
    rw [hn c k hk] at h
    exact nomatch h

theorem setFuture_data {c' f' : ℕ} {x : OopsFuture} (hx : x.data.step = (t.future c f).data.step) :
    ((t.setFuture c f x).future c' f').data.step = (t.future c' f').data.step := by
  by_cases hc : (c', f') = (c, f)
  · cases hc
    rw [setFuture_future_self, hx]
  · rw [setFuture_future_of_ne hc]

theorem ne_of_starts {c' f' : ℕ} (h : (decide (c' = c) && decide (f' = f)) = false) :
    (c, f) ≠ (c', f') := by
  rintro ⟨rfl, rfl⟩
  simp at h

theorem future_of_startWrite {c' f' kv : ℕ} {v : Data} {st : OopsStep} {cached : Option ℕ}
    (h : t.startWrite cfg c' f' kv v st cached = some t') (hne : (c, f) ≠ (c', f')) :
    t'.future c f = t.future c f := by
  obtain ⟨-, x, z, d, -, -, rfl⟩ := startWrite_cases h
  rw [setLocal_future_of_ne hne, setFuture_future_of_ne hne]
  rfl

/-- Only the start of an operation, or its call as it goes on, takes a future to another
    step. -/
theorem step_of_step {a : Action} (ht : SwarmKv.step cfg t a = some t')
    (ha : a.starts c f = false) :
    (t'.future c f).data.step = (t.future c f).data.step ∨
      a = .run c ∧ t.enters cfg c = some (f, (t'.future c f).data.step) := by
  cases a with
  | initClock c' =>
    simp only [SwarmKv.step] at ht
    split at ht <;> cases ht
    exact .inl rfl
  | insert c' f' v =>
    left
    rw [future_of_startWrite ht (ne_of_starts ha)]
    rfl
  | update c' f' kv v =>
    left
    rw [future_of_startWrite ht (ne_of_starts ha)]
  | read c' f' kv =>
    obtain ⟨-, z, d, -, rfl⟩ := startRead_cases ht
    left
    rw [setLocal_future_of_ne (ne_of_starts ha), setFuture_future_of_ne (ne_of_starts ha)]
  | run c' =>
    obtain ⟨k, hk, ht⟩ := Option.bind_eq_some_iff.1 ht
    by_cases hc : (c, f) = (c', k.future)
    · cases hc
      obtain ⟨-, h⟩ | h := step_of_runCall hk ht
      · exact .inl h
      · exact .inr ⟨rfl, h⟩
    · left
      obtain ⟨o, z, d, -, ⟨k', -, rfl⟩ | ⟨b, -, -, rfl⟩ | ⟨b, n, d₁, st, z', d', -, -, -,
        -, rfl⟩⟩ :=
        runCall_cases ht
      · rw [setLocal_future_of_ne hc]
      · obtain ⟨cache, st, hr, -⟩ := @returned_cases cfg (t.setLocal c' k.future z d none) c'
          k.future (k.ticked && (k.progress || b))
        rw [hr, setFuture_future_of_ne hc, setClient_future, setLocal_future_of_ne hc]
      · rw [setLocal_future_of_ne hc]
  | exec c' s =>
    obtain ⟨f', req, rest, v, entry, -, -, rfl⟩ := execute_cases ht
    exact .inl (setFuture_data rfl)
  | poll c' s f' =>
    obtain ⟨-, rfl⟩ := poll_cases ht
    exact .inl (setFuture_data rfl)
  | tick c' f' =>
    simp only [SwarmKv.step] at ht
    split at ht <;> cases ht
    exact .inl (setFuture_data rfl)
  | forget c' kv =>
    cases ht
    exact .inl rfl

/-- A read that confirms stays so, until the next operation. -/
theorem confirms_of_step {a : Action} (hn : t.NoFalls) (ht : SwarmKv.step cfg t a = some t')
    (ha : a.starts c f = false) (hc : (t.future c f).data.step.confirms) :
    (t'.future c f).data.step.confirms := by
  obtain h | ⟨rfl, h⟩ := step_of_step ht ha
  · rwa [h]
  · exact .inr (enters_of_confirms hn hc h)

namespace NoFalls

theorem setClient {k : OopsState} (h : t.NoFalls) (hk : ∀ call ∈ k.call, call.falls = 0) :
    (t.setClient c k).NoFalls := by
  intro c' call hcall
  by_cases hc : c' = c
  · subst hc
    rw [setClient_client_self] at hcall
    exact hk call hcall
  · rw [setClient_client_of_ne hc] at hcall
    exact h c' call hcall

theorem setLocal {call : Option Call} (h : t.NoFalls) (hk : ∀ k ∈ call, k.falls = 0) :
    (t.setLocal c f z d call).NoFalls :=
  setClient h hk

theorem startWrite {kv : ℕ} {v : Data} {st : OopsStep} {cached : Option ℕ} (h : t.NoFalls)
    (ht : t.startWrite cfg c f kv v st cached = some t') : t'.NoFalls := by
  obtain ⟨-, x, z, d, -, -, rfl⟩ := startWrite_cases ht
  refine setLocal (h.setClient (h c)) ?_
  rintro _ ⟨⟩
  rfl

/-- A call that does not see the tsp again does not start to fall through. -/
theorem runCall {k : Call} (h : t.NoFalls) (hk : (t.client c).call = some k)
    (hg : (t.future c k.future).data.seesAgain cfg c (t.localOf c k.future) = false)
    (ht : t.runCall cfg c k = some t') : t'.NoFalls := by
  obtain ⟨o, z, d, hd, hcases⟩ := runCall_cases ht
  rcases hcases with ⟨k', ⟨rfl, rfl⟩ | ⟨rfl, -⟩, rfl⟩ | ⟨b, -, -, rfl⟩ |
    ⟨b, n, d₁, st, z', d', -, hn, -⟩
  · refine h.setLocal ?_
    rintro _ ⟨⟩
    exact h c k hk
  · have := OopsDataFuture.seesAgain_of_callsFirst hd
    rw [hg] at this
    exact nomatch this
  · obtain ⟨cache, st, hr, -⟩ := @returned_cases cfg (t.setLocal c k.future z d none) c k.future
      (k.ticked && (k.progress || b))
    have h₁ : (t.setLocal c k.future z d none).NoFalls := h.setLocal nofun
    rw [hr]
    exact h₁.setClient nofun
  · rw [h c k hk] at hn
    exact nomatch hn

theorem step {a : Action} (h : t.NoFalls) (hg : Confirms.Guard cfg t a)
    (ht : SwarmKv.step cfg t a = some t') : t'.NoFalls := by
  cases a with
  | initClock c =>
    simp only [SwarmKv.step] at ht
    split at ht <;> cases ht
    exact h.setClient (h c)
  | insert c f v =>
    refine startWrite (h.setClient ?_) ht
    exact h c
  | update c f kv v => exact h.startWrite ht
  | read c f kv =>
    obtain ⟨-, z, d, -, rfl⟩ := startRead_cases ht
    refine setLocal (t := t.setFuture c f _) h ?_
    rintro _ ⟨⟩
    rfl
  | run c =>
    obtain ⟨k, hk, ht⟩ := Option.bind_eq_some_iff.1 ht
    exact h.runCall hk (hg k hk) ht
  | exec c s =>
    obtain ⟨f, req, rest, v, entry, -, -, rfl⟩ := execute_cases ht
    exact h
  | poll c s f =>
    obtain ⟨-, rfl⟩ := poll_cases ht
    exact h
  | tick c f =>
    simp only [SwarmKv.step] at ht
    split at ht <;> cases ht
    refine h.setClient ?_
    rintro _ ⟨⟩
    rfl
  | forget c kv =>
    cases ht
    exact h.setClient (h c)

end NoFalls

end State

theorem noFalls_of_run {tr : List (Action × State)}
    (h : (machine cfg).Run (Confirms.Guard cfg) tr t) : t.NoFalls := by
  have h0 : (machine cfg).init.NoFalls := by
    rintro c call ⟨⟩
  refine Trace.invariant (P := fun _ => State.NoFalls) h0 (fun _ t _ t' _ ht hs => ?_) h
  obtain ⟨a, -, hg, hs⟩ := of_machine_step hs
  exact ht.step hg hs

/-- In a run in which no read that has notified a writer sees the tsp again that it had
    before, a read that entered `ReplicateAsVerified` enters no step but `Linearized` and
    `Done`, until the next operation of its future. -/
theorem confirms_of_run {tr : List (Action × State)}
    (h : (machine cfg).Run (Confirms.Guard cfg) tr t) :
    ∀ post mid pre c f t₁ t₂ step, tr = post ++ (.run c, t₂) :: (mid ++ (.run c, t₁) :: pre) →
      (∀ p ∈ mid, p.1.starts c f = false) → t₁.enters cfg c = some (f, .replicateAsVerified) →
      t₂.enters cfg c = some (f, step) → step = .linearized ∨ step = .done := by
  rintro post mid pre c f t₁ t₂ step rfl hmid h₁ h₂
  obtain ⟨_, hr₂, -⟩ := h.of_append
  obtain ⟨hr, -, -⟩ := last_of_trace hr₂
  obtain ⟨t', hr₁, hbetween⟩ := hr.of_append
  obtain ⟨-, -, ht'⟩ := last_of_trace hr₁
  refine State.enters_of_confirms (noFalls_of_run hr) ?_ h₂
  have hstart : (t'.future c f).data.step.confirms := by
    obtain ⟨k, hk, ht'⟩ := Option.bind_eq_some_iff.1 ht'
    obtain ⟨hno, -⟩ | hs := State.step_of_runCall hk ht'
    · rw [h₁] at hno
      exact nomatch hno
    · rw [h₁] at hs
      obtain ⟨rfl, hstep⟩ := Prod.mk.inj (Option.some.inj hs)
      exact .inl hstep.symm
  refine Trace.invariant (P := fun mid t => (∀ p ∈ mid, p.1.starts c f = false) →
    (t.future c f).data.step.confirms) (fun _ => hstart) (fun tr t e t'' hmid' ih hst hm => ?_)
    hbetween hmid
  obtain ⟨a, rfl, -, ht⟩ := of_machine_step hst
  exact State.confirms_of_step (noFalls_of_run (hr₁.append hmid')) ht (hm _ List.mem_cons_self)
    (ih fun p hp => hm p (List.mem_cons_of_mem _ hp))

end Step

theorem single_steady_mono (c : ℕ) :
    Monotone fun r => if c = 0 ∧ 0 < r then 1002000 else 1000000 := by
  intro a b h
  dsimp only
  split <;> split <;> omega

/-- One server, and two clients, of which the clock of the client `0` is ahead. -/
def single : Layout where
  inPlace := false
  numClients := 2
  numServers := 1
  majority := 1
  numTsp := 2
  guessTs := true
  serverLogsPerClient := 2
  keysPerServer := 1
  asyncParallelism := 1
  deadServers := 0
  hashOf i d := i + d.value
  mainServerIdx _ := 0
  steady c r := if c = 0 ∧ 0 < r then 1002000 else 1000000
  majority_pos := Nat.one_pos
  numTsp_pos := Nat.two_pos
  mainServerIdx_lt _ := Nat.one_pos
  steady_mono := single_steady_mono

namespace single

/-- The client `1` inserts the key. -/
def inserted : List Action :=
  [.initClock 0, .initClock 1, .insert 1 0 ⟨0, 7⟩, .run 1] ++ round 1 0 [0, 0, 0, 0] [0] 3 ++
    round 1 0 [0] [0] 2

/-- The client `0` updates the key, as far as that its tsp is on the server. -/
def updating : List Action := [.update 0 0 0 ⟨0, 9⟩, .run 0, .exec 0 0, .exec 0 0, .exec 0 0]

/-- The client `1` reads this tsp twice, notifies its writer, and sees it again. -/
def reading : List Action :=
  [.read 1 0 0, .run 1] ++ round 1 0 [0] [0] 1 ++ round 1 0 [0] [0] 2 ++ round 1 0 [0] [0] 1 ++
    round 1 0 [0] [0] 2 ++ round 1 0 [0, 0] [0] 3

end single

open single in
/-- The read of a verified tsp confirms it, and is done. -/
theorem confirms_of_run_single : ∃ tr t, (machine single).Run (Confirms.Guard single) tr t ∧
    (∃ pre t₁ t₂, tr = (.run 0, t₂) :: (.run 0, t₁) :: pre ∧
      t₁.enters single 0 = some (0, .replicateAsVerified) ∧ t₂.enters single 0 = some (0, .done)) ∧
    ∀ post mid pre c f t₁ t₂ step,
      tr = post ++ (.run c, t₂) :: (mid ++ (.run c, t₁) :: pre) →
      (∀ p ∈ mid, p.1.starts c f = false) → t₁.enters single c = some (f, .replicateAsVerified) →
      t₂.enters single c = some (f, step) → step = .linearized ∨ step = .done := by
  obtain ⟨tr, t, h, ht⟩ := Machine.exists_run_of_play
    (G := Confirms.Guard single) (m := machine single)
    (fun r => match r.1 with
      | p₂ :: p₁ :: _ => decide (p₂.1 = .run 0 ∧ p₁.1 = .run 0 ∧
          p₁.2.enters single 0 = some (0, .replicateAsVerified) ∧
          p₂.2.enters single 0 = some (0, .done))
      | _ => false)
    (inserted ++ [.read 0 0 0, .run 0] ++ round 0 0 [0] [0] 1 ++ round 0 0 [0] [0] 2)
    (b := true) (by decide +kernel)
  rcases tr with _ | ⟨⟨a₂, t₂⟩, _ | ⟨⟨a₁, t₁⟩, pre⟩⟩
  · exact nomatch ht
  · exact nomatch ht
  · obtain ⟨rfl, rfl, h₁, h₂⟩ := of_decide_eq_true ht
    exact ⟨_, t, h, ⟨pre, t₁, t₂, rfl, h₁, h₂⟩, confirms_of_run h⟩

open single in
/-- The read of a tsp that it sees again confirms it, is linearized, and then notifies its
    writer once more. -/
theorem not_confirms : ∃ tr t, (machine single).Run (fun _ _ => True) tr t ∧
    ∃ mid pre t₁ t₂, tr = (.run 1, t₂) :: (mid ++ (.run 1, t₁) :: pre) ∧
      (∀ p ∈ mid, p.1.starts 1 0 = false) ∧
      t₁.enters single 1 = some (0, .replicateAsVerified) ∧
      t₂.enters single 1 = some (0, .rTryNotifyWriter) := by
  obtain ⟨tr, t, h, ht⟩ := Machine.exists_run_of_play
    (G := fun _ _ => True) (m := machine single)
    (fun r => match r.1 with
      | p₂ :: p :: p₁ :: _ => decide (p₂.1 = .run 1 ∧ p.1.starts 1 0 = false ∧ p₁.1 = .run 1 ∧
          p₁.2.enters single 1 = some (0, .replicateAsVerified) ∧
          p₂.2.enters single 1 = some (0, .rTryNotifyWriter))
      | _ => false)
    (inserted ++ updating ++ reading) (b := true) (by decide +kernel)
  rcases tr with _ | ⟨⟨a₂, t₂⟩, _ | ⟨p, _ | ⟨⟨a₁, t₁⟩, pre⟩⟩⟩
  · exact nomatch ht
  · exact nomatch ht
  · exact nomatch ht
  · obtain ⟨rfl, hp, rfl, h₁, h₂⟩ := of_decide_eq_true ht
    exact ⟨_, t, h, [p], pre, t₁, t₂, rfl, by simpa using hp, h₁, h₂⟩

end DiscoSkip.SwarmKv
