import DiscoSkip.Lib.Linearizable
import DiscoSkip.Progress
import DiscoSkip.Session

/-!
# The history of a run

What the users of a run have done, by its events: the *calls* of Puts and Gets
(`calls`), from the event that starts them to the event that ends them, if it is
there. The time of an event is the number of events before it.

A call also records the register it comes to: what a Get has read, and what a Put
has written, to the first of its servers on.

The calls in progress are what the futures are busy with (`HistoryOk.run`), and no
two of one future overlap.
-/

namespace DiscoSkip

open Function

/-- The call of an operation. -/
structure OpCall where
  client : ℕ
  future : ℕ
  start : ℕ
  op : Op
  stop : Option ℕ := none
  /-- The register the operation has come to. -/
  reg : Option Register := none
  /-- The value returned, for a Get. -/
  result : UInt64 := 0

/-- The operation an event starts. -/
def Event.starts : Event → Option Op
  | .invokePut _ _ k v => some (.put k v)
  | .invokeGet _ _ k => some (.get k)
  | _ => none

/-- The call an event at the time `n` starts. -/
def Event.opens (n : ℕ) (e : Event) : Option OpCall :=
  e.starts.map fun o => { client := e.owner.1, future := e.owner.2, start := n, op := o }

namespace OpCall

/-- The call is in progress in the future `f` of the client `c`. -/
def Open (c f : ℕ) (o : OpCall) : Prop := (o.client = c ∧ o.future = f) ∧ o.stop = none

instance (c f : ℕ) : DecidablePred (Open c f) :=
  fun o => inferInstanceAs (Decidable ((o.client = c ∧ o.future = f) ∧ o.stop = none))

/-- The call is one of a Put. -/
def IsPut (o : OpCall) : Prop := ∃ k v, o.op = .put k v

end OpCall

/-- What an event of its future, at the time `n`, makes of a call in progress. -/
def Event.tells (n : ℕ) : Event → OpCall → OpCall
  | .cas _ _ _ _ .put x t y, o => if y = x then { o with reg := some t } else o
  | .putDone _ _ _ _ t, o => { o with stop := some n, reg := some t }
  | .getDone _ _ _ m v, o => { o with stop := some n, reg := some m, result := v }
  | _, o => o

/-- What an event at the time `n` makes of a call. -/
def Event.marks (n : ℕ) (e : Event) (o : OpCall) : OpCall :=
  if o.Open e.owner.1 e.owner.2 then e.tells n o else o

/-- The calls of a run, the latest first. -/
def calls : List Event → List OpCall
  | [] => []
  | e :: tr => (e.opens tr.length).toList ++ (calls tr).map (e.marks tr.length)

/-- The calls on the key `k`. -/
def callsOn (k : ℕ) (tr : List Event) : List OpCall := (calls tr).filter fun o => o.op.key = k

/-- The history of a register: a Put writes the 32 bits of its value that are kept. -/
def callHistory : Lib.History OpCall UInt64 where
  start := OpCall.start
  stop := OpCall.stop
  access o := match o.op with
    | .put _ v => .write v.toUInt32.toUInt64
    | .get _ => .read o.result

section Calls

variable {n : ℕ} {e : Event} {o o' : OpCall} {tr : List Event}

theorem writes_iff : callHistory.Writes o ↔ o.IsPut := by
  obtain ⟨c, f, s, op, st, r, x⟩ := o
  cases op with
  | put k v => exact iff_of_true ⟨_, rfl⟩ ⟨k, v, rfl⟩
  | get k => exact iff_of_false (by rintro ⟨_, h⟩; cases h) (by rintro ⟨_, _, h⟩; cases h)

/-! ### What an event does to a call -/

/-- A call that is over, or of another future, stays as it is. -/
theorem marks_of_not_open (h : ¬o.Open e.owner.1 e.owner.2) : e.marks n o = o := if_neg h

theorem marks_of_stop {t : ℕ} (h : o.stop = some t) : e.marks n o = o :=
  marks_of_not_open fun ho => absurd (h.symm.trans ho.2) (by simp)

theorem marks_of_open (h : o.Open e.owner.1 e.owner.2) : e.marks n o = e.tells n o := if_pos h

/-- A call is told when it ends, its register and its value, and nothing else. -/
theorem tells_spec : (e.tells n o).client = o.client ∧ (e.tells n o).future = o.future ∧
    (e.tells n o).start = o.start ∧ (e.tells n o).op = o.op ∧
    (e.tells n o).stop = if e.ended = none then o.stop else some n := by
  cases e with
  | cas _ _ _ _ kd x t y =>
    cases kd with
    | put =>
      simp only [Event.tells]
      split <;> exact ⟨rfl, rfl, rfl, rfl, rfl⟩
    | _ => exact ⟨rfl, rfl, rfl, rfl, rfl⟩
  | _ => exact ⟨rfl, rfl, rfl, rfl, rfl⟩

theorem marks_spec : (e.marks n o).client = o.client ∧ (e.marks n o).future = o.future ∧
    (e.marks n o).start = o.start ∧ (e.marks n o).op = o.op := by
  by_cases ho : o.Open e.owner.1 e.owner.2
  · rw [marks_of_open ho]
    obtain ⟨h₁, h₂, h₃, h₄, _⟩ := tells_spec (n := n) (e := e) (o := o)
    exact ⟨h₁, h₂, h₃, h₄⟩
  · rw [marks_of_not_open ho]
    exact ⟨rfl, rfl, rfl, rfl⟩

@[simp] theorem marks_client : (e.marks n o).client = o.client := marks_spec.1
@[simp] theorem marks_future : (e.marks n o).future = o.future := marks_spec.2.1
@[simp] theorem marks_start : (e.marks n o).start = o.start := marks_spec.2.2.1
@[simp] theorem marks_op : (e.marks n o).op = o.op := marks_spec.2.2.2

@[simp] theorem marks_isPut : (e.marks n o).IsPut ↔ o.IsPut := by
  rw [OpCall.IsPut, marks_op, OpCall.IsPut]

/-- An event that ends no operation ends no call. -/
theorem marks_stop_of_ended (h : e.ended = none) : (e.marks n o).stop = o.stop := by
  by_cases ho : o.Open e.owner.1 e.owner.2
  · rw [marks_of_open ho, tells_spec.2.2.2.2, if_pos h]
  · rw [marks_of_not_open ho]

/-- The event that ends an operation ends the call of its future. -/
theorem marks_stop_of_open (h : e.ended ≠ none) (ho : o.Open e.owner.1 e.owner.2) :
    (e.marks n o).stop = some n := by
  rw [marks_of_open ho, tells_spec.2.2.2.2, if_neg h]

/-- A call that is marked over was over before, or ends now. -/
theorem marks_stop_cases : (e.marks n o).stop = o.stop ∨
    o.stop = none ∧ e.ended ≠ none ∧ (e.marks n o).stop = some n := by
  by_cases he : e.ended = none
  · exact .inl (marks_stop_of_ended he)
  · by_cases ho : o.Open e.owner.1 e.owner.2
    · exact .inr ⟨ho.2, he, marks_stop_of_open he ho⟩
    · exact .inl (by rw [marks_of_not_open ho])

theorem mem_calls_cons : o ∈ calls (e :: tr) ↔
    e.opens tr.length = some o ∨ ∃ o' ∈ calls tr, e.marks tr.length o' = o := by
  rw [calls, List.mem_append, Option.mem_toList, List.mem_map]

theorem mem_calls_of_marks (h : o ∈ calls tr) : e.marks tr.length o ∈ calls (e :: tr) :=
  mem_calls_cons.2 (.inr ⟨o, h, rfl⟩)

/-- A call that has just started. -/
theorem of_opens (h : e.opens n = some o) : e.starts = some o.op ∧
    (o.client = e.owner.1 ∧ o.future = e.owner.2) ∧ o.start = n ∧ o.stop = none ∧ o.reg = none := by
  obtain ⟨op, hop, rfl⟩ := Option.map_eq_some_iff.1 h
  exact ⟨hop, ⟨rfl, rfl⟩, rfl, rfl, rfl⟩

end Calls

/-! ## The calls in progress -/

section Move

variable {L : Layout} {c f : ℕ} {w w' : View} {e : Event}

/-- A move goes on with what its future is busy with, starts an operation if it is idle, or
    ends one. -/
theorem Move.op_cases (h : Move L c f w e w') :
    (e.starts = none ∧ e.ended = none ∧ w'.phase.op = w.phase.op) ∨
    (e.ended = none ∧ w.phase = .idle ∧ e.starts = w'.phase.op ∧ e.starts ≠ none) ∨
    (e.starts = none ∧ w'.phase = .idle ∧ e.ended = w.phase.op ∧ e.ended ≠ none) := by
  cases h with
  | putHit | putMiss | getStart => exact .inr (.inl ⟨rfl, rfl, rfl, by simp [Event.starts]⟩)
  | chainDone | casDone | getDone | backDone =>
    exact .inr (.inr ⟨rfl, rfl, rfl, by simp [Event.ended]⟩)
  | _ => exact .inl ⟨rfl, rfl, rfl⟩

/-- An operation is started in an idle future, which is busy with it from then on. -/
theorem Move.of_starts {o : Op} (h : Move L c f w e w') (ho : e.starts = some o) :
    w.phase = .idle ∧ w'.phase.op = some o := by
  rcases h.op_cases with ⟨hn, _⟩ | ⟨_, hidle, hw, _⟩ | ⟨hn, _⟩
  · exact absurd (ho.symm.trans hn) (by simp)
  · exact ⟨hidle, hw.symm.trans ho⟩
  · exact absurd (ho.symm.trans hn) (by simp)

theorem Phase.op_eq_none {ph : Phase} : ph.op = none ↔ ph = .idle := by
  cases ph <;> simp [Phase.op]

theorem Phase.key_eq_of_op {ph : Phase} {o : Op} (h : ph.op = some o) : ph.key = some o.key := by
  cases ph <;> cases h <;> rfl

end Move

/-- The call `o` comes after the call `o'`: it starts after it, and when it is over if they
    are of the same future. -/
def OpCall.After (o o' : OpCall) : Prop :=
  o'.start < o.start ∧
    (o.client = o'.client → o.future = o'.future → callHistory.Before o' o)

/-- What is kept of the calls of a run. -/
structure HistoryOk (L : Layout) (tr : List Event) (a : Proto) : Prop where
  owner : ∀ o ∈ calls tr, o.client < L.numClients ∧ o.future < L.asyncParallelism
  start_lt : ∀ o ∈ calls tr, o.start < tr.length
  stop_lt : ∀ o ∈ calls tr, ∀ t, o.stop = some t → o.start < t ∧ t < tr.length
  /-- The calls in progress are what their futures are busy with. -/
  op : ∀ o ∈ calls tr, o.stop = none → (a.phase o.client o.future).op = some o.op
  exists_open : ∀ c f, a.phase c f ≠ .idle → ∃ o ∈ calls tr, o.Open c f
  after : (calls tr).Pairwise OpCall.After

namespace HistoryOk

variable {L : Layout} {H : Proto → Event → Prop} {tr : List Event} {a : Proto} {c f : ℕ}
  {e : Event} {w : View} {o o' : OpCall}

theorem init (L : Layout) : HistoryOk L [] {} where
  owner := by simp [calls]
  start_lt := by simp [calls]
  stop_lt := by simp [calls]
  op := by simp [calls]
  exists_open _ _ h := absurd rfl h
  after := .nil

/-- No call is in progress in an idle future. -/
theorem not_open_of_idle (h : HistoryOk L tr a) (hidle : a.phase c f = .idle)
    (ho : o ∈ calls tr) : ¬o.Open c f := by
  rintro ⟨⟨rfl, rfl⟩, hs⟩
  have hop := h.op o ho hs
  rw [hidle] at hop
  cases hop

/-- The calls of a future that starts an operation are over. -/
theorem before_opens (h : HistoryOk L tr a) (hidle : a.phase c f = .idle) (ho' : o' ∈ calls tr)
    (hc : o'.client = c) (hf : o'.future = f) (ho : o.start = tr.length) :
    callHistory.Before (e.marks tr.length o') o := by
  cases hs : o'.stop with
  | none => exact absurd ⟨⟨hc, hf⟩, hs⟩ (h.not_open_of_idle hidle ho')
  | some t =>
    rw [marks_of_stop hs]
    refine ⟨t, hs, ?_⟩
    change t < o.start
    rw [ho]
    exact (h.stop_lt o' ho' t hs).2

theorem after_marks {n : ℕ} (h : o.After o') :
    (e.marks n o).After (e.marks n o') := by
  rw [OpCall.After, marks_start, marks_start, marks_client, marks_client, marks_future,
    marks_future]
  refine ⟨h.1, fun hc hf => ?_⟩
  obtain ⟨t, ht, hlt⟩ := h.2 hc hf
  rw [marks_of_stop ht]
  refine ⟨t, ht, ?_⟩
  change t < (e.marks n o).start
  rw [marks_start]
  exact hlt

section Step

variable (h : HistoryOk L tr a) (hm : Move L c f (a.view c f) e w)

include h hm

theorem step_op (ho : o ∈ calls (e :: tr)) (hs : o.stop = none) :
    ((a.setView c f w).phase o.client o.future).op = some o.op := by
  have hown : e.owner = (c, f) := hm.owner_eq
  rcases mem_calls_cons.1 ho with hopen | ⟨o, hmem, rfl⟩
  · obtain ⟨hst, ⟨hcl, hfu⟩, _⟩ := of_opens hopen
    rw [hcl, hfu, hown, Proto.setView_phase_self]
    exact (hm.of_starts hst).2
  · have hs' : o.stop = none := by
      rcases marks_stop_cases (n := tr.length) (e := e) (o := o) with hst | ⟨hst, _⟩
      · exact hst.symm.trans hs
      · exact hst
    have hop := h.op o hmem hs'
    rw [marks_client, marks_future, marks_op]
    by_cases hcf : o.client ≠ c ∨ o.future ≠ f
    · rw [Proto.setView_phase_ne _ _ hcf]
      exact hop
    · push Not at hcf
      obtain ⟨rfl, rfl⟩ := hcf
      rw [Proto.setView_phase_self]
      rcases hm.op_cases with ⟨_, _, hw⟩ | ⟨_, hidle, _⟩ | ⟨_, _, _, hne⟩
      · exact hw.trans hop
      · exact absurd ⟨⟨rfl, rfl⟩, hs'⟩ (h.not_open_of_idle hidle hmem)
      · -- the call of the future would have ended
        have hend := marks_stop_of_open (n := tr.length) hne (o := o)
          (by rw [hown]; exact ⟨⟨rfl, rfl⟩, hs'⟩)
        exact absurd (hend.symm.trans hs) (by simp)

theorem step_exists_open {c' f' : ℕ} (hne : (a.setView c f w).phase c' f' ≠ .idle) :
    ∃ o ∈ calls (e :: tr), o.Open c' f' := by
  have hown : e.owner = (c, f) := hm.owner_eq
  by_cases hcf : c' ≠ c ∨ f' ≠ f
  · rw [Proto.setView_phase_ne _ _ hcf] at hne
    obtain ⟨o, ho, hopen⟩ := h.exists_open c' f' hne
    refine ⟨_, mem_calls_of_marks ho, ?_⟩
    rwa [marks_of_not_open]
    rintro ⟨⟨hc, hf⟩, _⟩
    rw [hown] at hc hf
    exact hcf.elim (absurd (hopen.1.1.symm.trans hc)) (absurd (hopen.1.2.symm.trans hf))
  · push Not at hcf
    obtain ⟨rfl, rfl⟩ := hcf
    rw [Proto.setView_phase_self] at hne
    rcases hm.op_cases with ⟨_, hend, hw⟩ | ⟨_, _, _, hst⟩ | ⟨_, hidle, _⟩
    · obtain ⟨o, ho, hopen⟩ := h.exists_open c' f' fun hidle =>
        hne (Phase.op_eq_none.1 (hw.trans (Phase.op_eq_none.2 hidle)))
      refine ⟨_, mem_calls_of_marks ho, ?_⟩
      rw [OpCall.Open, marks_client, marks_future, marks_stop_of_ended hend]
      exact hopen
    · obtain ⟨o, ho⟩ := Option.ne_none_iff_exists'.1 hst
      refine ⟨_, mem_calls_cons.2 (.inl (Option.map_eq_some_iff.2 ⟨o, ho, rfl⟩)), ?_⟩
      rw [hown]
      exact ⟨⟨rfl, rfl⟩, rfl⟩
    · exact absurd hidle hne

theorem step_after : (calls (e :: tr)).Pairwise OpCall.After := by
  have hown : e.owner = (c, f) := hm.owner_eq
  rw [calls, List.pairwise_append, List.pairwise_map]
  refine ⟨?_, h.after.imp after_marks, fun o ho o' ho' => ?_⟩
  · cases e.opens tr.length <;> simp
  · obtain ⟨o', hmem, rfl⟩ := List.mem_map.1 ho'
    obtain ⟨hst, ⟨hcl, hfu⟩, hn, _⟩ := of_opens (Option.mem_toList.1 ho)
    rw [hown] at hcl hfu
    rw [OpCall.After, marks_start, marks_client, marks_future]
    refine ⟨hn ▸ h.start_lt o' hmem, fun hc hf => ?_⟩
    exact h.before_opens (hm.of_starts hst).1 hmem (hc.symm.trans hcl) (hf.symm.trans hfu) hn

/-- Every step keeps what is kept of the calls. -/
theorem step (hc : c < L.numClients) (hf : f < L.asyncParallelism) :
    HistoryOk L (e :: tr) (a.setView c f w) := by
  have hown : e.owner = (c, f) := hm.owner_eq
  refine ⟨fun o ho => ?_, fun o ho => ?_, fun o ho t ht => ?_, fun o => h.step_op hm,
    fun c' f' => h.step_exists_open hm, h.step_after hm⟩
  · rcases mem_calls_cons.1 ho with hopen | ⟨o, hmem, rfl⟩
    · obtain ⟨_, ⟨hcl, hfu⟩, _⟩ := of_opens hopen
      rw [hcl, hfu, hown]
      exact ⟨hc, hf⟩
    · rw [marks_client, marks_future]
      exact h.owner o hmem
  · rw [List.length_cons, Nat.lt_succ_iff]
    rcases mem_calls_cons.1 ho with hopen | ⟨o, hmem, rfl⟩
    · exact (of_opens hopen).2.2.1.le
    · rw [marks_start]
      exact (h.start_lt o hmem).le
  · rw [List.length_cons, Nat.lt_succ_iff]
    rcases mem_calls_cons.1 ho with hopen | ⟨o, hmem, rfl⟩
    · exact absurd ((of_opens hopen).2.2.2.1.symm.trans ht) (by simp)
    · rw [marks_start]
      rcases marks_stop_cases (n := tr.length) (e := e) (o := o) with hs | ⟨_, _, hs⟩
      · exact (h.stop_lt o hmem t (hs.symm.trans ht)).imp_right le_of_lt
      · obtain rfl := Option.some.inj (hs.symm.trans ht)
        exact ⟨h.start_lt o hmem, le_rfl⟩

end Step

theorem run (h : Proto.Run L H tr a) : HistoryOk L tr a := by
  refine h.invariant (P := HistoryOk L) (.init L) fun tr a e a' _ ih hs => ?_
  obtain ⟨c, f, w, hc, hf, _, hm, rfl⟩ := hs
  exact ih.step hm hc hf

end HistoryOk

end DiscoSkip
