import Mathlib.Data.List.Basic

/-!
# Machines and their runs

A *trace* of a labelled transition relation is a finite sequence of its steps,
recorded by the list of their labels, the latest first.

* `Trace.invariant`: what holds at the start and is kept by every step holds at
  the end;
* `Trace.of_append`: a trace passes through a state after every earlier part of
  it, and the rest is a trace from there;
* `Trace.guard`: a trace whose labels all satisfy a property is one of the steps
  with such labels;
* `Trace.simulate`: a relation between the states of two transition relations,
  whose steps match under it, takes the traces of one to traces of the other;
* `Trace.expand`: the same where a step is matched by several ones.

A *machine* has an initial state and a partial step, taking an action to the
event it causes and the next state. Its *runs* are the traces of its steps, by
their events, from the initial state, each admitted by a guard on the state and
the action. Playing a list of actions, checking the guard at each, gives a run
(`run_of_play`, the handle for concrete runs).
-/

namespace DiscoSkip.Lib

section Trace

variable {S T E : Type*}

/-- The traces of the transition relation `R` from the state `s₀`. -/
inductive Trace (R : S → E → S → Prop) (s₀ : S) : List E → S → Prop
  | nil : Trace R s₀ [] s₀
  | cons {tr : List E} {s s' : S} {e : E} :
      Trace R s₀ tr s → R s e s' → Trace R s₀ (e :: tr) s'

namespace Trace

variable {R R' : S → E → S → Prop} {s₀ s : S} {tr : List E}

/-- An invariant of the labels and the state holds at the end of every trace. -/
theorem invariant {P : List E → S → Prop} (h0 : P [] s₀)
    (hs : ∀ tr s e s', Trace R s₀ tr s → P tr s → R s e s' → P (e :: tr) s')
    (h : Trace R s₀ tr s) : P tr s := by
  induction h with
  | nil => exact h0
  | cons hr hst ih => exact hs _ _ _ _ hr ih hst

/-- A trace passes through a state after every earlier part of it. -/
theorem of_append {t₁ t₂ : List E} (h : Trace R s₀ (t₁ ++ t₂) s) :
    ∃ s₁, Trace R s₀ t₂ s₁ ∧ Trace R s₁ t₁ s := by
  induction t₁ generalizing s with
  | nil => exact ⟨s, h, .nil⟩
  | cons e t₁ ih =>
    cases h with
    | cons hr hst =>
      obtain ⟨s₁, h₁, h₂⟩ := ih hr
      exact ⟨s₁, h₁, .cons h₂ hst⟩

/-- A trace goes on with one from its end. -/
theorem append {t₁ t₂ : List E} {s₁ : S} (h : Trace R s₀ t₂ s₁) (h' : Trace R s₁ t₁ s) :
    Trace R s₀ (t₁ ++ t₂) s := by
  induction h' with
  | nil => exact h
  | cons _ hst ih => exact .cons ih hst

/-- The last step of a trace. -/
theorem last {e : E} (h : Trace R s₀ (e :: tr) s) : ∃ s', Trace R s₀ tr s' ∧ R s' e s := by
  cases h with
  | cons hr hst => exact ⟨_, hr, hst⟩

/-- The trace whose labels all satisfy `Q`, by the steps with such labels. -/
theorem guard {Q : E → Prop} (h : Trace R s₀ tr s) (hQ : ∀ e ∈ tr, Q e) :
    Trace (fun s e s' => R s e s' ∧ Q e) s₀ tr s := by
  induction h with
  | nil => exact .nil
  | cons _ hst ih =>
    exact .cons (ih fun e he => hQ e (List.mem_cons_of_mem _ he)) ⟨hst, hQ _ List.mem_cons_self⟩

/-- A simulation takes traces to traces. -/
theorem simulate {R' : T → E → T → Prop} {t₀ : T} {C : S → T → Prop} (h0 : C s₀ t₀)
    (hs : ∀ s t e s', C s t → R s e s' → ∃ t', R' t e t' ∧ C s' t') (h : Trace R s₀ tr s) :
    ∃ t, Trace R' t₀ tr t ∧ C s t := by
  induction h with
  | nil => exact ⟨t₀, .nil, h0⟩
  | cons _ hst ih =>
    obtain ⟨t, ht, hC⟩ := ih
    obtain ⟨t', hst', hC'⟩ := hs _ _ _ _ hC hst
    exact ⟨t', .cons ht hst', hC'⟩

/-- A simulation which matches every step by those with the labels `g e`, starting where a
    trace has come to, takes traces to traces. -/
theorem expand {F : Type*} {R' : T → F → T → Prop} {t₀ : T} {C : S → T → Prop} (g : E → List F)
    (h0 : C s₀ t₀)
    (hs : ∀ tr s t e s', Trace R' t₀ tr t → C s t → R s e s' → ∃ t', Trace R' t (g e) t' ∧ C s' t')
    (h : Trace R s₀ tr s) : ∃ t, Trace R' t₀ (tr.flatMap g) t ∧ C s t := by
  induction h with
  | nil => exact ⟨t₀, .nil, h0⟩
  | cons _ hst ih =>
    obtain ⟨t, ht, hC⟩ := ih
    obtain ⟨t', ht', hC'⟩ := hs _ _ _ _ _ ht hC hst
    exact ⟨t', ht.append ht', hC'⟩

end Trace

end Trace

/-- A machine with states `S`, actions `A` and events `E`. -/
structure Machine (S A E : Type*) where
  /-- The initial state. -/
  init : S
  /-- The step of an action, if it is enabled: its event and the next state. -/
  step : S → A → Option (E × S)

namespace Machine

variable {S A E : Type*} (m : Machine S A E)

/-- The steps of `m` admitted by the guard `G`. -/
def Step (G : S → A → Prop) (s : S) (e : E) (s' : S) : Prop :=
  ∃ a, G s a ∧ m.step s a = some (e, s')

/-- The runs of `m` whose steps are all admitted by the guard `G`: the events of
    the run, the latest first, and the state it ends in. -/
def Run (G : S → A → Prop) : List E → S → Prop := Trace (m.Step G) m.init

variable (G : S → A → Prop) [∀ s a, Decidable (G s a)]

/-- Playing the actions in turn from the state `s`, after the events `tr`, as
    long as they are admitted and enabled. -/
def playFrom : List A → List E → S → Option (List E × S)
  | [], tr, s => some (tr, s)
  | a :: acts, tr, s =>
    if G s a then
      match m.step s a with
      | some (e, s') => playFrom acts (e :: tr) s'
      | none => none
    else none

/-- Playing the actions in turn from the initial state. -/
def play (acts : List A) : Option (List E × S) := m.playFrom G acts [] m.init

variable {m G}

theorem trace_of_playFrom {acts : List A} {tr tr' : List E} {s₀ s s' : S}
    (h : Trace (m.Step G) s₀ tr s) (hp : m.playFrom G acts tr s = some (tr', s')) :
    Trace (m.Step G) s₀ tr' s' := by
  induction acts generalizing tr s with
  | nil =>
    simp only [Machine.playFrom, Option.some.injEq, Prod.mk.injEq] at hp
    exact hp.1 ▸ hp.2 ▸ h
  | cons a acts ih =>
    rw [Machine.playFrom] at hp
    split at hp
    · next hg =>
      split at hp
      · next hst => exact ih (.cons h ⟨a, hg, hst⟩) hp
      · exact absurd hp (by simp)
    · exact absurd hp (by simp)

/-- What a list of actions that can be played leads to is where a run leads. -/
theorem exists_run_of_play {B : Type*} (f : List E × S → B) (acts : List A) {b : B}
    (h : (m.play G acts).map f = some b) : ∃ tr s, m.Run G tr s ∧ f (tr, s) = b := by
  obtain ⟨⟨tr, s⟩, hp, hb⟩ := Option.map_eq_some_iff.1 h
  exact ⟨tr, s, trace_of_playFrom .nil hp, hb⟩

/-- The same for a run that goes on with further actions. -/
theorem exists_trace_of_play {B : Type*} (f : List E × S → List E × S → B) (acts acts' : List A)
    {b : B} (h : ((m.play G acts).bind fun r => (m.playFrom G acts' [] r.2).map (f r)) = some b) :
    ∃ tr s tr' s', m.Run G tr s ∧ Trace (m.Step G) s tr' s' ∧ f (tr, s) (tr', s') = b := by
  obtain ⟨⟨tr, s⟩, hp, h⟩ := Option.bind_eq_some_iff.1 h
  obtain ⟨⟨tr', s'⟩, hp', hb⟩ := Option.map_eq_some_iff.1 h
  exact ⟨tr, s, tr', s', trace_of_playFrom .nil hp, trace_of_playFrom .nil hp', hb⟩

/-- The events of a list of actions that can be played are those of a run. -/
theorem run_of_play (acts : List A) {tr : List E}
    (h : (m.play G acts).map Prod.fst = some tr) : ∃ s, m.Run G tr s := by
  obtain ⟨_, s, hs, rfl⟩ := exists_run_of_play Prod.fst acts h
  exact ⟨s, hs⟩

end Machine

end DiscoSkip.Lib
