import DiscoSkip.Monotone
import DiscoSkip.Progress

/-!
# A Put left alone

A Put finishes once no other operation acts on its key. A *round* is over when the future
of the Put steps forward with none of its requests in flight; the other clients may do
anything in it, but on the key (`Cluster.Round`).

Five rounds are enough (`finishes`), whatever the Put and the others have done before.
What its future knows about the cells gets better with each of them (`Ahead`):

* the answers that are there when the Put is left alone may be outdated, but those to the
  CASes of a later round are not;
* the slots that a reset brings back may have been overwritten since they succeeded, so
  that the target is outrun once more, at one of them. From then on it is not: what has
  overwritten a register that one of its slots expects is below the target.
-/

namespace DiscoSkip

open Function

/-! ## The rounds to go -/

/-- The phases of a Put to the key `k` that is over after at most so many rounds, if no
    other operation acts on the cells of the key. -/
inductive Ahead (L : Layout) (c k : ℕ) (cells : ℕ → ℕ → Register) : ℕ → Phase → Prop
  | known {v t need exp got} :
      (∀ i < L.effectiveMajority, need i = true →
        (got i = none → exp i = cells (srv L c i) k) ∧ ∀ x, got i = some x → x = exp i) →
      Ahead L c k cells 1 (.putCas k v t need exp got)
  /-- What is not known is below the target. -/
  | below {v t need exp got} :
      (∀ i < L.effectiveMajority, need i = true →
        (got i = none → exp i = cells (srv L c i) k ∨ (cells (srv L c i) k).seq < t.seq) ∧
          ∀ x, got i = some x → x = exp i ∨ x = cells (srv L c i) k ∧ x.seq < t.seq) →
      Ahead L c k cells 2 (.putCas k v t need exp got)
  /-- All slots up to `m` are CASed. -/
  | upTo {v t need exp got} (m : ℕ) : (∀ i < L.effectiveMajority, need i = true → i ≤ m) →
      (∀ i < L.effectiveMajority, i ≤ m → ∀ x, got i = some x →
        x = exp i ∧ cells (srv L c i) k = t ∨ x = cells (srv L c i) k) →
      Ahead L c k cells 3 (.putCas k v t need exp got)
  | read {v got} : Ahead L c k cells 4 (.putRead k v got)
  /-- The answers are up to date. -/
  | fresh {v t need exp got} :
      (∀ i < L.effectiveMajority, need i = true → ∀ x, got i = some x →
        x = exp i ∨ x = cells (srv L c i) k) →
      Ahead L c k cells 4 (.putCas k v t need exp got)
  | chain {v cached got} : Ahead L c k cells 5 (.putChain k v cached got)
  | cas {v t need exp got} : Ahead L c k cells 5 (.putCas k v t need exp got)

section Ahead

variable {L : Layout} {c f k n i : ℕ} {cells cells' : ℕ → ℕ → Register} {v : UInt64}
  {t : Register} {need : ℕ → Bool} {exp g : ℕ → Register} {got : ℕ → Option Register}

/-- Only the cells of the key matter. -/
theorem Ahead.congr {ph : Phase} (h : Ahead L c k cells n ph)
    (hcells : ∀ i < L.effectiveMajority, cells' (srv L c i) k = cells (srv L c i) k) :
    Ahead L c k cells' n ph := by
  cases h with
  | known h => exact .known fun i hi => hcells i hi ▸ h i hi
  | below h => exact .below fun i hi => hcells i hi ▸ h i hi
  | upTo m hm h => exact .upTo m hm fun i hi => hcells i hi ▸ h i hi
  | read => exact .read
  | fresh h => exact .fresh fun i hi => hcells i hi ▸ h i hi
  | chain => exact .chain
  | cas => exact .cas

theorem Ahead.key_eq {k' : ℕ} (h : Ahead L c k cells n (.putCas k' v t need exp got)) : k' = k := by
  cases h <;> rfl

section Answer

variable (hq : L.effectiveMajority ≤ L.numServers)

include hq in
/-- What holds of all slots, with what a CAS of the slot `i` has found. -/
theorem forall_answer {P : ℕ → Option Register → Register → Prop} (hi : i < L.effectiveMajority)
    (h : ∀ j < L.effectiveMajority, P j (got j) (cells (srv L c j) k))
    (heq : cells (srv L c i) k = exp i → P i (some (exp i)) t)
    (hne : cells (srv L c i) k ≠ exp i →
      P i (some (cells (srv L c i) k)) (cells (srv L c i) k)) :
    ∀ j < L.effectiveMajority, P j (update got i (some (cells (srv L c i) k)) j)
      (casCell cells (srv L c i) k (exp i) t (srv L c j) k) := by
  intro j hj
  by_cases hji : j = i
  · subst hji
    rw [update_self]
    by_cases he : cells (srv L c j) k = exp j
    · rw [casCell_self he, he]
      exact heq he
    · rw [casCell, if_neg he]
      exact hne he
  · have hsrv : srv L c j ≠ srv L c i := fun e =>
      hji (DsConf.quorumIndices_inj (d := .ofClient L c) hq hj hi e)
    rw [update_of_ne hji, casCell_ne (.inl hsrv)]
    exact h j hj

include hq in
/-- An answer to a CAS leaves the rounds to go. -/
theorem Ahead.answer (h : Ahead L c k cells n (.putCas k v t need exp got))
    (hi : i < L.effectiveMajority) (hg : got i = none) :
    Ahead L c k (casCell cells (srv L c i) k (exp i) t) n
      (.putCas k v t need exp (update got i (some (cells (srv L c i) k)))) := by
  cases h with
  | known h =>
    refine .known (forall_answer hq (P := fun j o y => need j = true →
      (o = none → exp j = y) ∧ ∀ x, o = some x → x = exp j) hi h ?_ ?_)
    · exact fun _ _ => ⟨nofun, fun x hx => (Option.some.inj hx).symm⟩
    · exact fun hne hn => absurd ((h i hi hn).1 hg).symm hne
  | below h =>
    refine .below (forall_answer hq (P := fun j o y => need j = true →
      (o = none → exp j = y ∨ y.seq < t.seq) ∧
        ∀ x, o = some x → x = exp j ∨ x = y ∧ x.seq < t.seq) hi h ?_ ?_)
    · exact fun _ _ => ⟨nofun, fun x hx => .inl (Option.some.inj hx).symm⟩
    · intro hne hn
      have hlt := ((h i hi hn).1 hg).resolve_left hne.symm
      exact ⟨nofun, fun x hx => .inr (Option.some.inj hx ▸ ⟨rfl, hlt⟩)⟩
  | upTo m hm h =>
    refine .upTo m hm (forall_answer hq (P := fun j o y => j ≤ m → ∀ x, o = some x →
      x = exp j ∧ y = t ∨ x = y) hi h ?_ ?_)
    · exact fun _ _ x hx => .inl ⟨(Option.some.inj hx).symm, rfl⟩
    · exact fun _ _ x hx => .inr (Option.some.inj hx).symm
  | fresh h =>
    refine .fresh (forall_answer hq (P := fun j o y => need j = true → ∀ x, o = some x →
      x = exp j ∨ x = y) hi h ?_ ?_)
    · exact fun _ _ x hx => .inl (Option.some.inj hx).symm
    · exact fun _ _ x hx => .inr (Option.some.inj hx).symm
  | cas => exact .cas

end Answer

/-- CASes that have found the cells as they are succeed when they are tried again. -/
theorem Ahead.known_retry
    (h : ∀ i < L.effectiveMajority, need i = true → g i = exp i ∨ g i = cells (srv L c i) k) :
    Ahead L c k cells 1 (.putCas k v t (fun i => need i && decide (g i ≠ exp i))
      (fun i => if need i then g i else exp i)
      fun i => if need i = true ∧ g i ≠ exp i then none else some (g i)) := by
  refine .known fun i hi hn => ?_
  obtain ⟨hn, hne⟩ := Bool.and_eq_true_iff.1 hn
  have hne := of_decide_eq_true hne
  rw [if_pos hn, if_pos ⟨hn, hne⟩]
  exact ⟨fun _ => (h i hi hn).resolve_left hne, nofun⟩

section Ready

variable (hgot : ∀ i < L.effectiveMajority, got i = some (g i))

include hgot

/-- Trying the failed CASes again brings the end a round nearer. -/
theorem Ahead.retry (h : Ahead L c k cells n (.putCas k v t need exp got))
    (hex : ∃ i < L.effectiveMajority, need i = true ∧ g i ≠ exp i) :
    ∃ n' < n, Ahead L c k cells n' (.putCas k v t (fun i => need i && decide (g i ≠ exp i))
      (fun i => if need i then g i else exp i)
      fun i => if need i = true ∧ g i ≠ exp i then none else some (g i)) := by
  cases h with
  | known h =>
    obtain ⟨i, hi, hn, hne⟩ := hex
    exact absurd ((h i hi hn).2 _ (hgot i hi)) hne
  | below h =>
    refine ⟨1, by decide, known_retry fun i hi hn => ?_⟩
    exact ((h i hi hn).2 _ (hgot i hi)).imp_right And.left
  | upTo m hm h =>
    refine ⟨1, by decide, known_retry fun i hi hn => ?_⟩
    exact (h i hi (hm i hi hn) _ (hgot i hi)).imp_left And.left
  | fresh h => exact ⟨1, by decide, known_retry fun i hi hn => h i hi hn _ (hgot i hi)⟩
  | cas =>
    refine ⟨4, by decide, .fresh fun i _ hn x hx => ?_⟩
    obtain ⟨hn, hne⟩ := Bool.and_eq_true_iff.1 hn
    rw [if_pos ⟨hn, of_decide_eq_true hne⟩] at hx
    exact nomatch hx

/-- And so does a reset. -/
theorem Ahead.reset (h : Ahead L c k cells n (.putCas k v t need exp got)) {m : ℕ}
    (hm : m < L.effectiveMajority) (hout : need m = true ∧ g m ≠ exp m ∧ t.seq ≤ (g m).seq)
    (hlt : (g m).seq < 65535) :
    ∃ n' < n, Ahead L c k cells n' (.putCas k v (regOf L c ((g m).seq + 1) v)
      (fun i => decide (i ≤ m)) g fun i => if i ≤ m then none else some (g i)) := by
  obtain ⟨hn, hne, hle⟩ := hout
  have hreset : Ahead L c k cells 3 (.putCas k v (regOf L c ((g m).seq + 1) v)
      (fun i => decide (i ≤ m)) g fun i => if i ≤ m then none else some (g i)) := by
    refine .upTo m (fun i _ hi => of_decide_eq_true hi) fun i _ him x hx => ?_
    rw [if_pos him] at hx
    exact nomatch hx
  cases h with
  | known h => exact absurd ((h m hm hn).2 _ (hgot m hm)) hne
  | below h =>
    obtain he | ⟨-, hlt⟩ := (h m hm hn).2 _ (hgot m hm)
    · exact absurd he hne
    · exact absurd hle (UInt16.not_le.2 hlt)
  | upTo m' hm' h =>
    refine ⟨2, by decide, .below fun i hi him => ?_⟩
    have him := of_decide_eq_true him
    rw [if_pos him]
    refine ⟨fun _ => ?_, nofun⟩
    -- a slot that has succeeded holds the target that was outrun
    obtain ⟨-, ht⟩ | hx := h i hi (him.trans (hm' m hm hn)) _ (hgot i hi)
    · exact .inr (ht ▸ Register.seq_lt_succ hlt hle)
    · exact .inl hx
  | fresh => exact ⟨3, by decide, hreset⟩
  | cas => exact ⟨3, by decide, hreset⟩

end Ready

/-- A move of the Put ends it, or leaves the rounds to go, one less if the future was free
    to step. -/
theorem Ahead.move (hq : L.effectiveMajority ≤ L.numServers) {w w' : View} {e : Event}
    (h : Ahead L c k w.cells n w.phase) (hok : PhaseOk L w.phase) (hm : Move L c f w e w') :
    (∃ v t, e = .putDone c f k v t) ∨
      ∃ n', (n' < n ∨ n' = n ∧ w.phase.Waiting L.effectiveMajority) ∧
        Ahead L c k w'.cells n' w'.phase := by
  cases hm with
  | stutter hwait => exact .inr ⟨n, .inr ⟨rfl, hwait⟩, h⟩
  | readPut hi hg =>
    cases h
    exact .inr ⟨4, .inr ⟨rfl, _, hi, hg⟩, .read⟩
  | casChain hi hg =>
    cases h
    exact .inr ⟨5, .inr ⟨rfl, _, hi, hg⟩, .chain⟩
  | casPut hi hg =>
    obtain rfl := h.key_eq
    exact .inr ⟨n, .inr ⟨rfl, _, hi, hg⟩, h.answer hq hi hg⟩
  | readDone =>
    cases h
    exact .inr ⟨3, .inl (by decide), .upTo L.effectiveMajority (fun i hi _ => hi.le) nofun⟩
  | chainDone =>
    cases h
    exact .inl ⟨_, _, rfl⟩
  | chainRetry hgot =>
    cases h
    refine .inr ⟨4, .inl (by decide), .fresh fun i _ hn x hx => ?_⟩
    rw [if_neg (of_decide_eq_true hn)] at hx
    exact nomatch hx
  | casDone =>
    obtain rfl := h.key_eq
    exact .inl ⟨_, _, rfl⟩
  | casRetry hgot hex =>
    obtain rfl := h.key_eq
    obtain ⟨n', hn, h'⟩ := h.retry hgot hex
    exact .inr ⟨n', .inl hn, h'⟩
  | casReset hgot hm hout =>
    obtain rfl := h.key_eq
    obtain ⟨n', hn, h'⟩ := h.reset hgot hm hout (hok.got_lt _ hm _ (hgot _ hm))
    exact .inr ⟨n', .inl hn, h'⟩
  | putHit | putMiss | getStart | readGet | casGet | getDone | getMax | backDone => cases h

/-! ## Rounds -/

/-- If it acts on the key `k`, it is of the future `f` of the client `c`. -/
def Event.LeavesTo (c f k : ℕ) : Event → Prop
  | .read c' f' _ k' _ | .cas c' f' _ k' .. => k' = k → c' = c ∧ f' = f
  | _ => True

theorem Event.leavesTo_of_owner {e : Event} (h : e.owner = (c, f)) : e.LeavesTo c f k := by
  obtain ⟨rfl, rfl⟩ := Prod.mk.inj h
  cases e <;> first | exact trivial | exact fun _ => ⟨rfl, rfl⟩

/-- A step that leaves the key to the Put ends it, or leaves the rounds to go. -/
theorem Ahead.step (hq : L.effectiveMajority ≤ L.numServers) {H : Proto → Event → Prop}
    {a a' : Proto} {e : Event} (h : Ahead L c k a.cells n (a.phase c f)) (hb : Bounded L a)
    (hs : Proto.Step L H a e a') (he : e.LeavesTo c f k) :
    (∃ v t, e = .putDone c f k v t) ∨
      ∃ n', (n' < n ∨ n' = n ∧
          (e.owner = (c, f) → (a.phase c f).Waiting L.effectiveMajority)) ∧
        Ahead L c k a'.cells n' (a'.phase c f) := by
  obtain ⟨c', f', w, -, -, -, hm, rfl⟩ := hs
  by_cases hne : c ≠ c' ∨ f ≠ f'
  · -- a move of another future
    have howner : e.owner ≠ (c, f) := by
      rw [hm.owner_eq]
      rintro ⟨⟩
      simp at hne
    refine .inr ⟨n, .inr ⟨rfl, fun h => absurd h howner⟩, ?_⟩
    rw [Proto.setView_phase_ne _ _ hne]
    refine h.congr fun i _ => ?_
    rw [Proto.setView_cells]
    obtain ⟨hc, -⟩ | ⟨j, k', kd, x, t, -, rfl, hc⟩ := hm.cells_cases
    · rw [hc]
      rfl
    · rw [hc]
      refine casCell_ne (.inr fun hk => howner ?_)
      obtain ⟨rfl, rfl⟩ := he hk.symm
      rfl
  · push Not at hne
    obtain ⟨rfl, rfl⟩ := hne
    rw [Proto.setView_phase_self, Proto.setView_cells]
    obtain hd | ⟨n', hn, h'⟩ := h.move hq (w := a.view c f) (hb.phase c f) hm
    · exact .inl hd
    · exact .inr ⟨n', hn.imp_right fun h => ⟨h.1, fun _ => h.2⟩, h'⟩

/-- And so does a trace. -/
theorem Ahead.trace (hq : L.effectiveMajority ≤ L.numServers) {H : Proto → Event → Prop}
    (hH : ∀ a e, H a e → e.SeqBelow ∧ e.LeavesTo c f k) {a a' : Proto} {tr : List Event}
    (h : Ahead L c k a.cells n (a.phase c f)) (hb : Bounded L a)
    (ht : Lib.Trace (Proto.Step L H) a tr a') :
    Bounded L a' ∧ ((∃ v t, .putDone c f k v t ∈ tr) ∨
      ∃ n' ≤ n, Ahead L c k a'.cells n' (a'.phase c f)) := by
  refine ht.invariant (P := fun tr a => Bounded L a ∧ ((∃ v t, .putDone c f k v t ∈ tr) ∨
    ∃ n' ≤ n, Ahead L c k a.cells n' (a.phase c f))) ⟨hb, .inr ⟨n, le_rfl, h⟩⟩ ?_
  rintro tr a e a' - ⟨hb, h⟩ hs
  obtain ⟨hseq, he⟩ : e.SeqBelow ∧ e.LeavesTo c f k := by
    obtain ⟨_, _, _, _, _, he, _⟩ := hs
    exact hH _ _ he
  refine ⟨hb.step hs hseq, ?_⟩
  obtain ⟨v, t, hd⟩ | ⟨n', hn, h⟩ := h
  · exact .inl ⟨v, t, List.mem_cons_of_mem _ hd⟩
  · obtain ⟨v, t, rfl⟩ | ⟨n'', hn', h'⟩ := h.step hq hb hs he
    · exact .inl ⟨v, t, List.mem_cons_self⟩
    · refine .inr ⟨n'', ?_, h'⟩
      obtain hlt | ⟨rfl, -⟩ := hn'
      · exact hlt.le.trans hn
      · exact hn

end Ahead

namespace Cluster

variable (L : Layout) (c f k : ℕ)

/-- A round of the future `f` of the client `c`, left alone with the key `k`: at its end,
    the future steps forward with nothing in flight. -/
def Round (s : Cluster) (tr : List Event) (s' : Cluster) : Prop :=
  ∃ e tr₀ s₀, tr = e :: tr₀ ∧ Lib.Trace ((machine L).Step Any) s tr₀ s₀ ∧
    (∀ r, s₀.inflight c f r = none) ∧ s₀.step L (.tryStepForward c f) = some (e, s') ∧
    ∀ e ∈ tr, e.LeavesTo c f k

end Cluster

variable {L : Layout} {c f k n : ℕ} {s s' : Cluster} {a : Proto}

/-- A future with nothing in flight is not waiting. -/
theorem Sim.not_waiting (h : Sim L s a) (hne : a.phase c f ≠ .idle)
    (hnone : ∀ r, s.inflight c f r = none) : ¬ (a.phase c f).Waiting L.effectiveMajority := by
  intro hw
  obtain ⟨got, op, hi, -, hwait⟩ := (h.phase c f).inFlight hne
  obtain ⟨i, hiq, hg⟩ := hwait hw
  have hsome := hi.1 i hiq
  rw [hnone, if_pos hg] at hsome
  exact nomatch hsome

theorem Ahead.ne_idle {cells : ℕ → ℕ → Register} {ph : Phase} (h : Ahead L c k cells n ph) :
    ph ≠ .idle := by
  rintro rfl
  cases h

/-- A round ends the Put, or brings its end nearer. -/
theorem Sim.round (hq : L.effectiveMajority ≤ L.numServers) (h : Sim L s a) (hb : Bounded L a)
    (ha : Ahead L c k a.cells n (a.phase c f)) {tr : List Event}
    (hr : Cluster.Round L c f k s tr s') (hseq : ∀ e ∈ tr, e.SeqBelow) :
    (∃ v t, .putDone c f k v t ∈ tr) ∨
      ∃ n' < n, ∃ a', Sim L s' a' ∧ Bounded L a' ∧ Ahead L c k a'.cells n' (a'.phase c f) := by
  have hn : 0 < L.numServers := L.effectiveMajority_pos.trans_le hq
  obtain ⟨e, tr₀, s₀, rfl, ht, hnone, hst, hleave⟩ := hr
  obtain ⟨a₀, ht₀, h₀⟩ := h.trace (H := fun _ _ => True)
    (Q := fun e => e.SeqBelow ∧ e.LeavesTo c f k) hq hn (fun _ _ _ _ _ _ _ _ => trivial) ht
    fun e he => ⟨hseq e (List.mem_cons_of_mem _ he), hleave e (List.mem_cons_of_mem _ he)⟩
  obtain ⟨hb₀, hd | ⟨n₀, hle, ha₀⟩⟩ := ha.trace hq (fun _ _ h => h.2) hb ht₀
  · obtain ⟨v, t, hd⟩ := hd
    exact .inl ⟨v, t, List.mem_cons_of_mem _ hd⟩
  · -- the step at the end
    have hseq' := hseq e List.mem_cons_self
    have hwait := h₀.not_waiting ha₀.ne_idle hnone
    obtain ⟨w, hm, h'⟩ := h₀.step_owner hq hn hst rfl
    obtain ⟨hc, hf⟩ := h₀.range c f ha₀.ne_idle
    have hs : Proto.Step L (fun _ _ => True) a₀ e (a₀.setView c f w) :=
      ⟨c, f, w, hc, hf, trivial, hm, rfl⟩
    obtain ⟨v, t, rfl⟩ | ⟨n', hn', ha'⟩ := ha₀.step hq hb₀ hs (hleave e List.mem_cons_self)
    · exact .inl ⟨v, t, List.mem_cons_self⟩
    · obtain hlt | ⟨-, hw⟩ := hn'
      · exact .inr ⟨n', hlt.trans_le hle, _, h', hb₀.step hs hseq', ha'⟩
      · exact absurd (hw hm.owner_eq) hwait

/-- The rounds to go are enough. -/
theorem Sim.rounds (hq : L.effectiveMajority ≤ L.numServers) (h : Sim L s a) (hb : Bounded L a)
    (ha : Ahead L c k a.cells n (a.phase c f)) {rs : List (List Event)}
    (hr : Lib.Trace (Cluster.Round L c f k) s rs s') (hlen : n ≤ rs.length)
    (hseq : ∀ e ∈ rs.flatten, e.SeqBelow) : ∃ v t, .putDone c f k v t ∈ rs.flatten := by
  have hrs : (∀ e ∈ rs.flatten, e.SeqBelow) → (∃ v t, .putDone c f k v t ∈ rs.flatten) ∨
      ∃ n', n' + rs.length ≤ n ∧
        ∃ a', Sim L s' a' ∧ Bounded L a' ∧ Ahead L c k a'.cells n' (a'.phase c f) := by
    refine hr.invariant (P := fun rs s' => (∀ e ∈ rs.flatten, e.SeqBelow) →
      (∃ v t, .putDone c f k v t ∈ rs.flatten) ∨ ∃ n', n' + rs.length ≤ n ∧
        ∃ a', Sim L s' a' ∧ Bounded L a' ∧ Ahead L c k a'.cells n' (a'.phase c f))
      (fun _ => .inr ⟨n, le_rfl, a, h, hb, ha⟩) ?_
    rintro rs s tr s' - ih hr hseq
    rw [List.flatten_cons] at hseq ⊢
    obtain ⟨v, t, hd⟩ | ⟨n', hle, a', h', hb', ha'⟩ :=
      ih fun e he => hseq e (List.mem_append_right _ he)
    · exact .inl ⟨v, t, List.mem_append_right _ hd⟩
    · obtain ⟨v, t, hd⟩ | ⟨n'', hlt, ha''⟩ :=
        h'.round hq hb' ha' hr fun e he => hseq e (List.mem_append_left _ he)
      · exact .inl ⟨v, t, List.mem_append_left _ hd⟩
      · refine .inr ⟨n'', ?_, ha''⟩
        rw [List.length_cons]
        omega
  obtain hd | ⟨n', hle, a', -, -, ha'⟩ := hrs hseq
  · exact hd
  · obtain rfl : n' = 0 := by omega
    exact nomatch ha'

/-! ## There is a next round -/

theorem Cluster.execute_cases {r : ℕ} {op : Rdma} {e : Event}
    (h : s.execute c f r op = some (e, s')) :
    e.ended = none ∧ e.owner = (c, f) ∧
      s'.inflight c f = update (s.inflight c f) r none := by
  cases op with
  | read k' =>
    obtain ⟨rfl, rfl⟩ := Prod.mk.inj (Option.some.inj h)
    exact ⟨rfl, rfl, by simp [Cluster.complete, Cluster.setClient, Cluster.setInflight]⟩
  | cas k' x t =>
    obtain ⟨rfl, rfl⟩ := Prod.mk.inj (Option.some.inj h)
    refine ⟨rfl, rfl, ?_⟩
    rw [Cluster.ite_setCell]
    simp [Cluster.complete, Cluster.setClient, Cluster.setInflight]
  | bulk k' n => exact absurd (show none = some (e, s') from h) (Option.some_ne_none _).symm

/-- The requests of a future in flight can be executed. -/
theorem Sim.exists_executed (hq : L.effectiveMajority ≤ L.numServers) {m : ℕ} (h : Sim L s a)
    {o : Op} (ho : (a.phase c f).op = some o) (hm : ∀ r, m ≤ r → s.inflight c f r = none) :
    ∃ tr s' a', Lib.Trace ((Cluster.machine L).Step Cluster.Any) s tr s' ∧ Sim L s' a' ∧
      (a'.phase c f).op = some o ∧ (∀ r, s'.inflight c f r = none) ∧
      ∀ e ∈ tr, e.owner = (c, f) := by
  induction m generalizing s a with
  | zero => exact ⟨[], s, a, .nil, h, ho, fun r => hm r (Nat.zero_le r), nofun⟩
  | succ m ih =>
    cases hop : s.inflight c f m with
    | none =>
      refine ih h ho fun r hr => ?_
      obtain rfl | hlt := eq_or_lt_of_le hr
      · exact hop
      · exact hm r hlt
    | some op =>
      -- the request to the server `m` is executed first
      have hne : a.phase c f ≠ .idle := fun hi => by simp [hi, Phase.op] at ho
      obtain ⟨got, ops, hi, hbulk, -⟩ := (h.phase c f).inFlight hne
      obtain ⟨i, -, -, -, rfl⟩ := hi.slot hop
      obtain ⟨e, s₁, hex, -⟩ := s.execute_isSome (c := c) (f := f) (r := m) (hbulk i)
      obtain ⟨hend, howner, hinfl⟩ := Cluster.execute_cases hex
      obtain ⟨-, -, w, hmove, h₁⟩ := h.rdma hq hop hex
      have ho₁ : w.phase.op = some o := by
        obtain ⟨ho₁, -⟩ | ⟨-, hend'⟩ := hmove.op ho
        · exact ho₁
        · exact nomatch hend.symm.trans hend'
      have hst : s.step L (.rdma c f m) = some (e, s₁) := by simp only [Cluster.step, hop, hex]
      obtain ⟨tr, s', a', ht, h', ho', hnone, hown⟩ := ih h₁ (by rwa [Proto.setView_phase_self])
        (fun r hr => by
          rw [hinfl]
          obtain rfl | hlt := eq_or_lt_of_le hr
          · exact update_self ..
          · rw [update_of_ne hlt.ne']
            exact hm r hlt)
      have hst' : (Cluster.machine L).Step Cluster.Any s e s₁ :=
        ⟨.rdma c f m, trivial, hst⟩
      refine ⟨tr ++ [e], s', a', (Lib.Trace.cons .nil hst').append ht, h', ho', hnone, ?_⟩
      rintro e' he'
      obtain he' | he' := List.mem_append.1 he'
      · exact hown e' he'
      · rwa [List.mem_singleton.1 he']

/-- As long as the Put is not over, there is a next round, with its own steps only. -/
theorem Sim.exists_round (hq : L.effectiveMajority ≤ L.numServers) (h : Sim L s a) {o : Op}
    (ho : (a.phase c f).op = some o) (k : ℕ) :
    ∃ tr s', Cluster.Round L c f k s tr s' := by
  have hn : 0 < L.numServers := L.effectiveMajority_pos.trans_le hq
  have hne : a.phase c f ≠ .idle := fun hi => by simp [hi, Phase.op] at ho
  obtain ⟨got, ops, hi, -⟩ := (h.phase c f).inFlight hne
  have hout : ∀ r, L.numServers ≤ r → s.inflight c f r = none := fun r hr =>
    hi.2 r fun i _ he => absurd (DsConf.quorumIndices_lt (d := .ofClient L c) hn i)
      (not_lt.2 (he ▸ hr))
  obtain ⟨tr, s₀, a₀, ht, h₀, ho₀, hnone, hown⟩ := h.exists_executed hq ho hout
  have hne₀ : a₀.phase c f ≠ .idle := fun hi => by simp [hi, Phase.op] at ho₀
  obtain ⟨e, s', hst⟩ : ∃ e s', s₀.step L (.tryStepForward c f) = some (e, s') :=
    ⟨_, _, if_pos (h₀.range c f hne₀)⟩
  refine ⟨e :: tr, s', e, tr, s₀, rfl, ht, hnone, hst, fun e' he' => ?_⟩
  refine Event.leavesTo_of_owner ?_
  obtain rfl | he' := List.mem_cons.1 he'
  · exact Cluster.step_owner hst
  · exact hown e' he'

/-! ## The end of the Put -/

/-- A future whose Put is not over is in a phase of it. -/
theorem PhaseSim.ahead {d : DsConf} {o : OpFuture} {bufs : Scratch} {infl : ℕ → Option Rdma}
    {ph : Phase} (h : PhaseSim d o bufs infl ph) (hk : o.kind = .put)
    (hstep : o.putF.step ≠ .done) (cells : ℕ → ℕ → Register) :
    ∃ n ≤ 5, Ahead L c o.putF.key cells n ph := by
  cases ph with
  | idle => exact absurd (by simpa [OpFuture.isDone, hk, PutFuture.isDone] using h.1) hstep
  | putRead k v got =>
    obtain ⟨-, -, ⟨rfl, -⟩, -⟩ := h
    exact ⟨4, by decide, .read⟩
  | putChain k v cached got =>
    obtain ⟨-, -, ⟨rfl, -⟩, -⟩ := h
    exact ⟨5, le_rfl, .chain⟩
  | putCas k v t need exp got =>
    obtain ⟨-, -, ⟨rfl, -⟩, -⟩ := h
    exact ⟨5, le_rfl, .cas⟩
  | getRead => cases hk.symm.trans h.1
  | getBack => cases hk.symm.trans h.1

theorem Ahead.op {cells : ℕ → ℕ → Register} {ph : Phase} (h : Ahead L c k cells n ph) :
    ∃ v, ph.op = some (.put k v) := by
  cases h <;> exact ⟨_, rfl⟩

/-- A Put that is left alone on its key has a next round, and is over after five of them. -/
theorem finishes (hq : L.effectiveMajority ≤ L.numServers) {tr : List Event}
    (h : (Cluster.machine L).Run Cluster.Any tr s) (hseq : ∀ e ∈ tr, e.SeqBelow)
    (hkind : ((s.clients c).futures f).kind = .put)
    (hstep : ((s.clients c).futures f).putF.step ≠ .done)
    (hkey : ((s.clients c).futures f).putF.key = k) :
    (∃ r s', Cluster.Round L c f k s r s') ∧
      ∀ rs s', Lib.Trace (Cluster.Round L c f k) s rs s' → 5 ≤ rs.length →
        (∀ e ∈ rs.flatten, e.SeqBelow) → ∃ v t, .putDone c f k v t ∈ rs.flatten := by
  obtain ⟨a, hr, hs⟩ := exists_run (H := fun _ _ => True) hq (L.effectiveMajority_pos.trans_le hq)
    (fun _ _ _ _ _ _ _ _ => trivial) h hseq
  have hb : Bounded L a := .run (fun a e h => h.2) hr
  obtain ⟨n, hn, ha⟩ := (hs.phase c f).ahead (L := L) (c := c) hkind hstep a.cells
  rw [hkey] at ha
  obtain ⟨v, ho⟩ := ha.op
  exact ⟨hs.exists_round hq ho k,
    fun rs s' ht hlen hseq' => hs.rounds hq hb ha ht (hn.trans hlen) hseq'⟩

/-- For instance, the Put of the client 2, left alone with one of its CASes in flight, where
    the client 4 has written to the server 2. -/
theorem finishes_threeServers : ∃ tr s, (Cluster.machine (.threeServers 1 true true)).Run
    Cluster.Any tr s ∧ ((s.clients 2).futures 0).putF.step = .cas ∧
      (∃ r s', Cluster.Round (.threeServers 1 true true) 2 0 7 s r s') ∧
        ∀ rs s', Lib.Trace (Cluster.Round (.threeServers 1 true true) 2 0 7) s rs s' →
          5 ≤ rs.length → (∀ e ∈ rs.flatten, e.SeqBelow) →
            ∃ v t, .putDone 2 0 7 v t ∈ rs.flatten := by
  obtain ⟨tr, s, hr, hb⟩ := Lib.Machine.exists_run_of_play
    (m := Cluster.machine (.threeServers 1 true true)) (G := Cluster.Any)
    (fun x => (decide (∀ e ∈ x.1, e.SeqBelow), ((x.2.clients 2).futures 0).kind,
      ((x.2.clients 2).futures 0).putF.step, ((x.2.clients 2).futures 0).putF.key))
    [.doPut 4 0 7 11, .rdma 4 0 1, .rdma 4 0 2, .doPut 2 0 7 22, .rdma 2 0 2, .rdma 2 0 0,
      .tryStepForward 4 0, .tryStepForward 2 0, .rdma 4 0 2, .rdma 2 0 2]
    (b := (true, .put, .cas, 7)) (by decide +kernel)
  obtain ⟨hseq, hkind, hstep, hkey⟩ : decide (∀ e ∈ tr, e.SeqBelow) = true ∧
      ((s.clients 2).futures 0).kind = .put ∧ ((s.clients 2).futures 0).putF.step = .cas ∧
        ((s.clients 2).futures 0).putF.key = 7 := by
    simpa only [Prod.mk.injEq] using hb
  exact ⟨tr, s, hr, hstep, finishes (by decide) hr (of_decide_eq_true hseq) hkind
    (by rw [hstep]; decide) hkey⟩

end DiscoSkip
