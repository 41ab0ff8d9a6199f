import DiscoSkip.Protocol

/-!
# Tags only grow

As long as the sequence numbers stay below the last one, no CAS lowers the tag
of a cell (`Bounded.cells_mono`). Every phase keeps, by itself, what this
needs (`PhaseOk`):

* a Put only tries to replace registers of a sequence number below that of its
  target. The reset of the step `cas` is where this has to be earned: it goes
  back to *all* the slots up to the outrun one, also to those that succeeded
  under a lower target, and expects there what their CASes have found;
* a Get only writes back a maximum over a different register of a tag that is
  not greater.

For a Put, the tag grows strictly (`ViewOk.cas`); a Get may still replace
a register by another one with the same tag.
-/

namespace DiscoSkip

open Function

/-- The sequence number that a CAS is to install is not the last one. -/
def Event.SeqBelow : Event → Prop
  | .cas _ _ _ _ _ _ swap _ => swap.seq < 65535
  | _ => True

instance : DecidablePred Event.SeqBelow
  | .cas .. => inferInstanceAs (Decidable (_ < _))
  | .invokePut .. | .invokeGet .. | .read .. | .stepped .. | .getMax .. | .putDone ..
  | .getDone .. =>
    .isTrue trivial

theorem Layout.effectiveMajority_pos (L : Layout) : 0 < L.effectiveMajority := by
  rw [effectiveMajority]
  split <;> omega

/-! ## What a move does to the cells -/

/-- A move changes the cells by its CAS only. -/
theorem Move.cells_cases {L : Layout} {c f : ℕ} {w w' : View} {e : Event} (h : Move L c f w e w') :
    (w'.cells = w.cells ∧ ∀ c f r k kd x t y, e ≠ .cas c f r k kd x t y) ∨
      ∃ i k kd x t, i < L.effectiveMajority ∧
        e = .cas c f (srv L c i) k kd x t (w.cells (srv L c i) k) ∧
        w'.cells = casCell w.cells (srv L c i) k x t := by
  cases h
  case casChain hi _ => exact .inr ⟨_, _, _, _, _, hi, rfl, rfl⟩
  case casPut hi _ => exact .inr ⟨_, _, _, _, _, hi, rfl, rfl⟩
  case casGet hi _ => exact .inr ⟨_, _, _, _, _, hi, rfl, rfl⟩
  all_goals exact .inl ⟨rfl, by simp⟩

section CasCell

variable {cells : ℕ → ℕ → Register} {r k r' k' : ℕ} {e t : Register}

/-- A CAS leaves a cell as it is, or it succeeds on it. -/
theorem casCell_cases (cells : ℕ → ℕ → Register) (r k r' k' : ℕ) (e t : Register) :
    casCell cells r k e t r' k' = cells r' k' ∨
    r' = r ∧ k' = k ∧ cells r k = e ∧ casCell cells r k e t r' k' = t := by
  rw [casCell]
  split
  · next he =>
    by_cases hr : r' = r
    · subst hr
      by_cases hk : k' = k
      · subst hk
        exact .inr ⟨rfl, rfl, he, by simp⟩
      · exact .inl (by simp [hk])
    · exact .inl (by simp [hr])
  · exact .inl rfl

theorem casCell_self (h : cells r k = e) : casCell cells r k e t r k = t := by
  simp [casCell, h]

theorem casCell_ne (h : r' ≠ r ∨ k' ≠ k) : casCell cells r k e t r' k' = cells r' k' := by
  rcases casCell_cases cells r k r' k' e t with hc | ⟨rfl, rfl, _⟩
  · exact hc
  · exact absurd rfl (h.resolve_left (not_not.2 rfl))

/-- A CAS to a register with a tag not below keeps every lower bound on the tags. -/
theorem le_casCell (h : e.tag ≤ t.tag) : (cells r' k').tag ≤ (casCell cells r k e t r' k').tag := by
  rcases casCell_cases cells r k r' k' e t with hc | ⟨rfl, rfl, he, hc⟩
  · rw [hc]
  · rw [hc, he]
    exact h

end CasCell

/-! ## The phases -/

/-- What the step `cas` of a Put keeps by itself. -/
structure CasOk (L : Layout) (t : Register) (need : ℕ → Bool) (exp : ℕ → Register)
    (got : ℕ → Option Register) : Prop where
  exists_need : ∃ i < L.effectiveMajority, need i = true
  need_of_none : ∀ i < L.effectiveMajority, got i = none → need i = true
  exp_lt : ∀ i < L.effectiveMajority, need i = true → (exp i).seq < t.seq
  target_lt : ∀ i < L.effectiveMajority, need i = true → got i ≠ none → t.seq < 65535
  got_lt : ∀ i < L.effectiveMajority, ∀ x, got i = some x → x.seq < 65535
  /-- A slot done with, if one after it is not, has been below the target. -/
  done_lt : ∀ i j, i < j → j < L.effectiveMajority → need j = true → need i = false →
    ∀ x, got i = some x → x.seq < t.seq

/-- What a phase keeps by itself. -/
def PhaseOk (L : Layout) : Phase → Prop
  | .idle => True
  | .putRead _ _ got => ∀ i x, got i = some x → x.seq < 65535
  | .putChain _ _ cached got => cached.seq < 65535 ∧
      ∀ i x, got i = some x → x.seq < 65535 ∧ cached.seq + 1 < 65535
  | .putCas _ _ t need exp got => CasOk L t need exp got
  | .getRead _ got => ∀ i x, got i = some x → x.seq < 65535
  | .getBack _ m exp got => m.seq < 65535 ∧
      ∀ i < L.effectiveMajority, (exp i).tag ≤ m.tag ∧ (got i = none → exp i ≠ m)

section Answers

variable {got : ℕ → Option Register} {i : ℕ} {y : Register} {P : ℕ → Register → Prop}

/-- What holds of all answers, with one more answer of which it holds. -/
theorem forall_update (h : ∀ j x, got j = some x → P j x) (hy : P i y) :
    ∀ j x, update got i (some y) j = some x → P j x := by
  intro j x hx
  by_cases hj : j = i
  · subst hj
    rw [update_self] at hx
    exact Option.some.inj hx ▸ hy
  · rw [update_of_ne hj] at hx
    exact h j x hx

theorem eq_none_of_update {j : ℕ} (h : update got i (some y) j = none) : got j = none := by
  by_cases hj : j = i
  · subst hj
    rw [update_self] at h
    exact absurd h (by simp)
  · rwa [update_of_ne hj] at h

end Answers

section Cas

variable {L : Layout} {c : ℕ} {v : UInt64} {t cached : Register} {need : ℕ → Bool}
  {exp g : ℕ → Register} {got : ℕ → Option Register} {z : UInt16}

/-- After the reads. -/
theorem CasOk.readDone (hz : z < 65535) (hle : ∀ i < L.effectiveMajority, (g i).seq ≤ z) :
    CasOk L (regOf L c (z + 1) v) (fun _ => true) g fun _ => none where
  exists_need := ⟨0, L.effectiveMajority_pos, rfl⟩
  need_of_none _ _ _ := rfl
  exp_lt i hi _ := Register.seq_lt_succ hz (hle i hi)
  target_lt := by simp
  got_lt := by simp
  done_lt := by simp

/-- After the optimistic chain. -/
theorem CasOk.chainRetry (hz : z < 65535) (hg : ∀ i < L.effectiveMajority, (g i).seq < 65535)
    (hex : ∃ i < L.effectiveMajority, g i ≠ cached) (hc : cached.seq ≤ z)
    (hle : ∀ i < L.effectiveMajority, g i ≠ cached → (g i).seq ≤ z) (t' : Register) :
    CasOk L (regOf L c (z + 1) v) (fun i => decide (g i ≠ cached))
      (fun i => if g i = cached then t' else g i)
      fun i => if g i = cached then some (g i) else none where
  exists_need := by simpa using hex
  need_of_none i _ h := by simpa using h
  exp_lt i hi hn := by
    rw [decide_eq_true_iff] at hn
    rw [if_neg hn]
    exact Register.seq_lt_succ hz (hle i hi hn)
  target_lt i _ hn h := by
    rw [decide_eq_true_iff] at hn
    exact absurd (if_neg hn) h
  got_lt i hi x hx := by
    split at hx
    · exact Option.some.inj hx ▸ hg i hi
    · exact absurd hx (by simp)
  done_lt i j _ _ _ hn x hx := by
    rw [decide_eq_false_iff_not, not_not] at hn
    rw [if_pos hn, hn] at hx
    exact Option.some.inj hx ▸ Register.seq_lt_succ hz hc

/-- A CAS is answered. -/
theorem CasOk.answer (h : CasOk L t need exp got) (ht : t.seq < 65535) {i : ℕ}
    (hi : i < L.effectiveMajority) (hg : got i = none) {y : Register} (hy : y.seq < 65535) :
    CasOk L t need exp (update got i (some y)) where
  exists_need := h.exists_need
  need_of_none j hj hn := h.need_of_none j hj (eq_none_of_update hn)
  exp_lt := h.exp_lt
  target_lt _ _ _ _ := ht
  got_lt j hj x hx := by
    by_cases hji : j = i
    · subst hji
      rw [update_self] at hx
      exact Option.some.inj hx ▸ hy
    · rw [update_of_ne hji] at hx
      exact h.got_lt j hj x hx
  done_lt i' j hij hj hn hn' := by
    -- the slot that has got its answer needed it
    have hne : i' ≠ i := by
      rintro rfl
      exact absurd ((h.need_of_none i' hi hg).symm.trans hn') (by simp)
    rw [update_of_ne hne]
    exact h.done_lt i' j hij hj hn hn'

/-- Those CASes that failed are tried again, none of them being outrun. -/
theorem CasOk.retry (h : CasOk L t need exp got)
    (hgot : ∀ i < L.effectiveMajority, got i = some (g i))
    (hex : ∃ i < L.effectiveMajority, need i = true ∧ g i ≠ exp i)
    (hbelow : ∀ i < L.effectiveMajority, need i = true → g i ≠ exp i → (g i).seq < t.seq) :
    CasOk L t (fun i => need i && decide (g i ≠ exp i)) (fun i => if need i then g i else exp i)
      fun i => if need i = true ∧ g i ≠ exp i then none else some (g i) where
  exists_need := by
    obtain ⟨i, hi, hn, hne⟩ := hex
    exact ⟨i, hi, by simp [hn, hne]⟩
  need_of_none i _ hn := by simpa using hn
  exp_lt i hi hn := by
    rw [Bool.and_eq_true, decide_eq_true_iff] at hn
    rw [if_pos hn.1]
    exact hbelow i hi hn.1 hn.2
  target_lt i hi hn _ := by
    rw [Bool.and_eq_true] at hn
    exact h.target_lt i hi hn.1 (by simp [hgot i hi])
  got_lt i hi x hx := by
    split at hx
    · exact absurd hx (by simp)
    · exact Option.some.inj hx ▸ h.got_lt i hi _ (hgot i hi)
  done_lt i j hij hj hn hn' x hx := by
    -- a slot is done with since now, having found what it expected, or since before
    have hi := hij.trans hj
    rw [Bool.and_eq_true] at hn
    split at hx
    · exact absurd hx (by simp)
    · obtain rfl := Option.some.inj hx
      by_cases hni : need i = true
      · have he : g i = exp i := by simpa [hni] using hn'
        rw [he]
        exact h.exp_lt i hi hni
      · exact h.done_lt i j hij hj hn.1 (by simpa using hni) _ (hgot i hi)

/-- The target is bumped above what was found in the outrun slot `m`. -/
theorem CasOk.reset (h : CasOk L t need exp got)
    (hgot : ∀ i < L.effectiveMajority, got i = some (g i)) {m : ℕ} (hm : m < L.effectiveMajority)
    (hout : need m = true ∧ g m ≠ exp m ∧ t.seq ≤ (g m).seq)
    (hbelow : ∀ i < m, need i = true → g i ≠ exp i → (g i).seq < t.seq) :
    CasOk L (regOf L c ((g m).seq + 1) v) (fun i => decide (i ≤ m)) g
      fun i => if i ≤ m then none else some (g i) where
  exists_need := ⟨m, hm, by simp⟩
  need_of_none i _ hn := by simpa using hn
  exp_lt i hi hn := by
    -- the slots up to `m` are below the old target, and so below what was found in `m`
    rw [decide_eq_true_iff] at hn
    refine Register.seq_lt_succ (h.got_lt m hm _ (hgot m hm)) ?_
    rcases hn.eq_or_lt with rfl | hlt
    · exact UInt16.le_refl _
    · have hi' : (g i).seq < t.seq := by
        by_cases hni : need i = true
        · by_cases he : g i = exp i
          · rw [he]
            exact h.exp_lt i hi hni
          · exact hbelow i hlt hni he
        · exact h.done_lt i m hlt hm hout.1 (by simpa using hni) _ (hgot i hi)
      exact UInt16.le_of_lt (UInt16.lt_of_lt_of_le hi' hout.2.2)
  target_lt i _ hn hg := by
    rw [decide_eq_true_iff] at hn
    exact absurd (if_pos hn) hg
  got_lt i hi x hx := by
    split at hx
    · exact absurd hx (by simp)
    · exact Option.some.inj hx ▸ h.got_lt i hi _ (hgot i hi)
  done_lt i j hij _ hn hn' := by
    rw [decide_eq_true_iff] at hn
    rw [decide_eq_false_iff_not] at hn'
    omega

end Cas

/-! ## The moves -/

/-- What a view keeps, as long as the sequence numbers are below the last one. -/
structure ViewOk (L : Layout) (w : View) : Prop where
  cells : ∀ r k, (w.cells r k).seq < 65535
  cache : ∀ k reg, w.cache k = some reg → reg.seq < 65535
  phase : PhaseOk L w.phase

/-- What a cache holds, after it has been told a register. -/
theorem toCache_cases {L : Layout} {ca : Cache} {k k' : ℕ} {reg reg' : Register}
    (h : toCache L ca k reg k' = some reg') : k' = k ∧ reg' = reg ∨ ca k' = some reg' := by
  rw [toCache] at h
  split at h
  · by_cases hk : k' = k
    · subst hk
      rw [Cache.put, update_self] at h
      exact .inl ⟨rfl, (Option.some.inj h).symm⟩
    · rw [Cache.put, update_of_ne hk] at h
      exact .inr h
  · exact .inr h

section Move

variable {L : Layout} {c f : ℕ} {w w' : View} {e : Event}

/-- The maximum of registers below the last sequence number is below it. -/
theorem max_seq_lt {m : Register} {g : ℕ → Register} {got : ℕ → Option Register}
    (hgot : ∀ i < L.effectiveMajority, got i = some (g i))
    (hlt : ∀ i x, got i = some x → x.seq < 65535)
    (hm : m = .zero ∨ ∃ i < L.effectiveMajority, m = g i) : m.seq < 65535 := by
  rcases hm with rfl | ⟨i, hi, rfl⟩
  · decide
  · exact hlt _ _ (hgot i hi)

/-- Every move keeps the bounds. -/
theorem ViewOk.move (h : ViewOk L w) (hm : Move L c f w e w') (he : e.SeqBelow) : ViewOk L w' := by
  obtain ⟨hcells, hcache, hphase⟩ := h
  have hcas : ∀ {r k x t}, t.seq < 65535 →
      ∀ r' k', (casCell w.cells r k x t r' k').seq < 65535 := by
    intro r k x t ht r' k'
    rcases casCell_cases w.cells r k r' k' x t with hc | ⟨_, _, _, hc⟩
    · rw [hc]
      exact hcells r' k'
    · rw [hc]
      exact ht
  have hput : ∀ {k reg}, reg.seq < 65535 →
      ∀ k' reg', toCache L w.cache k reg k' = some reg' → reg'.seq < 65535 := by
    intro k reg hreg k' reg' h'
    rcases toCache_cases h' with ⟨_, rfl⟩ | h'
    · exact hreg
    · exact hcache _ _ h'
  cases hm with
  | stutter => exact ⟨hcells, hcache, hphase⟩
  | putHit _ hk => exact ⟨hcells, hcache, hcache _ _ hk, by simp⟩
  | putMiss => exact ⟨hcells, hcache, by simp [PhaseOk]⟩
  | getStart => exact ⟨hcells, hcache, by simp [PhaseOk]⟩
  | readPut => exact ⟨hcells, hcache, forall_update hphase (hcells _ _)⟩
  | readGet => exact ⟨hcells, hcache, forall_update hphase (hcells _ _)⟩
  | casChain => exact ⟨hcas he, hcache, hphase.1, forall_update hphase.2 ⟨hcells _ _, he⟩⟩
  | casPut hi hg => exact ⟨hcas he, hcache, hphase.answer he hi hg (hcells _ _)⟩
  | casGet =>
    refine ⟨hcas he, hcache, hphase.1, fun j hj => ⟨(hphase.2 j hj).1, fun h => ?_⟩⟩
    exact (hphase.2 j hj).2 (eq_none_of_update h)
  | readDone hgot hle hz =>
    refine ⟨hcells, hcache, .readDone ?_ hle⟩
    rcases hz with rfl | ⟨i, hi, rfl⟩
    · decide
    · exact hphase _ _ (hgot i hi)
  | chainDone hgot =>
    exact ⟨hcells, hput (hphase.2 _ _ (hgot 0 L.effectiveMajority_pos)).2, trivial⟩
  | chainRetry hgot hex hle hz =>
    refine ⟨hcells, hcache, .chainRetry ?_ (fun i hi => (hphase.2 _ _ (hgot i hi)).1) hex hle.1
      hle.2 _⟩
    rcases hz with rfl | ⟨i, hi, _, rfl⟩
    · exact hphase.1
    · exact (hphase.2 _ _ (hgot i hi)).1
  | casDone hgot =>
    obtain ⟨i, hi, hn⟩ := hphase.exists_need
    exact ⟨hcells, hput (hphase.target_lt i hi hn (by simp [hgot i hi])), trivial⟩
  | casRetry hgot hex hbelow => exact ⟨hcells, hcache, hphase.retry hgot hex hbelow⟩
  | casReset hgot hm hout hbelow => exact ⟨hcells, hcache, hphase.reset hgot hm hout hbelow⟩
  | getDone hgot _ hm => exact ⟨hcells, hput (max_seq_lt hgot hphase hm), trivial⟩
  | getMax hgot hle hm =>
    have hm' := max_seq_lt hgot hphase hm
    refine ⟨hcells, hput hm', hm', fun i hi => ⟨hle i hi, fun hn he => ?_⟩⟩
    dsimp only at hn
    rw [if_pos he] at hn
    exact absurd hn (by simp)
  | backDone => exact ⟨hcells, hcache, trivial⟩

/-- What a CAS expects has a tag not above the one it installs, and for a Put,
    a lesser sequence number. -/
theorem ViewOk.cas (h : ViewOk L w) (hm : Move L c f w e w') {r k : ℕ} {kd : Kind}
    {x t y : Register} (he : e = .cas c f r k kd x t y) :
    (kd = .put ∧ x.seq < t.seq) ∨ (kd = .get ∧ x ≠ t ∧ x.tag ≤ t.tag) := by
  have hphase := h.phase
  cases hm <;> cases he
  case casChain => exact .inl ⟨rfl, Register.seq_lt_succ hphase.1 (UInt16.le_refl _)⟩
  case casPut hi hg => exact .inl ⟨rfl, hphase.exp_lt _ hi (hphase.need_of_none _ hi hg)⟩
  case casGet hi hg => exact .inr ⟨rfl, (hphase.2 _ hi).2 hg, (hphase.2 _ hi).1⟩

/-- No move lowers the tag of a cell. -/
theorem ViewOk.cells_mono (h : ViewOk L w) (hm : Move L c f w e w') (r k : ℕ) :
    (w.cells r k).tag ≤ (w'.cells r k).tag := by
  rcases hm.cells_cases with ⟨hc, _⟩ | ⟨i, k', kd, x, t, _, rfl, hc⟩
  · rw [hc]
  · rw [hc]
    refine le_casCell ?_
    rcases h.cas hm rfl with ⟨_, hlt⟩ | ⟨_, _, hle⟩
    · exact (Register.tag_lt_of_seq hlt).le
    · exact hle

end Move

/-! ## Runs -/

/-- What the protocol keeps, as long as the sequence numbers are below the last one. -/
structure Bounded (L : Layout) (a : Proto) : Prop where
  cells : ∀ r k, (a.cells r k).seq < 65535
  cache : ∀ c k reg, a.cache c k = some reg → reg.seq < 65535
  phase : ∀ c f, PhaseOk L (a.phase c f)

namespace Bounded

variable {L : Layout} {H : Proto → Event → Prop} {a a' : Proto} {e : Event}

theorem init (L : Layout) : Bounded L {} where
  cells _ _ := by simp [Register.zero]
  cache _ _ _ h := absurd h (by simp [Cache.empty])
  phase _ _ := trivial

theorem view (h : Bounded L a) (c f : ℕ) : ViewOk L (a.view c f) :=
  ⟨h.cells, h.cache c, h.phase c f⟩

theorem setView (h : Bounded L a) {c f : ℕ} {w : View} (hw : ViewOk L w) :
    Bounded L (a.setView c f w) where
  cells := hw.cells
  cache c' k reg hk := by
    by_cases hc : c' = c
    · subst hc
      rw [Proto.setView_cache_self] at hk
      exact hw.cache k reg hk
    · rw [Proto.setView_cache_ne _ _ _ hc] at hk
      exact h.cache c' k reg hk
  phase := Proto.forall_setView (P := fun _ _ => PhaseOk L) (fun c' f' _ => h.phase c' f') hw.phase

/-- Every step keeps the bounds. -/
theorem step (h : Bounded L a) (hs : Proto.Step L H a e a') (he : e.SeqBelow) : Bounded L a' := by
  obtain ⟨c, f, w, _, _, _, hm, rfl⟩ := hs
  exact h.setView ((h.view c f).move hm he)

/-- No step lowers the tag of a cell. -/
theorem cells_mono (h : Bounded L a) (hs : Proto.Step L H a e a') (r k : ℕ) :
    (a.cells r k).tag ≤ (a'.cells r k).tag := by
  obtain ⟨c, f, w, _, _, _, hm, rfl⟩ := hs
  exact (h.view c f).cells_mono hm r k

variable (hH : ∀ a e, H a e → e.SeqBelow)

include hH

/-- From a bounded state on, the bounds hold, and the tags of the cells only grow. -/
theorem trace (h : Bounded L a) {tr : List Event} (ht : Lib.Trace (Proto.Step L H) a tr a') :
    Bounded L a' ∧ ∀ r k, (a.cells r k).tag ≤ (a'.cells r k).tag := by
  refine ht.invariant (P := fun _ b => Bounded L b ∧ ∀ r k, (a.cells r k).tag ≤ (b.cells r k).tag)
    ⟨h, fun _ _ => le_rfl⟩ fun _ b e b' _ ⟨hb, hle⟩ hs => ⟨hb.step hs ?_, fun r k => ?_⟩
  · obtain ⟨_, _, _, _, _, he, _⟩ := hs
    exact hH _ _ he
  · exact (hle r k).trans (hb.cells_mono hs r k)

/-- The bounds hold at the end of every run. -/
theorem run {tr : List Event} (h : Proto.Run L H tr a) : Bounded L a := (trace hH (init L) h).1

end Bounded

end DiscoSkip
