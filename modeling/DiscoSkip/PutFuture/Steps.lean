import Mathlib.Data.Nat.Count
import DiscoSkip.PutFuture

/-!
# What the steps of a Put do

The loops of a Put, by what they leave at every slot of the quorum.

* `doPut_hit`, `doPut_miss`: how a Put starts;
* `stepReadSeq_spec`: after the reads, the target is one above the greatest
  sequence number read;
* `stepOptimisticChain_spec`: a slot succeeded if the cached register was found;
  the retry is one above those found instead;
* `casLoop_of_not_outrun`, `casLoop_of_outrun`: the step `cas`. Unless a slot is
  *outrun* (`Outrun`: the register found is not below the target), every slot
  that found what it expected has succeeded. Else, the *first* outrun slot resets
  the quorum, and all the slots after it are counted as successes, whatever
  their CASes did.
-/

namespace DiscoSkip

open Function

namespace PutFuture

variable {d : DsConf} (hq : d.quorum ≤ d.layout.numServers) {p : PutFuture} {bufs : Scratch}

theorem max_eq_ite (a b : UInt16) : max a b = if a ≤ b then b else a := rfl

theorem le_max_seq (a b : UInt16) : a ≤ max a b ∧ b ≤ max a b := by
  rw [max_eq_ite]
  split <;> grind

theorem max_seq_cases (a b : UInt16) : max a b = a ∨ max a b = b := by
  rw [max_eq_ite]
  split <;> simp

/-- What a loop that sets every slot of the quorum leaves. -/
theorem fold_expect (e : ℕ → Register) (p : PutFuture) :
    ∃ needs exp, (∀ i < d.quorum, needs (d.quorumIndices i) = true ∧ exp i = e i) ∧
      d.quorum.fold (fun i _ => expect d i (e i)) p =
        { p with needsCas := needs, expected := exp } := by
  have h := Lib.fold_inv (n := d.quorum) (a := p) (f := fun i _ => expect d i (e i))
    (P := fun i x => ∃ needs exp, (∀ j < i, needs (d.quorumIndices j) = true ∧ exp j = e j) ∧
      x = { p with needsCas := needs, expected := exp })
    ⟨_, _, fun _ h => absurd h (Nat.not_lt_zero _), rfl⟩ (by
      rintro i _ _ ⟨needs, exp, hj, rfl⟩
      refine ⟨_, _, fun j hji => ?_, rfl⟩
      rcases Nat.lt_succ_iff_lt_or_eq.1 hji with hlt | rfl
      · refine ⟨?_, by simpa [hlt.ne] using (hj j hlt).2⟩
        by_cases hs : d.quorumIndices j = d.quorumIndices i
        · simp [hs]
        · simpa [hs] using (hj j hlt).1
      · simp)
  exact h

/-! ## Starting -/

/-- A Put with a register cached starts with a CAS from it at every slot. -/
theorem doPut_hit (p : PutFuture) {st : DsState} {k : ℕ} {v : UInt64} {cached : Register}
    (hc : d.layout.regCacheEnabled = true)
    (hk : st.cache k = some cached) :
    ∃ needs exp, (∀ i < d.quorum, needs (d.quorumIndices i) = true ∧ exp i = cached) ∧
      p.doPut d st k v = posting { p with
        key := k, value := v, successCount := 0, step := .optimisticChain
        targetReg := d.register (cached.seq + 1) v, needsCas := needs, expected := exp } st
        (d.postSlots p.futureId (fun _ => true) fun _ =>
          .cas k cached (d.register (cached.seq + 1) v)) := by
  obtain ⟨needs, exp, hne, hf⟩ := fold_expect (d := d) (fun _ => cached) { p with
    key := k, value := v, successCount := 0, needsCas := fun _ => false
    targetReg := d.register (cached.seq + 1) v }
  refine ⟨needs, exp, hne, ?_⟩
  simp only [doPut, hc, if_true, Cache.get, hk, hf, postOptimisticChain]
  congr 1
  exact postSlots_congr (fun _ _ => rfl) fun i hi _ => by rw [(hne i hi).2]

/-- A Put without a register cached starts with a read at every slot. -/
theorem doPut_miss (p : PutFuture) {st : DsState} {k : ℕ} {v : UInt64}
    (h : d.layout.regCacheEnabled = true → st.cache k = none) :
    p.doPut d st k v = posting { p with
      key := k, value := v, successCount := 0, step := .readSeq, needsCas := fun _ => false } st
      (d.postSlots p.futureId (fun _ => true) fun _ => .read k) := by
  cases hc : d.layout.regCacheEnabled <;> simp [doPut, hc, h, Cache.get, postReads]

/-! ## The reads -/

/-- After the reads, the target is one above the greatest sequence number `z`
    read, and every slot is to be CASed from the register read. -/
theorem stepReadSeq_spec (p : PutFuture) (bufs : Scratch) (st : DsState) :
    ∃ (z : UInt16) (needs : ℕ → Bool) (exp : ℕ → Register),
      (∀ i < d.quorum, (bufs.readBufs (d.quorumIndices i)).seq ≤ z) ∧
      (z = 0 ∨ ∃ i < d.quorum, z = (bufs.readBufs (d.quorumIndices i)).seq) ∧
      (∀ i < d.quorum, needs (d.quorumIndices i) = true ∧
        exp i = bufs.readBufs (d.quorumIndices i)) ∧
      p.stepReadSeq d bufs st = posting { p with
        step := .cas, targetReg := d.register (z + 1) p.value, needsCas := needs,
        expected := exp } st
        (d.postSlots p.futureId (fun _ => true) fun i =>
          .cas p.key (bufs.readBufs (d.quorumIndices i)) (d.register (z + 1) p.value)) := by
  have h := Lib.fold_inv (n := d.quorum) (a := ((0 : UInt16), p))
    (f := fun i _ => readSlot d bufs i)
    (P := fun i x => (∀ j < i, (bufs.readBufs (d.quorumIndices j)).seq ≤ x.1) ∧
      (x.1 = 0 ∨ ∃ j < i, x.1 = (bufs.readBufs (d.quorumIndices j)).seq) ∧
      x.2 = i.fold (fun j _ => expect d j (bufs.readBufs (d.quorumIndices j))) p)
    ⟨fun _ h => absurd h (Nat.not_lt_zero _), .inl rfl, rfl⟩ (by
      rintro i _ ⟨z, x⟩ ⟨hle, hz, rfl⟩
      obtain ⟨h1, h2⟩ := le_max_seq z (bufs.readBufs (d.quorumIndices i)).seq
      refine ⟨fun j hji => ?_, ?_, by rw [Nat.fold_succ]; rfl⟩
      · rcases Nat.lt_succ_iff_lt_or_eq.1 hji with hlt | rfl
        · exact UInt16.le_trans (hle j hlt) h1
        · exact h2
      · rcases max_seq_cases z (bufs.readBufs (d.quorumIndices i)).seq with hm | hm
        · refine hz.imp (fun h0 => hm.trans h0) fun ⟨j, hj, e⟩ => ⟨j, by omega, hm.trans e⟩
        · exact .inr ⟨i, by omega, hm⟩)
  obtain ⟨hle, hz, hx⟩ := h
  obtain ⟨needs, exp, hne, hf⟩ :=
    fold_expect (d := d) (fun j => bufs.readBufs (d.quorumIndices j)) p
  refine ⟨_, needs, exp, hle, hz, hne, ?_⟩
  simp only [stepReadSeq, hx, hf, postCas]
  congr 1
  exact postSlots_congr (fun i hi => (hne i hi).1) fun i hi _ => by rw [(hne i hi).2]

/-! ## The optimistic chain -/

section Chain

variable {cached : Register}

include hq in
/-- What the loop over the answers of the optimistic chain leaves: a slot has
    succeeded if it found the cached register, and `z` is the greatest sequence
    number found elsewhere. -/
theorem chainLoop (bufs : Scratch)
    (hp : ∀ i < d.quorum, p.needsCas (d.quorumIndices i) = true ∧ p.expected i = cached)
    (hs : p.successCount = 0) :
    ∃ (z : UInt16) (needs : ℕ → Bool) (exp : ℕ → Register),
      (p.targetReg.seq - 1 ≤ z ∧
        ∀ i < d.quorum, bufs.swapBufs (d.quorumIndices i) ≠ cached →
          (bufs.swapBufs (d.quorumIndices i)).seq ≤ z) ∧
      (z = p.targetReg.seq - 1 ∨ ∃ i < d.quorum, bufs.swapBufs (d.quorumIndices i) ≠ cached ∧
        z = (bufs.swapBufs (d.quorumIndices i)).seq) ∧
      (∀ i < d.quorum,
        needs (d.quorumIndices i) = decide (bufs.swapBufs (d.quorumIndices i) ≠ cached) ∧
        exp i = bufs.swapBufs (d.quorumIndices i)) ∧
      d.quorum.fold (fun i _ => chainSlot d bufs i) (p.targetReg.seq - 1, p) =
        (z, { p with
          needsCas := needs, expected := exp
          successCount := Nat.count (fun i => bufs.swapBufs (d.quorumIndices i) = cached)
            d.quorum }) := by
  set sw : ℕ → Register := fun i => bufs.swapBufs (d.quorumIndices i) with hsw
  have h := Lib.fold_inv (n := d.quorum) (a := (p.targetReg.seq - 1, p))
    (f := fun i _ => chainSlot d bufs i)
    (P := fun i x => ∃ (z : UInt16) (needs : ℕ → Bool) (exp : ℕ → Register),
      (p.targetReg.seq - 1 ≤ z ∧ ∀ j < i, sw j ≠ cached → (sw j).seq ≤ z) ∧
      (z = p.targetReg.seq - 1 ∨ ∃ j < i, sw j ≠ cached ∧ z = (sw j).seq) ∧
      (∀ j < i, needs (d.quorumIndices j) = decide (sw j ≠ cached) ∧ exp j = sw j) ∧
      (∀ j < d.quorum, i ≤ j → needs (d.quorumIndices j) = true ∧ exp j = cached) ∧
      x = (z, { p with
        needsCas := needs, expected := exp
        successCount := Nat.count (fun i => sw i = cached) i }))
    ⟨_, p.needsCas, p.expected, ⟨UInt16.le_refl _, fun _ h => absurd h (Nat.not_lt_zero _)⟩,
      .inl rfl, fun _ h => absurd h (Nat.not_lt_zero _), fun j hj _ => hp j hj,
      by rw [Nat.count_zero, ← hs]⟩ (by
      rintro i hi _ ⟨z, needs, exp, ⟨hz, hle⟩, hz', hdone, htodo, rfl⟩
      obtain ⟨hneed, hexp⟩ := htodo i hi le_rfl
      have hsrv : ∀ {j}, j < d.quorum → j ≠ i → d.quorumIndices j ≠ d.quorumIndices i :=
        fun hj hji e => hji (DsConf.quorumIndices_inj hq hj hi e)
      by_cases hc : sw i = cached
      · -- the slot has succeeded
        refine ⟨z, update needs (d.quorumIndices i) false, exp, ⟨hz, fun j hj hjc => ?_⟩,
          hz'.imp_right fun ⟨j, hj, e⟩ => ⟨j, by omega, e⟩, fun j hj => ?_, fun j hj hij => ?_, ?_⟩
        · exact hle j ((Nat.lt_succ_iff_lt_or_eq.1 hj).resolve_right fun e => hjc (e ▸ hc)) hjc
        · rcases Nat.lt_succ_iff_lt_or_eq.1 hj with hlt | rfl
          · rw [update_of_ne (hsrv (hlt.trans hi) hlt.ne)]
            exact hdone j hlt
          · simp [hc, hexp]
        · rw [update_of_ne (hsrv hj (by omega))]
          exact htodo j hj (by omega)
        · rw [Nat.count_succ, if_pos hc]
          exact if_pos (hc.trans hexp.symm)
      · -- the slot has failed, and found `sw i`
        obtain ⟨h1, h2⟩ := le_max_seq z (sw i).seq
        refine ⟨max z (sw i).seq, needs, update exp i (sw i),
          ⟨UInt16.le_trans hz h1, fun j hj hjc => ?_⟩, ?_, fun j hj => ?_, fun j hj hij => ?_, ?_⟩
        · rcases Nat.lt_succ_iff_lt_or_eq.1 hj with hlt | rfl
          · exact UInt16.le_trans (hle j hlt hjc) h1
          · exact h2
        · rcases max_seq_cases z (sw i).seq with hm | hm
          · rw [hm]
            exact hz'.imp_right fun ⟨j, hj, e⟩ => ⟨j, by omega, e⟩
          · exact .inr ⟨i, by omega, hc, hm⟩
        · rcases Nat.lt_succ_iff_lt_or_eq.1 hj with hlt | rfl
          · rw [update_of_ne hlt.ne]
            exact hdone j hlt
          · simp [hc, hneed]
        · rw [update_of_ne (by omega)]
          exact htodo j hj (by omega)
        · rw [Nat.count_succ, if_neg hc]
          exact if_neg fun h => hc (h.trans hexp))
  obtain ⟨z, needs, exp, hz, hz', hdone, _, hx⟩ := h
  exact ⟨z, needs, exp, hz, hz', hdone, hx⟩

/-- What the second loop leaves: a slot that has succeeded holds the target. -/
theorem expectTargetLoop (p : PutFuture) :
    ∃ exp : ℕ → Register,
      (∀ i < d.quorum, (p.needsCas (d.quorumIndices i) = true → exp i = p.expected i) ∧
        (p.needsCas (d.quorumIndices i) = false → exp i = p.targetReg)) ∧
      d.quorum.fold (fun i _ => expectTarget d i) p = { p with expected := exp } := by
  have h := Lib.fold_inv (n := d.quorum) (a := p) (f := fun i _ => expectTarget d i)
    (P := fun i x => ∃ exp : ℕ → Register,
      (∀ j < i, (p.needsCas (d.quorumIndices j) = true → exp j = p.expected j) ∧
        (p.needsCas (d.quorumIndices j) = false → exp j = p.targetReg)) ∧
      (∀ j, i ≤ j → exp j = p.expected j) ∧ x = { p with expected := exp })
    ⟨p.expected, fun _ h => absurd h (Nat.not_lt_zero _), fun _ _ => rfl, rfl⟩ (by
      rintro i _ _ ⟨exp, hdone, htodo, rfl⟩
      cases hn : p.needsCas (d.quorumIndices i) with
      | true =>
        refine ⟨exp, fun j hj => ?_, fun j hj => htodo j (by omega), if_pos hn⟩
        rcases Nat.lt_succ_iff_lt_or_eq.1 hj with hlt | rfl
        · exact hdone j hlt
        · exact ⟨fun _ => htodo j le_rfl, fun h => absurd (hn.symm.trans h) (by simp)⟩
      | false =>
        refine ⟨update exp i p.targetReg, fun j hj => ?_, fun j hj => ?_,
          if_neg (by simp [hn])⟩
        · rcases Nat.lt_succ_iff_lt_or_eq.1 hj with hlt | rfl
          · rw [update_of_ne hlt.ne]
            exact hdone j hlt
          · exact ⟨fun h => absurd (hn.symm.trans h) (by simp), fun _ => update_self ..⟩
        · rw [update_of_ne (by omega), htodo j (by omega)])
  obtain ⟨exp, hdone, _, hx⟩ := h
  exact ⟨exp, hdone, hx⟩

include hq in
/-- An optimistic chain all of whose CASes succeeded ends the Put; else, the
    others are retried one above the sequence numbers found. -/
theorem stepOptimisticChain_spec (bufs : Scratch) (st : DsState)
    (hp : ∀ i < d.quorum, p.needsCas (d.quorumIndices i) = true ∧ p.expected i = cached)
    (hs : p.successCount = 0) :
    ∃ (z : UInt16) (needs : ℕ → Bool) (exp : ℕ → Register),
      (p.targetReg.seq - 1 ≤ z ∧
        ∀ i < d.quorum, bufs.swapBufs (d.quorumIndices i) ≠ cached →
          (bufs.swapBufs (d.quorumIndices i)).seq ≤ z) ∧
      (z = p.targetReg.seq - 1 ∨ ∃ i < d.quorum, bufs.swapBufs (d.quorumIndices i) ≠ cached ∧
        z = (bufs.swapBufs (d.quorumIndices i)).seq) ∧
      (∀ i < d.quorum,
        needs (d.quorumIndices i) = decide (bufs.swapBufs (d.quorumIndices i) ≠ cached) ∧
        exp i = if bufs.swapBufs (d.quorumIndices i) = cached then p.targetReg
          else bufs.swapBufs (d.quorumIndices i)) ∧
      p.stepOptimisticChain d bufs st =
        if ∀ i < d.quorum, bufs.swapBufs (d.quorumIndices i) = cached then
          finish d { p with needsCas := needs, expected := exp, successCount := d.quorum } st
        else posting { p with
          step := .cas, targetReg := d.register (z + 1) p.value, needsCas := needs
          expected := exp
          successCount := Nat.count (fun i => bufs.swapBufs (d.quorumIndices i) = cached)
            d.quorum } st
          (d.postSlots p.futureId (fun i => bufs.swapBufs (d.quorumIndices i) ≠ cached) fun i =>
            .cas p.key (bufs.swapBufs (d.quorumIndices i)) (d.register (z + 1) p.value)) := by
  obtain ⟨z, needs, exp, hz, hz', hne, hx⟩ := chainLoop hq bufs hp hs
  obtain ⟨exp', hexp', hx'⟩ := expectTargetLoop (d := d) { p with
    needsCas := needs, expected := exp
    successCount := Nat.count (fun i => bufs.swapBufs (d.quorumIndices i) = cached) d.quorum }
  dsimp only at hexp'
  refine ⟨z, needs, exp', hz, hz', fun i hi => ⟨(hne i hi).1, ?_⟩, ?_⟩
  · by_cases h : bufs.swapBufs (d.quorumIndices i) = cached
    · rw [if_pos h, (hexp' i hi).2 (by simp [(hne i hi).1, h])]
    · rw [if_neg h, (hexp' i hi).1 (by simp [(hne i hi).1, h]), (hne i hi).2]
  · simp only [stepOptimisticChain, hx, hx']
    have hcount : d.quorum ≤ Nat.count (fun i => bufs.swapBufs (d.quorumIndices i) = cached)
        d.quorum ↔ ∀ i < d.quorum, bufs.swapBufs (d.quorumIndices i) = cached := by
      rw [← Nat.count_iff_forall]
      exact ⟨fun h => le_antisymm (Nat.count_le _) h, fun h => h.ge⟩
    by_cases hall : ∀ i < d.quorum, bufs.swapBufs (d.quorumIndices i) = cached
    · rw [if_pos (show _ ≥ _ from hcount.2 hall), if_pos hall, Nat.count_iff_forall.2 hall]
    · rw [if_neg (show ¬_ ≥ _ from fun h => hall (hcount.1 h)), if_neg hall, postCas]
      congr 1
      refine postSlots_congr (fun i hi => (hne i hi).1) fun i hi hsel => ?_
      exact congrArg₂ _ (((hexp' i hi).1 ((hne i hi).1.trans hsel)).trans (hne i hi).2) rfl

end Chain

/-! ## The CASes -/

/-- The CAS of the slot `i` has failed, on a register that is not below the
    target. -/
def Outrun (d : DsConf) (bufs : Scratch) (p : PutFuture) (i : ℕ) : Prop :=
  p.needsCas (d.quorumIndices i) = true ∧ bufs.swapBufs (d.quorumIndices i) ≠ p.expected i ∧
    p.targetReg.seq ≤ (bufs.swapBufs (d.quorumIndices i)).seq

instance (d : DsConf) (bufs : Scratch) (p : PutFuture) (i : ℕ) : Decidable (Outrun d bufs p i) :=
  inferInstanceAs (Decidable (_ ∧ _ ∧ _))

/-- The loop over the answers of the CASes, up to the slot `m`. -/
def casLoop (d : DsConf) (bufs : Scratch) (p : PutFuture) (m : ℕ) : PutFuture :=
  m.fold (fun i _ => casSlot d bufs i) p

theorem casLoop_succ (m : ℕ) :
    casLoop d bufs p (m + 1) = casSlot d bufs m (casLoop d bufs p m) := Nat.fold_succ _ _ _

include hq in
/-- As long as no slot is outrun, a slot succeeds if it found what it expected,
    and expects what it found if not. -/
theorem casLoop_of_not_outrun {m : ℕ} (hm : m ≤ d.quorum) (hno : ∀ i < m, ¬Outrun d bufs p i) :
    ∃ (needs : ℕ → Bool) (exp : ℕ → Register),
      (∀ i < m, needs (d.quorumIndices i) = (p.needsCas (d.quorumIndices i) &&
          decide (bufs.swapBufs (d.quorumIndices i) ≠ p.expected i)) ∧
        exp i = if p.needsCas (d.quorumIndices i) then bufs.swapBufs (d.quorumIndices i)
          else p.expected i) ∧
      (∀ i < d.quorum, m ≤ i → needs (d.quorumIndices i) = p.needsCas (d.quorumIndices i) ∧
        exp i = p.expected i) ∧
      casLoop d bufs p m = { p with
        needsCas := needs, expected := exp
        successCount := p.successCount + Nat.count (fun i => p.needsCas (d.quorumIndices i) = true ∧
          bufs.swapBufs (d.quorumIndices i) = p.expected i) m } := by
  induction m with
  | zero =>
    exact ⟨p.needsCas, p.expected, fun _ h => absurd h (Nat.not_lt_zero _), fun _ _ _ => ⟨rfl, rfl⟩,
      rfl⟩
  | succ m ih =>
    obtain ⟨needs, exp, hdone, htodo, hx⟩ :=
      ih (by omega) fun i hi => hno i (by omega)
    have hmq : m < d.quorum := hm
    obtain ⟨hneed, hexp⟩ := htodo m hmq le_rfl
    have hsrv : ∀ {j}, j < d.quorum → j ≠ m → d.quorumIndices j ≠ d.quorumIndices m :=
      fun hj hjm e => hjm (DsConf.quorumIndices_inj hq hj hmq e)
    rw [casLoop_succ, hx, Nat.count_succ]
    by_cases hn : p.needsCas (d.quorumIndices m) = true
    · by_cases hc : bufs.swapBufs (d.quorumIndices m) = p.expected m
      · -- the CAS of the slot has succeeded
        refine ⟨update needs (d.quorumIndices m) false, exp, fun i hi => ?_, fun i hi hmi => ?_, ?_⟩
        · rcases Nat.lt_succ_iff_lt_or_eq.1 hi with hlt | rfl
          · rw [update_of_ne (hsrv (hlt.trans hmq) hlt.ne)]
            exact hdone i hlt
          · simp [hn, hc, hexp]
        · rw [update_of_ne (hsrv hi (by omega))]
          exact htodo i hi (by omega)
        · rw [if_pos ⟨hn, hc⟩]
          simp only [casSlot, hneed, hn, hexp, hc, if_true]
          rfl
      · -- it has failed, on a register below the target
        have hlt : ¬(bufs.swapBufs (d.quorumIndices m)).seq ≥ p.targetReg.seq :=
          fun h => hno m (by omega) ⟨hn, hc, h⟩
        refine ⟨needs, update exp m (bufs.swapBufs (d.quorumIndices m)), fun i hi => ?_,
          fun i hi hmi => ?_, ?_⟩
        · rcases Nat.lt_succ_iff_lt_or_eq.1 hi with hlt | rfl
          · rw [update_of_ne hlt.ne]
            exact hdone i hlt
          · simp [hn, hc, hneed]
        · rw [update_of_ne (by omega)]
          exact htodo i hi (by omega)
        · rw [if_neg fun h => hc h.2]
          simp only [casSlot, hneed, hn, hexp, if_true, if_neg hc, if_neg hlt]
          rfl
    · -- the slot needs none
      refine ⟨needs, exp, fun i hi => ?_, fun i hi hmi => htodo i hi (by omega), ?_⟩
      · rcases Nat.lt_succ_iff_lt_or_eq.1 hi with hlt | rfl
        · exact hdone i hlt
        · rw [hneed, hexp, if_neg hn]
          simp [hn]
      · rw [if_neg fun h => hn h.1]
        simp only [casSlot, hneed, if_neg hn]
        rfl

include hq in
/-- The first outrun slot `m` resets the quorum, and every slot after it is
    counted as a success: it finds in its swap buffer what the reset has just
    copied from there. -/
theorem casLoop_of_outrun {m t : ℕ} (hm : m < t) (ht : t ≤ d.quorum) (hout : Outrun d bufs p m)
    (hno : ∀ i < m, ¬Outrun d bufs p i) :
    ∃ (needs : ℕ → Bool) (exp : ℕ → Register),
      (∀ i < d.quorum, needs (d.quorumIndices i) = decide (i ≤ m ∨ t ≤ i) ∧
        exp i = bufs.swapBufs (d.quorumIndices i)) ∧
      casLoop d bufs p t = { p with
        targetReg := d.register ((bufs.swapBufs (d.quorumIndices m)).seq + 1) p.value
        needsCas := needs, expected := exp, successCount := t - 1 - m } := by
  have hmq : m < d.quorum := by omega
  induction t, hm using Nat.le_induction with
  | base =>
    -- the reset
    obtain ⟨needs, exp, _, htodo, hx⟩ := casLoop_of_not_outrun hq (by omega) hno
    obtain ⟨hneed, hexp⟩ := htodo m hmq le_rfl
    obtain ⟨hn, hc, hge⟩ := hout
    obtain ⟨needs', exp', hne, hf⟩ := fold_expect (d := d)
      (fun j => bufs.swapBufs (d.quorumIndices j)) { p with
        targetReg := d.register ((bufs.swapBufs (d.quorumIndices m)).seq + 1) p.value
        needsCas := needs, expected := update exp m (bufs.swapBufs (d.quorumIndices m))
        successCount := p.successCount + Nat.count (fun i => p.needsCas (d.quorumIndices i) = true ∧
          bufs.swapBufs (d.quorumIndices i) = p.expected i) m }
    refine ⟨needs', exp', fun i hi => ⟨?_, (hne i hi).2⟩, ?_⟩
    · rw [(hne i hi).1, eq_comm, decide_eq_true_iff]
      omega
    · rw [casLoop_succ, hx]
      simp only [casSlot, hneed, hn, hexp, if_true, if_neg hc, if_pos (show _ ≥ _ from hge), reset,
        hf]
      congr 1
      omega
  | succ t hmt ih =>
    obtain ⟨needs, exp, hne, hx⟩ := ih (by omega)
    have htq : t < d.quorum := ht
    refine ⟨update needs (d.quorumIndices t) false, exp, fun i hi => ?_, ?_⟩
    · refine ⟨?_, (hne i hi).2⟩
      by_cases hit : i = t
      · subst hit
        rw [update_self, eq_comm, decide_eq_false_iff_not]
        omega
      · rw [update_of_ne fun e => hit (DsConf.quorumIndices_inj hq hi htq e), (hne i hi).1,
          decide_eq_decide]
        omega
    · have hn : needs (d.quorumIndices t) = true := by
        rw [(hne t htq).1, decide_eq_true_iff]
        omega
      rw [casLoop_succ, hx]
      simp only [casSlot, hn, (hne t htq).2, if_true]
      congr 1
      omega

theorem count_congr {P Q : ℕ → Prop} [DecidablePred P] [DecidablePred Q] {n : ℕ}
    (h : ∀ i < n, P i ↔ Q i) : Nat.count P n = Nat.count Q n := by
  rw [Nat.count_eq_card_filter_range, Nat.count_eq_card_filter_range,
    Finset.filter_congr fun i hi => h i (Finset.mem_range.1 hi)]

theorem count_gt (m n : ℕ) : Nat.count (m < ·) n = n - 1 - m := by
  induction n with
  | zero => simp
  | succ n ih =>
    rw [Nat.count_succ, ih]
    split <;> omega

/-- The slots that need no CAS after the loop are those that needed none, and
    those that succeeded in it. -/
theorem count_or {P Q R : ℕ → Prop} [DecidablePred P] [DecidablePred Q] [DecidablePred R] {n : ℕ}
    (hR : ∀ i < n, R i ↔ P i ∨ Q i) (hPQ : ∀ i < n, ¬(P i ∧ Q i)) :
    Nat.count R n = Nat.count P n + Nat.count Q n := by
  induction n with
  | zero => rfl
  | succ n ih =>
    rw [Nat.count_succ, Nat.count_succ, Nat.count_succ,
      ih (fun i hi => hR i (by omega)) fun i hi => hPQ i (by omega)]
    have h1 := hR n n.lt_succ_self
    have h2 := hPQ n n.lt_succ_self
    by_cases hP : P n <;> by_cases hQ : Q n <;> simp_all <;> omega

include hq in
/-- A step `cas` in which no slot is outrun: the Put is over if all the CASes
    have succeeded, and else those that failed are tried again. -/
theorem stepCas_of_not_outrun (st : DsState) (hno : ∀ i < d.quorum, ¬Outrun d bufs p i)
    (hs : p.successCount = Nat.count (fun i => p.needsCas (d.quorumIndices i) = false) d.quorum) :
    ∃ (needs : ℕ → Bool) (exp : ℕ → Register),
      (∀ i < d.quorum, needs (d.quorumIndices i) = (p.needsCas (d.quorumIndices i) &&
          decide (bufs.swapBufs (d.quorumIndices i) ≠ p.expected i)) ∧
        exp i = if p.needsCas (d.quorumIndices i) then bufs.swapBufs (d.quorumIndices i)
          else p.expected i) ∧
      p.stepCas d bufs st =
        if ∀ i < d.quorum, needs (d.quorumIndices i) = false then
          finish d { p with needsCas := needs, expected := exp, successCount := d.quorum } st
        else posting { p with
          needsCas := needs, expected := exp
          successCount := Nat.count (fun i => needs (d.quorumIndices i) = false) d.quorum } st
          (d.postSlots p.futureId (fun i => needs (d.quorumIndices i)) fun i =>
            .cas p.key (exp i) p.targetReg) := by
  obtain ⟨needs, exp, hne, _, hx⟩ := casLoop_of_not_outrun hq le_rfl hno
  refine ⟨needs, exp, hne, ?_⟩
  have hcount : p.successCount + Nat.count (fun i => p.needsCas (d.quorumIndices i) = true ∧
        bufs.swapBufs (d.quorumIndices i) = p.expected i) d.quorum =
      Nat.count (fun i => needs (d.quorumIndices i) = false) d.quorum := by
    rw [hs]
    refine (count_or (fun i hi => ?_) fun i _ => by simp +contextual).symm
    rw [(hne i hi).1]
    cases p.needsCas (d.quorumIndices i) <;> simp
  rw [hcount] at hx
  rw [stepCas, show d.quorum.fold (fun i _ => casSlot d bufs i) p = _ from hx]
  have hall : Nat.count (fun i => needs (d.quorumIndices i) = false) d.quorum ≥ d.quorum ↔
      ∀ i < d.quorum, needs (d.quorumIndices i) = false := by
    rw [← Nat.count_iff_forall]
    exact ⟨fun h => le_antisymm (Nat.count_le _) h, fun h => h.ge⟩
  by_cases h : ∀ i < d.quorum, needs (d.quorumIndices i) = false
  · rw [if_pos h, if_pos (hall.2 h), Nat.count_iff_forall.2 h]
  · rw [if_neg h, if_neg fun hc => h (hall.1 hc)]
    rfl

include hq in
/-- A step `cas` whose first outrun slot is `m`: the target is bumped above what
    was found there, and only the slots up to `m` are tried again. -/
theorem stepCas_of_outrun (st : DsState) {m : ℕ} (hm : m < d.quorum) (hout : Outrun d bufs p m)
    (hno : ∀ i < m, ¬Outrun d bufs p i) :
    ∃ (needs : ℕ → Bool) (exp : ℕ → Register),
      (∀ i < d.quorum, needs (d.quorumIndices i) = decide (i ≤ m) ∧
        exp i = bufs.swapBufs (d.quorumIndices i)) ∧
      p.stepCas d bufs st = posting { p with
        targetReg := d.register ((bufs.swapBufs (d.quorumIndices m)).seq + 1) p.value
        needsCas := needs, expected := exp, successCount := d.quorum - 1 - m } st
        (d.postSlots p.futureId (fun i => decide (i ≤ m)) fun i =>
          .cas p.key (bufs.swapBufs (d.quorumIndices i))
            (d.register ((bufs.swapBufs (d.quorumIndices m)).seq + 1) p.value)) := by
  obtain ⟨needs, exp, hne, hx⟩ := casLoop_of_outrun hq hm le_rfl hout hno
  have hneeds : ∀ i < d.quorum, needs (d.quorumIndices i) = decide (i ≤ m) := by
    intro i hi
    rw [(hne i hi).1, decide_eq_decide]
    omega
  refine ⟨needs, exp, fun i hi => ⟨hneeds i hi, (hne i hi).2⟩, ?_⟩
  rw [stepCas, show d.quorum.fold (fun i _ => casSlot d bufs i) p = _ from hx,
    if_neg (show ¬d.quorum - 1 - m ≥ d.quorum by omega), postCas]
  congr 1
  exact postSlots_congr hneeds fun i hi _ => congrArg₂ _ (hne i hi).2 rfl

end PutFuture

end DiscoSkip
