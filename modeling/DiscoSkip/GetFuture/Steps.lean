import Mathlib.Data.Nat.Count
import DiscoSkip.GetFuture

/-!
# What the steps of a Get do

* `readLoop`: after the reads, the maximum has a tag at least that of every
  register read, and is one of them, with a greater tag than the zero register
  the Get starts with, or that one;
* `stepReading_spec`: the Get is over, or goes on to write the maximum back
  where another register was read.
-/

namespace DiscoSkip

open Function

namespace GetFuture

variable {d : DsConf} {g : GetFuture}

/-- What the loop over the registers read leaves. -/
theorem readLoop (bufs : Scratch) (h0 : g.maxReg = .zero) (hc : g.maxCount = 0) :
    ∃ (m : Register) (exp : ℕ → Register),
      (∀ i < d.quorum, (bufs.readBufs (d.quorumIndices i)).tag ≤ m.tag) ∧
      (m = .zero ∨ ∃ i < d.quorum, m = bufs.readBufs (d.quorumIndices i)) ∧
      (m = .zero ∨ Register.zero.tag < m.tag) ∧
      (∀ i < d.quorum, exp i = bufs.readBufs (d.quorumIndices i)) ∧
      d.quorum.fold (fun i _ => readSlot d bufs i) g = { g with
        expected := exp, maxReg := m
        maxCount := Nat.count (fun i => bufs.readBufs (d.quorumIndices i) = m) d.quorum } := by
  set rd : ℕ → Register := fun i => bufs.readBufs (d.quorumIndices i) with hrd
  have h := Lib.fold_inv (n := d.quorum) (a := g) (f := fun i _ => readSlot d bufs i)
    (P := fun i x => ∃ (m : Register) (exp : ℕ → Register),
      (∀ j < i, (rd j).tag ≤ m.tag) ∧ (m = .zero ∨ ∃ j < i, m = rd j) ∧
      (m = .zero ∨ Register.zero.tag < m.tag) ∧ (∀ j < i, exp j = rd j) ∧
      x = { g with expected := exp, maxReg := m, maxCount := Nat.count (fun j => rd j = m) i })
    ⟨.zero, g.expected, fun _ h => absurd h (Nat.not_lt_zero _), .inl rfl, .inl rfl,
      fun _ h => absurd h (Nat.not_lt_zero _), by rw [Nat.count_zero, ← h0, ← hc]⟩ (by
      rintro i _ _ ⟨m, exp, hle, hm, hpos, hexp, rfl⟩
      have hexp' : ∀ j < i + 1, update exp i (rd i) j = rd j := by
        intro j hj
        rcases Nat.lt_succ_iff_lt_or_eq.1 hj with hlt | rfl
        · rw [update_of_ne hlt.ne, hexp j hlt]
        · rw [update_self]
      by_cases hlt : m < rd i
      · -- a greater tag: the registers before it are all different from it
        have hlt' := Register.lt_iff.1 hlt
        refine ⟨rd i, update exp i (rd i), fun j hj => ?_, .inr ⟨i, by omega, rfl⟩,
          .inr ((Register.zero_tag_le m).trans_lt hlt'), hexp', ?_⟩
        · rcases Nat.lt_succ_iff_lt_or_eq.1 hj with hji | rfl
          · exact ((hle j hji).trans_lt hlt').le
          · exact le_rfl
        · have hcount : Nat.count (fun j => rd j = rd i) i = 0 :=
            Nat.count_of_forall_not fun {j} hj e => absurd (e ▸ hle j hj) (not_le.2 hlt')
          rw [Nat.count_succ, if_pos rfl, hcount]
          exact if_pos hlt
      · have hle' : (rd i).tag ≤ m.tag := Register.not_lt_iff.1 hlt
        refine ⟨m, update exp i (rd i), fun j hj => ?_,
          hm.imp_right fun ⟨j, hj, e⟩ => ⟨j, by omega, e⟩, hpos, hexp', ?_⟩
        · rcases Nat.lt_succ_iff_lt_or_eq.1 hj with hji | rfl
          · exact hle j hji
          · exact hle'
        · rw [Nat.count_succ]
          by_cases he : rd i = m
          · rw [if_pos he]
            exact (if_neg hlt).trans (if_pos he)
          · rw [if_neg he]
            exact (if_neg hlt).trans (if_neg he))
  exact h

/-- After the reads, the Get is over if there is no writeback, or if the whole
    quorum holds the maximum; else, the maximum is written back. -/
theorem stepReading_spec (bufs : Scratch) (st : DsState) (h0 : g.maxReg = .zero)
    (hc : g.maxCount = 0) :
    ∃ (m : Register) (exp : ℕ → Register) (n : ℕ),
      (∀ i < d.quorum, (bufs.readBufs (d.quorumIndices i)).tag ≤ m.tag) ∧
      (m = .zero ∨ ∃ i < d.quorum, m = bufs.readBufs (d.quorumIndices i)) ∧
      (m = .zero ∨ Register.zero.tag < m.tag) ∧
      (∀ i < d.quorum, exp i = bufs.readBufs (d.quorumIndices i)) ∧
      g.stepReading d bufs st =
        let st' := if d.layout.regCacheEnabled then { st with cache := st.cache.put g.key m }
          else st
        if d.layout.regWritebackEnabled = true ∧
            ∃ i < d.quorum, bufs.readBufs (d.quorumIndices i) ≠ m then
          posting { g with
            step := .writingBack, expected := exp, maxReg := m, maxCount := n
            resultValue := m.value } st'
            (d.postSlots g.futureId (fun i => bufs.readBufs (d.quorumIndices i) ≠ m) fun i =>
              .cas g.key (bufs.readBufs (d.quorumIndices i)) m)
        else ⟨{ g with
          step := .done, expected := exp, maxReg := m, maxCount := n
          resultValue := m.value }, st', [], true⟩ := by
  obtain ⟨m, exp, hle, hm, hpos, hexp, hx⟩ := readLoop (d := d) bufs h0 hc
  refine ⟨m, exp, Nat.count (fun i => bufs.readBufs (d.quorumIndices i) = m) d.quorum, hle, hm,
    hpos, hexp, ?_⟩
  have hcount : Nat.count (fun i => bufs.readBufs (d.quorumIndices i) = m) d.quorum < d.quorum ↔
      ∃ i < d.quorum, bufs.readBufs (d.quorumIndices i) ≠ m := by
    rw [← not_iff_not, not_lt]
    push Not
    rw [← Nat.count_iff_forall]
    exact ⟨fun h => le_antisymm (Nat.count_le _) h, fun h => h.ge⟩
  simp only [stepReading, hx, hcount, postWriteback]
  congr 1
  congr 1
  refine postSlots_congr (fun i hi => ?_) fun i hi _ => ?_
  · rw [hexp i hi]
  · rw [hexp i hi]

end GetFuture

end DiscoSkip
