import DiscoSkip.Session

/-!
# Operations one after the other

If no two operations overlap, a Get should return the value of the last Put of
its key. What carries this is a register `M` of the greatest tag, that of the
last Put, which some server of every quorum holds (`Holds`): a Put that has
written its target to its whole quorum makes it that register (`Holds.put`).

A Put that starts from a cached register may not get there. If it finds it on
some of its servers, it installs its first target there; and if another one has
a register of a greater sequence number, only this one gets the final target. The
condition `Cluster.CacheAgrees` says that this does not happen. It also asks for
the values to fit into the 32 bits they are stored in.
-/

namespace DiscoSkip

open Function

/-! ## The register of the last Put -/

/-- The cells of a key, by the servers, hold the register `M` of the last Put, of
    the value `val`. -/
structure Holds (L : Layout) (val : UInt64) (M : Register) (col : ℕ → Register) : Prop where
  value : M.value.toUInt64 = val
  eq_zero : M.seq = 0 → M = .zero
  le : ∀ r, (col r).tag ≤ M.tag
  eq_of_tag : ∀ r, (col r).tag = M.tag → col r = M
  quorum : ∀ c, ∃ i < L.effectiveMajority, col (srv L c i) = M

section Holds

variable {L : Layout} {val v : UInt64} {M t : Register} {col old : ℕ → Register} {c : ℕ}

/-- Initially, all cells hold the zero register. -/
theorem Holds.init : Holds L 0 .zero fun _ => .zero where
  value := rfl
  eq_zero _ := rfl
  le _ := le_rfl
  eq_of_tag _ _ := rfl
  quorum _ := ⟨0, L.effectiveMajority_pos, rfl⟩

/-- A 32-bit value survives in a register. -/
theorem toUInt64_toUInt32 (hv : v.toNat < 2 ^ 32) : v.toUInt32.toUInt64 = v := by
  apply UInt64.toNat_inj.1
  rw [UInt32.toNat_toUInt64, UInt64.toNat_toUInt32, Nat.mod_eq_of_lt hv]

/-- A register of a greater tag, written to the whole quorum of a client, is that
    of the last Put. -/
theorem Holds.put (hq : L.effectiveMajority ≤ L.numServers)
    (hmaj : L.numServers < 2 * L.effectiveMajority) (h : Holds L val M old) {z : UInt16}
    (hv : v.toNat < 2 ^ 32) (ht : t = regOf L c z v) (hlt : M.seq < t.seq)
    (hin : ∀ i < L.effectiveMajority, col (srv L c i) = t)
    (hout : ∀ r, (∀ i < L.effectiveMajority, srv L c i ≠ r) → col r = old r) :
    Holds L v t col := by
  have htag := Register.tag_lt_of_seq hlt
  have hcases : ∀ r, col r = t ∨ (col r).tag < t.tag := by
    intro r
    by_cases hr : ∃ i < L.effectiveMajority, srv L c i = r
    · obtain ⟨i, hi, rfl⟩ := hr
      exact .inl (hin i hi)
    · push Not at hr
      rw [hout r hr]
      exact .inr ((h.le r).trans_lt htag)
  refine ⟨?_, fun h0 => ?_, fun r => ?_, fun r hr => ?_, fun c' => ?_⟩
  · rw [ht]
    exact toUInt64_toUInt32 hv
  · rw [h0] at hlt
    exact absurd hlt (by simp)
  · exact (hcases r).elim (fun h => (congrArg Register.tag h).le) le_of_lt
  · exact (hcases r).resolve_right fun h => h.ne hr
  · obtain ⟨i, hi, j, hj, hij⟩ :=
      Lib.window_inter hq hmaj (UInt8.ofNat c).toNat (UInt8.ofNat c').toNat
    have hsrv : srv L c i = srv L c' j := hij
    exact ⟨j, hj, by rw [← hsrv, hin i hi]⟩

/-- The maximum of a quorum is the register of the last Put. -/
theorem Holds.max_eq (h : Holds L val M col) {g : ℕ → Register} {m : Register}
    (hg : ∀ i < L.effectiveMajority, g i = col (srv L c i))
    (hle : ∀ i < L.effectiveMajority, (g i).tag ≤ m.tag)
    (hm : m = .zero ∨ ∃ i < L.effectiveMajority, m = g i) : m = M := by
  obtain ⟨j, hj, hM⟩ := h.quorum c
  have hge : M.tag ≤ m.tag := by
    rw [← hM, ← hg j hj]
    exact hle j hj
  rcases hm with rfl | ⟨i, hi, rfl⟩
  · have hseq : M.seq = 0 := by
      have := Register.seq_le_of_tag hge
      have hz : Register.zero.seq = 0 := rfl
      grind
    exact (h.eq_zero hseq).symm
  · rw [hg i hi] at hge ⊢
    exact h.eq_of_tag _ (le_antisymm (h.le _) hge)

/-- Writing the register of the last Put back changes nothing of that. -/
theorem Holds.writeback (h : Holds L val M col) (r : ℕ) : Holds L val M (update col r M) where
  value := h.value
  eq_zero := h.eq_zero
  le r' := by
    by_cases hr : r' = r
    · subst hr
      rw [update_self]
    · rw [update_of_ne hr]
      exact h.le r'
  eq_of_tag r' := by
    by_cases hr : r' = r
    · subst hr
      rw [update_self]
      exact fun _ => rfl
    · rw [update_of_ne hr]
      exact h.eq_of_tag r'
  quorum c := by
    obtain ⟨i, hi, hM⟩ := h.quorum c
    refine ⟨i, hi, ?_⟩
    by_cases hr : srv L c i = r
    · rw [hr, update_self]
    · rw [update_of_ne hr, hM]

end Holds

/-! ## The operation in progress -/

/-- An optimistic chain, from the cells `old` on: it has found those, and replaced
    the cached register by its target. -/
structure ChainOk (L : Layout) (c : ℕ) (v : UInt64) (cached : Register)
    (got : ℕ → Option Register) (old col : ℕ → Register) : Prop where
  agrees : (∃ i < L.effectiveMajority, old (srv L c i) = cached) →
    ∀ i < L.effectiveMajority, (old (srv L c i)).seq ≤ cached.seq
  got_eq : ∀ i < L.effectiveMajority, ∀ x, got i = some x → x = old (srv L c i)
  done : ∀ i < L.effectiveMajority, got i = some cached →
    col (srv L c i) = regOf L c (cached.seq + 1) v
  todo : ∀ i < L.effectiveMajority, got i ≠ some cached → col (srv L c i) = old (srv L c i)
  outside : ∀ r, (∀ i < L.effectiveMajority, srv L c i ≠ r) → col r = old r

/-- The CASes of a Put, from the cells `old` on: each of them finds what it expects. -/
structure CasingOk (L : Layout) (c : ℕ) (t : Register) (need : ℕ → Bool) (exp : ℕ → Register)
    (got : ℕ → Option Register) (old col : ℕ → Register) : Prop where
  done : ∀ i < L.effectiveMajority, need i = false → col (srv L c i) = t
  todo : ∀ i < L.effectiveMajority, need i = true → got i = none → col (srv L c i) = exp i
  got_eq : ∀ i < L.effectiveMajority, need i = true → ∀ x, got i = some x →
    x = exp i ∧ col (srv L c i) = t
  outside : ∀ r, (∀ i < L.effectiveMajority, srv L c i ≠ r) → col r = old r

/-- What the only operation in progress keeps about the cells of its key. -/
def BusyOk (L : Layout) (c : ℕ) (val : UInt64) (M : Register) (col : ℕ → Register) : Phase → Prop
  | .idle => Holds L val M col
  | .putRead _ v got => v.toNat < 2 ^ 32 ∧ Holds L val M col ∧
      ∀ i < L.effectiveMajority, ∀ x, got i = some x → x = col (srv L c i)
  | .putChain _ v cached got => v.toNat < 2 ^ 32 ∧
      ∃ old, Holds L val M old ∧ ChainOk L c v cached got old col
  | .putCas _ v t need exp got => v.toNat < 2 ^ 32 ∧ (M.seq < t.seq ∧ ∃ z, t = regOf L c z v) ∧
      ∃ old, Holds L val M old ∧ CasingOk L c t need exp got old col
  | .getRead _ got => Holds L val M col ∧
      ∀ i < L.effectiveMajority, ∀ x, got i = some x → x = col (srv L c i)
  | .getBack _ m _ _ => m = M ∧ Holds L val M col

section Busy

variable {L : Layout} {c : ℕ} {v : UInt64} {t cached : Register} {need : ℕ → Bool}
  {exp g : ℕ → Register} {got : ℕ → Option Register} {old col : ℕ → Register} {val : UInt64}
  {M : Register}

/-- The cells of a key after a CAS of it. -/
theorem casCell_col (cells : ℕ → ℕ → Register) (r₀ k : ℕ) (x t : Register) :
    (fun r => casCell cells r₀ k x t r k) =
      if cells r₀ k = x then update (fun r => cells r k) r₀ t else fun r => cells r k := by
  funext r
  rw [casCell]
  split
  · by_cases hr : r = r₀
    · subst hr
      simp
    · simp [hr]
  · rfl

variable (hq : L.effectiveMajority ≤ L.numServers)

include hq in
theorem srv_ne {i j : ℕ} (hi : i < L.effectiveMajority) (hj : j < L.effectiveMajority)
    (h : j ≠ i) : srv L c j ≠ srv L c i :=
  fun e => h (DsConf.quorumIndices_inj (d := .ofClient L c) hq hj hi e)

include hq in
/-- A CAS of the chain. -/
theorem ChainOk.cas (h : ChainOk L c v cached got old col) {i : ℕ} (hi : i < L.effectiveMajority)
    (hg : got i = none) :
    ChainOk L c v cached (update got i (some (col (srv L c i)))) old
      (if col (srv L c i) = cached then update col (srv L c i) (regOf L c (cached.seq + 1) v)
        else col) := by
  have hi' := h.todo i hi (by simp [hg])
  refine ⟨h.agrees, fun j hj x hx => ?_, fun j hj hx => ?_, fun j hj hx => ?_, fun r hr => ?_⟩
  · by_cases hji : j = i
    · subst hji
      rw [update_self, hi'] at hx
      exact (Option.some.inj hx).symm
    · rw [update_of_ne hji] at hx
      exact h.got_eq j hj x hx
  · by_cases hji : j = i
    · subst hji
      rw [update_self] at hx
      rw [if_pos (Option.some.inj hx), update_self]
    · rw [update_of_ne hji] at hx
      split
      · rw [update_of_ne (srv_ne hq hi hj hji), h.done j hj hx]
      · exact h.done j hj hx
  · by_cases hji : j = i
    · subst hji
      rw [update_self] at hx
      rw [if_neg fun e => hx (congrArg some e), hi']
    · rw [update_of_ne hji] at hx
      split
      · rw [update_of_ne (srv_ne hq hi hj hji), h.todo j hj hx]
      · exact h.todo j hj hx
  · split
    · rw [update_of_ne (hr i hi).symm, h.outside r hr]
    · exact h.outside r hr

include hq in
/-- A CAS of a Put. -/
theorem CasingOk.cas (h : CasingOk L c t need exp got old col) {i : ℕ}
    (hi : i < L.effectiveMajority) (hn : need i = true) (hg : got i = none) :
    CasingOk L c t need exp (update got i (some (col (srv L c i)))) old
      (if col (srv L c i) = exp i then update col (srv L c i) t else col) := by
  have hi' := h.todo i hi hn hg
  rw [if_pos hi']
  refine ⟨fun j hj hn' => ?_, fun j hj hn' hg' => ?_, fun j hj hn' x hx => ?_, fun r hr => ?_⟩
  · have hji : j ≠ i := by
      rintro rfl
      exact absurd (hn.symm.trans hn') (by simp)
    rw [update_of_ne (srv_ne hq hi hj hji), h.done j hj hn']
  · by_cases hji : j = i
    · subst hji
      rw [update_self] at hg'
      exact absurd hg' (by simp)
    · rw [update_of_ne hji] at hg'
      rw [update_of_ne (srv_ne hq hi hj hji), h.todo j hj hn' hg']
  · by_cases hji : j = i
    · subst hji
      rw [update_self] at hx
      rw [← Option.some.inj hx, update_self]
      exact ⟨hi', rfl⟩
    · rw [update_of_ne hji] at hx
      rw [update_of_ne (srv_ne hq hi hj hji)]
      exact h.got_eq j hj hn' x hx
  · rw [update_of_ne (hr i hi).symm, h.outside r hr]

/-- The chain goes on with the CASes that have failed. Those that have succeeded
    have installed the final target, as no greater sequence number was found. -/
theorem ChainOk.retry (h : ChainOk L c v cached got old col)
    (hgot : ∀ i < L.effectiveMajority, got i = some (g i)) {z : UInt16} (hc : cached.seq ≤ z)
    (hz : z = cached.seq ∨ ∃ i < L.effectiveMajority, g i ≠ cached ∧ z = (g i).seq) :
    CasingOk L c (regOf L c (z + 1) v) (fun i => decide (g i ≠ cached))
      (fun i => if g i = cached then regOf L c (cached.seq + 1) v else g i)
      (fun i => if g i = cached then some (g i) else none) old col := by
  have hold : ∀ i < L.effectiveMajority, g i = old (srv L c i) := fun i hi =>
    h.got_eq i hi _ (hgot i hi)
  refine ⟨fun i hi hn => ?_, fun i hi hn _ => ?_, fun i hi hn x hx => ?_, h.outside⟩
  · rw [decide_eq_false_iff_not, not_not] at hn
    have hagrees := h.agrees ⟨i, hi, (hold i hi).symm.trans hn⟩
    have hzc : z = cached.seq := by
      rcases hz with hz | ⟨j, hj, _, hz⟩
      · exact hz
      · have hle := hagrees j hj
        rw [← hold j hj, ← hz] at hle
        exact UInt16.le_antisymm hle hc
    rw [hzc]
    exact h.done i hi (by rw [hgot i hi, hn])
  · rw [decide_eq_true_iff] at hn
    rw [if_neg hn, hold i hi]
    exact h.todo i hi (by rw [hgot i hi]; exact fun e => hn (Option.some.inj e))
  · rw [decide_eq_true_iff] at hn
    rw [if_neg hn] at hx
    exact absurd hx (by simp)

/-- The chain goes above the register of the last Put. -/
theorem ChainOk.seq_le (h : ChainOk L c v cached got old col) (hold : Holds L val M old)
    (hgot : ∀ i < L.effectiveMajority, got i = some (g i)) {z : UInt16}
    (hle : cached.seq ≤ z ∧ ∀ i < L.effectiveMajority, g i ≠ cached → (g i).seq ≤ z) :
    M.seq ≤ z := by
  obtain ⟨j, hj, hM⟩ := hold.quorum c
  have hg : g j = M := (h.got_eq j hj _ (hgot j hj)).trans hM
  by_cases hc : g j = cached
  · rw [← hg, hc]
    exact hle.1
  · rw [← hg]
    exact hle.2 j hj hc

end Busy

/-! ## The moves of the operation in progress -/

/-- The value of the last Put of the key `k` that is over, or zero. -/
def lastPut (k : ℕ) : List Event → UInt64
  | [] => 0
  | .putDone _ _ k' v _ :: tr => if k' = k then v else lastPut k tr
  | _ :: tr => lastPut k tr

/-- A Put of a value of 32 bits which, if it starts from a cached register that
    some server of its quorum holds, finds no greater sequence number there. -/
def PutAgrees (L : Layout) (c : ℕ) (col : ℕ → Register) (ca : Option Register)
    (v : UInt64) : Prop :=
  v.toNat < 2 ^ 32 ∧ ∀ cached ∈ ca, (∃ i < L.effectiveMajority, col (srv L c i) = cached) →
    ∀ i < L.effectiveMajority, (col (srv L c i)).seq ≤ cached.seq

instance (L : Layout) (c : ℕ) (col : ℕ → Register) (ca : Option Register) (v : UInt64) :
    Decidable (PutAgrees L c col ca v) :=
  inferInstanceAs (Decidable (_ ∧ ∀ cached ∈ ca, (∃ i < _, _) → ∀ i < _, _))

section Move

variable {L : Layout} {c f k : ℕ} {tr : List Event} {e : Event} {w w' : View} {M : Register}

/-- What the operation in progress, and its client, keep about a key. -/
structure KeyOk (L : Layout) (c k : ℕ) (tr : List Event) (M : Register) (w : View) : Prop where
  busy : BusyOk L c (lastPut k tr) M (fun r => w.cells r k) w.phase
  cache : ∀ reg, w.cache k = some reg → reg.tag ≤ M.tag

/-- A step of the operation in progress that ends no Put, and tells the cache nothing. -/
theorem KeyOk.keep {cells cells' : ℕ → ℕ → Register} {ca : Cache} {ph ph' : Phase}
    (h : KeyOk L c k tr M ⟨cells, ca, ph⟩) (hlast : lastPut k (e :: tr) = lastPut k tr)
    (hbusy : BusyOk L c (lastPut k tr) M (fun r => cells' r k) ph') :
    ∃ M', M.tag ≤ M'.tag ∧ KeyOk L c k (e :: tr) M' ⟨cells', ca, ph'⟩ :=
  ⟨M, le_rfl, by rw [hlast]; exact hbusy, h.cache⟩

/-- The operation in progress ends, or has found its maximum. -/
theorem KeyOk.finish {cells : ℕ → ℕ → Register} {ca : Cache} {ph ph' : Phase} {reg : Register}
    (h : KeyOk L c k tr M ⟨cells, ca, ph⟩) (hle : M.tag ≤ reg.tag)
    (hbusy : BusyOk L c (lastPut k (e :: tr)) reg (fun r => cells r k) ph') :
    ∃ M', M.tag ≤ M'.tag ∧ KeyOk L c k (e :: tr) M' ⟨cells, toCache L ca k reg, ph'⟩ := by
  refine ⟨reg, hle, hbusy, fun reg' hreg' => ?_⟩
  rcases toCache_cases hreg' with ⟨_, rfl⟩ | hreg'
  · exact le_rfl
  · exact (h.cache reg' hreg').trans hle

variable (hq : L.effectiveMajority ≤ L.numServers)
  (hmaj : L.numServers < 2 * L.effectiveMajority) (hok : ViewOk L w) (h : KeyOk L c k tr M w)
  (hm : Move L c f w e w')

include hq hmaj hok h hm

/-- Every move of the operation in progress keeps what it keeps about its key. -/
theorem KeyOk.move (hkey : w.phase.key = some k ∨ w'.phase.key = some k)
    (hput : ∀ v, e = .invokePut c f k v → PutAgrees L c (fun r => w.cells r k) (w.cache k) v) :
    ∃ M', M.tag ≤ M'.tag ∧ KeyOk L c k (e :: tr) M' w' := by
  have hphase := hok.phase
  have hbusy := h.busy
  cases hm with
  | stutter => exact h.keep rfl hbusy
  | @putHit cells ca k' v cached hen hca =>
    obtain rfl := Option.some.inj (hkey.resolve_left (by simp [Phase.key]))
    obtain ⟨hv, hagrees⟩ := hput v rfl
    exact h.keep rfl ⟨hv, _, hbusy, hagrees cached hca, by simp, by simp, fun _ _ _ => rfl,
      fun _ _ => rfl⟩
  | @putMiss cells ca k' v hca =>
    obtain rfl := Option.some.inj (hkey.resolve_left (by simp [Phase.key]))
    exact h.keep rfl ⟨(hput v rfl).1, hbusy, by simp⟩
  | getStart => exact h.keep rfl ⟨hbusy, by simp⟩
  | @readPut cells ca k' v got i hi hg =>
    obtain rfl := Option.some.inj (hkey.elim id id)
    refine h.keep rfl ⟨hbusy.1, hbusy.2.1, fun j hj x hx => ?_⟩
    exact forall_update (P := fun j x => j < L.effectiveMajority → x = cells (srv L c j) k')
      (fun j x hx hj => hbusy.2.2 j hj x hx) (fun _ => rfl) j x hx hj
  | @readGet cells ca k' got i hi hg =>
    obtain rfl := Option.some.inj (hkey.elim id id)
    refine h.keep rfl ⟨hbusy.1, fun j hj x hx => ?_⟩
    exact forall_update (P := fun j x => j < L.effectiveMajority → x = cells (srv L c j) k')
      (fun j x hx hj => hbusy.2 j hj x hx) (fun _ => rfl) j x hx hj
  | casChain hi hg =>
    obtain rfl := Option.some.inj (hkey.elim id id)
    obtain ⟨hv, old, hold, hchain⟩ := hbusy
    refine h.keep rfl ⟨hv, old, hold, ?_⟩
    rw [casCell_col]
    exact hchain.cas hq hi hg
  | casPut hi hg =>
    obtain rfl := Option.some.inj (hkey.elim id id)
    obtain ⟨hv, ht, old, hold, hcas⟩ := hbusy
    refine h.keep rfl ⟨hv, ht, old, hold, ?_⟩
    rw [casCell_col]
    exact hcas.cas hq hi (hphase.need_of_none _ hi hg) hg
  | casGet hi hg =>
    obtain rfl := Option.some.inj (hkey.elim id id)
    obtain ⟨rfl, hold⟩ := hbusy
    refine h.keep rfl ⟨rfl, ?_⟩
    rw [casCell_col]
    split
    · exact hold.writeback _
    · exact hold
  | @readDone cells ca k' v got z g hgot hle hz =>
    obtain rfl := Option.some.inj (hkey.elim id id)
    obtain ⟨hv, hold, hg⟩ := hbusy
    have hz' : z < 65535 := by
      rcases hz with rfl | ⟨j, hj, rfl⟩
      · decide
      · exact hphase _ _ (hgot j hj)
    have hg' : ∀ i < L.effectiveMajority, g i = cells (srv L c i) k' := fun i hi =>
      hg i hi _ (hgot i hi)
    obtain ⟨j, hj, hM⟩ := hold.quorum c
    have hMz : M.seq ≤ z := by
      have hgj : g j = M := (hg' j hj).trans hM
      rw [← hgj]
      exact hle j hj
    refine h.keep rfl ⟨hv, ⟨Register.seq_lt_succ hz' hMz, _, rfl⟩, _, hold, ?_⟩
    exact ⟨by simp, fun i hi _ _ => (hg' i hi).symm, by simp, fun _ _ => rfl⟩
  | @chainDone cells ca k' v cached got hgot =>
    obtain rfl := Option.some.inj (hkey.resolve_right (by simp [Phase.key]))
    obtain ⟨hv, old, hold, hchain⟩ := hbusy
    obtain ⟨j, hj, hM⟩ := hold.quorum c
    have hMc : M = cached := hM.symm.trans (hchain.got_eq j hj _ (hgot j hj)).symm
    have hlt : M.seq < cached.seq + 1 := by
      rw [hMc]
      exact Register.seq_lt_succ hphase.1 (UInt16.le_refl _)
    refine h.finish (Register.tag_lt_of_seq hlt).le ?_
    rw [lastPut, if_pos rfl]
    exact hold.put hq hmaj hv rfl hlt (fun i hi => hchain.done i hi (hgot i hi)) hchain.outside
  | @chainRetry cells ca k' v cached got z g hgot hex hle hz =>
    obtain rfl := Option.some.inj (hkey.elim id id)
    obtain ⟨hv, old, hold, hchain⟩ := hbusy
    have hz' : z < 65535 := by
      rcases hz with rfl | ⟨j, hj, _, rfl⟩
      · exact hphase.1
      · exact (hphase.2 _ _ (hgot j hj)).1
    have hlt := Register.seq_lt_succ hz' (hchain.seq_le hold hgot hle)
    exact h.keep rfl ⟨hv, ⟨hlt, _, rfl⟩, old, hold, hchain.retry hgot hle.1 hz⟩
  | @casDone cells ca k' v t need exp got g hgot hall =>
    obtain rfl := Option.some.inj (hkey.resolve_right (by simp [Phase.key]))
    obtain ⟨hv, ⟨hlt, z, ht⟩, old, hold, hcas⟩ := hbusy
    refine h.finish (Register.tag_lt_of_seq hlt).le ?_
    rw [lastPut, if_pos rfl]
    refine hold.put hq hmaj hv ht hlt (fun i hi => ?_) hcas.outside
    by_cases hn : need i = true
    · exact (hcas.got_eq i hi hn _ (hgot i hi)).2
    · exact hcas.done i hi (by simpa using hn)
  | @casRetry cells ca k' v t need exp got g hgot hex hbelow =>
    -- no CAS fails
    obtain ⟨_, _, old, _, hcas⟩ := hbusy
    obtain ⟨i, hi, hn, hne⟩ := hex
    exact absurd (hcas.got_eq i hi hn _ (hgot i hi)).1 hne
  | @casReset cells ca k' v t need exp got m g hgot hm hout hbelow =>
    obtain ⟨_, _, old, _, hcas⟩ := hbusy
    exact absurd (hcas.got_eq m hm hout.1 _ (hgot m hm)).1 hout.2.1
  | getDone hgot hle hm =>
    obtain rfl := Option.some.inj (hkey.resolve_right (by simp [Phase.key]))
    obtain rfl := hbusy.1.max_eq (fun i hi => hbusy.2 i hi _ (hgot i hi)) hle hm
    exact h.finish le_rfl hbusy.1
  | getMax hgot hle hm =>
    obtain rfl := Option.some.inj (hkey.elim id id)
    obtain rfl := hbusy.1.max_eq (fun i hi => hbusy.2 i hi _ (hgot i hi)) hle hm
    exact h.finish le_rfl ⟨rfl, hbusy.1⟩
  | backDone => exact h.keep rfl hbusy.2

omit hq hmaj hok in
/-- A Get that ends returns the value of the last Put. -/
theorem KeyOk.getDone {m : Register} {v : UInt64} (he : e = .getDone c f k m v) :
    v = lastPut k tr := by
  have hbusy := h.busy
  cases hm with
  | getDone hgot hle hm =>
    cases he
    rw [← hbusy.1.max_eq (fun i hi => hbusy.2 i hi _ (hgot i hi)) hle hm] at hbusy
    exact hbusy.1.value
  | backDone =>
    cases he
    rw [← hbusy.1] at hbusy
    exact hbusy.2.value
  | _ => cases he

end Move

/-! ## Runs -/

/-- The phase, as far as it concerns the key `k`. -/
def Phase.at (k : ℕ) (ph : Phase) : Phase := if ph.key = some k then ph else .idle

/-- A move stays with its key. -/
theorem Move.at_eq {L : Layout} {c f k : ℕ} {w w' : View} {e : Event} (h : Move L c f w e w')
    (hkey : w.phase.key = some k ∨ w'.phase.key = some k) :
    w.phase.at k = w.phase ∧ w'.phase.at k = w'.phase := by
  cases h <;> simp_all [Phase.at, Phase.key]

/-- A Get that ends was about its key. -/
theorem Move.key_of_getDone {L : Layout} {c f k : ℕ} {w w' : View} {m : Register} {v : UInt64}
    (h : Move L c f w (.getDone c f k m v) w') : w.phase.key = some k := by
  cases h <;> rfl

/-- The step is allowed for operations that do not overlap, under the condition. -/
def Proto.SequentialAgrees (L : Layout) (a : Proto) : Event → Prop
  | .invokePut c _ k v => (∀ c f, a.phase c f = .idle) ∧
      PutAgrees L c (fun r => a.cells r k) (a.cache c k) v
  | .invokeGet .. => ∀ c f, a.phase c f = .idle
  | _ => True

/-- What is kept about the key of the only operation in progress, and about all
    the keys between operations, holds in every run of operations that do not
    overlap: a future that is idle only stutters while another one is not. -/
theorem Proto.Run.active {L : Layout} {H : Proto → Event → Prop}
    {P : List Event → Proto → ℕ → ℕ → Prop}
    (hseq : ∀ a e c f, H a e → e.Invokes c f → ∀ c f, a.phase c f = .idle) (h0 : P [] {} 0 0)
    (hswitch : ∀ tr a c f c' f', (∀ c f, a.phase c f = .idle) → P tr a c f → P tr a c' f')
    (hmove : ∀ tr a c f e w, Proto.Run L H tr a → c < L.numClients → H a e → P tr a c f →
      Move L c f (a.view c f) e w → P (e :: tr) (a.setView c f w) c f)
    (hstutter : ∀ tr a c f c' f', P tr a c f → P (.stepped c' f' :: tr) a c f)
    {tr : List Event} {a : Proto} (h : Proto.Run L H tr a) :
    ∃ c f, (∀ c' f', c' ≠ c ∨ f' ≠ f → a.phase c' f' = .idle) ∧ P tr a c f := by
  refine h.invariant (P := fun tr a => ∃ c f,
    (∀ c' f', c' ≠ c ∨ f' ≠ f → a.phase c' f' = .idle) ∧ P tr a c f) ⟨0, 0, fun _ _ _ => rfl, h0⟩ ?_
  rintro tr a e _ hr ⟨c, f, hidle, hP⟩ ⟨c', f', w, hc, _, he, hm, rfl⟩
  have hne : ∀ {c f}, (∀ c' f', c' ≠ c ∨ f' ≠ f → a.phase c' f' = .idle) → ∀ c' f',
      c' ≠ c ∨ f' ≠ f → (a.setView c f w).phase c' f' = .idle := by
    intro c f hidle c' f' hne
    rw [Proto.setView_phase_ne _ _ hne]
    exact hidle c' f' hne
  by_cases hcf : c' ≠ c ∨ f' ≠ f
  · by_cases hall : ∀ c f, a.phase c f = .idle
    · exact ⟨c', f', hne fun c f _ => hall c f,
        hmove _ _ _ _ _ _ hr hc he (hswitch _ _ _ _ _ _ hall hP) hm⟩
    · have hstep : w = a.view c' f' ∧ e = .stepped c' f' := by
        rcases hm.of_idle (hidle c' f' hcf) with hst | ⟨k, v, rfl⟩ | ⟨k, rfl⟩
        · exact hst
        · exact absurd (hseq _ _ c' f' he ⟨rfl, rfl⟩) hall
        · exact absurd (hseq _ _ c' f' he ⟨rfl, rfl⟩) hall
      obtain ⟨rfl, rfl⟩ := hstep
      rw [Proto.setView_view]
      exact ⟨c, f, hidle, hstutter _ _ _ _ _ _ hP⟩
  · push Not at hcf
    obtain ⟨rfl, rfl⟩ := hcf
    exact ⟨c', f', hne hidle, hmove _ _ _ _ _ _ hr hc he hP hm⟩

/-- Every key holds the register of its last Put, or is the one the future `f` of
    the client `c` is about. -/
def KeysOk (L : Layout) (tr : List Event) (a : Proto) (c f : ℕ) : Prop :=
  ∀ k, ∃ M, (∀ c' reg, a.cache c' k = some reg → reg.tag ≤ M.tag) ∧
    BusyOk L c (lastPut k tr) M (fun r => a.cells r k) ((a.phase c f).at k)

section Run

variable {L : Layout} {H : Proto → Event → Prop} {tr : List Event} {a : Proto} {c f c' f' : ℕ}
  {e : Event} {w : View}

theorem lastPut_cons {k : ℕ} (h : ∀ reg, e.result ≠ some (e.owner.1, k, reg)) :
    lastPut k (e :: tr) = lastPut k tr := by
  cases e with
  | putDone c f k' v t =>
    refine if_neg fun hk => h t ?_
    rw [hk]
    rfl
  | _ => rfl

/-- With all futures idle, any of them may be the next. -/
theorem KeysOk.switch (h : KeysOk L tr a c f) (hidle : ∀ c f, a.phase c f = .idle) :
    KeysOk L tr a c' f' := by
  intro k
  have hk := h k
  rw [hidle] at hk ⊢
  exact hk

/-- A move of the future in question. -/
theorem KeysOk.move (hq : L.effectiveMajority ≤ L.numServers)
    (hmaj : L.numServers < 2 * L.effectiveMajority) (hb : Bounded L a) (h : KeysOk L tr a c f)
    (hm : Move L c f (a.view c f) e w) (hs : a.SequentialAgrees L e) :
    KeysOk L (e :: tr) (a.setView c f w) c f := by
  intro k
  obtain ⟨M, hcache, hbusy⟩ := h k
  rw [Proto.setView_phase_self]
  by_cases hkey : (a.phase c f).key = some k ∨ w.phase.key = some k
  · obtain ⟨hat, hat'⟩ := hm.at_eq hkey
    rw [show (a.phase c f).at k = _ from hat] at hbusy
    obtain ⟨M', hle, hok⟩ := KeyOk.move hq hmaj (hb.view c f) ⟨hbusy, hcache c⟩ hm hkey (by
      rintro v rfl
      exact hs.2)
    refine ⟨M', fun c' reg hreg => ?_, by rw [hat']; exact hok.busy⟩
    by_cases hc : c' = c
    · subst hc
      rw [Proto.setView_cache_self] at hreg
      exact hok.cache reg hreg
    · rw [Proto.setView_cache_ne _ _ _ hc] at hreg
      exact (hcache c' reg hreg).trans hle
  · rw [not_or] at hkey
    obtain ⟨hcells, hca, hres, _⟩ := hm.other_key hkey.1 hkey.2
    have hres' : ∀ reg, e.result ≠ some (e.owner.1, k, reg) := by
      rw [hm.owner_eq]
      exact hres
    refine ⟨M, fun c' reg hreg => ?_, ?_⟩
    · by_cases hc : c' = c
      · subst hc
        rw [Proto.setView_cache_self, hca] at hreg
        exact hcache c' reg hreg
      · rw [Proto.setView_cache_ne _ _ _ hc] at hreg
        exact hcache c' reg hreg
    · rw [lastPut_cons hres', Phase.at, if_neg hkey.2]
      rw [Phase.at, if_neg hkey.1] at hbusy
      simpa [hcells, Proto.view] using hbusy

variable (hq : L.effectiveMajority ≤ L.numServers) (hmaj : L.numServers < 2 * L.effectiveMajority)
  (hH : ∀ a e, H a e → a.SequentialAgrees L e ∧ e.SeqBelow)

include hq hmaj hH

/-- In every run, the keys are as they should be, for the only future that may be
    doing something. -/
theorem KeysOk.run (h : Proto.Run L H tr a) :
    ∃ c f, (∀ c' f', c' ≠ c ∨ f' ≠ f → a.phase c' f' = .idle) ∧ KeysOk L tr a c f := by
  refine h.active (P := KeysOk L) (fun a e c f he hinv => ?_)
    (fun k => ⟨.zero, by simp [Cache.empty], Holds.init⟩)
    (fun tr a c f c' f' hidle h => h.switch hidle)
    (fun tr a c f e w hr _ he h hm =>
      h.move hq hmaj (Bounded.run (fun a e h => (hH a e h).2) hr) hm (hH _ _ he).1)
    fun tr a c f c' f' h => h
  have hs := (hH a e he).1
  cases e with
  | invokePut => exact hs.1
  | invokeGet => exact hs
  | _ => cases hinv

/-- A Get that ends returns the value of the last Put. -/
theorem getDone_eq_lastPut {k : ℕ} {m : Register} {v : UInt64}
    (h : Proto.Run L H (.getDone c f k m v :: tr) a) : v = lastPut k tr := by
  obtain ⟨a₀, h₀, c', f', w, _, _, _, hm, _⟩ := h.last
  obtain ⟨rfl, rfl⟩ := Prod.mk.inj hm.owner_eq
  obtain ⟨c', f', hidle, hact⟩ := KeysOk.run hq hmaj hH h₀
  -- the future that ends the Get is the one in question
  have hkey : (a₀.phase c f).key = some k := hm.key_of_getDone
  have hcf : c = c' ∧ f = f' := by
    by_contra hne
    rw [hidle c f (by tauto)] at hkey
    exact absurd hkey (by simp [Phase.key])
  obtain ⟨rfl, rfl⟩ := hcf
  obtain ⟨M, hcache, hbusy⟩ := hact k
  rw [Phase.at, if_pos hkey] at hbusy
  exact KeyOk.getDone ⟨hbusy, hcache c⟩ hm rfl

end Run

/-! ## The cluster -/

/-- No operation is in progress. -/
def Cluster.Idle (L : Layout) (s : Cluster) : Prop :=
  ∀ c < L.numClients, ∀ f < L.asyncParallelism, ((s.clients c).futures f).isDone = true

instance (L : Layout) (s : Cluster) : Decidable (s.Idle L) :=
  inferInstanceAs (Decidable (∀ c < _, ∀ f < _, _))

/-- An operation starts only when no other one is in progress. -/
def Cluster.Sequential (L : Layout) (s : Cluster) : Action → Prop
  | .doPut .. | .doGet .. => s.Idle L
  | .rdma .. | .tryStepForward .. => True

instance (L : Layout) (s : Cluster) : DecidablePred (Cluster.Sequential L s)
  | .doPut .. | .doGet .. => inferInstanceAs (Decidable (s.Idle L))
  | .rdma .. | .tryStepForward .. => .isTrue trivial

/-- Every Put is of a value of 32 bits; and if it starts from a cached register
    that some server of its quorum holds, no server of its quorum holds a greater
    sequence number. -/
def Cluster.CacheAgrees (L : Layout) (s : Cluster) : Action → Prop
  | .doPut c _ k v => PutAgrees L c (fun r => s.cells r k) ((s.clients c).state.cache k) v
  | .doGet .. | .rdma .. | .tryStepForward .. => True

instance (L : Layout) (s : Cluster) : DecidablePred (Cluster.CacheAgrees L s)
  | .doPut c _ k v => inferInstanceAs (Decidable
      (PutAgrees L c (fun r => s.cells r k) ((s.clients c).state.cache k) v))
  | .doGet .. | .rdma .. | .tryStepForward .. => .isTrue trivial

/-- With all the operations done, all phases are idle. -/
theorem Sim.phase_idle {L : Layout} {s : Cluster} {a : Proto} (h : Sim L s a) (hi : s.Idle L)
    (c f : ℕ) : a.phase c f = .idle := by
  by_contra hne
  obtain ⟨hc, hf⟩ := h.range c f hne
  exact hne (h.of_idle (hi c hc f hf)).1

/-- An operation starts only with all phases idle. -/
theorem Sim.phase_idle_of_invokes {L : Layout} {s s' : Cluster} {a : Proto} {act : Action}
    {e : Event} {c f : ℕ} (h : Sim L s a) (hg : s.Sequential L act)
    (hs : s.step L act = some (e, s')) (hinv : e.Invokes c f) (c' f' : ℕ) :
    a.phase c' f' = .idle := by
  rcases Cluster.step_cases hs with ⟨_, _, _, _, rfl, rfl⟩ | ⟨_, _, _, rfl, rfl⟩ |
    ⟨_, _, _, _, _, _, rfl⟩ | ⟨_, _, _, _, _, _, _, _, _, rfl⟩ | ⟨c₁, f₁, _, he⟩
  · exact h.phase_idle hg c' f'
  · exact h.phase_idle hg c' f'
  · exact absurd hinv id
  · exact absurd hinv id
  · rcases Cluster.stepEvent_cases c₁ f₁ ((s.clients c₁).futures f₁) _ with
      hev | ⟨_, _, _, hev⟩ | ⟨_, _, hev⟩ | ⟨_, _, _, _, _, _, hev⟩ <;>
      (rw [he, hev] at hinv; exact absurd hinv id)

theorem Cluster.step_invokePut {L : Layout} {s s' : Cluster} {act : Action} {c f k : ℕ}
    {v : UInt64} (h : s.step L act = some (.invokePut c f k v, s')) : act = .doPut c f k v := by
  rcases Cluster.step_cases h with ⟨_, _, _, _, rfl, he⟩ | ⟨_, _, _, rfl, he⟩ |
    ⟨_, _, _, _, _, _, he⟩ | ⟨_, _, _, _, _, _, _, _, _, he⟩ | ⟨c₁, f₁, _, he⟩
  · cases he
    rfl
  · cases he
  · cases he
  · cases he
  · rcases Cluster.stepEvent_cases c₁ f₁ ((s.clients c₁).futures f₁) _ with
      hev | ⟨_, _, _, hev⟩ | ⟨_, _, hev⟩ | ⟨_, _, _, _, _, _, hev⟩ <;>
      (rw [hev] at he; cases he)

theorem Sim.sequentialAgrees {L : Layout} {s s' : Cluster} {a : Proto} {act : Action} {e : Event}
    (h : Sim L s a) (hg : s.Sequential L act ∧ s.CacheAgrees L act)
    (hs : s.step L act = some (e, s')) : a.SequentialAgrees L e := by
  cases e with
  | invokePut c f k v =>
    refine ⟨h.phase_idle_of_invokes hg.1 hs ⟨rfl, rfl⟩, ?_⟩
    obtain rfl := Cluster.step_invokePut hs
    rw [← h.cells, ← h.cache c]
    exact hg.2
  | invokeGet c f k => exact h.phase_idle_of_invokes hg.1 hs ⟨rfl, rfl⟩
  | _ => trivial

/-- In every run admitted by `G`, with sequence numbers below the last one, every
    Get returns the value of the last Put of its key completed before, or zero. -/
def GetsLastPut (L : Layout) (G : Cluster → Action → Prop) : Prop :=
  ∀ (c f k : ℕ) (m : Register) (v : UInt64) (pre post : List Event) (s : Cluster),
    (Cluster.machine L).Run G (post ++ .getDone c f k m v :: pre) s →
    (∀ e ∈ post ++ .getDone c f k m v :: pre, e.SeqBelow) → v = lastPut k pre

/-- If no two operations overlap, every Get returns the value of the last Put, in
    the runs in which the cached registers agree with the cells. -/
theorem getsLastPut {L : Layout} (hq : L.effectiveMajority ≤ L.numServers)
    (hmaj : L.numServers < 2 * L.effectiveMajority) :
    GetsLastPut L fun s act => s.Sequential L act ∧ s.CacheAgrees L act := by
  intro c f k m v pre post s h hseq
  have hn : 0 < L.numServers := L.effectiveMajority_pos.trans_le hq
  obtain ⟨a, hr, _⟩ := exists_run (H := Proto.SequentialAgrees L) hq hn
    (fun s a act e s' hs hg hst => hs.sequentialAgrees hg hst) h hseq
  obtain ⟨a', hr', _⟩ := hr.of_append
  exact getDone_eq_lastPut hq hmaj (fun _ _ h => h) hr'

/-- For instance, where the second Put of a client starts from the register its
    first one has left on its quorum, and another client reads its value. -/
theorem getsLastPut_threeServers :
    GetsLastPut (.threeServers 1 true false) (fun s act =>
        s.Sequential (.threeServers 1 true false) act ∧
          s.CacheAgrees (.threeServers 1 true false) act) ∧
      ∃ s, (Cluster.machine (.threeServers 1 true false)).Run (fun s act =>
          s.Sequential (.threeServers 1 true false) act ∧
            s.CacheAgrees (.threeServers 1 true false) act)
        [.getDone 2 0 7 ⟨13, 0, 2⟩ 13, .read 2 0 0 7 ⟨13, 0, 2⟩, .read 2 0 2 7 .zero,
          .invokeGet 2 0 7, .putDone 0 0 7 13 ⟨13, 0, 2⟩,
          .cas 0 0 1 7 .put ⟨11, 0, 1⟩ ⟨13, 0, 2⟩ ⟨11, 0, 1⟩,
          .cas 0 0 0 7 .put ⟨11, 0, 1⟩ ⟨13, 0, 2⟩ ⟨11, 0, 1⟩, .invokePut 0 0 7 13,
          .putDone 0 0 7 11 ⟨11, 0, 1⟩, .cas 0 0 1 7 .put .zero ⟨11, 0, 1⟩ .zero,
          .cas 0 0 0 7 .put .zero ⟨11, 0, 1⟩ .zero, .stepped 0 0, .read 0 0 1 7 .zero,
          .read 0 0 0 7 .zero, .invokePut 0 0 7 11] s :=
  ⟨getsLastPut (by decide) (by decide), Lib.Machine.run_of_play
    [.doPut 0 0 7 11, .rdma 0 0 0, .rdma 0 0 1, .tryStepForward 0 0, .rdma 0 0 0, .rdma 0 0 1,
      .tryStepForward 0 0, .doPut 0 0 7 13, .rdma 0 0 0, .rdma 0 0 1, .tryStepForward 0 0,
      .doGet 2 0 7, .rdma 2 0 2, .rdma 2 0 0, .tryStepForward 2 0] (by decide +kernel)⟩

/-- In general, it does not. The second Put of the client 0 starts from the
    register of its first one, which the server 0 still holds, and the server 1
    does not: there, the client 1 has been. The server 0 gets the tag (2, 0), and
    the server 1, tried again, the tag (3, 0). The client 2 has the server 0 in
    common with the client 0, but finds on the server 2 the register of the client
    1, of the tag (2, 1), and returns its value. -/
theorem not_getsLastPut :
    ¬GetsLastPut (.threeServers 1 true false)
      (Cluster.Sequential (.threeServers 1 true false)) := by
  intro h
  obtain ⟨s, hs⟩ : ∃ s, (Cluster.machine (.threeServers 1 true false)).Run
      (Cluster.Sequential (.threeServers 1 true false))
      [.getDone 2 0 7 ⟨12, 1, 2⟩ 12, .read 2 0 0 7 ⟨13, 0, 2⟩, .read 2 0 2 7 ⟨12, 1, 2⟩,
        .invokeGet 2 0 7, .putDone 0 0 7 13 ⟨13, 0, 3⟩,
        .cas 0 0 1 7 .put ⟨12, 1, 2⟩ ⟨13, 0, 3⟩ ⟨12, 1, 2⟩, .stepped 0 0,
        .cas 0 0 1 7 .put ⟨11, 0, 1⟩ ⟨13, 0, 2⟩ ⟨12, 1, 2⟩,
        .cas 0 0 0 7 .put ⟨11, 0, 1⟩ ⟨13, 0, 2⟩ ⟨11, 0, 1⟩, .invokePut 0 0 7 13,
        .putDone 1 0 7 12 ⟨12, 1, 2⟩, .cas 1 0 2 7 .put .zero ⟨12, 1, 2⟩ .zero,
        .cas 1 0 1 7 .put ⟨11, 0, 1⟩ ⟨12, 1, 2⟩ ⟨11, 0, 1⟩, .stepped 1 0, .read 1 0 2 7 .zero,
        .read 1 0 1 7 ⟨11, 0, 1⟩, .invokePut 1 0 7 12, .putDone 0 0 7 11 ⟨11, 0, 1⟩,
        .cas 0 0 1 7 .put .zero ⟨11, 0, 1⟩ .zero, .cas 0 0 0 7 .put .zero ⟨11, 0, 1⟩ .zero,
        .stepped 0 0, .read 0 0 1 7 .zero, .read 0 0 0 7 .zero, .invokePut 0 0 7 11] s :=
    Lib.Machine.run_of_play
      [.doPut 0 0 7 11, .rdma 0 0 0, .rdma 0 0 1, .tryStepForward 0 0, .rdma 0 0 0, .rdma 0 0 1,
        .tryStepForward 0 0, .doPut 1 0 7 12, .rdma 1 0 1, .rdma 1 0 2, .tryStepForward 1 0,
        .rdma 1 0 1, .rdma 1 0 2, .tryStepForward 1 0, .doPut 0 0 7 13, .rdma 0 0 0, .rdma 0 0 1,
        .tryStepForward 0 0, .rdma 0 0 1, .tryStepForward 0 0, .doGet 2 0 7, .rdma 2 0 2,
        .rdma 2 0 0, .tryStepForward 2 0] (by decide +kernel)
  exact absurd (h 2 0 7 ⟨12, 1, 2⟩ 12 _ [] s hs (by decide)) (by decide)

end DiscoSkip
