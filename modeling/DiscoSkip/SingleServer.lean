import DiscoSkip.Progress
import DiscoSkip.Sequential

/-!
# One client, one server

With a single server, a Put leaves its target in the only cell there is, one
sequence number above the register it finds. So the sequence number of the cell
is the number of Puts, modulo 2 ^ 16 (`CellOk`), and a multiple of 2 ^ 16 Puts
leave a register of the tag (0, 0), that of the zero register which a Get starts
its maximum from: a Get does not see it, and returns zero.
-/

namespace DiscoSkip

open Function

/-- The value of a Put of the key `k` that is over. -/
def Event.putTo (k : ℕ) : Event → Option UInt64
  | .putDone _ _ k' v _ => if k' = k then some v else none
  | _ => none

/-- The values of the Puts of the key `k` that are over, the latest first. -/
def putsOf (k : ℕ) (tr : List Event) : List UInt64 := tr.filterMap (Event.putTo k)

/-- The sequence number after the Puts of the values `vs`. -/
def seqAfter (vs : List UInt64) : UInt16 := UInt16.ofNat vs.length

theorem seqAfter_cons (v : UInt64) (vs : List UInt64) : seqAfter (v :: vs) = seqAfter vs + 1 := by
  simp [seqAfter]

theorem seqAfter_eq_zero {vs : List UInt64} : seqAfter vs = 0 ↔ 65536 ∣ vs.length := by
  rw [seqAfter, ← UInt16.toNat_inj, UInt16.toNat_ofNat', Nat.dvd_iff_mod_eq_zero]
  rfl

/-! ## The cell -/

/-- The register the cell may hold after the Puts of the values `vs`, the latest
    first: that of the latest one, or the zero register. -/
structure CellOk (vs : List UInt64) (x : Register) : Prop where
  seq : x.seq = seqAfter vs
  clientId : x.clientId = 0
  value : x.value = (vs.headD 0).toUInt32 ∨ x = .zero

theorem CellOk.init : CellOk [] .zero := ⟨rfl, rfl, .inr rfl⟩

/-- A Put leaves its target. -/
theorem CellOk.put {L : Layout} {vs : List UInt64} {v : UInt64} {x : Register}
    (hx : x = regOf L 0 (seqAfter vs + 1) v) : CellOk (v :: vs) x := by
  subst hx
  exact ⟨(seqAfter_cons v vs).symm, rfl, .inl rfl⟩

/-- After a multiple of 2 ^ 16 Puts, the cell may hold the zero register. -/
theorem CellOk.zero {vs : List UInt64} (hd : 65536 ∣ vs.length) : CellOk vs .zero :=
  ⟨(seqAfter_eq_zero.2 hd).symm, rfl, .inr rfl⟩

/-- The maximum of the cell and of the zero register a Get starts from. -/
theorem CellOk.max_eq {vs : List UInt64} {x m : Register} (h : CellOk vs x)
    (hle : x.tag ≤ m.tag) (hm : m = .zero ∨ m = x) (hpos : m = .zero ∨ Register.zero.tag < m.tag) :
    m = if 65536 ∣ vs.length then .zero else x := by
  split
  · next hd =>
    rcases hpos with hpos | hpos
    · exact hpos
    · refine hm.resolve_right fun hmx => hpos.ne ?_
      rw [hmx]
      exact Register.tag_eq_iff.2 ⟨(h.seq.trans (seqAfter_eq_zero.2 hd)).symm, h.clientId.symm⟩
  · next hd =>
    refine hm.resolve_left fun hz => hd (seqAfter_eq_zero.1 ?_)
    rw [hz] at hle
    have hseq := Register.seq_le_of_tag hle
    rw [h.seq] at hseq
    exact UInt16.le_zero_iff.1 hseq

/-- That maximum is a register the cell may hold. -/
theorem CellOk.max {vs : List UInt64} {x : Register} (h : CellOk vs x) :
    CellOk vs (if 65536 ∣ vs.length then .zero else x) := by
  split
  · next hd => exact CellOk.zero hd
  · exact h

/-- What the cell is worth to a Get. -/
theorem CellOk.value_eq {vs : List UInt64} {x : Register} (h : CellOk vs x) :
    (if 65536 ∣ vs.length then .zero else x : Register).value.toUInt64 =
      if 65536 ∣ vs.length then 0 else (vs.headD 0).toUInt32.toUInt64 := by
  split
  · rfl
  · next hd =>
    rcases h.value with hv | rfl
    · rw [hv]
    · exact absurd (seqAfter_eq_zero.1 h.seq.symm) hd

/-! ## The operation in progress -/

/-- What the only operation in progress keeps about the cell `x`, after the Puts
    of the values `vs`. -/
def OnePhaseOk (L : Layout) (vs : List UInt64) (x : Register) : Phase → Prop
  | .idle => CellOk vs x
  | .putRead _ _ got => CellOk vs x ∧ ∀ y, got 0 = some y → y = x
  | .putChain _ v cached got => cached.seq = seqAfter vs ∧ ∃ old, CellOk vs old ∧
      (got 0 = none ∧ x = old ∨
        got 0 = some old ∧ x = if old = cached then regOf L 0 (seqAfter vs + 1) v else old)
  | .putCas _ v t need exp got => t = regOf L 0 (seqAfter vs + 1) v ∧ need 0 = true ∧
      (got 0 = none ∧ exp 0 = x ∧ CellOk vs x ∨ got 0 = some (exp 0) ∧ x = t)
  | .getRead _ got => CellOk vs x ∧ ∀ y, got 0 = some y → y = x
  | .getBack _ m _ _ => m = .zero ∧ 65536 ∣ vs.length ∧ CellOk vs x

/-- A CAS of a Put finds what it expects. -/
theorem OnePhaseOk.found {L : Layout} {vs : List UInt64} {x t y : Register} {k : ℕ} {v : UInt64}
    {need : ℕ → Bool} {exp : ℕ → Register} {got : ℕ → Option Register}
    (h : OnePhaseOk L vs x (.putCas k v t need exp got)) (hy : got 0 = some y) : y = exp 0 := by
  obtain ⟨hsome, _⟩ := h.2.2.resolve_left (by simp [hy])
  exact Option.some.inj (hy.symm.trans hsome)

/-- The maximum a Get finds. -/
theorem OnePhaseOk.max_eq {L : Layout} {vs : List UInt64} {x m : Register} {k : ℕ}
    {got : ℕ → Option Register} {g : ℕ → Register} (hq : L.effectiveMajority = 1)
    (h : OnePhaseOk L vs x (.getRead k got)) (hgot : ∀ i < L.effectiveMajority, got i = some (g i))
    (hle : ∀ i < L.effectiveMajority, (g i).tag ≤ m.tag)
    (hm : m = .zero ∨ ∃ i < L.effectiveMajority, m = g i)
    (hpos : m = .zero ∨ Register.zero.tag < m.tag) :
    m = if 65536 ∣ vs.length then .zero else x := by
  have hone : 0 < L.effectiveMajority := by omega
  have hg := h.2 _ (hgot 0 hone)
  refine h.1.max_eq (hg ▸ hle 0 hone) (hm.imp_right ?_) hpos
  rintro ⟨i, hi, rfl⟩
  rw [show i = 0 by omega, hg]

/-- What the operation in progress, and its client, keep about a key. -/
structure OneOk (L : Layout) (k : ℕ) (tr : List Event) (w : View) : Prop where
  phase : OnePhaseOk L (putsOf k tr) (w.cells 0 k) w.phase
  cache : L.regCacheEnabled = true → ∀ reg, w.cache k = some reg → reg.seq = seqAfter (putsOf k tr)

section Move

variable {L : Layout} {f k : ℕ} {tr : List Event} {e : Event} {w w' : View}

theorem putsOf_cons_of_none (h : e.putTo k = none) : putsOf k (e :: tr) = putsOf k tr :=
  List.filterMap_cons_none h

theorem putsOf_putDone (c f k : ℕ) (v : UInt64) (t : Register) (tr : List Event) :
    putsOf k (.putDone c f k v t :: tr) = v :: putsOf k tr :=
  List.filterMap_cons_some (by simp [Event.putTo])

/-- A step that ends no Put, and tells the cache nothing. -/
theorem OneOk.keep {cells cells' : ℕ → ℕ → Register} {ca : Cache} {ph ph' : Phase}
    (h : OneOk L k tr ⟨cells, ca, ph⟩) (he : e.putTo k = none)
    (hph : OnePhaseOk L (putsOf k tr) (cells' 0 k) ph') :
    OneOk L k (e :: tr) ⟨cells', ca, ph'⟩ := by
  constructor <;> rw [putsOf_cons_of_none he]
  · exact hph
  · exact h.cache

/-- A step that tells the cache a register of the current sequence number. -/
theorem OneOk.finish {cells : ℕ → ℕ → Register} {ca : Cache} {ph : Phase} {reg : Register}
    (hreg : reg.seq = seqAfter (putsOf k (e :: tr)))
    (hph : OnePhaseOk L (putsOf k (e :: tr)) (cells 0 k) ph) :
    OneOk L k (e :: tr) ⟨cells, toCache L ca k reg, ph⟩ := by
  refine ⟨hph, fun hen reg' hreg' => ?_⟩
  simp only [toCache, hen, if_true, Cache.put, update_self, Option.some.injEq] at hreg'
  rw [← hreg', hreg]

/-- The only server is that of every slot. -/
theorem srv_eq_zero (hn : L.numServers = 1) (c i : ℕ) : srv L c i = 0 := by
  rw [srv, DsConf.quorumIndices]
  change _ % L.numServers = 0
  rw [hn, Nat.mod_one]

variable (hn : L.numServers = 1) (hq : L.effectiveMajority = 1) (h : OneOk L k tr w)
  (hm : Move L 0 f w e w')

include hn hq h hm

/-- Every move of the operation in progress keeps what it keeps about its key. -/
theorem OneOk.move (hkey : w.phase.key = some k ∨ w'.phase.key = some k) :
    OneOk L k (e :: tr) w' := by
  have hphase := h.phase
  have h0 : ∀ {i}, i < L.effectiveMajority → i = 0 := fun hi => by omega
  have hone : 0 < L.effectiveMajority := by omega
  cases hm with
  | stutter => exact h.keep rfl hphase
  | @putHit cells ca k' v cached hen hca =>
    obtain rfl := Option.some.inj (hkey.resolve_left (by simp [Phase.key]))
    exact h.keep rfl ⟨h.cache hen cached hca, _, hphase, .inl ⟨rfl, rfl⟩⟩
  | putMiss => exact h.keep rfl ⟨hphase, by simp⟩
  | getStart => exact h.keep rfl ⟨hphase, by simp⟩
  | readPut hi hg =>
    obtain rfl := Option.some.inj (hkey.elim id id)
    obtain rfl := h0 hi
    refine h.keep rfl ⟨hphase.1, ?_⟩
    simp [srv_eq_zero hn]
  | readGet hi hg =>
    obtain rfl := Option.some.inj (hkey.elim id id)
    obtain rfl := h0 hi
    refine h.keep rfl ⟨hphase.1, ?_⟩
    simp [srv_eq_zero hn]
  | casChain hi hg =>
    obtain rfl := Option.some.inj (hkey.elim id id)
    obtain rfl := h0 hi
    obtain ⟨hseq, old, hold, hgot⟩ := hphase
    obtain ⟨_, rfl⟩ := hgot.resolve_right (by simp [hg])
    refine h.keep rfl ⟨hseq, _, hold, .inr ?_⟩
    rw [srv_eq_zero hn, ← hseq]
    exact ⟨update_self .., by rw [casCell]; split <;> simp⟩
  | casPut hi hg =>
    obtain rfl := Option.some.inj (hkey.elim id id)
    obtain rfl := h0 hi
    obtain ⟨ht, hneed, hgot⟩ := hphase
    obtain ⟨_, hexp, hold⟩ := hgot.resolve_right (by simp [hg])
    refine h.keep rfl ⟨ht, hneed, .inr ?_⟩
    rw [srv_eq_zero hn, hexp]
    exact ⟨update_self .., by simp [casCell]⟩
  | casGet hi hg =>
    obtain rfl := Option.some.inj (hkey.elim id id)
    obtain ⟨rfl, hd, hold⟩ := hphase
    refine h.keep rfl ⟨rfl, hd, ?_⟩
    rw [srv_eq_zero hn, casCell]
    split
    · simp only [update_self]
      exact CellOk.zero hd
    · exact hold
  | @readDone cells ca k' v got z g hgot hle hz =>
    obtain rfl := Option.some.inj (hkey.elim id id)
    have hg := hphase.2 _ (hgot 0 hone)
    have hzq : z = seqAfter (putsOf k' tr) := by
      rw [← hphase.1.seq, ← hg]
      rcases hz with rfl | ⟨i, hi, rfl⟩
      · exact (UInt16.le_zero_iff.1 (hle 0 hone)).symm
      · rw [h0 hi]
    exact h.keep rfl ⟨by rw [hzq], rfl, .inl ⟨rfl, hg, hphase.1⟩⟩
  | @chainDone cells ca k' v cached got hgot =>
    obtain rfl := Option.some.inj (hkey.resolve_right (by simp [Phase.key]))
    obtain ⟨hseq, old, hold, hcell⟩ := hphase
    obtain ⟨hsome, hcell⟩ := hcell.resolve_left (by simp [hgot 0 hone])
    obtain rfl := Option.some.inj ((hgot 0 hone).symm.trans hsome)
    rw [if_pos rfl] at hcell
    refine OneOk.finish ?_ ?_
    · rw [putsOf_putDone, seqAfter_cons, ← hseq]
      rfl
    · rw [putsOf_putDone]
      exact CellOk.put hcell
  | @chainRetry cells ca k' v cached got z g hgot hex hle hz =>
    obtain rfl := Option.some.inj (hkey.elim id id)
    obtain ⟨hseq, old, hold, hcell⟩ := hphase
    obtain ⟨hsome, hcell⟩ := hcell.resolve_left (by simp [hgot 0 hone])
    obtain rfl := Option.some.inj ((hgot 0 hone).symm.trans hsome)
    obtain ⟨i, hi, hne⟩ := hex
    obtain rfl := h0 hi
    rw [if_neg hne] at hcell
    dsimp only at hcell
    have hzq : z = seqAfter (putsOf k' tr) := by
      rcases hz with rfl | ⟨i, hi, _, rfl⟩
      · exact hseq
      · rw [h0 hi]
        exact hold.seq
    exact h.keep rfl ⟨by rw [hzq], by simpa using hne,
      .inl ⟨if_neg hne, (if_neg hne).trans hcell.symm, hcell.symm ▸ hold⟩⟩
  | @casDone cells ca k' v t need exp got g hgot hall =>
    obtain rfl := Option.some.inj (hkey.resolve_right (by simp [Phase.key]))
    obtain ⟨rfl, hneed, hcell⟩ := hphase
    obtain ⟨_, hcell⟩ := hcell.resolve_left (by simp [hgot 0 hone])
    refine OneOk.finish ?_ ?_
    · rw [putsOf_putDone, seqAfter_cons]
      rfl
    · rw [putsOf_putDone]
      exact CellOk.put hcell
  | @casRetry cells ca k' v t need exp got g hgot hex hbelow =>
    -- no CAS fails
    obtain ⟨i, hi, _, hne⟩ := hex
    obtain rfl := h0 hi
    exact absurd (hphase.found (hgot 0 hone)) hne
  | @casReset cells ca k' v t need exp got m g hgot hm hout hbelow =>
    obtain rfl := h0 hm
    exact absurd (hphase.found (hgot 0 hone)) hout.2.1
  | @getDone cells ca k' got m g hgot hle hm hback hpos =>
    obtain rfl := Option.some.inj (hkey.resolve_right (by simp [Phase.key]))
    have hmax := OnePhaseOk.max_eq hq hphase hgot hle hm hpos
    refine OneOk.finish ?_ hphase.1
    rw [hmax]
    exact hphase.1.max.seq
  | @getMax cells ca k' got m g hgot hle hm hen hex hpos =>
    obtain rfl := Option.some.inj (hkey.elim id id)
    have hmax := OnePhaseOk.max_eq hq hphase hgot hle hm hpos
    refine OneOk.finish ?_ ?_
    · rw [hmax]
      exact hphase.1.max.seq
    · -- the maximum is not in the cell
      obtain ⟨i, hi, hne⟩ := hex
      rw [h0 hi, hphase.2 _ (hgot 0 hone)] at hne
      split at hmax
      · next hd => exact ⟨hmax, hd, hphase.1⟩
      · exact absurd hmax.symm hne
  | backDone => exact h.keep rfl hphase.2.2

omit hn in
/-- What a Get that ends returns. -/
theorem OneOk.getDone {c : ℕ} {m : Register} {v : UInt64} (he : e = .getDone c f k m v) :
    v = if 65536 ∣ (putsOf k tr).length then 0
      else ((putsOf k tr).headD 0).toUInt32.toUInt64 := by
  have hphase := h.phase
  cases hm with
  | getDone hgot hle hm _ hpos =>
    cases he
    rw [OnePhaseOk.max_eq hq hphase hgot hle hm hpos]
    exact hphase.1.value_eq
  | backDone =>
    cases he
    rw [hphase.1, if_pos hphase.2.1]
    rfl
  | _ => cases he

end Move

/-! ## Runs -/

section Run

variable {L : Layout} {H : Proto → Event → Prop} {k : ℕ} {tr : List Event} {a : Proto} {c f : ℕ}
  {e : Event} {w : View}

/-- What the client keeps about the key `k`, the future `f` being the only one
    that may be doing something. -/
def Proto.OneOk (L : Layout) (k : ℕ) (tr : List Event) (a : Proto) (c f : ℕ) : Prop :=
  DiscoSkip.OneOk L k tr ⟨a.cells, a.cache 0, (a.phase c f).at k⟩

variable (hn : L.numServers = 1) (hq : L.effectiveMajority = 1)

include hn hq

/-- A move of the future in question. -/
theorem Proto.OneOk.move (h : a.OneOk L k tr 0 f) (hm : Move L 0 f (a.view 0 f) e w) :
    (a.setView 0 f w).OneOk L k (e :: tr) 0 f := by
  rw [Proto.OneOk, Proto.setView_phase_self, Proto.setView_cache_self]
  by_cases hkey : (a.phase 0 f).key = some k ∨ w.phase.key = some k
  · obtain ⟨hat, hat'⟩ := hm.at_eq hkey
    rw [hat']
    refine DiscoSkip.OneOk.move hn hq ?_ hm hkey
    rw [Proto.OneOk, show (a.phase 0 f).at k = _ from hat] at h
    exact h
  · rw [not_or] at hkey
    obtain ⟨hcells, hca, hres, _⟩ := hm.other_key hkey.1 hkey.2
    have hput : e.putTo k = none := by
      cases e with
      | putDone c' f' k' v t =>
        obtain ⟨rfl, rfl⟩ := Prod.mk.inj hm.owner_eq
        refine if_neg fun hk => hres t ?_
        rw [hk]
        rfl
      | _ => rfl
    rw [Proto.OneOk, Phase.at, if_neg hkey.1] at h
    rw [Phase.at, if_neg hkey.2]
    refine ⟨?_, fun hen reg hreg => ?_⟩ <;> rw [putsOf_cons_of_none hput]
    · change OnePhaseOk _ _ (w.cells 0 k) _
      rw [hcells]
      exact h.phase
    · exact h.cache hen reg (hca ▸ hreg)

/-- In every run of operations that do not overlap, the cell is as it should be. -/
theorem Proto.OneOk.run (hc : L.numClients = 1)
    (hH : ∀ a e c f, H a e → e.Invokes c f → ∀ c f, a.phase c f = .idle)
    (h : Proto.Run L H tr a) :
    ∃ c f, (∀ c' f', c' ≠ c ∨ f' ≠ f → a.phase c' f' = .idle) ∧ a.OneOk L k tr c f := by
  refine h.active (P := fun tr a => a.OneOk L k tr) hH ?_ (fun tr a c f c' f' hidle h => ?_)
    (fun tr a c f e w _ hc' _ h hm => ?_) fun tr a c f c' f' h => ⟨?_, ?_⟩
  · exact ⟨CellOk.init, by simp [Cache.empty]⟩
  · rw [Proto.OneOk, hidle] at h ⊢
    exact h
  · obtain rfl : c = 0 := by omega
    exact h.move hn hq hm
  · rw [putsOf_cons_of_none rfl]
    exact h.phase
  · rw [putsOf_cons_of_none rfl]
    exact h.cache

/-- What a Get that ends returns: zero, if the number of the Puts before it is a
    multiple of 2 ^ 16, and else the value of the last one. -/
theorem getDone_eq {m : Register} {x : UInt64} (hc : L.numClients = 1)
    (hH : ∀ a e c f, H a e → e.Invokes c f → ∀ c f, a.phase c f = .idle)
    (h : Proto.Run L H (.getDone c f k m x :: tr) a) :
    x = if 65536 ∣ (putsOf k tr).length then 0
      else ((putsOf k tr).headD 0).toUInt32.toUInt64 := by
  obtain ⟨a₀, h₀, c', f', w, hc', _, _, hm, _⟩ := h.last
  obtain ⟨rfl, rfl⟩ := Prod.mk.inj hm.owner_eq
  obtain rfl : c = 0 := by omega
  obtain ⟨c', f', hidle, hone⟩ := Proto.OneOk.run (k := k) hn hq hc hH h₀
  have hkey : (a₀.phase 0 f).key = some k := hm.key_of_getDone
  have hcf : c' = 0 ∧ f' = f := by
    by_contra hne
    rw [hidle 0 f (by tauto)] at hkey
    exact absurd hkey (by simp [Phase.key])
  obtain ⟨rfl, rfl⟩ := hcf
  rw [Proto.OneOk, Phase.at, if_pos hkey] at hone
  exact hone.getDone hq hm rfl

end Run

/-! ## Running the operations -/

/-- How many steps the operation of a future takes at most. -/
def Phase.rank : Phase → ℕ
  | .idle => 0
  | .putRead _ _ got | .putChain _ _ _ got | .getRead _ got => if got 0 = none then 4 else 3
  | .putCas _ _ _ _ _ got | .getBack _ _ _ got => if got 0 = none then 2 else 1

theorem Phase.rank_le (ph : Phase) : ph.rank ≤ 4 := by
  cases ph <;> simp only [Phase.rank] <;> first | omega | (split <;> omega)

/-- Every move but a stutter goes down. -/
theorem Move.rank_lt {L : Layout} {c f : ℕ} {w w' : View} {e : Event} {vs : List UInt64}
    {x : Register} (hq : L.effectiveMajority = 1) (hm : Move L c f w e w')
    (h : OnePhaseOk L vs x w.phase) (hne : w.phase ≠ .idle)
    (hprog : e ≠ .stepped c f ∨ ¬w.phase.Waiting L.effectiveMajority) :
    w'.phase.rank < w.phase.rank := by
  have h0 : ∀ {i}, i < L.effectiveMajority → i = 0 := fun hi => by omega
  have hone : 0 < L.effectiveMajority := by omega
  cases hm with
  | stutter hw => exact absurd hw (hprog.resolve_left (not_not.2 rfl))
  | putHit | putMiss | getStart => exact absurd rfl hne
  | readPut hi hg | readGet hi hg | casChain hi hg | casPut hi hg | casGet hi hg =>
    obtain rfl := h0 hi
    simp [Phase.rank, hg]
  | readDone hgot | chainDone hgot | casDone hgot | getDone hgot => simp [Phase.rank, hgot 0 hone]
  | chainRetry hgot | getMax hgot =>
    simp only [Phase.rank, hgot 0 hone]
    split <;> simp
  | casRetry hgot hex =>
    obtain ⟨i, hi, _, hne'⟩ := hex
    obtain rfl := h0 hi
    exact absurd (h.found (hgot 0 hone)) hne'
  | casReset hgot hm hout =>
    obtain rfl := h0 hm
    exact absurd (h.found (hgot 0 hone)) hout.2.1
  | backDone =>
    simp only [Phase.rank]
    split <;> simp

/-- Where the operations of the first future of the first client, on the key `k`,
    have led: a run, and what it corresponds to. -/
structure Driven (L : Layout) (k : ℕ) (tr : List Event) (s : Cluster) (a : Proto) : Prop where
  run : (Cluster.machine L).Run (Cluster.Sequential L) tr s
  sim : Sim L s a
  idle : ∀ c f, c ≠ 0 ∨ f ≠ 0 → a.phase c f = .idle
  one : a.OneOk L k tr 0 0

section Driven

variable {L : Layout} {k : ℕ} {tr : List Event} {s s' : Cluster} {a : Proto} {e : Event}
  {act : Action} {o : Op}

theorem Driven.init : Driven L k [] {} {} :=
  ⟨.nil, .init L, fun _ _ _ => rfl, CellOk.init, by simp [Cache.empty]⟩

variable (hn : L.numServers = 1) (hq : L.effectiveMajority = 1)

include hn hq

theorem Driven.step (h : Driven L k tr s a) (hg : s.Sequential L act)
    (hst : s.step L act = some (e, s')) (hown : act.owner = (0, 0)) :
    ∃ w, Move L 0 0 (a.view 0 0) e w ∧ Driven L k (e :: tr) s' (a.setView 0 0 w) := by
  obtain ⟨w, hm, hs⟩ := h.sim.step_owner (by omega) (by omega) hst hown
  refine ⟨w, hm, .cons h.run ⟨act, hg, hst⟩, hs, fun c f hne => ?_, h.one.move hn hq hm⟩
  rw [Proto.setView_phase_ne _ _ hne]
  exact h.idle c f hne

omit hn hq in
theorem advance_owner : (s.advance L 0 0).owner = (0, 0) := by
  rw [Cluster.advance]
  split <;> rfl

omit hn hq in
theorem advance_sequential : s.Sequential L (s.advance L 0 0) := by
  rw [Cluster.advance]
  split <;> trivial

omit hn hq in
theorem Phase.key_of_op {ph : Phase} (h : ph.op = some o) : ph.key = some o.key := by
  cases ph <;> cases h <;> rfl

omit hn hq in
theorem Event.putTo_of_ended (h : e.ended = none) : e.putTo k = none := by
  cases e <;> first | rfl | cases h

/-- The operation of the future, run alone, ends. -/
theorem Driven.runToDone {n : ℕ} (h : Driven L k tr s a) (ho : (a.phase 0 0).op = some o)
    (hk : o.key = k) (hr : (a.phase 0 0).rank < n) :
    ∃ e tr' s' a', Cluster.runToDone L 0 0 n tr s = some (e :: tr', s') ∧
      Driven L k (e :: tr') s' a' ∧ a'.phase 0 0 = .idle ∧
      (e.ended = some o ∧ e.owner = (0, 0)) ∧ putsOf k tr' = putsOf k tr := by
  induction n generalizing tr s a with
  | zero => exact absurd hr (Nat.not_lt_zero _)
  | succ n ih =>
    have hne : a.phase 0 0 ≠ .idle := by
      intro hidle
      rw [hidle] at ho
      cases ho
    have hnot : ¬((s.clients 0).futures 0).isDone = true := fun hd => hne (h.sim.of_idle hd).1
    obtain ⟨e, s', hst, hprog⟩ := h.sim.advance (by omega) hne
    obtain ⟨w, hm, hd⟩ := h.step hn hq advance_sequential hst advance_owner
    have hone := h.one
    rw [Proto.OneOk, Phase.at, if_pos (hk ▸ Phase.key_of_op ho)] at hone
    have hlt : w.phase.rank < (a.phase 0 0).rank := hm.rank_lt hq hone.phase hne hprog
    rw [Cluster.runToDone, if_neg hnot, hst]
    dsimp only
    rcases hm.op ho with ⟨ho', he⟩ | ⟨hidle, he⟩
    · rw [← Proto.setView_phase_self a 0 0 w] at ho' hlt
      obtain ⟨e', tr', s'', a', hx, hd', hi, he', hp⟩ := ih hd ho' (by omega)
      exact ⟨e', tr', s'', a', hx, hd', hi, he',
        hp.trans (putsOf_cons_of_none (Event.putTo_of_ended he))⟩
    · rw [← Proto.setView_phase_self a 0 0 w] at hidle
      refine ⟨e, tr, s', _, ?_, hd, hidle, ⟨he, hm.owner_eq⟩, rfl⟩
      obtain ⟨n, rfl⟩ : ∃ n', n = n' + 1 := ⟨n - 1, by omega⟩
      have hp := hd.sim.phase 0 0
      rw [hidle] at hp
      rw [Cluster.runToDone, if_pos hp.1]

variable (hc : L.numClients = 1) (ha : 0 < L.asyncParallelism)

include hc ha

/-- An operation that is started, and run alone, ends. -/
theorem Driven.perform {n : ℕ} (h : Driven L k tr s a) (hidle : a.phase 0 0 = .idle) (h5 : 5 ≤ n)
    (hk : o.key = k) :
    ∃ e tr' s' a', Cluster.perform L 0 0 n (tr, s) o = some (e :: tr', s') ∧
      Driven L k (e :: tr') s' a' ∧ a'.phase 0 0 = .idle ∧
      (e.ended = some o ∧ e.owner = (0, 0)) ∧ putsOf k tr' = putsOf k tr := by
  have hall : s.Idle L := by
    intro c hc' f _
    have hp := h.sim.phase c f
    have hph : a.phase c f = .idle := by
      by_cases hcf : c ≠ 0 ∨ f ≠ 0
      · exact h.idle c f hcf
      · push Not at hcf
        rw [hcf.1, hcf.2, hidle]
    rw [hph] at hp
    exact hp.1
  obtain ⟨s', hst⟩ := Cluster.step_start o (by omega) ha (hall 0 (by omega) 0 ha)
  obtain ⟨w, hm, hd⟩ := h.step hn hq (by cases o <;> exact hall) hst (by cases o <;> rfl)
  have ho := hm.op_of_started
  rw [← Proto.setView_phase_self a 0 0 w] at ho
  obtain ⟨e, tr', s'', a', hx, hd', hi, he, hp⟩ :=
    hd.runToDone hn hq ho hk (lt_of_le_of_lt (Phase.rank_le _) h5)
  refine ⟨e, tr', s'', a', ?_, hd', hi, he, hp.trans (putsOf_cons_of_none (by cases o <;> rfl))⟩
  simpa only [Cluster.perform, hst] using hx

/-- So do Puts, one after the other. -/
theorem Driven.puts {n : ℕ} (h5 : 5 ≤ n) (vs : List UInt64) (h : Driven L k tr s a)
    (hidle : a.phase 0 0 = .idle) :
    ∃ tr' s' a', vs.foldlM (fun x v => Cluster.perform L 0 0 n x (.put k v)) (tr, s) =
        some (tr', s') ∧
      Driven L k tr' s' a' ∧ a'.phase 0 0 = .idle ∧ putsOf k tr' = vs.reverse ++ putsOf k tr := by
  induction vs generalizing tr s a with
  | nil => exact ⟨tr, s, a, rfl, h, hidle, rfl⟩
  | cons v vs ih =>
    obtain ⟨e, tr₁, s₁, a₁, hx₁, hd₁, hi₁, he, hp₁⟩ :=
      h.perform hn hq hc ha (o := .put k v) hidle h5 rfl
    obtain ⟨tr', s', a', hx, hd, hi, hp⟩ := ih hd₁ hi₁
    refine ⟨tr', s', a', ?_, hd, hi, ?_⟩
    · rw [List.foldlM_cons, hx₁]
      exact hx
    · have hput : e.putTo k = some v := by
        cases e <;> cases he.1
        exact if_pos rfl
      rw [hp, putsOf, List.filterMap_cons_some hput, ← putsOf, hp₁, List.reverse_cons,
        List.append_assoc]
      rfl

end Driven

/-! ## A Get after Puts -/

/-- The value a Get of the key `k` returns, after Puts of the values `vs`, one
    after the other, each operation run to its end in less than `n` steps. -/
def getAfterPuts (L : Layout) (n k : ℕ) (vs : List UInt64) : Option UInt64 := do
  let x ← vs.foldlM (fun x v => Cluster.perform L 0 0 n x (.put k v)) ([], {})
  let (_, s) ← Cluster.perform L 0 0 n x (.get k)
  return ((s.clients 0).futures 0).getF.getValue

/-- A Get of the key `k` may return the value `x` after Puts of the values `vs`, in
    some run of operations that do not overlap. -/
def Returns (L : Layout) (k : ℕ) (vs : List UInt64) (x : UInt64) : Prop :=
  ∃ c f m tr s, (Cluster.machine L).Run (Cluster.Sequential L) (.getDone c f k m x :: tr) s ∧
    putsOf k tr = vs.reverse

section Returns

variable {L : Layout} {k : ℕ} {vs : List UInt64} (hc : L.numClients = 1) (hn : L.numServers = 1)
  (hq : L.effectiveMajority ≤ L.numServers)

include hc hn hq

/-- In every run, zero is returned after a multiple of 2 ^ 16 Puts, and else the
    value of the last one. -/
theorem Returns.eq {x : UInt64} (h : Returns L k vs x) :
    x = if 65536 ∣ vs.length then 0 else ((vs.reverse).headD 0).toUInt32.toUInt64 := by
  obtain ⟨c, f, m, tr, s, h, hp⟩ := h
  have hpos := L.effectiveMajority_pos
  obtain ⟨a, hr, _⟩ := exists_run (Q := fun _ => True)
    (H := fun a e => ∀ c f, e.Invokes c f → ∀ c f, a.phase c f = .idle) hq (by omega)
    (fun s a act e s' hs hg hst c f => hs.phase_idle_of_invokes hg hst) h fun _ _ => trivial
  have hx := getDone_eq hn (by omega) hc (fun a e c f he hinv => he.1 c f hinv) hr
  rwa [hp, List.length_reverse] at hx

variable (k vs) in
/-- The Puts and the Get, run to their ends, return a value. -/
theorem getAfterPuts_returns {n : ℕ} (ha : 0 < L.asyncParallelism) (h5 : 5 ≤ n) :
    ∃ x, getAfterPuts L n k vs = some x ∧ Returns L k vs x := by
  have hpos := L.effectiveMajority_pos
  have hq1 : L.effectiveMajority = 1 := by omega
  obtain ⟨tr, s, a, hx, hd, hi, hp⟩ := Driven.puts hn hq1 hc ha h5 vs (Driven.init (k := k)) rfl
  obtain ⟨e, tr', s', a', hx', hd', _, he, hp'⟩ :=
    hd.perform hn hq1 hc ha (o := .get k) hi h5 rfl
  obtain ⟨m, x, rfl⟩ : ∃ m x, e = .getDone 0 0 k m x := by
    obtain ⟨he, hown⟩ := he
    cases e <;> cases he
    cases hown
    exact ⟨_, _, rfl⟩
  obtain ⟨s₀, _, act, _, hst⟩ := hd'.run.last
  refine ⟨x, ?_, 0, 0, m, tr', s', hd'.run, ?_⟩
  · rw [getAfterPuts, hx]
    change (Cluster.perform L 0 0 n (tr, s) (.get k) >>= fun y =>
      some ((y.2.clients 0).futures 0).getF.getValue) = some x
    rw [hx', Option.bind_eq_bind, Option.bind_some, Cluster.getValue_of_getDone hst]
  · rw [hp', hp]
    exact List.append_nil _

/-- After Puts of 32-bit values, one after the other, a Get returns the last one,
    and nothing else, unless the number of the Puts is a multiple of 2 ^ 16 and this
    value is not zero. -/
theorem getAfterPuts_eq_last_iff {n : ℕ} (ha : 0 < L.asyncParallelism) (h5 : 5 ≤ n) (hvs : vs ≠ [])
    (hv : ∀ v ∈ vs, v.toNat < 2 ^ 32) :
    (getAfterPuts L n k vs = some (vs.getLast hvs) ∧ ∀ x, Returns L k vs x → x = vs.getLast hvs) ↔
      ¬65536 ∣ vs.length ∨ vs.getLast hvs = 0 := by
  have hlast : vs.reverse.headD 0 = vs.getLast hvs := by
    rw [List.headD_eq_head?_getD, List.head?_reverse, List.getLast?_eq_some_getLast hvs]
    rfl
  have hfit := toUInt64_toUInt32 (hv _ (List.getLast_mem hvs))
  obtain ⟨x, hx, hr⟩ := getAfterPuts_returns k vs hc hn hq ha h5
  have hval := fun x (h : Returns L k vs x) => h.eq hc hn hq
  rw [hlast, hfit] at hval
  by_cases hd : 65536 ∣ vs.length
  · simp only [hd, if_true] at hval
    rw [hx, hval x hr]
    constructor
    · exact fun h => .inr (Option.some.inj h.1).symm
    · intro h
      have h0 := h.resolve_left (not_not.2 hd)
      exact ⟨by rw [h0], fun y hy => by rw [h0, hval y hy]⟩
  · simp only [hd, if_false] at hval
    refine ⟨fun _ => .inl hd, fun _ => ⟨?_, hval⟩⟩
    rw [hx, hval x hr]

end Returns

/-- One client of one server. -/
def Layout.oneServer : Layout where
  numClients := 1
  numServers := 1
  asyncParallelism := 1
  numRegisters := 16
  maxRange := 4
  majority := 0
  regCacheEnabled := true
  regWritebackEnabled := true

/-- For instance, after two Puts, the second one by its cached register. -/
theorem getAfterPuts_oneServer : getAfterPuts .oneServer 5 7 [11, 12] = some 12 := by
  have hvs : [(11 : UInt64), 12] ≠ [] := by simp
  have hlen : ¬65536 ∣ [(11 : UInt64), 12].length := by
    rw [List.length_cons, List.length_singleton]
    omega
  exact ((getAfterPuts_eq_last_iff (L := .oneServer) (k := 7) rfl rfl (by decide) (by decide)
    le_rfl hvs (by simp)).2 (.inl hlen)).1

/-- In general, it does not: after 2 ^ 16 Puts of the value 1, a Get returns zero. -/
theorem not_getAfterPuts_eq_last :
    ¬∀ (vs : List UInt64) (hvs : vs ≠ []), (∀ v ∈ vs, v.toNat < 2 ^ 32) →
      getAfterPuts .oneServer 5 7 vs = some (vs.getLast hvs) := by
  intro h
  obtain ⟨n, hn⟩ : ∃ n, n = 65536 := ⟨_, rfl⟩
  have hne : List.replicate n (1 : UInt64) ≠ [] := by
    rw [ne_eq, List.replicate_eq_nil_iff]
    omega
  have hlast := h (List.replicate n 1) hne (by
    intro v hv
    rw [List.eq_of_mem_replicate hv]
    decide)
  obtain ⟨x, hx, hr⟩ := getAfterPuts_returns (L := .oneServer) (n := 5) 7 (List.replicate n 1) rfl
    rfl (by decide) (by decide) le_rfl
  have h0 := hr.eq rfl rfl (by decide)
  rw [List.length_replicate, if_pos (hn ▸ dvd_refl _)] at h0
  rw [hx, h0, List.getLast_replicate] at hlast
  exact absurd hlast (by decide)

end DiscoSkip
