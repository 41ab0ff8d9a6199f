import DiscoSkip.Monotone
import DiscoSkip.Simulation

/-!
# The session of a client

What a client that runs one operation at a time keeps about a key (`SessionOk`),
whatever the others do, by the last register its operations have ended with
(`lastReg`) and the registers its CASes were to install (`Issued`):

* a cell of its quorum, and its cache, hold a tag not below the last one. This is
  so although a Put may end without having written its whole quorum: one slot at
  least has really got the final target (`CasOk.exists_need`);
* so, its next Put issues only registers of greater sequence numbers, and its
  next Get finds a tag not below.

It follows that the tags of its operations never decrease (`SessionOk.result_le`), and
that it never issues two registers with one tag (`SessionOk.issued_eq`).
-/

namespace DiscoSkip

open Function

/-! ## What has happened -/

/-- The register an operation of a client on a key has come to, if the event says so. -/
def Event.result : Event → Option (ℕ × ℕ × Register)
  | .putDone c _ k _ t => some (c, k, t)
  | .getMax c _ k m | .getDone c _ k m _ => some (c, k, m)
  | _ => none

/-- The last register that the operations of the client `c` on the key `k` have come to. -/
def lastReg (c k : ℕ) : List Event → Register
  | [] => .zero
  | e :: tr => match e.result with
    | some (c', k', reg) => if c' = c ∧ k' = k then reg else lastReg c k tr
    | none => lastReg c k tr

/-- A CAS of a Put of the client `c` was to install the register `t` on the key `k`. -/
def Issued (c k : ℕ) (tr : List Event) (t : Register) : Prop :=
  ∃ f r x y, .cas c f r k .put x t y ∈ tr

section History

variable {c k : ℕ} {tr : List Event} {e : Event} {t reg : Register}

theorem lastReg_cons (h : ∀ reg, e.result ≠ some (c, k, reg)) :
    lastReg c k (e :: tr) = lastReg c k tr := by
  rw [lastReg]
  split
  · next c' k' reg he =>
    refine if_neg fun hck => h reg ?_
    rw [he, hck.1, hck.2]
  · rfl

theorem lastReg_cons_self (h : e.result = some (c, k, reg)) : lastReg c k (e :: tr) = reg := by
  rw [lastReg, h]
  exact if_pos ⟨rfl, rfl⟩

theorem Issued.cons (h : Issued c k tr t) : Issued c k (e :: tr) t := by
  obtain ⟨f, r, x, y, hm⟩ := h
  exact ⟨f, r, x, y, List.mem_cons_of_mem _ hm⟩

theorem Issued.of_cons (h : Issued c k (e :: tr) t) :
    Issued c k tr t ∨ ∃ f r x y, e = .cas c f r k .put x t y := by
  obtain ⟨f, r, x, y, hm⟩ := h
  rcases List.mem_cons.1 hm with he | hm
  · exact .inr ⟨f, r, x, y, he.symm⟩
  · exact .inl ⟨f, r, x, y, hm⟩

end History

/-! ## The invariant -/

/-- The key of the operation in progress. -/
def Phase.key : Phase → Option ℕ
  | .idle => none
  | .putRead k .. | .putChain k .. | .putCas k .. | .getRead k _ | .getBack k .. => some k

/-- A move does not concern the other keys. -/
theorem Move.other_key {L : Layout} {c f k : ℕ} {w w' : View} {e : Event} (h : Move L c f w e w')
    (hk : w.phase.key ≠ some k) (hk' : w'.phase.key ≠ some k) :
    (∀ r, w'.cells r k = w.cells r k) ∧ w'.cache k = w.cache k ∧
      (∀ reg, e.result ≠ some (c, k, reg)) ∧ ∀ f r kd x t y, e ≠ .cas c f r k kd x t y := by
  refine ⟨fun r => ?_, ?_, fun reg hres => ?_, fun f r kd x t y he => ?_⟩
  · have hcas : ∀ {cells : ℕ → ℕ → Register} {k' r' x t}, k' ≠ k →
        casCell cells r' k' x t r k = cells r k := fun hne => casCell_ne (.inr hne.symm)
    cases h <;> first
      | rfl
      | exact hcas (by simpa [Phase.key] using hk)
  · have hput : ∀ {ca : Cache} {k' reg}, k' ≠ k → toCache L ca k' reg k = ca k := by
      intro ca k' reg hne
      rw [toCache]
      split
      · exact update_of_ne hne.symm ..
      · rfl
    cases h <;> first
      | rfl
      | exact hput (by simpa [Phase.key] using hk)
  · cases h <;> cases hres <;> exact hk rfl
  · cases h <;> cases he <;> exact hk rfl

/-- The answers of a reading phase. -/
def Phase.reads : Phase → ℕ → Option Register
  | .putRead _ _ got | .getRead _ got => got
  | _ => fun _ => none

/-- A Put of the value of `t` is in progress, to a target of a sequence number
    not below that of `t`. -/
def Phase.Issues (t : Register) : Phase → Prop
  | .putChain _ v cached _ => t.value = v.toUInt32 ∧ t.seq ≤ cached.seq + 1
  | .putCas _ v t' _ _ _ => t.value = v.toUInt32 ∧ t.seq ≤ t'.seq
  | _ => False

/-- What the phase of a client keeps, with `last` the last register its
    operations on the key have come to. -/
def SessionPhase (L : Layout) (c : ℕ) (last : Register) (cells : ℕ → ℕ → Register) : Phase → Prop
  | .putChain k v cached got => last.tag ≤ cached.tag ∧ ∀ i < L.effectiveMajority,
      got i = some cached → (regOf L c (cached.seq + 1) v).tag ≤ (cells (srv L c i) k).tag
  | .putCas k v t need exp got => (last.seq < t.seq ∧ ∃ z, t = regOf L c z v) ∧
      ∀ i < L.effectiveMajority, need i = true → got i = some (exp i) →
        t.tag ≤ (cells (srv L c i) k).tag
  | .getRead k got => ∀ i < L.effectiveMajority, ∀ x, got i = some x →
      x.tag ≤ (cells (srv L c i) k).tag
  | .getBack _ m _ _ => last = m
  | _ => True

/-- What a client keeps about the key `k`. -/
structure SessionOk (L : Layout) (c k : ℕ) (tr : List Event) (cells : ℕ → ℕ → Register)
    (cache : Cache) (ph : Phase) : Prop where
  /-- A slot has not been, and will not be, seen below the last register. -/
  floor : ∃ i < L.effectiveMajority, (lastReg c k tr).tag ≤ (cells (srv L c i) k).tag ∧
    (ph.key = some k → ∀ x, ph.reads i = some x → (lastReg c k tr).tag ≤ x.tag)
  cache : L.regCacheEnabled = true → ∀ reg, cache k = some reg → (lastReg c k tr).tag ≤ reg.tag
  phase : ph.key = some k → SessionPhase L c (lastReg c k tr) cells ph
  /-- The registers issued are those of the client, and not above the last
      register, or of the Put in progress. -/
  issued : ∀ t, Issued c k tr t → t.clientId = (DsConf.ofClient L c).clientIdx.toUInt16 ∧
      0 < t.seq ∧
    (t.seq ≤ (lastReg c k tr).seq ∨ ph.key = some k ∧ ph.Issues t)
  /-- No two of them have the same tag. -/
  issued_eq : ∀ t t', Issued c k tr t → Issued c k tr t' → t.tag = t'.tag → t = t'

theorem SessionPhase.mono {L : Layout} {c : ℕ} {last : Register} {cells cells' : ℕ → ℕ → Register}
    {ph : Phase} (hle : ∀ r k, (cells r k).tag ≤ (cells' r k).tag)
    (h : SessionPhase L c last cells ph) : SessionPhase L c last cells' ph := by
  cases ph with
  | putChain => exact ⟨h.1, fun i hi hg => (h.2 i hi hg).trans (hle _ _)⟩
  | putCas => exact ⟨h.1, fun i hi hn hg => (h.2 i hi hn hg).trans (hle _ _)⟩
  | getRead => exact fun i hi x hx => (h i hi x hx).trans (hle _ _)
  | _ => exact h

namespace SessionOk

variable {L : Layout} {c f k : ℕ} {tr : List Event} {e : Event}
  {cells cells' : ℕ → ℕ → Register} {ca ca' : Cache} {ph ph' : Phase} {w w' : View}

/-- Initially, nothing has happened. -/
theorem init : SessionOk L c k [] cells Cache.empty .idle where
  floor := ⟨0, L.effectiveMajority_pos, Register.zero_tag_le _, by simp [Phase.key]⟩
  cache _ _ h := absurd h (by simp [Cache.empty])
  phase h := absurd h (by simp [Phase.key])
  issued t h := by
    obtain ⟨_, _, _, _, hm⟩ := h
    exact absurd hm List.not_mem_nil
  issued_eq t t' h := by
    obtain ⟨_, _, _, _, hm⟩ := h
    exact absurd hm List.not_mem_nil

/-- A step that neither ends an operation of the client on the key, nor issues a
    register for it. -/
theorem quiet (h : SessionOk L c k tr cells ca ph)
    (hle : ∀ r k, (cells r k).tag ≤ (cells' r k).tag) (hca : ca' k = ca k)
    (hres : ∀ reg, e.result ≠ some (c, k, reg)) (hcas : ∀ f r x t y, e ≠ .cas c f r k .put x t y)
    (hreads : ph'.key = some k → ∀ i x, ph'.reads i = some x →
      ph.key = some k ∧ ph.reads i = some x ∨ x = cells (srv L c i) k)
    (hphase : ph'.key = some k → SessionPhase L c (lastReg c k tr) cells' ph')
    (hissues : ph.key = some k → ∀ t, ph.Issues t → ph'.key = some k ∧ ph'.Issues t) :
    SessionOk L c k (e :: tr) cells' ca' ph' := by
  have hold : ∀ {t}, Issued c k (e :: tr) t → Issued c k tr t := by
    intro t ht
    rcases ht.of_cons with ht | ⟨_, _, _, _, he⟩
    · exact ht
    · exact absurd he (hcas _ _ _ _ _)
  constructor <;> (try rw [lastReg_cons hres])
  · obtain ⟨i, hi, hcell, hsaw⟩ := h.floor
    refine ⟨i, hi, hcell.trans (hle _ _), fun hk x hx => ?_⟩
    rcases hreads hk i x hx with ⟨hk', hx'⟩ | rfl
    · exact hsaw hk' x hx'
    · exact hcell
  · rw [hca]
    exact h.cache
  · exact hphase
  · intro t ht
    obtain ⟨hid, hpos, hlast⟩ := h.issued t (hold ht)
    exact ⟨hid, hpos, hlast.imp_right fun ⟨hk, hp⟩ => hissues hk t hp⟩
  · exact fun t t' ht ht' => h.issued_eq t t' (hold ht) (hold ht')

/-- A step of another client, or on another key. -/
theorem other (h : SessionOk L c k tr cells ca ph)
    (hle : ∀ r k, (cells r k).tag ≤ (cells' r k).tag) (hca : ca' k = ca k)
    (hres : ∀ reg, e.result ≠ some (c, k, reg)) (hcas : ∀ f r x t y, e ≠ .cas c f r k .put x t y)
    (hph : ph' = ph ∨ ph.key ≠ some k ∧ ph'.key ≠ some k) :
    SessionOk L c k (e :: tr) cells' ca' ph' := by
  rcases hph with rfl | ⟨hk, hk'⟩
  · exact h.quiet hle hca hres hcas (fun hk i x hx => .inl ⟨hk, hx⟩)
      (fun hk => (h.phase hk).mono hle)
      fun hk t ht => ⟨hk, ht⟩
  · exact h.quiet hle hca hres hcas (fun h => absurd h hk') (fun h => absurd h hk')
      fun h => absurd h hk

/-- A CAS of the Put in progress, to its target `t`. -/
theorem issue (h : SessionOk L c k tr cells ca ph)
    (hle : ∀ r k, (cells r k).tag ≤ (cells' r k).tag) {r : ℕ} {x t y : Register}
    (ht : t.clientId = (DsConf.ofClient L c).clientIdx.toUInt16 ∧ (lastReg c k tr).seq < t.seq)
    (hkey' : ph'.key = some k) (hreads : ∀ i, ph'.reads i = none)
    (hphase : SessionPhase L c (lastReg c k tr) cells' ph')
    (hval : ∀ t', ph.Issues t' → t'.value = t.value) (hissues : ∀ t', ph.Issues t' → ph'.Issues t')
    (hself : ph'.Issues t) :
    SessionOk L c k (.cas c f r k .put x t y :: tr) cells' ca ph' := by
  have hnew : ∀ {t'}, Issued c k (.cas c f r k .put x t y :: tr) t' → Issued c k tr t' ∨
      t' = t := by
    intro t' ht'
    rcases ht'.of_cons with ht' | ⟨_, _, _, _, he⟩
    · exact .inl ht'
    · cases he
      exact .inr rfl
  -- an issued register of the tag of `t` is of the same Put
  have heq : ∀ {t'}, Issued c k tr t' → t'.tag = t.tag → t' = t := by
    intro t' ht' htag
    obtain ⟨hseq, hid⟩ := Register.tag_eq_iff.1 htag
    obtain ⟨_, _, hlast | ⟨_, hp⟩⟩ := h.issued t' ht'
    · rw [hseq] at hlast
      exact absurd ht.2 (UInt16.not_lt.2 hlast)
    · obtain ⟨v', id', s'⟩ := t'
      obtain ⟨v, id, s⟩ := t
      exact congr (congrArg₂ Register.mk (hval _ hp) hid) hseq
  constructor <;> (try rw [lastReg_cons (e := .cas c f r k .put x t y) (by simp [Event.result])])
  · obtain ⟨i, hi, hcell, _⟩ := h.floor
    exact ⟨i, hi, hcell.trans (hle _ _), fun _ x hx => absurd hx (by simp [hreads])⟩
  · exact h.cache
  · exact fun _ => hphase
  · intro t' ht'
    rcases hnew ht' with ht' | rfl
    · obtain ⟨hid, hpos, hlast⟩ := h.issued t' ht'
      exact ⟨hid, hpos, hlast.imp_right fun ⟨_, hp⟩ => ⟨hkey', hissues t' hp⟩⟩
    · exact ⟨ht.1, by have := ht.2; grind, .inr ⟨hkey', hself⟩⟩
  · intro t₁ t₂ h₁ h₂ htag
    rcases hnew h₁ with i₁ | e₁ <;> rcases hnew h₂ with i₂ | e₂
    · exact h.issued_eq t₁ t₂ i₁ i₂ htag
    · rw [e₂] at htag ⊢
      exact heq i₁ htag
    · rw [e₁] at htag ⊢
      exact (heq i₂ htag.symm).symm
    · rw [e₁, e₂]

/-- An operation of the client on the key comes to the register `reg`. -/
theorem finish (h : SessionOk L c k tr cells ca ph) {reg : Register}
    (hres : e.result = some (c, k, reg)) (hlast : (lastReg c k tr).tag ≤ reg.tag)
    (hcell : ∃ i < L.effectiveMajority, reg.tag ≤ (cells (srv L c i) k).tag)
    (hca : ca' = toCache L ca k reg ∨ ca' = ca ∧ lastReg c k tr = reg)
    (hreads : ∀ i, ph'.reads i = none) (hphase : ph'.key = some k → SessionPhase L c reg cells ph')
    (hissues : ∀ t, ph.Issues t → t.seq ≤ reg.seq) :
    SessionOk L c k (e :: tr) cells ca' ph' := by
  have hold : ∀ {t}, Issued c k (e :: tr) t → Issued c k tr t := by
    intro t ht
    rcases ht.of_cons with ht | ⟨_, _, _, _, rfl⟩
    · exact ht
    · exact absurd hres (by simp [Event.result])
  constructor <;> (try rw [lastReg_cons_self hres])
  · obtain ⟨i, hi, hle⟩ := hcell
    exact ⟨i, hi, hle, fun _ x hx => absurd hx (by simp [hreads])⟩
  · intro hen reg' hreg'
    rcases hca with rfl | ⟨rfl, rfl⟩
    · rw [toCache, if_pos hen, Cache.put, update_self] at hreg'
      rw [Option.some.inj hreg']
    · exact h.cache hen reg' hreg'
  · exact hphase
  · intro t ht
    obtain ⟨hid, hpos, hle⟩ := h.issued t (hold ht)
    refine ⟨hid, hpos, .inl ?_⟩
    rcases hle with hle | ⟨_, hp⟩
    · exact UInt16.le_trans hle (Register.seq_le_of_tag hlast)
    · exact hissues t hp
  · exact fun t t' ht ht' => h.issued_eq t t' (hold ht) (hold ht')

/-! ## The moves of the client -/

/-- The maximum a Get has found is not above the cell it has found it in. -/
theorem exists_cell_of_max {m : Register} {g : ℕ → Register}
    (hm : m = .zero ∨ ∃ i < L.effectiveMajority, m = g i)
    (hg : ∀ i < L.effectiveMajority, (g i).tag ≤ (cells (srv L c i) k).tag) :
    ∃ i < L.effectiveMajority, m.tag ≤ (cells (srv L c i) k).tag := by
  rcases hm with rfl | ⟨i, hi, rfl⟩
  · exact ⟨0, L.effectiveMajority_pos, Register.zero_tag_le _⟩
  · exact ⟨i, hi, hg i hi⟩

section Move

variable (hok : ViewOk L w) (h : SessionOk L c k tr w.cells w.cache w.phase)
  (hm : Move L c f w e w')

include hok h hm

/-- An operation of the client on the key does not come to a lesser tag than the last one. -/
theorem result_le {reg : Register} (hres : e.result = some (c, k, reg)) :
    (lastReg c k tr).tag ≤ reg.tag := by
  have hphase := hok.phase
  obtain ⟨i, hi, _, hsaw⟩ := h.floor
  cases hm with
  | chainDone =>
    cases hres
    have hlt := Register.seq_lt_succ hphase.1 (Register.seq_le_of_tag (h.phase rfl).1)
    exact (Register.tag_lt_of_seq hlt).le
  | casDone =>
    cases hres
    exact (Register.tag_lt_of_seq (h.phase rfl).1.1).le
  | getDone hgot hle =>
    cases hres
    exact (hsaw rfl _ (hgot i hi)).trans (hle i hi)
  | getMax hgot hle =>
    cases hres
    exact (hsaw rfl _ (hgot i hi)).trans (hle i hi)
  | backDone =>
    cases hres
    exact le_of_eq (congrArg Register.tag (h.phase rfl))
  | _ => cases hres

/-- A move of the client that does not concern the key. -/
theorem move_other (hk : w.phase.key ≠ some k) (hk' : w'.phase.key ≠ some k) :
    SessionOk L c k (e :: tr) w'.cells w'.cache w'.phase := by
  obtain ⟨_, hca, hres, hcas⟩ := hm.other_key hk hk'
  exact h.other (hok.cells_mono hm) hca hres (fun f r => hcas f r .put) (.inr ⟨hk, hk'⟩)

/-- Every move of the client keeps what it keeps about a key. -/
theorem move (he : e.SeqBelow) : SessionOk L c k (e :: tr) w'.cells w'.cache w'.phase := by
  have hle := hok.cells_mono hm
  have hlast : ∀ {reg : Register}, e.result = some (c, k, reg) →
      (lastReg c k tr).tag ≤ reg.tag := fun hres => result_le hok h hm hres
  by_cases hother : w.phase.key ≠ some k ∧ w'.phase.key ≠ some k
  · exact move_other hok h hm hother.1 hother.2
  rw [not_and_or, not_not, not_not] at hother
  have hphase := hok.phase
  cases hm with
  | stutter => exact h.other hle rfl (by simp [Event.result]) (by simp) (.inl rfl)
  | putHit hen hk =>
    obtain rfl := Option.some.inj (hother.resolve_left (by simp [Phase.key]))
    exact h.quiet hle rfl (by simp [Event.result]) (by simp) (by simp [Phase.reads])
      (fun _ => ⟨h.cache hen _ hk, by simp⟩) (by simp [Phase.key])
  | putMiss =>
    exact h.quiet hle rfl (by simp [Event.result]) (by simp) (by simp [Phase.reads])
      (fun _ => trivial) (by simp [Phase.key])
  | getStart =>
    exact h.quiet hle rfl (by simp [Event.result]) (by simp) (by simp [Phase.reads])
      (fun _ _ _ _ hx => absurd hx (by simp)) (by simp [Phase.key])
  | @readPut cells ca k' v got i hi hg =>
    obtain rfl := Option.some.inj (hother.elim id id)
    refine h.quiet hle rfl (by simp [Event.result]) (by simp) (fun _ => ?_) (fun _ => trivial)
      (by simp [Phase.Issues])
    exact forall_update (P := fun j x => _ = _ ∧ got j = some x ∨ x = cells (srv L c j) k')
      (fun j x hx => .inl ⟨rfl, hx⟩) (.inr rfl)
  | @readGet cells ca k' got i hi hg =>
    obtain rfl := Option.some.inj (hother.elim id id)
    refine h.quiet hle rfl (by simp [Event.result]) (by simp) (fun _ => ?_) (fun _ j hj x hx => ?_)
      (by simp [Phase.Issues])
    · exact forall_update (P := fun j x => _ = _ ∧ got j = some x ∨ x = cells (srv L c j) k')
        (fun j x hx => .inl ⟨rfl, hx⟩) (.inr rfl)
    · exact forall_update (P := fun j x => j < L.effectiveMajority → x.tag ≤
        (cells (srv L c j) k').tag)
        (fun j x hx hj => h.phase rfl j hj x hx) (fun _ => le_rfl) j x hx hj
  | @casChain cells ca k' v cached got i hi hg =>
    obtain rfl := Option.some.inj (hother.elim id id)
    obtain ⟨hc, hgot⟩ := h.phase rfl
    refine h.issue hle ⟨rfl, Register.seq_lt_succ hphase.1 (Register.seq_le_of_tag hc)⟩ rfl
      (fun _ => rfl) ⟨hc, fun j hj hx => ?_⟩ (fun t ht => ht.1) (fun _ ht => ht)
      ⟨rfl, UInt16.le_refl _⟩
    by_cases hji : j = i
    · subst hji
      rw [update_self] at hx
      exact (congrArg Register.tag (casCell_self (Option.some.inj hx))).ge
    · rw [update_of_ne hji] at hx
      exact (hgot j hj hx).trans (hle _ _)
  | @casPut cells ca k' v t need exp got i hi hg =>
    obtain rfl := Option.some.inj (hother.elim id id)
    obtain ⟨⟨hlt, z, rfl⟩, hgot⟩ := h.phase rfl
    refine h.issue hle ⟨rfl, hlt⟩ rfl (fun _ => rfl) ⟨⟨hlt, z, rfl⟩, fun j hj hn hx => ?_⟩
      (fun _ ht => ht.1) (fun _ ht => ht) ⟨rfl, UInt16.le_refl _⟩
    by_cases hji : j = i
    · subst hji
      rw [update_self] at hx
      exact (congrArg Register.tag (casCell_self (Option.some.inj hx))).ge
    · rw [update_of_ne hji] at hx
      exact (hgot j hj hn hx).trans (hle _ _)
  | casGet =>
    obtain rfl := Option.some.inj (hother.elim id id)
    exact h.quiet hle rfl (by simp [Event.result]) (by simp) (by simp [Phase.reads])
      (fun _ => h.phase rfl) (by simp [Phase.Issues])
  | @readDone cells ca k' v got z g hgot hle' hz =>
    obtain rfl := Option.some.inj (hother.elim id id)
    obtain ⟨i, hi, _, hsaw⟩ := h.floor
    have hz' : z < 65535 := by
      rcases hz with rfl | ⟨j, hj, rfl⟩
      · decide
      · exact hphase _ _ (hgot j hj)
    have hlt : (lastReg c k' tr).seq ≤ z :=
      UInt16.le_trans (Register.seq_le_of_tag (hsaw rfl _ (hgot i hi))) (hle' i hi)
    exact h.quiet hle rfl (by simp [Event.result]) (by simp) (by simp [Phase.reads])
      (fun _ => ⟨⟨Register.seq_lt_succ hz' hlt, _, rfl⟩, by simp⟩) (by simp [Phase.Issues])
  | chainDone hgot =>
    obtain rfl := Option.some.inj (hother.resolve_right (by simp [Phase.key]))
    have h0 := L.effectiveMajority_pos
    exact h.finish rfl (hlast rfl) ⟨0, h0, (h.phase rfl).2 0 h0 (hgot 0 h0)⟩ (.inl rfl)
      (fun _ => rfl) (by simp [Phase.key]) fun t ht => ht.2
  | @chainRetry cells ca k' v cached got z g hgot hex hle' hz =>
    obtain rfl := Option.some.inj (hother.elim id id)
    have hz' : z < 65535 := by
      rcases hz with rfl | ⟨j, hj, _, rfl⟩
      · exact hphase.1
      · exact (hphase.2 _ _ (hgot j hj)).1
    have hc := (h.phase rfl).1
    refine h.quiet hle rfl (by simp [Event.result]) (by simp) (by simp [Phase.reads])
      (fun _ => ⟨⟨?_, _, rfl⟩, fun i hi hn hx => ?_⟩) fun _ t ht => ⟨rfl, ht.1, ?_⟩
    · exact Register.seq_lt_succ hz' (UInt16.le_trans (Register.seq_le_of_tag hc) hle'.1)
    · rw [decide_eq_true_iff] at hn
      dsimp only at hx
      rw [if_neg hn] at hx
      exact absurd hx (by simp)
    · have hcz := hle'.1
      have hts := ht.2
      change t.seq ≤ z + 1
      grind
  | @casDone cells ca k' v t need exp got g hgot hall =>
    obtain rfl := Option.some.inj (hother.resolve_right (by simp [Phase.key]))
    obtain ⟨i, hi, hn⟩ := hphase.exists_need
    have hcell := (h.phase rfl).2 i hi hn (by rw [hgot i hi, hall i hi hn])
    exact h.finish rfl (hlast rfl) ⟨i, hi, hcell⟩ (.inl rfl) (fun _ => rfl) (by simp [Phase.key])
      fun t ht => ht.2
  | @casRetry cells ca k' v t need exp got g hgot hex hbelow =>
    obtain rfl := Option.some.inj (hother.elim id id)
    refine h.quiet hle rfl (by simp [Event.result]) (by simp) (by simp [Phase.reads])
      (fun _ => ⟨(h.phase rfl).1, fun i hi hn hx => ?_⟩) fun _ t ht => ⟨rfl, ht⟩
    -- a slot that is to be tried again has not got its answer
    rw [Bool.and_eq_true, decide_eq_true_iff] at hn
    dsimp only at hx
    rw [if_pos hn] at hx
    exact absurd hx (by simp)
  | @casReset cells ca k' v t need exp got m g hgot hm hout hbelow =>
    obtain rfl := Option.some.inj (hother.elim id id)
    have hlt : t.seq < (g m).seq + 1 :=
      Register.seq_lt_succ (hphase.got_lt m hm _ (hgot m hm)) hout.2.2
    refine h.quiet hle rfl (by simp [Event.result]) (by simp) (by simp [Phase.reads])
      (fun _ => ⟨⟨?_, _, rfl⟩, fun i hi hn hx => ?_⟩) fun _ t' ht' => ⟨rfl, ht'.1, ?_⟩
    · exact UInt16.lt_trans (h.phase rfl).1.1 hlt
    · rw [decide_eq_true_iff] at hn
      dsimp only at hx
      rw [if_pos hn] at hx
      exact absurd hx (by simp)
    · exact UInt16.le_trans ht'.2 (UInt16.le_of_lt hlt)
  | @getDone cells ca k' got m g hgot _ hm =>
    obtain rfl := Option.some.inj (hother.resolve_right (by simp [Phase.key]))
    exact h.finish rfl (hlast rfl) (exists_cell_of_max hm fun i hi => h.phase rfl i hi _ (
      hgot i hi))
      (.inl rfl) (fun _ => rfl) (by simp [Phase.key]) (by simp [Phase.Issues])
  | @getMax cells ca k' got m g hgot _ hm =>
    obtain rfl := Option.some.inj (hother.elim id id)
    exact h.finish rfl (hlast rfl) (exists_cell_of_max hm fun i hi => h.phase rfl i hi _ (
      hgot i hi))
      (.inl rfl) (fun _ => rfl) (fun _ => rfl) (by simp [Phase.Issues])
  | backDone =>
    obtain rfl := Option.some.inj (hother.resolve_right (by simp [Phase.key]))
    have hm := h.phase rfl
    obtain ⟨i, hi, hcell, _⟩ := h.floor
    rw [show lastReg c _ tr = _ from hm] at hcell
    exact h.finish rfl (hlast rfl) ⟨i, hi, hcell⟩ (.inr ⟨rfl, hm⟩) (fun _ => rfl)
      (by simp [Phase.key]) (by simp [Phase.Issues])

end Move

end SessionOk

/-! ## Runs -/

section Run

variable {L : Layout} {H : Proto → Event → Prop} {tr : List Event} {a : Proto} {c k : ℕ}

/-- The client of a result is that of the event. -/
theorem Event.owner_of_result {e : Event} {reg : Register} (h : e.result = some (c, k, reg)) :
    e.owner.1 = c := by
  cases e <;> cases h <;> rfl

/-- A step of another client. -/
theorem SessionOk.step_other {c' f : ℕ} {w : View} {e : Event} (hb : Bounded L a)
    (h : SessionOk L c k tr a.cells (a.cache c) (a.phase c 0))
    (hm : Move L c' f (a.view c' f) e w) (hne : c ≠ c') :
    SessionOk L c k (e :: tr) (a.setView c' f w).cells ((a.setView c' f w).cache c)
      ((a.setView c' f w).phase c 0) := by
  rw [Proto.setView_cache_ne _ _ _ hne, Proto.setView_phase_ne _ _ (.inl hne)]
  refine h.other ((hb.view c' f).cells_mono hm) rfl ?_ ?_ (.inl rfl)
  · intro reg hres
    have := Event.owner_of_result hres
    rw [hm.owner_eq] at this
    exact hne this.symm
  · rintro f r x t y rfl
    exact hne (congrArg Prod.fst hm.owner_eq)

variable (hH : ∀ a e, H a e → e.SeqBelow) (hasync : L.asyncParallelism ≤ 1)

include hH hasync

/-- Every client keeps what it keeps about every key, in all runs with one
    operation at a time for each client. -/
theorem SessionOk.run (h : Proto.Run L H tr a) :
    ∀ c k, SessionOk L c k tr a.cells (a.cache c) (a.phase c 0) := by
  refine h.invariant (P := fun tr a => ∀ c k, SessionOk L c k tr a.cells (a.cache c) (a.phase c 0))
    ?_ fun tr a e a' hr ih hs c k => ?_
  · exact fun _ _ => .init
  have hb := Bounded.run hH hr
  obtain ⟨c', f, w, _, hf, he, hm, rfl⟩ := hs
  obtain rfl : f = 0 := by omega
  by_cases hc : c = c'
  · subst hc
    rw [Proto.setView_cache_self, Proto.setView_phase_self]
    exact (ih c k).move (hb.view c 0) hm (hH _ _ he)
  · exact (ih c k).step_other hb hm hc

/-- No result of an operation of a client has a tag above the last one. -/
theorem result_le_lastReg (h : Proto.Run L H tr a) :
    ∀ e ∈ tr, ∀ reg, e.result = some (c, k, reg) → reg.tag ≤ (lastReg c k tr).tag := by
  refine h.invariant (P := fun tr _ => ∀ e ∈ tr, ∀ reg, e.result = some (c, k, reg) →
    reg.tag ≤ (lastReg c k tr).tag) (by simp) fun tr a e a' hr ih hs => ?_
  have hb := Bounded.run hH hr
  have hsess := SessionOk.run hH hasync hr c k
  obtain ⟨c', f, w, _, hf, _, hm, _⟩ := hs
  obtain rfl : f = 0 := by omega
  have hlast : (lastReg c k tr).tag ≤ (lastReg c k (e :: tr)).tag := by
    by_cases hres : ∃ reg, e.result = some (c, k, reg)
    · obtain ⟨reg, hres⟩ := hres
      obtain rfl : c' = c := by
        rw [← Event.owner_of_result hres, hm.owner_eq]
      rw [lastReg_cons_self hres]
      exact hsess.result_le (hb.view _ 0) hm hres
    · push Not at hres
      rw [lastReg_cons hres]
  intro e' he' reg hres
  rcases List.mem_cons.1 he' with rfl | he'
  · rw [lastReg_cons_self hres]
  · exact (ih e' he' reg hres).trans hlast

end Run

/-- The operation of the client `c` on the key `k` that ends here ends with `reg`:
    the final target of a Put, the maximum of a Get. -/
def Event.Ends (c k : ℕ) (reg : Register) : Event → Prop
  | .putDone c' _ k' _ t => c' = c ∧ k' = k ∧ t = reg
  | .getDone c' _ k' m _ => c' = c ∧ k' = k ∧ m = reg
  | _ => False

theorem Event.Ends.result {c k : ℕ} {reg : Register} {e : Event} (h : e.Ends c k reg) :
    e.result = some (c, k, reg) := by
  cases e with
  | putDone | getDone =>
    obtain ⟨rfl, rfl, rfl⟩ := h
    rfl
  | _ => exact h.elim

/-- The tags of the operations of a client on a key never decrease, in all runs
    with one operation at a time for each client. -/
theorem session_ordered {L : Layout} (hq : L.effectiveMajority ≤ L.numServers)
    (hasync : L.asyncParallelism = 1) {c k : ℕ} {reg reg' : Register} {e e' : Event}
    {pre mid post : List Event} {s : Cluster}
    (h : (Cluster.machine L).Run Cluster.Any (post ++ e' :: (mid ++ e :: pre)) s)
    (hseq : ∀ ev ∈ post ++ e' :: (mid ++ e :: pre), ev.SeqBelow) (he : e.Ends c k reg)
    (he' : e'.Ends c k reg') : reg.tag ≤ reg'.tag := by
  have hn : 0 < L.numServers := L.effectiveMajority_pos.trans_le hq
  obtain ⟨a, hr, _⟩ := exists_run (H := fun _ _ => True) hq hn (fun _ _ _ _ _ _ _ _ => trivial)
    h hseq
  obtain ⟨a₂, h₂, _⟩ := hr.of_append
  obtain ⟨a₁, h₁, hs⟩ := h₂.last
  have hle := result_le_lastReg (fun a e h => h.2) hasync.le h₁ e (by simp) reg he.result
  obtain ⟨c', f, w, _, hf, _, hm, _⟩ := hs
  obtain rfl : f = 0 := by omega
  obtain rfl : c' = c := by
    rw [← Event.owner_of_result he'.result, hm.owner_eq]
  have hb := Bounded.run (fun a e h => h.2) h₁
  exact hle.trans ((SessionOk.run (fun a e h => h.2) hasync.le h₁ _ k).result_le (hb.view _ 0) hm
    he'.result)

/-- For instance, after a Put that has been reset, and has only written the server
    0 of its quorum, the same client reads its own value. -/
theorem session_ordered_threeServers :
    ∃ s, (Cluster.machine (.threeServers 1 true true)).Run Cluster.Any
      ([] ++ .getDone 0 0 7 ⟨11, 0, 2⟩ 11 ::
        ([.cas 0 0 1 7 .get ⟨11, 0, 1⟩ ⟨11, 0, 2⟩ ⟨11, 0, 1⟩, .getMax 0 0 7 ⟨11, 0, 2⟩,
          .read 0 0 1 7 ⟨11, 0, 1⟩, .read 0 0 0 7 ⟨11, 0, 2⟩, .invokeGet 0 0 7] ++
        .putDone 0 0 7 11 ⟨11, 0, 2⟩ ::
        [.cas 0 0 0 7 .put ⟨22, 2, 1⟩ ⟨11, 0, 2⟩ ⟨22, 2, 1⟩, .stepped 0 0,
          .cas 0 0 1 7 .put .zero ⟨11, 0, 1⟩ .zero, .cas 0 0 0 7 .put .zero ⟨11, 0, 1⟩ ⟨22, 2, 1⟩,
          .cas 2 0 0 7 .put .zero ⟨22, 2, 1⟩ .zero, .stepped 2 0, .stepped 0 0,
          .read 2 0 0 7 .zero, .read 2 0 2 7 .zero, .read 0 0 1 7 .zero, .read 0 0 0 7 .zero,
          .invokePut 0 0 7 11, .invokePut 2 0 7 22])) s ∧
      (⟨11, 0, 2⟩ : Register).tag ≤ (⟨11, 0, 2⟩ : Register).tag := by
  refine Exists.imp (fun s hs => ⟨hs, session_ordered (by decide) rfl hs (by decide)
    ⟨rfl, rfl, rfl⟩ ⟨rfl, rfl, rfl⟩⟩) ?_
  exact Lib.Machine.run_of_play
    [.doPut 2 0 7 22, .doPut 0 0 7 11, .rdma 0 0 0, .rdma 0 0 1, .rdma 2 0 2, .rdma 2 0 0,
      .tryStepForward 0 0, .tryStepForward 2 0, .rdma 2 0 0, .rdma 0 0 0, .rdma 0 0 1,
      .tryStepForward 0 0, .rdma 0 0 0, .tryStepForward 0 0, .doGet 0 0 7, .rdma 0 0 0,
      .rdma 0 0 1, .tryStepForward 0 0, .rdma 0 0 1, .tryStepForward 0 0] (by decide +kernel)

end DiscoSkip
