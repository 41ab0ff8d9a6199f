import DiscoSkip.Monotone
import DiscoSkip.Progress
import DiscoSkip.Sequential
import Mathlib.Algebra.BigOperators.Group.Finset.Piecewise
import Mathlib.Tactic.Ring

/-!
# How long an operation takes

Whatever the other operations do, a Get of a future that gets its turns is over after two
rounds at most, one that reads and one that writes back (`getsWaitFree`).

A Put may have to try again and again, but only as long as it is outpaced: the requests it
makes are bounded by the CASes that have succeeded on its key and quorum in the meantime
(`putsOutpaced`). What pays for a round is the *staleness* of what the Put knows of its
slots, from the cache at first: a CAS that succeeds makes one slot stale, and a CAS that
fails has found a stale slot, which is not stale from then on.
-/

namespace DiscoSkip

open Function

/-- How many of the `q` slots have a property. -/
def countSlots (q : ℕ) (P : ℕ → Prop) [DecidablePred P] : ℕ := ((Finset.range q).filter P).card

section Count

variable {q i : ℕ} {P : ℕ → Prop} [DecidablePred P]

theorem countSlots_le : countSlots q P ≤ q :=
  (Finset.card_filter_le _ _).trans_eq (Finset.card_range q)

theorem countSlots_eq_zero (h : ∀ i < q, ¬P i) : countSlots q P = 0 := by
  rw [countSlots, Finset.card_eq_zero, Finset.filter_eq_empty_iff]
  exact fun i hi => h i (Finset.mem_range.1 hi)

theorem countSlots_pos (hi : i < q) (h : P i) : 1 ≤ countSlots q P :=
  Finset.card_pos.2 ⟨i, Finset.mem_filter.2 ⟨Finset.mem_range.2 hi, h⟩⟩

theorem countSlots_congr {P' : ℕ → Prop} [DecidablePred P'] (h : ∀ i < q, P' i ↔ P i) :
    countSlots q P' = countSlots q P :=
  congrArg Finset.card (Finset.filter_congr fun i hi => h i (Finset.mem_range.1 hi))

variable (P) (P' : ℕ → Prop) [DecidablePred P']

/-- A change of one slot. -/
theorem countSlots_change (hi : i < q) (h : ∀ j < q, j ≠ i → (P' j ↔ P j)) :
    countSlots q P' + (if P i then 1 else 0) = countSlots q P + if P' i then 1 else 0 := by
  have hi' := Finset.mem_range.2 hi
  rw [countSlots, countSlots, Finset.card_filter, Finset.card_filter,
    ← Finset.add_sum_erase _ _ hi', ← Finset.add_sum_erase _ _ hi']
  have hsum : ∑ j ∈ (Finset.range q).erase i, (if P' j then 1 else 0) =
      ∑ j ∈ (Finset.range q).erase i, if P j then 1 else 0 := by
    refine Finset.sum_congr rfl fun j hj => ?_
    obtain ⟨hji, hj⟩ := Finset.mem_erase.1 hj
    exact if_congr (h j (Finset.mem_range.1 hj) hji) rfl rfl
  rw [hsum]
  ring

theorem countSlots_change_le (hi : i < q) (h : ∀ j < q, j ≠ i → (P' j ↔ P j)) :
    countSlots q P' ≤ countSlots q P + 1 := by
  have := countSlots_change P P' hi h
  split_ifs at this <;> omega

end Count

/-- How many of the `q` slots have not got their answer. -/
def unanswered (q : ℕ) (got : ℕ → Option Register) : ℕ := countSlots q fun i => got i = none

theorem unanswered_update {q i : ℕ} {got : ℕ → Option Register} (hi : i < q) (hg : got i = none)
    (y : Register) : unanswered q (update got i (some y)) + 1 = unanswered q got := by
  have := countSlots_change (fun j => got j = none) (fun j => update got i (some y) j = none) hi
    fun j _ hji => by rw [update_of_ne hji]
  rwa [if_pos hg, if_neg (by rw [update_self]; simp), add_zero] at this

theorem unanswered_eq_zero {q : ℕ} {got : ℕ → Option Register} (h : ∀ i < q, got i ≠ none) :
    unanswered q got = 0 := countSlots_eq_zero h

theorem unanswered_le (q : ℕ) (got : ℕ → Option Register) : unanswered q got ≤ q := countSlots_le

theorem countP_event (p : Event → Prop) [DecidablePred p] (e : Event) (tr : List Event) :
    (e :: tr).countP (fun e => p e) = tr.countP (fun e => p e) + if p e then 1 else 0 := by
  rw [List.countP_cons]
  exact congrArg _ (if_congr decide_eq_true_iff rfl rfl)

/-! ## The Gets -/

/-- The event is a step of the future `f` of the client `c` that gets somewhere, of its own
    or by a request of it. -/
def Event.Advances (c f : ℕ) (e : Event) : Prop := e.owner = (c, f) ∧ e ≠ .stepped c f

instance (c f : ℕ) : DecidablePred (Event.Advances c f) := fun e =>
  inferInstanceAs (Decidable (e.owner = (c, f) ∧ e ≠ .stepped c f))

/-- How many steps a Get may still take, in a quorum of `q`: the answers of its round, the
    step that ends it, and the second round. -/
def Phase.getRank (q : ℕ) : Phase → ℕ
  | .getRead _ got => unanswered q got + q + 2
  | .getBack _ _ _ got => unanswered q got + 1
  | _ => 0

section Get

variable {L : Layout} {c f k : ℕ} {w w' : View} {e : Event}

/-- Every step of a Get that gets somewhere lowers its rank. -/
theorem Move.getRank (hm : Move L c f w e w') (hop : ∀ o, w.phase.op = some o → o = .get k)
    (hinv : ¬e.Invokes c f) :
    w'.phase.getRank L.effectiveMajority + (if e.Advances c f then 1 else 0) ≤
      w.phase.getRank L.effectiveMajority ∧
      ∀ o, w'.phase.op = some o → o = .get k := by
  cases hm with
  | stutter => exact ⟨by simp [Event.Advances], hop⟩
  | putHit | putMiss | getStart => exact absurd ⟨rfl, rfl⟩ hinv
  | readPut | casChain | casPut | readDone | chainDone | chainRetry | casDone | casRetry
  | casReset => exact absurd (hop _ rfl) (by simp)
  | @readGet cells ca k got i hi hg =>
    have := unanswered_update hi hg (cells (srv L c i) k)
    refine ⟨?_, hop⟩
    rw [Phase.getRank, Phase.getRank, if_pos ⟨rfl, by simp⟩]
    omega
  | @casGet cells ca k m exp got i hi hg =>
    have := unanswered_update hi hg (cells (srv L c i) k)
    refine ⟨?_, hop⟩
    rw [Phase.getRank, Phase.getRank, if_pos ⟨rfl, by simp⟩]
    omega
  | @getMax cells ca k got m g =>
    have := unanswered_le L.effectiveMajority fun i => if g i = m then some m else none
    refine ⟨?_, hop⟩
    rw [Phase.getRank, Phase.getRank, if_pos ⟨rfl, by simp⟩]
    omega
  | getDone | backDone =>
    refine ⟨?_, by simp [Phase.op]⟩
    rw [if_pos ⟨rfl, by simp⟩]
    exact Nat.succ_le_succ (Nat.zero_le _)

/-- A Get only stutters while it waits for an answer. -/
theorem Move.waiting_of_get (hm : Move L c f w (.stepped c f) w')
    (hop : w.phase.op = some (.get k)) : w.phase.Waiting L.effectiveMajority := by
  cases hm with
  | stutter hw => exact hw
  | readDone | chainRetry | casRetry | casReset => cases hop

end Get

/-- A Get takes `2 * q + 2` steps at most that are not stutters, whatever the others do, and
    as long as it is not over, one of these is possible. -/
theorem getsWaitFree {L : Layout} (hq : L.effectiveMajority ≤ L.numServers) {c f k : ℕ}
    {pre mid : List Event} {s : Cluster}
    (h : (Cluster.machine L).Run Cluster.Any (mid ++ .invokeGet c f k :: pre) s)
    (hmid : ∀ e ∈ mid, ¬e.Invokes c f) :
    mid.countP (fun e => e.Advances c f) ≤ 2 * L.effectiveMajority + 2 ∧
      (((s.clients c).futures f).isDone = false → ∃ act e s', act.owner = (c, f) ∧
        s.step L act = some (e, s') ∧ e.Advances c f) := by
  have hn : 0 < L.numServers := L.effectiveMajority_pos.trans_le hq
  obtain ⟨a, hr, hsim⟩ := exists_run (H := fun _ _ => True) (Q := fun _ => True) hq hn
    (fun _ _ _ _ _ _ _ _ => trivial) h fun _ _ => trivial
  obtain ⟨a₁, hr₁, hmid'⟩ := hr.of_append
  obtain ⟨a₀, _, c', f', w, _, _, _, hm, rfl⟩ := hr₁.last
  obtain ⟨rfl, rfl⟩ := Prod.mk.inj hm.owner_eq
  -- the rank of the Get, and the steps it has taken
  have hrank : mid.countP (fun e => e.Advances c f) + (a.phase c f).getRank L.effectiveMajority ≤
      2 * L.effectiveMajority + 2 ∧ ∀ o, (a.phase c f).op = some o → o = .get k := by
    refine (hmid'.guard hmid).invariant (P := fun tr a =>
      tr.countP (fun e => e.Advances c f) + (a.phase c f).getRank L.effectiveMajority ≤
        2 * L.effectiveMajority + 2 ∧ ∀ o, (a.phase c f).op = some o → o = .get k) ?_ ?_
    · rw [Proto.setView_phase_self, hm.invokeGet, Phase.getRank, List.countP_nil]
      have := unanswered_le L.effectiveMajority fun _ => none
      refine ⟨by omega, ?_⟩
      rintro o ⟨⟩
      rfl
    · rintro tr a e a' - ⟨hle, hop⟩ ⟨⟨c', f', w, _, _, _, hm, rfl⟩, hinv⟩
      rw [countP_event]
      by_cases hcf : c ≠ c' ∨ f ≠ f'
      · have hno : ¬e.Advances c f := by
          rintro ⟨hown, _⟩
          obtain ⟨rfl, rfl⟩ := Prod.mk.inj (hown.symm.trans hm.owner_eq)
          exact hcf.elim (absurd rfl) (absurd rfl)
        rw [Proto.setView_phase_ne _ _ hcf, if_neg hno, add_zero]
        exact ⟨hle, hop⟩
      · push Not at hcf
        obtain ⟨rfl, rfl⟩ := hcf
        rw [Proto.setView_phase_self]
        obtain ⟨hdec, hop'⟩ := hm.getRank hop hinv
        refine ⟨?_, hop'⟩
        have : (a.view c f).phase = a.phase c f := rfl
        rw [this] at hdec
        omega
  refine ⟨(Nat.le_add_right _ _).trans hrank.1, fun hd => ?_⟩
  have hne : a.phase c f ≠ .idle := by
    intro hidle
    have hp := hsim.phase c f
    rw [hidle] at hp
    exact absurd (hp.1.symm.trans hd) (by simp)
  obtain ⟨e, s', hst, he⟩ := hsim.advance hn hne
  have hown : (s.advance L c f).owner = (c, f) := by
    rw [Cluster.advance]
    split <;> rfl
  refine ⟨_, e, s', hown, hst, (Cluster.step_owner hst).trans hown, ?_⟩
  rintro rfl
  obtain ⟨w, hm, _⟩ := hsim.step_owner hq hn hst hown
  obtain ⟨o, ho⟩ : ∃ o, (a.phase c f).op = some o := by
    cases hph : a.phase c f with
    | idle => exact absurd hph hne
    | _ => exact ⟨_, rfl⟩
  exact he.elim (absurd rfl) (absurd (hm.waiting_of_get (hrank.2 o ho ▸ ho)))

/-- For instance, where a Get is about to end, after the two rounds. -/
theorem getsWaitFree_threeServers :
    ∃ s, (Cluster.machine (.threeServers 1 true true)).Run Cluster.Any
      ([.cas 1 0 2 7 .get .zero ⟨5, 0, 1⟩ .zero, .stepped 1 0, .getMax 1 0 7 ⟨5, 0, 1⟩,
        .read 1 0 2 7 .zero, .read 1 0 1 7 ⟨5, 0, 1⟩] ++ .invokeGet 1 0 7 ::
        [.cas 0 0 1 7 .put .zero ⟨5, 0, 1⟩ .zero, .stepped 0 0, .read 0 0 1 7 .zero,
          .read 0 0 0 7 .zero, .invokePut 0 0 7 5]) s ∧
      List.countP (fun e : Event => e.Advances 1 0) [.cas 1 0 2 7 .get .zero ⟨5, 0, 1⟩ .zero,
        .stepped 1 0, .getMax 1 0 7 ⟨5, 0, 1⟩, .read 1 0 2 7 .zero,
        .read 1 0 1 7 ⟨5, 0, 1⟩] ≤ 2 * (Layout.threeServers 1 true true).effectiveMajority + 2 ∧
      (((s.clients 1).futures 0).isDone = false → ∃ act e s', act.owner = (1, 0) ∧
        s.step (.threeServers 1 true true) act = some (e, s') ∧ e.Advances 1 0) := by
  refine Exists.imp (fun s hs => ⟨hs, getsWaitFree (by decide) hs (by decide)⟩) ?_
  exact Lib.Machine.run_of_play
    [.doPut 0 0 7 5, .rdma 0 0 0, .rdma 0 0 1, .tryStepForward 0 0, .rdma 0 0 1,
      .doGet 1 0 7, .rdma 1 0 1, .rdma 1 0 2, .tryStepForward 1 0, .tryStepForward 1 0,
      .rdma 1 0 2] (by decide +kernel)

/-! ## The Puts -/

/-- The event is the answer of a request of the future `f` of the client `c`. -/
def Event.Answers (c f : ℕ) : Event → Prop
  | .read c' f' .. | .cas c' f' .. => c' = c ∧ f' = f
  | _ => False

instance (c f : ℕ) : DecidablePred (Event.Answers c f)
  | .read .. | .cas .. => inferInstanceAs (Decidable (_ ∧ _))
  | .invokePut .. | .invokeGet .. | .stepped .. | .getMax .. | .putDone .. | .getDone .. =>
    .isFalse id

/-- The event is a CAS that succeeds on the key `k`, on a server of the quorum of the client `c`. -/
def Event.Replaces (L : Layout) (c k : ℕ) : Event → Prop
  | .cas _ _ r k' _ x _ y => k' = k ∧ y = x ∧ ∃ i < L.effectiveMajority, srv L c i = r
  | _ => False

instance (L : Layout) (c k : ℕ) : DecidablePred (Event.Replaces L c k)
  | .cas .. => inferInstanceAs (Decidable (_ ∧ _ ∧ ∃ i < _, _))
  | .invokePut .. | .invokeGet .. | .read .. | .stepped .. | .getMax .. | .putDone ..
  | .getDone .. => .isFalse id

namespace Phase

/-- What a Put has seen last of the slot `i`, if anything, is not what is there, in the
    column `col` of its slots. -/
def Stale (col : ℕ → Register) : Phase → ℕ → Prop
  | .putRead _ _ got, i => got i ≠ some (col i)
  | .putChain _ _ cached got, i => (got i).getD cached ≠ col i
  | .putCas _ _ _ _ exp got, i => (got i).getD (exp i) ≠ col i
  | _, _ => False

instance (col : ℕ → Register) : (ph : Phase) → DecidablePred (Stale col ph)
  | .putRead .. | .putChain .. | .putCas .. => fun _ => inferInstanceAs (Decidable (_ ≠ _))
  | .idle | .getRead .. | .getBack .. => fun _ => .isFalse id

/-- The CAS of the slot `i` has failed in this round. -/
def Failed : Phase → ℕ → Prop
  | .putChain _ _ cached got, i => got i ≠ none ∧ got i ≠ some cached
  | .putCas _ _ _ need exp got, i => need i = true ∧ got i ≠ none ∧ got i ≠ some (exp i)
  | _, _ => False

instance : (ph : Phase) → DecidablePred (Failed ph)
  | .putChain .. => fun _ => inferInstanceAs (Decidable (_ ∧ _))
  | .putCas .. => fun _ => inferInstanceAs (Decidable (_ ∧ _ ∧ _))
  | .idle | .putRead .. | .getRead .. | .getBack .. => fun _ => .isFalse id

/-- How many answers a Put still waits for, if no CAS fails. -/
def todo (q : ℕ) : Phase → ℕ
  | .putRead _ _ got => unanswered q got + q
  | .putChain _ _ _ got | .putCas _ _ _ _ _ got => unanswered q got
  | _ => 0

end Phase

/-- A Put of the key `k` of the client `c`, unless it is over, that has got `n` answers
    while `m` CASes have succeeded on its quorum. What it still waits for, and what may make
    it go round again, is within what these allow for. -/
def PutBudget (L : Layout) (c k n m : ℕ) (cells : ℕ → ℕ → Register) (ph : Phase) : Prop :=
  (∀ o, ph.op = some o → ∃ v, o = .put k v) ∧
    n + ph.todo L.effectiveMajority + L.effectiveMajority *
      (countSlots L.effectiveMajority (ph.Stale fun i => cells (srv L c i) k) +
        countSlots L.effectiveMajority ph.Failed) ≤
      L.effectiveMajority * (m + L.effectiveMajority + 2)

section Put

variable {L : Layout} {c f k n m : ℕ} {w w' : View} {e : Event}

/-- A Put starts with all its slots stale, at worst. -/
theorem PutBudget.start {c' f' : ℕ} {v : UInt64} (hm : Move L c f w (.invokePut c' f' k v) w') :
    PutBudget L c k 0 0 w'.cells w'.phase := by
  have hstale := countSlots_le (q := L.effectiveMajority)
    (P := w'.phase.Stale fun i => w'.cells (srv L c i) k)
  have hmul := Nat.mul_le_mul_left L.effectiveMajority hstale
  have hun := unanswered_le L.effectiveMajority fun _ => none
  have hfail : countSlots L.effectiveMajority w'.phase.Failed = 0 := by
    refine countSlots_eq_zero fun i _ => ?_
    cases hm <;> simp [Phase.Failed]
  refine ⟨fun o ho => ?_, ?_⟩
  · cases hm <;> exact ⟨v, (Option.some.inj ho).symm⟩
  · rw [hfail, add_zero, zero_add, zero_add, mul_add, mul_two]
    cases hm with
    | putHit =>
      rw [Phase.todo]
      omega
    | putMiss =>
      rw [Phase.todo]
      omega

/-- The next round, of a Put some of whose CASes have failed. -/
theorem round_le {q n s F todo' B : ℕ} (h : n + 0 + q * (s + F) ≤ B) (hF : 1 ≤ F)
    (ht : todo' ≤ q) : n + todo' + q * (s + 0) ≤ B := by
  have := Nat.mul_le_mul_left q (Nat.add_le_add_left hF s)
  rw [mul_add, mul_one] at this
  rw [add_zero]
  omega

/-- An answer: of a CAS that succeeds, which makes its slot stale, or of one that fails,
    whose slot was stale. -/
theorem answer_le {q n s s' todo todo' m d : ℕ} (h : n + todo + q * s ≤ q * (m + q + 2))
    (ht : todo' + 1 = todo) (hs : s' ≤ s + d) : n + 1 + todo' + q * s' ≤ q * (m + d + q + 2) := by
  have hmul := Nat.mul_le_mul_left q hs
  have heq : q * (m + d + q + 2) = q * (m + q + 2) + q * d := by ring
  rw [mul_add] at hmul
  rw [heq]
  omega

/-- A CAS of the slot `i`, from what has been seen there to `t`: of the slots that are stale
    or have failed, there is one more if it succeeds, and as many as before if it fails. -/
theorem count_cas (hq : L.effectiveMajority ≤ L.numServers) {cells : ℕ → ℕ → Register} {i : ℕ}
    (hi : i < L.effectiveMajority) {got : ℕ → Option Register} (hg : got i = none)
    (exp : ℕ → Register) (t : Register) (need : ℕ → Bool) {d : ℕ}
    (hd : d = if cells (srv L c i) k = exp i then 1 else 0) :
    countSlots L.effectiveMajority (fun j => (update got i (some (cells (srv L c i) k)) j).getD
        (exp j) ≠ casCell cells (srv L c i) k (exp i) t (srv L c j) k) +
      countSlots L.effectiveMajority (fun j => need j = true ∧
        update got i (some (cells (srv L c i) k)) j ≠ none ∧
          update got i (some (cells (srv L c i) k)) j ≠ some (exp j)) ≤
    countSlots L.effectiveMajority (fun j => (got j).getD (exp j) ≠ cells (srv L c j) k) +
      countSlots L.effectiveMajority (fun j => need j = true ∧ got j ≠ none ∧
        got j ≠ some (exp j)) + d := by
  have hstale := countSlots_change (fun j => (got j).getD (exp j) ≠ cells (srv L c j) k)
    (fun j => (update got i (some (cells (srv L c i) k)) j).getD (exp j) ≠
      casCell cells (srv L c i) k (exp i) t (srv L c j) k) hi fun j hj hji => by
    rw [update_of_ne hji, casCell_ne (.inl (srv_ne hq hi hj hji))]
  have hfail := countSlots_change (fun j => need j = true ∧ got j ≠ none ∧ got j ≠ some (exp j))
    (fun j => need j = true ∧ update got i (some (cells (srv L c i) k)) j ≠ none ∧
      update got i (some (cells (srv L c i) k)) j ≠ some (exp j)) hi fun j _ hji => by
    rw [update_of_ne hji]
  rw [if_neg (by simp [hg])] at hfail
  subst hd
  by_cases hx : cells (srv L c i) k = exp i
  · rw [if_neg (by simp [hg, hx])] at hstale
    rw [if_neg (by simp [hx])] at hfail
    rw [if_pos hx]
    split_ifs at hstale <;> omega
  · have hcell : casCell cells (srv L c i) k (exp i) t (srv L c i) k = cells (srv L c i) k := by
      rw [casCell, if_neg hx]
    rw [if_pos (by simpa [hg] using Ne.symm hx), if_neg (by simp [hcell])] at hstale
    rw [if_neg hx]
    split_ifs at hfail <;> omega

/-- A move of the Put keeps within the budget: in a round that fails, a slot has failed. -/
theorem PutBudget.move (hq : L.effectiveMajority ≤ L.numServers)
    (h : PutBudget L c k n m w.cells w.phase) (hm : Move L c f w e w') (hinv : ¬e.Invokes c f) :
    PutBudget L c k (n + if e.Answers c f then 1 else 0) (m + if e.Replaces L c k then 1 else 0)
      w'.cells w'.phase := by
  obtain ⟨hop, hle⟩ := h
  have hkey : ∀ k' v, w.phase.op = some (.put k' v) → k' = k := by
    intro k' v ho
    obtain ⟨_, ho⟩ := hop _ ho
    exact (Op.put.inj ho).1
  cases hm with
  | stutter => exact ⟨hop, hle⟩
  | putHit | putMiss | getStart => exact absurd ⟨rfl, rfl⟩ hinv
  | readGet | casGet | getDone | getMax | backDone =>
    obtain ⟨_, ho⟩ := hop _ rfl
    cases ho
  | @readPut cells ca k' v got i hi hg =>
    obtain rfl := hkey _ _ rfl
    refine ⟨hop, ?_⟩
    rw [if_pos ⟨rfl, rfl⟩, if_neg (by simp [Event.Replaces])]
    have hun := unanswered_update hi hg (cells (srv L c i) k')
    refine answer_le (d := 0) hle (by rw [Phase.todo, Phase.todo]; omega) ?_
    -- the slot that has been read is not stale any more
    have hstale := countSlots_change
      ((Phase.putRead k' v got).Stale fun i => cells (srv L c i) k')
      ((Phase.putRead k' v (update got i (some (cells (srv L c i) k')))).Stale
        fun i => cells (srv L c i) k') hi fun j _ hji => by
      rw [Phase.Stale, Phase.Stale, update_of_ne hji]
    have hseen : ¬(Phase.putRead k' v (update got i (some (cells (srv L c i) k')))).Stale
        (fun i => cells (srv L c i) k') i := by simp [Phase.Stale]
    rw [if_neg hseen, add_zero] at hstale
    exact Nat.add_le_add_right ((Nat.le_add_right _ _).trans hstale.le) _
  | @casChain cells ca k' v cached got i hi hg =>
    obtain rfl := hkey _ _ rfl
    refine ⟨hop, ?_⟩
    rw [if_pos ⟨rfl, rfl⟩]
    refine answer_le hle (unanswered_update hi hg _) ?_
    have := @count_cas L c k' hq cells i hi got hg (fun _ => cached)
      (regOf L c (cached.seq + 1) v) (fun _ => true) _ rfl
    simp only [true_and] at this
    refine this.trans_eq (congrArg _ ?_)
    exact if_congr ⟨fun hx => ⟨rfl, hx, i, hi, rfl⟩, fun hr => hr.2.1⟩ rfl rfl
  | @casPut cells ca k' v t need exp got i hi hg =>
    obtain rfl := hkey _ _ rfl
    refine ⟨hop, ?_⟩
    rw [if_pos ⟨rfl, rfl⟩]
    refine answer_le hle (unanswered_update hi hg _) ?_
    refine (count_cas (L := L) (c := c) (k := k') hq hi hg exp t need rfl).trans_eq (congrArg _ ?_)
    exact if_congr ⟨fun hx => ⟨rfl, hx, i, hi, rfl⟩, fun hr => hr.2.1⟩ rfl rfl
  | @readDone cells ca k' v got z g hgot hmax hz =>
    obtain rfl := hkey _ _ rfl
    refine ⟨hop, ?_⟩
    have hzero : unanswered L.effectiveMajority got = 0 := unanswered_eq_zero fun i hi => by
      simp [hgot i hi]
    rw [Phase.todo, hzero, zero_add] at hle
    refine le_trans (Nat.add_le_add (Nat.add_le_add_left (unanswered_le _ _) _)
      (Nat.mul_le_mul_left _ (Nat.add_le_add ?_ ?_))) hle
    · refine (countSlots_congr fun i hi => ?_).le
      simp [Phase.Stale, hgot i hi]
    · refine (countSlots_eq_zero fun i _ => ?_).trans_le (Nat.zero_le _)
      simp [Phase.Failed]
  | chainDone | casDone =>
    refine ⟨fun _ ho => absurd ho (by simp [Phase.op]), ?_⟩
    have hnone : ∀ col, countSlots L.effectiveMajority (Phase.idle.Stale col) = 0 :=
      fun col => countSlots_eq_zero fun _ _ => id
    have hnone' : countSlots L.effectiveMajority Phase.idle.Failed = 0 :=
      countSlots_eq_zero fun _ _ => id
    rw [hnone, hnone']
    exact (Nat.le_add_right _ _).trans ((Nat.le_add_right _ _).trans hle)
  | @chainRetry cells ca k' v cached got z g hgot hex hmax hz =>
    obtain rfl := hkey _ _ rfl
    refine ⟨hop, ?_⟩
    have hzero : unanswered L.effectiveMajority got = 0 := unanswered_eq_zero fun i hi => by
      simp [hgot i hi]
    rw [Phase.todo, hzero] at hle
    obtain ⟨j, hj, hne⟩ := hex
    have hpos : 1 ≤ countSlots L.effectiveMajority (Phase.putChain k' v cached got).Failed :=
      countSlots_pos hj ⟨by simp [hgot j hj], by simpa [hgot j hj] using hne⟩
    refine le_trans (le_of_eq ?_) (round_le hle hpos (unanswered_le _ fun i =>
      if g i = cached then some (g i) else none))
    refine congrArg₂ _ rfl (congrArg _ (congrArg₂ _ (countSlots_congr fun i hi => ?_)
      (countSlots_eq_zero fun i _ => ?_)))
    · by_cases hg : g i = cached <;> simp [Phase.Stale, hgot i hi, hg]
    · by_cases hg : g i = cached <;> simp [Phase.Failed, hg]
  | @casRetry cells ca k' v t need exp got g hgot hex hbelow =>
    obtain rfl := hkey _ _ rfl
    refine ⟨hop, ?_⟩
    have hzero : unanswered L.effectiveMajority got = 0 := unanswered_eq_zero fun i hi => by
      simp [hgot i hi]
    rw [Phase.todo, hzero] at hle
    obtain ⟨j, hj, hn, hne⟩ := hex
    have hpos : 1 ≤ countSlots L.effectiveMajority (Phase.putCas k' v t need exp got).Failed :=
      countSlots_pos hj ⟨hn, by simp [hgot j hj], by simpa [hgot j hj] using hne⟩
    refine le_trans (le_of_eq ?_) (round_le hle hpos (unanswered_le _ fun i =>
      if need i = true ∧ g i ≠ exp i then none else some (g i)))
    refine congrArg₂ _ rfl (congrArg _ (congrArg₂ _ (countSlots_congr fun i hi => ?_)
      (countSlots_eq_zero fun i _ => ?_)))
    · by_cases hn : need i = true <;> by_cases hg : g i = exp i <;>
        simp [Phase.Stale, hgot i hi, hn, hg]
    · by_cases hn : need i = true <;> by_cases hg : g i = exp i <;> simp [Phase.Failed, hn, hg]
  | @casReset cells ca k' v t need exp got j g hgot hj hout hbelow =>
    obtain rfl := hkey _ _ rfl
    refine ⟨hop, ?_⟩
    have hzero : unanswered L.effectiveMajority got = 0 := unanswered_eq_zero fun i hi => by
      simp [hgot i hi]
    rw [Phase.todo, hzero] at hle
    have hpos : 1 ≤ countSlots L.effectiveMajority (Phase.putCas k' v t need exp got).Failed :=
      countSlots_pos hj ⟨hout.1, by simp [hgot j hj], by simpa [hgot j hj] using hout.2.1⟩
    refine le_trans (le_of_eq ?_) (round_le hle hpos (unanswered_le _ fun i =>
      if i ≤ j then none else some (g i)))
    refine congrArg₂ _ rfl (congrArg _ (congrArg₂ _ (countSlots_congr fun i hi => ?_)
      (countSlots_eq_zero fun i _ => ?_)))
    · by_cases hij : i ≤ j <;> simp [Phase.Stale, hgot i hi, hij]
    · by_cases hij : i ≤ j <;> simp [Phase.Failed, hij]

/-- What a move does to the column of the slots of a client: nothing, or it replaces the
    register of one of them. -/
theorem Move.column (hq : L.effectiveMajority ≤ L.numServers) {c' f' : ℕ}
    (hm : Move L c' f' w e w') (c k : ℕ) :
    (∀ i < L.effectiveMajority, w'.cells (srv L c i) k = w.cells (srv L c i) k) ∨
      (e.Replaces L c k ∧ ∃ i < L.effectiveMajority, ∀ j < L.effectiveMajority, j ≠ i →
        w'.cells (srv L c j) k = w.cells (srv L c j) k) := by
  rcases hm.cells_cases with ⟨hcells, _⟩ | ⟨i', k', kd, x, t, hi', rfl, hcells⟩
  · exact .inl fun i _ => by rw [hcells]
  by_cases hr : (Event.cas c' f' (srv L c' i') k' kd x t (w.cells (srv L c' i') k')).Replaces L c k
  · obtain ⟨rfl, hx, i, hi, hsrv⟩ := id hr
    refine .inr ⟨hr, i, hi, fun j hj hji => ?_⟩
    rw [hcells, ← hsrv]
    exact casCell_ne (.inl (srv_ne hq hi hj hji))
  · refine .inl fun i hi => ?_
    rw [hcells]
    rcases casCell_cases w.cells (srv L c' i') k' (srv L c i) k x t with hc | ⟨hs, hk, hx, _⟩
    · exact hc
    · exact absurd ⟨hk.symm, hx, i, hi, hs⟩ hr

/-- A move of another operation keeps the Put within the budget: if it makes a slot stale,
    it has replaced its register. -/
theorem PutBudget.other {cells cells' : ℕ → ℕ → Register}
    {ph : Phase} (h : PutBudget L c k n m cells ph)
    (hcol : (∀ i < L.effectiveMajority, cells' (srv L c i) k = cells (srv L c i) k) ∨
      (e.Replaces L c k ∧ ∃ i < L.effectiveMajority, ∀ j < L.effectiveMajority, j ≠ i →
        cells' (srv L c j) k = cells (srv L c j) k)) :
    PutBudget L c k n (m + if e.Replaces L c k then 1 else 0) cells' ph := by
  obtain ⟨hop, hle⟩ := h
  refine ⟨hop, ?_⟩
  have hstale : countSlots L.effectiveMajority (ph.Stale fun i => cells' (srv L c i) k) ≤
      countSlots L.effectiveMajority (ph.Stale fun i => cells (srv L c i) k) +
        if e.Replaces L c k then 1 else 0 := by
    have hslot : ∀ j, cells' (srv L c j) k = cells (srv L c j) k →
        (ph.Stale (fun i => cells' (srv L c i) k) j ↔
          ph.Stale (fun i => cells (srv L c i) k) j) := by
      intro j hj
      cases ph <;> simp only [Phase.Stale, hj]
    rcases hcol with hcol | ⟨hr, i, hi, hcol⟩
    · exact (countSlots_congr fun j hj => hslot j (hcol j hj)).le.trans (Nat.le_add_right _ _)
    · rw [if_pos hr]
      exact countSlots_change_le _ _ hi fun j hj hji => hslot j (hcol j hj hji)
  generalize (if e.Replaces L c k then 1 else 0) = d at hstale ⊢
  have hmul := Nat.mul_le_mul_left L.effectiveMajority
    (Nat.add_le_add_right hstale (countSlots L.effectiveMajority ph.Failed))
  have heq : L.effectiveMajority * (m + d + L.effectiveMajority + 2) =
      L.effectiveMajority * (m + L.effectiveMajority + 2) + L.effectiveMajority * d := by ring
  rw [heq]
  refine (Nat.add_le_add_left hmul _).trans (le_trans (le_of_eq ?_) (Nat.add_le_add_right hle _))
  ring

end Put

/-- A Put gets, in all, an answer from each slot of its quorum twice, and once more for each
    slot, and for each CAS that succeeds on its key and quorum while it runs. -/
theorem putsOutpaced {L : Layout} (hq : L.effectiveMajority ≤ L.numServers) {c f k : ℕ}
    {v : UInt64} {pre mid : List Event} {s : Cluster}
    (h : (Cluster.machine L).Run Cluster.Any (mid ++ .invokePut c f k v :: pre) s)
    (hmid : ∀ e ∈ mid, ¬e.Invokes c f) :
    mid.countP (fun e => e.Answers c f) ≤
      L.effectiveMajority * (mid.countP (fun e => e.Replaces L c k) + L.effectiveMajority + 2) := by
  have hn : 0 < L.numServers := L.effectiveMajority_pos.trans_le hq
  obtain ⟨a, hr, _⟩ := exists_run (H := fun _ _ => True) (Q := fun _ => True) hq hn
    (fun _ _ _ _ _ _ _ _ => trivial) h fun _ _ => trivial
  obtain ⟨a₁, hr₁, hmid'⟩ := hr.of_append
  obtain ⟨a₀, _, c', f', w, _, _, _, hm, rfl⟩ := hr₁.last
  obtain ⟨rfl, rfl⟩ := Prod.mk.inj hm.owner_eq
  have hbudget : PutBudget L c k (mid.countP fun e => e.Answers c f)
      (mid.countP fun e => e.Replaces L c k) a.cells (a.phase c f) := by
    refine (hmid'.guard hmid).invariant (P := fun tr a => PutBudget L c k
      (tr.countP fun e => e.Answers c f) (tr.countP fun e => e.Replaces L c k) a.cells
      (a.phase c f)) ?_ ?_
    · rw [Proto.setView_phase_self]
      exact PutBudget.start hm
    · rintro tr a e a' - hb ⟨⟨c', f', w, _, _, _, hm, rfl⟩, hinv⟩
      rw [countP_event, countP_event]
      by_cases hcf : c ≠ c' ∨ f ≠ f'
      · have hno : ¬e.Answers c f := by
          intro hans
          have hown := hm.owner_eq
          cases e with
          | read | cas =>
            obtain ⟨rfl, rfl⟩ := hans
            obtain ⟨rfl, rfl⟩ := Prod.mk.inj hown
            exact hcf.elim (absurd rfl) (absurd rfl)
          | _ => exact hans
        rw [Proto.setView_phase_ne _ _ hcf, if_neg hno, add_zero]
        exact hb.other (hm.column hq c k)
      · push Not at hcf
        obtain ⟨rfl, rfl⟩ := hcf
        rw [Proto.setView_phase_self]
        exact PutBudget.move (w := a.view c f) hq hb hm hinv
  exact (Nat.le_add_right _ _).trans ((Nat.le_add_right _ _).trans hbudget.2)

/-- For instance, where a Put of another client outruns the Put of the client 0 in the last
    slot of its quorum: it makes three rounds of CASes. -/
theorem putsOutpaced_threeServers : ∃ mid s,
    (Cluster.machine (.threeServers 1 false false)).Run Cluster.Any
      (mid ++ .invokePut 0 0 7 11 :: []) s ∧
    .cas 0 0 0 7 .put ⟨11, 0, 1⟩ ⟨11, 0, 2⟩ ⟨11, 0, 1⟩ ∈ mid ∧
    mid.countP (fun e => e.Answers 0 0) ≤ (Layout.threeServers 1 false false).effectiveMajority *
      (mid.countP (fun e => e.Replaces (.threeServers 1 false false) 0 7) +
        (Layout.threeServers 1 false false).effectiveMajority + 2) := by
  refine ⟨[.cas 0 0 0 7 .put ⟨11, 0, 1⟩ ⟨11, 0, 2⟩ ⟨11, 0, 1⟩, .stepped 0 0,
    .cas 0 0 1 7 .put ⟨22, 1, 1⟩ ⟨11, 0, 2⟩ ⟨22, 1, 1⟩,
    .cas 0 0 0 7 .put .zero ⟨11, 0, 2⟩ ⟨11, 0, 1⟩,
    .stepped 0 0, .cas 0 0 1 7 .put .zero ⟨11, 0, 1⟩ ⟨22, 1, 1⟩,
    .cas 0 0 0 7 .put .zero ⟨11, 0, 1⟩ .zero, .cas 1 0 1 7 .put .zero ⟨22, 1, 1⟩ .zero,
    .stepped 1 0, .stepped 0 0, .read 1 0 2 7 .zero, .read 1 0 1 7 .zero, .read 0 0 1 7 .zero,
    .read 0 0 0 7 .zero, .invokePut 1 0 7 22],
    Exists.imp (fun s hs => ⟨hs, List.mem_cons_self, putsOutpaced (by decide) hs (by decide)⟩) ?_⟩
  exact Lib.Machine.run_of_play
    [.doPut 0 0 7 11, .doPut 1 0 7 22, .rdma 0 0 0, .rdma 0 0 1, .rdma 1 0 1, .rdma 1 0 2,
      .tryStepForward 0 0, .tryStepForward 1 0, .rdma 1 0 1, .rdma 0 0 0, .rdma 0 0 1,
      .tryStepForward 0 0, .rdma 0 0 0, .rdma 0 0 1, .tryStepForward 0 0, .rdma 0 0 0]
    (by decide +kernel)

end DiscoSkip
