import Mathlib.Order.MinMax
import DiscoSkip.SwarmKv.Slots

/-!
# What a register knows of the slots

A register has seen only what is, or was, in the slots of its key: let `m` bound them, but
for the verified bit. What it takes in is what a request of its own has brought, by the
time that all it polls for is there, so it needs to be known of the requests that are
pending (`MaxReg.Sound`): those for the slots are all for its key, there is a
compare-and-swap among them only if the register waits for it, and what this one swaps in
is the tsp that the register takes it to have swapped in (`MaxReg.Swapping`), unless the
tsp of the entry was overwritten meanwhile, by one within the bound (`Relabelled`).
-/

namespace DiscoSkip.SwarmKv

open Lib

namespace Op

/-- The key/value id whose slots are read or swapped. -/
def slotsOf : Op → Option ℕ
  | .readKv kv | .readTsps kv | .cas kv _ _ => some kv
  | _ => none

def swapsSlot : Op → Bool
  | .cas .. => true
  | _ => false

def readsTsps : Op → Bool
  | .readKv _ | .readTsps _ => true
  | _ => false

/-- A key/value pair is read to a buffer. -/
def fetches : Op → Bool
  | .readKv _ | .readLog _ => true
  | _ => false

/-- The register takes in what comes of it. -/
def matters (o : Op) : Bool := o.slotsOf.isSome || o.fetches

end Op

/-- The steps that have a key/value pair read to a buffer. -/
def RegStep.fetches : RegStep → Bool
  | .tryReadAll | .readLog => true
  | _ => false

/-- What matters is polled for, or what comes after it is. -/
def Covered : List Request → Prop
  | [] => True
  | q :: l => (q.op.matters → ∃ q' ∈ q :: l, q'.signaled) ∧ Covered l

namespace Covered

variable {l l' : List Request}

theorem append (h : Covered l) (h' : Covered l') : Covered (l ++ l') := by
  induction l with
  | nil => exact h'
  | cons q l ih =>
    refine ⟨fun hq => ?_, ih h.2⟩
    obtain ⟨q', hmem, hs⟩ := h.1 hq
    exact ⟨q', List.mem_append_left l' hmem, hs⟩

/-- Once nothing is polled for, nothing matters. -/
theorem quiet (h : Covered l) (h0 : l.countP (·.signaled) = 0) :
    ∀ q ∈ l, q.op.matters = false := by
  induction l with
  | nil => exact List.forall_mem_nil _
  | cons a l ih =>
    have hns := List.countP_eq_zero.1 h0
    refine List.forall_mem_cons.2 ⟨Bool.eq_false_iff.2 fun ha => ?_, ih h.2 ?_⟩
    · obtain ⟨q, hq, hs⟩ := h.1 ha
      exact hns q hq hs
    · exact List.countP_eq_zero.2 fun q hq => hns q (List.mem_cons_of_mem a hq)

end Covered

namespace MaxReg

variable {cfg : Layout} {z : Local} {x : MaxReg} {st : RegStep}

/-! ### What a step posts -/

theorem requests_covered : Covered (x.requests cfg z st) := by
  cases st <;> simp only [requests, writeRequests, casRequest]
  all_goals repeat' split
  all_goals simp [Covered, Op.matters, Op.slotsOf, Op.fetches]

theorem requests_slotsOf : ∀ q ∈ x.requests cfg z st, ∀ k ∈ q.op.slotsOf, k = x.remoteKv := by
  cases st <;> simp only [requests, writeRequests, casRequest]
  all_goals repeat' split
  all_goals simp [Op.slotsOf]

theorem requests_fetches : ∀ q ∈ x.requests cfg z st, q.op.fetches → st.fetches := by
  cases st <;> simp only [requests, writeRequests, casRequest]
  all_goals repeat' split
  all_goals simp [Op.fetches, RegStep.fetches]

theorem requests_signaled (h : st ≠ .done) : 0 < (x.requests cfg z st).countP (·.signaled) := by
  cases st <;> simp only [requests, writeRequests, casRequest]
  case done => exact absurd rfl h
  all_goals repeat' split
  all_goals simp

/-- The steps after which the tsps in the buffer are taken in. -/
def takesTsps (cfg : Layout) (st : RegStep) : Prop :=
  st.readsTsps ∨ st = .tryWriteAll ∧ cfg.numTsp ≠ 1

theorem requests_readsTsps (h : takesTsps cfg st) :
    ∃ q ∈ x.requests cfg z st, q.op.readsTsps := by
  rcases h with h | ⟨rfl, hn⟩
  · cases st <;> first | exact absurd h Bool.false_ne_true | skip
    case tryReadAll =>
      rw [requests]
      split
      · exact ⟨_, List.mem_cons_self, rfl⟩
      · exact ⟨_, List.mem_cons_self, rfl⟩
    case readTs => exact ⟨_, List.mem_cons_self, rfl⟩
    case notifyAndReadTs => exact ⟨_, List.mem_cons_of_mem _ List.mem_cons_self, rfl⟩
  · have hpos := cfg.numTsp_pos
    refine ⟨⟨.readTsps x.remoteKv, false⟩, ?_, rfl⟩
    simp only [requests, writeRequests]
    rw [if_pos ⟨trivial, by omega⟩]
    simp

/-- A step that swaps posts one compare-and-swap, and the others none. -/
theorem filter_requests : (x.requests cfg z st).filter (·.op.swapsSlot) =
    if st.swaps then [x.casRequest z] else [] := by
  cases st <;> simp only [requests, writeRequests, casRequest, RegStep.swaps]
  all_goals repeat' split
  all_goals simp_all [Op.swapsSlot]

end MaxReg

/-- Entries are changed in their arrays and their tsps only, to what is within the bound `m`
    or what was there, but for the verified bit. -/
def Relabelled (m : ℕ) (entry entry' : Ref → LogEntry) : Prop :=
  ∀ p, (entry' p).fromTsp = (entry p).fromTsp ∧
    (∀ i, (entry' p).tsps i ≤ max ((entry p).tsps i) m) ∧
    (entry' p).kv.inPlaceTsp ≤ max (validateTsp (entry p).kv.inPlaceTsp) m

theorem validateTsp_max (v w : ℕ) :
    validateTsp (max v w) = max (validateTsp v) (validateTsp w) :=
  Monotone.map_max fun _ _ => validateTsp_mono

namespace Relabelled

variable {m : ℕ} {entry entry' entry'' : Ref → LogEntry}

theorem refl : Relabelled m entry entry :=
  fun _ => ⟨rfl, fun _ => le_max_left _ _, le_max_of_le_left (le_validateTsp _)⟩

theorem trans (hm : validateTsp m = m) (h : Relabelled m entry entry')
    (h' : Relabelled m entry' entry'') : Relabelled m entry entry'' := by
  intro p
  obtain ⟨hf, ht, hk⟩ := h p
  obtain ⟨hf', ht', hk'⟩ := h' p
  refine ⟨hf'.trans hf, fun i => ?_, ?_⟩
  · have := ht i
    have := ht' i
    omega
  · have hk := validateTsp_mono hk
    rw [validateTsp_max, hm, validateTsp_validateTsp] at hk
    omega

/-- The tsp of an entry is overwritten by one within the bound. -/
theorem setTsp {z : Local} {p : Ref} {tsp : ℕ} (h : tsp ≤ max (validateTsp (z.tspOf p)) m) :
    Relabelled m z.entry (z.setTsp p tsp).entry := by
  intro q
  by_cases hq : q = p
  · subst hq
    simp only [Local.setTsp, Local.setEntry_entry, put_self]
    exact ⟨trivial, fun _ => le_max_left _ _, h⟩
  · rw [Local.setTsp_entry_of_ne _ _ _ hq]
    exact refl q

end Relabelled

theorem Layout.maxTspOf_le {cfg : Layout} {tsps : ℕ → ℕ} {m : ℕ}
    (h : ∀ i < cfg.numTsp, tsps i ≤ m) : cfg.maxTspOf tsps ≤ m := by
  have : ∀ (l : List ℕ) (a : ℕ), a ≤ m → (∀ i ∈ l, tsps i ≤ m) →
      l.foldl (fun tsp i => max tsp (tsps i)) a ≤ m := by
    intro l
    induction l with
    | nil => exact fun a ha _ => ha
    | cons b l ih =>
      intro a ha hl
      obtain ⟨hb, hl⟩ := List.forall_mem_cons.1 hl
      exact ih _ (max_le ha hb) hl
  exact this _ 0 (Nat.zero_le m) fun i hi => h i (List.mem_range.1 hi)

namespace MaxReg

/-- A register waits for its compare-and-swap, which is pending, or has taken effect; the
    register takes the tsp of the entry to be swapped in if the slot had what it expected. -/
def Swapping (m kv : ℕ) (entry : Ref → LogEntry) (s : ℕ) (Q : List Request) (x : MaxReg) : Prop :=
  let tsp := (entry x.ongoingWriteEntry).kv.inPlaceTsp
  let swapback := (entry (.read s)).fromTsp
  (∃ n, Q.filter (·.op.swapsSlot) = [⟨.cas kv (x.myLastTsp.getD 0) n, true⟩] ∧
      tsp ≤ max (validateTsp n) m) ∨
    Q.filter (·.op.swapsSlot) = [] ∧ swapback ≤ m ∧ (swapback = x.myLastTsp.getD 0 → tsp ≤ m)

/-- What is known of the register for the key `kv` on the server `s`, of which the requests `Q`
    of its future are pending and `comp` are to be polled. -/
structure Sound (cfg : Layout) (m kv : ℕ) (entry : Ref → LogEntry) (s : ℕ) (Q : List Request)
    (comp : ℕ) (x : MaxReg) : Prop where
  remoteKv : x.remoteKv = kv
  toPoll : x.toPoll = Q.countP (·.signaled) + comp
  idle : x.step = .done → x.toPoll = 0
  ongoing : x.step ≠ .done → x.ongoingRemoteKv = some kv
  covered : Covered Q
  slotsOf : ∀ q ∈ Q, ∀ k ∈ q.op.slotsOf, k = kv
  fetches : ∀ q ∈ Q, q.op.fetches → x.step.fetches
  seen : x.maxSeenTsp ≤ m
  last : x.myLastTsp.getD 0 ≤ m
  reads : takesTsps cfg x.step → (∃ q ∈ Q, q.op.readsTsps) ∨
    ∀ i < cfg.numTsp, (entry (.read s)).tsps i ≤ m
  swapping : x.step.swaps → Swapping m kv entry s Q x
  resting : x.step.swaps = false → Q.filter (·.op.swapsSlot) = []

namespace Sound

variable {cfg : Layout} {c s m kv comp : ℕ} {z : Local} {x : MaxReg} {Q : List Request}
  {entry entry' : Ref → LogEntry}

/-- What is known does not depend on the tsps that are overwritten. -/
theorem relabelled (hm : validateTsp m = m) (h : x.Sound cfg m kv entry s Q comp)
    (he : Relabelled m entry entry') : x.Sound cfg m kv entry' s Q comp := by
  refine { h with reads := fun hr => ?_, swapping := fun hs => ?_ }
  · refine (h.reads hr).imp_right fun hb i hi => ?_
    exact ((he (.read s)).2.1 i).trans (max_le (hb i hi) le_rfl)
  · obtain ⟨hf, -, -⟩ := he (.read s)
    have htsp := (he x.ongoingWriteEntry).2.2
    refine (h.swapping hs).imp (fun ⟨n, hn, hle⟩ => ⟨n, hn, ?_⟩) fun ⟨hq, hb, hle⟩ =>
      ⟨hq, hf ▸ hb, fun heq => ?_⟩
    · have hle := validateTsp_mono hle
      rw [validateTsp_max, validateTsp_validateTsp, hm] at hle
      omega
    · have hle := validateTsp_mono (hle (hf ▸ heq))
      omega

/-- Having nothing to wait for, a register has nothing to poll. -/
theorem toPoll_eq_zero (h : x.Sound cfg m kv entry s Q comp) (hw : x.waits = false) :
    x.toPoll = 0 := by
  by_cases hs : x.step = .done
  · exact h.idle hs
  · simpa [waits, h.ongoing hs, h.remoteKv] using hw

/-- And then none of the pending requests matters. -/
theorem quiet (h : x.Sound cfg m kv entry s Q comp) (h0 : x.toPoll = 0) :
    ∀ q ∈ Q, q.op.matters = false :=
  h.covered.quiet (by have := h.toPoll; omega)

theorem filter_eq_nil (h : ∀ q ∈ Q, q.op.matters = false) :
    Q.filter (·.op.swapsSlot) = [] := by
  refine List.filter_eq_nil_iff.2 fun q hq hs => ?_
  have hm := h q hq
  cases ho : q.op <;> simp_all [Op.swapsSlot, Op.matters, Op.slotsOf]

/-- What the register takes the slot to have is within the bound. -/
theorem swapped_le (h : x.Sound cfg m kv z.entry s Q comp) (h0 : x.toPoll = 0)
    (hs : x.step.swaps) : swapped s z x ≤ m := by
  obtain ⟨n, hn, -⟩ | ⟨-, hb, hle⟩ := h.swapping hs
  · rw [filter_eq_nil (h.quiet h0)] at hn
    exact nomatch hn
  · rw [swapped]
    split
    · next heq => exact hle heq.symm
    · exact hb

theorem noteSwapped_relabelled {mine : ℕ} (h : mine ≤ m) :
    Relabelled m z.entry (noteSwapped cfg c z x mine).1.entry := by
  intro p
  by_cases hp : p = x.ongoingWriteEntry
  · subst hp
    simp only [noteSwapped, Local.setEntry_entry, put_self]
    refine ⟨trivial, fun i => ?_, le_max_of_le_left (le_validateTsp _)⟩
    by_cases hi : i = cfg.tspSlot c
    · subst hi
      rw [put_self]
      exact le_max_of_le_right h
    · rw [put_of_ne hi]
      exact le_max_left _ _
  · rw [noteSwapped, Local.setEntry_entry, put_of_ne hp]
    exact Relabelled.refl p

theorem no_reads (h : x.Sound cfg m kv entry s Q comp) (h0 : x.toPoll = 0) :
    ¬ ∃ q ∈ Q, q.op.readsTsps := by
  rintro ⟨q, hq, hread⟩
  have hm := h.quiet h0 q hq
  cases ho : q.op <;> simp_all [Op.readsTsps, Op.matters, Op.slotsOf]

/-- The tsps in the buffer are within the bound, once they are to be taken in. -/
theorem buffer_le (h : x.Sound cfg m kv entry s Q comp) (h0 : x.toPoll = 0)
    (hr : takesTsps cfg x.step) : ∀ i < cfg.numTsp, (entry (.read s)).tsps i ≤ m :=
  (h.reads hr).resolve_left (h.no_reads h0)

/-- What is taken in is within the bound. -/
theorem refresh (h : x.Sound cfg m kv z.entry s Q comp) (h0 : x.toPoll = 0) :
    Relabelled m z.entry (refresh cfg c s z x).1.entry ∧
      (MaxReg.refresh cfg c s z x).2.maxSeenTsp ≤ m ∧
      (MaxReg.refresh cfg c s z x).2.myLastTsp.getD 0 ≤ m := by
  unfold MaxReg.refresh
  split
  · by_cases hs : x.step.swaps
    · obtain ⟨k, m', ht, hm'⟩ := @take_of_swaps cfg c s z x hs
      have hle := h.swapped_le h0 hs
      have hnote := @noteSwapped_relabelled cfg c m z x _ hle
      rw [ht]
      refine ⟨hnote, ?_, hle⟩
      rcases hm' with rfl | ⟨hst, hn, rfl⟩
      · exact max_le h.seen hle
      · refine max_le (max_le h.seen hle) (Layout.maxTspOf_le fun i hi => ?_)
        exact ((hnote (.read s)).2.1 i).trans
          (max_le (h.buffer_le h0 (.inr ⟨hst, hn⟩) i hi) le_rfl)
    · by_cases hr : x.step.readsTsps
      · obtain ⟨k, ht⟩ := @take_of_readsTsps cfg c s z x hr
        have hb := h.buffer_le h0 (.inl hr)
        rw [ht]
        exact ⟨.refl, max_le h.seen (Layout.maxTspOf_le hb), hb _ (cfg.tspSlot_lt c)⟩
      · rw [take_of_not (Bool.eq_false_iff.2 hs) (Bool.eq_false_iff.2 hr)]
        exact ⟨.refl, h.seen, h.last⟩
  · exact ⟨.refl, h.seen, h.last⟩

/-- Going on with nothing to poll, to any step. -/
theorem transitionTo {step : RegStep} (hkv : x.remoteKv = kv) (h0 : x.toPoll = 0)
    (hQ : x.toPoll = Q.countP (·.signaled) + comp) (hc : Covered Q) (hs : x.maxSeenTsp ≤ m)
    (hl : x.myLastTsp.getD 0 ≤ m) : ∃ reqs,
      (transitionTo cfg s z x step).1.posted = z.posted ++ reqs.map (s, ·) ∧
      (MaxReg.transitionTo cfg s z x step).2.Sound cfg m kv
        (MaxReg.transitionTo cfg s z x step).1.entry s (Q ++ reqs) comp := by
  have hq := hc.quiet (show Q.countP (·.signaled) = 0 by omega)
  have hno : ∀ q ∈ Q, q.op.slotsOf = none ∧ q.op.fetches = false := by
    intro q hmem
    simpa [Op.matters] using hq q hmem
  have hfil := filter_eq_nil hq
  unfold MaxReg.transitionTo
  dsimp only
  generalize settle (· ≤ ·) (z.tspOf x.writeEntry) x.maxSeenTsp step = st
  split
  · next hst =>
    refine ⟨[], by simp, ?_⟩
    rw [List.append_nil]
    exact {
      remoteKv := hkv
      toPoll := hQ
      idle := fun _ => h0
      ongoing := fun hne => absurd hst hne
      covered := hc
      slotsOf := fun q hmem k hk => by simp [(hno q hmem).1] at hk
      fetches := fun q hmem hf => absurd ((hno q hmem).2.symm.trans hf) Bool.false_ne_true
      seen := hs
      last := hl
      reads := fun hr => by simp [hst, takesTsps, RegStep.readsTsps] at hr
      swapping := fun hr => by simp [hst, RegStep.swaps] at hr
      resting := fun _ => hfil }
  · next hst =>
    have hfil' : (Q ++ x.requests cfg z st).filter (·.op.swapsSlot) =
        if st.swaps then [x.casRequest z] else [] := by
      rw [List.filter_append, hfil, List.nil_append, filter_requests]
    refine ⟨x.requests cfg z st, rfl, ?_⟩
    exact {
      remoteKv := hkv
      toPoll := by
        dsimp only
        rw [List.countP_append, ← List.countP_eq_length_filter]
        omega
      idle := fun hd => absurd hd hst
      ongoing := fun _ => by rw [← hkv]
      covered := hc.append requests_covered
      slotsOf := fun q hmem k hk => by
        rcases List.mem_append.1 hmem with hmem | hmem
        · simp [(hno q hmem).1] at hk
        · rw [← hkv]
          exact requests_slotsOf q hmem k hk
      fetches := fun q hmem hf => by
        rcases List.mem_append.1 hmem with hmem | hmem
        · exact absurd ((hno q hmem).2.symm.trans hf) Bool.false_ne_true
        · exact requests_fetches q hmem hf
      seen := hs
      last := hl
      reads := fun hr => by
        obtain ⟨q, hmem, hread⟩ := requests_readsTsps (x := x) (z := z) hr
        exact .inl ⟨q, List.mem_append_right Q hmem, hread⟩
      swapping := fun hr => by
        refine .inl ⟨z.tspOf x.writeEntry, ?_, le_max_of_le_left (le_validateTsp _)⟩
        rw [hfil', if_pos hr, casRequest, hkv]
      resting := fun hr => by rw [hfil', if_neg (Bool.eq_false_iff.1 hr)] }

/-- Stepping forward posts requests to the server of the register, and what is known of it
    stays so. -/
theorem tryStepForward (h : x.Sound cfg m kv z.entry s Q comp) :
    ∃ reqs, (tryStepForward cfg c s z x).1.posted = z.posted ++ reqs.map (s, ·) ∧
      (MaxReg.tryStepForward cfg c s z x).2.Sound cfg m kv
        (MaxReg.tryStepForward cfg c s z x).1.entry s (Q ++ reqs) comp ∧
      Relabelled m z.entry (MaxReg.tryStepForward cfg c s z x).1.entry := by
  cases hw : x.waits with
  | true =>
    rw [tryStepForward_of_waits hw]
    exact ⟨[], by simp, by simpa using h, .refl⟩
  | false =>
    obtain ⟨step, mark, -, heq⟩ := @tryStepForward_eq cfg c s z x hw
    have h0 := h.toPoll_eq_zero hw
    obtain ⟨he, hs, hl⟩ := @refresh cfg c s m kv comp z x Q h h0
    have hf : Frame z x (MaxReg.refresh cfg c s z x) := refresh_frame
    have hpoll : (MaxReg.refresh cfg c s z x).2.toPoll = x.toPoll := by rw [hf.reg]
    have hkv : (MaxReg.refresh cfg c s z x).2.remoteKv = x.remoteKv := by rw [hf.reg]
    obtain ⟨reqs, hp, hx⟩ := transitionTo (s := s)
      (z := (MaxReg.refresh cfg c s z x).1)
      (x := { (MaxReg.refresh cfg c s z x).2 with nextStep := none, madeProgress := mark })
      (hkv.trans h.remoteKv) (hpoll.trans h0) (hpoll.trans h.toPoll) h.covered hs hl
    rw [heq]
    refine ⟨reqs, by rw [hp, hf.posted], hx, ?_⟩
    rw [transitionTo_entry]
    exact he

/-- A greater bound will do. -/
theorem mono {m' : ℕ} (h : x.Sound cfg m kv entry s Q comp) (hle : m ≤ m') :
    x.Sound cfg m' kv entry s Q comp := by
  refine { h with
    seen := h.seen.trans hle
    last := h.last.trans hle
    reads := fun hr => (h.reads hr).imp_right fun hb i hi => (hb i hi).trans hle
    swapping := fun hs => ?_ }
  refine (h.swapping hs).imp (fun ⟨n, hn, htsp⟩ => ⟨n, hn, ?_⟩) fun ⟨hq, hb, htsp⟩ =>
    ⟨hq, hb.trans hle, fun heq => (htsp heq).trans hle⟩
  exact htsp.trans (max_le_max le_rfl hle)

/-- A completion is polled. -/
theorem polled (h : x.Sound cfg m kv entry s Q comp) :
    ({ x with toPoll := x.toPoll - 1 } : MaxReg).Sound cfg m kv entry s Q (comp - 1) ∨
      comp = 0 := by
  by_cases h0 : comp = 0
  · exact .inr h0
  · left
    have hp := h.toPoll
    exact { h with
      toPoll := by
        dsimp only
        omega
      idle := fun hs => by
        have := h.idle hs
        omega }

end Sound

end MaxReg

/-! ### What takes effect -/

namespace Server

variable {cfg : Layout} {c s : ℕ} {v : Server} {entry : Ref → LogEntry} {o : Op} {p : Ref}

theorem exec_entry_of_ne (hp : p ≠ .read s) : (v.exec cfg c entry s o).2 p = entry p := by
  cases o <;> simp [exec, put_of_ne hp]

theorem exec_kv (h : o.fetches = false) : ((v.exec cfg c entry s o).2 p).kv = (entry p).kv := by
  by_cases hp : p = .read s
  · subst hp
    cases o <;> simp_all [exec, Op.fetches]
  · rw [exec_entry_of_ne hp]

theorem exec_fromTsp (h : o.swapsSlot = false) :
    ((v.exec cfg c entry s o).2 p).fromTsp = (entry p).fromTsp := by
  by_cases hp : p = .read s
  · subst hp
    cases o <;> simp_all [exec, Op.swapsSlot]
  · rw [exec_entry_of_ne hp]

theorem exec_tsps (h : o.readsTsps = false) :
    ((v.exec cfg c entry s o).2 p).tsps = (entry p).tsps := by
  by_cases hp : p = .read s
  · subst hp
    cases o <;> simp_all [exec, Op.readsTsps]
  · rw [exec_entry_of_ne hp]

theorem exec_tsps_of_reads {kv : ℕ} (h : o.readsTsps) (hkv : ∀ k ∈ o.slotsOf, k = kv) :
    ((v.exec cfg c entry s o).2 (.read s)).tsps = v.tsps kv := by
  cases o with
  | readKv k | readTsps k =>
    obtain rfl := hkv k rfl
    simp [exec]
  | _ => exact absurd h Bool.false_ne_true

end Server

namespace MaxReg.Sound

variable {cfg : Layout} {c s m m' kv comp : ℕ} {x : MaxReg} {Q : List Request} {q : Request}
  {v v' : Server} {entry entry' : Ref → LogEntry}

/-- A request of another register takes effect. -/
theorem exec_of_ne {s' : ℕ} (h : x.Sound cfg m kv entry s' Q comp) (hs : s' ≠ s) (hle : m ≤ m')
    (hno : q.op.fetches → x.step.swaps = false) (hv : v.exec cfg c entry s q.op = (v', entry')) :
    x.Sound cfg m' kv entry' s' Q comp := by
  have h := h.mono hle
  have he : ∀ p, (v.exec cfg c entry s q.op).2 p = entry' p := fun p => by rw [hv]
  have hread : entry' (.read s') = entry (.read s') := by
    rw [← he, Server.exec_entry_of_ne (fun heq => hs (Ref.read.inj heq))]
  refine { h with
    reads := fun hr => by
      rw [hread]
      exact h.reads hr
    swapping := fun hsw => ?_ }
  have hf : q.op.fetches = false :=
    Bool.eq_false_iff.2 fun hf => absurd ((hno hf).symm.trans hsw) Bool.false_ne_true
  have hkv : (entry' x.ongoingWriteEntry).kv = (entry x.ongoingWriteEntry).kv := by
    rw [← he, Server.exec_kv hf]
  unfold Swapping
  rw [hread, hkv]
  exact h.swapping hsw

/-- The request of the register that is the first pending takes effect, on slots that are all
    within the bounds. -/
theorem exec (hm : validateTsp m' = m') (h : x.Sound cfg m kv entry s (q :: Q) comp) (hle : m ≤ m')
    (hb : x.step ≠ .done → ∀ i < cfg.numTsp, v.tsps kv i ≤ m')
    (hb' : x.step ≠ .done → ∀ i < cfg.numTsp, v'.tsps kv i ≤ m')
    (hv : v.exec cfg c entry s q.op = (v', entry')) :
    x.Sound cfg m' kv entry' s Q (comp + if q.signaled then 1 else 0) := by
  have h := h.mono hle
  have he : ∀ p, (v.exec cfg c entry s q.op).2 p = entry' p := fun p => by rw [hv]
  have hslots : ∀ k ∈ q.op.slotsOf, k = kv := h.slotsOf q List.mem_cons_self
  have hfil : q.op.swapsSlot = false → Q.filter (·.op.swapsSlot) =
      (q :: Q).filter (·.op.swapsSlot) := fun hq => by rw [List.filter_cons_of_neg (by simp [hq])]
  have hfil' : q.op.swapsSlot → (q :: Q).filter (·.op.swapsSlot) =
      q :: Q.filter (·.op.swapsSlot) := fun hq => List.filter_cons_of_pos hq
  exact {
    remoteKv := h.remoteKv
    toPoll := by
      have hp := h.toPoll
      rw [List.countP_cons] at hp
      omega
    idle := h.idle
    ongoing := h.ongoing
    covered := h.covered.2
    slotsOf := fun q' hq' => h.slotsOf q' (List.mem_cons_of_mem q hq')
    fetches := fun q' hq' => h.fetches q' (List.mem_cons_of_mem q hq')
    seen := h.seen
    last := h.last
    reads := fun hr => by
      have hne : x.step ≠ .done := by
        rintro hd
        simp [takesTsps, hd, RegStep.readsTsps] at hr
      cases hq : q.op.readsTsps with
      | true =>
        right
        rw [← he, Server.exec_tsps_of_reads hq hslots]
        exact hb hne
      | false =>
        rcases h.reads hr with ⟨q', hq', hread⟩ | hbuf
        · rcases List.mem_cons.1 hq' with rfl | hq'
          · exact absurd (hq.symm.trans hread) Bool.false_ne_true
          · exact .inl ⟨q', hq', hread⟩
        · right
          rw [← he, Server.exec_tsps hq]
          exact hbuf
    swapping := fun hs => by
      have hne : x.step ≠ .done := by
        rintro hd
        simp [hd, RegStep.swaps] at hs
      have hnf : q.op.fetches = false := by
        refine Bool.eq_false_iff.2 fun hf => ?_
        have hxf := h.fetches q List.mem_cons_self hf
        cases hst : x.step <;> simp_all [RegStep.fetches, RegStep.swaps]
      have hkv : (entry' x.ongoingWriteEntry).kv = (entry x.ongoingWriteEntry).kv := by
        rw [← he, Server.exec_kv hnf]
      unfold Swapping
      rw [hkv]
      cases hq : q.op.swapsSlot with
      | true =>
        -- the compare-and-swap itself
        obtain ⟨n, hn, htsp⟩ | ⟨hn, -⟩ := h.swapping hs
        · rw [hfil' hq] at hn
          obtain ⟨rfl, hnil⟩ := List.cons.inj hn
          have hslot := cfg.tspSlot_lt c
          have hfrom : (entry' (.read s)).fromTsp = v.tsps kv (cfg.tspSlot c) := by
            rw [← he]
            simp [Server.exec]
          refine .inr ⟨hnil, hfrom ▸ hb hne _ hslot, fun heq => ?_⟩
          have hnew : v'.tsps kv (cfg.tspSlot c) = n := by
            have hv' : (v.exec cfg c entry s (.cas kv (x.myLastTsp.getD 0) n)).1 = v' := by rw [hv]
            rw [← hv']
            simp [Server.exec, ← hfrom, heq]
          have hn' := validateTsp_mono (hnew ▸ hb' hne _ hslot)
          rw [hm] at hn'
          exact htsp.trans (max_le hn' le_rfl)
        · rw [hfil' hq] at hn
          exact absurd hn (List.cons_ne_nil _ _)
      | false =>
        have hfrom : (entry' (.read s)).fromTsp = (entry (.read s)).fromTsp := by
          rw [← he, Server.exec_fromTsp hq]
        rw [hfil hq, hfrom]
        exact h.swapping hs
    resting := fun hs => by
      cases hq : q.op.swapsSlot with
      | true =>
        have hn := h.resting hs
        rw [hfil' hq] at hn
        exact absurd hn (List.cons_ne_nil _ _)
      | false => rw [hfil hq, h.resting hs] }

end MaxReg.Sound

end DiscoSkip.SwarmKv
