import DiscoSkip.Session

/-!
# The tags are unique

A tag says which Put a register comes from, if no two Puts issue registers with
the same tag: the sequence numbers of a client's own Puts have to be different,
which takes that it runs one operation at a time (`SessionOk.issued_eq`), and the
client ids those of different clients, which takes that there are no more of
them than fit into 8 bits.

Then the registers of a key are determined by their tags (`Known.eq`), and every
CAS that succeeds, also one of a writeback, raises the tag of its cell.

With a quorum of one server, a tag is not used twice in any case: the clients
with the same id have the same server, whose tags only grow.
-/

namespace DiscoSkip

open Function

/-! ## Known registers -/

/-- A register of the key `k` which is the initial one, or was issued. -/
def Known (L : Layout) (k : ℕ) (tr : List Event) (reg : Register) : Prop :=
  reg = .zero ∨ ∃ c < L.numClients, Issued c k tr reg

section Known

variable {L : Layout} {k : ℕ} {tr : List Event} {e : Event} {reg reg' : Register}

theorem Known.cons (h : Known L k tr reg) : Known L k (e :: tr) reg :=
  h.imp_right fun ⟨c, hc, hi⟩ => ⟨c, hc, hi.cons⟩

/-- What the Gets hold are known registers. -/
def KnownPhase (L : Layout) (tr : List Event) : Phase → Prop
  | .getRead k got => ∀ i x, got i = some x → Known L k tr x
  | .getBack k m exp _ => Known L k tr m ∧ ∀ i < L.effectiveMajority, Known L k tr (exp i)
  | _ => True

theorem KnownPhase.cons {ph : Phase} (h : KnownPhase L tr ph) : KnownPhase L (e :: tr) ph := by
  cases ph with
  | getRead => exact fun i x hx => (h i x hx).cons
  | getBack => exact ⟨h.1.cons, fun i hi => (h.2 i hi).cons⟩
  | _ => trivial

/-- Every move leaves known registers only. -/
theorem KnownPhase.move {c f : ℕ} (hc : c < L.numClients) {w w' : View} (hm : Move L c f w e w')
    (hcells : ∀ r k, Known L k tr (w.cells r k)) (h : KnownPhase L tr w.phase) :
    (∀ r k, Known L k (e :: tr) (w'.cells r k)) ∧ KnownPhase L (e :: tr) w'.phase := by
  have hcas : ∀ {r k x t}, Known L k (e :: tr) t →
      ∀ r' k', Known L k' (e :: tr) (casCell w.cells r k x t r' k') := by
    intro r k x t ht r' k'
    rcases casCell_cases w.cells r k r' k' x t with hc | ⟨_, rfl, _, hc⟩ <;> rw [hc]
    · exact (hcells r' k').cons
    · exact ht
  cases hm with
  | casChain => exact ⟨hcas (.inr ⟨c, hc, _, _, _, _, List.mem_cons_self⟩), trivial⟩
  | casPut => exact ⟨hcas (.inr ⟨c, hc, _, _, _, _, List.mem_cons_self⟩), trivial⟩
  | casGet => exact ⟨hcas h.1.cons, h.1.cons, fun i hi => (h.2 i hi).cons⟩
  | readGet =>
    refine ⟨fun r k => (hcells r k).cons, fun i x hx => ?_⟩
    exact (forall_update (P := fun _ x => Known L _ tr x) h (hcells _ _) i x hx).cons
  | getMax hgot _ hm =>
    refine ⟨fun r k => (hcells r k).cons, ?_, fun i hi => (h i _ (hgot i hi)).cons⟩
    rcases hm with rfl | ⟨i, hi, rfl⟩
    · exact .inl rfl
    · exact (h i _ (hgot i hi)).cons
  | stutter => exact ⟨fun r k => (hcells r k).cons, h.cons⟩
  | getStart => exact ⟨fun r k => (hcells r k).cons, by simp [KnownPhase]⟩
  | _ => exact ⟨fun r k => (hcells r k).cons, trivial⟩

/-- What a writeback expects and installs are known registers. -/
theorem KnownPhase.cas {c f r : ℕ} {w w' : View} {x t y : Register}
    (hm : Move L c f w (.cas c f r k .get x t y) w') (h : KnownPhase L tr w.phase) :
    Known L k tr x ∧ Known L k tr t := by
  cases hm with
  | casGet hi => exact ⟨h.2 _ hi, h.1⟩

variable {H : Proto → Event → Prop} {a : Proto}

/-- All registers in the cells, and in the hands of the Gets, are known. -/
theorem known_run (h : Proto.Run L H tr a) :
    (∀ r k, Known L k tr (a.cells r k)) ∧ ∀ c f, KnownPhase L tr (a.phase c f) := by
  refine h.invariant (P := fun tr a => (∀ r k, Known L k tr (a.cells r k)) ∧
    ∀ c f, KnownPhase L tr (a.phase c f)) ?_ fun tr a e a' _ ⟨hcells, hph⟩ hs => ?_
  · exact ⟨fun _ _ => .inl rfl, fun _ _ => trivial⟩
  · obtain ⟨c, f, w, hc, _, _, hm, rfl⟩ := hs
    obtain ⟨hcells', hph'⟩ := KnownPhase.move hc hm hcells (hph c f)
    exact ⟨hcells', Proto.forall_setView (P := fun _ _ => KnownPhase L (e :: tr))
      (fun c' f' _ => (hph c' f').cons) hph'⟩

variable (hH : ∀ a e, H a e → e.SeqBelow) (hasync : L.asyncParallelism ≤ 1)
  (hclients : L.numClients ≤ 256)

/-- The ids of different clients are different. -/
theorem clientIdx_inj {c c' : ℕ} (hc : c < 256) (hc' : c' < 256)
    (h : (DsConf.ofClient L c).clientIdx.toUInt16 = (DsConf.ofClient L c').clientIdx.toUInt16) :
    c = c' := by
  have h' := congrArg UInt16.toNat h
  simpa [DsConf.ofClient, Nat.mod_eq_of_lt hc, Nat.mod_eq_of_lt hc'] using h'

include hH hasync hclients

/-- Issued registers of the same tag are the same. -/
theorem issued_eq (h : Proto.Run L H tr a) {c c' : ℕ} (hc : c < L.numClients)
    (hc' : c' < L.numClients) (hi : Issued c k tr reg) (hi' : Issued c' k tr reg')
    (htag : reg.tag = reg'.tag) : reg = reg' := by
  have hs := SessionOk.run hH hasync h
  obtain rfl : c = c' := by
    refine clientIdx_inj (L := L) (hc.trans_le hclients) (hc'.trans_le hclients) ?_
    rw [← ((hs c k).issued reg hi).1, ← ((hs c' k).issued reg' hi').1]
    exact (Register.tag_eq_iff.1 htag).2
  exact (hs c k).issued_eq reg reg' hi hi' htag

/-- Known registers of the same tag are the same. -/
theorem Known.eq (h : Proto.Run L H tr a) (hk : Known L k tr reg) (hk' : Known L k tr reg')
    (htag : reg.tag = reg'.tag) : reg = reg' := by
  have hs := SessionOk.run hH hasync h
  -- no register is issued with the sequence number of the initial one
  have hpos : ∀ {c t}, Issued c k tr t → t.tag ≠ Register.zero.tag := by
    intro c t ht hz
    have hpos := ((hs c k).issued t ht).2.1
    rw [(Register.tag_eq_iff.1 hz).1] at hpos
    exact absurd hpos (by decide)
  rcases hk with rfl | ⟨c, hc, hi⟩ <;> rcases hk' with rfl | ⟨c', hc', hi'⟩
  · rfl
  · exact absurd htag.symm (hpos hi')
  · exact absurd htag (hpos hi)
  · exact issued_eq hH hasync hclients h hc hc' hi hi' htag

/-- What a CAS expects has a lesser tag than what it installs. -/
theorem cas_lt (h : Proto.Run L H tr a) {c f : ℕ} {w : View} {r : ℕ} {kd : Kind}
    {x t y : Register} (hm : Move L c f (a.view c f) (.cas c f r k kd x t y) w) :
      x.tag < t.tag := by
  rcases ((Bounded.run hH h).view c f).cas hm rfl with ⟨_, hlt⟩ | ⟨rfl, hne, hle⟩
  · exact Register.tag_lt_of_seq hlt
  · obtain ⟨hx, ht⟩ := KnownPhase.cas hm ((known_run h).2 c f)
    exact lt_of_le_of_ne hle fun htag => hne (hx.eq hH hasync hclients h ht htag)

/-- Every CAS of a run expects a lesser tag than the one it installs. -/
theorem cas_lt_run (h : Proto.Run L H tr a) :
    ∀ c f r k kd x t y, .cas c f r k kd x t y ∈ tr → x.tag < t.tag := by
  refine h.invariant (P := fun tr _ => ∀ c f r k kd x t y, .cas c f r k kd x t y ∈ tr →
    x.tag < t.tag) (by simp) fun tr a e a' hr ih hs c f r k kd x t y hmem => ?_
  rcases List.mem_cons.1 hmem with rfl | hmem
  · obtain ⟨c', f', w, _, _, _, hm, _⟩ := hs
    obtain ⟨rfl, rfl⟩ := Prod.mk.inj hm.owner_eq
    exact cas_lt hH hasync hclients hr hm
  · exact ih c f r k kd x t y hmem

end Known

/-- Every CAS that succeeds replaces a register by a greater one, so that the tag
    of every cell only grows, in all runs of fewer than 256 clients with one
    operation at a time for each. -/
theorem cas_increases {L : Layout} (hq : L.effectiveMajority ≤ L.numServers)
    (hclients : L.numClients < 256) (hasync : L.asyncParallelism = 1) {pre post : List Event}
    {s s' : Cluster} (h : (Cluster.machine L).Run Cluster.Any pre s)
    (h' : Lib.Trace ((Cluster.machine L).Step Cluster.Any) s post s')
    (hseq : ∀ e ∈ post ++ pre, e.SeqBelow) :
    (∀ c f r k kd x t, .cas c f r k kd x t x ∈ post ++ pre → x < t) ∧
      ∀ r k, (s.cells r k).tag ≤ (s'.cells r k).tag := by
  have hn : 0 < L.numServers := L.effectiveMajority_pos.trans_le hq
  obtain ⟨a, hr, hsim⟩ := exists_run (H := fun _ _ => True) hq hn
    (fun _ _ _ _ _ _ _ _ => trivial) h fun e he => hseq e (List.mem_append_right _ he)
  obtain ⟨a', hr', hsim'⟩ := hsim.trace (H := fun _ _ => True) hq hn
    (fun _ _ _ _ _ _ _ _ => trivial) h' fun e he => hseq e (List.mem_append_left _ he)
  refine ⟨fun c f r k kd x t hmem => Register.lt_iff.2 ?_, fun r k => ?_⟩
  · exact cas_lt_run (fun a e h => h.2) hasync.le hclients.le (hr.append hr') c f r k kd x t x hmem
  · rw [hsim.cells, hsim'.cells]
    exact ((Bounded.run (fun a e h => h.2) hr).trace (fun a e h => h.2) hr').2 r k

/-- For instance, with a Get that writes back what a Put has installed on one
    server. -/
theorem cas_increases_threeServers :
    ∃ s, (Cluster.machine (.threeServers 1 true true)).Run Cluster.Any
      [.cas 1 0 2 7 .get .zero ⟨5, 0, 1⟩ .zero, .getMax 1 0 7 ⟨5, 0, 1⟩, .read 1 0 2 7 .zero,
        .read 1 0 1 7 ⟨5, 0, 1⟩, .invokeGet 1 0 7, .cas 0 0 1 7 .put .zero ⟨5, 0, 1⟩ .zero,
        .stepped 0 0, .read 0 0 1 7 .zero, .read 0 0 0 7 .zero, .invokePut 0 0 7 5] s ∧
      Register.zero < ⟨5, 0, 1⟩ := by
  refine Exists.imp (fun s hs => ⟨hs, (cas_increases (by decide) (by decide) rfl hs .nil
    (by decide)).1 1 0 2 7 .get .zero ⟨5, 0, 1⟩ List.mem_cons_self⟩) ?_
  exact Lib.Machine.run_of_play
    [.doPut 0 0 7 5, .rdma 0 0 0, .rdma 0 0 1, .tryStepForward 0 0, .rdma 0 0 1,
      .doGet 1 0 7, .rdma 1 0 1, .rdma 1 0 2, .tryStepForward 1 0, .rdma 1 0 2]
    (by decide +kernel)

/-! ## Installed registers -/

section Quorum

variable {L : Layout} {H : Proto → Event → Prop} {tr : List Event} {a : Proto}

/-- The target of a Put bears the id of its client. -/
def OwnTarget (L : Layout) (c : ℕ) : Phase → Prop
  | .putCas _ _ t _ _ _ => t.clientId = (DsConf.ofClient L c).clientIdx.toUInt16
  | _ => True

theorem OwnTarget.move {c f : ℕ} {w w' : View} {e : Event} (hm : Move L c f w e w')
    (h : OwnTarget L c w.phase) : OwnTarget L c w'.phase := by
  cases hm <;> first | exact h | trivial

theorem OwnTarget.run (h : Proto.Run L H tr a) : ∀ c f, OwnTarget L c (a.phase c f) := by
  refine h.invariant (P := fun _ a => ∀ c f, OwnTarget L c (a.phase c f)) ?_
    fun tr a e a' _ ih hs => ?_
  · exact fun _ _ => trivial
  · obtain ⟨c, f, w, _, _, _, hm, rfl⟩ := hs
    exact Proto.forall_setView (P := fun c _ => OwnTarget L c) (fun c' f' _ => ih c' f')
      (OwnTarget.move hm (ih c f))

/-- What a CAS of a Put installs bears the id of its client. -/
theorem OwnTarget.cas {c f r k : ℕ} {w w' : View} {x t y : Register}
    (hm : Move L c f w (.cas c f r k .put x t y) w') (h : OwnTarget L c w.phase) :
    t.clientId = (DsConf.ofClient L c).clientIdx.toUInt16 := by
  cases hm with
  | casChain => rfl
  | casPut => exact h

/-- The registers installed on the servers of a quorum of one: no two of them,
    on a key, have the same tag. -/
structure InstalledOk (L : Layout) (tr : List Event) (a : Proto) : Prop where
  cell : ∀ c f r k x t, .cas c f r k .put x t x ∈ tr →
    t.tag ≤ (a.cells r k).tag ∧ r = srv L c 0 ∧
      t.clientId = (DsConf.ofClient L c).clientIdx.toUInt16
  eq : ∀ c c' f f' r r' k x x' t t', .cas c f r k .put x t x ∈ tr →
    .cas c' f' r' k .put x' t' x' ∈ tr → t.tag = t'.tag → t = t'

/-- A client whose quorum is one server does not install a tag twice, nor does
    another one with its id: they share the server. -/
theorem InstalledOk.run (hH : ∀ a e, H a e → e.SeqBelow) (hone : L.effectiveMajority ≤ 1)
    (h : Proto.Run L H tr a) : InstalledOk L tr a := by
  refine h.invariant (P := InstalledOk L) ?_ fun tr a e a' hr ih hs => ?_
  · exact ⟨by simp, by simp⟩
  have hb := Bounded.run hH hr
  have hle := hb.cells_mono hs
  obtain ⟨c₀, f₀, w, _, _, _, hm, rfl⟩ := hs
  -- the register just installed
  have hnew : ∀ c f r k x t, .cas c f r k .put x t x = e → x.tag < t.tag ∧ a.cells r k = x ∧
      t.tag ≤ (w.cells r k).tag ∧ r = srv L c 0 ∧
      t.clientId = (DsConf.ofClient L c).clientIdx.toUInt16 := by
    rintro c f r k x t rfl
    obtain ⟨rfl, rfl⟩ := Prod.mk.inj hm.owner_eq
    have hlt := ((hb.view c f).cas hm rfl).resolve_right fun h => absurd h.1 (by simp)
    rcases hm.cells_cases with ⟨_, hno⟩ | ⟨i, k', kd, x', t', hi, he, hcells⟩
    · exact absurd rfl (hno _ _ _ _ _ _ _ _)
    · obtain rfl : i = 0 := by omega
      cases he
      refine ⟨Register.tag_lt_of_seq hlt.2, rfl, ?_, rfl, OwnTarget.cas hm (OwnTarget.run hr c f)⟩
      rw [hcells, casCell_self rfl]
  -- it has a greater tag than all those installed before by a client of its id
  have hfresh : ∀ c f r k x t, .cas c f r k .put x t x = e → ∀ c' f' r' x' t',
      .cas c' f' r' k .put x' t' x' ∈ tr → t'.tag ≠ t.tag := by
    intro c f r k x t he c' f' r' x' t' hmem htag
    obtain ⟨hlt, hx, _, hr, hid⟩ := hnew c f r k x t he
    obtain ⟨hle', hr', hid'⟩ := ih.cell c' f' r' k x' t' hmem
    have hidx : (DsConf.ofClient L c').clientIdx = (DsConf.ofClient L c).clientIdx := by
      have := hid'.symm.trans ((Register.tag_eq_iff.1 htag).2.trans hid)
      exact UInt8.toUInt16_inj.1 this
    have hrr : r' = r := by
      rw [hr, hr']
      exact congrArg (fun i : UInt8 => (i.toNat + 0) % L.numServers) hidx
    rw [hrr, hx, htag] at hle'
    exact absurd hlt (not_lt.2 hle')
  refine ⟨fun c f r k x t hmem => ?_, ?_⟩
  · rcases List.mem_cons.1 hmem with he | hmem
    · exact (hnew c f r k x t he).2.2
    · obtain ⟨hle', hrest⟩ := ih.cell c f r k x t hmem
      exact ⟨hle'.trans (hle r k), hrest⟩
  · intro c c' f f' r r' k x x' t t' hmem hmem' htag
    rcases List.mem_cons.1 hmem with he | hmem <;> rcases List.mem_cons.1 hmem' with he' | hmem'
    · cases he.trans he'.symm
      rfl
    · exact absurd htag.symm (hfresh c f r k x t he c' f' r' x' t' hmem')
    · exact absurd htag (hfresh c' f' r' k x' t' he' c f r x t hmem)
    · exact ih.eq c c' f f' r r' k x x' t t' hmem hmem' htag

/-- Only the clients there are do something. -/
theorem owner_lt (h : Proto.Run L H tr a) : ∀ e ∈ tr, e.owner.1 < L.numClients := by
  refine h.invariant (P := fun tr _ => ∀ e ∈ tr, e.owner.1 < L.numClients) (by simp)
    fun tr a e a' _ ih hs e' he' => ?_
  rcases List.mem_cons.1 he' with rfl | he'
  · obtain ⟨c, f, w, hc, _, _, hm, _⟩ := hs
    rw [hm.owner_eq]
    exact hc
  · exact ih e' he'

end Quorum

/-- In every run with sequence numbers below the last one, two Puts that install
    registers of the same tag on a key install the same value. -/
def TagsUnique (L : Layout) : Prop :=
  ∀ tr s, (Cluster.machine L).Run Cluster.Any tr s → (∀ e ∈ tr, e.SeqBelow) →
    ∀ c c' f f' r r' k x x' t t', .cas c f r k .put x t x ∈ tr →
      .cas c' f' r' k .put x' t' x' ∈ tr → t.tag = t'.tag → t.value = t'.value

/-- The tags are unique, if there are at most 256 clients with one operation at a
    time for each, or if the quorums are of one server. The condition is not exact: clients
    that have no futures put nothing, and there may be any number of those. -/
theorem tagsUnique {L : Layout} (hq : L.effectiveMajority ≤ L.numServers)
    (hcond : L.asyncParallelism ≤ 1 ∧ L.numClients ≤ 256 ∨ L.effectiveMajority ≤ 1) :
    TagsUnique L := by
  intro tr s h hseq c c' f f' r r' k x x' t t' hmem hmem' htag
  have hn : 0 < L.numServers := L.effectiveMajority_pos.trans_le hq
  obtain ⟨a, hr, _⟩ := exists_run (H := fun _ _ => True) hq hn
    (fun _ _ _ _ _ _ _ _ => trivial) h hseq
  rcases hcond with ⟨hasync, hclients⟩ | hone
  · exact congrArg Register.value (issued_eq (fun a e h => h.2) hasync hclients hr
      (owner_lt hr _ hmem) (owner_lt hr _ hmem') ⟨f, r, x, x, hmem⟩ ⟨f', r', x', x', hmem'⟩ htag)
  · exact congrArg Register.value
      ((InstalledOk.run (fun a e h => h.2) hone hr).eq _ _ _ _ _ _ _ _ _ _ _ hmem hmem' htag)

/-- For instance, with one operation at a time for each of six clients. -/
theorem tagsUnique_threeServers : TagsUnique (.threeServers 1 true true) :=
  tagsUnique (by decide) (.inl (by decide))

/-- In general, they are not: two futures of one client that start a Put from the
    same registers come to the same tag. -/
theorem not_tagsUnique : ¬TagsUnique (.threeServers 2 true true) := by
  intro h
  obtain ⟨s, hs⟩ : ∃ s, (Cluster.machine (.threeServers 2 true true)).Run Cluster.Any
      [.cas 0 1 1 7 .put .zero ⟨22, 0, 1⟩ .zero, .cas 0 0 0 7 .put .zero ⟨11, 0, 1⟩ .zero,
        .stepped 0 1, .stepped 0 0, .read 0 1 1 7 .zero, .read 0 1 0 7 .zero,
        .read 0 0 1 7 .zero, .read 0 0 0 7 .zero, .invokePut 0 1 7 22, .invokePut 0 0 7 11] s :=
    Lib.Machine.run_of_play
      [.doPut 0 0 7 11, .doPut 0 1 7 22, .rdma 0 0 0, .rdma 0 0 1, .rdma 0 1 0, .rdma 0 1 1,
        .tryStepForward 0 0, .tryStepForward 0 1, .rdma 0 0 0, .rdma 0 1 1] (by decide +kernel)
  have heq := h _ s hs (by decide) 0 0 0 1 0 1 7 .zero .zero ⟨11, 0, 1⟩ ⟨22, 0, 1⟩ (by decide)
    (by decide) rfl
  exact absurd heq (by decide)

end DiscoSkip
