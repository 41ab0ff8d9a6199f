import DiscoSkip.SkipVector.Structure

/-!
# The fidelity of the mirror

The non-orphans of the cache mirror boundaries of the remote index: each was
declared by a call, for its level and its first key, and carries the address the
call gave (`Call.Declares`). The nodes that overflows leave are orphans, and stay so.
The first key of a node that is not leftmost never changes.

Both are seen on the *labels* of the nodes (`Cache.labels`): a section keeps the
first keys of the labels of its layer, but for the head, and what is new among the
non-orphans is one label, of the key and the address of the section
(`Relabelled`). A call that is under way has declared the boundaries of the levels
it has climbed (`Job.Declared`).
-/

namespace DiscoSkip.SkipVector

open Lib

/-- What a node shows of itself: its pointer, whether it is an orphan, its first key and
    the remote node it mirrors. -/
structure NodeLabel (K A : Type*) where
  id : ℕ
  orphan : Bool
  first : Option K
  remoteAddr : A

variable {K T A : Type*}

def Node.label (n : Node K T A) : NodeLabel K A := ⟨n.id, n.orphan, n.v.first, n.remoteAddr⟩

/-- The labels of the nodes of the layer `L`, the leftmost one first. -/
def Cache.labels (s : Cache K A) : ℕ → List (NodeLabel K A)
  | 0 => s.directory.map Node.label
  | L + 1 => (s.index (L + 1)).map Node.label

/-- The call declares `m` as a boundary of the level `L`, with the address `a`. -/
def Call.Declares (L : ℕ) (m : K) (a : A) : Call K A → Prop
  | .mirrorInsert k height _ newRemoteIndexAddrs =>
    k = m ∧ L + 2 ≤ height ∧ newRemoteIndexAddrs L = a
  | .mirrorReconcile _ _ path =>
    (∀ j ≤ L, path[j]?.map PathStep.kMin = some m) ∧ path[L]?.map PathStep.addr = some a

/-- The labels of a layer before and after a section: the first keys stay, but that of
    the head, and the non-orphans stay, but for those that satisfy `P`. -/
structure Relabelled (P : K → A → Prop) (ls ls' : List (NodeLabel K A)) : Prop where
  kept : ∀ l ∈ ls, l.id ≠ head → ∃ l' ∈ ls', l'.id = l.id ∧ l'.first = l.first
  new : ∀ l' ∈ ls', l'.orphan = false → (∃ k, l'.first = some k ∧ P k l'.remoteAddr) ∨
    ∃ l ∈ ls, l.orphan = false ∧ l.first = l'.first ∧ l.remoteAddr = l'.remoteAddr

theorem Relabelled.refl {P : K → A → Prop} (ls : List (NodeLabel K A)) : Relabelled P ls ls :=
  ⟨fun l hl _ => ⟨l, hl, rfl, rfl⟩, fun l hl ho => .inr ⟨l, hl, ho, rfl, rfl⟩⟩

/-! ## The sections -/

/-- The non-orphans that `f` puts in place of a node are the node itself, or satisfy
    `P`. -/
def LabelOk (P : K → A → Prop) (f : ℕ → Node K T A → Edit K T A) : Prop :=
  ∀ fresh n, ∀ m ∈ (f fresh n).nodes, m.orphan = false →
    (∃ k, m.v.first = some k ∧ P k m.remoteAddr) ∨ m.id = n.id ∧ m.remoteAddr = n.remoteAddr

variable [LinearOrder K]

theorem insert_labelOk {P : K → A → Prop} (capacity : ℕ) (e : K × T) (addr : A) :
    LabelOk P fun fresh n => Node.insert capacity fresh e addr n := by
  intro fresh n m hm ho
  right
  simp only [Node.insert] at hm
  split at hm
  · rw [List.mem_singleton.1 hm]
    exact ⟨rfl, rfl⟩
  · rw [List.mem_singleton.1 hm]
    exact ⟨rfl, rfl⟩
  · rcases List.mem_cons.1 hm with rfl | hm
    · exact ⟨rfl, rfl⟩
    · rw [List.mem_singleton.1 hm] at ho
      exact absurd ho (by simp)

theorem mirrorSplit_labelOk [Inhabited A] {P : K → A → Prop} (capacity : ℕ) {k : K} (x : T)
    {addr : A} (hP : P k addr) :
    LabelOk P fun fresh n => Node.mirrorSplit capacity fresh k x addr n := by
  intro fresh n m hm ho
  simp only [Node.mirrorSplit] at hm
  split at hm
  · next hmin =>
    split at hm
    · rw [List.mem_singleton.1 hm]
      exact .inr ⟨rfl, rfl⟩
    · rw [List.mem_singleton.1 hm]
      exact .inl ⟨k, hmin, hP⟩
  · split at hm
    · next hc =>
      split at hm
      · next kept stolen hs =>
        rcases List.mem_cons.1 hm with rfl | hm
        · exact .inr ⟨rfl, rfl⟩
        · rw [List.mem_singleton.1 hm]
          exact .inl ⟨k, VectorSfra.first_of_splitAt hc hs, hP⟩
      · rw [List.mem_singleton.1 hm]
        exact .inr ⟨rfl, rfl⟩
    · -- the node keeps its pointer when it sheds, and what it sheds is an orphan
      have hshed : (n.shed capacity fresh k).1.id = n.id ∧
          (n.shed capacity fresh k).1.remoteAddr = n.remoteAddr ∧
          ∀ m ∈ (n.shed capacity fresh k).2.1, m.orphan = true := by
        rw [Node.shed]
        split <;> simp
      rcases List.mem_cons.1 hm with rfl | hm
      · exact .inr ⟨hshed.1, hshed.2.1⟩
      · rcases List.mem_cons.1 hm with rfl | hm
        · exact .inl ⟨k, rfl, hP⟩
        · rw [hshed.2.2 m hm] at ho
          exact absurd ho (by simp)

variable {P : K → A → Prop}

/-- A section at the node that covers the key relabels the layer. -/
theorem LayerOk.relabelled {capacity fresh : ℕ} {k : K} {x : T} {ns pre post : List (Node K T A)}
    {n : Node K T A} {f : ℕ → Node K T A → Edit K T A} (h : LayerOk capacity fresh ns)
    (hns : ns = pre ++ n :: post) (hcov : Covers k pre n post) (hf : EditOk capacity k x f)
    (hl : LabelOk P f) :
    Relabelled P (ns.map Node.label) ((splice ns n.id (f fresh n).nodes).map Node.label) := by
  subst hns
  obtain ⟨n', rest, lo, hi, hnodes, hn, hc, he⟩ := h.exists_edited hf
  have hl := hl fresh n
  rw [hnodes] at hl
  rw [splice_eq h.nodup, hnodes]
  have hlt := h.id_lt n (List.mem_append_right _ List.mem_cons_self)
  constructor
  · intro l hlm hid
    obtain ⟨m, hm, rfl⟩ := List.mem_map.1 hlm
    simp only [List.mem_append, List.mem_cons] at hm
    rcases hm with hm | rfl | hm
    · exact ⟨m.label, List.mem_map_of_mem (by simp [hm]), rfl, rfl⟩
    · exact ⟨n'.label, List.mem_map_of_mem (by simp), he.id_eq, first_edited hcov he hid⟩
    · exact ⟨m.label, List.mem_map_of_mem (by simp [hm]), rfl, rfl⟩
  · intro l hlm ho
    obtain ⟨m, hm, rfl⟩ := List.mem_map.1 hlm
    have hsame : m ∈ pre ++ n :: post → ∃ l ∈ (pre ++ n :: post).map Node.label,
        l.orphan = false ∧ l.first = m.label.first ∧ l.remoteAddr = m.label.remoteAddr :=
      fun hm => ⟨m.label, List.mem_map_of_mem hm, ho, rfl, rfl⟩
    rcases List.mem_append.1 hm with hm | hm
    · exact .inr (hsame (List.mem_append_left _ hm))
    · rcases List.mem_append.1 hm with hm | hm
      · rcases hl m hm ho with hP | ⟨hid, haddr⟩
        · exact .inl hP
        · -- the pointers of the others are new, so this is the node itself
          rcases List.mem_cons.1 hm with rfl | hm
          · have hon : n.orphan = false := he.orphan_eq.symm.trans ho
            have hmem : n ∈ pre ++ n :: post := List.mem_append_right _ List.mem_cons_self
            exact .inr ⟨n.label, List.mem_map_of_mem hmem, hon,
              (first_edited hcov he (h.ne_head hmem hon)).symm, haddr.symm⟩
          · have hge := (he.rest_id m hm).1
            omega
      · exact .inr (hsame (List.mem_append_right _ (List.mem_cons_of_mem _ hm)))

variable {cfg : Config} {s s' : Cache K A} {k : K} {r : Option ℕ}

/-- A section of the directory relabels it. -/
theorem CacheOk.relabelled_directory (h : CacheOk cfg s) {x : A} {f : ℕ → Node K A A → Edit K A A}
    (hf : EditOk cfg.capacity k x f) (hl : LabelOk P f)
    (hs : s.directorySection cfg k f = (s', r)) :
    Relabelled P (s.labels 0) (s'.labels 0) ∧ ∀ L ≠ 0, s'.labels L = s.labels L := by
  obtain ⟨pre, n, post, hns, hd, hcov⟩ := h.descendToDirectory_spec k
  have hre := h.directory.relabelled hns hcov hf hl
  rw [Cache.directorySection, hd] at hs
  obtain ⟨rfl, rfl⟩ := Prod.mk.inj hs
  refine ⟨hre, fun L hL => ?_⟩
  cases L with
  | zero => exact absurd rfl hL
  | succ L => rfl

/-- A section of an index layer relabels it. -/
theorem CacheOk.relabelled_index (h : CacheOk cfg s) {L child : ℕ} (hL : L + 1 < cfg.layers)
    {f : ℕ → Node K ℕ A → Edit K ℕ A} (hf : EditOk cfg.capacity k child f) (hl : LabelOk P f)
    (hs : s.indexSection cfg k (L + 1) f = (s', r)) :
    Relabelled P (s.labels (L + 1)) (s'.labels (L + 1)) ∧
      ∀ L' ≠ L + 1, s'.labels L' = s.labels L' := by
  obtain ⟨pre, n, post, hns, hd, hcov⟩ := h.descendToIndexLevel_spec k hL
  have hre := (h.index L hL).relabelled hns hcov hf hl
  rw [Cache.indexSection, hd] at hs
  obtain ⟨rfl, rfl⟩ := Prod.mk.inj hs
  constructor
  · simp only [Cache.labels, Function.update_self]
    exact hre
  · intro L' hL'
    cases L' with
    | zero => rfl
    | succ L' => simp only [Cache.labels, Function.update_of_ne hL']

theorem LayerOk.nodup_labels {capacity fresh : ℕ} {ns : List (Node K T A)}
    (h : LayerOk capacity fresh ns) : ((ns.map Node.label).map NodeLabel.id).Nodup := by
  rw [List.map_map]
  exact h.nodup

theorem LayerOk.ne_head_of_tail {capacity fresh : ℕ} {ns : List (Node K T A)}
    (h : LayerOk capacity fresh ns) {l : NodeLabel K A} (hl : l ∈ (ns.map Node.label).tail) :
    l.id ≠ head := by
  obtain ⟨n, t, rfl, hid, -⟩ := h.leftmost
  obtain ⟨m, hm, rfl⟩ := List.mem_map.1 hl
  intro hhead
  exact (List.nodup_cons.1 h.nodup).1 (hid.trans hhead.symm ▸ List.mem_map_of_mem hm)

theorem CacheOk.nodup_labels (h : CacheOk cfg s) {L : ℕ} (hL : L < cfg.layers) :
    ((s.labels L).map NodeLabel.id).Nodup := by
  cases L with
  | zero => exact h.directory.nodup_labels
  | succ L => exact (h.index L hL).nodup_labels

theorem CacheOk.ne_head_of_tail (h : CacheOk cfg s) {L : ℕ} (hL : L < cfg.layers)
    {l : NodeLabel K A} (hl : l ∈ (s.labels L).tail) : l.id ≠ head := by
  cases L with
  | zero => exact h.directory.ne_head_of_tail hl
  | succ L => exact (h.index L hL).ne_head_of_tail hl

/-! ## The calls -/

/-- The call has declared `k` for the levels below `level`. -/
def Call.Climbed [Inhabited A] (k : K) (level : ℕ) (c : Call K A) : Prop :=
  ∀ L < level, c.Declares L k (c.addrAt L)

omit [LinearOrder K] in
theorem Call.declares_of_climbs [Inhabited A] {c : Call K A} {level : ℕ}
    (hc : c.Climbed k (level + 1)) (h : c.Climbs cfg k (level + 1)) :
    c.Declares (level + 1) k (c.addrAt (level + 1)) := by
  cases c with
  | mirrorInsert k' height d addrs =>
    have hlt : level + 1 < height - 1 := h
    exact ⟨(hc 0 (Nat.succ_pos _)).1, by omega, rfl⟩
  | mirrorReconcile dk da path =>
    obtain ⟨-, hk⟩ := h
    obtain ⟨p, hp, -⟩ := Option.map_eq_some_iff.1 hk
    refine ⟨fun j hj => ?_, ?_⟩
    · rcases Nat.lt_or_eq_of_le hj with hlt | rfl
      · exact (hc j hlt).1 j (Nat.le_refl j)
      · exact hk
    · rw [Call.addrAt, hp]
      rfl

namespace Job

/-- The call of which this is left. -/
def call : Job K A → Call K A
  | called c => c
  | split _ _ c => c
  | climb _ c _ _ => c
  | install _ c _ _ => c

variable [Inhabited A] {j : Job K A}

/-- The call has declared the boundaries of the levels it has climbed. -/
def Declared : Job K A → Prop
  | called _ => True
  | split k _ c => c.Climbed k 1
  | climb k c level _ => c.Climbed k level
  | install _ _ _ _ => True

/-- What a step of a call does to the labels of the nodes. -/
structure Labels (s : Cache K A) (j : Job K A) (s' : Cache K A) (j' : Option (Job K A)) :
    Prop where
  relabelled : ∀ L, Relabelled (fun m a => j.call.Declares L m a) (s.labels L) (s'.labels L)
  declared : ∀ i, j' = some i → i.Declared ∧ i.call = j.call

omit [LinearOrder K] [Inhabited A] in
theorem relabelled_of_ne {L₀ : ℕ} {Q : ℕ → K → A → Prop}
    (h : Relabelled (Q L₀) (s.labels L₀) (s'.labels L₀))
    (hne : ∀ L ≠ L₀, s'.labels L = s.labels L) (L : ℕ) :
    Relabelled (Q L) (s.labels L) (s'.labels L) := by
  by_cases hL : L = L₀
  · exact hL ▸ h
  · rw [hne L hL]
    exact .refl _

theorem insertDirectory_labels {x : A} {j' : Option (Job K A)} (h : CacheOk cfg s) (addr : A)
    (hj' : ∀ i, j' = some i → i.Declared ∧ i.call = j.call) :
    Labels s j (s.insertDirectory cfg k x addr) j' := by
  obtain ⟨hre, hne⟩ := h.relabelled_directory (P := fun m a => j.call.Declares 0 m a)
    (insert_editOk cfg.capacity_pos k x addr) (insert_labelOk cfg.capacity (k, x) addr) rfl
  exact ⟨relabelled_of_ne (Q := fun L m a => j.call.Declares L m a) hre hne, hj'⟩

theorem splitDirectory_labels {x : A} {c : Call K A} (h : CacheOk cfg s) (hc : c = j.call)
    (hd : c.Declares 0 k (c.addrAt 0)) :
    Labels s j (splitDirectory cfg s k x c).1 (splitDirectory cfg s k x c).2 := by
  subst hc
  obtain ⟨hre, hne⟩ := h.relabelled_directory (P := fun m a => j.call.Declares 0 m a)
    (mirrorSplit_editOk cfg.capacity_pos k x _) (mirrorSplit_labelOk cfg.capacity x hd) rfl
  refine ⟨relabelled_of_ne (Q := fun L m a => j.call.Declares L m a) hre hne, fun i hi => ?_⟩
  obtain ⟨n, -, rfl⟩ := Option.map_eq_some_iff.1 hi
  refine ⟨fun L hL => ?_, rfl⟩
  obtain rfl : L = 0 := by omega
  exact hd

theorem installChild_labels {c : Call K A} {L child : ℕ} (h : CacheOk cfg s) :
    Labels s j (installChild cfg s k c (L + 1) child).1
      (installChild cfg s k c (L + 1) child).2 := by
  rw [installChild_eq]
  split
  · next hL =>
    obtain ⟨hre, hne⟩ := h.relabelled_index (P := fun m a => j.call.Declares (L + 1) m a) hL
      (insert_editOk cfg.capacity_pos k child _)
      (insert_labelOk cfg.capacity (k, child) (c.addrAt (L + 1))) rfl
    exact ⟨relabelled_of_ne (Q := fun L m a => j.call.Declares L m a) hre hne,
      fun i hi => absurd hi (by simp)⟩
  · exact ⟨fun L => .refl _, fun i hi => absurd hi (by simp)⟩

/-- The steps of the calls. -/
theorem step_labels (h : CacheOk cfg s) (hj : j.Ok cfg s) (hd : j.Declared) :
    Labels s j (j.step cfg s).1 (j.step cfg s).2 := by
  cases j with
  | called c =>
    cases c with
    | mirrorInsert k height d addrs =>
      rw [step]
      split
      · exact insertDirectory_labels h _ fun i hi => absurd hi (by simp)
      · next hh => exact splitDirectory_labels h rfl ⟨rfl, by omega, rfl⟩
    | mirrorReconcile dk da path =>
      refine insertDirectory_labels h _ fun i hi => ?_
      obtain ⟨p, hp, rfl⟩ := Option.map_eq_some_iff.1 hi
      rw [List.head?_eq_getElem?] at hp
      refine ⟨fun L hL => ?_, rfl⟩
      obtain rfl : L = 0 := by omega
      refine ⟨fun j hj => ?_, ?_⟩
      · obtain rfl : j = 0 := by omega
        rw [hp]
        rfl
      · rw [Call.addrAt, hp]
        rfl
  | split k x c => exact splitDirectory_labels h rfl (hd 0 Nat.one_pos)
  | climb k c level child =>
    obtain ⟨hc, L, rfl, hL, hchild⟩ := hj
    rw [step]
    split
    · next hcl =>
      have hdec := Call.declares_of_climbs hd hcl
      obtain ⟨s', n, hs⟩ : ∃ s' n,
          s.mirrorSplitIndex cfg k (L + 1) child (c.addrAt (L + 1)) = (s', n) := ⟨_, _, rfl⟩
      obtain ⟨hre, hne⟩ := h.relabelled_index (P := fun m a => c.Declares (L + 1) m a)
        (hc.lt_of_climbs hcl) (mirrorSplit_editOk cfg.capacity_pos k child _)
        (mirrorSplit_labelOk cfg.capacity child hdec) hs
      have hre := relabelled_of_ne (Q := fun L m a => c.Declares L m a) hre hne
      rw [hs]
      cases n with
      | none =>
        refine ⟨hre, fun i hi => ?_⟩
        obtain rfl := Option.some.inj hi
        exact ⟨trivial, rfl⟩
      | some n =>
        refine ⟨hre, fun i hi => ?_⟩
        obtain rfl := Option.some.inj hi
        refine ⟨fun L' hL' => ?_, rfl⟩
        rcases Nat.lt_or_eq_of_le (Nat.lt_succ_iff.1 hL') with hlt | rfl
        · exact hd L' hlt
        · exact hdec
    · exact installChild_labels h
  | install k c level child =>
    obtain ⟨L, rfl, hL, hchild⟩ := hj
    exact installChild_labels h

end Job

/-! ## The interleavings -/

/-- The non-orphans were declared by calls that were made. -/
structure Faithful [Inhabited A] (tr : List (Threads.Action K A)) (t : Threads K A) : Prop where
  declared : ∀ L, ∀ l ∈ t.cache.labels L, l.orphan = false →
    ∃ m, l.first = some m ∧ ∃ c, .call c ∈ tr ∧ c.Declares L m l.remoteAddr
  jobs : ∀ j ∈ t.jobs, j.Declared ∧ .call j.call ∈ tr

variable [Inhabited A] {tr tr₁ tr₂ : List (Threads.Action K A)} {t t₁ t₂ : Threads K A}

theorem Faithful.run (h : (Threads.machine cfg).Run (Threads.Guard cfg) tr t) : Faithful tr t := by
  refine Trace.invariant (P := Faithful) ⟨fun L l hl ho => ?_, by simp [Threads.machine]⟩ ?_ h
  · -- at the start there are only heads, which are orphans
    cases L <;> rw [List.mem_singleton.1 hl] at ho <;> exact absurd ho (by simp [Node.label])
  rintro tr t a t' hr hp ⟨act, hg, hst⟩
  have hmono : ∀ {L m addr}, (∃ c, .call c ∈ tr ∧ Call.Declares L m addr c) →
      ∃ c, .call c ∈ a :: tr ∧ Call.Declares L m addr c := fun h =>
    h.imp fun _ hc => ⟨List.mem_cons_of_mem _ hc.1, hc.2⟩
  have hold : ∀ j ∈ t.jobs, j.Declared ∧ .call j.call ∈ a :: tr := fun j hj =>
    ⟨(hp.jobs j hj).1, List.mem_cons_of_mem _ (hp.jobs j hj).2⟩
  cases act with
  | call c =>
    obtain ⟨rfl, rfl⟩ := Prod.mk.inj (Option.some.inj hst)
    refine ⟨fun L l hl ho => ?_, fun j hj => ?_⟩
    · obtain ⟨m, hm, hc⟩ := hp.declared L l hl ho
      exact ⟨m, hm, hmono hc⟩
    · rcases List.mem_append.1 hj with hj | hj
      · exact hold j hj
      · rw [List.mem_singleton.1 hj]
        exact ⟨trivial, List.mem_cons_self⟩
  | step i =>
    obtain ⟨j, hj, heq⟩ := Option.map_eq_some_iff.1 hst
    obtain ⟨rfl, rfl⟩ := Prod.mk.inj heq
    have hmem : j ∈ t.jobs := List.mem_of_getElem? hj
    have hpar := Parented.run hr
    have hlab := Job.step_labels hpar.ok (hpar.jobOk j hmem) (hp.jobs j hmem).1
    refine ⟨fun L l hl ho => ?_, fun i' hi' => ?_⟩
    · rcases (hlab.relabelled L).new l hl ho with ⟨m, hm, hd⟩ | ⟨l₀, hl₀, ho₀, hf, ha⟩
      · exact ⟨m, hm, j.call, (hold j hmem).2, hd⟩
      · obtain ⟨m, hm, hc⟩ := hp.declared L l₀ hl₀ ho₀
        rw [hf] at hm
        rw [ha] at hc
        exact ⟨m, hm, hmono hc⟩
    · simp only [List.mem_append, Option.mem_toList] at hi'
      rcases hi' with (hi' | hi') | hi'
      · exact hold i' (List.mem_of_mem_take hi')
      · obtain ⟨hd, hc⟩ := hlab.declared i' hi'
        exact ⟨hd, hc ▸ (hold j hmem).2⟩
      · exact hold i' (List.mem_of_mem_drop hi')

/-- The first keys of the nodes that are not leftmost stay. -/
theorem kept_of_run (h : (Threads.machine cfg).Run (Threads.Guard cfg) tr₁ t₁)
    (h' : Trace ((Threads.machine cfg).Step (Threads.Guard cfg)) t₁ tr₂ t₂) (L : ℕ) :
    ∀ l ∈ t₁.cache.labels L, l.id ≠ head →
      ∃ l' ∈ t₂.cache.labels L, l'.id = l.id ∧ l'.first = l.first := by
  induction h' with
  | nil => exact fun l hl _ => ⟨l, hl, rfl, rfl⟩
  | cons hr hst ih =>
    intro l hl hid
    obtain ⟨l₁, hl₁, hid₁, hf₁⟩ := ih l hl hid
    obtain ⟨act, hg, hst⟩ := hst
    cases act with
    | call c =>
      obtain ⟨rfl, rfl⟩ := Prod.mk.inj (Option.some.inj hst)
      exact ⟨l₁, hl₁, hid₁, hf₁⟩
    | step i =>
      obtain ⟨j, hj, heq⟩ := Option.map_eq_some_iff.1 hst
      obtain ⟨rfl, rfl⟩ := Prod.mk.inj heq
      have hmem := List.mem_of_getElem? hj
      have hrun := h.append hr
      have hpar := Parented.run hrun
      have hlab := Job.step_labels hpar.ok (hpar.jobOk j hmem) ((Faithful.run hrun).jobs j hmem).1
      obtain ⟨l₂, hl₂, hid₂, hf₂⟩ := (hlab.relabelled L).kept l₁ hl₁ (hid₁ ▸ hid)
      exact ⟨l₂, hl₂, hid₂.trans hid₁, hf₂.trans hf₁⟩

/-- Every non-orphan was declared by a call, for its level and its first key, and carries
    the address of the call; the first key of a node that is not leftmost is, in every
    later state, what it was. -/
theorem faithful_of_run (h : (Threads.machine cfg).Run (Threads.Guard cfg) tr₁ t₁)
    (h' : Trace ((Threads.machine cfg).Step (Threads.Guard cfg)) t₁ tr₂ t₂) (L : ℕ)
    (hL : L < cfg.layers) :
    (∀ l ∈ t₂.cache.labels L, l.orphan = false →
      ∃ m, l.first = some m ∧ ∃ c, .call c ∈ tr₂ ++ tr₁ ∧ c.Declares L m l.remoteAddr) ∧
    ∀ l ∈ (t₁.cache.labels L).tail, (∃ l' ∈ t₂.cache.labels L, l'.id = l.id) ∧
      ∀ l' ∈ t₂.cache.labels L, l'.id = l.id → l'.first = l.first := by
  refine ⟨(Faithful.run (h.append h')).declared L, fun l hl => ?_⟩
  have hid := (Parented.run h).ok.ne_head_of_tail hL hl
  obtain ⟨l₂, hl₂, hid₂, hf₂⟩ := kept_of_run h h' L l (List.mem_of_mem_tail hl) hid
  refine ⟨⟨l₂, hl₂, hid₂⟩, fun l' hl' hid' => ?_⟩
  have hnodup := (Parented.run (h.append h')).ok.nodup_labels hL
  rw [List.inj_on_of_nodup_map hnodup hl' hl₂ (hid'.trans hid₂.symm), hf₂]

theorem faithful_interleaved : ∃ (tr₁ tr₂ : List (Threads.Action ℕ ℕ)) (t₁ t₂ : Threads ℕ ℕ),
    (Threads.machine Config.small).Run (Threads.Guard Config.small) tr₁ t₁ ∧
      Trace ((Threads.machine Config.small).Step (Threads.Guard Config.small)) t₁ tr₂ t₂ ∧
      (tr₁.length = 10 ∧ tr₂.length = 5) ∧
      (∀ l ∈ t₂.cache.labels 1, l.orphan = false →
        ∃ m, l.first = some m ∧ ∃ c, .call c ∈ tr₂ ++ tr₁ ∧ c.Declares 1 m l.remoteAddr) ∧
      ∀ l ∈ (t₁.cache.labels 1).tail, (∃ l' ∈ t₂.cache.labels 1, l'.id = l.id) ∧
        ∀ l' ∈ t₂.cache.labels 1, l'.id = l.id → l'.first = l.first := by
  obtain ⟨tr, t, h, ht⟩ := Machine.exists_run_of_play (G := Threads.Guard Config.small)
    (m := Threads.machine (K := ℕ) (A := ℕ) Config.small) (fun p => p.1.length) interleaved
    (b := 15) (by decide +kernel)
  rw [← List.take_append_drop 5 tr] at h
  obtain ⟨t₁, h₁, h₂⟩ := Trace.of_append h
  refine ⟨tr.drop 5, tr.take 5, t₁, t, h₁, h₂, ?_, faithful_of_run h₁ h₂ 1 (by decide)⟩
  dsimp only at ht
  rw [List.length_drop, List.length_take, ht]
  exact ⟨rfl, rfl⟩

end DiscoSkip.SkipVector
