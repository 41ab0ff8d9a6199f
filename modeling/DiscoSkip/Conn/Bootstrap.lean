import DiscoSkip.Conn.Schedule

/-!
# The processes together
-/

namespace DiscoSkip.Exchange

variable {D : Deployment} {p q n : ℕ} {t : Topic} {pr : Process} {op : Op} {todo : List Op}

/-! ## Where a process is in its script -/

theorem Deployment.mem_script : op ∈ D.script p n ↔ op.call ∈ D.calls (D.isClient p) ∧
    ∀ q ∈ op.remote, q ∈ D.ids p n op.call := by
  rw [script, List.mem_flatMap]
  constructor
  · rintro ⟨c, hc, hop⟩
    obtain ⟨rfl, hq⟩ := mem_ops.1 hop
    exact ⟨hc, hq⟩
  · rintro ⟨hc, hq⟩
    exact ⟨_, hc, mem_ops.2 ⟨rfl, hq⟩⟩

section Script

variable (h : Ordered D.calls)

include h

theorem Ordered.sorted_script (p n : ℕ) :
    (D.script p n).Pairwise fun x y => stage D.calls x.call ≤ stage D.calls y.call := by
  rw [Deployment.script, List.pairwise_flatMap]
  refine ⟨fun c _ => ?_, (h.sorted _).imp fun hlt x hx y hy => ?_⟩
  · refine List.pairwise_of_forall_mem_list fun x hx y hy => ?_
    rw [(mem_ops.1 hx).1, (mem_ops.1 hy).1]
  · rw [(mem_ops.1 hx).1, (mem_ops.1 hy).1]
    exact hlt.le

theorem Ordered.nodup_script (p n : ℕ) : (D.script p n).Nodup := by
  rw [Deployment.script, List.Nodup, List.pairwise_flatMap]
  refine ⟨fun c _ => nodup_ops (D.nodup_ids p n c), (h.sorted _).imp fun hlt x hx y hy => ?_⟩
  rintro rfl
  rw [← (mem_ops.1 hx).1, ← (mem_ops.1 hy).1] at hlt
  exact hlt.false

theorem Ordered.stage_lt (hop : op ∈ D.script p n) :
    stage D.calls op.call < (D.calls true).length :=
  List.idxOf_lt_length_of_mem (h.mem_true (Deployment.mem_script.1 hop).1)

end Script

/-- The stage of a process, which is that of its next step. -/
def Process.stage (D : Deployment) (pr : Process) : ℕ :=
  match pr.todo with
  | [] => (D.calls true).length
  | op :: _ => Exchange.stage D.calls op.call

/-- A process goes through the stages of one run after the other. -/
def Process.time (D : Deployment) (pr : Process) : Time := toLex (pr.round, pr.stage D)

section Suffix

variable (h : Ordered D.calls) (hs : op :: todo <:+ D.script p n) {x : Op}

include h hs

/-- A step is made once in a run. -/
theorem not_mem_rest : op ∉ todo := by
  have hnodup := (h.nodup_script p n).sublist hs.sublist
  exact (List.nodup_cons.1 hnodup).1

/-- What is left of a script is in the same stage as the next step, or in a later one, -/
theorem first_le (hx : x ∈ op :: todo) : stage D.calls op.call ≤ stage D.calls x.call := by
  have hsorted := (h.sorted_script p n).sublist hs.sublist
  rcases List.mem_cons.1 hx with rfl | hx
  · exact le_rfl
  · exact (List.pairwise_cons.1 hsorted).1 x hx

/-- and all later steps are left. -/
theorem mem_rest (hx : x ∈ D.script p n) (hlt : stage D.calls op.call < stage D.calls x.call) :
    x ∈ todo := by
  obtain ⟨past, hpast⟩ := hs
  have hsorted := h.sorted_script p n
  rw [← hpast, List.pairwise_append] at hsorted
  rw [← hpast] at hx
  rcases List.mem_append.1 hx with hmem | hmem
  · exact absurd hlt (hsorted.2.2 x hmem op List.mem_cons_self).not_gt
  · refine (List.mem_cons.1 hmem).resolve_left ?_
    rintro rfl
    exact hlt.false

end Suffix

theorem Process.stage_le (h : Ordered D.calls) (hs : pr.todo <:+ D.script p n)
    (hop : op ∈ pr.todo) : pr.stage D ≤ Exchange.stage D.calls op.call := by
  rw [Process.stage]
  cases htodo : pr.todo with
  | nil => exact absurd (htodo ▸ hop) List.not_mem_nil
  | cons x rest => exact first_le h (htodo ▸ hs) (htodo ▸ hop)

theorem Process.mem_todo (h : Ordered D.calls) (hs : pr.todo <:+ D.script p n)
    (hop : op ∈ D.script p n) (hlt : pr.stage D < Exchange.stage D.calls op.call) :
    op ∈ pr.todo := by
  rw [Process.stage] at hlt
  cases htodo : pr.todo with
  | nil =>
    rw [htodo] at hlt
    exact absurd hlt (h.stage_lt hop).not_gt
  | cons x rest =>
    rw [htodo] at hlt
    exact List.mem_cons_of_mem _ (mem_rest h (htodo ▸ hs) hop hlt)

/-! ## What a process keeps in the registry -/

namespace Key

/-- The step that sets the key. -/
def raise : Key → Op
  | .announce t _ q => .announce t q
  | .ready t _ r => .announceReady t r

/-- The step that removes the key. -/
def lower : Key → Op
  | .announce t _ q => .unannounce t q
  | .ready t _ r => .unannounceReady t r

/-- What the key is set to in a run of the process. -/
def value (D : Deployment) (round : ℕ) : Key → String
  | .announce t p q => (D.info round t p q).serialize
  | .ready _ _ r => RcConnectionExchanger.packedReason r.str

/-- Whether the key is only removed in the next run. -/
def Carried (D : Deployment) (k : Key) : Prop :=
  stage D.calls k.lower.call < stage D.calls k.raise.call

instance (D : Deployment) : DecidablePred (Carried D) := fun k =>
  inferInstanceAs (Decidable (stage D.calls k.lower.call < stage D.calls k.raise.call))

theorem raise_ne_lower (k k' : Key) : k.raise ≠ k'.lower := by
  cases k <;> cases k' <;> exact nofun

/-- The keys of a process are told apart by the steps that set them, or remove them. -/
theorem eq_of_raise {k k' : Key} (ho : k.owner = k'.owner) (hr : k.raise = k'.raise) : k = k' := by
  cases k <;> cases k' <;> cases hr <;> cases ho <;> rfl

theorem eq_of_lower {k k' : Key} (ho : k.owner = k'.owner) (hl : k.lower = k'.lower) : k = k' := by
  cases k <;> cases k' <;> cases hl <;> cases ho <;> rfl

theorem value_ne_empty (D : Deployment) (round : ℕ) (k : Key) : k.value D round ≠ "" := by
  intro h
  have := congrArg String.toList h
  cases k <;>
    simp [value, RemoteConnectionInfo.serialize, RcConnectionExchanger.packedReason] at this

variable (h : Ordered D.calls) (k : Key)

include h

theorem announce_not_carried (t : Topic) (p q : ℕ) : ¬Carried D (.announce t p q) :=
  (h.announce t).2.not_gt

theorem raise_mem_iff : k.raise ∈ D.script p n ↔ k.lower ∈ D.script p n := by
  have hcall : k.raise.call ∈ D.calls true ↔ k.lower.call ∈ D.calls true := by
    cases k with
    | announce t => exact (h.announce t).1
    | ready t _ r => exact h.ready t r
  have hb : ∀ op : Op, op = k.raise ∨ op = k.lower →
      (op.call ∈ D.calls (D.isClient p) ↔ op.call ∈ D.calls true) := by
    intro op hop
    refine ⟨h.mem_true, fun hmem => h.mem_calls hmem ?_ _⟩
    cases k <;> rcases hop with rfl | rfl <;> rfl
  rw [Deployment.mem_script, Deployment.mem_script, hb _ (.inl rfl), hb _ (.inr rfl), hcall]
  cases k <;> rfl

/-- What is carried is set by every process. -/
theorem raise_mem_of_carried (hc : k.Carried D) (p : ℕ) : k.raise ∈ D.script p n := by
  cases k with
  | announce t p' q => exact absurd hc (announce_not_carried h t p' q)
  | ready t p' r =>
    have hlower : ⟨t, .unannounceReady r⟩ ∈ D.calls true :=
      List.idxOf_lt_length_iff.1 (hc.trans_le List.idxOf_le_length)
    exact Deployment.mem_script.2
      ⟨h.mem_calls ((h.ready t r).2 hlower) rfl _, nofun⟩

theorem stage_ne (hmem : k.raise ∈ D.script p n) :
    stage D.calls k.raise.call ≠ stage D.calls k.lower.call := by
  intro heq
  have hcall := (List.idxOf_inj (h.mem_true (Deployment.mem_script.1 hmem).1)).1 heq
  cases k <;> simp [raise, lower, Op.call] at hcall

end Key

/-- Whether a key of the process is set. -/
def Process.Up (D : Deployment) (pr : Process) (k : Key) : Prop :=
  if k.Carried D then (0 < pr.round ∧ k.raise ∉ pr.todo) ∨ (1 < pr.round ∧ k.lower ∈ pr.todo)
  else k.raise ∉ pr.todo ∧ k.lower ∈ pr.todo

instance (D : Deployment) (pr : Process) : DecidablePred (pr.Up D) := fun k => by
  unfold Process.Up
  infer_instance

/-- What is in the registry under a key of the process. -/
def Process.content (D : Deployment) (pr : Process) (k : Key) : Option String :=
  if pr.Up D k then some (k.value D pr.round) else none

section Up

variable (h : Ordered D.calls) (k : Key) (hs : op :: todo <:+ D.script p n)

include h hs

/-- After a key has been set it is removed, in this run or in the next one. -/
theorem Key.lower_mem (hop : op = k.raise) : k.lower ∈ todo ↔ ¬k.Carried D := by
  have hmem : k.raise ∈ D.script p n := hop ▸ hs.subset List.mem_cons_self
  have hne := k.stage_ne h hmem
  subst hop
  rw [Key.Carried, not_lt]
  exact ⟨fun hl => first_le h hs (List.mem_cons_of_mem _ hl), fun hle =>
    mem_rest h hs ((k.raise_mem_iff h).1 hmem) (hle.lt_of_ne hne)⟩

/-- A key is free when it is set. -/
theorem Process.not_up_of_raise (hop : op = k.raise) (hpr : pr.todo = op :: todo) :
    ¬pr.Up D k := by
  have hraise : k.raise ∈ pr.todo := hpr ▸ hop ▸ List.mem_cons_self
  rw [Process.Up]
  split
  · next hc =>
    rintro (⟨_, hr⟩ | ⟨_, hl⟩)
    · exact hr hraise
    · rw [hpr, List.mem_cons] at hl
      rcases hl with hl | hl
      · exact k.raise_ne_lower k (hop.symm.trans hl.symm)
      · exact (Key.lower_mem h k hs hop).1 hl hc
  · exact fun hup => hup.1 hraise

theorem Process.up_of_raise (hop : op = k.raise) (hround : 0 < pr.round) (hpr : pr.todo = todo) :
    pr.Up D k := by
  have hraise : k.raise ∉ pr.todo := hpr ▸ hop ▸ not_mem_rest h hs
  rw [Process.Up]
  split
  · exact .inl ⟨hround, hraise⟩
  · next hc => exact ⟨hraise, hpr ▸ (Key.lower_mem h k hs hop).2 hc⟩

theorem Process.not_up_of_lower (hop : op = k.lower) (hpr : pr.todo = todo) : ¬pr.Up D k := by
  have hlower : k.lower ∉ pr.todo := hpr ▸ hop ▸ not_mem_rest h hs
  rw [Process.Up]
  split
  · next hc =>
    rintro (⟨_, hr⟩ | ⟨_, hl⟩)
    · -- what is carried is set later in the run
      have hmem := (k.raise_mem_iff h).2 (hop ▸ hs.subset List.mem_cons_self)
      exact hr (hpr ▸ mem_rest h hs hmem (hop ▸ hc))
    · exact hlower hl
  · exact fun hup => hlower hup.2

end Up

/-- The other keys of the process stay. -/
theorem Process.up_of_ne {pr' : Process} {k : Key} (hr : op ≠ k.raise) (hl : op ≠ k.lower)
    (hpr : pr.todo = op :: pr'.todo) (hround : pr'.round = pr.round) : pr'.Up D k ↔ pr.Up D k := by
  rw [Process.Up, Process.Up, hpr, hround]
  simp only [List.mem_cons, Ne.symm hr, Ne.symm hl, false_or]

/-! ## What the workers say -/

/-- The worker with a number. -/
def Deployment.worker (D : Deployment) (w : ℕ) : ℕ := D.num_servers + 1 + w

/-- A worker only says that it is done in a run with `--ml`. -/
theorem Deployment.of_workerDone {w : ℕ} (hop : .workerDone w ∈ D.script p n) :
    p = D.worker w ∧ w ≠ 0 ∧ D.run_ml_workload n := by
  have hw : w ∈ D.ids p n ⟨.qp, .workerDone⟩ := (mem_script.1 hop).2 w rfl
  change w ∈ ite _ _ _ at hw
  split at hw
  · next hids =>
    obtain rfl := List.mem_singleton.1 hw
    refine ⟨?_, hids.2, hids.1⟩
    have hne := hids.2
    rw [global_thread_id] at hne
    rw [worker, global_thread_id]
    omega
  · exact absurd hw List.not_mem_nil

theorem Deployment.program_of_workerDone {w : ℕ} (hop : .workerDone w ∈ D.script p n) :
    D.program = .discoSkip := by
  have hcall : ⟨.qp, .workerDone⟩ ∈ D.program.calls (D.isClient p) := (mem_script.1 hop).1
  revert hcall
  cases D.program <;> cases D.isClient p <;> decide

/-- At most one of the runs of `disco-skip` is one with `--ml`. -/
def Deployment.MlOnce (D : Deployment) : Prop :=
  D.program = .discoSkip → ∀ n n', D.run_ml_workload n → D.run_ml_workload n' → n = n'

/-- Whether a worker has said that it is done, in an earlier run or in this one. -/
def Process.Signalled (D : Deployment) (pr : Process) (p w : ℕ) : Prop :=
  (∃ n, 0 < n ∧ n < pr.round ∧ .workerDone w ∈ D.script p n) ∨
    0 < pr.round ∧ .workerDone w ∈ D.script p pr.round ∧ .workerDone w ∉ pr.todo

theorem Process.signalled_of_ne {pr' : Process} {w : ℕ} (hop : op ≠ .workerDone w)
    (hpr : pr.todo = op :: pr'.todo) (hround : pr'.round = pr.round) :
    pr'.Signalled D p w ↔ pr.Signalled D p w := by
  rw [Signalled, Signalled, hpr, hround]
  simp only [List.mem_cons, hop.symm, false_or]

theorem Process.signalled_start {pr' : Process} {w : ℕ} (hpr : pr.todo = [])
    (htodo : pr'.todo = D.script p pr'.round) (hr : pr'.round = pr.round + 1) :
    pr'.Signalled D p w ↔ pr.Signalled D p w := by
  constructor
  · rintro (⟨n, hpos, hlt, hop⟩ | ⟨-, hop, hno⟩)
    · rw [hr, Nat.lt_succ_iff_lt_or_eq] at hlt
      rcases hlt with hlt | rfl
      · exact .inl ⟨n, hpos, hlt, hop⟩
      · exact .inr ⟨hpos, hop, hpr ▸ List.not_mem_nil⟩
    · exact absurd (htodo ▸ hop) hno
  · rintro (⟨n, hpos, hlt, hop⟩ | ⟨hpos, hop, -⟩)
    · exact .inl ⟨n, hpos, hr ▸ hlt.trans (Nat.lt_succ_self _), hop⟩
    · exact .inl ⟨_, hpos, hr ▸ Nat.lt_succ_self _, hop⟩

/-! ## The steps -/

/-- What a step that is done has done to the registry and to the queue pairs of the process. -/
inductive Effect (D : Deployment) (p : ℕ) (pr : Process) (memc : Memc) :
    Op → Memc → (Topic → ℕ → Option Rc) → Prop
  | construct (t : Topic) : Effect D p pr memc (.construct t) memc pr.rcs
  | configure (t : Topic) (q : ℕ) :
      Effect D p pr memc (.configure t q) memc (pr.setRc t q .configured)
  | raise (k : Key) (hk : k.owner = p) : Effect D p pr memc k.raise
      (Function.update memc k.name (some (k.value D pr.round))) pr.rcs
  | lower (k : Key) (hk : k.owner = p) :
      Effect D p pr memc k.lower (Function.update memc k.name none) pr.rcs
  /-- A process that has waited for another one has found its key. -/
  | wait (t : Topic) (q : ℕ) (r : Reason) (hup : memc (Key.ready t q r).name ≠ none) :
      Effect D p pr memc (.waitReady t q r) memc pr.rcs
  | connect (t : Topic) (q : ℕ) (v : String) (hv : memc (Key.announce t q p).name = some v) :
      Effect D p pr memc (.connect t q) memc
        (pr.setRc t q (.connected (RemoteConnectionInfo.fromStr v)))
  | signal (w : ℕ) : Effect D p pr memc (.workerDone w)
      (Function.update memc (workerDoneName w) (some "1")) pr.rcs
  /-- The tracker has seen that one more worker is done. -/
  | see (i : ℕ) : Effect D p pr memc (.awaitWorker i) memc pr.rcs

variable {memc memc' : Memc} {rcs : Topic → ℕ → Option Rc}

/-- A `set` that has made its checks sets; one that has not makes them, or throws. -/
theorem Process.set_cases (key value : String) :
    pr.set memc key value = .next (Function.update memc key (some value)) pr.rcs ∨
      pr.checked = false ∧ pr.set memc key value = .checked ∨
      ∃ msg, pr.set memc key value = .throws msg := by
  rw [Process.set]
  split
  · exact .inl rfl
  · next hno =>
    split
    · exact .inr (.inr ⟨_, rfl⟩)
    · exact .inr (.inl ⟨Bool.eq_false_iff.2 hno, rfl⟩)

theorem Process.set_next {key value : String} (h : pr.set memc key value = .next memc' rcs) :
    memc' = Function.update memc key (some value) ∧ rcs = pr.rcs := by
  rcases pr.set_cases key value with heq | ⟨_, heq⟩ | ⟨msg, heq⟩ <;> rw [heq] at h
  · injection h with h₁ h₂
    exact ⟨h₁.symm, h₂.symm⟩
  · cases h
  · cases h

/-- A `remove` is done at once, or throws. -/
theorem Process.remove_cases (key : String) :
    pr.remove memc key = .next (Function.update memc key none) pr.rcs ∨
      ∃ msg, pr.remove memc key = .throws msg := by
  rw [Process.remove, MemoryStore.remove]
  split
  · next heq =>
    split at heq
    · exact .inr ⟨_, rfl⟩
    · cases heq
  · next heq =>
    split at heq
    · cases heq
    · cases heq
      exact .inl rfl

theorem Process.remove_eq {key : String} (hne : key ≠ "") :
    pr.remove memc key = .next (Function.update memc key none) pr.rcs := by
  rw [Process.remove, MemoryStore.remove, if_neg hne]

/-- Where there is no queue pair configured, nothing is done but throw. -/
theorem Process.ifConfigured_cases (t : Topic) (q : ℕ) (o : Outcome) :
    pr.ifConfigured t q o = o ∨ ∃ msg, pr.ifConfigured t q o = .throws msg := by
  rw [Process.ifConfigured]
  split
  · exact .inr ⟨_, rfl⟩
  · exact .inl rfl

theorem Process.ifConfigured_next {o : Outcome} (h : pr.ifConfigured t q o = .next memc' rcs) :
    o = .next memc' rcs := by
  rcases pr.ifConfigured_cases t q o with heq | ⟨msg, heq⟩ <;> rw [heq] at h
  · exact h
  · cases h

theorem MemoryStore.get_eq {key : String} (hne : key ≠ "") :
    MemoryStore.get memc key = .ok (memc key) := if_neg hne

theorem Op.effect (h : op.run D p pr memc = .next memc' rcs) :
    Effect D p pr memc op memc' rcs := by
  cases op with
  | construct t =>
    rw [Op.run] at h
    split at h
    · exact absurd h nofun
    · injection h with h₁ h₂
      exact h₁ ▸ h₂ ▸ .construct t
  | configure t q =>
    rw [Op.run] at h
    split at h
    · exact absurd h nofun
    · injection h with h₁ h₂
      exact h₁ ▸ h₂ ▸ .configure t q
  | announce t q =>
    obtain ⟨rfl, rfl⟩ := Process.set_next (Process.ifConfigured_next h)
    rw [Key.announceName_eq]
    exact .raise (.announce t p q) rfl
  | announceReady t r =>
    obtain ⟨rfl, rfl⟩ := Process.set_next h
    rw [Key.readyName_eq]
    exact .raise (.ready t p r) rfl
  | waitReady t q r =>
    rw [Op.run, Key.waitName_eq, MemoryStore.get_eq (Key.name_ne_empty _)] at h
    split at h
    · exact absurd h nofun
    · exact absurd h nofun
    · next value hget =>
      split at h
      · exact absurd h nofun
      · injection h with h₁ h₂
        refine h₁ ▸ h₂ ▸ .wait t q r fun hnone => ?_
        rw [hnone] at hget
        injection hget with hget
        exact absurd hget nofun
  | unannounceReady t r =>
    rw [Op.run, Key.readyName_eq, Process.remove_eq (Key.name_ne_empty _)] at h
    injection h with h₁ h₂
    exact h₁ ▸ h₂ ▸ .lower (.ready t p r) rfl
  | connect t q =>
    have h := Process.ifConfigured_next h
    rw [Key.connectName_eq, MemoryStore.get_eq (Key.name_ne_empty _)] at h
    split at h
    · exact absurd h nofun
    · exact absurd h nofun
    · next v hget =>
      injection h with h₁ h₂
      injection hget with hget
      exact h₁ ▸ h₂ ▸ .connect t q v hget
  | unannounce t q =>
    have h := Process.ifConfigured_next h
    rw [Key.announceName_eq, Process.remove_eq (Key.name_ne_empty _)] at h
    injection h with h₁ h₂
    exact h₁ ▸ h₂ ▸ .lower (.announce t p q) rfl
  | workerDone w =>
    obtain ⟨rfl, rfl⟩ := Process.set_next h
    exact .signal w
  | awaitWorker i =>
    rw [Op.run] at h
    split at h
    · injection h with h₁ h₂
      exact h₁ ▸ h₂ ▸ .see i
    · split at h <;> exact absurd h nofun

/-! ## The invariant -/

/-- What holds of a process by itself. -/
structure Process.Ok (D : Deployment) (p : ℕ) (pr : Process) : Prop where
  /-- It has yet to do the end of its script, and nothing before it is started. -/
  suffix : pr.todo <:+ D.script p pr.round
  fresh : pr.round = 0 → pr.todo = []
  proc : 0 < pr.round → D.Proc p
  error : pr.error = none
  unseen : ∀ w ∈ pr.unseen, w ∈ List.range' 1 (D.num_clients - 1)
  /-- Its queue pairs are configured by the step for it, and connected by the step for it
      to those of the same run of the other process. -/
  configured : ∀ t, ∀ q ∈ D.remote_ids p t, ⟨t, .configureAll⟩ ∈ D.calls true → 0 < pr.round →
    (pr.rcs t q = none ↔ .configure t q ∈ pr.todo)
  connected : ∀ t, ∀ q ∈ D.remote_ids p t, ⟨t, .connectAll⟩ ∈ D.calls true → 0 < pr.round →
    .connect t q ∉ pr.todo → pr.rcs t q = some (.connected (some (D.info pr.round t q p)))
  right : ∀ t q rc, pr.rcs t q = some (.connected rc) → rc = some (D.info pr.round t q p)

/-- What holds of all the processes and the registry. -/
structure State.Inv (D : Deployment) (h : Ordered D.calls) (s : State) : Prop where
  ok : ∀ p, (s.procs p).Ok D p
  /-- What is in the registry depends on where its owner is. -/
  content : ∀ k : Key, s.memc k.name = (s.procs k.owner).content D k
  workers : ∀ w, s.memc (workerDoneName w) ≠ none ↔
    (s.procs (D.worker w)).Signalled D (D.worker w) w
  kept : (D.barriers h).Kept fun p => (s.procs p).time D
  /-- A process has waited for some of the others already. -/
  waited : ∀ i ∈ flags D.calls, ∀ p q, D.WaitsFor i p q →
    (s.procs p).stage D = awaitStage D.calls i → .waitReady i.1 q i.2 ∉ (s.procs p).todo →
    toLex ((s.procs p).round, raiseStage D.calls i) < (s.procs q).time D

/-- A time between two stages of a run. -/
theorem round_eq_of_between {a x y R st : ℕ} (hlt : (toLex (a, x) : Time) < toLex (R, st))
    (hle : (toLex (R, st) : Time) ≤ toLex (a, y)) : R = a ∧ x < st ∧ st ≤ y := by
  rw [Prod.Lex.lt_iff] at hlt
  rw [Prod.Lex.le_iff] at hle
  simp only [ofLex_toLex] at hlt hle
  omega

/-- A step for which there is no other one in the same stage. -/
theorem Op.eq_of_call {x : Op} (hr : op.remote = none) (hx : x.call = op.call) : x = op := by
  cases op <;> cases x <;> simp_all [Op.call, Op.remote]

theorem Process.mem_todo_iff (h : Ordered D.calls) (hs : pr.todo <:+ D.script p n)
    (hop : op ∈ D.script p n) (hr : op.remote = none) :
    op ∈ pr.todo ↔ pr.stage D ≤ Exchange.stage D.calls op.call := by
  refine ⟨Process.stage_le h hs, fun hle => ?_⟩
  rcases hle.lt_or_eq with hlt | heq
  · exact Process.mem_todo h hs hop hlt
  rw [Process.stage] at heq
  cases htodo : pr.todo with
  | nil =>
    rw [htodo] at heq
    exact absurd (h.stage_lt hop) heq.not_gt
  | cons x rest =>
    rw [htodo] at heq
    have hx : x ∈ D.script p n := hs.subset (htodo ▸ List.mem_cons_self)
    have hcall := (List.idxOf_inj (h.mem_true (Deployment.mem_script.1 hx).1)).1 heq
    exact Op.eq_of_call hr hcall ▸ List.mem_cons_self

section Flags

variable (h : Ordered D.calls) {i : Topic × Reason} (hi : i ∈ flags D.calls)

include h hi

theorem Ordered.raise_mem (p n : ℕ) : .announceReady i.1 i.2 ∈ D.script p n :=
  Deployment.mem_script.2 ⟨h.mem_calls (h.raise_lt i hi).1 rfl _, nofun⟩

/-- The flags of the barriers are the keys in the registry. -/
theorem Process.Ok.up_iff (hok : pr.Ok D p) :
    pr.Up D (.ready i.1 p i.2) ↔ ((D.barriers h).barrier ⟨i, hi⟩).Up (pr.time D) := by
  have hraise := h.raise_mem hi p pr.round
  have hlower := ((Key.ready i.1 p i.2).raise_mem_iff h).1 hraise
  have hr := Process.mem_todo_iff h hok.suffix hraise rfl
  have hl := Process.mem_todo_iff h hok.suffix hlower rfl
  have hround : .unannounceReady i.1 i.2 ∈ pr.todo → 0 < pr.round := by
    intro hmem
    refine Nat.pos_of_ne_zero fun h0 => ?_
    rw [hok.fresh h0] at hmem
    exact List.not_mem_nil hmem
  rw [Process.Up, Lib.Barrier.Up]
  simp only [Deployment.barriers, Process.time, Prod.Lex.lt_iff, Prod.Lex.le_iff, ofLex_toLex,
    carry, Key.Carried]
  change (if lowerStage D.calls i < raiseStage D.calls i then
      0 < pr.round ∧ .announceReady i.1 i.2 ∉ pr.todo ∨
        1 < pr.round ∧ .unannounceReady i.1 i.2 ∈ pr.todo
    else .announceReady i.1 i.2 ∉ pr.todo ∧ .unannounceReady i.1 i.2 ∈ pr.todo) ↔ _
  change .announceReady i.1 i.2 ∈ pr.todo ↔ pr.stage D ≤ raiseStage D.calls i at hr
  change .unannounceReady i.1 i.2 ∈ pr.todo ↔ pr.stage D ≤ lowerStage D.calls i at hl
  rw [hr, hl]
  rw [hl] at hround
  by_cases hc : lowerStage D.calls i < raiseStage D.calls i
  · rw [if_pos hc, if_pos hc]
    constructor
    · rintro (⟨hpos, hgt⟩ | ⟨hpos, hle⟩)
      · exact ⟨pr.round - 1, by omega, by omega⟩
      · exact ⟨pr.round - 2, by omega, by omega⟩
    · rintro ⟨r, hlt, hle⟩
      omega
  · rw [if_neg hc, if_neg hc]
    constructor
    · rintro ⟨hgt, hle⟩
      have := hround hle
      exact ⟨pr.round - 1, by omega, by omega⟩
    · rintro ⟨r, hlt, hle⟩
      omega

end Flags

namespace State.Inv

variable {h : Ordered D.calls} {s : State}

/-- A process that has waited for another one, which waits for it later, is in the same run,
    between the two barriers. -/
theorem same_round (hinv : s.Inv D h) {i j : Topic × Reason} (hi : i ∈ flags D.calls)
    (hj : j ∈ flags D.calls) (hpq : D.WaitsFor i p q) (hqp : D.WaitsFor j q p)
    (hround : 0 < (s.procs p).round) (hpast : awaitStage D.calls i < (s.procs p).stage D)
    (hle : (s.procs p).stage D ≤ raiseStage D.calls j) :
    (s.procs q).round = (s.procs p).round ∧ raiseStage D.calls i < (s.procs q).stage D ∧
      (s.procs q).stage D ≤ awaitStage D.calls j := by
  obtain ⟨r, hr⟩ := Nat.exists_eq_succ_of_ne_zero hround.ne'
  have hlt := hinv.kept ⟨i, hi⟩ p q hpq r
    (Prod.Lex.lt_iff.2 (.inr ⟨hr.symm, hpast⟩))
  have hqp : (D.barriers h).WaitsFor ⟨j, hj⟩ q p := hqp
  have hraise : (s.procs p).time D ≤ ((D.barriers h).barrier ⟨j, hj⟩).raise r :=
    Prod.Lex.le_iff.2 (.inr ⟨hr, hle⟩)
  have hle := hinv.kept.le_await hqp hraise
  rw [hr]
  exact round_eq_of_between hlt hle

/-- While a process connects to another one, that has announced its queue pair. -/
theorem announced (hinv : s.Inv D h) (hround : 0 < (s.procs p).round)
    (hq : q ∈ D.remote_ids p t) (hc : ⟨t, .connectAll⟩ ∈ D.calls true)
    (hst : (s.procs p).stage D = Exchange.stage D.calls ⟨t, .connectAll⟩) :
    (s.procs q).content D (.announce t q p) =
      some (D.info (s.procs p).round t q p).serialize := by
  obtain ⟨hprep, hconn, hann, hbefore, hpast, hle, hafter⟩ := h.connect t hc
  have hp := (hinv.ok p).proc hround
  obtain ⟨-, -, hp'⟩ := Deployment.remote_symm hp hq
  obtain ⟨heq, hlt, hle⟩ := hinv.same_round hprep hconn
    (Deployment.waitsFor h hprep nofun hp hq).1 (Deployment.waitsFor h hconn nofun hp hq).2 hround
    (hst ▸ hpast) (hst ▸ hle)
  have hmem : Op.unannounce t p ∈ D.script q (s.procs q).round := by
    refine Deployment.mem_script.2 ⟨h.mem_calls ((h.announce t).1.1 hann) rfl _, ?_⟩
    rintro _ ⟨⟩
    exact hp'
  have hraise : Op.announce t p ∉ (s.procs q).todo := fun hmem =>
    (Process.stage_le h (hinv.ok q).suffix hmem).not_gt (hbefore.trans hlt)
  have hlower := Process.mem_todo h (hinv.ok q).suffix hmem (hle.trans_lt hafter)
  rw [Process.content, if_pos, heq]
  · rfl
  · rw [Process.Up, if_neg (Key.announce_not_carried h t q p)]
    exact ⟨hraise, hlower⟩

end State.Inv

/-- There is somebody else to connect to. -/
theorem Deployment.checkIds_eq (hs : 0 < D.num_servers) (hc : 0 < D.num_clients) (hp : D.Proc p)
    (t : Topic) : (D.exchanger p t).checkIds = .ok () := by
  have hex : ∃ q, q ∈ D.remote_ids p t := by
    have hclient : ∀ q, D.isClient q = decide (D.num_servers < q) := fun _ => rfl
    obtain ⟨q, hq, hne⟩ : ∃ q, D.Proc q ∧ D.isClient q ≠ D.isClient p := by
      by_cases hcl : D.num_servers < p
      · refine ⟨1, ⟨le_rfl, ?_⟩, ?_⟩
        · exact hs.trans_le (Nat.le_add_left _ _)
        · rw [hclient, hclient, decide_eq_true hcl, decide_eq_false (Nat.not_lt.2 hs)]
          exact Bool.false_ne_true
      · refine ⟨D.num_servers + 1, ⟨Nat.le_add_left _ _, ?_⟩, ?_⟩
        · rw [num_proc]
          omega
        · rw [hclient, hclient, decide_eq_false hcl, decide_eq_true (Nat.lt_succ_self _)]
          exact Bool.false_ne_true.symm
    refine ⟨q, ?_⟩
    cases t with
    | qp => exact mem_remote_ids_qp.2 ⟨hq, fun heq => hne (heq ▸ rfl)⟩
    | race => exact (mem_remote_ids_race hp).2 ⟨hq, hne⟩
  obtain ⟨q, hq⟩ := hex
  rw [RcConnectionExchanger.checkIds]
  cases hids : (D.exchanger p t).remote_ids with
  | nil => exact absurd (hids ▸ hq : q ∈ []) List.not_mem_nil
  | cons id ids =>
    have hid : id ∈ D.remote_ids p t := by
      change id ∈ (D.exchanger p t).remote_ids
      rw [hids]
      exact List.mem_cons_self
    refine if_neg (Nat.not_lt.2 (le_min ?_ hp.1))
    exact (remote_symm hp hid).1.1

/-- A `set` does not throw if the key is free. -/
theorem Process.set_ok (pr : Process) {key value : String} (hk : key ≠ "") (hv : value ≠ "")
    (hfree : memc key = none) :
    pr.set memc key value = .checked ∨
      pr.set memc key value = .next (Function.update memc key (some value)) pr.rcs := by
  rw [Process.set]
  split
  · exact .inr rfl
  · rw [MemoryStore.setCheck, if_neg (not_or.2 ⟨hk, hv⟩), hfree]
    exact .inl rfl

/-- What comes of a step that does not throw. -/
inductive Outcome.Fine : Outcome → Prop
  | next (memc : Memc) (rcs : Topic → ℕ → Option Rc) : Fine (.next memc rcs)
  | checked : Fine .checked
  | retry : Fine .retry
  | seen (unseen : List ℕ) : Fine (.seen unseen)
  | notSeen (unseen : List ℕ) : Fine (.notSeen unseen)

theorem Process.set_fine {key value : String} (hk : key ≠ "") (hv : value ≠ "")
    (hfree : memc key = none) : (pr.set memc key value).Fine := by
  rcases pr.set_ok hk hv hfree with hset | hset <;> rw [hset] <;> constructor

theorem Process.ifConfigured_eq {o : Outcome} (hrc : pr.rcs t q ≠ none) :
    pr.ifConfigured t q o = o := by
  rw [Process.ifConfigured]
  split
  · next hnone => exact absurd hnone hrc
  · rfl

/-- The steps that need a queue pair find it. -/
theorem Process.Ok.rcs_ne (h : Ordered D.calls) (hok : pr.Ok D p) (hpr : pr.todo = op :: todo)
    (hround : 0 < pr.round) {m : Method} (hcall : op.call = ⟨t, m⟩) (hr : op.remote = some q)
    (hm : m ∈ [Method.announceAll, .connectAll, .unannounceAll]) : pr.rcs t q ≠ none := by
  have hop : op ∈ D.script p pr.round := hok.suffix.subset (hpr ▸ List.mem_cons_self)
  obtain ⟨hc, hq⟩ := Deployment.mem_script.1 hop
  rw [hcall] at hc hq
  obtain ⟨hmem, hlt⟩ := h.configure t m hm (h.mem_true hc)
  have hrem : q ∈ D.remote_ids p t := by
    simp only [List.mem_cons, List.not_mem_nil, or_false] at hm
    rcases hm with rfl | rfl | rfl <;> exact hq q hr
  rw [Ne, hok.configured t q hrem hmem hround]
  refine fun hconf => (Process.stage_le h hok.suffix hconf).not_gt ?_
  rw [Process.stage, hpr]
  change _ < Exchange.stage D.calls op.call
  rw [hcall]
  exact hlt

namespace State.Inv

variable {h : Ordered D.calls} {s : State}

theorem round_pos (hinv : s.Inv D h) (hpr : (s.procs p).todo = op :: todo) :
    0 < (s.procs p).round := by
  refine Nat.pos_of_ne_zero fun h0 => ?_
  rw [(hinv.ok p).fresh h0] at hpr
  exact absurd hpr nofun

/-- A key that is about to be set is free. -/
theorem free (hinv : s.Inv D h) (k : Key) (hpr : (s.procs k.owner).todo = k.raise :: todo) :
    s.memc k.name = none := by
  rw [hinv.content, Process.content, if_neg]
  exact Process.not_up_of_raise h k (hpr ▸ (hinv.ok _).suffix) rfl hpr

/-- The same for that of a worker, if the workload is only run once with `--ml`. -/
theorem free_worker (hinv : s.Inv D h) (honce : D.MlOnce) {w : ℕ}
    (hpr : (s.procs p).todo = .workerDone w :: todo) : s.memc (workerDoneName w) = none := by
  have hop : .workerDone w ∈ D.script p (s.procs p).round :=
    (hinv.ok p).suffix.subset (hpr ▸ List.mem_cons_self)
  obtain ⟨rfl, -, hml⟩ := Deployment.of_workerDone hop
  by_contra hset
  rcases (hinv.workers w).1 hset with ⟨n, -, hlt, hop'⟩ | ⟨-, -, hno⟩
  · exact hlt.ne (honce (Deployment.program_of_workerDone hop) _ _
      (Deployment.of_workerDone hop').2.2 hml)
  · exact hno (hpr ▸ List.mem_cons_self)

/-- No step of a process throws. -/
theorem fine (hinv : s.Inv D h) (hs : 0 < D.num_servers) (hc : 0 < D.num_clients)
    (honce : D.MlOnce) (hpr : (s.procs p).todo = op :: todo) :
    (op.run D p (s.procs p) s.memc).Fine := by
  have hround := hinv.round_pos hpr
  have hp := (hinv.ok p).proc hround
  have hop : op ∈ D.script p (s.procs p).round :=
    (hinv.ok p).suffix.subset (hpr ▸ List.mem_cons_self)
  obtain ⟨hcall, hrem⟩ := Deployment.mem_script.1 hop
  cases op with
  | construct t =>
    rw [Op.run, Deployment.checkIds_eq hs hc hp]
    constructor
  | configure t q =>
    have hrc : (s.procs p).rcs t q = none :=
      ((hinv.ok p).configured t q (hrem q rfl) (h.mem_true hcall) hround).2
        (hpr ▸ List.mem_cons_self)
    rw [Op.run, hrc]
    constructor
  | announce t q =>
    rw [Op.run, Process.ifConfigured_eq ((hinv.ok p).rcs_ne h hpr hround rfl rfl (by simp)),
      Key.announceName_eq]
    exact Process.set_fine (Key.name_ne_empty _) (Key.value_ne_empty D _ (.announce t p q))
      (hinv.free (.announce t p q) hpr)
  | announceReady t r =>
    rw [Op.run, Key.readyName_eq]
    exact Process.set_fine (Key.name_ne_empty _) (Key.value_ne_empty D 0 (.ready t p r))
      (hinv.free (.ready t p r) hpr)
  | waitReady t q r =>
    rw [Op.run, Key.waitName_eq, MemoryStore.get_eq (Key.name_ne_empty _), hinv.content,
      Process.content]
    by_cases hup : (s.procs (Key.ready t q r).owner).Up D (.ready t q r)
    · rw [if_pos hup]
      simp only [Key.value, ne_eq, not_true_eq_false, if_false]
      constructor
    · rw [if_neg hup]
      constructor
  | unannounceReady t r =>
    rw [Op.run, Key.readyName_eq, Process.remove_eq (Key.name_ne_empty _)]
    constructor
  | connect t q =>
    rw [Op.run, Process.ifConfigured_eq ((hinv.ok p).rcs_ne h hpr hround rfl rfl (by simp)),
      Key.connectName_eq, MemoryStore.get_eq (Key.name_ne_empty _), hinv.content]
    have hst : (s.procs p).stage D = Exchange.stage D.calls ⟨t, .connectAll⟩ := by
      rw [Process.stage, hpr]
      rfl
    have hann : (s.procs (Key.announce t q p).owner).content D (.announce t q p) = _ :=
      hinv.announced hround (hrem q rfl) (h.mem_true hcall) hst
    rw [hann]
    constructor
  | unannounce t q =>
    rw [Op.run, Process.ifConfigured_eq ((hinv.ok p).rcs_ne h hpr hround rfl rfl (by simp)),
      Key.announceName_eq, Process.remove_eq (Key.name_ne_empty _)]
    constructor
  | workerDone w =>
    exact Process.set_fine (workerDoneName_ne_empty w) (by decide) (hinv.free_worker honce hpr)
  | awaitWorker i =>
    rw [Op.run]
    split
    · constructor
    · rw [MemoryStore.get_eq (workerDoneName_ne_empty _)]
      split
      · next hget => exact absurd hget nofun
      · constructor
      · constructor

end State.Inv

/-! ## The invariant is kept -/

theorem Process.setRc_self {rc : Rc} : pr.setRc t q rc t q = some rc := if_pos ⟨rfl, rfl⟩

theorem Process.setRc_ne {u : Topic} {i : ℕ} {rc : Rc} (hne : ¬(u = t ∧ i = q)) :
    pr.setRc t q rc u i = pr.rcs u i := if_neg hne

/-- What a step does to the queue pairs of the process. -/
theorem Effect.rcs_cases (he : Effect D p pr memc op memc' rcs) (t : Topic) (q : ℕ) :
    (op = .configure t q ∧ rcs t q = some .configured) ∨
    (op = .connect t q ∧ ∃ v, memc (Key.announce t q p).name = some v ∧
      rcs t q = some (.connected (RemoteConnectionInfo.fromStr v))) ∨
    (op ≠ .configure t q ∧ op ≠ .connect t q ∧ rcs t q = pr.rcs t q) := by
  cases he with
  | construct => exact .inr (.inr ⟨nofun, nofun, rfl⟩)
  | wait | signal | see => exact .inr (.inr ⟨nofun, nofun, rfl⟩)
  | raise k => exact .inr (.inr ⟨by cases k <;> exact nofun, by cases k <;> exact nofun, rfl⟩)
  | lower k => exact .inr (.inr ⟨by cases k <;> exact nofun, by cases k <;> exact nofun, rfl⟩)
  | configure u i =>
    by_cases heq : t = u ∧ q = i
    · obtain ⟨rfl, rfl⟩ := heq
      exact .inl ⟨rfl, Process.setRc_self⟩
    · refine .inr (.inr ⟨fun hop => heq ?_, nofun, Process.setRc_ne heq⟩)
      injection hop with h₁ h₂
      exact ⟨h₁.symm, h₂.symm⟩
  | connect u i v hv =>
    by_cases heq : t = u ∧ q = i
    · obtain ⟨rfl, rfl⟩ := heq
      exact .inr (.inl ⟨rfl, v, hv, Process.setRc_self⟩)
    · refine .inr (.inr ⟨nofun, fun hop => heq ?_, Process.setRc_ne heq⟩)
      injection hop with h₁ h₂
      exact ⟨h₁.symm, h₂.symm⟩

theorem mem_script_remote (h : Ordered D.calls) (op : Op) {m : Method} (hcall : op.call = ⟨t, m⟩)
    (hrem : op.remote = some q) (hc : ⟨t, m⟩ ∈ D.calls true) (hq : q ∈ D.ids p n ⟨t, m⟩)
    (hm : m.clientsOnly = false) : op ∈ D.script p n := by
  refine Deployment.mem_script.2 ⟨hcall ▸ h.mem_calls hc hm _, ?_⟩
  rw [hrem, hcall]
  rintro _ ⟨⟩
  exact hq

/-- A step of the process that is done. -/
theorem Process.Ok.next (h : Ordered D.calls) (hok : pr.Ok D p) (hpr : pr.todo = op :: todo)
    (he : Effect D p pr memc op memc' rcs)
    (hann : ∀ t q, op = .connect t q →
      memc (Key.announce t q p).name = some (D.info pr.round t q p).serialize)
    {unseen : List ℕ} (hunseen : ∀ w ∈ unseen, w ∈ pr.unseen) :
    Ok D p { pr with todo := todo, checked := false, rcs := rcs, unseen := unseen } := by
  have hround : 0 < pr.round := by
    refine Nat.pos_of_ne_zero fun h0 => ?_
    rw [hok.fresh h0] at hpr
    exact absurd hpr nofun
  have hs : op :: todo <:+ D.script p pr.round := hpr ▸ hok.suffix
  have hrest := not_mem_rest h hs
  refine {
    suffix := (List.suffix_cons op todo).trans hs
    fresh h0 := absurd h0 hround.ne'
    proc := hok.proc
    error := hok.error
    unseen w hw := hok.unseen w (hunseen w hw)
    configured t q hq hc hpos := ?_
    connected t q hq hc hpos hmem := ?_
    right t q rc hrc := ?_ }
  · change rcs t q = none ↔ .configure t q ∈ todo
    have hold := hok.configured t q hq hc hpos
    rw [hpr] at hold
    rcases he.rcs_cases t q with ⟨rfl, hrcs⟩ | ⟨rfl, v, hv, hrcs⟩ | ⟨hne, -, hrcs⟩
    · exact iff_of_false (by rw [hrcs]; exact nofun) hrest
    · refine iff_of_false (by rw [hrcs]; exact nofun) fun hmem => ?_
      have hconn := (Deployment.mem_script.1 (hs.subset List.mem_cons_self)).1
      have hlt := (h.configure t .connectAll (by simp) (h.mem_true hconn)).2
      exact (first_le h hs (List.mem_cons_of_mem _ hmem)).not_gt hlt
    · rw [hrcs, hold, List.mem_cons, or_iff_right (Ne.symm hne)]
  · change rcs t q = some (.connected (some (D.info pr.round t q p)))
    rcases he.rcs_cases t q with ⟨rfl, hrcs⟩ | ⟨rfl, v, hv, hrcs⟩ | ⟨-, hne, hrcs⟩
    · -- a queue pair is not configured again after it has been connected
      have hlt := (h.configure t .connectAll (by simp) hc).2
      exact absurd (mem_rest h hs (mem_script_remote h (.connect t q) rfl rfl hc hq rfl) hlt) hmem
    · rw [hrcs, ← RemoteConnectionInfo.fromStr_serialize]
      rw [hann t q rfl, Option.some.injEq] at hv
      rw [hv]
    · rw [hrcs]
      refine hok.connected t q hq hc hpos ?_
      rw [hpr, List.mem_cons]
      exact not_or.2 ⟨Ne.symm hne, hmem⟩
  · change rcs t q = some (.connected rc) at hrc
    change rc = some (D.info pr.round t q p)
    rcases he.rcs_cases t q with ⟨rfl, hrcs⟩ | ⟨rfl, v, hv, hrcs⟩ | ⟨-, -, hrcs⟩
    · rw [hrcs] at hrc
      exact absurd hrc nofun
    · rw [hann t q rfl, Option.some.injEq] at hv
      rw [hrcs, ← hv, RemoteConnectionInfo.fromStr_serialize] at hrc
      injection hrc with hrc
      injection hrc with hrc
      exact hrc.symm
    · rw [hrcs] at hrc
      exact hok.right t q rc hrc

theorem Deployment.mem_awaited (D : Deployment) {w : ℕ} (hw : w ∈ D.ids p n ⟨.qp, .awaitWorkers⟩) :
    w ∈ List.range' 1 (D.num_clients - 1) := by
  change w ∈ ite _ _ _ at hw
  split at hw
  · exact hw
  · exact absurd hw List.not_mem_nil

/-- A process that is started. -/
theorem Process.Ok.start (h : Ordered D.calls) (hp : D.Proc p) (n : ℕ) :
    Ok D p (D.started p n) where
  suffix := List.suffix_rfl
  fresh h0 := absurd h0 (Nat.succ_ne_zero n)
  proc _ := hp
  error := rfl
  unseen _ hw := D.mem_awaited hw
  configured t q hq hc _ :=
    iff_of_true rfl (mem_script_remote h (.configure t q) rfl rfl hc hq rfl)
  connected t q hq hc _ hmem :=
    absurd (mem_script_remote h (.connect t q) rfl rfl hc hq rfl) hmem
  right _ _ _ hrc := absurd hrc nofun

/-- What a step does to the keys of the process, and that it leaves the others alone. -/
theorem Effect.content (h : Ordered D.calls) (hok : pr.Ok D p) (hpr : pr.todo = op :: todo)
    (hround : 0 < pr.round) (he : Effect D p pr memc op memc' rcs) (pr' : Process)
    (htodo : pr'.todo = todo) (hr : pr'.round = pr.round) (k : Key) :
    (k.owner ≠ p → memc' k.name = memc k.name) ∧
      (k.owner = p → memc k.name = pr.content D k → memc' k.name = pr'.content D k) := by
  have hs : op :: todo <:+ D.script p pr.round := hpr ▸ hok.suffix
  have hkeep : op ≠ k.raise → op ≠ k.lower → pr'.content D k = pr.content D k := by
    intro hraise hlower
    rw [Process.content, Process.content, hr]
    exact if_congr (Process.up_of_ne hraise hlower (htodo ▸ hpr) hr) rfl rfl
  have hother : ∀ k' : Key, k'.owner = p → k' ≠ k → k.owner = p →
      op = k'.raise ∨ op = k'.lower → op ≠ k.raise ∧ op ≠ k.lower := by
    rintro k' ho hne hk (rfl | rfl)
    · exact ⟨fun heq => hne (Key.eq_of_raise (ho.trans hk.symm) heq), k'.raise_ne_lower k⟩
    · exact ⟨(k.raise_ne_lower k').symm, fun heq => hne (Key.eq_of_lower (ho.trans hk.symm) heq)⟩
  cases he with
  | construct | configure | wait | connect | see =>
    refine ⟨fun _ => rfl, fun _ hc => hc.trans (hkeep ?_ ?_).symm⟩ <;> cases k <;> exact nofun
  | signal w =>
    rw [Function.update_of_ne (workerDoneName_ne w k).symm]
    refine ⟨fun _ => rfl, fun _ hc => hc.trans (hkeep ?_ ?_).symm⟩ <;> cases k <;> exact nofun
  | raise k' hk' =>
    by_cases heq : k' = k
    · subst heq
      refine ⟨fun hne => absurd hk' hne, fun _ _ => ?_⟩
      rw [Function.update_self, Process.content,
        if_pos (Process.up_of_raise h k' hs rfl (hr ▸ hround) htodo), hr]
    · rw [Function.update_of_ne fun hname => heq (Key.name_injective hname.symm)]
      refine ⟨fun _ => rfl, fun hk hc => hc.trans ?_⟩
      obtain ⟨hraise, hlower⟩ := hother k' hk' heq hk (.inl rfl)
      exact (hkeep hraise hlower).symm
  | lower k' hk' =>
    by_cases heq : k' = k
    · subst heq
      refine ⟨fun hne => absurd hk' hne, fun _ _ => ?_⟩
      rw [Function.update_self, Process.content, if_neg (Process.not_up_of_lower h k' hs rfl htodo)]
    · rw [Function.update_of_ne fun hname => heq (Key.name_injective hname.symm)]
      refine ⟨fun _ => rfl, fun hk hc => hc.trans ?_⟩
      obtain ⟨hraise, hlower⟩ := hother k' hk' heq hk (.inr rfl)
      exact (hkeep hraise hlower).symm

/-- What a step does to the key of a worker. -/
theorem Effect.workers (h : Ordered D.calls) (hok : pr.Ok D p) (hpr : pr.todo = op :: todo)
    (hround : 0 < pr.round) (he : Effect D p pr memc op memc' rcs) (pr' : Process)
    (htodo : pr'.todo = todo) (hr : pr'.round = pr.round) (w : ℕ) :
    (D.worker w ≠ p → memc' (workerDoneName w) = memc (workerDoneName w)) ∧
      (D.worker w = p → (memc (workerDoneName w) ≠ none ↔ pr.Signalled D p w) →
        (memc' (workerDoneName w) ≠ none ↔ pr'.Signalled D p w)) := by
  have hs : op :: todo <:+ D.script p pr.round := hpr ▸ hok.suffix
  have hkeep : op ≠ .workerDone w → (pr'.Signalled D p w ↔ pr.Signalled D p w) := fun hne =>
    Process.signalled_of_ne hne (htodo ▸ hpr) hr
  cases he with
  | construct | configure | wait | connect | see =>
    exact ⟨fun _ => rfl, fun _ hw => hw.trans (hkeep nofun).symm⟩
  | raise k | lower k =>
    rw [Function.update_of_ne (workerDoneName_ne w k)]
    exact ⟨fun _ => rfl, fun _ hw => hw.trans (hkeep (by cases k <;> exact nofun)).symm⟩
  | signal w' =>
    have hop : .workerDone w' ∈ D.script p pr.round := hs.subset List.mem_cons_self
    obtain ⟨rfl, -⟩ := Deployment.of_workerDone hop
    by_cases heq : w' = w
    · subst heq
      refine ⟨fun hne => absurd rfl hne, fun _ _ => iff_of_true ?_ (.inr ⟨?_, ?_, ?_⟩)⟩
      · rw [Function.update_self]
        exact nofun
      · exact hr ▸ hround
      · exact hr ▸ hop
      · exact htodo ▸ not_mem_rest h hs
    · rw [Function.update_of_ne fun hname => heq (workerDoneName_injective hname.symm)]
      refine ⟨fun _ => rfl, fun hw => absurd ?_ heq⟩
      exact (Nat.add_left_cancel hw).symm

/-- A key that is carried over to the next run stays when its owner is started again. -/
theorem Process.content_start (h : Ordered D.calls) {pr' : Process} (hpr : pr.todo = [])
    (htodo : pr'.todo = D.script p (pr.round + 1)) (hr : pr'.round = pr.round + 1) (k : Key) :
    pr'.content D k = pr.content D k := by
  have hiff := k.raise_mem_iff (p := p) (n := pr.round + 1) h
  rw [Process.content, Process.content]
  by_cases hc : k.Carried D
  · have hraise := k.raise_mem_of_carried (n := pr.round + 1) h hc p
    have hup : pr'.Up D k ↔ pr.Up D k := by
      simp only [Process.Up, if_pos hc, htodo, hpr, hr, hraise, hiff.1 hraise, List.not_mem_nil,
        not_true_eq_false, not_false_eq_true, and_true, and_false, false_or, or_false]
      exact Nat.succ_lt_succ_iff
    rw [if_congr hup rfl rfl]
    cases k with
    | announce t p' q => exact absurd hc (Key.announce_not_carried h t p' q)
    | ready => rfl
  · rw [if_neg, if_neg]
    · rw [Process.Up, if_neg hc, hpr]
      exact fun hup => List.not_mem_nil hup.2
    · rw [Process.Up, if_neg hc, htodo]
      exact fun hup => hup.1 (hiff.2 hup.2)

/-- A process that has waited for another one has found its key. -/
theorem Effect.found {r : Reason} (he : Effect D p pr memc op memc' rcs)
    (hop : op = .waitReady t q r) : memc (Key.ready t q r).name ≠ none := by
  cases he with
  | wait _ _ _ hup =>
    cases hop
    exact hup
  | raise k | lower k => cases k <;> cases hop
  | construct | configure | connect | signal | see => cases hop

namespace State.Inv

variable {h : Ordered D.calls} {s : State}

/-- A process that has made its step for another one at a barrier has found the flag of that
    up, in the same run. -/
theorem raised_of_passed (hinv : s.Inv D h) (hpr : (s.procs p).todo = op :: todo)
    (he : Effect D p (s.procs p) s.memc op memc' rcs) {i : Topic × Reason} (hi : i ∈ flags D.calls)
    (hpq : D.WaitsFor i p q) (hle : (s.procs p).stage D ≤ awaitStage D.calls i)
    (hdone : .waitReady i.1 q i.2 ∉ todo) :
    toLex ((s.procs p).round, raiseStage D.calls i) < (s.procs q).time D := by
  have hs : op :: todo <:+ D.script p (s.procs p).round := hpr ▸ (hinv.ok p).suffix
  have hround := hinv.round_pos hpr
  obtain ⟨r, hr⟩ := Nat.exists_eq_succ_of_ne_zero hround.ne'
  have hscript : Op.waitReady i.1 q i.2 ∈ D.script p (s.procs p).round := by
    refine Deployment.mem_script.2 ⟨hpq.2.1, ?_⟩
    rintro _ ⟨⟩
    exact hpq.2.2
  have hst : (s.procs p).stage D = awaitStage D.calls i := by
    refine hle.antisymm (not_lt.1 fun hlt => hdone ?_)
    rw [Process.stage, hpr] at hlt
    exact mem_rest h hs hscript hlt
  by_cases hmem : Op.waitReady i.1 q i.2 ∈ (s.procs p).todo
  · -- it is this step
    rw [hpr] at hmem
    obtain rfl := (List.mem_cons.1 hmem).resolve_right hdone
    have hup : (s.procs q).Up D (.ready i.1 q i.2) := by
      have hfound := he.found rfl
      rw [hinv.content, Process.content] at hfound
      by_contra hno
      exact hfound (if_neg hno)
    rw [(hinv.ok q).up_iff h hi] at hup
    have hpq' : (D.barriers h).WaitsFor ⟨i, hi⟩ p q := hpq
    have := hinv.kept.raised (r := r) hpq' (congrArg toLex (Prod.ext hr hst)) hup
    rw [hr]
    exact this
  · exact hinv.waited i hi p q hpq hst hmem

/-- A process goes on, and the registry with it. -/
theorem move (hinv : s.Inv D h) {pr' : Process} (hok : pr'.Ok D p)
    (hcontent : ∀ k : Key, memc' k.name = (Function.update s.procs p pr' k.owner).content D k)
    (hworkers : ∀ w, memc' (workerDoneName w) ≠ none ↔
      (Function.update s.procs p pr' (D.worker w)).Signalled D (D.worker w) w)
    (hle : (s.procs p).time D ≤ pr'.time D)
    (hround : ∀ n, ∀ w < (D.calls true).length, (s.procs p).time D ≤ toLex (n, w) → pr'.round ≤ n)
    (hraised : ∀ i ∈ flags D.calls, ∀ q, D.WaitsFor i p q → .waitReady i.1 q i.2 ∉ pr'.todo →
      (s.procs p).time D ≤ toLex (pr'.round, awaitStage D.calls i) →
      toLex (pr'.round, raiseStage D.calls i) < (s.procs q).time D) :
    Inv D h ⟨memc', Function.update s.procs p pr'⟩ := by
  have hprocs : ∀ q ≠ p, Function.update s.procs p pr' q = s.procs q := fun q hq =>
    Function.update_of_ne hq _ _
  have hself : Function.update s.procs p pr' p = pr' := Function.update_self _ _ _
  have htime : (fun q => (Function.update s.procs p pr' q).time D) =
      Function.update (fun q => (s.procs q).time D) p (pr'.time D) := by
    funext q
    rcases eq_or_ne q p with rfl | hq
    · rw [hself, Function.update_self]
    · rw [hprocs q hq, Function.update_of_ne hq]
  have hlater : ∀ q, (s.procs q).time D ≤ (Function.update s.procs p pr' q).time D := by
    intro q
    rcases eq_or_ne q p with rfl | hq
    · rw [hself]
      exact hle
    · rw [hprocs q hq]
  refine {
    ok := fun q => ?_
    content := hcontent
    workers := hworkers
    kept := ?_
    waited := fun i hi a b hab hst hmem => ?_ }
  · change (Function.update s.procs p pr' q).Ok D q
    rcases eq_or_ne q p with rfl | hq
    · rw [hself]
      exact hok
    · rw [hprocs q hq]
      exact hinv.ok q
  · change (D.barriers h).Kept fun q => (Function.update s.procs p pr' q).time D
    rw [htime]
    refine hinv.kept.move ⟨hle, ?_⟩
    rintro ⟨i, hi⟩ q r hpq hbefore hafter
    have hlt : awaitStage D.calls i < (D.calls true).length :=
      List.idxOf_lt_length_of_mem (mem_of_flag hi)
    have hr : pr'.round = r + 1 := by
      refine (hround (r + 1) _ hlt hbefore).antisymm ?_
      exact (Prod.Lex.lt_iff.1 hafter).elim le_of_lt fun heq => heq.1.le
    have hst : awaitStage D.calls i < pr'.stage D := by
      rcases Prod.Lex.lt_iff.1 hafter with hlt | ⟨-, hlt⟩
      · exact absurd hr hlt.ne'
      · exact hlt
    have hgoal := hraised i hi q hpq (fun hmem => ?_) (hr ▸ hbefore)
    · rw [hr] at hgoal
      exact hgoal
    · exact (Process.stage_le h hok.suffix hmem).not_gt hst
  · refine lt_of_lt_of_le ?_ (hlater b)
    change (Function.update s.procs p pr' a).stage D = _ at hst
    change _ ∉ (Function.update s.procs p pr' a).todo at hmem
    change toLex ((Function.update s.procs p pr' a).round, _) < _
    rcases eq_or_ne a p with rfl | ha
    · rw [hself] at hst hmem
      rw [hself]
      exact hraised i hi b hab hmem (hst ▸ hle)
    · rw [hprocs a ha] at hst hmem
      rw [hprocs a ha]
      exact hinv.waited i hi a b hab hst hmem

theorem next (hinv : s.Inv D h) (hpr : (s.procs p).todo = op :: todo)
    (he : Effect D p (s.procs p) s.memc op memc' rcs) {unseen : List ℕ}
    (hunseen : ∀ w ∈ unseen, w ∈ (s.procs p).unseen) :
    Inv D h ⟨memc', Function.update s.procs p
      { s.procs p with todo := todo, checked := false, rcs := rcs, unseen := unseen }⟩ := by
  have hround := hinv.round_pos hpr
  have hs : op :: todo <:+ D.script p (s.procs p).round := hpr ▸ (hinv.ok p).suffix
  have hstage : (s.procs p).stage D = Exchange.stage D.calls op.call := by rw [Process.stage, hpr]
  refine hinv.move ?_ (fun k => ?_) (fun w => ?_) ?_ (fun n w hw hle => ?_)
    fun i hi q hpq hmem hle => ?_
  · -- what it connects to is what the other process has announced in this run
    refine (hinv.ok p).next h hpr he (fun t q hop => ?_) hunseen
    subst hop
    obtain ⟨hcall, hrem⟩ := Deployment.mem_script.1 (hs.subset List.mem_cons_self)
    rw [hinv.content]
    exact hinv.announced hround (hrem q rfl) (h.mem_true hcall) hstage
  · obtain ⟨hother, hown⟩ := he.content h (hinv.ok p) hpr hround
      { s.procs p with todo := todo, checked := false, rcs := rcs, unseen := unseen } rfl rfl k
    rcases eq_or_ne k.owner p with hk | hk
    · rw [hk, Function.update_self]
      exact hown hk (hk ▸ hinv.content k)
    · rw [Function.update_of_ne hk, hother hk]
      exact hinv.content k
  · obtain ⟨hother, hown⟩ := he.workers h (hinv.ok p) hpr hround
      { s.procs p with todo := todo, checked := false, rcs := rcs, unseen := unseen } rfl rfl w
    rcases eq_or_ne (D.worker w) p with hw | hw
    · rw [hw, Function.update_self]
      exact hown hw (hw ▸ hinv.workers w)
    · rw [Function.update_of_ne hw, hother hw]
      exact hinv.workers w
  · refine Prod.Lex.le_iff.2 (.inr ⟨rfl, ?_⟩)
    change (s.procs p).stage D ≤ Process.stage D _
    rw [hstage, Process.stage]
    cases todo with
    | nil => exact (h.stage_lt (hs.subset List.mem_cons_self)).le
    | cons x rest => exact first_le h hs (List.mem_cons_of_mem _ List.mem_cons_self)
  · exact (Prod.Lex.le_iff.1 hle).elim le_of_lt fun heq => heq.1.le
  · refine hinv.raised_of_passed hpr he hi hpq ?_ hmem
    rcases Prod.Lex.le_iff.1 hle with hlt | ⟨-, hle⟩
    · exact absurd hlt (lt_irrefl _)
    · exact hle

theorem started (hinv : s.Inv D h) (hp : D.Proc p) (hpr : (s.procs p).todo = []) :
    Inv D h (s.setProc p (D.started p (s.procs p).round)) := by
  have hstage : (s.procs p).stage D = (D.calls true).length := by rw [Process.stage, hpr]
  refine hinv.move (Process.Ok.start h hp _) (fun k => ?_) (fun w => ?_) ?_
    (fun n w hw hle => ?_) fun i hi q hpq hmem hle => ?_
  · rw [hinv.content]
    rcases eq_or_ne k.owner p with hk | hk
    · rw [hk, Function.update_self]
      exact (Process.content_start h hpr rfl rfl k).symm
    · rw [Function.update_of_ne hk]
  · rw [hinv.workers]
    rcases eq_or_ne (D.worker w) p with hw | hw
    · rw [hw, Function.update_self]
      exact (Process.signalled_start hpr rfl rfl).symm
    · rw [Function.update_of_ne hw]
  · exact Prod.Lex.le_iff.2 (.inl (Nat.lt_succ_self _))
  · rcases Prod.Lex.le_iff.1 hle with hlt | ⟨-, hle⟩
    · exact hlt
    · exact absurd (hstage ▸ hle) hw.not_ge
  · refine absurd (Deployment.mem_script.2 ⟨hpq.2.1, ?_⟩) hmem
    rintro _ ⟨⟩
    exact hpq.2.2

end State.Inv

end DiscoSkip.Exchange
