import DiscoSkip.Conn.Rendezvous

/-!
# A second run with `--ml`

Nobody removes the key under which a worker says that it is done. So a worker that has done
so once throws when it comes to do so again, in whatever run on the same registry; and as it
has taken back by then that it is finished, the others wait for that for ever
(`throwsAgain`).

Nothing is asked of the registry or the deployment here, so the facts are those of single
processes and keys: what a worker has set stays (`State.Spent`), what a process has removed
is only set by itself (`State.Removed`), and a process that has thrown does no more
(`State.InVain`).
-/

namespace DiscoSkip.Exchange

variable {D : Deployment} {p w : ℕ} {pr : Process} {op : Op} {todo : List Op} {memc memc' : Memc}
  {rcs : Topic → ℕ → Option Rc}

/-- No step removes the key of a worker. -/
theorem Effect.kept (he : Effect D p pr memc op memc' rcs)
    (hset : memc (workerDoneName w) ≠ none) : memc' (workerDoneName w) ≠ none := by
  cases he with
  | construct | configure | wait | connect | see => exact hset
  | raise k | lower k => rwa [Function.update_of_ne (workerDoneName_ne w k)]
  | signal w' =>
    by_cases heq : w = w'
    · rw [heq, Function.update_self]
      exact Option.some_ne_none _
    · rwa [Function.update_of_ne fun hname => heq (workerDoneName_injective hname)]

/-- Only its owner sets a key of an exchanger. -/
theorem Effect.free {k : Key} (he : Effect D p pr memc op memc' rcs)
    (hop : k.owner = p → op ≠ k.raise) (hfree : memc k.name = none) : memc' k.name = none := by
  cases he with
  | construct | configure | wait | connect | see => exact hfree
  | raise k' hk' =>
    refine (Function.update_of_ne (fun hname => ?_) _ _).trans hfree
    obtain rfl := Key.name_injective hname
    exact hop hk' rfl
  | lower k' =>
    rw [Function.update_apply]
    split
    · rfl
    · exact hfree
  | signal w => rwa [Function.update_of_ne (workerDoneName_ne w k).symm]

theorem Effect.lowered {k : Key} (he : Effect D p pr memc op memc' rcs) (hk : k.owner = p)
    (hop : op = k.lower) : memc' k.name = none := by
  cases he with
  | construct | configure | wait | connect | see | signal => cases k <;> cases hop
  | raise k' => exact absurd hop (k'.raise_ne_lower k)
  | lower k' hk' =>
    obtain rfl := Key.eq_of_lower (hk'.trans hk.symm) hop
    rw [Function.update_self]

/-- A `set` of a key that is there throws, in its checks. -/
theorem Process.set_throws {key value : String} (hk : key ≠ "") (hv : value ≠ "")
    (hset : memc key ≠ none) (hno : pr.checked = false) : pr.set memc key value =
      .throws ("Trying to set key `" ++ key ++ "` that already exists") := by
  rw [Process.set, hno, if_neg Bool.false_ne_true, MemoryStore.setCheck, if_neg (not_or.2 ⟨hk, hv⟩),
    if_pos (Option.isSome_iff_ne_none.2 hset)]

/-- What the exception says then of the key of a worker. -/
def workerDoneError (w : ℕ) : String :=
  "Trying to set key `" ++ workerDoneName w ++ "` that already exists"

/-- The process `p` has said that the worker `w` is done: the key is there, and it has not
    made the checks to set it again. -/
structure State.Spent (p w : ℕ) (s : State) : Prop where
  set : s.memc (workerDoneName w) ≠ none
  unchecked : (s.procs p).todo.head? = some (.workerDone w) → (s.procs p).checked = false

namespace State

variable {s s' : State} {e : Event} {a : Action} {reg : Memc}

theorem setProc_of_ne {q : ℕ} (hne : q ≠ p) : (s.setProc p pr).procs q = s.procs q :=
  Function.update_of_ne hne _ _

/-- What becomes of a process that makes a step, or is started. -/
theorem Spent.setProc {p' : ℕ} (h : s.Spent p w) (hset : memc' (workerDoneName w) ≠ none)
    (hpr : p = p' → pr.todo.head? = some (.workerDone w) → pr.checked = false) :
    Spent p w (State.setProc ⟨memc', s.procs⟩ p' pr) := by
  refine ⟨hset, ?_⟩
  change (Function.update s.procs p' pr p).todo.head? = _ →
    (Function.update s.procs p' pr p).checked = false
  rcases eq_or_ne p p' with heq | hne
  · rw [heq, Function.update_self]
    exact hpr heq
  · rw [Function.update_of_ne hne]
    exact h.unchecked

/-- Whatever happens, it stays so. -/
theorem Spent.step (h : s.Spent p w) (hst : (D.machine reg).step s a = some (e, s')) :
    s'.Spent p w := by
  cases stepped_of_machine hst with
  | start => exact h.setProc h.set fun _ _ => rfl
  | next p' _ hpr hrun => exact h.setProc ((Op.effect hrun).kept h.set) fun _ _ => rfl
  | @checked p' _ op todo hpr hrun =>
    refine h.setProc h.set fun heq hhead => ?_
    -- it would not have passed the checks
    subst heq
    obtain rfl : op = .workerDone w := by simpa [hpr] using hhead
    have hvalue : "1" ≠ "" := by decide
    cases hrun.symm.trans
      (Process.set_throws (workerDoneName_ne_empty w) hvalue h.set (h.unchecked hhead))
  | retry => exact h
  | seen => exact h.setProc h.set fun _ _ => rfl
  | notSeen p' | throws p' =>
    exact h.setProc h.set fun heq hhead => heq ▸ h.unchecked (heq ▸ hhead)

/-- A worker that says that it is done. -/
theorem spent_of_done (hst : (D.machine reg).step s a = some (.done p (.workerDone w), s')) :
    s'.Spent p w := by
  cases stepped_of_machine hst with
  | next _ _ hpr hrun =>
    obtain ⟨rfl, -⟩ := Process.set_next hrun
    refine ⟨?_, ?_⟩
    · change Function.update s.memc (workerDoneName w) (some "1") (workerDoneName w) ≠ none
      rw [Function.update_self]
      exact Option.some_ne_none _
    · change (Function.update s.procs p _ p).todo.head? = _ →
        (Function.update s.procs p _ p).checked = false
      rw [Function.update_self]
      exact fun _ => rfl
  | seen _ _ hpr hrun =>
    -- no answer of a `set` is a look at a key
    rcases Process.set_cases (workerDoneName w) "1" with heq | ⟨-, heq⟩ | ⟨_, heq⟩ <;>
      cases hrun.symm.trans heq

/-- A process has removed its key in this run, and not set it again: the key is not there. -/
structure Removed (D : Deployment) (k : Key) (s : State) : Prop where
  suffix : (s.procs k.owner).todo <:+ D.script k.owner (s.procs k.owner).round
  free : k.lower ∉ (s.procs k.owner).todo → k.raise ∈ (s.procs k.owner).todo →
    s.memc k.name = none

theorem Removed.setProc {k : Key} (h : s.Removed D k)
    (hother : k.owner ≠ p → s.memc k.name = none → memc' k.name = none)
    (hown : k.owner = p → pr.todo <:+ D.script p pr.round ∧
      (k.lower ∉ pr.todo → k.raise ∈ pr.todo → memc' k.name = none)) :
    Removed D k (State.setProc ⟨memc', s.procs⟩ p pr) := by
  suffices hup : (Function.update s.procs p pr k.owner).todo <:+
      D.script k.owner (Function.update s.procs p pr k.owner).round ∧
      (k.lower ∉ (Function.update s.procs p pr k.owner).todo →
        k.raise ∈ (Function.update s.procs p pr k.owner).todo → memc' k.name = none) from
    ⟨hup.1, hup.2⟩
  by_cases hk : k.owner = p
  · subst hk
    rw [Function.update_self]
    exact hown rfl
  · rw [Function.update_of_ne hk]
    exact ⟨h.suffix, fun hlower hraise => hother hk (h.free hlower hraise)⟩

/-- A step that is done. -/
theorem Removed.done {k : Key} (h : s.Removed D k) (hpr : (s.procs p).todo = op :: todo)
    (he : Effect D p (s.procs p) s.memc op memc' rcs) (htodo : pr.todo = todo)
    (hround : pr.round = (s.procs p).round) :
    Removed D k (State.setProc ⟨memc', s.procs⟩ p pr) := by
  refine h.setProc (fun hk => he.free fun heq => absurd heq hk) fun hk => ?_
  have hs := h.suffix
  have hfree := h.free
  rw [hk, hpr] at hs hfree
  rw [htodo, hround]
  refine ⟨(List.suffix_cons op todo).trans hs, fun hlower hraise => ?_⟩
  -- the key has been removed by this step, or before
  by_cases hop : op = k.lower
  · exact he.lowered hk hop
  · refine he.free (fun _ heq => ?_) (hfree ?_ (List.mem_cons_of_mem _ hraise))
    · exact not_mem_rest D.ordered hs (heq ▸ hraise)
    · exact fun hmem => (List.mem_cons.1 hmem).elim (fun heq => hop heq.symm) hlower

/-- So it stays, in every run on any registry. -/
theorem Removed.step {k : Key} (h : s.Removed D k)
    (hst : (D.machine reg).step s a = some (e, s')) : s'.Removed D k := by
  have hsame : ∀ p (pr : Process), pr.todo = (s.procs p).todo → pr.round = (s.procs p).round →
      Removed D k (s.setProc p pr) := by
    intro p pr htodo hround
    refine h.setProc (fun _ hfree => hfree) ?_
    rintro rfl
    rw [htodo, hround]
    exact ⟨h.suffix, h.free⟩
  cases stepped_of_machine hst with
  | start p hp hpr =>
    -- what it will set again it will remove before
    refine h.setProc (fun _ hfree => hfree) fun hk => ⟨List.suffix_rfl, fun hlower hraise => ?_⟩
    exact absurd ((k.raise_mem_iff D.ordered).1 hraise) hlower
  | next p _ hpr hrun => exact h.done hpr (Op.effect hrun) rfl rfl
  | retry => exact h
  | seen p _ hpr hrun =>
    obtain ⟨i, -, rfl, -⟩ := Op.of_seen hrun
    exact h.done hpr (.see i) rfl rfl
  | checked p | notSeen p | throws p => exact hsame p _ rfl rfl

theorem removed_of_run {k : Key} {tr : List Event} (hrun : (D.machine reg).Run Any tr s) :
    s.Removed D k := by
  refine hrun.invariant (P := fun _ s => s.Removed D k)
    ⟨List.nil_suffix, fun _ hraise => absurd hraise List.not_mem_nil⟩ fun _ _ _ _ _ h hst => ?_
  obtain ⟨a, -, hst⟩ := hst
  exact h.step hst

/-- The process `q` still has to wait for `p`, which has thrown, and has not said what `q` waits
    for. -/
structure InVain (p q : ℕ) (t : Topic) (r : Reason) (s : State) : Prop where
  error : (s.procs p).error ≠ none
  todo : (s.procs p).todo ≠ []
  free : s.memc (Key.ready t p r).name = none
  waits : .waitReady t p r ∈ (s.procs q).todo

theorem InVain.setProc {q p' : ℕ} {t : Topic} {r : Reason} (h : s.InVain p q t r) (hne : p' ≠ p)
    (hfree : memc' (Key.ready t p r).name = none) (hwaits : q = p' → .waitReady t p r ∈ pr.todo) :
    InVain p q t r (State.setProc ⟨memc', s.procs⟩ p' pr) := by
  have hp : Function.update s.procs p' pr p = s.procs p := Function.update_of_ne hne.symm _ _
  refine ⟨?_, ?_, hfree, ?_⟩
  · change (Function.update s.procs p' pr p).error ≠ none
    rw [hp]
    exact h.error
  · change (Function.update s.procs p' pr p).todo ≠ []
    rw [hp]
    exact h.todo
  · change _ ∈ (Function.update s.procs p' pr q).todo
    rcases eq_or_ne q p' with rfl | hq
    · rw [Function.update_self]
      exact hwaits rfl
    · rw [Function.update_of_ne hq]
      exact h.waits

/-- It will have to for ever. -/
theorem InVain.step {q : ℕ} {t : Topic} {r : Reason} (h : s.InVain p q t r)
    (hst : (D.machine reg).step s a = some (e, s')) : s'.InVain p q t r := by
  have hwaits := h.waits
  have hdone : ∀ p' {op : Op} {todo : List Op} {memc' : Memc} {rcs : Topic → ℕ → Option Rc}
      (pr : Process), (s.procs p').error = none → (s.procs p').todo = op :: todo →
      Effect D p' (s.procs p') s.memc op memc' rcs → pr.todo = todo →
      InVain p q t r (State.setProc ⟨memc', s.procs⟩ p' pr) := by
    intro p' op todo memc' rcs pr hno hpr he htodo
    have hne : p' ≠ p := fun heq => h.error (heq ▸ hno)
    refine h.setProc hne (he.free (fun hk => absurd hk.symm hne) h.free) fun hq => ?_
    subst hq
    rw [htodo]
    refine (List.mem_cons.1 (hpr ▸ hwaits)).resolve_left fun hop => ?_
    -- it would have found the key
    exact he.found hop.symm h.free
  have hsame : ∀ p' (pr : Process), (s.procs p').error = none → pr.todo = (s.procs p').todo →
      InVain p q t r (s.setProc p' pr) := fun p' pr hno htodo =>
    h.setProc (fun heq => h.error (heq ▸ hno)) h.free fun hq => htodo ▸ hq ▸ hwaits
  cases stepped_of_machine hst with
  | start p' hp hpr =>
    refine h.setProc (fun heq => h.todo (heq ▸ hpr)) h.free fun hq => ?_
    rw [hq, hpr] at hwaits
    exact absurd hwaits List.not_mem_nil
  | next p' hno hpr hrun => exact hdone p' _ hno hpr (Op.effect hrun) rfl
  | retry => exact h
  | seen p' hno hpr hrun =>
    obtain ⟨i, -, rfl, -⟩ := Op.of_seen hrun
    exact hdone p' _ hno hpr (.see i) rfl
  | checked p' hno | notSeen p' hno | throws p' hno => exact hsame p' _ hno rfl

end State

/-- A worker comes to say that it is done after it has taken back that it is finished, and
    before it says so again. -/
theorem Deployment.finished_of_workerDone {n : ℕ} (hs : .workerDone w :: todo <:+ D.script p n) :
    (Key.ready .qp p .finished).lower ∉ .workerDone w :: todo ∧
      (Key.ready .qp p .finished).raise ∈ todo := by
  have hprog := program_of_workerDone (hs.subset List.mem_cons_self)
  have hstage : stage D.calls ⟨.qp, .unannounceReady .finished⟩ < stage D.calls ⟨.qp, .workerDone⟩ ∧
      stage D.calls ⟨.qp, .workerDone⟩ < stage D.calls ⟨.qp, .announceReady .finished⟩ := by
    rw [show D.calls = Program.calls .discoSkip by rw [← hprog]; rfl]
    decide
  refine ⟨fun hmem => (first_le D.ordered hs hmem).not_gt hstage.1, ?_⟩
  exact mem_rest D.ordered hs (D.ordered.raise_mem (i := (.qp, .finished)) D.program.stages.2.1 p n)
    hstage.2

end DiscoSkip.Exchange
