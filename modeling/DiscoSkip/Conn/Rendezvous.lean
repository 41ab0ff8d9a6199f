import DiscoSkip.Conn.Bootstrap
import Mathlib.Algebra.BigOperators.Group.Finset.Basic
import Mathlib.Order.WellFounded

/-!
# What the processes can rely on

In every run of a deployment of `disco-skip` or `swarm-kv` with a server and a client at least,
however often the processes are started again on the same registry, as long as that does not
have any of their keys at first, and `disco-skip` is started with `--ml` once at most (`Fresh`):

* no process throws, and the queue pairs are connected in pairs (`connectedInPairs`);
* while a client works, all processes are there, and connected (`workTogether`);
* they never wait for each other in a circle, and only make so many steps but for those that
  have to be tried again (`neverStuck`);
* what a process leaves behind in the registry is what it has said last (`leavesBehind`).
-/

namespace DiscoSkip.Exchange

variable {D : Deployment} {p q : ℕ} {t : Topic} {op : Op} {todo : List Op}

theorem Deployment.ordered (D : Deployment) : Ordered D.calls := D.program.ordered

/-- A deployment with somebody to connect to, on a registry without its keys. As nobody
    removes the keys of the workers, there is only one run with `--ml`. -/
structure Deployment.Fresh (D : Deployment) (memc : Memc) : Prop where
  servers : 0 < D.num_servers
  clients : 0 < D.num_clients
  once : D.MlOnce
  clean : ∀ k : Key, memc k.name = none
  cleanWorkers : ∀ w, memc (workerDoneName w) = none

/-- A step that is not done, and does not throw, is a `set` that makes its checks, or it
    waits for another process, while its key is not there. The tracker asks for one worker
    after the other. -/
theorem Op.run_cases (op : Op) (pr : Process) (memc : Memc) :
    (∃ memc' rcs, op.run D p pr memc = .next memc' rcs) ∨
    (∃ msg, op.run D p pr memc = .throws msg) ∨
    pr.checked = false ∧ op.run D p pr memc = .checked ∨
    ((∃ t q r, op = .waitReady t q r ∧ memc (Key.ready t q r).name = none) ∧
      op.run D p pr memc = .retry) ∨
    ∃ i w unseen, op = .awaitWorker i ∧ pr.unseen = w :: unseen ∧
      (op.run D p pr memc = .seen unseen ∨
        memc (workerDoneName w) = none ∧ op.run D p pr memc = .notSeen (unseen ++ [w])) := by
  have hset : ∀ key value, (∃ memc' rcs, pr.set memc key value = .next memc' rcs) ∨
      (∃ msg, pr.set memc key value = .throws msg) ∨
      pr.checked = false ∧ pr.set memc key value = .checked := by
    intro key value
    rcases pr.set_cases key value with hset | hset | hset
    · exact .inl ⟨_, _, hset⟩
    · exact .inr (.inr hset)
    · exact .inr (.inl hset)
  cases op with
  | construct t | configure t q =>
    rw [Op.run]
    split
    · exact .inr (.inl ⟨_, rfl⟩)
    · exact .inl ⟨_, _, rfl⟩
  | announce t q =>
    rw [Op.run]
    rcases pr.ifConfigured_cases t q (pr.set memc ((D.exchanger p t).announceName t.str q)
      (D.info pr.round t p q).serialize) with heq | hthrows
    · rw [heq]
      exact (hset _ _).imp_right (Or.imp_right .inl)
    · exact .inr (.inl hthrows)
  | announceReady t r | workerDone w => exact (hset _ _).imp_right (Or.imp_right .inl)
  | waitReady t q r =>
    rw [Op.run, Key.waitName_eq, MemoryStore.get_eq (Key.name_ne_empty _)]
    cases hget : memc (Key.ready t q r).name with
    | none => exact .inr (.inr (.inr (.inl ⟨⟨t, q, r, rfl, hget⟩, rfl⟩)))
    | some value =>
      dsimp only
      split
      · exact .inr (.inl ⟨_, rfl⟩)
      · exact .inl ⟨_, _, rfl⟩
  | unannounceReady t r =>
    rcases pr.remove_cases ((D.exchanger p t).readyName t.str r.str) with hrem | hrem
    · exact .inl ⟨_, _, hrem⟩
    · exact .inr (.inl hrem)
  | connect t q =>
    rw [Op.run, Key.connectName_eq, MemoryStore.get_eq (Key.name_ne_empty _)]
    cases memc (Key.announce t q p).name with
    | none =>
      rcases pr.ifConfigured_cases t q (.throws ("Cannot connect to remote qp " ++
        (Key.announce t q p).name)) with heq | hthrows
      · exact .inr (.inl ⟨_, heq⟩)
      · exact .inr (.inl hthrows)
    | some v =>
      rcases pr.ifConfigured_cases t q (.next memc (pr.setRc t q
        (.connected (RemoteConnectionInfo.fromStr v)))) with heq | hthrows
      · exact .inl ⟨_, _, heq⟩
      · exact .inr (.inl hthrows)
  | unannounce t q =>
    rw [Op.run]
    rcases pr.ifConfigured_cases t q (pr.remove memc ((D.exchanger p t).announceName t.str q))
      with heq | hthrows
    · rw [heq]
      rcases pr.remove_cases ((D.exchanger p t).announceName t.str q) with hrem | hrem
      · exact .inl ⟨_, _, hrem⟩
      · exact .inr (.inl hrem)
    · exact .inr (.inl hthrows)
  | awaitWorker i =>
    rw [Op.run]
    cases hunseen : pr.unseen with
    | nil => exact .inl ⟨_, _, rfl⟩
    | cons w unseen =>
      dsimp only
      rw [MemoryStore.get_eq (workerDoneName_ne_empty w)]
      cases hget : memc (workerDoneName w) with
      | none => exact .inr (.inr (.inr (.inr ⟨i, w, unseen, rfl, rfl, .inr ⟨hget, rfl⟩⟩)))
      | some => exact .inr (.inr (.inr (.inr ⟨i, w, unseen, rfl, rfl, .inl rfl⟩)))

theorem Op.of_seen {pr : Process} {memc : Memc} {unseen : List ℕ}
    (hrun : op.run D p pr memc = .seen unseen) :
    ∃ i w, op = .awaitWorker i ∧ pr.unseen = w :: unseen := by
  rcases op.run_cases (D := D) (p := p) pr memc with
    ⟨_, _, heq⟩ | ⟨_, heq⟩ | ⟨-, heq⟩ | ⟨-, heq⟩ | ⟨i, w, unseen', hop, hw, heq | ⟨-, heq⟩⟩
  all_goals cases hrun.symm.trans heq
  exact ⟨i, w, hop, hw⟩

/-- A worker that is not done is asked for again after the others. -/
theorem Op.of_notSeen {pr : Process} {memc : Memc} {unseen' : List ℕ}
    (hrun : op.run D p pr memc = .notSeen unseen') :
    ∃ w unseen, pr.unseen = w :: unseen ∧ unseen' = unseen ++ [w] := by
  rcases op.run_cases (D := D) (p := p) pr memc with
    ⟨_, _, heq⟩ | ⟨_, heq⟩ | ⟨-, heq⟩ | ⟨-, heq⟩ | ⟨i, w, unseen, hop, hw, heq | ⟨-, heq⟩⟩
  all_goals cases hrun.symm.trans heq
  exact ⟨w, unseen, hw, rfl⟩

namespace State

variable {s s' : State} {e : Event} {memc : Memc}

/-- What a step of the machine is, by what comes of the step of the process. -/
inductive Stepped (D : Deployment) (s : State) : Event → State → Prop
  | start (p : ℕ) (hp : D.Proc p) (hpr : (s.procs p).todo = []) :
      Stepped D s (.started p) (s.setProc p (D.started p (s.procs p).round))
  | next (p : ℕ) (hno : (s.procs p).error = none) {op : Op} {todo : List Op}
      (hpr : (s.procs p).todo = op :: todo) {memc' : Memc} {rcs : Topic → ℕ → Option Rc}
      (hrun : op.run D p (s.procs p) s.memc = .next memc' rcs) :
      Stepped D s (.done p op) ({ s with memc := memc' }.setProc p
        { s.procs p with todo := todo, checked := false, rcs := rcs })
  | checked (p : ℕ) (hno : (s.procs p).error = none) {op : Op} {todo : List Op}
      (hpr : (s.procs p).todo = op :: todo) (hrun : op.run D p (s.procs p) s.memc = .checked) :
      Stepped D s (.checked p op) (s.setProc p { s.procs p with checked := true })
  | retry (p : ℕ) (hno : (s.procs p).error = none) {op : Op} {todo : List Op}
      (hpr : (s.procs p).todo = op :: todo) (hrun : op.run D p (s.procs p) s.memc = .retry) :
      Stepped D s (.retried p op) s
  | seen (p : ℕ) (hno : (s.procs p).error = none) {op : Op} {todo : List Op}
      (hpr : (s.procs p).todo = op :: todo) {unseen : List ℕ}
      (hrun : op.run D p (s.procs p) s.memc = .seen unseen) :
      Stepped D s (.done p op) (s.setProc p
        { s.procs p with todo := todo, checked := false, unseen := unseen })
  | notSeen (p : ℕ) (hno : (s.procs p).error = none) {op : Op} {todo : List Op}
      (hpr : (s.procs p).todo = op :: todo) {unseen : List ℕ}
      (hrun : op.run D p (s.procs p) s.memc = .notSeen unseen) :
      Stepped D s (.retried p op) (s.setProc p { s.procs p with unseen := unseen })
  | throws (p : ℕ) (hno : (s.procs p).error = none) {op : Op} {todo : List Op}
      (hpr : (s.procs p).todo = op :: todo) {msg : String}
      (hrun : op.run D p (s.procs p) s.memc = .throws msg) :
      Stepped D s (.threw p op msg) (s.setProc p { s.procs p with error := some msg })

theorem stepped_of_machine {a : Action} (hst : (D.machine memc).step s a = some (e, s')) :
    s.Stepped D e s' := by
  cases a with
  | start p =>
    change s.start D p = _ at hst
    rw [State.start] at hst
    split at hst
    · next hp =>
      simp only [Option.some.injEq, Prod.mk.injEq] at hst
      obtain ⟨rfl, rfl⟩ := hst
      exact .start p hp.1 hp.2.1
    · cases hst
  | step p =>
    change s.step D p = _ at hst
    rw [State.step] at hst
    split at hst
    · cases hst
    next hno =>
    split at hst
    · cases hst
    next op todo hpr =>
    simp only [Option.some.injEq] at hst
    cases hrun : op.run D p (s.procs p) s.memc <;> simp only [hrun, Prod.mk.injEq] at hst <;>
      obtain ⟨rfl, rfl⟩ := hst
    · exact .next p hno hpr hrun
    · exact .checked p hno hpr hrun
    · exact .retry p hno hpr hrun
    · exact .seen p hno hpr hrun
    · exact .notSeen p hno hpr hrun
    · exact .throws p hno hpr hrun

/-- What happens in a state in which no step throws. -/
inductive Happens (D : Deployment) (s : State) : Event → State → Prop
  | started (p : ℕ) (hp : D.Proc p) (hpr : (s.procs p).todo = []) :
      Happens D s (.started p) (s.setProc p (D.started p (s.procs p).round))
  | done (p : ℕ) {op : Op} {todo : List Op} (hpr : (s.procs p).todo = op :: todo) {memc' : Memc}
      {rcs : Topic → ℕ → Option Rc} (he : Effect D p (s.procs p) s.memc op memc' rcs)
      {unseen : List ℕ} (hunseen : ∀ w ∈ unseen, w ∈ (s.procs p).unseen) :
      Happens D s (.done p op) ⟨memc', Function.update s.procs p
        { s.procs p with todo := todo, checked := false, rcs := rcs, unseen := unseen }⟩
  | checked (p : ℕ) {op : Op} {todo : List Op} (hpr : (s.procs p).todo = op :: todo)
      (hno : (s.procs p).checked = false) :
      Happens D s (.checked p op) (s.setProc p { s.procs p with checked := true })
  | retried (p : ℕ) {op : Op} {todo : List Op} (hpr : (s.procs p).todo = op :: todo)
      {unseen : List ℕ} (hunseen : ∀ w ∈ unseen, w ∈ (s.procs p).unseen) :
      Happens D s (.retried p op) (s.setProc p { s.procs p with unseen := unseen })

/-- A step of the machine, where no process throws. -/
theorem Inv.happens {h : Ordered D.calls} (hinv : s.Inv D h) (hfresh : D.Fresh memc) {a : Action}
    (hst : (D.machine memc).step s a = some (e, s')) : s.Happens D e s' := by
  cases stepped_of_machine hst with
  | start p hp hpr => exact .started p hp hpr
  | next p _ hpr hrun => exact .done p hpr (Op.effect hrun) fun _ hw => hw
  | @checked p _ op todo hpr hrun =>
    rcases op.run_cases (D := D) (p := p) (s.procs p) s.memc with
      ⟨_, _, heq⟩ | ⟨_, heq⟩ | ⟨hno, -⟩ | ⟨-, heq⟩ | ⟨_, _, _, -, -, heq | ⟨-, heq⟩⟩
    · cases hrun.symm.trans heq
    · cases hrun.symm.trans heq
    · exact .checked p hpr hno
    all_goals cases hrun.symm.trans heq
  | retry p _ hpr hrun =>
    have hself : s.setProc p { s.procs p with unseen := (s.procs p).unseen } = s := by
      rw [State.setProc, Function.update_eq_self]
    have := Happens.retried (D := D) p hpr fun _ hw => hw
    rwa [hself] at this
  | seen p _ hpr hrun =>
    obtain ⟨i, w, rfl, hw⟩ := Op.of_seen hrun
    exact .done p hpr (.see i) fun w' hw' => hw ▸ List.mem_cons_of_mem w hw'
  | notSeen p _ hpr hrun =>
    obtain ⟨w, unseen, hw, rfl⟩ := Op.of_notSeen hrun
    refine .retried p hpr fun w' hw' => ?_
    rw [hw]
    exact (List.perm_append_singleton w unseen).subset hw'
  | throws p _ hpr hrun =>
    have hfine := hinv.fine hfresh.servers hfresh.clients hfresh.once hpr
    rw [hrun] at hfine
    cases hfine

theorem Inv.init (h : Ordered D.calls) (hfresh : D.Fresh memc) :
    Inv D h ⟨memc, fun _ => .init⟩ where
  ok p := {
    suffix := List.nil_suffix
    fresh _ := rfl
    proc hpos := absurd hpos (lt_irrefl 0)
    error := rfl
    unseen _ hw := absurd hw List.not_mem_nil
    configured _ _ _ _ hpos := absurd hpos (lt_irrefl 0)
    connected _ _ _ _ hpos := absurd hpos (lt_irrefl 0)
    right _ _ _ hrc := by cases hrc }
  content k := by
    refine (hfresh.clean k).trans (if_neg ?_).symm
    rw [Process.Up]
    split
    · rintro (⟨hpos, _⟩ | ⟨hpos, _⟩)
      · exact lt_irrefl 0 hpos
      · exact Nat.not_lt_zero 1 hpos
    · exact fun hup => List.not_mem_nil hup.2
  workers w := by
    refine iff_of_false (not_not.2 (hfresh.cleanWorkers w)) ?_
    rintro (⟨n, _, hlt, _⟩ | ⟨hpos, _⟩)
    · exact Nat.not_lt_zero n hlt
    · exact lt_irrefl 0 hpos
  kept i p q hpq r hlt := by
    rcases Prod.Lex.lt_iff.1 hlt with hlt | ⟨heq, -⟩
    · exact absurd hlt (Nat.not_lt_zero _)
    · exact absurd heq (Nat.succ_ne_zero r)
  waited i hi p q hpq hst :=
    absurd hst (List.idxOf_lt_length_of_mem (mem_of_flag hi)).ne'

/-- The checks of a `set`, and whom the tracker asks for next, change nothing that matters. -/
theorem Inv.checked {h : Ordered D.calls} (hinv : s.Inv D h) (checked : Bool) {unseen : List ℕ}
    (hunseen : ∀ w ∈ unseen, w ∈ (s.procs p).unseen) :
    Inv D h (s.setProc p { s.procs p with checked := checked, unseen := unseen }) := by
  have hok := hinv.ok p
  refine hinv.move ⟨hok.suffix, hok.fresh, hok.proc, hok.error,
    fun w hw => hok.unseen w (hunseen w hw), hok.configured, hok.connected, hok.right⟩
    (fun k => ?_) (fun w => ?_) le_rfl (fun n w _ hle => ?_) fun i hi q hpq hmem hle => ?_
  · rw [hinv.content]
    rcases eq_or_ne k.owner p with hk | hk
    · rw [hk, Function.update_self]
      rfl
    · rw [Function.update_of_ne hk]
  · rw [hinv.workers]
    rcases eq_or_ne (D.worker w) p with hw | hw
    · rw [hw, Function.update_self]
      rfl
    · rw [Function.update_of_ne hw]
  · exact (Prod.Lex.le_iff.1 hle).elim le_of_lt fun heq => heq.1.le
  · have hst : (s.procs p).stage D ≤ awaitStage D.calls i := by
      rcases Prod.Lex.le_iff.1 hle with hlt | ⟨-, hle⟩
      · exact absurd hlt (lt_irrefl _)
      · exact hle
    refine hinv.waited i hi p q hpq (hst.antisymm (not_lt.1 fun hlt => hmem ?_)) hmem
    refine Process.mem_todo h hok.suffix (Deployment.mem_script.2 ⟨hpq.2.1, ?_⟩) hlt
    rintro _ ⟨⟩
    exact hpq.2.2

theorem Inv.step {h : Ordered D.calls} (hinv : s.Inv D h) (hh : s.Happens D e s') : s'.Inv D h := by
  cases hh with
  | started p hp hpr => exact hinv.started hp hpr
  | done p hpr he hunseen => exact hinv.next hpr he hunseen
  | checked => exact hinv.checked true fun _ hw => hw
  | retried p _ hunseen => exact hinv.checked _ hunseen

/-- In every run, the invariant holds and no step throws. -/
theorem Inv.run {tr : List Event} (hfresh : D.Fresh memc)
    (hrun : (D.machine memc).Run Any tr s) : s.Inv D D.ordered :=
  hrun.invariant (P := fun _ s => s.Inv D D.ordered) (Inv.init _ hfresh)
    fun _ _ _ _ _ hinv ⟨_, _, hst⟩ => hinv.step (hinv.happens hfresh hst)

end State

/-- A deployment with one server and one client, the processes 1 and 2. -/
def twoProcesses (P : Program) : Deployment where
  program := P
  num_servers := 1
  num_clients := 1
  run_ml_workload _ := false
  info round _ p q := ⟨0, .ofNat p, .ofNat q, .ofNat round, 0⟩

theorem twoProcesses_fresh (P : Program) : (twoProcesses P).Fresh fun _ => none :=
  ⟨Nat.one_pos, Nat.one_pos, fun _ _ _ h => absurd h Bool.false_ne_true, fun _ => rfl, fun _ => rfl⟩

/-- A deployment of `disco-skip` with two clients, the tracker and a worker. -/
def threeProcesses (ml : ℕ → Bool) : Deployment where
  program := .discoSkip
  num_servers := 1
  num_clients := 2
  run_ml_workload := ml
  info round _ p q := ⟨0, .ofNat p, .ofNat q, .ofNat round, 0⟩

/-- The processes are started, and make `n` steps each in turn. -/
def inTurn (ps : List ℕ) (n : ℕ) : List Action :=
  ps.map .start ++ (List.replicate n (ps.map Action.step)).flatten

section Results

variable {memc : Memc} {tr : List Event} {s : State}

/-- No process ever throws, and every connection is to the queue pair of the other process
    for this one, in the run with the same number. -/
theorem connectedInPairs (hfresh : D.Fresh memc) (hrun : (D.machine memc).Run Any tr s) :
    (∀ p, (s.procs p).error = none) ∧ ∀ p t q rc, (s.procs p).rcs t q = some (.connected rc) →
      rc = some (D.info (s.procs p).round t q p) :=
  have hinv := State.Inv.run hfresh hrun
  ⟨fun p => (hinv.ok p).error, fun p => (hinv.ok p).right⟩

/-- For instance, where both have been started a second time, and have connected again. -/
theorem connectedInPairs_again :
    ∃ tr s, ((twoProcesses .discoSkip).machine fun _ => none).Run Any tr s ∧
      (s.procs 2).rcs .qp 1 = some (.connected (some ⟨0, 1, 2, 2, 0⟩)) ∧
      (∀ p, (s.procs p).error = none) ∧ ∀ p t q rc, (s.procs p).rcs t q = some (.connected rc) →
        rc = some ((twoProcesses .discoSkip).info (s.procs p).round t q p) := by
  obtain ⟨tr, s, hrun, hrcs⟩ := Lib.Machine.exists_run_of_play
    (m := (twoProcesses .discoSkip).machine fun _ => none) (G := Any)
    (fun r => (r.2.procs 2).rcs .qp 1) (inTurn [1, 2] 22 ++ inTurn [1, 2] 13)
    (b := some (.connected (some ⟨0, 1, 2, 2, 0⟩))) (by decide +kernel)
  exact ⟨tr, s, hrun, hrcs, connectedInPairs (twoProcesses_fresh _) hrun⟩

/-- A client that runs its workload, or has just done so. -/
def Deployment.Works (D : Deployment) (s : State) (p : ℕ) : Prop :=
  D.isClient p ∧ ∃ op ∈ (s.procs p).todo.head?,
    op.call ∈ D.program.workload ++ [⟨.qp, .announceReady .finished⟩]

/-- The stages around the workload. -/
theorem Program.stages (P : Program) : (.qp, .initialized) ∈ flags P.calls ∧
    (.qp, .finished) ∈ flags P.calls ∧
    (∀ c ∈ P.workload ++ [⟨.qp, .announceReady .finished⟩],
      awaitStage P.calls (.qp, .initialized) < stage P.calls c ∧
        stage P.calls c ≤ raiseStage P.calls (.qp, .finished)) ∧
    awaitStage P.calls (.qp, .finished) < (P.calls true).length ∧
    ∀ t, ⟨t, .connectAll⟩ ∈ P.calls true →
      stage P.calls ⟨t, .connectAll⟩ < raiseStage P.calls (.qp, .initialized) := by
  cases P <;> refine ⟨by decide, by decide, by decide, by decide, fun t => ?_⟩ <;>
    cases t <;> decide

theorem Program.mem_flags {P : Program} {r : Reason} (h : ⟨t, .waitReadyAll r⟩ ∈ P.calls true) :
    (t, r) ∈ flags P.calls := by
  revert h
  cases P <;> cases t <;> cases r <;> decide

/-- While a client works, every process is in the same run, has connected all its queue
    pairs, and has said that it is initialized (so that the first client has loaded the
    initial pairs), and none of them has ended. -/
theorem workTogether (hfresh : D.Fresh memc) (hrun : (D.machine memc).Run Any tr s) {p q : ℕ}
    (hp : D.Works s p) (hq : D.Proc q) :
    (s.procs q).round = (s.procs p).round ∧ (s.procs q).todo ≠ [] ∧
      .announceReady .qp .initialized ∉ (s.procs q).todo ∧
      ∀ t, ⟨t, .connectAll⟩ ∈ D.calls true → ∀ i ∈ D.remote_ids q t,
        (s.procs q).rcs t i = some (.connected (some (D.info (s.procs q).round t i q))) := by
  have hinv := State.Inv.run hfresh hrun
  obtain ⟨hinit, hfin, hpast, hend, hconn⟩ := D.program.stages
  obtain ⟨hclient, op, hhead, hwork⟩ := hp
  obtain ⟨todo, htodo⟩ := List.head?_eq_some_iff.1 hhead
  have hround := hinv.round_pos htodo
  have hproc := (hinv.ok p).proc hround
  have hst : (s.procs p).stage D = stage D.calls op.call := by rw [Process.stage, htodo]
  obtain ⟨hpast, hbefore⟩ := hst ▸ hpast op.call hwork
  -- `q` is between its being initialized and the last barrier
  have hbetween : (s.procs q).round = (s.procs p).round ∧
      raiseStage D.calls (.qp, .initialized) < (s.procs q).stage D ∧
        (s.procs q).stage D ≤ awaitStage D.calls (.qp, .finished) := by
    rcases eq_or_ne q p with rfl | hne
    · exact ⟨rfl, (D.ordered.raise_lt _ hinit).2.trans hpast,
        hbefore.trans (D.ordered.raise_lt _ hfin).2.le⟩
    · have hrem := Deployment.mem_remote_ids_qp.2 ⟨hq, hne⟩
      have hwait : D.WaitsFor (.qp, .initialized) p q := by
        refine ⟨hproc, ?_, hrem⟩
        rw [hclient]
        exact mem_of_flag hinit
      exact hinv.same_round hinit hfin hwait
        (D.waitsFor D.ordered hfin (by simp) hproc hrem).2 hround hpast hbefore
  obtain ⟨heq, hlt, hle⟩ := hbetween
  have hpos : 0 < (s.procs q).round := heq ▸ hround
  refine ⟨heq, fun hnil => ?_, fun hmem => ?_, fun t ht i hi => ?_⟩
  · rw [Process.stage, hnil] at hle
    exact hle.not_gt hend
  · exact (Process.stage_le D.ordered (hinv.ok q).suffix hmem).not_gt hlt
  · refine (hinv.ok q).connected t i hi ht hpos fun hmem => ?_
    exact (Process.stage_le D.ordered (hinv.ok q).suffix hmem).not_gt ((hconn t ht).trans hlt)

/-- For instance, in a deployment with an index. -/
theorem workTogether_swarmKv :
    ∃ tr s, ((twoProcesses .swarmKv).machine fun _ => none).Run Any tr s ∧
      (s.procs 1).round = (s.procs 2).round ∧ (s.procs 1).todo ≠ [] ∧
      .announceReady .qp .initialized ∉ (s.procs 1).todo ∧
      ∀ t, ⟨t, .connectAll⟩ ∈ (twoProcesses .swarmKv).calls true →
        ∀ i ∈ (twoProcesses .swarmKv).remote_ids 1 t, (s.procs 1).rcs t i =
          some (.connected (some ((twoProcesses .swarmKv).info (s.procs 1).round t i 1))) := by
  obtain ⟨tr, s, hrun, hhead⟩ := Lib.Machine.exists_run_of_play
    (m := (twoProcesses .swarmKv).machine fun _ => none) (G := Any)
    (fun r => (r.2.procs 2).todo.head?) (inTurn [1, 2] 31)
    (b := some (.announceReady .qp .finished)) (by decide +kernel)
  exact ⟨tr, s, hrun, workTogether (twoProcesses_fresh _) hrun ⟨rfl, _, hhead, by decide⟩
    (by decide)⟩

/-- The event is that of a step of the process `p` that gets somewhere. -/
def Event.Progress (p : ℕ) : Event → Prop
  | .checked i _ | .done i _ => i = p
  | _ => False

instance (p : ℕ) : DecidablePred (Event.Progress p)
  | .checked .. | .done .. => inferInstanceAs (Decidable (_ = _))
  | .started .. | .retried .. | .threw .. => .isFalse id

/-- The step has to be tried again. -/
inductive Outcome.Waits : Outcome → Prop
  | retry : Waits .retry
  | notSeen (unseen : List ℕ) : Waits (.notSeen unseen)

/-- A worker says that it is done in the runs with `--ml`. -/
theorem Deployment.workerDone_mem_iff {w : ℕ} : .workerDone w ∈ D.script (D.worker w) n ↔
    D.program = .discoSkip ∧ w ≠ 0 ∧ D.run_ml_workload n := by
  refine ⟨fun hop => ⟨program_of_workerDone hop, (of_workerDone hop).2⟩, ?_⟩
  rintro ⟨hprog, hw, hml⟩
  have hclient : D.isClient (D.worker w) = true := decide_eq_true (by rw [worker]; omega)
  have hgid : D.global_thread_id (D.worker w) = w := by
    rw [global_thread_id, worker]
    omega
  refine mem_script.2 ⟨?_, ?_⟩
  · rw [hclient, calls, hprog]
    exact (by decide : (⟨.qp, .workerDone⟩ : Call) ∈ Program.calls .discoSkip true)
  · rintro _ ⟨⟩
    change w ∈ ite _ _ _
    rw [hgid, if_pos ⟨hml, hw⟩]
    exact List.mem_singleton_self w

/-- The workers that the tracker asks for have something to do before. -/
theorem Deployment.workerDone_mem {i w : ℕ} (hop : .awaitWorker i ∈ D.script p n)
    (hw : w ∈ List.range' 1 (D.num_clients - 1)) :
    D.Proc (D.worker w) ∧ .workerDone w ∈ D.script (D.worker w) n := by
  obtain ⟨hcall, hids⟩ := mem_script.1 hop
  have hi : i ∈ D.ids p n ⟨.qp, .awaitWorkers⟩ := hids i rfl
  have hprog : D.program = .discoSkip := by
    have hcall : ⟨.qp, .awaitWorkers⟩ ∈ D.program.calls (D.isClient p) := hcall
    revert hcall
    cases D.program <;> cases D.isClient p <;> decide
  rw [List.mem_range'_1] at hw
  refine ⟨⟨by rw [worker]; omega, by rw [worker, num_proc]; omega⟩,
    workerDone_mem_iff.2 ⟨hprog, Nat.pos_iff_ne_zero.1 hw.1, ?_⟩⟩
  change i ∈ ite _ _ _ at hi
  split at hi
  · next hml => exact hml.1
  · exact absurd hi List.not_mem_nil

/-- A process that is not ahead of the others does not wait for them. -/
theorem State.Inv.not_waits {h : Ordered D.calls} (hinv : s.Inv D h)
    (hpr : (s.procs p).todo = op :: todo)
    (hleast : ∀ q, D.Proc q → (s.procs p).time D ≤ (s.procs q).time D) :
    ¬(op.run D p (s.procs p) s.memc).Waits := by
  intro hwaits
  have hround := hinv.round_pos hpr
  obtain ⟨n, hn⟩ := Nat.exists_eq_succ_of_ne_zero hround.ne'
  have hop := (hinv.ok p).suffix.subset (hpr ▸ List.mem_cons_self)
  have hp := (hinv.ok p).proc hround
  have hst : (s.procs p).stage D = stage D.calls op.call := by rw [Process.stage, hpr]
  rcases op.run_cases (D := D) (p := p) (s.procs p) s.memc with
    ⟨_, _, hrun⟩ | ⟨_, hrun⟩ | ⟨_, hrun⟩ | ⟨⟨t, q, r, rfl, hnone⟩, -⟩ |
    ⟨i, w, unseen, rfl, heq, hrun | ⟨hnone, -⟩⟩
  · rw [hrun] at hwaits
    cases hwaits
  · rw [hrun] at hwaits
    cases hwaits
  · rw [hrun] at hwaits
    cases hwaits
  · -- the other process has come as far as its flag
    obtain ⟨hcall, hrem⟩ := Deployment.mem_script.1 hop
    have hq : q ∈ D.remote_ids p t := hrem q rfl
    have hflag : (t, r) ∈ flags D.calls := D.program.mem_flags (h.mem_true hcall)
    have hpq : (D.barriers h).WaitsFor ⟨(t, r), hflag⟩ p q := ⟨hp, hcall, hq⟩
    have hup := hinv.kept.up_of_le (r := n) hpq (congrArg toLex (Prod.ext hn hst))
      (hleast q (Deployment.remote_symm hp hq).1)
    rw [← (hinv.ok q).up_iff h hflag] at hup
    have hup : (s.procs q).Up D (.ready t q r) := hup
    rw [hinv.content] at hnone
    cases (if_pos hup).symm.trans hnone
  · rw [hrun] at hwaits
    cases hwaits
  · -- the worker has said that it is done, in this run
    have hw := (hinv.ok p).unseen w (heq ▸ List.mem_cons_self)
    obtain ⟨hq, hdone⟩ := Deployment.workerDone_mem hop hw
    refine (hinv.workers w).2 ?_ hnone
    rcases Prod.Lex.le_iff.1 (hleast _ hq) with hlt | ⟨hsame, hle⟩
    · exact .inl ⟨_, hround, hlt, hdone⟩
    · have hsame : (s.procs p).round = (s.procs (D.worker w)).round := hsame
      refine .inr ⟨hsame ▸ hround, hsame ▸ hdone, fun hmem => ?_⟩
      have hlt := h.workers (h.mem_true (Deployment.mem_script.1 hop).1)
      exact (Process.stage_le h (hinv.ok _).suffix hmem).not_gt (hlt.trans_le (hst ▸ hle))

/-- A process makes progress unless it has to wait. -/
theorem State.Inv.exists_progress {h : Ordered D.calls} (hinv : s.Inv D h) (hfresh : D.Fresh memc)
    (hpr : (s.procs p).todo = op :: todo) (hno : ¬(op.run D p (s.procs p) s.memc).Waits) :
    ∃ e s', (D.machine memc).step s (.step p) = some (e, s') ∧ e.Progress p := by
  have hstep : (D.machine memc).step s (.step p) = s.step D p := rfl
  have hfine := hinv.fine hfresh.servers hfresh.clients hfresh.once hpr
  rw [hstep, State.step, (hinv.ok p).error, hpr]
  dsimp only
  cases hrun : op.run D p (s.procs p) s.memc with
  | throws msg =>
    rw [hrun] at hfine
    cases hfine
  | retry => exact absurd (hrun ▸ .retry) hno
  | notSeen unseen => exact absurd (hrun ▸ .notSeen unseen) hno
  | next memc' rcs => exact ⟨_, _, rfl, rfl⟩
  | seen unseen => exact ⟨_, _, rfl, rfl⟩
  | checked => exact ⟨_, _, rfl, rfl⟩

/-- How many steps the scripts of a process have in its first runs. -/
def Deployment.steps (D : Deployment) (p rounds : ℕ) : ℕ :=
  ∑ r ∈ Finset.range rounds, (D.script p (r + 1)).length

/-- What a process has done in its runs, and what it has yet to do: each step of the script is
    two of the process at most. -/
def Process.Budget (D : Deployment) (p n : ℕ) (pr : Process) : Prop :=
  n + 2 * pr.todo.length ≤ 2 * D.steps p pr.round + (if pr.checked then 1 else 0) ∧
    (pr.todo = [] → pr.checked = false)

theorem State.Happens.budget {e : Event} {s' : State} (hh : s.Happens D e s') {n : ℕ}
    (hb : (s.procs p).Budget D p n) :
    (s'.procs p).Budget D p (n + if e.Progress p then 1 else 0) := by
  have hother : ∀ {p'} (pr' : Process), p ≠ p' → Function.update s.procs p' pr' p = s.procs p :=
    fun pr' hne => Function.update_of_ne hne _ _
  cases hh with
  | retried p' =>
    change (Function.update s.procs p' _ p).Budget D p (n + 0)
    rcases eq_or_ne p p' with rfl | hne
    · rw [Function.update_self]
      exact hb
    · rw [hother _ hne]
      exact hb
  | started p' hp' hpr =>
    change (Function.update s.procs p' _ p).Budget D p (n + 0)
    rcases eq_or_ne p p' with rfl | hne
    · obtain ⟨hle, hchecked⟩ := hb
      simp only [hpr, hchecked hpr, List.length_nil] at hle
      have hsteps : D.steps p ((s.procs p).round + 1) =
          D.steps p (s.procs p).round + (D.script p ((s.procs p).round + 1)).length :=
        Finset.sum_range_succ _ _
      rw [Function.update_self]
      refine ⟨?_, fun _ => rfl⟩
      change n + 0 + 2 * (D.script p ((s.procs p).round + 1)).length ≤
        2 * D.steps p ((s.procs p).round + 1) + 0
      simp only [Bool.false_eq_true, if_false] at hle
      omega
    · rw [hother _ hne]
      exact hb
  | @done p' op todo hpr memc' rcs he =>
    change (Function.update s.procs p' _ p).Budget D p (n + if p' = p then 1 else 0)
    rcases eq_or_ne p p' with rfl | hne
    · obtain ⟨hle, -⟩ := hb
      rw [hpr, List.length_cons] at hle
      simp only [Process.Budget, Function.update_self, Bool.false_eq_true, if_false, if_true]
      refine ⟨?_, fun _ => trivial⟩
      split at hle <;> omega
    · rw [if_neg (Ne.symm hne), hother _ hne]
      exact hb
  | @checked p' op todo hpr hno =>
    change (Function.update s.procs p' _ p).Budget D p (n + if p' = p then 1 else 0)
    rcases eq_or_ne p p' with rfl | hne
    · obtain ⟨hle, -⟩ := hb
      rw [hno] at hle
      simp only [Process.Budget, Function.update_self, if_true]
      refine ⟨?_, fun hnil => ?_⟩
      · rw [Nat.add_right_comm]
        exact Nat.succ_le_succ (by simpa using hle)
      · rw [hpr] at hnil
        cases hnil
    · rw [if_neg (Ne.symm hne), hother _ hne]
      exact hb

/-- The processes never wait for each other in a circle: as long as some process has not
    ended, and none of those that have must be started again first, one can go on. And each
    of them can only make so many steps in a run, but for those that have to be tried again. -/
theorem neverStuck (hfresh : D.Fresh memc) (hrun : (D.machine memc).Run Any tr s) :
    ((∃ p, (s.procs p).todo ≠ []) →
      (∀ p q, D.Proc p → (s.procs p).todo = [] → (s.procs q).round ≤ (s.procs p).round) →
      ∃ p e s', (D.machine memc).step s (.step p) = some (e, s') ∧ e.Progress p) ∧
    ∀ p, tr.countP (fun e => e.Progress p) ≤ 2 * D.steps p (s.procs p).round := by
  have hinv := State.Inv.run hfresh hrun
  refine ⟨fun ⟨p₀, hp₀⟩ hstarted => ?_, fun p => ?_⟩
  · obtain ⟨_, ⟨p, hpr, rfl⟩, hleast⟩ := (wellFounded_lt (α := Time)).has_min
      {t | ∃ p, (s.procs p).todo ≠ [] ∧ (s.procs p).time D = t} ⟨_, p₀, hp₀, rfl⟩
    obtain ⟨op, todo, hpr⟩ := List.exists_cons_of_ne_nil hpr
    have hfirst : ∀ q, D.Proc q → (s.procs p).time D ≤ (s.procs q).time D := by
      intro q hq
      by_cases hnil : (s.procs q).todo = []
      · -- it has ended, so it has come as far as `p` at least
        have hstage : (s.procs q).stage D = (D.calls true).length := by rw [Process.stage, hnil]
        refine Prod.Lex.le_iff.2 ((hstarted q p hq hnil).lt_or_eq.imp id fun heq => ⟨heq, ?_⟩)
        change (s.procs p).stage D ≤ (s.procs q).stage D
        rw [hstage, Process.stage, hpr]
        exact (D.ordered.stage_lt ((hinv.ok p).suffix.subset (hpr ▸ List.mem_cons_self))).le
      · exact not_lt.1 (hleast _ ⟨q, hnil, rfl⟩)
    exact ⟨p, hinv.exists_progress hfresh hpr (hinv.not_waits hpr hfirst)⟩
  · have hbudget : ∀ tr s, (D.machine memc).Run Any tr s →
        (s.procs p).Budget D p (tr.countP fun e => e.Progress p) := by
      intro tr s hrun
      refine hrun.invariant (P := fun tr s => (s.procs p).Budget D p
        (tr.countP fun e => e.Progress p)) ⟨Nat.zero_le _, fun _ => rfl⟩ ?_
      rintro tr s e s' hrun hb ⟨_, _, hst⟩
      have := ((State.Inv.run hfresh hrun).happens hfresh hst).budget hb
      rw [List.countP_cons]
      simp only [decide_eq_true_eq]
      exact this
    obtain ⟨hle, hchecked⟩ := hbudget tr s hrun
    by_cases hnil : (s.procs p).todo = []
    · rw [hnil, hchecked hnil] at hle
      exact hle
    · have hpos := List.length_pos_of_ne_nil hnil
      split at hle <;> omega

/-- For instance, where the client waits for the server to be prepared. -/
theorem neverStuck_waiting :
    ∃ tr s, ((twoProcesses .discoSkip).machine fun _ => none).Run Any tr s ∧
      .retried 2 (.waitReady .qp 1 .prepared) ∈ tr ∧
      (∃ p e s', ((twoProcesses .discoSkip).machine fun _ => none).step s (.step p) =
        some (e, s') ∧ e.Progress p) ∧
      ∀ p, tr.countP (fun e => e.Progress p) ≤
        2 * (twoProcesses .discoSkip).steps p (s.procs p).round := by
  obtain ⟨tr, s, hrun, hmem⟩ := Lib.Machine.exists_run_of_play
    (m := (twoProcesses .discoSkip).machine fun _ => none) (G := Any)
    (fun r => (decide (Event.retried 2 (.waitReady .qp 1 .prepared) ∈ r.1),
      (r.2.procs 1).todo.length, (r.2.procs 2).todo.length))
    (.start 1 :: .start 2 :: List.replicate 8 (.step 2)) (b := (true, 16, 13)) (by decide +kernel)
  simp only [Prod.mk.injEq, decide_eq_true_eq] at hmem
  obtain ⟨hmem, hone, htwo⟩ := hmem
  have hne : ∀ p, (twoProcesses .discoSkip).Proc p → (s.procs p).todo ≠ [] := by
    rintro p ⟨hlo, hhi⟩ hnil
    have hp : p = 1 ∨ p = 2 := by
      change p ≤ 2 at hhi
      omega
    rcases hp with rfl | rfl
    · rw [hnil] at hone
      cases hone
    · rw [hnil] at htwo
      cases htwo
  obtain ⟨hstep, hcount⟩ := neverStuck (twoProcesses_fresh .discoSkip) hrun
  exact ⟨tr, s, hrun, hmem, hstep ⟨1, hne 1 (by decide)⟩ fun p q hp hnil =>
    absurd hnil (hne p hp), hcount⟩

/-- The keys that are carried over to the next run. -/
theorem Key.carried_iff (k : Key) : k.Carried D ↔ (∃ p, k = .ready .qp p .finished) ∨
    D.program = .swarmKv ∧ ∃ p, k = .ready .race p .connected := by
  have hall : ∀ (P : Program) (t : Topic) (r : Reason),
      stage P.calls ⟨t, .unannounceReady r⟩ < stage P.calls ⟨t, .announceReady r⟩ ↔
        (t = .qp ∧ r = .finished) ∨ P = .swarmKv ∧ t = .race ∧ r = .connected := by
    intro P t r
    cases P <;> cases t <;> cases r <;> decide
  cases k with
  | announce t p q =>
    refine iff_of_false (Key.announce_not_carried D.ordered t p q) ?_
    rintro (⟨_, h⟩ | ⟨_, _, h⟩) <;> cases h
  | ready t p r =>
    refine (hall D.program t r).trans (or_congr ?_ (and_congr_right fun _ => ?_)) <;>
      simp [Key.ready.injEq]

/-- A process that has ended leaves nothing in the registry but that it is finished, and that
    its index is connected, and a worker of `--ml` that it is done. -/
theorem leavesBehind (hfresh : D.Fresh memc) (hrun : (D.machine memc).Run Any tr s)
    (hend : (s.procs p).todo = []) (hstarted : 0 < (s.procs p).round) :
    (∀ k : Key, k.owner = p → (s.memc k.name ≠ none ↔
      k = .ready .qp p .finished ∨ D.program = .swarmKv ∧ k = .ready .race p .connected)) ∧
    ∀ w, D.worker w = p → (s.memc (workerDoneName w) ≠ none ↔ D.program = .discoSkip ∧ w ≠ 0 ∧
      ∃ n, 0 < n ∧ n ≤ (s.procs p).round ∧ D.run_ml_workload n) := by
  have hinv := State.Inv.run hfresh hrun
  refine ⟨fun k hk => ?_, fun w hw => ?_⟩
  · have hup : (s.procs p).Up D k ↔ k.Carried D := by
      rw [Process.Up, hend]
      split
      · next hc => simp [hc, hstarted]
      · next hc => simp [hc]
    have hcontent : (s.procs p).content D k ≠ none ↔ (s.procs p).Up D k := by
      rw [Process.content]
      split
      · next h => simp [h]
      · next h => simp [h]
    rw [hinv.content, hk, hcontent, hup, Key.carried_iff]
    subst hk
    refine or_congr ?_ (and_congr_right fun _ => ?_) <;>
      exact ⟨by rintro ⟨_, rfl⟩; rfl, fun h => ⟨_, h⟩⟩
  · subst hw
    rw [hinv.workers]
    constructor
    · rintro (⟨n, hpos, hlt, hop⟩ | ⟨hpos, hop, -⟩)
      · obtain ⟨hprog, hw, hml⟩ := Deployment.workerDone_mem_iff.1 hop
        exact ⟨hprog, hw, n, hpos, hlt.le, hml⟩
      · obtain ⟨hprog, hw, hml⟩ := Deployment.workerDone_mem_iff.1 hop
        exact ⟨hprog, hw, _, hpos, le_rfl, hml⟩
    · rintro ⟨hprog, hw, n, hpos, hle, hml⟩
      have hop := Deployment.workerDone_mem_iff.2 ⟨hprog, hw, hml⟩
      rcases hle.lt_or_eq with hlt | rfl
      · exact .inl ⟨n, hpos, hlt, hop⟩
      · exact .inr ⟨hpos, hop, hend ▸ List.not_mem_nil⟩

/-- For instance, where the worker has ended that was started with `--ml`. -/
theorem leavesBehind_worker :
    ∃ tr s, ((threeProcesses fun n => n = 1).machine fun _ => none).Run Any tr s ∧
      (∀ k : Key, k.owner = 3 → (s.memc k.name ≠ none ↔ k = .ready .qp 3 .finished ∨
        Program.discoSkip = .swarmKv ∧ k = .ready .race 3 .connected)) ∧
      ∀ w, (threeProcesses fun n => n = 1).worker w = 3 → (s.memc (workerDoneName w) ≠ none ↔
        Program.discoSkip = .discoSkip ∧ w ≠ 0 ∧
          ∃ n, 0 < n ∧ n ≤ (s.procs 3).round ∧ (decide (n = 1) : Bool)) := by
  have hfresh : (threeProcesses fun n => n = 1).Fresh fun _ => none := by
    refine ⟨by decide, by decide, fun _ n n' hn hn' => ?_, fun _ => rfl, fun _ => rfl⟩
    exact (of_decide_eq_true hn).trans (of_decide_eq_true hn').symm
  obtain ⟨tr, s, hrun, heq⟩ := Lib.Machine.exists_run_of_play
    (m := (threeProcesses fun n => n = 1).machine fun _ => none) (G := Any)
    (fun r => ((r.2.procs 3).todo, (r.2.procs 3).round)) (inTurn [1, 2, 3] 33)
    (b := ([], 1)) (by decide +kernel)
  obtain ⟨hend, hround⟩ := Prod.mk.inj heq
  exact ⟨tr, s, hrun, leavesBehind hfresh hrun hend (hround ▸ Nat.one_pos)⟩

end Results

end DiscoSkip.Exchange
