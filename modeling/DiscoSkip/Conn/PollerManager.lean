import Mathlib.Algebra.Order.Group.Nat
import Mathlib.Data.List.Sort
import DiscoSkip.Lib.Machine
import DiscoSkip.Lib.Put

/-!
# The shared completion queue

Several contexts share a completion queue, each with a *kind* that its work requests
carry. The poller of a context takes completions from the queue, keeps those of its own
kind, and puts the others in queues to the pollers of their kinds; before, it drains the
queues that lead to itself.

* `PollerManager`: the registration of the contexts, the queues between all of them, and
  the queues each poller reads and writes;
* `State.step`: a call of a poller goes on with a single access to a queue or to the
  completion queue, or by looking at the next entry; the calls of different pollers may
  come in between.

That a completion is in one place is seen from where it was taken: the entries carry the
poller that took them from the completion queue, which the source does not store.
-/

namespace DiscoSkip.Conn

open Lib

/-- A work completion: the id of the request, which has the kind of its context in it,
    and the status. -/
structure WC where
  wrId : BitVec 64
  status : ℕ
deriving DecidableEq

/-- A completion with the poller that took it from the completion queue. -/
structure Taken (κ : Type*) where
  wc : WC
  takenBy : κ
deriving DecidableEq

/-! ## The manager -/

/-- The poller of a kind: the kinds of the pollers whose queues lead to it, and those its
    queues lead to. -/
structure ContextedPoller (κ : Type*) where
  contextKind : κ
  froms : List κ
  tos : List κ

structure PollerManager (κ : Type*) where
  contexts : List κ
  /-- The kinds of the pollers that a queue leads from, and to. -/
  queues : List (κ × κ)
  done : Bool

namespace PollerManager

variable {κ : Type*} [LinearOrder κ]

def init : PollerManager κ := ⟨[], [], false⟩

/-- It throws if the kind is registered. -/
def registerContext (m : PollerManager κ) (contextKind : κ) : Option (PollerManager κ) :=
  if contextKind ∈ m.contexts then none
  else some { m with contexts := m.contexts.orderedInsert (· ≤ ·) contextKind }

/-- It returns once the expected number of contexts is registered. -/
def endRegistrations (m : PollerManager κ) (expectedNrContexts : ℕ) : Option (PollerManager κ) :=
  if m.contexts.length = expectedNrContexts then
    some (if m.done then m
      else { m with
        done := true
        queues := m.contexts.flatMap fun cidFrom =>
          (m.contexts.filter (cidFrom ≠ ·)).map (cidFrom, ·) })
  else none

/-- It throws if the registrations have not ended, or without the kind. -/
def getPoller (m : PollerManager κ) (contextKind : κ) : Option (ContextedPoller κ) :=
  if m.done ∧ contextKind ∈ m.contexts then
    some
      { contextKind
        froms := (m.queues.filter (contextKind = ·.2)).map Prod.fst
        tos := (m.queues.filter (contextKind = ·.1)).map Prod.snd }
  else none

/-- The manager of the kinds, after their registrations. -/
def ofKinds (kinds : List κ) : Option (PollerManager κ) :=
  (kinds.foldlM registerContext init).bind (·.endRegistrations kinds.length)

variable {m m' : PollerManager κ} {kinds : List κ} {f l k : κ} {p : ContextedPoller κ}

/-- A registration adds the kind, and nothing else. -/
theorem registerContext_spec (h : m.registerContext k = some m') :
    m'.queues = m.queues ∧ m'.done = m.done ∧ ∀ l, l ∈ m'.contexts ↔ l = k ∨ l ∈ m.contexts := by
  rw [registerContext] at h
  split at h
  · exact nomatch h
  · obtain rfl := Option.some.inj h
    exact ⟨rfl, rfl, fun l => List.mem_orderedInsert _⟩

theorem foldlM_registerContext_spec (h : kinds.foldlM registerContext m = some m') :
    m'.queues = m.queues ∧ m'.done = m.done ∧
      ∀ l, l ∈ m'.contexts ↔ l ∈ kinds ∨ l ∈ m.contexts := by
  induction kinds generalizing m with
  | nil =>
    obtain rfl := Option.some.inj h
    exact ⟨rfl, rfl, fun l => by simp⟩
  | cons k kinds ih =>
    rw [List.foldlM_cons] at h
    obtain ⟨m₁, h₁, h⟩ := Option.bind_eq_some_iff.1 h
    obtain ⟨hq₁, hd₁, hc₁⟩ := registerContext_spec h₁
    obtain ⟨hq, hd, hc⟩ := ih h
    refine ⟨hq.trans hq₁, hd.trans hd₁, fun l => ?_⟩
    rw [hc, hc₁, List.mem_cons]
    tauto

/-- After the registrations there is a queue between any two of the kinds. -/
theorem ofKinds_spec (h : ofKinds kinds = some m) :
    m.done = true ∧ (∀ l, l ∈ m.contexts ↔ l ∈ kinds) ∧
      ∀ f l, (f, l) ∈ m.queues ↔ f ∈ kinds ∧ l ∈ kinds ∧ f ≠ l := by
  obtain ⟨m₁, h₁, h⟩ := Option.bind_eq_some_iff.1 h
  obtain ⟨-, hd, hc⟩ := foldlM_registerContext_spec h₁
  have hmem : ∀ l, l ∈ m₁.contexts ↔ l ∈ kinds := fun l => by simpa [init] using hc l
  rw [endRegistrations] at h
  split at h
  · rw [hd] at h
    obtain rfl := Option.some.inj h
    refine ⟨rfl, hmem, fun f l => ?_⟩
    simp only [init, Bool.false_eq_true, if_false, List.mem_flatMap, List.mem_map, List.mem_filter,
      decide_eq_true_eq, Prod.mk.injEq, hmem]
    constructor
    · rintro ⟨f', hf', l', ⟨hl', hne⟩, rfl, rfl⟩
      exact ⟨hf', hl', hne⟩
    · rintro ⟨hf, hl, hne⟩
      exact ⟨f, hf, l, ⟨hl, hne⟩, rfl, rfl⟩
  · exact nomatch h

theorem getPoller_spec (h : m.getPoller k = some p) :
    k ∈ m.contexts ∧ (∀ f, f ∈ p.froms ↔ (f, k) ∈ m.queues) ∧
      ∀ l, l ∈ p.tos ↔ (k, l) ∈ m.queues := by
  rw [getPoller] at h
  split at h
  · next hk =>
    obtain rfl := Option.some.inj h
    refine ⟨hk.2, fun f => ?_, fun l => ?_⟩ <;> simp [List.mem_map, List.mem_filter]
  · exact nomatch h

/-- A queue leads to the poller that drains it. -/
theorem exists_getPoller_of_tos (h : ofKinds kinds = some m) (hp : m.getPoller k = some p)
    (hl : l ∈ p.tos) : ∃ q, m.getPoller l = some q ∧ k ∈ q.froms := by
  obtain ⟨hd, hc, hq⟩ := ofKinds_spec h
  have hkl := ((getPoller_spec hp).2.2 l).1 hl
  have hmem : l ∈ m.contexts := (hc l).2 ((hq k l).1 hkl).2.1
  obtain ⟨q, hget⟩ : ∃ q, m.getPoller l = some q := ⟨_, if_pos ⟨hd, hmem⟩⟩
  exact ⟨q, hget, ((getPoller_spec hget).2.1 k).2 hkl⟩

end PollerManager

/-! ## The pollers -/

/-- Where a call of a poller is. -/
inductive Phase (κ : Type*)
  /-- It drains the queues of the pollers `from`. -/
  | draining (froms : List κ)
  /-- It is at the entry `i` of those it polled, which end at `stop`. -/
  | distributing (i stop : ℕ)

/-- A call of a poller. -/
structure Call (κ : Type*) where
  entries : List (Taken κ)
  index : ℕ
  numRequested : ℕ
  phase : Phase κ

/-- The next entry that the call looks at. -/
def Call.next? {κ : Type*} (c : Call κ) : Option (Taken κ) :=
  match c.phase with
  | .draining _ => none
  | .distributing i stop => if i < stop then c.entries[i]? else none

structure State (κ : Type*) where
  /-- What is in the completion queue, the oldest first. -/
  cq : List WC
  /-- What is in the queue between two pollers, the oldest first. -/
  queue : κ → κ → List (Taken κ)
  call : κ → Option (Call κ)
  /-- What was taken from the completion queue, the oldest first. -/
  taken : List (Taken κ)
  /-- What the calls of a poller have handed to their callers, the oldest first. -/
  handed : κ → List (Taken κ)

inductive Action (κ : Type*)
  /-- A request completes. -/
  | complete (wc : WC)
  /-- A poller is called, with the entries to fill. -/
  | poll (k : κ) (entries : List (Taken κ))
  /-- The call of a poller goes on. Where it polls the completion queue, this gives the
      number of `polled` completions, or fails. -/
  | step (k : κ) (polled : Option ℕ)

/-- The capacity of the queues between the pollers. -/
def queueDepth : ℕ := 1024

namespace State

variable {κ : Type*} [LinearOrder κ] (unpackKind : BitVec 64 → κ)

def init : State κ := ⟨[], fun _ _ => [], fun _ => none, [], fun _ => []⟩

variable (m : PollerManager κ) (t : State κ) (k : κ) (c : Call κ)

def setCall (c : Option (Call κ)) : State κ := { t with call := put t.call k c }

def setQueue (l : κ) (q : List (Taken κ)) : State κ :=
  { t with queue := put t.queue k (put (t.queue k) l q) }

/-- The call returns `true`, with these entries. -/
def hand (entries : List (Taken κ)) : State κ :=
  { t with call := put t.call k none, handed := put t.handed k (t.handed k ++ entries) }

/-- The call drains the queue of the poller `l`, or goes on after it. -/
def drain (l : κ) (froms : List κ) : State κ :=
  match if 0 < c.numRequested then t.queue l k else [] with
  | returned :: rest =>
    (t.setQueue l k rest).setCall k (some { c with
      entries := c.entries.set c.index returned
      index := c.index + 1
      numRequested := c.numRequested - 1 })
  | [] =>
    if c.numRequested = 0 then t.hand k c.entries
    else t.setCall k (some { c with phase := .draining froms })

/-- The call polls the completion queue for the rest. -/
def pollCq (polled : Option ℕ) : Option (State κ) :=
  match polled with
  | some n =>
    if n ≤ c.numRequested ∧ n ≤ t.cq.length then
      let wcs := (t.cq.take n).map (Taken.mk · k)
      some ({ t with cq := t.cq.drop n, taken := t.taken ++ wcs }.setCall k (some { c with
        entries := c.entries.take c.index ++ wcs ++ c.entries.drop (c.index + n)
        phase := .distributing c.index (c.index + n) }))
    else none
  -- the call returns `false`
  | none => some (t.setCall k none)

/-- The call looks at the next entry that was polled: it keeps the ones of its kind. -/
def distribute (tos : List κ) (i stop : ℕ) : Option (State κ) :=
  if i < stop then
    (c.entries[i]?).bind fun entry =>
      let kind := unpackKind entry.wc.wrId
      if kind = k then
        some (t.setCall k (some { c with
          entries := c.entries.set c.index entry
          index := c.index + 1
          phase := .distributing (i + 1) stop }))
      -- without a queue, it throws
      else if kind ∈ tos then
        if (t.queue k kind).length < queueDepth then
          some ((t.setQueue k kind (t.queue k kind ++ [entry])).setCall k
            (some { c with phase := .distributing (i + 1) stop }))
        -- the call returns `false`
        else some (t.setCall k none)
      else none
  else some (t.hand k (c.entries.take c.index))

/-- The call goes on. -/
def goOn (p : ContextedPoller κ) (polled : Option ℕ) : Option (State κ) :=
  match c.phase with
  | .draining (l :: froms) => some (t.drain k c l froms)
  | .draining [] => t.pollCq k c polled
  | .distributing i stop => t.distribute unpackKind k c p.tos i stop

def step : Action κ → Option (State κ)
  | .complete wc => some { t with cq := t.cq ++ [wc] }
  | .poll k entries =>
    (m.getPoller k).bind fun p =>
      if (t.call k).isSome then none
      else some (t.setCall k (some ⟨entries, 0, entries.length, .draining p.froms⟩))
  | .step k polled =>
    (m.getPoller k).bind fun p => (t.call k).bind fun c => t.goOn unpackKind k c p polled

/-- The call would put an entry in a queue that is full. -/
def Overflows : Prop :=
  ∃ entry ∈ (t.call k).bind Call.next?, unpackKind entry.wc.wrId ≠ k ∧
    queueDepth ≤ (t.queue k (unpackKind entry.wc.wrId)).length

instance : Decidable (t.Overflows unpackKind k) := inferInstanceAs (Decidable (∃ _ ∈ _, _))

/-- The requests are of kinds that are registered, no poll of the completion queue fails,
    and no queue overflows. -/
def Guard : Action κ → Prop
  | .complete wc => unpackKind wc.wrId ∈ m.contexts
  | .poll _ _ => True
  | .step k polled => polled ≠ none ∧ ¬ t.Overflows unpackKind k

instance : (a : Action κ) → Decidable (t.Guard unpackKind m a)
  | .complete _ => inferInstanceAs (Decidable (_ ∈ _))
  | .poll _ _ => inferInstanceAs (Decidable True)
  | .step _ _ => inferInstanceAs (Decidable (_ ∧ _))

end State

/-- The calls of the pollers, in any interleaving. -/
def machine {κ : Type*} [LinearOrder κ] (unpackKind : BitVec 64 → κ) (m : PollerManager κ) :
    Machine (State κ) (Action κ) (Action κ) where
  init := .init
  step t a := (t.step unpackKind m a).map (a, ·)

/-! ## Where the completions are -/

section Places

variable {κ : Type*}

/-- What a call has kept. -/
def Call.kept (c : Call κ) : List (Taken κ) := c.entries.take c.index

/-- What a call has polled and not looked at. -/
def Call.pending (c : Call κ) : List (Taken κ) :=
  match c.phase with
  | .draining _ => []
  | .distributing i stop => (c.entries.take stop).drop i

theorem Call.kept_mk (entries : List (Taken κ)) (index numRequested : ℕ) (phase : Phase κ) :
    Call.kept ⟨entries, index, numRequested, phase⟩ = entries.take index := rfl

theorem Call.pending_distributing (entries : List (Taken κ)) (index numRequested i stop : ℕ) :
    Call.pending ⟨entries, index, numRequested, .distributing i stop⟩ =
      (entries.take stop).drop i := rfl

/-- The indices and the number of requested entries agree. -/
def Call.Ok (c : Call κ) : Prop :=
  match c.phase with
  | .draining _ => c.index + c.numRequested = c.entries.length
  | .distributing i stop => c.index ≤ i ∧ stop ≤ c.entries.length

namespace State

def kept (t : State κ) (k : κ) : List (Taken κ) := (t.call k).elim [] Call.kept

def pending (t : State κ) (k : κ) : List (Taken κ) := (t.call k).elim [] Call.pending

variable [LinearOrder κ] {unpackKind : BitVec 64 → κ} {t : State κ} {k : κ}

theorem kept_setCall (c : Option (Call κ)) :
    (t.setCall k c).kept = put t.kept k (c.elim [] Call.kept) := by
  funext l
  by_cases h : l = k
  · subst h
    simp [kept, setCall]
  · simp [kept, setCall, put_of_ne h]

theorem pending_setCall (c : Option (Call κ)) :
    (t.setCall k c).pending = put t.pending k (c.elim [] Call.pending) := by
  funext l
  by_cases h : l = k
  · subst h
    simp [pending, setCall]
  · simp [pending, setCall, put_of_ne h]

end State

variable [LinearOrder κ] {unpackKind : BitVec 64 → κ}

/-- The completions of the kind `l` that the poller `k` took are, in order: those handed
    to the callers of the poller of `l`, those it keeps in a call, those in the queue
    between the two, and those that `k` has in a call and did not look at yet. -/
def Places (unpackKind : BitVec 64 → κ) (taken : List (Taken κ)) (handed kept : κ → List (Taken κ))
    (queue : κ → κ → List (Taken κ)) (pending : κ → List (Taken κ)) : Prop :=
  ∀ k l, taken.filter (fun x => x.takenBy = k ∧ unpackKind x.wc.wrId = l) =
    (handed l).filter (·.takenBy = k) ++ (kept l).filter (·.takenBy = k) ++ queue k l ++
      (pending k).filter (unpackKind ·.wc.wrId = l)

omit [LinearOrder κ] in
theorem put_put_of_ne [DecidableEq κ] {α : Type*} {f : κ → κ → α} {k l k' l' : κ} {a : α}
    (h : k' ≠ k ∨ l' ≠ l) : put f k (put (f k) l a) k' l' = f k' l' := by
  by_cases hk : k' = k
  · subst hk
    rw [put_self, put_of_ne (h.resolve_left fun h => h rfl)]
  · rw [put_of_ne hk]

section

variable {t : State κ} {k l k' l' : κ} {q : List (Taken κ)}

theorem State.queue_setQueue_of_ne (h : k' ≠ k ∨ l' ≠ l) :
    (t.setQueue k l q).queue k' l' = t.queue k' l' := put_put_of_ne h

end

namespace Places

variable {taken : List (Taken κ)} {handed kept : κ → List (Taken κ)}
  {queue : κ → κ → List (Taken κ)} {pending : κ → List (Taken κ)} {k l : κ} {x : Taken κ}
  {rest : List (Taken κ)}

theorem of_mem_queue (h : Places unpackKind taken handed kept queue pending)
    (hx : x ∈ queue k l) : x ∈ taken ∧ x.takenBy = k ∧ unpackKind x.wc.wrId = l := by
  have hmem := List.mem_append_left ((pending k).filter (unpackKind ·.wc.wrId = l))
    (List.mem_append_right ((handed l).filter (·.takenBy = k) ++ (kept l).filter (·.takenBy = k))
      hx)
  rw [← h k l] at hmem
  simpa using hmem

theorem of_mem_pending (h : Places unpackKind taken handed kept queue pending)
    (hx : x ∈ pending k) : x ∈ taken ∧ x.takenBy = k := by
  have hmem : x ∈ (pending k).filter (unpackKind ·.wc.wrId = unpackKind x.wc.wrId) :=
    List.mem_filter.2 ⟨hx, decide_eq_true rfl⟩
  have hin : x ∈ taken.filter
      (fun y => y.takenBy = k ∧ unpackKind y.wc.wrId = unpackKind x.wc.wrId) := by
    rw [h k (unpackKind x.wc.wrId)]
    exact List.mem_append_right _ hmem
  simpa using hin

theorem of_mem_handed (h : Places unpackKind taken handed kept queue pending)
    (hx : x ∈ handed l) : x ∈ taken ∧ unpackKind x.wc.wrId = l := by
  have hmem : x ∈ (handed l).filter (·.takenBy = x.takenBy) :=
    List.mem_filter.2 ⟨hx, decide_eq_true rfl⟩
  have hin : x ∈ taken.filter (fun y => y.takenBy = x.takenBy ∧ unpackKind y.wc.wrId = l) := by
    rw [h x.takenBy l]
    exact List.mem_append_left _ (List.mem_append_left _ (List.mem_append_left _ hmem))
  simpa using hin

/-- The poller `k` keeps a completion from the queue of the poller `l`. -/
theorem dequeue (h : Places unpackKind taken handed kept queue pending)
    (hq : queue l k = x :: rest) :
    Places unpackKind taken handed (put kept k (kept k ++ [x]))
      (put queue l (put (queue l) k rest)) pending := by
  have hx := (h.of_mem_queue (hq ▸ List.mem_cons_self)).2.1
  intro k' l'
  have hpl := h k' l'
  by_cases hl' : l' = k
  · subst hl'
    rw [put_self, List.filter_append]
    by_cases hk' : k' = l
    · -- the first one in the queue is now the last one of those that are kept
      subst hk'
      rw [hpl, hq, put_self, put_self, List.filter_cons_of_pos (by simpa using hx)]
      simp
    · rw [put_put_of_ne (.inl hk'), List.filter_cons_of_neg (by simpa [hx] using Ne.symm hk'),
        List.filter_nil, List.append_nil]
      exact hpl
  · rw [put_of_ne hl', put_put_of_ne (.inr hl')]
    exact hpl

/-- The poller `k` keeps a completion that it polled. -/
theorem keep (h : Places unpackKind taken handed kept queue pending) (hp : pending k = x :: rest)
    (hkind : unpackKind x.wc.wrId = k) (hq : queue k k = []) :
    Places unpackKind taken handed (put kept k (kept k ++ [x])) queue (put pending k rest) := by
  have hx := (h.of_mem_pending (hp ▸ List.mem_cons_self)).2
  intro k' l'
  have hpl := h k' l'
  by_cases hk' : k' = k
  · subst hk'
    rw [hp] at hpl
    rw [put_self]
    by_cases hl' : l' = k'
    · subst hl'
      rw [hpl, hq, put_self, List.filter_append, List.filter_cons_of_pos (by simpa using hkind),
        List.filter_cons_of_pos (by simpa using hx)]
      simp
    · rw [hpl, put_of_ne hl', List.filter_cons_of_neg (by simpa [hkind] using Ne.symm hl')]
  · rw [put_of_ne hk']
    by_cases hl' : l' = k
    · subst hl'
      rw [put_self, List.filter_append, List.filter_cons_of_neg (by simpa [hx] using Ne.symm hk'),
        List.filter_nil, List.append_nil]
      exact hpl
    · rw [put_of_ne hl']
      exact hpl

/-- The poller `k` puts a completion that it polled in the queue to the poller of its
    kind. -/
theorem divert (h : Places unpackKind taken handed kept queue pending)
    (hp : pending k = x :: rest) (hkind : unpackKind x.wc.wrId = l) :
    Places unpackKind taken handed kept (put queue k (put (queue k) l (queue k l ++ [x])))
      (put pending k rest) := by
  intro k' l'
  have hpl := h k' l'
  by_cases hk' : k' = k
  · subst hk'
    rw [hp] at hpl
    rw [put_self, put_self]
    by_cases hl' : l' = l
    · subst hl'
      rw [hpl, put_self, List.filter_cons_of_pos (by simpa using hkind)]
      simp
    · rw [hpl, put_of_ne hl', List.filter_cons_of_neg (by simpa [hkind] using Ne.symm hl')]
  · rw [put_of_ne hk', put_of_ne hk']
    exact hpl

/-- The poller `k` takes completions from the completion queue. -/
theorem take (h : Places unpackKind taken handed kept queue pending) (hp : pending k = [])
    (hrest : ∀ x ∈ rest, x.takenBy = k) :
    Places unpackKind (taken ++ rest) handed kept queue (put pending k rest) := by
  intro k' l'
  have hpl := h k' l'
  rw [List.filter_append]
  by_cases hk' : k' = k
  · subst hk'
    rw [hp, List.filter_nil, List.append_nil] at hpl
    rw [hpl, put_self]
    congr 1
    refine List.filter_congr fun x hx => ?_
    simp [hrest x hx]
  · have hnone : rest.filter (fun x => x.takenBy = k' ∧ unpackKind x.wc.wrId = l') = [] := by
      refine List.filter_eq_nil_iff.2 fun x hx => ?_
      simp [hrest x hx, Ne.symm hk']
    rw [hnone, List.append_nil, put_of_ne hk']
    exact hpl

/-- The poller `k` hands out what it keeps. -/
theorem hand (h : Places unpackKind taken handed kept queue pending) (hp : pending k = []) :
    Places unpackKind taken (put handed k (handed k ++ kept k)) (put kept k []) queue
      (put pending k []) := by
  have hpend : put pending k [] = pending := hp ▸ put_eq_self pending k
  intro k' l'
  rw [hpend]
  by_cases hl' : l' = k
  · subst hl'
    rw [put_self, put_self, List.filter_append, List.filter_nil, List.append_nil]
    exact h k' l'
  · rw [put_of_ne hl', put_of_ne hl']
    exact h k' l'

end Places

namespace State

variable {t : State κ} {k l : κ} {c : Call κ} {x : Taken κ} {rest : List (Taken κ)}

/-- The invariant of the runs. -/
structure Inv (unpackKind : BitVec 64 → κ) (m : PollerManager κ) (t : State κ) : Prop where
  places : Places unpackKind t.taken t.handed t.kept t.queue t.pending
  /-- A queue is one of those of the poller it leads from. -/
  leads : ∀ k l, t.queue k l ≠ [] → ∃ p, m.getPoller k = some p ∧ l ∈ p.tos ∧ l ≠ k
  callOk : ∀ k, ∀ c ∈ t.call k, c.Ok

variable {m : PollerManager κ}

theorem Inv.init : (init : State κ).Inv unpackKind m where
  places _ _ := rfl
  leads _ _ h := absurd rfl h
  callOk _ := by simp [State.init]

omit [LinearOrder κ] in
theorem take_set_succ {entries : List (Taken κ)} {i : ℕ} (hi : i < entries.length) :
    (entries.set i x).take (i + 1) = entries.take i ++ [x] := by
  rw [List.take_add_one, List.take_set_of_le (Nat.le_refl i), List.getElem?_set_self hi]
  rfl

namespace Inv

theorem queue_self (h : t.Inv unpackKind m) (k : κ) : t.queue k k = [] := by
  by_contra hne
  obtain ⟨p, -, -, hk⟩ := h.leads k k hne
  exact hk rfl

omit [LinearOrder κ] in
theorem kept_eq (hc : t.call k = some c) : t.kept k = c.kept := by rw [kept, hc, Option.elim_some]

omit [LinearOrder κ] in
theorem pending_eq (hc : t.call k = some c) : t.pending k = c.pending := by
  rw [pending, hc, Option.elim_some]

theorem callOk_put (h : t.Inv unpackKind m) {c : Option (Call κ)} (hc : ∀ c' ∈ c, c'.Ok) :
    ∀ l, ∀ c' ∈ put t.call k c l, c'.Ok := by
  intro l c' hc'
  by_cases hl : l = k
  · subst hl
    rw [put_self] at hc'
    exact hc c' hc'
  · rw [put_of_ne hl] at hc'
    exact h.callOk l c' hc'

/-- The state after a call has gone on. -/
theorem of_setCall (h : t.Inv unpackKind m) {s : State κ} {c : Option (Call κ)}
    (hcall : s.call = t.call)
    (hplaces : Places unpackKind s.taken s.handed (put s.kept k (c.elim [] Call.kept)) s.queue
      (put s.pending k (c.elim [] Call.pending)))
    (hleads : ∀ k l, s.queue k l ≠ [] → ∃ p, m.getPoller k = some p ∧ l ∈ p.tos ∧ l ≠ k)
    (hok : ∀ c' ∈ c, c'.Ok) : (s.setCall k c).Inv unpackKind m := by
  refine ⟨?_, hleads, ?_⟩
  · rw [kept_setCall, pending_setCall]
    exact hplaces
  · rw [State.setCall, hcall]
    exact h.callOk_put hok

/-- A call goes on and has what it had. -/
theorem setCall (h : t.Inv unpackKind m) (hc : c.Ok) (hk : c.kept = t.kept k)
    (hp : c.pending = t.pending k) : (t.setCall k (some c)).Inv unpackKind m := by
  refine h.of_setCall rfl ?_ h.leads fun c' hc' => Option.mem_some.1 hc' ▸ hc
  rw [Option.elim_some, Option.elim_some, hk, hp, put_eq_self, put_eq_self]
  exact h.places

/-- A call returns with what it has kept. -/
theorem hand (h : t.Inv unpackKind m) (hc : t.call k = some c) (hp : c.pending = []) :
    (t.hand k c.kept).Inv unpackKind m := by
  have hplaces := h.places.hand (k := k) ((pending_eq hc).trans hp)
  rw [kept_eq hc] at hplaces
  refine h.of_setCall (s := { t with handed := put t.handed k (t.handed k ++ c.kept) }) (k := k)
    (c := none) rfl hplaces h.leads fun c' hc' => ?_
  exact nomatch hc'

theorem drain (h : t.Inv unpackKind m) (hc : t.call k = some c) {froms : List κ}
    (hphase : c.phase = .draining (l :: froms)) : (t.drain k c l froms).Inv unpackKind m := by
  have hok := h.callOk k c hc
  rw [Call.Ok, hphase] at hok
  have hpend : c.pending = [] := by rw [Call.pending, hphase]
  rw [State.drain]
  split
  · next x rest hq =>
    split at hq
    · next hpos =>
      have hkept := take_set_succ (x := x) (by omega : c.index < c.entries.length)
      refine h.of_setCall rfl ?_ (fun k' l' hne => ?_) fun c' hc' => ?_
      · have hplaces := h.places.dequeue hq
        rw [kept_eq hc, ← put_eq_self t.pending k, pending_eq hc, hpend] at hplaces
        rw [Option.elim_some, Option.elim_some, Call.kept, hkept, Call.pending, hphase]
        exact hplaces
      · by_cases hkl : k' ≠ l ∨ l' ≠ k
        · rw [queue_setQueue_of_ne hkl] at hne
          exact h.leads k' l' hne
        · obtain ⟨rfl, rfl⟩ : k' = l ∧ l' = k := by simpa using hkl
          exact h.leads k' l' (by rw [hq]; exact List.cons_ne_nil x rest)
      · obtain rfl := Option.mem_some.1 hc'
        rw [Call.Ok, hphase]
        dsimp only
        rw [List.length_set]
        omega
    · exact nomatch hq
  · split
    · next h0 =>
      -- every requested entry is there
      have hkept : c.entries = c.kept := by rw [Call.kept, List.take_of_length_le (by omega)]
      rw [hkept]
      exact h.hand hc hpend
    · refine h.setCall hok (kept_eq hc).symm ?_
      rw [pending_eq hc, hpend]
      rfl

theorem pollCq (h : t.Inv unpackKind m) (hc : t.call k = some c)
    (hphase : c.phase = .draining []) {n : ℕ} {t' : State κ}
    (ht : t.pollCq k c (some n) = some t') : t'.Inv unpackKind m := by
  have hok := h.callOk k c hc
  rw [Call.Ok, hphase] at hok
  rw [State.pollCq] at ht
  split at ht
  · next hn =>
    obtain rfl := Option.some.inj ht
    have htake : (c.entries.take c.index).length = c.index := by
      rw [List.length_take]
      omega
    have hwcs : ((t.cq.take n).map (Taken.mk · k)).length = n := by
      rw [List.length_map, List.length_take]
      omega
    have htakenBy : ∀ x ∈ (t.cq.take n).map (Taken.mk · k), x.takenBy = k := by
      rintro x hx
      obtain ⟨wc, -, rfl⟩ := List.mem_map.1 hx
      rfl
    generalize (t.cq.take n).map (Taken.mk · k) = wcs at hwcs htakenBy ⊢
    -- the entries up to the index are as they were, and the next ones were just polled
    have hkept : (c.entries.take c.index ++ wcs ++ c.entries.drop (c.index + n)).take c.index =
        c.kept := by
      rw [List.append_assoc, List.take_left' htake]
      rfl
    have hpending : ((c.entries.take c.index ++ wcs ++
        c.entries.drop (c.index + n)).take (c.index + n)).drop c.index = wcs := by
      rw [List.take_left' (by rw [List.length_append, htake, hwcs]), List.drop_left' htake]
    refine h.of_setCall rfl ?_ h.leads fun c' hc' => ?_
    · have hpend : t.pending k = [] := by rw [pending_eq hc, Call.pending, hphase]
      have hplaces := h.places.take hpend htakenBy
      rw [← put_eq_self t.kept k, kept_eq hc] at hplaces
      rw [Option.elim_some, Option.elim_some, Call.kept_mk, hkept, Call.pending_distributing,
        hpending]
      exact hplaces
    · obtain rfl := Option.mem_some.1 hc'
      refine ⟨Nat.le_refl c.index, ?_⟩
      rw [List.length_append, List.length_append, htake, hwcs, List.length_drop]
      omega
  · exact nomatch ht

theorem distribute (h : t.Inv unpackKind m) (hc : t.call k = some c) {i stop : ℕ}
    (hphase : c.phase = .distributing i stop) {p : ContextedPoller κ}
    (hp : m.getPoller k = some p) (hfull : ¬ t.Overflows unpackKind k) {t' : State κ}
    (ht : t.distribute unpackKind k c p.tos i stop = some t') : t'.Inv unpackKind m := by
  have hok := h.callOk k c hc
  rw [Call.Ok, hphase] at hok
  have hpend : t.pending k = (c.entries.take stop).drop i := by
    rw [pending_eq hc, Call.pending, hphase]
  rw [State.distribute] at ht
  split at ht
  · next hi =>
    have hlen : i < c.entries.length := Nat.lt_of_lt_of_le hi hok.2
    obtain ⟨x, hx⟩ : ∃ x, c.entries[i]? = some x := ⟨_, List.getElem?_eq_getElem hlen⟩
    rw [hx, Option.bind_some] at ht
    have hdrop : t.pending k = x :: (c.entries.take stop).drop (i + 1) := by
      have htake : i < (c.entries.take stop).length := by
        rw [List.length_take]
        omega
      rw [hpend, List.drop_eq_getElem_cons htake, List.getElem_take,
        (List.getElem?_eq_some_iff.1 hx).choose_spec]
    dsimp only at ht
    split at ht
    · next hkind =>
      obtain rfl := Option.some.inj ht
      have hkept := take_set_succ (x := x) (by omega : c.index < c.entries.length)
      have hrest : ((c.entries.set c.index x).take stop).drop (i + 1) =
          (c.entries.take stop).drop (i + 1) := by
        rw [List.take_set, List.drop_set_of_lt (by omega)]
      refine h.of_setCall rfl ?_ h.leads fun c' hc' => ?_
      · have hplaces := h.places.keep hdrop hkind (h.queue_self k)
        rw [kept_eq hc] at hplaces
        rw [Option.elim_some, Option.elim_some, Call.kept_mk, hkept, Call.pending_distributing,
          hrest]
        exact hplaces
      · obtain rfl := Option.mem_some.1 hc'
        refine ⟨Nat.succ_le_succ hok.1, ?_⟩
        rw [List.length_set]
        exact hok.2
    · next hkind =>
      split at ht
      · next hto =>
        split at ht
        · obtain rfl := Option.some.inj ht
          refine h.of_setCall rfl ?_ (fun k' l' hne => ?_) fun c' hc' => ?_
          · have hplaces := h.places.divert hdrop rfl
            rw [← put_eq_self t.kept k, kept_eq hc] at hplaces
            exact hplaces
          · by_cases hkl : k' ≠ k ∨ l' ≠ unpackKind x.wc.wrId
            · rw [queue_setQueue_of_ne hkl] at hne
              exact h.leads k' l' hne
            · obtain ⟨rfl, rfl⟩ : k' = k ∧ l' = unpackKind x.wc.wrId := by simpa using hkl
              exact ⟨p, hp, hto, hkind⟩
          · obtain rfl := Option.mem_some.1 hc'
            exact ⟨Nat.le_succ_of_le hok.1, hok.2⟩
        · next hlt =>
          -- the queue is full
          refine absurd ⟨x, ?_, hkind, Nat.le_of_not_lt hlt⟩ hfull
          rw [hc, Option.bind_some, Call.next?, hphase]
          dsimp only
          rw [if_pos hi, hx]
          rfl
      · exact nomatch ht
  · next hi =>
    obtain rfl := Option.some.inj ht
    refine h.hand hc ?_
    rw [Call.pending, hphase]
    refine List.drop_eq_nil_of_le ?_
    rw [List.length_take]
    omega

theorem goOn (h : t.Inv unpackKind m) (hc : t.call k = some c) {p : ContextedPoller κ}
    (hp : m.getPoller k = some p) {polled : Option ℕ} (hpolled : polled ≠ none)
    (hfull : ¬ t.Overflows unpackKind k) {t' : State κ}
    (ht : t.goOn unpackKind k c p polled = some t') : t'.Inv unpackKind m := by
  rw [State.goOn] at ht
  split at ht
  · next l froms hphase =>
    obtain rfl := Option.some.inj ht
    exact h.drain hc hphase
  · next hphase =>
    obtain ⟨n, rfl⟩ := Option.ne_none_iff_exists'.1 hpolled
    exact h.pollCq hc hphase ht
  · next i stop hphase => exact h.distribute hc hphase hp hfull ht

theorem step (h : t.Inv unpackKind m) {a : Action κ} (ha : t.Guard unpackKind m a)
    {t' : State κ} (ht : t.step unpackKind m a = some t') : t'.Inv unpackKind m := by
  cases a with
  | complete wc =>
    obtain rfl := Option.some.inj ht
    exact ⟨h.places, h.leads, h.callOk⟩
  | poll k entries =>
    obtain ⟨p, -, ht⟩ := Option.bind_eq_some_iff.1 ht
    split at ht
    · exact nomatch ht
    · next hidle =>
      obtain rfl := Option.some.inj ht
      have hc : t.call k = none := by simpa using hidle
      refine h.setCall (Nat.zero_add _) ?_ ?_
      · rw [kept, hc]
        rfl
      · rw [pending, hc]
        rfl
  | step k polled =>
    obtain ⟨p, hp, ht⟩ := Option.bind_eq_some_iff.1 ht
    obtain ⟨c, hc, ht⟩ := Option.bind_eq_some_iff.1 ht
    exact h.goOn hc hp ha.1 ha.2 ht

end Inv

/-- A call can go on: it does not throw. -/
theorem Inv.goOn_isSome (h : t.Inv unpackKind m) (hc : t.call k = some c)
    {p : ContextedPoller κ}
    (hto : ∀ x ∈ t.taken, unpackKind x.wc.wrId ≠ k → unpackKind x.wc.wrId ∈ p.tos) :
    (t.goOn unpackKind k c p (some 0)).isSome := by
  have hok := h.callOk k c hc
  rw [Call.Ok] at hok
  rw [State.goOn]
  split
  · rfl
  · rw [State.pollCq, if_pos ⟨Nat.zero_le _, Nat.zero_le _⟩]
    rfl
  · next i stop hphase =>
    rw [hphase] at hok
    rw [State.distribute]
    split
    · next hi =>
      have hlen : i < c.entries.length := Nat.lt_of_lt_of_le hi hok.2
      obtain ⟨x, hx⟩ : ∃ x, c.entries[i]? = some x := ⟨_, List.getElem?_eq_getElem hlen⟩
      have hpend : x ∈ t.pending k := by
        rw [Inv.pending_eq hc, Call.pending, hphase]
        refine List.mem_of_getElem? (i := 0) ?_
        rw [List.getElem?_drop, Nat.add_zero, List.getElem?_take_of_lt hi, hx]
      rw [hx, Option.bind_some]
      dsimp only
      split
      · rfl
      · next hkind =>
        rw [if_pos (hto x (h.places.of_mem_pending hpend).1 hkind)]
        split <;> rfl
    · rfl

end State

/-! ## The stream of the completions -/

omit [LinearOrder κ] in
/-- The completion that an action adds. -/
def Action.completed : Action κ → List WC
  | .complete wc => [wc]
  | .poll _ _ => []
  | .step _ _ => []

namespace State

variable {m : PollerManager κ} {t t' : State κ} {k l : κ} {c : Call κ}

omit [LinearOrder κ] in
/-- The completions so far, the oldest first: those taken and those in the queue. -/
def stream (t : State κ) : List WC := t.taken.map Taken.wc ++ t.cq

theorem stream_drain {froms : List κ} : (t.drain k c l froms).stream = t.stream := by
  rw [drain]
  split
  · rfl
  · split <;> rfl

theorem stream_pollCq {polled : Option ℕ} (h : t.pollCq k c polled = some t') :
    t'.stream = t.stream := by
  cases polled with
  | some n =>
    rw [pollCq] at h
    split at h
    · obtain rfl := Option.some.inj h
      change (t.taken ++ (t.cq.take n).map (Taken.mk · k)).map Taken.wc ++ t.cq.drop n = t.stream
      have hwc : ((t.cq.take n).map (Taken.mk · k)).map Taken.wc = t.cq.take n := by
        rw [List.map_map]
        exact List.map_id _
      rw [List.map_append, hwc, List.append_assoc, List.take_append_drop]
      rfl
    · exact nomatch h
  | none =>
    obtain rfl := Option.some.inj h
    rfl

theorem stream_distribute {tos : List κ} {i stop : ℕ}
    (h : t.distribute unpackKind k c tos i stop = some t') : t'.stream = t.stream := by
  rw [distribute] at h
  split at h
  · obtain ⟨x, -, h⟩ := Option.bind_eq_some_iff.1 h
    dsimp only at h
    split at h
    · obtain rfl := Option.some.inj h
      rfl
    · split at h
      · split at h <;>
        · obtain rfl := Option.some.inj h
          rfl
      · exact nomatch h
  · obtain rfl := Option.some.inj h
    rfl

theorem stream_step {a : Action κ} (h : t.step unpackKind m a = some t') :
    t'.stream = t.stream ++ a.completed := by
  cases a with
  | complete wc =>
    obtain rfl := Option.some.inj h
    exact (List.append_assoc _ _ _).symm
  | poll k entries =>
    obtain ⟨p, -, h⟩ := Option.bind_eq_some_iff.1 h
    split at h
    · exact nomatch h
    · obtain rfl := Option.some.inj h
      exact (List.append_nil _).symm
  | step k polled =>
    obtain ⟨p, -, h⟩ := Option.bind_eq_some_iff.1 h
    obtain ⟨c, -, h⟩ := Option.bind_eq_some_iff.1 h
    rw [Action.completed, List.append_nil]
    rw [goOn] at h
    split at h
    · obtain rfl := Option.some.inj h
      exact stream_drain
    · exact stream_pollCq h
    · exact stream_distribute h

end State

/-! ## The runs -/

section Runs

variable {m : PollerManager κ} {tr : List (Action κ)} {t : State κ}

theorem inv_of_run (h : (machine unpackKind m).Run (State.Guard unpackKind m) tr t) :
    t.Inv unpackKind m := by
  refine h.invariant (P := fun _ t => t.Inv unpackKind m) .init ?_
  rintro _ s e s' - hs ⟨a, ha, hst⟩
  obtain ⟨s₁, h₁, he⟩ := Option.map_eq_some_iff.1 hst
  obtain ⟨rfl, rfl⟩ := Prod.mk.inj he
  exact hs.step ha h₁

theorem stream_of_run (h : (machine unpackKind m).Run (State.Guard unpackKind m) tr t) :
    t.stream = tr.reverse.flatMap Action.completed := by
  refine h.invariant (P := fun tr t => t.stream = tr.reverse.flatMap Action.completed) rfl ?_
  rintro tr s e s' - hs ⟨a, -, hst⟩
  obtain ⟨s₁, h₁, he⟩ := Option.map_eq_some_iff.1 hst
  obtain ⟨rfl, rfl⟩ := Prod.mk.inj he
  rw [List.reverse_cons, List.flatMap_append, ← hs, State.stream_step h₁, List.flatMap_singleton]

/-- What completes is of the kinds that are registered. -/
theorem mem_contexts_of_run (h : (machine unpackKind m).Run (State.Guard unpackKind m) tr t) :
    ∀ wc ∈ t.stream, unpackKind wc.wrId ∈ m.contexts := by
  refine h.invariant (P := fun _ t => ∀ wc ∈ t.stream, unpackKind wc.wrId ∈ m.contexts)
    (List.forall_mem_nil _) ?_
  rintro tr s e s' - hs ⟨a, ha, hst⟩ wc hwc
  obtain ⟨s₁, h₁, he⟩ := Option.map_eq_some_iff.1 hst
  obtain ⟨rfl, rfl⟩ := Prod.mk.inj he
  rw [State.stream_step h₁] at hwc
  obtain hwc | hwc := List.mem_append.1 hwc
  · exact hs wc hwc
  · cases a with
    | complete wc' => exact List.mem_singleton.1 hwc ▸ ha
    | poll k entries => exact nomatch hwc
    | step k polled => exact nomatch hwc

/-- A completion of the kind in the high bits of its request. -/
private def wcOf (kind seq : ℕ) : WC := ⟨BitVec.ofNat 64 (kind * 2 ^ 60 + seq), 0⟩

/-- The poller of the first kind takes one of its kind and one of the second; the poller of
    the second kind gets this one and takes one of its own and one of the third kind. -/
def threeKinds : List (Action ℕ) :=
  let entry : Taken ℕ := ⟨wcOf 0 0, 0⟩
  [.complete (wcOf 1 1), .complete (wcOf 2 2), .complete (wcOf 3 3),
    .poll 1 [entry, entry], .step 1 (some 0), .poll 2 [entry, entry, entry], .step 1 (some 0),
    .step 1 (some 2), .complete (wcOf 2 4), .step 1 (some 0), .step 1 (some 0),
    .step 2 (some 0), .step 1 (some 0), .step 2 (some 0), .poll 3 [entry], .step 2 (some 0),
    .step 2 (some 2), .step 2 (some 0), .step 3 (some 0), .step 2 (some 0), .step 3 (some 0),
    .step 2 (some 0), .step 3 (some 0)]

end Runs

end Places

end DiscoSkip.Conn
