import Mathlib.Tactic.Common
import DiscoSkip.Fusee

/-!
# When the replicas of FUSEE agree

The replicas of the index agree, in the end, if no two updates win different backups:
a compare-and-swap that takes effect on a backup finds the entry it expects, or its
own, on all others (`Undisputed`). This is asked of every step (`Guard`), and that
the key/value ids fit into the entries.

An entry is *old* if it is of an id from before the updates that are under way
(`Old`). In the runs that are left, the backups that differ from the main slot hold
the new entry of one update, which found the entry of the main slot (`Inv.owner`,
`Inv.two`): what is late or retried expects an old entry, and fails.
-/

namespace DiscoSkip.Fusee

open Lib Race

variable {cfg : Config}

/-- No update other than that of `new` has won a backup that `s` is won after. -/
def State.Undisputed (cfg : Config) (t : State) (s : ℕ) (prev new : BucketEntry) : Prop :=
  t.slot s = prev → ∀ s' < cfg.numServers, 1 ≤ s' → t.slot s' = prev ∨ t.slot s' = new

instance (t : State) (s : ℕ) (prev new : BucketEntry) : Decidable (t.Undisputed cfg s prev new) :=
  inferInstanceAs (Decidable (_ → ∀ s' < cfg.numServers, _ → _ ∨ _))

/-- The id to write fits into the entry, and no backup is won by two updates. -/
def Guard (cfg : Config) (t : State) : Action → Prop
  | .search c => cfg.kvId c (t.client c).next < 2 ^ 48
  | .cas c s =>
    match (t.client c).op with
    | some (u, _) => t.Undisputed cfg s u.prevEntry (cfg.entryFor u.newKvId)
    | none => True
  | _ => True

instance (t : State) (a : Action) : Decidable (Guard cfg t a) := by
  cases a <;> dsimp only [Guard] <;> (try split) <;> infer_instance

/-! ## Ids -/

theorem kvId_inj {c c' j j' : ℕ} (hc : c < cfg.numClients) (hc' : c' < cfg.numClients)
    (h : cfg.kvId c j = cfg.kvId c' j') : c = c' ∧ j = j' := by
  have hsum : c + j * cfg.numClients = c' + j' * cfg.numClients := by
    rw [Config.kvId, Config.kvId] at h
    omega
  exact add_mul_inj hc hc' hsum

/-- The entry of an id that was taken, and not by an update under way. -/
def Old (cfg : Config) (t : State) (e : BucketEntry) : Prop :=
  ∃ c j, c < cfg.numClients ∧ cfg.kvId c j < 2 ^ 48 ∧ e = cfg.entryFor (cfg.kvId c j) ∧
    j < (t.client c).next ∧ ((t.client c).op ≠ none → j + 1 < (t.client c).next)

theorem Old.mono {t t' : State} {e : BucketEntry} (h : Old cfg t e)
    (hmono : ∀ c, (t.client c).next ≤ (t'.client c).next ∧ ((t'.client c).op ≠ none →
      (t.client c).op ≠ none ∨ (t.client c).next < (t'.client c).next)) : Old cfg t' e := by
  obtain ⟨c, j, hc, hfit, rfl, hj, hop⟩ := h
  obtain ⟨hnext, hop'⟩ := hmono c
  refine ⟨c, j, hc, hfit, rfl, by omega, fun hne => ?_⟩
  rcases hop' hne with h | h
  · exact Nat.lt_of_lt_of_le (hop h) hnext
  · omega

/-- The entry found is the one expected. -/
theorem Old.prevEntry_eq {t : State} {e : BucketEntry} (h : Old cfg t e) (cached : Option ℕ) :
    prevEntry cfg cached e = e := by
  obtain ⟨c, j, -, hfit, rfl, -⟩ := h
  have hval : cfg.entryFor (cfg.entryFor (cfg.kvId c j)).getValue =
      cfg.entryFor (cfg.kvId c j) := by
    rw [Config.entryFor, Config.entryFor, BucketEntry.getValue_of _ hfit]
  unfold prevEntry
  split
  · split
    · assumption
    · exact hval
  · exact hval

/-! ## The steps -/

section Steps

variable {t : State} {c c' : ℕ} {k : Client} {s : ℕ} {prev new : BucketEntry}

@[simp] theorem client_setClient_self : (t.setClient c k).client c = k := Function.update_self ..

theorem client_setClient_of_ne (h : c' ≠ c) : (t.setClient c k).client c' = t.client c' :=
  Function.update_of_ne h ..

@[simp] theorem slot_setClient : (t.setClient c k).slot = t.slot := rfl

@[simp] theorem client_tryUpdate : (t.tryUpdate s prev new).client = t.client := by
  rw [State.tryUpdate]
  split <;> rfl

theorem tryUpdate_of_ne (h : t.slot s ≠ prev) : t.tryUpdate s prev new = t := if_neg h

theorem slot_tryUpdate_self (h : t.slot s = prev) : (t.tryUpdate s prev new).slot s = new := by
  rw [State.tryUpdate, if_pos h]
  exact Function.update_self ..

theorem slot_tryUpdate_of_ne {s' : ℕ} (h : s' ≠ s) :
    (t.tryUpdate s prev new).slot s' = t.slot s' := by
  rw [State.tryUpdate]
  split
  · exact Function.update_of_ne h ..
  · rfl

/-- What a step does: an update starts, a compare-and-swap in flight from before takes
    effect, or the update goes on. -/
theorem step_cases {t t' : State} {a : Action} (h : step cfg t a = some t') :
    a.owner < cfg.numClients ∧
    ((∃ c, a = .search c ∧ (t.client c).op = none ∧
        t' = t.setClient c { t.client c with
          next := (t.client c).next + 1
          op := some (⟨prevEntry cfg (t.client c).cached (t.slot 0),
            cfg.kvId c (t.client c).next, fun _ => none⟩, .post) }) ∨
      (∃ c i q, a = .late c i ∧ (t.client c).late[i]? = some q ∧
        t' = (t.tryUpdate q.server q.prev q.new).setClient c
          { t.client c with late := (t.client c).late.eraseIdx i }) ∨
      ∃ u st, (t.client a.owner).op = some (u, st) ∧ stepOp cfg t a.owner u a st = some t') := by
  unfold step at h
  dsimp only at h
  split at h
  · next hc =>
    refine ⟨hc, ?_⟩
    split at h
    · next c hop => exact .inl ⟨c, rfl, hop, (Option.some.inj h).symm⟩
    · next c i =>
      obtain ⟨q, hq, rfl⟩ := Option.map_eq_some_iff.1 h
      exact .inr (.inl ⟨c, i, q, rfl, hq, rfl⟩)
    · next u st _ hop => exact .inr (.inr ⟨u, st, hop, h⟩)
    · exact absurd h (by simp)
  · exact absurd h (by simp)

end Steps

/-! ## The invariant -/

/-- What holds at a stage, besides: an update that won the first backup has the results
    of the others up to one of them. -/
def Awaited (cfg : Config) (u : Update) : Stage → Prop
  | .post => ∀ s, u.futures s = none
  | .first | .check => True
  | .next s => 1 < cfg.numServers ∧ u.futures 1 = some u.prevEntry ∧ 2 ≤ s ∧
      ∀ s', 1 ≤ s' → s' < s → s' < cfg.numServers → u.futures s' ≠ none
  | .retry s => 1 < cfg.numServers ∧ u.futures 1 = some u.prevEntry ∧ 2 ≤ s ∧ s < cfg.numServers ∧
      ∀ s', 1 ≤ s' → s' ≤ s → s' < cfg.numServers → u.futures s' ≠ none
  | .commit => 1 < cfg.numServers ∧ u.futures 1 = some u.prevEntry ∧
      ∀ s', 1 ≤ s' → s' < cfg.numServers → u.futures s' ≠ none

theorem Awaited.update {u : Update} {st : Stage} (h : Awaited cfg u st) (hst : st ≠ .post) {s : ℕ}
    (hs : u.futures s = none) (r : BucketEntry) :
    Awaited cfg { u with futures := Function.update u.futures s (some r) } st := by
  have hkeep : ∀ {s' x}, u.futures s' = some x →
      Function.update u.futures s (some r) s' = some x := by
    intro s' x hx
    rw [Function.update_of_ne, hx]
    rintro rfl
    rw [hs] at hx
    exact absurd hx (by simp)
  have hne : ∀ {s'}, u.futures s' ≠ none → Function.update u.futures s (some r) s' ≠ none := by
    intro s' h'
    obtain ⟨x, hx⟩ := Option.ne_none_iff_exists'.1 h'
    rw [hkeep hx]
    simp
  cases st with
  | post => exact absurd rfl hst
  | first => trivial
  | check => trivial
  | next s' => exact ⟨h.1, hkeep h.2.1, h.2.2.1, fun i h1 hi hn => hne (h.2.2.2 i h1 hi hn)⟩
  | retry s' =>
    exact ⟨h.1, hkeep h.2.1, h.2.2.1, h.2.2.2.1, fun i h1 hi hn => hne (h.2.2.2.2 i h1 hi hn)⟩
  | commit => exact ⟨h.1, hkeep h.2.1, fun i h1 hn => hne (h.2.2 i h1 hn)⟩

/-- The invariant of the undisputed runs. -/
structure Inv (cfg : Config) (t : State) : Prop where
  main : Old cfg t (t.slot 0)
  /-- An update writes under an id of its own, and expects an old entry. -/
  op : ∀ c u st, (t.client c).op = some (u, st) → c < cfg.numClients ∧
    (∃ j, u.newKvId = cfg.kvId c j ∧ j + 1 = (t.client c).next ∧ cfg.kvId c j < 2 ^ 48) ∧
    Old cfg t u.prevEntry ∧ Awaited cfg u st
  /-- What is late expects an entry that is gone. -/
  late : ∀ c, ∀ q ∈ (t.client c).late,
    1 ≤ q.server ∧ q.server < cfg.numServers ∧ Old cfg t q.prev ∧ q.prev ≠ t.slot 0
  /-- A backup that differs from the main slot was won by an update under way. -/
  owner : ∀ s, 1 ≤ s → s < cfg.numServers → t.slot s ≠ t.slot 0 →
    ∃ c u st, (t.client c).op = some (u, st) ∧ t.slot s = cfg.entryFor u.newKvId ∧
      u.futures s = some u.prevEntry
  /-- The same one, for all such backups. -/
  two : ∀ s s', 1 ≤ s → s < cfg.numServers → 1 ≤ s' → s' < cfg.numServers →
    t.slot s ≠ t.slot 0 → t.slot s' ≠ t.slot 0 → t.slot s = t.slot s'
  won : ∀ c u st s, (t.client c).op = some (u, st) → u.futures s = some u.prevEntry →
    u.prevEntry = t.slot 0 ∧ t.slot s = cfg.entryFor u.newKvId
  returned : ∀ c u st s r, (t.client c).op = some (u, st) → u.futures s = some r →
    1 ≤ s ∧ s < cfg.numServers ∧ (u.prevEntry = t.slot 0 → t.slot s ≠ t.slot 0)

namespace Inv

variable {t t' : State} {c c' : ℕ} {u u' : Update} {st st' : Stage} {s : ℕ}

section Facts

variable (h : Inv cfg t)

include h

/-- The entry to write is new. -/
theorem not_old (hop : (t.client c).op = some (u, st)) : ¬ Old cfg t (cfg.entryFor u.newKvId) := by
  rintro ⟨c', j', hc', hfit', he, -, hj'⟩
  obtain ⟨hc, ⟨j, hj, hnext, hfit⟩, -⟩ := h.op c u st hop
  rw [hj] at he
  obtain ⟨rfl, rfl⟩ := kvId_inj hc hc' (BucketEntry.of_inj hfit hfit' he)
  have := hj' (by rw [hop]; simp)
  omega

/-- Every update has its own entry to write. -/
theorem owner_unique (hop : (t.client c).op = some (u, st))
    (hop' : (t.client c').op = some (u', st'))
    (he : cfg.entryFor u.newKvId = cfg.entryFor u'.newKvId) : c = c' := by
  obtain ⟨hc, ⟨j, hj, -, hfit⟩, -⟩ := h.op c u st hop
  obtain ⟨hc', ⟨j', hj', -, hfit'⟩, -⟩ := h.op c' u' st' hop'
  rw [hj, hj'] at he
  exact (kvId_inj hc hc' (BucketEntry.of_inj hfit hfit' he)).1

/-- An old entry on a backup is that of the main slot. -/
theorem slot_eq_main (hs : 1 ≤ s) (hsn : s < cfg.numServers) (hold : Old cfg t (t.slot s)) :
    t.slot s = t.slot 0 := by
  by_contra hne
  obtain ⟨c, u, st, hop, hslot, -⟩ := h.owner s hs hsn hne
  exact h.not_old hop (hslot ▸ hold)

/-- An update that won the first backup found the entry of the main slot; all
    backups that returned differ from it, and so hold its own entry. -/
theorem slot_of_won (hop : (t.client c).op = some (u, st)) (hn : 1 < cfg.numServers)
    (h1 : u.futures 1 = some u.prevEntry) (hs : 1 ≤ s) (hsn : s < cfg.numServers)
    (hf : u.futures s ≠ none) :
    u.prevEntry = t.slot 0 ∧ t.slot s ≠ t.slot 0 ∧ t.slot s = cfg.entryFor u.newKvId := by
  obtain ⟨hprev, hslot⟩ := h.won c u st 1 hop h1
  obtain ⟨r, hr⟩ := Option.ne_none_iff_exists'.1 hf
  have hne := (h.returned c u st s r hop hr).2.2 hprev
  have hne1 := (h.returned c u st 1 _ hop h1).2.2 hprev
  exact ⟨hprev, hne, (h.two s 1 hs hsn (Nat.le_refl 1) hn hne hne1).trans hslot⟩

end Facts

/-- A client changes by itself: its update goes on, a new one starts, or one returns
    that did not find the entry of the main slot. -/
theorem setClient (h : Inv cfg t) {k : Client} (hnext : (t.client c).next ≤ k.next)
    (hop : ∀ u st, k.op = some (u, st) → c < cfg.numClients ∧
      (∃ j, u.newKvId = cfg.kvId c j ∧ j + 1 = k.next ∧ cfg.kvId c j < 2 ^ 48) ∧
      Old cfg t u.prevEntry ∧ Awaited cfg u st ∧
      ((∃ st₀, (t.client c).op = some (u, st₀)) ∨
        (t.client c).next < k.next ∧ ∀ s, u.futures s = none))
    (hkeep : ∀ u st, (t.client c).op = some (u, st) → u.prevEntry = t.slot 0 →
      ∃ st', k.op = some (u, st'))
    (hlate : ∀ q ∈ k.late,
      1 ≤ q.server ∧ q.server < cfg.numServers ∧ Old cfg t q.prev ∧ q.prev ≠ t.slot 0) :
    Inv cfg (t.setClient c k) := by
  have hclient : ∀ c', c' = c ∧ (t.setClient c k).client c' = k ∨
      c' ≠ c ∧ (t.setClient c k).client c' = t.client c' := by
    intro c'
    by_cases hc : c' = c
    · subst hc
      exact .inl ⟨rfl, client_setClient_self⟩
    · exact .inr ⟨hc, client_setClient_of_ne hc⟩
  have hold : ∀ {e}, Old cfg t e → Old cfg (t.setClient c k) e := fun he => he.mono fun c' => by
    rcases hclient c' with ⟨rfl, hc⟩ | ⟨-, hc⟩ <;> rw [hc]
    · refine ⟨hnext, fun hne => ?_⟩
      obtain ⟨⟨u, st⟩, hk⟩ := Option.ne_none_iff_exists'.1 hne
      rcases (hop u st hk).2.2.2.2 with ⟨st₀, hop₀⟩ | ⟨hlt, -⟩
      · exact .inl (by rw [hop₀]; simp)
      · exact .inr hlt
    · exact ⟨Nat.le_refl _, .inl⟩
  -- what has results is an update from before
  have hback : ∀ c' u st s r, ((t.setClient c k).client c').op = some (u, st) →
      u.futures s = some r → ∃ st₀, (t.client c').op = some (u, st₀) := by
    intro c' u st s r hop' hr
    rcases hclient c' with ⟨rfl, hc⟩ | ⟨-, hc⟩ <;> rw [hc] at hop'
    · rcases (hop u st hop').2.2.2.2 with hop₀ | ⟨-, hnone⟩
      · exact hop₀
      · exact absurd ((hnone s).symm.trans hr) (by simp)
    · exact ⟨st, hop'⟩
  refine ⟨hold h.main, fun c' u st hop' => ?_, fun c' q hq => ?_, fun s hs hsn hne => ?_, h.two,
    fun c' u st s hop' hf => ?_, fun c' u st s r hop' hf => ?_⟩
  · rcases hclient c' with ⟨rfl, hc⟩ | ⟨-, hc⟩ <;> rw [hc] at hop' ⊢
    · obtain ⟨h1, h2, h3, h4, -⟩ := hop u st hop'
      exact ⟨h1, h2, hold h3, h4⟩
    · obtain ⟨h1, h2, h3, h4⟩ := h.op c' u st hop'
      exact ⟨h1, h2, hold h3, h4⟩
  · rcases hclient c' with ⟨rfl, hc⟩ | ⟨-, hc⟩ <;> rw [hc] at hq
    · obtain ⟨h1, h2, h3, h4⟩ := hlate q hq
      exact ⟨h1, h2, hold h3, h4⟩
    · obtain ⟨h1, h2, h3, h4⟩ := h.late c' q hq
      exact ⟨h1, h2, hold h3, h4⟩
  · obtain ⟨c₁, u₁, st₁, hop₁, hslot, hf⟩ := h.owner s hs hsn hne
    rcases hclient c₁ with ⟨rfl, hc⟩ | ⟨-, hc⟩
    · obtain ⟨st', hk⟩ := hkeep u₁ st₁ hop₁ (h.won c₁ u₁ st₁ s hop₁ hf).1
      exact ⟨c₁, u₁, st', by rw [hc, hk], hslot, hf⟩
    · exact ⟨c₁, u₁, st₁, by rw [hc, hop₁], hslot, hf⟩
  · obtain ⟨st₀, hop₀⟩ := hback c' u st s _ hop' hf
    exact h.won c' u st₀ s hop₀ hf
  · obtain ⟨st₀, hop₀⟩ := hback c' u st s r hop' hf
    exact h.returned c' u st₀ s r hop₀ hf

/-- An update goes on with what it has. -/
theorem setOp (h : Inv cfg t) (hop : (t.client c).op = some (u, st)) (hst : Awaited cfg u st') :
    Inv cfg (t.setOp c u st') := by
  refine h.setClient (Nat.le_refl _) (fun u₁ st₁ hk => ?_) (fun u₁ st₁ hop₁ _ => ?_) (h.late c)
  · obtain ⟨rfl, rfl⟩ := Prod.mk.inj (Option.some.inj hk)
    obtain ⟨h1, h2, h3, -⟩ := h.op c u st hop
    exact ⟨h1, h2, h3, hst, .inl ⟨st, hop⟩⟩
  · rw [hop] at hop₁
    obtain ⟨rfl, rfl⟩ := Prod.mk.inj (Option.some.inj hop₁)
    exact ⟨st', rfl⟩

/-- An update starts. -/
theorem search (h : Inv cfg t) (hc : c < cfg.numClients) (hop : (t.client c).op = none)
    (hfit : cfg.kvId c (t.client c).next < 2 ^ 48) :
    Inv cfg (t.setClient c { t.client c with
      next := (t.client c).next + 1
      op := some (⟨prevEntry cfg (t.client c).cached (t.slot 0),
        cfg.kvId c (t.client c).next, fun _ => none⟩, .post) }) := by
  refine h.setClient (Nat.le_succ _) (fun u st hk => ?_) (fun u st hop' => ?_) (h.late c)
  · obtain ⟨rfl, rfl⟩ := Prod.mk.inj (Option.some.inj hk)
    refine ⟨hc, ⟨_, rfl, rfl, hfit⟩, ?_, fun _ => rfl, .inr ⟨Nat.lt_succ_self _, fun _ => rfl⟩⟩
    rw [h.main.prevEntry_eq]
    exact h.main
  · rw [hop] at hop'
    exact absurd hop' (by simp)

/-- What is late fails. -/
theorem late_step (h : Inv cfg t) {q : Cas} {i : ℕ} (hq : (t.client c).late[i]? = some q) :
    Inv cfg ((t.tryUpdate q.server q.prev q.new).setClient c
      { t.client c with late := (t.client c).late.eraseIdx i }) := by
  obtain ⟨h1, hn, hold, hne⟩ := h.late c q (List.mem_of_getElem? hq)
  have hslot : t.slot q.server ≠ q.prev := fun heq =>
    hne (heq ▸ h.slot_eq_main h1 hn (heq ▸ hold))
  rw [tryUpdate_of_ne hslot]
  refine h.setClient (Nat.le_refl _) (fun u st hk => ?_) (fun u st hop' _ => ⟨st, hop'⟩)
    fun q' hq' => h.late c q' (List.mem_of_mem_eraseIdx hq')
  obtain ⟨h1, h2, h3, h4⟩ := h.op c u st hk
  exact ⟨h1, h2, h3, h4, .inl ⟨st, hk⟩⟩

/-- An update that lost returns, after the main slot changed. -/
theorem lost (h : Inv cfg t) (hop : (t.client c).op = some (u, st))
    (hne : t.slot 0 ≠ u.prevEntry) (kv : ℕ) : Inv cfg (t.done c kv (u.inFlight cfg)) := by
  refine h.setClient (Nat.le_refl _) (fun u st hk => absurd hk (by simp))
    (fun u₁ st₁ hop₁ hp => ?_) fun q hq => ?_
  · rw [hop] at hop₁
    obtain ⟨rfl, rfl⟩ := Prod.mk.inj (Option.some.inj hop₁)
    exact absurd hp.symm hne
  · rcases List.mem_append.1 hq with hq | hq
    · exact h.late c q hq
    · obtain ⟨s, hs, rfl⟩ := List.mem_map.1 hq
      obtain ⟨hsn, hs'⟩ := List.mem_filter.1 hs
      exact ⟨(of_decide_eq_true hs').1, List.mem_range.1 hsn, (h.op c u st hop).2.2.1, hne.symm⟩

/-- The update that won all backups swaps the main slot. -/
theorem commit (h : Inv cfg t) (hop : (t.client c).op = some (u, .commit)) (kv : ℕ) :
    Inv cfg ((t.tryUpdate 0 u.prevEntry (cfg.entryFor u.newKvId)).done c kv []) := by
  obtain ⟨hcn, ⟨j, hj, hnext, hfit⟩, hprev, hn1, hf1, hall⟩ := h.op c u _ hop
  have hnew := h.not_old hop
  have hp := (h.won c u _ 1 hop hf1).1
  set new := cfg.entryFor u.newKvId with hnewdef
  set t₁ := (t.tryUpdate 0 u.prevEntry new).done c kv [] with ht₁
  have hself : (t₁.client c).op = none ∧ (t₁.client c).next = (t.client c).next ∧
      (t₁.client c).late = (t.client c).late := by
    rw [ht₁, State.done, client_setClient_self, client_tryUpdate]
    exact ⟨rfl, rfl, List.append_nil _⟩
  have hother : ∀ c', c' ≠ c → t₁.client c' = t.client c' := fun c' hc => by
    rw [ht₁, State.done, client_setClient_of_ne hc, client_tryUpdate]
  have hmain : t₁.slot 0 = new := slot_tryUpdate_self hp.symm
  -- all backups hold the new entry already
  have hslot : ∀ s, 1 ≤ s → s < cfg.numServers → t₁.slot s = new := fun s hs hsn =>
    (slot_tryUpdate_of_ne (by omega)).trans
      (h.slot_of_won hop hn1 hf1 hs hsn (hall s hs hsn)).2.2
  have hold : ∀ {e}, Old cfg t e → Old cfg t₁ e := fun he => he.mono fun c' => by
    by_cases hc : c' = c
    · subst hc
      rw [hself.1, hself.2.1]
      exact ⟨Nat.le_refl _, fun hne => absurd rfl hne⟩
    · rw [hother c' hc]
      exact ⟨Nat.le_refl _, .inl⟩
  have hnewold : Old cfg t₁ new := by
    refine ⟨c, j, hcn, hfit, by rw [hnewdef, hj], by rw [hself.2.1]; omega, fun hne => ?_⟩
    exact absurd hself.1 hne
  have hback : ∀ c' u' st', (t₁.client c').op = some (u', st') →
      c' ≠ c ∧ (t.client c').op = some (u', st') := by
    intro c' u' st' hop'
    by_cases hc : c' = c
    · subst hc
      rw [hself.1] at hop'
      exact absurd hop' (by simp)
    · exact ⟨hc, by rwa [hother c' hc] at hop'⟩
  refine ⟨hmain ▸ hnewold, fun c' u' st' hop' => ?_, fun c' q hq => ?_,
    fun s hs hsn hne => absurd ((hslot s hs hsn).trans hmain.symm) hne,
    fun s₁ s₂ h₁ hn₁ _ _ hne₁ _ => absurd ((hslot s₁ h₁ hn₁).trans hmain.symm) hne₁,
    fun c' u' st' s hop' hf => ?_, fun c' u' st' s r hop' hf => ?_⟩
  · obtain ⟨hc, hop'⟩ := hback c' u' st' hop'
    rw [hother c' hc]
    obtain ⟨h1, h2, h3, h4⟩ := h.op c' u' st' hop'
    exact ⟨h1, h2, hold h3, h4⟩
  · have hq' : q ∈ (t.client c').late := by
      by_cases hc : c' = c
      · subst hc
        rwa [hself.2.2] at hq
      · rwa [hother c' hc] at hq
    obtain ⟨h1, hn, hpr, -⟩ := h.late c' q hq'
    exact ⟨h1, hn, hold hpr, fun heq => hnew (by rw [← hmain, ← heq]; exact hpr)⟩
  · -- no other update has won a backup
    obtain ⟨hc, hop₁⟩ := hback c' u' st' hop'
    obtain ⟨hs, hsn, -⟩ := h.returned c' u' st' s _ hop₁ hf
    have hsl := (h.won c' u' st' s hop₁ hf).2
    rw [(h.slot_of_won hop hn1 hf1 hs hsn (hall s hs hsn)).2.2] at hsl
    exact absurd (h.owner_unique hop hop₁ hsl).symm hc
  · obtain ⟨hc, hop₁⟩ := hback c' u' st' hop'
    obtain ⟨hs, hsn, -⟩ := h.returned c' u' st' s r hop₁ hf
    refine ⟨hs, hsn, fun heq => absurd ?_ hnew⟩
    rw [← hmain, ← heq]
    exact (h.op c' u' st' hop₁).2.2.1

/-- A compare-and-swap of an update takes effect on a backup. -/
theorem cas (h : Inv cfg t) (hop : (t.client c).op = some (u, st)) (hst : st ≠ .post)
    (hs : 1 ≤ s) (hsn : s < cfg.numServers) (hf : u.futures s = none)
    (hg : t.Undisputed cfg s u.prevEntry (cfg.entryFor u.newKvId)) :
    Inv cfg ((t.tryUpdate s u.prevEntry (cfg.entryFor u.newKvId)).setOp c
      { u with futures := Function.update u.futures s (some (t.slot s)) } st) := by
  obtain ⟨hcn, hj, hprev, haw⟩ := h.op c u st hop
  have hnew := h.not_old hop
  set new := cfg.entryFor u.newKvId with hnewdef
  set u₁ : Update := { u with futures := Function.update u.futures s (some (t.slot s)) }
  set t₁ := (t.tryUpdate s u.prevEntry new).setOp c u₁ st with ht₁
  have hself : t₁.client c = { t.client c with op := some (u₁, st) } := by
    rw [ht₁, State.setOp, client_setClient_self, client_tryUpdate]
  have hother : ∀ c', c' ≠ c → t₁.client c' = t.client c' := fun c' hc => by
    rw [ht₁, State.setOp, client_setClient_of_ne hc, client_tryUpdate]
  have hslot : ∀ s', s' ≠ s → t₁.slot s' = t.slot s' := fun s' hs' => slot_tryUpdate_of_ne hs'
  have hmain : t₁.slot 0 = t.slot 0 := hslot 0 (by omega)
  -- the backup is won if it holds the entry of the main slot, and is left as it is otherwise
  have hcases : t.slot s = u.prevEntry ∧ t.slot s = t.slot 0 ∧ t₁.slot s = new ∨
      t.slot s ≠ u.prevEntry ∧ t₁.slot s = t.slot s := by
    by_cases hp : t.slot s = u.prevEntry
    · exact .inl ⟨hp, h.slot_eq_main hs hsn (hp ▸ hprev), slot_tryUpdate_self hp⟩
    · refine .inr ⟨hp, ?_⟩
      rw [ht₁, tryUpdate_of_ne hp]
      rfl
  have hne : ∀ s', t.slot s' ≠ t.slot 0 → t₁.slot s' ≠ t₁.slot 0 := by
    intro s' hs'
    rw [hmain]
    by_cases hss : s' = s
    · subst hss
      rcases hcases with ⟨-, heq, -⟩ | ⟨-, heq⟩
      · exact absurd heq hs'
      · rwa [heq]
    · rwa [hslot s' hss]
  have hold : ∀ {e}, Old cfg t e → Old cfg t₁ e := fun he => he.mono fun c' => by
    by_cases hc : c' = c
    · subst hc
      rw [hself]
      exact ⟨Nat.le_refl _, fun _ => .inl (by rw [hop]; simp)⟩
    · rw [hother c' hc]
      exact ⟨Nat.le_refl _, .inl⟩
  -- an update is the one from before, but for the result
  have hback : ∀ c' u' st', (t₁.client c').op = some (u', st') →
      c' = c ∧ u' = u₁ ∧ st' = st ∨ c' ≠ c ∧ (t.client c').op = some (u', st') := by
    intro c' u' st' hop'
    by_cases hc : c' = c
    · subst hc
      rw [hself] at hop'
      obtain ⟨rfl, rfl⟩ := Prod.mk.inj (Option.some.inj hop')
      exact .inl ⟨rfl, rfl, rfl⟩
    · exact .inr ⟨hc, by rwa [hother c' hc] at hop'⟩
  have hfut : ∀ s', s' ≠ s → u₁.futures s' = u.futures s' := fun s' hs' =>
    Function.update_of_ne hs' ..
  have hfuts : u₁.futures s = some (t.slot s) := Function.update_self ..
  refine ⟨hmain ▸ hold h.main, fun c' u' st' hop' => ?_, fun c' q hq => ?_,
    fun s' hs' hsn' hne' => ?_, fun s₁ s₂ h₁ hn₁ h₂ hn₂ hne₁ hne₂ => ?_,
    fun c' u' st' s' hop' hf' => ?_, fun c' u' st' s' r hop' hf' => ?_⟩
  · rcases hback c' u' st' hop' with ⟨rfl, rfl, rfl⟩ | ⟨hc, hop'⟩
    · rw [hself]
      exact ⟨hcn, hj, hold hprev, haw.update hst hf _⟩
    · rw [hother c' hc]
      obtain ⟨h1, h2, h3, h4⟩ := h.op c' u' st' hop'
      exact ⟨h1, h2, hold h3, h4⟩
  · have hq' : q ∈ (t.client c').late := by
      by_cases hc : c' = c
      · subst hc
        rwa [hself] at hq
      · rwa [hother c' hc] at hq
    obtain ⟨h1, hn, hpr, hne'⟩ := h.late c' q hq'
    exact ⟨h1, hn, hold hpr, by rwa [hmain]⟩
  · by_cases hkeep : t₁.slot s' = t.slot s'
    · obtain ⟨c₁, u₂, st₁, hop₁, hsl, hff⟩ := h.owner s' hs' hsn' (by
        rw [← hkeep, ← hmain]
        exact hne')
      by_cases hc : c₁ = c
      · subst hc
        rw [hop] at hop₁
        obtain ⟨rfl, rfl⟩ := Prod.mk.inj (Option.some.inj hop₁)
        refine ⟨c₁, u₁, st, by rw [hself], by rw [hkeep, hsl], ?_⟩
        rw [hfut s', hff]
        rintro rfl
        rw [hf] at hff
        exact absurd hff (by simp)
      · exact ⟨c₁, u₂, st₁, by rw [hother c₁ hc, hop₁], by rw [hkeep, hsl], hff⟩
    · have hss : s' = s := by_contra fun hss => hkeep (hslot s' hss)
      subst hss
      rcases hcases with ⟨hp, -, heq⟩ | ⟨-, heq⟩
      · exact ⟨c, u₁, st, by rw [hself], heq, by rw [hfuts, hp]⟩
      · exact absurd heq hkeep
  · rcases hcases with ⟨hp, hs0, hwin⟩ | ⟨-, hkeep⟩
    · -- as the backup is won, no other update has won one
      have hall : ∀ i, 1 ≤ i → i < cfg.numServers → t₁.slot i ≠ t₁.slot 0 → t₁.slot i = new := by
        intro i hi hin hine
        by_cases his : i = s
        · rw [his, hwin]
        · rw [hslot i his] at hine ⊢
          rcases hg hp i hin hi with heq | heq
          · exact absurd (heq.trans (hp.symm.trans (hs0.trans hmain.symm))) hine
          · exact heq
      rw [hall s₁ h₁ hn₁ hne₁, hall s₂ h₂ hn₂ hne₂]
    · have hsame : ∀ i, t₁.slot i = t.slot i := fun i => by
        by_cases his : i = s
        · rw [his, hkeep]
        · exact hslot i his
      rw [hsame, hsame] at hne₁ hne₂ ⊢
      exact h.two s₁ s₂ h₁ hn₁ h₂ hn₂ hne₁ hne₂
  · rcases hback c' u' st' hop' with ⟨rfl, rfl, rfl⟩ | ⟨hc, hop'⟩
    · by_cases hss : s' = s
      · subst hss
        rcases hcases with ⟨hp, hs0, hwin⟩ | ⟨hp, -⟩
        · exact ⟨hp.symm.trans (hs0.trans hmain.symm), hwin⟩
        · rw [hfuts, Option.some.injEq] at hf'
          exact absurd hf' hp
      · rw [hfut s' hss] at hf'
        rw [hmain, hslot s' hss]
        exact h.won c' u st' s' hop hf'
    · have hfresh := h.not_old hop'
      obtain ⟨hp', hsl⟩ := h.won c' u' st' s' hop' hf'
      refine ⟨hp'.trans hmain.symm, ?_⟩
      by_cases hss : s' = s
      · subst hss
        rcases hcases with ⟨-, hs0, -⟩ | ⟨-, hkeep⟩
        · exact absurd (hsl ▸ hs0 ▸ h.main) hfresh
        · rw [hkeep, hsl]
      · rw [hslot s' hss, hsl]
  · rcases hback c' u' st' hop' with ⟨rfl, rfl, rfl⟩ | ⟨hc, hop'⟩
    · by_cases hss : s' = s
      · subst hss
        refine ⟨hs, hsn, fun hp' => ?_⟩
        rcases hcases with ⟨-, -, hwin⟩ | ⟨hp, hkeep⟩
        · rw [hwin, hmain]
          exact fun heq => hnew (heq ▸ h.main)
        · rw [hkeep]
          exact fun heq => hp (heq.trans hp'.symm)
      · rw [hfut s' hss] at hf'
        obtain ⟨h1, hn, himp⟩ := h.returned c' u st' s' r hop hf'
        exact ⟨h1, hn, fun hp' => hne s' (himp (hp'.trans hmain))⟩
    · obtain ⟨h1, hn, himp⟩ := h.returned c' u' st' s' r hop' hf'
      exact ⟨h1, hn, fun hp' => hne s' (himp (hp'.trans hmain))⟩

/-- An update under way takes a step. -/
theorem stepOp (h : Inv cfg t) {a : Action} (hg : Guard cfg t a)
    (hop : (t.client a.owner).op = some (u, st)) (hst : stepOp cfg t a.owner u a st = some t') :
    Inv cfg t' := by
  have haw := (h.op a.owner u st hop).2.2.2
  unfold Fusee.stepOp at hst
  split at hst
  · obtain rfl := Option.some.inj hst
    exact h.setOp hop trivial
  · next c s =>
    split at hst
    · next hen =>
      obtain rfl := Option.some.inj hst
      have hg' : t.Undisputed cfg s u.prevEntry (cfg.entryFor u.newKvId) := by
        simp only [Action.owner] at hop
        simpa only [Guard, hop] using hg
      exact h.cas hop hen.1 hen.2.1 hen.2.2.1 hen.2.2.2 hg'
    · exact absurd hst (by simp)
  · obtain ⟨res, hres, rfl⟩ := Option.map_eq_some_iff.1 hst
    have hn := (h.returned _ u _ 1 res hop hres).2.1
    refine h.setOp hop ?_
    split
    · next heq =>
      refine ⟨hn, by rw [hres, heq], Nat.le_refl 2, fun s' h1 h2 _ => ?_⟩
      obtain rfl : s' = 1 := by omega
      rw [hres]
      simp
    · trivial
  · obtain rfl := Option.some.inj hst
    split
    · exact h
    · next hne => exact h.lost hop hne _
  · next s =>
    obtain ⟨hn, hf1, h2, hall⟩ := haw
    split at hst
    · next hsn =>
      obtain ⟨res, hres, rfl⟩ := Option.map_eq_some_iff.1 hst
      have hall' : ∀ s', 1 ≤ s' → s' ≤ s → s' < cfg.numServers → u.futures s' ≠ none := by
        intro s' h1 hle hsn'
        rcases Nat.lt_or_eq_of_le hle with hlt | rfl
        · exact hall s' h1 hlt hsn'
        · rw [hres]
          simp
      refine h.setOp hop ?_
      split
      · exact ⟨hn, hf1, by omega, fun s' h1 hlt => hall' s' h1 (by omega)⟩
      · exact ⟨hn, hf1, h2, hsn, hall'⟩
    · next hsn =>
      obtain rfl := Option.some.inj hst
      exact h.setOp hop ⟨hn, hf1, fun s' h1 hsn' => hall s' h1 (by omega) hsn'⟩
  · next s =>
    -- the retry expects the entry of the main slot, which this backup does not hold
    obtain ⟨hn, hf1, h2, hsn, hall⟩ := haw
    obtain rfl := Option.some.inj hst
    obtain ⟨hp, hne, -⟩ := h.slot_of_won hop hn hf1 (by omega) hsn
      (hall s (by omega) (by omega) hsn)
    rw [tryUpdate_of_ne (hp ▸ hne)]
    exact h.setOp hop ⟨hn, hf1, by omega, fun s' h1 hlt => hall s' h1 (by omega)⟩
  · obtain rfl := Option.some.inj hst
    exact h.commit hop _
  · exact absurd hst (by simp)

theorem init (hfit : cfg.kvId 0 cfg.inserted < 2 ^ 48) : Inv cfg (machine cfg).init := by
  have hold : Old cfg (machine cfg).init (cfg.entryFor (cfg.kvId 0 cfg.inserted)) :=
    ⟨0, cfg.inserted, cfg.numClients_pos, hfit, rfl, cfg.inserted_lt, fun hne => absurd rfl hne⟩
  refine ⟨hold, ?_, ?_, ?_, ?_, ?_, ?_⟩ <;> simp [machine]

/-- It holds along the undisputed runs. -/
theorem run (hfit : cfg.kvId 0 cfg.inserted < 2 ^ 48) {tr : List Action}
    (h : (machine cfg).Run (Guard cfg) tr t) : Inv cfg t := by
  refine Trace.invariant (P := fun _ t => Inv cfg t) (init hfit) ?_ h
  rintro tr t a t' - hi ⟨act, hg, hst⟩
  obtain ⟨t', hst', heq⟩ := Option.map_eq_some_iff.1 hst
  obtain ⟨rfl, rfl⟩ := Prod.mk.inj heq
  obtain ⟨hc, ⟨c, rfl, hop, rfl⟩ | ⟨c, i, q, rfl, hq, rfl⟩ | ⟨u, st, hop, hst⟩⟩ := step_cases hst'
  · exact hi.search hc hop hg
  · exact hi.late_step hq
  · exact hi.stepOp hg hop hst

end Inv

/-- The replicas agree when all updates have returned, if no backup was won by one
    update while another one had won a backup, from the same entry. -/
theorem agree_of_run (hfit : cfg.kvId 0 cfg.inserted < 2 ^ 48) {tr : List Action} {t : State}
    (h : (machine cfg).Run (Guard cfg) tr t) (hr : t.Returned cfg) : t.Agree cfg := by
  have hi := Inv.run hfit h
  intro s hs
  rcases Nat.eq_zero_or_pos s with rfl | hpos
  · rfl
  · by_contra hne
    obtain ⟨c, u, st, hop, -⟩ := hi.owner s hpos hs hne
    have := hr c (hi.op c u st hop).1
    rw [hop] at this
    exact absurd this (by simp)

/-- Two updates of the same entry, of which one wins all backups: the other one comes
    later on each, and on one of them after it has returned. -/
theorem agree_race : ∃ tr t, small.kvId 0 small.inserted < 2 ^ 48 ∧
    (machine small).Run (Guard small) tr t ∧ t.Returned small ∧ t.Agree small := by
  have hfit : small.kvId 0 small.inserted < 2 ^ 48 := by decide
  obtain ⟨tr, t, h, ht⟩ := Machine.exists_run_of_play (G := Guard small) (m := machine small)
    (fun r => decide (r.2.Returned small))
    [.search 0, .search 1, .post 0, .post 1, .cas 0 2, .cas 0 1, .cas 1 1, .first 0, .next 0,
      .next 0, .first 1, .commit 0, .check 1, .late 1 0, .search 1, .post 1, .cas 1 1, .cas 1 2,
      .first 1, .next 1, .next 1, .commit 1] (b := true) (by decide +kernel)
  exact ⟨tr, t, hfit, h, of_decide_eq_true ht, agree_of_run hfit h (of_decide_eq_true ht)⟩

end DiscoSkip.Fusee
