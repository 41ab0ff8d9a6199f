import Mathlib.Logic.Function.Basic
import DiscoSkip.Lib.Machine
import DiscoSkip.Race

/-!
# Updates of FUSEE

The updates of one key by the clients of FUSEE (`execute_point_op`). The index is
replicated: every server has a slot for the bucket entry of the key, at the same
offset, the one of the *main* server `0` and those of the *backups*.

An update finds the entry in the main index, and then swaps it for one of a new
key/value id:

* it posts a compare-and-swap to every backup, and awaits the one to the first
  backup, which decides if it *won*;
* if it lost, it waits for the main slot to change, and returns;
* if it won, it awaits the others in turn, retries each that failed, once and with
  the same entry expected, swaps the main slot, and returns.

The compare-and-swaps to the other backups of an update that lost stay in flight
as it returns (`Client.late`).

The search, the compare-and-swaps and the reads of the main slot are atomic; all
may take effect in any order. What is left out is the key/value data, which are
written to all servers before, under an id that no one else writes to.
-/

namespace DiscoSkip.Fusee

open Lib Race

/-- The layout, and how the key was inserted: by the first client, which inserts all
    keys, as one of the `loaded` ones it inserts. -/
structure Config where
  numServers : ℕ
  numClients : ℕ
  checksum : BitVec 8
  loaded : ℕ
  inserted : ℕ
  inserted_lt : inserted < loaded
  numClients_pos : 0 < numClients

namespace Config

variable (cfg : Config)

/-- The id of the `j`-th key/value pair a client writes, by the process id of the
    client, which starts after those of the servers. -/
def kvId (c j : ℕ) : ℕ := cfg.numServers + 1 + c + j * cfg.numClients

/-- The entry of the key, with a value. -/
def entryFor (kv : ℕ) : BucketEntry := .of cfg.checksum kv

end Config

/-- Numbers below `n` with a multiple of it. -/
theorem add_mul_inj {n c c' j j' : ℕ} (hc : c < n) (hc' : c' < n)
    (h : c + j * n = c' + j' * n) : c = c' ∧ j = j' := by
  have hmod := congrArg (· % n) h
  rw [Nat.add_mul_mod_self_right, Nat.add_mul_mod_self_right, Nat.mod_eq_of_lt hc,
    Nat.mod_eq_of_lt hc'] at hmod
  subst hmod
  exact ⟨rfl, Nat.eq_of_mul_eq_mul_right (Nat.zero_lt_of_lt hc) (Nat.add_left_cancel h)⟩

/-- A compare-and-swap in flight. -/
structure Cas where
  server : ℕ
  prev : BucketEntry
  new : BucketEntry

/-- An update: the entry it found, the id of what it wrote, and what its
    compare-and-swaps to the backups returned so far. -/
structure Update where
  prevEntry : BucketEntry
  newKvId : ℕ
  futures : ℕ → Option BucketEntry

/-- What an update is about to do. -/
inductive Stage
  /-- Posting the compare-and-swaps. -/
  | post
  /-- Awaiting the first backup. -/
  | first
  /-- Waiting for the main slot to change, having lost. -/
  | check
  /-- Awaiting the backup `s`, having won. -/
  | next (s : ℕ)
  /-- Retrying the backup `s`. -/
  | retry (s : ℕ)
  /-- Swapping the main slot, after the last backup. -/
  | commit
  deriving DecidableEq

structure Client where
  /-- How many key/value pairs were written. -/
  next : ℕ
  /-- The id in the pointer cache, if there is one. -/
  cached : Option ℕ
  op : Option (Update × Stage)
  late : List Cas

structure State where
  slot : ℕ → BucketEntry
  client : ℕ → Client

/-- A client starts an update, or goes on with one; a compare-and-swap to the server
    `s` takes effect, of the update under way or of an earlier one. -/
inductive Action
  | search (c : ℕ)
  | post (c : ℕ)
  | cas (c s : ℕ)
  | late (c i : ℕ)
  | first (c : ℕ)
  | check (c : ℕ)
  | next (c : ℕ)
  | retry (c : ℕ)
  | commit (c : ℕ)

namespace State

def setClient (t : State) (c : ℕ) (k : Client) : State :=
  { t with client := Function.update t.client c k }

/-- The update of a client goes on. -/
def setOp (t : State) (c : ℕ) (u : Update) (st : Stage) : State :=
  t.setClient c { t.client c with op := some (u, st) }

/-- A compare-and-swap takes effect. -/
def tryUpdate (t : State) (s : ℕ) (prev new : BucketEntry) : State :=
  if t.slot s = prev then { t with slot := Function.update t.slot s new } else t

/-- An update returns, with an id for the pointer cache; what is in flight stays so. -/
def done (t : State) (c : ℕ) (kv : ℕ) (late : List Cas) : State :=
  t.setClient c { t.client c with cached := some kv, op := none, late := (t.client c).late ++ late }

end State

variable (cfg : Config)

/-- The entry an update expects, by the entry found in the slot of the key. With a
    cached id, it is the entry of this id if it is found; otherwise, it is that of
    the id found. -/
def prevEntry (cached : Option ℕ) (found : BucketEntry) : BucketEntry :=
  match cached with
  | some kv => if cfg.entryFor kv = found then cfg.entryFor kv else cfg.entryFor found.getValue
  | none => cfg.entryFor found.getValue

/-- The compare-and-swaps of an update that have not returned yet. -/
def Update.inFlight (u : Update) : List Cas :=
  ((List.range cfg.numServers).filter fun s => 1 ≤ s ∧ u.futures s = none).map
    (⟨·, u.prevEntry, cfg.entryFor u.newKvId⟩)

/-- The step of an update under way. -/
def stepOp (t : State) (c : ℕ) (u : Update) : Action → Stage → Option State
  | .post _, .post => some (t.setOp c u .first)
  | .cas _ s, st =>
    if st ≠ .post ∧ 1 ≤ s ∧ s < cfg.numServers ∧ u.futures s = none then
      some ((t.tryUpdate s u.prevEntry (cfg.entryFor u.newKvId)).setOp c
        { u with futures := Function.update u.futures s (some (t.slot s)) } st)
    else none
  | .first _, .first =>
    (u.futures 1).map fun res => t.setOp c u (if res = u.prevEntry then .next 2 else .check)
  | .check _, .check =>
    some (if t.slot 0 = u.prevEntry then t
      else t.done c (t.slot 0).getValue (u.inFlight cfg))
  | .next _, .next s =>
    if s < cfg.numServers then
      (u.futures s).map fun res =>
        t.setOp c u (if res = u.prevEntry then .next (s + 1) else .retry s)
    else some (t.setOp c u .commit)
  | .retry _, .retry s =>
    some ((t.tryUpdate s u.prevEntry (cfg.entryFor u.newKvId)).setOp c u (.next (s + 1)))
  | .commit _, .commit =>
    some ((t.tryUpdate 0 u.prevEntry (cfg.entryFor u.newKvId)).done c u.newKvId [])
  | _, _ => none

/-- The client of an action. -/
def Action.owner : Action → ℕ
  | .search c | .post c | .cas c _ | .late c _ | .first c | .check c | .next c | .retry c
  | .commit c => c

def step (t : State) (a : Action) : Option State :=
  let c := a.owner
  let k := t.client c
  if c < cfg.numClients then
    match a, k.op with
    | .search _, none =>
      some (t.setClient c { k with
        next := k.next + 1
        op := some (⟨prevEntry cfg k.cached (t.slot 0), cfg.kvId c k.next, fun _ => none⟩, .post) })
    | .late _ i, _ =>
      (k.late[i]?).map fun q => (t.tryUpdate q.server q.prev q.new).setClient c
        { k with late := k.late.eraseIdx i }
    | a, some (u, st) => stepOp cfg t c u a st
    | _, none => none
  else none

/-- The clients, after the keys were inserted. -/
def machine : Machine State Action Action where
  init :=
    { slot _ := cfg.entryFor (cfg.kvId 0 cfg.inserted)
      client c := ⟨if c = 0 then cfg.loaded else 0, none, none, []⟩ }
  step t a := (step cfg t a).map (a, ·)

variable {cfg}

/-- All updates have returned. -/
def State.Returned (cfg : Config) (t : State) : Prop :=
  ∀ c < cfg.numClients, (t.client c).op.isNone = true

instance (t : State) : Decidable (t.Returned cfg) :=
  inferInstanceAs (Decidable (∀ c < cfg.numClients, (t.client c).op.isNone = true))

/-- The slots of all servers agree. -/
def State.Agree (cfg : Config) (t : State) : Prop := ∀ s < cfg.numServers, t.slot s = t.slot 0

instance (t : State) : Decidable (t.Agree cfg) :=
  inferInstanceAs (Decidable (∀ s < cfg.numServers, t.slot s = t.slot 0))

/-- Three servers, and two clients. -/
def small : Config := ⟨3, 2, 0, 1, 0, by decide, by decide⟩

/-- The backups of a key may end up with the entries of different updates: each of two
    wins one backup. As the one that won the first backup retries the other one, it
    still expects the entry that both found. -/
theorem not_agree : ∃ tr t, (machine small).Run (fun _ _ => True) tr t ∧
    t.Returned small ∧ ¬ t.Agree small := by
  obtain ⟨tr, t, h, ht⟩ := Machine.exists_run_of_play (G := fun _ _ => True) (m := machine small)
    (fun r => decide (r.2.Returned small ∧ ¬ r.2.Agree small))
    [.search 0, .search 1, .post 0, .post 1, .cas 0 1, .cas 1 2, .cas 1 1, .cas 0 2,
      .first 0, .next 0, .retry 0, .next 0, .commit 0, .first 1, .check 1] (b := true)
    (by decide +kernel)
  exact ⟨tr, t, h, of_decide_eq_true ht⟩

end DiscoSkip.Fusee
