import Mathlib.Data.Nat.Bitwise
import DiscoSkip.Lib.Machine
import DiscoSkip.Lib.Put

/-!
# The sequence lock of the skip vector

A lock is one word: a counter, and three bits from the lowest on, that tell if the node is
an orphan, if the lock is frozen, and if it is locked; it is dead if it is both. Writers
acquire and release it, with one atomic access to the word at a time; readers look at the
word before and after.

Several threads use one lock (`State.step`). A thread only releases, thaws or kills a lock
that it has acquired or frozen, and only changes the data while it holds the lock; if it
did, it does not release the lock as unchanged.

Released, the word is greater than it was before the lock was acquired, unless nothing
was changed. So a read is confirmed, and may be upgraded, only if no changes were made
since it began (`sound_of_run`).
-/

namespace DiscoSkip.SvLock

open Lib

/-! ## The word -/

abbrev Word := BitVec 64

def orphanBit : Word := 1
def freezeBit : Word := 2
def lockBit : Word := 4

def stateMask : Word := freezeBit + lockBit
def deadMask : Word := stateMask

def isOrphan (v : Word) : Bool := v &&& orphanBit = orphanBit
def isUnlocked (v : Word) : Bool := v &&& stateMask = 0
def isFrozen (v : Word) : Bool := v &&& stateMask = freezeBit
def isLocked (v : Word) : Bool := v &&& stateMask = lockBit
def isDead (v : Word) : Bool := v &&& stateMask = deadMask

/-! ## The threads -/

inductive Op
  | acquire
  | acquireFrozen
  | tryUpgrade (v : Word)
  | release
  | releaseAsOrphan
  | releaseAndAdopt
  | freeze
  | thaw
  | tryFreeze (v : Word)
  | releaseUnchanged
  | die
  | beginRead
  | confirmRead (v : Word)
  deriving DecidableEq

inductive Ret
  | unit
  | bool (b : Bool)
  | word (v : Word)
  deriving DecidableEq

/-- Where a thread is that has read the word. -/
inductive Pc
  | acquire (readValue : Word)
  | acquireFrozen (readValue : Word)
  | freeze (readValue : Word)
  deriving DecidableEq

/-- What a thread has of the lock; `changed` if it has changed the data since. -/
inductive Hold
  | none
  | frozen
  | locked (changed : Bool)
  deriving DecidableEq

inductive Event (T : Type*)
  /-- The thread has read the word, or failed to swap it. -/
  | goesOn (i : T)
  /-- The thread changes the data. -/
  | changes (i : T)
  | returns (i : T) (op : Op) (r : Ret)
  deriving DecidableEq

/-- The word and the threads, with the flag of the node that its orphan bit stands for. -/
structure State (T : Type*) where
  word : Word
  orphan : Bool
  hold : T → Hold
  pc : T → Option Pc

inductive Action (T : Type*)
  | call (i : T) (op : Op)
  /-- The call of a thread goes on; a weak compare-and-swap may fail. -/
  | go (i : T) (weak : Bool)
  | change (i : T)

def Hold.isLocked : Hold → Bool
  | .locked _ => true
  | _ => false

section Step

variable {T : Type*} [DecidableEq T] (t : State T) (i : T)

namespace State

def setPc (pc : Option Pc) : State T := { t with pc := put t.pc i pc }

/-- The thread swaps the word, and has `hold` of the lock from then on. -/
def setWord (word : Word) (hold : Hold) : State T :=
  { t with word, hold := put t.hold i hold }

/-- The first access of an operation, which is the only one of most; the assertions of the
    source are checked with it. -/
def call : Op → Option (Event T × State T)
  | .acquire => some (.goesOn i, t.setPc i (some (.acquire t.word)))
  | .acquireFrozen =>
    if t.hold i = .frozen ∧ isFrozen t.word then
      some (.goesOn i, t.setPc i (some (.acquireFrozen t.word)))
    else none
  | .tryUpgrade v =>
    if isUnlocked v then
      some (if t.word = v then
        (.returns i (.tryUpgrade v) (.bool true), t.setWord i (v + lockBit) (.locked false))
      else (.returns i (.tryUpgrade v) (.bool false), t))
    else none
  | .release =>
    if (t.hold i).isLocked ∧ isLocked t.word then
      some (.returns i .release (.word (t.word + lockBit)), t.setWord i (t.word + lockBit) .none)
    else none
  | .releaseAsOrphan =>
    if (t.hold i).isLocked ∧ isLocked t.word ∧ isOrphan t.word = false then
      some (.returns i .releaseAsOrphan (.word (t.word + lockBit + orphanBit)),
        { t.setWord i (t.word + (lockBit + orphanBit)) .none with orphan := true })
    else none
  | .releaseAndAdopt =>
    if (t.hold i).isLocked ∧ isLocked t.word ∧ isOrphan t.word then
      some (.returns i .releaseAndAdopt (.word (t.word + (lockBit - orphanBit))),
        { t.setWord i (t.word + (lockBit - orphanBit)) .none with orphan := false })
    else none
  | .freeze => some (.goesOn i, t.setPc i (some (.freeze t.word)))
  | .thaw =>
    if t.hold i = .frozen ∧ isFrozen t.word then
      some (.returns i .thaw .unit, t.setWord i (t.word - freezeBit) .none)
    else none
  | .tryFreeze v =>
    if isUnlocked v then
      some (if t.word = v then
        (.returns i (.tryFreeze v) (.bool true), t.setWord i (v + freezeBit) .frozen)
      else (.returns i (.tryFreeze v) (.bool false), t))
    else none
  | .releaseUnchanged =>
    if t.hold i = .locked false ∧ isLocked t.word then
      some (.returns i .releaseUnchanged .unit, t.setWord i (t.word - lockBit) .none)
    else none
  | .die =>
    if (t.hold i).isLocked ∧ isLocked t.word then
      some (.returns i .die .unit, t.setWord i (t.word + freezeBit) .none)
    else none
  | .beginRead => some (.returns i .beginRead (.word (t.word &&& ~~~stateMask)), t)
  | .confirmRead v =>
    some (.returns i (.confirmRead v) (.bool (v = (t.word &&& ~~~freezeBit))), t)

/-- An operation goes on from the value it has read. -/
def go (weak : Bool) : Pc → Event T × State T
  | .acquire v =>
    if isUnlocked v then
      if t.word = v ∧ weak = false then
        (.returns i .acquire (.bool true), (t.setPc i none).setWord i (v + lockBit) (.locked false))
      else (.goesOn i, t.setPc i (some (.acquire t.word)))
    else if isDead v then (.returns i .acquire (.bool false), t.setPc i none)
    else (.goesOn i, t.setPc i (some (.acquire t.word)))
  | .freeze v =>
    if isUnlocked v then
      if t.word = v ∧ weak = false then
        (.returns i .freeze (.bool true), (t.setPc i none).setWord i (v + freezeBit) .frozen)
      else (.goesOn i, t.setPc i (some (.freeze t.word)))
    else if isDead v then (.returns i .freeze (.bool false), t.setPc i none)
    else (.goesOn i, t.setPc i (some (.freeze t.word)))
  | .acquireFrozen v =>
    (.returns i .acquireFrozen .unit,
      (t.setPc i none).setWord i (v + (lockBit - freezeBit)) (.locked false))

def step : Action T → Option (Event T × State T)
  | .call i op => if t.pc i = none then t.call i op else none
  | .go i weak => (t.pc i).map (t.go i weak)
  | .change i =>
    if t.pc i = none ∧ (t.hold i).isLocked then
      some (.changes i, { t with hold := put t.hold i (.locked true) })
    else none

end State

/-- A lock, from its construction on. The events come with the states they happen in. -/
def machine (T : Type*) [DecidableEq T] (orphan : Bool) :
    Machine (State T) (Action T) (Event T × State T) where
  init := ⟨if orphan then orphanBit else 0, orphan, fun _ => .none, fun _ => none⟩
  step t a := (t.step a).map fun (e, t') => ((e, t), t')

end Step

/-! ## Words apart -/

/-- What the bits of the state of a lock tell. -/
inductive Phase
  | unlocked
  | frozen
  | locked
  | dead
  deriving DecidableEq

def Phase.bits : Phase → ℕ
  | .unlocked => 0
  | .frozen => 2
  | .locked => 4
  | .dead => 6

/-- The word has the counter `n`, and the bits of an orphan and of the phase. -/
def Packs (w : Word) (n : ℕ) (orphan : Bool) (p : Phase) : Prop :=
  w.toNat = 8 * n + (p.bits + orphan.toNat)

section Packs

variable {w v : Word} {n m : ℕ} {o o' : Bool} {p p' : Phase}

theorem and_eight_mul_add {n k r s : ℕ} (hr : r < 8) (hs : s < 8) :
    (8 * n + r) &&& (8 * k + s) = 8 * (n &&& k) + (r &&& s) := by
  have hdiv : ∀ {x y : ℕ}, y < 8 → (8 * x + y) / 2 ^ 3 = x := by omega
  have hmod : ∀ {x y : ℕ}, y < 8 → (8 * x + y) % 2 ^ 3 = y := by omega
  rw [← Nat.div_add_mod ((8 * n + r) &&& (8 * k + s)) (2 ^ 3), Nat.and_div_two_pow,
    Nat.and_mod_two_pow, hdiv hr, hdiv hs, hmod hr, hmod hs]
  rfl

theorem Phase.bits_add_lt (p : Phase) (o : Bool) : p.bits + o.toNat < 8 := by
  cases p <;> cases o <;> decide

namespace Packs

theorem counter_lt (h : Packs w n o p) : n < 2 ^ 61 := by
  have := w.isLt
  have : w.toNat = 8 * n + (p.bits + o.toNat) := h
  omega

theorem and_toNat (h : Packs w n o p) (k s : ℕ) (hs : s < 8) :
    w.toNat &&& (8 * k + s) = 8 * (n &&& k) + ((p.bits + o.toNat) &&& s) := by
  rw [show w.toNat = _ from h, and_eight_mul_add (p.bits_add_lt o) hs]

/-- The bits of the word under a mask of the lowest three. -/
theorem and_eq (h : Packs w n o p) {c : Word} (hc : c.toNat < 8) :
    (w &&& c).toNat = (p.bits + o.toNat) &&& c.toNat := by
  have := h.and_toNat 0 c.toNat hc
  simpa using this

theorem isOrphan (h : Packs w n o p) : isOrphan w = o := by
  rw [SvLock.isOrphan, Bool.eq_iff_iff, decide_eq_true_iff, ← BitVec.toNat_inj,
    h.and_eq (c := orphanBit) (by decide)]
  cases p <;> cases o <;> decide

theorem stateMask_eq_iff (h : Packs w n o p) (c : Word) :
    w &&& stateMask = c ↔ p.bits = c.toNat := by
  rw [← BitVec.toNat_inj, h.and_eq (c := stateMask) (by decide)]
  cases p <;> cases o <;> rfl

theorem isUnlocked (h : Packs w n o p) : isUnlocked w ↔ p = .unlocked := by
  rw [SvLock.isUnlocked, decide_eq_true_iff, h.stateMask_eq_iff]
  cases p <;> decide

theorem isFrozen (h : Packs w n o p) : isFrozen w ↔ p = .frozen := by
  rw [SvLock.isFrozen, decide_eq_true_iff, h.stateMask_eq_iff]
  cases p <;> decide

theorem isLocked (h : Packs w n o p) : isLocked w ↔ p = .locked := by
  rw [SvLock.isLocked, decide_eq_true_iff, h.stateMask_eq_iff]
  cases p <;> decide

theorem isDead (h : Packs w n o p) : isDead w ↔ p = .dead := by
  rw [SvLock.isDead, decide_eq_true_iff, h.stateMask_eq_iff]
  cases p <;> decide

/-- The bits of the word above the lowest three stay under the complement of a mask of them. -/
theorem and_not (h : Packs w n o p) {c : Word} (hc : c.toNat < 8) :
    (w &&& ~~~c).toNat = 8 * n + ((p.bits + o.toNat) &&& (7 - c.toNat)) := by
  have hmask : (~~~c).toNat = 8 * (2 ^ 61 - 1) + (7 - c.toNat) := by
    rw [BitVec.toNat_not]
    omega
  rw [BitVec.toNat_and, hmask, h.and_toNat _ _ (by omega), Nat.and_two_pow_sub_one_eq_mod,
    Nat.mod_eq_of_lt h.counter_lt]

theorem add (h : Packs w n o p) (c : Word) (hm : m < 2 ^ 61)
    (hsum : 8 * n + (p.bits + o.toNat) + c.toNat = 8 * m + (p'.bits + o'.toNat)) :
    Packs (w + c) m o' p' := by
  have := p'.bits_add_lt o'
  rw [Packs, BitVec.toNat_add, show w.toNat = _ from h, hsum]
  exact Nat.mod_eq_of_lt (by omega)

theorem sub (h : Packs w n o p) (c : Word)
    (hsum : 8 * n + (p.bits + o.toNat) = 8 * m + (p'.bits + o'.toNat) + c.toNat) :
    Packs (w - c) m o' p' := by
  have hw : w.toNat = 8 * n + (p.bits + o.toNat) := h
  have hc : c ≤ w := by
    rw [BitVec.le_def]
    omega
  rw [Packs, BitVec.toNat_sub_of_le hc]
  omega

/-- A read begins with the word as it was before the lock was acquired or frozen. -/
theorem beginRead (h : Packs w n o p) : Packs (w &&& ~~~stateMask) n o .unlocked := by
  rw [Packs, h.and_not (c := stateMask) (by decide)]
  cases p <;> cases o <;> rfl

/-- A word has one counter, one orphan bit and one phase. -/
theorem inj (h : Packs w n o p) (h' : Packs w m o' p') : n = m ∧ o = o' ∧ p = p' := by
  have heq : 8 * n + (p.bits + o.toNat) = 8 * m + (p'.bits + o'.toNat) := h.symm.trans h'
  have := p.bits_add_lt o
  have := p'.bits_add_lt o'
  have hbits : p.bits + o.toNat = p'.bits + o'.toNat := by omega
  refine ⟨by omega, ?_⟩
  revert hbits
  cases p <;> cases p' <;> cases o <;> cases o' <;> decide

/-- A read is confirmed by a word that is not locked, with the counter and the orphan bit
    that it began with. -/
theorem confirmRead (h : Packs w n o p) (h' : Packs (w &&& ~~~freezeBit) m o' .unlocked) :
    n = m ∧ o = o' ∧ (p = .unlocked ∨ p = .frozen) := by
  have heq : 8 * n + ((p.bits + o.toNat) &&& 5) = 8 * m + (0 + o'.toNat) :=
    (h.and_not (c := freezeBit) (by decide)).symm.trans h'
  have hlt : (p.bits + o.toNat) &&& 5 < 8 := lt_of_le_of_lt Nat.and_le_right (by decide)
  have := o'.toNat_lt
  have hbits : (p.bits + o.toNat) &&& 5 = 0 + o'.toNat := by omega
  refine ⟨by omega, ?_⟩
  revert hbits
  cases p <;> cases o <;> cases o' <;> decide

end Packs

end Packs

/-! ## Events -/

namespace Event

variable {T : Type*}

/-- A critical section ends, with the data changed. -/
def isRelease : Event T → Bool
  | .returns _ .release _ | .returns _ .releaseAsOrphan _ | .returns _ .releaseAndAdopt _ => true
  | _ => false

def isDie : Event T → Bool
  | .returns _ .die _ => true
  | _ => false

/-- A thread has acquired or frozen the lock. -/
def takes : Event T → Bool
  | .returns _ .acquire (.bool true) | .returns _ .acquireFrozen _
  | .returns _ (.tryUpgrade _) (.bool true) | .returns _ .freeze (.bool true)
  | .returns _ (.tryFreeze _) (.bool true) => true
  | _ => false

/-- A read that began with the value is confirmed, or upgraded. -/
def confirms (v : Word) : Event T → Bool
  | .returns _ (.confirmRead v') (.bool true) | .returns _ (.tryUpgrade v') (.bool true) => v' = v
  | _ => false

end Event

/-! ## The invariant -/

/-- Who has the lock. -/
inductive Mode (T : Type*)
  | free
  | frozen (i : T)
  | locked (i : T) (changed : Bool)
  | dead

/-- What an event does to a dead lock, and when it is one. -/
structure Mode.Goes {T : Type*} (m : Mode T) (e : Event T) (m' : Mode T) : Prop where
  dead : m = .dead → m' = .dead ∧ e.takes = false
  die : e.isDie → m' = .dead

theorem Mode.Goes.rfl {T : Type*} {m : Mode T} {e : Event T} (ht : e.takes = false)
    (hd : e.isDie = false) :
    m.Goes e m :=
  ⟨fun h => ⟨h, ht⟩, fun h => nomatch hd.symm.trans h⟩

section Inv

variable {T : Type*} [DecidableEq T]

namespace Mode

def phase : Mode T → Phase
  | .free => .unlocked
  | .frozen _ => .frozen
  | .locked .. => .locked
  | .dead => .dead

def hold : Mode T → T → Hold
  | .free | .dead => fun _ => .none
  | .frozen i => put (fun _ => .none) i .frozen
  | .locked i ch => put (fun _ => .none) i (.locked ch)

variable {m : Mode T} {i : T}

theorem eq_locked_of_isLocked (h : (m.hold i).isLocked) : ∃ ch, m = .locked i ch := by
  cases m with
  | free | dead => exact nomatch h
  | frozen j =>
    by_cases hj : i = j
    · subst hj
      rw [hold, put_self] at h
      exact nomatch h
    · rw [hold, put_of_ne hj] at h
      exact nomatch h
  | locked j ch =>
    by_cases hj : i = j
    · subst hj
      exact ⟨ch, rfl⟩
    · rw [hold, put_of_ne hj] at h
      exact nomatch h

theorem eq_frozen_of_hold (h : m.hold i = .frozen) : m = .frozen i := by
  cases m with
  | free | dead => exact nomatch h
  | frozen j =>
    by_cases hj : i = j
    · rw [hj]
    · rw [hold, put_of_ne hj] at h
      exact nomatch h
  | locked j ch =>
    by_cases hj : i = j
    · subst hj
      rw [hold, put_self] at h
      exact nomatch h
    · rw [hold, put_of_ne hj] at h
      exact nomatch h

end Mode

/-- The word is that of the mode, and at most one thread has the lock, as the mode tells. -/
structure Inv (m : Mode T) (n : ℕ) (t : State T) : Prop where
  word : Packs t.word n t.orphan m.phase
  hold : t.hold = m.hold
  /-- A thread that goes on to store the word still has what it read. -/
  pc : ∀ i v, t.pc i = some (.acquireFrozen v) → m = .frozen i ∧ v = t.word

namespace Inv

variable {m m' : Mode T} {n n' : ℕ} {t t' : State T} {i : T} {e : Event T} {v : Word}

theorem setPc (h : Inv m n t) {pc : Option Pc}
    (hpc : ∀ v, pc = some (.acquireFrozen v) → m = .frozen i ∧ v = t.word) :
    Inv m n (t.setPc i pc) := by
  refine ⟨h.word, h.hold, fun j v hj => ?_⟩
  by_cases hji : j = i
  · subst hji
    exact hpc v ((put_self t.pc j pc).symm.trans hj)
  · exact h.pc j v ((put_of_ne hji).symm.trans hj)

/-- A thread that is in no other operation swaps the word, if no other thread has frozen it. -/
theorem swap (h : Inv m n t) {w : Word} {o : Bool} {hold : Hold} (hi : t.pc i = none)
    (hm : ∀ j, m = .frozen j → j = i) (hhold : m'.hold = put m.hold i hold)
    (hw : Packs w n' o m'.phase) : Inv m' n' { t.setWord i w hold with orphan := o } := by
  refine ⟨hw, ?_, fun j v hj => ?_⟩
  · rw [hhold, ← h.hold]
    rfl
  · obtain rfl := hm j (h.pc j v hj).1
    exact nomatch hi.symm.trans hj

/-- A lock that is unlocked is free. -/
theorem eq_free (h : Inv m n t) (hv : isUnlocked t.word) : m = .free := by
  have := h.word.isUnlocked.1 hv
  cases m with
  | free => rfl
  | frozen | locked | dead => exact nomatch this

/-- What the source asserts holds of a thread that has the lock. -/
theorem isLocked_word (h : Inv m n t) (hl : (t.hold i).isLocked) : isLocked t.word := by
  obtain ⟨ch, rfl⟩ := Mode.eq_locked_of_isLocked (h.hold ▸ hl)
  exact h.word.isLocked.2 rfl

theorem isFrozen_word (h : Inv m n t) (hf : t.hold i = .frozen) : isFrozen t.word := by
  obtain rfl := Mode.eq_frozen_of_hold (h.hold ▸ hf)
  exact h.word.isFrozen.2 rfl

/-- A thread takes the lock that is free. -/
theorem take (h : Inv m n t) (hi : t.pc i = none) (hv : isUnlocked t.word) {c : Word} {hold : Hold}
    (hhold : m'.hold = put (fun _ => .none) i hold) (hc : c.toNat = m'.phase.bits) :
    Inv m' n (t.setWord i (t.word + c) hold) := by
  obtain rfl := h.eq_free hv
  refine h.swap (o := t.orphan) hi nofun hhold (h.word.add c h.word.counter_lt ?_)
  rw [hc, Mode.phase, Phase.bits]
  omega

/-- The thread that holds the lock lets go of it. -/
theorem letGo {ch : Bool} (h : Inv (.locked i ch) n t) (hi : t.pc i = none) {w : Word} {o : Bool}
    (hm : m' = .free ∨ m' = .dead) (hw : Packs w n' o m'.phase) :
    Inv m' n' { t.setWord i w .none with orphan := o } := by
  refine h.swap hi nofun ?_ hw
  obtain rfl | rfl := hm <;> simp [Mode.hold]

/-- The thread that holds the lock releases it: the counter goes on, by what is added. -/
theorem release {ch : Bool} (h : Inv (.locked i ch) n t) (hn : n + 1 < 2 ^ 61)
    (hi : t.pc i = none) {o : Bool} (c : Word) (hc : 4 + t.orphan.toNat + c.toNat = 8 + o.toNat) :
    Inv .free (n + 1) { t.setWord i (t.word + c) .none with orphan := o } := by
  refine h.letGo hi (.inl rfl) (h.word.add c hn ?_)
  simp only [Mode.phase, Phase.bits]
  omega

theorem releaseUnchanged {ch : Bool} (h : Inv (.locked i ch) n t) (hi : t.pc i = none) :
    Inv .free n (t.setWord i (t.word - lockBit) .none) := by
  refine h.letGo (o := t.orphan) hi (.inl rfl) (h.word.sub lockBit ?_)
  have : lockBit.toNat = 4 := rfl
  simp only [Mode.phase, Phase.bits]
  omega

theorem die {ch : Bool} (h : Inv (.locked i ch) n t) (hi : t.pc i = none) :
    Inv .dead n (t.setWord i (t.word + freezeBit) .none) := by
  refine h.letGo (o := t.orphan) hi (.inr rfl) (h.word.add freezeBit h.word.counter_lt ?_)
  have : freezeBit.toNat = 2 := rfl
  simp only [Mode.phase, Phase.bits]
  omega

theorem thaw (h : Inv (.frozen i) n t) (hi : t.pc i = none) :
    Inv .free n (t.setWord i (t.word - freezeBit) .none) := by
  refine h.swap (o := t.orphan) hi (fun j hj => (Mode.frozen.inj hj).symm) ?_
    (h.word.sub freezeBit ?_)
  · simp [Mode.hold]
  · have : freezeBit.toNat = 2 := rfl
    simp only [Mode.phase, Phase.bits]
    omega

theorem takeFrozen (h : Inv (.frozen i) n t) (hi : t.pc i = none) :
    Inv (.locked i false) n (t.setWord i (t.word + (lockBit - freezeBit)) (.locked false)) := by
  refine h.swap (o := t.orphan) hi (fun j hj => (Mode.frozen.inj hj).symm) ?_
    (h.word.add (lockBit - freezeBit) h.word.counter_lt ?_)
  · simp [Mode.hold]
  · have : (lockBit - freezeBit).toNat = 2 := rfl
    simp only [Mode.phase, Phase.bits]
    omega

/-- The first access of an operation goes to a mode of its own, and keeps what the word
    tells. -/
theorem call {op : Op} (h : Inv m n t) (hn : n + 1 < 2 ^ 61) (hi : t.pc i = none)
    (ht : t.call i op = some (e, t')) :
    ∃ m', Inv m' (n + e.isRelease.toNat) t' ∧ m.Goes e m' := by
  cases op with
  | acquire | freeze =>
    cases ht
    exact ⟨m, h.setPc nofun, .rfl rfl rfl⟩
  | acquireFrozen =>
    simp only [State.call] at ht
    split at ht
    · next hf =>
      cases ht
      refine ⟨m, h.setPc fun v hv => ⟨Mode.eq_frozen_of_hold (h.hold ▸ hf.1), ?_⟩, .rfl rfl rfl⟩
      cases hv
      rfl
    · exact nomatch ht
  | tryUpgrade v =>
    simp only [State.call] at ht
    split at ht
    · next hv =>
      split at ht
      · next hw =>
        cases ht
        subst hw
        have hm := h.eq_free hv
        exact ⟨.locked i false, h.take hi hv rfl rfl, (fun hd => nomatch hm.symm.trans hd), nofun⟩
      · cases ht
        exact ⟨m, h, .rfl rfl rfl⟩
    · exact nomatch ht
  | tryFreeze v =>
    simp only [State.call] at ht
    split at ht
    · next hv =>
      split at ht
      · next hw =>
        cases ht
        subst hw
        have hm := h.eq_free hv
        exact ⟨.frozen i, h.take hi hv rfl rfl, (fun hd => nomatch hm.symm.trans hd), nofun⟩
      · cases ht
        exact ⟨m, h, .rfl rfl rfl⟩
    · exact nomatch ht
  | release =>
    simp only [State.call] at ht
    split at ht
    · next hl =>
      cases ht
      obtain ⟨ch, rfl⟩ := Mode.eq_locked_of_isLocked (h.hold ▸ hl.1)
      exact ⟨.free, h.release hn hi lockBit (Nat.add_right_comm 4 _ 4), nofun, nofun⟩
    · exact nomatch ht
  | releaseAsOrphan =>
    simp only [State.call] at ht
    split at ht
    · next hl =>
      cases ht
      obtain ⟨ch, rfl⟩ := Mode.eq_locked_of_isLocked (h.hold ▸ hl.1)
      have ho : t.orphan = false := h.word.isOrphan.symm.trans hl.2.2
      exact ⟨.free, h.release hn hi (lockBit + orphanBit) (by rw [ho]; rfl), nofun, nofun⟩
    · exact nomatch ht
  | releaseAndAdopt =>
    simp only [State.call] at ht
    split at ht
    · next hl =>
      cases ht
      obtain ⟨ch, rfl⟩ := Mode.eq_locked_of_isLocked (h.hold ▸ hl.1)
      have ho : t.orphan = true := h.word.isOrphan.symm.trans hl.2.2
      exact ⟨.free, h.release hn hi (lockBit - orphanBit) (by rw [ho]; rfl), nofun, nofun⟩
    · exact nomatch ht
  | thaw =>
    simp only [State.call] at ht
    split at ht
    · next hf =>
      cases ht
      obtain rfl := Mode.eq_frozen_of_hold (h.hold ▸ hf.1)
      exact ⟨.free, h.thaw hi, nofun, nofun⟩
    · exact nomatch ht
  | releaseUnchanged =>
    simp only [State.call] at ht
    split at ht
    · next hl =>
      cases ht
      obtain ⟨ch, rfl⟩ := Mode.eq_locked_of_isLocked (i := i) (by rw [← h.hold, hl.1]; rfl)
      exact ⟨.free, h.releaseUnchanged hi, nofun, nofun⟩
    · exact nomatch ht
  | die =>
    simp only [State.call] at ht
    split at ht
    · next hl =>
      cases ht
      obtain ⟨ch, rfl⟩ := Mode.eq_locked_of_isLocked (h.hold ▸ hl.1)
      exact ⟨.dead, h.die hi, nofun, fun _ => rfl⟩
    · exact nomatch ht
  | beginRead | confirmRead v =>
    cases ht
    exact ⟨m, h, .rfl rfl rfl⟩

/-- An operation goes on, and may take the lock. -/
theorem go {weak : Bool} {pc : Pc} (h : Inv m n t) (hpc : t.pc i = some pc)
    (ht : t.go i weak pc = (e, t')) :
    ∃ m', Inv m' (n + e.isRelease.toNat) t' ∧ m.Goes e m' := by
  have h₀ : Inv m n (t.setPc i none) := h.setPc nofun
  have hi : (t.setPc i none).pc i = none := put_self _ _ _
  cases pc with
  | acquire v =>
    simp only [State.go] at ht
    split at ht
    · next hv =>
      split at ht
      · next hw =>
        obtain ⟨rfl, -⟩ := hw
        cases ht
        have hm := h.eq_free hv
        exact ⟨.locked i false, h₀.take hi hv rfl rfl, (fun hd => nomatch hm.symm.trans hd), nofun⟩
      · cases ht
        exact ⟨m, h.setPc nofun, .rfl rfl rfl⟩
    · split at ht
      · cases ht
        exact ⟨m, h₀, .rfl rfl rfl⟩
      · cases ht
        exact ⟨m, h.setPc nofun, .rfl rfl rfl⟩
  | freeze v =>
    simp only [State.go] at ht
    split at ht
    · next hv =>
      split at ht
      · next hw =>
        obtain ⟨rfl, -⟩ := hw
        cases ht
        have hm := h.eq_free hv
        exact ⟨.frozen i, h₀.take hi hv rfl rfl, (fun hd => nomatch hm.symm.trans hd), nofun⟩
      · cases ht
        exact ⟨m, h.setPc nofun, .rfl rfl rfl⟩
    · split at ht
      · cases ht
        exact ⟨m, h₀, .rfl rfl rfl⟩
      · cases ht
        exact ⟨m, h.setPc nofun, .rfl rfl rfl⟩
  | acquireFrozen v =>
    obtain ⟨rfl, rfl⟩ := h.pc i v hpc
    cases ht
    exact ⟨.locked i false, h₀.takeFrozen hi, nofun, nofun⟩

theorem step {a : Action T} (h : Inv m n t) (hn : n + 1 < 2 ^ 61) (ht : t.step a = some (e, t')) :
    ∃ m', Inv m' (n + e.isRelease.toNat) t' ∧ m.Goes e m' := by
  cases a with
  | call i op =>
    simp only [State.step] at ht
    split at ht
    · next hi => exact h.call hn hi ht
    · exact nomatch ht
  | go i weak =>
    obtain ⟨pc, hpc, ht⟩ := Option.map_eq_some_iff.1 ht
    exact h.go hpc ht
  | change i =>
    simp only [State.step] at ht
    split at ht
    · next hl =>
      cases ht
      obtain ⟨ch, rfl⟩ := Mode.eq_locked_of_isLocked (h.hold ▸ hl.2)
      refine ⟨.locked i true, ⟨h.word, by simp [h.hold, Mode.hold], fun j v hj => ?_⟩,
        fun hd => ?_, fun hd => absurd hd Bool.false_ne_true⟩
      · cases (h.pc j v hj).1
      · cases hd
    · exact nomatch ht

end Inv

end Inv

/-! ## Runs -/

section Run

variable {T : Type*} [DecidableEq T] {t t' : State T} {i : T} {e : Event T} {v : Word}

/-- An access returns from the operation, or goes on. -/
theorem State.event_of_call {op : Op} (ht : t.call i op = some (e, t')) :
    e = .goesOn i ∨ ∃ r, e = .returns i op r := by
  cases op <;> simp only [State.call] at ht
  case acquire | freeze =>
    cases ht
    exact .inl rfl
  case acquireFrozen =>
    split at ht <;> cases ht
    exact .inl rfl
  case tryUpgrade | tryFreeze =>
    split at ht
    · split at ht <;> cases ht <;> exact .inr ⟨_, rfl⟩
    · exact nomatch ht
  case beginRead | confirmRead =>
    cases ht
    exact .inr ⟨_, rfl⟩
  all_goals
    split at ht <;> cases ht
    exact .inr ⟨_, rfl⟩

theorem State.event_of_go {weak : Bool} {pc : Pc} (ht : t.go i weak pc = (e, t')) :
    e.confirms v = false ∧ ∀ j r, e ≠ .returns j .beginRead r := by
  cases pc with
  | acquire | freeze =>
    simp only [State.go] at ht
    split at ht
    · split at ht <;> cases ht <;> exact ⟨rfl, nofun⟩
    · split at ht <;> cases ht <;> exact ⟨rfl, nofun⟩
  | acquireFrozen =>
    cases ht
    exact ⟨rfl, nofun⟩

theorem State.eq_of_beginRead {a : Action T}
    (ht : t.step a = some (.returns i .beginRead (.word v), t')) :
    v = t.word &&& ~~~stateMask ∧ t' = t := by
  cases a with
  | call j op =>
    simp only [State.step] at ht
    split at ht
    · obtain h | ⟨r, h⟩ := State.event_of_call ht
      · exact nomatch h
      · cases h
        cases ht
        exact ⟨rfl, rfl⟩
    · exact nomatch ht
  | go j weak =>
    obtain ⟨pc, -, ht⟩ := Option.map_eq_some_iff.1 ht
    exact absurd rfl ((State.event_of_go (v := v) ht).2 _ _)
  | change j =>
    simp only [State.step] at ht
    split at ht <;> cases ht

/-- A value is confirmed that the word has, but for the freeze bit, or upgraded that the word
    has. -/
theorem State.cases_of_confirms {a : Action T} (ht : t.step a = some (e, t'))
    (hc : e.confirms v) : v = t.word &&& ~~~freezeBit ∨ isUnlocked v ∧ v = t.word := by
  cases a with
  | call j op =>
    simp only [State.step] at ht
    split at ht
    · obtain rfl | ⟨r, rfl⟩ := State.event_of_call ht
      · exact nomatch hc
      · cases op with
        | tryUpgrade v' =>
          simp only [State.call] at ht
          split at ht
          · next hv =>
            split at ht
            · next hw =>
              cases ht
              obtain rfl : v' = v := of_decide_eq_true hc
              exact .inr ⟨hv, hw.symm⟩
            · cases ht
              exact nomatch hc
          · exact nomatch ht
        | confirmRead v' =>
          simp only [State.call] at ht
          by_cases hw : v' = t.word &&& ~~~freezeBit
          · rw [decide_eq_true hw] at ht
            cases ht
            obtain rfl : v' = v := of_decide_eq_true hc
            exact .inl hw
          · rw [decide_eq_false hw] at ht
            cases ht
            exact nomatch hc
        | _ => exact nomatch hc
    · exact nomatch ht
  | go j weak =>
    obtain ⟨pc, -, ht⟩ := Option.map_eq_some_iff.1 ht
    exact nomatch (State.event_of_go ht).1.symm.trans hc
  | change j =>
    simp only [State.step] at ht
    split at ht <;> cases ht
    exact absurd hc Bool.false_ne_true

/-- How many critical sections have ended with the data changed. -/
def releases (tr : List (Event T × State T)) : ℕ := tr.countP (·.1.isRelease)

variable {m : Mode T} {n : ℕ} {tr : List (Event T × State T)} {orphan : Bool}

omit [DecidableEq T] in
theorem releases_cons (p : Event T × State T) :
    releases (p :: tr) = releases tr + p.1.isRelease.toNat := by
  rw [releases, List.countP_cons]
  cases p.1.isRelease <;> rfl

theorem of_machine_step {p : Event T × State T} {G : State T → Action T → Prop}
    (h : (machine T orphan).Step G t p t') : ∃ a e, p = (e, t) ∧ t.step a = some (e, t') := by
  obtain ⟨a, -, ha⟩ := h
  obtain ⟨⟨e, t₁⟩, ht, he⟩ := Option.map_eq_some_iff.1 ha
  obtain ⟨rfl, rfl⟩ := Prod.mk.inj he
  exact ⟨a, e, rfl, ht⟩

/-- From a state with the invariant on, the word counts the releases; a lock that is dead
    stays so, and is not taken any more. -/
theorem inv_of_trace {G : State T → Action T → Prop} (h : Inv m n t)
    (htr : Trace ((machine T orphan).Step G) t tr t') (hn : n + releases tr < 2 ^ 60) :
    ∃ m', Inv m' (n + releases tr) t' ∧
      (m = .dead → m' = .dead ∧ ∀ p ∈ tr, p.1.takes = false) ∧
      ((∃ p ∈ tr, p.1.isDie) → m' = .dead) := by
  induction htr with
  | nil => exact ⟨m, h, fun hd => ⟨hd, List.forall_mem_nil _⟩, by simp⟩
  | cons _ hst ih =>
    next tr t₁ t₂ p =>
    rw [releases_cons] at hn ⊢
    obtain ⟨m₁, h₁, hdead, hdie⟩ := ih (by omega)
    obtain ⟨a, e, rfl, ht⟩ := of_machine_step hst
    obtain ⟨m₂, h₂, hgo⟩ := h₁.step (by omega) ht
    refine ⟨m₂, by rwa [← Nat.add_assoc], fun hd => ?_, ?_⟩
    · obtain ⟨rfl, htr⟩ := hdead hd
      obtain ⟨rfl, he⟩ := hgo.dead rfl
      exact ⟨rfl, List.forall_mem_cons.2 ⟨he, htr⟩⟩
    · rintro ⟨p, hp, hpd⟩
      obtain rfl | hp := List.mem_cons.1 hp
      · exact hgo.die hpd
      · exact (hgo.dead (hdie ⟨p, hp, hpd⟩)).1

theorem inv_init : Inv .free 0 (machine T orphan).init :=
  ⟨by cases orphan <;> rfl, rfl, nofun⟩

omit [DecidableEq T] in
theorem releases_append (l l' : List (Event T × State T)) :
    releases (l ++ l') = releases l + releases l' :=
  List.countP_append

/-- The invariant holds before every event of a run. -/
theorem inv_of_append {G : State T → Action T → Prop} {l l' : List (Event T × State T)}
    (h : (machine T orphan).Run G (l ++ (e, t) :: l') t') (hn : releases l' < 2 ^ 60) :
    ∃ m a t₁, Inv m (releases l') t ∧ t.step a = some (e, t₁) ∧
      ((∃ p ∈ l', p.1.isDie) → m = .dead) := by
  obtain ⟨t₁, h₁, -⟩ := h.of_append
  obtain ⟨t₀, h₀, hst⟩ := h₁.last
  obtain ⟨a, e', he, ht⟩ := of_machine_step hst
  obtain ⟨rfl, rfl⟩ := Prod.mk.inj he
  obtain ⟨m, hm, -, hd⟩ := inv_of_trace inv_init h₀ (by rwa [Nat.zero_add])
  rw [Nat.zero_add] at hm
  exact ⟨m, a, t₁, hm, ht, hd⟩

/-- A read that is confirmed or upgraded began in the counter there is, and the lock is not
    held. -/
theorem Inv.of_confirms {m₀ : Mode T} {n₀ : ℕ} {t₀ : State T} {a : Action T} (h : Inv m n t)
    (h₀ : Inv m₀ n₀ t₀) (ht : t.step a = some (e, t'))
    (hc : e.confirms (t₀.word &&& ~~~stateMask)) :
    n = n₀ ∧ t.orphan = t₀.orphan ∧ m ≠ .dead ∧ ∀ j, (t.hold j).isLocked = false := by
  have hbegin := h₀.word.beginRead
  have hphase : n = n₀ ∧ t.orphan = t₀.orphan ∧ (m.phase = .unlocked ∨ m.phase = .frozen) := by
    obtain hv | ⟨-, hv⟩ := State.cases_of_confirms ht hc
    · rw [hv] at hbegin
      exact h.word.confirmRead hbegin
    · rw [hv] at hbegin
      obtain ⟨hn, ho, hp⟩ := h.word.inj hbegin
      exact ⟨hn, ho, .inl hp⟩
  obtain ⟨hn, ho, hp⟩ := hphase
  refine ⟨hn, ho, ?_, fun j => ?_⟩
  · rintro rfl
    simp [Mode.phase] at hp
  · rw [h.hold, Bool.eq_false_iff]
    intro hl
    obtain ⟨ch, rfl⟩ := Mode.eq_locked_of_isLocked hl
    simp [Mode.phase] at hp

theorem isOrphan_beginRead (h : Inv m n t) : isOrphan (t.word &&& ~~~stateMask) = t.orphan :=
  h.word.beginRead.isOrphan

/-- Reads are only confirmed, or upgraded, if nothing was changed, and locks stay dead. -/
structure Sound (tr : List (Event T × State T)) : Prop where
  /-- If a read that began with `v` is confirmed, or upgraded, then no critical section in
      between has changed the data, none is open, and the orphan bit is that of the node. -/
  confirmed : ∀ post mid pre e t₂ i v t₁,
    tr = post ++ (e, t₂) :: (mid ++ (.returns i .beginRead (.word v), t₁) :: pre) →
    e.confirms v →
    (∀ p ∈ mid, p.1.isRelease = false) ∧ (∀ j, (t₂.hold j).isLocked = false) ∧
      isOrphan v = t₂.orphan
  /-- A lock that died is not taken again, and confirms no read. -/
  dead : ∀ post pre e t₁, tr = post ++ (e, t₁) :: pre → (∃ p ∈ pre, p.1.isDie) →
    isDead t₁.word ∧ e.takes = false ∧
      ∀ i v t₀, (.returns i .beginRead (.word v), t₀) ∈ pre → e.confirms v = false

theorem sound_of_run (h : (machine T orphan).Run (fun _ _ => True) tr t)
    (hn : releases tr < 2 ^ 60) : Sound tr := by
  have hcount : ∀ {l l' : List (Event T × State T)}, tr = l ++ l' → releases l' < 2 ^ 60 := by
    rintro l l' rfl
    rw [releases_append] at hn
    exact lt_of_le_of_lt (Nat.le_add_left _ _) hn
  constructor
  · rintro post mid pre e t₂ i v t₁ htr hc
    have hpre : tr = (post ++ (e, t₂) :: mid) ++ (.returns i .beginRead (.word v), t₁) :: pre := by
      rw [htr, List.append_assoc, List.cons_append]
    have hmid : tr = (post ++ [(e, t₂)]) ++
        (mid ++ (.returns i .beginRead (.word v), t₁) :: pre) := by
      rw [htr, List.append_assoc, List.singleton_append]
    obtain ⟨m₂, a₂, t₃, h₂, hst₂, -⟩ := inv_of_append (htr ▸ h) (hcount hmid)
    obtain ⟨m₁, a₁, t₁', h₁, hst₁, -⟩ := inv_of_append (hpre ▸ h)
      (hcount (hpre.trans (List.append_cons _ _ _)))
    obtain ⟨rfl, -⟩ := State.eq_of_beginRead hst₁
    obtain ⟨hcounter, ho, -, hopen⟩ := h₂.of_confirms h₁ hst₂ hc
    refine ⟨fun p hp => ?_, hopen, (isOrphan_beginRead h₁).trans ho.symm⟩
    have hzero : releases mid = 0 := by
      rw [releases_append, releases_cons] at hcounter
      omega
    exact Bool.eq_false_iff.2 (List.countP_eq_zero.1 hzero p hp)
  · rintro post pre e t₁ htr hdie
    have hpre : tr = (post ++ [(e, t₁)]) ++ pre := by rw [htr, List.append_cons]
    obtain ⟨m, a, t₂, hm, hst, hd⟩ := inv_of_append (htr ▸ h) (hcount hpre)
    obtain rfl := hd hdie
    obtain ⟨m', -, hgo⟩ := hm.step (by have := hcount hpre; omega) hst
    refine ⟨hm.word.isDead.2 rfl, (hgo.dead rfl).2, fun i v t₀ hmem => ?_⟩
    refine Bool.eq_false_iff.2 fun hc => ?_
    obtain ⟨l, l', rfl⟩ := List.append_of_mem hmem
    have hbegin : tr = (post ++ (e, t₁) :: l) ++ (.returns i .beginRead (.word v), t₀) :: l' := by
      rw [htr, List.append_assoc, List.cons_append]
    obtain ⟨m₀, a₀, t₀', h₀, hst₀, -⟩ := inv_of_append (hbegin ▸ h)
      (hcount (hbegin.trans (List.append_cons _ _ _)))
    obtain ⟨rfl, -⟩ := State.eq_of_beginRead hst₀
    exact (hm.of_confirms h₀ hst hc).2.2.1 rfl

end Run

/-- A read is confirmed over a critical section without changes; the next one changes the data,
    and after the last one the lock is dead. -/
theorem sound_of_run_dead : ∃ tr t, (machine Bool true).Run (fun _ _ => True) tr t ∧
    (∃ p ∈ tr, p.1.confirms 1) ∧ (∃ p ∈ tr, p.1.isRelease) ∧ (∃ p ∈ tr, p.1.isDie) ∧ Sound tr := by
  obtain ⟨tr, t, h, ht⟩ := Machine.exists_run_of_play
    (G := fun _ _ => True) (m := machine Bool true)
    (fun r => decide ((∃ p ∈ r.1, p.1.confirms 1) ∧ (∃ p ∈ r.1, p.1.isRelease) ∧
      (∃ p ∈ r.1, p.1.isDie) ∧ releases r.1 < 2 ^ 60))
    [.call false .beginRead, .call true .acquire, .go true false, .call true .releaseUnchanged,
      .call false (.confirmRead 1), .call true .acquire, .go true false, .change true,
      .call true .releaseAndAdopt, .call true .acquire, .go true false, .call true .die,
      .call false .beginRead, .call false .acquire, .go false false]
    (b := true) (by decide +kernel)
  obtain ⟨hc, hr, hd, hn⟩ := of_decide_eq_true ht
  exact ⟨tr, t, h, hc, hr, hd, sound_of_run h hn⟩

end DiscoSkip.SvLock
