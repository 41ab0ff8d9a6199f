import Mathlib.Data.List.Basic
import Mathlib.Algebra.Order.Group.Nat

/-!
# Memory of bytes

A memory has a byte at every address. A pointer is a word of eight bytes, the lowest one
first (`load`, `store`); a null pointer is `0`.

A list may be *linked* through a memory: a pointer to its first address, at each address a
pointer to the next one, and a null pointer at the last (`Linked`). What is written
elsewhere does not change it (`Linked.congr`).
-/

namespace DiscoSkip.Lib

abbrev Memory := ℕ → Fin 256

namespace Memory

def loadBytes (m : Memory) : ℕ → ℕ → ℕ
  | _, 0 => 0
  | a, n + 1 => m a + 256 * loadBytes m (a + 1) n

/-- The pointer at an address. -/
def load (m : Memory) (a : ℕ) : ℕ := loadBytes m a 8

/-- Writing a pointer. -/
def store (m : Memory) (a p : ℕ) : Memory :=
  fun x => if a ≤ x ∧ x < a + 8 then Fin.ofNat 256 (p / 256 ^ (x - a)) else m x

/-- Writing `n` bytes. -/
def fill (m : Memory) (a n : ℕ) (content : Memory) : Memory :=
  fun x => if a ≤ x ∧ x < a + n then content x else m x

variable {m m' : Memory} {a b n p : ℕ}

theorem loadBytes_congr (h : ∀ x, a ≤ x → x < a + n → m' x = m x) :
    loadBytes m' a n = loadBytes m a n := by
  induction n generalizing a with
  | zero => rfl
  | succ n ih =>
    rw [loadBytes, loadBytes, h a le_rfl (by omega),
      ih fun x hx hxn => h x (by omega) (by omega)]

theorem load_congr (h : ∀ x, a ≤ x → x < a + 8 → m' x = m x) : m'.load a = m.load a :=
  loadBytes_congr h

theorem loadBytes_eq (h : ∀ i < n, (m (a + i) : ℕ) = p / 256 ^ i % 256) :
    loadBytes m a n = p % 256 ^ n := by
  induction n generalizing a p with
  | zero => rw [loadBytes, pow_zero, Nat.mod_one]
  | succ n ih =>
    have h0 : (m a : ℕ) = p % 256 := by simpa using h 0 n.succ_pos
    have hs : loadBytes m (a + 1) n = p / 256 % 256 ^ n := by
      refine ih fun i hi => ?_
      rw [Nat.add_assoc, Nat.add_comm 1, h (i + 1) (by omega), pow_succ', Nat.div_div_eq_div_mul]
    rw [loadBytes, h0, hs, pow_succ', Nat.mod_mul]

theorem load_store (hp : p < 2 ^ 64) : (m.store a p).load a = p := by
  rw [load, loadBytes_eq (p := p), Nat.mod_eq_of_lt (by omega)]
  intro i hi
  rw [store, if_pos (by omega), Nat.add_sub_cancel_left]
  rfl

theorem store_of_lt {x : ℕ} (h : x < a ∨ a + 8 ≤ x) : m.store a p x = m x :=
  if_neg (by omega)

theorem fill_of_lt {x : ℕ} {content : Memory} (h : x < a ∨ a + n ≤ x) :
    m.fill a n content x = m x :=
  if_neg (by omega)

theorem load_store_of_disjoint (h : b + 8 ≤ a ∨ a + 8 ≤ b) : (m.store a p).load b = m.load b :=
  load_congr fun _ _ _ => store_of_lt (by omega)

theorem load_fill_of_disjoint {content : Memory} (h : b + 8 ≤ a ∨ a + n ≤ b) :
    (m.fill a n content).load b = m.load b :=
  load_congr fun _ _ _ => fill_of_lt (by omega)

end Memory

/-- From the pointer `p` on, the addresses are linked through the memory. -/
def Linked (m : Memory) : ℕ → List ℕ → Prop
  | p, [] => p = 0
  | p, a :: l => p = a ∧ a ≠ 0 ∧ Linked m (m.load a) l

namespace Linked

variable {m m' : Memory} {p a : ℕ} {l : List ℕ}

/-- Linked addresses only depend on what is there. -/
theorem congr (h : Linked m p l) (hm : ∀ a ∈ l, m'.load a = m.load a) : Linked m' p l := by
  induction l generalizing p with
  | nil => exact h
  | cons a l ih =>
    obtain ⟨rfl, hne, h⟩ := h
    refine ⟨rfl, hne, ?_⟩
    rw [hm p List.mem_cons_self]
    exact ih h fun b hb => hm b (List.mem_cons_of_mem _ hb)

theorem eq_zero_iff (h : Linked m p l) : p = 0 ↔ l = [] := by
  cases l with
  | nil => exact iff_of_true h rfl
  | cons a l =>
    obtain ⟨rfl, hne, -⟩ := h
    exact iff_of_false hne (List.cons_ne_nil _ _)

/-- The first address is taken away by loading the pointer there. -/
theorem exists_cons (h : Linked m p l) (hp : p ≠ 0) :
    ∃ l', l = p :: l' ∧ Linked m (m.load p) l' := by
  cases l with
  | nil => exact absurd h hp
  | cons a l =>
    obtain ⟨rfl, -, h⟩ := h
    exact ⟨l, rfl, h⟩

/-- An address is put in front by storing the pointer there. -/
theorem cons (h : Linked m p l) (ha : a ≠ 0) (hp : p < 2 ^ 64)
    (hl : ∀ b ∈ l, b + 8 ≤ a ∨ a + 8 ≤ b) : Linked (m.store a p) a (a :: l) := by
  refine ⟨rfl, ha, ?_⟩
  rw [Memory.load_store hp]
  exact h.congr fun b hb => Memory.load_store_of_disjoint (hl b hb)

/-- Addresses each of which points to the next one are linked. -/
theorem of_chain {c : ℕ → ℕ} {n : ℕ} (hne : ∀ i ≤ n, c i ≠ 0)
    (hc : ∀ i < n, m.load (c i) = c (i + 1)) (hn : m.load (c n) = 0) :
    Linked m (c 0) ((List.range (n + 1)).map c) := by
  induction n generalizing c with
  | zero => exact ⟨rfl, hne 0 le_rfl, hn⟩
  | succ n ih =>
    rw [List.range_succ_eq_map, List.map_cons, List.map_map]
    refine ⟨rfl, hne 0 (Nat.zero_le _), ?_⟩
    rw [hc 0 n.succ_pos]
    exact ih (c := c ∘ Nat.succ) (fun i hi => hne _ (Nat.succ_le_succ hi))
      (fun i hi => hc _ (Nat.succ_lt_succ hi)) hn

end Linked

end DiscoSkip.Lib
