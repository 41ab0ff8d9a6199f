import Mathlib.Data.Prod.Lex
import Mathlib.Order.Lattice.Nat
import Mathlib.Data.UInt

/-!
# Registers

A register is what a replica cell holds: a 32-bit value, and the *tag* of the
write it comes from, a 16-bit sequence number and a 16-bit client id, packed
into one 64-bit word. The word is what a CAS compares; readers compare only the
tags (`Register.lt`), lexicographically, the sequence number first.

The sequence number wraps around: `Register.seq_lt_succ` is where the bound on
the sequence numbers is needed.
-/

namespace DiscoSkip

/-- A packed register, by its fields. -/
structure Register where
  value : UInt32 := 0
  clientId : UInt16 := 0
  seq : UInt16 := 0
  deriving DecidableEq, Repr, Inhabited

namespace Register

/-- The all-zero register, which the replica cells start with. -/
def zero : Register := {}

/-- The 64-bit word of a register: the value in the low half, then the client
    id, and the sequence number in the top 16 bits. -/
def raw (r : Register) : ℕ :=
  r.value.toNat + 2 ^ 32 * r.clientId.toNat + 2 ^ 48 * r.seq.toNat

/-- A register built from its fields, in the order of the source's constructor. -/
def ofFields (s id : UInt16) (v : UInt32) : Register := ⟨v, id, s⟩

@[simp] theorem ofFields_seq (s id : UInt16) (v : UInt32) : (ofFields s id v).seq = s := rfl
@[simp] theorem ofFields_clientId (s id : UInt16) (v : UInt32) :
    (ofFields s id v).clientId = id := rfl
@[simp] theorem ofFields_value (s id : UInt16) (v : UInt32) : (ofFields s id v).value = v := rfl

/-- The order of the registers: by the sequence number, then by the client id. -/
def lt (a b : Register) : Prop :=
  if a.seq ≠ b.seq then a.seq < b.seq else a.clientId < b.clientId

instance : LT Register := ⟨lt⟩

instance (a b : Register) : Decidable (a < b) :=
  inferInstanceAs (Decidable (if a.seq ≠ b.seq then a.seq < b.seq else a.clientId < b.clientId))

/-- Comparing the words, as a CAS does, is comparing the registers. -/
theorem raw_injective : Function.Injective raw := by
  intro a b h
  have ha := a.value.toNat_lt
  have hb := b.value.toNat_lt
  have ha' := a.clientId.toNat_lt
  have hb' := b.clientId.toNat_lt
  simp only [raw] at h
  have hv : a.value.toNat = b.value.toNat := by omega
  have hc : a.clientId.toNat = b.clientId.toNat := by omega
  have hs : a.seq.toNat = b.seq.toNat := by omega
  obtain ⟨av, ac, as⟩ := a
  obtain ⟨bv, bc, bs⟩ := b
  exact congr (congrArg₂ Register.mk (UInt32.toNat_inj.1 hv) (UInt16.toNat_inj.1 hc))
    (UInt16.toNat_inj.1 hs)

/-! ## Tags -/

/-- The tag of a register, ordered lexicographically. -/
def tag (r : Register) : ℕ ×ₗ ℕ := toLex (r.seq.toNat, r.clientId.toNat)

theorem tag_lt_iff {a b : Register} :
    a.tag < b.tag ↔ a.seq < b.seq ∨ a.seq = b.seq ∧ a.clientId < b.clientId := by
  rw [UInt16.lt_iff_toNat_lt, UInt16.lt_iff_toNat_lt, ← UInt16.toNat_inj]
  exact Prod.Lex.toLex_lt_toLex

theorem tag_le_iff {a b : Register} :
    a.tag ≤ b.tag ↔ a.seq < b.seq ∨ a.seq = b.seq ∧ a.clientId ≤ b.clientId := by
  rw [UInt16.lt_iff_toNat_lt, UInt16.le_iff_toNat_le, ← UInt16.toNat_inj]
  exact Prod.Lex.toLex_le_toLex

theorem tag_eq_iff {a b : Register} : a.tag = b.tag ↔ a.seq = b.seq ∧ a.clientId = b.clientId := by
  rw [tag, tag, toLex_inj, Prod.mk.injEq, UInt16.toNat_inj, UInt16.toNat_inj]

/-- The order of the registers is that of their tags. -/
theorem lt_iff {a b : Register} : a < b ↔ a.tag < b.tag := by
  rw [tag_lt_iff]
  change lt a b ↔ _
  rw [lt]
  split
  · next h => exact ⟨.inl, fun h' => h'.resolve_right fun e => h e.1⟩
  · next h =>
    rw [not_not] at h
    exact ⟨fun h' => .inr ⟨h, h'⟩, fun h' => h'.elim (fun hlt => absurd hlt (by grind)) (·.2)⟩

theorem not_lt_iff {a b : Register} : ¬a < b ↔ b.tag ≤ a.tag := by
  rw [lt_iff, not_lt]

theorem tag_lt_of_seq {a b : Register} (h : a.seq < b.seq) : a.tag < b.tag :=
  tag_lt_iff.2 (.inl h)

theorem seq_le_of_tag {a b : Register} (h : a.tag ≤ b.tag) : a.seq ≤ b.seq :=
  (tag_le_iff.1 h).elim (by grind) (by grind)

/-- The all-zero register has the least tag. -/
theorem zero_tag_le (r : Register) : zero.tag ≤ r.tag := by
  rw [tag_le_iff]
  have : zero.seq = 0 := rfl
  have : zero.clientId = 0 := rfl
  grind

/-- Below the last sequence number, bumping it is going up. -/
theorem seq_lt_succ {a b : UInt16} (ha : a < 65535) (hb : b ≤ a) : b < a + 1 := by grind

end Register

end DiscoSkip
