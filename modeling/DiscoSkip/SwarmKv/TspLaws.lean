import Mathlib.Data.Prod.Lex
import Mathlib.Order.BooleanAlgebra.Basic
import DiscoSkip.SwarmKv.Tsp

/-!
# The fields of a tsp

What the protocol compares are tsps as words. It means their fields: a word is the tsp
of its fields (`makeTsp_extract`) and the fields of a tsp are those it is made of
(`extract_makeTsp`), so that

* the order of the words is the lexicographic order of their fields (`lt_iff_tspFields`);
* the verified bit is the least of them: marking a tsp verified leaves the others as they
  are, and no word in between, and a tsp is at most another one marked verified if its other
  fields are at most those of the other (`le_validateTsp_iff`);
* two tsps that the filter takes to the same word point to the same log entry
  (`filter_eq_iff`).

These are the laws of `TspLaws`.
-/

namespace DiscoSkip.SwarmKv

/-- The fields of a word, the first ones first in the order. -/
def tspFields (v : ℕ) : ℕ ×ₗ ℕ ×ₗ ℕ ×ₗ Bool :=
  toLex (extractTs v, toLex (extractLogId v, toLex (extractClientProcId v, isVerified v)))

/-! ## Fields by division -/

section Fields

variable {v w : ℕ}

theorem extractTs_eq (v : ℕ) : extractTs v = v / 2 ^ 32 % 2 ^ 32 := by
  rw [extractTs, Nat.shiftRight_eq_div_pow]
  exact Nat.and_two_pow_sub_one_eq_mod _ 32

theorem extractLogId_eq (v : ℕ) : extractLogId v = v / 2 ^ 8 % 2 ^ 24 := by
  rw [extractLogId, Nat.shiftRight_eq_div_pow]
  exact Nat.and_two_pow_sub_one_eq_mod _ 24

theorem extractClientProcId_eq (v : ℕ) : extractClientProcId v = v / 2 ^ 1 % 2 ^ 7 := by
  rw [extractClientProcId, Nat.shiftRight_eq_div_pow]
  exact Nat.and_two_pow_sub_one_eq_mod _ 7

theorem toNat_isVerified (v : ℕ) : (isVerified v).toNat = v % 2 := by
  rw [isVerified, Nat.and_one_is_mod]
  obtain h | h := Nat.mod_two_eq_zero_or_one v <;> rw [h] <;> rfl

/-- A word from its fields. -/
theorem eq_fields (h : v < 2 ^ 64) :
    v = extractTs v * 2 ^ 32 + (extractLogId v * 2 ^ 8 +
      (extractClientProcId v * 2 ^ 1 + (isVerified v).toNat)) := by
  rw [extractTs_eq, extractLogId_eq, extractClientProcId_eq, toNat_isVerified]
  omega

theorem or_eq_add {a b i : ℕ} (h : b < 2 ^ i) : a <<< i ||| b = a * 2 ^ i + b := by
  rw [← Nat.shiftLeft_add_eq_or_of_lt h, Nat.shiftLeft_eq]

/-- The word of fields that fit. -/
theorem makeTsp_eq {ts l p : ℕ} (hts : ts < 2 ^ 32) (hl : l < 2 ^ 24) (hp : p < 2 ^ 7) (b : Bool) :
    makeTsp ts l p b = some (ts * 2 ^ 32 + (l * 2 ^ 8 + (p * 2 ^ 1 + b.toNat))) := by
  have hb := b.toNat_lt
  have hfit : ¬(ts > tsMask ∨ l > logIdMask ∨ p > clientProcIdMask) := by
    rintro (h | h | h)
    · exact absurd hts (Nat.not_lt.2 h)
    · exact absurd hl (Nat.not_lt.2 h)
    · exact absurd hp (Nat.not_lt.2 h)
  have hmask : ∀ {n i : ℕ}, n < 2 ^ i → n &&& (2 ^ i - 1) = n := fun {n i} h =>
    (Nat.and_two_pow_sub_one_eq_mod n i).trans (Nat.mod_eq_of_lt h)
  have e : makeTsp ts l p b = some (ts <<< 32 ||| (l <<< 8 ||| (p <<< 1 ||| b.toNat))) := by
    rw [makeTsp, if_neg hfit, tsMask, logIdMask, clientProcIdMask, tsSize, logIdSize, clientIdSize,
      hmask hts, hmask hl, hmask hp, ← Nat.or_assoc, ← Nat.or_assoc]
    rfl
  rw [e, or_eq_add (a := p) (by omega), or_eq_add (a := l) (by omega),
    or_eq_add (a := ts) (by omega)]

theorem toNat_inj {b b' : Bool} (h : b.toNat = b'.toNat) : b = b' := by
  cases b <;> cases b' <;> simp_all

/-- The fields of the tsp of fields are these. -/
theorem extract_makeTsp {ts l p : ℕ} (hts : ts < 2 ^ 32) (hl : l < 2 ^ 24) (hp : p < 2 ^ 7)
    (b : Bool) : ∃ v, makeTsp ts l p b = some v ∧ v < 2 ^ 64 ∧ extractTs v = ts ∧
      extractLogId v = l ∧ extractClientProcId v = p ∧ isVerified v = b := by
  have hb := b.toNat_lt
  refine ⟨_, makeTsp_eq hts hl hp b, by omega, ?_, ?_, ?_, ?_⟩
  · rw [extractTs_eq]
    omega
  · rw [extractLogId_eq]
    omega
  · rw [extractClientProcId_eq]
    omega
  · refine toNat_inj ?_
    rw [toNat_isVerified]
    omega

/-- A word is the tsp of its fields. -/
theorem makeTsp_extract (h : v < 2 ^ 64) :
    makeTsp (extractTs v) (extractLogId v) (extractClientProcId v) (isVerified v) = some v := by
  rw [makeTsp_eq, ← eq_fields h]
  · rw [extractTs_eq]
    exact Nat.mod_lt _ (by decide)
  · rw [extractLogId_eq]
    exact Nat.mod_lt _ (by decide)
  · rw [extractClientProcId_eq]
    exact Nat.mod_lt _ (by decide)

theorem makeTsp_eq_none_iff {ts l p : ℕ} {b : Bool} :
    makeTsp ts l p b = none ↔ 2 ^ 32 ≤ ts ∨ 2 ^ 24 ≤ l ∨ 2 ^ 7 ≤ p := by
  rw [makeTsp]
  split
  · next h => exact iff_of_true rfl h
  · next h => exact iff_of_false (by simp) h

/-! ## The order of the words -/

/-- Digits after a leading one matter if it is the same. -/
theorem mul_add_lt_iff {n a b x y : ℕ} (hx : x < n) (hy : y < n) :
    a * n + x < b * n + y ↔ a < b ∨ a = b ∧ x < y := by
  have hlt : ∀ {a b x y : ℕ}, x < n → a < b → a * n + x < b * n + y := fun {a b x y} hx hab =>
    calc a * n + x < a * n + n := Nat.add_lt_add_left hx _
      _ = (a + 1) * n := (Nat.succ_mul a n).symm
      _ ≤ b * n := Nat.mul_le_mul_right n hab
      _ ≤ b * n + y := Nat.le_add_right _ _
  obtain hab | rfl | hab := lt_trichotomy a b
  · exact iff_of_true (hlt hx hab) (.inl hab)
  · simp
  · have := hlt (y := x) hy hab
    exact iff_of_false (by omega) (by omega)

/-- The order of words is that of their fields. -/
theorem lt_iff_tspFields (hv : v < 2 ^ 64) (hw : w < 2 ^ 64) :
    v < w ↔ tspFields v < tspFields w := by
  have hfit : ∀ u, extractLogId u < 2 ^ 24 ∧ extractClientProcId u < 2 ^ 7 ∧
      (isVerified u).toNat < 2 ^ 1 := fun u => by
    rw [extractLogId_eq, extractClientProcId_eq]
    exact ⟨Nat.mod_lt _ (by decide), Nat.mod_lt _ (by decide), (isVerified u).toNat_lt⟩
  obtain ⟨hvl, hvp, hvb⟩ := hfit v
  obtain ⟨hwl, hwp, hwb⟩ := hfit w
  have hbool : (isVerified v).toNat < (isVerified w).toNat ↔ isVerified v < isVerified w := by
    cases isVerified v <;> cases isVerified w <;> decide
  rw [tspFields, tspFields, Prod.Lex.toLex_lt_toLex, Prod.Lex.toLex_lt_toLex,
    Prod.Lex.toLex_lt_toLex, ← hbool, ← mul_add_lt_iff hvb hwb,
    ← mul_add_lt_iff (n := 2 ^ 8) (by omega) (by omega),
    ← mul_add_lt_iff (n := 2 ^ 32) (by omega) (by omega), ← eq_fields hv, ← eq_fields hw]

/-! ## The verified bit -/

theorem extractTs_validateTsp (v : ℕ) : extractTs (validateTsp v) = extractTs v := by
  rw [extractTs_eq, extractTs_eq, validateTsp_eq]
  omega

theorem extractLogId_validateTsp (v : ℕ) : extractLogId (validateTsp v) = extractLogId v := by
  rw [extractLogId_eq, extractLogId_eq, validateTsp_eq]
  omega

theorem extractClientProcId_validateTsp (v : ℕ) :
    extractClientProcId (validateTsp v) = extractClientProcId v := by
  rw [extractClientProcId_eq, extractClientProcId_eq, validateTsp_eq]
  omega

theorem isVerified_validateTsp (v : ℕ) : isVerified (validateTsp v) = true := by
  refine toNat_inj ?_
  rw [toNat_isVerified, validateTsp_eq, Bool.toNat_true]
  omega

/-- A tsp is at most another one marked verified if its fields are, but for the bit. -/
theorem le_validateTsp_iff (hv : v < 2 ^ 64) (hw : w < 2 ^ 64) :
    v ≤ validateTsp w ↔ tspFields (validateTsp v) ≤ tspFields (validateTsp w) := by
  have hlt : ∀ {u}, u < 2 ^ 64 → validateTsp u < 2 ^ 64 := fun {u} hu => by
    rw [validateTsp_eq]
    omega
  calc v ≤ validateTsp w ↔ validateTsp v ≤ validateTsp w :=
        ⟨validateTsp_le, (le_validateTsp v).trans⟩
    _ ↔ ¬tspFields (validateTsp w) < tspFields (validateTsp v) := by
        rw [← lt_iff_tspFields (hlt hw) (hlt hv), not_lt]
    _ ↔ tspFields (validateTsp v) ≤ tspFields (validateTsp w) := not_lt

/-! ## The filter -/

theorem and_shiftLeft (v n i : ℕ) : v &&& n <<< i = (v >>> i &&& n) <<< i := by
  refine Nat.eq_of_testBit_eq fun j => ?_
  rw [Nat.testBit_and, Nat.testBit_shiftLeft, Nat.testBit_shiftLeft, Nat.testBit_and,
    Nat.testBit_shiftRight]
  by_cases h : i ≤ j
  · simp [h]
  · simp [h]

theorem filter_eq (v : ℕ) : filterLogIdAndClientProcId v =
    extractLogId v * 2 ^ 8 + extractClientProcId v * 2 ^ 1 := by
  have hfit : extractClientProcId v <<< 1 < 2 ^ 8 := by
    rw [extractClientProcId_eq, Nat.shiftLeft_eq]
    omega
  have h : filterLogIdAndClientProcId v = extractLogId v <<< 8 ||| extractClientProcId v <<< 1 := by
    rw [filterLogIdAndClientProcId, Nat.and_or_distrib_left, and_shiftLeft, and_shiftLeft]
    rfl
  rw [h, or_eq_add hfit, Nat.shiftLeft_eq]

theorem filter_eq_iff : filterLogIdAndClientProcId v = filterLogIdAndClientProcId w ↔
    extractLogId v = extractLogId w ∧ extractClientProcId v = extractClientProcId w := by
  have hfit : ∀ u, extractClientProcId u < 2 ^ 7 := fun u => by
    rw [extractClientProcId_eq]
    exact Nat.mod_lt _ (by decide)
  have := hfit v
  have := hfit w
  rw [filter_eq, filter_eq]
  omega

end Fields

/-! ## The laws -/

/-- What the packing of a tsp is for. -/
structure TspLaws : Prop where
  /-- Fields that fit can be packed, and are the fields of the word. -/
  pack : ∀ {ts logId clientProcId : ℕ} (validated : Bool),
    ts < 2 ^ 32 → logId < 2 ^ 24 → clientProcId < 2 ^ 7 →
    ∃ v, makeTsp ts logId clientProcId validated = some v ∧ v < 2 ^ 64 ∧ extractTs v = ts ∧
      extractLogId v = logId ∧ extractClientProcId v = clientProcId ∧ isVerified v = validated
  unpack : ∀ {v : ℕ}, v < 2 ^ 64 →
    makeTsp (extractTs v) (extractLogId v) (extractClientProcId v) (isVerified v) = some v
  throws : ∀ {ts logId clientProcId : ℕ} {validated : Bool},
    makeTsp ts logId clientProcId validated = none ↔
      2 ^ 32 ≤ ts ∨ 2 ^ 24 ≤ logId ∨ 2 ^ 7 ≤ clientProcId
  order : ∀ {v w : ℕ}, v < 2 ^ 64 → w < 2 ^ 64 → (v < w ↔ tspFields v < tspFields w)
  /-- Marking a tsp verified changes no other field. -/
  validate : ∀ v : ℕ, tspFields (validateTsp v) =
    toLex (extractTs v, toLex (extractLogId v, toLex (extractClientProcId v, true)))
  between : ∀ v w : ℕ, v < w → ¬w < validateTsp v
  /-- A guard that ignores the bit compares the other fields. -/
  guard : ∀ {v w : ℕ}, v < 2 ^ 64 → w < 2 ^ 64 →
    (v ≤ validateTsp w ↔ tspFields (validateTsp v) ≤ tspFields (validateTsp w))
  filter : ∀ v w : ℕ, filterLogIdAndClientProcId v = filterLogIdAndClientProcId w ↔
    extractLogId v = extractLogId w ∧ extractClientProcId v = extractClientProcId w

theorem tspLaws : TspLaws where
  pack b hts hl hp := extract_makeTsp hts hl hp b
  unpack := makeTsp_extract
  throws := makeTsp_eq_none_iff
  order := lt_iff_tspFields
  validate v := by
    rw [tspFields, extractTs_validateTsp, extractLogId_validateTsp, extractClientProcId_validateTsp,
      isVerified_validateTsp]
  between v w h h' := by
    rw [validateTsp_eq] at h'
    omega
  guard := le_validateTsp_iff
  filter _ _ := filter_eq_iff

end DiscoSkip.SwarmKv
