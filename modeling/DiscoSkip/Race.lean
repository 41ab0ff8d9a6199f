import Mathlib.Algebra.Group.Nat.Defs

/-!
# Bucket entries

The entries of the RACE hash index, which both `fusee` and `swarm-kv` keep their
key/value ids in: a flag, an 8-bit checksum of the key and a 48-bit value, packed
into the 64 bits that a compare-and-swap works on.
-/

namespace DiscoSkip.Race

/-- A bucket entry; as the padding is `0`, it is its 64 bits. -/
structure BucketEntry where
  used : Bool
  checksum : BitVec 8
  value : BitVec 48
  deriving DecidableEq, Inhabited

namespace BucketEntry

/-- The entry of a value, of which the low 48 bits are kept. -/
def of (checksum : BitVec 8) (value : ℕ) : BucketEntry := ⟨true, checksum, .ofNat 48 value⟩

def getValue (e : BucketEntry) : ℕ := e.value.toNat

theorem getValue_of (checksum : BitVec 8) {v : ℕ} (hv : v < 2 ^ 48) :
    (of checksum v).getValue = v := by
  rw [getValue, of, BitVec.toNat_ofNat, Nat.mod_eq_of_lt hv]

theorem of_inj {checksum : BitVec 8} {v w : ℕ} (hv : v < 2 ^ 48) (hw : w < 2 ^ 48)
    (h : of checksum v = of checksum w) : v = w := by
  rw [← getValue_of checksum hv, h, getValue_of checksum hw]

end BucketEntry

end DiscoSkip.Race
