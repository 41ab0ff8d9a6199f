import Mathlib.Data.Nat.Bitwise

/-!
# The timestamps of swarm-kv

A *tsp* is a timestamp and a pointer in one word of 64 bits: from the top, 32 bits of
a clock, the 24 bits of the id of a log entry, the 7 bits of the process id of the
client whose entry it is, and a bit that tells if it is verified.
-/

namespace DiscoSkip.SwarmKv

def tsSize : ℕ := 32
def logIdSize : ℕ := 24
def clientIdSize : ℕ := 7

def tsMask : ℕ := 2 ^ tsSize - 1
def logIdMask : ℕ := 2 ^ logIdSize - 1
def clientProcIdMask : ℕ := 2 ^ clientIdSize - 1

def tsOffset : ℕ := 64 - tsSize
def logIdOffset : ℕ := tsOffset - logIdSize
def clientProcIdOffset : ℕ := logIdOffset - clientIdSize

/-- The tsp of its fields, each of which must fit. -/
def makeTsp (ts logId clientProcId : ℕ) (validated : Bool) : Option ℕ :=
  if ts > tsMask ∨ logId > logIdMask ∨ clientProcId > clientProcIdMask then none
  else some ((ts &&& tsMask) <<< tsOffset ||| (logId &&& logIdMask) <<< logIdOffset |||
    (clientProcId &&& clientProcIdMask) <<< clientProcIdOffset ||| validated.toNat)

def extractTs (v : ℕ) : ℕ := v >>> tsOffset &&& tsMask

def extractLogId (v : ℕ) : ℕ := v >>> logIdOffset &&& logIdMask

def extractClientProcId (v : ℕ) : ℕ := v >>> clientProcIdOffset &&& clientProcIdMask

/-- Only the id of the log entry and of its client. -/
def filterLogIdAndClientProcId (v : ℕ) : ℕ :=
  v &&& (logIdMask <<< logIdOffset ||| clientProcIdMask <<< clientProcIdOffset)

def isVerified (v : ℕ) : Bool := v &&& 1 ≠ 0

def validateTsp (tsp : ℕ) : ℕ := tsp ||| 1

theorem validateTsp_eq (v : ℕ) : validateTsp v = v / 2 * 2 + 1 := by
  have hd : validateTsp v / 2 = v / 2 := by simp [validateTsp, Nat.or_div_two]
  have hm : validateTsp v % 2 = 1 := by
    rw [validateTsp, Nat.or_mod_two_eq_one]
    exact .inr rfl
  rw [← hd, ← hm, Nat.mul_comm, Nat.div_add_mod]

theorem le_validateTsp (v : ℕ) : v ≤ validateTsp v := by
  rw [validateTsp_eq]
  omega

theorem validateTsp_mono {v w : ℕ} (h : v ≤ w) : validateTsp v ≤ validateTsp w := by
  rw [validateTsp_eq, validateTsp_eq]
  omega

@[simp] theorem validateTsp_validateTsp (v : ℕ) : validateTsp (validateTsp v) = validateTsp v := by
  rw [validateTsp_eq, validateTsp_eq]
  omega

/-- What is below a tsp but for the verified bit may be marked verified. -/
theorem validateTsp_le {v w : ℕ} (h : v ≤ validateTsp w) : validateTsp v ≤ validateTsp w := by
  simpa using validateTsp_mono h

end DiscoSkip.SwarmKv
