import Mathlib.Algebra.Group.Nat.Defs
import Mathlib.Tactic.Basic

/-!
# What a queue pair says of itself

Two processes connect their queue pairs after each has found the `RemoteConnectionInfo` of
the other in the registry, as a text of hexadecimal numbers between colons (`serialize`).
It is read with the extraction of numbers from a stream, which accepts more than what is
written: leading blanks, a sign, a `0x` (`Stream.extract`). What is written is read back
(`fromStr_serialize`).
-/

namespace DiscoSkip.Exchange

/-- What a process has to know of a queue pair to connect its own one to it. -/
structure RemoteConnectionInfo where
  lid : UInt16
  qpn : UInt32
  buf_addr : UInt64
  buf_size : UInt64
  rkey : UInt32
  deriving DecidableEq, Repr

namespace RemoteConnectionInfo

/-- `os << std::hex << lid << ":" << qpn << ":" << buf_addr << ":" << buf_size << ":" << rkey` -/
def serialize (rci : RemoteConnectionInfo) : String :=
  String.ofList (Nat.toDigits 16 rci.lid.toNat ++ ':' :: (Nat.toDigits 16 rci.qpn.toNat ++ ':' ::
    (Nat.toDigits 16 rci.buf_addr.toNat ++ ':' :: (Nat.toDigits 16 rci.buf_size.toNat ++ ':' ::
      Nat.toDigits 16 rci.rkey.toNat))))

end RemoteConnectionInfo

/-! ## Reading numbers from a stream -/

/-- An input stream: the characters that are left, and its fail bit. -/
structure Stream where
  rest : List Char
  fail : Bool
  deriving DecidableEq, Repr

/-- `std::isspace` -/
def isSpace (c : Char) : Bool := c ∈ [' ', '\t', '\n', '\x0b', '\x0c', '\r']

/-- The value of a hexadecimal digit. -/
def hexDigit? (c : Char) : Option ℕ :=
  if '0' ≤ c ∧ c ≤ '9' then some (c.toNat - '0'.toNat)
  else if 'a' ≤ c ∧ c ≤ 'f' then some (c.toNat - 'a'.toNat + 10)
  else if 'A' ≤ c ∧ c ≤ 'F' then some (c.toNat - 'A'.toNat + 10)
  else none

/-- The number that the digits stand for. -/
def hexValue (ds : List Char) : ℕ := ds.foldl (fun n c => 16 * n + (hexDigit? c).getD 0) 0

/-- The sign of a number, and what follows it. -/
def splitSign (cs : List Char) : Bool × List Char :=
  if cs.head? = some '+' then (false, cs.tail)
  else if cs.head? = some '-' then (true, cs.tail)
  else (false, cs)

/-- The `0x` of a number is skipped. -/
def skipBase (cs : List Char) : List Char :=
  if cs.take 2 = ['0', 'x'] ∨ cs.take 2 = ['0', 'X'] then cs.drop 2 else cs

/-- `ss >> std::hex >> x` for an unsigned `x` of `w` bits: what `x` is set to, if it is. -/
def Stream.extract (w : ℕ) (ss : Stream) : Option ℕ × Stream :=
  if ss.fail then (none, ss)
  else
    match ss.rest.dropWhile isSpace with
    | [] => (none, ⟨[], true⟩)
    | cs =>
      let (neg, cs) := splitSign cs
      let cs := skipBase cs
      let ds := cs.takeWhile fun c => (hexDigit? c).isSome
      let rest := cs.dropWhile fun c => (hexDigit? c).isSome
      let n := hexValue ds
      if ds = [] then (some 0, ⟨rest, true⟩)
      else if 2 ^ w ≤ n then (some (2 ^ w - 1), ⟨rest, true⟩)
      else (some (if neg then (2 ^ w - n) % 2 ^ w else n), ⟨rest, false⟩)

/-- The info that a text says, if it sets all five numbers. -/
def RemoteConnectionInfo.fromStr (str : String) : Option RemoteConnectionInfo := do
  let res := str.toList.map fun c => if c = ':' then ' ' else c
  let (lid, ss) := Stream.extract 16 ⟨res, false⟩
  let (qpn, ss) := ss.extract 32
  let (buf_addr, ss) := ss.extract 64
  let (buf_size, ss) := ss.extract 64
  let (rkey, _) := ss.extract 32
  some {
    lid := .ofNat (← lid), qpn := .ofNat (← qpn), buf_addr := .ofNat (← buf_addr),
    buf_size := .ofNat (← buf_size), rkey := .ofNat (← rkey) }

/-! ## Reading back what has been written -/

theorem hexDigit?_digitChar : ∀ d < 16, hexDigit? d.digitChar = some d := by decide

/-- What a number is written with are digits. -/
theorem exists_digit_of_mem_toDigits {n : ℕ} {c : Char} (hc : c ∈ Nat.toDigits 16 n) :
    ∃ d < 16, c = d.digitChar := by
  induction n using Nat.strongRecOn with
  | ind n ih =>
    rw [Nat.toDigits_eq_if (by decide)] at hc
    split at hc
    · next hn => exact ⟨n, hn, List.mem_singleton.1 hc⟩
    · next hn =>
      rcases List.mem_append.1 hc with hc | hc
      · exact ih _ (Nat.div_lt_self (by omega) (by decide)) hc
      · exact ⟨n % 16, Nat.mod_lt _ (by decide), List.mem_singleton.1 hc⟩

theorem hexValue_append (ds : List Char) (c : Char) :
    hexValue (ds ++ [c]) = 16 * hexValue ds + (hexDigit? c).getD 0 := by
  rw [hexValue, List.foldl_append]
  rfl

theorem hexValue_toDigits (n : ℕ) : hexValue (Nat.toDigits 16 n) = n := by
  induction n using Nat.strongRecOn with
  | ind n ih =>
    rw [Nat.toDigits_eq_if (by decide)]
    split
    · next hn =>
      rw [hexValue, List.foldl_cons, List.foldl_nil, hexDigit?_digitChar n hn]
      simp
    · next hn =>
      rw [hexValue_append, ih _ (Nat.div_lt_self (by omega) (by decide)),
        hexDigit?_digitChar _ (Nat.mod_lt _ (by decide))]
      exact Nat.div_add_mod n 16

/-- A digit is not a part of what may come before a number. -/
theorem digitChar_plain : ∀ d < 16, isSpace d.digitChar = false ∧ d.digitChar ≠ '+' ∧
    d.digitChar ≠ '-' ∧ d.digitChar ≠ 'x' ∧ d.digitChar ≠ 'X' := by decide

theorem hexDigit?_of_isSpace {c : Char} (h : isSpace c) : hexDigit? c = none := by
  simp only [isSpace, List.mem_cons, List.not_mem_nil, or_false, decide_eq_true_eq] at h
  rcases h with rfl | rfl | rfl | rfl | rfl | rfl <;> rfl

theorem not_x_of_isSpace {c : Char} (h : isSpace c) : c ≠ 'x' ∧ c ≠ 'X' := by
  simp only [isSpace, List.mem_cons, List.not_mem_nil, or_false, decide_eq_true_eq] at h
  rcases h with rfl | rfl | rfl | rfl | rfl | rfl <;> decide

theorem splitSign_of_ne {c : Char} {cs : List Char} (hp : c ≠ '+') (hm : c ≠ '-') :
    splitSign (c :: cs) = (false, c :: cs) := by
  rw [splitSign, if_neg, if_neg]
  · exact fun h => hm (Option.some.inj h)
  · exact fun h => hp (Option.some.inj h)

theorem skipBase_of_ne {c : Char} {cs : List Char} (h : ∀ x ∈ cs.head?, x ≠ 'x' ∧ x ≠ 'X') :
    skipBase (c :: cs) = c :: cs := by
  rw [skipBase, if_neg]
  cases cs with
  | nil => simp
  | cons x cs => simp [(h x rfl).1, (h x rfl).2]

/-- A number is extracted, after blanks, where its digits are followed by a blank, or by
    nothing. -/
theorem Stream.extract_toDigits {w n : ℕ} (hn : n < 2 ^ w) (blanks rest : List Char)
    (hblanks : ∀ c ∈ blanks, isSpace c) (hrest : ∀ c ∈ rest.head?, isSpace c) :
    Stream.extract w ⟨blanks ++ (Nat.toDigits 16 n ++ rest), false⟩ = (some n, ⟨rest, false⟩) := by
  have hdigits : ∀ c ∈ Nat.toDigits 16 n, (hexDigit? c).isSome := by
    intro c hc
    obtain ⟨d, hd, rfl⟩ := exists_digit_of_mem_toDigits hc
    rw [hexDigit?_digitChar d hd]
    rfl
  have hnone : ∀ c ∈ rest.head?, (hexDigit? c).isSome = false := fun c hc => by
    rw [hexDigit?_of_isSpace (hrest c hc)]
    rfl
  -- the digits are all that is taken of what is left
  have htake : (Nat.toDigits 16 n ++ rest).takeWhile (fun c => (hexDigit? c).isSome) =
      Nat.toDigits 16 n := by
    rw [List.takeWhile_append_of_pos hdigits]
    cases rest with
    | nil => simp
    | cons c cs => simp [hnone c rfl]
  have hdrop : (Nat.toDigits 16 n ++ rest).dropWhile (fun c => (hexDigit? c).isSome) = rest := by
    rw [List.dropWhile_append_of_pos hdigits]
    cases rest with
    | nil => simp
    | cons c cs => simp [hnone c rfl]
  obtain ⟨c, cs, hcs⟩ := List.exists_cons_of_ne_nil (Nat.toDigits_ne_nil (n := n) (b := 16))
  have hc : c ∈ Nat.toDigits 16 n := hcs ▸ List.mem_cons_self
  obtain ⟨d, hd, rfl⟩ := exists_digit_of_mem_toDigits hc
  obtain ⟨hspace, hplus, hminus, -, -⟩ := digitChar_plain d hd
  have hnext : ∀ x ∈ (cs ++ rest).head?, x ≠ 'x' ∧ x ≠ 'X' := by
    intro x hx
    cases cs with
    | nil => exact not_x_of_isSpace (hrest x hx)
    | cons c' cs =>
      obtain rfl := Option.some.inj hx
      obtain ⟨d', hd', rfl⟩ := exists_digit_of_mem_toDigits
        (hcs ▸ List.mem_cons_of_mem _ List.mem_cons_self : c' ∈ Nat.toDigits 16 n)
      exact (digitChar_plain d' hd').2.2.2
  have hskip : (blanks ++ (Nat.toDigits 16 n ++ rest)).dropWhile isSpace =
      d.digitChar :: (cs ++ rest) := by
    rw [List.dropWhile_append_of_pos hblanks, hcs, List.cons_append, List.dropWhile_cons_of_neg]
    simp [hspace]
  rw [hcs, List.cons_append] at htake hdrop
  rw [Stream.extract, if_neg Bool.false_ne_true]
  simp only [hskip, splitSign_of_ne hplus hminus, skipBase_of_ne hnext, htake, hdrop]
  rw [if_neg (List.cons_ne_nil _ _), ← hcs, hexValue_toDigits, if_neg (Nat.not_le.2 hn),
    if_neg Bool.false_ne_true]

/-- The first number of a text. -/
theorem Stream.extract_first {w n : ℕ} (hn : n < 2 ^ w) (rest : List Char) :
    Stream.extract w ⟨Nat.toDigits 16 n ++ ' ' :: rest, false⟩ = (some n, ⟨' ' :: rest, false⟩) :=
  Stream.extract_toDigits hn [] (' ' :: rest) (by simp) (by simp [isSpace])

theorem Stream.extract_next {w n : ℕ} (hn : n < 2 ^ w) (rest : List Char) :
    Stream.extract w ⟨' ' :: (Nat.toDigits 16 n ++ ' ' :: rest), false⟩ =
      (some n, ⟨' ' :: rest, false⟩) :=
  Stream.extract_toDigits hn [' '] (' ' :: rest) (by simp [isSpace]) (by simp [isSpace])

theorem Stream.extract_last {w n : ℕ} (hn : n < 2 ^ w) :
    Stream.extract w ⟨' ' :: Nat.toDigits 16 n, false⟩ = (some n, ⟨[], false⟩) := by
  have := Stream.extract_toDigits hn [' '] [] (by simp [isSpace]) (by simp)
  rwa [List.append_nil] at this

/-- There are no colons in a number. -/
theorem map_colon_toDigits (n : ℕ) :
    (Nat.toDigits 16 n).map (fun c => if c = ':' then ' ' else c) = Nat.toDigits 16 n := by
  have hcolon : ∀ d < 16, d.digitChar ≠ ':' := by decide
  refine (List.map_congr_left fun c hc => ?_).trans (List.map_id _)
  obtain ⟨d, hd, rfl⟩ := exists_digit_of_mem_toDigits hc
  exact if_neg (hcolon d hd)

/-- What a process announces is what the other end connects to. -/
theorem RemoteConnectionInfo.fromStr_serialize (rci : RemoteConnectionInfo) :
    fromStr rci.serialize = some rci := by
  rw [fromStr, serialize]
  simp only [String.toList_ofList, List.map_append, List.map_cons, map_colon_toDigits, if_true,
    Stream.extract_first rci.lid.toNat_lt, Stream.extract_next rci.qpn.toNat_lt,
    Stream.extract_next rci.buf_addr.toNat_lt, Stream.extract_next rci.buf_size.toNat_lt,
    Stream.extract_last rci.rkey.toNat_lt]
  simp

/-- A text with a sign or in capitals is read as well. -/
example : RemoteConnectionInfo.fromStr "1f:+0x2A:0:7:8" = some ⟨31, 42, 0, 7, 8⟩ := by decide

end DiscoSkip.Exchange
