import Mathlib.Data.Nat.Digits.Defs
import Mathlib.Tactic.Ring
import TurnCodec.Cli.Request
/-! Limits on the command line. A numeral is read digit by digit into a word that never wraps: one
of any length is read exactly, or not at all. -/

namespace TurnCodec.Cli

/-- A string of decimal digits, with at least one of them. -/
structure IsNumeral (s : String) : Prop where
  nonempty : s ≠ ""
  digits : ∀ c ∈ s.toList, '0' ≤ c ∧ c ≤ '9'

def digitValue (c : Char) : Nat := c.toNat - '0'.toNat

/-- The number that digits stand for, the last of them for the units. -/
def decimalValue (digits : List Char) : Nat := Nat.ofDigits 10 (digits.reverse.map digitValue)

theorem decimalValue_cons (c : Char) (cs : List Char) :
    decimalValue (c :: cs) = 10 ^ cs.length * digitValue c + decimalValue cs := by
  simp only [decimalValue, List.reverse_cons, List.map_append, List.map_cons, List.map_nil, Nat.ofDigits_append,
    Nat.ofDigits_singleton, List.length_map, List.length_reverse]
  omega

theorem toNat_digit (c : Char) : (c.toNat - '0'.toNat).toUInt64.toNat = digitValue c := by
  have hc : c.toNat < UInt64.size := Nat.lt_trans c.val.toNat_lt (by decide)
  exact UInt64.toNat_ofNat_of_lt' (Nat.lt_of_le_of_lt (Nat.sub_le _ _) hc)

/-- The bound on the word is that of the sum, which is not formed to compare it. -/
theorem le_bound_iff {n d : UInt64} :
    n ≤ (0xffffffffffffffff - d) / 10 ↔ 10 * n.toNat + d.toNat < 0x10000000000000000 := by
  have hd : d.toNat < 0x10000000000000000 := d.toNat_lt
  have hle : d ≤ 0xffffffffffffffff := UInt64.le_iff_toNat_le.2 (Nat.le_of_lt_succ hd)
  rw [UInt64.le_iff_toNat_le, UInt64.toNat_div, UInt64.toNat_sub_of_le _ _ hle]
  simp
  omega

/-- The word takes the digit exactly when the value of both fits in it. -/
theorem withDigit?_eq_some {n m : UInt64} {c : Char} :
    withDigit? n c = some m ↔ ('0' ≤ c ∧ c ≤ '9') ∧ m.toNat = 10 * n.toNat + digitValue c := by
  have hdigit : c.isDigit = true ↔ '0' ≤ c ∧ c ≤ '9' := by simp [Char.isDigit, Char.le_def]
  by_cases hc : '0' ≤ c ∧ c ≤ '9'
  · simp only [withDigit?, le_bound_iff, hdigit, hc, toNat_digit, true_and, and_self]
    by_cases hsum : 10 * n.toNat + digitValue c < 0x10000000000000000
    · have hnext : (10 * n + (c.toNat - '0'.toNat).toUInt64).toNat = 10 * n.toNat + digitValue c := by
        rw [UInt64.toNat_add, UInt64.toNat_mul, toNat_digit]
        simp
        omega
      rw [if_pos hsum, Option.some.injEq, ← UInt64.toNat_inj, hnext, eq_comm]
    · rw [if_neg hsum]
      refine iff_of_false nofun fun h => hsum ?_
      rw [← h]
      exact m.toNat_lt
  · simp [withDigit?, hdigit, hc]

/-- Digits go into a word one by one when their value, behind what the word has, fits in it. -/
theorem foldlM_withDigit? {digits : List Char} {n m : UInt64} : digits.foldlM withDigit? n = some m ↔
    (∀ c ∈ digits, '0' ≤ c ∧ c ≤ '9') ∧ m.toNat = 10 ^ digits.length * n.toNat + decimalValue digits := by
  induction digits generalizing n with
  | nil => simp [decimalValue, ← UInt64.toNat_inj, eq_comm]
  | cons c digits ih =>
    rw [List.foldlM_cons, List.forall_mem_cons, List.length_cons, decimalValue_cons]
    have hvalue : 10 ^ (digits.length + 1) * n.toNat + (10 ^ digits.length * digitValue c + decimalValue digits) =
        10 ^ digits.length * (10 * n.toNat + digitValue c) + decimalValue digits := by
      ring
    simp only [Option.bind_eq_bind, Option.bind_eq_some_iff, withDigit?_eq_some, ih, hvalue]
    constructor
    · rintro ⟨k, ⟨hc, hk⟩, hdigits, hm⟩
      exact ⟨⟨hc, hdigits⟩, by rw [hm, hk]⟩
    · rintro ⟨⟨hc, hdigits⟩, hm⟩
      -- the value of the first digits is at most that of all of them, so it fits where that fits
      have hle : 10 * n.toNat + digitValue c ≤ m.toNat := by
        rw [hm]
        exact Nat.le_add_right_of_le (Nat.le_mul_of_pos_left _ (by positivity))
      have hk : (UInt64.ofNat (10 * n.toNat + digitValue c)).toNat = 10 * n.toNat + digitValue c :=
        UInt64.toNat_ofNat_of_lt' (Nat.lt_of_le_of_lt hle m.toNat_lt)
      exact ⟨_, ⟨hc, hk⟩, hdigits, by rw [hm, hk]⟩

theorem number?_eq_some {s : String} {n : Nat} : number? s = some n ↔
    IsNumeral s ∧ decimalValue s.toList = n ∧ n < 0x10000000000000000 := by
  unfold number?
  by_cases hs : s = ""
  · subst hs
    refine iff_of_false nofun fun h => h.1.nonempty rfl
  · rw [if_neg (by simpa using hs), Option.map_eq_some_iff]
    simp only [foldlM_withDigit?, UInt64.toNat_zero, Nat.mul_zero, Nat.zero_add]
    constructor
    · rintro ⟨m, ⟨hdigits, hm⟩, rfl⟩
      exact ⟨⟨hs, hdigits⟩, hm.symm, m.toNat_lt⟩
    · rintro ⟨h, rfl, hlt⟩
      have hm : (UInt64.ofNat (decimalValue s.toList)).toNat = decimalValue s.toList := UInt64.toNat_ofNat_of_lt' hlt
      exact ⟨_, ⟨h.digits, hm⟩, hm⟩

/-- The word does not wrap: this is one more than it has values. -/
example : number? "18446744073709551617" = none := by
  rfl

/-- What is asked for as the limit: a number that is given is one from 1 to 2^30, and it is
64 MiB where none is given. -/
def IsLimit : Option String → Nat → Prop
  | none, n => n = 67108864
  | some s, n => IsNumeral s ∧ decimalValue s.toList = n ∧ 1 ≤ n ∧ n ≤ 1073741824

/-- Why what is given is no limit: it is no number of 64 bits, or one that is too small or too great. -/
inductive BadLimit (s : String) : UsageFault → Prop
  | notANumber (h : IsNumeral s → 0x10000000000000000 ≤ decimalValue s.toList) : BadLimit s .notANumber
  | outOfBounds (hs : IsNumeral s) (hlt : decimalValue s.toList < 0x10000000000000000)
      (hbounds : decimalValue s.toList < 1 ∨ 1073741824 < decimalValue s.toList) : BadLimit s .outOfBounds

theorem IsLimit.limit_eq {given : Option String} {n : Nat} (h : IsLimit given n) : limit given = .ok n := by
  rcases given with _ | s
  · exact congrArg Except.ok (Eq.symm h)
  · obtain ⟨hs, hvalue, hpos, hle⟩ := h
    have hnumber : number? s = some n := number?_eq_some.2 ⟨hs, hvalue, by omega⟩
    have hbound : maxBytesBound = 1073741824 := rfl
    simp only [limit, hnumber]
    rw [if_neg (by omega)]

theorem IsLimit.le {given : Option String} {n : Nat} (h : IsLimit given n) : n ≤ 1073741824 := by
  rcases given with _ | s
  · obtain rfl : n = 67108864 := h
    decide
  · exact h.2.2.2

theorem BadLimit.limit_eq {s : String} {fault : UsageFault} (h : BadLimit s fault) : limit (some s) = .error fault := by
  cases h with
  | notANumber h =>
    have hnumber : number? s = none := by
      rw [Option.eq_none_iff_forall_ne_some]
      intro n hn
      obtain ⟨hs, rfl, hlt⟩ := number?_eq_some.1 hn
      have := h hs
      omega
    simp only [limit, hnumber]
  | outOfBounds hs hlt hbounds =>
    have hnumber : number? s = some (decimalValue s.toList) := number?_eq_some.2 ⟨hs, rfl, hlt⟩
    have hbound : maxBytesBound = 1073741824 := rfl
    simp only [limit, hnumber]
    rw [if_pos (by omega)]

theorem exists_limit (given : Option String) :
    (∃ n, IsLimit given n) ∨ ∃ s fault, given = some s ∧ BadLimit s fault := by
  rcases given with _ | s
  · exact .inl ⟨_, rfl⟩
  by_cases hs : IsNumeral s ∧ decimalValue s.toList < 0x10000000000000000
  · obtain ⟨hs, hlt⟩ := hs
    by_cases hbounds : 1 ≤ decimalValue s.toList ∧ decimalValue s.toList ≤ 1073741824
    · exact .inl ⟨_, hs, rfl, hbounds⟩
    · exact .inr ⟨s, _, rfl, .outOfBounds hs hlt (by omega)⟩
  · exact .inr ⟨s, _, rfl, .notANumber fun h => Nat.le_of_not_lt fun hlt => hs ⟨h, hlt⟩⟩

end TurnCodec.Cli
