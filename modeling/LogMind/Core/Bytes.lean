import Mathlib.Data.List.Basic

/-!
# Byte strings

A `std::string` of the daemon is a list of bytes, and the character classes are
those of the C locale: a byte is compared by its code and no byte above 127 is
a letter, a digit or a blank.
-/

namespace LogMind

abbrev Bytes := List UInt8

/-- The bytes of an ASCII literal of the source. -/
def ascii (s : String) : Bytes := s.toList.map fun c => UInt8.ofNat c.toNat

/-- The bound of `uint64_t` and `size_t`. -/
def wordBound : Nat := 18446744073709551616

/-- The bound of `uint32_t`. -/
def wordBound32 : Nat := 4294967296

/-- Unsigned subtraction of two 64-bit words. -/
def sub64 (a b : Nat) : Nat := (a + (wordBound - b)) % wordBound

theorem sub64_of_le {a b : Nat} (hba : b ≤ a) (ha : a < wordBound) :
    sub64 a b = a - b := by
  unfold sub64 wordBound at *
  omega

def isDigit (c : UInt8) : Bool := 48 ≤ c && c ≤ 57

def isUpper (c : UInt8) : Bool := 65 ≤ c && c ≤ 90

def isLower (c : UInt8) : Bool := 97 ≤ c && c ≤ 122

def isAlnum (c : UInt8) : Bool := isDigit c || isUpper c || isLower c

/-- `std::tolower` in the C locale. -/
def toLowerByte (c : UInt8) : UInt8 := if isUpper c then c + 32 else c

/-- `std::toupper` in the C locale. -/
def toUpperByte (c : UInt8) : UInt8 := if isLower c then c - 32 else c

theorem isUpper_iff (c : UInt8) : isUpper c = true ↔ 65 ≤ c.toNat ∧ c.toNat ≤ 90 := by
  simp [isUpper, UInt8.le_iff_toNat_le]

theorem toLowerByte_idem (c : UInt8) : toLowerByte (toLowerByte c) = toLowerByte c := by
  by_cases h : isUpper c = true
  · have hc := (isUpper_iff c).mp h
    have hne : ¬ isUpper (c + 32) = true := by
      rw [isUpper_iff, UInt8.toNat_add]
      have h32 : (32 : UInt8).toNat = 32 := rfl
      omega
    simp [toLowerByte, h, hne]
  · simp [toLowerByte, h]

/-- `LogBuffer::to_lower`: the whole string, byte by byte. -/
def toLower (s : Bytes) : Bytes := s.map toLowerByte

@[simp] theorem toLower_toLower (s : Bytes) : toLower (toLower s) = toLower s := by
  simp [toLower, Function.comp_def, toLowerByte_idem]

/-- `std::transform` with `std::toupper`. -/
def toUpper (s : Bytes) : Bytes := s.map toUpperByte

end LogMind
