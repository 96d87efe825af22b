import LogMind.Core.LogEntry

/-!
# Tokens and substrings of a message

`tokenize` cuts a message into its words, in lower case, and `containsCi` looks
for a lower-case needle without regard to case. Both read bytes in the C
locale, so a byte above 127 separates words.
-/

namespace LogMind

namespace LogBuffer

/-- The bytes that belong to a word. -/
def isTokenByte (c : UInt8) : Bool := isAlnum c || c == 95 || c == 45

/-- The loop of `tokenize`: the words found so far and the one being read. -/
def tokenizeLoop : Bytes → List Bytes → Bytes → List Bytes
  | [], tokens, current => if current.isEmpty then tokens else tokens ++ [current]
  | c :: text, tokens, current =>
      if isTokenByte c then tokenizeLoop text tokens (current ++ [toLowerByte c])
      else if current.isEmpty then tokenizeLoop text tokens current
      else tokenizeLoop text (tokens ++ [current]) []

def tokenize (text : Bytes) : List Bytes := tokenizeLoop text [] []

/-- Comparison of a needle with the beginning of the remaining text. -/
def startsWithCi : Bytes → Bytes → Bool
  | _, [] => true
  | [], _ :: _ => false
  | h :: hay, n :: needle => toLowerByte h == toLowerByte n && startsWithCi hay needle

/-- `std::search`: the needle at the first position where it fits. -/
def searchCi : Bytes → Bytes → Bool
  | [], needle => needle.isEmpty
  | h :: hay, needle => startsWithCi (h :: hay) needle || searchCi hay needle

def containsCi (haystack needleLower : Bytes) : Bool :=
  if needleLower.isEmpty then true
  else if haystack.length < needleLower.length then false
  else searchCi haystack needleLower

theorem startsWithCi_iff (hay needle : Bytes) :
    startsWithCi hay needle = true ↔ toLower needle <+: toLower hay := by
  induction needle generalizing hay with
  | nil => cases hay <;> simp [startsWithCi, toLower]
  | cons n needle ih =>
      cases hay with
      | nil => simp [startsWithCi, toLower]
      | cons h hay =>
          rw [startsWithCi, Bool.and_eq_true, beq_iff_eq, ih]
          simp only [toLower, List.map_cons, List.cons_prefix_cons]
          exact and_congr_left fun _ => eq_comm

theorem searchCi_iff (hay needle : Bytes) :
    searchCi hay needle = true ↔ toLower needle <:+: toLower hay := by
  induction hay with
  | nil => cases needle <;> simp [searchCi, toLower]
  | cons h hay ih =>
      rw [searchCi, Bool.or_eq_true, startsWithCi_iff, ih]
      simp only [toLower, List.map_cons]
      rw [List.infix_cons_iff]

/-- The case-insensitive test is the substring test on the lowered strings. -/
theorem containsCi_toLower_iff (haystack query : Bytes) :
    containsCi haystack (toLower query) = true ↔ toLower query <:+: toLower haystack := by
  unfold containsCi
  split
  · rename_i hempty
    have hnil : toLower query = [] := by simpa using hempty
    simp [hnil]
  · split
    · rename_i hlen
      have hshort : (toLower haystack).length < (toLower query).length := by
        simpa [toLower] using hlen
      simp only [Bool.false_eq_true, false_iff]
      intro hinfix
      exact absurd hinfix.length_le (by omega)
    · rw [searchCi_iff, toLower_toLower]

end LogBuffer

end LogMind
