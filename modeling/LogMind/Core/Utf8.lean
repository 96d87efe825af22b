import LogMind.Core.Bytes

/-!
# Well-formed UTF-8

`validUtf8` reads a byte string with the automaton of the standard: after a lead
byte it expects the continuation bytes that the lead byte asks for, and it
refuses overlong forms, surrogates and code points above U+10FFFF.
-/

namespace LogMind

namespace Utf8

/-- What the automaton expects next. -/
inductive State where
  | start
  /-- One, two or three more continuation bytes. -/
  | more1
  | more2
  | more3
  /-- After `E0`, `ED`, `F0` and `F4` the next byte has a narrower range. -/
  | afterE0
  | afterED
  | afterF0
  | afterF4
  deriving DecidableEq

def inRange (lo hi c : UInt8) : Bool := lo ≤ c && c ≤ hi

def next : State → UInt8 → Option State
  | .start, c =>
      if c < 0x80 then some .start
      else if inRange 0xC2 0xDF c then some .more1
      else if c = 0xE0 then some .afterE0
      else if c = 0xED then some .afterED
      else if inRange 0xE1 0xEF c then some .more2
      else if c = 0xF0 then some .afterF0
      else if inRange 0xF1 0xF3 c then some .more3
      else if c = 0xF4 then some .afterF4
      else none
  | .more1, c => if inRange 0x80 0xBF c then some .start else none
  | .more2, c => if inRange 0x80 0xBF c then some .more1 else none
  | .more3, c => if inRange 0x80 0xBF c then some .more2 else none
  | .afterE0, c => if inRange 0xA0 0xBF c then some .more1 else none
  | .afterED, c => if inRange 0x80 0x9F c then some .more1 else none
  | .afterF0, c => if inRange 0x90 0xBF c then some .more2 else none
  | .afterF4, c => if inRange 0x80 0x8F c then some .more2 else none

def read : State → Bytes → Option State
  | s, [] => some s
  | s, c :: text => (next s c).bind fun t => read t text

end Utf8

/-- The string ends between two characters and every character is well formed. -/
def validUtf8 (text : Bytes) : Bool := Utf8.read .start text == some .start

end LogMind
