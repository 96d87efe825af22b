import LogMind.Core.Bytes

/-!
# Positions in a byte string

The searches of `std::string` with `std::string::npos` as `none`. A `substr` that
starts behind the end and a `size_t` difference that would wrap give `none` too:
the first throws `std::out_of_range`, and the second is never meant.
-/

namespace LogMind

/-- The first position from `pos` on whose byte satisfies `p`. -/
def findFrom (p : UInt8 → Bool) (s : Bytes) (pos : Nat) : Option Nat :=
  ((s.drop pos).findIdx? p).map fun i => pos + i

/-- `s.find(c, pos)`. -/
def findByte (s : Bytes) (c : UInt8) (pos : Nat) : Option Nat := findFrom (· == c) s pos

def isBlank (c : UInt8) : Bool := c == 32 || c == 9

/-- `s.find_first_of(" \t", pos)`. -/
def findBlank (s : Bytes) (pos : Nat) : Option Nat := findFrom isBlank s pos

/-- `s.rfind(c, pos)`: the last position up to `pos`. -/
def rfindByte (s : Bytes) (c : UInt8) (pos : Nat) : Option Nat :=
  ((s.take (pos + 1)).reverse.findIdx? (· == c)).map fun i => (s.take (pos + 1)).length - 1 - i

/-- `s.substr(pos, n)`. -/
def substr (s : Bytes) (pos n : Nat) : Option Bytes :=
  if pos ≤ s.length then some ((s.drop pos).take n) else none

/-- The difference of two `size_t` values. -/
def diff (a b : Nat) : Option Nat := if b ≤ a then some (a - b) else none

/-- `std::search` for an upper-case needle with `std::toupper` on the text. -/
def startsWithUpper : Bytes → Bytes → Bool
  | _, [] => true
  | [], _ :: _ => false
  | h :: hay, n :: needle => toUpperByte h == n && startsWithUpper hay needle

def containsUpper : Bytes → Bytes → Bool
  | [], needle => needle.isEmpty
  | h :: hay, needle => startsWithUpper (h :: hay) needle || containsUpper hay needle

/-- `s.find(needle) != npos`. -/
def contains : Bytes → Bytes → Bool
  | [], needle => needle.isEmpty
  | h :: hay, needle => needle.isPrefixOf (h :: hay) || contains hay needle

theorem findFrom_spec {p : UInt8 → Bool} {s : Bytes} {pos i : Nat}
    (h : findFrom p s pos = some i) : pos ≤ i ∧ i < s.length ∧ s[i]?.any p = true := by
  rw [findFrom, Option.map_eq_some_iff] at h
  obtain ⟨k, hk, rfl⟩ := h
  rw [List.findIdx?_eq_some_iff_getElem] at hk
  obtain ⟨hlt, hp, _⟩ := hk
  rw [List.length_drop] at hlt
  refine ⟨Nat.le_add_right _ _, by omega, ?_⟩
  rw [List.getElem_drop] at hp
  rw [List.getElem?_eq_getElem (by omega)]
  simpa using hp

theorem rfindByte_spec {s : Bytes} {c : UInt8} {pos i : Nat} (h : rfindByte s c pos = some i) :
    i ≤ pos ∧ s[i]? = some c := by
  rw [rfindByte, Option.map_eq_some_iff] at h
  obtain ⟨k, hk, rfl⟩ := h
  rw [List.findIdx?_eq_some_iff_getElem] at hk
  obtain ⟨hlt, hp, _⟩ := hk
  rw [List.length_reverse] at hlt
  have hle : (s.take (pos + 1)).length ≤ pos + 1 := by
    rw [List.length_take]
    exact Nat.min_le_left _ _
  have hget : s[(s.take (pos + 1)).length - 1 - k]? =
      (s.take (pos + 1))[(s.take (pos + 1)).length - 1 - k]? := by
    rw [List.getElem?_take, if_pos (by omega)]
  refine ⟨by omega, ?_⟩
  rw [List.getElem_reverse] at hp
  rw [hget, List.getElem?_eq_getElem (by omega)]
  simpa using hp

theorem substr_of_le {s : Bytes} {pos : Nat} (h : pos ≤ s.length) (n : Nat) :
    substr s pos n = some ((s.drop pos).take n) := if_pos h

theorem diff_of_le {a b : Nat} (h : b ≤ a) : diff a b = some (a - b) := if_pos h

/-- What is behind a text that stands at a position. -/
theorem drop_of_append {s a rest : Bytes} {pos : Nat} (h : s.drop pos = a ++ rest) :
    s.drop (pos + a.length) = rest := by
  rw [← List.drop_drop, h, List.drop_left]

theorem le_length_of_drop {s rest : Bytes} {pos : Nat} {c : UInt8} (h : s.drop pos = c :: rest) :
    pos < s.length := by
  by_contra hge
  rw [List.drop_eq_nil_of_le (by omega)] at h
  cases h

theorem getElem?_of_drop {s rest : Bytes} {pos : Nat} {c : UInt8} (h : s.drop pos = c :: rest) :
    s[pos]? = some c := by
  have hzero : (s.drop pos)[0]? = some c := by
    rw [h]
    rfl
  rwa [List.getElem?_drop, Nat.add_zero] at hzero

/-- A search stops at the first byte that satisfies the predicate. -/
theorem findFrom_of_append {p : UInt8 → Bool} {s a rest : Bytes} {pos : Nat} {c : UInt8}
    (h : s.drop pos = a ++ c :: rest) (ha : ∀ x ∈ a, p x = false) (hc : p c = true) :
    findFrom p s pos = some (pos + a.length) := by
  have hnone : a.findIdx? p = none := by
    rw [List.findIdx?_eq_none_iff]
    exact ha
  rw [findFrom, h, List.findIdx?_append, hnone, List.findIdx?_cons, if_pos hc]
  simp

theorem substr_of_append {s a rest : Bytes} {pos : Nat} (hpos : pos ≤ s.length)
    (h : s.drop pos = a ++ rest) : substr s pos a.length = some a := by
  rw [substr_of_le hpos, h, List.take_left]

/-- The text in front of a position that a search has found. -/
theorem findFrom_append {p : UInt8 → Bool} {s : Bytes} {pos i : Nat}
    (h : findFrom p s pos = some i) :
    ∃ a c rest, s.drop pos = a ++ c :: rest ∧ i = pos + a.length ∧ (∀ x ∈ a, p x = false) ∧
      p c = true := by
  rw [findFrom, Option.map_eq_some_iff] at h
  obtain ⟨k, hk, rfl⟩ := h
  rw [List.findIdx?_eq_some_iff_getElem] at hk
  obtain ⟨hlt, hp, hbefore⟩ := hk
  refine ⟨(s.drop pos).take k, (s.drop pos)[k], (s.drop pos).drop (k + 1), ?_, ?_, ?_, hp⟩
  · rw [← List.drop_eq_getElem_cons hlt, List.take_append_drop]
  · rw [List.length_take_of_le (Nat.le_of_lt hlt)]
  · intro x hx
    obtain ⟨j, hj, rfl⟩ := List.getElem_of_mem hx
    rw [List.length_take] at hj
    rw [List.getElem_take]
    simpa using hbefore j (by omega)

theorem startsWithUpper_iff (hay needle : Bytes) :
    startsWithUpper hay needle = true ↔ needle <+: toUpper hay := by
  induction needle generalizing hay with
  | nil => cases hay <;> simp [startsWithUpper]
  | cons n needle ih =>
      cases hay with
      | nil => simp [startsWithUpper, toUpper]
      | cons h hay =>
          rw [startsWithUpper, Bool.and_eq_true, beq_iff_eq, ih]
          simp only [toUpper, List.map_cons, List.cons_prefix_cons]
          exact and_congr_left fun _ => eq_comm

/-- The search without regard to case looks for an upper-case word in the upper-case text. -/
theorem containsUpper_iff (hay needle : Bytes) :
    containsUpper hay needle = true ↔ needle <:+: toUpper hay := by
  induction hay with
  | nil => cases needle <;> simp [containsUpper, toUpper]
  | cons h hay ih =>
      rw [containsUpper, Bool.or_eq_true, startsWithUpper_iff, ih]
      simp only [toUpper, List.map_cons]
      rw [List.infix_cons_iff]

theorem toList_toString_nat (n : Nat) : (toString n).toList = Nat.toDigits 10 n := by
  show (Nat.repr n).toList = _
  simp [Nat.repr]

/-- A digit of a number is one byte. -/
theorem digit_byte {n : Nat} {c : Char} (h : c ∈ Nat.toDigits 10 n) :
    isDigit (UInt8.ofNat c.toNat) = true ∧ Char.ofNat (UInt8.ofNat c.toNat).toNat = c := by
  have hdigit : 48 ≤ c.toNat ∧ c.toNat ≤ 57 :=
    Char.isDigit_iff_toNat.mp (Nat.isDigit_of_mem_toDigits (by decide) (by decide) h)
  have hbyte : (UInt8.ofNat c.toNat).toNat = c.toNat := by
    rw [UInt8.toNat_ofNat']
    omega
  constructor
  · simp only [isDigit, Bool.and_eq_true, decide_eq_true_eq, UInt8.le_iff_toNat_le, hbyte]
    exact hdigit
  · rw [hbyte, Char.ofNat_toNat]

theorem isDigit_of_mem_nat {n : Nat} {c : UInt8} (h : c ∈ ascii (toString n)) :
    isDigit c = true := by
  rw [ascii, toList_toString_nat] at h
  obtain ⟨d, hd, rfl⟩ := List.mem_map.mp h
  exact (digit_byte hd).1

theorem ascii_nat_injective {m n : Nat} (h : ascii (toString m) = ascii (toString n)) :
    m = n := by
  have hback : ∀ k : Nat,
      (ascii (toString k)).map (fun b => Char.ofNat b.toNat) = Nat.toDigits 10 k := by
    intro k
    rw [ascii, toList_toString_nat, List.map_map]
    exact (List.map_congr_left fun c hc => (digit_byte hc).2).trans (List.map_id _)
  have hdigits : Nat.toDigits 10 m = Nat.toDigits 10 n := by rw [← hback m, h, hback n]
  rw [← Nat.ofDigitChars_ten_toDigits (n := m), hdigits, Nat.ofDigitChars_ten_toDigits]

/-- A negative number is a dash before the digits. -/
theorem ascii_int (i : Int) :
    ascii (toString i) =
      if 0 ≤ i then ascii (toString i.toNat) else 45 :: ascii (toString (-i).toNat) := by
  show ascii i.repr = _
  rw [Int.repr_eq_if]
  split
  · rfl
  · rw [ascii, String.toList_append, List.map_append]
    rfl

theorem ascii_nat_ne_dash (n : Nat) (t : Bytes) : ascii (toString n) ≠ 45 :: t := by
  intro h
  have hdigit : isDigit 45 = true :=
    isDigit_of_mem_nat (n := n) (h ▸ List.mem_cons_self)
  exact absurd hdigit (by decide)

theorem ascii_int_injective {i j : Int} (h : ascii (toString i) = ascii (toString j)) : i = j := by
  rw [ascii_int, ascii_int] at h
  split at h
  · split at h
    · have hnat := ascii_nat_injective h
      omega
    · exact absurd h (ascii_nat_ne_dash _ _)
  · split at h
    · exact absurd h.symm (ascii_nat_ne_dash _ _)
    · have hnat := ascii_nat_injective (List.cons.inj h).2
      omega

end LogMind
