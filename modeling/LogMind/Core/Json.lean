import LogMind.Core.Utf8

/-!
# JSON values

The values of `nlohmann::json` that the daemon builds. A number stands for any
JSON number, since the modelled code only writes integers. `render` is the text
`dump()` produces; the daemon's own code is modelled over an arbitrary `dump`
that fails exactly on a value with a string that is not UTF-8.
-/

namespace LogMind

inductive Json where
  | null
  | bool (b : Bool)
  | number (n : Int)
  | string (s : Bytes)
  | array (items : List Json)
  | object (members : List (Bytes × Json))

namespace Json

/-- The members of an object are kept in the order of their keys. -/
def insertMember (key : Bytes) (value : Json) : List (Bytes × Json) → List (Bytes × Json)
  | [] => [(key, value)]
  | (k, v) :: members =>
      if key = k then (key, value) :: members
      else if key < k then (key, value) :: (k, v) :: members
      else (k, v) :: insertMember key value members

/-- `j[key] = value`: `null` becomes an object, any other non-object throws. -/
def setMember (j : Json) (key : Bytes) (value : Json) : Option Json :=
  match j with
  | null => some (object [(key, value)])
  | object members => some (object (insertMember key value members))
  | _ => none

/-- The members that `j[key] = value` adds to. -/
def members : Json → Option (List (Bytes × Json))
  | null => some []
  | object members => some members
  | _ => none

def isObject : Json → Bool
  | object _ => true
  | _ => false

/-- `j.find(key)` on an object. -/
def find (j : Json) (key : Bytes) : Option Json :=
  match j with
  | object members => (members.find? fun m => m.1 = key).map Prod.snd
  | _ => none

mutual

/-- Every contained string, keys included, is valid UTF-8. -/
def valid : Json → Bool
  | null => true
  | bool _ => true
  | number _ => true
  | string s => validUtf8 s
  | array items => validItems items
  | object members => validMembers members

def validItems : List Json → Bool
  | [] => true
  | item :: items => item.valid && validItems items

def validMembers : List (Bytes × Json) → Bool
  | [] => true
  | (key, value) :: members => validUtf8 key && value.valid && validMembers members

end

/-- A hexadecimal digit of an escape. -/
def hexDigit (n : Nat) : UInt8 := UInt8.ofNat (if n < 10 then 48 + n else 87 + n)

def escapeByte (c : UInt8) : Bytes :=
  if c = 34 then ascii "\\\""
  else if c = 92 then ascii "\\\\"
  else if c = 8 then ascii "\\b"
  else if c = 9 then ascii "\\t"
  else if c = 10 then ascii "\\n"
  else if c = 12 then ascii "\\f"
  else if c = 13 then ascii "\\r"
  else if c < 32 then ascii "\\u00" ++ [hexDigit (c.toNat / 16), hexDigit (c.toNat % 16)]
  else [c]

def renderString (s : Bytes) : Bytes := ascii "\"" ++ s.flatMap escapeByte ++ ascii "\""

mutual

/-- The text of a value whose strings are all valid. -/
def render : Json → Bytes
  | null => ascii "null"
  | bool b => if b then ascii "true" else ascii "false"
  | number n => ascii (toString n)
  | string s => renderString s
  | array items => ascii "[" ++ renderItems items ++ ascii "]"
  | object members => ascii "\x7b" ++ renderMembers members ++ ascii "\x7d"

def renderItems : List Json → Bytes
  | [] => []
  | [item] => item.render
  | item :: items => item.render ++ ascii "," ++ renderItems items

def renderMembers : List (Bytes × Json) → Bytes
  | [] => []
  | [(key, value)] => renderString key ++ ascii ":" ++ value.render
  | (key, value) :: members =>
      renderString key ++ ascii ":" ++ value.render ++ ascii "," ++ renderMembers members

end

/-- A `dump()` throws exactly when some contained string is not valid UTF-8. -/
def DumpThrowsIffInvalid (dump : Json → Option Bytes) : Prop :=
  ∀ j, dump j = none ↔ j.valid = false

/-- The `dump()` that renders a valid value. -/
def renderDump (j : Json) : Option Bytes := if j.valid then some j.render else none

theorem renderDump_throws_iff : DumpThrowsIffInvalid renderDump := by
  intro j
  unfold renderDump
  cases j.valid <;> simp

/-- A line break and the blanks of a nesting depth. -/
def lineBreak (depth : Nat) : Bytes := ascii "\n" ++ List.replicate (2 * depth) 32

mutual

/-- The text of `dump(2)` at a nesting depth. -/
def renderIndented (depth : Nat) : Json → Bytes
  | null => ascii "null"
  | bool b => if b then ascii "true" else ascii "false"
  | number n => ascii (toString n)
  | string s => renderString s
  | array [] => ascii "[]"
  | array (item :: items) =>
      ascii "[" ++ renderIndentedItems (depth + 1) (item :: items) ++ lineBreak depth ++ ascii "]"
  | object [] => ascii "\x7b\x7d"
  | object (m :: members) =>
      ascii "\x7b" ++ renderIndentedMembers (depth + 1) (m :: members) ++ lineBreak depth ++
        ascii "\x7d"

def renderIndentedItems (depth : Nat) : List Json → Bytes
  | [] => []
  | [item] => lineBreak depth ++ item.renderIndented depth
  | item :: items =>
      lineBreak depth ++ item.renderIndented depth ++ ascii "," ++ renderIndentedItems depth items

def renderIndentedMembers (depth : Nat) : List (Bytes × Json) → Bytes
  | [] => []
  | [(key, value)] =>
      lineBreak depth ++ renderString key ++ ascii ": " ++ value.renderIndented depth
  | (key, value) :: members =>
      lineBreak depth ++ renderString key ++ ascii ": " ++ value.renderIndented depth ++
        ascii "," ++ renderIndentedMembers depth members

end

/-- The `dump(2)` that renders a valid value. -/
def renderIndentedDump (j : Json) : Option Bytes :=
  if j.valid then some (j.renderIndented 0) else none

theorem setMember_of_members {j : Json} {members : List (Bytes × Json)}
    (h : j.members = some members) (key : Bytes) (value : Json) :
    j.setMember key value = some (object (insertMember key value members)) := by
  cases j with
  | null =>
      obtain rfl := Option.some.inj h
      rfl
  | object held =>
      obtain rfl := Option.some.inj h
      rfl
  | _ => simp [Json.members] at h

theorem valid_of_members {j : Json} {members : List (Bytes × Json)}
    (h : j.members = some members) : j.valid = validMembers members := by
  cases j with
  | null =>
      obtain rfl := Option.some.inj h
      rfl
  | object held =>
      obtain rfl := Option.some.inj h
      rfl
  | _ => simp [Json.members] at h

theorem find_of_members {j : Json} {members : List (Bytes × Json)}
    (h : j.members = some members) (key : Bytes) :
    j.find key = (members.find? fun m => m.1 = key).map Prod.snd := by
  cases j with
  | null =>
      obtain rfl := Option.some.inj h
      rfl
  | object held =>
      obtain rfl := Option.some.inj h
      rfl
  | _ => simp [Json.members] at h

/-- Another member does not hide the one looked for. -/
theorem find?_insertMember_ne {key other : Bytes} (value : Json)
    (members : List (Bytes × Json)) (hne : other ≠ key) :
    (insertMember key value members).find? (fun m => m.1 = other) =
      members.find? fun m => m.1 = other := by
  induction members with
  | nil => simp [insertMember, hne.symm]
  | cons m members ih =>
      obtain ⟨k, v⟩ := m
      rw [insertMember]
      split
      · rename_i hkey
        subst hkey
        simp [hne.symm]
      · split
        · simp [List.find?_cons, hne.symm]
        · simp only [List.find?_cons, ih]

/-- The member just set is the one that is found. -/
theorem find?_insertMember_self (key : Bytes) (value : Json) (members : List (Bytes × Json)) :
    (insertMember key value members).find? (fun m => m.1 = key) = some (key, value) := by
  induction members with
  | nil => simp [insertMember]
  | cons m members ih =>
      obtain ⟨k, v⟩ := m
      rw [insertMember]
      split
      · simp
      · rename_i hkey
        split
        · simp
        · simp only [List.find?_cons, Ne.symm hkey, decide_false, ih]

theorem mem_insertMember {key : Bytes} {value : Json} {members : List (Bytes × Json)}
    {m : Bytes × Json} (hm : m ∈ insertMember key value members) :
    m = (key, value) ∨ m ∈ members := by
  induction members with
  | nil => simpa [insertMember] using hm
  | cons n members ih =>
      obtain ⟨k, v⟩ := n
      rw [insertMember] at hm
      split at hm
      · rcases List.mem_cons.mp hm with h | h
        · exact Or.inl h
        · exact Or.inr (List.mem_cons_of_mem _ h)
      · split at hm
        · exact List.mem_cons.mp hm
        · rcases List.mem_cons.mp hm with rfl | h
          · exact Or.inr List.mem_cons_self
          · exact (ih h).imp_right (List.mem_cons_of_mem _)

/-- A new member adds its own key and value to what must be valid. -/
theorem validMembers_insertMember {key : Bytes} (value : Json) {members : List (Bytes × Json)}
    (hkey : ∀ m ∈ members, m.1 ≠ key) :
    validMembers (insertMember key value members) =
      (validUtf8 key && value.valid && validMembers members) := by
  induction members with
  | nil => rfl
  | cons m members ih =>
      obtain ⟨k, v⟩ := m
      have hne : key ≠ k := (hkey (k, v) List.mem_cons_self).symm
      have hrest := ih fun m hm => hkey m (List.mem_cons_of_mem _ hm)
      rw [insertMember, if_neg hne]
      split
      · rfl
      · rw [validMembers, validMembers, hrest]
        ac_rfl

end Json

end LogMind
