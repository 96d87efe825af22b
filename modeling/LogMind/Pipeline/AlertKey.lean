import LogMind.Pipeline.Alerts
import LogMind.Plugins.SyslogCollector

/-!
# The fingerprint of an alert

`alert_key` puts the module, the level and the message side by side, with every run of
digits of the message as one `#`. The key ignores which numbers a message has, and it has
a bound. The separator is an ordinary character of a module and of a message, so the end of
the module cannot be told from the key.
-/

namespace LogMind

namespace Pipeline

/-- The second message is the first one with every run of digits replaced by another. -/
inductive Renumbered : Bytes → Bytes → Prop
  | nil : Renumbered [] []
  | text {c : UInt8} {message message' : Bytes} (hc : isDigit c = false)
      (rest : Renumbered message message') : Renumbered (c :: message) (c :: message')
  | run {digits digits' message message' : Bytes} (hne : digits ≠ []) (hne' : digits' ≠ [])
      (hdigits : ∀ c ∈ digits, isDigit c = true) (hdigits' : ∀ c ∈ digits', isDigit c = true)
      (hstop : message.head?.any isDigit = false) (hstop' : message'.head?.any isDigit = false)
      (rest : Renumbered message message') : Renumbered (digits ++ message) (digits' ++ message')

/-- The text in front of the message. -/
def keyHead (module : Bytes) (level : LogLevel) : Bytes :=
  module ++ ascii "|" ++ level.name ++ ascii "|"

theorem alertKey_eq (entry : LogEntry) :
    alertKey entry = normalize entry.message false (keyHead entry.module entry.level) := rfl

/-! ## Numbers -/

variable {message message' key : Bytes}

/-- The digits behind the first one of a run are skipped. -/
theorem normalize_digits {digits : Bytes} (hdigits : ∀ c ∈ digits, isDigit c = true) :
    normalize (digits ++ message) true key = normalize message true key := by
  induction digits with
  | nil => rfl
  | cons c digits ih =>
      have hc : isDigit c = true := hdigits c List.mem_cons_self
      rw [List.cons_append, normalize, if_pos hc, if_pos rfl]
      exact ih fun d hd => hdigits d (List.mem_cons_of_mem c hd)

/-- Behind a run it no longer matters that there was one. -/
theorem normalize_stop (hstop : message.head?.any isDigit = false) :
    normalize message true key = normalize message false key := by
  cases message with
  | nil => rfl
  | cons c message =>
      have hc : isDigit c = false := hstop
      simp [normalize, hc]

theorem normalize_run {digits : Bytes} (hne : digits ≠ [])
    (hdigits : ∀ c ∈ digits, isDigit c = true) (hstop : message.head?.any isDigit = false) :
    normalize (digits ++ message) false key = normalize message false (key ++ ascii "#") := by
  cases digits with
  | nil => exact absurd rfl hne
  | cons c digits =>
      have hc : isDigit c = true := hdigits c List.mem_cons_self
      have hrest : ∀ d ∈ digits, isDigit d = true := fun d hd =>
        hdigits d (List.mem_cons_of_mem c hd)
      rw [List.cons_append, normalize, if_pos hc, if_neg Bool.false_ne_true,
        normalize_digits hrest, normalize_stop hstop]

/-- Where the text is cut depends on the number of runs in front of it, not on their length. -/
theorem Renumbered.normalize_eq (h : Renumbered message message') (key : Bytes) :
    normalize message false key = normalize message' false key := by
  induction h generalizing key with
  | nil => rfl
  | text hc rest ih => simp only [normalize, hc, Bool.false_eq_true, if_false, ih]
  | run hne hne' hdigits hdigits' hstop hstop' rest ih =>
      rw [normalize_run hne hdigits hstop, normalize_run hne' hdigits' hstop', ih]

/-- A run is appended without a check of the length, and two runs never follow each other. -/
theorem normalize_length (message : Bytes) (inDigits : Bool) (key : Bytes) :
    (normalize message inDigits key).length ≤
      max 193 (key.length + if inDigits then 1 else 2) := by
  induction message generalizing inDigits key with
  | nil =>
      rw [normalize]
      omega
  | cons c message ih =>
      rw [normalize]
      cases hc : isDigit c with
      | true =>
          cases inDigits with
          | true => simpa using ih true key
          | false => simpa [ascii] using ih true (key ++ ascii "#")
      | false =>
          have hrest := ih false (key ++ [c])
          simp only [kAlertKeyMaxLen, List.length_append, List.length_singleton] at hrest ⊢
          split
          · contradiction
          · split
            · simp only [List.length_append, List.length_singleton]
              split <;> omega
            · simp only [Bool.false_eq_true, if_false] at hrest
              omega

theorem keyHead_length (module : Bytes) (level : LogLevel) :
    (keyHead module level).length = module.length + level.name.length + 2 := by
  simp [keyHead, ascii]
  omega

/-- The fingerprint ignores the numbers of a message, and its length has a bound. -/
theorem alertKey_ignores_numbers :
    (∀ entry entry' : LogEntry, entry.module = entry'.module → entry.level = entry'.level →
        Renumbered entry.message entry'.message → alertKey entry = alertKey entry') ∧
      ∀ entry : LogEntry, (alertKey entry).length ≤
        max 193 (entry.module.length + entry.level.name.length + 4) := by
  constructor
  · intro entry entry' hmodule hlevel hmessage
    rw [alertKey_eq, alertKey_eq, hmodule, hlevel]
    exact hmessage.normalize_eq _
  · intro entry
    have hlength := normalize_length entry.message false (keyHead entry.module entry.level)
    rwa [keyHead_length] at hlength

theorem Renumbered.append (text : Bytes) (htext : ∀ c ∈ text, isDigit c = false)
    (h : Renumbered message message') : Renumbered (text ++ message) (text ++ message') := by
  induction text with
  | nil => exact h
  | cons c text ih =>
      apply Renumbered.text
      · exact htext c List.mem_cons_self
      · exact ih fun d hd => htext d (List.mem_cons_of_mem c hd)

theorem no_digit_of_all {text : Bytes} (h : (text.all fun c => !isDigit c) = true) :
    ∀ c ∈ text, isDigit c = false := by
  intro c hc
  simpa using List.all_eq_true.mp h c hc

/-- Two runs of different lengths, the second one at the end. -/
theorem alertKey_ignores_numbers_timeout :
    alertKey { module := ascii "net", level := .error, message := ascii "took 7ms of 1000" } =
      alertKey { module := ascii "net", level := .error, message := ascii "took 31ms of 9" } := by
  apply alertKey_ignores_numbers.1
  · rfl
  · rfl
  · have hend : Renumbered (ascii "1000" ++ []) (ascii "9" ++ []) :=
      .run (by decide) (by decide) (List.all_eq_true.mp rfl) (List.all_eq_true.mp rfl) rfl rfl .nil
    have hbehind := hend.append (ascii "ms of ") (no_digit_of_all rfl)
    have hrun : Renumbered (ascii "7" ++ _) (ascii "31" ++ _) :=
      .run (by decide) (by decide) (List.all_eq_true.mp rfl) (List.all_eq_true.mp rfl) rfl rfl
        hbehind
    have hall := hrun.append (ascii "took ") (no_digit_of_all rfl)
    simpa [ascii] using hall

/-! ## Modules and levels -/

/-- The module of the second entry continues what stands in front of the first message, with
nothing in it that the fingerprint of a message could not have, and the two heads fit into
the key. -/
def Continues (module : Bytes) (level : LogLevel) (module' : Bytes) (level' : LogLevel) : Prop :=
  ∃ rest : Bytes, (rest = [] ∨ rest.head? = some 124) ∧ (∀ c ∈ rest, isDigit c = false) ∧
    module' = module ++ ascii "|" ++ level.name ++ rest ∧
    (keyHead module' level').length ≤ kAlertKeyMaxLen

theorem keyHead_cons (module : Bytes) (level : LogLevel) :
    keyHead module level = module ++ 124 :: (level.name ++ [124]) := by
  simp [keyHead, ascii]

theorem name_no_bar (level : LogLevel) : 124 ∉ level.name := by
  cases level <;> decide

theorem name_no_digit (level : LogLevel) : ∀ c ∈ level.name, isDigit c = false := by
  cases level <;> exact no_digit_of_all rfl

/-- A level name ends with a letter. -/
theorem name_concat (level : LogLevel) :
    ∃ front last, level.name = front ++ [last] ∧ last ≠ 35 := by
  cases level with
  | debug => exact ⟨ascii "DEBU", 71, by decide⟩
  | info => exact ⟨ascii "INF", 79, by decide⟩
  | warn => exact ⟨ascii "WAR", 78, by decide⟩
  | error => exact ⟨ascii "ERRO", 82, by decide⟩
  | fatal => exact ⟨ascii "FATA", 76, by decide⟩

theorem name_injective {level level' : LogLevel} (h : level.name = level'.name) :
    level = level' := by
  rw [← LogLevel.ofString_name level, h, LogLevel.ofString_name]

/-- A text with a separator in it goes beyond a level name in front of a separator. -/
theorem name_split {level : LogLevel} {text other tail : Bytes}
    (h : level.name ++ 124 :: text = other ++ 124 :: tail) :
    ∃ rest, other = level.name ++ rest ∧ 124 :: text = rest ++ 124 :: tail := by
  rcases List.append_eq_append_iff.mp h with ⟨rest, hother, htail⟩ | ⟨rest, hname, htail⟩
  · exact ⟨rest, hother, htail⟩
  · cases rest with
    | nil => exact ⟨[], by simpa using hname.symm, by simpa using htail.symm⟩
    | cons bar rest =>
        rw [List.cons_append, List.cons.injEq] at htail
        apply absurd _ (name_no_bar level)
        rw [hname, htail.1]
        simp

/-- A text without digits is appended as it is while it fits. -/
theorem normalize_text {text : Bytes} (htext : ∀ c ∈ text, isDigit c = false)
    (hfit : key.length + text.length ≤ kAlertKeyMaxLen) :
    normalize text false key = key ++ text := by
  induction text generalizing key with
  | nil => simp [normalize]
  | cons c text ih =>
      have hc : isDigit c = false := htext c List.mem_cons_self
      have hrest : ∀ d ∈ text, isDigit d = false := fun d hd =>
        htext d (List.mem_cons_of_mem c hd)
      rw [List.length_cons] at hfit
      rw [normalize, hc, if_neg Bool.false_ne_true]
      split
      · rename_i hfull
        rw [List.length_append, List.length_singleton] at hfull
        have hnil : text = [] := List.eq_nil_of_length_eq_zero (by omega)
        rw [hnil]
      · rw [ih hrest (by rw [List.length_append, List.length_singleton]; omega)]
        simp

/-- What is appended to the head has no digit, and behind a character other than a `#` it goes
on only while the key is below its bound. -/
theorem normalize_appends (message : Bytes) (inDigits : Bool) (key : Bytes) :
    ∃ text, normalize message inDigits key = key ++ text ∧ (∀ c ∈ text, isDigit c = false) ∧
      ∀ front c d rest, text = front ++ c :: d :: rest → c ≠ 35 →
        key.length + front.length + 1 < kAlertKeyMaxLen := by
  induction message generalizing inDigits key with
  | nil => exact ⟨[], by simp [normalize], by simp, by simp⟩
  | cons c message ih =>
      rw [normalize]
      cases hc : isDigit c with
      | true =>
          cases inDigits with
          | true => exact ih true key
          | false =>
              obtain ⟨text, heq, hdigits, hbound⟩ := ih true (key ++ ascii "#")
              refine ⟨35 :: text, by simpa [ascii] using heq, ?_, ?_⟩
              · intro d hd
                rcases List.mem_cons.mp hd with rfl | hd
                · rfl
                · exact hdigits d hd
              · intro front d e rest htext hne
                cases front with
                | nil => exact absurd (List.cons.inj htext).1.symm hne
                | cons first front =>
                    have hkey := hbound front d e rest (List.cons.inj htext).2 hne
                    have hhash : (ascii "#").length = 1 := rfl
                    rw [List.length_append] at hkey
                    rw [List.length_cons]
                    omega
      | false =>
          rw [if_neg Bool.false_ne_true]
          split
          · refine ⟨[c], rfl, by simpa using hc, ?_⟩
            intro front d e rest htext
            have hlength := congrArg List.length htext
            simp at hlength
            omega
          · rename_i hroom
            obtain ⟨text, heq, hdigits, hbound⟩ := ih false (key ++ [c])
            rw [List.length_append, List.length_singleton] at hroom
            refine ⟨c :: text, by simpa using heq, ?_, ?_⟩
            · intro d hd
              rcases List.mem_cons.mp hd with rfl | hd
              · exact hc
              · exact hdigits d hd
            · intro front d e rest htext hne
              cases front with
              | nil =>
                  simp only [List.length_nil]
                  omega
              | cons first front =>
                  have hkey := hbound front d e rest (List.cons.inj htext).2 hne
                  rw [List.length_append, List.length_singleton] at hkey
                  rw [List.length_cons]
                  omega

/-- Of two entries with one fingerprint, the longer module continues the shorter one. -/
theorem continues_of_alertKey_eq {entry entry' : LogEntry}
    (hkey : alertKey entry = alertKey entry')
    (hle : entry.module.length ≤ entry'.module.length) :
    (entry.module = entry'.module ∧ entry.level = entry'.level) ∨
      Continues entry.module entry.level entry'.module entry'.level := by
  obtain ⟨text, htext, hdigits, hbound⟩ :=
    normalize_appends entry.message false (keyHead entry.module entry.level)
  obtain ⟨text', htext', -, -⟩ :=
    normalize_appends entry'.message false (keyHead entry'.module entry'.level)
  rw [alertKey_eq, alertKey_eq, htext, htext', keyHead_cons, keyHead_cons] at hkey
  simp only [List.append_assoc, List.cons_append, List.nil_append] at hkey
  obtain ⟨between, hmodule, hrest⟩ : ∃ between, entry'.module = entry.module ++ between ∧
      124 :: (entry.level.name ++ 124 :: text) =
        between ++ 124 :: (entry'.level.name ++ 124 :: text') := by
    rcases List.append_eq_append_iff.mp hkey with
      ⟨between, hmodule, hrest⟩ | ⟨between, hmodule, hrest⟩
    · exact ⟨between, hmodule, hrest⟩
    · have hnil : between = [] := by
        apply List.eq_nil_of_length_eq_zero
        rw [hmodule, List.length_append] at hle
        omega
      subst hnil
      exact ⟨[], by simpa using hmodule.symm, by simpa using hrest.symm⟩
  cases between with
  | nil =>
      -- the modules agree, and a level name ends at its separator
      rw [List.nil_append, List.cons_inj_right] at hrest
      obtain ⟨rest, hname, htail⟩ := name_split hrest
      cases rest with
      | nil => exact .inl ⟨by simpa using hmodule.symm, name_injective (by simpa using hname.symm)⟩
      | cons bar rest =>
          rw [List.cons_append, List.cons.injEq] at htail
          apply absurd _ (name_no_bar entry'.level)
          rw [hname, htail.1]
          simp
  | cons first between =>
      rw [List.cons_append, List.cons.injEq] at hrest
      obtain ⟨hfirst, hrest⟩ := hrest
      subst hfirst
      obtain ⟨rest, hbetween, htail⟩ := name_split hrest
      refine .inr ⟨rest, ?_, ?_, ?_, ?_⟩
      · cases rest with
        | nil => exact .inl rfl
        | cons bar rest =>
            rw [List.cons_append, List.cons.injEq] at htail
            exact .inr (congrArg some htail.1.symm)
      · intro c hc
        have hmem : c ∈ 124 :: text := by
          rw [htail]
          exact List.mem_append_left _ hc
        rcases List.mem_cons.mp hmem with rfl | hmem
        · rfl
        · exact hdigits c hmem
      · rw [hmodule, hbetween]
        simp [ascii]
      · -- the last letter of the level name is in the text, and more follows it
        obtain ⟨front, last, hname, hlast⟩ := name_concat entry'.level
        have hsplit : text = (rest ++ 124 :: front).tail ++ last :: 124 :: text' := by
          have hcons := congrArg List.tail htail
          rw [List.tail_cons, hname] at hcons
          rw [hcons]
          cases rest <;> simp
        have hlt := hbound _ _ _ _ hsplit hlast
        rw [keyHead_length, List.length_tail, List.length_append, List.length_cons] at hlt
        rw [keyHead_length, hmodule, hbetween, hname]
        simp only [List.length_append, List.length_cons, List.length_nil]
        omega

/-- A module that continues another one is imitated by a message. -/
theorem Continues.imitated {module module' : Bytes} {level level' : LogLevel}
    (h : Continues module level module' level') : ∃ message : Bytes,
      normalize message false (keyHead module level) = keyHead module' level' := by
  obtain ⟨rest, hbar, hdigits, hmodule, hfit⟩ := h
  have hhead : keyHead module' level' =
      keyHead module level ++ (rest ++ 124 :: (level'.name ++ [124])).tail := by
    rw [keyHead_cons, keyHead_cons, hmodule]
    rcases hbar with rfl | hbar
    · simp [ascii]
    · cases rest with
      | nil => cases hbar
      | cons bar rest =>
          obtain rfl : bar = 124 := by simpa using hbar
          simp [ascii]
  refine ⟨(rest ++ 124 :: (level'.name ++ [124])).tail, ?_⟩
  rw [hhead]
  apply normalize_text
  · intro c hc
    have hmem := List.mem_of_mem_tail hc
    simp only [List.mem_append, List.mem_cons, List.not_mem_nil, or_false] at hmem
    rcases hmem with hmem | rfl | hmem | rfl
    · exact hdigits c hmem
    · rfl
    · exact name_no_digit level' c hmem
    · rfl
  · rwa [hhead, List.length_append] at hfit

theorem Continues.module_lt {module module' : Bytes} {level level' : LogLevel}
    (h : Continues module level module' level') : module.length < module'.length := by
  obtain ⟨rest, -, -, hmodule, -⟩ := h
  have hbar : (ascii "|").length = 1 := rfl
  rw [hmodule]
  simp only [List.length_append]
  omega

/-- The fingerprints of two pairs of a module and a level are different whatever the messages
are exactly if none of the two modules continues the other one. -/
theorem alertKey_separates_iff (module module' : Bytes) (level level' : LogLevel) :
    (∀ entry entry' : LogEntry, entry.module = module → entry.level = level →
        entry'.module = module' → entry'.level = level' → alertKey entry = alertKey entry' →
          module = module' ∧ level = level') ↔
      ¬ Continues module level module' level' ∧ ¬ Continues module' level' module level := by
  constructor
  · intro hsep
    constructor
    · intro h
      obtain ⟨message, hmessage⟩ := h.imitated
      have heq := hsep { module := module, level := level, message := message }
        { module := module', level := level' } rfl rfl rfl rfl hmessage
      exact absurd (congrArg List.length heq.1) (Nat.ne_of_lt h.module_lt)
    · intro h
      obtain ⟨message, hmessage⟩ := h.imitated
      have heq := hsep { module := module, level := level }
        { module := module', level := level', message := message } rfl rfl rfl rfl hmessage.symm
      exact absurd (congrArg List.length heq.1) (Nat.ne_of_gt h.module_lt)
  · rintro ⟨hleft, hright⟩ entry entry' rfl rfl rfl rfl hkey
    rcases Nat.le_total entry.module.length entry'.module.length with hle | hle
    · rcases continues_of_alertKey_eq hkey hle with heq | hcontinues
      · exact heq
      · exact absurd hcontinues hleft
    · rcases continues_of_alertKey_eq hkey.symm hle with heq | hcontinues
      · exact ⟨heq.1.symm, heq.2.symm⟩
      · exact absurd hcontinues hright

/-- Two lines that the syslog collector reads, with one fingerprint. -/
theorem alertKey_confuses_lines : ∃ entry entry' : LogEntry,
    SyslogCollector.parseOne 0 (ascii "[ERROR] [a] FATAL|c") = some entry ∧
      SyslogCollector.parseOne 0 (ascii "[FATAL] a|ERROR[1]: c") = some entry' ∧
      alertKey entry = alertKey entry' ∧ entry.module ≠ entry'.module ∧
      entry.level ≠ entry'.level :=
  ⟨_, _, rfl, rfl, by decide, by decide, by decide⟩

end Pipeline

end LogMind
