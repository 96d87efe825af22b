import LogMind.Library.Lines
import LogMind.Pipeline.AlertDelivery

/-!
# The log of the alerts

`StdoutAlert` writes a line for each alert and, indented, one for each of its first entries; a last
one names the number of the others. `send` holds the mutex of the plugin, so the alerts of several
workers do not mix. Without line feeds in the messages, a reader of the log finds the alerts again.
-/

namespace LogMind

/-- The plugin and what its stream was given. -/
structure StdoutAlert where
  maxEntries : Nat := 3
  text : Bytes := []

namespace StdoutAlert

def newline : Bytes := [10]

def isNewline (c : UInt8) : Bool := c == 10

/-- The line of an alert. -/
def header (ctx : AlertContext) : Bytes :=
  ascii "[ALERT " ++ ctx.severity ++ ascii "] rule=" ++ ctx.ruleName ++ ascii " entries=" ++
    ascii (toString ctx.entries.length) ++ ascii " :: " ++ ctx.summary

def entryLine (entry : LogEntry) : Bytes :=
  ascii "    " ++ entry.level.name ++ ascii " [" ++ entry.module ++ ascii "] " ++ entry.message

def moreLine (count : Nat) : Bytes :=
  ascii "    ... and " ++ ascii (toString count) ++ ascii " more"

/-- The loop of `send`. -/
def showEntries (maxEntries total : Nat) : Nat → List LogEntry → Bytes
  | _, [] => []
  | shown, entry :: entries =>
      if maxEntries ≤ shown then moreLine (total - maxEntries) ++ newline
      else entryLine entry ++ newline ++ showEntries maxEntries total (shown + 1) entries

def send (a : StdoutAlert) (ctx : AlertContext) : StdoutAlert :=
  { a with text := a.text ++ header ctx ++ newline ++
      showEntries a.maxEntries ctx.entries.length 0 ctx.entries }

/-- The lines of an alert. -/
def alertLines (maxEntries : Nat) (ctx : AlertContext) : List Bytes :=
  header ctx :: ((ctx.entries.take maxEntries).map entryLine ++
    if maxEntries < ctx.entries.length then [moreLine (ctx.entries.length - maxEntries)] else [])

/-- Neither the modules nor the messages hold a line feed. -/
def OneLine (entries : List LogEntry) : Prop :=
  ∀ entry ∈ entries, 10 ∉ entry.module ∧ 10 ∉ entry.message

variable {maxEntries total shown : Nat} {entries : List LogEntry} {ctx : AlertContext}

theorem showEntries_eq (maxEntries total shown : Nat) (entries : List LogEntry) :
    showEntries maxEntries total shown entries =
      ((entries.take (maxEntries - shown)).map entryLine ++
        if maxEntries - shown < entries.length then [moreLine (total - maxEntries)] else []).flatMap
          (· ++ newline) := by
  induction entries generalizing shown with
  | nil => simp [showEntries]
  | cons entry entries ih =>
      rw [showEntries]
      split
      case isTrue hshown =>
        have hmore : 0 < (entry :: entries).length := Nat.succ_pos _
        rw [Nat.sub_eq_zero_of_le hshown, if_pos hmore, List.take_zero]
        simp
      case isFalse hshown =>
        obtain ⟨left, hleft⟩ : ∃ left, maxEntries - shown = left + 1 :=
          ⟨maxEntries - shown - 1, by omega⟩
        have hnext : maxEntries - (shown + 1) = left := by omega
        rw [ih, hnext, hleft, List.take_succ_cons, List.map_cons, List.length_cons,
          List.cons_append, List.flatMap_cons]
        simp only [Nat.add_lt_add_iff_right]

theorem send_text (a : StdoutAlert) (ctx : AlertContext) :
    (a.send ctx).text = a.text ++ (alertLines a.maxEntries ctx).flatMap (· ++ newline) := by
  rw [send, alertLines, List.flatMap_cons, showEntries_eq]
  simp only [List.append_assoc]
  rfl

theorem sends_text (a : StdoutAlert) (ctxs : List AlertContext) :
    (ctxs.foldl send a).text =
      a.text ++ (ctxs.flatMap (alertLines a.maxEntries)).flatMap (· ++ newline) := by
  induction ctxs generalizing a with
  | nil => simp
  | cons ctx ctxs ih =>
      rw [List.foldl_cons, ih, send_text, List.flatMap_cons, List.flatMap_append,
        List.append_assoc]
      rfl

/-! ## The lines of the log -/

/-- No text of the alert holds a line feed. -/
structure Plain (ctx : AlertContext) : Prop where
  severity : 10 ∉ ctx.severity
  ruleName : 10 ∉ ctx.ruleName
  summary : 10 ∉ ctx.summary
  entries : OneLine ctx.entries

theorem notMem_name (level : LogLevel) : 10 ∉ level.name := by
  cases level <;> decide

theorem notMem_severityOf (level : LogLevel) : 10 ∉ Pipeline.severityOf level := by
  cases level <;> decide

theorem notMem_nat (k : Nat) : 10 ∉ ascii (toString k) :=
  fun h => absurd (isDigit_of_mem_nat h) (by decide)

theorem contextOf_plain (rule : AlertRule) (triggeredAt : Int) (scanned : Nat) {first : LogEntry}
    {triggered : List LogEntry} (hfirst : first ∈ triggered) (h : OneLine triggered) :
    Plain (Alerting.contextOf rule triggeredAt scanned first triggered) where
  severity := notMem_severityOf _
  ruleName := by
    simp only [Alerting.contextOf, List.mem_append, not_or]
    exact ⟨by decide, notMem_name _⟩
  summary := by
    simp only [Alerting.contextOf, List.mem_append, not_or]
    exact ⟨⟨⟨⟨notMem_nat _, by decide⟩, notMem_name _⟩, by decide⟩, (h first hfirst).2⟩
  entries := h

theorem notMem_alertLines (h : Plain ctx) :
    ∀ line ∈ alertLines maxEntries ctx, ∀ c ∈ line, isNewline c = false := by
  have hnot : ∀ line ∈ alertLines maxEntries ctx, 10 ∉ line := by
    intro line hline
    rcases List.mem_cons.mp hline with rfl | hline
    · simp only [header, List.mem_append, not_or]
      exact ⟨⟨⟨⟨⟨⟨⟨by decide, h.severity⟩, by decide⟩, h.ruleName⟩, by decide⟩, notMem_nat _⟩,
        by decide⟩, h.summary⟩
    rcases List.mem_append.mp hline with hline | hline
    · obtain ⟨entry, hentry, rfl⟩ := List.mem_map.mp hline
      have htexts := h.entries entry (List.mem_of_mem_take hentry)
      simp only [entryLine, List.mem_append, not_or]
      exact ⟨⟨⟨⟨⟨by decide, notMem_name _⟩, by decide⟩, htexts.1⟩, by decide⟩, htexts.2⟩
    · split at hline
      · rw [List.mem_singleton.mp hline]
        simp only [moreLine, List.mem_append, not_or]
        exact ⟨⟨by decide, notMem_nat _⟩, by decide⟩
      · exact absurd hline List.not_mem_nil
  intro line hline c hc
  exact beq_eq_false_iff_ne.mpr fun heq => hnot line hline (heq ▸ hc)

/-- A line that begins an alert. -/
def Heads (line : Bytes) : Bool := line.head? == some 91

/-- The first line of an alert is the only one that is not indented. -/
theorem filter_alertLines (maxEntries : Nat) (ctx : AlertContext) :
    (alertLines maxEntries ctx).filter Heads = [header ctx] := by
  have hentries : ∀ line ∈ (ctx.entries.take maxEntries).map entryLine ++
      if maxEntries < ctx.entries.length then [moreLine (ctx.entries.length - maxEntries)] else [],
        ¬ Heads line = true := by
    intro line hline
    rcases List.mem_append.mp hline with hline | hline
    · obtain ⟨entry, -, rfl⟩ := List.mem_map.mp hline
      exact Bool.not_eq_true _ |>.mpr rfl
    · split at hline
      · rw [List.mem_singleton.mp hline]
        exact Bool.not_eq_true _ |>.mpr rfl
      · exact absurd hline List.not_mem_nil
  have hheader : Heads (header ctx) = true := rfl
  rw [alertLines, List.filter_cons_of_pos hheader, List.filter_eq_nil_iff.mpr hentries]

/-- What was written is read back, a line at a time. -/
theorem lines_sends (a : StdoutAlert) {ctxs : List AlertContext} (h : ∀ ctx ∈ ctxs, Plain ctx)
    (hwhole : Lines.tail isNewline a.text = []) :
    Lines.lines isNewline (ctxs.foldl send a).text =
        Lines.lines isNewline a.text ++ ctxs.flatMap (alertLines a.maxEntries) := by
  have hplain : ∀ line ∈ ctxs.flatMap (alertLines a.maxEntries), ∀ c ∈ line,
      isNewline c = false := by
    intro line hline
    obtain ⟨ctx, hctx, hline⟩ := List.mem_flatMap.mp hline
    exact notMem_alertLines (h ctx hctx) line hline
  have hlines := Lines.lines_flatMap isNewline hplain (d := 10) rfl []
  rw [List.append_nil, Lines.lines_nil, List.append_nil] at hlines
  rw [sends_text, Lines.lines_append, hwhole, List.nil_append]
  exact congrArg _ hlines

/-! ## The log of a run -/

open AlertThreads

variable {π : Type*} {n : Nat} {sendOf : π → Alert}

theorem plain_of_deliveries {s : Alerting} {jobs : List (AlertJob π)}
    (hentries : ∀ job ∈ jobs, OneLine job.entries) {delivery : π × AlertContext}
    (h : delivery ∈ s.deliveries sendOf jobs) : Plain delivery.2 := by
  obtain ⟨job, hjob, rule, first, triggered, hcontext, hfirst, hsubset⟩ :=
    context_of_deliveries h
  rw [hcontext]
  exact contextOf_plain rule job.triggeredAt job.entries.length hfirst
    fun entry hentry => hentries job hjob entry (hsubset hentry)

/-- The log of a plugin that is in every snapshot, whatever the other plugins and the workers do:
its lines are those of the alerts in the order in which it received them, an alert begins at each
line that is not indented, and once no worker is in `run_alerts`, the numbers of entries in these
lines add up to `total_alerts`. -/
theorem run_log [DecidableEq π] {plugin : π} (a : StdoutAlert) (rule : AlertRule)
    (rateWindowStart : Int) {actions : List (AlertAction π n)} {s : AlertThreads π n}
    (hrun : Transition.run (step sendOf) { alerting := Alerting.start rule rateWindowStart }
      actions = some s)
    (honce : ∀ job ∈ jobs actions, job.plugins.count plugin = 1)
    (hentries : ∀ job ∈ jobs actions, OneLine job.entries)
    (hwhole : Lines.tail isNewline a.text = []) :
    let ctxs := sentTo plugin s.received
    let lines := ctxs.flatMap (alertLines a.maxEntries)
    Lines.lines isNewline (ctxs.foldl send a).text = Lines.lines isNewline a.text ++ lines ∧
      lines.filter Heads = ctxs.map header ∧
      ((∀ i, s.phases i = .idle) →
        (ctxs.map fun ctx => ctx.entries.length).sum = s.alerting.totalAlerts) := by
  intro ctxs lines
  obtain ⟨hsettled, hperm⟩ := known_inj (known_of_start rule rateWindowStart hrun)
  refine ⟨lines_sends a (fun ctx hctx => ?_) hwhole, ?_, fun hidle => ?_⟩
  · obtain ⟨delivery, hdelivery, rfl⟩ := List.mem_map.mp hctx
    exact plain_of_deliveries hentries
      (hperm.subset (List.mem_append_left _ (List.mem_of_mem_filter hdelivery)))
  · rw [List.filter_flatMap, List.map_eq_flatMap]
    exact List.flatMap_congr fun ctx _ => filter_alertLines a.maxEntries ctx
  · obtain ⟨hcounted, hawaited⟩ := settled_of_idle sendOf hidle
    have hsum := sum_sentTo_deliveries sendOf (Alerting.start rule rateWindowStart) honce
    rw [← hsettled, hcounted] at hsum
    rw [hawaited, List.append_nil] at hperm
    have hsame := ((hperm.filter fun delivery => delivery.1 = plugin).map Prod.snd).map
      fun ctx => ctx.entries.length
    rw [← hsum]
    exact hsame.sum_eq.trans (Nat.zero_add _).symm

theorem run_log_overlapping :
    let actions := overlapping (Fin.last 1) (Fin.castSucc (Fin.last 0))
    ∃ s, Transition.run (step firstThrows) { alerting := Alerting.start {} 0 } actions = some s ∧
      s.alerting.totalAlerts = 2 ∧
      let ctxs := sentTo false s.received
      let lines := ctxs.flatMap (alertLines 3)
      lines.length = 4 ∧
        Lines.lines isNewline (ctxs.foldl send { text := ascii "\n" }).text =
          Lines.lines isNewline (ascii "\n") ++ lines ∧
        lines.filter Heads = ctxs.map header ∧
        ((∀ i, s.phases i = .idle) →
          (ctxs.map fun ctx => ctx.entries.length).sum = s.alerting.totalAlerts) := by
  intro actions
  obtain ⟨s, hrun, htotal, hlength⟩ : ∃ s,
      Transition.run (step firstThrows) { alerting := Alerting.start {} 0 } actions = some s ∧
        s.alerting.totalAlerts = 2 ∧
        ((sentTo false s.received).flatMap (alertLines 3)).length = 4 := ⟨_, rfl, rfl, rfl⟩
  refine ⟨s, hrun, htotal, hlength, ?_⟩
  refine run_log { text := ascii "\n" } {} 0 hrun ?_ ?_ rfl
  · simp [actions, jobs, overlapping]
  · simp [actions, jobs, overlapping, OneLine, Alerting.timeout30, ascii]

end StdoutAlert

end LogMind
