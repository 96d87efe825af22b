import LogMind.Core.LogEntry

/-!
# Running the analyzers

An analyzer takes the batch by value and may throw. The call moves the batch into
the parameter, and a moved-from `std::vector` is empty, so after a throw the loop
of `run_analyzers` goes on with the empty batch. `applySurvivors` is what the
loop is for: the analyzers that do not throw applied in order, with the number of
those that do.
-/

namespace LogMind

/-- The call of one analyzer on a batch; `none` is a `std::exception`. -/
abbrev Analyzer := List LogEntry → Option (List LogEntry)

namespace Pipeline

/-- `run_analyzers`, with `total_errors` before and after. -/
def runAnalyzers : List Analyzer → List LogEntry → Nat → List LogEntry × Nat
  | [], entries, totalErrors => (entries, totalErrors)
  | analyze :: analyzers, entries, totalErrors =>
      match analyze entries with
      | some result =>
          if result.isEmpty then (result, totalErrors)
          else runAnalyzers analyzers result totalErrors
      -- the catch branch resumes with the moved-from vector
      | none => runAnalyzers analyzers [] (totalErrors + 1)

/-- What `process_entries` passes to `run_alerts` and the output callback. -/
def processEntries (analyzers : List Analyzer) (entries : List LogEntry) :
    Option (List LogEntry) :=
  if entries.isEmpty then none
  else
    let result := (runAnalyzers analyzers entries 0).1
    if result.isEmpty then none else some result

/-- Only the analyzers that do not throw, and how many of them did. -/
def applySurvivors : List Analyzer → List LogEntry → List LogEntry × Nat
  | [], entries => (entries, 0)
  | analyze :: analyzers, entries =>
      match analyze entries with
      | some result => if result.isEmpty then (result, 0) else applySurvivors analyzers result
      | none =>
          ((applySurvivors analyzers entries).1, (applySurvivors analyzers entries).2 + 1)

/-- The batch the first analyzer to throw is called with, and those behind it. -/
def firstThrow : List Analyzer → List LogEntry → Option (List LogEntry × List Analyzer)
  | [], _ => none
  | analyze :: analyzers, entries =>
      match analyze entries with
      | some result => if result.isEmpty then none else firstThrow analyzers result
      | none => some (entries, analyzers)

/-- It makes no entries of the empty batch. -/
def MakesNothing (analyze : Analyzer) : Prop := ∀ result, analyze [] = some result → result = []

/-- A throw loses nothing: the result is that of the surviving analyzers, and
`total_errors` grows by the number of the others. -/
def ThrowLosesNothing (analyzers : List Analyzer) (entries : List LogEntry) : Prop :=
  ∀ totalErrors, runAnalyzers analyzers entries totalErrors =
    ((applySurvivors analyzers entries).1,
      totalErrors + (applySurvivors analyzers entries).2)

/-- The counter is only ever added to. -/
theorem runAnalyzers_totalErrors (analyzers : List Analyzer) (entries : List LogEntry)
    (totalErrors : Nat) :
    runAnalyzers analyzers entries totalErrors =
      ((runAnalyzers analyzers entries 0).1,
        totalErrors + (runAnalyzers analyzers entries 0).2) := by
  induction analyzers generalizing entries totalErrors with
  | nil => rfl
  | cons analyze analyzers ih =>
      simp only [runAnalyzers]
      cases analyze entries with
      | none =>
          simp only
          rw [ih [] (totalErrors + 1), ih [] (0 + 1)]
          simp [Nat.add_assoc]
      | some result =>
          simp only
          split
          · rfl
          · exact ih result totalErrors

theorem throwLosesNothing_iff (analyzers : List Analyzer) (entries : List LogEntry) :
    ThrowLosesNothing analyzers entries ↔
      runAnalyzers analyzers entries 0 = applySurvivors analyzers entries := by
  constructor
  · intro h
    rw [h 0, Nat.zero_add]
  · intro h totalErrors
    rw [runAnalyzers_totalErrors, h]

/-- While no analyzer throws, the loop does what it is for. -/
theorem runAnalyzers_of_firstThrow_none {analyzers : List Analyzer} {entries : List LogEntry}
    (h : firstThrow analyzers entries = none) :
    runAnalyzers analyzers entries 0 = applySurvivors analyzers entries := by
  induction analyzers generalizing entries with
  | nil => rfl
  | cons analyze analyzers ih =>
      simp only [firstThrow, runAnalyzers, applySurvivors] at h ⊢
      cases hcall : analyze entries with
      | none => simp [hcall] at h
      | some result =>
          simp only [hcall] at h ⊢
          split
          · rfl
          · rename_i hresult
            rw [if_neg hresult] at h
            exact ih h

/-- From the first throw on, the loop runs on the empty batch and the survivors
on the batch that was moved away. -/
theorem runAnalyzers_of_firstThrow_some {analyzers rest : List Analyzer}
    {entries batch : List LogEntry} (h : firstThrow analyzers entries = some (batch, rest)) :
    runAnalyzers analyzers entries 0 = runAnalyzers rest [] 1 ∧
      applySurvivors analyzers entries =
        ((applySurvivors rest batch).1, (applySurvivors rest batch).2 + 1) := by
  induction analyzers generalizing entries with
  | nil => simp [firstThrow] at h
  | cons analyze analyzers ih =>
      simp only [firstThrow, runAnalyzers, applySurvivors] at h ⊢
      cases hcall : analyze entries with
      | none =>
          simp only [hcall, Option.some.injEq, Prod.mk.injEq] at h ⊢
          obtain ⟨rfl, rfl⟩ := h
          exact ⟨rfl, rfl, rfl⟩
      | some result =>
          simp only [hcall] at h ⊢
          split
          · rename_i hresult
            rw [if_pos hresult] at h
            simp at h
          · rename_i hresult
            rw [if_neg hresult] at h
            exact ih h

theorem mem_of_firstThrow {analyzers rest : List Analyzer} {entries batch : List LogEntry}
    (h : firstThrow analyzers entries = some (batch, rest)) {analyze : Analyzer}
    (hmem : analyze ∈ rest) : analyze ∈ analyzers := by
  induction analyzers generalizing entries with
  | nil => simp [firstThrow] at h
  | cons first analyzers ih =>
      simp only [firstThrow] at h
      cases hcall : first entries with
      | none =>
          simp only [hcall, Option.some.injEq, Prod.mk.injEq] at h
          obtain ⟨-, rfl⟩ := h
          exact List.mem_cons_of_mem _ hmem
      | some result =>
          simp only [hcall] at h
          split at h
          · cases h
          · exact List.mem_cons_of_mem _ (ih h)

/-- What is lost is lost behind the first throw. -/
theorem throwLosesNothing_iff_of_firstThrow {analyzers rest : List Analyzer}
    {entries batch : List LogEntry} (h : firstThrow analyzers entries = some (batch, rest)) :
    ThrowLosesNothing analyzers entries ↔ runAnalyzers rest [] 0 = applySurvivors rest batch := by
  obtain ⟨hloop, hsurvivors⟩ := runAnalyzers_of_firstThrow_some h
  rw [throwLosesNothing_iff, hloop, hsurvivors, runAnalyzers_totalErrors rest [] 1]
  constructor
  · intro hsame
    obtain ⟨hbatch, hcount⟩ := Prod.mk.inj hsame
    exact Prod.ext hbatch (by omega)
  · intro hsame
    rw [hsame, Nat.add_comm]

/-- A throw on the empty batch moves nothing away. -/
theorem runAnalyzers_nil {analyzers : List Analyzer}
    (h : ∀ analyze ∈ analyzers, MakesNothing analyze) :
    runAnalyzers analyzers [] 0 = applySurvivors analyzers [] := by
  induction analyzers with
  | nil => rfl
  | cons analyze analyzers ih =>
      obtain ⟨hfirst, hrest⟩ := List.forall_mem_cons.mp h
      simp only [runAnalyzers, applySurvivors]
      cases hcall : analyze [] with
      | none =>
          simp only
          rw [runAnalyzers_totalErrors, ih hrest, Nat.add_comm]
      | some result =>
          obtain rfl := hfirst result hcall
          rfl

/-- Without a throw nothing is lost. Where no analyzer makes entries of the empty batch, a throw
loses nothing exactly when the analyzers behind the first one to throw would make of its batch what
they make of the empty one. -/
theorem throwLosesNothing_of_firstThrow (analyzers : List Analyzer) (entries : List LogEntry) :
    (firstThrow analyzers entries = none → ThrowLosesNothing analyzers entries) ∧
      ((∀ analyze ∈ analyzers, MakesNothing analyze) →
        (ThrowLosesNothing analyzers entries ↔
          ∀ batch rest, firstThrow analyzers entries = some (batch, rest) →
            applySurvivors rest batch = applySurvivors rest [])) := by
  refine ⟨fun h => (throwLosesNothing_iff _ _).mpr (runAnalyzers_of_firstThrow_none h),
    fun hnothing => ?_⟩
  cases hfirst : firstThrow analyzers entries with
  | none =>
      refine iff_of_true ?_ nofun
      exact (throwLosesNothing_iff _ _).mpr (runAnalyzers_of_firstThrow_none hfirst)
  | some found =>
      obtain ⟨batch, rest⟩ := found
      have hrest : ∀ analyze ∈ rest, MakesNothing analyze := fun analyze hmem =>
        hnothing analyze (mem_of_firstThrow hfirst hmem)
      rw [throwLosesNothing_iff_of_firstThrow hfirst, runAnalyzers_nil hrest]
      constructor
      · intro hsame b r hfound
        obtain ⟨rfl, rfl⟩ := Prod.mk.inj (Option.some.inj hfound)
        exact hsame.symm
      · exact fun hsame => (hsame batch rest rfl).symm

/-- One analyzer throws on what another hands on, and a third would drop it anyway. -/
theorem throwLosesNothing_of_firstThrow_dropped :
    let keep : Analyzer := some
    let fail : Analyzer := fun _ => none
    let drop : Analyzer := fun _ => some []
    let entry : LogEntry := { message := ascii "disk full" }
    ThrowLosesNothing [keep] [entry] ∧ ThrowLosesNothing [keep, fail, drop] [entry] := by
  intro keep fail drop entry
  refine ⟨(throwLosesNothing_of_firstThrow [keep] [entry]).1 rfl,
    ((throwLosesNothing_of_firstThrow [keep, fail, drop] [entry]).2 ?_).mpr ?_⟩
  · simp [keep, fail, drop, MakesNothing]
  · rintro batch rest ⟨rfl, rfl⟩
    rfl

/-- A single analyzer that throws loses the whole batch, and neither the alerts
nor the output callback see it. -/
theorem throw_loses_batch :
    let entry : LogEntry := { message := ascii "disk full" }
    ¬ ThrowLosesNothing [fun _ => none] [entry] ∧
      applySurvivors [fun _ => none] [entry] = ([entry], 1) ∧
      processEntries [fun _ => none] [entry] = none := by
  refine ⟨?_, rfl, rfl⟩
  intro h
  have hresult := congrArg Prod.fst (h 0)
  simp [runAnalyzers, applySurvivors] at hresult

end Pipeline

end LogMind
