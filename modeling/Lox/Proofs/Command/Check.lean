import Lox.Command.Line
import Lox.Proofs.Tree.Parsed

/-! Checking files and running them refuse the same source texts, and give the same reasons. -/

namespace Lox.Command

open Text

/-- The names of the globals before a program starts are those that a check takes for granted. -/
theorem names_start : start.2.store.names start.1 = Native.standard.map (·.name) := rfl

/-- The lines that say what is wrong with a source text. -/
def faultLines (source : Text) : List Text :=
  match parseKeyed? firstKey source with
  | .error errors => errors.map SourceError.line
  | .ok program =>
    (resolve (Native.standard.map (·.name)) true program).diagnostics.map fun d => "  " ++ d.line

section Source

variable {source : Text} (filename : Text)

theorem program?_error_ne_nil {ν : Type} {parsed : Parsed ν} {errors : List SourceError}
    (h : parsed.program? = .error errors) : errors ≠ [] := by
  rintro rfl
  unfold Parsed.program? at h
  split at h
  · cases h
  · rename_i hne
    rw [Except.error.inj h] at hne
    exact hne rfl

theorem checkSource_clean (h : faultLines source = []) :
    checkSource source filename = (.clean, [checkLine "✓" filename "no errors"]) := by
  unfold faultLines at h
  unfold checkSource
  cases hparse : parseKeyed? firstKey source with
  | error errors =>
    rw [hparse] at h
    exact absurd (List.map_eq_nil_iff.mp h) (program?_error_ne_nil hparse)
  | ok program =>
    rw [hparse] at h
    have hnone := List.map_eq_nil_iff.mp h
    dsimp only
    rw [hnone]
    rfl

/-- A check lists what is wrong under a heading. -/
theorem checkSource_faulty (h : faultLines source ≠ []) :
    ∃ found, checkSource source filename =
      (.faulty, checkLine "✗" filename found :: (faultLines source).map .reported) := by
  unfold faultLines at h ⊢
  unfold checkSource
  cases hparse : parseKeyed? firstKey source with
  | error errors =>
    dsimp only
    rw [List.map_map]
    exact ⟨_, rfl⟩
  | ok program =>
    rw [hparse] at h
    have hsome := mt List.map_eq_nil_iff.mpr h
    dsimp only
    rw [if_neg (by simpa using hsome), List.map_map]
    exact ⟨_, rfl⟩

variable (host : Host) (work : Nat)

private theorem code_of_finished {o : Outcome Unit} {e : Ending} (he : finished o = some e) :
    e.code ≠ ExitCode.dataError.number := by
  cases o with
  | done =>
    cases he
    exact (by decide : ExitCode.ok.number ≠ ExitCode.dataError.number)
  | failed =>
    cases he
    exact (by decide : ExitCode.software.number ≠ ExitCode.dataError.number)
  | exhausted => cases he

/-- A run of a text with nothing wrong in it is not refused. -/
theorem runSource_clean (h : faultLines source = []) {e : Ending}
    (he : runSource host work true source filename = some e) :
    e.code ≠ ExitCode.dataError.number := by
  unfold faultLines at h
  unfold runSource at he
  cases hparse : parseKeyed? firstKey source with
  | error errors =>
    rw [hparse] at h
    exact absurd (List.map_eq_nil_iff.mp h) (program?_error_ne_nil hparse)
  | ok program =>
    rw [hparse] at h he
    have hnone := List.map_eq_nil_iff.mp h
    rw [← names_start] at hnone
    dsimp only [runProgram] at he
    rw [if_neg (by simp [Resolved.hasErrors, hnone])] at he
    exact code_of_finished he

/-- A run lists what is wrong under a heading, and does nothing else. -/
theorem runSource_faulty (h : faultLines source ≠ []) :
    ∃ heading, runSource host work true source filename =
      some (refusal heading (faultLines source)) := by
  unfold faultLines at h ⊢
  unfold runSource
  cases hparse : parseKeyed? firstKey source with
  | error errors => exact ⟨_, rfl⟩
  | ok program =>
    rw [hparse] at h
    have hsome := mt List.map_eq_nil_iff.mpr h
    rw [← names_start] at hsome ⊢
    dsimp only [runProgram]
    rw [if_pos (by simpa [Resolved.hasErrors] using hsome)]
    exact ⟨_, rfl⟩

/-- A run of a source text ends with the code for faulty input. -/
def Refused (source filename : Text) : Prop :=
  ∃ work e, runSource host work true source filename = some e ∧ e.code = 65

theorem refused_iff : Refused host source filename ↔ faultLines source ≠ [] := by
  constructor
  · rintro ⟨work, e, hrun, hcode⟩ hnone
    exact runSource_clean filename host work hnone hrun hcode
  · intro h
    obtain ⟨heading, hrun⟩ := runSource_faulty filename host 0 h
    exact ⟨0, _, hrun, rfl⟩

end Source

section Files

variable (files : Files) {names : List Text} {name source : Text}

/-- No file of that name can be read. -/
def Files.Missing (name : Text) : Prop := files.read? (Path.resolve files.cwd name) = none

instance (name : Text) : Decidable (files.Missing name) :=
  inferInstanceAs (Decidable (_ = none))

theorem checkFile_of_missing (h : files.Missing name) : ∃ complaint,
    files.checkFile name = (.missing, [complaint]) := by
  unfold Files.checkFile Files.contents
  dsimp only
  rw [h]
  exact ⟨_, rfl⟩

theorem checkFile_of_read (h : files.read? (Path.resolve files.cwd name) = some source) :
    files.checkFile name = checkSource source name := by
  unfold Files.checkFile Files.contents
  dsimp only
  rw [h]

private theorem verdict_missing_iff : (files.checkFile name).1 = .missing ↔ files.Missing name := by
  cases hread : files.read? (Path.resolve files.cwd name) with
  | none =>
    obtain ⟨complaint, hcheck⟩ := checkFile_of_missing files hread
    simp [hcheck, Files.Missing, hread]
  | some source =>
    rw [checkFile_of_read files hread]
    by_cases h : faultLines source = []
    · simp [checkSource_clean name h, Files.Missing, hread]
    · obtain ⟨found, hcheck⟩ := checkSource_faulty name h
      simp [hcheck, Files.Missing, hread]

private theorem verdict_faulty_iff : (files.checkFile name).1 = .faulty ↔
    ∃ source, files.read? (Path.resolve files.cwd name) = some source ∧
      faultLines source ≠ [] := by
  cases hread : files.read? (Path.resolve files.cwd name) with
  | none =>
    obtain ⟨complaint, hcheck⟩ := checkFile_of_missing files hread
    simp [hcheck]
  | some source =>
    rw [checkFile_of_read files hread]
    by_cases h : faultLines source = []
    · simp [checkSource_clean name h, h]
    · obtain ⟨found, hcheck⟩ := checkSource_faulty name h
      simp [hcheck, h]

/-- The code of a check by what is found in the files. -/
theorem check_code (names : List Text) : (check files names).code =
    if ∃ name ∈ names, (files.checkFile name).1 = .missing then 66
    else if ∃ name ∈ names, (files.checkFile name).1 = .faulty then 65
    else 0 := by
  have hmem (v : Verdict) : ((names.map files.checkFile).map (·.1)).contains v ↔
      ∃ name ∈ names, (files.checkFile name).1 = v := by simp
  unfold check checkCode ending
  dsimp only
  rw [if_congr (hmem _) rfl (if_congr (hmem _) rfl rfl)]
  split_ifs <;> rfl

private theorem check_append (earlier later : List Text) :
    (check files (earlier ++ later)).transcript =
    (check files earlier).transcript ++ (check files later).transcript := by
  simp [check, ending]

private theorem printed_refusal (heading : Text) (lines : List Text) :
    (refusal heading lines).transcript.printed = [] := by
  simp [refusal, ending, Transcript.printed]

/-- A check and a run refuse the same source texts. If no file is missing, a check fails exactly if
a run of one of the files is refused; and for each file whose run is refused, the lines under its
heading are those under the heading of the run, which prints nothing. -/
theorem check_agrees_with_run (host : Host) (names : List Text) :
    ((∃ name ∈ names, files.Missing name) → (check files names).code = 66) ∧
    ((∀ name ∈ names, ¬ files.Missing name) →
      ((check files names).code = 65 ↔ ∃ name ∈ names, ∃ source,
        files.read? (Path.resolve files.cwd name) = some source ∧ Refused host source name) ∧
      ((check files names).code ≠ 65 → (check files names).code = 0)) ∧
    ∀ earlier name later source filename work e, names = earlier ++ name :: later →
      files.read? (Path.resolve files.cwd name) = some source →
      runSource host work true source filename = some e → e.code = 65 →
      ∃ heading found, ∃ lines : List Text,
        e.transcript = .complained heading :: lines.map .complained ∧
        (check files names).transcript = (check files earlier).transcript ++
          checkLine "✗" name found :: lines.map .reported ++ (check files later).transcript ∧
        e.transcript.printed = [] := by
  have hmissing : (∃ name ∈ names, (files.checkFile name).1 = .missing) ↔
      ∃ name ∈ names, files.Missing name := by simp only [verdict_missing_iff]
  refine ⟨fun h => by rw [check_code, if_pos (hmissing.mpr h)], fun hnone => ?_, ?_⟩
  · have hread : ¬ ∃ name ∈ names, files.Missing name := by
      rintro ⟨name, hname, h⟩
      exact hnone name hname h
    rw [check_code, if_neg (mt hmissing.mp hread)]
    simp only [refused_iff, verdict_faulty_iff]
    split_ifs with hfaulty
    · simp [hfaulty]
    · simp [hfaulty]
  · rintro earlier name later source filename work e rfl hread hrun h65
    have hfaulty := (refused_iff filename host).mp ⟨work, e, hrun, h65⟩
    obtain ⟨heading, hrefused⟩ := runSource_faulty filename host work hfaulty
    obtain ⟨found, hcheck⟩ := checkSource_faulty name hfaulty
    obtain rfl : refusal heading (faultLines source) = e := by
      rw [hrefused] at hrun
      exact Option.some.inj hrun
    refine ⟨heading, found, faultLines source, rfl, ?_, ?_⟩
    · rw [check_append]
      simp [check, ending, checkFile_of_read files hread, hcheck]
    · exact printed_refusal heading (faultLines source)

theorem check_agrees_with_run_pair :
    let files : Files := ⟨"/", fun path => if path = "/a" then some "print 1;" else
      if path = "/b" then some "return 1; print x;" else none⟩
    (check files ["a", "b"]).code = 65 ∧ (check files ["a", "c"]).code = 66 ∧
      ∃ heading found, ∃ lines : List Text,
        (runSource (.standard (.stopped 0)) 9 true "return 1; print x;" "b").map (·.transcript) =
          some (.complained heading :: lines.map .complained) ∧
        (check files ["a", "b"]).transcript = (check files ["a"]).transcript ++
          checkLine "✗" "b" found :: lines.map .reported := by
  intro files
  have hread : files.read? (Path.resolve files.cwd "b") = some "return 1; print x;" := by decide
  have hfaulty : faultLines "return 1; print x;" ≠ [] := by decide +kernel
  obtain ⟨heading, hrun⟩ := runSource_faulty "b" (.standard (.stopped 0)) 9 hfaulty
  have hpair := check_agrees_with_run files (.standard (.stopped 0)) ["a", "b"]
  have hmissing := check_agrees_with_run files (.standard (.stopped 0)) ["a", "c"]
  obtain ⟨heading, found, lines, htranscript, hcheck, -⟩ :=
    hpair.2.2 ["a"] "b" [] _ "b" 9 _ rfl hread hrun rfl
  refine ⟨(hpair.2.1 (by decide)).1.mpr ⟨"b", by simp, _, hread, _, _, hrun, rfl⟩,
    hmissing.1 ⟨"c", by simp, by decide⟩, heading, found, lines, ?_, ?_⟩
  · rw [hrun]
    exact congrArg some htranscript
  · simpa [check, ending] using hcheck

end Files

end Lox.Command
