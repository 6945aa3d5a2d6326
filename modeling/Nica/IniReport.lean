import Nica.IniMerge

/-! # The report of a failed parse

`nc_ini_error` and `nc_ini_file_parse` of `inifile.c`.  What `nc_ini_file_parse` prints to `stderr`
is a string beside its result.  A report names the first line with which the file cannot be read:
the lines before it make a file that is read, and nothing behind it changes the report
(`parse_reports_line`). -/

namespace Nica

open CString NcHashmap Fueled

/-- `_errors`, whose entry for `NC_INI_ERROR_FILE` is empty. -/
def errors : List String :=
  ["", "Encountered empty key", "Expected closing ']' for section",
    "Encountered key=value mapping without a valid section", "Expected key=value notation",
    "A fatal internal error was encountered"]

/-- `nc_ini_error`; `NC_INI_ERROR_MAX` is 7. -/
def ncIniError (error : ℤ) : String :=
  let j := error.natAbs
  if j < 1 ∨ j ≥ 7 then "[Unknown Error]" else errors.getD (j - 1) ""

/-- What `nc_ini_file_parse` returns and prints when the parser is done; `strerror` is the text of
`errno` then. -/
def reportOutcome (strerror path : String) (r : Outcome) : Option IniMap × String :=
  if r.ret ≠ 0 then
    if r.ret.natAbs = 1 then (none, "[inifile] " ++ strerror ++ ": " ++ path ++ "\n")
    else (none, "[inifile] " ++ ncIniError r.ret ++ " [L" ++ toString (r.errorLine.getD 0) ++
      "]: " ++ path ++ "\n")
  else (r.outMap, "")

/-- `nc_ini_file_parse`. -/
def ncIniFileParse (fuel : ℕ) (slack : ℕ → Bytes) (file : Option Bytes) (strerror path : String) :
    Except Stop (Option IniMap × String) := do
  let r ← ncIniFileParseFull fuel slack file true true
  .ok (reportOutcome strerror path r)

/-- Every error of a line has a text of its own. -/
theorem ncIniError_injective {err err' : NcIniError}
    (h : ncIniError (-err.code) = ncIniError (-err'.code)) : err = err' := by
  cases err <;> cases err' <;> first | rfl | exact absurd h (by decide)

/-! ### Errors of the first lines -/

theorem errorAt_take {read : Bool → Bytes → Line} {ls : List Bytes} {n j : ℕ} (hj : j < n) :
    errorAt read (ls.take n) j = errorAt read ls j := by
  by_cases hlen : j < ls.length
  · have htake : j < (ls.take n).length := by
      rw [List.length_take]
      omega
    conv_rhs => rw [← List.take_append_drop n ls, errorAt_append_left htake]
  · rw [errorAt_none_of_length_le (Nat.le_of_not_lt hlen), errorAt_none_of_length_le]
    rw [List.length_take]
    omega

theorem stopAt_take {read : Bool → Bytes → Line} {ls : List Bytes} {n j : ℕ} (hj : j < n) :
    stopAt read (ls.take n) j = stopAt read ls j := by
  by_cases hlen : j < ls.length
  · have htake : j < (ls.take n).length := by
      rw [List.length_take]
      omega
    conv_rhs => rw [← List.take_append_drop n ls, stopAt_append_left htake]
  · rw [stopAt_none_of_length_le (Nat.le_of_not_lt hlen), stopAt_none_of_length_le]
    rw [List.length_take]
    omega

theorem passed_take {read : Bool → Bytes → Line} {ls : List Bytes} {n j : ℕ} (hj : j < n) :
    Passed read (ls.take n) j ↔ Passed read ls j := by
  rw [Passed, Passed, errorAt_take hj, stopAt_take hj]

/-- The grammar has no error of the file. -/
theorem errorAt_ne_file {ls : List Bytes} {i : ℕ} : errorAt classify ls i ≠ some .file := by
  unfold errorAt
  cases ls[i]? with
  | none => exact nofun
  | some l =>
      simp only
      generalize (sectionBefore classify (ls.take i)).isSome = b
      unfold classify
      simp only
      split_ifs <;> simp

/-! ### Reports -/

/-- The report of an error in line `n`. -/
def lineReport (path : String) (err : NcIniError) (n : ℕ) : String :=
  "[inifile] " ++ ncIniError (-err.code) ++ " [L" ++ toString n ++ "]: " ++ path ++ "\n"

theorem reportOutcome_failed {err : NcIniError} (herr : err ≠ .file) (strerror path : String)
    (n : ℕ) : reportOutcome strerror path ⟨-err.code, none, some n⟩ =
      (none, lineReport path err n) := by
  have hret : -err.code ≠ 0 := by
    have := err.code_pos
    omega
  have hfile : (-err.code).natAbs ≠ 1 := by
    cases err with
    | file => exact absurd rfl herr
    | emptyKey => decide
    | notClosed => decide
    | noSection => decide
    | invalidLine => decide
    | internal => decide
  rw [reportOutcome, if_pos hret, if_neg hfile]
  rfl

/-- A file is read, or the report names the first line with which it cannot be read: every file with
the same lines up to there has the same report, and the lines before make a file that is read. -/
theorem parse_reports_line (slack : ℕ → Bytes) (strerror path : String) {content : Bytes}
    (h0 : 0 ∉ content) (hn : (lines content).length < 2 ^ 29)
    (hg : Guarded classify (lines content)) :
    (∃ m, Returns (fun f => ncIniFileParse f slack (some content) strerror path) (some m, "") ∧
      Merged (lines content) m) ∨
    ∃ i err, errorAt classify (lines content) i = some err ∧
      (∀ j < i, errorAt classify (lines content) j = none) ∧
      ∀ (slack' : ℕ → Bytes) (other : Bytes), 0 ∉ other → (lines other).length < 2 ^ 29 →
        ((lines other).take (i + 1) = (lines content).take (i + 1) →
          Returns (fun f => ncIniFileParse f slack' (some other) strerror path)
            (none, lineReport path err (i + 1))) ∧
        (lines other = (lines content).take i → ∃ m,
          Returns (fun f => ncIniFileParse f slack' (some other) strerror path) (some m, "")) := by
  cases parse_ends_plain slack true h0 hn with
  | accepted hr B _ => exact .inl ⟨_, hr.bind (Returns.pure _), B.merged⟩
  | stopped _ hstop hall => exact (ParseEnds.not_stopped hg hstop hall).elim
  | @failed i err _ herr hstop hall =>
      have hfile : err ≠ .file := by
        rintro rfl
        exact errorAt_ne_file herr
      refine .inr ⟨i, err, herr, fun j hj => (hall j hj).1, fun slack' other h0' hn' => ⟨?_, ?_⟩⟩
      · -- the lines up to the error decide
        intro htake
        have hi : i < i + 1 := Nat.lt_succ_self i
        have herr' : errorAt classify (lines other) i = some err := by
          rw [← errorAt_take hi, htake, errorAt_take hi, herr]
        have hstop' : stopAt classify (lines other) i = none := by
          rw [← stopAt_take hi, htake, stopAt_take hi, hstop]
        have hfirst : ∀ j < i, Passed classify (lines other) j := by
          intro j hj
          have hlt : j < i + 1 := by omega
          rw [← passed_take hlt, htake, passed_take hlt]
          exact hall j hj
        have hr := parse_first_error slack' true h0' hn' herr' hstop' hfirst
        rw [← reportOutcome_failed hfile strerror path (i + 1)]
        exact hr.bind (Returns.pure _)
      · intro hlines
        have hpassed : ∀ j, Passed classify (lines other) j := by
          intro j
          by_cases hj : j < i
          · rw [hlines, passed_take hj]
            exact hall j hj
          · have hlen : (lines other).length ≤ j := by
              rw [hlines, List.length_take]
              omega
            exact ⟨errorAt_none_of_length_le hlen, stopAt_none_of_length_le hlen⟩
        obtain ⟨p, names, hr, -⟩ := parse_accepted slack' true h0' hn' hpassed
        exact ⟨_, hr.bind (Returns.pure _)⟩

/-- `[s]`, `k` and, behind the error, `=`. -/
theorem parse_reports_line_invalid : Returns (fun f => ncIniFileParse f (fun _ => [])
      (some [91, 115, 93, 10, 107, 10, 61, 10]) "" "a.ini")
      (none, "[inifile] Expected key=value notation [L2]: a.ini\n") := by
  have hlines : lines [91, 115, 93, 10, 107, 10, 61, 10] = [[91, 115, 93], [107], [61]] := by decide
  have h0 : (0 : UInt8) ∉ [91, 115, 93, 10, 107, 10, 61, 10] := by decide
  have hn : (lines [91, 115, 93, 10, 107, 10, 61, 10]).length < 2 ^ 29 := by rw [hlines]; decide
  have hg : Guarded classify (lines [91, 115, 93, 10, 107, 10, 61, 10]) := by
    rw [hlines]
    exact guarded_of_lt (by decide)
  cases parse_reports_line (fun _ => []) "" "a.ini" h0 hn hg with
  | inl h =>
      -- the file has an error
      obtain ⟨m, hr, -⟩ := h
      have hfail := parse_first_error (fun _ => []) true h0 hn
        (show errorAt classify _ 1 = some .invalidLine by rw [hlines]; decide)
        (by rw [hlines]; decide) (by rw [hlines]; decide)
      have heq := hr.unique (hfail.bind (Returns.pure _))
      rw [if_pos rfl, reportOutcome_failed (by decide)] at heq
      cases heq
  | inr h =>
      obtain ⟨i, err, herr, hfirst, hreport⟩ := h
      rw [hlines] at herr hfirst
      have hone : errorAt classify [[91, 115, 93], [107], [61]] 1 = some .invalidLine := by decide
      have hzero : errorAt classify [[91, 115, 93], [107], [61]] 0 = none := by decide
      rcases Nat.lt_trichotomy i 1 with hlt | rfl | hlt
      · obtain rfl : i = 0 := by omega
        rw [hzero] at herr
        cases herr
      · rw [hone] at herr
        cases herr
        exact (hreport (fun _ => []) _ h0 hn).1 rfl
      · rw [hfirst 1 hlt] at hone
        cases hone

end Nica
