import GdalWarp.Foundation.Counting
import GdalWarp.Foundation.Machine
import GdalWarp.Foundation.Terminal
import GdalWarp.Bindings.Doit
import GdalWarp.Bindings.PendingErrors

namespace GdalWarp.Bindings

open Foundation Foundation.Terminal
open scoped BigOperators

def ansiColorBlack : String := "\x1b[30;1m"

def ansiColorRed : String := "\x1b[31;1m"

def ansiColorGreen : String := "\x1b[32;1m"

def ansiColorYellow : String := "\x1b[33;1m"

def ansiColorCyan : String := "\x1b[36;1m"

def ansiColorBgMagenta : String := "\x1b[45;1m"

def ansiColorBgYellow : String := "\x1b[103;1m"

def ansiColorReset : String := "\x1b[0m"

def severityString : CplErr → String
  | .none => ansiColorGreen ++ "NON-ERROR(0)"
  | .debug => ansiColorCyan ++ "DEBUG(1)"
  | .warning => ansiColorYellow ++ "WARNING(2)"
  | .failure => ansiColorRed ++ "FAILURE(3)"
  | .fatal => ansiColorRed ++ (ansiColorBgYellow ++ "UNRECOVERABLE(4)")

def severityStringNonansi : CplErr → String
  | .none => "NON-ERROR(0)"
  | .debug => "DEBUG(1)"
  | .warning => "WARNING(2)"
  | .failure => "FAILURE(3)"
  | .fatal => "UNRECOVERABLE(4)"

def errorString (errNo : ℤ) : String :=
  match errNo with
  | 0 => "CPLE_None(0) \"No error.\""
  | 1 => "CPLE_AppDefined(1) \"Application defined error.\""
  | 2 => "CPLE_OutOfMemory(2) \"Out of memory error.\""
  | 3 => "CPLE_FileIO(3) \"File I/O error.\""
  | 4 => "CPLE_OpenFailed(4) \"Open failed.\""
  | 5 => "CPLE_IllegalArg(5) \"Illegal argument.\""
  | 6 => "CPLE_NotSupported(6) \"Not supported.\""
  | 7 => "CPLE_AssertionFailed(7) \"Assertion failed.\""
  | 8 => "CPLE_NoWriteAccess(8) \"No write access.\""
  | 9 => "CPLE_UserInterrupt(9) \"User interrupted\""
  | 10 => "CPLE_ObjectNull(10) \"NULL object.\""
  | 11 => "CPLE_HttpResponse(11) \"HTTP response.\""
  | 12 => "CPLE_AWSBucketNotFound(12) \"AWSBucketNotFound.\""
  | 13 => "CPLE_AWSObjectNotFound(13) \"AWSObjectNotFound.\""
  | 14 => "CPLE_AWSAccessDenied(14) \"AWSAccessDenied.\""
  | 15 => "CPLE_AWSInvalidCredentials(15) \"AWSInvalidCredentials.\""
  | 16 => "CPLE_AWSSignatureDoesNotMatch(16) \"AWSSignatureDoesNotMatch.\""
  | 17 => "CPLE_AWSError(17) \"VSIE_AWSError.\""
  | _ => "Unknown error..."

/-- A call of the handler, with what it finds in the environment: the value of
`CPL_MAX_ERROR_REPORTS`, and whether `GDALWARP_NONANSI_MESSAGES` is set. -/
structure Report (τ : Type) where
  message : Message τ
  msg : String
  maxErrorReports : Option String
  nonansi : Bool

/-- What `sscanf` stores for `%d`, if it finds a number. -/
def scanInt (s : String) : Option ℤ :=
  let cs := s.toList.dropWhile fun c ↦ c.isWhitespace || c == '\x0b' || c == '\x0c'
  let digits (ds : List Char) : Option ℤ :=
    if (ds.takeWhile Char.isDigit).isEmpty then none
    else some ((ds.takeWhile Char.isDigit).foldl
      (fun value d ↦ 10 * value + (d.toNat - '0'.toNat : ℕ)) 0)
  let number :=
    match cs with
    | '-' :: ds => (digits ds).map fun value ↦ -value
    | '+' :: ds => digits ds
    | ds => digits ds
  -- the digits are read into a `long`, which stops at its bounds, and that is cut to an `int`
  number.map fun value ↦ int32 (max (-2 ^ 63) (min value (2 ^ 63 - 1)))

namespace Report

variable {τ : Type}

def maxReportedErrors (r : Report τ) : ℤ := (r.maxErrorReports.bind scanInt).getD 1000

def heading (r : Report τ) (reported : ℤ) : String :=
  "[" ++ toString reported ++ " of " ++ toString r.maxReportedErrors ++ "]"

def body (r : Report τ) : String := " " ++ errorString r.message.errNo ++ " " ++ r.msg ++ " "

def ansiLine (r : Report τ) (reported : ℤ) : String :=
  ansiColorBlack ++ ansiColorBgMagenta ++ r.heading reported ++ ansiColorReset ++ " " ++
    severityString r.message.errClass ++ r.body ++ ansiColorReset ++ "\n"

def nonansiLine (r : Report τ) (reported : ℤ) : String :=
  r.heading reported ++ " " ++ severityStringNonansi r.message.errClass ++ r.body ++ "\n"

def line (r : Report τ) (reported : ℤ) : String :=
  if r.nonansi then r.nonansiLine reported else r.ansiLine reported

end Report

example : scanInt " -12x" = some (-12) := by decide

example : scanInt "4294967297" = some 1 := by decide

example : scanInt "99999999999999999999" = some (-1) := by decide

section Texts

theorem esc_not_mem_repr (k : ℤ) : esc ∉ (toString k).toList := by
  have hdigits : ∀ m : ℕ, esc ∉ m.repr.toList := by
    intro m hm
    rw [Nat.toList_repr] at hm
    have hdigit := Nat.isDigit_of_mem_toDigits (by decide) (by decide) hm
    exact absurd hdigit (by decide)
  rw [Int.toString_eq_repr, Int.repr_eq_if]
  split
  · exact hdigits _
  · rw [String.toList_append, List.mem_append]
    exact not_or.mpr ⟨by decide, hdigits _⟩

theorem esc_not_mem_errorString (errNo : ℤ) : esc ∉ (errorString errNo).toList := by
  unfold errorString
  split <;> simp [esc]

theorem prints_color {color : String} (ps : List Char) (hcolor : color.toList = sgr ps)
    (hps : ps.all (fun c ↦ c.isDigit || c == ';') = true) :
    Prints color.toList [] (ps == ['0']) := by
  rw [hcolor]
  exact prints_sgr (List.all_eq_true.mp hps)

theorem prints_ansiColorReset : Prints ansiColorReset.toList [] true :=
  prints_color ['0'] rfl rfl

theorem prints_severityString (errClass : CplErr) :
    Prints (severityString errClass).toList (severityStringNonansi errClass).toList false := by
  have hred : Prints ansiColorRed.toList [] false :=
    prints_color ['3', '1', ';', '1'] rfl rfl
  cases errClass with
  | none =>
    rw [severityString, String.toList_append]
    exact (prints_color ['3', '2', ';', '1'] rfl rfl).append_text (by decide)
  | debug =>
    rw [severityString, String.toList_append]
    exact (prints_color ['3', '6', ';', '1'] rfl rfl).append_text (by decide)
  | warning =>
    rw [severityString, String.toList_append]
    exact (prints_color ['3', '3', ';', '1'] rfl rfl).append_text (by decide)
  | failure =>
    rw [severityString, String.toList_append]
    exact hred.append_text (by decide)
  | fatal =>
    have hyellow : Prints ansiColorBgYellow.toList [] false :=
      prints_color ['1', '0', '3', ';', '1'] rfl rfl
    rw [severityString, String.toList_append, String.toList_append]
    exact hred.append (hyellow.append_text (by decide))

variable {τ : Type} {r : Report τ}

theorem esc_not_mem_heading (r : Report τ) (reported : ℤ) :
    esc ∉ (r.heading reported).toList := by
  have hlimit := esc_not_mem_repr r.maxReportedErrors
  have hreported := esc_not_mem_repr reported
  simp only [Report.heading, String.toList_append, List.mem_append, not_or]
  exact ⟨⟨⟨⟨by decide, hreported⟩, by decide⟩, hlimit⟩, by decide⟩

theorem esc_not_mem_body (hmsg : esc ∉ r.msg.toList) : esc ∉ r.body.toList := by
  have herror := esc_not_mem_errorString r.message.errNo
  simp only [Report.body, String.toList_append, List.mem_append, not_or]
  exact ⟨⟨⟨⟨by decide, herror⟩, by decide⟩, hmsg⟩, by decide⟩

theorem esc_not_mem_nonansiLine (hmsg : esc ∉ r.msg.toList) (reported : ℤ) :
    esc ∉ (r.nonansiLine reported).toList := by
  have hseverity : esc ∉ (severityStringNonansi r.message.errClass).toList := by
    cases r.message.errClass <;> decide
  simp only [Report.nonansiLine, String.toList_append, List.mem_append, not_or]
  exact ⟨⟨⟨⟨esc_not_mem_heading r reported, by decide⟩, hseverity⟩, esc_not_mem_body hmsg⟩,
    by decide⟩

/-- With colours or without, a line reads the same and leaves no colour on. -/
theorem prints_line (hmsg : esc ∉ r.msg.toList) (reported : ℤ) (shown : List Char) :
    feed ⟨.text, shown, true⟩ (r.line reported).toList =
      ⟨.text, shown ++ (r.nonansiLine reported).toList, true⟩ := by
  unfold Report.line
  split
  · exact feed_text (esc_not_mem_nonansiLine hmsg reported) shown true
  · have hblack : Prints ansiColorBlack.toList [] false :=
      prints_color ['3', '0', ';', '1'] rfl rfl
    have hmagenta : Prints ansiColorBgMagenta.toList [] false :=
      prints_color ['4', '5', ';', '1'] rfl rfl
    have hfront := (hblack.append hmagenta).append_text (esc_not_mem_heading r reported)
    have hspace : esc ∉ " ".toList := by decide
    have hmiddle := (hfront.append prints_ansiColorReset).append_text hspace
    have hback := (hmiddle.append (prints_severityString r.message.errClass)).append_text
      (esc_not_mem_body hmsg)
    have hend : esc ∉ "\n".toList := by decide
    have hline := (hback.append prints_ansiColorReset).append_text hend
    simp only [Report.ansiLine, Report.nonansiLine, String.toList_append]
    simpa only [List.nil_append, List.append_nil] using hline shown true

end Texts

/-- Where a thread is in `put_last_errno`: before it compares the count of reports with the
limit, before it adds to the count, before it reads the count again, with the number it
has read, or before the last `if`. -/
inductive Reporter (τ : Type) where
  | out
  | comparing (r : Report τ)
  | counting (r : Report τ)
  | loading (r : Report τ)
  | printing (r : Report τ) (reported : ℤ)
  | finishing (r : Report τ)

namespace Reporter

variable {τ : Type}

def owed : Reporter τ → ℕ
  | .counting _ => 1
  | _ => 0

def unprinted : Reporter τ → ℕ
  | .loading _ | .printing _ _ => 1
  | _ => 0

theorem owed_le (reporter : Reporter τ) : reporter.owed ≤ 1 := by
  cases reporter with
  | counting r => exact le_rfl
  | _ => exact Nat.zero_le 1

theorem unprinted_le (reporter : Reporter τ) : reporter.unprinted ≤ 1 := by
  cases reporter with
  | loading r | printing r reported => exact le_rfl
  | _ => exact Nat.zero_le 1

end Reporter

structure Reporting (τ : Type) where
  codes : ErrorCodes τ
  reportedErrors : ℤ
  stderr : String
  reporters : τ → Reporter τ
  stopped : Option Stop

inductive ReportEvent (τ : Type) where
  | report (r : Report τ)
  | compare (t : τ)
  | count (t : τ)
  | load (t : τ)
  | print (t : τ)
  | finish (t : τ)

namespace Reporting

variable {τ : Type} [DecidableEq τ]

def put (s : Reporting τ) (t : τ) (reporter : Reporter τ) : Reporting τ :=
  { s with reporters := Function.update s.reporters t reporter }

def act (s : Reporting τ) : ReportEvent τ → Option (Reporting τ)
  | .report r =>
    match s.reporters r.message.thread with
    | .out => some (s.put r.message.thread (.comparing r))
    | _ => none
  | .compare t =>
    match s.reporters t with
    | .comparing r =>
      if s.reportedErrors < r.maxReportedErrors then some (s.put t (.counting r))
      else some (s.put t (.finishing r))
    | _ => none
  | .count t =>
    match s.reporters t with
    | .counting r =>
      some ({ s with reportedErrors := int32 (s.reportedErrors + 1) }.put t (.loading r))
    | _ => none
  | .load t =>
    match s.reporters t with
    | .loading r => some (s.put t (.printing r s.reportedErrors))
    | _ => none
  | .print t =>
    match s.reporters t with
    | .printing r reported =>
      some ({ s with stderr := s.stderr ++ r.line reported }.put t (.finishing r))
    | _ => none
  | .finish t =>
    match s.reporters t with
    | .finishing r =>
      match s.codes.putLastErrno r.message with
      | .ok codes => some ({ s with codes := codes }.put t .out)
      | .error stop => some { s with stopped := some stop }
    | _ => none

def step (s : Reporting τ) (e : ReportEvent τ) : Option (Reporting τ) :=
  if s.stopped = none then s.act e else none

def machine (codes : ErrorCodes τ) : Machine (Reporting τ) (ReportEvent τ) where
  init := ⟨codes.errnoInit, 0, "", fun _ ↦ .out, none⟩
  step := step

/-- The lines that were printed, each with the number in it, the earliest first. -/
def note (lines : List (ℤ × Report τ)) (s : Reporting τ) (e : ReportEvent τ) (_ : Reporting τ) :
    List (ℤ × Report τ) :=
  match e with
  | .print t =>
    match s.reporters t with
    | .printing r reported => lines ++ [(reported, r)]
    | _ => lines
  | _ => lines

inductive Moves (s : Reporting τ) : ReportEvent τ → Reporting τ → Prop
  | report (r : Report τ) (hr : s.reporters r.message.thread = .out) :
      Moves s (.report r) (s.put r.message.thread (.comparing r))
  | pass (t : τ) (r : Report τ) (hr : s.reporters t = .comparing r)
      (hlt : s.reportedErrors < r.maxReportedErrors) :
      Moves s (.compare t) (s.put t (.counting r))
  | skip (t : τ) (r : Report τ) (hr : s.reporters t = .comparing r) :
      Moves s (.compare t) (s.put t (.finishing r))
  | count (t : τ) (r : Report τ) (hr : s.reporters t = .counting r) :
      Moves s (.count t)
        ({ s with reportedErrors := int32 (s.reportedErrors + 1) }.put t (.loading r))
  | load (t : τ) (r : Report τ) (hr : s.reporters t = .loading r) :
      Moves s (.load t) (s.put t (.printing r s.reportedErrors))
  | print (t : τ) (r : Report τ) (reported : ℤ) (hr : s.reporters t = .printing r reported) :
      Moves s (.print t)
        ({ s with stderr := s.stderr ++ r.line reported }.put t (.finishing r))
  | finish (t : τ) (r : Report τ) (codes : ErrorCodes τ) (hr : s.reporters t = .finishing r)
      (hcodes : s.codes.putLastErrno r.message = .ok codes) :
      Moves s (.finish t) ({ s with codes := codes }.put t .out)
  | stop (t : τ) (r : Report τ) (stop : Stop) (hr : s.reporters t = .finishing r)
      (hstop : s.codes.putLastErrno r.message = .error stop) :
      Moves s (.finish t) { s with stopped := some stop }

theorem step_moves {s s' : Reporting τ} {e : ReportEvent τ} (hs : s.step e = some s') :
    Moves s e s' := by
  unfold step at hs
  split at hs
  case isFalse => cases hs
  case isTrue =>
    cases e with
    | report r =>
      simp only [act] at hs
      split at hs
      case h_1 hr =>
        cases hs
        exact .report r hr
      case h_2 => cases hs
    | compare t =>
      simp only [act] at hs
      split at hs
      case h_1 r hr =>
        split at hs
        case isTrue hlt =>
          cases hs
          exact .pass t r hr hlt
        case isFalse =>
          cases hs
          exact .skip t r hr
      case h_2 => cases hs
    | count t =>
      simp only [act] at hs
      split at hs
      case h_1 r hr =>
        cases hs
        exact .count t r hr
      case h_2 => cases hs
    | load t =>
      simp only [act] at hs
      split at hs
      case h_1 r hr =>
        cases hs
        exact .load t r hr
      case h_2 => cases hs
    | print t =>
      simp only [act] at hs
      split at hs
      case h_1 r reported hr =>
        cases hs
        exact .print t r reported hr
      case h_2 => cases hs
    | finish t =>
      simp only [act] at hs
      split at hs
      case h_1 r hr =>
        split at hs
        case h_1 codes hcodes =>
          cases hs
          exact .finish t r codes hr hcodes
        case h_2 stop hstop =>
          cases hs
          exact .stop t r stop hr hstop
      case h_2 => cases hs

/-- The map of errors is what handlers that run one after another leave. -/
theorem codes_reachable {codes : ErrorCodes τ} {s : Reporting τ}
    (hs : (machine codes).Reachable s) :
    ∃ log, (ErrnoLog.machine codes).Reachable log ∧ log.errors = s.codes := by
  refine hs.invariant
    (I := fun s ↦ ∃ log, (ErrnoLog.machine codes).Reachable log ∧ log.errors = s.codes)
    ⟨_, Machine.Reachable.start, rfl⟩ fun s e s' hlog hstep ↦ ?_
  cases step_moves hstep with
  | finish t r after hr hafter =>
    obtain ⟨log, hlog, hcodes⟩ := hlog
    have hput : log.step (.putLastErrno r.message) =
        some ⟨after, .putLastErrno r.message :: log.calls⟩ := by
      refine ErrnoLog.step_eq_some.mpr ⟨?_, rfl⟩
      rw [hcodes]
      exact hafter
    exact ⟨_, hlog.step hput, rfl⟩
  | _ => exact hlog

theorem stderr_eq {codes : ErrorCodes τ} {es : List (ReportEvent τ)} {s : Reporting τ}
    (hrun : (machine codes).run (machine codes).init es = some s) :
    s.stderr.toList = ((machine codes).record note (machine codes).init [] es).flatMap
      fun l ↦ (l.2.line l.1).toList := by
  refine Machine.run_record
    (I := fun (s : Reporting τ) (lines : List (ℤ × Report τ)) ↦
      s.stderr.toList = lines.flatMap fun l ↦ (l.2.line l.1).toList) ?_ rfl hrun
  intro s e s' lines hs hstep
  cases step_moves hstep with
  | print t r reported hr =>
    simp only [note, hr]
    change (s.stderr ++ r.line reported).toList = _
    rw [String.toList_append, hs, List.flatMap_append, List.flatMap_singleton]
  | _ => exact hs

/-- What has been printed reads the same as if no thread had used colours, whatever the
threads found in the environment, and no colour is left on. -/
theorem transcript_reads_plain {codes : ErrorCodes τ} {es : List (ReportEvent τ)}
    {s : Reporting τ} (hrun : (machine codes).run (machine codes).init es = some s)
    (hmsg : ∀ l ∈ (machine codes).record note (machine codes).init [] es,
      esc ∉ l.2.msg.toList) :
    Terminal.start.feed s.stderr.toList = ⟨.text,
      ((machine codes).record note (machine codes).init [] es).flatMap
        fun l ↦ (l.2.nonansiLine l.1).toList, true⟩ := by
  rw [stderr_eq hrun]
  generalize (machine codes).record note (machine codes).init [] es = lines at hmsg
  have hlines : ∀ shown, feed ⟨.text, shown, true⟩
      (lines.flatMap fun l ↦ (l.2.line l.1).toList) =
        ⟨.text, shown ++ lines.flatMap fun l ↦ (l.2.nonansiLine l.1).toList, true⟩ := by
    induction lines with
    | nil =>
      intro shown
      rw [List.flatMap_nil, List.flatMap_nil, List.append_nil, feed, List.foldl_nil]
    | cons l lines ih =>
      intro shown
      obtain ⟨hl, hrest⟩ := List.forall_mem_cons.mp hmsg
      rw [List.flatMap_cons, List.flatMap_cons, feed_append, prints_line hl, ih hrest,
        List.append_assoc]
  exact hlines []

theorem put_self (s : Reporting τ) (t : τ) (reporter : Reporter τ) :
    (s.put t reporter).reporters t = reporter := Function.update_self ..

theorem put_of_ne (s : Reporting τ) {t u : τ} (reporter : Reporter τ) (h : u ≠ t) :
    (s.put t reporter).reporters u = s.reporters u := Function.update_of_ne h ..

def LimitsAtMost (M : ℕ) (_ : Reporting τ) : ReportEvent τ → Prop
  | .report r => r.maxReportedErrors ≤ M
  | _ => True

section Counts

variable [Fintype τ]

def unprinted (s : Reporting τ) : ℕ := ∑ t, (s.reporters t).unprinted

theorem unprinted_put (s : Reporting τ) (codes : ErrorCodes τ) (reported : ℤ) (stderr : String)
    (stopped : Option Stop) (t : τ) (reporter : Reporter τ) :
    ((⟨codes, reported, stderr, s.reporters, stopped⟩ : Reporting τ).put t reporter).unprinted +
      (s.reporters t).unprinted = s.unprinted + reporter.unprinted :=
  sum_update_add Reporter.unprinted s.reporters t reporter

omit [DecidableEq τ] in
theorem unprinted_le (s : Reporting τ) : s.unprinted ≤ Fintype.card τ := by
  rw [Fintype.card, Finset.card_eq_sum_ones]
  exact Finset.sum_le_sum fun t _ ↦ (s.reporters t).unprinted_le

structure Tallied (M : ℕ) (s : Reporting τ) (lines : List (ℤ × Report τ)) : Prop where
  limits : ∀ t r, s.reporters t = .comparing r → r.maxReportedErrors ≤ M
  count : s.reportedErrors = (lines.length + s.unprinted : ℕ)
  within : Within M 1 (lines.length + s.unprinted) fun t ↦ (s.reporters t).owed

theorem Tallied.put {M : ℕ} {s : Reporting τ} {lines lines' : List (ℤ × Report τ)}
    (h : Tallied M s lines) {t : τ} {reporter : Reporter τ} {codes : ErrorCodes τ} {reported : ℤ}
    {stderr : String} {stopped : Option Stop}
    (hlimit : ∀ r, reporter = .comparing r → r.maxReportedErrors ≤ M)
    (hcount : reported + lines.length + (s.reporters t).unprinted =
      s.reportedErrors + lines'.length + reporter.unprinted)
    (howed : lines'.length + reporter.unprinted + reporter.owed ≤
        lines.length + (s.reporters t).unprinted + (s.reporters t).owed ∨
      lines'.length + reporter.unprinted = lines.length + (s.reporters t).unprinted ∧
        s.reportedErrors + reporter.owed ≤ M) :
    Tallied M ((⟨codes, reported, stderr, s.reporters, stopped⟩ : Reporting τ).put t reporter)
      lines' := by
  have hput := unprinted_put s codes reported stderr stopped t reporter
  have hold := h.count
  refine ⟨?_, ?_, ?_⟩
  · intro u r hu
    by_cases hut : u = t
    · subst hut
      exact hlimit r ((put_self ..).symm.trans hu)
    · exact h.limits u r ((put_of_ne _ _ hut).symm.trans hu)
  · change reported = _
    omega
  · apply h.within.turn t
    · intro u hu
      exact (congrArg Reporter.owed (put_of_ne _ _ hu)).le
    · rw [put_self]
      omega
    · exact Reporter.owed_le _

omit [DecidableEq τ] in
theorem Tallied.int32_count {M : ℕ} {s : Reporting τ} {lines : List (ℤ × Report τ)}
    (h : Tallied M s lines) (hM : M + Fintype.card τ ≤ 2 ^ 31) {t : τ} {r : Report τ}
    (hr : s.reporters t = .counting r) :
    int32 (s.reportedErrors + 1) = s.reportedErrors + 1 := by
  have hroom := h.within.stock_add_le t
  have howed : (s.reporters t).owed = 1 := by rw [hr]; rfl
  have hsum : s.reportedErrors + 1 = (lines.length + s.unprinted + 1 : ℕ) := by
    rw [h.count]
    rfl
  rw [hsum]
  exact int32_natCast (by omega)

theorem Tallied.step {M : ℕ} {s s' : Reporting τ} {lines : List (ℤ × Report τ)}
    {e : ReportEvent τ} (hM : M + Fintype.card τ ≤ 2 ^ 31) (h : Tallied M s lines)
    (hlimit : LimitsAtMost M s e) (hstep : s.step e = some s') :
    Tallied M s' (note lines s e s') := by
  cases step_moves hstep with
  | report r hr =>
    refine h.put (fun r' hr' ↦ ?_) (by rw [hr]; rfl) (Or.inl (by rw [hr]; exact le_rfl))
    cases hr'
    exact hlimit
  | pass t r hr hlt =>
    have hle := h.limits t r hr
    refine h.put nofun (by rw [hr]; rfl) (Or.inr ⟨by rw [hr]; rfl, ?_⟩)
    change s.reportedErrors + 1 ≤ M
    omega
  | skip t r hr => exact h.put nofun (by rw [hr]; rfl) (Or.inl (by rw [hr]; exact le_rfl))
  | count t r hr =>
    have hold := h.count
    rw [h.int32_count hM hr]
    change Tallied M _ lines
    refine h.put nofun ?_ (Or.inl ?_)
    · rw [hr]
      dsimp only [Reporter.unprinted]
      omega
    · rw [hr]
      exact le_rfl
  | load t r hr => exact h.put nofun (by rw [hr]; rfl) (Or.inl (by rw [hr]; exact le_rfl))
  | print t r reported hr =>
    simp only [note, hr]
    refine h.put nofun ?_ (Or.inl ?_)
    · rw [hr, List.length_append]
      simp [Reporter.unprinted]
      omega
    · rw [hr, List.length_append]
      exact le_rfl
  | finish t r codes hr hcodes =>
    exact h.put nofun (by rw [hr]; rfl) (Or.inl (by rw [hr]; exact le_rfl))
  | stop t r stop hr hstop => exact ⟨h.limits, h.count, h.within⟩

/-- What thread `t` knows of the count and of the lines it has printed. -/
def Knows (reported : ℤ) (lines : List (ℤ × Report τ)) (t : τ) : Reporter τ → Prop
  | .out => True
  | .comparing r | .counting r | .finishing r => r.message.thread = t
  | .loading r => r.message.thread = t ∧ 1 ≤ reported ∧
      ∀ l ∈ lines, l.2.message.thread = t → l.1 < reported
  | .printing r k => r.message.thread = t ∧ 1 ≤ k ∧ k ≤ reported ∧
      k ≤ lines.length + Fintype.card τ ∧ ∀ l ∈ lines, l.2.message.thread = t → l.1 < k

omit [DecidableEq τ] in
theorem Knows.more {reported reported' : ℤ} {lines : List (ℤ × Report τ)} {t : τ}
    {reporter : Reporter τ} (h : Knows reported lines t reporter) (hle : reported ≤ reported') :
    Knows reported' lines t reporter := by
  cases reporter with
  | loading r =>
    obtain ⟨hown, hpos, hlines⟩ := h
    exact ⟨hown, hpos.trans hle, fun l hl ht ↦ (hlines l hl ht).trans_le hle⟩
  | printing r k =>
    obtain ⟨hown, hpos, hk, hplace, hlines⟩ := h
    exact ⟨hown, hpos, hk.trans hle, hplace, hlines⟩
  | _ => exact h

omit [DecidableEq τ] in
theorem Knows.line {reported : ℤ} {lines : List (ℤ × Report τ)} {t : τ} {reporter : Reporter τ}
    (h : Knows reported lines t reporter) {line : ℤ × Report τ}
    (hline : line.2.message.thread ≠ t) : Knows reported (lines ++ [line]) t reporter := by
  have hmore : ∀ {k : ℤ}, (∀ l ∈ lines, l.2.message.thread = t → l.1 < k) →
      ∀ l ∈ lines ++ [line], l.2.message.thread = t → l.1 < k := by
    intro k hlines l hl ht
    rcases List.mem_append.mp hl with hl | hl
    · exact hlines l hl ht
    · obtain rfl := List.mem_singleton.mp hl
      exact absurd ht hline
  cases reporter with
  | loading r =>
    obtain ⟨hown, hpos, hlines⟩ := h
    exact ⟨hown, hpos, hmore hlines⟩
  | printing r k =>
    obtain ⟨hown, hpos, hk, hplace, hlines⟩ := h
    refine ⟨hown, hpos, hk, ?_, hmore hlines⟩
    rw [List.length_append, List.length_singleton]
    omega
  | _ => exact h

structure Numbered (s : Reporting τ) (lines : List (ℤ × Report τ)) : Prop where
  knows : ∀ t, Knows s.reportedErrors lines t (s.reporters t)
  numbers : ∀ l ∈ lines, 1 ≤ l.1 ∧ l.1 ≤ s.reportedErrors
  placed : ∀ (j : ℕ) (l : ℤ × Report τ), lines[j]? = some l → l.1 ≤ j + Fintype.card τ
  ordered : lines.Pairwise fun a b ↦ a.2.message.thread = b.2.message.thread → a.1 < b.1

theorem Numbered.put {s : Reporting τ} {lines : List (ℤ × Report τ)} (h : Numbered s lines)
    {t : τ} {reporter : Reporter τ} {codes : ErrorCodes τ} {reported : ℤ} {stderr : String}
    {stopped : Option Stop} (hle : s.reportedErrors ≤ reported)
    (hself : Knows reported lines t reporter) :
    Numbered ((⟨codes, reported, stderr, s.reporters, stopped⟩ : Reporting τ).put t reporter)
      lines := by
  refine ⟨fun u ↦ ?_, fun l hl ↦ ?_, h.placed, h.ordered⟩
  · by_cases hu : u = t
    · subst hu
      rw [put_self]
      exact hself
    · rw [put_of_ne _ _ hu]
      exact (h.knows u).more hle
  · obtain ⟨hpos, hk⟩ := h.numbers l hl
    exact ⟨hpos, hk.trans hle⟩

theorem Numbered.print {s : Reporting τ} {lines : List (ℤ × Report τ)} (h : Numbered s lines)
    {t : τ} {r : Report τ} {k : ℤ} (hr : s.reporters t = .printing r k) (stderr : String) :
    Numbered ({ s with stderr := stderr }.put t (.finishing r)) (lines ++ [(k, r)]) := by
  have hknows := h.knows t
  rw [hr] at hknows
  obtain ⟨hown, hpos, hk, hplace, hlines⟩ := hknows
  refine ⟨fun u ↦ ?_, ?_, fun j l hl ↦ ?_, ?_⟩
  · by_cases hu : u = t
    · subst hu
      rw [put_self]
      exact hown
    · rw [put_of_ne _ _ hu]
      exact (h.knows u).line fun heq ↦ hu (heq.symm.trans hown)
  · refine List.forall_mem_append.mpr ⟨h.numbers, fun l hl ↦ ?_⟩
    obtain rfl := List.mem_singleton.mp hl
    exact ⟨hpos, hk⟩
  · rw [List.getElem?_append] at hl
    split at hl
    case isTrue => exact h.placed j l hl
    case isFalse hj =>
      rw [List.getElem?_singleton] at hl
      split at hl
      case isTrue hj' =>
        cases hl
        have hlength : lines.length = j := by omega
        exact hlength ▸ hplace
      case isFalse => cases hl
  · refine List.pairwise_append.mpr ⟨h.ordered, List.pairwise_singleton _ _, ?_⟩
    intro l hl l' hl' heq
    obtain rfl := List.mem_singleton.mp hl'
    exact hlines l hl (heq.trans hown)

theorem Numbered.step {M : ℕ} {s s' : Reporting τ} {lines : List (ℤ × Report τ)}
    {e : ReportEvent τ} (hM : M + Fintype.card τ ≤ 2 ^ 31) (h : Numbered s lines)
    (ht : Tallied M s lines) (hstep : s.step e = some s') : Numbered s' (note lines s e s') := by
  cases step_moves hstep with
  | report r hr => exact h.put le_rfl rfl
  | pass t r hr | skip t r hr =>
    have hknows := h.knows t
    rw [hr] at hknows
    exact h.put le_rfl hknows
  | count t r hr =>
    have hknows := h.knows t
    have hold := ht.count
    rw [hr] at hknows
    rw [ht.int32_count hM hr]
    refine h.put (by omega) ⟨hknows, by omega, fun l hl _ ↦ ?_⟩
    have hl := (h.numbers l hl).2
    omega
  | load t r hr =>
    have hknows := h.knows t
    have hold := ht.count
    have hunprinted := s.unprinted_le
    rw [hr] at hknows
    obtain ⟨hown, hpos, hlines⟩ := hknows
    exact h.put le_rfl ⟨hown, hpos, le_rfl, by omega, hlines⟩
  | print t r reported hr =>
    simp only [note, hr]
    exact h.print hr _
  | finish t r codes hr hcodes => exact h.put le_rfl trivial
  | stop t r stop hr hstop => exact ⟨h.knows, h.numbers, h.placed, h.ordered⟩

/-- However many threads report at once, the number of reports passes the limit by less than
the number of threads, the number in a line passes its place by less than that too, and
the numbers in the lines of one thread rise. -/
theorem reports_bounded [Nonempty τ] {codes : ErrorCodes τ} {M : ℕ}
    (hM : M + Fintype.card τ ≤ 2 ^ 31) {es : List (ReportEvent τ)} {s : Reporting τ}
    (hrun : (machine codes).run (machine codes).init es = some s)
    (hlimits : (machine codes).EveryStep (LimitsAtMost M) (machine codes).init es)
    {lines : List (ℤ × Report τ)}
    (hlines : (machine codes).record note (machine codes).init [] es = lines) :
    lines.length + 1 ≤ M + Fintype.card τ ∧
    (∀ (j : ℕ) (l : ℤ × Report τ), lines[j]? = some l → 1 ≤ l.1 ∧
      l.1 ≤ j + Fintype.card τ ∧ l.1 + 1 ≤ M + Fintype.card τ) ∧
    lines.Pairwise fun a b ↦ a.2.message.thread = b.2.message.thread → a.1 < b.1 := by
  have hcard : 0 < Fintype.card τ := Fintype.card_pos
  have hzero : (machine codes).init.unprinted = 0 := Finset.sum_eq_zero fun _ _ ↦ rfl
  have htallied : Tallied M (machine codes).init [] := by
    refine ⟨fun _ _ hr ↦ (by cases hr), ?_, ?_⟩
    · rw [hzero]
      rfl
    · rw [hzero]
      exact Within.start (by rw [List.length_nil]; omega) fun _ ↦ rfl
  have hnumbered : Numbered (machine codes).init [] :=
    ⟨fun _ ↦ trivial, fun _ hl ↦ absurd hl List.not_mem_nil, fun _ _ hl ↦ (by cases hl), .nil⟩
  have hboth : Tallied M s lines ∧ Numbered s lines := by
    rw [← hlines]
    exact Machine.run_record_of (I := fun s lines ↦ Tallied M s lines ∧ Numbered s lines)
      (C := LimitsAtMost M)
      (fun _ _ _ _ h hc hstep ↦ ⟨h.1.step hM hc hstep, h.2.step hM h.1 hstep⟩)
      ⟨htallied, hnumbered⟩ hlimits hrun
  have hcount := hboth.1.count
  have hmost := hboth.1.within.stock_le
  refine ⟨by omega, fun j l hl ↦ ?_, hboth.2.ordered⟩
  obtain ⟨hpos, hk⟩ := hboth.2.numbers l (List.mem_of_getElem? hl)
  exact ⟨hpos, hboth.2.placed j l hl, by omega⟩

def openFailed (t : Bool) : Report Bool :=
  ⟨⟨t, .failure, cpleOpenFailed, 0⟩, "a.tif", some "1", t⟩

def twoReports : List (ReportEvent Bool) :=
  [.report (openFailed false), .report (openFailed true), .compare false, .compare true,
    .count false, .count true, .load false, .load true, .print true, .print false, .finish true,
    .finish false]

def noHandler : ErrorCodes Bool := ⟨none, false⟩

theorem reports_bounded_two_threads : ∃ s,
    (machine noHandler).run (machine noHandler).init twoReports = some s ∧
    (machine noHandler).record note (machine noHandler).init [] twoReports =
      [(2, openFailed true), (2, openFailed false)] ∧
    [(2, openFailed true), (2, openFailed false)].length + 1 ≤ 1 + Fintype.card Bool := by
  have hrun : (machine noHandler).run (machine noHandler).init twoReports = some _ := rfl
  have hlimit : ∀ t, (openFailed t).maxReportedErrors ≤ (1 : ℕ) := by decide
  refine ⟨_, hrun, rfl, (reports_bounded (by decide) hrun ?_ rfl).1⟩
  refine .cons rfl (hlimit false) (.cons rfl (hlimit true) (.cons rfl trivial (.cons rfl trivial
    (.cons rfl trivial (.cons rfl trivial (.cons rfl trivial (.cons rfl trivial (.cons rfl trivial
      (.cons rfl trivial (.cons rfl trivial (.cons rfl trivial trivial)))))))))))

theorem transcript_reads_plain_two_threads : ∃ s,
    (machine noHandler).run (machine noHandler).init twoReports = some s ∧
    Terminal.start.feed s.stderr.toList = ⟨.text, ((openFailed true).nonansiLine 2).toList ++
      ((openFailed false).nonansiLine 2).toList, true⟩ := by
  have hrun : (machine noHandler).run (machine noHandler).init twoReports = some _ := rfl
  have hmsg : ∀ l ∈ (machine noHandler).record note (machine noHandler).init [] twoReports,
      esc ∉ l.2.msg.toList := by
    change ∀ l ∈ [(2, openFailed true), (2, openFailed false)], esc ∉ l.2.msg.toList
    decide
  refine ⟨_, hrun, (transcript_reads_plain hrun hmsg).trans ?_⟩
  change (⟨.text, [(2, openFailed true), (2, openFailed false)].flatMap
    fun l ↦ (l.2.nonansiLine l.1).toList, true⟩ : Terminal) = _
  rw [List.flatMap_cons, List.flatMap_singleton]

end Counts

end Reporting

end GdalWarp.Bindings
