import GdalWarp.Bindings.Retries

namespace GdalWarp.Bindings

open Foundation

/-- The strings that get a row of a matrix of this size, if all before do. -/
def entered (n : ℕ) (strs : List CString) : List CString :=
  (strs.take n).takeWhile fun str ↦ decide (¬ (str.len ≠ 0 ∧ (n : ℤ) ≤ str.len + 1))

def ListFits (n : ℕ) (list : Option (List CString)) : Prop := FitsIn n (list.getD [])

/-- The list does not fit, and no string before the one that says so has a length
that is no `int`. -/
def ListExceeds (n : ℕ) (list : Option (List CString)) : Prop :=
  (∀ str ∈ entered n (list.getD []), 0 ≤ str.len) ∧ ¬ FitsIn n (list.getD [])

def ItemFits (n : ℕ) (value : Option CString) : Prop :=
  ∃ str, value = some str ∧ 0 ≤ str.len ∧ str.len + 1 < n

def ItemExceeds (n : ℕ) (value : Option CString) : Prop :=
  ∃ str, value = some str ∧ n ≤ str.len + 1

theorem map_snd_fitting_eq {n : ℕ} {rows : List Row} (h : ∀ row ∈ rows, row.length = n)
    (strs : List CString) :
    (fitting rows strs).map Prod.snd = (strs.take rows.length).takeWhile fun str ↦
      decide (¬ (str.len ≠ 0 ∧ (n : ℤ) ≤ str.len + 1)) := by
  induction rows generalizing strs with
  | nil => rfl
  | cons row rows ih =>
    obtain ⟨hrow, hrows⟩ := List.forall_mem_cons.mp h
    cases strs with
    | nil => rfl
    | cons str strs =>
      rw [List.length_cons, List.take_succ_cons]
      by_cases hshort : TooShort row str
      · rw [fitting_cons_of_tooShort hshort, List.takeWhile_cons_of_neg]
        · rfl
        · rw [← hrow]
          exact fun hx ↦ of_decide_eq_true hx hshort
      · rw [fitting_cons_of_fits hshort, List.takeWhile_cons_of_pos, List.map_cons, ih hrows]
        rw [← hrow]
        exact decide_eq_true hshort

theorem Tidy.inside_iff {n : ℕ} {rows : List Row} (h : Tidy n rows) (hn : 2 ≤ n)
    (strs : List CString) :
    (∀ p ∈ fitting rows strs, ¬ Overruns p.1 p.2) ↔ ∀ str ∈ entered n strs, 0 ≤ str.len := by
  rw [entered, ← h.length, ← map_snd_fitting_eq (h.length ▸ h.width)]
  constructor
  · intro hinside str hstr
    obtain ⟨p, hp, rfl⟩ := List.mem_map.mp hstr
    exact len_nonneg_of_mem hinside p hp
  · intro hlen p hp hover
    have hwidth := h.width p.1 (List.of_mem_zip ((List.takeWhile_sublist _).subset hp)).1
    have hpos := hlen p.2 (List.mem_map_of_mem hp)
    rcases hover with ⟨-, hlt⟩ | ⟨hneg, -⟩ <;> omega

structure Usable (rows : List Row) : Prop where
  two_le : 2 ≤ rows.length
  lt : rows.length < 2 ^ 31
  tidy : Tidy rows.length rows

theorem usable_blankMatrix {n : ℕ} (hn : 2 ≤ n) (hlt : n < 2 ^ 31) : Usable (blankMatrix n) := by
  have hlength : (blankMatrix n).length = n := List.length_replicate
  constructor <;> rw [hlength]
  · exact hn
  · exact hlt
  · exact tidy_blankMatrix (by omega)

theorem listAttempt_kind (malformed : List UInt8 → String) (method : MetadataMethod)
    (query : Query (List CString)) (turn : ℕ) (rows : List Row) (h : Usable rows) :
    TurnKind matrices Usable (Settles ListFits query) (TooSmall ListExceeds query)
      (fun turn ↦ (query turn).1) (listAttempt malformed method query) turn rows := by
  refine attempt_kind (fun code list rows hneg ↦ ?_) (fun code list rows h hcode ↦ ?_) query turn
    rows h
  · rw [native_eq, encodeList, if_pos hneg]
  rw [native_eq]
  by_cases hinside : ∀ str ∈ entered rows.length (list.getD []), 0 ≤ str.len
  · by_cases hfit : FitsIn rows.length (list.getD [])
    · obtain ⟨filled, hfilled, htidy, -⟩ := h.tidy.encode_fits h.two_le hfit hcode
      refine Or.inl ⟨hfit, filled, _, hfilled, htidy.length, ?_,
        htidy.decodeRows_eq (Nat.lt_of_lt_of_le (by decide) h.two_le)⟩
      exact ⟨htidy.length.symm ▸ h.two_le, htidy.length.symm ▸ h.lt, by rwa [htidy.length]⟩
    · have hfitting := (h.tidy.inside_iff h.two_le _).mpr hinside
      exact Or.inr (Or.inl ⟨hfit, ⟨hinside, hfit⟩,
        h.tidy.encode_too_small h.two_le hfitting hfit hcode⟩)
  · have houtside : ∃ p ∈ fitting rows (list.getD []), Overruns p.1 p.2 := by
      by_contra hnone
      push Not at hnone
      exact hinside ((h.tidy.inside_iff h.two_le _).mp hnone)
    refine Or.inr (Or.inr ⟨fun hfit ↦ hinside fun str hstr ↦ ?_, fun hx ↦ hinside hx.1,
      encodeList_overruns hcode houtside⟩)
    exact (hfit.2 str (List.mem_of_mem_take ((List.takeWhile_sublist _).subset hstr))).1

def UsableLine (line : Row) : Prop := line.length ≠ 0 ∧ line.length < 2 ^ 31

theorem itemFits_iff {n : ℕ} {str : CString} :
    ItemFits n (some str) ↔ 0 ≤ str.len ∧ str.len + 1 < n := by
  simp [ItemFits]

theorem itemExceeds_iff {n : ℕ} {str : CString} :
    ItemExceeds n (some str) ↔ n ≤ str.len + 1 := by
  simp [ItemExceeds]

theorem line_copied (malformed : List UInt8 → String) {line filled : Row} {str : CString}
    (hlen : 0 ≤ str.len) (h : str.len + 1 < line.length)
    (hfilled : filled = str.bytes.take str.len.toNat ++ 0 :: line.drop (str.len.toNat + 1)) :
    filled.length = line.length ∧
      (scanRow line.length filled).map (fun text ↦ [trim (newString malformed text)]) =
        some [trim (newString malformed (cutRow filled))] := by
  have hle := str.len_le
  have hlength : filled.length = line.length := by
    rw [hfilled, List.length_append, List.length_cons, List.length_take, List.length_drop]
    omega
  refine ⟨hlength, ?_⟩
  rw [← hlength, scanRow_eq, Option.map_some]

theorem itemAttempt_kind (malformed : List UInt8 → String) (query : Query CString) (turn : ℕ)
    (line : Row) (h : UsableLine line) :
    TurnKind lines UsableLine (Settles ItemFits query) (TooSmall ItemExceeds query)
      (fun turn ↦ (query turn).1) (itemAttempt malformed query) turn line := by
  refine attempt_kind (fun code value line hneg ↦ if_pos hneg) (fun code value line h hcode ↦ ?_)
    query turn line h
  cases value with
  | none => exact Or.inr (Or.inr ⟨nofun, nofun, if_neg (not_lt.mpr hcode)⟩)
  | some str =>
    by_cases hlong : line.length ≤ str.len + 1
    · exact Or.inr (Or.inl ⟨fun hx ↦ not_le.mpr (itemFits_iff.mp hx).2 hlong,
        itemExceeds_iff.mpr hlong, line, jniGetMetadataItem_tooSmall hcode hlong⟩)
    have hroom : str.len + 1 < line.length := not_le.mp hlong
    by_cases hneg : str.len < 0
    · exact Or.inr (Or.inr ⟨fun hx ↦ not_lt.mpr (itemFits_iff.mp hx).1 hneg,
        fun hx ↦ hlong (itemExceeds_iff.mp hx), jniGetMetadataItem_overruns hcode hneg hroom⟩)
    have hlen : 0 ≤ str.len := not_lt.mp hneg
    obtain ⟨filled, hfilled⟩ : ∃ filled,
        filled = str.bytes.take str.len.toNat ++ 0 :: line.drop (str.len.toNat + 1) := ⟨_, rfl⟩
    obtain ⟨hlength, hdecode⟩ := line_copied malformed hlen hroom hfilled
    have hitem := jniGetMetadataItem_fits hcode hlen hroom
    rw [← hfilled] at hitem
    exact Or.inl ⟨itemFits_iff.mpr ⟨hlen, hroom⟩, filled, _, hitem, hlength,
      ⟨hlength.symm ▸ h.1, hlength.symm ▸ h.2⟩, hdecode⟩

theorem usableLine_growScratch1d {line grown : Row} {len : ℤ} (h : UsableLine line)
    (hlen : len < 2 ^ 31) (hgrown : growScratch1d line len = some grown) : UsableLine grown := by
  rw [growScratch1d] at hgrown
  by_cases hle : len ≤ 0
  · rw [if_pos hle] at hgrown
    obtain ⟨hlimit, heq⟩ := Option.ite_none_right_eq_some.mp hgrown
    cases heq
    have hne := h.1
    rw [UsableLine, List.length_replicate]
    exact ⟨by omega, hlimit⟩
  · rw [if_neg hle] at hgrown
    cases hgrown
    rw [UsableLine, List.length_replicate]
    omega

theorem usableLine_getVersionInfo (malformed : List UInt8 → String) (info : CString) {line : Row}
    (h : UsableLine line) : UsableLine (getVersionInfo malformed info line).2 := by
  have hfilled : UsableLine (strncpy info line.length) := by
    rw [UsableLine, length_strncpy]
    exact h
  rw [getVersionInfo, finishVersionInfo]
  split
  case isTrue => exact hfilled
  case isFalse =>
    cases hgrown : growScratch1d (jniGetVersionInfo info line).1
      (int32 ((jniGetVersionInfo info line).2 + 1)) with
    | none => exact hfilled
    | some grown =>
      have husable := usableLine_growScratch1d hfilled (int32_lt _) hgrown
      rw [Option.elim_some, shownInfo, jniGetVersionInfo, UsableLine, length_strncpy]
      exact husable

/-- A thread with its scratch arrays, and what became of its calls that may retry,
the latest first. -/
structure ThreadScratch where
  scratch1d : Option Row
  scratch2d : Option (List Row)
  log : List Retried

inductive StringCall where
  | fetchList (method : MetadataMethod) (query : Query (List CString))
  | getMetadataItem (query : Query CString)
  | getVersionInfo (info : CString)

namespace ThreadScratch

def line (s : ThreadScratch) : Row := s.scratch1d.getD (List.replicate (2 ^ 8) 0)

def matrix (s : ThreadScratch) : List Row := s.scratch2d.getD (blankMatrix (2 ^ 8))

variable (malformed : List UInt8 → String)

def step (s : ThreadScratch) : StringCall → Option ThreadScratch
  | .fetchList method query =>
    let fetched := fetchLists malformed method query s.matrix
    some { s with
      scratch2d := some fetched.2
      log := ⟨fun turn ↦ (query turn).1, s.matrix.length, fetched.1, fetched.2.length⟩ :: s.log }
  | .getMetadataItem query =>
    let fetched := fetchItem malformed query s.line
    some { s with
      scratch1d := some fetched.2
      log := ⟨fun turn ↦ (query turn).1, s.line.length, fetched.1, fetched.2.length⟩ :: s.log }
  | .getVersionInfo info =>
    some { s with scratch1d := some (getVersionInfo malformed info s.line).2 }

def machine : Machine ThreadScratch StringCall where
  init := ⟨none, none, []⟩
  step := step malformed

/-- Every call has returned, with the code of the first native query to fail if one
did, and without larger arrays for it. -/
def AllReturned (s : ThreadScratch) : Prop := ∀ c ∈ s.log, c.Returned

/-- Before the array cannot grow any more, a turn comes at which the query fails
with a code other than `-1` or finds what fits; until then it finds what is too
large. -/
def EndsInTime (s : ThreadScratch) : StringCall → Prop
  | .fetchList _ query =>
    Retryable (Settles ListFits query) (TooSmall ListExceeds query) 0 s.matrix.length
  | .getMetadataItem query =>
    Retryable (Settles ItemFits query) (TooSmall ItemExceeds query) 0 s.line.length
  | .getVersionInfo _ => True

structure Sound (s : ThreadScratch) : Prop where
  matrix : Usable s.matrix
  line : UsableLine s.line

variable {malformed}

theorem line_init : (machine malformed).init.line = List.replicate (2 ^ 8) 0 := rfl

theorem sound_init : Sound (machine malformed).init where
  matrix := usable_blankMatrix (by decide) (by decide)
  line := by
    rw [line_init, UsableLine, List.length_replicate]
    decide

theorem fetchLists_keeps (method : MetadataMethod) (query : Query (List CString)) {rows : List Row}
    (h : Usable rows) {fetched : MetadataOutcome × List Row}
    (hfetched : fetchLists malformed method query rows = fetched) :
    (Retried.Returned ⟨fun turn ↦ (query turn).1, rows.length, fetched.1, fetched.2.length⟩ ↔
      Retryable (Settles ListFits query) (TooSmall ListExceeds query) 0 rows.length) ∧
    (Retried.Returned ⟨fun turn ↦ (query turn).1, rows.length, fetched.1, fetched.2.length⟩ →
      Usable fetched.2) := by
  refine retry_keeps (B := matrices) ?_ ?_ (listAttempt_kind malformed method query) h hfetched
  · exact fun rows h ↦ ⟨Nat.ne_of_gt (Nat.lt_of_lt_of_le (by decide) h.two_le), h.lt⟩
  · exact fun n hn ↦ usable_blankMatrix (by omega) hn.2

theorem fetchItem_keeps (query : Query CString) {line : Row} (h : UsableLine line)
    {fetched : MetadataOutcome × Row} (hfetched : fetchItem malformed query line = fetched) :
    (Retried.Returned ⟨fun turn ↦ (query turn).1, line.length, fetched.1, fetched.2.length⟩ ↔
      Retryable (Settles ItemFits query) (TooSmall ItemExceeds query) 0 line.length) ∧
    (Retried.Returned ⟨fun turn ↦ (query turn).1, line.length, fetched.1, fetched.2.length⟩ →
      UsableLine fetched.2) := by
  refine retry_keeps (B := lines) (fun line h ↦ h) ?_ (itemAttempt_kind malformed query) h hfetched
  intro n hn
  change UsableLine (List.replicate (n * 2) 0)
  rw [UsableLine, List.length_replicate]
  exact ⟨by omega, hn.2⟩

theorem allReturned_cons_iff {s : ThreadScratch} {scratch1d : Option Row}
    {scratch2d : Option (List Row)} {c : Retried} (h : AllReturned s) :
    AllReturned ⟨scratch1d, scratch2d, c :: s.log⟩ ↔ c.Returned :=
  List.forall_mem_cons.trans (and_iff_left h)

theorem step_fetchList (s : ThreadScratch) {method : MetadataMethod}
    {query : Query (List CString)} {fetched : MetadataOutcome × List Row}
    (h : fetchLists malformed method query s.matrix = fetched) :
    s.step malformed (.fetchList method query) = some ⟨s.scratch1d, some fetched.2,
      ⟨fun turn ↦ (query turn).1, s.matrix.length, fetched.1, fetched.2.length⟩ :: s.log⟩ := by
  rw [step, h]

theorem step_getMetadataItem (s : ThreadScratch) {query : Query CString}
    {fetched : MetadataOutcome × Row} (h : fetchItem malformed query s.line = fetched) :
    s.step malformed (.getMetadataItem query) = some ⟨some fetched.2, s.scratch2d,
      ⟨fun turn ↦ (query turn).1, s.line.length, fetched.1, fetched.2.length⟩ :: s.log⟩ := by
  rw [step, h]

theorem step_getVersionInfo (s : ThreadScratch) {info : CString} {shown : Option String × Row}
    (h : getVersionInfo malformed info s.line = shown) :
    s.step malformed (.getVersionInfo info) = some ⟨some shown.2, s.scratch2d, s.log⟩ := by
  rw [step, h]

theorem step_keeps {s s' : ThreadScratch} {call : StringCall} (h : Sound s)
    (hreturned : AllReturned s) (hstep : s.step malformed call = some s') :
    (AllReturned s' ↔ EndsInTime s call) ∧ (AllReturned s' → Sound s') := by
  cases call with
  | fetchList method query =>
    obtain ⟨fetched, hfetched⟩ : ∃ f, fetchLists malformed method query s.matrix = f := ⟨_, rfl⟩
    obtain ⟨hiff, hkeeps⟩ := fetchLists_keeps method query h.matrix hfetched
    rw [step_fetchList s hfetched] at hstep
    cases hstep
    rw [allReturned_cons_iff hreturned, EndsInTime]
    exact ⟨hiff, fun hc ↦ ⟨hkeeps hc, h.line⟩⟩
  | getMetadataItem query =>
    obtain ⟨fetched, hfetched⟩ : ∃ f, fetchItem malformed query s.line = f := ⟨_, rfl⟩
    obtain ⟨hiff, hkeeps⟩ := fetchItem_keeps query h.line hfetched
    rw [step_getMetadataItem s hfetched] at hstep
    cases hstep
    rw [allReturned_cons_iff hreturned, EndsInTime]
    exact ⟨hiff, fun hc ↦ ⟨h.matrix, hkeeps hc⟩⟩
  | getVersionInfo info =>
    obtain ⟨shown, hshown⟩ : ∃ r, getVersionInfo malformed info s.line = r := ⟨_, rfl⟩
    have husable := usableLine_getVersionInfo malformed info h.line
    rw [hshown] at husable
    rw [step_getVersionInfo s hshown] at hstep
    cases hstep
    exact ⟨iff_of_true hreturned trivial, fun _ ↦ ⟨h.matrix, husable⟩⟩

theorem AllReturned.of_step {s s' : ThreadScratch} {call : StringCall}
    (hstep : s.step malformed call = some s') (h : AllReturned s') : AllReturned s := by
  cases call with
  | fetchList =>
    rw [step_fetchList s rfl] at hstep
    cases hstep
    exact (List.forall_mem_cons.mp h).2
  | getMetadataItem =>
    rw [step_getMetadataItem s rfl] at hstep
    cases hstep
    exact (List.forall_mem_cons.mp h).2
  | getVersionInfo =>
    rw [step_getVersionInfo s rfl] at hstep
    cases hstep
    exact h

/-- Every call of a thread returns properly exactly if each ends in time. -/
theorem all_returned_iff (malformed : List UInt8 → String) (calls : List StringCall) :
    (machine malformed).EveryState AllReturned (machine malformed).init calls ↔
      (machine malformed).EveryStep EndsInTime (machine malformed).init calls := by
  refine Machine.everyState_iff_of_invariant (I := fun s ↦ AllReturned s → Sound s) ?_ ?_ ?_ ?_
  · intro s call s' h hstep hreturned
    have hbefore := hreturned.of_step hstep
    exact (step_keeps (h hbefore) hbefore hstep).2 hreturned
  · exact fun s call s' h hreturned hstep ↦ (step_keeps (h hreturned) hreturned hstep).1
  · exact fun _ ↦ sound_init
  · exact nofun

def appDefinedFirst : Query CString := fun turn ↦ (if turn = 0 then -cpleAppDefined else -4, none)

theorem fetchItem_appDefinedFirst (malformed : List UInt8 → String) :
    fetchItem malformed appDefinedFirst (List.replicate (2 ^ 8) 0) =
      (.failed (-4), List.replicate (2 ^ 9) 0) := by
  have hsize : lines.size (List.replicate (2 ^ 8) 0) = 2 ^ 8 := List.length_replicate
  have hfirst : itemAttempt malformed appDefinedFirst 0 (List.replicate (2 ^ 8) 0) =
      (none, List.replicate (2 ^ 8) 0) := attempt_again rfl
  have hsecond : itemAttempt malformed appDefinedFirst 1 (List.replicate (2 ^ 9) 0) =
      (some (.failed (-4)), List.replicate (2 ^ 9) 0) :=
    attempt_failed rfl (by decide) (by decide)
  rw [fetchItem, Buffers.retry_again hfirst (by rw [hsize]; decide), hsize]
  exact Buffers.retry_done hsecond

theorem failed_query_retried :
    ¬ (machine fun _ ↦ "?").EveryState AllReturned (machine fun _ ↦ "?").init
      [.getMetadataItem appDefinedFirst] := by
  intro h
  have hlast := (h.2 _ (step_getMetadataItem _ (fetchItem_appDefinedFirst _))).head _
    List.mem_cons_self
  obtain ⟨k, hearlier, hsize, -⟩ := hlast
  cases k with
  | zero =>
    simp only [line_init, List.length_replicate] at hsize
    exact absurd hsize (by decide)
  | succ k => exact absurd (hearlier 0 (by omega)) (by decide)

end ThreadScratch

end GdalWarp.Bindings
