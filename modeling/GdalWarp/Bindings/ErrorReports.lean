import GdalWarp.Foundation.ProgramLogic
import GdalWarp.Bindings.Operations
import GdalWarp.Bindings.Attempts

namespace GdalWarp.Bindings

open Foundation Foundation.Program

abbrev Trace := List (Σ c, Reply c)

/-- The call reports failure: no such band, or a status other than none. -/
def Call.fails : (c : Call) → Reply c → Prop
  | .getRasterBand _ _, band => band = none
  | .getRasterHistogramEx .., r => r.1 ≠ 0
  | .osrExportToProj4 _, r => r.1 ≠ 0
  | .getGeoTransform _, r => r.1 ≠ 0
  | .computeRasterMinMax _ _, r => r.1 ≠ 0
  | .rasterIo _ _, r => r.1 ≠ 0
  | _, _ => False

/-- What GDAL documents: a null band is an error, a band answers whether it has
a minimum and a maximum, error numbers are not negative. -/
def Documented : (c : Call) → Reply c → Prop
  | .getRasterHistogramEx band .., r => band = none → r.1 ≠ 0
  | .rasterIo band _, r => band = none → r.1 ≠ 0
  | .getMetadataList _ (.band band), r => band = none → r = none
  | .getMetadataItem (.band band) _ _, r => band = none → r = none
  | .getRasterMinimum band, r => band ≠ none → r.2 ≠ none
  | .getRasterMaximum band, r => band ≠ none → r.2 ≠ none
  | .getLastErrno, r => 0 ≤ r
  | _, _ => True

def Reports (tr : Trace) : Prop := ∃ e ∈ tr, e.1.fails e.2

def TimesDiffer (tr : Trace) : Prop :=
  ∃ before after, ⟨.getLastErrnoTimestamp, before⟩ ∈ tr ∧
    ⟨.getLastErrnoTimestamp, after⟩ ∈ tr ∧ before ≠ after

def Computed (tr : Trace) : Prop :=
  (∃ band r, ⟨.computeRasterMinMax band true, r⟩ ∈ tr ∧ r.1 = 0) ∨
  ∃ band minimum maximum, ⟨.getRasterMinimum band, minimum⟩ ∈ tr ∧ minimum.2.getD 0 ≠ 0 ∧
    ⟨.getRasterMaximum band, maximum⟩ ∈ tr ∧ maximum.2.getD 0 ≠ 0

def finalFlag (flag : ℤ) (ans : Answer MinMax) : ℤ :=
  match ans.out with
  | some minmax => minmax.success
  | none => flag

def FlagHonest : (op : Operation) → Trace → Answer op.Out → Prop
  | .getBandMaxMin _ _ _ flag, tr, ans => finalFlag flag ans ≠ 0 → Computed tr
  | _, _, _ => True

def Honest (op : Operation) (tr : Trace) (ans : Answer op.Out) : Prop :=
  (Reports tr → ans.code ≠ attemptSuccessful) ∧ FlagHonest op tr ans

/-- The operation looks at the status of its calls, or there is nothing to see. -/
def Checked (op : Operation) (tr : Trace) : Prop :=
  match op with
  | .getHistogram .. | .getMetadataItem .. | .getPixels .. => True
  | .getMetadataDomainList .. | .getMetadata .. => Reports tr → TimesDiffer tr
  | .getBandMaxMin _ _ _ flag => ¬ Reports tr ∧ (tr = [] → flag = 0)
  | _ => ¬ Reports tr

@[simp] theorem reports_nil : Reports [] ↔ False := by simp [Reports]

@[simp] theorem reports_cons {c : Call} {r : Reply c} {tr : Trace} :
    Reports (⟨c, r⟩ :: tr) ↔ c.fails r ∨ Reports tr := by
  simp [Reports]

theorem tryLock_ensures {α : Type} {body : Task (Answer α)} {P : Trace → Answer α → Prop} :
    (tryLock body).Ensures Documented P ↔
      body.Ensures Documented P ∧ P [] ⟨datasetLocked, none⟩ := by
  simp [tryLock]

theorem failure_ensures {α : Type} {out : α} {P : Trace → Answer α → Prop}
    (h : ∀ e code, code < 0 → P [⟨.getLastErrno, e⟩] ⟨code, some out⟩) :
    (failure out).Ensures Documented P := by
  simp only [failure, call, perform, bind_eq, Program.bind, ensures_call]
  intro (e : ℤ) (he : 0 ≤ e)
  by_cases hzero : e = 0
  · rw [if_pos hzero]
    exact ensures_ret.mpr (h e _ (by decide))
  · rw [if_neg hzero]
    exact ensures_ret.mpr (h e _ (by omega))

def Settled (code : ℤ) : Prop := code = attemptSuccessful ∨ code < 0

theorem settled_locked : Settled datasetLocked := Or.inr (by decide)

theorem ne_attemptSuccessful {code : ℤ} (h : code < 0) : code ≠ attemptSuccessful := by
  intro hx
  rw [hx] at h
  exact absurd h (by decide)

theorem checked_ensures {α : Type} {c : Prop} [Decidable c] {out : α}
    {P : Trace → Answer α → Prop} (hgood : c → P [] ⟨attemptSuccessful, some out⟩)
    (hbad : ¬ c → ∀ e code, code < 0 → P [⟨.getLastErrno, e⟩] ⟨code, some out⟩) :
    (if c then success out else failure out).Ensures Documented P := by
  by_cases h : c
  · rw [if_pos h]
    exact ensures_ret.mpr (hgood h)
  · rw [if_neg h]
    exact failure_ensures (hbad h)

def Reliable {α : Type} (tr : Trace) (ans : Answer α) : Prop :=
  (Reports tr → ans.code ≠ attemptSuccessful) ∧ Settled ans.code

def Careless {α : Type} (tr : Trace) (ans : Answer α) : Prop :=
  ((Reports tr → ans.code ≠ attemptSuccessful) ↔ ¬ Reports tr) ∧ Settled ans.code

theorem reliable_of_neg {α : Type} {tr : Trace} {ans : Answer α} (h : ans.code < 0) :
    Reliable tr ans :=
  ⟨fun _ ↦ ne_attemptSuccessful h, Or.inr h⟩

theorem careless_of_success {α : Type} {body : Task (Answer α)}
    (h : body.Ensures Documented fun _ ans ↦ ans.code = attemptSuccessful) :
    (tryLock body).Ensures Documented Careless := by
  refine tryLock_ensures.mpr ⟨h.mono fun tr ans hcode ↦ ⟨?_, Or.inl hcode⟩, ?_⟩
  · simp only [hcode, ne_eq, not_true_eq_false]
  · exact ⟨by simp, settled_locked⟩

theorem readBand_careless (getter : BandGetter) (dataset bandNumber : ℤ) :
    (readBand getter dataset bandNumber).Ensures Documented Careless := by
  apply careless_of_success
  simp

theorem getOverviewWidthsHeights_careless (dataset bandNumber maxLength : ℤ) :
    (getOverviewWidthsHeights dataset bandNumber maxLength).Ensures Documented Careless := by
  apply careless_of_success
  simp only [call, perform, bind_eq, Program.bind, ensures_call]
  intro band _ count _
  apply Ensures.bind
  intro tr sizes _ _
  simp

theorem getHistogram_reliable (dataset bandNumber : ℤ) (lower upper : Double)
    (numBuckets includeOutOfRange approxOk : ℤ) :
    (getHistogram dataset bandNumber lower upper numBuckets includeOutOfRange approxOk).Ensures
      Documented Reliable := by
  refine tryLock_ensures.mpr ⟨?_, reliable_of_neg (by decide)⟩
  simp only [call, perform, release, bind_eq, Program.bind, ensures_call, ensures_unlock]
  intro bandh _ retval hretval
  refine checked_ensures (fun hstatus ↦ ?_) fun _ e code hcode ↦ reliable_of_neg hcode
  have hband : bandh ≠ none := fun hx ↦ hretval hx hstatus
  simp [Reliable, Settled, Call.fails, hstatus, hband]

theorem getPixels_reliable (dataset bandNumber : ℤ) (window : Window) :
    (getPixels dataset bandNumber window).Ensures Documented Reliable := by
  simp only [getPixels, call, perform, release, bind_eq, Program.bind, ensures_call]
  intro band _
  refine tryLock_ensures.mpr ⟨?_, reliable_of_neg (by decide)⟩
  simp only [ensures_call, ensures_unlock]
  intro retval hretval
  refine checked_ensures (fun hstatus ↦ ?_) fun _ e code hcode ↦ reliable_of_neg hcode
  have hband : band ≠ none := fun hx ↦ hretval hx hstatus
  simp [Reliable, Settled, Call.fails, hstatus, hband]

theorem majorObject_ensures {dataset bandNumber : ℤ} {P : Trace → MajorObject → Prop}
    (hfile : P [] (.dataset dataset))
    (hband : ∀ band, P [⟨.getRasterBand dataset bandNumber, band⟩] (.band band)) :
    (majorObject dataset bandNumber).Ensures Documented P := by
  unfold majorObject
  split
  · exact ensures_ret.mpr hfile
  · simp only [call, perform, bind_eq, Program.bind, pure_eq, ensures_call, ensures_ret]
    exact fun band _ ↦ hband band

theorem getMetadataItem_reliable (dataset bandNumber : ℤ) (key : String)
    (domain : Option String) :
    (getMetadataItem dataset bandNumber key domain).Ensures Documented Reliable := by
  refine tryLock_ensures.mpr ⟨?_, reliable_of_neg (by decide)⟩
  apply Ensures.bind
  apply majorObject_ensures
  all_goals
    simp only [call, perform, release, bind_eq, Program.bind, ensures_call, ensures_unlock]
  · intro value _
    refine checked_ensures (fun hvalue ↦ ?_) fun _ e code hcode ↦ reliable_of_neg hcode
    simp [Reliable, Settled, Call.fails]
  · intro band value hdoc
    refine checked_ensures (fun hvalue ↦ ?_) fun _ e code hcode ↦ reliable_of_neg hcode
    have hband : band ≠ none := fun hx ↦ hvalue (hdoc hx)
    simp [Reliable, Settled, Call.fails, hband]

theorem readMetadata_ensures (getter : MetadataGetter) (dataset bandNumber : ℤ) :
    (readMetadata getter dataset bandNumber).Ensures Documented fun tr ans ↦
      ((Reports tr → ans.code ≠ attemptSuccessful) ↔ (Reports tr → TimesDiffer tr)) ∧
        Settled ans.code := by
  refine tryLock_ensures.mpr ⟨?_, by simp, settled_locked⟩
  simp only [call, perform, bind_eq, Program.bind, ensures_call]
  intro before _
  apply Ensures.bind
  apply majorObject_ensures
  all_goals
    simp only [release, Program.bind, ensures_call, ensures_unlock]
  · intro list _ after _
    refine checked_ensures (fun _ ↦ ?_) fun _ e code hcode ↦ ?_
    · simp [Call.fails, Settled]
    · simp [Call.fails, Settled, hcode]
  · intro band list hdoc after _
    refine checked_ensures (fun hgood ↦ ⟨?_, Or.inl rfl⟩) fun hbad e code hcode ↦ ⟨?_, Or.inr hcode⟩
    · cases band with
      | none =>
        have hequal : before = after := hgood.resolve_left fun hx ↦ hx (hdoc rfl)
        simp [Call.fails, TimesDiffer, hequal]
      | some band => simp [Call.fails]
    · have hdiffer : before ≠ after := fun hx ↦ hbad (Or.inr hx)
      have htimes : TimesDiffer ([⟨.getLastErrnoTimestamp, before⟩,
          ⟨.getRasterBand dataset bandNumber, band⟩, ⟨.getMetadataList getter (.band band), list⟩,
          ⟨.getLastErrnoTimestamp, after⟩, ⟨.getLastErrno, e⟩]) :=
        ⟨before, after, by simp, by simp, hdiffer⟩
      exact iff_of_true (fun _ ↦ ne_attemptSuccessful hcode) fun _ ↦ htimes

def FlagRule (flag : ℤ) (tr : Trace) (ans : Answer MinMax) : Prop :=
  ((Reports tr → ans.code ≠ attemptSuccessful) ∧ (finalFlag flag ans ≠ 0 → Computed tr) ↔
    ¬ Reports tr ∧ (tr = [] → flag = 0)) ∧ Settled ans.code

theorem flagRule_of_success {tr : Trace} {out : MinMax} {flag : ℤ} (hne : tr ≠ [])
    (h : ¬ Reports tr → out.success ≠ 0 → Computed tr) :
    FlagRule flag tr ⟨attemptSuccessful, some out⟩ := by
  refine ⟨⟨fun hx ↦ ?_, fun hx ↦ ?_⟩, Or.inl rfl⟩
  · exact ⟨fun hr ↦ hx.1 hr rfl, fun hnil ↦ absurd hnil hne⟩
  · exact ⟨fun hr ↦ absurd hr hx.1, h hx.1⟩

theorem getBandMaxMin_flagRule (dataset bandNumber approxOkay flag : ℤ) :
    (getBandMaxMin dataset bandNumber approxOkay flag).Ensures Documented (FlagRule flag) := by
  refine tryLock_ensures.mpr ⟨?_, by simp [FlagRule, finalFlag, Computed, settled_locked]⟩
  simp only [call, perform, bind_eq, Program.bind, ensures_call]
  intro band _
  split
  · simp only [release, success, Program.bind, pure_eq, ensures_call, ensures_unlock, ensures_ret]
    intro minmax _
    refine flagRule_of_success (by simp) fun hnone _ ↦ Or.inl ⟨band, minmax, by simp, ?_⟩
    by_contra hne
    exact hnone (by simp [Call.fails, hne])
  · simp only [ensures_call]
    intro minimum hmin
    by_cases hflag : minimum.2.getD flag ≠ 0
    · simp only [if_pos hflag, release, success, Program.bind, pure_eq, ensures_call,
        ensures_unlock, ensures_ret]
      intro maximum hmax
      refine flagRule_of_success (by simp) fun hnone hfinal ↦ ?_
      have hband : band ≠ none := fun hx ↦ hnone (by simp [Call.fails, hx])
      have hwritten : minimum.2.getD 0 ≠ 0 := by
        obtain ⟨m, hm⟩ := Option.ne_none_iff_exists'.mp (hmin hband)
        simpa [hm] using hflag
      have hwritten' : maximum.2.getD 0 ≠ 0 := by
        obtain ⟨m, hm⟩ := Option.ne_none_iff_exists'.mp (hmax hband)
        simpa [hm] using hfinal
      exact Or.inr ⟨band, minimum, maximum, by simp, hwritten, by simp, hwritten'⟩
    · simp only [if_neg hflag, release, success, Program.bind, pure_eq, ensures_unlock,
        ensures_ret]
      exact flagRule_of_success (by simp) fun _ hfinal ↦ absurd hfinal hflag

theorem program_ensures (op : Operation) :
    op.program.Ensures Documented fun tr ans ↦
      (Honest op tr ans ↔ Checked op tr) ∧ Settled ans.code := by
  have hcareless {α : Type} {p : Task (Answer α)} (h : p.Ensures Documented Careless) :
      p.Ensures Documented fun tr ans ↦ ((Reports tr → ans.code ≠ attemptSuccessful) ∧ True ↔
        ¬ Reports tr) ∧ Settled ans.code :=
    h.mono fun tr ans hx ↦ ⟨by rw [and_true]; exact hx.1, hx.2⟩
  have hreliable {α : Type} {p : Task (Answer α)} (h : p.Ensures Documented Reliable) :
      p.Ensures Documented fun tr ans ↦ ((Reports tr → ans.code ≠ attemptSuccessful) ∧ True ↔
        True) ∧ Settled ans.code :=
    h.mono fun tr ans hx ↦ ⟨iff_of_true ⟨hx.1, trivial⟩ trivial, hx.2⟩
  have hmetadata (getter : MetadataGetter) (d b : ℤ) :
      (readMetadata getter d b).Ensures Documented fun tr ans ↦
        ((Reports tr → ans.code ≠ attemptSuccessful) ∧ True ↔ (Reports tr → TimesDiffer tr)) ∧
          Settled ans.code :=
    (readMetadata_ensures getter d b).mono fun tr ans hx ↦ ⟨by rw [and_true]; exact hx.1, hx.2⟩
  cases op with
  | getHistogram d b lower upper k oor approx => exact hreliable (getHistogram_reliable d b lower upper k oor approx)
  | getMetadataItem d b key domain => exact hreliable (getMetadataItem_reliable d b key domain)
  | getPixels d b window => exact hreliable (getPixels_reliable d b window)
  | getMetadataDomainList d b => exact hmetadata _ d b
  | getMetadata d b domain => exact hmetadata _ d b
  | getBandMaxMin d b approx flag => exact getBandMaxMin_flagRule d b approx flag
  | getBlockSize d b | getOffset d b | getScale d b | getColorInterpretation d b
  | getBandNodata d b | getBandDataType d b => exact hcareless (readBand_careless _ d b)
  | getOverviewWidthsHeights d b k =>
    exact hcareless (getOverviewWidthsHeights_careless d b k)
  | noop | getCrsProj4 d k | getCrsWkt d k | getBandCount d | getTransform d
  | getWidthHeight d =>
    refine hcareless (careless_of_success ?_)
    simp

def Unsuccessful (op : Operation) (o : ℤ) : Prop :=
  ∃ tr ans, op.program.Runs tr ans ∧ (∀ e ∈ tr, Documented e.1 e.2) ∧ ans.code = o ∧
    (o = datasetLocked ∨ Reports tr ∧ Checked op tr)

theorem Unsuccessful.neg {op : Operation} {o : ℤ} (h : Unsuccessful op o) : o < 0 := by
  obtain ⟨tr, ans, hruns, hdoc, rfl, hwhy⟩ := h
  obtain ⟨hiff, hsettled⟩ := program_ensures op tr ans hruns hdoc
  rcases hwhy with hlocked | ⟨hreports, hchecked⟩
  · rw [hlocked]
    decide
  · exact hsettled.resolve_left ((hiff.mpr hchecked).1 hreports)

/-- An operation is honest about the failures of its calls exactly when it
looks at their status, and then a call of the library comes back negative. -/
theorem honest_iff_checked (op : Operation) :
    (∀ tr ans, op.program.Runs tr ans → (∀ e ∈ tr, Documented e.1 e.2) →
      (Honest op tr ans ↔ Checked op tr)) ∧
    ∀ attempts nanos start pair rounds, 0 < attempts → attempts ≤ rounds.length →
      rounds.length < 2 ^ 31 → (∀ o ∈ outcomes rounds, Unsuccessful op o) →
        ∃ r, doit attempts nanos start (some pair) rounds = some r ∧ r.value < 0 := by
  constructor
  · exact fun tr ans hruns hdoc ↦ (program_ensures op tr ans hruns hdoc).1
  · intro attempts nanos start pair rounds hpos henough hlen hall
    obtain ⟨r, hr⟩ : ∃ r, doitLoop attempts nanos start .start rounds = some r :=
      doitLoop_returns hpos (Made.start attempts) hlen henough
    exact ⟨r, hr, doitLoop_neg rfl (Or.inr (start_loops attempts)) (fun o ho ↦ (hall o ho).neg) hr⟩

def missingBand : Trace :=
  [⟨.getRasterBand 1 9, none⟩, ⟨.getRasterHistogramEx none 0 1 4 0 0, (3, [])⟩, ⟨.getLastErrno, 5⟩]

theorem honest_iff_checked_missing_band :
    Honest (.getHistogram 1 9 0 1 4 0 0) missingBand ⟨-5, some []⟩ ∧
    ∃ r, doit 1 0 0 (some ("a.tif", [])) [answered [-5]] = some r ∧ r.value < 0 := by
  have hruns : (Operation.getHistogram 1 9 0 1 4 0 0).program.Runs missingBand ⟨-5, some []⟩ :=
    ⟨true, _, _, rfl, _, _, rfl, _, _, rfl, rfl, rfl⟩
  have hdoc : ∀ e ∈ missingBand, Documented e.1 e.2 := by
    simp [missingBand, Documented]
  obtain ⟨hhonest, hnegative⟩ := honest_iff_checked (.getHistogram 1 9 0 1 4 0 0)
  refine ⟨(hhonest _ _ hruns hdoc).mpr trivial, hnegative 1 0 0 ("a.tif", []) [answered [-5]]
    (by decide) (by decide) (by decide) fun o ho ↦ ?_⟩
  obtain rfl := List.mem_singleton.mp ho
  exact ⟨missingBand, _, hruns, hdoc, rfl, Or.inr ⟨by simp [missingBand, Call.fails], trivial⟩⟩

theorem get_block_size_not_honest :
    ∃ tr ans, (Operation.getBlockSize 1 9).program.Runs tr ans ∧
      (∀ e ∈ tr, Documented e.1 e.2) ∧ Reports tr ∧ ans.code = attemptSuccessful ∧
      ¬ Honest (.getBlockSize 1 9) tr ans ∧
      doit 2 0 0 (some ("a.tif", [])) [answered [ans.code]] = some ⟨1, [attemptSuccessful]⟩ := by
  refine ⟨[⟨.getRasterBand 1 9, none⟩, ⟨.getBand .blockSize none, none⟩],
    ⟨attemptSuccessful, some none⟩, ⟨true, _, _, rfl, _, _, rfl, rfl, rfl⟩, ?_, ?_, rfl, ?_, ?_⟩
  · simp [Documented]
  · simp [Call.fails]
  · simp [Honest, Call.fails]
  · decide

end GdalWarp.Bindings
