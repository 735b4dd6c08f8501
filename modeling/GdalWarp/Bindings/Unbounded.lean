import GdalWarp.Bindings.Doit

namespace GdalWarp.Bindings

open Locals

def localsAfter (rounds : List Round) : Locals :=
  rounds.foldl (fun l r ↦ l.tryAll r.outcomes) .start

structure Fruitless (rounds : List Round) : Prop where
  found : ∀ r ∈ rounds, r.outcomes ≠ []
  failed : attemptSuccessful ∉ outcomes rounds

theorem localsAfter_concat (past : List Round) (r : Round) :
    localsAfter (past ++ [r]) = (localsAfter past).tryAll r.outcomes := by
  rw [localsAfter, List.foldl_append]
  rfl

theorem outcomes_subset {rounds rounds' : List Round} (h : rounds ⊆ rounds') :
    outcomes rounds ⊆ outcomes rounds' := fun _ ho ↦
  let ⟨r, hr, hor⟩ := List.mem_flatMap.mp ho
  List.mem_flatMap.mpr ⟨r, h hr, hor⟩

theorem Fruitless.subset {rounds rounds' : List Round} (h : Fruitless rounds')
    (hsub : rounds ⊆ rounds') : Fruitless rounds :=
  ⟨fun r hr ↦ h.found r (hsub hr), fun ho ↦ h.failed (outcomes_subset hsub ho)⟩

section

variable {attempts : ℤ}

theorem loops_of_nonpos (hattempts : attempts ≤ 0) {l : Locals} (h : l.done = false) :
    l.loops attempts = true := by
  simp [loops, hattempts, h]

theorem made_localsAfter (hattempts : attempts ≤ 0) {past : List Round}
    (h : attemptSuccessful ∉ outcomes past.dropLast) : Made attempts past (localsAfter past) := by
  induction past using List.reverseRecOn with
  | nil => exact .start attempts
  | append_singleton past r ih =>
    rw [List.dropLast_concat] at h
    have hmade := ih fun ho ↦ h (outcomes_subset (List.dropLast_subset past) ho)
    have hdone : (localsAfter past).done = false := by
      rw [← Bool.not_eq_true, hmade.done]
      exact h
    rw [localsAfter_concat]
    exact hmade.round (loops_of_nonpos hattempts hdone) (fun hpos ↦ absurd hpos (by omega)) r

theorem Fruitless.made (hattempts : attempts ≤ 0) {past : List Round} (h : Fruitless past) :
    Made attempts past (localsAfter past) :=
  made_localsAfter hattempts (h.subset (List.dropLast_subset past)).failed

theorem Fruitless.done (hattempts : attempts ≤ 0) {past : List Round} (h : Fruitless past) :
    (localsAfter past).done = false := by
  rw [← Bool.not_eq_true, (h.made hattempts).done]
  exact h.failed

theorem doitLoop_round {start : UInt64} {l : Locals} {r : Round}
    (hloops : l.loops attempts = true) (hfound : r.outcomes ≠ []) (rounds : List Round) :
    doitLoop attempts 0 start l (r :: rounds) =
      doitLoop attempts 0 start (l.tryAll r.outcomes) rounds := by
  have hbudget : timedOut 0 start r.now = false := by simp [timedOut]
  have hlength : r.outcomes.length ≠ 0 := by simpa using hfound
  rw [doitLoop, if_pos hloops, hbudget, if_neg Bool.false_ne_true, if_neg hlength]

theorem doitLoop_fruitless (hattempts : attempts ≤ 0) (start : UInt64) {past : List Round}
    (h : Fruitless past) (rounds : List Round) :
    doitLoop attempts 0 start .start (past ++ rounds) =
      doitLoop attempts 0 start (localsAfter past) rounds := by
  induction past using List.reverseRecOn generalizing rounds with
  | nil => rfl
  | append_singleton past r ih =>
    have hpast : Fruitless past := h.subset (List.subset_append_left past [r])
    have hloops := loops_of_nonpos hattempts (hpast.done hattempts)
    rw [List.append_assoc, List.singleton_append, ih hpast,
      doitLoop_round hloops (h.found r (by simp)), localsAfter_concat]

end

/-- Rounds in which every dataset is found locked. -/
def Contended (rounds : List Round) : Prop :=
  ∀ r ∈ rounds, r.outcomes ≠ [] ∧ ∀ o ∈ r.outcomes, o = datasetLocked

theorem Contended.fruitless {rounds : List Round} (h : Contended rounds) : Fruitless rounds := by
  refine ⟨fun r hr ↦ (h r hr).1, fun hmem ↦ ?_⟩
  obtain ⟨r, hr, ho⟩ := List.mem_flatMap.mp hmem
  exact absurd ((h r hr).2 _ ho) (by decide)

/-- Both counters stay in the range of `int`: they are the numbers of rounds and
of invocations made. -/
def Counts (rounds : List Round) : Prop :=
  ∀ past, past <+: rounds → (localsAfter past).i = past.length ∧
    (localsAfter past).touched = (localsAfter past).invoked.length

/-- What the mode without a bound promises of a wait that `last` ends. -/
structure Waits (start : UInt64) (pair : UriOptions) (busy : List Round) (last : Round)
    (later : List Round) : Prop where
  counts : Counts (busy ++ [last])
  returns : ∃ r, doit 0 0 start (some pair) (busy ++ last :: later) = some r ∧
    r.invoked = outcomes busy ++ invocations last.outcomes ∧ r.value = r.invoked.length ∧
      0 < r.value

theorem int32_eq_self_iff {k : ℕ} : int32 k = k ↔ k < 2 ^ 31 := by
  refine ⟨fun h ↦ ?_, int32_natCast⟩
  have hlt : (k : ℤ).bmod (2 ^ 32) < (2 ^ 32 + 1) / 2 := Int.bmod_lt (by decide)
  rw [← int32, h] at hlt
  omega

theorem length_le_outcomes {rounds : List Round} (h : ∀ r ∈ rounds, r.outcomes ≠ []) :
    rounds.length ≤ (outcomes rounds).length := by
  induction rounds with
  | nil => exact le_rfl
  | cons r rounds ih =>
    have hr := List.length_pos_iff.mpr (h r List.mem_cons_self)
    have hrest := ih fun q hq ↦ h q (List.mem_cons_of_mem r hq)
    rw [outcomes, List.flatMap_cons, List.length_append, List.length_cons]
    rw [outcomes] at hrest
    omega

theorem made_contended {busy : List Round} (hbusy : Contended busy) (last : Round) :
    Made 0 (busy ++ [last]) (localsAfter (busy ++ [last])) :=
  made_localsAfter le_rfl (by rw [List.dropLast_concat]; exact hbusy.fruitless.failed)

theorem invoked_contended {busy : List Round} (hbusy : Contended busy) (last : Round) :
    (localsAfter (busy ++ [last])).invoked = outcomes busy ++ invocations last.outcomes := by
  have hsingle : outcomes [last] = last.outcomes := List.flatMap_singleton ..
  rw [(made_contended hbusy last).invoked, outcomes_append,
    invocations_append hbusy.fruitless.failed, hsingle]

theorem code_contended {busy : List Round} (hbusy : Contended busy) {last : Round}
    (hlast : attemptSuccessful ∈ last.outcomes) :
    (localsAfter (busy ++ [last])).code = attemptSuccessful := by
  obtain ⟨ys, -, hys⟩ := invocations_success hlast
  rw [(made_contended hbusy last).code, invoked_contended hbusy last, hys]
  simp

theorem doit_contended (start : UInt64) (pair : UriOptions) {busy : List Round}
    (hbusy : Contended busy) {last : Round} (hlast : attemptSuccessful ∈ last.outcomes)
    (later : List Round) : doit 0 0 start (some pair) (busy ++ last :: later) =
      some ⟨(localsAfter (busy ++ [last])).result 0, (localsAfter (busy ++ [last])).invoked⟩ := by
  have hfruitless := hbusy.fruitless
  have hdone : (localsAfter (busy ++ [last])).done = true := by
    rw [(made_contended hbusy last).done, outcomes_append, outcomes, outcomes,
      List.flatMap_singleton]
    exact List.mem_append_right _ hlast
  have hstop : (localsAfter (busy ++ [last])).loops 0 = false := by simp [loops, hdone]
  have hloops := loops_of_nonpos le_rfl (hfruitless.done le_rfl)
  rw [doit, doitLoop_fruitless le_rfl start hfruitless,
    doitLoop_round hloops (List.ne_nil_of_mem hlast), ← localsAfter_concat]
  cases later with
  | nil => rw [doitLoop, hstop, if_neg Bool.false_ne_true]
  | cons r later => rw [doitLoop, hstop, if_neg Bool.false_ne_true]

theorem length_le_invoked {busy : List Round} (hbusy : Contended busy) {last : Round}
    (hlast : attemptSuccessful ∈ last.outcomes) {past : List Round}
    (hpast : past <+: busy ++ [last]) :
    past.length ≤ (localsAfter past).invoked.length ∧ (localsAfter past).invoked.length ≤
      (outcomes busy).length + (invocations last.outcomes).length := by
  rcases List.prefix_concat_iff.mp hpast with rfl | hprefix
  · have hrounds := length_le_outcomes hbusy.fruitless.found
    obtain ⟨ys, -, hys⟩ := invocations_success hlast
    rw [invoked_contended hbusy last, List.length_append, List.length_append, List.length_singleton,
      hys, List.length_append, List.length_singleton]
    omega
  · obtain ⟨rest, rfl⟩ := hprefix
    have hfruitless : Fruitless past :=
      hbusy.fruitless.subset (List.subset_append_left past rest)
    have hrounds := length_le_outcomes hfruitless.found
    rw [(hfruitless.made le_rfl).invoked, invocations_eq_self hfruitless.failed, outcomes_append,
      List.length_append]
    omega

/-- Counters that have not wrapped round give the number of invocations. -/
theorem waits_of_counts (start : UInt64) (pair : UriOptions) {busy : List Round}
    (hbusy : Contended busy) {last : Round} (hlast : attemptSuccessful ∈ last.outcomes)
    (later : List Round) (hcounts : Counts (busy ++ [last])) : Waits start pair busy last later := by
  have hinvoked := invoked_contended hbusy last
  obtain ⟨hi, htouched⟩ := hcounts _ List.prefix_rfl
  obtain ⟨ys, -, hys⟩ := invocations_success hlast
  have hpos : 0 < (localsAfter (busy ++ [last])).invoked.length := by
    rw [hinvoked, hys, List.length_append, List.length_append, List.length_singleton]
    omega
  have hrounds : 0 < (localsAfter (busy ++ [last])).i := by
    rw [hi, List.length_append, List.length_singleton]
    omega
  have hresult : (localsAfter (busy ++ [last])).result 0 =
      (localsAfter (busy ++ [last])).invoked.length := by
    rw [result, if_pos ⟨code_contended hbusy hlast, Or.inr ⟨hrounds, rfl⟩⟩, htouched]
  refine ⟨hcounts, _, doit_contended start pair hbusy hlast later, hinvoked, hresult, ?_⟩
  rw [hresult]
  exact Int.natCast_pos.mpr hpos

/-- The unbounded wait keeps its promise exactly when fewer than 2 ^ 31
invocations end it. -/
theorem waits_iff_few_invocations (start : UInt64) (pair : UriOptions) {busy : List Round}
    (hbusy : Contended busy) {last : Round} (hlast : attemptSuccessful ∈ last.outcomes)
    (later : List Round) : Waits start pair busy last later ↔
      (outcomes busy).length + (invocations last.outcomes).length < 2 ^ 31 := by
  have hmade (past : List Round) (hpast : past <+: busy ++ [last]) :
      Made 0 past (localsAfter past) := by
    refine made_localsAfter le_rfl fun ho ↦ hbusy.fruitless.failed ?_
    rcases List.prefix_concat_iff.mp hpast with rfl | hprefix
    · rwa [List.dropLast_concat] at ho
    · exact outcomes_subset (fun r hr ↦ hprefix.subset (List.dropLast_subset past hr)) ho
  have hinvoked := invoked_contended hbusy last
  have htotal : (localsAfter (busy ++ [last])).invoked.length =
      (outcomes busy).length + (invocations last.outcomes).length := by
    rw [hinvoked, List.length_append]
  constructor
  · intro h
    have htouched := (h.counts _ List.prefix_rfl).2
    rw [(hmade _ List.prefix_rfl).touched, int32_eq_self_iff, htotal] at htouched
    exact htouched
  · intro hfew
    refine waits_of_counts start pair hbusy hlast later fun past hpast ↦ ?_
    obtain ⟨hrounds, hmore⟩ := length_le_invoked hbusy hlast hpast
    have h := hmade past hpast
    exact ⟨h.i.trans (int32_natCast (by omega)), h.touched.trans (int32_natCast (by omega))⟩

def lockedRound : Round := ⟨0, [datasetLocked]⟩

def successRound : Round := ⟨0, [attemptSuccessful]⟩

theorem contended_replicate (k : ℕ) : Contended (List.replicate k lockedRound) := by
  intro r hr
  rw [List.eq_of_mem_replicate hr]
  exact ⟨by decide, by decide⟩

theorem length_outcomes_replicate (k : ℕ) :
    (outcomes (List.replicate k lockedRound)).length = k := by
  induction k with
  | zero => rfl
  | succ k ih =>
    rw [List.replicate_succ, outcomes, List.flatMap_cons, List.length_append, ← outcomes, ih]
    exact Nat.add_comm 1 k

theorem waits_iff_few_invocations_second_round :
    Waits 0 ("a.tif", []) [lockedRound] successRound [] :=
  (waits_iff_few_invocations 0 ("a.tif", []) (contended_replicate 1) (by decide) []).mpr
    (by decide)

theorem long_wait_returns_negative :
    (∃ r, doit 0 0 0 (some ("a.tif", []))
      (List.replicate (2 ^ 31) lockedRound ++ [successRound]) = some r ∧ r.value < 0) ∧
    ¬ Waits 0 ("a.tif", []) (List.replicate (2 ^ 31) lockedRound) successRound [] := by
  have hbusy := contended_replicate (2 ^ 31)
  have hlast : attemptSuccessful ∈ successRound.outcomes := List.mem_singleton_self _
  have hmade := made_contended hbusy successRound
  have hcount : (localsAfter (List.replicate (2 ^ 31) lockedRound ++ [successRound])).invoked.length =
      2 ^ 31 + 1 := by
    rw [invoked_contended hbusy successRound, List.length_append, length_outcomes_replicate]
    rfl
  have hrounds : (List.replicate (2 ^ 31) lockedRound ++ [successRound]).length = 2 ^ 31 + 1 := by
    rw [List.length_append, List.length_replicate, List.length_singleton]
  have hi := hmade.i
  have htouched := hmade.touched
  rw [hrounds] at hi
  rw [hcount] at htouched
  have hwrapped : int32 ((2 ^ 31 + 1 : ℕ) : ℤ) < 0 := by decide
  refine ⟨⟨_, doit_contended 0 ("a.tif", []) hbusy hlast [], ?_⟩, fun hwaits ↦ ?_⟩
  · have hresult : (localsAfter (List.replicate (2 ^ 31) lockedRound ++ [successRound])).result 0 =
        int32 ((2 ^ 31 + 1 : ℕ) : ℤ) := by
      rw [result, if_pos ⟨code_contended hbusy hlast, Or.inl (by rw [hi]; exact hwrapped)⟩,
        htouched]
    rw [hresult]
    exact hwrapped
  · have hin := (hwaits.counts _ List.prefix_rfl).1
    rw [hi, hrounds] at hin
    exact absurd hin (by decide)

end GdalWarp.Bindings
