import GdalWarp.Bindings.Doit

namespace GdalWarp.Bindings

open Locals

def permitted (attempts : ℤ) (rounds : List Round) : List Round :=
  if 0 < attempts then rounds.take attempts.toNat else rounds

/-- What `DOIT` promises of the number it returns. -/
structure Meets (attempts : ℤ) (rounds : List Round) (r : Returned) : Prop where
  pos_iff : 0 < r.value ↔ attemptSuccessful ∈ outcomes (permitted attempts rounds)
  success : attemptSuccessful ∈ outcomes (permitted attempts rounds) →
    r.value = r.invoked.length ∧ r.invoked.getLast? = some attemptSuccessful ∧
      attemptSuccessful ∉ r.invoked.dropLast
  locked : attemptSuccessful ∉ outcomes (permitted attempts rounds) →
    r.invoked.getLast? = some datasetLocked → r.value = -attemptsExceeded
  error : attemptSuccessful ∉ outcomes (permitted attempts rounds) →
    ∀ e, r.invoked.getLast? = some e → e ≠ datasetLocked → r.value = e

def SpareRound (attempts : ℤ) (rounds : List Round) : Prop :=
  attempts = 0 ∨ 0 < attempts ∧
    (attemptSuccessful ∈ outcomes (rounds.take attempts.toNat) →
      attemptSuccessful ∈ outcomes (rounds.take (attempts.toNat - 1)))

theorem doitLoop_returns {attempts : ℤ} (hpos : 0 < attempts) {nanos start : UInt64}
    {past rounds : List Round} {l : Locals} (h : Made attempts past l)
    (hlen : (past ++ rounds).length < 2 ^ 31) (henough : attempts ≤ (past ++ rounds).length) :
    ∃ r, doitLoop attempts nanos start l rounds = some r := by
  induction rounds generalizing past l with
  | nil =>
    rw [List.append_nil] at hlen henough
    have hi : l.i = past.length := h.i.trans (int32_natCast hlen)
    have hstop : l.loops attempts = false := by
      simp only [loops, hi, Bool.and_eq_false_iff, Bool.or_eq_false_iff, decide_eq_false_iff_not]
      exact Or.inl ⟨by omega, by omega⟩
    rw [doitLoop, hstop]
    exact ⟨_, rfl⟩
  | cons a rounds ih =>
    have happ : (past ++ [a]) ++ rounds = past ++ a :: rounds := by simp
    rw [doitLoop]
    cases hloops : l.loops attempts
    · exact ⟨_, rfl⟩
    · have hpast : past.length < 2 ^ 31 := by
        rw [List.length_append] at hlen
        omega
      have htail := ih (h.round hloops (fun _ ↦ hpast) a) (by rw [happ]; exact hlen)
        (by rw [happ]; exact henough)
      rw [if_pos rfl]
      split
      · exact ⟨_, rfl⟩
      · split
        · exact ⟨_, rfl⟩
        · exact htail

theorem mem_outcomes_take {o : ℤ} {made rest : List Round} {m : ℕ} (hm : made.length ≤ m)
    (ho : o ∈ outcomes made) : o ∈ outcomes ((made ++ rest).take m) := by
  rw [List.take_append, List.take_of_length_le hm, outcomes_append]
  exact List.mem_append_left _ ho

theorem Made.meets_of_success {attempts : ℤ} {made rest : List Round} {l : Locals}
    (h : Made attempts made l) (hsuccess : attemptSuccessful ∈ outcomes made)
    (hlen : made.length < 2 ^ 31) (hinvoked : l.invoked.length < 2 ^ 31) :
    Meets attempts (made ++ rest) ⟨l.result attempts, l.invoked⟩ ↔
      SpareRound attempts (made ++ rest) := by
  obtain ⟨ys, hys, hinv⟩ := invocations_success hsuccess
  rw [← h.invoked] at hinv
  have hi : l.i = made.length := h.i.trans (int32_natCast hlen)
  have htouched : l.touched = l.invoked.length := h.touched.trans (int32_natCast hinvoked)
  have hcode : l.code = attemptSuccessful := by rw [h.code, hinv]; simp
  have hcount : 0 < l.invoked.length := by rw [hinv]; simp
  have hmade : 0 < made.length := by
    apply List.length_pos_iff.mpr
    rintro rfl
    exact absurd hsuccess List.not_mem_nil
  have hpermitted : attemptSuccessful ∈ outcomes (permitted attempts (made ++ rest)) := by
    unfold permitted
    split
    · have hwithin := h.within ‹_›
      exact mem_outcomes_take (by omega) hsuccess
    · rw [outcomes_append]
      exact List.mem_append_left _ hsuccess
  have hearlier : 0 < attempts → ¬ (made.length : ℤ) < attempts →
      attemptSuccessful ∉ outcomes ((made ++ rest).take (attempts.toNat - 1)) := by
    intro hpos hlt
    have hwithin := h.within hpos
    have hlast : attempts.toNat = made.length := by omega
    rw [hlast, List.take_append_of_le_length (Nat.sub_le _ _), ← List.dropLast_eq_take]
    exact h.earlier
  have hspare : SpareRound attempts (made ++ rest) ↔
      (made.length : ℤ) < attempts ∨ attempts = 0 := by
    constructor
    · rintro (h0 | ⟨hpos, himp⟩)
      · exact Or.inr h0
      · by_contra hno
        have htake : attemptSuccessful ∈ outcomes ((made ++ rest).take attempts.toNat) := by
          have hwithin := h.within hpos
          exact mem_outcomes_take (by omega) hsuccess
        exact hearlier hpos (fun hlt ↦ hno (Or.inl hlt)) (himp htake)
    · rintro (hlt | h0)
      · exact Or.inr ⟨by omega, fun _ ↦ mem_outcomes_take (by omega) hsuccess⟩
      · exact Or.inl h0
  rw [hspare]
  by_cases hin : (made.length : ℤ) < attempts ∨ attempts = 0
  · have hvalue : l.result attempts = l.invoked.length := by
      rw [result, if_pos ⟨hcode, by omega⟩, htouched]
    refine iff_of_true ⟨?_, ?_, ?_, ?_⟩ hin
    · have hpositive : 0 < l.result attempts := by omega
      exact iff_of_true hpositive hpermitted
    · exact fun _ ↦ ⟨hvalue, by rw [hinv]; simp, by rwa [hinv, List.dropLast_concat]⟩
    · exact fun hno ↦ absurd hpermitted hno
    · exact fun hno ↦ absurd hpermitted hno
  · have hvalue : l.result attempts = -attemptsExceeded := by
      rw [result, if_neg (fun hx ↦ hin (by omega)), if_pos (Or.inl hcode)]
    refine iff_of_false (fun hmeets ↦ ?_) hin
    have hpos : 0 < l.result attempts := hmeets.pos_iff.mpr hpermitted
    rw [hvalue] at hpos
    exact absurd hpos (by decide)

theorem Made.meets_of_failure {attempts : ℤ} {made rest : List Round} {l : Locals}
    (h : Made attempts made l) (hfailure : attemptSuccessful ∉ outcomes made)
    (hpos : 0 < attempts) (hall : attempts ≤ made.length) (hmade : outcomes made ≠ [])
    (hanswers : ∀ o ∈ outcomes made, o = attemptSuccessful ∨ o < 0) :
    Meets attempts (made ++ rest) ⟨l.result attempts, l.invoked⟩ ∧
      SpareRound attempts (made ++ rest) := by
  have hwithin := h.within hpos
  have htake : (made ++ rest).take attempts.toNat = made := List.take_left' (by omega)
  have hpermitted : attemptSuccessful ∉ outcomes (permitted attempts (made ++ rest)) := by
    rwa [permitted, if_pos hpos, htake]
  have hinv : l.invoked = outcomes made := h.invoked.trans (invocations_eq_self hfailure)
  have hlast : l.invoked.getLast? = some l.code := by
    rw [h.code, hinv, List.getLastD_eq_getLast?, List.getLast?_eq_some_getLast hmade]
    rfl
  have hmem : l.code ∈ outcomes made := hinv ▸ List.mem_of_getLast? hlast
  have hcode : l.code ≠ attemptSuccessful := fun hx ↦ hfailure (hx ▸ hmem)
  have hneg : l.code < 0 := (hanswers _ hmem).resolve_left hcode
  have hvalue : l.result attempts =
      if l.code = datasetLocked then -attemptsExceeded else l.code := by
    rw [result, if_neg fun hx ↦ hcode hx.1]
    simp only [hcode, false_or]
  have hbelow : l.result attempts < 0 := by
    rw [hvalue]
    split
    · decide
    · exact hneg
  refine ⟨⟨?_, ?_, ?_, ?_⟩, Or.inr ⟨hpos, ?_⟩⟩
  · exact iff_of_false (by show ¬ 0 < l.result attempts; omega) hpermitted
  · exact fun hyes ↦ absurd hyes hpermitted
  · intro _ hlocked
    have hx : l.code = datasetLocked := Option.some.inj (hlast.symm.trans hlocked)
    exact hvalue.trans (if_pos hx)
  · intro _ e he hne
    have hx : l.code = e := Option.some.inj (hlast.symm.trans he)
    subst hx
    exact hvalue.trans (if_neg hne)
  · rw [htake]
    exact fun hyes ↦ absurd hyes hfailure

/-- The call returns, and it returns what it promises exactly when it does not
depend on the last permitted round and its attempts are not negative. -/
theorem doit_meets_iff_spare_round {attempts : ℤ} {nanos start : UInt64} {pair : UriOptions}
    {rounds : List Round} (hplain : Plain nanos start rounds) (hlen : rounds.length < 2 ^ 31) :
    (0 < attempts → attempts ≤ rounds.length →
      ∃ r, doit attempts nanos start (some pair) rounds = some r) ∧
    ∀ r, doit attempts nanos start (some pair) rounds = some r → r.invoked.length < 2 ^ 31 →
      (Meets attempts rounds r ↔ SpareRound attempts rounds) := by
  constructor
  · exact fun hpos henough ↦ doitLoop_returns hpos (Made.start attempts) hlen henough
  · intro r hr hinvoked
    obtain ⟨made, rest, l, heq, hmade, hstop, rfl⟩ :=
      doitLoop_made (Made.start attempts) hplain hlen hr
    rw [List.nil_append] at heq
    subst heq
    have hmadelen : made.length < 2 ^ 31 := by
      rw [List.length_append] at hlen
      omega
    by_cases hsuccess : attemptSuccessful ∈ outcomes made
    · exact hmade.meets_of_success hsuccess hmadelen hinvoked
    · have hi : l.i = made.length := hmade.i.trans (int32_natCast hmadelen)
      have hdone : l.done = false := by
        rw [← Bool.not_eq_true, hmade.done]
        exact hsuccess
      simp only [loops, hdone, hi, Bool.not_false, Bool.and_true, Bool.or_eq_false_iff,
        decide_eq_false_iff_not] at hstop
      have hne : outcomes made ≠ [] := by
        obtain ⟨a, made', rfl⟩ : ∃ a made', made = a :: made' :=
          List.exists_cons_of_length_pos (by omega)
        have hfound := hplain.found a (by simp)
        exact fun hx ↦ hfound (List.append_eq_nil_iff.mp hx).1
      have hanswers : ∀ o ∈ outcomes made, o = attemptSuccessful ∨ o < 0 := by
        intro o ho
        apply hplain.answers
        rw [outcomes_append]
        exact List.mem_append_left _ ho
      have hboth : Meets attempts (made ++ rest) ⟨l.result attempts, l.invoked⟩ ∧
          SpareRound attempts (made ++ rest) :=
        hmade.meets_of_failure hsuccess (by omega) (by omega) hne hanswers
      exact iff_of_true hboth.1 hboth.2

def answered (os : List ℤ) : Round := ⟨0, os⟩

theorem doit_meets_iff_spare_round_second_attempt :
    (∃ r, doit 3 0 0 (some ("a.tif", [])) [answered [datasetLocked],
      answered [-1, attemptSuccessful], answered [datasetLocked]] = some r) ∧
    Meets 3 [answered [datasetLocked], answered [-1, attemptSuccessful],
      answered [datasetLocked]] ⟨3, [datasetLocked, -1, attemptSuccessful]⟩ := by
  have hplain : Plain 0 0 [answered [datasetLocked], answered [-1, attemptSuccessful],
      answered [datasetLocked]] := ⟨by decide, by decide, by decide⟩
  have hrun : doit 3 0 0 (some ("a.tif", [])) [answered [datasetLocked],
      answered [-1, attemptSuccessful], answered [datasetLocked]] =
        some ⟨3, [datasetLocked, -1, attemptSuccessful]⟩ := by decide
  have hspare : SpareRound 3 [answered [datasetLocked], answered [-1, attemptSuccessful],
      answered [datasetLocked]] := Or.inr ⟨by decide, fun _ ↦ by decide⟩
  exact ⟨(doit_meets_iff_spare_round hplain (by decide)).1 (by decide) (by decide),
    ((doit_meets_iff_spare_round hplain (by decide)).2 _ hrun (by decide)).mpr hspare⟩

theorem success_in_last_round_not_met :
    doit 1 0 0 (some ("a.tif", [])) [answered [attemptSuccessful]] =
      some ⟨-attemptsExceeded, [attemptSuccessful]⟩ ∧
    Plain 0 0 [answered [attemptSuccessful]] ∧
    ¬ Meets 1 [answered [attemptSuccessful]] ⟨-attemptsExceeded, [attemptSuccessful]⟩ := by
  refine ⟨by decide, ⟨by decide, by decide, by decide⟩, fun hmeets ↦ ?_⟩
  have hvalue := (hmeets.success (by decide)).1
  exact absurd hvalue (by decide)

end GdalWarp.Bindings
