import GdalWarp.Bindings.Types
import Mathlib.Data.List.Basic

namespace GdalWarp.Bindings

def int32 (x : ℤ) : ℤ := x.bmod (2 ^ 32)

/-- The variables that `DOIT` and `TRY` share; `invoked` lists what the
operation returned, each time it was invoked. -/
structure Locals where
  done : Bool
  code : ℤ
  touched : ℤ
  i : ℤ
  invoked : List ℤ
  deriving DecidableEq

/-- One turn of the loop: the time it begins and what the operation would
return on each dataset that `get` found. -/
structure Round where
  now : UInt64
  outcomes : List ℤ

structure Returned where
  value : ℤ
  invoked : List ℤ
  deriving DecidableEq

namespace Locals

def start : Locals := ⟨false, cpleNone, 0, 0, []⟩

def touch (l : Locals) (outcome : ℤ) : Locals :=
  if !l.done then
    { l with touched := int32 (l.touched + 1)
             code := outcome
             done := outcome == attemptSuccessful && outcome != datasetLocked
             invoked := l.invoked ++ [outcome] }
  else l

def loops (attempts : ℤ) (l : Locals) : Bool :=
  (l.i < attempts || attempts ≤ 0) && !l.done

def timedOut (nanos start now : UInt64) : Bool := nanos > 0 && now - start > nanos

def tryAll (l : Locals) (outcomes : List ℤ) : Locals :=
  { outcomes.foldl touch l with i := int32 (l.i + 1) }

def result (attempts : ℤ) (l : Locals) : ℤ :=
  if l.code = attemptSuccessful ∧ (l.i < attempts ∨ l.i > 0 ∧ attempts = 0) then l.touched
  else if l.code = attemptSuccessful ∨ l.code = datasetLocked then -attemptsExceeded
  else l.code

end Locals

open Locals

/-- The loop of `DOIT`; it is `none` when these rounds do not end it. -/
def doitLoop (attempts : ℤ) (nanos start : UInt64) : Locals → List Round → Option Returned
  | l, [] => if l.loops attempts then none else some ⟨l.result attempts, l.invoked⟩
  | l, r :: rounds =>
    if l.loops attempts then
      if timedOut nanos start r.now then some ⟨-cpleFileIo, l.invoked⟩
      else if r.outcomes.length = 0 then some ⟨-cpleOpenFailed, l.invoked⟩
      else doitLoop attempts nanos start (l.tryAll r.outcomes) rounds
    else some ⟨l.result attempts, l.invoked⟩

def doit (attempts : ℤ) (nanos start : UInt64) (queryResult : Option UriOptions)
    (rounds : List Round) : Option Returned :=
  match queryResult with
  | some _ => doitLoop attempts nanos start .start rounds
  | none => some ⟨-cpleOpenFailed, []⟩

def invocations : List ℤ → List ℤ
  | [] => []
  | o :: os => if o = attemptSuccessful then [o] else o :: invocations os

def outcomes (rounds : List Round) : List ℤ := rounds.flatMap Round.outcomes

/-- Rounds in which the budget holds, `get` finds a dataset and the operation
answers as it may. -/
structure Plain (nanos start : UInt64) (rounds : List Round) : Prop where
  inTime : ∀ r ∈ rounds, timedOut nanos start r.now = false
  found : ∀ r ∈ rounds, r.outcomes ≠ []
  answers : ∀ o ∈ outcomes rounds, o = attemptSuccessful ∨ o < 0

theorem int32_succ (x : ℤ) : int32 (int32 x + 1) = int32 (x + 1) := Int.bmod_add_bmod

theorem int32_natCast {k : ℕ} (h : k < 2 ^ 31) : int32 k = k := by
  apply Int.bmod_eq_of_le <;> omega

theorem int32_lt (x : ℤ) : int32 x < 2 ^ 31 := by
  unfold int32 Int.bmod
  dsimp only
  split <;> omega

theorem invocations_append {xs : List ℤ} (h : attemptSuccessful ∉ xs) (ys : List ℤ) :
    invocations (xs ++ ys) = xs ++ invocations ys := by
  induction xs with
  | nil => rfl
  | cons x xs ih =>
    have hx : x ≠ attemptSuccessful := fun hx ↦ h (hx ▸ List.mem_cons_self)
    have hxs : attemptSuccessful ∉ xs := fun hx ↦ h (List.mem_cons_of_mem x hx)
    rw [List.cons_append, invocations, if_neg hx, ih hxs, List.cons_append]

theorem invocations_eq_self {xs : List ℤ} (h : attemptSuccessful ∉ xs) : invocations xs = xs := by
  simpa [invocations] using invocations_append h []

theorem invocations_success {xs : List ℤ} (h : attemptSuccessful ∈ xs) :
    ∃ ys, attemptSuccessful ∉ ys ∧ invocations xs = ys ++ [attemptSuccessful] := by
  induction xs with
  | nil => exact absurd h List.not_mem_nil
  | cons x xs ih =>
    by_cases hx : x = attemptSuccessful
    · exact ⟨[], List.not_mem_nil, by simp [invocations, hx]⟩
    · obtain ⟨ys, hys, heq⟩ := ih ((List.mem_cons.mp h).resolve_left (Ne.symm hx))
      refine ⟨x :: ys, ?_, by rw [invocations, if_neg hx, heq, List.cons_append]⟩
      exact List.not_mem_cons_of_ne_of_not_mem (Ne.symm hx) hys

theorem outcomes_append (rounds rounds' : List Round) :
    outcomes (rounds ++ rounds') = outcomes rounds ++ outcomes rounds' := List.flatMap_append

structure Made (attempts : ℤ) (past : List Round) (l : Locals) : Prop where
  i : l.i = int32 past.length
  invoked : l.invoked = invocations (outcomes past)
  touched : l.touched = int32 l.invoked.length
  code : l.code = l.invoked.getLastD cpleNone
  done : l.done = true ↔ attemptSuccessful ∈ outcomes past
  earlier : attemptSuccessful ∉ outcomes past.dropLast
  within : 0 < attempts → past.length ≤ attempts

theorem foldl_touch_done {l : Locals} (h : l.done = true) (os : List ℤ) :
    os.foldl touch l = l := by
  induction os with
  | nil => rfl
  | cons o os ih =>
    have hstep : l.touch o = l := by simp [touch, h]
    rw [List.foldl_cons, hstep, ih]

theorem foldl_touch {l : Locals} (hdone : l.done = false) (htouched : l.touched = int32 l.invoked.length)
    (hcode : l.code = l.invoked.getLastD cpleNone) (os : List ℤ) :
    let l' := os.foldl touch l
    l'.invoked = l.invoked ++ invocations os ∧ l'.touched = int32 l'.invoked.length ∧
      l'.code = l'.invoked.getLastD cpleNone ∧ (l'.done = true ↔ attemptSuccessful ∈ os) ∧
      l'.i = l.i := by
  induction os generalizing l with
  | nil => simp [invocations, hdone, htouched, hcode]
  | cons o os ih =>
    have hstep : l.touch o = ⟨o == attemptSuccessful && o != datasetLocked, o,
        int32 (l.touched + 1), l.i, l.invoked ++ [o]⟩ := by simp [touch, hdone]
    have hcount : int32 (l.touched + 1) = int32 (l.invoked ++ [o]).length := by
      rw [htouched, int32_succ, List.length_append, List.length_singleton, Nat.cast_add,
        Nat.cast_one]
    by_cases ho : o = attemptSuccessful
    · have hset : (l.touch o).done = true := by rw [hstep, ho]; rfl
      simp only [List.foldl_cons]
      rw [foldl_touch_done hset, hstep, hcount]
      simp [invocations, ho, attemptSuccessful, datasetLocked]
    · have hunset : (l.touch o).done = false := by simp [hstep, ho]
      have hrest := ih hunset (by rw [hstep]; exact hcount) (by rw [hstep]; simp)
      simp only [List.foldl_cons]
      obtain ⟨hinv, htouch, hlast, hiff, hi⟩ := hrest
      refine ⟨?_, htouch, hlast, ?_, by rw [hi, hstep]⟩
      · rw [hinv, hstep, invocations, if_neg ho, List.append_assoc, List.singleton_append]
      · rw [hiff, List.mem_cons]
        simp [Ne.symm ho]

theorem Made.start (attempts : ℤ) : Made attempts [] Locals.start where
  i := (int32_natCast (k := 0) (by decide)).symm
  invoked := rfl
  touched := (int32_natCast (k := 0) (by decide)).symm
  code := rfl
  done := by simp [Locals.start, outcomes]
  earlier := List.not_mem_nil
  within := fun h ↦ h.le

theorem Made.round {attempts : ℤ} {past : List Round} {l : Locals} (h : Made attempts past l)
    (hloops : l.loops attempts = true) (hlen : 0 < attempts → past.length < 2 ^ 31) (r : Round) :
    Made attempts (past ++ [r]) (l.tryAll r.outcomes) := by
  simp only [loops, Bool.and_eq_true, Bool.or_eq_true, decide_eq_true_eq, Bool.not_eq_true'] at hloops
  obtain ⟨hmore, hdone⟩ := hloops
  have hnone : attemptSuccessful ∉ outcomes past := by
    rw [← h.done, hdone]
    exact Bool.false_ne_true
  have hsingle : outcomes [r] = r.outcomes := List.flatMap_singleton ..
  obtain ⟨hinv, htouched, hcode, hiff, hi⟩ := foldl_touch hdone h.touched h.code r.outcomes
  refine ⟨?_, ?_, htouched, hcode, ?_, ?_, ?_⟩
  · rw [tryAll, h.i, int32_succ, List.length_append, List.length_singleton, Nat.cast_add,
      Nat.cast_one]
  · rw [tryAll, outcomes_append, invocations_append hnone, hsingle]
    rw [hinv, h.invoked, invocations_eq_self hnone]
  · rw [tryAll, outcomes_append, hsingle, List.mem_append]
    simpa only [hnone, false_or] using hiff
  · rwa [List.dropLast_concat]
  · intro hpos
    have hcount : l.i = past.length := h.i.trans (int32_natCast (hlen hpos))
    rw [List.length_append, List.length_singleton]
    rcases hmore with hlt | hle
    · push_cast
      omega
    · omega

/-- The loop makes some of the rounds and then returns what its locals say. -/
theorem doitLoop_made {attempts : ℤ} {nanos start : UInt64} {past rounds : List Round} {l : Locals}
    (h : Made attempts past l) (hplain : Plain nanos start rounds)
    (hlen : (past ++ rounds).length < 2 ^ 31) {r : Returned}
    (hr : doitLoop attempts nanos start l rounds = some r) :
    ∃ made rest l', made ++ rest = past ++ rounds ∧ Made attempts made l' ∧
      l'.loops attempts = false ∧ r = ⟨l'.result attempts, l'.invoked⟩ := by
  induction rounds generalizing past l with
  | nil =>
    cases hloops : l.loops attempts
    · rw [doitLoop, hloops] at hr
      exact ⟨past, [], l, rfl, h, hloops, (Option.some.inj hr).symm⟩
    · rw [doitLoop, hloops] at hr
      cases hr
  | cons a rounds ih =>
    cases hloops : l.loops attempts
    · rw [doitLoop, hloops] at hr
      exact ⟨past, a :: rounds, l, rfl, h, hloops, (Option.some.inj hr).symm⟩
    · have hfound : a.outcomes.length ≠ 0 := by
        simpa using hplain.found a List.mem_cons_self
      rw [doitLoop, hloops, hplain.inTime a List.mem_cons_self] at hr
      simp only [if_true, Bool.false_eq_true, if_false, hfound] at hr
      have hpast : past.length < 2 ^ 31 := by
        rw [List.length_append] at hlen
        omega
      have happ : (past ++ [a]) ++ rounds = past ++ a :: rounds := by simp
      have htail : Plain nanos start rounds := by
        refine ⟨fun x hx ↦ hplain.inTime x (List.mem_cons_of_mem a hx),
          fun x hx ↦ hplain.found x (List.mem_cons_of_mem a hx), fun o ho ↦ hplain.answers o ?_⟩
        exact List.mem_append_right _ ho
      obtain ⟨made, rest, l', heq, hmade⟩ := ih (h.round hloops (fun _ ↦ hpast) a) htail
        (by rw [happ]; exact hlen) hr
      exact ⟨made, rest, l', heq.trans happ, hmade⟩

theorem Locals.result_neg {l : Locals} (h : l.code < 0) (attempts : ℤ) : l.result attempts < 0 := by
  have hcode : l.code ≠ attemptSuccessful := by
    intro hx
    rw [hx] at h
    exact absurd h (by decide)
  rw [result, if_neg fun hx ↦ hcode hx.1]
  split
  · decide
  · exact h

theorem foldl_touch_neg {l : Locals} {os : List ℤ} (hdone : l.done = false)
    (hneg : ∀ o ∈ os, o < 0) (hne : os ≠ [] ∨ l.code < 0) :
    (os.foldl touch l).done = false ∧ (os.foldl touch l).code < 0 := by
  induction os generalizing l with
  | nil => exact ⟨hdone, hne.resolve_left fun hx ↦ hx rfl⟩
  | cons o os ih =>
    obtain ⟨ho, hos⟩ := List.forall_mem_cons.mp hneg
    have hfail : (o == attemptSuccessful) = false := by
      rw [beq_eq_false_iff_ne]
      intro hx
      rw [hx] at ho
      exact absurd ho (by decide)
    have hstep : (l.touch o).done = false ∧ (l.touch o).code = o := by
      simp [touch, hdone, hfail]
    exact ih hstep.1 hos (Or.inr (hstep.2.trans_lt ho))

theorem doitLoop_neg {attempts : ℤ} {nanos start : UInt64} {l : Locals} {rounds : List Round}
    (hdone : l.done = false) (hcode : l.code < 0 ∨ l.loops attempts = true)
    (hneg : ∀ o ∈ outcomes rounds, o < 0) {r : Returned}
    (hr : doitLoop attempts nanos start l rounds = some r) : r.value < 0 := by
  induction rounds generalizing l with
  | nil =>
    rw [doitLoop] at hr
    split at hr
    · cases hr
    · cases hr
      exact l.result_neg (hcode.resolve_right ‹_›) attempts
  | cons a rounds ih =>
    rw [doitLoop] at hr
    split at hr
    · split at hr
      · cases hr
        show -cpleFileIo < 0
        decide
      · split at hr
        · cases hr
          show -cpleOpenFailed < 0
          decide
        · have hne : a.outcomes ≠ [] := fun hx ↦ ‹¬ _› (by rw [hx]; rfl)
          have ha : ∀ o ∈ a.outcomes, o < 0 := fun o ho ↦ hneg o (List.mem_append_left _ ho)
          obtain ⟨hdone', hcode'⟩ := foldl_touch_neg hdone ha (Or.inl hne)
          exact ih (l := l.tryAll a.outcomes) hdone' (Or.inl hcode') (fun o ho ↦ hneg o (List.mem_append_right _ ho)) hr
    · cases hr
      exact l.result_neg (hcode.resolve_right ‹_›) attempts

theorem start_loops (attempts : ℤ) : Locals.start.loops attempts = true := by
  rcases lt_or_ge 0 attempts with hpos | hnonpos
  · simp [loops, Locals.start, hpos]
  · simp [loops, Locals.start, hnonpos]

end GdalWarp.Bindings
