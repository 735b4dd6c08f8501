import Mathlib.Data.Fintype.Card
import GdalWarp.Foundation.ProgramLogic
import GdalWarp.Bindings.Operations
import GdalWarp.Bindings.PendingErrors

namespace GdalWarp.Bindings

open Foundation Foundation.Program ErrnoCall

variable {τ : Type} [DecidableEq τ]

/-- What a call of an operation meets: its answer, and the calls made on the map of
errors until it returns. -/
structure Reaction (τ : Type) where
  reply : (c : Call) → Reply c
  meanwhile : List (ErrnoCall τ)

def Reaction.nothing : Reaction τ := ⟨anyReply, []⟩

/-- What the macro `FAILURE` makes of an error number. -/
def failureCode (errNo : ℤ) : ℤ := if errNo = 0 then -cpleObjectNull else -errNo

def Call.reports : Call → Bool
  | .getLastErrno | .getLastErrnoTimestamp | .useCount | .valid | .fate => false
  | _ => true

namespace ErrnoCall

/-- During a call its own thread can only have messages reported. -/
def possible (tid : τ) (c : Call) : ErrnoCall τ → Bool
  | .putLastErrno m => decide (m.thread ≠ tid) || c.reports
  | .getLastErrno t | .getLastErrnoTimestamp t => decide (t ≠ tid)

def messages (tid : τ) (calls : List (ErrnoCall τ)) : List (Message τ) :=
  calls.filterMap fun
    | .putLastErrno m => if m.thread = tid then some m else none
    | .getLastErrno _ | .getLastErrnoTimestamp _ => none

def Unasked (tid : τ) (calls : List (ErrnoCall τ)) : Prop := ErrnoCall.getLastErrno tid ∉ calls

theorem pending_append {tid : τ} {added : List (ErrnoCall τ)} (h : Unasked tid added)
    (calls : List (ErrnoCall τ)) :
    pending tid (added ++ calls) =
      ((messages tid added).head?.map fun m ↦ (m.errNo, m.time)).or (pending tid calls) := by
  induction added with
  | nil => rfl
  | cons c added ih =>
    have ih := ih fun hmem ↦ h (List.mem_cons_of_mem _ hmem)
    cases c with
    | putLastErrno m =>
      by_cases hm : m.thread = tid
      · simp [pending, messages, hm]
      · simpa [pending, messages, hm] using ih
    | getLastErrno t =>
      have ht : t ≠ tid := fun ht ↦ h (ht ▸ List.mem_cons_self)
      simpa [pending, messages, ht] using ih
    | getLastErrnoTimestamp t => exact ih

end ErrnoCall

namespace ErrnoLog

def answer (tid : τ) (s : ErrnoLog τ) : (c : Call) → Reply c → Option (Reply c × ErrnoLog τ)
  | .getLastErrno, _ =>
    match s.errors.getLastErrno tid with
    | .ok (retval, e) => some (retval, ⟨e, .getLastErrno tid :: s.calls⟩)
    | .error _ => none
  | .getLastErrnoTimestamp, _ =>
    match s.errors.getLastErrnoTimestamp tid with
    | .ok timestamp => some (timestamp, ⟨s.errors, .getLastErrnoTimestamp tid :: s.calls⟩)
    | .error _ => none
  | _, reply => some (reply, s)

def respond (tid : τ) (s : ErrnoLog τ) (c : Call) (i : Reaction τ) :
    Option (Reply c × ErrnoLog τ) :=
  if i.meanwhile.all (possible tid c) then
    ((machine s.errors).run s i.meanwhile).bind fun t ↦ t.answer tid c (i.reply c)
  else none

def AlwaysRoomy (s : ErrnoLog τ) : Prop :=
  ∀ calls, calls <:+ s.calls → (pendingThreads calls).card ≤ 2 ^ 20

theorem AlwaysRoomy.of_suffix {s s' : ErrnoLog τ} (h : s'.AlwaysRoomy)
    (hs : s.calls <:+ s'.calls) : s.AlwaysRoomy :=
  fun calls hcalls ↦ h calls (hcalls.trans hs)

theorem alwaysRoomy_of_card [Fintype τ] (h : Fintype.card τ ≤ 2 ^ 20) (s : ErrnoLog τ) :
    s.AlwaysRoomy := fun _ _ ↦ (Finset.card_le_univ _).trans h

theorem run_suffix {e : ErrorCodes τ} {es : List (ErrnoCall τ)} {s s' : ErrnoLog τ}
    (hrun : (machine e).run s es = some s') : s.calls <:+ s'.calls :=
  ⟨es.reverse, (run_calls hrun).symm⟩

theorem AlwaysRoomy.everyState {e : ErrorCodes τ} {es : List (ErrnoCall τ)} {s s' : ErrnoLog τ}
    (h : s'.AlwaysRoomy) (hrun : (machine e).run s es = some s') :
    (machine e).EveryState Roomy s es := by
  induction es generalizing s with
  | nil => exact h _ (run_suffix hrun)
  | cons c es ih =>
    obtain ⟨t, ht, htail⟩ := Machine.run_cons.mp hrun
    refine ⟨h _ (run_suffix hrun), fun t' ht' ↦ ?_⟩
    obtain rfl := Option.some.inj (ht.symm.trans ht')
    exact ih htail

theorem Tracked.run_roomy {e : ErrorCodes τ} {es : List (ErrnoCall τ)} {s s' : ErrnoLog τ}
    (h : s.Tracked) (hroomy : s'.AlwaysRoomy) (hrun : (machine e).run s es = some s') :
    s'.Tracked :=
  h.run (hroomy.everyState hrun) hrun

def Quiet (tid : τ) (calls : List (ErrnoCall τ)) : Prop := ∀ c ∈ calls, c.thread ≠ tid

def OnlyReports (tid : τ) (calls : List (ErrnoCall τ)) : Prop :=
  ∀ c ∈ calls, c.thread = tid → ∃ m, c = .putLastErrno m

theorem Quiet.pending {tid : τ} {added : List (ErrnoCall τ)} (h : Quiet tid added)
    (calls : List (ErrnoCall τ)) : pending tid (added ++ calls) = pending tid calls := by
  induction added with
  | nil => rfl
  | cons c added ih =>
    obtain ⟨hc, hadded⟩ := List.forall_mem_cons.mp h
    exact (pending_of_thread_ne hc _).trans (ih hadded)

omit [DecidableEq τ] in
theorem Quiet.onlyReports {tid : τ} {added : List (ErrnoCall τ)} (h : Quiet tid added) :
    OnlyReports tid added := fun c hc hown ↦ absurd hown (h c hc)

omit [DecidableEq τ] in
theorem OnlyReports.append {tid : τ} {added added' : List (ErrnoCall τ)}
    (h : OnlyReports tid added) (h' : OnlyReports tid added') : OnlyReports tid (added ++ added') :=
  fun c hc ↦ (List.mem_append.mp hc).elim (h c) (h' c)

omit [DecidableEq τ] in
theorem OnlyReports.unasked {tid : τ} {added : List (ErrnoCall τ)} (h : OnlyReports tid added) :
    Unasked tid added := by
  intro hmem
  obtain ⟨m, hm⟩ := h _ hmem rfl
  cases hm

theorem answer_suffix {tid : τ} {s t : ErrnoLog τ} {c : Call} {r r' : Reply c}
    (h : s.answer tid c r = some (r', t)) : s.calls <:+ t.calls := by
  cases c
  case getLastErrno =>
    simp only [answer] at h
    split at h
    · cases h
      exact List.suffix_cons _ _
    · cases h
  case getLastErrnoTimestamp =>
    simp only [answer] at h
    split at h
    · cases h
      exact List.suffix_cons _ _
    · cases h
  all_goals
    cases h
    exact List.suffix_rfl

theorem respond_eq_some {tid : τ} {s t : ErrnoLog τ} {c : Call} {i : Reaction τ} {r : Reply c} :
    s.respond tid c i = some (r, t) ↔ (∀ x ∈ i.meanwhile, x.possible tid c = true) ∧
      ∃ u, (machine s.errors).run s i.meanwhile = some u ∧
        u.answer tid c (i.reply c) = some (r, t) := by
  rw [respond, Option.ite_none_right_eq_some, List.all_eq_true, Option.bind_eq_some_iff]

theorem respond_suffix {tid : τ} {s t : ErrnoLog τ} {c : Call} {i : Reaction τ} {r : Reply c}
    (h : s.respond tid c i = some (r, t)) : s.calls <:+ t.calls := by
  obtain ⟨-, u, hrun, hanswer⟩ := respond_eq_some.mp h
  exact (run_suffix hrun).trans (answer_suffix hanswer)

theorem onlyReports_of_possible {tid : τ} {c : Call} {calls : List (ErrnoCall τ)}
    (h : ∀ x ∈ calls, x.possible tid c = true) : OnlyReports tid calls.reverse := by
  intro x hx hown
  have hpossible : x.possible tid c = true := h x (List.mem_reverse.mp hx)
  cases x with
  | putLastErrno m => exact ⟨m, rfl⟩
  | getLastErrno t => exact absurd hown (of_decide_eq_true hpossible)
  | getLastErrnoTimestamp t => exact absurd hown (of_decide_eq_true hpossible)

theorem quiet_of_possible {tid : τ} {c : Call} (hc : c.reports = false)
    {calls : List (ErrnoCall τ)} (h : ∀ x ∈ calls, x.possible tid c = true) :
    Quiet tid calls.reverse := by
  intro x hx
  have hpossible : x.possible tid c = true := h x (List.mem_reverse.mp hx)
  cases x with
  | putLastErrno m =>
    rw [possible, hc, Bool.or_false] at hpossible
    exact of_decide_eq_true hpossible
  | getLastErrno t => exact of_decide_eq_true hpossible
  | getLastErrnoTimestamp t => exact of_decide_eq_true hpossible

section Respond

variable {tid : τ} {s t : ErrnoLog τ} {i : Reaction τ} (hs : s.Tracked) (hroomy : t.AlwaysRoomy)

include hs hroomy

theorem respond_reply {c : Call} {r : Reply c} (hc : c ≠ .getLastErrno ∧ c ≠ .getLastErrnoTimestamp)
    (h : s.respond tid c i = some (r, t)) :
    r = i.reply c ∧ t.Tracked ∧ ∃ added, OnlyReports tid added ∧ t.calls = added ++ s.calls := by
  obtain ⟨hpossible, u, hrun, hanswer⟩ := respond_eq_some.mp h
  have hplain : u.answer tid c (i.reply c) = some (i.reply c, u) := by
    cases c
    case getLastErrno => exact absurd rfl hc.1
    case getLastErrnoTimestamp => exact absurd rfl hc.2
    all_goals rfl
  cases hplain.symm.trans hanswer
  exact ⟨rfl, hs.run_roomy hroomy hrun, _, onlyReports_of_possible hpossible, run_calls hrun⟩

theorem respond_getLastErrno {r : ℤ} (h : s.respond tid .getLastErrno i = some (r, t)) :
    r = pendingNumber tid s.calls ∧ t.Tracked ∧
      ∃ added, Quiet tid added ∧ t.calls = .getLastErrno tid :: (added ++ s.calls) := by
  obtain ⟨hpossible, u, hrun, hanswer⟩ := respond_eq_some.mp h
  have hquiet : Quiet tid i.meanwhile.reverse := quiet_of_possible rfl hpossible
  have hu : u.Tracked := hs.run_roomy (hroomy.of_suffix (answer_suffix hanswer)) hrun
  obtain ⟨e, hget⟩ := hu.getLastErrno tid
  simp only [answer, hget, Option.some.injEq, Prod.mk.injEq] at hanswer
  obtain ⟨rfl, rfl⟩ := hanswer
  have hstep : u.step (.getLastErrno tid) = some ⟨e, .getLastErrno tid :: u.calls⟩ :=
    step_eq_some.mpr ⟨by simp only [ErrorCodes.after, hget, Except.map], rfl⟩
  refine ⟨?_, hu.step (hroomy _ (List.suffix_cons _ _)) hstep, _, hquiet, ?_⟩
  · rw [run_calls hrun, pendingNumber, pendingNumber, hquiet.pending]
  · rw [run_calls hrun]

theorem respond_timestamp {r : ℤ} (h : s.respond tid .getLastErrnoTimestamp i = some (r, t)) :
    r = pendingTime tid s.calls ∧ t.Tracked ∧
      ∃ added, Quiet tid added ∧ t.calls = .getLastErrnoTimestamp tid :: (added ++ s.calls) := by
  obtain ⟨hpossible, u, hrun, hanswer⟩ := respond_eq_some.mp h
  have hquiet : Quiet tid i.meanwhile.reverse := quiet_of_possible rfl hpossible
  have hu : u.Tracked := hs.run_roomy (hroomy.of_suffix (answer_suffix hanswer)) hrun
  simp only [answer, hu.getLastErrnoTimestamp, Option.some.injEq, Prod.mk.injEq] at hanswer
  obtain ⟨rfl, rfl⟩ := hanswer
  have hstep : u.step (.getLastErrnoTimestamp tid) =
      some ⟨u.errors, .getLastErrnoTimestamp tid :: u.calls⟩ :=
    step_eq_some.mpr ⟨hu.after_timestamp tid, rfl⟩
  refine ⟨?_, hu.step (hroomy _ (List.suffix_cons _ _)) hstep, _, hquiet, ?_⟩
  · rw [run_calls hrun, pendingTime, pendingTime, hquiet.pending]
  · rw [run_calls hrun]

end Respond

theorem operate_suffix {ρ : Type} {tid : τ} {p : Task ρ} {is : List (Input (Reaction τ))}
    {s s' : ErrnoLog τ} {a : ρ} (h : p.execute (respond tid) is s = some (a, s')) :
    s.calls <:+ s'.calls := by
  have hstep (s : ErrnoLog τ) (c : Call) (i : Reaction τ) (r : Reply c) (t : ErrnoLog τ)
      (hr : s.respond tid c i = some (r, t)) : s.calls <:+ t.calls := respond_suffix hr
  exact execute_rel (Q := fun s t : ErrnoLog τ ↦ s.calls <:+ t.calls) (fun _ ↦ List.suffix_rfl)
    (fun _ _ _ hst htu ↦ hst.trans htu) hstep h

end ErrnoLog

end GdalWarp.Bindings
