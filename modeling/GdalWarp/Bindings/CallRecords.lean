import GdalWarp.Foundation.Machine
import GdalWarp.Bindings.Progress
import Mathlib.Data.List.ModifyLast

namespace GdalWarp.Bindings

open Foundation FlatLruCache

/-- What the caller of `DOIT` could write down: the call, what its token resolved to and
when, and of each round the time it began and what the operation returned on each
dataset it was invoked on. -/
structure CallRecord where
  call : Invocation
  resolved : Option UriOptions
  start : UInt64
  rounds : List Round

namespace CallRecord

variable {τ : Type} {L : LruCache} {n : ℕ}

def begin (r : CallRecord) (now : UInt64) : CallRecord :=
  { r with rounds := r.rounds ++ [⟨now, []⟩] }

def outcome (r : CallRecord) (code : ℤ) : CallRecord :=
  { r with rounds := r.rounds.modifyLast fun a ↦ { a with outcomes := a.outcomes ++ [code] } }

def note (s : Service τ L n) (r : CallRecord) (pc : Pc n) : ServiceEvent τ → CallRecord
  | .call _ c => ⟨c, none, 0, []⟩
  | .query _ now => { r with resolved := (queryToken L s.tokens r.call.token).1, start := now }
  | .round _ now => r.begin now
  | .advance _ =>
    match pc with
    | .running _ _ _ (.ready (.ret a)) => r.outcome a.1
    | _ => r
  | _ => r

def observe [DecidableEq τ] (t : τ) (r : CallRecord) (s : Service τ L n) (e : ServiceEvent τ)
    (_ : Service τ L n) : CallRecord :=
  if e.thread = some t then r.note s (s.threads t).pc e else r

def doit (r : CallRecord) : Option Returned :=
  Bindings.doit r.call.attempts r.call.nanos r.start r.resolved r.rounds

def Replays (r : CallRecord) (past : List Round) (l : Locals) : Prop :=
  ∀ rest, Bindings.doit r.call.attempts r.call.nanos r.start r.resolved (past ++ rest) =
    doitLoop r.call.attempts r.call.nanos r.start l rest

structure Opened (r : CallRecord) (f : Frame) : Prop where
  call : r.call = f.call
  resolved : r.resolved = some f.pair
  start : r.start = f.start
  invoked : f.locals.invoked = outcomes r.rounds

/-- The last round is under way and the operation has returned `os` in it. -/
def Began (r : CallRecord) (f : Frame) (os : List ℤ) : Prop :=
  ∃ past now l, r.rounds = past ++ [⟨now, os⟩] ∧ r.Replays past l ∧
    l.loops r.call.attempts = true ∧ Locals.timedOut r.call.nanos r.start now = false ∧
    f.locals = os.foldl Locals.touch l

/-- What the record says of a thread that stands there. -/
def Follows (r : CallRecord) : Pc n → Prop
  | .idle => True
  | .called c => r.call = c ∧ r.rounds = []
  | .round f => r.Opened f ∧ r.Replays r.rounds f.locals ∧
    f.locals.loops r.call.attempts = true
  | .missing f _ _ | .inserting f _ _ => r.Opened f ∧ r.Began f []
  | .trying f rest _ => r.Opened f ∧ ∃ os, r.Began f os ∧ (os = [] → rest ≠ [])
  | .running f _ _ _ => r.Opened f ∧ f.locals.done = false ∧ ∃ os, r.Began f os
  | .releasing f _ _ _ => r.Opened f ∧ ∃ os, r.Began f os ∧ os ≠ []
  | .returned value _ => r.doit = some ⟨value, outcomes r.rounds⟩

theorem Began.done {r : CallRecord} {f : Frame} (h : r.Began f []) : f.locals.done = false := by
  obtain ⟨-, -, l, -, -, hloops, -, hl⟩ := h
  rw [hl]
  simp only [Locals.loops, Bool.and_eq_true, Bool.not_eq_true'] at hloops
  exact hloops.2

theorem outcomes_concat (past : List Round) (a : Round) :
    outcomes (past ++ [a]) = outcomes past ++ a.outcomes := by
  rw [outcomes_append]
  exact congrArg (outcomes past ++ ·) (List.flatMap_singleton ..)

theorem Replays.doit_eq {r : CallRecord} {past rest : List Round} {l : Locals}
    (h : r.Replays past l) (hrounds : r.rounds = past ++ rest) :
    r.doit = doitLoop r.call.attempts r.call.nanos r.start l rest := by
  rw [doit, hrounds]
  exact h rest

theorem follows_loopHead {r : CallRecord} {f : Frame} (hf : r.Opened f)
    (h : r.Replays r.rounds f.locals) (l : Option DatasetH) : r.Follows (.loopHead f l : Pc n) := by
  unfold Pc.loopHead
  rw [← hf.call]
  split
  case isTrue hloops => exact ⟨hf, h, hloops⟩
  case isFalse hloops =>
    show r.doit = some _
    rw [h.doit_eq (List.append_nil _).symm, doitLoop, if_neg hloops, hf.invoked]

theorem follows_got {r : CallRecord} {f : Frame} (hf : r.Opened f) (h : r.Began f [])
    (found : List (Fin n)) : r.Follows (.got f found) := by
  unfold Pc.got
  split
  case isTrue =>
    obtain ⟨past, now, l, hrounds, hreplays, hloops, htime, hl⟩ := h
    show r.doit = some _
    rw [hreplays.doit_eq hrounds, doitLoop, if_pos hloops, htime, ← hf.invoked, hl]
    rfl
  case isFalse hfound =>
    exact ⟨hf, [], h, fun _ hx ↦ hfound (congrArg List.length hx)⟩

theorem follows_scanned {r : CallRecord} {f : Frame} (hf : r.Opened f) (h : r.Began f [])
    (found : List (Fin n)) : r.Follows (.scanned f found) := by
  unfold Pc.scanned
  split
  · exact follows_got hf h found
  · exact ⟨hf, h⟩

theorem result_pos {l : Locals} {attempts : ℤ} (hcode : l.code = attemptSuccessful ∨ l.code ≤ 0)
    (hpos : 0 < l.result attempts) :
    l.code = attemptSuccessful ∧ l.result attempts = l.touched := by
  rw [Locals.result] at hpos ⊢
  split at hpos
  case isTrue hsuccess => exact ⟨hsuccess.1, if_pos hsuccess⟩
  case isFalse =>
    split at hpos
    case isTrue => exact absurd hpos (by decide)
    case isFalse hother =>
      have hle := hcode.resolve_left fun hx ↦ hother (Or.inl hx)
      exact absurd hle hpos.not_ge

theorem made_result_pos {attempts : ℤ} {past : List Round} {l : Locals} (h : Made attempts past l)
    (hcodes : ∀ o ∈ l.invoked, o = attemptSuccessful ∨ o < 0) (hcount : l.invoked.length < 2 ^ 31)
    (hpos : 0 < l.result attempts) :
    ∃ earlier, attemptSuccessful ∉ earlier ∧ l.invoked = earlier ++ [attemptSuccessful] ∧
      l.result attempts = earlier.length + 1 := by
  have hlast : l.code = cpleNone ∨ l.code ∈ l.invoked := by
    rw [h.code]
    exact List.mem_cons.mp List.getLastD_mem_cons
  have hcode : l.code = attemptSuccessful ∨ l.code ≤ 0 := by
    rcases hlast with hnone | hmem
    · rw [hnone]
      exact Or.inr le_rfl
    · exact (hcodes _ hmem).imp_right le_of_lt
  obtain ⟨hsuccess, htouched⟩ := result_pos hcode hpos
  rw [htouched, h.touched, int32_natCast hcount]
  have hlast : l.code ∈ l.invoked := by
    refine hlast.resolve_left fun hnone ↦ ?_
    exact absurd (hsuccess.symm.trans hnone) (by decide)
  have hmem : attemptSuccessful ∈ outcomes past := by
    by_contra hnone
    have hall : l.invoked = outcomes past := h.invoked.trans (invocations_eq_self hnone)
    exact hnone (hall ▸ hsuccess ▸ hlast)
  obtain ⟨earlier, hearlier, heq⟩ := invocations_success hmem
  refine ⟨earlier, hearlier, h.invoked.trans heq, ?_⟩
  rw [h.invoked, heq, List.length_append, List.length_singleton, Nat.cast_add, Nat.cast_one]

theorem doitLoop_pos {attempts : ℤ} {nanos start : UInt64} {past rounds : List Round} {l : Locals}
    (h : Made attempts past l) (hlength : (past ++ rounds).length < 2 ^ 31) {r : Returned}
    (hr : doitLoop attempts nanos start l rounds = some r)
    (hcodes : ∀ o ∈ r.invoked, o = attemptSuccessful ∨ o < 0)
    (hcount : r.invoked.length < 2 ^ 31) (hpos : 0 < r.value) :
    ∃ earlier, attemptSuccessful ∉ earlier ∧ r.invoked = earlier ++ [attemptSuccessful] ∧
      r.value = earlier.length + 1 := by
  induction rounds generalizing past l with
  | nil =>
    rw [doitLoop] at hr
    split at hr
    · cases hr
    · cases hr
      exact made_result_pos h hcodes hcount hpos
  | cons a rounds ih =>
    rw [doitLoop] at hr
    split at hr
    case isTrue hloops =>
      split at hr
      · cases hr
        cases hpos
      · split at hr
        · cases hr
          cases hpos
        · have hpast : past.length < 2 ^ 31 := by
            rw [List.length_append] at hlength
            omega
          refine ih (h.round hloops (fun _ ↦ hpast) a) ?_ hr
          rwa [List.append_assoc]
    case isFalse =>
      cases hr
      exact made_result_pos h hcodes hcount hpos

theorem doit_pos {attempts : ℤ} {nanos start : UInt64} {resolved : Option UriOptions}
    {rounds : List Round} {r : Returned} (hlength : rounds.length < 2 ^ 31)
    (hr : Bindings.doit attempts nanos start resolved rounds = some r)
    (hcodes : ∀ o ∈ r.invoked, o = attemptSuccessful ∨ o < 0)
    (hcount : r.invoked.length < 2 ^ 31) (hpos : 0 < r.value) :
    ∃ earlier, attemptSuccessful ∉ earlier ∧ r.invoked = earlier ++ [attemptSuccessful] ∧
      r.value = earlier.length + 1 := by
  cases resolved with
  | none =>
    cases hr
    exact absurd hpos (by decide)
  | some pair => exact doitLoop_pos (.start attempts) hlength hr hcodes hcount hpos

theorem touch_i (l : Locals) (o : ℤ) : (l.touch o).i = l.i := by
  unfold Locals.touch
  split <;> rfl

theorem foldl_touch_i (l : Locals) (os : List ℤ) : (os.foldl Locals.touch l).i = l.i := by
  induction os generalizing l with
  | nil => rfl
  | cons o os ih => exact (ih (l.touch o)).trans (touch_i l o)

theorem Began.next {r : CallRecord} {f : Frame} {os : List ℤ} (h : r.Began f os) (hos : os ≠ []) :
    r.Replays r.rounds { f.locals with i := int32 (f.locals.i + 1) } := by
  obtain ⟨past, now, l, hrounds, hreplays, hloops, htime, hl⟩ := h
  intro rest
  have hlength : os.length ≠ 0 := List.length_eq_zero_iff.not.mpr hos
  rw [hrounds, List.append_assoc, hreplays, List.singleton_append, doitLoop, if_pos hloops, htime]
  simp only [Bool.false_eq_true, if_false, hlength]
  rw [Locals.tryAll, hl, foldl_touch_i]

theorem Began.touch {r : CallRecord} {f : Frame} {os : List ℤ} (h : r.Began f os) (code : ℤ) :
    (r.outcome code).Began { f with locals := f.locals.touch code } (os ++ [code]) := by
  obtain ⟨past, now, l, hrounds, hreplays, hloops, htime, hl⟩ := h
  refine ⟨past, now, l, ?_, hreplays, hloops, htime, ?_⟩
  · rw [outcome, hrounds, List.modifyLast_concat]
  · rw [List.foldl_append, ← hl]
    rfl

theorem Opened.touch {r : CallRecord} {f : Frame} {os : List ℤ} (hf : r.Opened f)
    (h : r.Began f os) (hdone : f.locals.done = false) (code : ℤ) :
    (r.outcome code).Opened { f with locals := f.locals.touch code } := by
  refine ⟨hf.call, hf.resolved, hf.start, ?_⟩
  obtain ⟨past, now, l, hrounds, -⟩ := h
  have hinvoked := hf.invoked
  rw [hrounds, outcomes_concat] at hinvoked
  rw [outcome, hrounds, List.modifyLast_concat, outcomes_concat, ← List.append_assoc, ← hinvoked,
    Locals.touch, hdone]
  rfl

theorem Opened.begin {r : CallRecord} {f : Frame} (hf : r.Opened f) (now : UInt64) :
    (r.begin now).Opened f := by
  refine ⟨hf.call, hf.resolved, hf.start, ?_⟩
  rw [CallRecord.begin, outcomes_concat, List.append_nil]
  exact hf.invoked

end CallRecord

namespace Service

open CallRecord

variable {τ : Type} [DecidableEq τ] {L : LruCache} {n : ℕ}

theorem step_round {h : StringHash} {s s' : Service τ L n} {t : τ} {now : UInt64}
    (hs : s.step h (.round t now) = some s') :
    ∃ f, (s.threads t).pc = .round f ∧
      (Locals.timedOut f.call.nanos f.start now = true ∧
          (s'.threads t).pc = .returned (-cpleFileIo) none ∨
        Locals.timedOut f.call.nanos f.start now = false ∧
          ∃ found, (s'.threads t).pc = .scanned f found) := by
  simp only [step] at hs
  split at hs
  case h_1 f hpc =>
    refine ⟨f, hpc, ?_⟩
    by_cases htime : Locals.timedOut f.call.nanos f.start now = true
    · rw [if_pos htime] at hs
      cases hs
      exact Or.inl ⟨htime, move_pc ..⟩
    · rw [if_neg htime] at hs
      refine Or.inr ⟨Bool.eq_false_of_not_eq_true htime, ?_⟩
      split at hs
      · cases hs
        exact ⟨_, by rw [put_self]⟩
      · cases hs
  case h_2 => cases hs

theorem step_attempt {h : StringHash} {s s' : Service τ L n} {t : τ}
    (hs : s.step h (.attempt t) = some s') :
    ∃ f i rest l, (s.threads t).pc = .trying f (i :: rest) l ∧
      (f.locals.done = false ∧ (s'.threads t).pc = .running f i rest (.ready f.call.op.task) ∨
        f.locals.done = true ∧ (s'.threads t).pc = .releasing f i rest l) := by
  simp only [step] at hs
  split at hs
  case h_1 f i rest l hpc =>
    refine ⟨f, i, rest, l, hpc, ?_⟩
    cases hdone : f.locals.done <;> rw [hdone] at hs <;> cases hs
    · exact Or.inl ⟨rfl, move_pc ..⟩
    · exact Or.inr ⟨rfl, move_pc ..⟩
  case h_2 => cases hs

theorem follows_round {h : StringHash} {s s' : Service τ L n} {t : τ} {now : UInt64}
    {r : CallRecord} (hs : s.step h (.round t now) = some s')
    (hr : r.Follows (s.threads t).pc) : (r.begin now).Follows (s'.threads t).pc := by
  obtain ⟨f, hpc, hcases⟩ := step_round hs
  rw [hpc] at hr
  obtain ⟨hf, hreplays, hloops⟩ := hr
  have hcall : r.call.nanos = f.call.nanos := congrArg Invocation.nanos hf.call
  rcases hcases with ⟨htime, hpc'⟩ | ⟨htime, found, hpc'⟩
  · rw [hpc']
    have hinvoked := (hf.begin now).invoked
    have hlate : Locals.timedOut r.call.nanos r.start now = true := by
      rw [hf.start, hcall]
      exact htime
    have hdoit : (r.begin now).doit = doitLoop r.call.attempts r.call.nanos r.start f.locals
        [⟨now, []⟩] := Replays.doit_eq (r := r.begin now) hreplays rfl
    show (r.begin now).doit = some _
    rw [hdoit, doitLoop, if_pos hloops, if_pos hlate, hinvoked]
  · rw [hpc']
    refine follows_scanned (hf.begin now) ⟨r.rounds, now, f.locals, rfl, hreplays, hloops, ?_, rfl⟩
      found
    rw [CallRecord.begin, hf.start, hcall]
    exact htime

theorem follows_attempt {h : StringHash} {s s' : Service τ L n} {t : τ} {r : CallRecord}
    (hs : s.step h (.attempt t) = some s') (hr : r.Follows (s.threads t).pc) :
    r.Follows (s'.threads t).pc := by
  obtain ⟨f, i, rest, l, hpc, hcases⟩ := step_attempt hs
  rw [hpc] at hr
  obtain ⟨hf, os, hbegan, -⟩ := hr
  rcases hcases with ⟨hdone, hpc'⟩ | ⟨hdone, hpc'⟩
  · rw [hpc']
    exact ⟨hf, hdone, os, hbegan⟩
  · rw [hpc']
    refine ⟨hf, os, hbegan, ?_⟩
    -- a dataset is passed over only after a success in this very round
    rintro rfl
    rw [hbegan.done] at hdone
    cases hdone

theorem follows_work {s : Service τ L n} {t : τ} {f : Frame} {i : Fin n} {rest : List (Fin n)}
    {p : Task (ℤ × Option ℤ)} {r : CallRecord}
    (hr : r.Follows (.running f i rest (.ready p))) :
    (r.note s (.running f i rest (.ready p)) (.advance t)).Follows
      ((s.work t f i rest p).threads t).pc := by
  obtain ⟨hf, hdone, os, hbegan⟩ := hr
  cases p with
  | ret a =>
    rw [work, move_pc]
    exact ⟨hf.touch hbegan hdone a.1, _, hbegan.touch a.1, List.concat_ne_nil a.1 os⟩
  | tryLock k =>
    by_cases hfree : (s.cache.values i).datasetLock = none
    · rw [work, if_pos hfree, move_pc]
      exact ⟨hf, hdone, os, hbegan⟩
    · rw [work, if_neg hfree, move_pc]
      exact ⟨hf, hdone, os, hbegan⟩
  | unlock k | call c k =>
    rw [work, move_pc]
    exact ⟨hf, hdone, os, hbegan⟩

theorem follows_own {h : StringHash} {s s' : Service τ L n} {e : ServiceEvent τ} {t : τ}
    {r : CallRecord} (hs : s.step h e = some s') (ht : e.thread = some t)
    (hr : r.Follows (s.threads t).pc) :
    (r.note s (s.threads t).pc e).Follows (s'.threads t).pc := by
  have hs' := hs
  cases step_moves hs with
  | getToken => cases ht
  | call u c hpc =>
    obtain rfl := Option.some.inj ht
    rw [move_pc]
    exact ⟨rfl, rfl⟩
  | query u now c pair hpc hpair =>
    obtain rfl := Option.some.inj ht
    rw [hpc] at hr
    obtain ⟨hcall, hrounds⟩ := hr
    rw [move_pc]
    refine follows_loopHead ⟨hcall, ?_, rfl, ?_⟩ ?_ none
    · show (queryToken L s.tokens r.call.token).1 = some pair
      rw [hcall, hpair]
    · show [] = outcomes r.rounds
      rw [hrounds]
      rfl
    · intro rest
      show Bindings.doit _ _ _ (queryToken L s.tokens r.call.token).1 (r.rounds ++ rest) = _
      rw [hcall, hpair, hrounds]
      rfl
  | unknown u now c hpc hnone =>
    obtain rfl := Option.some.inj ht
    rw [hpc] at hr
    obtain ⟨hcall, hrounds⟩ := hr
    rw [move_pc]
    show Bindings.doit _ _ _ (queryToken L s.tokens r.call.token).1 r.rounds =
      some ⟨_, outcomes r.rounds⟩
    rw [hcall, hnone, hrounds]
    rfl
  | timeOut u now f hpc =>
    obtain rfl := Option.some.inj ht
    exact follows_round hs' hr
  | scan u now f hpc =>
    obtain rfl := Option.some.inj ht
    exact follows_round hs' hr
  | lockCache u f found request hpc =>
    obtain rfl := Option.some.inj ht
    rw [hpc] at hr
    rw [move_pc]
    exact hr
  | giveUp u f found k hpc =>
    obtain rfl := Option.some.inj ht
    rw [hpc] at hr
    rw [move_pc]
    exact follows_got hr.1 hr.2 found
  | insert u o f found left g hpc =>
    obtain rfl := Option.some.inj ht
    rw [hpc] at hr
    rw [put_self]
    exact hr
  | unlockCache u f found hpc =>
    obtain rfl := Option.some.inj ht
    rw [hpc] at hr
    rw [move_pc]
    exact follows_got hr.1 hr.2 found
  | attempt u f i rest l hpc =>
    obtain rfl := Option.some.inj ht
    exact follows_attempt hs' hr
  | skip u f i rest l hpc =>
    obtain rfl := Option.some.inj ht
    exact follows_attempt hs' hr
  | advance u f i rest p hpc =>
    obtain rfl := Option.some.inj ht
    rw [hpc] at hr ⊢
    exact follows_work hr
  | answer u reply f i rest c g hpc =>
    obtain rfl := Option.some.inj ht
    rw [hpc] at hr
    rw [move_pc]
    exact hr
  | dec u f i rest l hpc =>
    obtain rfl := Option.some.inj ht
    rw [hpc] at hr
    obtain ⟨hf, os, hbegan, hos⟩ := hr
    rw [put_self]
    exact ⟨hf, os, hbegan, fun hx ↦ absurd hx hos⟩
  | next u f l hpc =>
    obtain rfl := Option.some.inj ht
    rw [hpc] at hr
    obtain ⟨hf, os, hbegan, hos⟩ := hr
    rw [move_pc]
    exact follows_loopHead
      (f := { f with locals := { f.locals with i := int32 (f.locals.i + 1) } })
      ⟨hf.call, hf.resolved, hf.start, hf.invoked⟩ (hbegan.next fun hx ↦ hos hx rfl) l
  | finish u value l hpc =>
    obtain rfl := Option.some.inj ht
    rw [move_pc]
    trivial

theorem follows_step {h : StringHash} {size : ℕ} {t : τ} (s : Service τ L n) (e : ServiceEvent τ)
    (s' : Service τ L n) (r : CallRecord) (hr : r.Follows (s.threads t).pc)
    (hs : (machine h τ L size n).step s e = some s') :
    (r.observe t s e s').Follows (s'.threads t).pc := by
  rw [observe]
  split
  case isTrue ht => exact follows_own hs ht hr
  case isFalse ht =>
    rw [step_other hs ht]
    exact hr

theorem follows_run {h : StringHash} {size : ℕ} {s : Service τ L n} {es : List (ServiceEvent τ)}
    (hrun : (machine h τ L size n).run (machine h τ L size n).init es = some s) (t : τ)
    (r : CallRecord) :
    ((machine h τ L size n).record (observe t) (machine h τ L size n).init r es).Follows
      (s.threads t).pc := by
  have hstart : r.Follows ((machine h τ L size n).init.threads t).pc := trivial
  exact Machine.run_record
    (I := fun (s : Service τ L n) (r : CallRecord) ↦ r.Follows (s.threads t).pc) follows_step
    hstart hrun

/-- Whatever the other threads do in between, a call returns what the loop of `DOIT`
returns, run alone, on the rounds the call has seen. -/
theorem calls_follow_doit {h : StringHash} {size : ℕ} {s : Service τ L n}
    {es : List (ServiceEvent τ)}
    (hrun : (machine h τ L size n).run (machine h τ L size n).init es = some s) (t : τ)
    (r : CallRecord) {value : ℤ} {l : Option DatasetH}
    (hpc : (s.threads t).pc = .returned value l) :
    ((machine h τ L size n).record (observe t) (machine h τ L size n).init r es).doit =
      some ⟨value, outcomes
        ((machine h τ L size n).record (observe t) (machine h τ L size n).init r es).rounds⟩ := by
  have hfollows := follows_run hrun t r
  rw [hpc] at hfollows
  exact hfollows

/-- The second thread finds the dataset busy in its first round. -/
def contendedRun : List (ServiceEvent Bool) :=
  [.getToken ("a.tif", []) [], .call false ⟨33, .noop, 3, 1, 0⟩, .call true ⟨33, .noop, 3, 1, 0⟩,
    .query false 0, .query true 0, .round false 0, .lockCache false,
    .insert false (answering true true), .unlockCache false, .round true 0, .attempt false,
    .advance false, .attempt true, .advance true, .advance true, .dec true, .next true,
    .advance false, .advance false, .dec false, .next false, .round true 0, .attempt true,
    .advance true, .advance true, .advance true, .dec true, .next true]

theorem calls_follow_doit_contended : ∃ s,
    (machine lengthHash Bool (.ofList Token UriOptions) 4 2).run
      (machine lengthHash Bool (.ofList Token UriOptions) 4 2).init contendedRun = some s ∧
    (s.threads true).pc = .returned 2 none ∧
    ((machine lengthHash Bool (.ofList Token UriOptions) 4 2).record (observe true)
      (machine lengthHash Bool (.ofList Token UriOptions) 4 2).init
      ⟨⟨0, .noop, 1, 1, 0⟩, none, 0, []⟩ contendedRun).doit = some ⟨2, outcomes
        ((machine lengthHash Bool (.ofList Token UriOptions) 4 2).record (observe true)
          (machine lengthHash Bool (.ofList Token UriOptions) 4 2).init
          ⟨⟨0, .noop, 1, 1, 0⟩, none, 0, []⟩ contendedRun).rounds⟩ := by
  have hrun : (machine lengthHash Bool (.ofList Token UriOptions) 4 2).run
      (machine lengthHash Bool (.ofList Token UriOptions) 4 2).init contendedRun = some _ := rfl
  exact ⟨_, hrun, rfl, calls_follow_doit hrun true _ rfl⟩

/-- What a thread is told counts the invocations it made, also while others use the
library: the last of them succeeded and no earlier one did. -/
theorem positive_counts_invocations {h : StringHash} {size : ℕ} {s : Service τ L n}
    {es : List (ServiceEvent τ)}
    (hrun : (machine h τ L size n).run (machine h τ L size n).init es = some s) (t : τ)
    (r : CallRecord) {value : ℤ} {l : Option DatasetH}
    (hpc : (s.threads t).pc = .returned value l) (hpos : 0 < value)
    {rounds : List Round} (hrounds : rounds =
      ((machine h τ L size n).record (observe t) (machine h τ L size n).init r es).rounds)
    (hcodes : ∀ o ∈ outcomes rounds, o = attemptSuccessful ∨ o < 0)
    (hlength : rounds.length < 2 ^ 31) (hcount : (outcomes rounds).length < 2 ^ 31) :
    ∃ earlier, attemptSuccessful ∉ earlier ∧ outcomes rounds = earlier ++ [attemptSuccessful] ∧
      value = earlier.length + 1 := by
  subst hrounds
  have hfollows := follows_run hrun t r
  rw [hpc] at hfollows
  exact doit_pos hlength hfollows hcodes hcount hpos

theorem positive_counts_invocations_contended : ∃ earlier, attemptSuccessful ∉ earlier ∧
    outcomes ((machine lengthHash Bool (.ofList Token UriOptions) 4 2).record (observe true)
      (machine lengthHash Bool (.ofList Token UriOptions) 4 2).init
      ⟨⟨0, .noop, 1, 1, 0⟩, none, 0, []⟩ contendedRun).rounds = earlier ++ [attemptSuccessful] ∧
    (2 : ℤ) = earlier.length + 1 := by
  have hrun : (machine lengthHash Bool (.ofList Token UriOptions) 4 2).run
      (machine lengthHash Bool (.ofList Token UriOptions) 4 2).init contendedRun = some _ := rfl
  exact positive_counts_invocations hrun true ⟨⟨0, .noop, 1, 1, 0⟩, none, 0, []⟩
    rfl (by decide) rfl (by decide) (by decide) (by decide)

end Service

end GdalWarp.Bindings
