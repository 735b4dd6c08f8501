import GdalWarp.Bindings.OperationErrors

namespace GdalWarp.Bindings

open Foundation Foundation.Program ErrnoCall ErrnoLog

/-- The program asks for the last error only to return its code. -/
def AsksLast {α : Type} : Task (Answer α) → Prop
  | .ret _ => True
  | .tryLock k => ∀ free, AsksLast (k free)
  | .unlock k => AsksLast k
  | .call .getLastErrno k => ∀ retval : ℤ, ∃ out, k retval = .ret ⟨failureCode retval, out⟩
  | .call _ k => ∀ r, AsksLast (k r)

attribute [simp] AsksLast

section AsksLast

variable {α : Type}

@[simp] theorem asksLast_ite {c : Prop} [Decidable c] {p q : Task (Answer α)} :
    AsksLast (if c then p else q) ↔ if c then AsksLast p else AsksLast q := by
  split <;> exact Iff.rfl

@[simp] theorem tryLock_asksLast {body : Task (Answer α)} :
    AsksLast (tryLock body) ↔ AsksLast body := by
  simp [tryLock]

theorem asksLast_call {c : Call} (hc : c ≠ .getLastErrno) {k : Reply c → Task (Answer α)} :
    AsksLast (.call c k) ↔ ∀ r, AsksLast (k r) := by
  cases c
  case getLastErrno => exact absurd rfl hc
  all_goals exact Iff.rfl

theorem failure_asksLast (out : α) : AsksLast (failure out) := by
  intro retval
  refine ⟨some out, ?_⟩
  by_cases hzero : retval = 0 <;> simp [failureCode, hzero]

theorem checked_asksLast {c : Prop} [Decidable c] {out : α} :
    AsksLast (if c then success out else failure out) := by
  rw [asksLast_ite]
  split
  · trivial
  · exact failure_asksLast out

theorem getOverviews_asksLast {band : Option BandH} {i k : ℕ}
    {f : List (ℤ × ℤ) → Task (Answer α)} (hf : ∀ sizes, AsksLast (f sizes)) :
    AsksLast ((getOverviews band i k).bind f) := by
  induction k generalizing i f with
  | zero => exact hf []
  | succ k ih =>
    intro overview width height
    change AsksLast (((getOverviews band (i + 1) k).bind fun rest ↦
      .ret ((width, height) :: rest)).bind f)
    rw [Program.bind_assoc]
    exact ih fun rest ↦ hf _

theorem majorObject_asksLast {dataset bandNumber : ℤ} {f : MajorObject → Task (Answer α)}
    (hf : ∀ object, AsksLast (f object)) :
    AsksLast ((majorObject dataset bandNumber).bind f) := by
  unfold majorObject
  split
  · exact hf _
  · exact fun band ↦ hf _

end AsksLast

theorem readBand_asksLast (getter : BandGetter) (dataset bandNumber : ℤ) :
    AsksLast (readBand getter dataset bandNumber) := by
  simp [readBand]

theorem readMetadata_asksLast (getter : MetadataGetter) (dataset bandNumber : ℤ) :
    AsksLast (readMetadata getter dataset bandNumber) := by
  refine tryLock_asksLast.mpr fun before ↦ majorObject_asksLast fun object list after ↦ ?_
  exact checked_asksLast

theorem program_asksLast (op : Operation) : AsksLast op.program := by
  cases op with
  | getOverviewWidthsHeights d b k =>
    refine tryLock_asksLast.mpr fun band count ↦ getOverviews_asksLast fun sizes ↦ ?_
    simp
  | getMetadataDomainList d b => exact readMetadata_asksLast _ d b
  | getMetadata d b domain => exact readMetadata_asksLast _ d b
  | getBlockSize d b | getOffset d b | getScale d b | getColorInterpretation d b
  | getBandNodata d b | getBandDataType d b => exact readBand_asksLast _ d b
  | getBandMaxMin d b approx flag => simp [Operation.program, getBandMaxMin]
  | getCrsProj4 d k => simp [Operation.program, getCrsProj4]
  | getHistogram => exact tryLock_asksLast.mpr fun bandh retval ↦ checked_asksLast
  | getMetadataItem =>
    exact tryLock_asksLast.mpr (majorObject_asksLast fun object value ↦ checked_asksLast)
  | getPixels => exact fun band ↦ tryLock_asksLast.mpr fun retval ↦ checked_asksLast
  | _ => simp [Operation.program, noop, getCrsWkt, getBandCount, getTransform, getWidthHeight]

variable {τ : Type} [DecidableEq τ]

/-- From one log to the other the thread either has not asked for its last error,
or asked last, and the code is that of the error pending then. -/
def Ended (tid : τ) (code : ℤ) (before after : List (ErrnoCall τ)) : Prop :=
  ∃ during, after = during ++ before ∧ (Unasked tid during ∨
    ∃ front, during = .getLastErrno tid :: front ∧ Unasked tid front ∧
      code = failureCode (pendingNumber tid (front ++ before)))

theorem Ended.prepend {tid : τ} {code : ℤ} {added before after : List (ErrnoCall τ)}
    (hadded : Unasked tid added) (h : Ended tid code (added ++ before) after) :
    Ended tid code before after := by
  obtain ⟨during, rfl, hduring⟩ := h
  refine ⟨during ++ added, (List.append_assoc _ _ _).symm, ?_⟩
  rcases hduring with hunasked | ⟨front, rfl, hfront, hcode⟩
  · exact Or.inl fun hmem ↦ (List.mem_append.mp hmem).elim hunasked hadded
  · refine Or.inr ⟨front ++ added, rfl, fun hmem ↦ (List.mem_append.mp hmem).elim hfront hadded, ?_⟩
    rw [List.append_assoc]
    exact hcode

theorem operate_asksLast {α : Type} {tid : τ} {p : Task (Answer α)} (hp : AsksLast p)
    {is : List (Input (Reaction τ))} {s s' : ErrnoLog τ} {ans : Answer α} (hs : s.Tracked)
    (hroomy : s'.AlwaysRoomy) (h : p.execute (respond tid) is s = some (ans, s')) :
    s'.Tracked ∧ Ended tid ans.code s.calls s'.calls := by
  induction p generalizing is s with
  | ret a =>
    obtain ⟨-, rfl, rfl⟩ := execute_ret.mp h
    exact ⟨hs, [], rfl, Or.inl List.not_mem_nil⟩
  | tryLock k ih =>
    obtain ⟨free, is', -, hk⟩ := execute_tryLock.mp h
    exact ih free (hp free) hs hk
  | unlock k ih => exact ih hp hs (execute_unlock.symm.trans h)
  | call c k ih =>
    obtain ⟨i, is', r, t, -, hr, hk⟩ := execute_call.mp h
    have ht : t.AlwaysRoomy := hroomy.of_suffix (operate_suffix hk)
    by_cases hget : c = .getLastErrno
    · subst hget
      obtain ⟨hretval, htracked, added, hquiet, hcalls⟩ := respond_getLastErrno hs ht hr
      obtain ⟨out, hout⟩ := hp r
      rw [hout] at hk
      obtain ⟨-, rfl, rfl⟩ := execute_ret.mp hk
      refine ⟨htracked, _, hcalls, Or.inr ⟨added, rfl, hquiet.onlyReports.unasked, ?_⟩⟩
      rw [hretval, pendingNumber, pendingNumber, hquiet.pending]
    have hp : ∀ r, AsksLast (k r) := (asksLast_call hget).mp hp
    by_cases htime : c = .getLastErrnoTimestamp
    · subst htime
      obtain ⟨-, htracked, added, hquiet, hcalls⟩ := respond_timestamp hs ht hr
      obtain ⟨hs', hended⟩ := ih r (hp r) htracked hk
      rw [hcalls, ← List.cons_append] at hended
      refine ⟨hs', hended.prepend fun hmem ↦ ?_⟩
      exact hquiet.onlyReports.unasked ((List.mem_cons.mp hmem).resolve_left (by simp))
    · obtain ⟨-, htracked, added, honly, hcalls⟩ := respond_reply hs ht ⟨hget, htime⟩ hr
      obtain ⟨hs', hended⟩ := ih r (hp r) htracked hk
      rw [hcalls] at hended
      exact ⟨hs', hended.prepend honly.unasked⟩

/-- What goes on around a thread: the log of the map of errors, and for every
operation of the thread that ended through `FAILURE` the code it should have
returned with the one it did. -/
structure History (τ : Type) where
  log : ErrnoLog τ
  failures : List (ℤ × ℤ)

inductive ThreadEvent (τ : Type) where
  | elsewhere (calls : List (ErrnoCall τ))
  | operation (op : Operation) (is : List (Input (Reaction τ)))

namespace ErrnoCall

def asks (tid : τ) : ErrnoCall τ → Bool
  | .getLastErrno t => decide (t = tid)
  | _ => false

def isReport (tid : τ) : ErrnoCall τ → Bool
  | .putLastErrno _ => true
  | .getLastErrno t | .getLastErrnoTimestamp t => decide (t ≠ tid)

theorem any_asks_iff {tid : τ} {calls : List (ErrnoCall τ)} :
    calls.any (asks tid) = true ↔ ¬ Unasked tid calls := by
  rw [List.any_eq_true, Unasked, not_not]
  constructor
  · rintro ⟨c, hc, hasks⟩
    cases c with
    | getLastErrno t => exact of_decide_eq_true hasks ▸ hc
    | putLastErrno m => cases hasks
    | getLastErrnoTimestamp t => cases hasks
  · exact fun hmem ↦ ⟨_, hmem, decide_eq_true rfl⟩

def dueCode (tid : τ) (during : List (ErrnoCall τ)) : ℤ :=
  match (messages tid during).head? with
  | some m => -m.errNo
  | none => -cpleObjectNull

end ErrnoCall

namespace History

def during (s s' : ErrnoLog τ) : List (ErrnoCall τ) :=
  s'.calls.take (s'.calls.length - s.calls.length)

def step (tid : τ) (s : History τ) : ThreadEvent τ → Option (History τ)
  | .elsewhere calls =>
    if calls.all (isReport tid) then
      ((machine s.log.errors).run s.log calls).map fun log ↦ { s with log := log }
    else none
  | .operation op is =>
    (op.program.execute (respond tid) is s.log).map fun r ↦
      let calls := during s.log r.2
      ⟨r.2, if calls.any (asks tid) then (dueCode tid calls, r.1.code) :: s.failures
        else s.failures⟩

def machine (e : ErrorCodes τ) (tid : τ) : Machine (History τ) (ThreadEvent τ) where
  init := ⟨⟨e.errnoInit, []⟩, []⟩
  step := step tid

def Truthful (s : History τ) : Prop := ∀ f ∈ s.failures, f.2 = f.1

/-- If the operation asks for the last error, that error is its own and has a
number; or it has none, and what it finds pending reads as a null object too. -/
def Fresh (tid : τ) (s : History τ) : ThreadEvent τ → Prop
  | .elsewhere _ => True
  | .operation op is => ∀ r, op.program.execute (respond tid) is s.log = some r →
    (during s.log r.2).any (asks tid) = true →
      match (messages tid (during s.log r.2)).head? with
      | some m => m.errNo ≠ 0
      | none => pendingNumber tid s.log.calls = cpleNone ∨
          pendingNumber tid s.log.calls = cpleObjectNull

omit [DecidableEq τ] in
theorem during_eq {s s' : ErrnoLog τ} {calls : List (ErrnoCall τ)}
    (h : s'.calls = calls ++ s.calls) : during s s' = calls := by
  rw [during, h, List.length_append, Nat.add_sub_cancel, List.take_left]

theorem failureCode_eq_neg_iff {errNo : ℤ} : failureCode errNo = -errNo ↔ errNo ≠ 0 := by
  rw [failureCode, cpleObjectNull]
  split <;> omega

theorem failureCode_eq_null_iff {errNo : ℤ} :
    failureCode errNo = -cpleObjectNull ↔ errNo = cpleNone ∨ errNo = cpleObjectNull := by
  rw [failureCode, cpleObjectNull, cpleNone]
  split <;> omega

theorem code_due_iff {tid : τ} {code : ℤ} {before front : List (ErrnoCall τ)}
    (hfront : Unasked tid front)
    (hcode : code = failureCode (pendingNumber tid (front ++ before))) :
    code = dueCode tid (.getLastErrno tid :: front) ↔
      match (messages tid (.getLastErrno tid :: front)).head? with
      | some m => m.errNo ≠ 0
      | none => pendingNumber tid before = cpleNone ∨
          pendingNumber tid before = cpleObjectNull := by
  have hmessages : messages tid (.getLastErrno tid :: front) = messages tid front := rfl
  rw [dueCode, hmessages, hcode, pendingNumber, pending_append hfront]
  cases (messages tid front).head? with
  | some m => exact failureCode_eq_neg_iff
  | none => exact failureCode_eq_null_iff

theorem step_tracked {tid : τ} {s s' : History τ} {ev : ThreadEvent τ} (hs : s.log.Tracked)
    (hroomy : s'.log.AlwaysRoomy) (h : s.step tid ev = some s') : s'.log.Tracked := by
  cases ev with
  | elsewhere calls =>
    obtain ⟨-, hrun⟩ := Option.ite_none_right_eq_some.mp h
    obtain ⟨log, hlog, rfl⟩ := Option.map_eq_some_iff.mp hrun
    exact hs.run_roomy hroomy hlog
  | operation op is =>
    obtain ⟨r, hr, rfl⟩ := Option.map_eq_some_iff.mp h
    exact (operate_asksLast (program_asksLast op) hs hroomy hr).1

theorem truthful_step_iff {tid : τ} {s s' : History τ} {ev : ThreadEvent τ} (hs : s.log.Tracked)
    (htruthful : s.Truthful) (hroomy : s'.log.AlwaysRoomy) (h : s.step tid ev = some s') :
    s'.Truthful ↔ s.Fresh tid ev := by
  cases ev with
  | elsewhere calls =>
    obtain ⟨-, hrun⟩ := Option.ite_none_right_eq_some.mp h
    obtain ⟨log, hlog, rfl⟩ := Option.map_eq_some_iff.mp hrun
    exact iff_of_true htruthful trivial
  | operation op is =>
    obtain ⟨⟨ans, log⟩, hr, rfl⟩ := Option.map_eq_some_iff.mp h
    obtain ⟨-, calls, hcalls, hended⟩ := operate_asksLast (program_asksLast op) hs hroomy hr
    simp only [Fresh, hr, Option.some.injEq, forall_eq', during_eq hcalls]
    rcases hended with hunasked | ⟨front, rfl, hfront, hcode⟩
    · have hany : ¬ calls.any (asks tid) = true := fun hx ↦ any_asks_iff.mp hx hunasked
      rw [if_neg hany]
      exact iff_of_true htruthful fun hx ↦ absurd hx hany
    · have hany : List.any (.getLastErrno tid :: front) (asks tid) = true :=
        any_asks_iff.mpr fun hx ↦ hx List.mem_cons_self
      rw [if_pos hany, ← code_due_iff hfront hcode]
      constructor
      · exact fun hx _ ↦ hx _ List.mem_cons_self
      · exact fun hx ↦ List.forall_mem_cons.mpr ⟨hx hany, htruthful⟩

/-- While the map has room, the operations of a thread return the codes of their
own errors exactly if none finds an older error pending. -/
theorem failures_told_iff (e : ErrorCodes τ) (tid : τ) (es : List (ThreadEvent τ))
    (hroomy : (machine e tid).EveryState (fun s ↦ s.log.AlwaysRoomy) (machine e tid).init es) :
    (machine e tid).EveryState Truthful (machine e tid).init es ↔
      (machine e tid).EveryStep (Fresh tid) (machine e tid).init es := by
  refine Machine.everyState_iff_everyStep (I := fun s ↦ s.log.Tracked) ?_ ?_ (tracked_init e)
    nofun hroomy.everyStep
  · exact fun s ev s' hs hroom hstep ↦ step_tracked hs (hroom s' hstep) hstep
  · exact fun s ev s' hs htruthful hroom hstep ↦
      truthful_step_iff hs htruthful (hroom s' hstep) hstep

def blockSizeThenKey : List (ThreadEvent Bool) :=
  [.operation (.getBlockSize 0 9)
      [.lock true, .call ⟨anyReply, [.putLastErrno ⟨true, .failure, 5, 40⟩]⟩, .call .nothing],
    .operation (.getMetadataItem 0 0 "key" none) [.lock true, .call .nothing, .call .nothing]]

theorem failures_told_iff_block_size :
    ¬ (machine ⟨none, false⟩ true).EveryStep (Fresh true) (machine ⟨none, false⟩ true).init
      blockSizeThenKey := by
  intro hfresh
  have hroomy := Machine.EveryState.of_forall (M := machine ⟨none, false⟩ true)
    (fun s ↦ alwaysRoomy_of_card (by decide) s.log) (machine ⟨none, false⟩ true).init blockSizeThenKey
  have htold := (failures_told_iff ⟨none, false⟩ true blockSizeThenKey hroomy).mpr hfresh
  exact absurd (htold.last rfl (-10, -5) List.mem_cons_self) (by decide)

theorem stale_error_told : ∃ s,
    (machine ⟨none, false⟩ true).run (machine ⟨none, false⟩ true).init blockSizeThenKey = some s ∧
      s.log.AlwaysRoomy ∧ s.failures = [(-cpleObjectNull, -5)] ∧ ¬ s.Truthful :=
  ⟨_, rfl, alwaysRoomy_of_card (by decide) _, rfl,
    fun h ↦ absurd (h (-cpleObjectNull, -5) List.mem_cons_self) (by decide)⟩

end History

end GdalWarp.Bindings
