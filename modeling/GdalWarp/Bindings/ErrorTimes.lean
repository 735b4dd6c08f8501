import GdalWarp.Bindings.OperationErrors

namespace GdalWarp.Bindings

open Foundation Foundation.Program ErrnoCall ErrnoLog

variable {τ : Type} [DecidableEq τ]

namespace ErrnoCall

def looks (tid : τ) : ErrnoCall τ → Bool
  | .getLastErrnoTimestamp t => decide (t = tid)
  | _ => false

def sinceLook (tid : τ) (calls : List (ErrnoCall τ)) : List (ErrnoCall τ) :=
  calls.takeWhile fun c ↦ !c.looks tid

def beforeLook (tid : τ) (calls : List (ErrnoCall τ)) : List (ErrnoCall τ) :=
  (calls.dropWhile fun c ↦ !c.looks tid).tail

def reported (tid : τ) (calls : List (ErrnoCall τ)) : List (Message τ) :=
  messages tid (sinceLook tid (beforeLook tid calls))

def timeBefore (tid : τ) (calls : List (ErrnoCall τ)) : ℕ :=
  pendingTime tid (beforeLook tid (beforeLook tid calls))

section Looks

variable {tid : τ} {front : List (ErrnoCall τ)} (h : ∀ c ∈ front, c.looks tid = false)

include h

theorem sinceLook_append (calls : List (ErrnoCall τ)) :
    sinceLook tid (front ++ .getLastErrnoTimestamp tid :: calls) = front := by
  rw [sinceLook, List.takeWhile_append_of_pos fun c hc ↦ by rw [h c hc, Bool.not_false],
    List.takeWhile_cons_of_neg (by simp [looks]), List.append_nil]

theorem beforeLook_append (calls : List (ErrnoCall τ)) :
    beforeLook tid (front ++ .getLastErrnoTimestamp tid :: calls) = calls := by
  rw [beforeLook, List.dropWhile_append_of_pos fun c hc ↦ by rw [h c hc, Bool.not_false],
    List.dropWhile_cons_of_neg (by simp [looks]), List.tail_cons]

end Looks

theorem looks_of_onlyReports {tid : τ} {calls : List (ErrnoCall τ)} (h : OnlyReports tid calls) :
    ∀ c ∈ calls, c.looks tid = false := by
  intro c hc
  cases c with
  | getLastErrnoTimestamp t =>
    refine decide_eq_false fun ht ↦ ?_
    obtain ⟨m, hm⟩ := h _ hc ht
    cases hm
  | putLastErrno m => rfl
  | getLastErrno t => rfl

end ErrnoCall

section Operation

variable {ρ : Type} {tid : τ} {is : List (Input (Reaction τ))} {s s' : ErrnoLog τ}

theorem operate_reply {c : Call} {k : Reply c → Task ρ} {a : ρ} (hs : s.Tracked)
    (hroomy : s'.AlwaysRoomy) (h : (Program.call c k).execute (respond tid) is s = some (a, s'))
    (hc : c ≠ .getLastErrno ∧ c ≠ .getLastErrnoTimestamp) :
    ∃ r is' t added, OnlyReports tid added ∧ t.calls = added ++ s.calls ∧ t.Tracked ∧
      (k r).execute (respond tid) is' t = some (a, s') := by
  obtain ⟨i, is', r, t, -, hr, hk⟩ := execute_call.mp h
  obtain ⟨-, ht, added, honly, hcalls⟩ :=
    respond_reply hs (hroomy.of_suffix (operate_suffix hk)) hc hr
  exact ⟨r, is', t, added, honly, hcalls, ht, hk⟩

theorem operate_metadataList {getter : MetadataGetter} {dataset bandNumber : ℤ}
    {k : Option (List String) → Task ρ} {a : ρ} (hs : s.Tracked) (hroomy : s'.AlwaysRoomy)
    (h : ((majorObject dataset bandNumber).bind fun object ↦
      .call (.getMetadataList getter object) k).execute (respond tid) is s = some (a, s')) :
    ∃ list is' t added, OnlyReports tid added ∧ t.calls = added ++ s.calls ∧ t.Tracked ∧
      (k list).execute (respond tid) is' t = some (a, s') := by
  by_cases hb : bandNumber = 0
  · simp only [majorObject, hb, if_true, pure_eq, Program.bind] at h
    exact operate_reply hs hroomy h ⟨nofun, nofun⟩
  · simp only [majorObject, hb, if_false, call, perform, bind_eq, pure_eq, Program.bind] at h
    obtain ⟨band, is', t, added, honly, hcalls, ht, hk⟩ :=
      operate_reply hs hroomy h ⟨nofun, nofun⟩
    obtain ⟨list, is'', u, added', honly', hcalls', hu, hlist⟩ :=
      operate_reply ht hroomy hk ⟨nofun, nofun⟩
    exact ⟨list, is'', u, added' ++ added, honly'.append honly,
      by rw [hcalls', hcalls, List.append_assoc], hu, hlist⟩

theorem looks_of_quiet {calls : List (ErrnoCall τ)} (h : Quiet tid calls) :
    ∀ c ∈ .getLastErrno tid :: calls, c.looks tid = false :=
  List.forall_mem_cons.mpr ⟨rfl, looks_of_onlyReports h.onlyReports⟩

theorem operate_checked {c : Prop} [Decidable c] {α : Type} {out : α} {ans : Answer α}
    (hs : s.Tracked) (hroomy : s'.AlwaysRoomy)
    (h : (if c then success out else failure out).execute (respond tid) is s = some (ans, s')) :
    ans = ⟨if c then attemptSuccessful else failureCode (pendingNumber tid s.calls), some out⟩ ∧
      ∃ front, (∀ x ∈ front, looks tid x = false) ∧ s'.calls = front ++ s.calls := by
  by_cases hc : c
  · rw [if_pos hc] at h
    obtain ⟨-, rfl, rfl⟩ := execute_ret.mp h
    rw [if_pos hc]
    exact ⟨rfl, [], nofun, rfl⟩
  · rw [if_neg hc, failure, call, perform, bind_eq, Program.bind] at h
    obtain ⟨i, is', r, t, -, hr, h⟩ := execute_call.mp h
    obtain ⟨rfl, -, added, hquiet, hcalls⟩ :=
      respond_getLastErrno hs (hroomy.of_suffix (operate_suffix h)) hr
    simp only [Program.bind, pure_eq] at h
    rw [if_neg hc, failureCode]
    split at h
    case isTrue hzero =>
      obtain ⟨-, rfl, rfl⟩ := execute_ret.mp h
      rw [if_pos hzero]
      exact ⟨rfl, _, looks_of_quiet hquiet, hcalls⟩
    case isFalse hzero =>
      obtain ⟨-, rfl, rfl⟩ := execute_ret.mp h
      rw [if_neg hzero]
      exact ⟨rfl, _, looks_of_quiet hquiet, hcalls⟩

/-- The operation looks at the time of the thread's error, calls GDAL, looks again,
and asks for the error where the times differ and the list is null. -/
theorem operate_readMetadata {getter : MetadataGetter} {dataset bandNumber : ℤ}
    {ans : Answer (Option (List String))} (hs : s.Tracked) (hroomy : s'.AlwaysRoomy)
    (h : (readMetadata getter dataset bandNumber).execute (respond tid) is s = some (ans, s')) :
    ans = ⟨datasetLocked, none⟩ ∨ ∃ list front between before after,
      after = between ++ .getLastErrnoTimestamp tid :: before ∧ OnlyReports tid between ∧
      s'.calls = front ++ .getLastErrnoTimestamp tid :: after ∧
      (∀ c ∈ front, c.looks tid = false) ∧
      ans = ⟨if list ≠ none ∨ pendingTime tid before = pendingTime tid after
        then attemptSuccessful else failureCode (pendingNumber tid after), some list⟩ := by
  simp only [readMetadata, tryLock, acquire, call, perform, release, bind_eq, Program.bind,
    execute_tryLock] at h
  obtain ⟨free, is', -, h⟩ := h
  cases free with
  | false =>
    obtain ⟨-, rfl, -⟩ := execute_ret.mp h
    exact Or.inl rfl
  | true =>
    simp only [if_true] at h
    obtain ⟨i, is₁, before, t₁, -, hbefore, h⟩ := execute_call.mp h
    obtain ⟨rfl, ht₁, added₁, hquiet₁, hcalls₁⟩ :=
      respond_timestamp hs (hroomy.of_suffix (operate_suffix h)) hbefore
    obtain ⟨list, is₂, t₂, between, honly, hcalls₂, ht₂, h⟩ := operate_metadataList
      (k := fun list ↦ .call .getLastErrnoTimestamp fun timeAfter ↦ .unlock
        (if list ≠ none ∨ (pendingTime tid s.calls : ℤ) = timeAfter then success list
          else failure list)) ht₁ hroomy h
    obtain ⟨i', is₃, after, t₃, -, hafter, h⟩ := execute_call.mp h
    obtain ⟨rfl, ht₃, added₃, hquiet₃, hcalls₃⟩ :=
      respond_timestamp ht₂ (hroomy.of_suffix (operate_suffix h)) hafter
    rw [execute_unlock] at h
    obtain ⟨rfl, front, hfront, hcalls⟩ := operate_checked ht₃ hroomy h
    refine Or.inr ⟨list, front, added₃ ++ between, added₁ ++ s.calls, added₃ ++ t₂.calls, ?_,
      hquiet₃.onlyReports.append honly, ?_, hfront, ?_⟩
    · rw [hcalls₂, hcalls₁, List.append_assoc]
    · rw [hcalls, hcalls₃]
    · have hsecond : pending tid t₃.calls = pending tid t₂.calls := by
        rw [hcalls₃]
        exact hquiet₃.pending _
      simp only [pendingTime, pendingNumber, hquiet₁.pending, hquiet₃.pending, hsecond,
        Nat.cast_inj]

end Operation

def TellsErrors (tid : τ) (code : ℤ) (list : Option (List String)) (calls : List (ErrnoCall τ)) :
    Prop :=
  code = attemptSuccessful ↔ list ≠ none ∨ reported tid calls = []

/-- There is a list, or the last error between the two looks has another time than
the one that was pending, and no number that comes back as a success. -/
def TimeTells (tid : τ) (list : Option (List String)) (calls : List (ErrnoCall τ)) : Prop :=
  list ≠ none ∨ ∀ m ∈ (reported tid calls).head?,
    m.time ≠ timeBefore tid calls ∧ m.errNo ≠ -attemptSuccessful

theorem failureCode_eq_success_iff {errNo : ℤ} :
    failureCode errNo = attemptSuccessful ↔ errNo = -attemptSuccessful := by
  rw [failureCode, attemptSuccessful, cpleObjectNull]
  split <;> omega

theorem reported_of_looks {tid : τ} {calls front between before : List (ErrnoCall τ)}
    (hcalls : calls = front ++
      .getLastErrnoTimestamp tid :: (between ++ .getLastErrnoTimestamp tid :: before))
    (honly : OnlyReports tid between) (hfront : ∀ c ∈ front, c.looks tid = false) :
    reported tid calls = messages tid between ∧ timeBefore tid calls = pendingTime tid before := by
  rw [reported, timeBefore, hcalls, beforeLook_append hfront,
    sinceLook_append (looks_of_onlyReports honly), beforeLook_append (looks_of_onlyReports honly)]
  exact ⟨rfl, rfl⟩

theorem code_tells_iff {tid : τ} {between before after : List (ErrnoCall τ)}
    (hafter : after = between ++ .getLastErrnoTimestamp tid :: before)
    (honly : OnlyReports tid between) :
    ((if pendingTime tid before = pendingTime tid after then attemptSuccessful
        else failureCode (pendingNumber tid after)) = attemptSuccessful ↔
      messages tid between = []) ↔
    ∀ m ∈ (messages tid between).head?,
      m.time ≠ pendingTime tid before ∧ m.errNo ≠ -attemptSuccessful := by
  have hpending : pending tid after =
      ((messages tid between).head?.map fun m ↦ (m.errNo, m.time)).or (pending tid before) := by
    rw [hafter, pending_append honly.unasked]
    rfl
  cases hmessages : messages tid between with
  | nil =>
    rw [hmessages] at hpending
    have hequal : pendingTime tid before = pendingTime tid after := by
      rw [pendingTime, pendingTime, hpending]
      rfl
    rw [if_pos hequal]
    exact iff_of_true (iff_of_true rfl rfl) fun m hm ↦ absurd hm (Option.not_mem_none m)
  | cons m ms =>
    rw [hmessages] at hpending
    have hnumber : pendingNumber tid after = m.errNo := by rw [pendingNumber, hpending]; rfl
    have htime : pendingTime tid after = m.time := by rw [pendingTime, hpending]; rfl
    rw [hnumber, htime, iff_false_right (List.cons_ne_nil _ _)]
    by_cases heq : pendingTime tid before = m.time
    · rw [if_pos heq]
      exact iff_of_false (fun hx ↦ hx rfl) fun hx ↦ (hx m rfl).1 heq.symm
    · rw [if_neg heq, failureCode_eq_success_iff]
      constructor
      · intro hx m' hm'
        obtain rfl := Option.some.inj hm'
        exact ⟨fun hx ↦ heq hx.symm, hx⟩
      · exact fun hx ↦ (hx m rfl).2

/-- Whatever the thread's history, the operation takes the thread's new errors for
none exactly if the time of the last says so. -/
theorem tells_errors_iff (e : ErrorCodes τ) (tid : τ) {es : List (ErrnoCall τ)}
    {s s' : ErrnoLog τ} (hrun : (machine e).run (machine e).init es = some s)
    (getter : MetadataGetter) (dataset bandNumber : ℤ) {is : List (Input (Reaction τ))}
    {ans : Answer (Option (List String))}
    (h : (readMetadata getter dataset bandNumber).execute (respond tid) is s = some (ans, s'))
    (hroomy : s'.AlwaysRoomy) :
    ans = ⟨datasetLocked, none⟩ ∨ ∃ list, ans.out = some list ∧
      (TellsErrors tid ans.code list s'.calls ↔ TimeTells tid list s'.calls) := by
  have hs : s.Tracked :=
    (tracked_init e).run_roomy (hroomy.of_suffix (operate_suffix h)) hrun
  obtain hlocked | ⟨list, front, between, before, after, hafter, honly, hcalls, hfront, rfl⟩ :=
    operate_readMetadata hs hroomy h
  · exact Or.inl hlocked
  refine Or.inr ⟨list, rfl, ?_⟩
  obtain ⟨hreported, htime⟩ := reported_of_looks (hafter ▸ hcalls) honly hfront
  rw [TellsErrors, TimeTells, hreported, htime]
  dsimp only
  by_cases hlist : list ≠ none
  · rw [if_pos (Or.inl hlist)]
    exact iff_of_true (iff_of_true rfl (Or.inl hlist)) (Or.inl hlist)
  simp only [hlist, false_or]
  exact code_tells_iff hafter honly

def missingBandAt (time : ℕ) : List (Input (Reaction Bool)) :=
  [.lock true, .call .nothing, .call ⟨anyReply, [.putLastErrno ⟨true, .failure, 5, time⟩]⟩,
    .call .nothing, .call .nothing]

def warnedAt40 : ErrnoLog Bool :=
  ⟨⟨some [(true, 1, 40)], true⟩, [.putLastErrno ⟨true, .warning, 1, 40⟩]⟩

theorem tells_errors_iff_millisecond_later : ∃ ans s',
    (readMetadata (.metadata none) 0 9).execute (respond true)
      (missingBandAt 41 ++ [.call .nothing]) warnedAt40 = some (ans, s') ∧
    (TellsErrors true ans.code none s'.calls ↔ TimeTells true none s'.calls) := by
  have hexec : (readMetadata (.metadata none) 0 9).execute (respond true)
      (missingBandAt 41 ++ [.call .nothing]) warnedAt40 = some (⟨-5, some none⟩, _) := rfl
  refine ⟨_, _, hexec, ?_⟩
  have hrun : (machine ⟨none, false⟩).run (machine ⟨none, false⟩).init
      [.putLastErrno ⟨true, .warning, 1, 40⟩] = some warnedAt40 := rfl
  obtain hlocked | ⟨list, hlist, hiff⟩ := tells_errors_iff ⟨none, false⟩ true hrun
    (.metadata none) 0 9 hexec (alwaysRoomy_of_card (by decide) _)
  · cases hlocked
  · cases hlist
    exact hiff

/-- In the same millisecond it is told as a success. -/
theorem same_millisecond_not_told : ∃ s ans s',
    (machine ⟨none, false⟩).run (machine ⟨none, false⟩).init
      [.putLastErrno ⟨true, .warning, 1, 40⟩] = some s ∧
    (readMetadata (.metadata none) 0 9).execute (respond true) (missingBandAt 40) s =
      some (ans, s') ∧
    s'.AlwaysRoomy ∧ ans = ⟨attemptSuccessful, some none⟩ ∧
    ¬ TellsErrors true ans.code none s'.calls := by
  refine ⟨_, _, _, rfl, rfl, alwaysRoomy_of_card (by decide) _, rfl, ?_⟩
  intro h
  cases (h.mp rfl).resolve_left fun hne ↦ hne rfl

end GdalWarp.Bindings
