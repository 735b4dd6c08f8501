import Mathlib.Data.Finset.Card
import GdalWarp.Foundation.LruMap
import GdalWarp.Foundation.Machine
import GdalWarp.Bindings.ErrorCodes

namespace GdalWarp.Bindings

open Foundation

inductive ErrnoCall (τ : Type) where
  | putLastErrno (m : Message τ)
  | getLastErrno (tid : τ)
  | getLastErrnoTimestamp (tid : τ)

/-- The map of errors with the calls made on it, the latest first. -/
structure ErrnoLog (τ : Type) where
  errors : ErrorCodes τ
  calls : List (ErrnoCall τ)

variable {τ : Type} [DecidableEq τ]

namespace ErrnoCall

def thread : ErrnoCall τ → τ
  | .putLastErrno m => m.thread
  | .getLastErrno tid | .getLastErrnoTimestamp tid => tid

/-- Number and time of the thread's latest message since it last asked for one. -/
def pending (tid : τ) : List (ErrnoCall τ) → Option (ℤ × ℕ)
  | [] => none
  | .putLastErrno m :: calls => if m.thread = tid then some (m.errNo, m.time) else pending tid calls
  | .getLastErrno t :: calls => if t = tid then none else pending tid calls
  | .getLastErrnoTimestamp _ :: calls => pending tid calls

def pendingNumber (tid : τ) (calls : List (ErrnoCall τ)) : ℤ :=
  ((pending tid calls).map Prod.fst).getD cpleNone

def pendingTime (tid : τ) (calls : List (ErrnoCall τ)) : ℕ :=
  ((pending tid calls).map Prod.snd).getD 0

def pendingThreads (calls : List (ErrnoCall τ)) : Finset τ :=
  (calls.map thread).toFinset.filter fun tid ↦ (pending tid calls).isSome

theorem pending_of_thread_ne {c : ErrnoCall τ} {tid : τ} (h : c.thread ≠ tid)
    (calls : List (ErrnoCall τ)) : pending tid (c :: calls) = pending tid calls := by
  cases c with
  | putLastErrno m => exact if_neg h
  | getLastErrno t => exact if_neg h
  | getLastErrnoTimestamp t => rfl

theorem mem_threads_of_pending {tid : τ} {calls : List (ErrnoCall τ)}
    (h : (pending tid calls).isSome) : tid ∈ calls.map thread := by
  induction calls with
  | nil => cases h
  | cons c calls ih =>
    by_cases hc : c.thread = tid
    · exact List.mem_map.mpr ⟨c, List.mem_cons_self, hc⟩
    · rw [pending_of_thread_ne hc] at h
      exact List.mem_cons_of_mem _ (ih h)

theorem mem_pendingThreads {tid : τ} {calls : List (ErrnoCall τ)} :
    tid ∈ pendingThreads calls ↔ (pending tid calls).isSome := by
  rw [pendingThreads, Finset.mem_filter, List.mem_toFinset]
  exact and_iff_right_of_imp mem_threads_of_pending

end ErrnoCall

open ErrnoCall

def ErrorCodes.after (e : ErrorCodes τ) : ErrnoCall τ → Except Stop (ErrorCodes τ)
  | .putLastErrno m => e.putLastErrno m
  | .getLastErrno tid => (e.getLastErrno tid).map Prod.snd
  | .getLastErrnoTimestamp tid => (e.getLastErrnoTimestamp tid).map fun _ ↦ e

namespace ErrnoLog

def step (s : ErrnoLog τ) (c : ErrnoCall τ) : Option (ErrnoLog τ) :=
  match s.errors.after c with
  | .ok e => some ⟨e, c :: s.calls⟩
  | .error _ => none

def machine (e : ErrorCodes τ) : Machine (ErrnoLog τ) (ErrnoCall τ) where
  init := ⟨e.errnoInit, []⟩
  step := step

/-- No more threads have an error pending than the map has room for. -/
def Roomy (s : ErrnoLog τ) : Prop := (pendingThreads s.calls).card ≤ 2 ^ 20

def reads (s : ErrnoLog τ) (tid : τ) : Except Stop ℤ × Except Stop ℕ :=
  ((s.errors.getLastErrno tid).map Prod.fst, s.errors.getLastErrnoTimestamp tid)

/-- The map holds what is pending, once. -/
structure Tracks (s : ErrnoLog τ) (entries : ErrnoCache τ) : Prop where
  cache : s.errors.errnoCache = some entries
  nodup : (entries.map Prod.fst).Nodup
  lookup : ∀ tid, entries.lookup tid = pending tid s.calls

def Tracked (s : ErrnoLog τ) : Prop := ∃ entries, s.Tracks entries

theorem Tracks.length_le {s : ErrnoLog τ} {entries : ErrnoCache τ} (h : s.Tracks entries)
    (hroomy : s.Roomy) : entries.length ≤ 2 ^ 20 := by
  have hthreads : (entries.map Prod.fst).toFinset ⊆ pendingThreads s.calls := by
    intro tid htid
    rw [mem_pendingThreads, ← h.lookup tid, List.lookup_isSome_iff]
    obtain ⟨entry, hentry, rfl⟩ := List.mem_map.mp (List.mem_toFinset.mp htid)
    exact ⟨entry, hentry, beq_self_eq_true _⟩
  calc entries.length = (entries.map Prod.fst).toFinset.card := by
        rw [List.toFinset_card_of_nodup h.nodup, List.length_map]
    _ ≤ (pendingThreads s.calls).card := Finset.card_le_card hthreads
    _ ≤ 2 ^ 20 := hroomy

theorem Tracked.getLastErrno {s : ErrnoLog τ} (h : s.Tracked) (tid : τ) :
    ∃ e, s.errors.getLastErrno tid = .ok (pendingNumber tid s.calls, e) := by
  obtain ⟨entries, h⟩ := h
  simp only [ErrorCodes.getLastErrno, h.cache, h.lookup, pendingNumber, Except.ok.injEq,
    Prod.mk.injEq, true_and, exists_eq']

theorem Tracked.getLastErrnoTimestamp {s : ErrnoLog τ} (h : s.Tracked) (tid : τ) :
    s.errors.getLastErrnoTimestamp tid = .ok (pendingTime tid s.calls) := by
  obtain ⟨entries, h⟩ := h
  simp only [ErrorCodes.getLastErrnoTimestamp, h.cache, h.lookup, pendingTime]

theorem Tracked.reads_eq {s : ErrnoLog τ} (h : s.Tracked) (tid : τ) :
    s.reads tid = (.ok (pendingNumber tid s.calls), .ok (pendingTime tid s.calls)) := by
  obtain ⟨e, hget⟩ := h.getLastErrno tid
  rw [reads, hget, h.getLastErrnoTimestamp]
  rfl

theorem lookup_filter_eq_none (tid : τ) (entries : ErrnoCache τ) :
    (entries.filter fun entry ↦ decide (entry.1 ≠ tid)).lookup tid = none := by
  rw [List.lookup_eq_none_iff]
  intro entry hentry
  have hne : entry.1 ≠ tid := of_decide_eq_true (List.mem_filter.mp hentry).2
  exact bne_iff_ne.mpr hne.symm

theorem nodup_filter {entries : ErrnoCache τ} (h : (entries.map Prod.fst).Nodup) (tid : τ) :
    ((entries.filter fun entry ↦ decide (entry.1 ≠ tid)).map Prod.fst).Nodup :=
  h.sublist (List.filter_sublist.map _)

theorem Tracks.put {s : ErrnoLog τ} {entries : ErrnoCache τ} (h : s.Tracks entries)
    {m : Message τ} {e : ErrorCodes τ} (hput : s.errors.putLastErrno m = .ok e) :
    Tracks ⟨e, .putLastErrno m :: s.calls⟩ ((m.thread, m.errNo, m.time) ::
      entries.filter fun entry ↦ decide (entry.1 ≠ m.thread)) := by
  rw [ErrorCodes.putLastErrno, h.cache] at hput
  split at hput
  · cases hput
  · cases hput
    refine ⟨rfl, ?_, fun tid ↦ ?_⟩
    · rw [List.map_cons, List.nodup_cons]
      refine ⟨fun hmem ↦ ?_, nodup_filter h.nodup m.thread⟩
      obtain ⟨entry, hentry, heq⟩ := List.mem_map.mp hmem
      exact of_decide_eq_true (List.mem_filter.mp hentry).2 heq
    · rw [List.lookup_cons]
      by_cases htid : m.thread = tid
      · rw [htid, beq_self_eq_true]
        exact (if_pos htid).symm
      · rw [beq_eq_false_iff_ne.mpr (Ne.symm htid), LruMap.lookup_filter_ne _ (Ne.symm htid),
          h.lookup]
        exact (if_neg htid).symm

theorem Tracks.get {s : ErrnoLog τ} {entries : ErrnoCache τ} (h : s.Tracks entries)
    (hroomy : s.Roomy) {tid : τ} {retval : ℤ} {e : ErrorCodes τ}
    (hget : s.errors.getLastErrno tid = .ok (retval, e)) :
    Tracks ⟨e, .getLastErrno tid :: s.calls⟩
      (entries.filter fun entry ↦ decide (entry.1 ≠ tid)) := by
  have hlength : (entries.filter fun entry ↦ decide (entry.1 ≠ tid)).length ≤ 2 ^ 20 :=
    (List.length_filter_le _ _).trans (h.length_le hroomy)
  simp only [ErrorCodes.getLastErrno, h.cache, if_neg (not_lt.mpr hlength)] at hget
  cases hget
  refine ⟨rfl, nodup_filter h.nodup tid, fun u ↦ ?_⟩
  by_cases hu : tid = u
  · rw [← hu, lookup_filter_eq_none]
    exact (if_pos rfl).symm
  · rw [LruMap.lookup_filter_ne _ (Ne.symm hu), h.lookup]
    exact (if_neg hu).symm

theorem Tracked.after_timestamp {s : ErrnoLog τ} (h : s.Tracked) (tid : τ) :
    s.errors.after (.getLastErrnoTimestamp tid) = .ok s.errors := by
  simp only [ErrorCodes.after, h.getLastErrnoTimestamp, Except.map]

theorem step_eq_some {s s' : ErrnoLog τ} {c : ErrnoCall τ} :
    s.step c = some s' ↔ s.errors.after c = .ok s'.errors ∧ s'.calls = c :: s.calls := by
  obtain ⟨errors, calls⟩ := s'
  rw [step]
  cases s.errors.after c with
  | error stop => simp
  | ok e => simp [eq_comm]

theorem Tracked.step {s s' : ErrnoLog τ} {c : ErrnoCall τ} (h : s.Tracked) (hroomy : s.Roomy)
    (hstep : s.step c = some s') : s'.Tracked := by
  have htime := h.after_timestamp
  obtain ⟨entries, h⟩ := h
  obtain ⟨errors, calls⟩ := s'
  obtain ⟨hafter, rfl⟩ := step_eq_some.mp hstep
  cases c with
  | putLastErrno m => exact ⟨_, h.put hafter⟩
  | getLastErrno tid =>
    rw [ErrorCodes.after] at hafter
    cases hget : s.errors.getLastErrno tid with
    | error stop =>
      rw [hget] at hafter
      cases hafter
    | ok r =>
      rw [hget] at hafter
      cases hafter
      exact ⟨_, h.get hroomy hget⟩
  | getLastErrnoTimestamp tid =>
    cases (htime tid).symm.trans hafter
    exact ⟨entries, h.cache, h.nodup, h.lookup⟩

theorem Tracked.run {s s' : ErrnoLog τ} {e : ErrorCodes τ} {es : List (ErrnoCall τ)}
    (h : s.Tracked) (hroomy : (machine e).EveryState Roomy s es)
    (hrun : (machine e).run s es = some s') : s'.Tracked := by
  induction es generalizing s with
  | nil => exact Option.some.inj hrun ▸ h
  | cons c es ih =>
    obtain ⟨t, ht, htail⟩ := Machine.run_cons.mp hrun
    exact ih (h.step hroomy.head ht) (hroomy.2 t ht) htail

theorem tracked_init (e : ErrorCodes τ) : (machine e).init.Tracked :=
  ⟨[], rfl, List.nodup_nil, fun _ ↦ rfl⟩

theorem run_calls {e : ErrorCodes τ} {es : List (ErrnoCall τ)} {s s' : ErrnoLog τ}
    (hrun : (machine e).run s es = some s') : s'.calls = es.reverse ++ s.calls := by
  induction es generalizing s with
  | nil => exact Option.some.inj hrun ▸ rfl
  | cons c es ih =>
    obtain ⟨t, ht, htail⟩ := Machine.run_cons.mp hrun
    rw [ih htail, (step_eq_some.mp ht).2, List.reverse_cons, List.append_assoc,
      List.singleton_append]

/-- A thread reads the error of its own latest message and takes it, looking at
its time takes nothing, and no thread changes what another will read. -/
theorem reads_own_error (e : ErrorCodes τ) {es : List (ErrnoCall τ)} {s : ErrnoLog τ}
    (hrun : (machine e).run (machine e).init es = some s)
    (hroomy : (machine e).EveryState Roomy (machine e).init es) :
    s.calls = es.reverse ∧
    (∀ tid, s.reads tid = (.ok (pendingNumber tid s.calls), .ok (pendingTime tid s.calls))) ∧
    (∀ tid s', s.step (.getLastErrno tid) = some s' → s'.reads tid = (.ok cpleNone, .ok 0)) ∧
    (∀ tid s', s.step (.getLastErrnoTimestamp tid) = some s' → s'.errors = s.errors) ∧
    ∀ c s', s.step c = some s' → ∀ tid ≠ c.thread, s'.reads tid = s.reads tid := by
  have htracked : s.Tracked := (tracked_init e).run hroomy hrun
  refine ⟨(run_calls hrun).trans (List.append_nil _), htracked.reads_eq, fun tid s' hstep ↦ ?_,
    fun tid s' hstep ↦ ?_, fun c s' hstep tid htid ↦ ?_⟩
  · have hpending : pending tid s'.calls = none := by
      rw [(step_eq_some.mp hstep).2]
      exact if_pos rfl
    rw [(htracked.step (hroomy.last hrun) hstep).reads_eq, pendingNumber, pendingTime, hpending]
    rfl
  · exact Except.ok.inj ((step_eq_some.mp hstep).1.symm.trans (htracked.after_timestamp tid))
  · rw [(htracked.step (hroomy.last hrun) hstep).reads_eq, htracked.reads_eq, pendingNumber,
      pendingTime, pendingNumber, pendingTime, (step_eq_some.mp hstep).2,
      pending_of_thread_ne htid.symm]

def twoThreads : List (ErrnoCall Bool) :=
  [.putLastErrno ⟨true, .warning, 4, 7⟩, .putLastErrno ⟨false, .failure, 3, 8⟩,
    .getLastErrnoTimestamp true, .putLastErrno ⟨true, .failure, 1, 9⟩, .getLastErrno false]

theorem reads_own_error_two_threads :
    ∃ s, (machine ⟨none, false⟩).run (machine ⟨none, false⟩).init twoThreads = some s ∧
      s.reads true = (.ok 1, .ok 9) ∧ s.reads false = (.ok 0, .ok 0) := by
  have hroomy : (machine ⟨none, false⟩).EveryState Roomy (machine ⟨none, false⟩).init twoThreads :=
    Machine.EveryState.of_forall (fun _ ↦ (Finset.card_le_univ _).trans (by decide)) _ _
  obtain ⟨-, hreads, -⟩ := reads_own_error ⟨none, false⟩ rfl hroomy
  exact ⟨_, rfl, hreads true, hreads false⟩

end ErrnoLog

end GdalWarp.Bindings
