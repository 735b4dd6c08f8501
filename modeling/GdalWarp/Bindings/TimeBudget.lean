import GdalWarp.Foundation.Recency
import GdalWarp.Bindings.CallRecords

namespace GdalWarp.Bindings

open Foundation FlatLruCache

variable {τ : Type} {L : LruCache} {n : ℕ}

def ServiceEvent.reading [DecidableEq τ] (t : τ) : ServiceEvent τ → Option UInt64
  | .query u now | .round u now => if u = t then some now else none
  | _ => none

theorem ServiceEvent.thread_of_reading [DecidableEq τ] {t : τ} {e : ServiceEvent τ}
    {now : UInt64} (h : e.reading t = some now) : e.thread = some t := by
  cases e with
  | query u now' | round u now' =>
    simp only [reading, Option.ite_none_right_eq_some] at h
    exact congrArg some h.1
  | _ => cases h

namespace Pc

/-- The thread is in this call, which began at `start`, or the call has returned. -/
def Timed (c : Invocation) (start : UInt64) : Pc n → Prop
  | .idle | .called _ => False
  | .returned _ _ => True
  | .round f | .missing f _ _ | .inserting f _ _ | .trying f _ _ | .running f _ _ _
  | .releasing f _ _ _ => f.call = c ∧ f.start = start

def ended : Pc n → Bool
  | .returned _ _ => true
  | _ => false

variable {c : Invocation} {start : UInt64}

theorem timed_loopHead {f : Frame} (hf : f.call = c ∧ f.start = start) (l : Option DatasetH) :
    (loopHead f l : Pc n).Timed c start := by
  unfold loopHead
  split
  · exact hf
  · trivial

theorem timed_got {f : Frame} (hf : f.call = c ∧ f.start = start) (found : List (Fin n)) :
    (got f found).Timed c start := by
  unfold got
  split
  · trivial
  · exact hf

theorem timed_scanned {f : Frame} (hf : f.call = c ∧ f.start = start) (found : List (Fin n)) :
    (scanned f found).Timed c start := by
  unfold scanned
  split
  · exact timed_got hf found
  · exact hf

end Pc

namespace Service

variable [DecidableEq τ] {h : StringHash} {size : ℕ} {s s' : Service τ L n}
  {e : ServiceEvent τ} {t : τ} {c : Invocation} {start : UInt64}

theorem work_timed {f : Frame} (hf : f.call = c ∧ f.start = start) (s : Service τ L n) (t : τ)
    (i : Fin n) (rest : List (Fin n)) (p : Task (ℤ × Option ℤ)) :
    ((s.work t f i rest p).threads t).pc.Timed c start := by
  cases p with
  | tryLock k =>
    by_cases hfree : (s.cache.values i).datasetLock = none
    · rw [work, if_pos hfree, move_pc]
      exact hf
    · rw [work, if_neg hfree, move_pc]
      exact hf
  | ret a | unlock k | call g k =>
    rw [work, move_pc]
    exact hf

theorem timed_round {now : UInt64} (hs : s.step h (.round t now) = some s')
    (hpc : (s.threads t).pc.Timed c start) :
    (s'.threads t).pc.Timed c start ∧
      (Locals.timedOut c.nanos start now = false ∨ (s'.threads t).pc.ended = true) := by
  obtain ⟨f, hu, hcases⟩ := step_round hs
  rw [hu] at hpc
  obtain ⟨hcall, hstart⟩ := hpc
  rcases hcases with ⟨-, hu'⟩ | ⟨hintime, found, hu'⟩
  · rw [hu']
    exact ⟨trivial, Or.inr rfl⟩
  · rw [hu']
    refine ⟨Pc.timed_scanned ⟨hcall, hstart⟩ found, Or.inl ?_⟩
    rw [← hcall, ← hstart]
    exact hintime

theorem timed_own (hs : s.step h e = some s') (ht : e.thread = some t) (hfinish : e ≠ .finish t)
    (hpc : (s.threads t).pc.Timed c start) :
    (s'.threads t).pc.Timed c start ∧ (s.threads t).pc.ended = false ∧
      ∀ now, e.reading t = some now →
        Locals.timedOut c.nanos start now = false ∨ (s'.threads t).pc.ended = true := by
  have hs' := hs
  cases step_moves hs with
  | getToken => cases ht
  | call u d hu | query u now d pair hu | unknown u now d hu =>
    obtain rfl := Option.some.inj ht
    rw [hu] at hpc
    exact absurd hpc id
  | timeOut u now f hu | scan u now f hu =>
    obtain rfl := Option.some.inj ht
    obtain ⟨htimed, hlate⟩ := timed_round hs' hpc
    refine ⟨htimed, by rw [hu]; rfl, fun now' hnow ↦ ?_⟩
    obtain rfl : now = now' := by simpa [ServiceEvent.reading] using hnow
    exact hlate
  | lockCache u f found request hu =>
    obtain rfl := Option.some.inj ht
    rw [hu] at hpc ⊢
    rw [move_pc]
    exact ⟨hpc, rfl, fun _ hnow ↦ nomatch hnow⟩
  | giveUp u f found k hu | unlockCache u f found hu =>
    obtain rfl := Option.some.inj ht
    rw [hu] at hpc ⊢
    rw [move_pc]
    exact ⟨Pc.timed_got hpc found, rfl, fun _ hnow ↦ nomatch hnow⟩
  | insert u o f found left r hu hr =>
    obtain rfl := Option.some.inj ht
    rw [hu] at hpc ⊢
    rw [put_self]
    exact ⟨hpc, rfl, fun _ hnow ↦ nomatch hnow⟩
  | attempt u f i rest l hu | skip u f i rest l hu =>
    obtain rfl := Option.some.inj ht
    rw [hu] at hpc ⊢
    rw [move_pc]
    exact ⟨hpc, rfl, fun _ hnow ↦ nomatch hnow⟩
  | advance u f i rest p hu =>
    obtain rfl := Option.some.inj ht
    rw [hu] at hpc ⊢
    exact ⟨work_timed hpc s u i rest p, rfl, fun _ hnow ↦ nomatch hnow⟩
  | answer u reply f i rest g k hu =>
    obtain rfl := Option.some.inj ht
    rw [hu] at hpc ⊢
    rw [move_pc]
    exact ⟨hpc, rfl, fun _ hnow ↦ nomatch hnow⟩
  | dec u f i rest l hu =>
    obtain rfl := Option.some.inj ht
    rw [hu] at hpc ⊢
    rw [put_self]
    exact ⟨hpc, rfl, fun _ hnow ↦ nomatch hnow⟩
  | next u f l hu =>
    obtain rfl := Option.some.inj ht
    rw [hu] at hpc ⊢
    rw [move_pc]
    refine ⟨Pc.timed_loopHead ?_ l, rfl, fun _ hnow ↦ nomatch hnow⟩
    exact hpc
  | finish u value l hu =>
    obtain rfl := Option.some.inj ht
    exact absurd rfl hfinish

def readings (t : τ) (es : List (ServiceEvent τ)) : List UInt64 :=
  es.filterMap (ServiceEvent.reading t)

theorem readings_of_ended (hpc : (s.threads t).pc.ended = true) {es : List (ServiceEvent τ)}
    (hcall : .finish t ∉ es) (hrun : (machine h τ L size n).run s es = some s') :
    readings t es = [] := by
  induction es generalizing s with
  | nil => rfl
  | cons e es ih =>
    obtain ⟨hfinish, hcall⟩ := not_or.mp (List.mem_cons.not.mp hcall)
    obtain ⟨s₁, hstep, htail⟩ := Machine.run_cons.mp hrun
    have hother : e.thread ≠ some t := by
      intro ht
      have htimed : (s.threads t).pc.Timed ⟨0, .noop, 0, 0, 0⟩ 0 := by
        cases hu : (s.threads t).pc with
        | returned value l => trivial
        | _ =>
          rw [hu] at hpc
          cases hpc
      rw [(timed_own hstep ht (Ne.symm hfinish) htimed).2.1] at hpc
      cases hpc
    have hnone : e.reading t = none := by
      cases hread : e.reading t with
      | none => rfl
      | some now => exact absurd (ServiceEvent.thread_of_reading hread) hother
    rw [readings, List.filterMap_cons_none hnone]
    exact ih (by rw [step_other hstep hother]; exact hpc) hcall htail

/-- Every round but the last begins in time. -/
theorem readings_in_time (hpc : (s.threads t).pc.Timed c start) {es : List (ServiceEvent τ)}
    (hcall : .finish t ∉ es) (hrun : (machine h τ L size n).run s es = some s') :
    ∀ now ∈ (readings t es).dropLast, Locals.timedOut c.nanos start now = false := by
  induction es generalizing s with
  | nil => exact fun _ hnow ↦ absurd hnow List.not_mem_nil
  | cons e es ih =>
    obtain ⟨hfinish, hcall⟩ := not_or.mp (List.mem_cons.not.mp hcall)
    obtain ⟨s₁, hstep, htail⟩ := Machine.run_cons.mp hrun
    cases hread : e.reading t with
    | none =>
      rw [readings, List.filterMap_cons_none hread]
      by_cases ht : e.thread = some t
      · exact ih (timed_own hstep ht (Ne.symm hfinish) hpc).1 hcall htail
      · exact ih (by rw [step_other hstep ht]; exact hpc) hcall htail
    | some now =>
      have ht := ServiceEvent.thread_of_reading hread
      obtain ⟨htimed, -, hlate⟩ := timed_own hstep ht (Ne.symm hfinish) hpc
      rw [readings, List.filterMap_cons_some hread]
      rcases hlate now hread with hintime | hover
      · intro now' hnow'
        rcases mem_dropLast_cons hnow' with rfl | hlater
        · exact hintime
        · exact ih htimed hcall htail now' hlater
      · have hrest : es.filterMap (ServiceEvent.reading t) = [] :=
          readings_of_ended hover hcall htail
        rw [hrest]
        exact fun _ hnow ↦ absurd hnow List.not_mem_nil

theorem readings_called (hpc : (s.threads t).pc = .called c) {es : List (ServiceEvent τ)}
    (hcall : .finish t ∉ es) (hrun : (machine h τ L size n).run s es = some s')
    {start : UInt64} {rounds : List UInt64} (hread : readings t es = start :: rounds) :
    ∀ now ∈ rounds.dropLast, Locals.timedOut c.nanos start now = false := by
  induction es generalizing s with
  | nil => cases hread
  | cons e es ih =>
    have hrest : .finish t ∉ es := fun hx ↦ hcall (List.mem_cons_of_mem e hx)
    obtain ⟨s₁, hstep, htail⟩ := Machine.run_cons.mp hrun
    by_cases ht : e.thread = some t
    · have hquery : ∃ now, e = .query t now ∧ (s₁.threads t).pc.Timed c now := by
        cases step_moves hstep with
        | getToken => cases ht
        | query u now d pair hu =>
          obtain rfl := Option.some.inj ht
          obtain rfl := Pc.called.inj (hpc.symm.trans hu)
          refine ⟨now, rfl, ?_⟩
          rw [move_pc]
          exact Pc.timed_loopHead ⟨rfl, rfl⟩ none
        | unknown u now d hu =>
          obtain rfl := Option.some.inj ht
          refine ⟨now, rfl, ?_⟩
          rw [move_pc]
          trivial
        | insert u o f found left r hu | call u d hu | timeOut u now f hu | scan u now f hu
        | lockCache u f found request hu | giveUp u f found k hu | unlockCache u f found hu
        | attempt u f i rest l hu | skip u f i rest l hu | advance u f i rest p hu
        | answer u reply f i rest g k hu | dec u f i rest l hu | next u f l hu
        | finish u value l hu =>
          obtain rfl := Option.some.inj ht
          rw [hpc] at hu
          cases hu
      obtain ⟨now, rfl, htimed⟩ := hquery
      have hfirst : (ServiceEvent.query t now).reading t = some now := if_pos rfl
      rw [readings, List.filterMap_cons_some hfirst] at hread
      obtain ⟨rfl, rfl⟩ := List.cons.inj hread
      exact readings_in_time htimed hrest htail
    · have hnone : e.reading t = none := by
        cases hread' : e.reading t with
        | none => rfl
        | some now => exact absurd (ServiceEvent.thread_of_reading hread') ht
      rw [readings, List.filterMap_cons_none hnone] at hread
      exact ih (by rw [step_other hstep ht]; exact hpc) hrest htail hread

/-- With a time budget every round of a call but the last begins within the budget, counted
from the first time the call reads. If the clock moves between any two readings, a call makes
no more rounds than its budget has nanoseconds, and one, even if it may try for ever. -/
theorem rounds_within_budget (hpc : (s.threads t).pc = .called c) (hbudget : 0 < c.nanos)
    {es : List (ServiceEvent τ)} (hrun : (machine h τ L size n).run s es = some s')
    (hcall : .finish t ∉ es) {start : UInt64} {rounds : List UInt64}
    (hread : readings t es = start :: rounds) :
    (∀ now ∈ rounds.dropLast, now - start ≤ c.nanos) ∧
      ((start :: rounds).Pairwise (· < ·) → rounds.length ≤ c.nanos.toNat + 1) := by
  have hintime : ∀ now ∈ rounds.dropLast, now - start ≤ c.nanos := by
    intro now hnow
    have hlate := readings_called hpc hcall hrun hread now hnow
    simpa [Locals.timedOut, hbudget] using hlate
  refine ⟨hintime, fun hrising ↦ ?_⟩
  have hearly : (start :: rounds.dropLast).Pairwise (· < ·) :=
    hrising.sublist ((List.dropLast_sublist rounds).cons_cons start)
  have hnat : ((start :: rounds.dropLast).map UInt64.toNat).Pairwise (· < ·) :=
    hearly.map UInt64.toNat fun _ _ hlt ↦ hlt
  rw [List.map_cons] at hnat
  have hlength : (rounds.dropLast.map UInt64.toNat).length ≤ c.nanos.toNat := by
    refine length_le_of_rising hnat fun x hx ↦ ?_
    obtain ⟨now, hnow, rfl⟩ := List.mem_map.mp hx
    have hafter : start < now := (List.pairwise_cons.mp hearly).1 now hnow
    have hsub : (now - start).toNat = now.toNat - start.toNat :=
      UInt64.toNat_sub_of_le now start (UInt64.le_of_lt hafter)
    have hle : (now - start).toNat ≤ c.nanos.toNat := hintime now hnow
    omega
  rw [List.length_map, List.length_dropLast] at hlength
  omega

def patientCall : Invocation := ⟨33, .getHistogram 1 1 0 0 0 0 0, 0, 1, 5⟩

def lateRun : List (ServiceEvent Unit) :=
  [.getToken ("a.tif", []) [], .query () 0, .round () 1, .lockCache (),
    .insert () (answering true true), .unlockCache (), .attempt (), .advance (), .advance (),
    .answer () anyReply, .advance (), .answer () anyReply, .advance (), .advance (),
    .answer () anyReply, .advance (), .dec (), .next (), .round () 9]

theorem rounds_within_budget_late : ∃ s',
    (machine lengthHash Unit (.ofList Token UriOptions) 4 2).run
      ((machine lengthHash Unit (.ofList Token UriOptions) 4 2).init.put ()
        ⟨.called patientCall, []⟩) lateRun = some s' ∧
    (s'.threads ()).pc = .returned (-cpleFileIo) none ∧
    ([1, 9] : List UInt64).length ≤ patientCall.nanos.toNat + 1 := by
  have hrun : (machine lengthHash Unit (.ofList Token UriOptions) 4 2).run
      ((machine lengthHash Unit (.ofList Token UriOptions) 4 2).init.put ()
        ⟨.called patientCall, []⟩) lateRun = some _ := rfl
  have hread : readings () lateRun = [0, 1, 9] := rfl
  have hbound := rounds_within_budget (t := ()) rfl (by decide) hrun (by simp [lateRun]) hread
  exact ⟨_, hrun, rfl, hbound.2 (by decide)⟩

end Service

end GdalWarp.Bindings
