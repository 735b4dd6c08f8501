import GdalWarp.Bindings.Lifecycle

namespace GdalWarp.Bindings

open Foundation

/-- The handlers of a process: `opened` is what the last `init` found in force and
whether it was to install its own, while no `deinit` has followed; `deinits` lists
what each `deinit` should have left in force with what it left. -/
structure Signals where
  env : Environment
  opened : Option (SigtermHandler × Bool)
  deinits : List (SigtermHandler × SigtermHandler)

inductive SignalEvent where
  | init (vars : EnvVars)
  | deinit
  | install (handler : SigtermHandler)

namespace Signals

def due (s : Signals) : SigtermHandler := (s.opened.map Prod.fst).getD s.env.sigterm

def deinit (s : Signals) : Signals :=
  ⟨s.env.envDeinit, none, (s.due, s.env.envDeinit.sigterm) :: s.deinits⟩

def init (vars : EnvVars) (s : Signals) : Signals :=
  let s := s.deinit
  { s with env := s.env.envInit vars, opened := some (s.env.sigterm, vars.sigtermDump) }

def step (s : Signals) : SignalEvent → Option Signals
  | .init vars => some (s.init vars)
  | .deinit => some s.deinit
  | .install handler =>
    if s.opened = none then some { s with env := { s.env with sigterm := handler } } else none

def machine (handler : SigtermHandler) : Machine Signals SignalEvent where
  init := ⟨⟨0, false, .default, handler⟩, none, []⟩
  step := step

def Restored (s : Signals) : Prop := ∀ d ∈ s.deinits, d.2 = d.1

/-- A `deinit` whose `init` installed nothing finds no handler saved, or the one
in force. -/
def NothingStale (s : Signals) : SignalEvent → Prop
  | .init _ | .deinit => (∀ o ∈ s.opened, o.2 = false) →
      s.env.handlerInstalled = true → s.env.saOld = s.env.sigterm
  | .install _ => True

def Saved (s : Signals) : Prop :=
  ∀ o ∈ s.opened, if o.2 then s.env.handlerInstalled = true ∧ s.env.saOld = o.1
    else s.env.sigterm = o.1

theorem Saved.init (s : Signals) (vars : EnvVars) : Saved (s.init vars) := by
  rintro o ho
  obtain rfl := Option.some.inj ho
  by_cases hdump : vars.sigtermDump = true
  · simp [Signals.init, Environment.envInit, hdump]
  · simp [Signals.init, Environment.envInit, hdump]

theorem Saved.step {s s' : Signals} {e : SignalEvent} (h : s.step e = some s') : Saved s' := by
  cases e with
  | init vars =>
    cases h
    exact .init s vars
  | deinit =>
    cases h
    exact nofun
  | install handler =>
    obtain ⟨hclosed, heq⟩ := Option.ite_none_right_eq_some.mp h
    cases heq
    intro o ho
    rw [hclosed] at ho
    cases ho

theorem envDeinit_sigterm (e : Environment) :
    e.envDeinit.sigterm = if e.handlerInstalled = true then e.saOld else e.sigterm := by
  rw [Environment.envDeinit]
  split <;> rfl

theorem Saved.deinit_restores_iff {s : Signals} (h : Saved s) :
    s.env.envDeinit.sigterm = s.due ↔ s.NothingStale .deinit := by
  have hkept : (if s.env.handlerInstalled = true then s.env.saOld else s.env.sigterm) =
      s.env.sigterm ↔ (s.env.handlerInstalled = true → s.env.saOld = s.env.sigterm) := by
    split
    case isTrue hon => exact ⟨fun hx _ ↦ hx, fun hx ↦ hx hon⟩
    case isFalse hoff => exact iff_of_true rfl fun hon ↦ absurd hon hoff
  rw [envDeinit_sigterm, due, NothingStale]
  rcases hopened : s.opened with _ | ⟨handler, dump⟩
  · rw [Option.map_none, Option.getD_none, hkept]
    exact ⟨fun hx _ ↦ hx, fun hx ↦ hx nofun⟩
  · have hsaved := h (handler, dump) hopened
    rw [Option.map_some, Option.getD_some]
    cases dump with
    | true =>
      obtain ⟨hon, hold⟩ := hsaved
      rw [if_pos hon, hold]
      exact iff_of_true rfl fun hfalse ↦ nomatch hfalse _ rfl
    | false =>
      have hforce : s.env.sigterm = handler := hsaved
      rw [← hforce, hkept]
      exact ⟨fun hx _ ↦ hx, fun hx ↦ hx fun o ho ↦ Option.some.inj ho ▸ rfl⟩

theorem restored_deinit_iff {s : Signals} (hrestored : Restored s) (h : Saved s) :
    Restored s.deinit ↔ s.NothingStale .deinit := by
  rw [← h.deinit_restores_iff]
  exact List.forall_mem_cons.trans (and_iff_left hrestored)

theorem restored_step_iff {s s' : Signals} {e : SignalEvent} (hrestored : Restored s)
    (h : Saved s) (hstep : s.step e = some s') : Restored s' ↔ s.NothingStale e := by
  cases e with
  | init vars =>
    cases hstep
    exact restored_deinit_iff hrestored h
  | deinit =>
    cases hstep
    exact restored_deinit_iff hrestored h
  | install handler =>
    obtain ⟨-, heq⟩ := Option.ite_none_right_eq_some.mp hstep
    cases heq
    exact iff_of_true hrestored trivial

/-- Every `deinit` of a run gives the application back its handler exactly if none
of them puts a stale one in force. -/
theorem handlers_restored_iff (handler : SigtermHandler) (es : List SignalEvent) :
    (machine handler).EveryState Restored (machine handler).init es ↔
      (machine handler).EveryStep NothingStale (machine handler).init es := by
  refine Machine.everyState_iff_of_invariant (I := Saved) ?_ ?_ ?_ ?_
  · exact fun s e s' _ hstep ↦ Saved.step hstep
  · exact fun s e s' h hrestored hstep ↦ restored_step_iff hrestored h hstep
  · exact nofun
  · exact nofun

def dumping : EnvVars := ⟨none, none, true⟩

theorem second_deinit_replaces_handler :
    ¬ (machine .default).EveryState Restored (machine .default).init
      [.init dumping, .deinit, .install (.application 1), .deinit] := by
  intro hall
  have hrun : (machine .default).run (machine .default).init
      [.init dumping, .deinit, .install (.application 1), .deinit] = some _ := rfl
  exact absurd (hall.last hrun (.application 1, .default) (by decide)) (by decide)

end Signals

/-- What an event of the process is to the handlers. -/
def ProcessEvent.signal {τ : Type} : ProcessEvent τ → Option SignalEvent
  | .init _ x => some (.init x.vars)
  | .deinit _ => some .deinit
  | _ => none

namespace Process

variable {τ : Type} [DecidableEq τ] {L : LruCache}

theorem deinit_env {x : Teardown τ} {p p' : Process τ L} (h : p.deinit x = .ok p') :
    p'.env = p.env.envDeinit := by
  rw [deinit_eq] at h
  cases ho : ErrorCodes.orphaned p.errors.handlerSet (p.orphans (.deinit x)) with
  | error stop =>
    rw [ho] at h
    cases h
  | ok u =>
    rw [ho] at h
    cases h
    rfl

theorem init_env {x : Startup τ} {size : ℕ} {p p' : Process τ L} (h : p.init x size = .ok p') :
    p'.env = p.env.envDeinit.envInit x.vars := by
  rw [init_eq] at h
  cases ho : ErrorCodes.orphaned p.errors.handlerSet (p.orphans (.init size x)) with
  | error stop =>
    rw [ho] at h
    cases h
  | ok u =>
    rw [ho] at h
    change p.tornDown.setUp x size = .ok p' at h
    unfold setUp at h
    split at h
    · cases h
    · cases h
      rfl

theorem utility_env {ms : List (Message τ)} {p p' : Process τ L} (h : p.utility ms = .ok p') :
    p'.env = p.env := by
  unfold utility at h
  cases hreport : p.errors.report ms with
  | error stop =>
    rw [hreport] at h
    cases h
  | ok errors =>
    rw [hreport] at h
    cases h
    rfl

theorem serve_env {h : StringHash} {e : ServiceEvent τ} {ms : List (Message τ)}
    {p p' : Process τ L} (hs : p.serve h e ms = some (.ok p')) : p'.env = p.env := by
  unfold serve at hs
  split at hs
  case h_1 n s hlib =>
    obtain ⟨s', -, hok⟩ := Option.map_eq_some_iff.mp hs
    exact utility_env (p := { p with library := .on n s' }) hok
  case h_2 =>
    split at hs
    · cases hs
    · split at hs
      · cases hs
        rfl
      · cases hs
    · cases hs

variable [Fintype τ]

theorem step_signals {h : StringHash} {p p' : Process τ L} {e : ProcessEvent τ}
    (hstep : step h (.ok p) e = some (.ok p')) {s : Signals} (hs : s.env = p.env)
    (handler : SigtermHandler) :
    ∃ s', (Signals.machine handler).run s e.signal.toList = some s' ∧ s'.env = p'.env := by
  cases e with
  | init size x =>
    obtain ⟨-, hinit⟩ := Option.ite_none_right_eq_some.mp hstep
    refine ⟨s.init x.vars, rfl, ?_⟩
    rw [init_env (Option.some.inj hinit), ← hs]
    rfl
  | deinit x =>
    obtain ⟨-, hdeinit⟩ := Option.ite_none_right_eq_some.mp hstep
    refine ⟨s.deinit, rfl, ?_⟩
    rw [deinit_env (Option.some.inj hdeinit), ← hs]
    rfl
  | getVersionInfo ms => exact ⟨s, rfl, hs.trans (utility_env (Option.some.inj hstep)).symm⟩
  | setConfigOption ms => exact ⟨s, rfl, hs.trans (utility_env (Option.some.inj hstep)).symm⟩
  | service e ms =>
    obtain ⟨-, hserve⟩ := Option.ite_none_right_eq_some.mp hstep
    exact ⟨s, rfl, hs.trans (serve_env hserve).symm⟩

/-- The process moves its handlers as `Signals` does. -/
theorem run_signals {h : StringHash} {es : List (ProcessEvent τ)} {p p' : Process τ L}
    (hrun : (machine h τ L).run (.ok p) es = some (.ok p')) {s : Signals} (hs : s.env = p.env)
    (handler : SigtermHandler) : ∃ s', (Signals.machine handler).run s
      (es.flatMap fun e ↦ e.signal.toList) = some s' ∧ s'.env = p'.env := by
  induction es generalizing p s with
  | nil =>
    cases hrun
    exact ⟨s, rfl, hs⟩
  | cons e es ih =>
    obtain ⟨t, hstep, htail⟩ := Machine.run_cons.mp hrun
    cases t with
    | error stop =>
      cases es with
      | nil => cases htail
      | cons e es => cases htail
    | ok q =>
      obtain ⟨s₁, hs₁, henv⟩ := step_signals hstep hs handler
      obtain ⟨s₂, hs₂, henv'⟩ := ih htail henv
      refine ⟨s₂, ?_, henv'⟩
      rw [List.flatMap_cons, Machine.run_append, hs₁, Option.bind_some, hs₂]

end Process

end GdalWarp.Bindings
