import GdalWarp.Bindings.ErrorCodes
import GdalWarp.Bindings.Service

namespace GdalWarp.Bindings

open Foundation FlatLruCache

inductive SigtermHandler where
  | default
  | application (k : ℕ)
  | dump
  deriving DecidableEq

structure EnvVars where
  defaultNanos : Option UInt64
  numDatasets : Option ℕ
  sigtermDump : Bool

/-- What `env_init` sets; `sigterm` is the handler in force. -/
structure Environment where
  defaultNanos : UInt64
  handlerInstalled : Bool
  saOld : SigtermHandler
  sigterm : SigtermHandler

namespace Environment

def envInit (v : EnvVars) (e : Environment) : Environment :=
  let nanos := v.defaultNanos.getD e.defaultNanos
  if v.sigtermDump then ⟨if nanos = 0 then 250000000 else nanos, true, e.sigterm, .dump⟩
  else { e with defaultNanos := nanos }

def envDeinit (e : Environment) : Environment :=
  if e.handlerInstalled then { e with sigterm := e.saOld } else e

end Environment

structure Teardown (τ : Type) where
  gdalClose : DatasetH → List (Message τ)
  gdalDestroyDriverManager : List (Message τ)

structure Startup (τ : Type) where
  teardown : Teardown τ
  gdalAllRegister : List (Message τ)
  vars : EnvVars
  sigactionFails : Bool

inductive Library (τ : Type) (L : LruCache) where
  | off (gdal : Gdal)
  | on (n : ℕ) (service : Service τ L n)

inductive ProcessEvent (τ : Type) where
  | init (size : ℕ) (x : Startup τ)
  | deinit (x : Teardown τ)
  | getVersionInfo (ms : List (Message τ))
  | setConfigOption (ms : List (Message τ))
  | service (e : ServiceEvent τ) (ms : List (Message τ))

def ServiceEvent.callsGdal {τ : Type} : ServiceEvent τ → Bool
  | .insert _ _ | .answer _ _ => true
  | _ => false

structure Process (τ : Type) (L : LruCache) where
  errors : ErrorCodes τ
  env : Environment
  library : Library τ L

def tokenCacheSize : ℕ := 640 * 2 ^ 10

namespace Library

variable {τ : Type} {L : LruCache}

/-- What is reported while the destructors of the slots close their datasets. -/
def closing (gdalClose : DatasetH → List (Message τ)) : Library τ L → List (Message τ)
  | .off _ => []
  | .on n s => (List.finRange n).flatMap fun i ↦
    if (s.cache.values i).valid then
      ((s.cache.values i).warped.toList ++ (s.cache.values i).source.toList).flatMap gdalClose
    else []

def destroyed : Library τ L → Gdal
  | .off gdal => gdal
  | .on _ s => s.cache.destroy s.gdal

def Quiescent : Library τ L → Prop
  | .off _ => True
  | .on _ s => s.Quiescent

instance [Fintype τ] : (lib : Library τ L) → Decidable lib.Quiescent
  | .off _ => inferInstanceAs (Decidable True)
  | .on _ s => inferInstanceAs (Decidable s.Quiescent)

end Library

namespace Process

variable {τ : Type} {L : LruCache}

def start : Process τ L := ⟨⟨none, false⟩, ⟨0, false, .default, .default⟩, .off .start⟩

def setUp (x : Startup τ) (size : ℕ) (p : Process τ L) : Except Stop (Process τ L) :=
  if x.vars.sigtermDump && x.sigactionFails then .error .exited
  else .ok {
    errors := p.errors.errnoInit
    env := p.env.envInit x.vars
    library := .on (x.vars.numDatasets.getD size)
      ⟨tokenInit L tokenCacheSize, fresh τ _, p.library.destroyed, none, fun _ ↦ ⟨.idle, []⟩,
        false⟩ }

/-- What GDAL reports in an event while there is no errno map. -/
def orphans (p : Process τ L) : ProcessEvent τ → List (Message τ)
  | .init _ x => p.library.closing x.teardown.gdalClose ++
      x.teardown.gdalDestroyDriverManager ++ x.gdalAllRegister
  | .deinit x => p.library.closing x.gdalClose ++ x.gdalDestroyDriverManager
  | .getVersionInfo ms | .setConfigOption ms =>
    match p.errors.errnoCache with
    | none => ms
    | some _ => []
  | .service _ _ => []

def HandlerSafe (s : Except Stop (Process τ L)) : Prop := s ≠ .error .nullErrnoCache

def FirstFatal (s : Except Stop (Process τ L)) (e : ProcessEvent τ) : Prop :=
  ∀ p, s = .ok p → p.errors.handlerSet = true → ∀ m ∈ (p.orphans e).head?, m.errClass = .fatal

def Coherent (s : Except Stop (Process τ L)) : Prop :=
  ∀ p, s = .ok p → ∀ n t, p.library = .on n t → p.errors.errnoCache.isSome = true

theorem coherent_error (stop : Stop) : Coherent (.error stop : Except Stop (Process τ L)) := by
  intro p hp
  cases hp

def tornDown (p : Process τ L) : Process τ L :=
  ⟨p.errors.errnoDeinit, p.env.envDeinit, .off p.library.destroyed⟩

theorem setUp_safe (x : Startup τ) (size : ℕ) (p : Process τ L) : HandlerSafe (p.setUp x size) := by
  unfold setUp
  split <;> simp [HandlerSafe]

theorem handlerSafe_bind {a : Except Stop Unit} {f : Unit → Except Stop (Process τ L)}
    (hf : HandlerSafe (f ())) : HandlerSafe (a.bind f) ↔ a ≠ .error .nullErrnoCache := by
  cases a with
  | error e => simp [HandlerSafe, Except.bind]
  | ok u => exact iff_of_true hf (by simp)

theorem handlerSafe_map {a : Except Stop Unit} {p : Process τ L} :
    HandlerSafe (a.map fun _ ↦ p) ↔ a ≠ .error .nullErrnoCache := by
  cases a <;> simp [HandlerSafe, Except.map]

theorem Coherent.setUp (x : Startup τ) (size : ℕ) (p : Process τ L) :
    Coherent (p.setUp x size) := by
  intro q hq n s hs
  unfold Process.setUp at hq
  split at hq
  · cases hq
  · cases hq
    rfl

variable [DecidableEq τ]

/-- `cache_deinit` and, as both go together, `token_deinit`. -/
def cacheDeinit (gdalClose : DatasetH → List (Message τ)) (p : Process τ L) :
    Except Stop (Process τ L) := do
  let errors ← p.errors.report (p.library.closing gdalClose)
  return { p with errors := errors, library := .off p.library.destroyed }

def deinit (x : Teardown τ) (p : Process τ L) : Except Stop (Process τ L) := do
  let p := { p with errors := p.errors.errnoDeinit, env := p.env.envDeinit }
  let p ← p.cacheDeinit x.gdalClose
  let errors ← p.errors.report x.gdalDestroyDriverManager
  return { p with errors := errors }

def init (x : Startup τ) (size : ℕ) (p : Process τ L) : Except Stop (Process τ L) := do
  let p ← p.deinit x.teardown
  let errors ← p.errors.report x.gdalAllRegister
  setUp x size { p with errors := errors }

def utility (ms : List (Message τ)) (p : Process τ L) : Except Stop (Process τ L) := do
  let errors ← p.errors.report ms
  return { p with errors := errors }

/-- A step of the public calls. With no token cache, only token 0 is answered. -/
def serve (h : StringHash) (e : ServiceEvent τ) (ms : List (Message τ)) (p : Process τ L) :
    Option (Except Stop (Process τ L)) :=
  match p.library with
  | .on n s => (s.step h e).map fun s' ↦ { p with library := .on n s' }.utility ms
  | .off _ =>
    match e with
    | .getToken _ _ => some (.error .nullTokenCache)
    | .call _ c => some (if c.token = badToken then .ok p else .error .nullTokenCache)
    | _ => none

def step [Fintype τ] (h : StringHash) :
    Except Stop (Process τ L) → ProcessEvent τ → Option (Except Stop (Process τ L))
  | .error _, _ => none
  | .ok p, .init size x => if p.library.Quiescent then some (p.init x size) else none
  | .ok p, .deinit x => if p.library.Quiescent then some (p.deinit x) else none
  | .ok p, .getVersionInfo ms | .ok p, .setConfigOption ms => some (p.utility ms)
  | .ok p, .service e ms => if e.callsGdal || ms.isEmpty then p.serve h e ms else none

def machine (h : StringHash) (τ : Type) [DecidableEq τ] [Fintype τ] (L : LruCache) :
    Machine (Except Stop (Process τ L)) (ProcessEvent τ) where
  init := .ok start
  step := step h

theorem deinit_eq (x : Teardown τ) (p : Process τ L) :
    p.deinit x = (ErrorCodes.orphaned p.errors.handlerSet (p.orphans (.deinit x))).map
      fun _ ↦ p.tornDown := by
  have hnull : p.errors.errnoDeinit.errnoCache = none := rfl
  have hset : p.errors.errnoDeinit.handlerSet = p.errors.handlerSet := rfl
  simp only [deinit, cacheDeinit, orphans, bind, ErrorCodes.report_null hnull, hset,
    ErrorCodes.orphaned_append]
  cases ErrorCodes.orphaned p.errors.handlerSet (p.library.closing x.gdalClose) with
  | error e => rfl
  | ok u =>
    simp only [Except.map, Except.bind, pure, Except.pure, ErrorCodes.report_null hnull, hset]
    cases ErrorCodes.orphaned p.errors.handlerSet x.gdalDestroyDriverManager <;> rfl

theorem init_eq (x : Startup τ) (size : ℕ) (p : Process τ L) :
    p.init x size = (ErrorCodes.orphaned p.errors.handlerSet (p.orphans (.init size x))).bind
      fun _ ↦ p.tornDown.setUp x size := by
  have hnull : p.tornDown.errors.errnoCache = none := rfl
  have hset : p.tornDown.errors.handlerSet = p.errors.handlerSet := rfl
  simp only [init, deinit_eq, orphans, bind, ErrorCodes.orphaned_append]
  cases ErrorCodes.orphaned p.errors.handlerSet (p.library.closing x.teardown.gdalClose) with
  | error e => rfl
  | ok u =>
    simp only [Except.bind]
    cases ErrorCodes.orphaned p.errors.handlerSet x.teardown.gdalDestroyDriverManager with
    | error e => rfl
    | ok v =>
      simp only [Except.map, ErrorCodes.report_null hnull, hset]
      cases ErrorCodes.orphaned p.errors.handlerSet x.gdalAllRegister <;> rfl

theorem utility_some {p : Process τ L} (h : p.errors.errnoCache.isSome = true)
    (ms : List (Message τ)) : p.utility ms = .error .exited ∨
      ∃ e, e.errnoCache.isSome = true ∧ p.utility ms = .ok { p with errors := e } := by
  rcases ErrorCodes.report_some h ms with hexit | ⟨e, hok, he⟩
  · exact Or.inl (by simp [utility, hexit, bind, Except.bind])
  · exact Or.inr ⟨e, he, by simp [utility, hok, bind, Except.bind, pure, Except.pure]⟩

theorem utility_safe {p : Process τ L} (h : p.errors.errnoCache.isSome = true)
    (ms : List (Message τ)) : HandlerSafe (p.utility ms) := by
  rcases utility_some h ms with hexit | ⟨e, -, hok⟩
  · rw [hexit]
    nofun
  · rw [hok]
    nofun

theorem utility_none {p : Process τ L} (h : p.errors.errnoCache = none) (ms : List (Message τ)) :
    p.utility ms = (ErrorCodes.orphaned p.errors.handlerSet ms).map fun _ ↦ p := by
  simp only [utility, ErrorCodes.report_null h, bind]
  cases ErrorCodes.orphaned p.errors.handlerSet ms <;> rfl

theorem utility_safe_iff (p : Process τ L) (ms : List (Message τ)) : HandlerSafe (p.utility ms) ↔
    (p.errors.handlerSet = true →
      ∀ m ∈ (p.orphans (.getVersionInfo ms)).head?, m.errClass = .fatal) := by
  rw [← ErrorCodes.orphaned_ne_iff]
  cases hcache : p.errors.errnoCache with
  | none =>
    rw [utility_none hcache, handlerSafe_map]
    simp [orphans, hcache]
  | some entries =>
    have hsafe : HandlerSafe (p.utility ms) := utility_safe (by rw [hcache]; rfl) ms
    simp [hsafe, orphans, hcache, ErrorCodes.orphaned]

theorem Coherent.utility {p : Process τ L} (h : Coherent (.ok p)) (ms : List (Message τ)) :
    Coherent (p.utility ms) := by
  intro q hq n s hs
  cases hcache : p.errors.errnoCache with
  | none =>
    rw [utility_none hcache] at hq
    cases ho : ErrorCodes.orphaned p.errors.handlerSet ms with
    | error e =>
      rw [ho] at hq
      cases hq
    | ok u =>
      rw [ho] at hq
      cases hq
      exact h p rfl n s hs
  | some entries =>
    rcases utility_some (by rw [hcache]; rfl) ms with hexit | ⟨e, he, hok⟩
    · rw [hexit] at hq
      cases hq
    · rw [hok] at hq
      cases hq
      exact he

theorem serve_safe {h : StringHash} {e : ServiceEvent τ} {ms : List (Message τ)}
    {p : Process τ L} {s : Except Stop (Process τ L)} (hc : Coherent (.ok p))
    (hs : p.serve h e ms = some s) : HandlerSafe s ∧ Coherent s := by
  unfold serve at hs
  split at hs
  case h_1 n t hlib =>
    obtain ⟨t', -, rfl⟩ := Option.map_eq_some_iff.mp hs
    have hsome : p.errors.errnoCache.isSome = true := hc p rfl n t hlib
    have hc' : Coherent (.ok { p with library := .on n t' } : Except Stop (Process τ L)) := by
      intro q hq m u hu
      cases hq
      exact hsome
    exact ⟨utility_safe (p := { p with library := .on n t' }) hsome ms, hc'.utility ms⟩
  case h_2 =>
    split at hs
    · cases hs
      exact ⟨nofun, coherent_error _⟩
    · cases hs
      split
      · exact ⟨nofun, hc⟩
      · exact ⟨nofun, coherent_error _⟩
    · cases hs

variable [Fintype τ]

theorem step_coherent {h : StringHash} {s s' : Except Stop (Process τ L)} {e : ProcessEvent τ}
    (hc : Coherent s) (hs : step h s e = some s') : Coherent s' := by
  cases s with
  | error stop => cases hs
  | ok p =>
    cases e with
    | init size x =>
      simp only [step, Option.ite_none_right_eq_some, Option.some.injEq] at hs
      rw [← hs.2, init_eq]
      cases ErrorCodes.orphaned p.errors.handlerSet (p.orphans (.init size x)) with
      | error stop => exact coherent_error stop
      | ok u => exact Coherent.setUp x size p.tornDown
    | deinit x =>
      simp only [step, Option.ite_none_right_eq_some, Option.some.injEq] at hs
      rw [← hs.2, deinit_eq]
      cases ErrorCodes.orphaned p.errors.handlerSet (p.orphans (.deinit x)) with
      | error stop => exact coherent_error stop
      | ok u =>
        intro q hq n s hlib
        cases hq
        cases hlib
    | getVersionInfo ms =>
      cases hs
      exact hc.utility ms
    | setConfigOption ms =>
      cases hs
      exact hc.utility ms
    | service e ms =>
      simp only [step, Option.ite_none_right_eq_some] at hs
      exact (serve_safe hc hs.2).2

theorem step_safe_iff {h : StringHash} {s s' : Except Stop (Process τ L)} {e : ProcessEvent τ}
    (hc : Coherent s) (hs : step h s e = some s') : HandlerSafe s' ↔ FirstFatal s e := by
  cases s with
  | error stop => cases hs
  | ok p =>
    have hfirst : FirstFatal (.ok p) e ↔ (p.errors.handlerSet = true →
        ∀ m ∈ (p.orphans e).head?, m.errClass = .fatal) :=
      ⟨fun hx ↦ hx p rfl, fun hx q hq ↦ by cases hq; exact hx⟩
    rw [hfirst]
    cases e with
    | init size x =>
      simp only [step, Option.ite_none_right_eq_some, Option.some.injEq] at hs
      rw [← hs.2, init_eq, handlerSafe_bind (setUp_safe x size p.tornDown),
        ErrorCodes.orphaned_ne_iff]
    | deinit x =>
      simp only [step, Option.ite_none_right_eq_some, Option.some.injEq] at hs
      rw [← hs.2, deinit_eq, handlerSafe_map, ErrorCodes.orphaned_ne_iff]
    | getVersionInfo ms =>
      cases hs
      exact p.utility_safe_iff ms
    | setConfigOption ms =>
      cases hs
      exact p.utility_safe_iff ms
    | service e ms =>
      simp only [step, Option.ite_none_right_eq_some] at hs
      exact iff_of_true (serve_safe hc hs.2).1 (by simp [orphans])

/-- The handler finds its map in every state of a run exactly if no event of the
run lets GDAL report an error, other than a fatal one, while there is no map. -/
theorem handler_finds_map_iff {h : StringHash} {es : List (ProcessEvent τ)} :
    (machine h τ L).EveryState HandlerSafe (machine h τ L).init es ↔
      (machine h τ L).EveryStep FirstFatal (machine h τ L).init es := by
  refine Machine.everyState_iff_of_invariant (I := Coherent) ?_ ?_ ?_ ?_
  · exact fun s e s' hc hstep ↦ step_coherent hc hstep
  · exact fun s e s' hc _ hstep ↦ step_safe_iff hc hstep
  · intro p hp n s hlib
    cases hp
    cases hlib
  · nofun

def silentStartup : Startup Unit := ⟨⟨fun _ ↦ [], []⟩, [], ⟨none, none, false⟩, false⟩

def warningRun : List (ProcessEvent Unit) :=
  [.init 1 silentStartup, .service (.getToken ("a.tif", []) []) [],
    .service (.call () ⟨33, .noop, 1, 1, 0⟩) [], .service (.query () 0) [],
    .service (.round () 0) [], .service (.lockCache ()) [],
    .service (.insert () (answering true true)) [], .service (.unlockCache ()) [],
    .service (.attempt ()) [], .service (.advance ()) [], .service (.advance ()) [],
    .service (.advance ()) [], .service (.dec ()) [], .service (.next ()) [],
    .deinit ⟨fun _ ↦ [⟨(), .warning, 1, 0⟩], []⟩]

theorem warning_in_deinit_not_safe :
    (machine lengthHash Unit (.ofList Token UriOptions)).run
        (machine lengthHash Unit (.ofList Token UriOptions)).init warningRun =
      some (.error .nullErrnoCache) ∧
    ¬ (machine lengthHash Unit (.ofList Token UriOptions)).EveryState HandlerSafe
        (machine lengthHash Unit (.ofList Token UriOptions)).init warningRun := by
  have hrun : (machine lengthHash Unit (.ofList Token UriOptions)).run
      (machine lengthHash Unit (.ofList Token UriOptions)).init warningRun =
        some (.error .nullErrnoCache) := rfl
  exact ⟨hrun, fun hsafe ↦ hsafe.last hrun rfl⟩

end Process

end GdalWarp.Bindings
