import GdalWarp.Bindings.Types

namespace GdalWarp.Bindings

inductive CplErr where
  | none
  | debug
  | warning
  | failure
  | fatal
  deriving DecidableEq

/-- A call of GDAL's error handler: the thread it is made on, its severity and
number, and the clock at that moment. -/
structure Message (τ : Type) where
  thread : τ
  errClass : CplErr
  errNo : ℤ
  time : ℕ

abbrev ErrnoCache (τ : Type) := List (τ × ℤ × ℕ)

inductive Stop where
  | exited
  | nullErrnoCache
  | nullTokenCache
  deriving DecidableEq

/-- What GDAL's error handler is, and the map it writes to. -/
structure ErrorCodes (τ : Type) where
  errnoCache : Option (ErrnoCache τ)
  handlerSet : Bool

namespace ErrorCodes

variable {τ : Type}

def errnoInit (_ : ErrorCodes τ) : ErrorCodes τ := ⟨some [], true⟩

def errnoDeinit (e : ErrorCodes τ) : ErrorCodes τ := { e with errnoCache := none }

/-- How the process fares when GDAL reports these messages while there is no map:
the first of them ends it. -/
def orphaned (handlerSet : Bool) : List (Message τ) → Except Stop Unit
  | [] => .ok ()
  | m :: _ =>
    if handlerSet then .error (if m.errClass = .fatal then .exited else .nullErrnoCache)
    else .ok ()

theorem orphaned_append (handlerSet : Bool) (ms ms' : List (Message τ)) :
    orphaned handlerSet (ms ++ ms') =
      (orphaned handlerSet ms).bind fun _ ↦ orphaned handlerSet ms' := by
  cases ms with
  | nil => rfl
  | cons m ms =>
    cases handlerSet
    · cases ms' <;> rfl
    · rfl

theorem orphaned_ne_iff {handlerSet : Bool} {ms : List (Message τ)} :
    orphaned handlerSet ms ≠ .error .nullErrnoCache ↔
      (handlerSet = true → ∀ m ∈ ms.head?, m.errClass = .fatal) := by
  cases ms with
  | nil => simp [orphaned]
  | cons m ms =>
    cases handlerSet
    · simp [orphaned]
    · by_cases hm : m.errClass = .fatal <;> simp [orphaned, hm]

variable [DecidableEq τ]

def putLastErrno (e : ErrorCodes τ) (m : Message τ) : Except Stop (ErrorCodes τ) :=
  if m.errClass = .fatal then .error .exited
  else
    match e.errnoCache with
    | some entries =>
      .ok { e with errnoCache := some ((m.thread, m.errNo, m.time) ::
        entries.filter fun entry ↦ entry.1 ≠ m.thread) }
    | none => .error .nullErrnoCache

def getLastErrno (e : ErrorCodes τ) (tid : τ) : Except Stop (ℤ × ErrorCodes τ) :=
  match e.errnoCache with
  | some entries =>
    let retval := ((entries.lookup tid).map Prod.fst).getD cpleNone
    let entries := entries.filter fun entry ↦ entry.1 ≠ tid
    .ok (retval, { e with errnoCache := some (if 2 ^ 20 < entries.length then [] else entries) })
  | none => .error .nullErrnoCache

def getLastErrnoTimestamp (e : ErrorCodes τ) (tid : τ) : Except Stop ℕ :=
  match e.errnoCache with
  | some entries => .ok (((entries.lookup tid).map Prod.snd).getD 0)
  | none => .error .nullErrnoCache

def report (e : ErrorCodes τ) (ms : List (Message τ)) : Except Stop (ErrorCodes τ) :=
  if e.handlerSet then ms.foldlM putLastErrno e else .ok e

theorem report_null {e : ErrorCodes τ} (h : e.errnoCache = none) (ms : List (Message τ)) :
    e.report ms = (orphaned e.handlerSet ms).map fun _ ↦ e := by
  cases hset : e.handlerSet
  · cases ms <;> simp [report, orphaned, hset, Except.map]
  · cases ms with
    | nil => simp [report, orphaned, hset, Except.map, pure, Except.pure]
    | cons m ms =>
      by_cases hm : m.errClass = .fatal <;>
        simp [report, orphaned, putLastErrno, hset, h, hm, Except.map, bind, Except.bind]

theorem report_some {e : ErrorCodes τ} (h : e.errnoCache.isSome = true) (ms : List (Message τ)) :
    e.report ms = .error .exited ∨ ∃ e', e.report ms = .ok e' ∧ e'.errnoCache.isSome = true := by
  unfold report
  split
  case isTrue hset =>
    clear hset
    induction ms generalizing e with
    | nil => exact Or.inr ⟨e, rfl, h⟩
    | cons m ms ih =>
      rw [List.foldlM_cons]
      obtain ⟨entries, hentries⟩ := Option.isSome_iff_exists.mp h
      by_cases hm : m.errClass = .fatal
      · exact Or.inl (by simp [putLastErrno, hm, bind, Except.bind])
      · simp only [putLastErrno, hm, if_false, hentries]
        apply ih
        rfl
  case isFalse => exact Or.inr ⟨e, rfl, h⟩

end ErrorCodes

end GdalWarp.Bindings
