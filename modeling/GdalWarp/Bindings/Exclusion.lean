import GdalWarp.Bindings.Operations

namespace GdalWarp.Bindings

open Foundation Foundation.Program

@[simp] theorem tryLock_guarded {α : Type} {body : Task (Answer α)} {held : Bool} :
    (tryLock body).Guarded Call.touches held ↔ body.Guarded Call.touches true := by
  simp [tryLock]

@[simp] theorem tryLock_balanced {α : Type} {body : Task (Answer α)} :
    (tryLock body).Balanced false ↔ body.Balanced true := by
  simp [tryLock]

theorem getOverviews_lockFree (band : Option BandH) (i k : ℕ) :
    (getOverviews band i k).LockFree := by
  induction k generalizing i with
  | zero => trivial
  | succ k ih =>
    intro overview width height
    exact (ih (i + 1)).bind fun rest ↦ trivial

theorem readBand_guarded (getter : BandGetter) (dataset bandNumber : ℤ) :
    (readBand getter dataset bandNumber).Guarded Call.touches false := by
  simp [readBand]

theorem readMetadata_guarded (getter : MetadataGetter) (dataset bandNumber : ℤ) :
    (readMetadata getter dataset bandNumber).Guarded Call.touches false := by
  simp [readMetadata, Call.touches]

theorem getOverviewWidthsHeights_guarded (dataset bandNumber maxLength : ℤ) :
    (getOverviewWidthsHeights dataset bandNumber maxLength).Guarded Call.touches false := by
  simp only [getOverviewWidthsHeights, tryLock_guarded]
  refine ⟨fun _ ↦ rfl, fun band ↦ ⟨fun _ ↦ rfl, fun count ↦ ?_⟩⟩
  apply (getOverviews_lockFree ..).bind_guarded
  exact fun sizes ↦ ⟨rfl, trivial⟩

theorem program_guarded {op : Operation} (h : ∀ d b w, op ≠ .getPixels d b w) :
    op.program.Guarded Call.touches false := by
  cases op with
  | getPixels d b w => exact absurd rfl (h d b w)
  | getOverviewWidthsHeights d b k => exact getOverviewWidthsHeights_guarded d b k
  | getMetadataDomainList d b => exact readMetadata_guarded _ d b
  | getMetadata d b domain => exact readMetadata_guarded _ d b
  | getBlockSize d b | getOffset d b | getScale d b | getColorInterpretation d b
  | getBandNodata d b | getBandDataType d b => exact readBand_guarded _ d b
  | getBandMaxMin d b approx flag => simp [Operation.program, getBandMaxMin]
  | getCrsProj4 d k => simp [Operation.program, getCrsProj4]
  | getHistogram => simp [Operation.program, getHistogram, Call.touches]
  | getMetadataItem => simp [Operation.program, getMetadataItem, Call.touches]
  | _ => simp [Operation.program, noop, getCrsWkt, getBandCount, getTransform, getWidthHeight]

/-- The move assignment closes what `valid` finds and releases the lock. -/
def replaceHandles : Task Unit := do
  if (← call .valid) = true then
    call (.gdalClose 1)
    call (.gdalClose 0)
    release
  else release

def settle : Fate → Task Unit
  | .handedOver => release
  | .replaced => replaceHandles
  | .failed => return ()

/-- What `lock_for_deletion` and `insert` do with one slot. -/
def evict : Task Unit := do
  if (← acquire) = true then
    let useCount ← call .useCount
    if useCount ≠ 0 then release
    else
      let fate ← call .fate
      settle fate
  else return ()

inductive Job where
  | operation (op : Operation)
  | eviction

def Job.program : Job → Task Unit
  | .operation op => do
    let _ ← op.program
    return ()
  | .eviction => evict

theorem settle_guarded (fate : Fate) : (settle fate).Guarded Call.touches true := by
  cases fate <;> simp [settle, replaceHandles, Call.touches]

theorem evict_guarded : evict.Guarded Call.touches false := by
  simp [evict, Call.touches, settle_guarded]

/-- No thread is inside a call on the dataset without its lock, and no two
threads are inside such calls. -/
structure Exclusive {τ : Type} (s : Shared τ Call Reply Unit) : Prop where
  locked : ∀ t, s.Touching Call.touches t → s.owner = some t
  alone : ∀ t u, s.Touching Call.touches t → s.Touching Call.touches u → t = u

def NoPixels {τ : Type} (_ : Shared τ Call Reply Unit) : SharedEvent τ Job Call Reply → Prop
  | .start _ (.operation op) => ∀ d b w, op ≠ .getPixels d b w
  | _ => True

theorem job_guarded {j : Job} (h : ∀ op, j = .operation op → ∀ d b w, op ≠ .getPixels d b w) :
    j.program.Guarded Call.touches false := by
  cases j with
  | operation op => exact (program_guarded (h op rfl)).bind_ret fun _ ↦ ()
  | eviction => exact evict_guarded

variable {τ : Type} [DecidableEq τ]

/-- As long as no thread reads pixels, no two threads are inside the dataset. -/
theorem exclusive_without_get_pixels {es : List (SharedEvent τ Job Call Reply)}
    (h : (Shared.machine τ Job.program).EveryStep NoPixels
      (Shared.machine τ Job.program).init es) :
    (Shared.machine τ Job.program).EveryState Exclusive
      (Shared.machine τ Job.program).init es := by
  refine Machine.EveryStep.everyState (I := fun s : Shared τ Call Reply Unit ↦
    ∀ t, Shared.Sound Call.touches s.owner t (s.threads t)) ?_ ?_ (fun _ ↦ trivial) h
  · intro s e s' hs hc hstep
    apply Shared.step_sound hs _ hstep
    intro t j he
    subst he
    apply job_guarded
    intro op hop
    subst hop
    exact hc
  · exact fun s hs ↦ ⟨fun t ht ↦ ht.owner (hs t), fun t u ht hu ↦ ht.unique hs hu⟩

def contendedOperations : List (SharedEvent Bool Job Call Reply) :=
  [.start false (.operation (.getTransform 1)), .advance false, .advance false,
    .start true (.operation (.getBandCount 0)), .advance true]

theorem exclusive_without_get_pixels_contended : ∃ s,
    (Shared.machine Bool Job.program).run (Shared.machine Bool Job.program).init
      contendedOperations = some s ∧
    s.Touching Call.touches false ∧ s.owner = some false ∧ s.threads true = .ready (.ret ()) ∧
    Exclusive s := by
  have hsteps : (Shared.machine Bool Job.program).EveryStep NoPixels
      (Shared.machine Bool Job.program).init contendedOperations := by
    refine .cons rfl (fun d b w hx ↦ ?_) (.cons rfl trivial (.cons rfl trivial
      (.cons rfl (fun d b w hx ↦ ?_) (.cons rfl trivial trivial)))) <;> cases hx
  exact ⟨_, rfl, ⟨_, _, rfl, rfl⟩, rfl, rfl, (exclusive_without_get_pixels hsteps).last rfl⟩

theorem get_pixels_not_exclusive : ∃ s,
    (Shared.machine Bool Job.program).run (Shared.machine Bool Job.program).init
      [.start false (.operation (.getTransform 1)), .advance false, .advance false,
        .start true (.operation (.getPixels 1 1 ⟨[0, 0, 8, 8], [8, 8], 1⟩)),
        .advance true] = some s ∧
    s.Touching Call.touches false ∧ s.Touching Call.touches true ∧ ¬ Exclusive s := by
  refine ⟨_, rfl, ⟨_, _, rfl, rfl⟩, ⟨_, _, rfl, rfl⟩, fun h ↦ ?_⟩
  have hsame : false = true := h.alone false true ⟨_, _, rfl, rfl⟩ ⟨_, _, rfl, rfl⟩
  exact Bool.false_ne_true hsame

end GdalWarp.Bindings
