import GdalWarp.Foundation.ProgramLogic
import GdalWarp.Bindings.CallRecords
import GdalWarp.Bindings.LentStrings

namespace GdalWarp.Bindings

open Foundation Foundation.Program FlatLruCache

/-- What an operation has in its hands: bands with the dataset they are of, and the
spatial references and strings that it has to free. -/
structure Hands where
  bands : List (Option BandH × Option DatasetH)
  refs : List ℕ
  texts : ℕ

namespace Hands

def empty : Hands := ⟨[], [], 0⟩

def Clear (h : Hands) : Prop := h.refs = [] ∧ h.texts = 0

def AllowsObject (number : Option ℤ) (dataset : Option DatasetH) (h : Hands) : MajorObject → Prop
  | .dataset d => number = some d
  | .band b => (b, dataset) ∈ h.bands

/-- The call is one on the dataset with this number and handle, on a band that was got
from that dataset, or on a spatial reference or a string not yet freed. The calls that
manage the cache are none of these. -/
def Allows (number : Option ℤ) (dataset : Option DatasetH) (h : Hands) : Call → Prop
  | .getRasterBand d _ | .getProjectionRef d | .getRasterCount d | .getGeoTransform d
  | .getRasterXSize d | .getRasterYSize d => number = some d
  | .getBand _ b | .getRasterHistogramEx b _ _ _ _ _ | .getOverviewCount b | .getOverview b _
  | .getRasterBandXSize b | .getRasterBandYSize b | .computeRasterMinMax b _
  | .getRasterMinimum b | .getRasterMaximum b | .rasterIo b _ => (b, dataset) ∈ h.bands
  | .getMetadataList _ object | .getMetadataItem object _ _ =>
    h.AllowsObject number dataset object
  | .osrExportToProj4 ref | .osrDestroySpatialReference ref => ref ∈ h.refs
  | .cplFree => 0 < h.texts
  | .osrNewSpatialReference _ | .getLastErrno | .getLastErrnoTimestamp => True
  | .useCount | .valid | .fate | .gdalClose _ => False

def after (dataset : Option DatasetH) (h : Hands) : (c : Call) → Reply c → Hands
  | .getRasterBand _ _, band => { h with bands := (band, dataset) :: h.bands }
  | .getOverview _ _, band => { h with bands := (band, dataset) :: h.bands }
  | .osrNewSpatialReference _, ref => { h with refs := ref :: h.refs }
  | .osrDestroySpatialReference ref, _ => { h with refs := h.refs.erase ref }
  | .osrExportToProj4 _, _ => { h with texts := h.texts + 1 }
  | .cplFree, _ => { h with texts := h.texts - 1 }
  | _, _ => h

-- a band may be used until the lock under which it was got is released
def released (h : Hands) : Hands := { h with bands := [] }

def rules (number : Option ℤ) (dataset : Option DatasetH) : Typestate Hands Call Reply where
  Allows := Allows number dataset
  after := after dataset
  released := released

end Hands

def Operation.dataset : Operation → Option ℤ
  | .noop => none
  | .getBlockSize d _ | .getHistogram d _ _ _ _ _ _ | .getOffset d _ | .getScale d _
  | .getColorInterpretation d _ | .getOverviewWidthsHeights d _ _ | .getCrsProj4 d _
  | .getCrsWkt d _ | .getBandNodata d _ | .getBandDataType d _ | .getBandCount d
  | .getTransform d | .getWidthHeight d | .getBandMaxMin d _ _ _ | .getMetadataDomainList d _
  | .getMetadata d _ _ | .getMetadataItem d _ _ _ | .getPixels d _ _ => some d

section Programs

open Hands

attribute [local simp] Hands.rules Hands.Allows Hands.AllowsObject Hands.after Hands.released
  Hands.empty Hands.Clear tryLock

variable (dataset : Option DatasetH) (d bandNumber : ℤ)

theorem readBand_obeys (getter : BandGetter) : (readBand getter d bandNumber).Obeys
    (rules (some d) dataset) .empty fun _ h ↦ h.Clear := by
  simp [readBand]

theorem readMetadata_obeys (getter : MetadataGetter) : (readMetadata getter d bandNumber).Obeys
    (rules (some d) dataset) .empty fun _ h ↦ h.Clear := by
  by_cases hfile : bandNumber = 0 <;> simp [readMetadata, hfile]

theorem getOverviews_obeys {number : Option ℤ} {band : Option BandH} {h : Hands}
    (hband : (band, dataset) ∈ h.bands) (hclear : h.Clear) (i k : ℕ) :
    (getOverviews band i k).Obeys (rules number dataset) h fun _ h ↦ h.Clear := by
  induction k generalizing i h with
  | zero => exact hclear
  | succ k ih =>
    refine ⟨hband, fun overview ↦ ⟨List.mem_cons_self, fun width ↦ ⟨List.mem_cons_self,
      fun height ↦ ?_⟩⟩⟩
    have hlater := ih (h := { h with bands := (overview, dataset) :: h.bands })
      (List.mem_cons_of_mem _ hband) hclear (i + 1)
    exact hlater.bind fun _ _ hclear ↦ hclear

theorem getOverviewWidthsHeights_obeys (maxLength : ℤ) :
    (getOverviewWidthsHeights d bandNumber maxLength).Obeys (rules (some d) dataset) .empty
      fun _ h ↦ h.Clear := by
  refine ⟨⟨rfl, fun band ↦ ⟨List.mem_cons_self, fun count ↦ ?_⟩⟩, ⟨rfl, rfl⟩⟩
  have hsizes : (getOverviews band 0 (min count maxLength).toNat).Obeys (rules (some d) dataset)
      ⟨[(band, dataset)], [], 0⟩ fun _ h ↦ h.Clear :=
    getOverviews_obeys dataset List.mem_cons_self ⟨rfl, rfl⟩ 0 _
  exact hsizes.bind fun _ _ hclear ↦ hclear

/-- An operation uses the dataset it was asked about and what it got from it, and frees
all that it has to. -/
theorem program_obeys (op : Operation) :
    op.program.Obeys (rules op.dataset dataset) .empty fun _ h ↦ h.Clear := by
  cases op with
  | getBlockSize d b | getOffset d b | getScale d b | getColorInterpretation d b
  | getBandNodata d b | getBandDataType d b => exact readBand_obeys dataset d b _
  | getMetadataDomainList d b => exact readMetadata_obeys dataset d b _
  | getMetadata d b domain => exact readMetadata_obeys dataset d b _
  | getOverviewWidthsHeights d b k => exact getOverviewWidthsHeights_obeys dataset d b k
  | getBandMaxMin d b approx flag =>
    by_cases happrox : approx = 0 <;>
      simp [Operation.program, getBandMaxMin, Operation.dataset, happrox]
  | getMetadataItem d b key domain =>
    by_cases hfile : b = 0 <;> simp [Operation.program, getMetadataItem, Operation.dataset, hfile]
  | getCrsProj4 d k => simp [Operation.program, getCrsProj4, Operation.dataset]
  | getHistogram => simp [Operation.program, getHistogram, Operation.dataset]
  | getPixels => simp [Operation.program, getPixels, Operation.dataset]
  | _ => simp [Operation.program, noop, getCrsWkt, getBandCount, getTransform, getWidthHeight,
      Operation.dataset]

theorem task_obeys (op : Operation) :
    op.task.Obeys (rules op.dataset dataset) .empty fun _ h ↦ h.Clear :=
  (program_obeys dataset op).bind fun _ _ hclear ↦ hclear

end Programs

def Frame.dataset {τ : Type} {n : ℕ} (f : Frame) (c : FlatLruCache τ n) (i : Fin n) :
    Option DatasetH :=
  f.call.op.dataset.bind (c.values i).handle

namespace Hands

variable {τ : Type} {L : LruCache} {n : ℕ}

/-- The thread's own event `e`, seen where the thread stands at `pc`. What is still to be
freed stays in its hands when an operation ends. -/
def note (s : Service τ L n) (h : Hands) (pc : Pc n) : ServiceEvent τ → Hands
  | .attempt _ => h.released
  | .advance _ =>
    match pc with
    | .running _ _ _ (.ready (.unlock _)) => h.released
    | _ => h
  | .answer _ reply =>
    match pc with
    | .running f i _ (.inside c _) => h.after (f.dataset s.cache i) c (reply c)
    | _ => h
  | _ => h

def observe [DecidableEq τ] (t : τ) (h : Hands) (s : Service τ L n) (e : ServiceEvent τ)
    (_ : Service τ L n) : Hands :=
  if e.thread = some t then h.note s (s.threads t).pc e else h

/-- What is left of the thread's operation obeys the rules, and a thread in no operation
has nothing to free. -/
def Fits (c : FlatLruCache τ n) (h : Hands) : Pc n → Prop
  | .running f i _ w => w.Obeys (rules f.call.op.dataset (f.dataset c i)) h fun _ h ↦ h.Clear
  | _ => h.Clear

theorem Fits.same {c c' : FlatLruCache τ n} {h : Hands} {pc : Pc n} (hf : h.Fits c pc)
    (hsame : ∀ i ∈ pc.refs, SameDataset c c' i) : h.Fits c' pc := by
  cases pc with
  | running f i rest w =>
    have hslot := hsame i List.mem_cons_self
    have hhandle : (c'.values i).handle = (c.values i).handle := by
      funext d
      simp only [LockedDataset.handle, hslot.source, hslot.warped]
    rw [Fits, Frame.dataset, hhandle]
    exact hf
  | _ => exact hf

theorem Clear.loopHead {c : FlatLruCache τ n} {h : Hands} (hclear : h.Clear) (f : Frame)
    (l : Option DatasetH) : h.Fits c (.loopHead f l) := by
  unfold Pc.loopHead
  split <;> exact hclear

theorem Clear.got {c : FlatLruCache τ n} {h : Hands} (hclear : h.Clear) (f : Frame)
    (found : List (Fin n)) : h.Fits c (.got f found) := by
  unfold Pc.got
  split <;> exact hclear

theorem Clear.scanned {c : FlatLruCache τ n} {h : Hands} (hclear : h.Clear) (f : Frame)
    (found : List (Fin n)) : h.Fits c (.scanned f found) := by
  unfold Pc.scanned
  split
  · exact Clear.got hclear f found
  · exact hclear

theorem Clear.released {h : Hands} (hclear : h.Clear) : h.released = .empty := by
  obtain ⟨bands, refs, texts⟩ := h
  obtain ⟨rfl, rfl⟩ := hclear
  rfl

end Hands

namespace Service

open Hands

variable {τ : Type} [DecidableEq τ] {L : LruCache} {n : ℕ}

theorem fits_work {s : Service τ L n} {t : τ} {f : Frame} {i : Fin n} {rest : List (Fin n)}
    {p : Task (ℤ × Option ℤ)} {hands : Hands}
    (hf : hands.Fits s.cache (.running f i rest (.ready p))) :
    (hands.note s (.running f i rest (.ready p)) (.advance t)).Fits s.cache
      ((s.work t f i rest p).threads t).pc := by
  cases p with
  | tryLock k =>
    by_cases hfree : (s.cache.values i).datasetLock = none
    · rw [work, if_pos hfree, move_pc]
      exact hf.1
    · rw [work, if_neg hfree, move_pc]
      exact hf.2
  | ret a | unlock k | call c k =>
    rw [work, move_pc]
    exact hf

theorem fits_own {h : StringHash} {s s' : Service τ L n} {e : ServiceEvent τ} {t : τ}
    {hands : Hands} (hs : s.step h e = some s') (ht : e.thread = some t)
    (hf : hands.Fits s.cache (s.threads t).pc) :
    (hands.note s (s.threads t).pc e).Fits s'.cache (s'.threads t).pc := by
  cases step_moves hs with
  | getToken => cases ht
  | call u c hpc | unknown u now c hpc | timeOut u now f hpc | finish u value l hpc =>
    obtain rfl := Option.some.inj ht
    rw [hpc] at hf
    rw [move_pc]
    exact hf
  | query u now c pair hpc =>
    obtain rfl := Option.some.inj ht
    rw [hpc] at hf
    rw [move_pc]
    exact Clear.loopHead hf _ none
  | scan u now f hpc =>
    obtain rfl := Option.some.inj ht
    rw [hpc] at hf
    rw [put_self]
    exact Clear.scanned hf f _
  | lockCache u f found request hpc =>
    obtain rfl := Option.some.inj ht
    rw [hpc] at hf
    rw [move_pc]
    exact hf
  | giveUp u f found k hpc | unlockCache u f found hpc =>
    obtain rfl := Option.some.inj ht
    rw [hpc] at hf
    rw [move_pc]
    exact Clear.got hf f found
  | insert u o f found left g hpc =>
    obtain rfl := Option.some.inj ht
    rw [hpc] at hf
    rw [put_self]
    exact hf
  | attempt u f i rest l hpc =>
    obtain rfl := Option.some.inj ht
    rw [hpc] at hf
    rw [move_pc]
    show hands.released.Fits s.cache (.running f i rest (.ready f.call.op.task))
    rw [Clear.released hf]
    exact task_obeys _ f.call.op
  | skip u f i rest l hpc =>
    obtain rfl := Option.some.inj ht
    rw [hpc] at hf
    rw [move_pc]
    exact hf
  | advance u f i rest p hpc =>
    obtain rfl := Option.some.inj ht
    rw [hpc] at hf ⊢
    exact (fits_work hf).same fun j _ ↦ sameDataset_work s u f i rest p j
  | answer u reply f i rest c k hpc =>
    obtain rfl := Option.some.inj ht
    rw [hpc] at hf ⊢
    rw [move_pc]
    exact hf.2 (reply c)
  | dec u f i rest l hpc =>
    obtain rfl := Option.some.inj ht
    rw [hpc] at hf
    rw [put_self]
    exact hf
  | next u f l hpc =>
    obtain rfl := Option.some.inj ht
    rw [hpc] at hf
    rw [move_pc]
    exact Clear.loopHead hf _ l

theorem fits_step [Fintype τ] {h : StringHash} {s s' : Service τ L n} {e : ServiceEvent τ}
    {t : τ} {hands : Hands} (hs : s.step h e = some s') (hc : s.Counted)
    (hf : hands.Fits s.cache (s.threads t).pc) :
    (hands.observe t s e s').Fits s'.cache (s'.threads t).pc := by
  rw [Hands.observe]
  split
  case isTrue ht => exact fits_own hs ht hf
  case isFalse ht =>
    rw [step_other hs ht]
    refine hf.same fun i hi ↦ hc.sameDataset (step_effect hs) (t := t) ?_
    rwa [(hc.consistent t).held]

/-- Whatever other threads open, evict and close meanwhile, a call that a thread makes in an
operation is one on the dataset it was asked about, which is open, on a band that this
operation got from it and since when it has not released the lock, or on what it has yet to
free. A thread in no operation has freed all it had to. -/
theorem calls_confined [Fintype τ] {h : StringHash} {size : ℕ} {es : List (ServiceEvent τ)}
    {s : Service τ L n}
    (hrun : (machine h τ L size n).run (machine h τ L size n).init es = some s) {t : τ}
    {hands : Hands} (hr : hands =
      (machine h τ L size n).record (Hands.observe t) (machine h τ L size n).init .empty es) :
    (∀ f i rest c k, (s.threads t).pc = .running f i rest (.inside c k) →
      hands.Allows f.call.op.dataset (f.dataset s.cache i) c ∧
      ∀ d ∈ f.dataset s.cache i, d ∉ s.gdal.closed) ∧
    ((s.threads t).pc.job = none → hands.Clear) := by
  have hstart : (machine h τ L size n).init.Counted ∧
      Hands.empty.Fits (machine h τ L size n).init.cache .idle :=
    ⟨reachable_counted Machine.Reachable.start, rfl, rfl⟩
  have hinv := @Machine.run_record _ _ _ _ (Hands.observe t)
    (fun (s : Service τ L n) hands ↦ s.Counted ∧ hands.Fits s.cache (s.threads t).pc)
    (fun s e s' hands hs hstep ↦ ⟨hs.1.effect (step_effect hstep), fits_step hstep hs.1 hs.2⟩)
    _ _ _ _ hstart hrun
  obtain ⟨-, hfits⟩ := hinv
  rw [← hr] at hfits
  have hb := reachable_handles ⟨es, hrun⟩
  refine ⟨fun f i rest c k hpc ↦ ?_, fun hjob ↦ ?_⟩
  · rw [hpc] at hfits
    refine ⟨hfits.1, fun d hd ↦ ?_⟩
    obtain ⟨number, -, hhandle⟩ := Option.bind_eq_some_iff.mp hd
    exact hb.open_of_held (LockedDataset.handle_mem hhandle)
  · cases hpc : (s.threads t).pc with
    | running f i rest w =>
      rw [hpc] at hjob
      cases hjob
    | _ =>
      rw [hpc] at hfits
      exact hfits

def bandReply : ∀ c, Reply c
  | .getRasterBand _ _ => some 7
  | c => anyReply c

def blockSizeRun : List (ServiceEvent Unit) :=
  [.getToken ("a.tif", []) [], .call () ⟨33, .getBlockSize 1 1, 1, 1, 0⟩, .query () 0,
    .round () 0, .lockCache (), .insert () (answering true true), .unlockCache (), .attempt (),
    .advance (), .advance (), .answer () bandReply, .advance ()]

theorem calls_confined_block_size :
    ∃ s, (machine lengthHash Unit (.ofList Token UriOptions) 4 1).run
        (machine lengthHash Unit (.ofList Token UriOptions) 4 1).init blockSizeRun = some s ∧
      (some 7, some 1) ∈ ((machine lengthHash Unit (.ofList Token UriOptions) 4 1).record
        (Hands.observe ()) (machine lengthHash Unit (.ofList Token UriOptions) 4 1).init .empty
        blockSizeRun).bands ∧ 1 ∉ s.gdal.closed := by
  have hrun : (machine lengthHash Unit (.ofList Token UriOptions) 4 1).run
      (machine lengthHash Unit (.ofList Token UriOptions) 4 1).init blockSizeRun = some _ := rfl
  obtain ⟨hallows, hopen⟩ := (calls_confined hrun (t := ()) rfl).1 _ _ _ _ _ rfl
  exact ⟨_, hrun, hallows, hopen 1 rfl⟩

end Service

end GdalWarp.Bindings
