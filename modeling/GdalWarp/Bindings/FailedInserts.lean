import GdalWarp.Bindings.Exclusion
import GdalWarp.Bindings.ReferenceCounts

namespace GdalWarp.Bindings

open Foundation FlatLruCache

theorem readBand_balanced (getter : BandGetter) (dataset bandNumber : ℤ) :
    (readBand getter dataset bandNumber).Balanced false := by
  simp [readBand]

theorem readMetadata_balanced (getter : MetadataGetter) (dataset bandNumber : ℤ) :
    (readMetadata getter dataset bandNumber).Balanced false := by
  simp [readMetadata]

theorem getOverviewWidthsHeights_balanced (dataset bandNumber maxLength : ℤ) :
    (getOverviewWidthsHeights dataset bandNumber maxLength).Balanced false := by
  simp only [getOverviewWidthsHeights, tryLock_balanced]
  intro band count
  apply (getOverviews_lockFree ..).bind_balanced
  exact fun sizes ↦ ⟨rfl, rfl⟩

theorem program_balanced (op : Operation) : op.program.Balanced false := by
  cases op with
  | getOverviewWidthsHeights d b k => exact getOverviewWidthsHeights_balanced d b k
  | getMetadataDomainList d b => exact readMetadata_balanced _ d b
  | getMetadata d b domain => exact readMetadata_balanced _ d b
  | getBlockSize d b | getOffset d b | getScale d b | getColorInterpretation d b
  | getBandNodata d b | getBandDataType d b => exact readBand_balanced _ d b
  | getBandMaxMin d b approx flag => simp [Operation.program, getBandMaxMin]
  | getCrsProj4 d k => simp [Operation.program, getCrsProj4]
  | getHistogram => simp [Operation.program, getHistogram]
  | getMetadataItem => simp [Operation.program, getMetadataItem]
  | getPixels => simp [Operation.program, getPixels]
  | _ => simp [Operation.program, noop, getCrsWkt, getBandCount, getTransform, getWidthHeight]

theorem task_balanced (op : Operation) : op.task.Balanced false :=
  (program_balanced op).bind_ret _

namespace FlatLruCache

variable {τ : Type} {n : ℕ}

theorem lock_ne_self {t : τ} {ld : LockedDataset τ} (h : ld.datasetLock = none) : ld.lock t ≠ ld := by
  intro heq
  have hlock := congrArg LockedDataset.datasetLock heq
  rw [h] at hlock
  cases hlock

variable [DecidableEq τ]

theorem insert_unchanged_iff {t : τ} {o : Opener} {g : Gdal} {c : FlatLruCache τ n} {tag : UInt64}
    {key : UriOptions} (ho : (LockedDataset.outcome o key).warped = false) :
    (∃ g', c.insert t o g tag key = some ⟨none, c, g'⟩) ↔ ∀ j, ¬ c.Evictable j := by
  constructor
  · rintro ⟨g', h⟩
    rcases scan_cases t c with ⟨hnone, -⟩ | ⟨b, hb, -⟩
    · exact hnone
    · rw [insert_failed hb ho] at h
      have hcache : c.setValue b ((c.values b).lock t) = c :=
        congrArg Inserted.cache (Option.some.inj h)
      have hval : (c.values b).lock t = c.values b := by
        rw [← setValue_self c b ((c.values b).lock t), hcache]
      exact absurd hval (lock_ne_self hb.datasetLock)
  · exact fun h ↦ ⟨g, insert_none h⟩

end FlatLruCache

namespace Service

variable {τ : Type} {L : LruCache} {n : ℕ}

/-- The lock that thread `t` has is that of the slot it works on, and what is
left of its work gives it back. -/
def Keeps (locks : Fin n → Option τ) (t : τ) : Option (Fin n × Work) → Prop
  | none => ∀ j, locks j ≠ some t
  | some (i, w) => ∃ held, w.Balanced held ∧ ∀ j, locks j = some t ↔ held = true ∧ j = i

def locks (s : Service τ L n) (i : Fin n) : Option τ := (s.cache.values i).datasetLock

def Disciplined (s : Service τ L n) : Prop := ∀ t, Keeps s.locks t (s.threads t).pc.job

theorem Keeps.congr {o o' : Fin n → Option τ} {t : τ} {x : Option (Fin n × Work)}
    (h : Keeps o t x) (ho : ∀ j, o' j = some t ↔ o j = some t) : Keeps o' t x := by
  cases x with
  | none => exact fun j hj ↦ h j ((ho j).mp hj)
  | some y =>
    obtain ⟨held, hw, hj⟩ := h
    exact ⟨held, hw, fun j ↦ (ho j).trans (hj j)⟩

theorem Disciplined.free {s : Service τ L n} (h : Disciplined s) (hq : s.Quiescent) (i : Fin n) :
    (s.cache.values i).datasetLock = none := by
  cases hlock : (s.cache.values i).datasetLock with
  | none => rfl
  | some t =>
    have ht := h t
    rw [Pc.job_of_settled (hq t)] at ht
    exact absurd hlock (ht i)

variable [DecidableEq τ]

def Rested (s : Service τ L n) : Prop :=
  s.Quiescent → ∀ i, (s.cache.values i).datasetLock = none ∧
    ∀ t, ((s.cache.values i).lockForDeletion t).1 = true

def FailedInsert (s : Service τ L n) (t : τ) (o : Opener) (f : Frame) : Prop :=
  (∃ found left, (s.threads t).pc = .inserting f found (left + 1)) ∧
    (LockedDataset.outcome o f.pair).warped = false

def Spared (h : StringHash) (s : Service τ L n) (e : ServiceEvent τ) : Prop :=
  ∀ t o f, e = .insert t o → s.FailedInsert t o f →
    ∃ g, s.cache.insert t o s.gdal (hashUriOptions h f.pair) f.pair = some ⟨none, s.cache, g⟩

def NoCandidate (s : Service τ L n) (e : ServiceEvent τ) : Prop :=
  ∀ t o f, e = .insert t o → s.FailedInsert t o f → ∀ j, ¬ s.cache.Evictable j

theorem spared_iff {h : StringHash} {s : Service τ L n} {e : ServiceEvent τ} :
    Spared h s e ↔ NoCandidate s e := by
  constructor
  · exact fun hs t o f he hf ↦ (insert_unchanged_iff hf.2).mp (hs t o f he hf)
  · exact fun hs t o f he hf ↦ (insert_unchanged_iff hf.2).mpr (hs t o f he hf)

theorem Disciplined.put {s : Service τ L n} (hs : Disciplined s) {t : τ} {tok : L.State}
    {c : FlatLruCache τ n} {g : Gdal} {wr : Option τ} {th : Thread n}
    (hother : ∀ u ≠ t, ∀ j, (c.values j).datasetLock = some u ↔ s.locks j = some u)
    (hself : Keeps (fun j ↦ (c.values j).datasetLock) t th.pc.job) :
    Disciplined ((⟨tok, c, g, wr, s.threads, s.aborted⟩ : Service τ L n).put t th) := by
  exact forall_put (P := fun u th ↦ Keeps (fun j ↦ (c.values j).datasetLock) u th.pc.job) hself
    fun u hu ↦ (hs u).congr (hother u hu)

theorem Disciplined.still {s : Service τ L n} (hs : Disciplined s) {t : τ} {tok : L.State}
    {c : FlatLruCache τ n} {g : Gdal} {wr : Option τ} {th : Thread n}
    (hlock : ∀ j, (c.values j).datasetLock = (s.cache.values j).datasetLock)
    (hold : (s.threads t).pc.job = none) (hnew : th.pc.job = none) :
    Disciplined ((⟨tok, c, g, wr, s.threads, s.aborted⟩ : Service τ L n).put t th) := by
  refine hs.put (fun u _ j ↦ by rw [hlock j]; rfl) ?_
  have ht := hs t
  rw [hold] at ht
  rw [hnew]
  exact fun j hj ↦ ht j ((hlock j).symm.trans hj)

theorem Disciplined.work {s : Service τ L n} (hs : Disciplined s) {t : τ} {f : Frame} {i : Fin n}
    {rest : List (Fin n)} {p : Task (ℤ × Option ℤ)}
    (hpc : (s.threads t).pc = .running f i rest (.ready p)) :
    Disciplined (s.work t f i rest p) := by
  obtain ⟨held, hp, hown⟩ : Keeps s.locks t (some (i, .ready p)) := by
    have ht := hs t
    rw [hpc] at ht
    exact ht
  have hset {l : Option τ} (ld : LockedDataset τ) (hl : ld.datasetLock = l) (u : τ) (j : Fin n) :
      ((s.cache.setValue i ld).values j).datasetLock = some u ↔
        (j = i ∧ l = some u) ∨ (j ≠ i ∧ s.locks j = some u) := by
    by_cases hj : j = i
    · subst hj
      simp [hl]
    · rw [setValue_of_ne _ _ hj]
      simp [hj, locks]
  cases p with
  | ret r =>
    obtain rfl : held = false := hp
    refine hs.put (fun u _ j ↦ Iff.rfl) fun j hj ↦ ?_
    exact absurd ((hown j).mp hj).1 Bool.false_ne_true
  | tryLock k =>
    obtain ⟨rfl, htaken, hmissed⟩ := hp
    rw [Service.work]
    split
    case isTrue hfree =>
      refine hs.put (fun u hu j ↦ ?_) ⟨true, htaken, fun j ↦ ?_⟩
      · rw [hset (l := some t) _ rfl]
        by_cases hj : j = i
        · subst hj
          simp [locks, hfree, hu.symm]
        · simp [hj]
      · rw [hset (l := some t) _ rfl]
        have hmine : s.locks j ≠ some t := fun hx ↦ absurd ((hown j).mp hx).1 Bool.false_ne_true
        simp [hmine]
    case isFalse => exact hs.put (fun u _ j ↦ Iff.rfl) ⟨false, hmissed, hown⟩
  | unlock k =>
    obtain ⟨rfl, hk⟩ := hp
    have hmine : (s.cache.values i).datasetLock = some t := (hown i).mpr ⟨rfl, rfl⟩
    have hnone : ((s.cache.values i).unlock t).datasetLock = none := by
      simp [LockedDataset.unlock, hmine]
    refine hs.put (fun u hu j ↦ ?_) ⟨false, hk, fun j ↦ ?_⟩
    · rw [hset _ hnone]
      by_cases hj : j = i
      · subst hj
        simp [locks, hmine, hu.symm]
      · simp [hj]
    · rw [hset _ hnone]
      have hothers : j ≠ i → s.locks j ≠ some t := fun hj hx ↦ hj ((hown j).mp hx).2
      simpa using hothers
  | call c k => exact hs.put (fun u _ j ↦ Iff.rfl) ⟨held, hp, hown⟩

/-- The only step that can leave a lock behind is an insert that fails with a
candidate at hand. -/
theorem Disciplined.effect {h : StringHash} {s s' : Service τ L n} {e : ServiceEvent τ}
    (hs : Disciplined s) (he : Effect h s e s') (hc : s.NoCandidate e) : Disciplined s' := by
  cases he with
  | tokens e tok => exact hs
  | quiet e t tok wr pc hq => exact hs.still (fun _ ↦ rfl) hq.job hq.job'
  | find e t f hpc =>
    obtain ⟨-, -, -, hjob⟩ := Pc.scanned_spec f (s.cache.find (hashUriOptions h f.pair) f.pair).1
    refine hs.still (fun j ↦ ?_) (by rw [hpc]; rfl) hjob
    rw [find_eq]
    exact foldl_touch_field LockedDataset.datasetLock (fun _ ↦ rfl) ..
  | insert t o f found left r hpc hr =>
    rcases insertOne_some hr with ⟨-, rfl⟩ | ⟨b, hb, ⟨ho, rfl⟩ | ⟨-, rfl⟩⟩
    · exact hs.still (fun _ ↦ rfl) (by rw [hpc]; rfl) rfl
    · exact absurd hb.evictable (hc t o f rfl ⟨⟨found, left, hpc⟩, ho⟩ b)
    · refine hs.still (fun j ↦ ?_) (by rw [hpc]; rfl) rfl
      by_cases hj : j = b
      · subst hj
        have hfree : (s.cache.values j).datasetLock = none := hb.datasetLock
        rw [filled_values_self, hfree]
      · rw [filled_values_of_ne _ _ _ _ hj]
  | begin e t f i rest l hpc =>
    have ht := hs t
    rw [hpc] at ht
    refine hs.put (fun u _ j ↦ Iff.rfl) ⟨false, task_balanced f.call.op, fun j ↦ ?_⟩
    exact iff_of_false (ht j) fun hx ↦ Bool.false_ne_true hx.1
  | work e t f i rest p hpc => exact hs.work hpc
  | answer e t f i rest c k r hpc =>
    have ht := hs t
    rw [hpc] at ht
    obtain ⟨held, hk, hown⟩ := ht
    exact hs.put (fun u _ j ↦ Iff.rfl) ⟨held, hk r, hown⟩
  | dec e t f i rest l hpc =>
    have hlock : (s.cache.values i).dec.datasetLock = (s.cache.values i).datasetLock := rfl
    exact hs.still (setValue_field LockedDataset.datasetLock s.cache hlock) (by rw [hpc]; rfl) rfl

theorem Disciplined.rested [Fintype τ] {s : Service τ L n} (hs : Disciplined s)
    (hc : Counted s) : s.Rested := by
  intro hq i
  have hfree := hs.free hq i
  have hunused : (s.cache.values i).useCount = 0 := by
    rw [hc.uses i]
    refine Finset.sum_eq_zero fun t _ ↦ ?_
    rw [(hc.consistent t).held, Pc.refs_of_settled (hq t)]
    rfl
  refine ⟨hfree, fun t ↦ ?_⟩
  rw [LockedDataset.lockForDeletion_eq, if_pos ⟨hunused, hfree⟩]

/-- Failed inserts leave the cache alone, and every slot is free whenever no call
is in flight, exactly if no failed insert finds a candidate. -/
theorem slots_free_iff_no_candidate [Fintype τ] {h : StringHash} {size : ℕ}
    {es : List (ServiceEvent τ)} :
    (machine h τ L size n).EveryStep (Spared h) (machine h τ L size n).init es ∧
        (machine h τ L size n).EveryState Rested (machine h τ L size n).init es ↔
      (machine h τ L size n).EveryStep NoCandidate (machine h τ L size n).init es := by
  constructor
  · rintro ⟨hspared, -⟩
    exact hspared.mono fun _ _ ↦ spared_iff.mp
  · intro hsteps
    refine ⟨hsteps.mono fun _ _ ↦ spared_iff.mpr, ?_⟩
    refine Machine.EveryStep.everyState (I := fun s : Service τ L n ↦ Disciplined s ∧ Counted s)
      ?_ (fun s hs ↦ hs.1.rested hs.2) ?_ hsteps
    · intro s e s' hs hc hstep
      have he := step_effect hstep
      exact ⟨hs.1.effect he hc, hs.2.effect he⟩
    · exact ⟨fun t j ↦ nofun, reachable_counted Machine.Reachable.start⟩

def badUriRun : List (ServiceEvent Unit) :=
  [.getToken ("bad.tif", []) [], .call () ⟨33, .noop, 1, 1, 0⟩, .query () 0, .round () 0,
    .lockCache (), .insert () (answering false true), .unlockCache ()]

theorem bad_uri_leaves_slot_locked :
    ¬ ((machine lengthHash Unit (.ofList Token UriOptions) 4 1).EveryStep (Spared lengthHash)
        (machine lengthHash Unit (.ofList Token UriOptions) 4 1).init badUriRun ∧
      (machine lengthHash Unit (.ofList Token UriOptions) 4 1).EveryState Rested
        (machine lengthHash Unit (.ofList Token UriOptions) 4 1).init badUriRun) := by
  rintro ⟨-, hstates⟩
  have hrun : (machine lengthHash Unit (.ofList Token UriOptions) 4 1).run
      (machine lengthHash Unit (.ofList Token UriOptions) 4 1).init badUriRun = some _ := rfl
  have hlast := hstates.last hrun
  have hfree := (hlast (fun _ ↦ rfl) 0).1
  exact absurd hfree (by decide)

end Service

end GdalWarp.Bindings
