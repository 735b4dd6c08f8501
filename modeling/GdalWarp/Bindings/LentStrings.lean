import GdalWarp.Bindings.Exclusion
import GdalWarp.Bindings.ReferenceCounts

namespace GdalWarp.Bindings

open Foundation FlatLruCache

variable {τ : Type}

theorem mem_closed_close {ld : LockedDataset τ} (h : ld.Paired) (g : Gdal) (d : DatasetH) :
    d ∈ (ld.close g).2.closed ↔ d ∈ ld.handles ∨ d ∈ g.closed := by
  rw [← Multiset.mem_coe, (close_closed h g).1, Multiset.mem_add, Multiset.mem_coe]

theorem LockedDataset.handle_mem {ld : LockedDataset τ} {dataset : ℤ} {d : DatasetH}
    (h : ld.handle dataset = some d) : d ∈ ld.handles := by
  unfold handle at h
  split at h
  · simp [handles, h]
  · split at h
    · simp [handles, h]
    · cases h

namespace Service

variable {L : LruCache} {n : ℕ}

/-- The strings a call has obtained, and which its caller may yet read, are those
of an open dataset. -/
def InHand (s : Service τ L n) : Prop :=
  ∀ t d, (s.threads t).pc.lent = some d → d ∉ s.gdal.closed

/-- What the caller of a metadata function reads belongs to an open dataset. -/
def ReadsOpen (s : Service τ L n) : Prop :=
  ∀ t value d, (s.threads t).pc = .returned value (some d) → d ∉ s.gdal.closed

theorem InHand.readsOpen {s : Service τ L n} (h : InHand s) : s.ReadsOpen := by
  intro t value d hpc
  apply h t d
  rw [hpc]
  rfl

variable [DecidableEq τ]

structure Replaces (s : Service τ L n) (t : τ) (o : Opener) (b : Fin n) (f : Frame) : Prop where
  inserting : ∃ found left, (s.threads t).pc = .inserting f found (left + 1)
  opened : (LockedDataset.outcome o f.pair).warped = true
  candidate : s.cache.Candidate b

def Unread (s : Service τ L n) (e : ServiceEvent τ) : Prop :=
  ∀ t o b f, e = .insert t o → s.Replaces t o b f →
    ∀ u d, (s.threads u).pc.lent = some d → d ∉ (s.cache.values b).handles

theorem InHand.put {s : Service τ L n} {t : τ} {tok : L.State} {c : FlatLruCache τ n} {g : Gdal}
    {wr : Option τ} {th : Thread n}
    (hother : ∀ u ≠ t, ∀ d, (s.threads u).pc.lent = some d → d ∉ g.closed)
    (hself : ∀ d, th.pc.lent = some d → d ∉ g.closed) :
    InHand ((⟨tok, c, g, wr, s.threads, s.aborted⟩ : Service τ L n).put t th) := by
  exact forall_put (P := fun _ th ↦ ∀ d, th.pc.lent = some d → d ∉ g.closed) hself hother

theorem InHand.keep {s : Service τ L n} (hs : InHand s) {t : τ} {tok : L.State}
    {c : FlatLruCache τ n} {wr : Option τ} {th : Thread n}
    (hlent : th.pc.lent = none ∨ th.pc.lent = (s.threads t).pc.lent) :
    InHand ((⟨tok, c, s.gdal, wr, s.threads, s.aborted⟩ : Service τ L n).put t th) := by
  refine InHand.put (fun u _ d hd ↦ hs u d hd) fun d hd ↦ ?_
  rcases hlent with hnone | hsame
  · rw [hnone] at hd
    cases hd
  · exact hs t d (hsame ▸ hd)

theorem InHand.work {s : Service τ L n} (hs : InHand s) (hb : Balanced s.cache s.gdal) (t : τ)
    (f : Frame) (i : Fin n) (rest : List (Fin n)) (p : Task (ℤ × Option ℤ)) :
    InHand (s.work t f i rest p) := by
  cases p with
  | ret r =>
    refine InHand.put (fun u _ d hd ↦ hs u d hd) fun d hd ↦ ?_
    obtain ⟨dataset, -, hhandle⟩ := Option.bind_eq_some_iff.mp hd
    exact hb.open_of_held (LockedDataset.handle_mem hhandle)
  | tryLock k =>
    rw [Service.work]
    split <;> exact hs.keep (Or.inl rfl)
  | unlock k => exact hs.keep (Or.inl rfl)
  | call c k => exact hs.keep (Or.inl rfl)

theorem InHand.effect {h : StringHash} {s s' : Service τ L n} {e : ServiceEvent τ}
    (hs : InHand s) (hb : Balanced s.cache s.gdal) (he : Effect h s e s') (hc : s.Unread e) :
    InHand s' := by
  cases he with
  | tokens e tok => exact hs
  | quiet e t tok wr pc hq => exact hs.keep hq.lent
  | find e t f hpc =>
    obtain ⟨-, -, hlent, -⟩ := Pc.scanned_spec f (s.cache.find (hashUriOptions h f.pair) f.pair).1
    exact hs.keep (Or.inl hlent)
  | insert t o f found left r hpc hr =>
    rcases insertOne_some hr with ⟨-, rfl⟩ | ⟨b, hcand, ⟨-, rfl⟩ | ⟨ho, rfl⟩⟩
    · exact hs.keep (Or.inl rfl)
    · exact InHand.put (fun u _ d hd ↦ hs u d hd) fun d hd ↦ nomatch hd
    · refine InHand.put (fun u _ d hd hmem ↦ ?_) fun d hd ↦ nomatch hd
      rcases (mem_closed_close (hb.paired b) _ d).mp hmem with hslot | hclosed
      · exact hc t o b f rfl ⟨⟨found, left, hpc⟩, ho, hcand⟩ u d hd hslot
      · exact hs u d hd hclosed
  | begin e t f i rest l hpc => exact hs.keep (Or.inl rfl)
  | work e t f i rest p hpc => exact hs.work hb t f i rest p
  | answer e t f i rest c k r hpc => exact hs.keep (Or.inl rfl)
  | dec e t f i rest l hpc => exact hs.keep (Or.inr (by rw [hpc]; rfl))

theorem unread_of_inHand {h : StringHash} {s s' : Service τ L n} {e : ServiceEvent τ}
    (hb : Balanced s.cache s.gdal) (hstep : s.step h e = some s') (hs' : InHand s') :
    s.Unread e := by
  rintro t o b f rfl ⟨⟨found, left, hpc⟩, ho, hcand⟩ u d hd hmem
  have hne : u ≠ t := by
    rintro rfl
    rw [hpc] at hd
    cases hd
  rcases insertOne_cases t (hashUriOptions h f.pair) f.pair o ⟨found, s.cache, s.gdal⟩ with
    ⟨hnone, -⟩ | ⟨b', hb', ⟨hfail, -⟩ | ⟨-, heq⟩⟩
  · exact hnone b hcand.evictable
  · rw [ho] at hfail
    cases hfail
  · obtain rfl := hcand.unique hb'
    simp only [step, hpc, heq, Option.some.injEq] at hstep
    subst hstep
    refine hs' u d ?_ ((mem_closed_close (hb.paired b) _ d).mpr (Or.inl hmem))
    rw [put_of_ne _ _ hne]
    exact hd

/-- Metadata strings are read from open datasets as long as no insert replaces a
dataset whose strings are still to be read, and exactly then none are in hand
whose dataset is closed. -/
theorem strings_open_iff_unread {h : StringHash} {size : ℕ} {es : List (ServiceEvent τ)} :
    ((machine h τ L size n).EveryState InHand (machine h τ L size n).init es ↔
      (machine h τ L size n).EveryStep Unread (machine h τ L size n).init es) ∧
    ((machine h τ L size n).EveryStep Unread (machine h τ L size n).init es →
      (machine h τ L size n).EveryState ReadsOpen (machine h τ L size n).init es) := by
  have hiff : (machine h τ L size n).EveryState InHand (machine h τ L size n).init es ↔
      (machine h τ L size n).EveryStep Unread (machine h τ L size n).init es := by
    refine Machine.everyState_iff_of_invariant
      (I := fun s : Service τ L n ↦ Balanced s.cache s.gdal) ?_ ?_ fresh_balanced ?_
    · exact fun s e s' hb hstep ↦ (step_effect hstep).balanced hb
    · intro s e s' hb hs hstep
      exact ⟨unread_of_inHand hb hstep, hs.effect hb (step_effect hstep)⟩
    · exact fun t d hd ↦ nomatch hd
  exact ⟨hiff, fun hsteps ↦ (hiff.mpr hsteps).mono fun _ ↦ InHand.readsOpen⟩

def metadataReply : ∀ c, Reply c
  | .getMetadataList _ _ => some ["AREA_OR_POINT=Area"]
  | c => anyReply c

def evictingRun : List (ServiceEvent Bool) :=
  [.getToken ("a.tif", []) [], .getToken ("b.tif", []) [7],
    .call false ⟨33, .getMetadata 1 0 none, 2, 1, 0⟩, .query false 0, .round false 0,
    .lockCache false, .insert false (answering true true), .unlockCache false, .attempt false,
    .advance false, .advance false, .answer false metadataReply, .advance false,
    .answer false metadataReply, .advance false, .answer false metadataReply, .advance false,
    .advance false, .dec false, .next false,
    .call true ⟨7, .noop, 2, 1, 0⟩, .query true 0, .round true 0, .lockCache true,
    .insert true (answering true true)]

theorem metadata_read_from_closed_dataset :
    ∃ s, (machine lengthHash Bool (.ofList Token UriOptions) 4 1).run
        (machine lengthHash Bool (.ofList Token UriOptions) 4 1).init evictingRun = some s ∧
      (s.threads false).pc = .returned 1 (some 1) ∧ ¬ ReadsOpen s := by
  have hrun : (machine lengthHash Bool (.ofList Token UriOptions) 4 1).run
      (machine lengthHash Bool (.ofList Token UriOptions) 4 1).init evictingRun = some _ := rfl
  refine ⟨_, hrun, rfl, fun hopen ↦ ?_⟩
  exact hopen false 1 1 rfl (by decide)

end Service

end GdalWarp.Bindings
