import GdalWarp.Bindings.FailedInserts

namespace GdalWarp.Bindings

open Foundation FlatLruCache

def Gdal.failures (g : Gdal) : ℕ := g.opens.countP fun oc ↦ !oc.warped

theorem Gdal.failures_after (g : Gdal) (key : UriOptions) (oc : OpenOutcome) :
    (g.after key oc).failures = g.failures + if oc.warped then 0 else 1 := by
  cases h : oc.warped <;> simp [failures, after, h]

variable {τ : Type} {L : LruCache} {n : ℕ}

namespace FlatLruCache

/-- The locks, those of the slots `lost` not counted. -/
def locksBut (c : FlatLruCache τ n) (lost : Finset (Fin n)) (i : Fin n) : Option τ :=
  if i ∈ lost then none else (c.values i).datasetLock

variable {c : FlatLruCache τ n} {lost : Finset (Fin n)}

theorem locksBut_of_notMem {i : Fin n} (hi : i ∉ lost) :
    c.locksBut lost i = (c.values i).datasetLock := if_neg hi

theorem locksBut_some {i : Fin n} {t : τ} (h : c.locksBut lost i = some t) :
    i ∉ lost ∧ (c.values i).datasetLock = some t := by
  unfold locksBut at h
  split at h
  · cases h
  · exact ⟨‹_›, h⟩

theorem locksBut_congr {c' : FlatLruCache τ n}
    (h : ∀ i, (c'.values i).datasetLock = (c.values i).datasetLock) :
    c'.locksBut lost = c.locksBut lost := by
  funext i
  rw [locksBut, locksBut, h i]

theorem locksBut_setValue {i : Fin n} (hi : i ∉ lost) (ld : LockedDataset τ) (j : Fin n) (t : τ) :
    (c.setValue i ld).locksBut lost j = some t ↔
      j = i ∧ ld.datasetLock = some t ∨ j ≠ i ∧ c.locksBut lost j = some t := by
  by_cases hj : j = i
  · subst hj
    simp [locksBut, hi]
  · simp [locksBut, setValue_of_ne _ _ hj, hj]

theorem locksBut_cons {b : Fin n} (hb : (c.values b).datasetLock = none) (hlost : b ∉ lost)
    (ld : LockedDataset τ) :
    (c.setValue b ld).locksBut (lost.cons b hlost) = c.locksBut lost := by
  funext j
  by_cases hj : j = b
  · subst hj
    simp [locksBut, hb]
  · simp [locksBut, setValue_of_ne _ _ hj, hj]

end FlatLruCache

namespace Service

/-- Each slot of `lost` is locked by the thread whose insert failed on it, `losers` lists
these threads, and every other lock is that of an operation, which gives it back. -/
structure Lost (s : Service τ L n) (lost : Finset (Fin n)) (losers : List τ) : Prop where
  count : losers.length = s.gdal.failures
  owners : lost.val.map (fun i ↦ (s.cache.values i).datasetLock) = ↑(losers.map some)
  others : ∀ t, Keeps (s.cache.locksBut lost) t (s.threads t).pc.job

-- the thread whose insert has just asked GDAL in vain
def noteLoser (losers : List τ) (s : Service τ L n) (e : ServiceEvent τ) (s' : Service τ L n) :
    List τ :=
  match e with
  | .insert t _ => if s.gdal.failures < s'.gdal.failures then t :: losers else losers
  | _ => losers

theorem noteLoser_same {losers : List τ} {s s' : Service τ L n} {e : ServiceEvent τ}
    (h : s'.gdal.failures = s.gdal.failures) : noteLoser losers s e s' = losers := by
  unfold noteLoser
  split
  · exact if_neg h.le.not_gt
  · rfl

/-- The slots `lost` are still locked by the same thread and have the same dataset. -/
def Stays (c c' : FlatLruCache τ n) (lost : Finset (Fin n)) : Prop :=
  ∀ i ∈ lost, (c'.values i).datasetLock = (c.values i).datasetLock ∧ SameDataset c c' i

theorem Stays.refl (c : FlatLruCache τ n) (lost : Finset (Fin n)) : Stays c c lost :=
  fun _ _ ↦ ⟨rfl, rfl, rfl, rfl, rfl⟩

theorem Stays.trans {c₁ c₂ c₃ : FlatLruCache τ n} {lost lost' : Finset (Fin n)}
    (hsub : lost ⊆ lost') (h : Stays c₁ c₂ lost) (h' : Stays c₂ c₃ lost') : Stays c₁ c₃ lost :=
  fun i hi ↦ ⟨(h' i (hsub hi)).1.trans (h i hi).1, (h i hi).2.trans (h' i (hsub hi)).2⟩

theorem stays_of_locks {c c' : FlatLruCache τ n} (lost : Finset (Fin n))
    (hlocks : ∀ i, (c'.values i).datasetLock = (c.values i).datasetLock)
    (hsame : ∀ i, SameDataset c c' i) : Stays c c' lost := fun i _ ↦ ⟨hlocks i, hsame i⟩

theorem owners_congr {c c' : FlatLruCache τ n} {lost : Finset (Fin n)}
    (h : ∀ i ∈ lost, (c'.values i).datasetLock = (c.values i).datasetLock) :
    lost.val.map (fun i ↦ (c'.values i).datasetLock) =
      lost.val.map fun i ↦ (c.values i).datasetLock :=
  Multiset.map_congr rfl h

theorem Lost.card {s : Service τ L n} {lost : Finset (Fin n)} {losers : List τ}
    (hs : s.Lost lost losers) : lost.card = losers.length := by
  have hcard := congrArg Multiset.card hs.owners
  rwa [Multiset.card_map, Multiset.coe_card, List.length_map] at hcard

theorem Lost.locked {s : Service τ L n} {lost : Finset (Fin n)} {losers : List τ}
    (hs : s.Lost lost losers) {i : Fin n} (hi : i ∈ lost) :
    (s.cache.values i).datasetLock ≠ none := by
  have howner := Multiset.mem_map_of_mem (fun i ↦ (s.cache.values i).datasetLock)
    (Finset.mem_val.mpr hi)
  rw [hs.owners, Multiset.mem_coe] at howner
  obtain ⟨t, -, ht⟩ := List.mem_map.mp howner
  rw [← ht]
  exact Option.some_ne_none t

theorem Lost.not_mem {s : Service τ L n} {lost : Finset (Fin n)} {losers : List τ}
    (hs : s.Lost lost losers) {i : Fin n} (hi : (s.cache.values i).datasetLock = none) :
    i ∉ lost :=
  fun hmem ↦ hs.locked hmem hi

theorem Lost.locked_iff {s : Service τ L n} {lost : Finset (Fin n)} {losers : List τ}
    (hs : s.Lost lost losers) (hq : s.Quiescent) (i : Fin n) :
    (s.cache.values i).datasetLock ≠ none ↔ i ∈ lost := by
  refine ⟨fun hlock ↦ by_contra fun hi ↦ ?_, hs.locked⟩
  obtain ⟨t, ht⟩ := Option.ne_none_iff_exists'.mp hlock
  have hnone := hs.others t
  rw [Pc.job_of_settled (hq t)] at hnone
  exact hnone i ((locksBut_of_notMem hi).trans ht)

variable [DecidableEq τ]

theorem Lost.put {s : Service τ L n} {lost lost' : Finset (Fin n)} {losers losers' : List τ}
    (hs : s.Lost lost losers) {t : τ} {tok : L.State} {c : FlatLruCache τ n} {g : Gdal}
    {wr : Option τ} {th : Thread n} (hcount : losers'.length = g.failures)
    (howners : lost'.val.map (fun i ↦ (c.values i).datasetLock) = ↑(losers'.map some))
    (hother : ∀ u ≠ t, ∀ j, c.locksBut lost' j = some u ↔ s.cache.locksBut lost j = some u)
    (hself : Keeps (c.locksBut lost') t th.pc.job) :
    ((⟨tok, c, g, wr, s.threads, s.aborted⟩ : Service τ L n).put t th).Lost lost' losers' :=
  ⟨hcount, howners, forall_put (P := fun u th ↦ Keeps (c.locksBut lost') u th.pc.job) hself
    fun u hu ↦ (hs.others u).congr (hother u hu)⟩

theorem Lost.still {s : Service τ L n} {lost lost' : Finset (Fin n)} {losers losers' : List τ}
    (hs : s.Lost lost losers) {t : τ} {tok : L.State} {c : FlatLruCache τ n} {g : Gdal}
    {wr : Option τ} {th : Thread n} (hcount : losers'.length = g.failures)
    (howners : lost'.val.map (fun i ↦ (c.values i).datasetLock) = ↑(losers'.map some))
    (hsame : c.locksBut lost' = s.cache.locksBut lost) (hold : (s.threads t).pc.job = none)
    (hnew : th.pc.job = none) :
    ((⟨tok, c, g, wr, s.threads, s.aborted⟩ : Service τ L n).put t th).Lost lost' losers' := by
  refine hs.put hcount howners (fun u _ j ↦ by rw [hsame]) ?_
  have ht := hs.others t
  rw [hold] at ht
  rw [hnew, hsame]
  exact ht

theorem Lost.sameLocks {s : Service τ L n} {lost : Finset (Fin n)} {losers : List τ}
    (hs : s.Lost lost losers) {t : τ} {tok : L.State} {c : FlatLruCache τ n} {g : Gdal}
    {wr : Option τ} {th : Thread n} (hcount : losers.length = g.failures)
    (hlocks : ∀ i, (c.values i).datasetLock = (s.cache.values i).datasetLock)
    (hold : (s.threads t).pc.job = none) (hnew : th.pc.job = none) :
    ((⟨tok, c, g, wr, s.threads, s.aborted⟩ : Service τ L n).put t th).Lost lost losers :=
  hs.still hcount ((owners_congr fun i _ ↦ hlocks i).trans hs.owners) (locksBut_congr hlocks) hold
    hnew

theorem Lost.work {s : Service τ L n} {lost : Finset (Fin n)} {losers : List τ}
    (hs : s.Lost lost losers) {t : τ} {f : Frame} {i : Fin n} {rest : List (Fin n)}
    {p : Task (ℤ × Option ℤ)} (hpc : (s.threads t).pc = .running f i rest (.ready p)) :
    (s.work t f i rest p).Lost lost losers ∧ Stays s.cache (s.work t f i rest p).cache lost := by
  obtain ⟨held, hp, hown⟩ : Keeps (s.cache.locksBut lost) t (some (i, .ready p)) := by
    have ht := hs.others t
    rw [hpc] at ht
    exact ht
  have hset {ld : LockedDataset τ} (hi : i ∉ lost) {j : Fin n} (hj : j ∈ lost) :
      (s.cache.setValue i ld).values j = s.cache.values j :=
    setValue_of_ne _ _ fun hx ↦ hi (hx ▸ hj)
  have howners {ld : LockedDataset τ} (hi : i ∉ lost) :
      lost.val.map (fun j ↦ ((s.cache.setValue i ld).values j).datasetLock) =
        ↑(losers.map some) := by
    rw [← hs.owners]
    exact owners_congr fun j hj ↦ congrArg _ (hset hi hj)
  have hstays {ld : LockedDataset τ} (hi : i ∉ lost) :
      Stays s.cache (s.cache.setValue i ld) lost := by
    intro j hj
    have hsame : (s.cache.setValue i ld).values j = s.cache.values j := hset hi hj
    exact ⟨by rw [hsame], rfl, by rw [hsame], by rw [hsame], by rw [hsame]⟩
  cases p with
  | ret r =>
    obtain rfl : held = false := hp
    refine ⟨hs.put hs.count hs.owners (fun _ _ _ ↦ Iff.rfl) fun j hj ↦ ?_, .refl _ _⟩
    exact absurd ((hown j).mp hj).1 Bool.false_ne_true
  | tryLock k =>
    obtain ⟨rfl, htaken, hmissed⟩ := hp
    rw [Service.work]
    split
    case isTrue hfree =>
      have hi := hs.not_mem hfree
      have hmine {j : Fin n} : s.cache.locksBut lost j ≠ some t :=
        fun hx ↦ absurd ((hown j).mp hx).1 Bool.false_ne_true
      refine ⟨hs.put hs.count (howners hi) (fun u hu j ↦ ?_) ⟨true, htaken, fun j ↦ ?_⟩, hstays hi⟩
      · rw [locksBut_setValue hi]
        by_cases hj : j = i
        · subst hj
          simp [locksBut, hfree, LockedDataset.lock, hu.symm]
        · simp [hj]
      · rw [locksBut_setValue hi]
        simp [hmine, LockedDataset.lock]
    case isFalse =>
      exact ⟨hs.put hs.count hs.owners (fun _ _ _ ↦ Iff.rfl) ⟨false, hmissed, hown⟩, .refl _ _⟩
  | unlock k =>
    obtain ⟨rfl, hk⟩ := hp
    obtain ⟨hi, hmine⟩ := locksBut_some ((hown i).mpr ⟨rfl, rfl⟩)
    have hnone : ((s.cache.values i).unlock t).datasetLock = none := by
      simp [LockedDataset.unlock, hmine]
    refine ⟨hs.put hs.count (howners hi) (fun u hu j ↦ ?_) ⟨false, hk, fun j ↦ ?_⟩, hstays hi⟩
    · rw [locksBut_setValue hi, hnone]
      by_cases hj : j = i
      · subst hj
        simp [locksBut, hmine, hu.symm]
      · simp [hj]
    · rw [locksBut_setValue hi, hnone]
      have hothers : j ≠ i → s.cache.locksBut lost j ≠ some t :=
        fun hj hx ↦ hj ((hown j).mp hx).2
      simpa using hothers
  | call c k =>
    exact ⟨hs.put hs.count hs.owners (fun _ _ _ ↦ Iff.rfl) ⟨held, hp, hown⟩, .refl _ _⟩

theorem Lost.insert {h : StringHash} {s : Service τ L n} {lost : Finset (Fin n)}
    {losers : List τ} (hs : s.Lost lost losers) {t : τ} {o : Opener} {f : Frame}
    {found : List (Fin n)} {left : ℕ} {r : Got τ n}
    (hpc : (s.threads t).pc = .inserting f found (left + 1))
    (hr : insertOne t (hashUriOptions h f.pair) f.pair o ⟨found, s.cache, s.gdal⟩ = some r)
    {s' : Service τ L n}
    (hs' : s' = { s with cache := r.cache, gdal := r.gdal }.put t
      ⟨.inserting f r.list left, r.list⟩) :
    ∃ lost', lost ⊆ lost' ∧ s'.Lost lost' (noteLoser losers s (.insert t o) s') ∧
      Stays s.cache s'.cache lost := by
  have hjob : (s.threads t).pc.job = none := by rw [hpc]; rfl
  rcases insertOne_some hr with ⟨-, rfl⟩ | ⟨b, hb, ⟨ho, rfl⟩ | ⟨ho, rfl⟩⟩
  · have hgdal : s'.gdal = s.gdal := by rw [hs']; rfl
    rw [noteLoser_same (congrArg Gdal.failures hgdal)]
    subst hs'
    refine ⟨lost, Finset.Subset.refl _, ?_, .refl _ _⟩
    exact hs.sameLocks hs.count (fun _ ↦ rfl) hjob rfl
  · have hfree : b ∉ lost := hs.not_mem hb.datasetLock
    have hkept {i : Fin n} (hi : i ∈ lost) :
        (s.cache.setValue b ((s.cache.values b).lock t)).values i = s.cache.values i :=
      setValue_of_ne _ _ fun hx ↦ hfree (hx ▸ hi)
    have hfailures : s'.gdal.failures = s.gdal.failures + 1 := by
      rw [hs']
      show (s.gdal.after f.pair (LockedDataset.outcome o f.pair)).failures = _
      rw [Gdal.failures_after, ho]
      rfl
    have hnote : noteLoser losers s (.insert t o) s' = t :: losers :=
      if_pos (hfailures ▸ Nat.lt_succ_self _)
    refine ⟨lost.cons b hfree, Finset.subset_cons hfree, ?_, fun i hi ↦ ?_⟩
    · rw [hnote]
      subst hs'
      refine hs.still ?_ ?_ (locksBut_cons hb.datasetLock hfree _) hjob rfl
      · rw [List.length_cons, hs.count]
        exact hfailures.symm
      · have howners := (owners_congr fun i hi ↦ congrArg _ (hkept hi)).trans hs.owners
        rw [Finset.cons_val, Multiset.map_cons, howners, setValue_self]
        rfl
    · subst hs'
      refine ⟨congrArg _ (hkept hi), ?_⟩
      exact sameDataset_setValue s.cache b ((s.cache.values b).lock t) rfl rfl rfl i
  · have hlocks (i : Fin n) :
        ((s.cache.filled b (hashUriOptions h f.pair) f.pair s.gdal.issued).values i).datasetLock =
          (s.cache.values i).datasetLock := by
      by_cases hi : i = b
      · subst hi
        rw [filled_values_self, hb.datasetLock]
      · rw [filled_values_of_ne _ _ _ _ hi]
    have hfailures : s'.gdal.failures = s.gdal.failures := by
      rw [hs']
      show Gdal.failures ((s.cache.values b).close _).2 = _
      rw [Gdal.failures, Gdal.failures, LockedDataset.close_opens]
      simp [Gdal.after, ho]
    rw [noteLoser_same hfailures]
    subst hs'
    refine ⟨lost, Finset.Subset.refl _, ?_, fun i hi ↦ ⟨hlocks i, ?_⟩⟩
    · exact hs.sameLocks (hs.count.trans hfailures.symm) hlocks hjob rfl
    · have hne : i ≠ b := fun hx ↦ hs.not_mem hb.datasetLock (hx ▸ hi)
      exact sameDataset_filled s.cache (hashUriOptions h f.pair) f.pair s.gdal.issued hne

theorem Lost.effect {h : StringHash} {s s' : Service τ L n} {e : ServiceEvent τ}
    {lost : Finset (Fin n)} {losers : List τ} (hs : s.Lost lost losers) (he : Effect h s e s') :
    ∃ lost', lost ⊆ lost' ∧ s'.Lost lost' (noteLoser losers s e s') ∧
      Stays s.cache s'.cache lost := by
  have hsame {s' : Service τ L n} (hgdal : s'.gdal = s.gdal) (hlost : s'.Lost lost losers)
      (hstays : Stays s.cache s'.cache lost) :
      ∃ lost', lost ⊆ lost' ∧ s'.Lost lost' (noteLoser losers s e s') ∧
        Stays s.cache s'.cache lost := by
    refine ⟨lost, Finset.Subset.refl _, ?_, hstays⟩
    rw [noteLoser_same (congrArg Gdal.failures hgdal)]
    exact hlost
  cases he with
  | tokens e tok => exact hsame rfl ⟨hs.count, hs.owners, hs.others⟩ (.refl _ _)
  | quiet e t tok wr pc hq =>
    exact hsame rfl (hs.sameLocks hs.count (fun _ ↦ rfl) hq.job hq.job') (.refl _ _)
  | find e t f hpc =>
    have hlocks (i : Fin n) :
        ((s.cache.find (hashUriOptions h f.pair) f.pair).2.values i).datasetLock =
          (s.cache.values i).datasetLock := by
      rw [find_eq]
      exact foldl_touch_field LockedDataset.datasetLock (fun _ ↦ rfl) ..
    obtain ⟨-, -, -, hjob⟩ := Pc.scanned_spec f (s.cache.find (hashUriOptions h f.pair) f.pair).1
    exact hsame rfl (hs.sameLocks hs.count hlocks (by rw [hpc]; rfl) hjob)
      (stays_of_locks lost hlocks fun i ↦ sameDataset_find ..)
  | insert t o f found left r hpc hr => exact hs.insert hpc hr rfl
  | begin e t f i rest l hpc =>
    have ht := hs.others t
    rw [hpc] at ht
    refine hsame rfl (hs.put hs.count hs.owners (fun _ _ _ ↦ Iff.rfl)
      ⟨false, task_balanced f.call.op, fun j ↦ ?_⟩) (.refl _ _)
    exact iff_of_false (ht j) fun hx ↦ Bool.false_ne_true hx.1
  | work e t f i rest p hpc =>
    exact hsame (work_gdal s t f i rest p) (hs.work hpc).1 (hs.work hpc).2
  | answer e t f i rest c k r hpc =>
    have ht := hs.others t
    rw [hpc] at ht
    obtain ⟨held, hk, hown⟩ := ht
    exact hsame rfl (hs.put hs.count hs.owners (fun _ _ _ ↦ Iff.rfl) ⟨held, hk r, hown⟩)
      (.refl _ _)
  | dec e t f i rest l hpc =>
    have hlocks := setValue_field LockedDataset.datasetLock s.cache
      (show (s.cache.values i).dec.datasetLock = _ from rfl)
    exact hsame rfl (hs.sameLocks hs.count hlocks (by rw [hpc]; rfl) rfl)
      (stays_of_locks lost hlocks fun j ↦
        sameDataset_setValue s.cache i (s.cache.values i).dec rfl rfl rfl j)

theorem init_lost {h : StringHash} {size : ℕ} : (machine h τ L size n).init.Lost ∅ [] where
  count := rfl
  owners := rfl
  others t j hj := by
    obtain ⟨-, hlock⟩ := locksBut_some hj
    cases hlock

theorem run_lost {h : StringHash} {size : ℕ} {es : List (ServiceEvent τ)} {s : Service τ L n}
    (hrun : (machine h τ L size n).run (machine h τ L size n).init es = some s) :
    ∃ lost, s.Lost lost
      ((machine h τ L size n).record noteLoser (machine h τ L size n).init [] es) := by
  refine Machine.run_record (M := machine h τ L size n)
    (I := fun s losers ↦ ∃ lost, s.Lost lost losers) ?_ ⟨∅, init_lost⟩ hrun
  rintro s e s' losers ⟨lost, hs⟩ hstep
  obtain ⟨lost', -, hs', -⟩ := hs.effect (step_effect hstep)
  exact ⟨lost', hs'⟩

theorem Lost.gdal_eq {h : StringHash} {s s' : Service τ L n} {e : ServiceEvent τ}
    {lost : Finset (Fin n)} {losers : List τ} (hs : s.Lost lost losers) (hall : ∀ i, i ∈ lost)
    (he : Effect h s e s') : s'.gdal = s.gdal := by
  cases he with
  | insert t o f found left r hpc hr =>
    rcases insertOne_some hr with ⟨-, rfl⟩ | ⟨b, hb, -⟩
    · rfl
    · exact absurd hb.datasetLock (hs.locked (hall b))
  | work e t f i rest p hpc => exact work_gdal s t f i rest p
  | _ => rfl

theorem Lost.run {h : StringHash} {size : ℕ} {es : List (ServiceEvent τ)} {s s' : Service τ L n}
    {lost : Finset (Fin n)} {losers : List τ} (hs : s.Lost lost losers)
    (hrun : (machine h τ L size n).run s es = some s') :
    Stays s.cache s'.cache lost ∧ ((∀ i, i ∈ lost) → s'.gdal = s.gdal) := by
  have hlast : (∃ lost' losers', lost ⊆ lost' ∧ s'.Lost lost' losers') ∧
      Stays s.cache s'.cache lost ∧ ((∀ i, i ∈ lost) → s'.gdal = s.gdal) := by
    refine Machine.run_invariant (M := machine h τ L size n)
      (I := fun x ↦ (∃ lost' losers', lost ⊆ lost' ∧ x.Lost lost' losers') ∧
        Stays s.cache x.cache lost ∧ ((∀ i, i ∈ lost) → x.gdal = s.gdal)) ?_
      ⟨⟨lost, losers, Finset.Subset.refl _, hs⟩, .refl _ _, fun _ ↦ rfl⟩ hrun
    rintro x e x' ⟨⟨lost', losers', hsub, hx⟩, hstays, hgdal⟩ hstep
    have he := step_effect hstep
    obtain ⟨lost'', hsub', hx', hstays'⟩ := hx.effect he
    refine ⟨⟨lost'', _, hsub.trans hsub', hx'⟩, hstays.trans hsub hstays', fun hall ↦ ?_⟩
    exact (hx.gdal_eq (fun i ↦ hsub (hall i)) he).trans (hgdal hall)
  exact hlast.2

/-- In any run of any number of threads, each open that came to nothing has cost the cache
one slot: it stays locked by the thread that failed and keeps the dataset it had. Between
the calls no other slot is locked. There are never more such opens than slots, and after as
many nothing is ever opened or closed again. -/
theorem failed_opens_cost_slots {h : StringHash} {size : ℕ} {es : List (ServiceEvent τ)}
    {s : Service τ L n}
    (hrun : (machine h τ L size n).run (machine h τ L size n).init es = some s) {losers : List τ}
    (hlosers : (machine h τ L size n).record noteLoser (machine h τ L size n).init [] es =
      losers) :
    losers.length = s.gdal.failures ∧ losers.length ≤ n ∧ ∃ lost : Finset (Fin n),
      lost.val.map (fun i ↦ (s.cache.values i).datasetLock) = ↑(losers.map some) ∧
      (s.Quiescent → ∀ i, (s.cache.values i).datasetLock ≠ none ↔ i ∈ lost) ∧
      ∀ es' s', (machine h τ L size n).run s es' = some s' →
        Stays s.cache s'.cache lost ∧ (losers.length = n → s'.gdal = s.gdal) := by
  obtain ⟨lost, hlost⟩ := run_lost hrun
  rw [hlosers] at hlost
  refine ⟨hlost.count, hlost.card ▸ card_finset_fin_le lost, lost, hlost.owners,
    hlost.locked_iff, fun es' s' hrun' ↦ ?_⟩
  obtain ⟨hstays, hgdal⟩ := hlost.run hrun'
  refine ⟨hstays, fun hfull ↦ hgdal fun i ↦ ?_⟩
  have hall : lost = Finset.univ := by
    rw [← Finset.card_eq_iff_eq_univ, hlost.card, hfull, Fintype.card_fin]
  exact hall ▸ Finset.mem_univ i

theorem failed_opens_cost_slots_bad_uri :
    ∃ s, (machine lengthHash Unit (.ofList Token UriOptions) 4 1).run
        (machine lengthHash Unit (.ofList Token UriOptions) 4 1).init badUriRun = some s ∧
      (∃ i, (s.cache.values i).datasetLock = some ()) ∧
      ∀ es s', (machine lengthHash Unit (.ofList Token UriOptions) 4 1).run s es = some s' →
        s'.gdal = s.gdal := by
  have hrun : (machine lengthHash Unit (.ofList Token UriOptions) 4 1).run
      (machine lengthHash Unit (.ofList Token UriOptions) 4 1).init badUriRun = some _ := rfl
  have hlosers : (machine lengthHash Unit (.ofList Token UriOptions) 4 1).record noteLoser
      (machine lengthHash Unit (.ofList Token UriOptions) 4 1).init [] badUriRun = [()] := by decide
  obtain ⟨-, -, lost, howners, -, hlater⟩ := failed_opens_cost_slots hrun hlosers
  have howner : some () ∈ (([()] : List Unit).map some : Multiset (Option Unit)) :=
    List.mem_cons_self
  rw [← howners] at howner
  obtain ⟨i, -, hi⟩ := Multiset.mem_map.mp howner
  exact ⟨_, hrun, ⟨i, hi⟩, fun es s' hes ↦ (hlater es s' hes).2 rfl⟩

end Service

end GdalWarp.Bindings
