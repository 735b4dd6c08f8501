import GdalWarp.Foundation.Machine
import GdalWarp.Bindings.Service

namespace GdalWarp.Bindings

open Foundation FlatLruCache

variable {τ : Type} {L : LruCache} {n : ℕ} {h h' : StringHash}

namespace FlatLruCache

def withTags (c : FlatLruCache τ n) (tags : Fin n → UInt64) : FlatLruCache τ n :=
  { c with tags := tags }

/-- The slots have the tags that the hash gives them, and would have these others with
another hash. A slot that was never filled has the tag 0 in either case. -/
def Retagged (h h' : StringHash) (c : FlatLruCache τ n) (tags : Fin n → UInt64) : Prop :=
  ∀ i, (c.values i).uriOptions = ("", []) ∧ c.tags i = 0 ∧ tags i = 0 ∨
    c.tags i = hashUriOptions h (c.values i).uriOptions ∧
      tags i = hashUriOptions h' (c.values i).uriOptions

variable {c c' : FlatLruCache τ n} {tags : Fin n → UInt64}

theorem Retagged.same (hc : Retagged h h' c tags) (htags : c'.tags = c.tags)
    (hkeys : ∀ i, (c'.values i).uriOptions = (c.values i).uriOptions) :
    Retagged h h' c' tags := by
  intro i
  rw [htags, hkeys]
  exact hc i

theorem hashUriOptions_empty (h : StringHash) : hashUriOptions h ("", []) = h "" := by
  simp [hashUriOptions, hashOptions]

theorem Retagged.hit (hempty : h "" ≠ 0) (hempty' : h' "" ≠ 0) (hc : Retagged h h' c tags)
    (key : UriOptions) :
    (c.withTags tags).hit (hashUriOptions h' key) key = c.hit (hashUriOptions h key) key := by
  funext i
  by_cases hkey : (c.values i).uriOptions = key
  · subst hkey
    rcases hc i with ⟨hblank, htag, htag'⟩ | ⟨htag, htag'⟩
    · simp [FlatLruCache.hit, withTags, htag, htag', hblank, hashUriOptions_empty, hempty.symm,
        hempty'.symm]
    · simp [FlatLruCache.hit, withTags, htag, htag']
  · have hother : ((c.values i).uriOptions == key) = false := beq_eq_false_iff_ne.mpr hkey
    simp [FlatLruCache.hit, withTags, hother]

theorem foldl_touch_withTags (l : List (Fin n)) :
    l.foldl touch (c.withTags tags) = (l.foldl touch c).withTags tags := by
  induction l generalizing c with
  | nil => rfl
  | cons i l ih => exact ih (c := c.touch i)

theorem Retagged.find (hempty : h "" ≠ 0) (hempty' : h' "" ≠ 0) (hc : Retagged h h' c tags)
    (key : UriOptions) : (c.withTags tags).find (hashUriOptions h' key) key =
      ((c.find (hashUriOptions h key) key).1,
        (c.find (hashUriOptions h key) key).2.withTags tags) := by
  rw [find_eq, find_eq, hc.hit hempty hempty', foldl_touch_withTags]

theorem Retagged.found (hc : Retagged h h' c tags) (tag : UInt64) (key : UriOptions) :
    Retagged h h' (c.find tag key).2 tags := by
  rw [find_eq]
  exact hc.same (foldl_touch_tags ..)
    fun i ↦ foldl_touch_field LockedDataset.uriOptions (fun _ ↦ rfl) ..

theorem Retagged.setValue (hc : Retagged h h' c tags) {i : Fin n} {ld : LockedDataset τ}
    (hkey : ld.uriOptions = (c.values i).uriOptions) : Retagged h h' (c.setValue i ld) tags :=
  hc.same rfl (setValue_field LockedDataset.uriOptions c hkey)

theorem Retagged.filled (hc : Retagged h h' c tags) (b : Fin n) (key : UriOptions)
    (d : DatasetH) : Retagged h h' (c.filled b (hashUriOptions h key) key d)
      (Function.update tags b (hashUriOptions h' key)) := by
  intro i
  by_cases hi : i = b
  · subst hi
    rw [filled_values_self, filled_tags_self, Function.update_self]
    exact Or.inr ⟨rfl, rfl⟩
  · have htag : (c.filled b (hashUriOptions h key) key d).tags i = c.tags i :=
      Function.update_of_ne hi ..
    rw [filled_values_of_ne _ _ _ _ hi, htag, Function.update_of_ne hi]
    exact hc i

variable [DecidableEq τ]

theorem Retagged.insertOne (hc : Retagged h h' c tags) {t : τ} {key : UriOptions} {o : Opener}
    {list : List (Fin n)} {g : Gdal} {r : Got τ n}
    (hr : insertOne t (hashUriOptions h key) key o ⟨list, c, g⟩ = some r) :
    ∃ tags', insertOne t (hashUriOptions h' key) key o ⟨list, c.withTags tags, g⟩ =
        some ⟨r.list, r.cache.withTags tags', r.gdal⟩ ∧ Retagged h h' r.cache tags' := by
  rcases insertOne_cases t (hashUriOptions h' key) key o ⟨list, c.withTags tags, g⟩ with
    ⟨hnone', heq⟩ | ⟨b', hb', hcases⟩
  · rcases insertOne_some hr with ⟨-, rfl⟩ | ⟨b, hb, -⟩
    · exact ⟨tags, heq, hc⟩
    · exact absurd hb.evictable (hnone' b)
  · rcases insertOne_some hr with ⟨hnone, -⟩ | ⟨b, hb, hrs⟩
    · exact absurd hb'.evictable (hnone b')
    · have hsame : c.Candidate b' := ⟨hb'.evictable, hb'.least⟩
      obtain rfl := hsame.unique hb
      rcases hcases with ⟨ho, heq⟩ | ⟨ho, heq⟩
      · rcases hrs with ⟨-, rfl⟩ | ⟨ho', -⟩
        · exact ⟨tags, heq, hc.setValue rfl⟩
        · rw [ho] at ho'
          cases ho'
      · rcases hrs with ⟨ho', -⟩ | ⟨-, rfl⟩
        · rw [ho] at ho'
          cases ho'
        · exact ⟨_, heq, hc.filled b' key g.issued⟩

end FlatLruCache

namespace Service

def withTags (s : Service τ L n) (tags : Fin n → UInt64) : Service τ L n :=
  { s with cache := s.cache.withTags tags }

variable [DecidableEq τ]

theorem work_withTags (s : Service τ L n) (tags : Fin n → UInt64) (t : τ) (f : Frame) (i : Fin n)
    (rest : List (Fin n)) (p : Task (ℤ × Option ℤ)) :
    (s.withTags tags).work t f i rest p = (s.work t f i rest p).withTags tags := by
  cases p with
  | tryLock k =>
    show (if (s.cache.values i).datasetLock = none then _ else _) = _
    rw [Service.work]
    split <;> rfl
  | ret a | unlock k | call c k => rfl

theorem retagged_work {s : Service τ L n} {tags : Fin n → UInt64}
    (hs : Retagged h h' s.cache tags) (t : τ) (f : Frame) (i : Fin n) (rest : List (Fin n))
    (p : Task (ℤ × Option ℤ)) : Retagged h h' (s.work t f i rest p).cache tags := by
  cases p with
  | tryLock k =>
    rw [Service.work]
    split
    · exact hs.setValue rfl
    · exact hs
  | unlock k =>
    refine hs.setValue ?_
    unfold LockedDataset.unlock
    split <;> rfl
  | ret a | call c k => exact hs

/-- With another hash the library takes the same step. -/
theorem step_withTags (hempty : h "" ≠ 0) (hempty' : h' "" ≠ 0) {s s' : Service τ L n}
    {e : ServiceEvent τ} {tags : Fin n → UInt64} (hs : Retagged h h' s.cache tags)
    (hstep : s.step h e = some s') :
    ∃ tags', (s.withTags tags).step h' e = some (s'.withTags tags') ∧
      Retagged h h' s'.cache tags' := by
  have hthreads : (s.withTags tags).threads = s.threads := rfl
  have hwriter : (s.withTags tags).writer = s.writer := rfl
  have htokens : (s.withTags tags).tokens = s.tokens := rfl
  cases e with
  | getToken pair draws =>
    obtain ⟨r, hr, rfl⟩ := Option.map_eq_some_iff.mp hstep
    refine ⟨tags, ?_, hs⟩
    rw [step, htokens, hr]
    rfl
  | round t now =>
    simp only [step] at hstep
    split at hstep
    case h_1 f hpc =>
      split at hstep
      case isTrue htime =>
        cases hstep
        refine ⟨tags, ?_, hs⟩
        simp only [step, hthreads, hpc, htime, if_true]
        rfl
      case isFalse htime =>
        split at hstep
        case isTrue hfree =>
          cases hstep
          refine ⟨tags, ?_, hs.found _ _⟩
          have hfind : (s.withTags tags).cache.find (hashUriOptions h' f.pair) f.pair = _ :=
            hs.find hempty hempty' f.pair
          simp only [step, hthreads, hpc, htime, hwriter, hfree, if_true, hfind]
          rfl
        case isFalse => cases hstep
    case h_2 => cases hstep
  | insert t o =>
    simp only [step] at hstep
    split at hstep
    case h_1 f found left hpc =>
      obtain ⟨r, hr⟩ := insertOne_isSome t (hashUriOptions h f.pair) f.pair o
        ⟨found, s.cache, s.gdal⟩
      obtain ⟨tags', hr', htags'⟩ := hs.insertOne hr
      rw [hr] at hstep
      cases hstep
      refine ⟨tags', ?_, htags'⟩
      have hsame : insertOne t (hashUriOptions h' f.pair) f.pair o
          ⟨found, (s.withTags tags).cache, (s.withTags tags).gdal⟩ = _ := hr'
      simp only [step, hthreads, hpc, hsame]
      rfl
    case h_2 => cases hstep
  | attempt t =>
    simp only [step] at hstep
    split at hstep
    case h_1 f i rest l hpc =>
      split at hstep
      case isTrue hdone | isFalse hdone =>
        cases hstep
        refine ⟨tags, ?_, hs⟩
        simp only [step, hthreads, hpc, hdone]
        rfl
    case h_2 => cases hstep
  | lockCache t =>
    simp only [step] at hstep
    split at hstep
    case h_1 f found request hpc =>
      split at hstep
      case isTrue hfree =>
        cases hstep
        refine ⟨tags, ?_, hs⟩
        simp only [step, hthreads, hpc, hwriter, hfree, if_true]
        rfl
      case isFalse => cases hstep
    case h_2 => cases hstep
  | query t now =>
    simp only [step] at hstep
    split at hstep
    case h_1 c hpc =>
      split at hstep
      case h_1 hpair | h_2 hpair =>
        cases hstep
        refine ⟨tags, ?_, hs⟩
        simp only [step, hthreads, hpc, htokens, hpair]
        rfl
    case h_2 => cases hstep
  | advance t =>
    simp only [step] at hstep
    split at hstep
    case h_1 f i rest p hpc =>
      cases hstep
      refine ⟨tags, ?_, retagged_work hs t f i rest p⟩
      simp only [step, hthreads, hpc, work_withTags]
    case h_2 => cases hstep
  | dec t =>
    simp only [step] at hstep
    split at hstep
    case h_1 f i rest l hpc =>
      cases hstep
      refine ⟨tags, ?_, hs.setValue rfl⟩
      simp only [step, hthreads, hpc]
      rfl
    case h_2 => cases hstep
  | call t c | giveUp t | unlockCache t | answer t reply | next t | finish t =>
    simp only [step] at hstep
    split at hstep
    case h_1 hpc =>
      cases hstep
      refine ⟨tags, ?_, hs⟩
      simp only [step, hthreads, hpc]
      rfl
    case h_2 => cases hstep

theorem withTags_lockstep (hempty : h "" ≠ 0) (hempty' : h' "" ≠ 0) (size : ℕ) :
    (machine h τ L size n).Lockstep (machine h' τ L size n) fun s u ↦
      ∃ tags, u = s.withTags tags ∧ Retagged h h' s.cache tags where
  init := ⟨fun _ ↦ 0, rfl, fun _ ↦ Or.inl ⟨rfl, rfl, rfl⟩⟩
  step := by
    rintro s e s' _ ⟨tags, rfl, hs⟩ hstep
    obtain ⟨tags', hstep', hs'⟩ := step_withTags hempty hempty' hs hstep
    exact ⟨_, hstep', tags', rfl, hs'⟩

/-- The hash is only there for speed: with any other one the same run of any number of
threads is possible and ends in the same state, but for the tags. The hash of the empty
string may be anything but zero, the tag of the slots that were never filled. -/
theorem hash_changes_tags_only (hempty : h "" ≠ 0) (hempty' : h' "" ≠ 0) {size : ℕ}
    {es : List (ServiceEvent τ)} {s : Service τ L n}
    (hrun : (machine h τ L size n).run (machine h τ L size n).init es = some s) :
    ∃ tags, (machine h' τ L size n).run (machine h' τ L size n).init es =
      some (s.withTags tags) := by
  obtain ⟨_, hrun', tags, rfl, -⟩ := (withTags_lockstep hempty hempty' size).run hrun
  exact ⟨tags, hrun'⟩

def twoKeysRun : List (ServiceEvent Unit) :=
  [.getToken ("a.tif", []) [], .getToken ("b.tif", []) [5], .call () ⟨33, .noop, 1, 1, 0⟩,
    .query () 0, .round () 0, .lockCache (), .insert () (answering true true), .unlockCache (),
    .attempt (), .advance (), .advance (), .advance (), .dec (), .next (), .finish (),
    .call () ⟨5, .noop, 1, 1, 0⟩, .query () 0, .round () 0, .lockCache (),
    .insert () (answering true true), .unlockCache ()]

theorem hash_changes_tags_only_constant :
    ∃ (s : Service Unit (.ofList Token UriOptions) 2) (tags : Fin 2 → UInt64),
      (machine terminatedHash Unit (.ofList Token UriOptions) 4 2).run
        (machine terminatedHash Unit (.ofList Token UriOptions) 4 2).init twoKeysRun = some s ∧
      (machine (fun _ ↦ 7) Unit (.ofList Token UriOptions) 4 2).run
        (machine (fun _ ↦ 7) Unit (.ofList Token UriOptions) 4 2).init twoKeysRun =
        some (s.withTags tags) ∧ s.gdal.issued = 4 := by
  have hrun : (machine terminatedHash Unit (.ofList Token UriOptions) 4 2).run
      (machine terminatedHash Unit (.ofList Token UriOptions) 4 2).init twoKeysRun = some _ := rfl
  have hother : ∃ tags, (machine (fun _ ↦ 7) Unit (.ofList Token UriOptions) 4 2).run
      (machine (fun _ ↦ 7) Unit (.ofList Token UriOptions) 4 2).init twoKeysRun =
      some (withTags _ tags) := hash_changes_tags_only (by decide) (by decide) hrun
  obtain ⟨tags, hrun'⟩ := hother
  exact ⟨_, tags, hrun, hrun', by decide⟩

end Service

end GdalWarp.Bindings
