import GdalWarp.Foundation.Counting
import GdalWarp.Bindings.ConcurrentCopies

namespace GdalWarp.Bindings

open Foundation FlatLruCache
open scoped BigOperators

def Pc.owed {n : ℕ} (key : UriOptions) : Pc n → ℕ
  | .missing f _ request => if f.pair = key then request.missing else 0
  | .inserting f _ left => if f.pair = key then left else 0
  | _ => 0

theorem Pc.owed_of_not_wanting {n : ℕ} {key : UriOptions} {pc : Pc n} (h : pc.wanting = false) :
    pc.owed key = 0 := by
  cases pc <;> first | rfl | cases h

namespace Service

variable {τ : Type} {L : LruCache} {n : ℕ}

/-- Calls look for pairs of `K` only, and for at most `w` copies of each. -/
def AsksWithin (K : Finset UriOptions) (w : UriOptions → ℕ) (s : Service τ L n) :
    ServiceEvent τ → Prop
  | .round t _ => ∀ f, (s.threads t).pc = .round f → f.pair ∈ K ∧ f.call.copies.natAbs ≤ w f.pair
  | _ => True

theorem AsksWithin.asksAtMost {K : Finset UriOptions} {w : UriOptions → ℕ} {s : Service τ L n}
    {e : ServiceEvent τ} (h : AsksWithin K w s e) (key : UriOptions) :
    AsksAtMost key (w key) s e := by
  cases e with
  | round t now => exact fun f hpc hkey ↦ hkey ▸ (h f hpc).2
  | _ => trivial

variable [Fintype τ]

/-- The copies there are and those still owed, against `m` for each thread. -/
def Shared (h : StringHash) (key : UriOptions) (m : ℕ) (s : Service τ L n) : Prop :=
  Within m m (s.cache.count h key) fun t ↦ (s.threads t).pc.owed key

theorem Shared.count_le {h : StringHash} {key : UriOptions} {m : ℕ} {s : Service τ L n}
    (hs : Shared h key m s) : s.cache.count h key ≤ m * Fintype.card τ := by
  have hle := Within.stock_le hs
  omega

theorem Shared.apart {h : StringHash} {key : UriOptions} {m : ℕ} {s s' : Service τ L n}
    (hs : Shared h key m s) (hapart : Apart s s') : Shared h key m s' := by
  refine Within.mono hs (count_congr hapart.same).le fun u ↦ ?_
  rcases hapart.threads u with hpc | hth
  · exact (Pc.owed_of_not_wanting hpc).trans_le (Nat.zero_le _)
  · rw [hth]

variable [DecidableEq τ]

theorem Shared.put {h : StringHash} {key : UriOptions} {m : ℕ} {s : Service τ L n}
    (hs : Shared h key m s) {t : τ} {tok : L.State} {c : FlatLruCache τ n} {g : Gdal}
    {wr : Option τ} {th : Thread n}
    (hself : c.count h key + th.pc.owed key ≤
      s.cache.count h key + (s.threads t).pc.owed key ∨ c.count h key + th.pc.owed key ≤ m)
    (haim : th.pc.owed key ≤ m) :
    Shared h key m ((⟨tok, c, g, wr, s.threads, s.aborted⟩ : Service τ L n).put t th) := by
  apply Within.turn hs t
  · intro u hu
    rw [put_of_ne _ _ hu]
  · rw [put_self]
    exact hself
  · rw [put_self]
    exact haim

theorem Shared.scan {h : StringHash} {key : UriOptions} {m : ℕ} {s : Service τ L n}
    (hs : Shared h key m s) (t : τ) {f : Frame} (hpc : (s.threads t).pc = .round f)
    (hasks : f.pair = key → f.call.copies.natAbs ≤ m) :
    Shared h key m ({ s with cache := (s.cache.find (hashUriOptions h f.pair) f.pair).2 }.put t
      ⟨.scanned f (s.cache.find (hashUriOptions h f.pair) f.pair).1,
        (s.cache.find (hashUriOptions h f.pair) f.pair).1⟩) := by
  have hcount : (s.cache.find (hashUriOptions h f.pair) f.pair).2.count h key =
      s.cache.count h key := count_congr (sameDataset_find s.cache _ f.pair)
  have howed : (s.threads t).pc.owed key = 0 := by
    rw [hpc]
    rfl
  generalize hfound : (s.cache.find (hashUriOptions h f.pair) f.pair).1 = found
  have hnew : (Pc.scanned f found).owed key = 0 ∨
      s.cache.count h key + (Pc.scanned f found).owed key ≤ m := by
    unfold Pc.scanned
    split
    · exact Or.inl (Pc.owed_of_not_wanting (Pc.got_wanting f found))
    · by_cases hkey : f.pair = key
      · have hle := request_missing_le f.call.copies found.length
        have hlength : found.length = s.cache.count h key := by
          rw [← hfound, ← hkey, find_eq, ← List.countP_eq_length_filter]
          rfl
        have hm := hasks hkey
        simp only [Pc.owed, if_pos hkey]
        omega
      · exact Or.inl (if_neg hkey)
  apply hs.put
  · rw [hcount, howed]
    rcases hnew with hnew | hnew
    · exact Or.inl (by rw [hnew])
    · exact Or.inr hnew
  · rcases hnew with hnew | hnew
    · exact hnew.trans_le (Nat.zero_le m)
    · exact (Nat.le_add_left _ _).trans hnew

theorem Shared.insert {h : StringHash} {key : UriOptions} {m : ℕ} {s : Service τ L n}
    (hs : Shared h key m s) {t : τ} {o : Opener} {f : Frame} {found : List (Fin n)} {left : ℕ}
    {r : Got τ n} (hpc : (s.threads t).pc = .inserting f found (left + 1))
    (hr : insertOne t (hashUriOptions h f.pair) f.pair o ⟨found, s.cache, s.gdal⟩ = some r) :
    Shared h key m ({ s with cache := r.cache, gdal := r.gdal }.put t
      ⟨.inserting f r.list left, r.list⟩) := by
  have hle : r.cache.count h key ≤ s.cache.count h key + if f.pair = key then 1 else 0 :=
    insertOne_count_le hr
  have heach := hs.each t
  apply hs.put
  · rw [hpc]
    simp only [Pc.owed]
    split_ifs at hle ⊢ <;> omega
  · rw [hpc] at heach
    simp only [Pc.owed] at heach ⊢
    split_ifs at heach ⊢ <;> omega

theorem Shared.step {h : StringHash} {key : UriOptions} {m : ℕ} {s s' : Service τ L n}
    {e : ServiceEvent τ} (hs : Shared h key m s) (hasks : AsksAtMost key m s e)
    (hstep : s.step h e = some s') : Shared h key m s' := by
  cases step_moves hstep with
  | getToken pair draws r hr =>
    exact hs.apart ⟨rfl, fun _ ↦ ⟨rfl, rfl, rfl, rfl⟩, fun _ ↦ Or.inr rfl⟩
  | query t now c pair => exact hs.apart (apart_move s t _ (Pc.loopHead_wanting _ none))
  | scan t now f hpc hfree => exact hs.scan t hpc (hasks f hpc)
  | lockCache t f found request hpc hfree =>
    have heach := hs.each t
    rw [hpc] at heach
    exact hs.put (Or.inl (by rw [hpc]; exact le_rfl)) heach
  | giveUp t f found => exact hs.apart (apart_move s t s.tokens (Pc.got_wanting f found))
  | insert t o f found left r hpc hr => exact hs.insert hpc hr
  | unlockCache t f found hpc =>
    have hzero : (Pc.got f found).owed key = 0 :=
      Pc.owed_of_not_wanting (Pc.got_wanting f found)
    exact hs.put (Or.inl (by rw [hzero]; omega)) (hzero.trans_le (Nat.zero_le m))
  | advance t f i rest p => exact hs.apart (apart_work s t f i rest p)
  | dec t f i => exact hs.apart (.put (sameDataset_setValue s.cache i _ rfl rfl rfl) rfl)
  | next t f l => exact hs.apart (apart_move s t s.tokens (Pc.loopHead_wanting _ l))
  | call t | unknown t | timeOut t | attempt t | skip t | answer t | finish t =>
    exact hs.apart (apart_move s t _ rfl)

/-- However calls interleave, each thread brings in at most as many copies of a pair as
the largest number asked for. -/
theorem copies_bounded_by_threads {h : StringHash} {key : UriOptions} {m size : ℕ}
    {s : Service τ L n} (hstart : s.Quiescent)
    (hcount : s.cache.count h key ≤ m * Fintype.card τ) {es : List (ServiceEvent τ)}
    (hasks : (machine h τ L size n).EveryStep (AsksAtMost key m) s es) :
    (machine h τ L size n).EveryState
      (fun s ↦ s.cache.count h key ≤ m * Fintype.card τ) s es :=
  hasks.everyState (I := Shared h key m) (fun _ _ _ hs hc hstep ↦ hs.step hc hstep)
    (fun _ hs ↦ hs.count_le)
    (Within.start (by omega) fun t ↦ Pc.owed_of_not_wanting (Pc.wanting_of_settled (hstart t)))

theorem racingRun_asksWithin :
    (machine lengthHash Bool (.ofList Token UriOptions) 4 2).EveryStep
      (AsksWithin {("a.tif", [])} fun _ ↦ 1)
      (machine lengthHash Bool (.ofList Token UriOptions) 4 2).init racingRun := by
  refine .cons rfl trivial (.cons rfl trivial (.cons rfl trivial (.cons rfl trivial
    (.cons rfl trivial (.cons rfl ?_ (.cons rfl ?_ (.cons rfl trivial (.cons rfl trivial
      (.cons rfl trivial (.cons rfl trivial (.cons rfl trivial trivial)))))))))))
  all_goals
    intro f hpc
    cases hpc
    decide

theorem copies_bounded_by_threads_racing :
    (machine lengthHash Bool (.ofList Token UriOptions) 4 2).EveryState
      (fun s ↦ s.cache.count lengthHash ("a.tif", []) ≤ 1 * Fintype.card Bool)
      (machine lengthHash Bool (.ofList Token UriOptions) 4 2).init racingRun ∧
    ∃ s, (machine lengthHash Bool (.ofList Token UriOptions) 4 2).run
      (machine lengthHash Bool (.ofList Token UriOptions) 4 2).init racingRun = some s ∧
      s.cache.count lengthHash ("a.tif", []) = 1 * Fintype.card Bool := by
  have hasks := racingRun_asksWithin.mono fun _ _ h ↦ h.asksAtMost ("a.tif", [])
  exact ⟨copies_bounded_by_threads (fun _ ↦ rfl) (by decide) hasks, _, rfl, by decide⟩

end Service

namespace FlatLruCache

section Slots

variable {τ : Type} {n : ℕ}

structure Vacant (c : FlatLruCache τ n) (i : Fin n) : Prop where
  blank : c.Blank i
  idle : c.Idle i

/-- A slot with a dataset for one of the pairs `K`, and an access time. -/
structure Stocked (h : StringHash) (K : Finset UriOptions) (c : FlatLruCache τ n) (i : Fin n) :
    Prop where
  valid : (c.values i).valid = true
  key : (c.values i).uriOptions ∈ K
  tag : c.tags i = hashUriOptions h (c.values i).uriOptions
  later : 0 < c.atimes i

variable {h : StringHash} {K : Finset UriOptions} {c c' : FlatLruCache τ n}

theorem Stocked.not_vacant {i : Fin n} (hi : Stocked h K c i) : ¬ Vacant c i := by
  intro hvacant
  have hlater := hi.later
  have hblank := hvacant.blank.2.1
  omega

theorem Stocked.same {i : Fin n} (hi : Stocked h K c i) (hsame : SameDataset c c' i)
    (hlater : 0 < c'.atimes i) : Stocked h K c' i := by
  refine ⟨hsame.valid.trans hi.valid, ?_, ?_, hlater⟩
  · rw [hsame.key]
    exact hi.key
  · rw [hsame.tag, hsame.key]
    exact hi.tag

theorem Stocked.hit {i : Fin n} (hi : Stocked h K c i) :
    c.hit (hashUriOptions h (c.values i).uriOptions) (c.values i).uriOptions i = true := by
  simp [FlatLruCache.hit, hi.tag]

/-- Stocked slots stay so, and vacant ones stay so or are stocked. -/
structure Steady (h : StringHash) (K : Finset UriOptions) (c c' : FlatLruCache τ n) : Prop where
  stocked : ∀ i, Stocked h K c i → Stocked h K c' i
  vacant : ∀ i, Vacant c i → Vacant c' i ∨ Stocked h K c' i

theorem Steady.refl (c : FlatLruCache τ n) : Steady h K c c :=
  ⟨fun _ hi ↦ hi, fun _ hi ↦ Or.inl hi⟩

theorem steady_setValue {i : Fin n} {ld : LockedDataset τ} (hi : Stocked h K c i)
    (hsource : ld.source = (c.values i).source) (hwarped : ld.warped = (c.values i).warped)
    (hkey : ld.uriOptions = (c.values i).uriOptions) : Steady h K c (c.setValue i ld) := by
  constructor
  case stocked =>
    intro j hj
    exact hj.same (sameDataset_setValue c i ld hsource hwarped hkey j) hj.later
  case vacant =>
    intro j hj
    have hne : j ≠ i := fun heq ↦ hi.not_vacant (heq ▸ hj)
    have hval := setValue_of_ne c ld hne
    refine Or.inl ⟨?_, ?_⟩
    · rw [Blank, hval]
      exact hj.blank
    · rw [Idle, hval]
      exact hj.idle

theorem stocked_of_hit (hslots : ∀ i, Vacant c i ∨ Stocked h K c i) (hempty : ("", []) ∉ K)
    {key : UriOptions} (hkey : key ∈ K) {i : Fin n} {tag : UInt64}
    (hhit : c.hit tag key i = true) : Stocked h K c i := by
  refine (hslots i).resolve_left fun hvacant ↦ hempty ?_
  rw [FlatLruCache.hit, Bool.and_eq_true, beq_iff_eq, beq_iff_eq] at hhit
  rw [← hvacant.blank.2.2.2, hhit.2]
  exact hkey

theorem foldl_touch_of_not_mem {l : List (Fin n)} {i : Fin n} (hi : i ∉ l) :
    (l.foldl touch c).values i = c.values i := by
  induction l generalizing c with
  | nil => rfl
  | cons j l ih =>
    obtain ⟨hne, hmem⟩ := List.ne_and_not_mem_of_not_mem_cons hi
    rw [List.foldl_cons, ih hmem]
    exact Function.update_of_ne hne ..

theorem steady_find (hslots : ∀ i, Vacant c i ∨ Stocked h K c i) (hempty : ("", []) ∉ K)
    {key : UriOptions} (hkey : key ∈ K) (tag : UInt64)
    (htime : (c.find tag key).2.time < 2 ^ 64) : Steady h K c (c.find tag key).2 := by
  constructor
  case stocked =>
    intro i hi
    refine hi.same (sameDataset_find c tag key i) ?_
    rw [find_eq, foldl_touch_time] at htime
    rw [find_eq]
    exact foldl_touch_later (Nat.zero_le _) htime (Or.inr hi.later)
  case vacant =>
    intro i hi
    have hmiss : i ∉ (List.finRange n).filter (c.hit tag key) := by
      intro hmem
      have hstocked := stocked_of_hit hslots hempty hkey (List.mem_filter.mp hmem).2
      exact hstocked.not_vacant hi
    refine Or.inl ?_
    rw [find_eq]
    refine ⟨⟨?_, ?_, ?_⟩, ?_⟩
    · rw [foldl_touch_tags]
      exact hi.blank.1
    · rw [foldl_touch_atimes hmiss]
      exact hi.blank.2.1
    · rw [foldl_touch_of_not_mem hmiss]
      exact hi.blank.2.2
    · rw [Idle, foldl_touch_of_not_mem hmiss]
      exact hi.idle

theorem stocked_filled {b : Fin n} {key : UriOptions} (hkey : key ∈ K) (d : DatasetH)
    (htime : c.time + 1 < 2 ^ 64) : Stocked h K (c.filled b (hashUriOptions h key) key d) b := by
  have htick : (c.filled b (hashUriOptions h key) key d).atimes b = c.tick :=
    Function.update_self ..
  have hlater : c.tick = c.time + 1 := Nat.mod_eq_of_lt htime
  have hval := filled_values_self c b (hashUriOptions h key) key d
  refine ⟨?_, ?_, ?_, ?_⟩
  · rw [hval]
    rfl
  · rw [hval]
    exact hkey
  · rw [hval]
    exact filled_tags_self ..
  · omega

theorem steady_filled {b : Fin n} {key : UriOptions} (hkey : key ∈ K) (d : DatasetH)
    (htime : c.time + 1 < 2 ^ 64) : Steady h K c (c.filled b (hashUriOptions h key) key d) := by
  have hnew := stocked_filled (h := h) (b := b) hkey d htime
  constructor
  case stocked =>
    intro i hi
    by_cases hb : i = b
    · exact hb ▸ hnew
    · refine hi.same (sameDataset_filled c _ key d hb) ?_
      rw [filled_atimes_of_ne c _ key d hb]
      exact hi.later
  case vacant =>
    intro i hi
    by_cases hb : i = b
    · exact Or.inr (hb ▸ hnew)
    · have hval := filled_values_of_ne c (hashUriOptions h key) key d hb
      refine Or.inl ⟨⟨?_, ?_, ?_⟩, ?_⟩
      · exact (sameDataset_filled c _ key d hb).tag.trans hi.blank.1
      · exact (filled_atimes_of_ne c _ key d hb).trans hi.blank.2.1
      · rw [hval]
        exact hi.blank.2.2
      · rw [Idle, hval]
        exact hi.idle

def full (c : FlatLruCache τ n) : Finset (Fin n) :=
  Finset.univ.filter fun i ↦ (c.values i).valid = true

theorem mem_full {i : Fin n} : i ∈ c.full ↔ (c.values i).valid = true := Finset.mem_filter_univ i

theorem stocked_of_full (hslots : ∀ i, Vacant c i ∨ Stocked h K c i) {i : Fin n}
    (hi : i ∈ c.full) : Stocked h K c i := by
  refine (hslots i).resolve_left fun hvacant ↦ ?_
  rw [mem_full, hvacant.blank.2.2.1] at hi
  cases hi

theorem Steady.slots (hc : Steady h K c c') (hslots : ∀ i, Vacant c i ∨ Stocked h K c i)
    (i : Fin n) : Vacant c' i ∨ Stocked h K c' i :=
  (hslots i).elim (hc.vacant i) fun hi ↦ Or.inr (hc.stocked i hi)

theorem Steady.full_subset (hc : Steady h K c c') (hslots : ∀ i, Vacant c i ∨ Stocked h K c i) :
    c.full ⊆ c'.full :=
  fun i hi ↦ mem_full.mpr (hc.stocked i (stocked_of_full hslots hi)).valid

theorem card_full_le (hslots : ∀ i, Vacant c i ∨ Stocked h K c i) :
    c.full.card ≤ ∑ key ∈ K, c.count h key := by
  have hmaps : ∀ i ∈ c.full, (c.values i).uriOptions ∈ K :=
    fun i hi ↦ (stocked_of_full hslots hi).key
  rw [Finset.card_eq_sum_card_fiberwise hmaps]
  refine Finset.sum_le_sum fun key _ ↦ ?_
  rw [count, countP_finRange]
  refine Finset.card_le_card fun i hi ↦ ?_
  obtain ⟨hfull, rfl⟩ := Finset.mem_filter.mp hi
  rw [Finset.mem_filter_univ]
  exact (stocked_of_full hslots hfull).hit

/-- While not every slot is full, `insert` takes one that is vacant. -/
theorem exists_vacant (hslots : ∀ i, Vacant c i ∨ Stocked h K c i) (hroom : c.full.card < n) :
    ∃ i, Vacant c i := by
  by_contra hnone
  have hall : c.full = Finset.univ := by
    refine Finset.eq_univ_of_forall fun i ↦ mem_full.mpr ?_
    exact ((hslots i).resolve_left fun hi ↦ hnone ⟨i, hi⟩).valid
  rw [hall, Finset.card_univ, Fintype.card_fin] at hroom
  exact hroom.false

theorem Vacant.evictable {i : Fin n} (hi : Vacant c i) : c.Evictable i := by
  refine ⟨hi.idle, ?_⟩
  rw [hi.blank.2.1]
  decide

theorem Candidate.vacant {b : Fin n} (hb : c.Candidate b)
    (hslots : ∀ i, Vacant c i ∨ Stocked h K c i) (hroom : c.full.card < n) : Vacant c b := by
  obtain ⟨i, hi⟩ := exists_vacant hslots hroom
  have hleast := hb.least i hi.evictable
  have hzero := hi.blank.2.1
  refine (hslots b).resolve_right fun hstocked ↦ ?_
  have hlater := hstocked.later
  omega

end Slots

end FlatLruCache

namespace Service

variable {τ : Type} {L : LruCache} {n : ℕ}

def Opens (s : Service τ L n) : ServiceEvent τ → Prop
  | .insert t o => ∀ f found left, (s.threads t).pc = .inserting f found left →
      (LockedDataset.outcome o f.pair).warped = true
  | _ => True

/-- No slot was ever emptied or given to another pair. -/
structure Shelved (h : StringHash) (K : Finset UriOptions) (s : Service τ L n) : Prop where
  slots : ∀ i, Vacant s.cache i ∨ Stocked h K s.cache i
  refs : ∀ t, ∀ i ∈ (s.threads t).pc.refs, Stocked h K s.cache i
  wants : ∀ t, (s.threads t).pc.wanting = false ∨ ∀ p ∈ (s.threads t).pc.pair, p ∈ K
  closed : s.gdal.closed = []
  issued : s.gdal.issued ≤ 2 * s.cache.full.card

variable {h : StringHash} {K : Finset UriOptions}

theorem Shelved.mem_of_inserting {s : Service τ L n} (hs : Shelved h K s) {t : τ} {f : Frame}
    {found : List (Fin n)} {left : ℕ} (hpc : (s.threads t).pc = .inserting f found left) :
    f.pair ∈ K := by
  have hwants := hs.wants t
  rw [hpc] at hwants
  exact hwants.resolve_left (Ne.symm Bool.false_ne_true) f.pair rfl

theorem card_full_lt [Fintype τ] {s : Service τ L n} {w : UriOptions → ℕ} (hs : Shelved h K s)
    (hshared : ∀ key ∈ K, Shared h key (w key) s) {t : τ} {f : Frame} {found : List (Fin n)}
    {left : ℕ} (hpc : (s.threads t).pc = .inserting f found (left + 1)) :
    s.cache.full.card < (∑ key ∈ K, w key) * Fintype.card τ := by
  have hkey : f.pair ∈ K := hs.mem_of_inserting hpc
  have howed : (s.threads t).pc.owed f.pair = left + 1 := by
    rw [hpc, Pc.owed, if_pos rfl]
  have hlast := (hshared f.pair hkey).stock_add_le t
  refine (card_full_le hs.slots).trans_lt ?_
  rw [Finset.sum_mul]
  refine Finset.sum_lt_sum (fun key hmem ↦ (hshared key hmem).count_le) ⟨f.pair, hkey, ?_⟩
  omega

variable [DecidableEq τ]

theorem Shelved.put {s : Service τ L n} (hs : Shelved h K s) {t : τ} {tok : L.State}
    {c : FlatLruCache τ n} {g : Gdal} {wr : Option τ} {th : Thread n}
    (hsteady : Steady h K s.cache c)
    (hrefs : ∀ i ∈ th.pc.refs, i ∈ (s.threads t).pc.refs ∨ Stocked h K c i)
    (hwants : th.pc.wanting = false ∨ ∀ p ∈ th.pc.pair, p ∈ K) (hclosed : g.closed = [])
    (hissued : g.issued ≤ 2 * c.full.card) :
    Shelved h K ((⟨tok, c, g, wr, s.threads, s.aborted⟩ : Service τ L n).put t th) := by
  constructor
  case slots => exact hsteady.slots hs.slots
  case refs =>
    refine forall_put (P := fun _ th ↦ ∀ i ∈ th.pc.refs, Stocked h K c i) ?_ ?_
    · intro i hi
      exact (hrefs i hi).elim (fun hold ↦ hsteady.stocked i (hs.refs t i hold)) id
    · exact fun u _ i hi ↦ hsteady.stocked i (hs.refs u i hi)
  case wants =>
    exact forall_put (P := fun _ th ↦ th.pc.wanting = false ∨ ∀ p ∈ th.pc.pair, p ∈ K) hwants
      fun u _ ↦ hs.wants u
  case closed => exact hclosed
  case issued => exact hissued

theorem Shelved.keep {s : Service τ L n} (hs : Shelved h K s) {t : τ} {tok : L.State}
    {c : FlatLruCache τ n} {wr : Option τ} {th : Thread n} (hsteady : Steady h K s.cache c)
    (hrefs : ∀ i ∈ th.pc.refs, i ∈ (s.threads t).pc.refs ∨ Stocked h K c i)
    (hwants : th.pc.wanting = false ∨ ∀ p ∈ th.pc.pair, p ∈ K) :
    Shelved h K ((⟨tok, c, s.gdal, wr, s.threads, s.aborted⟩ : Service τ L n).put t th) := by
  have hfull := Finset.card_le_card (hsteady.full_subset hs.slots)
  have hissued := hs.issued
  exact hs.put hsteady hrefs hwants hs.closed (by omega)

theorem Shelved.move {s : Service τ L n} (hs : Shelved h K s) {t : τ} {pc pc' : Pc n}
    (hpc : (s.threads t).pc = pc) (tok : L.State) (wr : Option τ)
    (hrefs : pc'.refs ⊆ pc.refs) (hwants : pc'.wanting = false ∨ ∀ p ∈ pc'.pair, p ∈ K) :
    Shelved h K ({ s with tokens := tok, writer := wr }.move t pc') := by
  subst hpc
  exact hs.keep (.refl s.cache) (fun i hi ↦ Or.inl (hrefs hi)) hwants

theorem Shelved.work {s : Service τ L n} (hs : Shelved h K s) {t : τ} {f : Frame} {i : Fin n}
    {rest : List (Fin n)} {p p' : Task (ℤ × Option ℤ)}
    (hpc : (s.threads t).pc = .running f i rest (.ready p')) :
    Shelved h K (s.work t f i rest p) := by
  have hrefs : ∀ j ∈ i :: rest, j ∈ (s.threads t).pc.refs := by
    rw [hpc]
    exact fun j hj ↦ hj
  have hi : Stocked h K s.cache i := hs.refs t i (hrefs i List.mem_cons_self)
  cases p with
  | ret r => exact hs.keep (.refl s.cache) (fun j hj ↦ Or.inl (hrefs j hj)) (Or.inl rfl)
  | tryLock k =>
    rw [Service.work]
    split
    · exact hs.keep (steady_setValue hi rfl rfl rfl) (fun j hj ↦ Or.inl (hrefs j hj)) (Or.inl rfl)
    · exact hs.keep (.refl s.cache) (fun j hj ↦ Or.inl (hrefs j hj)) (Or.inl rfl)
  | unlock k =>
    refine hs.keep (steady_setValue hi ?_ ?_ ?_) (fun j hj ↦ Or.inl (hrefs j hj)) (Or.inl rfl)
    all_goals
      unfold LockedDataset.unlock
      split <;> rfl
  | call c k => exact hs.keep (.refl s.cache) (fun j hj ↦ Or.inl (hrefs j hj)) (Or.inl rfl)

theorem Shelved.scan {s : Service τ L n} (hs : Shelved h K s) (t : τ) {f : Frame}
    (hempty : ("", []) ∉ K) (hkey : f.pair ∈ K)
    (htime : (s.cache.find (hashUriOptions h f.pair) f.pair).2.time < 2 ^ 64) :
    Shelved h K ({ s with cache := (s.cache.find (hashUriOptions h f.pair) f.pair).2 }.put t
      ⟨.scanned f (s.cache.find (hashUriOptions h f.pair) f.pair).1,
        (s.cache.find (hashUriOptions h f.pair) f.pair).1⟩) := by
  have hsteady := steady_find hs.slots hempty hkey _ htime
  obtain ⟨hrefs, -⟩ := Pc.scanned_spec f (s.cache.find (hashUriOptions h f.pair) f.pair).1
  apply hs.keep hsteady
  · intro i hi
    rw [hrefs, find_eq] at hi
    have hhit := (List.mem_filter.mp hi).2
    exact Or.inr (hsteady.stocked i (stocked_of_hit hs.slots hempty hkey hhit))
  · unfold Pc.scanned
    split
    · exact Or.inl (Pc.got_wanting ..)
    · refine Or.inr fun p hp ↦ ?_
      exact Option.some.inj hp ▸ hkey

theorem Shelved.insert {s : Service τ L n} (hs : Shelved h K s) {t : τ} {o : Opener} {f : Frame}
    {found : List (Fin n)} {left : ℕ} {r : Got τ n}
    (hpc : (s.threads t).pc = .inserting f found (left + 1))
    (hr : insertOne t (hashUriOptions h f.pair) f.pair o ⟨found, s.cache, s.gdal⟩ = some r)
    (hopens : (LockedDataset.outcome o f.pair).warped = true) (hroom : s.cache.full.card < n)
    (htime : r.cache.time < 2 ^ 64) :
    Shelved h K ({ s with cache := r.cache, gdal := r.gdal }.put t
      ⟨.inserting f r.list left, r.list⟩) := by
  have hkey : f.pair ∈ K := hs.mem_of_inserting hpc
  have hfound : ∀ i ∈ found, i ∈ (s.threads t).pc.refs := by
    rw [hpc]
    exact fun i hi ↦ hi
  rcases insertOne_some hr with ⟨hnone, -⟩ | ⟨b, hb, ⟨hfail, -⟩ | ⟨-, rfl⟩⟩
  · obtain ⟨i, hi⟩ := exists_vacant hs.slots hroom
    exact absurd hi.evictable (hnone i)
  · exact absurd hopens (Bool.eq_false_iff.mp hfail)
  · have hvacant : Vacant s.cache b := hb.vacant hs.slots hroom
    have hinvalid : (s.cache.values b).valid = false := hvacant.blank.2.2.1
    have hsteady := steady_filled (b := b) (c := s.cache) (h := h) hkey s.gdal.issued htime
    have hnew := stocked_filled (b := b) (c := s.cache) (h := h) hkey s.gdal.issued htime
    have hclose : ((s.cache.values b).close
        (s.gdal.after f.pair (LockedDataset.outcome o f.pair))).2 =
          s.gdal.after f.pair (LockedDataset.outcome o f.pair) := by
      rw [LockedDataset.close, hinvalid]
      rfl
    apply hs.put hsteady
    · intro i hi
      rcases List.mem_append.mp hi with hold | hlast
      · exact Or.inl (hfound i hold)
      · exact Or.inr (List.mem_singleton.mp hlast ▸ hnew)
    · refine Or.inr fun p hp ↦ ?_
      exact Option.some.inj hp ▸ hkey
    · rw [hclose]
      exact hs.closed
    · have hnot : b ∉ s.cache.full := by
        rw [mem_full, hinvalid]
        exact Bool.false_ne_true
      have hcard := Finset.card_le_card (Finset.insert_subset (mem_full.mpr hnew.valid)
        (hsteady.full_subset hs.slots))
      rw [Finset.card_insert_of_notMem hnot] at hcard
      have hissued := hs.issued
      have hsource := Bool.toNat_le (LockedDataset.outcome o f.pair).source
      have hwarped := Bool.toNat_le (LockedDataset.outcome o f.pair).warped
      rw [hclose, Gdal.after]
      dsimp only at hcard ⊢
      omega

theorem time_le_of_step {s s' : Service τ L n} {e : ServiceEvent τ}
    (hstep : s.step h e = some s') : s.cache.time ≤ s'.cache.time := by
  cases step_moves hstep with
  | scan t now f hpc hfree =>
    change s.cache.time ≤ (s.cache.find (hashUriOptions h f.pair) f.pair).2.time
    rw [find_eq, foldl_touch_time]
    exact Nat.le_add_right _ _
  | insert t o f found left r hpc hr =>
    change s.cache.time ≤ r.cache.time
    rcases insertOne_some hr with ⟨-, rfl⟩ | ⟨b, -, ⟨-, rfl⟩ | ⟨-, rfl⟩⟩
    · exact le_rfl
    · exact le_rfl
    · exact Nat.le_succ _
  | advance t f i rest p hpc =>
    cases p with
    | tryLock k =>
      rw [work]
      split <;> exact le_rfl
    | ret r | unlock k | call c k => exact le_rfl
  | _ => exact le_rfl

variable [Fintype τ]

theorem Shelved.step {s s' : Service τ L n} {w : UriOptions → ℕ} {e : ServiceEvent τ}
    (hs : Shelved h K s) (hshared : ∀ key ∈ K, Shared h key (w key) s) (hempty : ("", []) ∉ K)
    (hcapacity : (∑ key ∈ K, w key) * Fintype.card τ ≤ n) (hasks : AsksWithin K w s e)
    (hopens : Opens s e) (hstep : s.step h e = some s') (htime : s'.cache.time < 2 ^ 64) :
    Shelved h K s' := by
  cases step_moves hstep with
  | getToken pair draws r hr => exact ⟨hs.slots, hs.refs, hs.wants, hs.closed, hs.issued⟩
  | call t c hpc => exact hs.move hpc s.tokens s.writer (List.nil_subset _) (Or.inl rfl)
  | query t now c pair hpc hpair =>
    have hq : Pc.Quiet (.called c : Pc n) (.loopHead ⟨c, now, pair, .start⟩ none) :=
      Pc.quiet_loopHead _ rfl (Or.inl rfl) rfl
    exact hs.move hpc _ s.writer (fun _ hi ↦ hq.refs ▸ hi)
      (Or.inl (Pc.loopHead_wanting ..))
  | unknown t now c hpc hnone => exact hs.move hpc _ s.writer (List.nil_subset _) (Or.inl rfl)
  | timeOut t now f hpc => exact hs.move hpc s.tokens s.writer (List.nil_subset _) (Or.inl rfl)
  | scan t now f hpc hfree => exact hs.scan t hempty (hasks f hpc).1 htime
  | lockCache t f found request hpc hfree =>
    have hwants := hs.wants t
    rw [hpc] at hwants
    exact hs.move hpc s.tokens (some t) (List.Subset.refl _) hwants
  | giveUp t f found k hpc =>
    have hq : Pc.Quiet (.missing f found (.soft k) : Pc n) (.got f found) :=
      Pc.quiet_got rfl rfl rfl
    exact hs.move hpc s.tokens s.writer (fun _ hi ↦ hq.refs ▸ hi)
      (Or.inl (Pc.got_wanting ..))
  | insert t o f found left r hpc hr =>
    have hroom := (card_full_lt hs hshared hpc).trans_le hcapacity
    exact hs.insert hpc hr (hopens f found (left + 1) hpc) hroom htime
  | unlockCache t f found hpc =>
    have hq : Pc.Quiet (.inserting f found 0 : Pc n) (.got f found) :=
      Pc.quiet_got rfl rfl rfl
    exact hs.move hpc s.tokens none (fun _ hi ↦ hq.refs ▸ hi)
      (Or.inl (Pc.got_wanting ..))
  | attempt t f i rest l hpc | skip t f i rest l hpc =>
    exact hs.move hpc s.tokens s.writer (List.Subset.refl _) (Or.inl rfl)
  | advance t f i rest p hpc => exact hs.work hpc
  | answer t reply f i rest c k hpc =>
    exact hs.move hpc s.tokens s.writer (List.Subset.refl _) (Or.inl rfl)
  | dec t f i rest l hpc =>
    have hrefs : ∀ j ∈ i :: rest, j ∈ (s.threads t).pc.refs := by
      rw [hpc]
      exact fun j hj ↦ hj
    have hi : Stocked h K s.cache i := hs.refs t i (hrefs i List.mem_cons_self)
    exact hs.keep (steady_setValue hi rfl rfl rfl)
      (fun j hj ↦ Or.inl (hrefs j (List.mem_cons_of_mem i hj))) (Or.inl rfl)
  | next t f l hpc =>
    have hq : Pc.Quiet (.trying f [] l : Pc n)
        (.loopHead { f with locals := { f.locals with i := int32 (f.locals.i + 1) } } l) :=
      Pc.quiet_loopHead _ rfl (Or.inr rfl) rfl
    exact hs.move hpc s.tokens s.writer (fun _ hi ↦ hq.refs ▸ hi)
      (Or.inl (Pc.loopHead_wanting ..))
  | finish t value l hpc => exact hs.move hpc s.tokens s.writer (List.nil_subset _) (Or.inl rfl)

/-- While all copies that all threads may want fit in the cache together and GDAL opens
what it is asked to, nothing is ever closed, and GDAL is asked no more often than there are
such copies. -/
theorem working_set_never_closed {w : UriOptions → ℕ} {size : ℕ} (hempty : ("", []) ∉ K)
    (hcapacity : (∑ key ∈ K, w key) * Fintype.card τ ≤ n) {es : List (ServiceEvent τ)}
    (hasks : (machine h τ L size n).EveryStep (AsksWithin K w) (machine h τ L size n).init es)
    (hopens : (machine h τ L size n).EveryStep Opens (machine h τ L size n).init es) :
    (machine h τ L size n).EveryState
      (fun s ↦ s.cache.time < 2 ^ 64 → s.gdal.closed = [] ∧
        s.gdal.issued ≤ 2 * ((∑ key ∈ K, w key) * Fintype.card τ))
      (machine h τ L size n).init es := by
  have hfresh : ∀ key ∈ K, (fresh τ n).count h key = 0 := by
    intro key hkey
    refine List.countP_eq_zero.mpr fun i _ hhit ↦ hempty ?_
    rw [FlatLruCache.hit, Bool.and_eq_true, beq_iff_eq, beq_iff_eq] at hhit
    have heq : ("", []) = key := hhit.2
    rw [heq]
    exact hkey
  refine (hasks.and hopens).everyState
    (I := fun s ↦ (∀ key ∈ K, Shared h key (w key) s) ∧ (s.cache.time < 2 ^ 64 → Shelved h K s))
    ?_ ?_ ⟨?_, ?_⟩
  · intro s e s' hs hc hstep
    refine ⟨fun key hkey ↦ (hs.1 key hkey).step (hc.1.asksAtMost key) hstep, fun htime ↦ ?_⟩
    have hshelved := hs.2 ((time_le_of_step hstep).trans_lt htime)
    exact hshelved.step hs.1 hempty hcapacity hc.1 hc.2 hstep htime
  · intro s hs htime
    have hshelved := hs.2 htime
    refine ⟨hshelved.closed, hshelved.issued.trans (Nat.mul_le_mul_left 2 ?_)⟩
    refine (card_full_le hshelved.slots).trans ?_
    rw [Finset.sum_mul]
    exact Finset.sum_le_sum fun key hkey ↦ (hs.1 key hkey).count_le
  · intro key hkey
    have hzero : (machine h τ L size n).init.cache.count h key = 0 := hfresh key hkey
    exact Within.start (by omega) fun _ ↦ rfl
  · intro _
    exact ⟨fun _ ↦ Or.inl ⟨⟨rfl, rfl, rfl, rfl⟩, rfl, rfl⟩, fun _ _ hi ↦ absurd hi List.not_mem_nil,
      fun _ ↦ Or.inl rfl, rfl, Nat.zero_le _⟩

theorem working_set_never_closed_racing :
    (machine lengthHash Bool (.ofList Token UriOptions) 4 2).EveryState
      (fun s ↦ s.cache.time < 2 ^ 64 → s.gdal.closed = [] ∧
        s.gdal.issued ≤ 2 * ((∑ key ∈ {("a.tif", [])}, (fun _ : UriOptions ↦ 1) key) *
          Fintype.card Bool))
      (machine lengthHash Bool (.ofList Token UriOptions) 4 2).init racingRun := by
  refine working_set_never_closed (by decide) (by decide) racingRun_asksWithin ?_
  refine .cons rfl trivial (.cons rfl trivial (.cons rfl trivial (.cons rfl trivial
    (.cons rfl trivial (.cons rfl trivial (.cons rfl trivial (.cons rfl trivial (.cons rfl ?_
      (.cons rfl trivial (.cons rfl trivial (.cons rfl ?_ trivial)))))))))))
  all_goals
    intro f found left hpc
    cases hpc
    decide

end Service

end GdalWarp.Bindings
