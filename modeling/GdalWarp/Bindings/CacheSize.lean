import GdalWarp.Bindings.Copies

namespace GdalWarp.Bindings

open Foundation FlatLruCache

variable {τ : Type} {n : ℕ}

namespace FlatLruCache

def filledSlots (c : FlatLruCache τ n) : Finset (Fin n) :=
  Finset.univ.filter fun i ↦ (c.values i).valid = true

theorem mem_filledSlots {c : FlatLruCache τ n} {i : Fin n} :
    i ∈ c.filledSlots ↔ (c.values i).valid = true := by
  rw [filledSlots, Finset.mem_filter_univ]

theorem card_filledSlots_le (c : FlatLruCache τ n) : c.filledSlots.card ≤ n := by
  simpa using c.filledSlots.card_le_univ

theorem filledSlots_congr {c c' : FlatLruCache τ n}
    (hsame : ∀ i, SameDataset c c' i) : c'.filledSlots = c.filledSlots := by
  ext i
  rw [mem_filledSlots, mem_filledSlots, (hsame i).valid]

theorem filledSlots_filled (c : FlatLruCache τ n) (b : Fin n) (tag : UInt64) (key : UriOptions)
    (d : DatasetH) : (c.filled b tag key d).filledSlots = Insert.insert b c.filledSlots := by
  ext i
  rw [Finset.mem_insert, mem_filledSlots, mem_filledSlots]
  by_cases hi : i = b
  · subst hi
    rw [filled_values_self]
    exact iff_of_true rfl (Or.inl rfl)
  · rw [filled_values_of_ne _ _ _ _ hi]
    exact ⟨Or.inr, fun hx ↦ hx.resolve_left hi⟩

/-- `size` counts the filled slots, and no more than that once all are filled;
the access times tell the filled slots from the empty ones. -/
structure Sized (c : FlatLruCache τ n) : Prop where
  size_le : c.size ≤ c.time
  size_lt : c.size < 2 ^ 64
  counts : c.size = c.filledSlots.card ∨ c.filledSlots.card = n ∧ n ≤ c.size
  empty : ∀ i, (c.values i).valid = false →
    c.tags i = 0 ∧ c.atimes i = 0 ∧ (c.values i).uriOptions = ("", [])
  stamped : c.time < 2 ^ 64 → ∀ i, (c.values i).valid = true → 0 < c.atimes i

theorem Sized.reports {c : FlatLruCache τ n} (hc : Sized c) :
    c.reportedSize = c.filledSlots.card := by
  have hle := c.card_filledSlots_le
  rw [reportedSize, Nat.mod_eq_of_lt hc.size_lt, capacity]
  rcases hc.counts with heq | ⟨hfull, hover⟩ <;> omega

theorem Sized.same {c c' : FlatLruCache τ n} (hc : Sized c) (hsame : ∀ i, SameDataset c c' i)
    (hatimes : c'.atimes = c.atimes) (htime : c'.time = c.time) (hsize : c'.size = c.size) :
    Sized c' := by
  refine ⟨?_, ?_, ?_, fun i ↦ ?_, fun hlt i ↦ ?_⟩
  · rw [hsize, htime]
    exact hc.size_le
  · rw [hsize]
    exact hc.size_lt
  · rw [filledSlots_congr hsame, hsize]
    exact hc.counts
  · rw [(hsame i).valid, (hsame i).tag, hatimes, (hsame i).key]
    exact hc.empty i
  · rw [(hsame i).valid, hatimes]
    exact hc.stamped (htime ▸ hlt) i

theorem stamped_tick {c c' : FlatLruCache τ n} {i j : Fin n} (hc : Sized c)
    (htime : c'.time = c.time + 1) (hatimes : c'.atimes = Function.update c.atimes i c.tick)
    (hvalid : j ≠ i → (c.values j).valid = true) (hlt : c'.time < 2 ^ 64) : 0 < c'.atimes j := by
  have htick : c.tick = c.time + 1 := Nat.mod_eq_of_lt (by omega)
  rw [hatimes]
  by_cases hj : j = i
  · subst hj
    rw [Function.update_self, htick]
    exact Nat.succ_pos _
  · rw [Function.update_of_ne hj]
    exact hc.stamped (by omega) j (hvalid hj)

theorem Sized.touch {c : FlatLruCache τ n} (hc : Sized c) {i : Fin n}
    (hi : (c.values i).valid = true) : Sized (c.touch i) := by
  have hsame := sameDataset_touch c i
  refine ⟨Nat.le_succ_of_le hc.size_le, hc.size_lt, ?_, fun j hj ↦ ?_, fun hlt j hj ↦ ?_⟩
  · rw [filledSlots_congr hsame]
    exact hc.counts
  · rw [(hsame j).valid] at hj
    have hne : j ≠ i := by
      rintro rfl
      rw [hi] at hj
      cases hj
    have hatime : (c.touch i).atimes j = c.atimes j := Function.update_of_ne hne ..
    rw [(hsame j).tag, hatime, (hsame j).key]
    exact hc.empty j hj
  · rw [(hsame j).valid] at hj
    exact stamped_tick hc rfl rfl (fun _ ↦ hj) hlt

def Roomy (c : FlatLruCache τ n) : Prop :=
  c.time < 2 ^ 64 - 1 ∧
    ((∃ i, c.Idle i ∧ (c.values i).valid = false) ∨ ∀ i, (c.values i).valid = true)

theorem Sized.candidate_empty {c : FlatLruCache τ n} (hc : Sized c) (htime : c.time < 2 ^ 64 - 1)
    {b i : Fin n} (hb : c.Candidate b) (hi : c.Idle i) (hempty : (c.values i).valid = false) :
    (c.values b).valid = false := by
  have hatime : c.atimes i = 0 := (hc.empty i hempty).2.1
  have hev : c.Evictable i := ⟨hi, by rw [hatime, atimeMax]; decide⟩
  have hleast := hb.least i hev
  cases hvalid : (c.values b).valid with
  | false => rfl
  | true =>
    have hpos := hc.stamped (by omega) b hvalid
    omega

theorem Sized.filled {c : FlatLruCache τ n} (hc : Sized c) {b : Fin n} (hb : c.Candidate b)
    (hroom : c.Roomy) (tag : UInt64) (key : UriOptions) (d : DatasetH) :
    Sized (c.filled b tag key d) := by
  obtain ⟨htime, hroom⟩ := hroom
  have hsize : (c.filled b tag key d).size = c.size + 1 := rfl
  have hle := hc.size_le
  refine ⟨Nat.succ_le_succ hle, by omega, ?_, fun j hj ↦ ?_, fun hlt j hj ↦ ?_⟩
  · have hcard := (c.filled b tag key d).card_filledSlots_le
    rw [hsize]
    rw [filledSlots_filled] at hcard ⊢
    rcases hroom with ⟨i, hi, hempty⟩ | hall
    · have hnew : b ∉ c.filledSlots := fun hmem ↦ by
        rw [mem_filledSlots, hc.candidate_empty htime hb hi hempty] at hmem
        cases hmem
      rw [Finset.card_insert_of_notMem hnew] at hcard ⊢
      rcases hc.counts with heq | ⟨hfull, -⟩ <;> omega
    · have hfull : c.filledSlots.card = n := by
        rw [filledSlots, Finset.filter_true_of_mem fun i _ ↦ hall i, Finset.card_univ,
          Fintype.card_fin]
      rw [Finset.insert_eq_of_mem (mem_filledSlots.mpr (hall b))]
      rcases hc.counts with heq | ⟨-, hover⟩ <;> omega
  · have hne : j ≠ b := by
      rintro rfl
      rw [filled_values_self] at hj
      cases hj
    have hsame := sameDataset_filled c tag key d hne
    rw [hsame.valid] at hj
    rw [hsame.tag, filled_atimes_of_ne _ _ _ _ hne, hsame.key]
    exact hc.empty j hj
  · refine stamped_tick hc rfl rfl (fun hne ↦ ?_) hlt
    rwa [(sameDataset_filled c tag key d hne).valid] at hj

theorem sized_fresh : Sized (fresh τ n) := by
  have hnone : (fresh τ n).filledSlots = ∅ := by
    refine Finset.eq_empty_of_forall_notMem fun i hi ↦ ?_
    rw [mem_filledSlots] at hi
    cases hi
  refine ⟨le_rfl, Nat.two_pow_pos 64, Or.inl ?_, fun _ _ ↦ ⟨rfl, rfl, rfl⟩, fun _ i hi ↦ ?_⟩
  · rw [hnone]
    rfl
  · cases hi

theorem Sized.find {h : StringHash} {c : FlatLruCache τ n} {key : UriOptions} (hc : Sized c)
    (hkey : key = ("", []) → h "" ≠ 0) : Sized (c.find (hashUriOptions h key) key).2 := by
  refine find_invariant (I := fun c _ ↦ Sized c) (fun c log i hc hhit ↦ ?_) [] hc
  cases hvalid : (c.values i).valid with
  | true => exact hc.touch hvalid
  | false =>
    obtain ⟨htag, -, hblank⟩ := hc.empty i hvalid
    rw [hit, Bool.and_eq_true, beq_iff_eq, beq_iff_eq, htag, hblank] at hhit
    obtain ⟨hhash, rfl⟩ := hhit
    exact absurd hhash.symm (by simpa [hashUriOptions, hashOptions] using hkey rfl)

variable [DecidableEq τ]

theorem Sized.insertOne {t : τ} {tag : UInt64} {key : UriOptions} {o : Opener} {s s' : Got τ n}
    (hs : Sized s.cache) (hone : insertOne t tag key o s = some s')
    (hroom : (LockedDataset.outcome o key).warped = true → (∃ b, s.cache.Evictable b) →
      s.cache.Roomy) : Sized s'.cache := by
  rcases insertOne_some hone with ⟨-, rfl⟩ | ⟨b, hb, ⟨-, rfl⟩ | ⟨ho, rfl⟩⟩
  · exact hs
  · exact hs.same (sameDataset_setValue s.cache b _ rfl rfl rfl) rfl rfl rfl
  · exact hs.filled hb (hroom ho ⟨b, hb.evictable⟩) _ _ _

theorem clear_size {t : τ} {c c' : FlatLruCache τ n} {g g' : Gdal} (hn : n ≠ 0)
    (h : c.clear t g = some (c', g')) : c'.size = 0 := by
  obtain ⟨m, rfl⟩ := Nat.exists_eq_succ_of_ne_zero hn
  rw [clear, List.finRange_succ, List.foldlM_cons, Option.bind_eq_bind,
    Option.bind_eq_some_iff] at h
  obtain ⟨u, hu, htail⟩ := h
  have hfirst : clearSlot t (c, g) 0 = some (u.1, u.2) := hu
  refine foldlM_invariant (I := fun s ↦ s.1.size = 0) ?_ ?_ htail
  · intro s i s' _ hslot
    have hslot : clearSlot t (s.1, s.2) i = some (s'.1, s'.2) := hslot
    rw [(clearSlot_some hslot).2.1]
    rfl
  · rw [(clearSlot_some hfirst).2.1]
    rfl

theorem Sized.clear {t : τ} {c c' : FlatLruCache τ n} {g g' : Gdal} (hc : Sized c)
    (h : c.clear t g = some (c', g')) : Sized c' := by
  obtain ⟨-, hblank⟩ := clear_blank h
  have hbounds : c'.size ≤ c'.time ∧ c'.size < 2 ^ 64 := by
    refine clear_invariant (I := fun c _ ↦ c.size ≤ c.time ∧ c.size < 2 ^ 64) ?_
      ⟨hc.size_le, hc.size_lt⟩ h
    exact fun _ _ _ _ _ ↦ ⟨Nat.zero_le _, Nat.two_pow_pos 64⟩
  have hnone : c'.filledSlots = ∅ := by
    refine Finset.eq_empty_of_forall_notMem fun i hi ↦ ?_
    rw [mem_filledSlots, (hblank i).2.2.1] at hi
    cases hi
  refine ⟨hbounds.1, hbounds.2, ?_, fun i _ ↦ ?_, fun _ i hi ↦ ?_⟩
  · rw [hnone, Finset.card_empty]
    by_cases hn : n = 0
    · exact Or.inr ⟨hn.symm, by omega⟩
    · exact Or.inl (clear_size hn h)
  · obtain ⟨htag, hatime, -, hkey⟩ := hblank i
    exact ⟨htag, hatime, hkey⟩
  · rw [(hblank i).2.2.1] at hi
    cases hi

end FlatLruCache

namespace Session

variable [DecidableEq τ]

/-- Whenever the insert loop of a `get` opens a dataset for a slot to evict, the
slot can be an empty one. A request for the empty pair finds no empty slot. -/
def TakesEmpty (h : StringHash) (s : Session τ n) (op : CacheOp τ n) : Prop :=
  ∀ t key copies o, op = .get t key copies o → (key = ("", []) → h "" ≠ 0) ∧
    ∀ j r, j < (request copies (s.cache.find (hashUriOptions h key) key).1.length).missing →
      insertLoop t (hashUriOptions h key) key o j ⟨(s.cache.find (hashUriOptions h key) key).1,
        (s.cache.find (hashUriOptions h key) key).2, s.gdal⟩ = some r →
      (LockedDataset.outcome (o j) key).warped = true → (∃ b, r.cache.Evictable b) → r.cache.Roomy

theorem sized_step {h : StringHash} {s s' : Session τ n} {op : CacheOp τ n} (hs : Sized s.cache)
    (hroom : s.TakesEmpty h op) (hstep : s.step h op = some s') : Sized s'.cache := by
  cases op with
  | get t key copies o =>
    obtain ⟨hkey, hturn⟩ := hroom t key copies o rfl
    obtain ⟨r, hr, rfl⟩ := Option.map_eq_some_iff.mp hstep
    have hloop (j : ℕ) : j ≤ (request copies
        (s.cache.find (hashUriOptions h key) key).1.length).missing →
        ∀ r, insertLoop t (hashUriOptions h key) key o j
          ⟨(s.cache.find (hashUriOptions h key) key).1,
            (s.cache.find (hashUriOptions h key) key).2, s.gdal⟩ = some r → Sized r.cache := by
      induction j with
      | zero =>
        intro _ r hr
        obtain rfl := Option.some.inj hr
        exact hs.find hkey
      | succ j ih =>
        intro hj r hr
        obtain ⟨u, hu, hone⟩ := Option.bind_eq_some_iff.mp hr
        exact (ih (by omega) u hu).insertOne hone (hturn j u (by omega) hu)
    exact hloop _ le_rfl r hr
  | dec i =>
    cases hstep
    exact hs.same (sameDataset_setValue s.cache i _ rfl rfl rfl) rfl rfl rfl
  | clear t =>
    obtain ⟨⟨c', g'⟩, hr, rfl⟩ := Option.map_eq_some_iff.mp hstep
    exact hs.clear hr

/-- As long as inserts take empty slots first, the cache reports its filled slots. -/
theorem size_counts_filled_slots {h : StringHash} {ops : List (CacheOp τ n)}
    (hops : (machine h τ n).EveryStep (TakesEmpty h) (machine h τ n).init ops) :
    (machine h τ n).EveryState (fun s ↦ s.cache.reportedSize = s.cache.filledSlots.card)
      (machine h τ n).init ops :=
  hops.everyState (I := fun s ↦ Sized s.cache) (fun _ _ _ hs hroom hstep ↦ sized_step hs hroom hstep)
    (fun _ hs ↦ hs.reports) sized_fresh

theorem size_counts_filled_slots_eviction :
    (machine terminatedHash Unit 1).EveryState
      (fun s ↦ s.cache.reportedSize = s.cache.filledSlots.card)
      (machine terminatedHash Unit 1).init
      [.get () ("a.tif", []) 1 fun _ ↦ answering true true, .dec 0,
        .get () ("bb.tif", []) 1 fun _ ↦ answering true true] := by
  refine size_counts_filled_slots (.cons rfl ?_ (.cons rfl nofun (.cons rfl ?_ trivial)))
  · rintro t key copies o ⟨⟩
    refine ⟨fun _ ↦ by decide, fun j r hj hr _ _ ↦ ?_⟩
    obtain rfl : j = 0 := Nat.lt_one_iff.mp hj
    obtain rfl := Option.some.inj hr
    exact ⟨by decide, Or.inl ⟨0, by decide, rfl⟩⟩
  · rintro t key copies o ⟨⟩
    refine ⟨fun _ ↦ by decide, fun j r hj hr _ _ ↦ ?_⟩
    obtain rfl : j = 0 := Nat.lt_one_iff.mp hj
    obtain rfl := Option.some.inj hr
    exact ⟨by decide, Or.inr (by decide)⟩

def badUriOps : List (CacheOp Unit 2) :=
  [.get () ("bad.tif", []) 1 fun _ ↦ answering false true,
    .get () ("a.tif", []) 1 fun _ ↦ answering true true, .dec 1,
    .get () ("bb.tif", []) 1 fun _ ↦ answering true true]

/-- The slot that the failed insert leaves locked stays empty, so the third
insert evicts the one dataset there is and counts it twice. -/
theorem bad_uri_overcounts :
    ¬ (machine terminatedHash Unit 2).EveryState
      (fun s ↦ s.cache.reportedSize = s.cache.filledSlots.card)
      (machine terminatedHash Unit 2).init badUriOps := by
  intro hstates
  have hrun : (machine terminatedHash Unit 2).run (machine terminatedHash Unit 2).init badUriOps =
      some _ := rfl
  have hlast := hstates.last hrun
  exact absurd hlast (by decide)

end Session

end GdalWarp.Bindings
