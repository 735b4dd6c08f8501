import GdalWarp.Foundation.Counting
import GdalWarp.Bindings.Lookup

namespace GdalWarp.Bindings

open Foundation FlatLruCache

variable {τ : Type} {n : ℕ}

namespace FlatLruCache

/-- What a get that started from `c` has done by the time it is at `s`. -/
structure Extends (tag : UInt64) (key : UriOptions) (c : FlatLruCache τ n) (s : Got τ n) : Prop where
  nodup : s.list.Nodup
  hits : ∀ i, c.hit tag key i = true → i ∈ s.list
  uses : ∀ i, (s.cache.values i).useCount = (c.values i).useCount + s.list.count i
  kept : ∀ i, i ∉ s.list ∨ c.hit tag key i = true ∨ (c.values i).useCount ≠ 0 →
    SameDataset c s.cache i
  created : ∀ i ∈ s.list, c.hit tag key i = false →
    s.cache.hit tag key i = true ∧ (s.cache.values i).valid = true

theorem extends_find (tag : UInt64) (key : UriOptions) (c : FlatLruCache τ n) (g : Gdal) :
    Extends tag key c ⟨(c.find tag key).1, (c.find tag key).2, g⟩ := by
  refine ⟨?_, ?_, ?_, fun i _ ↦ sameDataset_find c tag key i, ?_⟩
  · rw [find_eq]
    exact (List.nodup_finRange n).filter _
  · intro i hi
    rw [find_eq]
    exact List.mem_filter.mpr ⟨List.mem_finRange i, hi⟩
  · intro i
    dsimp only
    rw [find_eq]
    exact foldl_touch_useCount c _ i
  · intro i hi hmiss
    rw [find_eq] at hi
    have hhit : c.hit tag key i = true := (List.mem_filter.mp hi).2
    rw [hmiss] at hhit
    cases hhit

theorem Extends.fresh {tag : UInt64} {key : UriOptions} {c : FlatLruCache τ n} {s : Got τ n}
    (hs : Extends tag key c s) (huse : ∀ i, 0 ≤ (c.values i).useCount) {b : Fin n}
    (hb : (s.cache.values b).useCount = 0) : b ∉ s.list ∧ (c.values b).useCount = 0 := by
  have huses := hs.uses b
  have hpos := huse b
  rw [hb] at huses
  constructor
  · intro hmem
    have hcount : 0 < s.list.count b := List.count_pos_iff.mpr hmem
    omega
  · omega

theorem Extends.locked {tag : UInt64} {key : UriOptions} {c : FlatLruCache τ n} {s : Got τ n}
    (hs : Extends tag key c s) (t : τ) (b : Fin n) (g : Gdal) :
    Extends tag key c ⟨s.list, s.cache.setValue b ((s.cache.values b).lock t), g⟩ := by
  have hsame := sameDataset_setValue s.cache b ((s.cache.values b).lock t) rfl rfl rfl
  refine ⟨hs.nodup, hs.hits, fun i ↦ ?_, fun i hi ↦ (hs.kept i hi).trans (hsame i), ?_⟩
  · have huse := setValue_field LockedDataset.useCount s.cache
      (LockedDataset.lock_useCount t (s.cache.values b)) i
    exact huse.trans (hs.uses i)
  · intro i hi hmiss
    obtain ⟨hhit, hvalid⟩ := hs.created i hi hmiss
    exact ⟨((hsame i).hit tag key).trans hhit, (hsame i).valid.trans hvalid⟩

theorem Extends.filled {tag : UInt64} {key : UriOptions} {c : FlatLruCache τ n} {s : Got τ n}
    (hs : Extends tag key c s) (huse : ∀ i, 0 ≤ (c.values i).useCount) {b : Fin n}
    (hb : (s.cache.values b).useCount = 0) (d : DatasetH) (g : Gdal) :
    Extends tag key c ⟨s.list ++ [b], s.cache.filled b tag key d, g⟩ := by
  obtain ⟨hnew, hunused⟩ := hs.fresh huse hb
  have hmiss : c.hit tag key b ≠ true := fun hhit ↦ hnew (hs.hits b hhit)
  have hother {i : Fin n} (hi : i ≠ b) : SameDataset s.cache (s.cache.filled b tag key d) i :=
    sameDataset_filled s.cache tag key d hi
  refine ⟨?_, ?_, ?_, ?_, ?_⟩
  · refine List.nodup_append.mpr ⟨hs.nodup, List.nodup_singleton b, fun i hi j hj ↦ ?_⟩
    rw [List.mem_singleton.mp hj]
    exact ne_of_mem_of_not_mem hi hnew
  · exact fun i hi ↦ List.mem_append_left _ (hs.hits i hi)
  · intro i
    dsimp only
    rw [List.count_append, List.count_singleton]
    by_cases hi : i = b
    · subst hi
      have hcount : s.list.count i = 0 := List.count_eq_zero.mpr hnew
      rw [filled_values_self, hunused, hcount, beq_self_eq_true]
      rfl
    · rw [filled_values_of_ne _ _ _ _ hi, hs.uses i, if_neg (by simpa using Ne.symm hi),
        Nat.add_zero]
  · intro i hi
    have hne : i ≠ b := by
      rintro rfl
      rcases hi with hi | hi | hi
      · exact hi (List.mem_append_right _ List.mem_cons_self)
      · exact hmiss hi
      · exact hi hunused
    refine (hs.kept i ?_).trans (hother hne)
    exact hi.imp_left fun hi hmem ↦ hi (List.mem_append_left _ hmem)
  · intro i hi hmiss
    by_cases hib : i = b
    · subst hib
      constructor
      · rw [hit, filled_tags_self, filled_values_self, beq_self_eq_true, beq_self_eq_true, Bool.and_self]
      · rw [filled_values_self]
        rfl
    · have hmem : i ∈ s.list := (List.mem_append.mp hi).resolve_right (by simpa using hib)
      obtain ⟨hhit, hvalid⟩ := hs.created i hmem hmiss
      exact ⟨((hother hib).hit tag key).trans hhit, (hother hib).valid.trans hvalid⟩

instance (c : FlatLruCache τ n) (i : Fin n) : Decidable (c.Evictable i) :=
  inferInstanceAs (Decidable (_ ∧ _))

def spare (c : FlatLruCache τ n) : Finset (Fin n) := Finset.univ.filter fun i ↦ c.Evictable i

theorem mem_spare {c : FlatLruCache τ n} {i : Fin n} : i ∈ c.spare ↔ c.Evictable i := by
  simp [spare]

theorem spare_filled (c : FlatLruCache τ n) (b : Fin n) (tag : UInt64) (key : UriOptions)
    (d : DatasetH) : (c.filled b tag key d).spare = c.spare.erase b := by
  ext i
  rw [Finset.mem_erase, mem_spare, mem_spare]
  by_cases hi : i = b
  · subst hi
    rw [Evictable, Idle, filled_values_self]
    simp
  · rw [Evictable, Idle, filled_values_of_ne _ _ _ _ hi, filled_atimes_of_ne _ _ _ _ hi]
    exact ⟨fun hx ↦ ⟨hi, hx⟩, fun hx ↦ hx.2⟩

theorem foldl_touch_atimes {c : FlatLruCache τ n} {l : List (Fin n)} {i : Fin n} (hi : i ∉ l) :
    (l.foldl touch c).atimes i = c.atimes i := by
  induction l generalizing c with
  | nil => rfl
  | cons j l ih =>
    obtain ⟨hne, hmem⟩ := List.ne_and_not_mem_of_not_mem_cons hi
    rw [List.foldl_cons, ih hmem]
    exact Function.update_of_ne hne ..

/-- The hits protect themselves: what is left to evict holds another key. -/
theorem spare_find {c : FlatLruCache τ n} (huse : ∀ i, 0 ≤ (c.values i).useCount)
    (hatimes : ∀ i, c.atimes i < atimeMax) (tag : UInt64) (key : UriOptions) :
    (c.find tag key).2.spare =
      Finset.univ.filter fun i ↦ c.Idle i ∧ c.hit tag key i = false := by
  ext i
  rw [mem_spare, Finset.mem_filter_univ, find_eq, Evictable, Idle, foldl_touch_useCount,
    foldl_touch_field LockedDataset.datasetLock fun _ ↦ rfl]
  cases hhit : c.hit tag key i with
  | true =>
    have hmem : i ∈ (List.finRange n).filter (c.hit tag key) :=
      List.mem_filter.mpr ⟨List.mem_finRange i, hhit⟩
    have hcount := List.count_pos_iff.mpr hmem
    have hpos := huse i
    simp only [Bool.true_eq_false, and_false, iff_false]
    rintro ⟨⟨hzero, -⟩, -⟩
    omega
  | false =>
    have hmem : i ∉ (List.finRange n).filter (c.hit tag key) := fun hi ↦ by
      rw [(List.mem_filter.mp hi).2] at hhit
      cases hhit
    rw [List.count_eq_zero.mpr hmem, foldl_touch_atimes hmem]
    simp [Idle, hatimes i]

theorem Extends.hit_iff_mem {tag : UInt64} {key : UriOptions} {c : FlatLruCache τ n} {r : Got τ n}
    (hext : Extends tag key c r) (i : Fin n) : r.cache.hit tag key i = true ↔ i ∈ r.list := by
  constructor
  · intro hi
    by_contra hmem
    rw [(hext.kept i (Or.inl hmem)).hit] at hi
    exact hmem (hext.hits i hi)
  · intro hmem
    cases hmiss : c.hit tag key i with
    | true => rw [(hext.kept i (Or.inr (Or.inl hmiss))).hit, hmiss]
    | false => exact (hext.created i hmem hmiss).1

theorem Extends.count_eq_length {h : StringHash} {key : UriOptions} {c : FlatLruCache τ n}
    {r : Got τ n} (hext : Extends (hashUriOptions h key) key c r) :
    r.cache.count h key = r.list.length := by
  have hset : (Finset.univ.filter fun i ↦ r.cache.hit (hashUriOptions h key) key i = true) =
      r.list.toFinset := by
    ext i
    rw [Finset.mem_filter_univ, List.mem_toFinset, hext.hit_iff_mem]
  rw [count, countP_finRange, hset, List.toFinset_card_of_nodup hext.nodup]

variable [DecidableEq τ]

theorem Extends.insertOne {t : τ} {tag : UInt64} {key : UriOptions} {o : Opener}
    {c : FlatLruCache τ n} {s s' : Got τ n} (hs : Extends tag key c s)
    (huse : ∀ i, 0 ≤ (c.values i).useCount) (hone : insertOne t tag key o s = some s') :
    Extends tag key c s' := by
  rcases insertOne_some hone with ⟨-, rfl⟩ | ⟨b, hb, ⟨-, rfl⟩ | ⟨-, rfl⟩⟩
  · exact hs
  · exact hs.locked t b _
  · exact hs.filled huse hb.useCount _ _

theorem insertLoop_total (t : τ) (tag : UInt64) (key : UriOptions) (o : ℕ → Opener) (j : ℕ)
    (s : Got τ n) : ∃ r, insertLoop t tag key o j s = some r := by
  induction j with
  | zero => exact ⟨s, rfl⟩
  | succ j ih =>
    obtain ⟨r, hr⟩ := ih
    rw [insertLoop, hr, Option.bind_some]
    exact insertOne_isSome t tag key (o j) r

theorem insertLoop_length_le {t : τ} {tag : UInt64} {key : UriOptions} {o : ℕ → Opener} {j : ℕ}
    {s r : Got τ n} (hr : insertLoop t tag key o j s = some r) :
    r.list.length ≤ s.list.length + j := by
  induction j generalizing r with
  | zero =>
    obtain rfl := Option.some.inj hr
    exact le_rfl
  | succ j ih =>
    obtain ⟨u, hu, hone⟩ := Option.bind_eq_some_iff.mp hr
    have hle := ih hu
    rcases insertOne_some hone with ⟨-, rfl⟩ | ⟨b, -, ⟨-, rfl⟩ | ⟨-, rfl⟩⟩
    · omega
    · dsimp only
      omega
    · rw [List.length_append, List.length_singleton]
      omega

theorem insertLoop_length {t : τ} {tag : UInt64} {key : UriOptions} {o : ℕ → Opener} {j : ℕ}
    {s r : Got τ n} (ho : ∀ j, (LockedDataset.outcome (o j) key).warped = true)
    (hr : insertLoop t tag key o j s = some r) :
    r.list.length + r.cache.spare.card = s.list.length + s.cache.spare.card ∧
    r.list.length = min (s.list.length + j) (s.list.length + s.cache.spare.card) := by
  induction j generalizing r with
  | zero =>
    obtain rfl := Option.some.inj hr
    exact ⟨rfl, by omega⟩
  | succ j ih =>
    obtain ⟨u, hu, hone⟩ := Option.bind_eq_some_iff.mp hr
    obtain ⟨hsum, hlen⟩ := ih hu
    rcases insertOne_some hone with ⟨hnone, rfl⟩ | ⟨b, hb, ⟨hfail, -⟩ | ⟨-, rfl⟩⟩
    · have hempty : r.cache.spare = ∅ :=
        Finset.eq_empty_of_forall_notMem fun i hi ↦ hnone i (mem_spare.mp hi)
      rw [hempty, Finset.card_empty] at hsum
      exact ⟨by rw [hempty, Finset.card_empty, hsum], by omega⟩
    · rw [ho j] at hfail
      cases hfail
    · have hmem : b ∈ u.cache.spare := mem_spare.mpr hb.evictable
      have hcard := Finset.card_pos.mpr ⟨b, hmem⟩
      rw [spare_filled, Finset.card_erase_of_mem hmem, List.length_append, List.length_singleton]
      omega

theorem request_missing_le (copies : ℤ) (found : ℕ) :
    found + (request copies found).missing ≤ max found copies.natAbs := by
  unfold request
  dsimp only
  split_ifs <;> simp only [Request.missing] <;> omega

theorem request_missing_of_neg {copies : ℤ} (hc : copies < 0) : (request copies 0).missing = 1 := by
  simp [request, hc, Request.missing]

theorem request_missing_of_pos {copies : ℤ} (hc : 0 < copies) (found : ℕ) :
    (request copies found).missing = copies.toNat - found := by
  unfold request
  dsimp only
  rw [if_neg (not_lt.mpr hc.le)]
  split_ifs <;> simp only [Request.missing] <;> omega

theorem get_total (h : StringHash) (t : τ) (o : ℕ → Opener) (g : Gdal) (c : FlatLruCache τ n)
    (key : UriOptions) (copies : ℤ) : ∃ r, c.get h t o g key copies = some r :=
  insertLoop_total ..

theorem Extends.get {h : StringHash} {t : τ} {o : ℕ → Opener} {g : Gdal} {c : FlatLruCache τ n}
    {key : UriOptions} {copies : ℤ} {r : Got τ n} (huse : ∀ i, 0 ≤ (c.values i).useCount)
    (hr : c.get h t o g key copies = some r) : Extends (hashUriOptions h key) key c r :=
  insertLoop_invariant (fun _ _ _ hs hone ↦ hs.insertOne huse hone) (extends_find _ key c g) hr

end FlatLruCache

namespace Session

variable [DecidableEq τ]

/-- A `dec` gives back one of the references that `get` has returned. -/
def Releases (s : Session τ n) (op : CacheOp τ n) : Prop :=
  ∀ i, op = .dec i → 0 < (s.cache.values i).useCount

theorem nonneg_step {h : StringHash} {s s' : Session τ n} {op : CacheOp τ n}
    (hs : ∀ i, 0 ≤ (s.cache.values i).useCount) (hrel : s.Releases op)
    (hstep : s.step h op = some s') : ∀ i, 0 ≤ (s'.cache.values i).useCount := by
  intro i
  cases op with
  | get t key copies o =>
    obtain ⟨r, hr, rfl⟩ := Option.map_eq_some_iff.mp hstep
    have huses := (Extends.get hs hr).uses i
    have hold := hs i
    dsimp only
    omega
  | dec j =>
    cases hstep
    by_cases hij : i = j
    · subst hij
      have hpos := hrel i rfl
      dsimp only
      rw [setValue_self, LockedDataset.dec]
      dsimp only
      omega
    · dsimp only
      rw [setValue_of_ne _ _ hij]
      exact hs i
  | clear t =>
    obtain ⟨⟨c', g'⟩, hr, rfl⟩ := Option.map_eq_some_iff.mp hstep
    refine clear_invariant (I := fun c _ ↦ ∀ i, 0 ≤ (c.values i).useCount) ?_ hs hr i
    intro c g j hc _ i
    by_cases hij : i = j
    · subst hij
      have hzero : ((c.cleared t i).values i).useCount = 0 := by simp [cleared]
      rw [hzero]
    · have hval : (c.cleared t j).values i = c.values i := Function.update_of_ne hij ..
      rw [hval]
      exact hc i

theorem nonneg_run {h : StringHash} {s : Session τ n} {ops : List (CacheOp τ n)}
    (hrun : (machine h τ n).run (machine h τ n).init ops = some s)
    (hrel : (machine h τ n).EveryStep Releases (machine h τ n).init ops) (i : Fin n) :
    0 ≤ (s.cache.values i).useCount := by
  refine (hrel.everyState (I := fun s ↦ ∀ i, 0 ≤ (s.cache.values i).useCount) ?_
    (fun _ hs ↦ hs) fun _ ↦ le_rfl).last hrun i
  exact fun _ _ _ hs hc hstep ↦ nonneg_step hs hc hstep

/-- What `get` promises of its list, for the cache `c` it is called on. -/
structure Served (h : StringHash) (key : UriOptions) (copies : ℤ) (c : FlatLruCache τ n)
    (r : Got τ n) : Prop where
  nodup : r.list.Nodup
  holding : ∀ i ∈ r.list, r.cache.holding key i = true
  hits : ∀ i, c.holding key i = true → i ∈ r.list
  uses : ∀ i, (r.cache.values i).useCount =
    (c.values i).useCount + if i ∈ r.list then 1 else 0
  kept : ∀ i, 0 < (c.values i).useCount → SameDataset c r.cache i
  count : r.cache.count h key = r.list.length
  length_le : r.list.length ≤ max (c.count h key) copies.natAbs
  passive : copies < 0 → c.count h key = 0 → r.list.length ≤ 1

theorem get_served {h : StringHash} (hempty : h "" ≠ 0) {s : Session τ n}
    {ops : List (CacheOp τ n)} (hrun : (machine h τ n).run (machine h τ n).init ops = some s)
    (hrel : (machine h τ n).EveryStep Releases (machine h τ n).init ops)
    (htime : s.cache.time < 2 ^ 64 - 1) (t : τ) (key : UriOptions) (copies : ℤ)
    (o : ℕ → Opener) :
    ∃ r, s.cache.get h t o s.gdal key copies = some r ∧ Served h key copies s.cache r ∧
      ((∀ j, (LockedDataset.outcome (o j) key).warped = true) → 0 < copies →
        r.list.length = max (s.cache.count h key) (min copies.toNat (s.cache.count h key +
          (Finset.univ.filter fun i ↦ s.cache.Idle i ∧ s.cache.holding key i = false).card))) := by
  have huse := nonneg_run hrun hrel
  have hs : (machine h τ n).Reachable s := ⟨ops, hrun⟩
  have hhit := hit_eq_holding hempty hs key
  obtain ⟨r, hr⟩ := get_total h t o s.gdal s.cache key copies
  have hext := Extends.get huse hr
  have hafter : r.cache.hit (hashUriOptions h key) key = r.cache.holding key :=
    hit_eq_holding (s := ⟨r.cache, r.gdal, r.list.reverse ++ s.log⟩) hempty
      (Machine.Reachable.step (e := .get t key copies o) hs
        (Option.map_eq_some_iff.mpr ⟨r, hr, rfl⟩)) key
  have hfound : (s.cache.find (hashUriOptions h key) key).1.length = s.cache.count h key := by
    rw [find_eq, count, List.countP_eq_length_filter]
  refine ⟨r, hr, ⟨hext.nodup, ?_, ?_, ?_, ?_, ?_, ?_, ?_⟩, ?_⟩
  · intro i hi
    rw [← hafter]
    exact (hext.hit_iff_mem i).mpr hi
  · intro i hi
    rw [← hhit] at hi
    exact hext.hits i hi
  · intro i
    rw [hext.uses i, hext.nodup.count, Nat.cast_ite]
    rfl
  · exact fun i hi ↦ hext.kept i (Or.inr (Or.inr (ne_of_gt hi)))
  · exact hext.count_eq_length
  · have hle := insertLoop_length_le hr
    have hmissing := request_missing_le copies (s.cache.count h key)
    rw [hfound] at hle
    omega
  · intro hneg hnone
    have hle := insertLoop_length_le hr
    rw [hfound, hnone, request_missing_of_neg hneg] at hle
    exact hle
  · intro ho hpos
    have hatimes (i : Fin n) : s.cache.atimes i < atimeMax :=
      lt_of_le_of_lt ((reachable_ranked hs (by omega)).stamp_le i) htime
    have hlength := (insertLoop_length ho hr).2
    rw [hfound, request_missing_of_pos hpos, spare_find huse hatimes, hhit] at hlength
    rw [hlength]
    omega

theorem get_served_three_copies : ∃ (s : Session Unit 3) (r : Got Unit 3),
    s.cache.get terminatedHash () (fun _ ↦ answering true true) s.gdal ("a.tif", []) 3 = some r ∧
    Served terminatedHash ("a.tif", []) 3 s.cache r ∧ r.list.length = 2 := by
  have hrun : (machine terminatedHash Unit 3).run (machine terminatedHash Unit 3).init
      [.get () ("a.tif", []) 1 fun _ ↦ answering true true, .dec 0,
        .get () ("bb.tif", []) 1 fun _ ↦ answering true true] = some _ := rfl
  obtain ⟨r, hr, hserved, hlength⟩ := get_served (by decide) hrun
    (.cons rfl nofun (.cons rfl (by rintro i ⟨⟩; decide) (.cons rfl nofun trivial)))
    (by decide) () ("a.tif", []) 3 fun _ ↦ answering true true
  exact ⟨_, r, hr, hserved, (hlength (fun _ ↦ rfl) (by decide)).trans (by decide)⟩

end Session

end GdalWarp.Bindings
