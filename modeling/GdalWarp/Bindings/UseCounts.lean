import GdalWarp.Bindings.ReferenceCounts

namespace GdalWarp.Bindings.Service

open Foundation FlatLruCache
open scoped BigOperators

variable {τ : Type} {L : LruCache} {n : ℕ}

def Distinct (s : Service τ L n) : Prop := ∀ t, (s.threads t).held.Nodup

theorem find_nodup (c : FlatLruCache τ n) (tag : UInt64) (key : UriOptions) :
    (c.find tag key).1.Nodup := by
  rw [find_eq]
  exact (List.nodup_finRange n).filter _

variable [DecidableEq τ]

theorem Distinct.put {s : Service τ L n} (hs : s.Distinct) {t : τ} {tok : L.State}
    {c : FlatLruCache τ n} {g : Gdal} {wr : Option τ} {th : Thread n} (hth : th.held.Nodup) :
    Distinct ((⟨tok, c, g, wr, s.threads, s.aborted⟩ : Service τ L n).put t th) :=
  forall_put (P := fun _ th ↦ th.held.Nodup) hth fun u _ ↦ hs u

theorem Distinct.work {s : Service τ L n} (hs : s.Distinct) (t : τ) (f : Frame) (i : Fin n)
    (rest : List (Fin n)) (p : Task (ℤ × Option ℤ)) : (s.work t f i rest p).Distinct := by
  cases p with
  | tryLock k =>
    rw [Service.work]
    split
    · exact hs.put (hs t)
    · exact hs.put (hs t)
  | ret a | unlock k | call c k => exact hs.put (hs t)

/-- The slot that an insert takes is one that nobody refers to. -/
theorem Distinct.insert [Fintype τ] {h : StringHash} {s : Service τ L n} (hs : s.Distinct)
    (hc : s.Counted) {t : τ} {o : Opener} {f : Frame} {found : List (Fin n)} {left : ℕ}
    {r : Got τ n} (hpc : (s.threads t).pc = .inserting f found (left + 1))
    (hr : insertOne t (hashUriOptions h f.pair) f.pair o ⟨found, s.cache, s.gdal⟩ = some r) :
    r.list.Nodup := by
  have hheld : (s.threads t).held = found := by rw [(hc.consistent t).held, hpc]; rfl
  have hfound : found.Nodup := hheld ▸ hs t
  rcases insertOne_some hr with ⟨-, rfl⟩ | ⟨b, hb, ⟨-, rfl⟩ | ⟨-, rfl⟩⟩
  · exact hfound
  · exact hfound
  · have hnew : b ∉ found := hheld ▸ hc.not_held hb.useCount t
    refine hfound.append (List.nodup_singleton b) fun i hi hb' ↦ hnew ?_
    rwa [← List.mem_singleton.mp hb']

theorem Distinct.effect [Fintype τ] {h : StringHash} {s s' : Service τ L n}
    {e : ServiceEvent τ} (hs : s.Distinct) (hc : s.Counted) (he : Effect h s e s') :
    s'.Distinct := by
  cases he with
  | tokens e tok => exact hs
  | quiet e t tok wr pc hq => exact hs.put (hs t)
  | find e t f hpc => exact hs.put (find_nodup ..)
  | insert t o f found left r hpc hr => exact hs.put (hs.insert hc hpc hr)
  | begin e t f i rest l hpc => exact hs.put (hs t)
  | work e t f i rest p hpc => exact hs.work t f i rest p
  | answer e t f i rest c k r hpc => exact hs.put (hs t)
  | dec e t f i rest l hpc => exact hs.put ((hs t).erase i)

/-- However the calls interleave, a slot is used by as many calls as its count says and by
no thread twice: the count is never negative and never more than there are threads. -/
theorem use_counts_bounded [Fintype τ] {h : StringHash} {size : ℕ} {s : Service τ L n}
    (hs : (machine h τ L size n).Reachable s) :
    s.Distinct ∧ ∀ i, 0 ≤ (s.cache.values i).useCount ∧
      (s.cache.values i).useCount ≤ Fintype.card τ := by
  have hinv := hs.invariant (I := fun s ↦ s.Counted ∧ s.Distinct)
    ⟨reachable_counted Machine.Reachable.start, fun t ↦ List.nodup_nil⟩
    fun s e s' hs hstep ↦
      ⟨hs.1.effect (step_effect hstep), hs.2.effect hs.1 (step_effect hstep)⟩
  obtain ⟨hcounted, hdistinct⟩ := hinv
  refine ⟨hdistinct, fun i ↦ ?_⟩
  rw [hcounted.uses i, references]
  constructor
  · exact Finset.sum_nonneg fun t _ ↦ Int.natCast_nonneg _
  · have hone (t : τ) : ((s.threads t).held.count i : ℤ) ≤ 1 := by
      exact_mod_cast List.nodup_iff_count_le_one.mp (hdistinct t) i
    calc ∑ t, ((s.threads t).held.count i : ℤ)
        ≤ ∑ _t : τ, (1 : ℤ) := Finset.sum_le_sum fun t _ ↦ hone t
      _ = Fintype.card τ := by simp

theorem use_counts_bounded_two_threads :
    ∃ s, (machine lengthHash Bool (.ofList Token UriOptions) 4 1).Reachable s ∧
      (s.cache.values 0).useCount = 2 ∧ (s.cache.values 0).useCount ≤ Fintype.card Bool := by
  have hs : (machine lengthHash Bool (.ofList Token UriOptions) 4 1).Reachable _ :=
    ⟨[.getToken ("a.tif", []) [], .call false ⟨33, .noop, 1, 1, 0⟩, .query false 0,
      .round false 0, .lockCache false, .insert false (answering true true), .unlockCache false,
      .call true ⟨33, .noop, 1, 1, 0⟩, .query true 0, .round true 0], rfl⟩
  exact ⟨_, hs, by decide, ((use_counts_bounded hs).2 0).2⟩

end GdalWarp.Bindings.Service
