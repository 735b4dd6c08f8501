import GdalWarp.Foundation.Recency
import GdalWarp.Bindings.Session

namespace GdalWarp.Bindings

open Foundation Foundation.Recency FlatLruCache

variable {τ : Type} {n : ℕ}

/-- The access times stamp each slot with its last return by `get`. -/
def Ranked (c : FlatLruCache τ n) (log : List (Fin n)) : Prop :=
  c.time < 2 ^ 64 → Clock log c.time c.atimes

/-- The slots `get` has returned are the filled ones; the others are as `clear`
left them. -/
def Logged (c : FlatLruCache τ n) (log : List (Fin n)) : Prop :=
  ∀ i, i ∈ log ∧ (c.values i).valid = true ∨
    i ∉ log ∧ (c.values i).valid = false ∧ c.tags i = 0 ∧ (c.values i).uriOptions = ("", [])

def SameSlot (c c' : FlatLruCache τ n) (i : Fin n) : Prop :=
  c'.tags i = c.tags i ∧ c'.atimes i = c.atimes i ∧ c'.values i = c.values i

theorem Ranked.tick {c c' : FlatLruCache τ n} {log : List (Fin n)} {i : Fin n} (h : Ranked c log)
    (htime : c'.time = c.time + 1) (hatimes : c'.atimes = Function.update c.atimes i c.tick) :
    Ranked c' (i :: log) := by
  intro hlt
  have hclock := h (by omega)
  have htick : c.tick = c.time + 1 := Nat.mod_eq_of_lt (by omega)
  rw [htime, hatimes, htick]
  exact hclock.record i

theorem ranked_preserved (h : StringHash) :
    Session.Preserved (τ := τ) (n := n) h fun c _ log ↦ Ranked c log where
  touch _ _ _ _ _ hr _ := hr.tick rfl rfl
  locked _ _ _ _ _ _ _ hr _ _ := hr
  filled _ _ _ _ _ _ hr _ _ := hr.tick rfl rfl
  dec _ _ _ _ hr := hr

theorem Logged.same {c c' : FlatLruCache τ n} {log : List (Fin n)} (h : Logged c log)
    (hsame : ∀ i, SameDataset c c' i) : Logged c' log := by
  intro i
  rw [(hsame i).tag, (hsame i).valid, (hsame i).key]
  exact h i

theorem Logged.touch {h : StringHash} (hempty : h "" ≠ 0) {c : FlatLruCache τ n}
    {log : List (Fin n)} {i : Fin n} {key : UriOptions} (hl : Logged c log)
    (hhit : c.hit (hashUriOptions h key) key i = true) : Logged (c.touch i) (i :: log) := by
  have hmem : i ∈ log := by
    rcases hl i with ⟨hmem, -⟩ | ⟨-, -, htag, hkey⟩
    · exact hmem
    · simp only [hit, Bool.and_eq_true, beq_iff_eq] at hhit
      rw [htag, hkey] at hhit
      obtain ⟨hhash, rfl⟩ := hhit
      exact absurd hhash.symm (by simpa [hashUriOptions, hashOptions] using hempty)
  intro j
  have hsame := sameDataset_touch c i j
  rw [hsame.tag, hsame.valid, hsame.key, List.mem_cons]
  by_cases hj : j = i
  · subst hj
    simpa [hmem] using hl j
  · simpa only [hj, false_or] using hl j

theorem Logged.filled {c : FlatLruCache τ n} {log : List (Fin n)} (hl : Logged c log) (b : Fin n)
    (tag : UInt64) (key : UriOptions) (d : DatasetH) :
    Logged (c.filled b tag key d) (b :: log) := by
  intro j
  by_cases hj : j = b
  · subst hj
    exact Or.inl ⟨List.mem_cons_self, by rw [filled_values_self]; rfl⟩
  · have hsame := sameDataset_filled c tag key d hj
    rw [hsame.tag, hsame.valid, hsame.key, List.mem_cons]
    simpa only [hj, false_or] using hl j

theorem logged_preserved {h : StringHash} (hempty : h "" ≠ 0) :
    Session.Preserved (τ := τ) (n := n) h fun c _ log ↦ Logged c log where
  touch _ _ _ _ _ hl hhit := hl.touch hempty hhit
  locked _ c _ _ b _ _ hl _ _ := hl.same (sameDataset_setValue c b _ rfl rfl rfl)
  filled _ _ _ b key _ hl _ _ := hl.filled b (hashUriOptions h key) key _
  dec c _ _ b hl := hl.same (sameDataset_setValue c b _ rfl rfl rfl)

theorem Ranked.candidate {c : FlatLruCache τ n} {log : List (Fin n)} (h : Ranked c log)
    (htime : c.time < 2 ^ 64 - 1) {b i : Fin n} (hb : c.Candidate b) (hi : c.Idle i)
    (hne : i ≠ b) : Older log b i := by
  have hclock := h (by omega)
  have hatime : c.atimes i < atimeMax := lt_of_le_of_lt (hclock.stamp_le i) htime
  exact hclock.older (Ne.symm hne) (hb.least i ⟨hi, hatime⟩)

variable [DecidableEq τ]

theorem reachable_ranked {h : StringHash} {s : Session τ n}
    (hs : (Session.machine h τ n).Reachable s) : Ranked s.cache s.log := by
  refine (ranked_preserved h).reachable ?_ ?_ hs
  · exact fun _ ↦ ⟨by simp, fun _ _ ↦ rfl, le_refl _⟩
  · intro t c c' g g' log _ hclear _
    obtain ⟨-, hblank⟩ := clear_blank hclear
    exact ⟨by simp, fun i _ ↦ (hblank i).2.1, Nat.zero_le _⟩

theorem reachable_logged {h : StringHash} (hempty : h "" ≠ 0) {s : Session τ n}
    (hs : (Session.machine h τ n).Reachable s) : Logged s.cache s.log := by
  refine (logged_preserved hempty).reachable ?_ ?_ hs
  · exact fun _ ↦ Or.inr ⟨List.not_mem_nil, rfl, rfl, rfl⟩
  · intro t c c' g g' log _ hclear i
    obtain ⟨htag, -, hvalid, hkey⟩ := (clear_blank hclear).2 i
    exact Or.inr ⟨List.not_mem_nil, hvalid, htag, hkey⟩

theorem insert_some {t : τ} {o : Opener} {g g' : Gdal} {c c' : FlatLruCache τ n} {tag : UInt64}
    {key : UriOptions} {b : Fin n} (h : c.insert t o g tag key = some ⟨some b, c', g'⟩) :
    c.Candidate b ∧ ∀ i, i ≠ b → SameSlot c c' i := by
  rcases scan_cases t c with ⟨hnone, -⟩ | ⟨b', hb, -⟩
  · rw [insert_none hnone] at h
    cases h
  · cases ho : (LockedDataset.outcome o key).warped
    · rw [insert_failed hb ho] at h
      cases h
    · rw [insert_opened hb ho] at h
      cases h
      exact ⟨hb, fun i hi ↦ ⟨Function.update_of_ne hi .., Function.update_of_ne hi ..,
        Function.update_of_ne hi ..⟩⟩

/-- The insert evicts the idle slot that `get` returned longest ago, which is
the first idle one in the queue of all slots, and leaves the others alone. -/
theorem insert_evicts_oldest_idle {h : StringHash} {s : Session τ n}
    (hs : (Session.machine h τ n).Reachable s) {t : τ} {key : UriOptions} {o : ℕ → Opener}
    {j : ℕ} {r : Got τ n}
    (hr : insertLoop t (hashUriOptions h key) key o j ⟨(s.cache.find (hashUriOptions h key) key).1,
      (s.cache.find (hashUriOptions h key) key).2, s.gdal⟩ = some r)
    (htime : r.cache.time < 2 ^ 64 - 1) {b : Fin n} {c' : FlatLruCache τ n} {g' : Gdal}
    (hins : r.cache.insert t (o j) r.gdal (hashUriOptions h key) key = some ⟨some b, c', g'⟩) :
    r.cache.Idle b ∧
    (∀ i, r.cache.Idle i → i ≠ b → Older (r.list.reverse ++ s.log) b i) ∧
    (queue (List.finRange n) (r.list.reverse ++ s.log)).find? (fun i ↦ r.cache.Idle i) = some b ∧
    (∀ i, i ≠ b → SameSlot r.cache c' i) ∧
    (h "" ≠ 0 → ∀ i, i ∈ r.list.reverse ++ s.log ↔ (r.cache.values i).valid = true) := by
  obtain ⟨hb, hsame⟩ := insert_some hins
  have hranked : Ranked r.cache (r.list.reverse ++ s.log) :=
    (ranked_preserved h).insertLoop (reachable_ranked hs) hr
  have hold : ∀ i, r.cache.Idle i → i ≠ b → Older (r.list.reverse ++ s.log) b i :=
    fun i hi hne ↦ hranked.candidate htime hb hi hne
  refine ⟨hb.evictable.1, hold, ?_, hsame, ?_⟩
  · apply queue_find List.mem_finRange (List.nodup_finRange n) (List.pairwise_lt_finRange n)
    · exact decide_eq_true hb.evictable.1
    · exact fun i hi hne ↦ hold i (of_decide_eq_true hi) hne
  · intro hempty i
    have hlogged : Logged r.cache (r.list.reverse ++ s.log) :=
      (logged_preserved hempty).insertLoop (reachable_logged hempty hs) hr
    rcases hlogged i with ⟨hmem, hvalid⟩ | ⟨hmem, hvalid, -⟩
    · simp only [hmem, hvalid]
    · simp only [hmem, hvalid, Bool.false_eq_true]

theorem insert_evicts_oldest_idle_third_key : ∃ (s : Session Unit 2) (c' : FlatLruCache Unit 2)
    (g' : Gdal), (Session.machine lengthHash Unit 2).Reachable s ∧ s.log = [1, 0] ∧
      s.cache.insert () (answering true true) s.gdal 7 ("ccc.tif", []) = some ⟨some 0, c', g'⟩ ∧
      Older s.log 0 1 ∧ SameSlot s.cache c' 1 := by
  have hs : (Session.machine lengthHash Unit 2).Reachable _ :=
    ⟨[.get () ("a.tif", []) 1 fun _ ↦ answering true true, .dec 0,
      .get () ("bb.tif", []) 1 fun _ ↦ answering true true, .dec 1], rfl⟩
  have hr {s : Session Unit 2} : insertLoop () (hashUriOptions lengthHash ("ccc.tif", []))
      ("ccc.tif", []) (fun _ ↦ answering true true) 0
      ⟨(s.cache.find (hashUriOptions lengthHash ("ccc.tif", [])) ("ccc.tif", [])).1,
        (s.cache.find (hashUriOptions lengthHash ("ccc.tif", [])) ("ccc.tif", [])).2,
        s.gdal⟩ = some _ := rfl
  obtain ⟨-, hold, -, hsame, -⟩ := insert_evicts_oldest_idle hs hr (by decide) (b := 0) rfl
  exact ⟨_, _, _, hs, by decide, rfl, hold 1 (by decide) (by decide), hsame 1 (by decide)⟩

end GdalWarp.Bindings
