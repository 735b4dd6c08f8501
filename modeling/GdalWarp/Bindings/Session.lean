import GdalWarp.Bindings.Retrieval

namespace GdalWarp.Bindings

open Foundation FlatLruCache

/-- A cache used by one call after another, which have fewer than `2 ^ 31` references at
any time. `log` lists the slots `get` has returned since the last clear, the latest first. -/
structure Session (τ : Type) (n : ℕ) where
  cache : FlatLruCache τ n
  gdal : Gdal
  log : List (Fin n)

inductive CacheOp (τ : Type) (n : ℕ) where
  | get (t : τ) (key : UriOptions) (copies : ℤ) (o : ℕ → Opener)
  | dec (i : Fin n)
  | clear (t : τ)

namespace Session

variable {τ : Type} {n : ℕ}

/-- An invariant of the parts a session is made of: touching the slots `get`
finds, the turns of its insert loop, `dec` and clearing one slot. -/
structure Preserved (h : StringHash) (I : FlatLruCache τ n → Gdal → List (Fin n) → Prop) : Prop where
  touch : ∀ c g log i key, I c g log → c.hit (hashUriOptions h key) key i = true →
    I (c.touch i) g (i :: log)
  locked : ∀ t c g log b key o, I c g log → c.Candidate b →
    (LockedDataset.outcome o key).warped = false →
    I (c.setValue b ((c.values b).lock t)) (g.after key (LockedDataset.outcome o key)) log
  filled : ∀ c g log b key o, I c g log → c.Candidate b →
    (LockedDataset.outcome o key).warped = true →
    I (c.filled b (hashUriOptions h key) key g.issued)
      ((c.values b).close (g.after key (LockedDataset.outcome o key))).2 (b :: log)
  dec : ∀ c g log i, I c g log → I (c.setValue i (c.values i).dec) g log

variable {h : StringHash} {I : FlatLruCache τ n → Gdal → List (Fin n) → Prop}

theorem Preserved.find (hI : Preserved h I) {log : List (Fin n)} {c : FlatLruCache τ n} {g : Gdal}
    (key : UriOptions) (hs : I c g log) :
    I (c.find (hashUriOptions h key) key).2 g
      ((c.find (hashUriOptions h key) key).1.reverse ++ log) :=
  find_invariant (I := fun c log ↦ I c g log) (fun c log i ↦ hI.touch c g log i key) log hs

variable [DecidableEq τ]

def step (h : StringHash) (s : Session τ n) : CacheOp τ n → Option (Session τ n)
  | .get t key copies o =>
    (s.cache.get h t o s.gdal key copies).map fun r ↦ ⟨r.cache, r.gdal, r.list.reverse ++ s.log⟩
  | .dec i => some { s with cache := s.cache.setValue i (s.cache.values i).dec }
  | .clear t => (s.cache.clear t s.gdal).map fun r ↦ ⟨r.1, r.2, []⟩

def machine (h : StringHash) (τ : Type) [DecidableEq τ] (n : ℕ) :
    Machine (Session τ n) (CacheOp τ n) where
  init := ⟨fresh τ n, .start, []⟩
  step := step h

theorem cleared_fresh (t : τ) (i : Fin n) : (fresh τ n).cleared t i = fresh τ n := by
  simp [cleared, fresh, LockedDataset.unlock, LockedDataset.empty]

theorem clear_fresh (t : τ) (g : Gdal) : (fresh τ n).clear t g = some (fresh τ n, g) := by
  have hslot (i : Fin n) : clearSlot t (fresh τ n, g) i = some (fresh τ n, g) := by
    rw [← congrArg (fun c ↦ some (c, g)) (cleared_fresh t i)]
    simp [clearSlot, fresh, LockedDataset.lockForDeletion, LockedDataset.moveAssign,
      LockedDataset.close, LockedDataset.valid, LockedDataset.empty, LockedDataset.lock,
      LockedDataset.unlock, cleared]
  unfold clear
  induction List.finRange n with
  | nil => rfl
  | cons i l ih => rw [List.foldlM_cons, hslot i]; exact ih

theorem Preserved.insertOne (hI : Preserved h I) {l : List (Fin n)} {t : τ} {key : UriOptions}
    {o : Opener} {s s' : Got τ n} (hs : I s.cache s.gdal (s.list.reverse ++ l))
    (hone : FlatLruCache.insertOne t (hashUriOptions h key) key o s = some s') :
    I s'.cache s'.gdal (s'.list.reverse ++ l) := by
  rcases insertOne_some hone with ⟨-, rfl⟩ | ⟨b, hb, ⟨ho, rfl⟩ | ⟨ho, rfl⟩⟩
  · exact hs
  · exact hI.locked t _ _ _ b key o hs hb ho
  · have hfill := hI.filled _ _ _ b key o hs hb ho
    simpa using hfill

theorem Preserved.insertLoop (hI : Preserved h I) {log : List (Fin n)} {c : FlatLruCache τ n}
    {g : Gdal} {t : τ} {key : UriOptions} {o : ℕ → Opener} {j : ℕ} {r : Got τ n} (hs : I c g log)
    (hr : FlatLruCache.insertLoop t (hashUriOptions h key) key o j
      ⟨(c.find (hashUriOptions h key) key).1, (c.find (hashUriOptions h key) key).2, g⟩ = some r) :
    I r.cache r.gdal (r.list.reverse ++ log) :=
  insertLoop_invariant (I := fun r ↦ I r.cache r.gdal (r.list.reverse ++ log))
    (fun _ _ _ hs hone ↦ hI.insertOne hs hone) (hI.find key hs) hr

theorem Preserved.step (hI : Preserved h I)
    (hclear : ∀ t c c' g g' log, I c g log → c.clear t g = some (c', g') → I c' g' [])
    {s s' : Session τ n} {op : CacheOp τ n} (hs : I s.cache s.gdal s.log)
    (hstep : s.step h op = some s') : I s'.cache s'.gdal s'.log := by
  cases op with
  | get t key copies o =>
    obtain ⟨r, hr, rfl⟩ := Option.map_eq_some_iff.mp hstep
    exact hI.insertLoop hs hr
  | dec i =>
    cases hstep
    exact hI.dec _ _ _ i hs
  | clear t =>
    obtain ⟨r, hr, rfl⟩ := Option.map_eq_some_iff.mp hstep
    exact hclear t _ r.1 _ r.2 _ hs hr

theorem Preserved.reachable (hI : Preserved h I) (hinit : I (fresh τ n) .start [])
    (hclear : ∀ t c c' g g' log, I c g log → c.clear t g = some (c', g') → I c' g' [])
    {s : Session τ n} (hs : (machine h τ n).Reachable s) : I s.cache s.gdal s.log :=
  Machine.Reachable.invariant (I := fun s ↦ I s.cache s.gdal s.log) hinit
    (fun _ _ _ hs hstep ↦ hI.step hclear hs hstep) hs

end Session

end GdalWarp.Bindings
