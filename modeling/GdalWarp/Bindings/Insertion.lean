import GdalWarp.Bindings.FlatLruCache

namespace GdalWarp.Bindings

variable {τ : Type} {n : ℕ}

/-- What opening a dataset for `key` adds to GDAL's account, by how it came out. -/
def Gdal.after (g : Gdal) (key : UriOptions) (oc : OpenOutcome) : Gdal where
  issued := g.issued + oc.source.toNat + oc.warped.toNat
  closed := g.closed
  opens := oc :: g.opens
  origins :=
    (if oc.warped then [(g.issued + 1, .warped g.issued (LockedDataset.optionsArray key.2))]
      else []) ++ (if oc.source then [(g.issued, .opened key.1)] else []) ++ g.origins

namespace LockedDataset

@[simp] theorem lock_uriOptions (t : τ) (ld : LockedDataset τ) :
    (ld.lock t).uriOptions = ld.uriOptions := rfl

@[simp] theorem lock_source (t : τ) (ld : LockedDataset τ) : (ld.lock t).source = ld.source := rfl

@[simp] theorem lock_warped (t : τ) (ld : LockedDataset τ) : (ld.lock t).warped = ld.warped := rfl

@[simp] theorem lock_useCount (t : τ) (ld : LockedDataset τ) :
    (ld.lock t).useCount = ld.useCount := rfl

theorem close_useCount (ld : LockedDataset τ) (g : Gdal) :
    (ld.close g).1.useCount = ld.useCount := by
  unfold close
  split <;> rfl

theorem close_gdal {α : Type} (f : Gdal → α) (hf : ∀ g h, f (Gdal.close g h) = f g)
    (ld : LockedDataset τ) (g : Gdal) : f (ld.close g).2 = f g := by
  unfold close
  split
  · exact (hf ..).trans (hf ..)
  · rfl

theorem close_issued (ld : LockedDataset τ) (g : Gdal) : (ld.close g).2.issued = g.issued :=
  ld.close_gdal Gdal.issued (fun _ h ↦ by cases h <;> rfl) g

theorem close_opens (ld : LockedDataset τ) (g : Gdal) : (ld.close g).2.opens = g.opens :=
  ld.close_gdal Gdal.opens (fun _ h ↦ by cases h <;> rfl) g

theorem close_origins (ld : LockedDataset τ) (g : Gdal) : (ld.close g).2.origins = g.origins :=
  ld.close_gdal Gdal.origins (fun _ h ↦ by cases h <;> rfl) g

theorem close_datasetLock (ld : LockedDataset τ) (g : Gdal) :
    (ld.close g).1.datasetLock = ld.datasetLock := by
  unfold close
  split <;> rfl

theorem outcome_warped {o : Opener} {key : UriOptions} (h : (outcome o key).warped = true) :
    (outcome o key).source = true := by
  simp only [outcome, Bool.and_eq_true] at h ⊢
  exact h.1

variable [DecidableEq τ]

theorem lock_unlock {t : τ} {ld : LockedDataset τ} (h : ld.datasetLock = none) :
    (ld.lock t).unlock t = ld := by
  cases ld
  simp_all [lock, unlock]

theorem lockForDeletion_eq (t : τ) (ld : LockedDataset τ) :
    ld.lockForDeletion t =
      if ld.useCount = 0 ∧ ld.datasetLock = none then (true, ld.lock t) else (false, ld) := by
  unfold lockForDeletion
  by_cases hl : ld.datasetLock = none
  · by_cases hu : ld.useCount = 0
    · simp [hl, hu]
    · simp [hl, hu, lock_unlock hl]
  · simp [hl]

/-- What the constructor leaves behind, by the answers it gets: both handles,
neither, or the first one alone. -/
theorem construct_eq (t : τ) (o : Opener) (g : Gdal) (key : UriOptions) :
    construct t o g key = some (⟨if (outcome o key).source then some g.issued else none,
      if (outcome o key).warped then some (g.issued + 1) else none, key, none, 0⟩,
      g.after key (outcome o key)) := by
  cases hopt : o.warpAppOptionsNew (optionsArray key.2)
  · simp [construct, openDatasets, ofUriOptions, lock, moveConstruct, close, valid, outcome,
      Opener.appOptions, hopt, Gdal.after, Gdal.record]
  · cases hsrc : o.gdalOpen key.1
    · simp [construct, openDatasets, ofUriOptions, lock, moveConstruct, close, valid, outcome,
        Opener.appOptions, hopt, hsrc, Gdal.after, Gdal.record, Gdal.gdalOpen, Gdal.issue]
    · cases hwarp : o.gdalWarp <;>
        simp [construct, openDatasets, ofUriOptions, lock, unlock, moveConstruct, close, valid,
          outcome, Opener.appOptions, hopt, hsrc, hwarp, Gdal.after, Gdal.record, Gdal.gdalOpen,
          Gdal.gdalWarp, Gdal.issue]

theorem moveAssign_eq (t : τ) (g : Gdal) {lhs rhs : LockedDataset τ} (hl : lhs.useCount = 0)
    (hr : rhs.useCount = 0) :
    lhs.moveAssign t g rhs =
      some ((⟨rhs.source, rhs.warped, rhs.uriOptions, (lhs.unlock t).datasetLock, 0⟩,
        { rhs with source := none, warped := none }), (lhs.close g).2) := by
  have hu : (lhs.close g).1.useCount = 0 := (close_useCount ..).trans hl
  have ho : (lhs.close g).1.datasetLock = lhs.datasetLock := close_datasetLock ..
  by_cases hlock : lhs.datasetLock = some t
  · simp [moveAssign, unlock, hl, hr, hu, ho, hlock]
  · simp [moveAssign, unlock, hl, hr, hu, ho, hlock]

theorem moveAssign_locked (t : τ) (g : Gdal) {lhs rhs : LockedDataset τ} (hl : lhs.useCount = 0)
    (hr : rhs.useCount = 0) :
    (lhs.lock t).moveAssign t g rhs =
      some ((⟨rhs.source, rhs.warped, rhs.uriOptions, none, 0⟩,
        { rhs with source := none, warped := none }), (lhs.close g).2) := by
  have hg : ((lhs.lock t).close g).2 = (lhs.close g).2 := by
    unfold close
    rw [show (lhs.lock t).valid = lhs.valid from rfl]
    split <;> rfl
  have hlocked : (lhs.lock t).useCount = 0 := hl
  rw [moveAssign_eq t g hlocked hr, hg]
  simp [unlock, lock]

end LockedDataset

namespace FlatLruCache

def Idle (c : FlatLruCache τ n) (i : Fin n) : Prop :=
  (c.values i).useCount = 0 ∧ (c.values i).datasetLock = none

instance (c : FlatLruCache τ n) (i : Fin n) : Decidable (c.Idle i) :=
  inferInstanceAs (Decidable (_ ∧ _))

def Evictable (c : FlatLruCache τ n) (i : Fin n) : Prop := c.Idle i ∧ c.atimes i < atimeMax

/-- The slot `insert` picks: the lowest access time, and the lowest index among
equal ones. -/
structure Candidate (c : FlatLruCache τ n) (b : Fin n) : Prop where
  evictable : c.Evictable b
  least : ∀ j, c.Evictable j → c.atimes b < c.atimes j ∨ c.atimes b = c.atimes j ∧ b ≤ j

theorem Candidate.useCount {c : FlatLruCache τ n} {b : Fin n} (h : c.Candidate b) :
    (c.values b).useCount = 0 := h.evictable.1.1

theorem Candidate.datasetLock {c : FlatLruCache τ n} {b : Fin n} (h : c.Candidate b) :
    (c.values b).datasetLock = none := h.evictable.1.2

theorem Candidate.unique {c : FlatLruCache τ n} {b b' : Fin n} (h : c.Candidate b)
    (h' : c.Candidate b') : b = b' := by
  have h₁ := h.least b' h'.evictable
  have h₂ := h'.least b h.evictable
  omega

@[simp] theorem setValue_self (c : FlatLruCache τ n) (i : Fin n) (ld : LockedDataset τ) :
    (c.setValue i ld).values i = ld := Function.update_self ..

theorem setValue_of_ne (c : FlatLruCache τ n) {i j : Fin n} (ld : LockedDataset τ) (h : j ≠ i) :
    (c.setValue i ld).values j = c.values j := Function.update_of_ne h ..

theorem setValue_field {α : Type} (f : LockedDataset τ → α) (c : FlatLruCache τ n) {i : Fin n}
    {ld : LockedDataset τ} (hf : f ld = f (c.values i)) (j : Fin n) :
    f ((c.setValue i ld).values j) = f (c.values j) := by
  by_cases hj : j = i
  · subst hj
    rw [setValue_self, hf]
  · rw [setValue_of_ne _ _ hj]

def replaced (c : FlatLruCache τ n) (b : Fin n) (tag : UInt64) (key : UriOptions) (h : DatasetH) :
    FlatLruCache τ n where
  tags := Function.update c.tags b tag
  atimes := Function.update c.atimes b c.tick
  values := Function.update c.values b ⟨some h, some (h + 1), key, none, 0⟩
  time := c.time + 1
  size := c.size + 1

/-- The state of the scan after the indices `l`: nothing locked, or exactly the
best candidate among them. -/
def Scanned (t : τ) (c : FlatLruCache τ n) (l : List (Fin n)) (s : Scan τ n) : Prop :=
  match s.bestIndex with
  | none => s.values = c.values ∧ s.bestAtime = atimeMax ∧ ∀ j ∈ l, ¬ c.Evictable j
  | some b => s.values = Function.update c.values b ((c.values b).lock t) ∧
      s.bestAtime = c.atimes b ∧ b ∈ l ∧ c.Evictable b ∧
      ∀ j ∈ l, c.Evictable j → c.atimes b < c.atimes j ∨ c.atimes b = c.atimes j ∧ b ≤ j

variable [DecidableEq τ]

theorem scanStep_pass {t : τ} {c : FlatLruCache τ n} {s : Scan τ n} {i : Fin n}
    (hv : s.values i = c.values i) (h : ¬ (c.Idle i ∧ c.atimes i < s.bestAtime)) :
    scanStep t c s i = s := by
  unfold scanStep
  by_cases hlt : c.atimes i < s.bestAtime
  · have hidle : ¬ c.Idle i := fun hidle ↦ h ⟨hidle, hlt⟩
    have hl : (s.values i).lockForDeletion t = (false, s.values i) := by
      rw [LockedDataset.lockForDeletion_eq, hv]
      exact if_neg hidle
    simp [hlt, hl]
  · simp [hlt]

theorem scanStep_take {t : τ} {c : FlatLruCache τ n} {s : Scan τ n} {i : Fin n}
    (hv : s.values i = c.values i) (hidle : c.Idle i) (hlt : c.atimes i < s.bestAtime) :
    scanStep t c s i = ⟨match s.bestIndex with
      | none => Function.update s.values i ((c.values i).lock t)
      | some b => Function.update (Function.update s.values i ((c.values i).lock t)) b
        ((Function.update s.values i ((c.values i).lock t) b).unlock t),
      some i, c.atimes i⟩ := by
  have hl : (s.values i).lockForDeletion t = (true, (c.values i).lock t) := by
    rw [LockedDataset.lockForDeletion_eq, hv]
    exact if_pos hidle
  unfold scanStep
  simp only [hlt, if_true, hl]
  cases s.bestIndex <;> rfl

theorem handover {t : τ} {c : FlatLruCache τ n} {b i : Fin n} (hb : c.Idle b) (hbi : b ≠ i) :
    Function.update (Function.update (Function.update c.values b ((c.values b).lock t)) i
      ((c.values i).lock t)) b ((Function.update (Function.update c.values b
        ((c.values b).lock t)) i ((c.values i).lock t) b).unlock t) =
    Function.update c.values i ((c.values i).lock t) := by
  rw [Function.update_of_ne hbi, Function.update_self, LockedDataset.lock_unlock hb.2,
    Function.update_comm hbi, Function.update_idem]
  have hold : Function.update c.values i ((c.values i).lock t) b = c.values b :=
    Function.update_of_ne hbi ..
  conv_lhs => rw [← hold, Function.update_eq_self]

theorem scanned_snoc {t : τ} {c : FlatLruCache τ n} {l : List (Fin n)} {s : Scan τ n} {i : Fin n}
    (h : Scanned t c l s) (hi : ∀ j ∈ l, j < i) : Scanned t c (l ++ [i]) (scanStep t c s i) := by
  obtain ⟨values, bestIndex, bestAtime⟩ := s
  cases bestIndex with
  | none =>
    obtain ⟨hv, hbest, hnone⟩ := h
    dsimp only at hv hbest
    subst hv hbest
    by_cases hev : c.Evictable i
    · rw [scanStep_take rfl hev.1 hev.2]
      refine ⟨rfl, rfl, by simp, hev, List.forall_mem_append.mpr ⟨?_, ?_⟩⟩
      · exact fun j hj hevj ↦ absurd hevj (hnone j hj)
      · simp
    · have hpass : scanStep t c ⟨c.values, none, atimeMax⟩ i = ⟨c.values, none, atimeMax⟩ :=
        scanStep_pass rfl hev
      rw [hpass]
      exact ⟨rfl, rfl, List.forall_mem_append.mpr ⟨hnone, by simpa using hev⟩⟩
  | some b =>
    obtain ⟨hv, hbest, hmem, hev, hleast⟩ := h
    dsimp only at hv hbest
    subst hv hbest
    have hbi : b < i := hi b hmem
    have hval : Function.update c.values b ((c.values b).lock t) i = c.values i :=
      Function.update_of_ne (ne_of_gt hbi) ..
    by_cases htake : c.Idle i ∧ c.atimes i < c.atimes b
    · obtain ⟨hidle, hlt⟩ := htake
      rw [scanStep_take hval hidle hlt]
      refine ⟨handover hev.1 (ne_of_lt hbi), rfl, by simp, ⟨hidle, hlt.trans hev.2⟩,
        List.forall_mem_append.mpr ⟨fun j hj hevj ↦ ?_, by simp⟩⟩
      rcases hleast j hj hevj with h | h <;> omega
    · rw [scanStep_pass hval htake]
      refine ⟨rfl, rfl, by simp [hmem], hev, List.forall_mem_append.mpr ⟨hleast, ?_⟩⟩
      intro j hj hevj
      obtain rfl := List.mem_singleton.mp hj
      have hge : ¬ c.atimes j < c.atimes b := fun hlt ↦ htake ⟨hevj.1, hlt⟩
      omega

theorem scanned_foldl (t : τ) (c : FlatLruCache τ n) (l : List (Fin n)) (hl : l.Pairwise (· < ·)) :
    Scanned t c l (l.foldl (scanStep t c) ⟨c.values, none, atimeMax⟩) := by
  induction l using List.reverseRecOn with
  | nil => exact ⟨rfl, rfl, by simp⟩
  | append_singleton l i ih =>
    rw [List.foldl_append]
    obtain ⟨hl, -, hi⟩ := List.pairwise_append.mp hl
    exact scanned_snoc (ih hl) fun j hj ↦ hi j hj i (by simp)

theorem scan_cases (t : τ) (c : FlatLruCache τ n) :
    ((∀ j, ¬ c.Evictable j) ∧ (c.scan t).bestIndex = none ∧ (c.scan t).values = c.values) ∨
    ∃ b, c.Candidate b ∧ (c.scan t).bestIndex = some b ∧
      (c.scan t).values = Function.update c.values b ((c.values b).lock t) := by
  have h := scanned_foldl t c (List.finRange n) (List.pairwise_lt_finRange n)
  change Scanned t c _ (c.scan t) at h
  unfold Scanned at h
  split at h
  case h_1 hnone => exact Or.inl ⟨fun j ↦ h.2.2 j (List.mem_finRange j), hnone, h.1⟩
  case h_2 b hsome =>
    obtain ⟨hv, -, -, hev, hleast⟩ := h
    exact Or.inr ⟨b, ⟨hev, fun j hj ↦ hleast j (List.mem_finRange j) hj⟩, hsome, hv⟩

variable {t : τ} {o : Opener} {g : Gdal} {c : FlatLruCache τ n} {tag : UInt64} {key : UriOptions}

theorem insert_none (h : ∀ j, ¬ c.Evictable j) : c.insert t o g tag key = some ⟨none, c, g⟩ := by
  rcases scan_cases t c with ⟨-, hbest, hv⟩ | ⟨b, hb, -⟩
  · simp only [insert, hbest, hv]
  · exact absurd hb.evictable (h b)

theorem insert_failed {b : Fin n} (hb : c.Candidate b)
    (ho : (LockedDataset.outcome o key).warped = false) :
    c.insert t o g tag key = some ⟨none, c.setValue b ((c.values b).lock t),
      g.after key (LockedDataset.outcome o key)⟩ := by
  rcases scan_cases t c with ⟨hnone, -⟩ | ⟨b', hb', hbest, hv⟩
  · exact absurd hb.evictable (hnone b)
  · obtain rfl := hb.unique hb'
    simp [insert, hbest, hv, LockedDataset.construct_eq, ho, LockedDataset.valid,
      LockedDataset.close, setValue]

theorem insert_opened {b : Fin n} (hb : c.Candidate b)
    (ho : (LockedDataset.outcome o key).warped = true) :
    c.insert t o g tag key = some ⟨some b, c.replaced b tag key g.issued,
      ((c.values b).close (g.after key (LockedDataset.outcome o key))).2⟩ := by
  rcases scan_cases t c with ⟨hnone, -⟩ | ⟨b', hb', hbest, hv⟩
  · exact absurd hb.evictable (hnone b)
  · obtain rfl := hb.unique hb'
    simp [insert, hbest, hv, LockedDataset.construct_eq, ho, LockedDataset.outcome_warped ho,
      LockedDataset.valid, LockedDataset.moveAssign_locked t _ hb.useCount, LockedDataset.close,
      replaced, tick]

end FlatLruCache

end GdalWarp.Bindings
