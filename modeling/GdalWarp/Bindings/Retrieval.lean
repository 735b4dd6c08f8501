import Mathlib.Data.Fintype.Basic
import GdalWarp.Foundation.Machine
import GdalWarp.Bindings.Insertion

namespace GdalWarp.Bindings.FlatLruCache

variable {τ : Type} {n : ℕ}

/-- A slot found by `get`: one more reference and the next access time. -/
def touch (c : FlatLruCache τ n) (i : Fin n) : FlatLruCache τ n :=
  { c.setValue i (c.values i).inc with
      atimes := Function.update c.atimes i c.tick
      time := c.time + 1 }

@[simp] theorem touch_tags (c : FlatLruCache τ n) (i : Fin n) : (c.touch i).tags = c.tags := rfl

theorem touch_values (c : FlatLruCache τ n) (i : Fin n) :
    (c.touch i).values = Function.update c.values i (c.values i).inc := rfl

theorem touch_field {α : Type} (f : LockedDataset τ → α) (hf : ∀ ld, f ld.inc = f ld)
    (c : FlatLruCache τ n) (i j : Fin n) : f ((c.touch i).values j) = f (c.values j) := by
  rw [touch_values]
  by_cases hj : j = i
  · subst hj
    rw [Function.update_self, hf]
  · rw [Function.update_of_ne hj]

theorem foldl_touch_field {α : Type} (f : LockedDataset τ → α) (hf : ∀ ld, f ld.inc = f ld)
    (c : FlatLruCache τ n) (l : List (Fin n)) (j : Fin n) :
    f ((l.foldl touch c).values j) = f (c.values j) := by
  induction l generalizing c with
  | nil => rfl
  | cons i l ih => rw [List.foldl_cons, ih, touch_field f hf]

theorem foldl_touch_tags (c : FlatLruCache τ n) (l : List (Fin n)) :
    (l.foldl touch c).tags = c.tags := by
  induction l generalizing c with
  | nil => rfl
  | cons i l ih => rw [List.foldl_cons, ih, touch_tags]

theorem foldl_touch_useCount (c : FlatLruCache τ n) (l : List (Fin n)) (j : Fin n) :
    ((l.foldl touch c).values j).useCount = (c.values j).useCount + l.count j := by
  induction l generalizing c with
  | nil => simp
  | cons i l ih =>
    rw [List.foldl_cons, ih, touch_values, List.count_cons]
    by_cases hj : j = i
    · subst hj
      simp [LockedDataset.inc]
      omega
    · simp [Function.update_of_ne hj, Ne.symm hj]

theorem foldl_touch_time (c : FlatLruCache τ n) (l : List (Fin n)) :
    (l.foldl touch c).time = c.time + l.length := by
  induction l generalizing c with
  | nil => rfl
  | cons i l ih =>
    rw [List.foldl_cons, ih, List.length_cons]
    change c.time + 1 + l.length = _
    omega

theorem foldl_touch_later {c : FlatLruCache τ n} {l : List (Fin n)} {base : ℕ}
    (hbase : base ≤ c.time) (hlength : c.time + l.length < 2 ^ 64) {i : Fin n}
    (hi : i ∈ l ∨ base < c.atimes i) : base < (l.foldl touch c).atimes i := by
  induction l generalizing c with
  | nil => exact hi.resolve_left List.not_mem_nil
  | cons j l ih =>
    rw [List.length_cons] at hlength
    have htick : c.tick = c.time + 1 := Nat.mod_eq_of_lt (by omega)
    have htime : (c.touch j).time = c.time + 1 := rfl
    rw [List.foldl_cons]
    refine ih (by omega) (by omega) ?_
    by_cases hj : i = j
    · subst hj
      have hself : (c.touch i).atimes i = c.tick := Function.update_self ..
      exact Or.inr (by omega)
    · have hother : (c.touch j).atimes i = c.atimes i := Function.update_of_ne hj ..
      rw [hother]
      exact hi.imp_left fun hmem ↦ (List.mem_cons.mp hmem).resolve_left hj

theorem touch_hit (c : FlatLruCache τ n) (tag : UInt64) (key : UriOptions) (i : Fin n) :
    (c.touch i).hit tag key = c.hit tag key := by
  funext j
  simp only [hit, touch_tags, touch_field LockedDataset.uriOptions fun _ ↦ rfl]

theorem foldl_findStep (tag : UInt64) (key : UriOptions) (l acc : List (Fin n))
    (c : FlatLruCache τ n) :
    l.foldl (findStep tag key) (acc, c) =
      (acc ++ l.filter (c.hit tag key), (l.filter (c.hit tag key)).foldl touch c) := by
  induction l generalizing acc c with
  | nil => simp
  | cons i l ih =>
    rw [List.foldl_cons]
    cases hi : c.hit tag key i
    · have hstep : findStep tag key (acc, c) i = (acc, c) := by simp [findStep, hi]
      rw [hstep, ih, List.filter_cons_of_neg (by simp [hi])]
    · have hstep : findStep tag key (acc, c) i = (acc ++ [i], c.touch i) := by
        simp [findStep, hi, touch]
      rw [hstep, ih, touch_hit, List.filter_cons_of_pos hi]
      simp

theorem find_eq (tag : UInt64) (key : UriOptions) (c : FlatLruCache τ n) :
    c.find tag key = ((List.finRange n).filter (c.hit tag key),
      ((List.finRange n).filter (c.hit tag key)).foldl touch c) := by
  rw [find, foldl_findStep, List.nil_append]

theorem mem_find {tag : UInt64} {key : UriOptions} {c : FlatLruCache τ n} {i : Fin n} :
    i ∈ (c.find tag key).1 ↔ c.tags i = tag ∧ (c.values i).uriOptions = key := by
  simp [find_eq, hit]

/-- The slot still has its dataset, for the same pair. -/
structure SameDataset (c c' : FlatLruCache τ n) (i : Fin n) : Prop where
  tag : c'.tags i = c.tags i
  source : (c'.values i).source = (c.values i).source
  warped : (c'.values i).warped = (c.values i).warped
  key : (c'.values i).uriOptions = (c.values i).uriOptions

theorem SameDataset.valid {c c' : FlatLruCache τ n} {i : Fin n} (h : SameDataset c c' i) :
    (c'.values i).valid = (c.values i).valid := by
  rw [LockedDataset.valid, LockedDataset.valid, h.source, h.warped]

theorem SameDataset.trans {c₁ c₂ c₃ : FlatLruCache τ n} {i : Fin n} (h : SameDataset c₁ c₂ i)
    (h' : SameDataset c₂ c₃ i) : SameDataset c₁ c₃ i :=
  ⟨h'.tag.trans h.tag, h'.source.trans h.source, h'.warped.trans h.warped, h'.key.trans h.key⟩

theorem SameDataset.hit {c c' : FlatLruCache τ n} {i : Fin n} (h : SameDataset c c' i)
    (tag : UInt64) (key : UriOptions) : c'.hit tag key i = c.hit tag key i := by
  rw [FlatLruCache.hit, FlatLruCache.hit, h.tag, h.key]

theorem sameDataset_touch (c : FlatLruCache τ n) (i j : Fin n) : SameDataset c (c.touch i) j :=
  ⟨rfl, touch_field LockedDataset.source (fun _ ↦ rfl) ..,
    touch_field LockedDataset.warped (fun _ ↦ rfl) ..,
    touch_field LockedDataset.uriOptions (fun _ ↦ rfl) ..⟩

theorem sameDataset_setValue (c : FlatLruCache τ n) (i : Fin n) (ld : LockedDataset τ)
    (hs : ld.source = (c.values i).source) (hw : ld.warped = (c.values i).warped)
    (hk : ld.uriOptions = (c.values i).uriOptions) (j : Fin n) :
    SameDataset c (c.setValue i ld) j :=
  ⟨rfl, setValue_field LockedDataset.source c hs j, setValue_field LockedDataset.warped c hw j,
    setValue_field LockedDataset.uriOptions c hk j⟩

theorem sameDataset_find (c : FlatLruCache τ n) (tag : UInt64) (key : UriOptions) (j : Fin n) :
    SameDataset c (c.find tag key).2 j := by
  rw [find_eq]
  exact ⟨by rw [foldl_touch_tags], foldl_touch_field LockedDataset.source (fun _ ↦ rfl) ..,
    foldl_touch_field LockedDataset.warped (fun _ ↦ rfl) ..,
    foldl_touch_field LockedDataset.uriOptions (fun _ ↦ rfl) ..⟩

/-- What touching a hit preserves, the read-locked loop preserves. -/
theorem find_invariant {I : FlatLruCache τ n → List (Fin n) → Prop} {tag : UInt64}
    {key : UriOptions}
    (hI : ∀ c log i, I c log → c.hit tag key i = true → I (c.touch i) (i :: log))
    {c : FlatLruCache τ n} (log : List (Fin n)) (hs : I c log) :
    I (c.find tag key).2 ((c.find tag key).1.reverse ++ log) := by
  have hall : ∀ i ∈ (List.finRange n).filter (c.hit tag key), c.hit tag key i = true :=
    fun i hi ↦ (List.mem_filter.mp hi).2
  rw [find_eq]
  generalize (List.finRange n).filter (c.hit tag key) = l at hall
  induction l generalizing c log with
  | nil => exact hs
  | cons i l ih =>
    rw [List.foldl_cons, List.reverse_cons, List.append_assoc, List.singleton_append]
    refine ih (i :: log) (hI c log i hs (hall i List.mem_cons_self)) fun j hj ↦ ?_
    rw [touch_hit]
    exact hall j (List.mem_cons_of_mem i hj)

def filled (c : FlatLruCache τ n) (b : Fin n) (tag : UInt64) (key : UriOptions) (h : DatasetH) :
    FlatLruCache τ n :=
  (c.replaced b tag key h).setValue b ⟨some h, some (h + 1), key, none, 1⟩

@[simp] theorem filled_values_self (c : FlatLruCache τ n) (b : Fin n) (tag : UInt64)
    (key : UriOptions) (h : DatasetH) :
    (c.filled b tag key h).values b = ⟨some h, some (h + 1), key, none, 1⟩ :=
  setValue_self ..

theorem filled_values_of_ne (c : FlatLruCache τ n) {b j : Fin n} (tag : UInt64)
    (key : UriOptions) (h : DatasetH) (hj : j ≠ b) :
    (c.filled b tag key h).values j = c.values j := by
  rw [filled, setValue_of_ne _ _ hj]
  exact Function.update_of_ne hj ..

theorem sameDataset_filled (c : FlatLruCache τ n) {b j : Fin n} (tag : UInt64) (key : UriOptions)
    (h : DatasetH) (hj : j ≠ b) : SameDataset c (c.filled b tag key h) j := by
  have hval := filled_values_of_ne c tag key h hj
  exact ⟨Function.update_of_ne hj .., by rw [hval], by rw [hval], by rw [hval]⟩

theorem filled_tags_self (c : FlatLruCache τ n) (b : Fin n) (tag : UInt64) (key : UriOptions)
    (h : DatasetH) : (c.filled b tag key h).tags b = tag := Function.update_self ..

theorem filled_atimes_of_ne (c : FlatLruCache τ n) {b j : Fin n} (tag : UInt64) (key : UriOptions)
    (h : DatasetH) (hj : j ≠ b) : (c.filled b tag key h).atimes j = c.atimes j :=
  Function.update_of_ne hj ..

variable [DecidableEq τ]

/-- The three ways a turn of the write-locked loop ends: no candidate, a
candidate but no dataset, a new dataset in the candidate's slot. -/
theorem insertOne_cases (t : τ) (tag : UInt64) (key : UriOptions) (o : Opener) (s : Got τ n) :
    (∀ j, ¬ s.cache.Evictable j) ∧ insertOne t tag key o s = some s ∨
    ∃ b, s.cache.Candidate b ∧
      ((LockedDataset.outcome o key).warped = false ∧
        insertOne t tag key o s = some ⟨s.list,
          s.cache.setValue b ((s.cache.values b).lock t),
          s.gdal.after key (LockedDataset.outcome o key)⟩ ∨
      (LockedDataset.outcome o key).warped = true ∧
        insertOne t tag key o s = some ⟨s.list ++ [b], s.cache.filled b tag key s.gdal.issued,
          ((s.cache.values b).close (s.gdal.after key (LockedDataset.outcome o key))).2⟩) := by
  rcases scan_cases t s.cache with ⟨hnone, -⟩ | ⟨b, hb, -⟩
  · exact Or.inl ⟨hnone, by simp [insertOne, insert_none hnone]⟩
  · refine Or.inr ⟨b, hb, ?_⟩
    cases ho : (LockedDataset.outcome o key).warped
    · exact Or.inl ⟨rfl, by simp [insertOne, insert_failed hb ho]⟩
    · refine Or.inr ⟨rfl, ?_⟩
      have hval : (s.cache.replaced b tag key s.gdal.issued).values b =
          ⟨some s.gdal.issued, some (s.gdal.issued + 1), key, none, 0⟩ := by simp [replaced]
      simp [insertOne, insert_opened hb ho, filled, hval, LockedDataset.inc]

theorem insertOne_isSome (t : τ) (tag : UInt64) (key : UriOptions) (o : Opener) (s : Got τ n) :
    ∃ r, insertOne t tag key o s = some r := by
  rcases insertOne_cases t tag key o s with ⟨-, h⟩ | ⟨b, -, ⟨-, h⟩ | ⟨-, h⟩⟩ <;> exact ⟨_, h⟩

theorem insertOne_some {t : τ} {tag : UInt64} {key : UriOptions} {o : Opener} {s r : Got τ n}
    (h : insertOne t tag key o s = some r) :
    (∀ j, ¬ s.cache.Evictable j) ∧ r = s ∨
    ∃ b, s.cache.Candidate b ∧
      ((LockedDataset.outcome o key).warped = false ∧
        r = ⟨s.list, s.cache.setValue b ((s.cache.values b).lock t),
          s.gdal.after key (LockedDataset.outcome o key)⟩ ∨
      (LockedDataset.outcome o key).warped = true ∧
        r = ⟨s.list ++ [b], s.cache.filled b tag key s.gdal.issued,
          ((s.cache.values b).close (s.gdal.after key (LockedDataset.outcome o key))).2⟩) := by
  rcases insertOne_cases t tag key o s with ⟨hnone, heq⟩ | ⟨b, hb, ⟨ho, heq⟩ | ⟨ho, heq⟩⟩
  · exact Or.inl ⟨hnone, Option.some.inj (h.symm.trans heq)⟩
  · exact Or.inr ⟨b, hb, Or.inl ⟨ho, Option.some.inj (h.symm.trans heq)⟩⟩
  · exact Or.inr ⟨b, hb, Or.inr ⟨ho, Option.some.inj (h.symm.trans heq)⟩⟩

theorem insertLoop_invariant {I : Got τ n → Prop} {t : τ} {tag : UInt64} {key : UriOptions}
    {o : ℕ → Opener} (hI : ∀ j s s', I s → insertOne t tag key (o j) s = some s' → I s')
    {j : ℕ} {s s' : Got τ n} (hs : I s) (h : insertLoop t tag key o j s = some s') : I s' := by
  induction j generalizing s' with
  | zero => exact Option.some.inj h ▸ hs
  | succ j ih =>
    obtain ⟨r, hr, hone⟩ := Option.bind_eq_some_iff.mp h
    exact hI j r s' (ih hr) hone

theorem get_zero (h : StringHash) (t : τ) (o : ℕ → Opener) (g : Gdal) (c : FlatLruCache τ n)
    (key : UriOptions) :
    c.get h t o g key 0 = some ⟨(c.find (hashUriOptions h key) key).1,
      (c.find (hashUriOptions h key) key).2, g⟩ := by
  have hnothing (found : ℕ) : request 0 found = .nothing := by
    simp [request]
  rw [get, hnothing]
  rfl

def cleared (t : τ) (c : FlatLruCache τ n) (i : Fin n) : FlatLruCache τ n where
  tags := Function.update c.tags i 0
  atimes := Function.update c.atimes i 0
  values := Function.update c.values i
    ⟨none, none, ("", []), ((c.values i).unlock t).datasetLock, 0⟩
  time := c.time
  size := 0

theorem clearSlot_some {t : τ} {c c' : FlatLruCache τ n} {g g' : Gdal} {i : Fin n}
    (h : clearSlot t (c, g) i = some (c', g')) :
    (c.values i).useCount = 0 ∧ c' = c.cleared t i ∧ g' = ((c.values i).close g).2 := by
  by_cases hu : (c.values i).useCount = 0
  · by_cases hl : (c.values i).datasetLock = none
    · rw [clearSlot, LockedDataset.lockForDeletion_eq, if_pos ⟨hu, hl⟩,
        LockedDataset.moveAssign_locked t g hu rfl] at h
      cases h
      exact ⟨hu, by simp [cleared, LockedDataset.empty, LockedDataset.unlock, hl], rfl⟩
    · have hboth : ¬ ((c.values i).useCount = 0 ∧ (c.values i).datasetLock = none) :=
        fun hx ↦ hl hx.2
      rw [clearSlot, LockedDataset.lockForDeletion_eq, if_neg hboth,
        LockedDataset.moveAssign_eq t g hu rfl] at h
      cases h
      exact ⟨hu, rfl, rfl⟩
  · have hfail : ((c.values i).lockForDeletion t).2.moveAssign t g .empty = none := by
      rw [LockedDataset.lockForDeletion_eq]
      split <;> simp [LockedDataset.moveAssign, hu]
    simp [clearSlot, hfail] at h

def Blank (c : FlatLruCache τ n) (i : Fin n) : Prop :=
  c.tags i = 0 ∧ c.atimes i = 0 ∧ (c.values i).valid = false ∧ (c.values i).uriOptions = ("", [])

theorem cleared_blank (t : τ) (c : FlatLruCache τ n) {i j : Fin n} (h : j = i ∨ c.Blank j) :
    (c.cleared t i).Blank j := by
  by_cases hj : j = i
  · subst hj
    simp [Blank, cleared, LockedDataset.valid]
  · simpa [Blank, cleared, Function.update_of_ne hj] using h.resolve_left hj

theorem clear_blank {t : τ} {c c' : FlatLruCache τ n} {g g' : Gdal}
    (h : c.clear t g = some (c', g')) : c'.time = c.time ∧ ∀ i, c'.Blank i := by
  have hloop (l : List (Fin n)) : ∀ s s' : FlatLruCache τ n × Gdal,
      l.foldlM (clearSlot t) s = some s' →
        s'.1.time = s.1.time ∧ ∀ i, i ∈ l ∨ s.1.Blank i → s'.1.Blank i := by
    induction l with
    | nil =>
      intro s s' hs
      cases hs
      exact ⟨rfl, fun i hi ↦ hi.resolve_left List.not_mem_nil⟩
    | cons j l ih =>
      intro s s' hs
      rw [List.foldlM_cons, Option.bind_eq_bind, Option.bind_eq_some_iff] at hs
      obtain ⟨u, hu, htail⟩ := hs
      have hslot : clearSlot t (s.1, s.2) j = some (u.1, u.2) := hu
      obtain ⟨-, hc, -⟩ := clearSlot_some hslot
      obtain ⟨htime, hblank⟩ := ih u s' htail
      rw [hc] at htime hblank
      refine ⟨htime, fun i hi ↦ hblank i ?_⟩
      rcases hi with hi | hi
      · rcases List.mem_cons.mp hi with hij | hi
        · exact Or.inr (cleared_blank t s.1 (Or.inl hij))
        · exact Or.inl hi
      · exact Or.inr (cleared_blank t s.1 (Or.inr hi))
  obtain ⟨htime, hblank⟩ := hloop _ _ _ h
  exact ⟨htime, fun i ↦ hblank i (Or.inl (List.mem_finRange i))⟩

theorem clear_invariant {I : FlatLruCache τ n → Gdal → Prop} {t : τ}
    (hI : ∀ c g i, I c g → (c.values i).useCount = 0 →
      I (c.cleared t i) ((c.values i).close g).2)
    {c c' : FlatLruCache τ n} {g g' : Gdal} (hs : I c g) (h : c.clear t g = some (c', g')) :
    I c' g' := by
  refine Foundation.foldlM_invariant (I := fun s ↦ I s.1 s.2) ?_ hs h
  intro s i s' hs hstep
  obtain ⟨hu, hc, hg⟩ := clearSlot_some hstep
  rw [hc, hg]
  exact hI s.1 s.2 i hs hu

end GdalWarp.Bindings.FlatLruCache
