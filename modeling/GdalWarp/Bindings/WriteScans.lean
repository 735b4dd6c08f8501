import GdalWarp.Foundation.Counting
import GdalWarp.Bindings.Retrieval

namespace GdalWarp.Bindings

open Foundation FlatLruCache LockedDataset

/-- Where the thread with the write lock is in the loop of `insert`: before it compares
the access time of the next slot, before it tries its mutex, with the mutex and before it
looks at the use count, before it unlocks a slot that is in use, or before it unlocks the
best slot so far for a better one. -/
inductive Scanner (n : ℕ) where
  | looking (best : Option (Fin n)) (bestAtime : ℕ) (rest : List (Fin n))
  | trying (best : Option (Fin n)) (bestAtime : ℕ) (i : Fin n) (rest : List (Fin n))
  | checking (best : Option (Fin n)) (bestAtime : ℕ) (i : Fin n) (rest : List (Fin n))
  | refusing (best : Option (Fin n)) (bestAtime : ℕ) (i : Fin n) (rest : List (Fin n))
  | handing (b i : Fin n) (rest : List (Fin n))

structure WritePhase (τ : Type) (n : ℕ) where
  cache : FlatLruCache τ n
  scanner : Scanner n

/-- A step of the scan, or one of another thread, which has a reference to the dataset it
works on: it needs no lock of the cache for that. -/
inductive WriteEvent (τ : Type) (n : ℕ) where
  | scan
  | dec (i : Fin n)
  | tryLock (u : τ) (i : Fin n)
  | unlock (u : τ) (i : Fin n)

namespace Scanner

variable {n : ℕ}

def held : Scanner n → List (Fin n)
  | .looking best _ _ | .trying best _ _ _ => best.toList
  | .checking best _ i _ | .refusing best _ i _ => best.toList ++ [i]
  | .handing b i _ => [b, i]

def taken : Scanner n → List (Fin n)
  | .looking best _ _ | .trying best _ _ _ | .checking best _ _ _ | .refusing best _ _ _ =>
    best.toList
  | .handing b i _ => [b, i]

end Scanner

namespace WritePhase

variable {τ : Type} {n : ℕ}

/-- `best` is the eviction candidate among the slots `seen`, as far as these were idle in
`c`. -/
def Searched (c : FlatLruCache τ n) (seen : List (Fin n)) (best : Option (Fin n))
    (bestAtime : ℕ) : Prop :=
  match best with
  | none => bestAtime = atimeMax ∧ ∀ j ∈ seen, ¬ c.Evictable j
  | some b => bestAtime = c.atimes b ∧ c.atimes b < atimeMax ∧ b ∈ seen ∧
    ∀ j ∈ seen, c.Evictable j → c.atimes b < c.atimes j ∨ c.atimes b = c.atimes j ∧ b ≤ j

theorem Searched.pass {c : FlatLruCache τ n} {seen : List (Fin n)} {best : Option (Fin n)}
    {bestAtime : ℕ} (h : Searched c seen best bestAtime) {i : Fin n} (hi : ∀ j ∈ seen, j < i)
    (hpass : c.Evictable i → bestAtime ≤ c.atimes i) :
    Searched c (seen ++ [i]) best bestAtime := by
  cases best with
  | none =>
    obtain ⟨hbest, hnone⟩ := h
    refine ⟨hbest, List.forall_mem_append.mpr ⟨hnone, ?_⟩⟩
    intro j hj hevictable
    obtain rfl := List.mem_singleton.mp hj
    have hle := hpass hevictable
    have hlt := hevictable.2
    omega
  | some b =>
    obtain ⟨hbest, hmax, hmem, hleast⟩ := h
    refine ⟨hbest, hmax, List.mem_append_left _ hmem, List.forall_mem_append.mpr ⟨hleast, ?_⟩⟩
    intro j hj hevictable
    obtain rfl := List.mem_singleton.mp hj
    have hle := hpass hevictable
    have hlt := hi b hmem
    omega

theorem Searched.take {c : FlatLruCache τ n} {seen : List (Fin n)} {best : Option (Fin n)}
    {bestAtime : ℕ} (h : Searched c seen best bestAtime) {i : Fin n}
    (hlt : c.atimes i < bestAtime) : Searched c (seen ++ [i]) (some i) (c.atimes i) := by
  have hself : ∀ j ∈ [i], c.Evictable j →
      c.atimes i < c.atimes j ∨ c.atimes i = c.atimes j ∧ i ≤ j := by
    intro j hj _
    obtain rfl := List.mem_singleton.mp hj
    exact Or.inr ⟨rfl, le_rfl⟩
  cases best with
  | none =>
    obtain ⟨hbest, hnone⟩ := h
    refine ⟨rfl, hbest ▸ hlt, List.mem_append_right _ List.mem_cons_self,
      List.forall_mem_append.mpr ⟨fun j hj hx ↦ absurd hx (hnone j hj), hself⟩⟩
  | some b =>
    obtain ⟨hbest, hmax, -, hleast⟩ := h
    refine ⟨rfl, by omega, List.mem_append_right _ List.mem_cons_self,
      List.forall_mem_append.mpr ⟨fun j hj hx ↦ ?_, hself⟩⟩
    have hj := hleast j hj hx
    omega

def Reached (c : FlatLruCache τ n) : Scanner n → Prop
  | .looking best bestAtime rest =>
    ∃ seen, seen ++ rest = List.finRange n ∧ Searched c seen best bestAtime
  | .trying best bestAtime i rest | .checking best bestAtime i rest =>
    ∃ seen, seen ++ i :: rest = List.finRange n ∧ Searched c seen best bestAtime ∧
      c.atimes i < bestAtime
  | .refusing best bestAtime i rest =>
    ∃ seen, seen ++ i :: rest = List.finRange n ∧ Searched c seen best bestAtime ∧ ¬ c.Idle i
  | .handing b i rest =>
    ∃ seen, seen ++ i :: rest = List.finRange n ∧ Searched c seen (some b) (c.atimes b) ∧
      c.atimes i < c.atimes b

/-- What was idle when the scan began, only the scan touches. -/
structure Scanning (t : τ) (c : FlatLruCache τ n) (s : WritePhase τ n) : Prop where
  same : ∀ i, SameDataset c s.cache i
  atimes : s.cache.atimes = c.atimes
  owned : ∀ i, (s.cache.values i).datasetLock = some t ↔ i ∈ s.scanner.held
  unused : ∀ i, (c.values i).useCount = 0 → (s.cache.values i).useCount = 0
  idle : ∀ i, c.Idle i →
    (s.cache.values i).datasetLock = none ∨ (s.cache.values i).datasetLock = some t
  taken : ∀ i ∈ s.scanner.taken, (s.cache.values i).useCount = 0
  reached : Reached c s.scanner

theorem Searched.not_mem {c : FlatLruCache τ n} {seen : List (Fin n)} {best : Option (Fin n)}
    {bestAtime : ℕ} (h : Searched c seen best bestAtime) {i : Fin n} (hi : ∀ j ∈ seen, j < i) :
    i ∉ best.toList := by
  intro hmem
  cases best with
  | none => cases hmem
  | some b =>
    obtain rfl := List.mem_singleton.mp hmem
    exact (hi i h.2.2.1).false

theorem Scanning.elsewhere {t : τ} {c : FlatLruCache τ n} {s : WritePhase τ n}
    (h : Scanning t c s) {i : Fin n} {ld : LockedDataset τ}
    (hused : 0 < (s.cache.values i).useCount)
    (hsource : ld.source = (s.cache.values i).source)
    (hwarped : ld.warped = (s.cache.values i).warped)
    (hkey : ld.uriOptions = (s.cache.values i).uriOptions)
    (howner : ld.datasetLock = some t ↔ (s.cache.values i).datasetLock = some t) :
    Scanning t c { s with cache := s.cache.setValue i ld } := by
  have hbusy : (c.values i).useCount ≠ 0 := by
    intro hzero
    have h0 := h.unused i hzero
    omega
  constructor
  case same =>
    exact fun j ↦ (h.same j).trans (sameDataset_setValue s.cache i ld hsource hwarped hkey j)
  case atimes => exact h.atimes
  case owned =>
    intro j
    by_cases hj : j = i
    · subst hj
      rw [setValue_self, howner]
      exact h.owned j
    · rw [setValue_of_ne _ _ hj]
      exact h.owned j
  case unused =>
    intro j hzero
    have hj : j ≠ i := fun hj ↦ hbusy (hj ▸ hzero)
    rw [setValue_of_ne _ _ hj]
    exact h.unused j hzero
  case idle =>
    intro j hidle
    have hj : j ≠ i := fun hj ↦ hbusy (hj ▸ hidle.1)
    rw [setValue_of_ne _ _ hj]
    exact h.idle j hidle
  case taken =>
    intro j htaken
    have hj : j ≠ i := by
      rintro rfl
      have h0 := h.taken j htaken
      omega
    rw [setValue_of_ne _ _ hj]
    exact h.taken j htaken
  case reached => exact h.reached

theorem Scanning.goOn {t : τ} {c : FlatLruCache τ n} {s : WritePhase τ n} (h : Scanning t c s)
    {scanner : Scanner n} (hheld : ∀ i, i ∈ scanner.held ↔ i ∈ s.scanner.held)
    (htaken : ∀ i ∈ scanner.taken, (s.cache.values i).useCount = 0)
    (hreached : Reached c scanner) : Scanning t c { s with scanner := scanner } where
  same := h.same
  atimes := h.atimes
  owned i := (h.owned i).trans (hheld i).symm
  unused := h.unused
  idle := h.idle
  taken := htaken
  reached := hreached

theorem Scanning.relock {t : τ} {c : FlatLruCache τ n} {s : WritePhase τ n} (h : Scanning t c s)
    {i : Fin n} {owner : Option τ} {scanner : Scanner n} (howner : owner = none ∨ owner = some t)
    (hheld : i ∈ scanner.held ↔ owner = some t)
    (hothers : ∀ j ≠ i, j ∈ scanner.held ↔ j ∈ s.scanner.held)
    (htaken : ∀ j ∈ scanner.taken, j ∈ s.scanner.taken) (hreached : Reached c scanner) :
    Scanning t c
      ⟨s.cache.setValue i { s.cache.values i with datasetLock := owner }, scanner⟩ := by
  have hcount : ∀ j, ((s.cache.setValue i { s.cache.values i with datasetLock := owner }).values
      j).useCount = (s.cache.values j).useCount :=
    setValue_field LockedDataset.useCount s.cache rfl
  constructor
  case same =>
    intro j
    apply (h.same j).trans
    apply sameDataset_setValue <;> rfl
  case atimes => exact h.atimes
  case owned =>
    intro j
    by_cases hj : j = i
    · subst hj
      rw [setValue_self]
      exact hheld.symm
    · rw [setValue_of_ne _ _ hj]
      exact (h.owned j).trans (hothers j hj).symm
  case unused => exact fun j hzero ↦ (hcount j).trans (h.unused j hzero)
  case idle =>
    intro j hidle
    by_cases hj : j = i
    · subst hj
      rw [setValue_self]
      exact howner
    · rw [setValue_of_ne _ _ hj]
      exact h.idle j hidle
  case taken => exact fun j hj ↦ (hcount j).trans (h.taken j (htaken j hj))
  case reached => exact hreached

variable [DecidableEq τ]

/-- The loop of `insert` in the atomic steps of `lock_for_deletion`. -/
def scanStep (t : τ) (s : WritePhase τ n) : Option (WritePhase τ n) :=
  match s.scanner with
  | .looking _ _ [] => none
  | .looking best bestAtime (i :: rest) =>
    if s.cache.atimes i < bestAtime then some { s with scanner := .trying best bestAtime i rest }
    else some { s with scanner := .looking best bestAtime rest }
  | .trying best bestAtime i rest =>
    if (s.cache.values i).datasetLock = none then
      some ⟨s.cache.setValue i ((s.cache.values i).lock t), .checking best bestAtime i rest⟩
    else some { s with scanner := .looking best bestAtime rest }
  | .checking best bestAtime i rest =>
    if (s.cache.values i).useCount ≠ 0 then
      some { s with scanner := .refusing best bestAtime i rest }
    else
      match best with
      | some b => some { s with scanner := .handing b i rest }
      | none => some { s with scanner := .looking (some i) (s.cache.atimes i) rest }
  | .refusing best bestAtime i rest =>
    some ⟨s.cache.setValue i ((s.cache.values i).unlock t), .looking best bestAtime rest⟩
  | .handing b i rest =>
    some ⟨s.cache.setValue b ((s.cache.values b).unlock t),
      .looking (some i) (s.cache.atimes i) rest⟩

def step (t : τ) (s : WritePhase τ n) : WriteEvent τ n → Option (WritePhase τ n)
  | .scan => s.scanStep t
  | .dec i =>
    if 0 < (s.cache.values i).useCount then
      some { s with cache := s.cache.setValue i (s.cache.values i).dec }
    else none
  | .tryLock u i =>
    if u ≠ t ∧ 0 < (s.cache.values i).useCount ∧ (s.cache.values i).datasetLock = none then
      some { s with cache := s.cache.setValue i ((s.cache.values i).lock u) }
    else none
  | .unlock u i =>
    if u ≠ t ∧ 0 < (s.cache.values i).useCount ∧ (s.cache.values i).datasetLock = some u then
      some { s with cache := s.cache.setValue i ((s.cache.values i).unlock u) }
    else none

def machine (t : τ) (c : FlatLruCache τ n) : Machine (WritePhase τ n) (WriteEvent τ n) where
  init := ⟨c, .looking none atimeMax (List.finRange n)⟩
  step := step t

theorem unlock_eq {t : τ} {ld : LockedDataset τ} (h : ld.datasetLock = some t) :
    ld.unlock t = { ld with datasetLock := none } := if_pos h

theorem Scanning.scan {t : τ} {c : FlatLruCache τ n} {s s' : WritePhase τ n}
    (h : Scanning t c s) (hs : s.scanStep t = some s') : Scanning t c s' := by
  obtain ⟨cache, scanner⟩ := s
  cases scanner with
  | looking best bestAtime rest =>
    cases rest with
    | nil => cases hs
    | cons i rest =>
      obtain ⟨seen, hseen, hsearched⟩ := h.reached
      have hatimes : cache.atimes i = c.atimes i := congrFun h.atimes i
      simp only [scanStep, hatimes] at hs
      split at hs
      case isTrue hlt =>
        cases hs
        exact h.goOn (fun j ↦ Iff.rfl) h.taken ⟨seen, hseen, hsearched, hlt⟩
      case isFalse hge =>
        cases hs
        have hpass := hsearched.pass (lt_of_append_finRange hseen) fun _ ↦ not_lt.mp hge
        exact h.goOn (fun j ↦ Iff.rfl) h.taken ⟨seen ++ [i], (List.append_cons ..).symm.trans hseen, hpass⟩
  | trying best bestAtime i rest =>
    obtain ⟨seen, hseen, hsearched, hlt⟩ := h.reached
    have hnew := hsearched.not_mem (lt_of_append_finRange hseen)
    simp only [scanStep] at hs
    split at hs
    case isTrue =>
      cases hs
      refine h.relock (Or.inr rfl) ?_ ?_ (fun j hj ↦ hj) ⟨seen, hseen, hsearched, hlt⟩
      · simp [Scanner.held]
      · intro j hj
        simp [Scanner.held, hj]
    case isFalse hbusy =>
      cases hs
      -- the scan itself does not have the mutex, and nobody else locks an idle slot
      have hidle : ¬ c.Idle i := by
        intro hidle
        have hheld := (h.owned i).mp ((h.idle i hidle).resolve_left hbusy)
        exact hnew hheld
      have hpass := hsearched.pass (lt_of_append_finRange hseen) fun hevictable ↦
        absurd hevictable.1 hidle
      exact h.goOn (fun j ↦ Iff.rfl) h.taken ⟨seen ++ [i], (List.append_cons ..).symm.trans hseen, hpass⟩
  | checking best bestAtime i rest =>
    obtain ⟨seen, hseen, hsearched, hlt⟩ := h.reached
    simp only [scanStep] at hs
    split at hs
    case isTrue hused =>
      cases hs
      have hidle : ¬ c.Idle i := fun hidle ↦ hused (h.unused i hidle.1)
      exact h.goOn (fun j ↦ Iff.rfl) h.taken ⟨seen, hseen, hsearched, hidle⟩
    case isFalse hunused =>
      have hzero := not_not.mp hunused
      have hatimes : cache.atimes i = c.atimes i := congrFun h.atimes i
      cases best with
      | none =>
        cases hs
        refine h.goOn (fun j ↦ Iff.rfl) (fun j hj ↦ ?_) ⟨seen ++ [i], ?_, ?_⟩
        · obtain rfl := List.mem_singleton.mp hj
          exact hzero
        · exact (List.append_cons ..).symm.trans hseen
        · exact hatimes ▸ hsearched.take hlt
      | some b =>
        cases hs
        obtain rfl : bestAtime = c.atimes b := hsearched.1
        refine h.goOn (fun j ↦ Iff.rfl) (fun j hj ↦ ?_) ⟨seen, hseen, hsearched, hlt⟩
        obtain rfl | hj := List.mem_cons.mp hj
        · exact h.taken j List.mem_cons_self
        · obtain rfl := List.mem_singleton.mp hj
          exact hzero
  | refusing best bestAtime i rest =>
    obtain ⟨seen, hseen, hsearched, hidle⟩ := h.reached
    have hmine := (h.owned i).mpr (List.mem_append_right _ List.mem_cons_self)
    have hnew := hsearched.not_mem (lt_of_append_finRange hseen)
    have hpass := hsearched.pass (lt_of_append_finRange hseen) fun hevictable ↦ absurd hevictable.1 hidle
    cases hs
    rw [unlock_eq hmine]
    refine h.relock (Or.inl rfl) ?_ ?_ (fun j hj ↦ hj)
      ⟨seen ++ [i], (List.append_cons ..).symm.trans hseen, hpass⟩
    · exact iff_of_false hnew nofun
    · intro j hj
      simp [Scanner.held, hj]
  | handing b i rest =>
    obtain ⟨seen, hseen, hsearched, hlt⟩ := h.reached
    have hmine := (h.owned b).mpr List.mem_cons_self
    have hbi : b ≠ i := (lt_of_append_finRange hseen b hsearched.2.2.1).ne
    have hatimes : cache.atimes i = c.atimes i := congrFun h.atimes i
    have htake := hsearched.take hlt
    cases hs
    rw [unlock_eq hmine, hatimes]
    refine h.relock (Or.inl rfl) ?_ ?_ (fun j hj ↦ List.mem_cons_of_mem b hj)
      ⟨seen ++ [i], (List.append_cons ..).symm.trans hseen, htake⟩
    · refine iff_of_false (fun hb ↦ ?_) nofun
      exact hbi (List.mem_singleton.mp hb)
    · intro j hj
      simp [Scanner.held, hj]

theorem Scanning.step {t : τ} {c : FlatLruCache τ n} {s s' : WritePhase τ n}
    {e : WriteEvent τ n} (h : Scanning t c s) (hs : s.step t e = some s') : Scanning t c s' := by
  cases e with
  | scan => exact h.scan hs
  | dec i =>
    simp only [WritePhase.step] at hs
    split at hs
    case isTrue hused =>
      cases hs
      exact h.elsewhere hused rfl rfl rfl Iff.rfl
    case isFalse => cases hs
  | tryLock u i =>
    simp only [WritePhase.step] at hs
    split at hs
    case isTrue hfree =>
      obtain ⟨hu, hused, hfree⟩ := hfree
      cases hs
      refine h.elsewhere hused rfl rfl rfl (iff_of_false ?_ ?_)
      · exact fun ht ↦ hu (Option.some.inj ht)
      · rw [hfree]
        nofun
    case isFalse => cases hs
  | unlock u i =>
    simp only [WritePhase.step] at hs
    split at hs
    case isTrue hlocked =>
      obtain ⟨hu, hused, hlocked⟩ := hlocked
      cases hs
      rw [unlock_eq hlocked]
      refine h.elsewhere hused rfl rfl rfl (iff_of_false nofun ?_)
      rw [hlocked]
      exact fun ht ↦ hu (Option.some.inj ht)
    case isFalse => cases hs

theorem scan_index (t : τ) (c : FlatLruCache τ n) (sc : Scan τ n) (i : Fin n)
    (rest : List (Fin n)) : ∃ es, (machine t c).run
      ⟨{ c with values := sc.values }, .looking sc.bestIndex sc.bestAtime (i :: rest)⟩ es = some
      ⟨{ c with values := (c.scanStep t sc i).values },
        .looking (c.scanStep t sc i).bestIndex (c.scanStep t sc i).bestAtime rest⟩ := by
  have hnext : ∀ s : WritePhase τ n, (machine t c).step s .scan = s.scanStep t := fun _ ↦ rfl
  by_cases hlt : c.atimes i < sc.bestAtime
  · by_cases hfree : (sc.values i).datasetLock = none
    · by_cases hzero : (sc.values i).useCount = 0
      · have hgot : (sc.values i).lockForDeletion t = (true, (sc.values i).lock t) := by
          simp [lockForDeletion, hfree, hzero]
        cases hbest : sc.bestIndex with
        | none =>
          refine ⟨[.scan, .scan, .scan], ?_⟩
          simp [Machine.run, hnext, scanStep, FlatLruCache.scanStep, setValue, lock, hlt, hfree,
            hzero, hgot, hbest]
        | some b =>
          refine ⟨[.scan, .scan, .scan, .scan], ?_⟩
          simp [Machine.run, hnext, scanStep, FlatLruCache.scanStep, setValue, lock, hlt, hfree,
            hzero, hgot, hbest]
      · have hrefused : (sc.values i).lockForDeletion t =
            (false, ((sc.values i).lock t).unlock t) := by
          simp [lockForDeletion, hfree, hzero]
        refine ⟨[.scan, .scan, .scan, .scan], ?_⟩
        simp [Machine.run, hnext, scanStep, FlatLruCache.scanStep, setValue, lock, hlt, hfree,
          hzero, hrefused]
    · have hbusy : (sc.values i).lockForDeletion t = (false, sc.values i) := by
        simp [lockForDeletion, hfree]
      refine ⟨[.scan, .scan], ?_⟩
      simp [Machine.run, hnext, scanStep, FlatLruCache.scanStep, hlt, hfree, hbusy]
  · refine ⟨[.scan], ?_⟩
    simp [Machine.run, hnext, scanStep, FlatLruCache.scanStep, hlt]

/-- The steps of one thread alone make the loop that `insert` is modelled with. -/
theorem scan_alone (t : τ) (c : FlatLruCache τ n) :
    (machine t c).Reachable ⟨{ c with values := (c.scan t).values },
      .looking (c.scan t).bestIndex (c.scan t).bestAtime []⟩ := by
  have hloop : ∀ rest sc, ∃ es, (machine t c).run
      ⟨{ c with values := sc.values }, .looking sc.bestIndex sc.bestAtime rest⟩ es = some
      ⟨{ c with values := (rest.foldl (c.scanStep t) sc).values },
        .looking (rest.foldl (c.scanStep t) sc).bestIndex
          (rest.foldl (c.scanStep t) sc).bestAtime []⟩ := by
    intro rest
    induction rest with
    | nil => exact fun sc ↦ ⟨[], rfl⟩
    | cons i rest ih =>
      intro sc
      obtain ⟨es, hes⟩ := scan_index t c sc i rest
      obtain ⟨es', hes'⟩ := ih (c.scanStep t sc i)
      refine ⟨es ++ es', ?_⟩
      rw [Machine.run_append, hes, Option.bind_some, hes']
      rfl
  exact hloop (List.finRange n) ⟨c.values, none, atimeMax⟩

theorem scanning_init {t : τ} {c : FlatLruCache τ n}
    (hfree : ∀ i, (c.values i).datasetLock ≠ some t) : Scanning t c (machine t c).init where
  same _ := ⟨rfl, rfl, rfl, rfl⟩
  atimes := rfl
  owned i := iff_of_false (hfree i) List.not_mem_nil
  unused _ hzero := hzero
  idle _ hidle := Or.inl hidle.2
  taken _ hi := absurd hi List.not_mem_nil
  reached := ⟨[], rfl, rfl, fun _ hj ↦ absurd hj List.not_mem_nil⟩

/-- The slot that `insert` settles on while the other threads go on is unused when the scan
ends, as long unused as every slot that was idle when the scan began, and locked; no other
slot is left locked, and no entry has changed. -/
theorem interfered_scan_takes_oldest_idle {t : τ} {c : FlatLruCache τ n}
    (hfree : ∀ i, (c.values i).datasetLock ≠ some t) {s : WritePhase τ n}
    (hs : (machine t c).Reachable s)
    {best : Option (Fin n)} {bestAtime : ℕ} (hdone : s.scanner = .looking best bestAtime []) :
    (∀ i, SameDataset c s.cache i) ∧ s.cache.atimes = c.atimes ∧
    (∀ i, (s.cache.values i).datasetLock = some t ↔ best = some i) ∧
    (best = none → ∀ j, ¬ c.Evictable j) ∧
    (∀ b, best = some b → (s.cache.values b).useCount = 0 ∧ c.atimes b < atimeMax ∧
      ∀ j, c.Evictable j → c.atimes b < c.atimes j ∨ c.atimes b = c.atimes j ∧ b ≤ j) := by
  have h : Scanning t c s :=
    hs.invariant (scanning_init hfree) fun _ _ _ h hstep ↦ Scanning.step h hstep
  obtain ⟨cache, scanner⟩ := s
  subst hdone
  obtain ⟨seen, hseen, hsearched⟩ := h.reached
  have hall : ∀ j, j ∈ seen := by
    intro j
    rw [List.append_nil] at hseen
    exact hseen ▸ List.mem_finRange j
  refine ⟨h.same, h.atimes, fun i ↦ ?_, ?_, ?_⟩
  · rw [h.owned i]
    exact Option.mem_toList
  · rintro rfl j
    exact hsearched.2 j (hall j)
  · rintro b rfl
    have hunused := h.taken b List.mem_cons_self
    exact ⟨hunused, hsearched.2.1, fun j hj ↦ hsearched.2.2.2 j (hall j) hj⟩

def halfUsed : FlatLruCache Bool 2 :=
  ⟨fun _ ↦ 5, fun i ↦ 2 - i.val, fun i ↦ ⟨some 0, some 1, ("a.tif", []), none, i.val⟩, 2, 2⟩

def releasedRun : List (WriteEvent Bool 2) :=
  [.scan, .scan, .scan, .scan, .scan, .dec (Fin.last 1), .scan, .scan]

theorem interfered_scan_takes_oldest_idle_released : ∃ s,
    (machine true halfUsed).Reachable s ∧ s.scanner = .looking (some (Fin.last 1)) 1 [] ∧
    (s.cache.values (Fin.last 1)).useCount = 0 ∧
    (∀ i, (s.cache.values i).datasetLock = some true ↔ some (Fin.last 1) = some i) := by
  have hrun : (machine true halfUsed).run (machine true halfUsed).init releasedRun = some _ := rfl
  obtain ⟨-, -, hlocked, -, hbest⟩ :=
    interfered_scan_takes_oldest_idle (by decide) ⟨_, hrun⟩ rfl
  exact ⟨_, ⟨_, hrun⟩, rfl, (hbest _ rfl).1, hlocked⟩

end WritePhase

end GdalWarp.Bindings
