import GdalWarp.Foundation.Machine
import GdalWarp.Foundation.Counting
import GdalWarp.Foundation.Recency
import GdalWarp.Bindings.Copies
import Mathlib.Algebra.BigOperators.Group.Finset.Basic
import Mathlib.Algebra.Order.BigOperators.Group.Multiset
import Mathlib.Tactic.Abel

namespace GdalWarp.Bindings

open Foundation FlatLruCache
open scoped BigOperators

/-- Where a thread is in the read-locked loop of `get`: outside, with slots left to look
at, or at a slot it wants and before it raises the use count, before it takes the next
time, or before it stores that time. -/
inductive Reader (n : ℕ) where
  | out
  | scanning (tag : UInt64) (key : UriOptions) (list rest : List (Fin n))
  | counting (tag : UInt64) (key : UriOptions) (list : List (Fin n)) (i : Fin n)
      (rest : List (Fin n))
  | drawing (tag : UInt64) (key : UriOptions) (list : List (Fin n)) (i : Fin n)
      (rest : List (Fin n))
  | storing (tag : UInt64) (key : UriOptions) (list : List (Fin n)) (i : Fin n) (atime : ℕ)
      (rest : List (Fin n))

/-- The cache while nobody has the write lock. -/
structure ReadPhase (τ : Type) (n : ℕ) where
  cache : FlatLruCache τ n
  readers : τ → Reader n

-- `dec` and the mutex of a dataset need no lock of the cache
inductive ReadEvent (τ : Type) (n : ℕ) where
  | begin (t : τ) (tag : UInt64) (key : UriOptions)
  | look (t : τ)
  | inc (t : τ)
  | draw (t : τ)
  | store (t : τ)
  | finish (t : τ)
  | dec (i : Fin n)
  | setLock (i : Fin n) (owner : Option τ)

structure Scanned (n : ℕ) where
  tag : UInt64
  key : UriOptions
  list : List (Fin n)

/-- The scans that have ended, the references taken and given back, and the times drawn,
each since the phase began and the latest first. -/
structure ScanLog (n : ℕ) where
  scans : List (Scanned n)
  taken : List (Fin n)
  released : List (Fin n)
  draws : List (ℕ × Fin n)

namespace Reader

variable {n : ℕ}

def list : Reader n → List (Fin n)
  | .out => []
  | .scanning _ _ list _ | .counting _ _ list _ _ | .drawing _ _ list _ _
  | .storing _ _ list _ _ _ => list

def undrawn : Reader n → List (Fin n)
  | .drawing _ _ _ i _ => [i]
  | _ => []

def stores : Reader n → Option (ℕ × Fin n)
  | .storing _ _ _ i atime _ => some (atime, i)
  | _ => none

end Reader

theorem FlatLruCache.SameDataset.symm {τ : Type} {n : ℕ} {c c' : FlatLruCache τ n} {i : Fin n}
    (h : SameDataset c c' i) : SameDataset c' c i :=
  ⟨h.tag.symm, h.source.symm, h.warped.symm, h.key.symm⟩

section Counts

variable {τ : Type} {n : ℕ}

theorem inc_useCount (c : FlatLruCache τ n) (i j : Fin n) :
    ((c.setValue i (c.values i).inc).values j).useCount =
      (c.values j).useCount + ([i].count j : ℕ) := by
  by_cases hj : j = i
  · subst hj
    rw [setValue_self, List.count_singleton_self]
    rfl
  · rw [setValue_of_ne _ _ hj, List.count_singleton, beq_eq_false_iff_ne.mpr (Ne.symm hj)]
    exact (add_zero _).symm

theorem dec_useCount (c : FlatLruCache τ n) (i j : Fin n) :
    ((c.setValue i (c.values i).dec).values j).useCount =
      (c.values j).useCount - ([i].count j : ℕ) := by
  by_cases hj : j = i
  · subst hj
    rw [setValue_self, List.count_singleton_self]
    rfl
  · rw [setValue_of_ne _ _ hj, List.count_singleton, beq_eq_false_iff_ne.mpr (Ne.symm hj)]
    exact (sub_zero _).symm

end Counts

namespace ReadPhase

variable {τ : Type} {n : ℕ}

/-- The same scans, each made at a stroke when it ended. -/
def oneByOne (c : FlatLruCache τ n) (scans : List (Scanned n)) : FlatLruCache τ n :=
  scans.foldr (fun scan c ↦ (c.find scan.tag scan.key).2) c

def touched (scans : List (Scanned n)) : List (Fin n) := scans.reverse.flatMap Scanned.list

theorem touched_cons (scan : Scanned n) (scans : List (Scanned n)) :
    touched (scan :: scans) = touched scans ++ scan.list := by
  rw [touched, List.reverse_cons, List.flatMap_append, List.flatMap_singleton, touched]

theorem coe_touched (scans : List (Scanned n)) :
    (touched scans : Multiset (Fin n)) =
      (scans.map fun scan ↦ (scan.list : Multiset (Fin n))).sum := by
  induction scans with
  | nil => rfl
  | cons scan scans ih =>
    rw [touched_cons, ← Multiset.coe_add, ih, List.map_cons, List.sum_cons, add_comm]

theorem oneByOne_eq {c : FlatLruCache τ n} {scans : List (Scanned n)}
    (h : ∀ scan ∈ scans, scan.list = (c.find scan.tag scan.key).1) :
    oneByOne c scans = (touched scans).foldl touch c := by
  induction scans with
  | nil => rfl
  | cons scan scans ih =>
    obtain ⟨hscan, htail⟩ := List.forall_mem_cons.mp h
    have hhit : ((touched scans).foldl touch c).hit scan.tag scan.key =
        c.hit scan.tag scan.key := by
      funext i
      rw [hit, hit, foldl_touch_tags, foldl_touch_field LockedDataset.uriOptions fun _ ↦ rfl]
    change ((oneByOne c scans).find scan.tag scan.key).2 = _
    rw [ih htail, find_eq, hhit, touched_cons, List.foldl_append, hscan, find_eq]

theorem sameDataset_foldl_touch (c : FlatLruCache τ n) (l : List (Fin n)) (i : Fin n) :
    SameDataset c (l.foldl touch c) i :=
  ⟨by rw [foldl_touch_tags], foldl_touch_field LockedDataset.source (fun _ ↦ rfl) ..,
    foldl_touch_field LockedDataset.warped (fun _ ↦ rfl) ..,
    foldl_touch_field LockedDataset.uriOptions (fun _ ↦ rfl) ..⟩

variable [DecidableEq τ]

def put (s : ReadPhase τ n) (t : τ) (r : Reader n) : ReadPhase τ n :=
  { s with readers := Function.update s.readers t r }

def step (s : ReadPhase τ n) : ReadEvent τ n → Option (ReadPhase τ n)
  | .begin t tag key =>
    match s.readers t with
    | .out => some (s.put t (.scanning tag key [] (List.finRange n)))
    | _ => none
  | .look t =>
    match s.readers t with
    | .scanning tag key list (i :: rest) =>
      if s.cache.hit tag key i then some (s.put t (.counting tag key list i rest))
      else some (s.put t (.scanning tag key list rest))
    | _ => none
  | .inc t =>
    match s.readers t with
    | .counting tag key list i rest =>
      some ({ s with cache := s.cache.setValue i (s.cache.values i).inc }.put t
        (.drawing tag key (list ++ [i]) i rest))
    | _ => none
  | .draw t =>
    match s.readers t with
    | .drawing tag key list i rest =>
      some ({ s with cache := { s.cache with time := s.cache.time + 1 } }.put t
        (.storing tag key list i s.cache.tick rest))
    | _ => none
  | .store t =>
    match s.readers t with
    | .storing tag key list i atime rest =>
      some ({ s with cache := { s.cache with
          atimes := Function.update s.cache.atimes i atime } }.put t (.scanning tag key list rest))
    | _ => none
  | .finish t =>
    match s.readers t with
    | .scanning _ _ _ [] => some (s.put t .out)
    | _ => none
  | .dec i => some { s with cache := s.cache.setValue i (s.cache.values i).dec }
  | .setLock i owner =>
    some { s with cache := s.cache.setValue i { s.cache.values i with datasetLock := owner } }

def machine (c : FlatLruCache τ n) : Machine (ReadPhase τ n) (ReadEvent τ n) where
  init := ⟨c, fun _ ↦ .out⟩
  step := step

def note (r : ScanLog n) (s : ReadPhase τ n) (e : ReadEvent τ n) (_ : ReadPhase τ n) : ScanLog n :=
  match e with
  | .inc t =>
    match s.readers t with
    | .counting _ _ _ i _ => { r with taken := i :: r.taken }
    | _ => r
  | .draw t =>
    match s.readers t with
    | .drawing _ _ _ i _ => { r with draws := (s.cache.time + 1, i) :: r.draws }
    | _ => r
  | .finish t =>
    match s.readers t with
    | .scanning tag key list _ => { r with scans := ⟨tag, key, list⟩ :: r.scans }
    | _ => r
  | .dec i => { r with released := i :: r.released }
  | _ => r

inductive Moves (s : ReadPhase τ n) : ReadEvent τ n → ReadPhase τ n → Prop
  | begin (t : τ) (tag : UInt64) (key : UriOptions) (hr : s.readers t = .out) :
      Moves s (.begin t tag key) (s.put t (.scanning tag key [] (List.finRange n)))
  | hit (t : τ) (tag : UInt64) (key : UriOptions) (list : List (Fin n)) (i : Fin n)
      (rest : List (Fin n)) (hr : s.readers t = .scanning tag key list (i :: rest))
      (hhit : s.cache.hit tag key i = true) :
      Moves s (.look t) (s.put t (.counting tag key list i rest))
  | miss (t : τ) (tag : UInt64) (key : UriOptions) (list : List (Fin n)) (i : Fin n)
      (rest : List (Fin n)) (hr : s.readers t = .scanning tag key list (i :: rest))
      (hmiss : s.cache.hit tag key i = false) :
      Moves s (.look t) (s.put t (.scanning tag key list rest))
  | inc (t : τ) (tag : UInt64) (key : UriOptions) (list : List (Fin n)) (i : Fin n)
      (rest : List (Fin n)) (hr : s.readers t = .counting tag key list i rest) :
      Moves s (.inc t) ({ s with cache := s.cache.setValue i (s.cache.values i).inc }.put t
        (.drawing tag key (list ++ [i]) i rest))
  | draw (t : τ) (tag : UInt64) (key : UriOptions) (list : List (Fin n)) (i : Fin n)
      (rest : List (Fin n)) (hr : s.readers t = .drawing tag key list i rest) :
      Moves s (.draw t) ({ s with cache := { s.cache with time := s.cache.time + 1 } }.put t
        (.storing tag key list i s.cache.tick rest))
  | store (t : τ) (tag : UInt64) (key : UriOptions) (list : List (Fin n)) (i : Fin n) (atime : ℕ)
      (rest : List (Fin n)) (hr : s.readers t = .storing tag key list i atime rest) :
      Moves s (.store t) ({ s with cache := { s.cache with
        atimes := Function.update s.cache.atimes i atime } }.put t (.scanning tag key list rest))
  | finish (t : τ) (tag : UInt64) (key : UriOptions) (list : List (Fin n))
      (hr : s.readers t = .scanning tag key list []) : Moves s (.finish t) (s.put t .out)
  | dec (i : Fin n) :
      Moves s (.dec i) { s with cache := s.cache.setValue i (s.cache.values i).dec }
  | setLock (i : Fin n) (owner : Option τ) :
      Moves s (.setLock i owner) { s with
        cache := s.cache.setValue i { s.cache.values i with datasetLock := owner } }

theorem step_moves {s s' : ReadPhase τ n} {e : ReadEvent τ n} (hs : s.step e = some s') :
    Moves s e s' := by
  cases e with
  | begin t tag key =>
    simp only [step] at hs
    split at hs
    case h_1 hr =>
      cases hs
      exact .begin t tag key hr
    case h_2 => cases hs
  | look t =>
    simp only [step] at hs
    split at hs
    case h_1 tag key list i rest hr =>
      split at hs
      case isTrue hhit =>
        cases hs
        exact .hit t tag key list i rest hr hhit
      case isFalse hmiss =>
        cases hs
        exact .miss t tag key list i rest hr (Bool.eq_false_of_not_eq_true hmiss)
    case h_2 => cases hs
  | inc t =>
    simp only [step] at hs
    split at hs
    case h_1 tag key list i rest hr =>
      cases hs
      exact .inc t tag key list i rest hr
    case h_2 => cases hs
  | draw t =>
    simp only [step] at hs
    split at hs
    case h_1 tag key list i rest hr =>
      cases hs
      exact .draw t tag key list i rest hr
    case h_2 => cases hs
  | store t =>
    simp only [step] at hs
    split at hs
    case h_1 tag key list i atime rest hr =>
      cases hs
      exact .store t tag key list i atime rest hr
    case h_2 => cases hs
  | finish t =>
    simp only [step] at hs
    split at hs
    case h_1 tag key list hr =>
      cases hs
      exact .finish t tag key list hr
    case h_2 => cases hs
  | dec i =>
    cases hs
    exact .dec i
  | setLock i owner =>
    cases hs
    exact .setLock i owner

/-- What is left to find and what was found are what `find` finds in the cache as the
phase found it. -/
def OnCourse (c : FlatLruCache τ n) : Reader n → Prop
  | .out => True
  | .scanning tag key list rest | .drawing tag key list _ rest | .storing tag key list _ _ rest =>
    list ++ rest.filter (c.hit tag key) = (c.find tag key).1
  | .counting tag key list i rest =>
    list ++ [i] ++ rest.filter (c.hit tag key) = (c.find tag key).1

structure Course (c : FlatLruCache τ n) (s : ReadPhase τ n) (r : ScanLog n) : Prop where
  same : ∀ i, SameDataset c s.cache i
  readers : ∀ t, OnCourse c (s.readers t)
  scans : ∀ scan ∈ r.scans, scan.list = (c.find scan.tag scan.key).1

theorem Course.put {c c' : FlatLruCache τ n} {s : ReadPhase τ n} {r r' : ScanLog n}
    (h : Course c s r) {t : τ} {reader : Reader n} (hsame : ∀ i, SameDataset s.cache c' i)
    (hreader : OnCourse c reader)
    (hscans : ∀ scan ∈ r'.scans, scan ∈ r.scans ∨ scan.list = (c.find scan.tag scan.key).1) :
    Course c ({ s with cache := c' }.put t reader) r' := by
  refine ⟨fun i ↦ (h.same i).trans (hsame i), ?_, fun scan hscan ↦ ?_⟩
  · exact (Function.forall_update_iff s.readers fun _ reader ↦ OnCourse c reader).mpr
      ⟨hreader, fun u _ ↦ h.readers u⟩
  · exact (hscans scan hscan).elim (h.scans scan) id

theorem Course.step {c : FlatLruCache τ n} {s s' : ReadPhase τ n} {e : ReadEvent τ n}
    {r : ScanLog n} (h : Course c s r) (hs : s.step e = some s') : Course c s' (note r s e s') := by
  have hkept {i : Fin n} : SameDataset s.cache s.cache i := ⟨rfl, rfl, rfl, rfl⟩
  have hreader {t : τ} {reader : Reader n} (hr : s.readers t = reader) : OnCourse c reader :=
    hr ▸ h.readers t
  have hold {r' : ScanLog n} (hr' : r'.scans = r.scans) : ∀ scan ∈ r'.scans,
      scan ∈ r.scans ∨ scan.list = (c.find scan.tag scan.key).1 :=
    fun scan hscan ↦ Or.inl (hr' ▸ hscan)
  cases step_moves hs with
  | begin t tag key hr =>
    refine h.put (fun _ ↦ hkept) ?_ (hold rfl)
    rw [OnCourse, List.nil_append, find_eq]
  | hit t tag key list i rest hr hhit =>
    have hcourse := hreader hr
    rw [(h.same i).hit] at hhit
    rw [OnCourse, List.filter_cons_of_pos hhit] at hcourse
    refine h.put (fun _ ↦ hkept) ?_ (hold rfl)
    rw [OnCourse, List.append_assoc]
    exact hcourse
  | miss t tag key list i rest hr hmiss =>
    have hcourse := hreader hr
    rw [(h.same i).hit] at hmiss
    rw [OnCourse, List.filter_cons_of_neg (by rw [hmiss]; exact Bool.false_ne_true)] at hcourse
    exact h.put (fun _ ↦ hkept) hcourse (hold rfl)
  | inc t tag key list i rest hr =>
    have hcourse := hreader hr
    have hinc := sameDataset_setValue s.cache i (s.cache.values i).inc rfl rfl rfl
    refine h.put hinc hcourse (hold ?_)
    rw [note, hr]
  | draw t tag key list i rest hr =>
    have hcourse := hreader hr
    refine h.put (fun _ ↦ ⟨rfl, rfl, rfl, rfl⟩) hcourse (hold ?_)
    rw [note, hr]
  | store t tag key list i atime rest hr =>
    have hcourse := hreader hr
    exact h.put (fun _ ↦ ⟨rfl, rfl, rfl, rfl⟩) hcourse (hold rfl)
  | finish t tag key list hr =>
    refine h.put (fun _ ↦ hkept) trivial fun scan hscan ↦ ?_
    rw [note, hr] at hscan
    rcases List.mem_cons.mp hscan with rfl | hscan
    · have hcourse := hreader hr
      rw [OnCourse, List.filter_nil, List.append_nil] at hcourse
      exact Or.inr hcourse
    · exact Or.inl hscan
  | dec i =>
    have hdec := sameDataset_setValue s.cache i (s.cache.values i).dec rfl rfl rfl
    exact ⟨fun j ↦ (h.same j).trans (hdec j), h.readers, h.scans⟩
  | setLock i owner =>
    have hlock := sameDataset_setValue s.cache i { s.cache.values i with datasetLock := owner }
      rfl rfl rfl
    exact ⟨fun j ↦ (h.same j).trans (hlock j), h.readers, h.scans⟩

section Tallies

variable [Fintype τ]

def lists (s : ReadPhase τ n) : Multiset (Fin n) := ∑ t, ↑(s.readers t).list

def undrawn (s : ReadPhase τ n) : Multiset (Fin n) := ∑ t, ↑(s.readers t).undrawn

theorem lists_put (s : ReadPhase τ n) (c' : FlatLruCache τ n) (t : τ) (reader : Reader n) :
    ({ s with cache := c' }.put t reader).lists + ↑(s.readers t).list =
      s.lists + ↑reader.list :=
  sum_update_add (fun r ↦ (r.list : Multiset (Fin n))) s.readers t reader

theorem undrawn_put (s : ReadPhase τ n) (c' : FlatLruCache τ n) (t : τ) (reader : Reader n) :
    ({ s with cache := c' }.put t reader).undrawn + ↑(s.readers t).undrawn =
      s.undrawn + ↑reader.undrawn :=
  sum_update_add (fun r ↦ (r.undrawn : Multiset (Fin n))) s.readers t reader

structure Tallied (c : FlatLruCache τ n) (s : ReadPhase τ n) (r : ScanLog n) : Prop where
  uses : ∀ i, (s.cache.values i).useCount + r.released.count i =
    (c.values i).useCount + r.taken.count i
  taken : (r.taken : Multiset (Fin n)) =
    (r.scans.map fun scan ↦ (scan.list : Multiset (Fin n))).sum + s.lists
  drawn : (r.draws.map Prod.snd : Multiset (Fin n)) + s.undrawn = r.taken
  time : s.cache.time = c.time + r.draws.length

theorem Tallied.put {c c' : FlatLruCache τ n} {s : ReadPhase τ n} {r : ScanLog n}
    (h : Tallied c s r) {t : τ} {reader : Reader n}
    (huses : ∀ i, (c'.values i).useCount = (s.cache.values i).useCount)
    (htime : c'.time = s.cache.time) (hlist : (s.readers t).list = reader.list)
    (hundrawn : (s.readers t).undrawn = reader.undrawn) :
    Tallied c ({ s with cache := c' }.put t reader) r := by
  have hlists := lists_put s c' t reader
  have hdrawn := undrawn_put s c' t reader
  rw [hlist] at hlists
  rw [hundrawn] at hdrawn
  refine ⟨fun i ↦ (congrArg (· + _) (huses i)).trans (h.uses i), ?_, ?_, htime.trans h.time⟩
  · rw [add_right_cancel hlists]
    exact h.taken
  · rw [add_right_cancel hdrawn]
    exact h.drawn

theorem Tallied.inc {c : FlatLruCache τ n} {s : ReadPhase τ n} {r : ScanLog n}
    (h : Tallied c s r) {t : τ} {tag : UInt64} {key : UriOptions} {list : List (Fin n)} {i : Fin n}
    {rest : List (Fin n)} (hr : s.readers t = .counting tag key list i rest) :
    Tallied c ({ s with cache := s.cache.setValue i (s.cache.values i).inc }.put t
      (.drawing tag key (list ++ [i]) i rest)) { r with taken := i :: r.taken } := by
  have hlists := lists_put s (s.cache.setValue i (s.cache.values i).inc) t
    (.drawing tag key (list ++ [i]) i rest)
  have hdrawn := undrawn_put s (s.cache.setValue i (s.cache.values i).inc) t
    (.drawing tag key (list ++ [i]) i rest)
  rw [hr] at hlists hdrawn
  refine ⟨fun j ↦ ?_, ?_, ?_, h.time⟩
  · have huses := h.uses j
    have hinc := inc_useCount s.cache i j
    rw [count_cons_eq]
    change ((s.cache.setValue i (s.cache.values i).inc).values j).useCount + _ = _
    push_cast
    omega
  · have hnext : ↑(list ++ [i]) = (↑list : Multiset (Fin n)) + ↑[i] := rfl
    rw [Reader.list, Reader.list, hnext, add_comm (↑list : Multiset (Fin n)), ← add_assoc] at hlists
    rw [add_right_cancel hlists, coe_cons_eq i r.taken, h.taken]
    abel
  · change _ + (0 : Multiset (Fin n)) = s.undrawn + ↑[i] at hdrawn
    rw [add_zero] at hdrawn
    rw [hdrawn, coe_cons_eq i r.taken, ← h.drawn]
    exact (add_assoc ..).symm.trans (add_comm ..)

theorem Tallied.draw {c : FlatLruCache τ n} {s : ReadPhase τ n} {r : ScanLog n}
    (h : Tallied c s r) {t : τ} {tag : UInt64} {key : UriOptions} {list : List (Fin n)} {i : Fin n}
    {rest : List (Fin n)} (hr : s.readers t = .drawing tag key list i rest) :
    Tallied c ({ s with cache := { s.cache with time := s.cache.time + 1 } }.put t
      (.storing tag key list i s.cache.tick rest))
      { r with draws := (s.cache.time + 1, i) :: r.draws } := by
  have hlists := lists_put s { s.cache with time := s.cache.time + 1 } t
    (.storing tag key list i s.cache.tick rest)
  have hdrawn := undrawn_put s { s.cache with time := s.cache.time + 1 } t
    (.storing tag key list i s.cache.tick rest)
  rw [hr] at hlists hdrawn
  refine ⟨h.uses, ?_, ?_, ?_⟩
  · rw [add_right_cancel hlists]
    exact h.taken
  · change _ + ↑[i] = s.undrawn + (0 : Multiset (Fin n)) at hdrawn
    rw [add_zero] at hdrawn
    rw [← h.drawn, ← hdrawn, List.map_cons, coe_cons_eq i (r.draws.map Prod.snd), add_assoc,
      add_comm, add_assoc]
  · have htime := h.time
    rw [List.length_cons, ← Nat.add_assoc, ← htime]
    rfl

theorem Tallied.finish {c : FlatLruCache τ n} {s : ReadPhase τ n} {r : ScanLog n}
    (h : Tallied c s r) {t : τ} {tag : UInt64} {key : UriOptions} {list : List (Fin n)}
    (hr : s.readers t = .scanning tag key list []) :
    Tallied c (s.put t .out) { r with scans := ⟨tag, key, list⟩ :: r.scans } := by
  have hlists := lists_put s s.cache t .out
  have hdrawn := undrawn_put s s.cache t .out
  rw [hr] at hlists hdrawn
  refine ⟨h.uses, ?_, ?_, h.time⟩
  · rw [Reader.list, Reader.list, Multiset.coe_nil, add_zero] at hlists
    rw [List.map_cons, List.sum_cons, h.taken, ← hlists]
    abel
  · exact (congrArg (_ + ·) (add_right_cancel hdrawn)).trans h.drawn

theorem Tallied.step {c : FlatLruCache τ n} {s s' : ReadPhase τ n} {e : ReadEvent τ n}
    {r : ScanLog n} (h : Tallied c s r) (hs : s.step e = some s') :
    Tallied c s' (note r s e s') := by
  cases step_moves hs with
  | begin t tag key hr => exact h.put (fun _ ↦ rfl) rfl (by rw [hr]; rfl) (by rw [hr]; rfl)
  | hit t tag key list i rest hr | miss t tag key list i rest hr =>
    exact h.put (fun _ ↦ rfl) rfl (by rw [hr]; rfl) (by rw [hr]; rfl)
  | inc t tag key list i rest hr =>
    rw [note, hr]
    exact h.inc hr
  | draw t tag key list i rest hr =>
    rw [note, hr]
    exact h.draw hr
  | store t tag key list i atime rest hr =>
    exact h.put (fun _ ↦ rfl) rfl (by rw [hr]; rfl) (by rw [hr]; rfl)
  | finish t tag key list hr =>
    rw [note, hr]
    exact h.finish hr
  | dec i =>
    refine ⟨fun j ↦ ?_, h.taken, h.drawn, h.time⟩
    have huses := h.uses j
    have hdec := dec_useCount s.cache i j
    rw [note, count_cons_eq]
    push_cast
    omega
  | setLock i owner =>
    refine ⟨fun j ↦ ?_, h.taken, h.drawn, h.time⟩
    have hlock := setValue_field LockedDataset.useCount s.cache
      (show { s.cache.values i with datasetLock := owner }.useCount = _ from rfl) j
    exact (congrArg (· + _) hlock).trans (h.uses j)

end Tallies

/-- The access times as the phase leaves them, while `m_time` has not overflowed: a time
that was drawn for a slot is stored or about to be. -/
structure Timed (c : FlatLruCache τ n) (s : ReadPhase τ n) (r : ScanLog n) : Prop where
  base : c.time ≤ s.cache.time
  stamped : Stamped c.time c.atimes r.draws s.cache.time s.cache.atimes
  storing : ∀ t d, (s.readers t).stores = some d → d ∈ r.draws
  stored : ∀ d ∈ r.draws, (s.cache.atimes d.2, d.2) ∈ r.draws ∨
    ∃ t d', (s.readers t).stores = some d' ∧ d'.2 = d.2

theorem readers_put_self (s : ReadPhase τ n) (t : τ) (reader : Reader n) :
    (s.put t reader).readers t = reader := Function.update_self ..

theorem readers_put_of_ne (s : ReadPhase τ n) {t u : τ} (reader : Reader n) (h : u ≠ t) :
    (s.put t reader).readers u = s.readers u := Function.update_of_ne h ..

theorem Timed.put {c c' : FlatLruCache τ n} {s : ReadPhase τ n} {r r' : ScanLog n}
    (h : Timed c s r) {t : τ} {reader : Reader n} (htime : c'.time = s.cache.time)
    (hatimes : c'.atimes = s.cache.atimes) (hold : (s.readers t).stores = none)
    (hnew : reader.stores = none) (hdraws : r'.draws = r.draws) :
    Timed c ({ s with cache := c' }.put t reader) r' := by
  refine ⟨h.base.trans_eq htime.symm, ?_, fun u d hd ↦ ?_, fun d hd ↦ ?_⟩
  · rw [hdraws]
    change Stamped c.time c.atimes r.draws c'.time c'.atimes
    rw [htime, hatimes]
    exact h.stamped
  · rw [hdraws]
    by_cases hu : u = t
    · subst hu
      rw [readers_put_self, hnew] at hd
      cases hd
    · rw [readers_put_of_ne _ _ hu] at hd
      exact h.storing u d hd
  · rw [hdraws] at hd ⊢
    change (c'.atimes d.2, d.2) ∈ r.draws ∨ _
    rw [hatimes]
    refine (h.stored d hd).imp_right fun ⟨u, d', hd', heq⟩ ↦ ⟨u, d', ?_, heq⟩
    have hu : u ≠ t := by
      rintro rfl
      rw [hold] at hd'
      cases hd'
    rw [readers_put_of_ne _ _ hu]
    exact hd'

theorem Timed.draw {c : FlatLruCache τ n} {s : ReadPhase τ n} {r : ScanLog n} (h : Timed c s r)
    {t : τ} {tag : UInt64} {key : UriOptions} {list : List (Fin n)} {i : Fin n}
    {rest : List (Fin n)} (hr : s.readers t = .drawing tag key list i rest)
    (htick : s.cache.tick = s.cache.time + 1) :
    Timed c ({ s with cache := { s.cache with time := s.cache.time + 1 } }.put t
      (.storing tag key list i s.cache.tick rest))
      { r with draws := (s.cache.time + 1, i) :: r.draws } := by
  refine ⟨h.base.trans (Nat.le_succ _), h.stamped.draw h.base i, fun u d hd ↦ ?_, fun d hd ↦ ?_⟩
  · by_cases hu : u = t
    · subst hu
      rw [readers_put_self, htick] at hd
      cases hd
      exact List.mem_cons_self
    · rw [readers_put_of_ne _ _ hu] at hd
      exact List.mem_cons_of_mem _ (h.storing u d hd)
  · rcases List.mem_cons.mp hd with rfl | hd
    · exact Or.inr ⟨t, (s.cache.tick, i), by rw [readers_put_self]; rfl, rfl⟩
    · rcases h.stored d hd with hstored | ⟨u, d', hd', heq⟩
      · exact Or.inl (List.mem_cons_of_mem _ hstored)
      · have hu : u ≠ t := by
          rintro rfl
          rw [hr] at hd'
          cases hd'
        exact Or.inr ⟨u, d', by rw [readers_put_of_ne _ _ hu]; exact hd', heq⟩

theorem Timed.store {c : FlatLruCache τ n} {s : ReadPhase τ n} {r : ScanLog n} (h : Timed c s r)
    {t : τ} {tag : UInt64} {key : UriOptions} {list : List (Fin n)} {i : Fin n} {atime : ℕ}
    {rest : List (Fin n)} (hr : s.readers t = .storing tag key list i atime rest) :
    Timed c ({ s with cache := { s.cache with
      atimes := Function.update s.cache.atimes i atime } }.put t (.scanning tag key list rest))
      r := by
  have hdrawn : (atime, i) ∈ r.draws := h.storing t (atime, i) (by rw [hr]; rfl)
  refine ⟨h.base, h.stamped.store hdrawn, fun u d hd ↦ ?_, fun d hd ↦ ?_⟩
  · by_cases hu : u = t
    · subst hu
      rw [readers_put_self] at hd
      cases hd
    · rw [readers_put_of_ne _ _ hu] at hd
      exact h.storing u d hd
  · change (Function.update s.cache.atimes i atime d.2, d.2) ∈ r.draws ∨ _
    by_cases hi : d.2 = i
    · rw [hi, Function.update_self]
      exact Or.inl hdrawn
    · rw [Function.update_of_ne hi]
      refine (h.stored d hd).imp_right fun ⟨u, d', hd', heq⟩ ↦ ⟨u, d', ?_, heq⟩
      have hu : u ≠ t := by
        rintro rfl
        rw [hr] at hd'
        cases hd'
        exact hi heq.symm
      rw [readers_put_of_ne _ _ hu]
      exact hd'

theorem timed_step {c : FlatLruCache τ n} {s s' : ReadPhase τ n} {e : ReadEvent τ n}
    {r : ScanLog n} (h : s.cache.time < 2 ^ 64 → Timed c s r) (hs : s.step e = some s')
    (htime : s'.cache.time < 2 ^ 64) : Timed c s' (note r s e s') := by
  cases step_moves hs with
  | begin t tag key hr =>
    exact (h htime).put rfl rfl (by rw [hr]; rfl) rfl rfl
  | hit t tag key list i rest hr | miss t tag key list i rest hr =>
    exact (h htime).put rfl rfl (by rw [hr]; rfl) rfl rfl
  | inc t tag key list i rest hr =>
    exact (h htime).put rfl rfl (by rw [hr]; rfl) rfl (by rw [note, hr])
  | draw t tag key list i rest hr =>
    have hlt : s.cache.time + 1 < 2 ^ 64 := htime
    rw [note, hr]
    exact (h (Nat.lt_of_succ_lt hlt)).draw hr (Nat.mod_eq_of_lt hlt)
  | store t tag key list i atime rest hr => exact (h htime).store hr
  | finish t tag key list hr =>
    exact (h htime).put rfl rfl (by rw [hr]; rfl) rfl (by rw [note, hr])
  | dec i | setLock i owner =>
    obtain ⟨hbase, hstamped, hstoring, hstored⟩ := h htime
    exact ⟨hbase, hstamped, hstoring, hstored⟩

/-- The cache is as the scans would have left it one after another, but for the order of
the times of slots that several of them found. -/
structure Agrees (c : FlatLruCache τ n) (s : ReadPhase τ n) (r : ScanLog n) : Prop where
  lists : ∀ scan ∈ r.scans, scan.list = (c.find scan.tag scan.key).1
  time : s.cache.time = (oneByOne c r.scans).time
  same : ∀ i, SameDataset (oneByOne c r.scans) s.cache i
  uses : ∀ i, (s.cache.values i).useCount + r.released.count i =
    ((oneByOne c r.scans).values i).useCount
  order : ∀ i j, i ∉ touched r.scans ∨ j ∉ touched r.scans →
    (s.cache.atimes i < s.cache.atimes j ↔
      (oneByOne c r.scans).atimes i < (oneByOne c r.scans).atimes j)
  distinct : ∀ i ∈ touched r.scans, ∀ j ∈ touched r.scans, i ≠ j →
    s.cache.atimes i ≠ s.cache.atimes j

omit [DecidableEq τ] in
theorem Tallied.quiet [Fintype τ] {c : FlatLruCache τ n} {s : ReadPhase τ n} {r : ScanLog n}
    (h : Tallied c s r) (hquiet : ∀ t, s.readers t = .out) :
    (r.taken : Multiset (Fin n)) = ↑(touched r.scans) ∧
      (r.draws.map Prod.snd : Multiset (Fin n)) = ↑(touched r.scans) := by
  have hlists : s.lists = 0 := Finset.sum_eq_zero fun t _ ↦ by rw [hquiet t]; rfl
  have hundrawn : s.undrawn = 0 := Finset.sum_eq_zero fun t _ ↦ by rw [hquiet t]; rfl
  have htaken : (r.taken : Multiset (Fin n)) = ↑(touched r.scans) := by
    rw [h.taken, hlists, add_zero, coe_touched]
  have hdrawn := h.drawn
  rw [hundrawn, add_zero, htaken] at hdrawn
  exact ⟨htaken, hdrawn⟩

omit [DecidableEq τ] in
theorem agrees_of_quiet [Fintype τ] {c : FlatLruCache τ n} {s : ReadPhase τ n} {r : ScanLog n}
    (hcourse : Course c s r) (htallied : Tallied c s r) (htimed : Timed c s r)
    (hold : ∀ i, c.atimes i ≤ c.time) (htime : s.cache.time < 2 ^ 64)
    (hquiet : ∀ t, s.readers t = .out) : Agrees c s r := by
  obtain ⟨htaken, hdrawn⟩ := htallied.quiet hquiet
  have hone := oneByOne_eq hcourse.scans
  have hlength : r.draws.length = (touched r.scans).length := by
    rw [← List.length_map Prod.snd, ← Multiset.coe_card, hdrawn, Multiset.coe_card]
  have hstored : ∀ i ∈ touched r.scans, (s.cache.atimes i, i) ∈ r.draws := by
    intro i hi
    have hmem : i ∈ r.draws.map Prod.snd :=
      Multiset.mem_coe.mp (hdrawn.symm ▸ Multiset.mem_coe.mpr hi)
    obtain ⟨d, hd, rfl⟩ := List.mem_map.mp hmem
    refine (htimed.stored d hd).resolve_right fun ⟨t, d', hd', _⟩ ↦ ?_
    rw [hquiet t] at hd'
    cases hd'
  have hkept : ∀ i, i ∉ touched r.scans → s.cache.atimes i = c.atimes i := by
    intro i hi
    refine (htimed.stamped.stamps i).resolve_right fun hmem ↦ hi ?_
    have hsnd : i ∈ (r.draws.map Prod.snd : Multiset (Fin n)) :=
      Multiset.mem_coe.mpr (List.mem_map_of_mem (f := Prod.snd) hmem)
    rw [hdrawn] at hsnd
    exact Multiset.mem_coe.mp hsnd
  have hkept' : ∀ i, i ∉ touched r.scans → (oneByOne c r.scans).atimes i = c.atimes i := by
    intro i hi
    rw [hone, foldl_touch_atimes hi]
  have hlater : ∀ i ∈ touched r.scans, c.time < s.cache.atimes i :=
    fun i hi ↦ (htimed.stamped.range _ (hstored i hi)).1
  have hlater' : ∀ i ∈ touched r.scans, c.time < (oneByOne c r.scans).atimes i := by
    intro i hi
    have hbound := htallied.time
    rw [hone]
    exact foldl_touch_later le_rfl (by omega) (Or.inl hi)
  refine ⟨hcourse.scans, ?_, fun i ↦ ?_, fun i ↦ ?_, fun i j hij ↦ ?_, fun i hi j hj hne ↦ ?_⟩
  · rw [hone, foldl_touch_time, htallied.time, hlength]
  · have htouch : SameDataset c (oneByOne c r.scans) i := hone ▸ sameDataset_foldl_touch ..
    exact htouch.symm.trans (hcourse.same i)
  · have huses := htallied.uses i
    rw [← Multiset.coe_count i r.taken, htaken, Multiset.coe_count] at huses
    rw [hone, foldl_touch_useCount, huses]
  · by_cases hi : i ∈ touched r.scans
    · have hj := hij.resolve_left (not_not.mpr hi)
      have hlt := hlater i hi
      have hlt' := hlater' i hi
      have hle := hold j
      rw [hkept j hj, hkept' j hj]
      omega
    · rw [hkept i hi, hkept' i hi]
      by_cases hj : j ∈ touched r.scans
      · have hlt := hlater j hj
        have hlt' := hlater' j hj
        have hle := hold i
        omega
      · rw [hkept j hj, hkept' j hj]
  · exact htimed.stamped.ne_of_drawn (hstored i hi) (hstored j hj) hne

/-- However the steps of the read-locked loops fall between each other, and between the
`dec`s and operations of calls that need no lock, every `get` finds what it would have
found alone; use counts and `m_time` are as if the loops had been run one after another,
and so is the order of access times, but for slots that were found in the same phase. -/
theorem interleaved_scans_agree [Fintype τ] {c : FlatLruCache τ n}
    (hold : ∀ i, c.atimes i ≤ c.time) {es : List (ReadEvent τ n)} {s : ReadPhase τ n}
    (hrun : (machine c).run (machine c).init es = some s) (hquiet : ∀ t, s.readers t = .out)
    (htime : s.cache.time < 2 ^ 64) :
    Agrees c s ((machine c).record note (machine c).init ⟨[], [], [], []⟩ es) := by
  have hcourse : Course c s ((machine c).record note (machine c).init ⟨[], [], [], []⟩ es) :=
    Machine.run_record (fun _ _ _ _ h hs ↦ h.step hs)
      ⟨fun _ ↦ ⟨rfl, rfl, rfl, rfl⟩, fun _ ↦ trivial, nofun⟩ hrun
  have htallied : Tallied c s ((machine c).record note (machine c).init ⟨[], [], [], []⟩ es) := by
    have hlists : (machine c).init.lists = 0 := Finset.sum_eq_zero fun _ _ ↦ rfl
    have hundrawn : (machine c).init.undrawn = 0 := Finset.sum_eq_zero fun _ _ ↦ rfl
    refine Machine.run_record (fun _ _ _ _ h hs ↦ h.step hs) ⟨fun _ ↦ rfl, ?_, ?_, rfl⟩ hrun
    · rw [hlists]
      rfl
    · rw [hundrawn]
      rfl
  have htimed : s.cache.time < 2 ^ 64 →
      Timed c s ((machine c).record note (machine c).init ⟨[], [], [], []⟩ es) :=
    Machine.run_record (I := fun s r ↦ s.cache.time < 2 ^ 64 → Timed c s r)
      (fun _ _ _ _ h hs ↦ timed_step h hs)
      (fun _ ↦ ⟨le_rfl, .start _ _, fun _ _ hd ↦ (by cases hd),
        fun _ hd ↦ absurd hd List.not_mem_nil⟩) hrun
  exact agrees_of_quiet hcourse htallied (htimed htime) hold htime hquiet

def cacheOfA : FlatLruCache Bool 2 := (fresh Bool 2).filled (Fin.last 1) 5 ("a.tif", []) 0

def overtakingRun : List (ReadEvent Bool 2) :=
  [.begin false 5 ("a.tif", []), .begin true 5 ("a.tif", []), .look false, .look true, .look false,
    .look true, .inc false, .inc true, .draw false, .draw true, .store true, .store false,
    .dec (Fin.last 1), .finish true, .finish false]

theorem interleaved_scans_agree_overtaking : ∃ s,
    (machine cacheOfA).run (machine cacheOfA).init overtakingRun = some s ∧
    s.cache.time = 3 ∧ s.cache.atimes (Fin.last 1) = 2 ∧
    Agrees cacheOfA s
      ((machine cacheOfA).record note (machine cacheOfA).init ⟨[], [], [], []⟩ overtakingRun) := by
  have hrun : (machine cacheOfA).run (machine cacheOfA).init overtakingRun = some _ := rfl
  exact ⟨_, hrun, rfl, rfl, interleaved_scans_agree (by decide) hrun
    (fun t ↦ by cases t <;> rfl) (by decide)⟩

end ReadPhase

end GdalWarp.Bindings
