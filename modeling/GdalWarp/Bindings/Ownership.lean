import GdalWarp.Bindings.Session
import Mathlib.Algebra.BigOperators.Fin
import Mathlib.Algebra.Order.BigOperators.Group.Multiset
import Mathlib.Data.Multiset.Range
import Mathlib.Algebra.BigOperators.Group.Finset.Basic
import Mathlib.Tactic.Abel

namespace GdalWarp.Bindings

open Foundation FlatLruCache
open scoped BigOperators

variable {τ : Type} {n : ℕ}

def OpenOutcome.halfOpen (oc : OpenOutcome) : Bool := oc.source && !oc.warped

def LockedDataset.handles (ld : LockedDataset τ) : Multiset DatasetH :=
  ld.source.toList ++ ld.warped.toList

def LockedDataset.Paired (ld : LockedDataset τ) : Prop := ld.source.isSome = ld.warped.isSome

def FlatLruCache.held (c : FlatLruCache τ n) : Multiset DatasetH := ∑ i, (c.values i).handles

/-- Every handle GDAL returned is held once and open, or held by nobody and
closed once. -/
def Accounted (c : FlatLruCache τ n) (g : Gdal) : Prop :=
  ∀ h < g.issued, (c.held.count h = 1 ∧ g.closed.count h = 0) ∨
    (c.held.count h = 0 ∧ g.closed.count h = 1)

/-- The books of handles: the slots', the closed ones and the lost ones, one of
which comes with each opening that found only its first handle. -/
structure Balanced (c : FlatLruCache τ n) (g : Gdal) : Prop where
  paired : ∀ i, (c.values i).Paired
  balance : ∃ lost : Multiset DatasetH, c.held + ↑g.closed + lost = Multiset.range g.issued ∧
    lost.card = g.opens.countP OpenOutcome.halfOpen

theorem held_update (c : FlatLruCache τ n) (i : Fin n) (ld : LockedDataset τ) :
    (∑ j, (Function.update c.values i ld j).handles) + (c.values i).handles =
      c.held + ld.handles := by
  have hrest : ∑ j ∈ Finset.univ.erase i, (Function.update c.values i ld j).handles =
      ∑ j ∈ Finset.univ.erase i, (c.values j).handles :=
    Finset.sum_congr rfl fun j hj ↦ by rw [Function.update_of_ne (Finset.ne_of_mem_erase hj)]
  rw [held, ← Finset.add_sum_erase _ _ (Finset.mem_univ i),
    ← Finset.add_sum_erase _ (fun j ↦ (c.values j).handles) (Finset.mem_univ i), hrest,
    Function.update_self]
  abel

theorem Balanced.same {c c' : FlatLruCache τ n} {g : Gdal} (h : Balanced c g)
    (hs : ∀ i, (c'.values i).source = (c.values i).source)
    (hw : ∀ i, (c'.values i).warped = (c.values i).warped) : Balanced c' g := by
  have hheld : c'.held = c.held :=
    Finset.sum_congr rfl fun i _ ↦ by simp only [LockedDataset.handles, hs i, hw i]
  refine ⟨fun i ↦ ?_, ?_⟩
  · simpa only [LockedDataset.Paired, hs i, hw i] using h.paired i
  · rw [hheld]
    exact h.balance

theorem close_closed {ld : LockedDataset τ} (h : ld.Paired) (g : Gdal) :
    ((ld.close g).2.closed : Multiset DatasetH) = ld.handles + ↑g.closed ∧
      (ld.close g).2.issued = g.issued ∧ (ld.close g).2.opens = g.opens := by
  obtain ⟨source, warped, key, lock, uses⟩ := ld
  cases source <;> cases warped <;>
    simp_all [LockedDataset.Paired, LockedDataset.close, LockedDataset.valid,
      LockedDataset.handles, Gdal.close]

theorem after_failed {c : FlatLruCache τ n} {g : Gdal} {key : UriOptions} {oc : OpenOutcome}
    (h : Balanced c g) (ho : oc.warped = false) : Balanced c (g.after key oc) := by
  obtain ⟨lost, hlost, hcard⟩ := h.balance
  cases hsrc : oc.source
  · refine ⟨h.paired, lost, ?_, ?_⟩
    · simpa [Gdal.after, hsrc, ho] using hlost
    · simpa [Gdal.after, OpenOutcome.halfOpen, hsrc] using hcard
  · refine ⟨h.paired, g.issued ::ₘ lost, ?_, ?_⟩
    · have hrange : (g.after key oc).issued = g.issued + 1 := by simp [Gdal.after, hsrc, ho]
      rw [hrange, Multiset.range_succ, ← hlost]
      simp [Gdal.after]
    · simp [Gdal.after, OpenOutcome.halfOpen, hsrc, ho, hcard]

theorem filled_balanced {c : FlatLruCache τ n} {g : Gdal} {b : Fin n} {tag : UInt64}
    {key : UriOptions} {oc : OpenOutcome} (h : Balanced c g) (hsrc : oc.source = true)
    (ho : oc.warped = true) :
    Balanced (c.filled b tag key g.issued) ((c.values b).close (g.after key oc)).2 := by
  obtain ⟨lost, hlost, hcard⟩ := h.balance
  obtain ⟨hclosed, hissued, hopens⟩ := close_closed (h.paired b) (g.after key oc)
  refine ⟨fun i ↦ ?_, lost, ?_, ?_⟩
  · by_cases hi : i = b
    · subst hi
      rw [filled_values_self]
      rfl
    · rw [filled_values_of_ne _ _ _ _ hi]
      exact h.paired i
  · have hheld : (c.filled b tag key g.issued).held + (c.values b).handles =
        c.held + (g.issued ::ₘ {g.issued + 1}) := by
      have hval : (c.filled b tag key g.issued).values =
          Function.update c.values b ⟨some g.issued, some (g.issued + 1), key, none, 1⟩ := by
        simp [filled, setValue, replaced]
      rw [held, hval]
      exact held_update c b _
    have hrange : Multiset.range (g.issued + 2) =
        (g.issued ::ₘ {g.issued + 1}) + Multiset.range g.issued := by
      rw [Multiset.range_succ, Multiset.range_succ, Multiset.cons_swap]
      simp
    have hnext : (g.after key oc).issued = g.issued + 2 := by simp [Gdal.after, hsrc, ho]
    have hold : ((g.after key oc).closed : Multiset DatasetH) = ↑g.closed := rfl
    rw [hclosed, hissued, hnext, hrange, ← hlost, hold]
    calc (c.filled b tag key g.issued).held + ((c.values b).handles + ↑g.closed) + lost
        = ((c.filled b tag key g.issued).held + (c.values b).handles) + ↑g.closed + lost := by abel
      _ = (g.issued ::ₘ {g.issued + 1}) + (c.held + ↑g.closed + lost) := by rw [hheld]; abel
  · rw [hopens]
    simp [Gdal.after, OpenOutcome.halfOpen, ho, hcard]

theorem fresh_balanced : Balanced (fresh τ n) .start := by
  refine ⟨fun _ ↦ rfl, 0, ?_, rfl⟩
  simp [held, fresh, LockedDataset.handles, LockedDataset.empty, Gdal.start]

theorem foldl_close_closed (c : FlatLruCache τ n) (hc : ∀ i, (c.values i).Paired)
    (l : List (Fin n)) (g : Gdal) :
    ((l.foldl (fun g i ↦ ((c.values i).close g).2) g).closed : Multiset DatasetH) =
      (l.map fun i ↦ (c.values i).handles).sum + ↑g.closed := by
  induction l generalizing g with
  | nil => simp
  | cons i l ih =>
    rw [List.foldl_cons, ih, (close_closed (hc i) g).1, List.map_cons, List.sum_cons]
    abel

theorem destroy_closed {c : FlatLruCache τ n} (hc : ∀ i, (c.values i).Paired) (g : Gdal) :
    ((c.destroy g).closed : Multiset DatasetH) = c.held + ↑g.closed := by
  rw [destroy, foldl_close_closed c hc, held, Fin.sum_univ_def]

theorem Balanced.count {c : FlatLruCache τ n} {g : Gdal} {lost : Multiset DatasetH}
    (h : c.held + ↑g.closed + lost = Multiset.range g.issued) {d : DatasetH} (hd : d < g.issued) :
    c.held.count d + g.closed.count d + lost.count d = 1 := by
  have hrange : (Multiset.range g.issued).count d = 1 :=
    Multiset.count_eq_one_of_mem (Multiset.nodup_range _) (Multiset.mem_range.mpr hd)
  rw [← hrange, ← h, Multiset.count_add, Multiset.count_add, Multiset.coe_count]

theorem Balanced.open_of_held {c : FlatLruCache τ n} {g : Gdal} (h : Balanced c g) {i : Fin n}
    {d : DatasetH} (hd : d ∈ (c.values i).handles) : d ∉ g.closed := by
  obtain ⟨lost, hlost, -⟩ := h.balance
  have hheld : d ∈ c.held := Multiset.mem_sum.mpr ⟨i, Finset.mem_univ i, hd⟩
  have hissued : d ∈ Multiset.range g.issued :=
    hlost ▸ Multiset.mem_add.mpr (Or.inl (Multiset.mem_add.mpr (Or.inl hheld)))
  have hcount := Balanced.count hlost (Multiset.mem_range.mp hissued)
  have hpos := Multiset.count_pos.mpr hheld
  exact List.count_eq_zero.mp (by omega)

theorem Balanced.accounted_iff {c : FlatLruCache τ n} {g : Gdal} (h : Balanced c g) :
    Accounted c g ↔ ∀ oc ∈ g.opens, oc.halfOpen = false := by
  obtain ⟨lost, hlost, hcard⟩ := h.balance
  have hnone : (∀ oc ∈ g.opens, oc.halfOpen = false) ↔ lost = 0 := by
    rw [← Multiset.card_eq_zero, hcard, List.countP_eq_zero]
    simp
  rw [hnone]
  constructor
  · intro hacc
    refine Multiset.eq_zero_of_forall_notMem fun d hd ↦ ?_
    have hmem : d ∈ Multiset.range g.issued :=
      hlost ▸ Multiset.mem_add.mpr (Or.inr hd)
    have hissued : d < g.issued := Multiset.mem_range.mp hmem
    have hcount := Balanced.count hlost hissued
    have hpos : 0 < lost.count d := Multiset.count_pos.mpr hd
    rcases hacc d hissued with hx | hx <;> omega
  · intro hz d hd
    have hcount := Balanced.count hlost hd
    rw [hz, Multiset.count_zero] at hcount
    omega

theorem Balanced.destroyed {c : FlatLruCache τ n} {g : Gdal} (h : Balanced c g)
    (hacc : Accounted c g) : ∀ d < g.issued, (c.destroy g).closed.count d = 1 := by
  intro d hd
  rw [← Multiset.coe_count, destroy_closed h.paired, Multiset.count_add, Multiset.coe_count]
  rcases hacc d hd with hx | hx <;> omega

theorem balanced_preserved (h : StringHash) :
    Session.Preserved (τ := τ) (n := n) h fun c g _ ↦ Balanced c g where
  touch c g _ i _ hb _ := hb.same
    (fun j ↦ touch_field LockedDataset.source (fun _ ↦ rfl) c i j)
    (fun j ↦ touch_field LockedDataset.warped (fun _ ↦ rfl) c i j)
  locked t c g _ b key o hb _ ho := by
    refine (after_failed hb ho).same (fun j ↦ ?_) (fun j ↦ ?_) <;>
    · by_cases hj : j = b
      · subst hj; simp
      · rw [setValue_of_ne _ _ hj]
  filled c g _ b key o hb _ ho := filled_balanced hb (LockedDataset.outcome_warped ho) ho
  dec c g _ i hb := by
    refine hb.same (fun j ↦ ?_) (fun j ↦ ?_) <;>
    · by_cases hj : j = i
      · subst hj; simp [LockedDataset.dec]
      · rw [setValue_of_ne _ _ hj]

variable [DecidableEq τ]

theorem cleared_balanced {t : τ} {c : FlatLruCache τ n} {g : Gdal} {i : Fin n}
    (h : Balanced c g) : Balanced (c.cleared t i) ((c.values i).close g).2 := by
  obtain ⟨lost, hlost, hcard⟩ := h.balance
  obtain ⟨hclosed, hissued, hopens⟩ := close_closed (h.paired i) g
  refine ⟨fun j ↦ ?_, lost, ?_, by rw [hopens, hcard]⟩
  · by_cases hj : j = i
    · subst hj
      simp [cleared, LockedDataset.Paired]
    · simpa [cleared, Function.update_of_ne hj] using h.paired j
  · have hheld : (c.cleared t i).held + (c.values i).handles = c.held :=
      (held_update c i _).trans (add_zero _)
    rw [hclosed, hissued, ← hlost, ← hheld]
    abel

theorem reachable_balanced {h : StringHash} {s : Session τ n}
    (hs : (Session.machine h τ n).Reachable s) : Balanced s.cache s.gdal :=
  (balanced_preserved h).reachable fresh_balanced
    (fun _ _ _ _ _ _ hb hc ↦ clear_invariant (fun _ _ _ hb _ ↦ cleared_balanced hb) hb hc) hs

/-- Each slot has both handles or neither, each handle is held or closed, and
destroying the cache leaves every handle closed once. -/
structure Owned (c : FlatLruCache τ n) (g : Gdal) : Prop where
  paired : ∀ i, (c.values i).Paired
  accounted : Accounted c g
  destroyed : ∀ d < g.issued, (c.destroy g).closed.count d = 1

/-- The handles are owned exactly as long as no warp has failed on an open source. -/
theorem owned_iff_no_half_open {h : StringHash} {s : Session τ n}
    (hs : (Session.machine h τ n).Reachable s) :
    Owned s.cache s.gdal ↔ ∀ oc ∈ s.gdal.opens, oc.halfOpen = false := by
  have hb := reachable_balanced hs
  constructor
  · exact fun ho ↦ hb.accounted_iff.mp ho.accounted
  · intro hopens
    have hacc := hb.accounted_iff.mpr hopens
    exact ⟨hb.paired, hacc, hb.destroyed hacc⟩

theorem owned_iff_no_half_open_two_slots : ∃ s, (Session.machine lengthHash Unit 2).Reachable s ∧
    s.gdal.issued = 2 ∧ Owned s.cache s.gdal := by
  have hs : (Session.machine lengthHash Unit 2).Reachable _ :=
    ⟨[.get () ("a.tif", []) 1 fun _ ↦ answering true true, .dec 0,
      .get () ("b.tif", []) 1 fun _ ↦ answering false true], rfl⟩
  exact ⟨_, hs, by decide, (owned_iff_no_half_open hs).mpr (by decide)⟩

theorem failed_warp_not_owned : ∃ s, (Session.machine lengthHash Unit 1).run
    (Session.machine lengthHash Unit 1).init
      [.get () ("a.tif", []) 1 fun _ ↦ answering true false] = some s ∧
    s.gdal.issued = 1 ∧ ¬ Owned s.cache s.gdal := by
  refine ⟨_, rfl, by decide, fun ho ↦ ?_⟩
  have hclosed := ho.destroyed 0 (by decide)
  exact absurd hclosed (by decide)

end GdalWarp.Bindings
