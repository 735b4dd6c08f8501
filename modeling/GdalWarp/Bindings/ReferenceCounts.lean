import GdalWarp.Bindings.Ownership
import GdalWarp.Bindings.Service
import Mathlib.Algebra.Order.BigOperators.Group.Finset
import Mathlib.Data.Fintype.Basic

namespace GdalWarp.Bindings.Service

open Foundation FlatLruCache LockedDataset
open scoped BigOperators

variable {τ : Type} {L : LruCache} {n : ℕ}

/-- The references that running calls have to slot `i`. -/
def references [Fintype τ] (s : Service τ L n) (i : Fin n) : ℤ :=
  ∑ t, ((s.threads t).held.count i : ℤ)

structure Consistent (c : FlatLruCache τ n) (th : Thread n) : Prop where
  held : th.held = th.pc.refs
  key : ∀ p, th.pc.pair = some p → ∀ i ∈ th.held, (c.values i).uriOptions = p

structure Counted [Fintype τ] (s : Service τ L n) : Prop where
  uses : ∀ i, (s.cache.values i).useCount = s.references i
  consistent : ∀ t, Consistent s.cache (s.threads t)
  running : s.aborted = false

theorem Consistent.same {c c' : FlatLruCache τ n} {th : Thread n} (h : Consistent c th)
    (hk : ∀ i ∈ th.held, (c'.values i).uriOptions = (c.values i).uriOptions) :
    Consistent c' th :=
  ⟨h.held, fun p hp i hi ↦ (hk i hi).trans (h.key p hp i hi)⟩

theorem Consistent.quiet {c : FlatLruCache τ n} {th : Thread n} {pc : Pc n}
    (h : Consistent c th) (hq : Pc.Quiet th.pc pc) : Consistent c { th with pc := pc } := by
  refine ⟨h.held.trans hq.refs.symm, fun p hp i hi ↦ ?_⟩
  rcases hq.pair with hnil | hpair
  · rw [h.held, hnil] at hi
    exact absurd hi List.not_mem_nil
  · exact h.key p (hpair ▸ hp) i hi

theorem Consistent.sameRefs {c : FlatLruCache τ n} {th : Thread n} {pc : Pc n}
    (h : Consistent c th) (hrefs : pc.refs = th.pc.refs) (hpair : pc.pair = th.pc.pair) :
    Consistent c { th with pc := pc } :=
  ⟨h.held.trans hrefs.symm, fun p hp i hi ↦ h.key p (hpair ▸ hp) i hi⟩

theorem Counted.not_held [Fintype τ] {s : Service τ L n} (h : Counted s) {i : Fin n}
    (hi : (s.cache.values i).useCount = 0) (t : τ) : i ∉ (s.threads t).held := by
  have hzero : s.references i = 0 := (h.uses i).symm.trans hi
  have hall := (Finset.sum_eq_zero_iff_of_nonneg fun u _ ↦ Int.natCast_nonneg _).mp hzero
  have ht : ((s.threads t).held.count i : ℤ) = 0 := hall t (Finset.mem_univ t)
  exact List.count_eq_zero.mp (by exact_mod_cast ht)

variable [DecidableEq τ]

theorem references_put [Fintype τ] (s : Service τ L n) (t : τ) (th : Thread n) (i : Fin n) :
    (s.put t th).references i =
      s.references i - (s.threads t).held.count i + th.held.count i := by
  have hrest : ∑ u ∈ Finset.univ.erase t, (((s.put t th).threads u).held.count i : ℤ) =
      ∑ u ∈ Finset.univ.erase t, ((s.threads u).held.count i : ℤ) := by
    refine Finset.sum_congr rfl fun u hu ↦ ?_
    rw [put_of_ne _ _ (Finset.ne_of_mem_erase hu)]
  rw [references, references, ← Finset.add_sum_erase _ _ (Finset.mem_univ t), hrest, put_self,
    ← Finset.add_sum_erase _ (fun u ↦ ((s.threads u).held.count i : ℤ)) (Finset.mem_univ t)]
  omega

theorem Counted.put [Fintype τ] {s : Service τ L n} (h : Counted s) {t : τ} {tok : L.State}
    {c : FlatLruCache τ n} {g : Gdal} {wr : Option τ} {pc : Pc n} {held : List (Fin n)}
    (huses : ∀ i, (c.values i).useCount =
      (s.cache.values i).useCount - (s.threads t).held.count i + held.count i)
    (hkeys : ∀ u ≠ t, ∀ i ∈ (s.threads u).held,
      (c.values i).uriOptions = (s.cache.values i).uriOptions)
    (hheld : held = pc.refs)
    (hkey : ∀ p, pc.pair = some p → ∀ i ∈ held, (c.values i).uriOptions = p) :
    Counted ((⟨tok, c, g, wr, s.threads, s.aborted⟩ : Service τ L n).put t ⟨pc, held⟩) := by
  refine ⟨fun i ↦ ?_, ?_, h.running⟩
  · rw [references_put]
    have hrefs := (huses i).trans (by rw [h.uses i])
    exact hrefs
  · have hself : Consistent c ⟨pc, held⟩ := ⟨hheld, hkey⟩
    exact forall_put (P := fun _ th ↦ Consistent c th) hself fun u hu ↦
      (h.consistent u).same (hkeys u hu)

theorem Counted.keep [Fintype τ] {s : Service τ L n} (h : Counted s) {t : τ} {tok : L.State}
    {c : FlatLruCache τ n} {g : Gdal} {wr : Option τ} {pc : Pc n}
    (huses : ∀ i, (c.values i).useCount = (s.cache.values i).useCount)
    (hkeys : ∀ i, (c.values i).uriOptions = (s.cache.values i).uriOptions)
    (hpc : Consistent s.cache { s.threads t with pc := pc }) :
    Counted ((⟨tok, c, g, wr, s.threads, s.aborted⟩ : Service τ L n).move t pc) := by
  refine h.put (fun i ↦ ?_) (fun u _ i _ ↦ hkeys i) hpc.held fun p hp i hi ↦ ?_
  · rw [huses i]
    dsimp only
    omega
  · exact (hkeys i).trans (hpc.key p hp i hi)

theorem Counted.work [Fintype τ] {s : Service τ L n} (h : Counted s) {t : τ} {f : Frame}
    {i : Fin n} {rest : List (Fin n)} {p : Task (ℤ × Option ℤ)}
    (hpc : (s.threads t).pc = .running f i rest (.ready p)) : Counted (s.work t f i rest p) := by
  have hlocal {pc : Pc n} (hrefs : pc.refs = i :: rest) (hpair : pc.pair = some f.pair) :
      Consistent s.cache { s.threads t with pc := pc } :=
    (h.consistent t).sameRefs (by rw [hpc, hrefs]; rfl) (by rw [hpc, hpair]; rfl)
  have hslot {ld : LockedDataset τ} {pc : Pc n}
      (huse : ld.useCount = (s.cache.values i).useCount)
      (hkey : ld.uriOptions = (s.cache.values i).uriOptions) (hrefs : pc.refs = i :: rest)
      (hpair : pc.pair = some f.pair) : Counted ((s.setSlot i ld).move t pc) :=
    h.keep (setValue_field LockedDataset.useCount s.cache huse)
      (setValue_field LockedDataset.uriOptions s.cache hkey) (hlocal hrefs hpair)
  cases p with
  | ret r => exact h.keep (fun _ ↦ rfl) (fun _ ↦ rfl) (hlocal rfl rfl)
  | tryLock k =>
    rw [Service.work]
    split
    · exact hslot rfl rfl rfl rfl
    · exact h.keep (fun _ ↦ rfl) (fun _ ↦ rfl) (hlocal rfl rfl)
  | unlock k =>
    refine hslot ?_ ?_ rfl rfl
    all_goals
      unfold LockedDataset.unlock
      split <;> rfl
  | call c k => exact h.keep (fun _ ↦ rfl) (fun _ ↦ rfl) (hlocal rfl rfl)

theorem Counted.find [Fintype τ] {h : StringHash} {s : Service τ L n} (hs : Counted s) {t : τ}
    {f : Frame} (hpc : (s.threads t).pc = .round f) :
    Counted ({ s with cache := (s.cache.find (hashUriOptions h f.pair) f.pair).2 }.put t
      ⟨.scanned f (s.cache.find (hashUriOptions h f.pair) f.pair).1,
        (s.cache.find (hashUriOptions h f.pair) f.pair).1⟩) := by
  have hfold : (s.cache.find (hashUriOptions h f.pair) f.pair).2 =
      (s.cache.find (hashUriOptions h f.pair) f.pair).1.foldl touch s.cache := by rw [find_eq]
  have hnone : (s.threads t).held = [] := by rw [(hs.consistent t).held, hpc]; rfl
  obtain ⟨hrefs, hpair, -, -⟩ :=
    Pc.scanned_spec f (s.cache.find (hashUriOptions h f.pair) f.pair).1
  refine hs.put (fun i ↦ ?_) (fun u _ i _ ↦ ?_) hrefs.symm fun p hp i hi ↦ ?_
  · rw [hnone, List.count_nil, hfold, foldl_touch_useCount]
    omega
  · rw [hfold]
    exact foldl_touch_field LockedDataset.uriOptions (fun _ ↦ rfl) ..
  · have hp' : f.pair = p := by
      rcases hpair with hnil | hpair
      · rw [hnil] at hi
        exact absurd hi List.not_mem_nil
      · exact Option.some.inj (hpair.symm.trans hp)
    rw [hfold, foldl_touch_field LockedDataset.uriOptions fun _ ↦ rfl, ← hp']
    exact (mem_find.mp hi).2

theorem Counted.insert [Fintype τ] {h : StringHash} {s : Service τ L n} (hs : Counted s) {t : τ}
    {o : Opener} {f : Frame} {found : List (Fin n)} {left : ℕ} {r : Got τ n}
    (hpc : (s.threads t).pc = .inserting f found (left + 1))
    (hr : insertOne t (hashUriOptions h f.pair) f.pair o ⟨found, s.cache, s.gdal⟩ = some r) :
    Counted ({ s with cache := r.cache, gdal := r.gdal }.put t
      ⟨.inserting f r.list left, r.list⟩) := by
  have hheld : (s.threads t).held = found := by rw [(hs.consistent t).held, hpc]; rfl
  have hkeys : ∀ i ∈ found, (s.cache.values i).uriOptions = f.pair := by
    intro i hi
    exact (hs.consistent t).key f.pair (by rw [hpc]; rfl) i (hheld ▸ hi)
  rcases insertOne_some hr with ⟨-, rfl⟩ | ⟨b, hb, ⟨-, rfl⟩ | ⟨-, rfl⟩⟩
  · refine hs.put (fun i ↦ ?_) (fun u _ i _ ↦ rfl) rfl fun p hp i hi ↦ ?_
    · rw [hheld]
      dsimp only
      omega
    · exact (hkeys i hi).trans (Option.some.inj hp)
  · have huse := setValue_field LockedDataset.useCount s.cache (lock_useCount t (s.cache.values b))
    have hkey := setValue_field LockedDataset.uriOptions s.cache
      (lock_uriOptions t (s.cache.values b))
    refine hs.put (fun i ↦ ?_) (fun u _ i _ ↦ hkey i) rfl fun p hp i hi ↦ ?_
    · rw [hheld, huse i]
      dsimp only
      omega
    · exact (hkey i).trans ((hkeys i hi).trans (Option.some.inj hp))
  · have hfree : ∀ u, b ∉ (s.threads u).held := fun u ↦ hs.not_held hb.useCount u
    have hother {i : Fin n} (hi : i ≠ b) :
        (s.cache.filled b (hashUriOptions h f.pair) f.pair s.gdal.issued).values i =
          s.cache.values i := filled_values_of_ne _ _ _ _ hi
    refine hs.put (fun i ↦ ?_) (fun u _ i hi ↦ ?_) rfl fun p hp i hi ↦ ?_
    · rw [hheld, List.count_append]
      by_cases hi : i = b
      · subst hi
        have huse : (s.cache.values i).useCount = 0 := hb.useCount
        have hcount : found.count i = 0 := List.count_eq_zero.mpr (hheld ▸ hfree t)
        rw [filled_values_self, huse, hcount, List.count_singleton_self]
        rfl
      · rw [hother hi, List.count_singleton, beq_eq_false_iff_ne.mpr (Ne.symm hi)]
        simp
    · rw [hother fun hx ↦ hfree u (hx ▸ hi)]
    · rcases List.mem_append.mp hi with hi | hi
      · rw [hother fun hx ↦ hfree t (hheld ▸ hx ▸ hi)]
        exact (hkeys i hi).trans (Option.some.inj hp)
      · obtain rfl := List.mem_singleton.mp hi
        rw [filled_values_self]
        exact Option.some.inj hp

theorem Counted.dec [Fintype τ] {s : Service τ L n} (h : Counted s) {t : τ} {f : Frame}
    {i : Fin n} {rest : List (Fin n)} {l : Option DatasetH}
    (hpc : (s.threads t).pc = .releasing f i rest l) :
    Counted ((s.setSlot i (s.cache.values i).dec).put t
      ⟨.trying f rest l, (s.threads t).held.erase i⟩) := by
  have hheld : (s.threads t).held = i :: rest := by rw [(h.consistent t).held, hpc]; rfl
  have herase : (i :: rest).erase i = rest := List.erase_cons_head ..
  rw [hheld, herase]
  have hkey := setValue_field LockedDataset.uriOptions s.cache
    (show (s.cache.values i).dec.uriOptions = _ from rfl)
  refine h.put (fun j ↦ ?_) (fun u _ j _ ↦ hkey j) rfl fun p hp j hj ↦ ?_
  · rw [hheld, List.count_cons]
    by_cases hj : j = i
    · subst hj
      rw [setValue_self, LockedDataset.dec, beq_self_eq_true]
      simp
      omega
    · rw [setValue_of_ne _ _ hj, beq_eq_false_iff_ne.mpr (Ne.symm hj)]
      simp
  · have hmem : j ∈ (s.threads t).held := hheld ▸ List.mem_cons_of_mem i hj
    exact (hkey j).trans ((h.consistent t).key p (by rw [hpc]; exact hp) j hmem)

theorem Counted.effect [Fintype τ] {h : StringHash} {s s' : Service τ L n} {e : ServiceEvent τ}
    (hs : Counted s) (he : Effect h s e s') : Counted s' := by
  cases he with
  | tokens e tok => exact ⟨hs.uses, hs.consistent, hs.running⟩
  | quiet e t tok wr pc hq =>
    exact hs.keep (fun _ ↦ rfl) (fun _ ↦ rfl) ((hs.consistent t).quiet hq)
  | find e t f hpc => exact hs.find hpc
  | insert t o f found left r hpc hr => exact hs.insert hpc hr
  | begin e t f i rest l hpc =>
    have hlocal : Consistent s.cache { s.threads t with
        pc := .running f i rest (.ready f.call.op.task) } :=
      (hs.consistent t).sameRefs (by rw [hpc]; rfl) (by rw [hpc]; rfl)
    exact hs.keep (fun _ ↦ rfl) (fun _ ↦ rfl) hlocal
  | work e t f i rest p hpc => exact hs.work hpc
  | answer e t f i rest c k r hpc =>
    have hlocal : Consistent s.cache { s.threads t with pc := .running f i rest (.ready (k r)) } :=
      (hs.consistent t).sameRefs (by rw [hpc]; rfl) (by rw [hpc]; rfl)
    exact hs.keep (fun _ ↦ rfl) (fun _ ↦ rfl) hlocal
  | dec e t f i rest l hpc => exact hs.dec hpc

theorem sameDataset_unlock (c : FlatLruCache τ n) (t : τ) (i j : Fin n) :
    SameDataset c (c.setValue i ((c.values i).unlock t)) j := by
  apply sameDataset_setValue c i ((c.values i).unlock t)
  all_goals
    unfold LockedDataset.unlock
    split <;> rfl

theorem sameDataset_work (s : Service τ L n) (t : τ) (f : Frame) (i : Fin n)
    (rest : List (Fin n)) (p : Task (ℤ × Option ℤ)) (j : Fin n) :
    SameDataset s.cache (s.work t f i rest p).cache j := by
  cases p with
  | ret r => exact ⟨rfl, rfl, rfl, rfl⟩
  | tryLock k =>
    rw [Service.work]
    split
    · have hlock : SameDataset s.cache (s.cache.setValue i ((s.cache.values i).lock t)) j :=
        sameDataset_setValue s.cache i ((s.cache.values i).lock t) rfl rfl rfl j
      exact hlock
    · exact ⟨rfl, rfl, rfl, rfl⟩
  | unlock k => exact sameDataset_unlock s.cache t i j
  | call c k => exact ⟨rfl, rfl, rfl, rfl⟩

/-- Whatever a step does, it leaves the datasets alone that some call holds. -/
theorem Counted.sameDataset [Fintype τ] {h : StringHash} {s s' : Service τ L n}
    {e : ServiceEvent τ} (hs : Counted s) (he : Effect h s e s') {t : τ} {i : Fin n}
    (hi : i ∈ (s.threads t).held) : SameDataset s.cache s'.cache i := by
  cases he with
  | tokens | quiet | begin | answer => exact ⟨rfl, rfl, rfl, rfl⟩
  | find e u f hpc => exact sameDataset_find ..
  | insert u o f found left r hpc hr =>
    rcases insertOne_some hr with ⟨-, rfl⟩ | ⟨b, hb, ⟨-, rfl⟩ | ⟨-, rfl⟩⟩
    · exact ⟨rfl, rfl, rfl, rfl⟩
    · have hlock : SameDataset s.cache (s.cache.setValue b ((s.cache.values b).lock u)) i :=
        sameDataset_setValue s.cache b ((s.cache.values b).lock u) rfl rfl rfl i
      exact hlock
    · have hne : i ≠ b := fun hx ↦ hs.not_held hb.useCount t (hx ▸ hi)
      exact sameDataset_filled s.cache (hashUriOptions h f.pair) f.pair s.gdal.issued hne
  | work e u f j rest p hpc => exact sameDataset_work ..
  | dec e u f j rest l hpc =>
    have hdec : SameDataset s.cache (s.cache.setValue j (s.cache.values j).dec) i :=
      sameDataset_setValue s.cache j (s.cache.values j).dec rfl rfl rfl i
    exact hdec

theorem Effect.balanced {h : StringHash} {s s' : Service τ L n} {e : ServiceEvent τ}
    (he : Effect h s e s') (hb : Balanced s.cache s.gdal) : Balanced s'.cache s'.gdal := by
  have hsame {c' : FlatLruCache τ n} (hc : ∀ j, SameDataset s.cache c' j) :
      Balanced c' s.gdal := hb.same (fun j ↦ (hc j).source) fun j ↦ (hc j).warped
  cases he with
  | tokens | quiet | begin | answer => exact hb
  | find e t f hpc => exact hsame fun j ↦ sameDataset_find ..
  | insert t o f found left r hpc hr =>
    exact (balanced_preserved h).insertOne (l := []) hb hr
  | work e t f i rest p hpc =>
    have hgdal : (s.work t f i rest p).gdal = s.gdal := by
      cases p with
      | tryLock k => rw [Service.work]; split <;> rfl
      | _ => rfl
    rw [hgdal]
    exact hsame fun j ↦ sameDataset_work ..
  | dec e t f i rest l hpc =>
    have hdec (j : Fin n) : SameDataset s.cache (s.cache.setValue i (s.cache.values i).dec) j :=
      sameDataset_setValue s.cache i (s.cache.values i).dec rfl rfl rfl j
    exact hsame hdec

theorem reachable_counted [Fintype τ] {h : StringHash} {size : ℕ} {s : Service τ L n}
    (hs : (machine h τ L size n).Reachable s) : Counted s := by
  refine Machine.Reachable.invariant ?_ (fun s e s' hc hstep ↦ hc.effect (step_effect hstep)) hs
  refine ⟨fun i ↦ ?_, fun t ↦ ⟨rfl, fun p hp ↦ ?_⟩, rfl⟩
  · exact (Finset.sum_eq_zero fun _ _ ↦ rfl).symm
  · cases hp

theorem reachable_handles {h : StringHash} {size : ℕ} {s : Service τ L n}
    (hs : (machine h τ L size n).Reachable s) : Balanced s.cache s.gdal :=
  Machine.Reachable.invariant (I := fun s : Service τ L n ↦ Balanced s.cache s.gdal)
    fresh_balanced (fun _ _ _ hb hstep ↦ (step_effect hstep).balanced hb) hs

/-- The use counts are the references of the running calls; what they refer to
stays open, unreplaced and for their pair, and no call that has ended has any. -/
theorem references_counted [Fintype τ] {h : StringHash} {size : ℕ} {s : Service τ L n}
    (hs : (machine h τ L size n).Reachable s) :
    (∀ i, (s.cache.values i).useCount = s.references i) ∧
    (∀ e s', s.step h e = some s' → ∀ t i, i ∈ (s.threads t).held →
      SameDataset s.cache s'.cache i) ∧
    (∀ t i, i ∈ (s.threads t).held → ∀ d ∈ (s.cache.values i).handles, d ∉ s.gdal.closed) ∧
    s.aborted = false ∧
    (∀ t f i rest w, (s.threads t).pc = .running f i rest w →
      i ∈ (s.threads t).held ∧ (s.cache.values i).uriOptions = f.pair) ∧
    ∀ t, (s.threads t).pc.settled = true → (s.threads t).held = [] := by
  have hc := reachable_counted hs
  have hb := reachable_handles hs
  refine ⟨hc.uses, fun e s' hstep t i hi ↦ hc.sameDataset (step_effect hstep) hi,
    fun t i _ d hd ↦ hb.open_of_held hd, hc.running, fun t f i rest w hpc ↦ ?_,
    fun t ht ↦ ?_⟩
  · have hi : i ∈ (s.threads t).held := by
      rw [(hc.consistent t).held, hpc]
      exact List.mem_cons_self
    exact ⟨hi, (hc.consistent t).key f.pair (by rw [hpc]; rfl) i hi⟩
  · rw [(hc.consistent t).held, Pc.refs_of_settled ht]

theorem references_counted_insert :
    ∃ s, (machine lengthHash Unit (.ofList Token UriOptions) 4 1).Reachable s ∧
      (s.threads ()).held = [0] ∧ (s.cache.values 0).useCount = s.references 0 := by
  have hs : (machine lengthHash Unit (.ofList Token UriOptions) 4 1).Reachable _ :=
    ⟨[.getToken ("a.tif", []) [], .call () ⟨33, .noop, 1, 1, 0⟩, .query () 0, .round () 0,
      .lockCache (), .insert () (answering true true)], rfl⟩
  exact ⟨_, hs, by decide, (references_counted hs).1 0⟩

end GdalWarp.Bindings.Service
