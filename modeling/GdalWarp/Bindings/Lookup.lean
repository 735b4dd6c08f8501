import GdalWarp.Foundation.Counting
import GdalWarp.Bindings.Eviction

namespace GdalWarp.Bindings

open Foundation FlatLruCache

variable {τ : Type} {n : ℕ}

def FlatLruCache.holding (c : FlatLruCache τ n) (key : UriOptions) (i : Fin n) : Bool :=
  (c.values i).valid && (c.values i).uriOptions == key

def Tagged (h : StringHash) (c : FlatLruCache τ n) : Prop :=
  ∀ i, (c.values i).valid = true → c.tags i = hashUriOptions h (c.values i).uriOptions

theorem Tagged.same {h : StringHash} {c c' : FlatLruCache τ n} (hc : Tagged h c)
    (hsame : ∀ i, SameDataset c c' i) : Tagged h c' := by
  intro i
  rw [(hsame i).tag, (hsame i).valid, (hsame i).key]
  exact hc i

theorem tagged_preserved (h : StringHash) :
    Session.Preserved (τ := τ) (n := n) h fun c _ _ ↦ Tagged h c where
  touch c _ _ i _ hc _ := hc.same (sameDataset_touch c i)
  locked _ c _ _ b _ _ hc _ _ := hc.same (sameDataset_setValue c b _ rfl rfl rfl)
  filled c g _ b key _ hc _ _ := by
    intro j
    by_cases hj : j = b
    · subst hj
      rw [filled_values_self]
      exact fun _ ↦ filled_tags_self ..
    · have hsame := sameDataset_filled c (hashUriOptions h key) key g.issued hj
      rw [hsame.tag, hsame.valid, hsame.key]
      exact hc j
  dec c _ _ b hc := hc.same (sameDataset_setValue c b _ rfl rfl rfl)

/-- A session with the key each handle was opened for. -/
structure Tracked (τ : Type) (n : ℕ) where
  session : Session τ n
  openedFor : DatasetH → UriOptions

namespace Tracked

def holds (s : Tracked τ n) (key : UriOptions) (i : Fin n) : Bool :=
  match (s.session.cache.values i).source, (s.session.cache.values i).warped with
  | some source, some warped => s.openedFor source == key && s.openedFor warped == key
  | _, _ => false

def Filed (openedFor : DatasetH → UriOptions) (c : FlatLruCache τ n) (g : Gdal) : Prop :=
  ∀ i, (c.values i).valid = true →
    ∀ d, (c.values i).source = some d ∨ (c.values i).warped = some d →
      d < g.issued ∧ openedFor d = (c.values i).uriOptions

theorem Filed.same {openedFor : DatasetH → UriOptions} {c c' : FlatLruCache τ n} {g g' : Gdal}
    (hf : Filed openedFor c g) (hsame : ∀ i, SameDataset c c' i) (hissued : g.issued ≤ g'.issued) :
    Filed openedFor c' g' := by
  intro i hvalid d hd
  rw [(hsame i).valid] at hvalid
  rw [(hsame i).source, (hsame i).warped] at hd
  obtain ⟨hlt, heq⟩ := hf i hvalid d hd
  exact ⟨lt_of_lt_of_le hlt hissued, heq.trans (hsame i).key.symm⟩

theorem Filed.filled {openedFor : DatasetH → UriOptions} {c : FlatLruCache τ n} {g g' : Gdal}
    {key : UriOptions} (hf : Filed openedFor c g) (b : Fin n) (tag : UInt64)
    (hkey : ∀ d, g.issued ≤ d → openedFor d = key) (hissued : g'.issued = g.issued + 2) :
    Filed openedFor (c.filled b tag key g.issued) g' := by
  intro i hvalid d hd
  rw [hissued]
  by_cases hi : i = b
  · subst hi
    rw [filled_values_self] at hd ⊢
    rcases hd with hd | hd
    · obtain rfl : g.issued = d := Option.some.inj hd
      exact ⟨Nat.lt_add_of_pos_right Nat.two_pos, hkey _ le_rfl⟩
    · obtain rfl : g.issued + 1 = d := Option.some.inj hd
      exact ⟨Nat.lt_succ_self _, hkey _ (Nat.le_succ _)⟩
  · rw [filled_values_of_ne _ _ _ _ hi] at hvalid hd ⊢
    obtain ⟨hlt, heq⟩ := hf i hvalid d hd
    exact ⟨lt_of_lt_of_le hlt (Nat.le_add_right _ 2), heq⟩

end Tracked

variable [DecidableEq τ]

theorem reachable_tagged {h : StringHash} {s : Session τ n}
    (hs : (Session.machine h τ n).Reachable s) : Tagged h s.cache := by
  refine (tagged_preserved h).reachable ?_ ?_ hs
  · intro i hvalid
    cases hvalid
  · intro t c c' g g' log _ hclear i hvalid
    have hinvalid := ((clear_blank hclear).2 i).2.2.1
    rw [hvalid] at hinvalid
    cases hinvalid

/-- The tag hides no slot that holds the key and lets no other one in. -/
theorem hit_eq_holding {h : StringHash} (hempty : h "" ≠ 0) {s : Session τ n}
    (hs : (Session.machine h τ n).Reachable s) (key : UriOptions) :
    s.cache.hit (hashUriOptions h key) key = s.cache.holding key := by
  funext i
  have hblank : hashUriOptions h ("", []) ≠ 0 := by simpa [hashUriOptions, hashOptions] using hempty
  rw [Bool.eq_iff_iff, hit, holding, Bool.and_eq_true, Bool.and_eq_true, beq_iff_eq, beq_iff_eq]
  rcases reachable_logged hempty hs i with ⟨-, hvalid⟩ | ⟨-, hinvalid, htag, hkey⟩
  · have hhash := reachable_tagged hs i hvalid
    constructor
    · exact fun hx ↦ ⟨hvalid, hx.2⟩
    · rintro ⟨-, rfl⟩
      exact ⟨hhash, rfl⟩
  · rw [htag, hkey]
    constructor
    · rintro ⟨hhash, rfl⟩
      exact absurd hhash.symm hblank
    · rintro ⟨hvalid, -⟩
      rw [hinvalid] at hvalid
      cases hvalid

namespace Tracked

def step (h : StringHash) (s : Tracked τ n) (op : CacheOp τ n) : Option (Tracked τ n) :=
  (s.session.step h op).map fun session ↦ ⟨session, match op with
    | .get _ key _ _ => fun d ↦ if d < s.session.gdal.issued then s.openedFor d else key
    | _ => s.openedFor⟩

def machine (h : StringHash) (τ : Type) [DecidableEq τ] (n : ℕ) :
    Machine (Tracked τ n) (CacheOp τ n) where
  init := ⟨(Session.machine h τ n).init, fun _ ↦ ("", [])⟩
  step := step h

theorem run_session {h : StringHash} {s s' : Tracked τ n} {ops : List (CacheOp τ n)}
    (hr : (machine h τ n).run s ops = some s') :
    (Session.machine h τ n).run s.session ops = some s'.session := by
  induction ops generalizing s with
  | nil =>
    cases hr
    rfl
  | cons op ops ih =>
    obtain ⟨u, hu, htail⟩ := Machine.run_cons.mp hr
    obtain ⟨session, hsession, rfl⟩ := Option.map_eq_some_iff.mp hu
    exact Machine.run_cons.mpr ⟨session, hsession, ih htail⟩

theorem session_reachable {h : StringHash} {s : Tracked τ n}
    (hs : (machine h τ n).Reachable s) : (Session.machine h τ n).Reachable s.session :=
  let ⟨ops, hr⟩ := hs
  ⟨ops, run_session hr⟩

theorem Filed.get {h : StringHash} {openedFor : DatasetH → UriOptions} {c : FlatLruCache τ n}
    {g : Gdal} {t : τ} {key : UriOptions} {o : ℕ → Opener} {copies : ℤ} {r : Got τ n}
    (hf : Filed openedFor c g) (hkey : ∀ d, g.issued ≤ d → openedFor d = key)
    (hr : c.get h t o g key copies = some r) : Filed openedFor r.cache r.gdal := by
  have hfound : Filed openedFor (c.find (hashUriOptions h key) key).2 g :=
    hf.same (sameDataset_find c _ key) le_rfl
  refine (insertLoop_invariant (I := fun r ↦ g.issued ≤ r.gdal.issued ∧
    Filed openedFor r.cache r.gdal) ?_ ⟨le_rfl, hfound⟩ hr).2
  intro j s s' hs hone
  obtain ⟨hle, hfiled⟩ := hs
  rcases insertOne_some hone with ⟨-, rfl⟩ | ⟨b, -, ⟨-, rfl⟩ | ⟨ho, rfl⟩⟩
  · exact ⟨hle, hfiled⟩
  · have hafter : s.gdal.issued ≤ (s.gdal.after key (LockedDataset.outcome (o j) key)).issued := by
      rw [Gdal.after]
      exact (Nat.le_add_right _ _).trans (Nat.le_add_right _ _)
    exact ⟨hle.trans hafter, hfiled.same (sameDataset_setValue s.cache b _ rfl rfl rfl) hafter⟩
  · have hissued : ((s.cache.values b).close (s.gdal.after key
        (LockedDataset.outcome (o j) key))).2.issued = s.gdal.issued + 2 := by
      rw [LockedDataset.close_issued, Gdal.after, ho, LockedDataset.outcome_warped ho]
      rfl
    have hgrow : s.gdal.issued ≤ ((s.cache.values b).close (s.gdal.after key
        (LockedDataset.outcome (o j) key))).2.issued := hissued ▸ Nat.le_add_right _ 2
    exact ⟨hle.trans hgrow, hfiled.filled b _ (fun d hd ↦ hkey d (hle.trans hd)) hissued⟩

theorem Filed.step {h : StringHash} {s s' : Tracked τ n} {op : CacheOp τ n}
    (hf : Filed s.openedFor s.session.cache s.session.gdal) (hs : s.step h op = some s') :
    Filed s'.openedFor s'.session.cache s'.session.gdal := by
  obtain ⟨session, hsession, rfl⟩ := Option.map_eq_some_iff.mp hs
  cases op with
  | get t key copies o =>
    obtain ⟨r, hr, rfl⟩ := Option.map_eq_some_iff.mp hsession
    refine Filed.get ?_ (fun d hd ↦ if_neg (not_lt_of_ge hd)) hr
    intro i hvalid d hd
    obtain ⟨hlt, heq⟩ := hf i hvalid d hd
    exact ⟨hlt, (if_pos hlt).trans heq⟩
  | dec i =>
    cases hsession
    exact hf.same (sameDataset_setValue s.session.cache i _ rfl rfl rfl) le_rfl
  | clear t =>
    obtain ⟨⟨c', g'⟩, hr, rfl⟩ := Option.map_eq_some_iff.mp hsession
    intro i hvalid
    have hinvalid := ((clear_blank hr).2 i).2.2.1
    rw [hvalid] at hinvalid
    cases hinvalid

theorem reachable_filed {h : StringHash} {s : Tracked τ n} (hs : (machine h τ n).Reachable s) :
    Filed s.openedFor s.session.cache s.session.gdal := by
  refine Machine.Reachable.invariant
    (I := fun s ↦ Filed s.openedFor s.session.cache s.session.gdal) ?_
    (fun _ _ _ hf hstep ↦ hf.step hstep) hs
  intro i hvalid
  cases hvalid

theorem holding_eq_holds {h : StringHash} {s : Tracked τ n} (hs : (machine h τ n).Reachable s)
    (key : UriOptions) : s.session.cache.holding key = s.holds key := by
  funext i
  have hfiled := reachable_filed hs i
  unfold holds FlatLruCache.holding
  split
  case h_1 source warped hsource hwarped =>
    have hvalid : (s.session.cache.values i).valid = true := by
      rw [LockedDataset.valid, hsource, hwarped]
      rfl
    rw [hvalid, (hfiled hvalid source (Or.inl hsource)).2, (hfiled hvalid warped (Or.inr hwarped)).2,
      Bool.true_and, Bool.and_self]
  case h_2 hnone =>
    have hinvalid : (s.session.cache.values i).valid = false := by
      rw [LockedDataset.valid]
      cases hsource : (s.session.cache.values i).source with
      | none => rfl
      | some source =>
        cases hwarped : (s.session.cache.values i).warped with
        | none => rfl
        | some warped => exact absurd hwarped (hnone source warped hsource)
    rw [hinvalid, Bool.false_and]

/-- The lookups agree with each other and with what the slots hold. -/
theorem lookups_agree {h : StringHash} (hempty : h "" ≠ 0) {s : Tracked τ n}
    (hs : (machine h τ n).Reachable s) (key : UriOptions) :
    (s.session.cache.contains h key = true ↔ ∃ i, s.holds key i = true) ∧
    (0 < s.session.cache.count h key ↔ ∃ i, s.holds key i = true) ∧
    s.session.cache.count h key = (Finset.univ.filter fun i ↦ s.holds key i = true).card ∧
    ∀ t o, ∃ r, s.session.cache.get h t o s.session.gdal key 0 = some r ∧
      (r.list ≠ [] ↔ ∃ i, s.holds key i = true) := by
  have hhit : s.session.cache.hit (hashUriOptions h key) key = s.holds key :=
    (hit_eq_holding hempty (session_reachable hs) key).trans (holding_eq_holds hs key)
  refine ⟨?_, ?_, ?_, fun t o ↦ ?_⟩
  · rw [contains, hhit, List.any_eq_true]
    simp
  · rw [count, hhit, List.countP_pos_iff]
    simp
  · rw [count, hhit, countP_finRange]
  · rw [get_zero]
    refine ⟨_, rfl, ?_⟩
    rw [find_eq, hhit, Ne, List.filter_eq_nil_iff]
    simp

theorem lookups_agree_colliding_keys : ∃ s : Tracked Unit 2,
    (machine terminatedHash Unit 2).Reachable s ∧
    hashUriOptions terminatedHash ("a.tif", []) = hashUriOptions terminatedHash ("b.tif", []) ∧
    (s.session.cache.contains terminatedHash ("a.tif", []) = true ↔
      ∃ i, s.holds ("a.tif", []) i = true) ∧
    (s.session.cache.contains terminatedHash ("b.tif", []) = true ↔
      ∃ i, s.holds ("b.tif", []) i = true) ∧
    s.holds ("a.tif", []) 0 = true ∧ ¬ ∃ i, s.holds ("b.tif", []) i = true := by
  have hs : (machine terminatedHash Unit 2).Reachable _ :=
    ⟨[.get () ("a.tif", []) 1 fun _ ↦ answering true true, .dec 0], rfl⟩
  exact ⟨_, hs, by decide, (lookups_agree (by decide) hs ("a.tif", [])).1,
    (lookups_agree (by decide) hs ("b.tif", [])).1, by decide, by decide⟩

end Tracked

end GdalWarp.Bindings
