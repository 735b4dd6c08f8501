import GdalWarp.Foundation.Machine
import GdalWarp.Bindings.Lifetimes
import GdalWarp.Bindings.TokenSurvival

namespace GdalWarp.Bindings

open Foundation FlatLruCache

/-- The tokens that `get_token` has answered since the last `init`, each with its pair. -/
abbrev Ledger := List (Token × UriOptions)

def Pc.frame {n : ℕ} : Pc n → Option Frame
  | .round f | .missing f _ _ | .inserting f _ _ | .trying f _ _ | .running f _ _ _
  | .releasing f _ _ _ => some f
  | _ => none

theorem Pc.pair_of_frame {n : ℕ} {pc : Pc n} {f : Frame} (h : pc.frame = some f) :
    pc.pair = some f.pair := by
  cases pc <;> cases h <;> rfl

namespace Ledger

variable {τ : Type} {L : LruCache} {n : ℕ}

def note (r : Ledger) (s : Service τ L n) : ServiceEvent τ → Ledger
  | .getToken pair draws =>
    match getToken L s.tokens pair draws with
    | some (token, _) => (token, pair) :: r
    | none => r
  | _ => r

def observe (r : Ledger) (s : Except Stop (Process τ L)) (e : ProcessEvent τ)
    (_ : Except Stop (Process τ L)) : Ledger :=
  match s, e with
  | _, .init _ _ => []
  | .ok p, .service e _ =>
    match p.library with
    | .on _ s => r.note s e
    | .off _ => r
  | _, _ => r

end Ledger

namespace Gdal

/-- GDAL returned each handle once. -/
def Numbered (g : Gdal) : Prop := g.origins.map Prod.fst = (List.range g.issued).reverse

theorem Numbered.nodup {g : Gdal} (h : g.Numbered) : (g.origins.map Prod.fst).Nodup := by
  rw [h, List.nodup_reverse]
  exact List.nodup_range

theorem Numbered.after {g : Gdal} (h : g.Numbered) (key : UriOptions) {oc : OpenOutcome}
    (hsource : oc.warped = true → oc.source = true) : (g.after key oc).Numbered := by
  have hnumbers := h
  unfold Numbered at hnumbers ⊢
  cases hsrc : oc.source with
  | false =>
    have hwarp : oc.warped = false := by
      rw [← Bool.not_eq_true]
      exact fun hx ↦ absurd (hsource hx) (hsrc ▸ Bool.false_ne_true)
    simpa [Gdal.after, hsrc, hwarp] using hnumbers
  | true =>
    cases hwarp : oc.warped <;> simp [Gdal.after, hsrc, hwarp, hnumbers, List.range_succ]

theorem Numbered.close {g : Gdal} (h : g.Numbered) {τ : Type} (ld : LockedDataset τ) :
    (ld.close g).2.Numbered := by
  rw [Numbered, LockedDataset.close_origins, LockedDataset.close_issued]
  exact h

end Gdal

/-- The handles of the dataset come from the uri and options: the source from `GDALOpen` of
the uri, the warped one from `GDALWarp` of that source with the options. -/
structure LockedDataset.OpenedFrom {τ : Type} (ld : LockedDataset τ) (pair : UriOptions)
    (origins : List (DatasetH × Origin)) : Prop where
  source : ∀ d, ld.source = some d → (d, .opened pair.1) ∈ origins
  warped : ∀ d, ld.warped = some d →
    ∃ src, ld.source = some src ∧ (d, .warped src (optionsArray pair.2)) ∈ origins

namespace FlatLruCache

variable {τ : Type} {n : ℕ}

/-- Every dataset comes from its own key, and only a slot that was never filled has none. -/
structure Sourced (c : FlatLruCache τ n) (origins : List (DatasetH × Origin)) : Prop where
  handles : ∀ i, (c.values i).OpenedFrom (c.values i).uriOptions origins
  filled : ∀ i, (c.values i).valid = true ∨ (c.values i).uriOptions = ("", [])

variable {c c' : FlatLruCache τ n} {origins : List (DatasetH × Origin)}

theorem Sourced.same (h : c.Sourced origins) (hsame : ∀ i, SameDataset c c' i) :
    c'.Sourced origins := by
  refine ⟨fun i ↦ ?_, fun i ↦ ?_⟩
  · obtain ⟨hsource, hwarped⟩ := h.handles i
    refine ⟨fun d hd ↦ ?_, fun d hd ↦ ?_⟩
    · rw [(hsame i).key]
      exact hsource d ((hsame i).source ▸ hd)
    · rw [(hsame i).key, (hsame i).source]
      exact hwarped d ((hsame i).warped ▸ hd)
  · rw [(hsame i).valid, (hsame i).key]
    exact h.filled i

theorem Sourced.mono {origins' : List (DatasetH × Origin)} (h : c.Sourced origins)
    (hsub : origins ⊆ origins') : c.Sourced origins' := by
  refine ⟨fun i ↦ ⟨fun d hd ↦ hsub ((h.handles i).source d hd), fun d hd ↦ ?_⟩, h.filled⟩
  obtain ⟨src, hsrc, horigin⟩ := (h.handles i).warped d hd
  exact ⟨src, hsrc, hsub horigin⟩

theorem Sourced.fill (h : c.Sourced origins) (b : Fin n) (tag : UInt64) (key : UriOptions)
    (d : DatasetH) : (c.filled b tag key d).Sourced
      ([(d + 1, .warped d (LockedDataset.optionsArray key.2)), (d, .opened key.1)] ++ origins) := by
  have hold := h.mono (List.subset_append_right
    [(d + 1, .warped d (LockedDataset.optionsArray key.2)), (d, .opened key.1)] origins)
  refine ⟨fun i ↦ ?_, fun i ↦ ?_⟩
  · by_cases hi : i = b
    · subst hi
      rw [filled_values_self]
      refine ⟨fun d' hd' ↦ ?_, fun d' hd' ↦ ⟨d, rfl, ?_⟩⟩
      · obtain rfl := Option.some.inj hd'
        exact List.mem_cons_of_mem _ List.mem_cons_self
      · obtain rfl := Option.some.inj hd'
        exact List.mem_cons_self
    · rw [filled_values_of_ne _ _ _ _ hi]
      exact hold.handles i
  · by_cases hi : i = b
    · subst hi
      rw [filled_values_self]
      exact Or.inl rfl
    · rw [filled_values_of_ne _ _ _ _ hi]
      exact h.filled i

end FlatLruCache

namespace Service

variable {τ : Type} {L : LruCache} {n : ℕ}

def Claims (issued : List (Token × UriOptions)) (pc : Pc n) : Prop :=
  ∀ f, pc.frame = some f → (f.call.token, f.pair) ∈ issued

structure Registered (s : Service τ L n) (issued : List (Token × UriOptions)) : Prop where
  tokens : L.entries s.tokens ⊆ issued
  threads : ∀ t, Claims issued (s.threads t).pc

theorem claims_none {issued : List (Token × UriOptions)} {pc : Pc n} (h : pc.frame = none) :
    Claims issued pc := by
  intro f hf
  rw [h] at hf
  cases hf

theorem claims_some {issued : List (Token × UriOptions)} {pc : Pc n} {f : Frame}
    (h : pc.frame = some f) (hf : (f.call.token, f.pair) ∈ issued) : Claims issued pc := by
  intro f' hf'
  obtain rfl := Option.some.inj (h.symm.trans hf')
  exact hf

theorem claims_loopHead {issued : List (Token × UriOptions)} {f : Frame}
    (hf : (f.call.token, f.pair) ∈ issued) (l : Option DatasetH) :
    Claims issued (.loopHead f l : Pc n) := by
  unfold Pc.loopHead
  split
  · exact claims_some rfl hf
  · exact claims_none rfl

theorem claims_got {issued : List (Token × UriOptions)} {f : Frame}
    (hf : (f.call.token, f.pair) ∈ issued) (found : List (Fin n)) :
    Claims issued (.got f found) := by
  unfold Pc.got
  split
  · exact claims_none rfl
  · exact claims_some rfl hf

theorem claims_scanned {issued : List (Token × UriOptions)} {f : Frame}
    (hf : (f.call.token, f.pair) ∈ issued) (found : List (Fin n)) :
    Claims issued (.scanned f found) := by
  unfold Pc.scanned
  split
  · exact claims_got hf found
  · exact claims_some rfl hf

variable [DecidableEq τ]

theorem Registered.put {s : Service τ L n} {issued issued' : List (Token × UriOptions)}
    (h : s.Registered issued) (hsub : issued ⊆ issued') {t : τ} {tok : L.State}
    {c : FlatLruCache τ n} {g : Gdal} {wr : Option τ} {th : Thread n}
    (htok : L.entries tok ⊆ issued') (hth : Claims issued' th.pc) :
    ((⟨tok, c, g, wr, s.threads, s.aborted⟩ : Service τ L n).put t th).Registered issued' :=
  ⟨htok, forall_put (P := fun _ th ↦ Claims issued' th.pc) hth
    fun u _ f hf ↦ hsub (h.threads u f hf)⟩

theorem entries_queryToken (c : L.State) (token : Token) :
    L.entries (queryToken L c token).2 ⊆ L.entries c := by
  rcases TokenHistory.queryToken_cases c token with ⟨-, hsame⟩ | ⟨pair, -, hlookup, hentries⟩
  · rw [hsame]
    exact List.Subset.refl _
  · rw [hentries]
    exact List.cons_subset.mpr ⟨L.mem_of_lookup hlookup, List.filter_subset_self _⟩

theorem mem_entries_of_queryToken {c : L.State} {token : Token} {pair : UriOptions}
    (h : (queryToken L c token).1 = some pair) : (token, pair) ∈ L.entries c := by
  rcases TokenHistory.queryToken_cases c token with ⟨hnone, -⟩ | ⟨pair', hsome, hlookup, -⟩
  · rw [hnone] at h
    cases h
  · obtain rfl := Option.some.inj (hsome.symm.trans h)
    exact L.mem_of_lookup hlookup

theorem Registered.work {s : Service τ L n} {issued : List (Token × UriOptions)}
    (h : s.Registered issued) {t : τ} {f : Frame} {i : Fin n} {rest : List (Fin n)}
    {p : Task (ℤ × Option ℤ)} (hpc : (s.threads t).pc = .running f i rest (.ready p)) :
    (s.work t f i rest p).Registered issued := by
  have hf : (f.call.token, f.pair) ∈ issued := h.threads t f (by rw [hpc]; rfl)
  have hsub := List.Subset.refl issued
  cases p with
  | tryLock k =>
    by_cases hfree : (s.cache.values i).datasetLock = none
    · rw [Service.work, if_pos hfree]
      exact h.put hsub h.tokens (claims_some rfl hf)
    · rw [Service.work, if_neg hfree]
      exact h.put hsub h.tokens (claims_some rfl hf)
  | ret a | unlock k | call c k => exact h.put hsub h.tokens (claims_some rfl hf)

theorem Registered.step {h : StringHash} {s s' : Service τ L n} {e : ServiceEvent τ}
    {r : Ledger} (hs : s.Registered r) (hstep : s.step h e = some s') :
    s'.Registered (r.note s e) := by
  have hsub := List.Subset.refl r
  have hkeep {t : τ} {f : Frame} (hf : (s.threads t).pc.frame = some f) :
      (f.call.token, f.pair) ∈ r := hs.threads t f hf
  cases step_moves hstep with
  | getToken pair draws a ha =>
    obtain ⟨token, tokens⟩ := a
    obtain ⟨hfree, -, hc, -⟩ := getToken_some ha
    have hentries := L.entries_insert s.tokens token pair hfree
    rw [Ledger.note, ha]
    refine ⟨fun x hx ↦ ?_, fun t f hf ↦ List.mem_cons_of_mem _ (hs.threads t f hf)⟩
    dsimp only at hx
    rw [hc, hentries] at hx
    rcases List.mem_cons.mp (List.mem_of_mem_take hx) with rfl | hx
    · exact List.mem_cons_self
    · exact List.mem_cons_of_mem _ (hs.tokens hx)
  | query t now c pair hpc hpair =>
    exact hs.put hsub (List.Subset.trans (entries_queryToken ..) hs.tokens)
      (claims_loopHead (hs.tokens (mem_entries_of_queryToken hpair)) none)
  | unknown t now c hpc =>
    exact hs.put hsub (List.Subset.trans (entries_queryToken ..) hs.tokens) (claims_none rfl)
  | call t | timeOut t | finish t => exact hs.put hsub hs.tokens (claims_none rfl)
  | scan t now f hpc =>
    exact hs.put hsub hs.tokens (claims_scanned (hkeep (by rw [hpc]; rfl)) _)
  | giveUp t f found k hpc | unlockCache t f found hpc =>
    exact hs.put hsub hs.tokens (claims_got (hkeep (by rw [hpc]; rfl)) found)
  | lockCache t f found request hpc | insert t o f found left g hpc =>
    exact hs.put hsub hs.tokens (claims_some rfl (hkeep (by rw [hpc]; rfl)))
  | attempt t f i rest l hpc | skip t f i rest l hpc | dec t f i rest l hpc =>
    exact hs.put hsub hs.tokens (claims_some rfl (hkeep (by rw [hpc]; rfl)))
  | advance t f i rest p hpc => exact hs.work hpc
  | answer t reply f i rest c k hpc =>
    exact hs.put hsub hs.tokens (claims_some rfl (hkeep (by rw [hpc]; rfl)))
  | next t f l hpc =>
    refine hs.put hsub hs.tokens (claims_loopHead ?_ l)
    exact hkeep (f := f) (by rw [hpc]; rfl)

theorem sourced_step {h : StringHash} {s s' : Service τ L n} {e : ServiceEvent τ}
    (hs : s.cache.Sourced s.gdal.origins ∧ s.gdal.Numbered) (hstep : s.step h e = some s') :
    s'.cache.Sourced s'.gdal.origins ∧ s'.gdal.Numbered := by
  obtain ⟨hsourced, hnumbered⟩ := hs
  cases step_effect hstep with
  | tokens | quiet | begin | answer => exact ⟨hsourced, hnumbered⟩
  | find e t f hpc => exact ⟨hsourced.same fun j ↦ sameDataset_find .., hnumbered⟩
  | insert t o f found left g hpc hg =>
    have hafter : (s.gdal.after f.pair (LockedDataset.outcome o f.pair)).Numbered :=
      hnumbered.after f.pair LockedDataset.outcome_warped
    rcases insertOne_some hg with ⟨-, rfl⟩ | ⟨b, hb, ⟨ho, rfl⟩ | ⟨ho, rfl⟩⟩
    · exact ⟨hsourced, hnumbered⟩
    · refine ⟨Sourced.mono (hsourced.same fun j ↦ ?_) (List.subset_append_right ..), hafter⟩
      exact sameDataset_setValue s.cache b ((s.cache.values b).lock t) rfl rfl rfl j
    · refine ⟨?_, hafter.close (s.cache.values b)⟩
      have hfill := hsourced.fill b (hashUriOptions h f.pair) f.pair s.gdal.issued
      show (s.cache.filled b (hashUriOptions h f.pair) f.pair s.gdal.issued).Sourced
        ((s.cache.values b).close (s.gdal.after f.pair (LockedDataset.outcome o f.pair))).2.origins
      rw [LockedDataset.close_origins, Gdal.after, ho, LockedDataset.outcome_warped ho]
      exact hfill
  | work e t f i rest p hpc =>
    rw [work_gdal]
    exact ⟨hsourced.same fun j ↦ sameDataset_work .., hnumbered⟩
  | dec e t f i rest l hpc =>
    refine ⟨hsourced.same fun j ↦ ?_, hnumbered⟩
    exact sameDataset_setValue s.cache i (s.cache.values i).dec rfl rfl rfl j

end Service

namespace Library

variable {τ : Type} [Fintype τ] {L : LruCache}

def Traced (r : Ledger) : Library τ L → Prop
  | .off g => g.Numbered
  | .on _ s =>
    s.Counted ∧ s.Registered r ∧ s.cache.Sourced s.gdal.origins ∧ s.gdal.Numbered

theorem Traced.destroyed {r : Ledger} {lib : Library τ L} (h : lib.Traced r) :
    lib.destroyed.Numbered := by
  cases lib with
  | off g => exact h
  | on n s => exact List.foldlRecOn _ _ h.2.2.2 fun _ hg i _ ↦ hg.close (s.cache.values i)

theorem begun_traced (m : ℕ) {g : Gdal} (hg : g.Numbered) :
    (.on m (.begun m g) : Library τ L).Traced [] := by
  refine ⟨⟨fun i ↦ ?_, fun t ↦ ⟨rfl, fun p hp ↦ ?_⟩, rfl⟩, ⟨?_, ?_⟩, ⟨fun i ↦ ⟨?_, ?_⟩, ?_⟩, hg⟩
  · exact (Finset.sum_eq_zero fun _ _ ↦ rfl).symm
  · cases hp
  · rw [Service.begun, tokenInit, L.entries_make]
    exact List.Subset.refl []
  · exact fun t ↦ Service.claims_none rfl
  · intro d hd
    cases hd
  · intro d hd
    cases hd
  · exact fun i ↦ Or.inr rfl

end Library

namespace Process

variable {τ : Type} [DecidableEq τ] [Fintype τ] {L : LruCache}

theorem traced_step {h : StringHash} {p p' : Process τ L} {e : ProcessEvent τ} {r : Ledger}
    (hp : p.library.Traced r) (hm : p.library.Moves h e p'.library) :
    p'.library.Traced (r.observe (.ok p) e (.ok p')) := by
  obtain ⟨errors, env, lib⟩ := p
  obtain ⟨errors', env', lib'⟩ := p'
  cases hm with
  | version | config => exact hp
  | missing g e ms hoff =>
    cases hoff
    exact hp
  | serve n s s' e ms hon hstep =>
    cases hon
    obtain ⟨hcounted, hregistered, hsourced⟩ := hp
    exact ⟨hcounted.effect (Service.step_effect hstep), hregistered.step hstep,
      Service.sourced_step hsourced hstep⟩
  | tornDown => exact hp.destroyed
  | setUp size x m => exact Library.begun_traced m hp.destroyed

theorem run_traced {h : StringHash} {es : List (ProcessEvent τ)} {x : Except Stop (Process τ L)}
    (hrun : (machine h τ L).run (machine h τ L).init es = some x) :
    ∀ p, x = .ok p → p.library.Booked ∧
      p.library.Traced
        ((machine h τ L).record Ledger.observe (machine h τ L).init [] es) := by
  refine @Machine.run_record _ _ _ _ Ledger.observe
    (fun (x : Except Stop (Process τ L)) (r : Ledger) ↦
      ∀ p, x = .ok p → p.library.Booked ∧ p.library.Traced r) ?_ _ _ _ _ ?_ hrun
  · intro x e x' r hx hstep q hq
    cases x with
    | error stop => cases hstep
    | ok p =>
      subst hq
      have hm := step_library hstep
      obtain ⟨hbooked, htraced⟩ := hx p rfl
      exact ⟨hbooked.moves hm, traced_step htraced hm⟩
  · intro q hq
    cases hq
    exact ⟨fresh_balanced, rfl⟩

/-- Whatever came before, and whatever other threads do, a call works on datasets that are
open and that GDAL returned for the uri and the options array of a pair for which
`get_token` answered the call's token, since the last `init`. -/
theorem calls_reach_registered_datasets {h : StringHash} {es : List (ProcessEvent τ)}
    {p : Process τ L} (hrun : (machine h τ L).run (machine h τ L).init es = some (.ok p)) {n : ℕ}
    {s : Service τ L n} (hon : p.library = .on n s) {issued : Ledger}
    (hissued : issued = (machine h τ L).record Ledger.observe (machine h τ L).init [] es)
    {t : τ} {f : Frame} (hf : (s.threads t).pc.frame = some f) :
    (f.call.token, f.pair) ∈ issued ∧ (s.gdal.origins.map Prod.fst).Nodup ∧
      ∀ i ∈ (s.threads t).pc.refs,
        (s.cache.values i).OpenedFrom f.pair s.gdal.origins ∧
        (∀ d ∈ (s.cache.values i).handles, d ∉ s.gdal.closed) ∧
        (f.pair ≠ ("", []) → (s.cache.values i).valid = true) := by
  obtain ⟨hbooked, htraced⟩ := run_traced hrun p rfl
  rw [hon] at hbooked htraced
  rw [← hissued] at htraced
  obtain ⟨hcounted, hregistered, hsourced, hnumbered⟩ := htraced
  refine ⟨hregistered.threads t f hf, hnumbered.nodup, fun i hi ↦ ?_⟩
  have hkey : (s.cache.values i).uriOptions = f.pair := by
    have hthread := hcounted.consistent t
    exact hthread.key f.pair (Pc.pair_of_frame hf) i (hthread.held ▸ hi)
  refine ⟨hkey ▸ hsourced.handles i, fun d hd ↦ Balanced.open_of_held hbooked hd, fun hpair ↦ ?_⟩
  exact (hsourced.filled i).resolve_right fun hx ↦ hpair (hkey.symm.trans hx)

def readingRun : List (ProcessEvent Unit) :=
  secondLifetime ++ [.service (.getToken ("b.tif", []) []) [],
    .service (.call () ⟨33, .noop, 1, 1, 0⟩) [], .service (.query () 0) [],
    .service (.round () 0) [], .service (.lockCache ()) [],
    .service (.insert () (answering true true)) [], .service (.unlockCache ()) [],
    .service (.attempt ()) []]

theorem calls_reach_registered_datasets_second : ∃ p : Process Unit (.ofList Token UriOptions),
    (machine lengthHash Unit (.ofList Token UriOptions)).run
      (machine lengthHash Unit (.ofList Token UriOptions)).init readingRun = some (.ok p) ∧
    (33, ("b.tif", [])) ∈ (machine lengthHash Unit (.ofList Token UriOptions)).record
      Ledger.observe (machine lengthHash Unit (.ofList Token UriOptions)).init [] readingRun ∧
    (2, .opened "b.tif") ∈ p.library.gdal.origins ∧
    (3, .warped 2 [some "-of", some "VRT", none]) ∈ p.library.gdal.origins ∧
    (0, .opened "a.tif") ∈ p.library.gdal.origins := by
  have hrun : (machine lengthHash Unit (.ofList Token UriOptions)).run
      (machine lengthHash Unit (.ofList Token UriOptions)).init readingRun = some (.ok _) := rfl
  obtain ⟨hissued, -, hreach⟩ := calls_reach_registered_datasets hrun rfl rfl (t := ()) rfl
  obtain ⟨hfrom, -, -⟩ := hreach (⟨0, by decide⟩ : Fin 2) List.mem_cons_self
  obtain ⟨src, hsrc, hwarped⟩ := hfrom.warped 3 rfl
  obtain rfl := Option.some.inj hsrc
  exact ⟨_, hrun, hissued, hfrom.source 2 rfl, hwarped, by decide⟩

end Process

end GdalWarp.Bindings
