import GdalWarp.Bindings.Lifecycle
import GdalWarp.Bindings.ReferenceCounts

namespace GdalWarp.Bindings

open Foundation FlatLruCache
open scoped BigOperators

section Handles

variable {τ : Type} {n : ℕ}

theorem foldl_close_kept (c : FlatLruCache τ n) (hc : ∀ i, (c.values i).Paired)
    (l : List (Fin n)) (g : Gdal) :
    (l.foldl (fun g i ↦ ((c.values i).close g).2) g).issued = g.issued ∧
      (l.foldl (fun g i ↦ ((c.values i).close g).2) g).opens = g.opens := by
  induction l generalizing g with
  | nil => exact ⟨rfl, rfl⟩
  | cons i l ih =>
    obtain ⟨-, hissued, hopens⟩ := close_closed (hc i) g
    obtain ⟨hissued', hopens'⟩ := ih ((c.values i).close g).2
    exact ⟨hissued'.trans hissued, hopens'.trans hopens⟩

theorem fresh_held (m : ℕ) : (fresh τ m).held = 0 :=
  Finset.sum_eq_zero fun _ _ ↦ rfl

theorem Balanced.destroy {c : FlatLruCache τ n} {g : Gdal} (h : Balanced c g) (m : ℕ) :
    Balanced (fresh τ m) (c.destroy g) := by
  obtain ⟨lost, hlost, hcard⟩ := h.balance
  obtain ⟨hissued, hopens⟩ := foldl_close_kept c h.paired (List.finRange n) g
  refine ⟨fun _ ↦ rfl, lost, ?_, ?_⟩
  · rw [fresh_held, zero_add, destroy_closed h.paired, hlost, FlatLruCache.destroy, hissued]
  · rw [FlatLruCache.destroy, hopens]
    exact hcard

theorem held_card_le (c : FlatLruCache τ n) : c.held.card ≤ 2 * n := by
  have hslot : ∀ i ∈ Finset.univ, (c.values i).handles.card ≤ 2 := by
    intro i _
    rw [LockedDataset.handles, Multiset.coe_card, List.length_append]
    exact Nat.add_le_add Option.length_toList_le Option.length_toList_le
  rw [FlatLruCache.held, Multiset.card_sum]
  refine (Finset.sum_le_card_nsmul _ _ 2 hslot).trans_eq ?_
  rw [Finset.card_univ, Fintype.card_fin, smul_eq_mul, Nat.mul_comm]

end Handles

def Service.begun {τ : Type} {L : LruCache} (m : ℕ) (g : Gdal) : Service τ L m :=
  ⟨tokenInit L tokenCacheSize, fresh τ m, g, none, fun _ ↦ ⟨.idle, []⟩, false⟩

namespace Library

variable {τ : Type} {L : LruCache}

def gdal : Library τ L → Gdal
  | .off g => g
  | .on _ s => s.gdal

def capacity : Library τ L → ℕ
  | .off _ => 0
  | .on n _ => n

/-- What an event of the process does to the caches. -/
inductive Moves [DecidableEq τ] (h : StringHash) (lib : Library τ L) :
    ProcessEvent τ → Library τ L → Prop
  | version (ms : List (Message τ)) : Moves h lib (.getVersionInfo ms) lib
  | config (ms : List (Message τ)) : Moves h lib (.setConfigOption ms) lib
  | missing (g : Gdal) (e : ServiceEvent τ) (ms : List (Message τ)) (hoff : lib = .off g) :
      Moves h lib (.service e ms) lib
  | serve (n : ℕ) (s s' : Service τ L n) (e : ServiceEvent τ) (ms : List (Message τ))
      (hon : lib = .on n s) (hstep : s.step h e = some s') :
      Moves h lib (.service e ms) (.on n s')
  | tornDown (x : Teardown τ) : Moves h lib (.deinit x) (.off lib.destroyed)
  | setUp (size : ℕ) (x : Startup τ) (m : ℕ) :
      Moves h lib (.init size x) (.on m (.begun m lib.destroyed))

/-- The books of handles; with no cache, nothing is held. -/
def Booked : Library τ L → Prop
  | .off g => Balanced (fresh τ 0) g
  | .on _ s => Balanced s.cache s.gdal

theorem Booked.destroyed {lib : Library τ L} (h : lib.Booked) (m : ℕ) :
    Balanced (fresh τ m) lib.destroyed := by
  cases lib with
  | off g =>
    obtain ⟨lost, hlost, hcard⟩ := h.balance
    refine ⟨fun _ ↦ rfl, lost, ?_, hcard⟩
    rw [fresh_held] at hlost ⊢
    exact hlost
  | on n s => exact Balanced.destroy h m

theorem Booked.moves [DecidableEq τ] {h : StringHash} {lib lib' : Library τ L}
    {e : ProcessEvent τ} (hb : lib.Booked) (hm : lib.Moves h e lib') : lib'.Booked := by
  cases hm with
  | version | config | missing => exact hb
  | serve n s s' e ms hon hstep =>
    rw [hon] at hb
    exact (Service.step_effect hstep).balanced hb
  | tornDown x => exact hb.destroyed 0
  | setUp size x m => exact hb.destroyed m

theorem Booked.balance {lib : Library τ L} (h : lib.Booked) :
    ∃ held lost : Multiset DatasetH,
      held + ↑lib.gdal.closed + lost = Multiset.range lib.gdal.issued ∧
      held.card ≤ 2 * lib.capacity ∧ lost.card = lib.gdal.opens.countP OpenOutcome.halfOpen := by
  cases lib with
  | off g =>
    obtain ⟨lost, hlost, hcard⟩ := Balanced.balance h
    exact ⟨_, lost, hlost, held_card_le _, hcard⟩
  | on n s =>
    obtain ⟨lost, hlost, hcard⟩ := Balanced.balance h
    exact ⟨_, lost, hlost, held_card_le _, hcard⟩

end Library

namespace Process

variable {τ : Type} [DecidableEq τ] {L : LruCache}

theorem utility_library {p p' : Process τ L} {ms : List (Message τ)}
    (h : p.utility ms = .ok p') : p'.library = p.library := by
  unfold utility at h
  cases hreport : p.errors.report ms with
  | error stop =>
    rw [hreport] at h
    cases h
  | ok e =>
    rw [hreport] at h
    cases h
    rfl

theorem serve_moves {h : StringHash} {e : ServiceEvent τ} {ms : List (Message τ)}
    {p p' : Process τ L} (hs : p.serve h e ms = some (.ok p')) :
    p.library.Moves h (.service e ms) p'.library := by
  unfold serve at hs
  split at hs
  case h_1 n t hlib =>
    obtain ⟨t', hstep, heq⟩ := Option.map_eq_some_iff.mp hs
    rw [utility_library heq]
    exact .serve n t t' e ms hlib hstep
  case h_2 g hlib =>
    split at hs
    · cases hs
    · split at hs
      · cases hs
        exact .missing g _ ms hlib
      · cases hs
    · cases hs

theorem tornDown_library {x : Teardown τ} {p p' : Process τ L} (h : p.deinit x = .ok p') :
    p'.library = .off p.library.destroyed := by
  rw [deinit_eq] at h
  cases horphaned : ErrorCodes.orphaned p.errors.handlerSet (p.orphans (.deinit x)) with
  | error stop =>
    rw [horphaned] at h
    cases h
  | ok u =>
    rw [horphaned] at h
    cases h
    rfl

theorem setUp_library {x : Startup τ} {size : ℕ} {p p' : Process τ L}
    (h : p.init x size = .ok p') :
    ∃ m, p'.library = .on m (.begun m p.library.destroyed) := by
  rw [init_eq] at h
  cases horphaned : ErrorCodes.orphaned p.errors.handlerSet (p.orphans (.init size x)) with
  | error stop =>
    rw [horphaned] at h
    cases h
  | ok u =>
    rw [horphaned] at h
    change p.tornDown.setUp x size = .ok p' at h
    unfold setUp at h
    split at h
    · cases h
    · cases h
      exact ⟨_, rfl⟩

variable [Fintype τ]

theorem step_library {h : StringHash} {p p' : Process τ L} {e : ProcessEvent τ}
    (hs : step h (.ok p) e = some (.ok p')) : p.library.Moves h e p'.library := by
  cases e with
  | init size x =>
    simp only [step, Option.ite_none_right_eq_some, Option.some.injEq] at hs
    obtain ⟨m, hm⟩ := setUp_library hs.2
    rw [hm]
    exact .setUp size x m
  | deinit x =>
    simp only [step, Option.ite_none_right_eq_some, Option.some.injEq] at hs
    rw [tornDown_library hs.2]
    exact .tornDown x
  | getVersionInfo ms =>
    rw [utility_library (Option.some.inj hs)]
    exact .version ms
  | setConfigOption ms =>
    rw [utility_library (Option.some.inj hs)]
    exact .config ms
  | service e ms =>
    simp only [step, Option.ite_none_right_eq_some] at hs
    exact serve_moves hs.2

/-- What holds of the caches at the start and is kept by every event holds as long as
the process runs. -/
theorem reachable_library {h : StringHash} {I : Library τ L → Prop} (h0 : I (.off .start))
    (hI : ∀ lib e lib', I lib → lib.Moves h e lib' → I lib') {p : Process τ L}
    (hp : (machine h τ L).Reachable (.ok p)) : I p.library := by
  have hall := hp.invariant (I := fun s ↦ ∀ p, s = .ok p → I p.library) ?_ ?_
  · exact hall p rfl
  · intro q hq
    cases hq
    exact h0
  · intro s e s' hs hstep q hq
    cases s with
    | error stop => cases hstep
    | ok p =>
      rw [hq] at hstep
      exact hI _ e _ (hs p rfl) (step_library hstep)

/-- Over any number of lifetimes GDAL gets back only handles it returned, each at most
once; the handles still open are those of the slots and, one for each, the sources that
could not be warped. -/
theorem handles_over_lifetimes {h : StringHash} {p : Process τ L}
    (hp : (machine h τ L).Reachable (.ok p)) :
    p.library.gdal.closed.Nodup ∧ (∀ d ∈ p.library.gdal.closed, d < p.library.gdal.issued) ∧
    p.library.gdal.closed.length + p.library.gdal.opens.countP OpenOutcome.halfOpen ≤
      p.library.gdal.issued ∧
    p.library.gdal.issued ≤ p.library.gdal.closed.length + 2 * p.library.capacity +
      p.library.gdal.opens.countP OpenOutcome.halfOpen := by
  have hbooked : p.library.Booked :=
    reachable_library fresh_balanced (fun _ _ _ hb hm ↦ hb.moves hm) hp
  obtain ⟨held, lost, hbalance, hheld, hlost⟩ := hbooked.balance
  have hle : (p.library.gdal.closed : Multiset DatasetH) ≤
      Multiset.range p.library.gdal.issued := by
    rw [← hbalance]
    exact (Multiset.le_add_left _ held).trans (Multiset.le_add_right _ lost)
  have hcard := congrArg Multiset.card hbalance
  rw [Multiset.card_add, Multiset.card_add, Multiset.coe_card, Multiset.card_range] at hcard
  refine ⟨?_, fun d hd ↦ ?_, by omega, by omega⟩
  · exact Multiset.coe_nodup.mp (Multiset.nodup_of_le hle (Multiset.nodup_range _))
  · exact Multiset.mem_range.mp (Multiset.mem_of_le hle (Multiset.mem_coe.mpr hd))

def secondLifetime : List (ProcessEvent Unit) :=
  [.init 1 silentStartup, .service (.getToken ("a.tif", []) []) [],
    .service (.call () ⟨33, .noop, 1, 1, 0⟩) [], .service (.query () 0) [],
    .service (.round () 0) [], .service (.lockCache ()) [],
    .service (.insert () (answering true true)) [], .service (.unlockCache ()) [],
    .service (.attempt ()) [], .service (.advance ()) [], .service (.advance ()) [],
    .service (.advance ()) [], .service (.dec ()) [], .service (.next ()) [],
    .service (.finish ()) [], .deinit ⟨fun _ ↦ [], []⟩, .init 2 silentStartup]

theorem handles_over_lifetimes_second : ∃ p : Process Unit (.ofList Token UriOptions),
    (machine lengthHash Unit (.ofList Token UriOptions)).run
      (machine lengthHash Unit (.ofList Token UriOptions)).init secondLifetime = some (.ok p) ∧
    p.library.gdal.closed = [0, 1] ∧ p.library.gdal.closed.Nodup := by
  have hrun : (machine lengthHash Unit (.ofList Token UriOptions)).run
      (machine lengthHash Unit (.ofList Token UriOptions)).init secondLifetime =
        some (.ok _) := rfl
  exact ⟨_, hrun, rfl, (handles_over_lifetimes ⟨secondLifetime, hrun⟩).1⟩

end Process

end GdalWarp.Bindings
