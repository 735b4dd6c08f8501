import GdalWarp.Foundation.Counting
import GdalWarp.Bindings.Copies
import GdalWarp.Bindings.ReferenceCounts

namespace GdalWarp.Bindings

open Foundation FlatLruCache

namespace FlatLruCache

variable {τ : Type} {n : ℕ}

theorem count_congr {h : StringHash} {c c' : FlatLruCache τ n} {key : UriOptions}
    (hsame : ∀ i, SameDataset c c' i) : c'.count h key = c.count h key := by
  have hhit : c'.hit (hashUriOptions h key) key = c.hit (hashUriOptions h key) key :=
    funext fun i ↦ (hsame i).hit _ key
  rw [count, count, hhit]

theorem hit_filled {c : FlatLruCache τ n} {b i : Fin n} {tag tag' : UInt64}
    {key key' : UriOptions} {d : DatasetH}
    (hhit : (c.filled b tag' key' d).hit tag key i = true) :
    c.hit tag key i = true ∨ i = b ∧ key' = key := by
  by_cases hi : i = b
  · subst hi
    rw [hit, filled_values_self, Bool.and_eq_true, beq_iff_eq, beq_iff_eq] at hhit
    exact Or.inr ⟨rfl, hhit.2⟩
  · rw [(sameDataset_filled c tag' key' d hi).hit] at hhit
    exact Or.inl hhit

theorem count_filled_le (h : StringHash) (c : FlatLruCache τ n) (b : Fin n) (tag : UInt64)
    (key key' : UriOptions) (d : DatasetH) :
    (c.filled b tag key' d).count h key ≤ c.count h key + if key' = key then 1 else 0 := by
  rw [count, count, countP_finRange, countP_finRange]
  split
  case isTrue heq =>
    refine (Finset.card_le_card ?_).trans (Finset.card_insert_le b _)
    intro i hi
    rw [Finset.mem_filter_univ] at hi
    rw [Finset.mem_insert, Finset.mem_filter_univ]
    exact (hit_filled hi).symm.imp_left And.left
  case isFalse hne =>
    rw [Nat.add_zero]
    refine Finset.card_le_card fun i hi ↦ ?_
    rw [Finset.mem_filter_univ] at hi ⊢
    exact (hit_filled hi).resolve_right fun hx ↦ hne hx.2

theorem count_le_of_found {h : StringHash} {c : FlatLruCache τ n} {key : UriOptions}
    {found : List (Fin n)}
    (hfound : ∀ i, c.hit (hashUriOptions h key) key i = true → i ∈ found) :
    c.count h key ≤ found.length := by
  rw [count, countP_finRange]
  refine (Finset.card_le_card fun i hi ↦ ?_).trans found.toFinset_card_le
  rw [Finset.mem_filter_univ] at hi
  exact List.mem_toFinset.mpr (hfound i hi)

variable [DecidableEq τ]

theorem insertOne_count_le {h : StringHash} {t : τ} {tag : UInt64} {key key' : UriOptions}
    {o : Opener} {s r : Got τ n} (hr : insertOne t tag key' o s = some r) :
    r.cache.count h key ≤ s.cache.count h key + if key' = key then 1 else 0 := by
  rcases insertOne_some hr with ⟨-, rfl⟩ | ⟨b, -, ⟨-, rfl⟩ | ⟨-, rfl⟩⟩
  · exact Nat.le_add_right _ _
  · have hsame := sameDataset_setValue s.cache b ((s.cache.values b).lock t) rfl rfl rfl
    rw [count_congr hsame]
    exact Nat.le_add_right _ _
  · exact count_filled_le h s.cache b tag key key' s.gdal.issued

end FlatLruCache

namespace Pc

variable {n : ℕ}

def wanting : Pc n → Bool
  | .missing _ _ _ | .inserting _ _ _ => true
  | _ => false

theorem wanting_of_settled {pc : Pc n} (h : pc.settled = true) : pc.wanting = false := by
  cases pc <;> first | rfl | cases h

theorem loopHead_wanting (f : Frame) (l : Option DatasetH) :
    (loopHead f l : Pc n).wanting = false := by
  rcases loopHead_cases f l with h | ⟨value, l', h, -⟩ <;> rw [h] <;> rfl

theorem got_wanting (f : Frame) (found : List (Fin n)) : (got f found).wanting = false := by
  rcases got_cases f found with ⟨-, h⟩ | h <;> rw [h] <;> rfl

end Pc

namespace Service

variable {τ : Type} {L : LruCache} {n : ℕ}

structure Apart (s s' : Service τ L n) : Prop where
  writer : s'.writer = s.writer
  same : ∀ i, SameDataset s.cache s'.cache i
  threads : ∀ u, (s'.threads u).pc.wanting = false ∨ s'.threads u = s.threads u

/-- What thread `t` may still insert for the key fits under the bound, and it
inserts under the write lock only. -/
def Fits (key : UriOptions) (m k : ℕ) (wr : Option τ) (t : τ) : Pc n → Prop
  | .missing f found request => f.pair = key → found.length + request.missing ≤ m
  | .inserting f _ left => wr = some t ∧ (f.pair = key → k + left ≤ m)
  | _ => True

theorem fits_of_not_wanting {key : UriOptions} {m k : ℕ} {wr : Option τ} {t : τ} {pc : Pc n}
    (h : pc.wanting = false) : Fits key m k wr t pc := by
  cases pc <;> trivial

theorem Fits.other {key : UriOptions} {m k k' : ℕ} {wr wr' : Option τ} {t : τ} {pc : Pc n}
    (h : Fits key m k wr t pc) (hwr : wr ≠ some t) : Fits key m k' wr' t pc := by
  cases pc with
  | missing f found request => exact h
  | inserting f found left => exact absurd h.1 hwr
  | _ => trivial

structure Bounded (h : StringHash) (key : UriOptions) (m : ℕ) (s : Service τ L n) : Prop where
  count : s.cache.count h key ≤ m
  threads : ∀ t, Fits key m (s.cache.count h key) s.writer t (s.threads t).pc

def AsksAtMost (key : UriOptions) (m : ℕ) (s : Service τ L n) : ServiceEvent τ → Prop
  | .round t _ => ∀ f, (s.threads t).pc = .round f → f.pair = key → f.call.copies.natAbs ≤ m
  | _ => True

/-- A call that takes the write lock for the key has found every copy of it, or
there is room for the copies there are and those it misses. -/
def ScanCurrent (h : StringHash) (key : UriOptions) (m : ℕ) (s : Service τ L n) :
    ServiceEvent τ → Prop
  | .lockCache t => ∀ f found request, (s.threads t).pc = .missing f found request →
      f.pair = key → (∀ i, s.cache.hit (hashUriOptions h key) key i = true → i ∈ found) ∨
        s.cache.count h key + request.missing ≤ m
  | _ => True

theorem fits_scanned {key : UriOptions} {m k : ℕ} {wr : Option τ} {t : τ} {f : Frame}
    {found : List (Fin n)} (hfound : f.pair = key → found.length ≤ m)
    (hcopies : f.pair = key → f.call.copies.natAbs ≤ m) :
    Fits key m k wr t (Pc.scanned f found) := by
  unfold Pc.scanned
  split
  · exact fits_of_not_wanting (Pc.got_wanting f found)
  · intro hkey
    have hle := request_missing_le f.call.copies found.length
    have hm := hfound hkey
    have hc := hcopies hkey
    omega

theorem Bounded.apart {h : StringHash} {key : UriOptions} {m : ℕ} {s s' : Service τ L n}
    (hs : Bounded h key m s) (hapart : Apart s s') : Bounded h key m s' := by
  have hcount : s'.cache.count h key = s.cache.count h key := count_congr hapart.same
  refine ⟨hcount.trans_le hs.count, fun u ↦ ?_⟩
  rcases hapart.threads u with hpc | hth
  · exact fits_of_not_wanting hpc
  · rw [hcount, hapart.writer, hth]
    exact hs.threads u

theorem Bounded.inserting {h : StringHash} {key : UriOptions} {m : ℕ} {s : Service τ L n}
    (hs : Bounded h key m s) {t : τ} {f : Frame} {found : List (Fin n)} {left : ℕ}
    (hpc : (s.threads t).pc = .inserting f found left) :
    (∀ u ≠ t, s.writer ≠ some u) ∧ Fits key m (s.cache.count h key) s.writer t (s.threads t).pc := by
  have ht := hs.threads t
  refine ⟨fun u hu ↦ ?_, ht⟩
  rw [hpc] at ht
  rw [ht.1]
  exact fun hx ↦ hu (Option.some.inj hx).symm

variable [DecidableEq τ]

theorem Apart.put {s : Service τ L n} {t : τ} {tok : L.State} {c : FlatLruCache τ n} {g : Gdal}
    {th : Thread n} (hsame : ∀ i, SameDataset s.cache c i) (hth : th.pc.wanting = false) :
    Apart s ((⟨tok, c, g, s.writer, s.threads, s.aborted⟩ : Service τ L n).put t th) :=
  ⟨rfl, hsame, forall_put (P := fun u th ↦ th.pc.wanting = false ∨ th = s.threads u)
    (Or.inl hth) fun _ _ ↦ Or.inr rfl⟩

theorem apart_move (s : Service τ L n) (t : τ) (tok : L.State) {pc : Pc n}
    (hpc : pc.wanting = false) : Apart s ({ s with tokens := tok }.move t pc) :=
  .put (fun _ ↦ ⟨rfl, rfl, rfl, rfl⟩) hpc

theorem apart_work (s : Service τ L n) (t : τ) (f : Frame) (i : Fin n) (rest : List (Fin n))
    (p : Task (ℤ × Option ℤ)) : Apart s (s.work t f i rest p) := by
  have hsame := sameDataset_work s t f i rest p
  cases p with
  | tryLock k =>
    rw [work] at hsame ⊢
    by_cases hfree : (s.cache.values i).datasetLock = none
    · rw [if_pos hfree] at hsame ⊢
      exact .put hsame rfl
    · rw [if_neg hfree] at hsame ⊢
      exact .put hsame rfl
  | ret r | unlock k | call c k => exact .put hsame rfl

theorem Bounded.scan {h : StringHash} {key : UriOptions} {m : ℕ} {s : Service τ L n}
    (hs : Bounded h key m s) (t : τ) {f : Frame}
    (hasks : f.pair = key → f.call.copies.natAbs ≤ m) :
    Bounded h key m ({ s with cache := (s.cache.find (hashUriOptions h f.pair) f.pair).2 }.put t
      ⟨.scanned f (s.cache.find (hashUriOptions h f.pair) f.pair).1,
        (s.cache.find (hashUriOptions h f.pair) f.pair).1⟩) := by
  have hcount : (s.cache.find (hashUriOptions h f.pair) f.pair).2.count h key =
      s.cache.count h key := count_congr (sameDataset_find s.cache _ f.pair)
  refine ⟨hcount.trans_le hs.count, ?_⟩
  refine forall_put (P := fun u th ↦ Fits key m _ s.writer u th.pc) ?_ fun u _ ↦ ?_
  · refine fits_scanned ?_ hasks
    rintro rfl
    rw [find_eq, ← List.countP_eq_length_filter]
    exact hs.count
  · have hu := hs.threads u
    rw [← hcount] at hu
    exact hu

theorem Bounded.lockCache {h : StringHash} {key : UriOptions} {m : ℕ} {s : Service τ L n}
    (hs : Bounded h key m s) {t : τ} {f : Frame} {found : List (Fin n)} {request : Request}
    (hpc : (s.threads t).pc = .missing f found request) (hfree : s.writer = none)
    (hcurrent : ScanCurrent h key m s (.lockCache t)) :
    Bounded h key m ({ s with writer := some t }.move t (.inserting f found request.missing)) := by
  refine ⟨hs.count, ?_⟩
  refine forall_put (P := fun u th ↦ Fits key m _ (some t) u th.pc) ⟨rfl, fun hkey ↦ ?_⟩
    fun u _ ↦ (hs.threads u).other (by rw [hfree]; exact nofun)
  rcases hcurrent f found request hpc hkey with hfound | hroom
  · have ht := hs.threads t
    rw [hpc] at ht
    have hle : found.length + request.missing ≤ m := ht hkey
    exact (Nat.add_le_add_right (count_le_of_found hfound) _).trans hle
  · exact hroom

theorem Bounded.insert {h : StringHash} {key : UriOptions} {m : ℕ} {s : Service τ L n}
    (hs : Bounded h key m s) {t : τ} {o : Opener} {f : Frame} {found : List (Fin n)} {left : ℕ}
    {r : Got τ n} (hpc : (s.threads t).pc = .inserting f found (left + 1))
    (hr : insertOne t (hashUriOptions h f.pair) f.pair o ⟨found, s.cache, s.gdal⟩ = some r) :
    Bounded h key m ({ s with cache := r.cache, gdal := r.gdal }.put t
      ⟨.inserting f r.list left, r.list⟩) := by
  obtain ⟨hothers, ht⟩ := hs.inserting hpc
  rw [hpc] at ht
  obtain ⟨hwriter, hroom⟩ := ht
  have hle : r.cache.count h key ≤
      s.cache.count h key + if f.pair = key then 1 else 0 := insertOne_count_le hr
  have hleft : f.pair = key → r.cache.count h key + left ≤ m := fun hkey ↦ by
    have hk := hroom hkey
    rw [if_pos hkey] at hle
    omega
  refine ⟨?_, ?_⟩
  · by_cases hkey : f.pair = key
    · exact (Nat.le_add_right _ left).trans (hleft hkey)
    · rw [if_neg hkey] at hle
      exact hle.trans hs.count
  · exact forall_put (P := fun u th ↦ Fits key m _ s.writer u th.pc) ⟨hwriter, hleft⟩
      fun u hu ↦ (hs.threads u).other (hothers u hu)

theorem Bounded.unlockCache {h : StringHash} {key : UriOptions} {m : ℕ} {s : Service τ L n}
    (hs : Bounded h key m s) {t : τ} {f : Frame} {found : List (Fin n)}
    (hpc : (s.threads t).pc = .inserting f found 0) :
    Bounded h key m ({ s with writer := none }.move t (.got f found)) :=
  ⟨hs.count, forall_put (P := fun u th ↦ Fits key m _ none u th.pc)
    (fits_of_not_wanting (Pc.got_wanting f found))
    fun u hu ↦ (hs.threads u).other ((hs.inserting hpc).1 u hu)⟩

theorem Bounded.step {h : StringHash} {key : UriOptions} {m : ℕ} {s s' : Service τ L n}
    {e : ServiceEvent τ} (hs : Bounded h key m s) (hasks : AsksAtMost key m s e)
    (hcurrent : ScanCurrent h key m s e) (hstep : s.step h e = some s') : Bounded h key m s' := by
  cases step_moves hstep with
  | getToken pair draws r hr =>
    exact hs.apart ⟨rfl, fun _ ↦ ⟨rfl, rfl, rfl, rfl⟩, fun _ ↦ Or.inr rfl⟩
  | query t now c pair => exact hs.apart (apart_move s t _ (Pc.loopHead_wanting _ none))
  | scan t now f hpc hfree => exact hs.scan t (hasks f hpc)
  | lockCache t f found request hpc hfree => exact hs.lockCache hpc hfree hcurrent
  | giveUp t f found => exact hs.apart (apart_move s t s.tokens (Pc.got_wanting f found))
  | insert t o f found left r hpc hr => exact hs.insert hpc hr
  | unlockCache t f found hpc => exact hs.unlockCache hpc
  | advance t f i rest p => exact hs.apart (apart_work s t f i rest p)
  | dec t f i => exact hs.apart (.put (sameDataset_setValue s.cache i _ rfl rfl rfl) rfl)
  | next t f l => exact hs.apart (apart_move s t s.tokens (Pc.loopHead_wanting _ l))
  | call t | unknown t | timeOut t | attempt t | skip t | answer t | finish t =>
    exact hs.apart (apart_move s t _ rfl)

/-- No interleaving of calls puts more copies in the cache than the largest
number asked for, as long as no call inserts on an outdated scan. -/
theorem copies_bounded {h : StringHash} {key : UriOptions} {m size : ℕ} {s : Service τ L n}
    (hstart : s.Quiescent) (hcount : s.cache.count h key ≤ m) {es : List (ServiceEvent τ)}
    (hasks : (machine h τ L size n).EveryStep (AsksAtMost key m) s es)
    (hcurrent : (machine h τ L size n).EveryStep (ScanCurrent h key m) s es) :
    (machine h τ L size n).EveryState (fun s ↦ s.cache.count h key ≤ m) s es :=
  (hasks.and hcurrent).everyState (I := Bounded h key m)
    (fun _ _ _ hs hc hstep ↦ hs.step hc.1 hc.2 hstep) (fun _ hs ↦ hs.count)
    ⟨hcount, fun t ↦ fits_of_not_wanting (Pc.wanting_of_settled (hstart t))⟩

def callOnce : Invocation := ⟨33, .noop, 1, 1, 0⟩

theorem copies_bounded_second_call :
    (machine lengthHash Bool (.ofList Token UriOptions) 4 2).EveryState
      (fun s ↦ s.cache.count lengthHash ("a.tif", []) ≤ 1)
      (machine lengthHash Bool (.ofList Token UriOptions) 4 2).init
      [.getToken ("a.tif", []) [], .call false callOnce, .call true callOnce, .query false 0,
        .query true 0, .round false 0, .lockCache false, .insert false (answering true true),
        .unlockCache false, .round true 0] := by
  refine copies_bounded (fun _ ↦ rfl) (by decide)
    (.cons rfl trivial (.cons rfl trivial (.cons rfl trivial (.cons rfl trivial
      (.cons rfl trivial (.cons rfl ?_ (.cons rfl trivial (.cons rfl trivial
        (.cons rfl trivial (.cons rfl ?_ trivial))))))))))
    (.cons rfl trivial (.cons rfl trivial (.cons rfl trivial (.cons rfl trivial
      (.cons rfl trivial (.cons rfl trivial (.cons rfl ?_ (.cons rfl trivial
        (.cons rfl trivial (.cons rfl trivial trivial))))))))))
  · intro f hpc _
    cases hpc
    decide
  · intro f hpc _
    cases hpc
    decide
  · intro f found request hpc _
    cases hpc
    exact Or.inr (by decide)

def racingRun : List (ServiceEvent Bool) :=
  [.getToken ("a.tif", []) [], .call false callOnce, .call true callOnce, .query false 0,
    .query true 0, .round false 0, .round true 0, .lockCache false,
    .insert false (answering true true), .unlockCache false, .lockCache true,
    .insert true (answering true true)]

/-- Both threads find no copy before either has inserted one. -/
theorem racing_calls_insert_twice :
    (machine lengthHash Bool (.ofList Token UriOptions) 4 2).init.Quiescent ∧
    (machine lengthHash Bool (.ofList Token UriOptions) 4 2).init.cache.count lengthHash
      ("a.tif", []) ≤ 1 ∧
    (machine lengthHash Bool (.ofList Token UriOptions) 4 2).EveryStep
      (AsksAtMost ("a.tif", []) 1)
      (machine lengthHash Bool (.ofList Token UriOptions) 4 2).init racingRun ∧
    ¬ (machine lengthHash Bool (.ofList Token UriOptions) 4 2).EveryState
      (fun s ↦ s.cache.count lengthHash ("a.tif", []) ≤ 1)
      (machine lengthHash Bool (.ofList Token UriOptions) 4 2).init racingRun := by
  refine ⟨fun _ ↦ rfl, by decide, ?_, fun hstates ↦ ?_⟩
  · refine .cons rfl trivial (.cons rfl trivial (.cons rfl trivial (.cons rfl trivial
      (.cons rfl trivial (.cons rfl ?_ (.cons rfl ?_ (.cons rfl trivial (.cons rfl trivial
        (.cons rfl trivial (.cons rfl trivial (.cons rfl trivial trivial)))))))))))
    all_goals
      intro f hpc _
      cases hpc
      decide
  · have hrun : (machine lengthHash Bool (.ofList Token UriOptions) 4 2).run
        (machine lengthHash Bool (.ofList Token UriOptions) 4 2).init racingRun = some _ := rfl
    exact absurd (hstates.last hrun) (by decide)

end Service

end GdalWarp.Bindings
