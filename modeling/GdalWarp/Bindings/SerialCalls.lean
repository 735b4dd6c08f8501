import GdalWarp.Foundation.Machine
import GdalWarp.Bindings.FailedInserts
import GdalWarp.Bindings.Progress

namespace GdalWarp.Bindings

open Foundation FlatLruCache

variable {τ : Type} {L : LruCache} {n : ℕ}

namespace FlatLruCache

theorem request_zero (found : ℕ) : request 0 found = .nothing := by
  simp [request]

variable [DecidableEq τ]

theorem insertLoop_congr {t : τ} {tag : UInt64} {key : UriOptions} {o o' : ℕ → Opener} {j : ℕ}
    {s : Got τ n} (h : ∀ k < j, o k = o' k) :
    insertLoop t tag key o j s = insertLoop t tag key o' j s := by
  induction j with
  | zero => rfl
  | succ j ih =>
    rw [insertLoop, insertLoop, ih fun k hk ↦ h k (Nat.lt_succ_of_lt hk), h j (Nat.lt_succ_self j)]

theorem insertLoop_snoc {t : τ} {tag : UInt64} {key : UriOptions} {o : ℕ → Opener} {j : ℕ}
    {o' : Opener} {s s' s'' : Got τ n} (h : insertLoop t tag key o j s = some s')
    (h' : insertOne t tag key o' s' = some s'') :
    insertLoop t tag key (Function.update o j o') (j + 1) s = some s'' := by
  have hsame : ∀ k < j, Function.update o j o' k = o k :=
    fun k hk ↦ Function.update_of_ne hk.ne ..
  rw [insertLoop, insertLoop_congr hsame, h, Function.update_self]
  exact h'

end FlatLruCache

def CacheOp.ofCall : CacheOp τ n → Prop
  | .get _ _ _ _ | .dec _ => True
  | .clear _ => False

namespace Service

def LockedBy [DecidableEq τ] (t : τ) (i : Fin n) (c c' : FlatLruCache τ n) : Bool → Prop
  | true => (c.values i).datasetLock = none ∧ c' = c.setValue i ((c.values i).lock t)
  | false => c' = c

/-- What the sequential cache `u` has still to do when the only call is at that point:
nothing, the `get` that the call is in, or an operation's lock. -/
def Tracks [DecidableEq τ] (h : StringHash) (t : τ) (c : FlatLruCache τ n) (g : Gdal)
    (u : Session τ n) : Pc n → Prop
  | .missing f found request =>
    u.cache.find (hashUriOptions h f.pair) f.pair = (found, c) ∧ g = u.gdal ∧
      request = FlatLruCache.request f.call.copies found.length
  | .inserting f found left => ∃ o j,
    left + j = (FlatLruCache.request f.call.copies
      (u.cache.find (hashUriOptions h f.pair) f.pair).1.length).missing ∧
    insertLoop t (hashUriOptions h f.pair) f.pair o j
      ⟨(u.cache.find (hashUriOptions h f.pair) f.pair).1,
        (u.cache.find (hashUriOptions h f.pair) f.pair).2, u.gdal⟩ = some ⟨found, c, g⟩
  | .running _ i _ w => ∃ held, w.Balanced held ∧ LockedBy t i u.cache c held ∧ g = u.gdal
  | _ => c = u.cache ∧ g = u.gdal

end Service

def Pc.apart : Pc n → Bool
  | .missing _ _ _ | .inserting _ _ _ | .running _ _ _ _ => false
  | _ => true

theorem Pc.apart_of_settled {pc : Pc n} (h : pc.settled = true) : pc.apart = true := by
  cases pc <;> first | rfl | cases h

theorem Pc.apart_loopHead (f : Frame) (l : Option DatasetH) :
    (Pc.loopHead f l : Pc n).apart = true := by
  unfold Pc.loopHead
  split <;> rfl

theorem Pc.apart_got (f : Frame) (found : List (Fin n)) : (Pc.got f found).apart = true := by
  unfold Pc.got
  split <;> rfl

namespace Service

variable [DecidableEq τ]

theorem tracks_apart {h : StringHash} {t : τ} {c : FlatLruCache τ n} {g : Gdal} {u : Session τ n}
    {pc : Pc n} (hpc : pc.apart = true) :
    Tracks h t c g u pc ↔ c = u.cache ∧ g = u.gdal := by
  cases pc <;> first | exact Iff.rfl | cases hpc

def Reaches (h : StringHash) (u : Session τ n) (P : Session τ n → Prop) : Prop :=
  ∃ ops u', (∀ op ∈ ops, op.ofCall) ∧ (Session.machine h τ n).run u ops = some u' ∧ P u'

theorem Reaches.refl {h : StringHash} {u : Session τ n} {P : Session τ n → Prop} (hu : P u) :
    Reaches h u P := ⟨[], u, fun _ hop ↦ absurd hop List.not_mem_nil, rfl, hu⟩

theorem Reaches.one {h : StringHash} {u u' : Session τ n} {P : Session τ n → Prop}
    (op : CacheOp τ n) (hop : op.ofCall) (hstep : u.step h op = some u') (hu : P u') :
    Reaches h u P :=
  ⟨[op], u', List.forall_mem_singleton.mpr hop, Machine.run_cons.mpr ⟨u', hstep, rfl⟩, hu⟩

theorem Reaches.mono {h : StringHash} {u : Session τ n} {P Q : Session τ n → Prop}
    (hu : Reaches h u P) (hPQ : ∀ u', P u' → Q u') : Reaches h u Q := by
  obtain ⟨ops, u', hops, hrun, hP⟩ := hu
  exact ⟨ops, u', hops, hrun, hPQ u' hP⟩

theorem session_get {h : StringHash} {u : Session τ n} {t : τ} {key : UriOptions} {copies : ℤ}
    {o : ℕ → Opener} {r : Got τ n} (hr : u.cache.get h t o u.gdal key copies = some r) :
    Reaches h u fun u' ↦ r.cache = u'.cache ∧ r.gdal = u'.gdal := by
  have hstep : u.step h (.get t key copies o) =
      some ⟨r.cache, r.gdal, r.list.reverse ++ u.log⟩ := by
    rw [Session.step, hr]
    rfl
  exact .one (.get t key copies o) trivial hstep ⟨rfl, rfl⟩

/-- The loop that found all there was to find is a whole `get`. -/
theorem session_find {h : StringHash} {u : Session τ n} (t : τ) {key : UriOptions} {copies : ℤ}
    {found : List (Fin n)} {c : FlatLruCache τ n}
    (hfind : u.cache.find (hashUriOptions h key) key = (found, c))
    (hnothing : FlatLruCache.request copies found.length = .nothing) :
    Reaches h u fun u' ↦ c = u'.cache ∧ u.gdal = u'.gdal := by
  have hget : u.cache.get h t (fun _ ↦ answering true true) u.gdal key copies =
      some ⟨found, c, u.gdal⟩ := by
    rw [FlatLruCache.get, hfind, hnothing]
    rfl
  exact session_get hget

theorem tracks_work {h : StringHash} {s : Service τ L n} {u : Session τ n} {t : τ} {f : Frame}
    {i : Fin n} {rest : List (Fin n)} {p : Task (ℤ × Option ℤ)}
    (hu : Tracks h t s.cache s.gdal u (.running f i rest (.ready p))) :
    Tracks h t (s.work t f i rest p).cache (s.work t f i rest p).gdal u
      ((s.work t f i rest p).threads t).pc := by
  obtain ⟨held, hbalanced, hlock, hgdal⟩ := hu
  cases p with
  | ret a =>
    obtain rfl : held = false := hbalanced
    rw [work, move_pc]
    exact ⟨hlock, hgdal⟩
  | tryLock k =>
    obtain ⟨rfl, htrue, hfalse⟩ := hbalanced
    have hcache : s.cache = u.cache := hlock
    by_cases hfree : (s.cache.values i).datasetLock = none
    · rw [work, if_pos hfree, move_pc]
      refine ⟨true, htrue, ?_, hgdal⟩
      rw [hcache] at hfree
      refine ⟨hfree, ?_⟩
      show s.cache.setValue i ((s.cache.values i).lock t) = _
      rw [hcache]
    · rw [work, if_neg hfree, move_pc]
      exact ⟨false, hfalse, hlock, hgdal⟩
  | unlock k =>
    obtain ⟨rfl, hrest⟩ := hbalanced
    obtain ⟨hfree, hcache⟩ := hlock
    rw [work, move_pc]
    refine ⟨false, hrest, ?_, hgdal⟩
    show s.cache.setValue i ((s.cache.values i).unlock t) = u.cache
    rw [hcache, setValue_self, LockedDataset.lock_unlock hfree]
    simp [setValue]
  | call c k =>
    rw [work, move_pc]
    exact ⟨held, hbalanced, hlock, hgdal⟩

theorem tracks_own {h : StringHash} {s s' : Service τ L n} {u : Session τ n}
    {e : ServiceEvent τ} {t : τ} (hs : s.step h e = some s') (ht : e.thread = some t)
    (hu : Tracks h t s.cache s.gdal u (s.threads t).pc) :
    Reaches h u fun u' ↦ Tracks h t s'.cache s'.gdal u' (s'.threads t).pc := by
  cases step_moves hs with
  | getToken => cases ht
  | call v c hpc | unknown v now c hpc | timeOut v now f hpc | finish v value l hpc =>
    obtain rfl := Option.some.inj ht
    rw [hpc] at hu
    rw [move_pc]
    exact .refl hu
  | query v now c pair hpc =>
    obtain rfl := Option.some.inj ht
    rw [hpc] at hu
    rw [move_pc]
    exact .refl ((tracks_apart (Pc.apart_loopHead ..)).mpr hu)
  | scan v now f hpc =>
    obtain rfl := Option.some.inj ht
    rw [hpc] at hu
    obtain ⟨hcache, hgdal⟩ := hu
    rw [put_self]
    unfold Pc.scanned
    split
    case h_1 hnothing =>
      rw [hcache] at hnothing
      refine (session_find v rfl hnothing).mono fun u' hu' ↦ ?_
      refine (tracks_apart (Pc.apart_got ..)).mpr ⟨?_, hgdal.trans hu'.2⟩
      rw [← hu'.1, ← hcache]
      rfl
    case h_2 =>
      refine .refl ⟨?_, hgdal, rfl⟩
      rw [← hcache]
      rfl
  | lockCache v f found request hpc =>
    obtain rfl := Option.some.inj ht
    rw [hpc] at hu
    obtain ⟨hfind, hgdal, rfl⟩ := hu
    rw [move_pc]
    refine .refl ⟨fun _ ↦ answering true true, 0, ?_, ?_⟩
    · rw [hfind]
      rfl
    · rw [hfind, ← hgdal]
      rfl
  | giveUp v f found k hpc =>
    obtain rfl := Option.some.inj ht
    rw [hpc] at hu
    obtain ⟨hfind, hgdal, -⟩ := hu
    -- a `get` that gives up is one for no more copies
    have hget := session_find v hfind (request_zero found.length)
    rw [move_pc]
    exact hget.mono fun u' hu' ↦
      (tracks_apart (Pc.apart_got ..)).mpr ⟨hu'.1, hgdal.trans hu'.2⟩
  | insert v o f found left r hpc hr =>
    obtain rfl := Option.some.inj ht
    rw [hpc] at hu
    obtain ⟨o', j, hcount, hloop⟩ := hu
    rw [put_self]
    exact .refl ⟨Function.update o' j o, j + 1, by omega, insertLoop_snoc hloop hr⟩
  | unlockCache v f found hpc =>
    obtain rfl := Option.some.inj ht
    rw [hpc] at hu
    obtain ⟨o, j, hcount, hloop⟩ := hu
    rw [zero_add] at hcount
    rw [hcount] at hloop
    have hget := session_get (r := ⟨found, s.cache, s.gdal⟩) (o := o) hloop
    rw [move_pc]
    exact hget.mono fun u' hu' ↦ (tracks_apart (Pc.apart_got ..)).mpr hu'
  | attempt v f i rest l hpc =>
    obtain rfl := Option.some.inj ht
    rw [hpc] at hu
    rw [move_pc]
    exact .refl ⟨false, task_balanced f.call.op, hu.1, hu.2⟩
  | skip v f i rest l hpc =>
    obtain rfl := Option.some.inj ht
    rw [hpc] at hu
    rw [move_pc]
    exact .refl hu
  | advance v f i rest p hpc =>
    obtain rfl := Option.some.inj ht
    rw [hpc] at hu
    exact .refl (tracks_work hu)
  | answer v reply f i rest c k hpc =>
    obtain rfl := Option.some.inj ht
    rw [hpc] at hu
    obtain ⟨held, hbalanced, hlock, hgdal⟩ := hu
    rw [move_pc]
    exact .refl ⟨held, hbalanced (reply c), hlock, hgdal⟩
  | dec v f i rest l hpc =>
    obtain rfl := Option.some.inj ht
    rw [hpc] at hu
    obtain ⟨hcache, hgdal⟩ := hu
    rw [put_self]
    refine .one (.dec i) trivial rfl ⟨?_, hgdal⟩
    show s.cache.setValue i (s.cache.values i).dec = _
    rw [hcache]
  | next v f l hpc =>
    obtain rfl := Option.some.inj ht
    rw [hpc] at hu
    rw [move_pc]
    exact .refl ((tracks_apart (Pc.apart_loopHead ..)).mpr hu)

/-- A thread acts only when all others are back in their callers. -/
def TakesTurns (s : Service τ L n) (e : ServiceEvent τ) : Prop :=
  ∀ t, e.thread = some t → ∀ v ≠ t, (s.threads v).pc.settled = true

/-- All threads but one are back in their callers, and `u` keeps up with that one. -/
def Serial (h : StringHash) (s : Service τ L n) (u : Session τ n) : Prop :=
  ∃ t, (∀ v ≠ t, (s.threads v).pc.settled = true) ∧
    Tracks h t s.cache s.gdal u (s.threads t).pc

theorem Serial.turn {h : StringHash} {s : Service τ L n} {u : Session τ n} (hs : Serial h s u)
    {t : τ} (ht : ∀ v ≠ t, (s.threads v).pc.settled = true) :
    Tracks h t s.cache s.gdal u (s.threads t).pc := by
  obtain ⟨v, hv, hu⟩ := hs
  by_cases hvt : v = t
  · subst hvt
    exact hu
  · have hsame := (tracks_apart (Pc.apart_of_settled (ht v hvt))).mp hu
    exact (tracks_apart (Pc.apart_of_settled (hv t (Ne.symm hvt)))).mpr hsame

theorem serial_step {h : StringHash} {s s' : Service τ L n} {u : Session τ n}
    {e : ServiceEvent τ} (hs : Serial h s u) (hturn : s.TakesTurns e)
    (hstep : s.step h e = some s') :
    Reaches h u (Serial h s') := by
  cases he : e.thread with
  | none =>
    cases step_moves hstep with
    | getToken pair draws r hr => exact .refl hs
    | _ => cases he
  | some t =>
    have hothers := hturn t he
    refine (tracks_own hstep he (hs.turn hothers)).mono fun u' hu' ↦ ⟨t, fun v hv ↦ ?_, hu'⟩
    rw [step_other hstep fun hx ↦ hv (Option.some.inj (hx.symm.trans he))]
    exact hothers v hv

theorem serial_simulates [Inhabited τ] (h : StringHash) (size : ℕ) :
    (machine h τ L size n).Simulates (Session.machine h τ n) TakesTurns CacheOp.ofCall
      (Serial h) where
  init := ⟨default, fun _ _ ↦ rfl, rfl, rfl⟩
  step _ _ _ _ hs hturn hstep := serial_step hs hturn hstep

/-- Threads that take turns, one call after the other, use the library as one sequential
cache: whenever no call is in `get` or in an operation, the slots, their access times, locks
and use counts and GDAL's account of handles are those of some run of `get` and `dec`. -/
theorem serial_calls_refine_session [Inhabited τ] {h : StringHash} {size : ℕ}
    {es : List (ServiceEvent τ)} {s : Service τ L n}
    (hturns : (machine h τ L size n).EveryStep TakesTurns (machine h τ L size n).init es)
    (hrun : (machine h τ L size n).run (machine h τ L size n).init es = some s)
    (hapart : ∀ t, (s.threads t).pc.apart = true) :
    ∃ ops u, (∀ op ∈ ops, op.ofCall) ∧
      (Session.machine h τ n).run (Session.machine h τ n).init ops = some u ∧
      s.cache = u.cache ∧ s.gdal = u.gdal := by
  obtain ⟨ops, u, hops, hu, t, -, htracks⟩ := (serial_simulates h size).run hturns hrun
  exact ⟨ops, u, hops, hu, (tracks_apart (hapart t)).mp htracks⟩

instance [Fintype τ] (s : Service τ L n) (e : ServiceEvent τ) : Decidable (s.TakesTurns e) :=
  inferInstanceAs (Decidable (∀ t, e.thread = some t → ∀ v, v ≠ t → _))

def turnsRun : List (ServiceEvent Bool) :=
  [.getToken ("a.tif", []) [], .call false ⟨33, .noop, 1, 1, 0⟩, .query false 0, .round false 0,
    .lockCache false, .insert false (answering true true), .unlockCache false, .attempt false,
    .advance false, .advance false, .advance false, .dec false, .next false, .finish false,
    .call true ⟨33, .noop, 1, 1, 0⟩, .query true 0, .round true 0]

theorem turnsRun_takesTurns : (machine lengthHash Bool (.ofList Token UriOptions) 4 2).EveryStep
    TakesTurns (machine lengthHash Bool (.ofList Token UriOptions) 4 2).init turnsRun := by
  repeat' first
    | exact trivial
    | refine .cons rfl (by decide) ?_

theorem serial_calls_refine_session_turns : ∃ (s : Service Bool (.ofList Token UriOptions) 2)
    (u : Session Bool 2),
    (machine lengthHash Bool (.ofList Token UriOptions) 4 2).run
      (machine lengthHash Bool (.ofList Token UriOptions) 4 2).init turnsRun = some s ∧
    (Session.machine lengthHash Bool 2).Reachable u ∧ (s.cache.values 0).useCount = 1 ∧
    s.cache = u.cache ∧ s.gdal = u.gdal := by
  have hrun : (machine lengthHash Bool (.ofList Token UriOptions) 4 2).run
      (machine lengthHash Bool (.ofList Token UriOptions) 4 2).init turnsRun = some _ := rfl
  obtain ⟨ops, u, -, hops, hu⟩ :=
    serial_calls_refine_session turnsRun_takesTurns hrun (by decide)
  exact ⟨_, u, hrun, ⟨ops, hops⟩, by decide, hu⟩

end Service

end GdalWarp.Bindings
