import GdalWarp.Bindings.Copies
import GdalWarp.Bindings.Unbounded

namespace GdalWarp.Bindings

open Foundation FlatLruCache Locals

variable {τ : Type} {n : ℕ}

namespace FlatLruCache

def decAll (c : FlatLruCache τ n) (list : List (Fin n)) : FlatLruCache τ n :=
  list.foldl (fun c i ↦ c.setValue i (c.values i).dec) c

theorem sameDataset_decAll (c : FlatLruCache τ n) (list : List (Fin n)) (j : Fin n) :
    SameDataset c (c.decAll list) j := by
  induction list generalizing c with
  | nil => exact ⟨rfl, rfl, rfl, rfl⟩
  | cons i list ih => exact (sameDataset_setValue c i (c.values i).dec rfl rfl rfl j).trans (ih _)

theorem decAll_useCount (c : FlatLruCache τ n) (list : List (Fin n)) (j : Fin n) :
    ((c.decAll list).values j).useCount = (c.values j).useCount - list.count j := by
  induction list generalizing c with
  | nil => simp [decAll]
  | cons i list ih =>
    rw [decAll, List.foldl_cons, ← decAll, ih, List.count_cons]
    by_cases hj : j = i
    · subst hj
      simp [LockedDataset.dec]
      omega
    · simp [setValue_of_ne _ _ hj, Ne.symm hj]

end FlatLruCache

/-- What a round meets: the time, GDAL's answers to what it opens, and what the
operation returns on a dataset. -/
structure Turn (n : ℕ) where
  now : UInt64
  opens : ℕ → Opener
  answer : Fin n → ℤ

variable [DecidableEq τ]

def makeRound (h : StringHash) (t : τ) (key : UriOptions) (copies : ℤ) (turn : Turn n)
    (s : FlatLruCache τ n × Gdal) : Option (Round × FlatLruCache τ n × Gdal) :=
  (s.1.get h t turn.opens s.2 key copies).map fun r ↦
    (⟨turn.now, r.list.map turn.answer⟩, r.cache.decAll r.list, r.gdal)

def makeRounds (h : StringHash) (t : τ) (key : UriOptions) (copies : ℤ) :
    List (Turn n) → FlatLruCache τ n × Gdal → Option (List Round)
  | [], _ => some []
  | turn :: turns, s => (makeRound h t key copies turn s).bind fun r ↦
    (makeRounds h t key copies turns r.2).map fun rounds ↦ r.1 :: rounds

/-- A public call while no other thread uses the library; it is `none` when these
turns do not end it. -/
def callAlone (h : StringHash) (t : τ) (attempts copies : ℤ) (start : UInt64)
    (queryResult : Option UriOptions) (turns : List (Turn n)) (s : FlatLruCache τ n × Gdal) :
    Option Returned :=
  match queryResult with
  | some key => (makeRounds h t key copies turns s).bind (doit attempts 0 start (some key))
  | none => doit attempts 0 start none []

structure Cached (h : StringHash) (key : UriOptions) (c : FlatLruCache τ n) : Prop where
  nonneg : ∀ i, 0 ≤ (c.values i).useCount
  found : ∃ i, c.hit (hashUriOptions h key) key i = true

theorem makeRound_cached {h : StringHash} {t : τ} {key : UriOptions} {copies : ℤ} {o : ℕ → Opener}
    {g : Gdal} {c : FlatLruCache τ n} {r : Got τ n} (huse : ∀ i, 0 ≤ (c.values i).useCount)
    (hr : c.get h t o g key copies = some r) (hlist : r.list ≠ []) :
    Cached h key (r.cache.decAll r.list) := by
  have hext := Extends.get huse hr
  refine ⟨fun i ↦ ?_, ?_⟩
  · have huses := hext.uses i
    have hpos := huse i
    rw [decAll_useCount]
    omega
  · obtain ⟨i, hi⟩ := List.exists_mem_of_ne_nil r.list hlist
    refine ⟨i, ?_⟩
    rw [(sameDataset_decAll r.cache r.list i).hit]
    cases hmiss : c.hit (hashUriOptions h key) key i with
    | true => rw [(hext.kept i (Or.inr (Or.inl hmiss))).hit, hmiss]
    | false => exact (hext.created i hi hmiss).1

theorem Cached.list_ne_nil {h : StringHash} {t : τ} {key : UriOptions} {copies : ℤ}
    {o : ℕ → Opener} {g : Gdal} {c : FlatLruCache τ n} {r : Got τ n} (hs : Cached h key c)
    (hr : c.get h t o g key copies = some r) : r.list ≠ [] := by
  obtain ⟨i, hi⟩ := hs.found
  exact List.ne_nil_of_mem ((Extends.get hs.nonneg hr).hits i hi)

def Turn.Fails (turn : Turn n) : Prop := ∀ i, turn.answer i < 0 ∧ turn.answer i ≠ datasetLocked

theorem Turn.Fails.failed {turn : Turn n} (h : turn.Fails) (list : List (Fin n)) :
    attemptSuccessful ∉ list.map turn.answer := by
  intro hmem
  obtain ⟨i, -, hi⟩ := List.mem_map.mp hmem
  have hneg := (h i).1
  rw [hi] at hneg
  exact absurd hneg (by decide)

theorem fruitless_cons {turn : Turn n} (hfail : turn.Fails) {list : List (Fin n)}
    (hlist : list ≠ []) {rounds : List Round} (hrounds : Fruitless rounds) :
    Fruitless (⟨turn.now, list.map turn.answer⟩ :: rounds) := by
  refine ⟨List.forall_mem_cons.mpr ⟨?_, hrounds.found⟩, ?_⟩
  · simpa using hlist
  · rw [outcomes, List.flatMap_cons, List.mem_append]
    exact fun hmem ↦ hmem.elim (hfail.failed list) hrounds.failed

theorem makeRounds_fruitless {h : StringHash} (t : τ) {key : UriOptions} (copies : ℤ)
    {turns : List (Turn n)} (hfail : ∀ turn ∈ turns, turn.Fails)
    {s : FlatLruCache τ n × Gdal} (hs : Cached h key s.1) :
    ∃ rounds, makeRounds h t key copies turns s = some rounds ∧ Fruitless rounds := by
  induction turns generalizing s with
  | nil => exact ⟨[], rfl, nofun, List.not_mem_nil⟩
  | cons turn turns ih =>
    obtain ⟨hturn, hturns⟩ := List.forall_mem_cons.mp hfail
    obtain ⟨r, hr⟩ := get_total h t turn.opens s.2 s.1 key copies
    have hlist := hs.list_ne_nil hr
    obtain ⟨rounds, hrounds, hfruitless⟩ := ih (s := (r.cache.decAll r.list, r.gdal)) hturns
      (makeRound_cached hs.nonneg hr hlist)
    refine ⟨_, ?_, fruitless_cons hturn hlist hfruitless⟩
    rw [makeRounds, makeRound, hr, Option.map_some, Option.bind_some, hrounds, Option.map_some]

theorem doit_fruitless {attempts : ℤ} (hattempts : attempts ≤ 0) (start : UInt64)
    (key : UriOptions) {rounds : List Round} (h : Fruitless rounds) :
    doit attempts 0 start (some key) rounds = none := by
  have hloop := doitLoop_fruitless hattempts start h []
  rw [List.append_nil] at hloop
  rw [doit, hloop, doitLoop, if_pos (loops_of_nonpos hattempts (h.done hattempts))]

theorem doit_not_found {attempts : ℤ} (hattempts : attempts ≤ 0) (start now : UInt64)
    (key : UriOptions) (rounds : List Round) :
    doit attempts 0 start (some key) (⟨now, []⟩ :: rounds) = some ⟨-cpleOpenFailed, []⟩ := by
  have hbudget : timedOut 0 start now = false := by simp [timedOut]
  rw [doit, doitLoop, if_pos (loops_of_nonpos hattempts rfl), hbudget, if_neg Bool.false_ne_true]
  exact if_pos rfl

theorem makeRounds_total (h : StringHash) (t : τ) (key : UriOptions) (copies : ℤ)
    (turns : List (Turn n)) (s : FlatLruCache τ n × Gdal) :
    ∃ rounds, makeRounds h t key copies turns s = some rounds := by
  induction turns generalizing s with
  | nil => exact ⟨[], rfl⟩
  | cons turn turns ih =>
    obtain ⟨r, hr⟩ := get_total h t turn.opens s.2 s.1 key copies
    obtain ⟨rounds, hrounds⟩ := ih (r.cache.decAll r.list, r.gdal)
    exact ⟨_, by rw [makeRounds, makeRound, hr, Option.map_some, Option.bind_some, hrounds,
      Option.map_some]⟩

theorem callAlone_fails {h : StringHash} {t : τ} {attempts copies : ℤ} (hattempts : attempts ≤ 0)
    (start : UInt64) {key : UriOptions} {turn : Turn n} {turns : List (Turn n)}
    (hfail : ∀ turn' ∈ turn :: turns, turn'.Fails) {s : FlatLruCache τ n × Gdal}
    (huse : ∀ i, 0 ≤ (s.1.values i).useCount) {r : Got τ n}
    (hr : s.1.get h t turn.opens s.2 key copies = some r) :
    callAlone h t attempts copies start (some key) (turn :: turns) s =
      if r.list = [] then some ⟨-cpleOpenFailed, []⟩ else none := by
  obtain ⟨hturn, hturns⟩ := List.forall_mem_cons.mp hfail
  rw [callAlone, makeRounds, makeRound, hr, Option.map_some, Option.bind_some]
  split
  case isTrue hlist =>
    obtain ⟨rounds, hrounds⟩ :=
      makeRounds_total h t key copies turns (r.cache.decAll r.list, r.gdal)
    rw [hrounds, Option.map_some, Option.bind_some, hlist]
    exact doit_not_found hattempts start turn.now key rounds
  case isFalse hlist =>
    obtain ⟨rounds, hrounds, hfruitless⟩ := makeRounds_fruitless t copies hturns
      (s := (r.cache.decAll r.list, r.gdal)) (makeRound_cached huse hr hlist)
    rw [hrounds, Option.map_some, Option.bind_some]
    exact doit_fruitless hattempts start key (fruitless_cons hturn hlist hfruitless)

/-- A request that cannot succeed is answered only if the first round finds no
dataset. Otherwise no number of rounds ends it. -/
theorem bad_request_retried {h : StringHash} {s : Session τ n} {ops : List (CacheOp τ n)}
    (hrun : (Session.machine h τ n).run (Session.machine h τ n).init ops = some s)
    (hrel : (Session.machine h τ n).EveryStep Session.Releases (Session.machine h τ n).init ops)
    (t : τ) {attempts : ℤ} (hattempts : attempts ≤ 0) (copies : ℤ) (start : UInt64)
    (key : UriOptions) {turn : Turn n} {turns : List (Turn n)}
    (hfail : ∀ turn' ∈ turn :: turns, turn'.Fails) :
    ∃ r, s.cache.get h t turn.opens s.gdal key copies = some r ∧
      callAlone h t attempts copies start (some key) (turn :: turns) (s.cache, s.gdal) =
        if r.list = [] then some ⟨-cpleOpenFailed, []⟩ else none := by
  obtain ⟨r, hr⟩ := get_total h t turn.opens s.gdal s.cache key copies
  exact ⟨r, hr, callAlone_fails hattempts start hfail (Session.nonneg_run hrun hrel) hr⟩

def badWindow : Turn 1 := ⟨0, fun _ ↦ answering true true, fun _ ↦ -5⟩

theorem badWindow_fails (k : ℕ) : ∀ turn ∈ List.replicate k badWindow, turn.Fails := by
  intro turn hturn
  rw [List.eq_of_mem_replicate hturn]
  intro i
  exact ⟨show (-5 : ℤ) < 0 by decide, show (-5 : ℤ) ≠ datasetLocked by decide⟩

theorem bad_request_retried_two_rounds :
    callAlone terminatedHash () 0 1 0 (some ("a.tif", [])) [badWindow, badWindow]
      (fresh Unit 1, .start) = none := by
  have hrun : (Session.machine terminatedHash Unit 1).run
      (Session.machine terminatedHash Unit 1).init [] = some ⟨fresh Unit 1, .start, []⟩ := rfl
  obtain ⟨r, hr, hcall⟩ := bad_request_retried hrun trivial () (le_refl (0 : ℤ)) 1 0
    ("a.tif", []) (badWindow_fails 2)
  have hlist : some r.list = some [0] := by
    rw [← Option.map_some (f := Got.list), ← hr]
    rfl
  rw [Option.some.inj hlist] at hcall
  exact hcall

theorem bad_request_never_answered :
    (∀ k, ∀ turn ∈ List.replicate k badWindow, turn.Fails) ∧
    ¬ ∃ k r, callAlone terminatedHash () 0 1 0 (some ("a.tif", [])) (List.replicate k badWindow)
      (fresh Unit 1, .start) = some r ∧ r.value < 0 := by
  refine ⟨badWindow_fails, fun ⟨k, r, hr, _⟩ ↦ ?_⟩
  cases k with
  | zero => cases hr
  | succ k =>
    obtain ⟨g, hg⟩ := get_total terminatedHash () badWindow.opens .start (fresh Unit 1)
      ("a.tif", []) 1
    have hlist : some g.list = some [0] := by
      rw [← Option.map_some (f := Got.list), ← hg]
      rfl
    have hnone := callAlone_fails (le_refl (0 : ℤ)) 0 (badWindow_fails (k + 1))
      (s := (fresh Unit 1, .start)) (fun _ ↦ le_rfl) hg
    rw [Option.some.inj hlist, if_neg (List.cons_ne_nil 0 []), ← List.replicate_succ, hr] at hnone
    cases hnone

end GdalWarp.Bindings
