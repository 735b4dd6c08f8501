import GdalWarp.Foundation.Machine
import GdalWarp.Bindings.Tokens

namespace GdalWarp.Bindings

open Foundation

/-- The token cache of a process, and what `get_token` has issued, the latest
first. -/
structure Issuing (L : LruCache) where
  cache : L.State
  issued : List (Token × UriOptions)

inductive TokenOp where
  | get (pair : UriOptions) (draws : List Token)
  | query (token : Token)

namespace Issuing

variable {L : LruCache}

def step (s : Issuing L) : TokenOp → Option (Issuing L)
  | .get pair draws =>
    (getToken L s.cache pair draws).map fun r ↦ ⟨r.2, (r.1, pair) :: s.issued⟩
  | .query token => some { s with cache := (queryToken L s.cache token).2 }

def machine (L : LruCache) (size : ℕ) : Machine (Issuing L) TokenOp where
  init := ⟨tokenInit L size, []⟩
  step := step

def Faithful (s : Issuing L) : Prop :=
  ∀ e ∈ s.issued, ∀ pair, (queryToken L s.cache e.1).1 = some pair → pair = e.2

def Fresh (s : Issuing L) : TokenOp → Prop
  | .get _ draws => ∀ d ∈ draws, ∀ e ∈ s.issued, e.1 ≠ d
  | .query _ => True

/-- Token 33 is in use, or was never issued for another pair. -/
def FirstTokenFree (s : Issuing L) : TokenOp → Prop
  | .get pair _ => L.contains s.cache firstToken = true ∨
      ∀ e ∈ s.issued, e.1 = firstToken → e.2 = pair
  | .query _ => True

instance (s : Issuing L) : (op : TokenOp) → Decidable (s.Fresh op)
  | .get _ draws => List.decidableBAll (fun d ↦ ∀ e ∈ s.issued, e.1 ≠ d) draws
  | .query _ => inferInstanceAs (Decidable True)

instance (s : Issuing L) : (op : TokenOp) → Decidable (s.FirstTokenFree op)
  | .get pair _ => inferInstanceAs (Decidable (L.contains s.cache firstToken = true ∨
      ∀ e ∈ s.issued, e.1 = firstToken → e.2 = pair))
  | .query _ => inferInstanceAs (Decidable True)

structure Sized (s : Issuing L) : Prop where
  capacity : 0 < L.capacity s.cache
  issued : ∀ e ∈ s.issued, e.1 ≠ badToken

theorem Sized.step {s s' : Issuing L} {op : TokenOp} (h : Sized s) (hs : s.step op = some s') :
    Sized s' := by
  cases op with
  | get pair draws =>
    obtain ⟨r, hr, rfl⟩ := Option.map_eq_some_iff.mp hs
    obtain ⟨-, hgood, hc, -⟩ := getToken_some hr
    refine ⟨?_, fun e he ↦ ?_⟩
    · rw [hc, L.capacity_insert]
      exact h.capacity
    · rcases List.mem_cons.mp he with rfl | he
      · exact hgood
      · exact h.issued e he
  | query token =>
    cases hs
    refine ⟨?_, h.issued⟩
    unfold queryToken
    split
    · exact h.capacity
    · rw [L.capacity_get]
      exact h.capacity

theorem Sized.faithful_iff {s : Issuing L} (h : Sized s) :
    s.Faithful ↔ ∀ e ∈ s.issued, ∀ pair, L.lookup s.cache e.1 = some pair → pair = e.2 := by
  constructor
  · intro hf e he pair hl
    apply hf e he pair
    rw [queryToken_fst e.1 (h.issued e he), hl]
  · intro hf e he pair hq
    apply hf e he pair
    rw [← queryToken_fst e.1 (h.issued e he), hq]

theorem Sized.get_faithful {s s' : Issuing L} {pair : UriOptions} {draws : List Token}
    (h : Sized s) (hf : s.Faithful) (hfresh : s.Fresh (.get pair draws))
    (hs : s.step (.get pair draws) = some s') :
    s'.Faithful ↔ s.FirstTokenFree (.get pair draws) := by
  rw [(h.step hs).faithful_iff]
  rw [h.faithful_iff] at hf
  obtain ⟨⟨token, c'⟩, hr, rfl⟩ := Option.map_eq_some_iff.mp hs
  obtain ⟨hfree, -, hc, hfrom⟩ := getToken_some hr
  subst hc
  have hself : L.lookup (L.insert s.cache token pair) token = some pair :=
    L.lookup_insert_self hfree h.capacity
  have hissued : (∀ e ∈ s.issued, e.1 = token → e.2 = pair) ↔
      s.FirstTokenFree (.get pair draws) := by
    rcases hfrom with rfl | ⟨hmem, hused⟩
    · constructor
      · exact fun hall ↦ Or.inr hall
      · intro hcond
        rcases hcond with hused | hall
        · rw [hfree] at hused
          cases hused
        · exact hall
    · exact iff_of_true (fun e he heq ↦ absurd heq (hfresh token hmem e he)) (Or.inl hused)
  rw [← hissued]
  constructor
  · intro hall e he heq
    have hpair := hall e (List.mem_cons_of_mem _ he) pair (by rw [heq]; exact hself)
    exact hpair.symm
  · intro hall e he p hp
    rcases List.mem_cons.mp he with rfl | he
    · exact Option.some.inj (hp.symm.trans hself)
    · by_cases heq : e.1 = token
      · rw [heq] at hp
        exact (Option.some.inj (hp.symm.trans hself)).trans (hall e he heq).symm
      · rcases L.lookup_insert_of_ne (a := pair) hfree heq with hnone | hsame
        · rw [hnone] at hp
          cases hp
        · exact hf e he p (hsame.symm.trans hp)

theorem Sized.query_faithful {s s' : Issuing L} {token : Token} (h : Sized s) (hf : s.Faithful)
    (hs : s.step (.query token) = some s') : s'.Faithful := by
  rw [(h.step hs).faithful_iff]
  rw [h.faithful_iff] at hf
  cases hs
  intro e he pair hp
  rw [lookup_queryToken] at hp
  exact hf e he pair hp

/-- In a run whose draws are new, tokens keep their pairs exactly as long as no
call issues token 33 again for another pair. -/
theorem faithful_iff_first_token_free {size : ℕ} (hsize : 0 < size) {ops : List TokenOp}
    (hfresh : (machine L size).EveryStep Fresh (machine L size).init ops) :
    (machine L size).EveryState Faithful (machine L size).init ops ↔
      (machine L size).EveryStep FirstTokenFree (machine L size).init ops := by
  refine Machine.everyState_iff_everyStep (I := Sized) (fun s op s' h _ hs ↦ h.step hs) ?_ ?_ ?_
    hfresh
  · intro s op s' h hf hfreshop hs
    cases op with
    | get pair draws => exact h.get_faithful hf hfreshop hs
    | query token => exact iff_of_true (h.query_faithful hf hs) trivial
  · refine ⟨?_, fun e he ↦ absurd he List.not_mem_nil⟩
    change 0 < L.capacity (L.make size)
    rw [L.capacity_make]
    exact hsize
  · exact fun e he ↦ absurd he List.not_mem_nil

def smallMachine : Machine (Issuing (.ofList Token UriOptions)) TokenOp := machine (.ofList _ _) 1

theorem faithful_iff_first_token_free_same_pair :
    ∃ s, smallMachine.run smallMachine.init [.get ("a.tif", []) [], .get ("b.tif", []) [7],
      .get ("a.tif", []) []] = some s ∧ s.issued.map Prod.fst = [33, 7, 33] ∧
    smallMachine.EveryState Faithful smallMachine.init [.get ("a.tif", []) [],
      .get ("b.tif", []) [7], .get ("a.tif", []) []] := by
  refine ⟨_, rfl, by decide, ?_⟩
  have hsize : 0 < 1 := by decide
  apply (faithful_iff_first_token_free hsize ?_).mpr
  all_goals
    apply (Machine.everyStep_cons rfl).mpr
    refine ⟨by decide, (Machine.everyStep_cons rfl).mpr ⟨by decide, ?_⟩⟩
    exact (Machine.everyStep_cons rfl).mpr ⟨by decide, trivial⟩

theorem first_token_reissued_not_faithful :
    smallMachine.EveryStep Fresh smallMachine.init
      [.get ("a.tif", []) [], .get ("b.tif", []) [7], .get ("c.tif", []) []] ∧
    ¬ smallMachine.EveryState Faithful smallMachine.init
      [.get ("a.tif", []) [], .get ("b.tif", []) [7], .get ("c.tif", []) []] := by
  constructor
  · apply (Machine.everyStep_cons rfl).mpr
    refine ⟨by decide, (Machine.everyStep_cons rfl).mpr ⟨by decide, ?_⟩⟩
    exact (Machine.everyStep_cons rfl).mpr ⟨by decide, trivial⟩
  · intro hall
    have hrun : smallMachine.run smallMachine.init [.get ("a.tif", []) [], .get ("b.tif", []) [7],
      .get ("c.tif", []) []] = some _ := rfl
    have hlast := hall.last hrun
    have hpair := hlast (33, ("a.tif", [])) (by decide) ("c.tif", []) (by decide)
    exact absurd hpair (by decide)

end Issuing

end GdalWarp.Bindings
