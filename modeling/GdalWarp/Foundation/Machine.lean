import Mathlib.Data.Nat.Notation
import Mathlib.Logic.Basic

namespace GdalWarp.Foundation

/-- A machine over labelled events. An event carries every choice its
environment makes, so `step` is a function; it is `none` where the event
cannot happen. -/
structure Machine (σ ε : Type) where
  init : σ
  step : σ → ε → Option σ

namespace Machine

variable {σ ε : Type} (M : Machine σ ε)

def run : σ → List ε → Option σ
  | s, [] => some s
  | s, e :: es => (M.step s e).bind fun s' ↦ run s' es

def Reachable (s : σ) : Prop := ∃ es, M.run M.init es = some s

def EveryState (P : σ → Prop) : σ → List ε → Prop
  | s, [] => P s
  | s, e :: es => P s ∧ ∀ s', M.step s e = some s' → EveryState P s' es

/-- `C` holds of every step a run takes, with the state before it. -/
def EveryStep (C : σ → ε → Prop) : σ → List ε → Prop
  | _, [] => True
  | s, e :: es => ∀ s', M.step s e = some s' → C s e ∧ EveryStep C s' es

variable {M}

theorem run_cons {s s' : σ} {e : ε} {es : List ε} :
    M.run s (e :: es) = some s' ↔ ∃ t, M.step s e = some t ∧ M.run t es = some s' := by
  simp only [run, Option.bind_eq_some_iff]

theorem run_append (s : σ) (es es' : List ε) :
    M.run s (es ++ es') = (M.run s es).bind fun t ↦ M.run t es' := by
  induction es generalizing s with
  | nil => rfl
  | cons e es ih =>
    rw [List.cons_append, run, run, Option.bind_assoc]
    exact Option.bind_congr fun t _ ↦ ih t

theorem run_trans {s t u : σ} {es es' : List ε} (h : M.run s es = some t)
    (h' : M.run t es' = some u) : M.run s (es ++ es') = some u := by
  rw [run_append, h]
  exact h'

theorem Reachable.start : M.Reachable M.init := ⟨[], rfl⟩

theorem Reachable.step {s s' : σ} {e : ε} (h : M.Reachable s) (hstep : M.step s e = some s') :
    M.Reachable s' := by
  obtain ⟨es, hes⟩ := h
  refine ⟨es ++ [e], ?_⟩
  rw [run_append, hes, Option.bind_some]
  exact run_cons.mpr ⟨s', hstep, rfl⟩

theorem run_invariant {I : σ → Prop}
    (hI : ∀ s e s', I s → M.step s e = some s' → I s') {s s' : σ} {es : List ε}
    (hs : I s) (h : M.run s es = some s') : I s' := by
  induction es generalizing s with
  | nil => exact Option.some.inj h ▸ hs
  | cons e es ih =>
    obtain ⟨t, ht, htail⟩ := run_cons.mp h
    exact ih (hI s e t hs ht) htail

theorem Reachable.invariant {I : σ → Prop} (h0 : I M.init)
    (hI : ∀ s e s', I s → M.step s e = some s' → I s') {s : σ} (h : M.Reachable s) : I s :=
  let ⟨_, hes⟩ := h
  run_invariant hI h0 hes

theorem everyStep_cons {C : σ → ε → Prop} {s s' : σ} {e : ε} {es : List ε}
    (h : M.step s e = some s') :
    M.EveryStep C s (e :: es) ↔ C s e ∧ M.EveryStep C s' es := by
  simp only [EveryStep, h, Option.some.injEq, forall_eq']

theorem EveryStep.cons {C : σ → ε → Prop} {s s' : σ} {e : ε} {es : List ε}
    (h : M.step s e = some s') (hc : C s e) (htail : M.EveryStep C s' es) :
    M.EveryStep C s (e :: es) :=
  (everyStep_cons h).mpr ⟨hc, htail⟩

theorem EveryStep.mono {C D : σ → ε → Prop} (hCD : ∀ s e, C s e → D s e) {s : σ} {es : List ε}
    (h : M.EveryStep C s es) : M.EveryStep D s es := by
  induction es generalizing s with
  | nil => trivial
  | cons e es ih =>
    intro s' hstep
    obtain ⟨hc, htail⟩ := h s' hstep
    exact ⟨hCD s e hc, ih htail⟩

theorem EveryStep.and {C D : σ → ε → Prop} {s : σ} {es : List ε} (h : M.EveryStep C s es)
    (h' : M.EveryStep D s es) : M.EveryStep (fun s e ↦ C s e ∧ D s e) s es := by
  induction es generalizing s with
  | nil => trivial
  | cons e es ih =>
    intro s' hstep
    obtain ⟨hc, htail⟩ := h s' hstep
    obtain ⟨hd, htail'⟩ := h' s' hstep
    exact ⟨⟨hc, hd⟩, ih htail htail'⟩

theorem EveryStep.of_forall {C : σ → ε → Prop} (hC : ∀ s e, C s e) (s : σ) (es : List ε) :
    M.EveryStep C s es := by
  induction es generalizing s with
  | nil => trivial
  | cons e es ih => exact fun s' _ ↦ ⟨hC s e, ih s'⟩

theorem EveryState.of_forall {P : σ → Prop} (hP : ∀ s, P s) (s : σ) (es : List ε) :
    M.EveryState P s es := by
  induction es generalizing s with
  | nil => exact hP s
  | cons e es ih => exact ⟨hP s, fun s' _ ↦ ih s'⟩

theorem EveryState.mono {P Q : σ → Prop} (hPQ : ∀ s, P s → Q s) {s : σ} {es : List ε}
    (h : M.EveryState P s es) : M.EveryState Q s es := by
  induction es generalizing s with
  | nil => exact hPQ s h
  | cons e es ih => exact ⟨hPQ s h.1, fun s' hstep ↦ ih (h.2 s' hstep)⟩

theorem EveryState.head {P : σ → Prop} {s : σ} {es : List ε} (h : M.EveryState P s es) : P s := by
  cases es with
  | nil => exact h
  | cons e es => exact h.1

theorem EveryState.last {P : σ → Prop} {s s' : σ} {es : List ε} (h : M.EveryState P s es)
    (hr : M.run s es = some s') : P s' := by
  induction es generalizing s with
  | nil => exact Option.some.inj hr ▸ h
  | cons e es ih =>
    obtain ⟨t, ht, htail⟩ := run_cons.mp hr
    exact ih (h.2 t ht) htail

theorem EveryState.everyStep {P : σ → Prop} {s : σ} {es : List ε} (h : M.EveryState P s es) :
    M.EveryStep (fun s e ↦ ∀ s', M.step s e = some s' → P s') s es := by
  induction es generalizing s with
  | nil => trivial
  | cons e es ih => exact fun s' hstep ↦ ⟨fun t ht ↦ (h.2 t ht).head, ih (h.2 s' hstep)⟩

theorem EveryStep.everyState {I P : σ → Prop} {C : σ → ε → Prop}
    (hI : ∀ s e s', I s → C s e → M.step s e = some s' → I s') (hP : ∀ s, I s → P s)
    {s : σ} {es : List ε} (hs : I s) (h : M.EveryStep C s es) : M.EveryState P s es := by
  induction es generalizing s with
  | nil => exact hP s hs
  | cons e es ih =>
    refine ⟨hP s hs, fun s' hstep ↦ ?_⟩
    obtain ⟨hc, htail⟩ := h s' hstep
    exact ih (hI s e s' hs hc hstep) htail

/-- When a step keeps `P` exactly if it meets `C`, a run stays inside `P`
exactly if all its steps meet `C`. Both may assume `F` of every step. -/
theorem everyState_iff_everyStep {I P : σ → Prop} {F C : σ → ε → Prop}
    (hI : ∀ s e s', I s → F s e → M.step s e = some s' → I s')
    (hC : ∀ s e s', I s → P s → F s e → M.step s e = some s' → (P s' ↔ C s e))
    {s : σ} {es : List ε} (hs : I s) (hp : P s) (hF : M.EveryStep F s es) :
    M.EveryState P s es ↔ M.EveryStep C s es := by
  induction es generalizing s with
  | nil => exact ⟨fun _ ↦ trivial, fun _ ↦ hp⟩
  | cons e es ih =>
    constructor
    · intro h s' hstep
      obtain ⟨hf, hFtail⟩ := hF s' hstep
      have hp' : P s' := (h.2 s' hstep).head
      exact ⟨(hC s e s' hs hp hf hstep).mp hp',
        (ih (hI s e s' hs hf hstep) hp' hFtail).mp (h.2 s' hstep)⟩
    · intro h
      refine ⟨hp, fun s' hstep ↦ ?_⟩
      obtain ⟨hf, hFtail⟩ := hF s' hstep
      obtain ⟨hc, htail⟩ := h s' hstep
      exact (ih (hI s e s' hs hf hstep) ((hC s e s' hs hp hf hstep).mpr hc) hFtail).mpr htail

theorem everyState_iff_of_invariant {I P : σ → Prop} {C : σ → ε → Prop}
    (hI : ∀ s e s', I s → M.step s e = some s' → I s')
    (hC : ∀ s e s', I s → P s → M.step s e = some s' → (P s' ↔ C s e))
    {s : σ} {es : List ε} (hs : I s) (hp : P s) : M.EveryState P s es ↔ M.EveryStep C s es :=
  everyState_iff_everyStep (fun s e s' h _ hstep ↦ hI s e s' h hstep)
    (fun s e s' h hp _ hstep ↦ hC s e s' h hp hstep) hs hp
    (EveryStep.of_forall (fun _ _ ↦ trivial) s es)

theorem countP_le {σ ε : Type} {M : Machine σ ε} {p : ε → Bool} {C : ε → Prop}
    {I : σ → ℕ → Prop}
    (hdown : ∀ s e s' m, I s m → C e → p e = true → M.step s e = some s' → ∃ k < m, I s' k)
    (hkeep : ∀ s e s' m, I s m → C e → p e = false → M.step s e = some s' → I s' m)
    {s s' : σ} {es : List ε} {m : ℕ} (hs : I s m) (hC : ∀ e ∈ es, C e)
    (hrun : M.run s es = some s') : es.countP p ≤ m := by
  induction es generalizing s m with
  | nil => exact Nat.zero_le m
  | cons e es ih =>
    obtain ⟨t, ht, htail⟩ := run_cons.mp hrun
    obtain ⟨he, hC⟩ := List.forall_mem_cons.mp hC
    cases hp : p e with
    | true =>
      obtain ⟨k, hk, hI⟩ := hdown s e t m hs he hp ht
      have hrest : es.countP p ≤ k := ih hI hC htail
      rw [List.countP_cons_of_pos hp]
      omega
    | false =>
      rw [List.countP_cons_of_neg (by simp [hp])]
      exact ih (hkeep s e t m hs he hp ht) hC htail

section Record

variable {ρ : Type} (M) (observe : ρ → σ → ε → σ → ρ)

/-- What an observer has written down by the end of a run. It sees each event and the
states before and after it, and it changes nothing. -/
def record : σ → ρ → List ε → ρ
  | _, r, [] => r
  | s, r, e :: es =>
    match M.step s e with
    | some s' => record s' (observe r s e s') es
    | none => r

variable {M observe}

theorem record_cons {s s' : σ} {e : ε} (h : M.step s e = some s') (r : ρ) (es : List ε) :
    M.record observe s r (e :: es) = M.record observe s' (observe r s e s') es := by
  rw [record, h]

/-- What the steps that meet `C` preserve between the state and the record, a run of such
steps preserves. -/
theorem run_record_of {I : σ → ρ → Prop} {C : σ → ε → Prop}
    (hI : ∀ s e s' r, I s r → C s e → M.step s e = some s' → I s' (observe r s e s'))
    {s s' : σ} {r : ρ} {es : List ε} (hs : I s r) (hC : M.EveryStep C s es)
    (h : M.run s es = some s') : I s' (M.record observe s r es) := by
  induction es generalizing s r with
  | nil =>
    cases h
    exact hs
  | cons e es ih =>
    obtain ⟨t, ht, htail⟩ := run_cons.mp h
    obtain ⟨hc, hCtail⟩ := hC t ht
    rw [record_cons ht]
    exact ih (hI s e t r hs hc ht) hCtail htail

theorem run_record {I : σ → ρ → Prop}
    (hI : ∀ s e s' r, I s r → M.step s e = some s' → I s' (observe r s e s')) {s s' : σ} {r : ρ}
    {es : List ε} (hs : I s r) (h : M.run s es = some s') : I s' (M.record observe s r es) :=
  run_record_of (C := fun _ _ ↦ True) (fun s e s' r hs _ hstep ↦ hI s e s' r hs hstep) hs
    (EveryStep.of_forall (fun _ _ ↦ trivial) s es) h

end Record

section Simulation

variable {σ' ε' : Type} {M' : Machine σ' ε'} {C : σ → ε → Prop}
  {D : ε' → Prop} {I : σ → σ' → Prop}

/-- `M'` keeps up with every step of `M` that meets `C`, in as many steps as it takes, all
of them by events `D`. -/
structure Simulates (M : Machine σ ε) (M' : Machine σ' ε') (C : σ → ε → Prop) (D : ε' → Prop)
    (I : σ → σ' → Prop) : Prop where
  init : I M.init M'.init
  step : ∀ s e s' u, I s u → C s e → M.step s e = some s' →
    ∃ es u', (∀ e' ∈ es, D e') ∧ M'.run u es = some u' ∧ I s' u'

theorem Simulates.run_from (h : Simulates M M' C D I) {s s' : σ} {u : σ'} {es : List ε}
    (hs : I s u) (hC : M.EveryStep C s es) (hrun : M.run s es = some s') :
    ∃ es' u', (∀ e' ∈ es', D e') ∧ M'.run u es' = some u' ∧ I s' u' := by
  induction es generalizing s u with
  | nil =>
    cases hrun
    exact ⟨[], u, fun _ he ↦ absurd he List.not_mem_nil, rfl, hs⟩
  | cons e es ih =>
    obtain ⟨t, ht, htail⟩ := run_cons.mp hrun
    obtain ⟨hc, hCtail⟩ := hC t ht
    obtain ⟨es₁, v, hD₁, hv, hst⟩ := h.step s e t u hs hc ht
    obtain ⟨es₂, u', hD₂, hu', hs'⟩ := ih hst hCtail htail
    exact ⟨es₁ ++ es₂, u', List.forall_mem_append.mpr ⟨hD₁, hD₂⟩, run_trans hv hu', hs'⟩

theorem Simulates.run (h : Simulates M M' C D I) {s : σ} {es : List ε}
    (hC : M.EveryStep C M.init es) (hrun : M.run M.init es = some s) :
    ∃ es' u, (∀ e' ∈ es', D e') ∧ M'.run M'.init es' = some u ∧ I s u :=
  h.run_from h.init hC hrun

/-- `M'` takes every step of `M` by the same event. -/
structure Lockstep (M : Machine σ ε) (M' : Machine σ' ε) (I : σ → σ' → Prop) : Prop where
  init : I M.init M'.init
  step : ∀ s e s' u, I s u → M.step s e = some s' → ∃ u', M'.step u e = some u' ∧ I s' u'

theorem Lockstep.run_from {M' : Machine σ' ε} (h : Lockstep M M' I) {s s' : σ} {u : σ'}
    {es : List ε} (hs : I s u) (hrun : M.run s es = some s') :
    ∃ u', M'.run u es = some u' ∧ I s' u' := by
  induction es generalizing s u with
  | nil =>
    cases hrun
    exact ⟨u, rfl, hs⟩
  | cons e es ih =>
    obtain ⟨t, ht, htail⟩ := run_cons.mp hrun
    obtain ⟨v, hv, hst⟩ := h.step s e t u hs ht
    obtain ⟨u', hu', hs'⟩ := ih hst htail
    exact ⟨u', run_cons.mpr ⟨v, hv, hu'⟩, hs'⟩

theorem Lockstep.run {M' : Machine σ' ε} (h : Lockstep M M' I) {s : σ} {es : List ε}
    (hrun : M.run M.init es = some s) : ∃ u, M'.run M'.init es = some u ∧ I s u :=
  h.run_from h.init hrun

end Simulation

end Machine

theorem foldlM_invariant {σ α : Type} {f : σ → α → Option σ} {I : σ → Prop}
    (hI : ∀ s a s', I s → f s a = some s' → I s') {l : List α} {s s' : σ} (hs : I s)
    (h : l.foldlM f s = some s') : I s' := by
  induction l generalizing s with
  | nil => exact Option.some.inj h ▸ hs
  | cons a l ih =>
    rw [List.foldlM_cons, Option.bind_eq_bind, Option.bind_eq_some_iff] at h
    obtain ⟨t, ht, htail⟩ := h
    exact ih (hI s a t hs ht) htail

end GdalWarp.Foundation
