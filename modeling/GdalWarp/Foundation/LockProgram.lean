import GdalWarp.Foundation.Machine
import Mathlib.Logic.Function.Basic

namespace GdalWarp.Foundation

/-- A program of one thread: it may try to take the lock of the object it works
on, release it, and make calls `c : C` answered by an `R c`. -/
inductive Program (C : Type) (R : C → Type) (ρ : Type) where
  | ret (a : ρ)
  | tryLock (k : Bool → Program C R ρ)
  | unlock (k : Program C R ρ)
  | call (c : C) (k : R c → Program C R ρ)

namespace Program

variable {C : Type} {R : C → Type} {ρ ρ' : Type}

def bind : Program C R ρ → (ρ → Program C R ρ') → Program C R ρ'
  | .ret a, f => f a
  | .tryLock k, f => .tryLock fun b ↦ (k b).bind f
  | .unlock k, f => .unlock (k.bind f)
  | .call c k, f => .call c fun r ↦ (k r).bind f

instance : Monad (Program C R) where
  pure := .ret
  bind := .bind

def acquire : Program C R Bool := .tryLock .ret

def release : Program C R Unit := .unlock (.ret ())

def perform (c : C) : Program C R (R c) := .call c .ret

theorem pure_eq (a : ρ) : (pure a : Program C R ρ) = .ret a := rfl

theorem bind_eq (p : Program C R ρ) (f : ρ → Program C R ρ') : (p >>= f) = p.bind f := rfl

theorem bind_assoc {ρ'' : Type} (p : Program C R ρ) (f : ρ → Program C R ρ')
    (g : ρ' → Program C R ρ'') : (p.bind f).bind g = p.bind fun a ↦ (f a).bind g := by
  induction p with
  | ret a => rfl
  | tryLock k ih => exact congrArg Program.tryLock (funext ih)
  | unlock k ih => exact congrArg Program.unlock ih
  | call c k ih => exact congrArg (Program.call c) (funext ih)

theorem bind_ite {c : Prop} [Decidable c] (p q : Program C R ρ) (f : ρ → Program C R ρ') :
    (if c then p else q).bind f = if c then p.bind f else q.bind f := by
  split <;> rfl

attribute [simp] bind acquire release perform pure_eq bind_eq bind_ite

/-- Every call that touches the object is made between a successful attempt at
the lock and its release. The flag says whether the program has the lock. -/
def Guarded (touches : C → Bool) : Program C R ρ → Bool → Prop
  | .ret _, _ => True
  | .tryLock k, held => Guarded touches (k true) true ∧ Guarded touches (k false) held
  | .unlock k, held => held = true ∧ Guarded touches k false
  | .call c k, held => (touches c = true → held = true) ∧ ∀ r, Guarded touches (k r) held

/-- The program asks for the lock only when it does not have it, releases it
only when it does, and ends without it. -/
def Balanced : Program C R ρ → Bool → Prop
  | .ret _, held => held = false
  | .tryLock k, held => held = false ∧ Balanced (k true) true ∧ Balanced (k false) false
  | .unlock k, held => held = true ∧ Balanced k false
  | .call _ k, held => ∀ r, Balanced (k r) held

/-- The program can end with `a` after exactly these calls and answers, the
lock being free or not at each attempt. -/
def Runs : Program C R ρ → List (Σ c, R c) → ρ → Prop
  | .ret b, tr, a => tr = [] ∧ a = b
  | .tryLock k, tr, a => ∃ b, (k b).Runs tr a
  | .unlock k, tr, a => k.Runs tr a
  | .call c k, tr, a => ∃ r tr', tr = ⟨c, r⟩ :: tr' ∧ (k r).Runs tr' a

def LockFree : Program C R ρ → Prop
  | .ret _ => True
  | .tryLock _ | .unlock _ => False
  | .call _ k => ∀ r, LockFree (k r)

attribute [simp] Guarded Balanced Runs LockFree

@[simp] theorem guarded_ite {touches : C → Bool} {c : Prop} [Decidable c] {p q : Program C R ρ}
    {held : Bool} : (if c then p else q).Guarded touches held ↔
      if c then p.Guarded touches held else q.Guarded touches held := by
  split <;> exact Iff.rfl

@[simp] theorem balanced_ite {c : Prop} [Decidable c] {p q : Program C R ρ} {held : Bool} :
    (if c then p else q).Balanced held ↔ if c then p.Balanced held else q.Balanced held := by
  split <;> exact Iff.rfl

@[simp] theorem lockFree_ite {c : Prop} [Decidable c] {p q : Program C R ρ} :
    (if c then p else q).LockFree ↔ if c then p.LockFree else q.LockFree := by
  split <;> exact Iff.rfl

@[simp] theorem runs_ite {c : Prop} [Decidable c] {p q : Program C R ρ} {tr : List (Σ c, R c)}
    {a : ρ} : (if c then p else q).Runs tr a ↔ if c then p.Runs tr a else q.Runs tr a := by
  split <;> exact Iff.rfl

theorem Guarded.bind_ret {touches : C → Bool} {p : Program C R ρ} {held : Bool}
    (hp : p.Guarded touches held) (f : ρ → ρ') :
    (p.bind fun a ↦ .ret (f a)).Guarded touches held := by
  induction p generalizing held with
  | ret a => trivial
  | tryLock k ih => exact ⟨ih true hp.1, ih false hp.2⟩
  | unlock k ih => exact ⟨hp.1, ih hp.2⟩
  | call c k ih => exact ⟨hp.1, fun r ↦ ih r (hp.2 r)⟩

theorem Balanced.bind_ret {p : Program C R ρ} {held : Bool} (hp : p.Balanced held) (f : ρ → ρ') :
    (p.bind fun a ↦ .ret (f a)).Balanced held := by
  induction p generalizing held with
  | ret a => exact hp
  | tryLock k ih => exact ⟨hp.1, ih true hp.2.1, ih false hp.2.2⟩
  | unlock k ih => exact ⟨hp.1, ih hp.2⟩
  | call c k ih => exact fun r ↦ ih r (hp r)

theorem LockFree.bind {p : Program C R ρ} (hp : p.LockFree) {f : ρ → Program C R ρ'}
    (hf : ∀ a, (f a).LockFree) : (p.bind f).LockFree := by
  induction p with
  | ret a => exact hf a
  | tryLock k => exact absurd hp id
  | unlock k => exact absurd hp id
  | call c k ih => exact fun r ↦ ih r (hp r)

theorem LockFree.bind_guarded {touches : C → Bool} {p : Program C R ρ} (hp : p.LockFree)
    {f : ρ → Program C R ρ'} (hf : ∀ a, (f a).Guarded touches true) :
    (p.bind f).Guarded touches true := by
  induction p with
  | ret a => exact hf a
  | tryLock k => exact absurd hp id
  | unlock k => exact absurd hp id
  | call c k ih => exact ⟨fun _ ↦ rfl, fun r ↦ ih r (hp r)⟩

theorem LockFree.bind_balanced {p : Program C R ρ} (hp : p.LockFree)
    {f : ρ → Program C R ρ'} {held : Bool} (hf : ∀ a, (f a).Balanced held) :
    (p.bind f).Balanced held := by
  induction p with
  | ret a => exact hf a
  | tryLock k => exact absurd hp id
  | unlock k => exact absurd hp id
  | call c k ih => exact fun r ↦ ih r (hp r)

theorem bind_runs {p : Program C R ρ} {f : ρ → Program C R ρ'} {tr : List (Σ c, R c)} {b : ρ'} :
    (p.bind f).Runs tr b ↔ ∃ a tr₁ tr₂, tr = tr₁ ++ tr₂ ∧ p.Runs tr₁ a ∧ (f a).Runs tr₂ b := by
  induction p generalizing tr with
  | ret a =>
    simp only [bind, Runs]
    constructor
    · exact fun h ↦ ⟨a, [], tr, rfl, ⟨rfl, rfl⟩, h⟩
    · rintro ⟨a', tr₁, tr₂, rfl, ⟨rfl, rfl⟩, h⟩
      exact h
  | tryLock k ih =>
    simp only [bind, Runs, ih]
    constructor
    · rintro ⟨x, a, tr₁, tr₂, h, hk, hf⟩
      exact ⟨a, tr₁, tr₂, h, ⟨x, hk⟩, hf⟩
    · rintro ⟨a, tr₁, tr₂, h, ⟨x, hk⟩, hf⟩
      exact ⟨x, a, tr₁, tr₂, h, hk, hf⟩
  | unlock k ih => simpa only [bind, Runs] using ih
  | call c k ih =>
    simp only [bind, Runs, ih]
    constructor
    · rintro ⟨r, _, rfl, a, tr₁, tr₂, rfl, hk, hf⟩
      exact ⟨a, ⟨c, r⟩ :: tr₁, tr₂, rfl, ⟨r, tr₁, rfl, hk⟩, hf⟩
    · rintro ⟨a, _, tr₂, rfl, ⟨r, tr₁, rfl, hk⟩, hf⟩
      exact ⟨r, tr₁ ++ tr₂, rfl, a, tr₁, tr₂, rfl, hk, hf⟩

end Program

/-- What a thread is doing: nothing, about to take the next step of its
program, or inside a call. -/
inductive Activity (C : Type) (R : C → Type) (ρ : Type) where
  | idle
  | ready (p : Program C R ρ)
  | inside (c : C) (k : R c → Program C R ρ)

def Activity.Balanced : Activity C R ρ → Bool → Prop
  | .idle, held => held = false
  | .ready p, held => p.Balanced held
  | .inside c k, held => (Program.call c k).Balanced held

structure Shared (τ C : Type) (R : C → Type) (ρ : Type) where
  owner : Option τ
  threads : τ → Activity C R ρ

/-- A thread starts a program of the menu, takes its next step, or comes back
from a call. The answers to all calls are the environment's. -/
inductive SharedEvent (τ ι C : Type) (R : C → Type) where
  | start (t : τ) (i : ι)
  | advance (t : τ)
  | answer (t : τ) (reply : ∀ c, R c)

namespace Shared

variable {τ ι C : Type} {R : C → Type} {ρ : Type}

def Touching (touches : C → Bool) (s : Shared τ C R ρ) (t : τ) : Prop :=
  ∃ c k, s.threads t = .inside c k ∧ touches c = true

def Sound (touches : C → Bool) (owner : Option τ) (t : τ) : Activity C R ρ → Prop
  | .idle => True
  | .ready p => ∃ held, p.Guarded touches held ∧ (held = true → owner = some t)
  | .inside c k => ∃ held, (Program.call c k).Guarded touches held ∧ (held = true → owner = some t)

theorem Sound.owner_change {touches : C → Bool} {o o' : Option τ} {t : τ} {a : Activity C R ρ}
    (h : Sound touches o t a) (ho : o = some t → o' = some t) : Sound touches o' t a := by
  cases a with
  | idle => trivial
  | ready p =>
    obtain ⟨held, hg, hh⟩ := h
    exact ⟨held, hg, fun hx ↦ ho (hh hx)⟩
  | inside c k =>
    obtain ⟨held, hg, hh⟩ := h
    exact ⟨held, hg, fun hx ↦ ho (hh hx)⟩

theorem Touching.owner {touches : C → Bool} {s : Shared τ C R ρ} {t : τ}
    (ht : Touching touches s t) (h : Sound touches s.owner t (s.threads t)) :
    s.owner = some t := by
  obtain ⟨c, k, hc, hx⟩ := ht
  rw [hc] at h
  obtain ⟨held, hg, hown⟩ := h
  exact hown (hg.1 hx)

theorem Touching.unique {touches : C → Bool} {s : Shared τ C R ρ} {t u : τ}
    (h : ∀ v, Sound touches s.owner v (s.threads v))
    (ht : Touching touches s t) (hu : Touching touches s u) : t = u :=
  Option.some.inj ((ht.owner (h t)).symm.trans (hu.owner (h u)))

variable [DecidableEq τ]

def set (s : Shared τ C R ρ) (t : τ) (a : Activity C R ρ) : Shared τ C R ρ :=
  { s with threads := Function.update s.threads t a }

def advance (s : Shared τ C R ρ) (t : τ) : Program C R ρ → Shared τ C R ρ
  | .ret _ => s.set t .idle
  | .tryLock k =>
    if s.owner = none then { s.set t (.ready (k true)) with owner := some t }
    else s.set t (.ready (k false))
  | .unlock k =>
    if s.owner = some t then { s.set t (.ready k) with owner := none }
    else s.set t (.ready k)
  | .call c k => s.set t (.inside c k)

def step (menu : ι → Program C R ρ) (s : Shared τ C R ρ) :
    SharedEvent τ ι C R → Option (Shared τ C R ρ)
  | .start t i =>
    match s.threads t with
    | .idle => some (s.set t (.ready (menu i)))
    | _ => none
  | .advance t =>
    match s.threads t with
    | .ready p => some (s.advance t p)
    | _ => none
  | .answer t reply =>
    match s.threads t with
    | .inside c k => some (s.set t (.ready (k (reply c))))
    | _ => none

def machine (τ : Type) [DecidableEq τ] (menu : ι → Program C R ρ) :
    Machine (Shared τ C R ρ) (SharedEvent τ ι C R) where
  init := ⟨none, fun _ ↦ .idle⟩
  step := step menu

theorem sound_set {touches : C → Bool} {s : Shared τ C R ρ} {o : Option τ} {t : τ}
    {a : Activity C R ρ} (h : ∀ u, Sound touches s.owner u (s.threads u))
    (ha : Sound touches o t a) (ho : ∀ u, u ≠ t → s.owner = some u → o = some u) :
    ∀ u, Sound touches o u (Function.update s.threads t a u) := by
  intro u
  by_cases hu : u = t
  · subst hu
    simpa only [Function.update_self] using ha
  · rw [Function.update_of_ne hu]
    exact (h u).owner_change (ho u hu)

theorem advance_sound {touches : C → Bool} {s : Shared τ C R ρ} {t : τ} {p : Program C R ρ}
    (h : ∀ u, Sound touches s.owner u (s.threads u)) (hp : s.threads t = .ready p) :
    ∀ u, Sound touches (s.advance t p).owner u ((s.advance t p).threads u) := by
  have hsound := h t
  rw [hp] at hsound
  obtain ⟨held, hg, hown⟩ := hsound
  cases p with
  | ret a => exact sound_set h trivial fun _ _ ho ↦ ho
  | tryLock k =>
    by_cases hfree : s.owner = none
    · simp only [advance, hfree, if_true, set]
      exact sound_set h ⟨true, hg.1, fun _ ↦ rfl⟩ fun u _ ho ↦ by simp [hfree] at ho
    · simp only [advance, hfree, if_false, set]
      exact sound_set h ⟨held, hg.2, hown⟩ fun _ _ ho ↦ ho
  | unlock k =>
    have hmine : s.owner = some t := hown hg.1
    simp only [advance, hmine, if_true, set]
    refine sound_set h ⟨false, hg.2, by simp⟩ fun u hu ho ↦ ?_
    rw [hmine] at ho
    exact absurd (Option.some.inj ho).symm hu
  | call c k => exact sound_set h ⟨held, hg, hown⟩ fun _ _ ho ↦ ho

theorem step_sound {touches : C → Bool} {menu : ι → Program C R ρ} {s s' : Shared τ C R ρ}
    {e : SharedEvent τ ι C R} (h : ∀ u, Sound touches s.owner u (s.threads u))
    (hstart : ∀ t i, e = .start t i → (menu i).Guarded touches false)
    (hs : step menu s e = some s') : ∀ u, Sound touches s'.owner u (s'.threads u) := by
  cases e with
  | start t i =>
    simp only [step] at hs
    split at hs
    · cases hs
      exact sound_set h ⟨false, hstart t i rfl, by simp⟩ fun _ _ ho ↦ ho
    · cases hs
  | advance t =>
    simp only [step] at hs
    split at hs
    case h_1 p hp =>
      cases hs
      exact advance_sound h hp
    case h_2 => cases hs
  | answer t reply =>
    simp only [step] at hs
    split at hs
    case h_1 c k hp =>
      cases hs
      have hsound := h t
      rw [hp] at hsound
      obtain ⟨held, hg, hown⟩ := hsound
      exact sound_set h ⟨held, hg.2 _, hown⟩ fun _ _ ho ↦ ho
    case h_2 => cases hs

end Shared

end GdalWarp.Foundation
