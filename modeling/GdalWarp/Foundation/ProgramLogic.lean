import GdalWarp.Foundation.LockProgram
import Mathlib.Data.Nat.Notation

namespace GdalWarp.Foundation

namespace Program

section Postcondition

variable {C : Type} {R : C → Type} {ρ ρ' : Type} {ok : ∀ c, R c → Prop}

/-- Whatever happens to the lock, a run with `ok` answers ends with `P` of its
calls and its value. -/
def Ensures (ok : ∀ c, R c → Prop) (p : Program C R ρ) (P : List (Σ c, R c) → ρ → Prop) : Prop :=
  ∀ tr a, p.Runs tr a → (∀ e ∈ tr, ok e.1 e.2) → P tr a

theorem Ensures.mono {p : Program C R ρ} {P Q : List (Σ c, R c) → ρ → Prop}
    (h : p.Ensures ok P) (hPQ : ∀ tr a, P tr a → Q tr a) : p.Ensures ok Q :=
  fun tr a hr hok ↦ hPQ tr a (h tr a hr hok)

@[simp] theorem ensures_ret {a : ρ} {P : List (Σ c, R c) → ρ → Prop} :
    (ret a : Program C R ρ).Ensures ok P ↔ P [] a := by
  constructor
  · exact fun h ↦ h [] a ⟨rfl, rfl⟩ fun _ he ↦ absurd he List.not_mem_nil
  · intro h tr b hr _
    obtain ⟨rfl, rfl⟩ := hr
    exact h

@[simp] theorem ensures_tryLock {k : Bool → Program C R ρ} {P : List (Σ c, R c) → ρ → Prop} :
    (tryLock k).Ensures ok P ↔ (k true).Ensures ok P ∧ (k false).Ensures ok P := by
  constructor
  · exact fun h ↦ ⟨fun tr a hr ↦ h tr a ⟨true, hr⟩, fun tr a hr ↦ h tr a ⟨false, hr⟩⟩
  · intro h tr a hr
    obtain ⟨b, hb⟩ := hr
    cases b
    · exact h.2 tr a hb
    · exact h.1 tr a hb

@[simp] theorem ensures_unlock {k : Program C R ρ} {P : List (Σ c, R c) → ρ → Prop} :
    (unlock k).Ensures ok P ↔ k.Ensures ok P := Iff.rfl

@[simp] theorem ensures_call {c : C} {k : R c → Program C R ρ}
    {P : List (Σ c, R c) → ρ → Prop} : (call c k).Ensures ok P ↔
      ∀ r, ok c r → (k r).Ensures ok fun tr a ↦ P (⟨c, r⟩ :: tr) a := by
  constructor
  · intro h r hok tr a hr hall
    exact h (⟨c, r⟩ :: tr) a ⟨r, tr, rfl, hr⟩ (List.forall_mem_cons.mpr ⟨hok, hall⟩)
  · intro h tr a hr hall
    obtain ⟨r, tr', rfl, hr'⟩ := hr
    obtain ⟨hok, hrest⟩ := List.forall_mem_cons.mp hall
    exact h r hok tr' a hr' hrest

@[simp] theorem ensures_ite {c : Prop} [Decidable c] {p q : Program C R ρ}
    {P : List (Σ c, R c) → ρ → Prop} : (if c then p else q).Ensures ok P ↔
      if c then p.Ensures ok P else q.Ensures ok P := by
  split <;> exact Iff.rfl

theorem Ensures.bind {p : Program C R ρ} {f : ρ → Program C R ρ'}
    {P : List (Σ c, R c) → ρ' → Prop}
    (h : p.Ensures ok fun tr a ↦ (f a).Ensures ok fun tr' b ↦ P (tr ++ tr') b) :
    (p.bind f).Ensures ok P := by
  intro tr b hr hall
  obtain ⟨a, tr₁, tr₂, rfl, hp, hf⟩ := bind_runs.mp hr
  obtain ⟨h₁, h₂⟩ := List.forall_mem_append.mp hall
  exact h tr₁ a hp h₁ tr₂ b hf h₂

end Postcondition

section StepBound

variable {C : Type} {R : C → Type} {ρ ρ' : Type}

/-- Whatever the answers, the program returns after at most so many steps. A call
takes two, one into it and one out of it. -/
def Within : Program C R ρ → ℕ → Prop
  | .ret _, _ => True
  | .tryLock k, m => 1 ≤ m ∧ ∀ b, (k b).Within (m - 1)
  | .unlock k, m => 1 ≤ m ∧ k.Within (m - 1)
  | .call _ k, m => 2 ≤ m ∧ ∀ r, (k r).Within (m - 2)

attribute [simp] Within

theorem Within.mono {p : Program C R ρ} {m m' : ℕ} (h : p.Within m) (hm : m ≤ m') :
    p.Within m' := by
  induction p generalizing m m' with
  | ret a => trivial
  | tryLock k ih => exact ⟨Nat.le_trans h.1 hm, fun b ↦ ih b (h.2 b) (Nat.sub_le_sub_right hm 1)⟩
  | unlock k ih => exact ⟨Nat.le_trans h.1 hm, ih h.2 (Nat.sub_le_sub_right hm 1)⟩
  | call c k ih => exact ⟨Nat.le_trans h.1 hm, fun r ↦ ih r (h.2 r) (Nat.sub_le_sub_right hm 2)⟩

theorem Within.bind {p : Program C R ρ} {m k : ℕ} (hp : p.Within m) {f : ρ → Program C R ρ'}
    (hf : ∀ a, (f a).Within k) : (p.bind f).Within (m + k) := by
  induction p generalizing m with
  | ret a => exact (hf a).mono (Nat.le_add_left k m)
  | tryLock g ih =>
    obtain ⟨hm, hg⟩ := hp
    refine ⟨Nat.le_trans hm (Nat.le_add_right m k), fun b ↦ ?_⟩
    rw [Nat.sub_add_comm hm]
    exact ih b (hg b)
  | unlock g ih =>
    obtain ⟨hm, hg⟩ := hp
    refine ⟨Nat.le_trans hm (Nat.le_add_right m k), ?_⟩
    rw [Nat.sub_add_comm hm]
    exact ih hg
  | call c g ih =>
    obtain ⟨hm, hg⟩ := hp
    refine ⟨Nat.le_trans hm (Nat.le_add_right m k), fun r ↦ ?_⟩
    rw [Nat.sub_add_comm hm]
    exact ih r (hg r)

@[simp] theorem within_ite {c : Prop} [Decidable c] {p q : Program C R ρ} {m : ℕ} :
    (if c then p else q).Within m ↔ if c then p.Within m else q.Within m := by
  split <;> exact Iff.rfl

end StepBound

end Program

section Typestate

/-- Rules for what a program has in its hands: which calls it may make with them, and
what the answers and the release of the lock leave in them. -/
structure Typestate (H C : Type) (R : C → Type) where
  Allows : H → C → Prop
  after : H → ∀ c, R c → H
  released : H → H

variable {H C : Type} {R : C → Type} {ρ ρ' : Type} {T : Typestate H C R}

namespace Program

/-- Whatever is answered and whoever has the lock, the program makes only calls that the
rules allow, and ends with `Q` of its value and its hands. -/
def Obeys (T : Typestate H C R) : Program C R ρ → H → (ρ → H → Prop) → Prop
  | .ret a, h, Q => Q a h
  | .tryLock k, h, Q => (k true).Obeys T h Q ∧ (k false).Obeys T h Q
  | .unlock k, h, Q => k.Obeys T (T.released h) Q
  | .call c k, h, Q => T.Allows h c ∧ ∀ r, (k r).Obeys T (T.after h c r) Q

attribute [simp] Obeys

@[simp] theorem obeys_ite {c : Prop} [Decidable c] {p q : Program C R ρ} {h : H}
    {Q : ρ → H → Prop} :
    (if c then p else q).Obeys T h Q ↔ if c then p.Obeys T h Q else q.Obeys T h Q := by
  split <;> exact Iff.rfl

theorem Obeys.bind {p : Program C R ρ} {f : ρ → Program C R ρ'} {h : H} {Q : ρ → H → Prop}
    {Q' : ρ' → H → Prop} (hp : p.Obeys T h Q) (hf : ∀ a h, Q a h → (f a).Obeys T h Q') :
    (p.bind f).Obeys T h Q' := by
  induction p generalizing h with
  | ret a => exact hf a h hp
  | tryLock k ih => exact ⟨ih true hp.1, ih false hp.2⟩
  | unlock k ih => exact ih hp
  | call c k ih => exact ⟨hp.1, fun r ↦ ih r (hp.2 r)⟩

end Program

def Activity.Obeys (T : Typestate H C R) : Activity C R ρ → H → (ρ → H → Prop) → Prop
  | .idle, _, _ => True
  | .ready p, h, Q => p.Obeys T h Q
  | .inside c k, h, Q => (Program.call c k).Obeys T h Q

end Typestate

section Interaction

inductive Input (ι : Type) where
  | lock (free : Bool)
  | call (i : ι)

namespace Program

variable {C : Type} {R : C → Type} {ρ ι σ : Type}

/-- Run a program against an environment with a state. It is `none` where the
inputs do not fit the program or the environment does not answer. -/
def execute (respond : σ → (c : C) → ι → Option (R c × σ)) :
    Program C R ρ → List (Input ι) → σ → Option (ρ × σ)
  | .ret a, [], s => some (a, s)
  | .tryLock k, .lock free :: is, s => execute respond (k free) is s
  | .unlock k, is, s => execute respond k is s
  | .call c k, .call i :: is, s =>
    (respond s c i).bind fun r ↦ execute respond (k r.1) is r.2
  | _, _, _ => none

variable {respond : σ → (c : C) → ι → Option (R c × σ)} {is : List (Input ι)} {s s' : σ} {a : ρ}

@[simp] theorem execute_ret {b : ρ} :
    (ret b : Program C R ρ).execute respond is s = some (a, s') ↔
      is = [] ∧ b = a ∧ s = s' := by
  cases is with
  | nil => simp [execute]
  | cons i is => simp [execute]

@[simp] theorem execute_tryLock {k : Bool → Program C R ρ} :
    (tryLock k).execute respond is s = some (a, s') ↔
      ∃ free is', is = .lock free :: is' ∧ (k free).execute respond is' s = some (a, s') := by
  constructor
  · intro h
    match is, h with
    | .lock free :: is', h => exact ⟨free, is', rfl, h⟩
  · rintro ⟨free, is', rfl, h⟩
    exact h

@[simp] theorem execute_unlock {k : Program C R ρ} :
    (unlock k).execute respond is s = k.execute respond is s := by
  rw [execute]

@[simp] theorem execute_call {c : C} {k : R c → Program C R ρ} :
    (call c k).execute respond is s = some (a, s') ↔
      ∃ i is' r t, is = .call i :: is' ∧ respond s c i = some (r, t) ∧
        (k r).execute respond is' t = some (a, s') := by
  constructor
  · intro h
    match is, h with
    | .call i :: is', h =>
      obtain ⟨⟨r, t⟩, hr, hk⟩ := Option.bind_eq_some_iff.mp h
      exact ⟨i, is', r, t, rfl, hr, hk⟩
  · rintro ⟨i, is', r, t, rfl, hr, hk⟩
    exact Option.bind_eq_some_iff.mpr ⟨(r, t), hr, hk⟩

@[simp] theorem execute_ite {c : Prop} [Decidable c] {p q : Program C R ρ} :
    (if c then p else q).execute respond is s = some (a, s') ↔
      if c then p.execute respond is s = some (a, s')
      else q.execute respond is s = some (a, s') := by
  split <;> exact Iff.rfl

theorem execute_rel {Q : σ → σ → Prop} (hrefl : ∀ s, Q s s)
    (htrans : ∀ s t u, Q s t → Q t u → Q s u)
    (hstep : ∀ s c i r t, respond s c i = some (r, t) → Q s t) {p : Program C R ρ}
    (h : p.execute respond is s = some (a, s')) : Q s s' := by
  induction p generalizing is s with
  | ret b =>
    obtain ⟨-, -, rfl⟩ := execute_ret.mp h
    exact hrefl s
  | tryLock k ih =>
    obtain ⟨free, is', -, hk⟩ := execute_tryLock.mp h
    exact ih free hk
  | unlock k ih => exact ih (execute_unlock.symm.trans h)
  | call c k ih =>
    obtain ⟨i, is', r, t, -, hr, hk⟩ := execute_call.mp h
    exact htrans s t s' (hstep s c i r t hr) (ih r hk)

end Program

end Interaction

end GdalWarp.Foundation
