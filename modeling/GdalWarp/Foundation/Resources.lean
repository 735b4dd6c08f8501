import Mathlib.Data.Multiset.AddSub
import Mathlib.Data.Multiset.Count

namespace GdalWarp.Foundation

inductive ResourceEvent (ρ : Type) where
  | acquire (r : ρ)
  | release (r : ρ)
  deriving DecidableEq

namespace ResourceEvent

variable {ρ : Type} [DecidableEq ρ]

/-- Every resource has been released as often as it has been acquired, and at no
time more often. -/
def Matched (tr : List (ResourceEvent ρ)) : Prop :=
  ∀ r, (∀ before, before <+: tr → before.count (release r) ≤ before.count (acquire r)) ∧
    tr.count (release r) = tr.count (acquire r)

/-- What is held after some events; `none` when one releases what is not held. -/
def ledger : Multiset ρ → List (ResourceEvent ρ) → Option (Multiset ρ)
  | held, [] => some held
  | held, acquire r :: tr => ledger (r ::ₘ held) tr
  | held, release r :: tr => if r ∈ held then ledger (held.erase r) tr else none

theorem ledger_append (held : Multiset ρ) (tr tr' : List (ResourceEvent ρ)) :
    ledger held (tr ++ tr') = (ledger held tr).bind fun held ↦ ledger held tr' := by
  fun_induction ledger held tr with
  | case1 held => rfl
  | case2 held r tr ih => exact ih
  | case3 held r tr h ih => exact (if_pos h).trans ih
  | case4 held r tr h => exact if_neg h

theorem forall_prefix_cons_iff {α : Type} {P : List α → Prop} {a : α} {l : List α} :
    (∀ before, before <+: a :: l → P before) ↔ P [] ∧ ∀ before, before <+: l → P (a :: before) := by
  constructor
  · exact fun h ↦ ⟨h [] List.nil_prefix, fun before hx ↦ h _ (List.prefix_cons_inj a |>.mpr hx)⟩
  · rintro ⟨hnil, hcons⟩ before hx
    rcases List.prefix_cons_iff.mp hx with rfl | ⟨t, rfl, ht⟩
    · exact hnil
    · exact hcons t ht

/-- The ledger is in order exactly if every resource, seen alone, is. -/
theorem ledger_eq_some_iff {held final : Multiset ρ} {tr : List (ResourceEvent ρ)} :
    ledger held tr = some final ↔
      ∀ r, (∀ before, before <+: tr →
          before.count (release r) ≤ held.count r + before.count (acquire r)) ∧
        final.count r + tr.count (release r) = held.count r + tr.count (acquire r) := by
  induction tr generalizing held with
  | nil =>
    simp [ledger, Multiset.ext, eq_comm]
  | cons e tr ih =>
    simp only [forall_prefix_cons_iff, List.count_nil, Nat.zero_le, true_and]
    cases e with
    | acquire r' =>
      rw [ledger, ih]
      refine forall_congr' fun r ↦ ?_
      simp only [List.count_cons, Multiset.count_cons, beq_iff_eq, acquire.injEq, reduceCtorEq,
        if_false, Nat.add_zero, eq_comm (a := r'), Nat.add_assoc, Nat.add_comm (if _ then 1 else 0)]
    | release r' =>
      have hcount (r : ρ) (l : List (ResourceEvent ρ)) : (release r' :: l).count (release r) =
          l.count (release r) + if r = r' then 1 else 0 := by
        simp only [List.count_cons, beq_iff_eq, release.injEq, eq_comm (a := r')]
      have hother (r : ρ) (l : List (ResourceEvent ρ)) :
          (release r' :: l).count (acquire r) = l.count (acquire r) :=
        List.count_cons_of_ne (show release r' ≠ acquire r from nofun)
      simp only [ledger, hcount, hother]
      by_cases hheld : r' ∈ held
      · obtain ⟨rest, rfl⟩ := Multiset.exists_cons_of_mem hheld
        rw [if_pos hheld, Multiset.erase_cons_head, ih]
        refine forall_congr' fun r ↦ ?_
        rw [Multiset.count_cons]
        refine and_congr (forall_congr' fun before ↦ imp_congr_right fun _ ↦ ?_) ?_ <;> omega
      · rw [if_neg hheld]
        refine iff_of_false nofun fun h ↦ ?_
        have hfirst := (h r').1 [] List.nil_prefix
        simp [Multiset.count_eq_zero_of_notMem hheld] at hfirst

theorem matched_iff_ledger {tr : List (ResourceEvent ρ)} : Matched tr ↔ ledger 0 tr = some 0 := by
  simp only [Matched, ledger_eq_some_iff, Multiset.count_zero, Nat.zero_add]

end ResourceEvent

open ResourceEvent

/-- A computation that may not return, with what it does to the resources and its
value. -/
structure Traced (ρ α : Type) where
  run : Option (List (ResourceEvent ρ) × α)

namespace Traced

variable {ρ α β : Type}

def bind (x : Traced ρ α) (f : α → Traced ρ β) : Traced ρ β :=
  ⟨x.run.bind fun done ↦ (f done.2).run.map fun rest ↦ (done.1 ++ rest.1, rest.2)⟩

instance : Monad (Traced ρ) where
  pure a := ⟨some ([], a)⟩
  bind := bind

def lift (x : Option α) : Traced ρ α := ⟨x.map fun a ↦ ([], a)⟩

def acquire (r : ρ) : Traced ρ Unit := ⟨some ([.acquire r], ())⟩

def release (r : ρ) : Traced ρ Unit := ⟨some ([.release r], ())⟩

def acquireAll : List ρ → Traced ρ Unit
  | [] => pure ()
  | r :: rs => do
    acquire r
    acquireAll rs

def releaseAll : List ρ → Traced ρ Unit
  | [] => pure ()
  | r :: rs => do
    release r
    releaseAll rs

def trace (x : Traced ρ α) : Option (List (ResourceEvent ρ)) := x.run.map Prod.fst

def result (x : Traced ρ α) : Option α := x.run.map Prod.snd

section Result

@[simp] theorem result_pure (a : α) : (pure a : Traced ρ α).result = some a := rfl

@[simp] theorem result_bind (x : Traced ρ α) (f : α → Traced ρ β) :
    (x >>= f).result = x.result.bind fun a ↦ (f a).result := by
  obtain ⟨run⟩ := x
  cases run with
  | none => rfl
  | some done => exact Option.map_map ..

@[simp] theorem result_lift (x : Option α) : (lift x : Traced ρ α).result = x := by
  cases x <;> rfl

@[simp] theorem result_acquire (r : ρ) : (acquire r).result = some () := rfl

@[simp] theorem result_release (r : ρ) : (release r).result = some () := rfl

@[simp] theorem result_acquireAll (rs : List ρ) : (acquireAll rs).result = some () := by
  induction rs with
  | nil => rfl
  | cons r rs ih => simp [acquireAll, ih]

@[simp] theorem result_releaseAll (rs : List ρ) : (releaseAll rs).result = some () := by
  induction rs with
  | nil => rfl
  | cons r rs ih => simp [releaseAll, ih]

end Result

variable [DecidableEq ρ]

/-- When it returns, `final` is held where `held` was held before. -/
def Leaves (x : Traced ρ α) (held final : Multiset ρ) : Prop :=
  ∀ tr a, x.run = some (tr, a) → ledger held tr = some final

theorem Leaves.matched_iff {x : Traced ρ α} {final : Multiset ρ} (h : x.Leaves 0 final)
    {tr : List (ResourceEvent ρ)} (htr : x.trace = some tr) : Matched tr ↔ final = 0 := by
  obtain ⟨⟨_, a⟩, hrun, rfl⟩ := Option.map_eq_some_iff.mp htr
  rw [matched_iff_ledger, h _ a hrun, Option.some.injEq]

variable {held mid final rest : Multiset ρ}

theorem leaves_pure (a : α) (held : Multiset ρ) : (pure a : Traced ρ α).Leaves held held := by
  rintro tr b heq
  cases heq
  rfl

theorem leaves_bind {x : Traced ρ α} {f : α → Traced ρ β} (hx : x.Leaves held mid)
    (hf : ∀ a, x.result = some a → (f a).Leaves mid final) : (x >>= f).Leaves held final := by
  rintro tr b heq
  obtain ⟨⟨tr₁, a⟩, hfirst, hrest⟩ := Option.bind_eq_some_iff.mp heq
  obtain ⟨⟨tr₂, b'⟩, hsecond, hwhole⟩ := Option.map_eq_some_iff.mp hrest
  cases hwhole
  have hresult : x.result = some a := congrArg (Option.map Prod.snd) hfirst
  rw [ledger_append, hx tr₁ a hfirst, Option.bind_some, hf a hresult tr₂ b' hsecond]

theorem leaves_lift {x : Option α} {f : α → Traced ρ β}
    (h : ∀ a, x = some a → (f a).Leaves held final) : (lift x >>= f).Leaves held final := by
  have hx : (lift x : Traced ρ α).Leaves held held := by
    rintro tr a heq
    obtain ⟨a', -, heq⟩ := Option.map_eq_some_iff.mp heq
    cases heq
    rfl
  exact leaves_bind hx fun a ha ↦ h a ((result_lift x).symm.trans ha)

theorem leaves_acquire {r : ρ} {f : Unit → Traced ρ β} (h : (f ()).Leaves (r ::ₘ held) final) :
    (acquire r >>= f).Leaves held final := by
  have hx : (acquire r).Leaves held (r ::ₘ held) := by
    rintro tr a heq
    cases heq
    rfl
  exact leaves_bind hx fun _ _ ↦ h

theorem leaves_release_self (r : ρ) (held : Multiset ρ) : (release r).Leaves (r ::ₘ held) held := by
  rintro tr a heq
  cases heq
  rw [ledger, if_pos (Multiset.mem_cons_self r held), Multiset.erase_cons_head, ledger]

theorem leaves_release {r : ρ} {f : Unit → Traced ρ β} (hheld : held = r ::ₘ rest)
    (h : (f ()).Leaves rest final) : (release r >>= f).Leaves held final := by
  subst hheld
  exact leaves_bind (leaves_release_self r rest) fun _ _ ↦ h

theorem leaves_acquireAll (rs : List ρ) (held : Multiset ρ) :
    (acquireAll rs).Leaves held (rs + held) := by
  induction rs generalizing held with
  | nil =>
    rw [Multiset.coe_nil, Multiset.zero_add]
    exact leaves_pure () held
  | cons r rs ih =>
    have hheld : (rs : Multiset ρ) + r ::ₘ held = ↑(r :: rs) + held := by
      rw [Multiset.add_cons, ← Multiset.cons_coe, Multiset.cons_add]
    exact leaves_acquire (hheld ▸ ih (r ::ₘ held))

theorem leaves_releaseAll (rs : List ρ) (held : Multiset ρ) :
    (releaseAll rs).Leaves (rs + held) held := by
  induction rs with
  | nil =>
    rw [Multiset.coe_nil, Multiset.zero_add]
    exact leaves_pure () held
  | cons r rs ih =>
    have hheld : ↑(r :: rs) + held = r ::ₘ (rs + held) := by
      rw [← Multiset.cons_coe, Multiset.cons_add]
    exact leaves_release hheld ih

end Traced

end GdalWarp.Foundation
