import Mathlib.Data.List.Basic

namespace GdalWarp.Foundation

/-- A bounded map. Its entries stand in the order of their last insertion or
fetch, the latest first, and a new entry pushes the last one out of a full map. -/
structure LruMap (κ α : Type) [DecidableEq κ] where
  State : Type
  make : ℕ → State
  contains : State → κ → Bool
  insert : State → κ → α → State
  get : State → κ → Option α × State
  capacity : State → ℕ
  entries : State → List (κ × α)
  capacity_make : ∀ n, capacity (make n) = n
  capacity_insert : ∀ s k a, capacity (insert s k a) = capacity s
  capacity_get : ∀ s k, capacity (get s k).2 = capacity s
  entries_make : ∀ n, entries (make n) = []
  entries_insert : ∀ s k a, contains s k = false →
    entries (insert s k a) = ((k, a) :: entries s).take (capacity s)
  entries_get : ∀ s k a, (entries s).lookup k = some a →
    entries (get s k).2 = (k, a) :: (entries s).filter fun e ↦ decide (e.1 ≠ k)
  entries_get_none : ∀ s k, (entries s).lookup k = none → entries (get s k).2 = entries s
  contains_eq : ∀ s k, contains s k = ((entries s).lookup k).isSome
  get_fst : ∀ s k, (get s k).1 = (entries s).lookup k

namespace LruMap

variable {κ α : Type} [DecidableEq κ]

theorem lookup_take (l : List (κ × α)) (n : ℕ) (k : κ) :
    (l.take n).lookup k = none ∨ (l.take n).lookup k = l.lookup k := by
  conv => rhs; rhs; rw [← List.take_append_drop n l]
  rw [List.lookup_append]
  cases (l.take n).lookup k with
  | none => exact Or.inl rfl
  | some a => exact Or.inr rfl

theorem lookup_filter_ne (l : List (κ × α)) {k k' : κ} (h : k' ≠ k) :
    (l.filter fun e ↦ decide (e.1 ≠ k)).lookup k' = l.lookup k' := by
  induction l with
  | nil => rfl
  | cons e l ih =>
    obtain ⟨k₀, a⟩ := e
    by_cases hk : k₀ = k
    · rw [List.filter_cons_of_neg (by simp [hk]), ih, List.lookup_cons,
        beq_eq_false_iff_ne.mpr (hk ▸ h)]
    · rw [List.filter_cons_of_pos (by simp [hk]), List.lookup_cons, List.lookup_cons, ih]

variable (L : LruMap κ α) (s : L.State)

def lookup (k : κ) : Option α := (L.entries s).lookup k

variable {s}

theorem mem_of_lookup {k : κ} {a : α} (h : L.lookup s k = some a) : (k, a) ∈ L.entries s := by
  obtain ⟨l₁, l₂, hl, -⟩ := List.lookup_eq_some_iff.mp h
  rw [hl]
  exact List.mem_append_right _ List.mem_cons_self

theorem isSome_lookup_iff {k : κ} :
    (L.lookup s k).isSome ↔ k ∈ (L.entries s).map Prod.fst := by
  simp only [lookup, List.lookup_isSome_iff, List.mem_map, beq_iff_eq, @eq_comm κ k]

theorem lookup_insert_self {k : κ} {a : α} (hk : L.contains s k = false)
    (hcap : 0 < L.capacity s) : L.lookup (L.insert s k a) k = some a := by
  obtain ⟨n, hn⟩ := Nat.exists_eq_succ_of_ne_zero (Nat.pos_iff_ne_zero.mp hcap)
  rw [lookup, L.entries_insert s k a hk, hn, List.take_succ_cons, List.lookup_cons_self]

theorem lookup_insert_of_ne {k k' : κ} {a : α} (hk : L.contains s k = false) (hne : k' ≠ k) :
    L.lookup (L.insert s k a) k' = none ∨ L.lookup (L.insert s k a) k' = L.lookup s k' := by
  rw [lookup, L.entries_insert s k a hk]
  have htake := lookup_take ((k, a) :: L.entries s) (L.capacity s) k'
  rwa [List.lookup_cons, beq_eq_false_iff_ne.mpr hne] at htake

variable (s)

theorem lookup_get (k k' : κ) : L.lookup (L.get s k).2 k' = L.lookup s k' := by
  rw [lookup, lookup]
  cases hk : (L.entries s).lookup k with
  | none => rw [L.entries_get_none s k hk]
  | some a =>
    rw [L.entries_get s k a hk, List.lookup_cons]
    by_cases hne : k' = k
    · subst hne
      rw [beq_self_eq_true, hk]
    · rw [beq_eq_false_iff_ne.mpr hne, lookup_filter_ne _ hne]

def ofList (κ α : Type) [DecidableEq κ] : LruMap κ α where
  State := ℕ × List (κ × α)
  make n := (n, [])
  contains s k := (s.2.lookup k).isSome
  insert s k a := if (s.2.lookup k).isSome then s else (s.1, ((k, a) :: s.2).take s.1)
  get s k := (s.2.lookup k, match s.2.lookup k with
    | some a => (s.1, (k, a) :: s.2.filter fun e ↦ decide (e.1 ≠ k))
    | none => s)
  capacity s := s.1
  entries s := s.2
  capacity_make _ := rfl
  capacity_insert s k a := by split <;> rfl
  capacity_get s k := by dsimp only; split <;> rfl
  entries_make _ := rfl
  entries_insert s k a h := by rw [if_neg (by simp [h])]
  entries_get s k a h := by simp [h]
  entries_get_none s k h := by simp [h]
  contains_eq _ _ := rfl
  get_fst _ _ := rfl

end LruMap

end GdalWarp.Foundation
