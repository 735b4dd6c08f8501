import Mathlib.Algebra.Order.BigOperators.Group.Finset
import Mathlib.Data.Fintype.Card
import Mathlib.Tactic.Abel

namespace GdalWarp.Foundation

open scoped BigOperators

theorem count_cons_eq {α : Type} [DecidableEq α] (a b : α) (l : List α) :
    (a :: l).count b = [a].count b + l.count b := by
  rw [← List.singleton_append, List.count_append]

theorem coe_cons_eq {α : Type} (a : α) (l : List α) :
    ((a :: l : List α) : Multiset α) = ↑[a] + ↑l := rfl

theorem countP_finRange {n : ℕ} (p : Fin n → Bool) :
    (List.finRange n).countP p = (Finset.univ.filter fun i ↦ p i = true).card := by
  have hset : ((List.finRange n).filter p).toFinset = Finset.univ.filter fun i ↦ p i = true := by
    ext i
    simp
  rw [List.countP_eq_length_filter, ← hset,
    List.toFinset_card_of_nodup ((List.nodup_finRange n).filter p)]

theorem lt_of_append_finRange {n : ℕ} {seen rest : List (Fin n)} {i : Fin n}
    (h : seen ++ i :: rest = List.finRange n) : ∀ j ∈ seen, j < i := by
  have hsorted := List.pairwise_lt_finRange n
  rw [← h] at hsorted
  exact fun j hj ↦ (List.pairwise_append.mp hsorted).2.2 j hj i List.mem_cons_self

variable {τ : Type} [Fintype τ]

theorem sum_update_add [DecidableEq τ] {α M : Type} [AddCommMonoid M] (g : α → M) (f : τ → α)
    (t : τ) (a : α) : ∑ u, g (Function.update f t a u) + g (f t) = ∑ u, g (f u) + g a := by
  have hrest : ∑ u ∈ Finset.univ.erase t, g (Function.update f t a u) =
      ∑ u ∈ Finset.univ.erase t, g (f u) :=
    Finset.sum_congr rfl fun u hu ↦ by rw [Function.update_of_ne (Finset.ne_of_mem_erase hu)]
  rw [← Finset.add_sum_erase _ _ (Finset.mem_univ t), hrest, Function.update_self,
    ← Finset.add_sum_erase _ (fun u ↦ g (f u)) (Finset.mem_univ t)]
  abel

/-- Parties that add to a stock, each of which may have looked at it long ago. A party
that has just looked owes no more than is missing to `m`, and at most `d`: the stock and
all that is owed can pass `m` by `d` for each of the others. -/
structure Within (m d stock : ℕ) (owed : τ → ℕ) : Prop where
  each : ∀ t, owed t ≤ d
  total : stock + ∑ t, owed t + d ≤ m + d * Fintype.card τ

namespace Within

variable {m d stock stock' : ℕ} {owed owed' : τ → ℕ}

theorem start (hstock : stock + d ≤ m + d * Fintype.card τ) (howed : ∀ t, owed t = 0) :
    Within m d stock owed := by
  refine ⟨fun t ↦ (howed t).trans_le (Nat.zero_le d), ?_⟩
  rw [Finset.sum_eq_zero fun t _ ↦ howed t]
  exact hstock

theorem stock_add_le (h : Within m d stock owed) (t : τ) :
    stock + owed t + d ≤ m + d * Fintype.card τ := by
  have hsingle : owed t ≤ ∑ u, owed u :=
    Finset.single_le_sum (fun _ _ ↦ Nat.zero_le _) (Finset.mem_univ t)
  have htotal := h.total
  omega

theorem stock_le (h : Within m d stock owed) : stock + d ≤ m + d * Fintype.card τ := by
  have htotal := h.total
  omega

theorem mono (h : Within m d stock owed) (hstock : stock' ≤ stock)
    (howed : ∀ t, owed' t ≤ owed t) : Within m d stock' owed' := by
  refine ⟨fun t ↦ (howed t).trans (h.each t), ?_⟩
  have hsum : ∑ t, owed' t ≤ ∑ t, owed t := Finset.sum_le_sum fun t _ ↦ howed t
  have htotal := h.total
  omega

theorem turn (h : Within m d stock owed) (t : τ) (hothers : ∀ u ≠ t, owed' u ≤ owed u)
    (hself : stock' + owed' t ≤ stock + owed t ∨ stock' + owed' t ≤ m) (haim : owed' t ≤ d) :
    Within m d stock' owed' := by
  classical
  have hrest : ∑ u ∈ Finset.univ.erase t, owed' u ≤ ∑ u ∈ Finset.univ.erase t, owed u :=
    Finset.sum_le_sum fun u hu ↦ hothers u (Finset.ne_of_mem_erase hu)
  have hsplit := Finset.add_sum_erase Finset.univ owed (Finset.mem_univ t)
  have hsplit' := Finset.add_sum_erase Finset.univ owed' (Finset.mem_univ t)
  have htotal := h.total
  refine ⟨fun u ↦ ?_, ?_⟩
  · by_cases hu : u = t
    · exact hu ▸ haim
    · exact (hothers u hu).trans (h.each u)
  · rcases hself with hself | hself
    · omega
    · have hmost : ∑ u ∈ Finset.univ.erase t, owed u ≤ (Finset.univ.erase t).card * d :=
        Finset.sum_le_card_nsmul _ _ d fun u _ ↦ h.each u
      have hcard : (Finset.univ.erase t).card + 1 = Fintype.card τ :=
        Finset.card_erase_add_one (Finset.mem_univ t)
      calc stock' + ∑ u, owed' u + d
          ≤ m + ((Finset.univ.erase t).card * d + d) := by omega
        _ = m + d * Fintype.card τ := by rw [← hcard, Nat.mul_comm d, Nat.succ_mul]

end Within

end GdalWarp.Foundation
