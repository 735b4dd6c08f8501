import Mathlib.Data.List.Basic
import Mathlib.Data.Finset.Card
import Mathlib.Order.Defs.PartialOrder
import Mathlib.Logic.Function.Basic

namespace GdalWarp.Foundation.Recency

variable {α : Type} [DecidableEq α]

/-- In a log with the latest event first, `a` last occurred before `b` did. What
never occurred comes before what did, in the order of `α`. -/
def Older [LT α] (log : List α) (a b : α) : Prop :=
  b ∈ log ∧ log.idxOf b < log.idxOf a ∨ a ∉ log ∧ b ∉ log ∧ a < b

def queue (l : List α) : List α → List α
  | [] => l
  | a :: log => (queue l log).erase a ++ [a]

structure Clock (log : List α) (now : ℕ) (stamp : α → ℕ) : Prop where
  seen : ∀ a ∈ log, stamp a + log.idxOf a = now
  unseen : ∀ a ∉ log, stamp a = 0
  length_le : log.length ≤ now

theorem Clock.record {log : List α} {now : ℕ} {stamp : α → ℕ} (h : Clock log now stamp) (a : α) :
    Clock (a :: log) (now + 1) (Function.update stamp a (now + 1)) := by
  refine ⟨fun b hb ↦ ?_, fun b hb ↦ ?_, ?_⟩
  · by_cases hba : b = a
    · subst hba
      rw [Function.update_self, List.idxOf_cons_self, Nat.add_zero]
    · have hmem : b ∈ log := (List.mem_cons.mp hb).resolve_left hba
      have hseen := h.seen b hmem
      rw [Function.update_of_ne hba, List.idxOf_cons_ne _ (Ne.symm hba)]
      omega
  · have hba : b ≠ a := fun hx ↦ hb (hx ▸ List.mem_cons_self)
    rw [Function.update_of_ne hba]
    exact h.unseen b fun hx ↦ hb (List.mem_cons_of_mem a hx)
  · have hlength := h.length_le
    rw [List.length_cons]
    omega

theorem Clock.stamp_pos {log : List α} {now : ℕ} {stamp : α → ℕ} (h : Clock log now stamp) {a : α}
    (ha : a ∈ log) : 0 < stamp a := by
  have hseen := h.seen a ha
  have hlength := h.length_le
  have hidx := List.idxOf_lt_length_of_mem ha
  omega

theorem Clock.stamp_le {log : List α} {now : ℕ} {stamp : α → ℕ} (h : Clock log now stamp) (a : α) :
    stamp a ≤ now := by
  by_cases ha : a ∈ log
  · have hseen := h.seen a ha
    omega
  · rw [h.unseen a ha]
    exact Nat.zero_le now

theorem Clock.older [PartialOrder α] {log : List α} {now : ℕ} {stamp : α → ℕ}
    (h : Clock log now stamp) {a b : α} (hne : a ≠ b)
    (hle : stamp a < stamp b ∨ stamp a = stamp b ∧ a ≤ b) : Older log a b := by
  by_cases ha : a ∈ log
  · have hpos := h.stamp_pos ha
    have hseena := h.seen a ha
    by_cases hb : b ∈ log
    · have hseenb := h.seen b hb
      have hidx : log.idxOf a ≠ log.idxOf b := fun hx ↦ hne ((List.idxOf_inj ha).mp hx)
      exact Or.inl ⟨hb, by omega⟩
    · have hzero := h.unseen b hb
      omega
  · by_cases hb : b ∈ log
    · have hidx := List.idxOf_lt_length_of_mem hb
      rw [← List.idxOf_eq_length ha] at hidx
      exact Or.inl ⟨hb, hidx⟩
    · have hzeroa := h.unseen a ha
      have hzerob := h.unseen b hb
      have hab : a ≤ b := by
        rcases hle with hlt | ⟨-, hab⟩
        · omega
        · exact hab
      exact Or.inr ⟨ha, hb, lt_of_le_of_ne hab hne⟩

theorem Older.asymm [Preorder α] {log : List α} {a b : α} (h : Older log a b) :
    ¬ Older log b a := by
  intro h'
  rcases h with ⟨hb, hlt⟩ | ⟨ha, hb, hlt⟩
  · rcases h' with ⟨-, hlt'⟩ | ⟨hb', -⟩
    · omega
    · exact hb' hb
  · rcases h' with ⟨ha', -⟩ | ⟨-, -, hlt'⟩
    · exact ha ha'
    · exact lt_asymm hlt hlt'

theorem queue_perm {l log : List α} (h : ∀ a, a ∈ l) : (queue l log).Perm l := by
  induction log with
  | nil => exact List.Perm.refl l
  | cons a log ih =>
    have hmem : a ∈ queue l log := ih.mem_iff.mpr (h a)
    exact ((List.perm_append_comm).trans (List.perm_cons_erase hmem).symm).trans ih

theorem queue_pairwise [Preorder α] {l log : List α} (h : ∀ a, a ∈ l) (hl : l.Nodup)
    (hlt : l.Pairwise (· < ·)) : (queue l log).Pairwise (Older log) := by
  induction log with
  | nil => exact hlt.imp fun hab ↦ Or.inr ⟨List.not_mem_nil, List.not_mem_nil, hab⟩
  | cons c log ih =>
    have hnodup : (queue l log).Nodup := (queue_perm h).nodup_iff.mpr hl
    have hne {a : α} (ha : a ∈ (queue l log).erase c) : a ≠ c := (hnodup.mem_erase_iff.mp ha).1
    have hnewer {a : α} (ha : a ≠ c) : Older (c :: log) a c := by
      refine Or.inl ⟨List.mem_cons_self, ?_⟩
      rw [List.idxOf_cons_self, List.idxOf_cons_ne _ (Ne.symm ha)]
      exact Nat.succ_pos _
    have hshift {a b : α} (ha : a ≠ c) (hb : b ≠ c) (hab : Older log a b) :
        Older (c :: log) a b := by
      rcases hab with ⟨hmem, hidx⟩ | ⟨hna, hnb, hidx⟩
      · refine Or.inl ⟨List.mem_cons_of_mem c hmem, ?_⟩
        rw [List.idxOf_cons_ne _ (Ne.symm ha), List.idxOf_cons_ne _ (Ne.symm hb)]
        omega
      · exact Or.inr ⟨List.not_mem_cons_of_ne_of_not_mem ha hna,
          List.not_mem_cons_of_ne_of_not_mem hb hnb, hidx⟩
    refine List.pairwise_append.mpr ⟨?_, List.pairwise_singleton _ c, ?_⟩
    · have herase : ((queue l log).erase c).Pairwise (Older log) :=
        ih.sublist List.erase_sublist
      exact herase.imp_of_mem fun ha hb hab ↦ hshift (hne ha) (hne hb) hab
    · intro a ha b hb
      obtain rfl := List.mem_singleton.mp hb
      exact hnewer (hne ha)

theorem queue_find [Preorder α] {l log : List α} (h : ∀ a, a ∈ l) (hl : l.Nodup)
    (hlt : l.Pairwise (· < ·)) {p : α → Bool} {a : α} (ha : p a = true)
    (hold : ∀ b, p b = true → b ≠ a → Older log a b) : (queue l log).find? p = some a := by
  have hmem : a ∈ queue l log := (queue_perm h).mem_iff.mpr (h a)
  have hpair : (queue l log).Pairwise (Older log) := queue_pairwise h hl hlt
  revert hmem hpair
  generalize queue l log = q
  intro hmem hpair
  induction q with
  | nil => exact absurd hmem List.not_mem_nil
  | cons b q ih =>
    obtain ⟨hb, hq⟩ := List.pairwise_cons.mp hpair
    cases hpb : p b
    · have hba : a ≠ b := fun hx ↦ Bool.false_ne_true (hpb.symm.trans (hx ▸ ha))
      have hin : a ∈ q := (List.mem_cons.mp hmem).resolve_left hba
      rw [List.find?_cons_of_neg (by simp [hpb])]
      exact ih hin hq
    · rw [List.find?_cons_of_pos hpb]
      by_contra hne
      have hba : b ≠ a := fun hx ↦ hne (congrArg some hx)
      have hin : a ∈ q := (List.mem_cons.mp hmem).resolve_left (Ne.symm hba)
      exact (hb a hin).asymm (hold b hpb hba)

/-- The distinct elements of a log, the latest first. -/
def recent : List α → List α
  | [] => []
  | a :: log => a :: (recent log).filter fun b ↦ decide (b ≠ a)

@[simp] theorem mem_recent {log : List α} {a : α} : a ∈ recent log ↔ a ∈ log := by
  induction log with
  | nil => rfl
  | cons b log ih =>
    by_cases hab : a = b
    · simp [recent, hab]
    · simp [recent, hab, ih]

theorem nodup_recent (log : List α) : (recent log).Nodup := by
  induction log with
  | nil => exact List.nodup_nil
  | cons a log ih => exact List.nodup_cons.mpr ⟨by simp, ih.filter _⟩

theorem length_recent (log : List α) : (recent log).length = log.toFinset.card := by
  have hsets : (recent log).toFinset = log.toFinset := by
    ext a
    simp only [List.mem_toFinset, mem_recent]
  rw [← hsets, List.toFinset_card_of_nodup (nodup_recent log)]

theorem takeWhile_recent (log : List α) (a : α) :
    (recent log).takeWhile (fun b ↦ decide (b ≠ a)) =
      recent (log.takeWhile fun b ↦ decide (b ≠ a)) := by
  induction log with
  | nil => rfl
  | cons c log ih =>
    by_cases hca : c = a
    · simp [recent, hca]
    · have hcover : (fun b ↦ !decide (b ≠ c) || decide (b ≠ a)) = fun b ↦ decide (b ≠ a) := by
        funext b
        by_cases hbc : b = c
        · simp [hbc, hca]
        · simp [hbc]
      rw [recent, List.takeWhile_cons_of_pos (by simp [hca]), List.takeWhile_filter, hcover, ih,
        List.takeWhile_cons_of_pos (by simp [hca]), recent]

theorem mem_take_iff_length_takeWhile {l : List α} {a : α} {n : ℕ} :
    a ∈ l.take n ↔ a ∈ l ∧ (l.takeWhile fun b ↦ decide (b ≠ a)).length < n := by
  induction l generalizing n with
  | nil => simp
  | cons b l ih =>
    cases n with
    | zero => simp
    | succ n =>
      by_cases hba : b = a
      · simp [hba]
      · rw [List.take_succ_cons, List.mem_cons, List.mem_cons, ih,
          List.takeWhile_cons_of_pos (by simp [hba]), List.length_cons, Nat.succ_lt_succ_iff]
        simp [Ne.symm hba]

/-- An element is among the `n` latest exactly when fewer than `n` others came
after it. -/
theorem mem_take_recent {log : List α} {a : α} {n : ℕ} :
    a ∈ (recent log).take n ↔
      a ∈ log ∧ (log.takeWhile fun b ↦ decide (b ≠ a)).toFinset.card < n := by
  rw [mem_take_iff_length_takeWhile, takeWhile_recent, length_recent, mem_recent]

theorem take_filter_of_not_mem {l : List α} {a : α} {m n : ℕ} (h : a ∉ l.take n) (hmn : m ≤ n) :
    (l.filter fun b ↦ decide (b ≠ a)).take m = l.take m := by
  induction l generalizing m n with
  | nil => rfl
  | cons b l ih =>
    cases m with
    | zero => rw [List.take_zero, List.take_zero]
    | succ m =>
      obtain ⟨n, rfl⟩ := Nat.exists_eq_succ_of_ne_zero (by omega : n ≠ 0)
      rw [List.take_succ_cons, List.mem_cons, not_or] at h
      rw [List.filter_cons_of_pos (by simpa using Ne.symm h.1), List.take_succ_cons,
        List.take_succ_cons, ih h.2 (by omega)]

theorem take_filter_of_mem {l : List α} {a : α} {n : ℕ} (hl : l.Nodup) (h : a ∈ l.take (n + 1)) :
    (l.filter fun b ↦ decide (b ≠ a)).take n =
      (l.take (n + 1)).filter fun b ↦ decide (b ≠ a) := by
  induction l generalizing n with
  | nil => simp
  | cons b l ih =>
    obtain ⟨hb, hl⟩ := List.nodup_cons.mp hl
    have hkeep {k : List α} (hk : b ∉ k) : (k.filter fun c ↦ decide (c ≠ b)) = k := by
      refine List.filter_eq_self.mpr fun c hc ↦ ?_
      exact decide_eq_true fun hx ↦ hk (hx ▸ hc)
    rw [List.take_succ_cons] at h ⊢
    by_cases hba : b = a
    · subst hba
      rw [List.filter_cons_of_neg (by simp), List.filter_cons_of_neg (by simp), hkeep hb,
        hkeep fun hx ↦ hb (List.mem_of_mem_take hx)]
    · have hin : a ∈ l.take n := (List.mem_cons.mp h).resolve_left (Ne.symm hba)
      obtain ⟨n, rfl⟩ := Nat.exists_eq_succ_of_ne_zero (show n ≠ 0 by rintro rfl; simp at hin)
      rw [List.filter_cons_of_pos (by simp [hba]), List.filter_cons_of_pos (by simp [hba]),
        List.take_succ_cons, ih hl hin]

end GdalWarp.Foundation.Recency

namespace GdalWarp.Foundation

theorem mem_dropLast_cons {α : Type} {a b : α} {l : List α} (h : b ∈ (a :: l).dropLast) :
    b = a ∨ b ∈ l.dropLast := by
  cases l with
  | nil => cases h
  | cons c l => exact List.mem_cons.mp h

theorem length_le_of_rising {l : List ℕ} {a k : ℕ} (h : (a :: l).Pairwise (· < ·))
    (hin : ∀ x ∈ l, x ≤ a + k) : l.length ≤ k := by
  induction l generalizing a k with
  | nil => exact Nat.zero_le k
  | cons x l ih =>
    obtain ⟨hfirst, htail⟩ := List.pairwise_cons.mp h
    have hax : a < x := hfirst x List.mem_cons_self
    have hxk : x ≤ a + k := hin x List.mem_cons_self
    have hrest : l.length ≤ a + k - x := by
      refine ih htail fun y hy ↦ ?_
      have hyk := hin y (List.mem_cons_of_mem x hy)
      omega
    rw [List.length_cons]
    omega

variable {ι : Type}

/-- Numbers are drawn from a shared counter and stored as stamps some time after, so
that a later number may be overwritten by an earlier one. `draws` lists what was drawn
since the counter stood at `base`, each with the index it was drawn for. -/
structure Stamped (base : ℕ) (old : ι → ℕ) (draws : List (ℕ × ι)) (time : ℕ) (stamp : ι → ℕ) :
    Prop where
  range : ∀ d ∈ draws, base < d.1 ∧ d.1 ≤ time
  once : ∀ d ∈ draws, ∀ e ∈ draws, d.1 = e.1 → d = e
  stamps : ∀ i, stamp i = old i ∨ (stamp i, i) ∈ draws

namespace Stamped

variable {base time : ℕ} {old stamp : ι → ℕ} {draws : List (ℕ × ι)}

theorem start (base : ℕ) (old : ι → ℕ) : Stamped base old [] base old :=
  ⟨fun _ hd ↦ absurd hd List.not_mem_nil, fun _ hd ↦ absurd hd List.not_mem_nil,
    fun _ ↦ Or.inl rfl⟩

theorem draw (h : Stamped base old draws time stamp) (hbase : base ≤ time) (i : ι) :
    Stamped base old ((time + 1, i) :: draws) (time + 1) stamp := by
  have hnew : ∀ d ∈ draws, d.1 ≠ time + 1 := by
    intro d hd heq
    have hle := (h.range d hd).2
    omega
  refine ⟨fun d hd ↦ ?_, fun d hd e he heq ↦ ?_, fun j ↦ ?_⟩
  · rcases List.mem_cons.mp hd with rfl | hd
    · exact ⟨Nat.lt_succ_of_le hbase, Nat.le_refl _⟩
    · have hrange := h.range d hd
      omega
  · rcases List.mem_cons.mp hd with rfl | hd <;> rcases List.mem_cons.mp he with rfl | he
    · rfl
    · exact absurd heq.symm (hnew e he)
    · exact absurd heq (hnew d hd)
    · exact h.once d hd e he heq
  · exact (h.stamps j).imp_right fun hj ↦ List.mem_cons_of_mem _ hj

theorem store [DecidableEq ι] (h : Stamped base old draws time stamp) {k : ℕ} {i : ι}
    (hk : (k, i) ∈ draws) : Stamped base old draws time (Function.update stamp i k) := by
  refine ⟨h.range, h.once, fun j ↦ ?_⟩
  by_cases hj : j = i
  · subst hj
    rw [Function.update_self]
    exact Or.inr hk
  · rw [Function.update_of_ne hj]
    exact h.stamps j

theorem ne_of_drawn (h : Stamped base old draws time stamp) {i j : ι}
    (hi : (stamp i, i) ∈ draws) (hj : (stamp j, j) ∈ draws) (hne : i ≠ j) :
    stamp i ≠ stamp j :=
  fun heq ↦ hne (congrArg Prod.snd (h.once _ hi _ hj heq))

end Stamped

end GdalWarp.Foundation
