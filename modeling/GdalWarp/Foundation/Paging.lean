import Mathlib.Data.Finset.Card
import Mathlib.Data.List.Nodup
import Mathlib.Data.Finset.Insert

namespace GdalWarp.Foundation

theorem map_erase {α β : Type} [DecidableEq α] [DecidableEq β] {f : α → β} {l : List α} {a : α}
    (hl : (l.map f).Nodup) (ha : a ∈ l) : (l.erase a).map f = (l.map f).erase (f a) := by
  obtain ⟨front, back, rfl⟩ := List.append_of_mem ha
  rw [List.map_append, List.map_cons] at hl
  have hkey : f a ∉ front.map f :=
    fun hx ↦ (List.nodup_append.mp hl).2.2 _ hx _ List.mem_cons_self rfl
  have hfront : a ∉ front := fun hx ↦ hkey (List.mem_map_of_mem hx)
  rw [List.map_append, List.map_cons, List.erase_append_right _ hkey, List.erase_cons_head,
    List.erase_append_right _ hfront, List.erase_cons_head, List.map_append]

theorem not_mem_map_erase {α β : Type} [DecidableEq α] [DecidableEq β] {f : α → β} {l : List α}
    {a : α} (hl : (l.map f).Nodup) (ha : a ∈ l) : f a ∉ (l.erase a).map f := by
  rw [map_erase hl ha]
  exact hl.not_mem_erase

theorem filter_eq_singleton {α : Type} [DecidableEq α] {p : α → Bool} {l : List α} {a : α}
    (hl : l.Nodup) (ha : a ∈ l) (h : ∀ b, p b = true ↔ b = a) : l.filter p = [a] := by
  have hp : p = fun b ↦ b == a := by
    funext b
    rw [Bool.eq_iff_iff, h, beq_iff_eq]
  rw [hp, List.filter_beq, hl.count, if_pos ha]
  rfl

namespace Paging

variable {α : Type} [DecidableEq α]

def lru (k : ℕ) (l : List α) (p : α) : List α :=
  if p ∈ l then p :: l.erase p else (p :: l).take k

def lruMisses (k : ℕ) : List α → List α → ℕ
  | _, [] => 0
  | l, p :: ps => (if p ∈ l then 0 else 1) + lruMisses k (lru k l p) ps

theorem lruMisses_cons (k : ℕ) (l : List α) (p : α) (ps : List α) :
    lruMisses k l (p :: ps) = lruMisses k l [p] + lruMisses k (lru k l p) ps := rfl

structure Serves (k : ℕ) (s s' : Finset α) (p : α) : Prop where
  mem : p ∈ s'
  subset : s' ⊆ insert p s
  card_le : s'.card ≤ k

/-- The requests can be served from the memory `s` with so many misses. Nothing is
said of how the pages to drop are chosen; it may depend on requests to come. -/
inductive Schedule (k : ℕ) : Finset α → List α → ℕ → Prop
  | nil (s : Finset α) : Schedule k s [] 0
  | cons {s t : Finset α} {p : α} {ps : List α} {m : ℕ} (h : Serves k s t p)
      (rest : Schedule k t ps m) : Schedule k s (p :: ps) ((if p ∈ s then 0 else 1) + m)

/-- Each page of the list that is not in `s` counts with its place, from `w` for
the latest down. -/
def debt (s : Finset α) : ℕ → List α → ℕ
  | _, [] => 0
  | w, a :: l => (if a ∈ s then 0 else w) + debt s (w - 1) l

variable {k w : ℕ} {s s' : Finset α} {l : List α} {p q : α}

theorem debt_le_of_subset (h : ∀ a ∈ l, a ∈ s → a ∈ s') : debt s' w l ≤ debt s w l := by
  induction l generalizing w with
  | nil => exact le_rfl
  | cons a l ih =>
    have htail : debt s' (w - 1) l ≤ debt s (w - 1) l :=
      ih fun b hb ↦ h b (List.mem_cons_of_mem a hb)
    have hhead : (if a ∈ s' then 0 else w) ≤ if a ∈ s then 0 else w := by
      by_cases ha : a ∈ s
      · rw [if_pos (h a List.mem_cons_self ha)]
        exact Nat.zero_le _
      · rw [if_neg ha]
        split <;> omega
    exact Nat.add_le_add hhead htail

theorem debt_le_of_erase (hl : l.Nodup) (h : s.erase q ⊆ s') : debt s' w l ≤ debt s w l + w := by
  induction l generalizing w with
  | nil => exact Nat.zero_le _
  | cons a l ih =>
    obtain ⟨ha, hl⟩ := List.nodup_cons.mp hl
    rw [debt, debt]
    by_cases haq : a = q
    · have htail : debt s' (w - 1) l ≤ debt s (w - 1) l := by
        refine debt_le_of_subset fun b hb hbs ↦ h (Finset.mem_erase.mpr ⟨?_, hbs⟩)
        exact fun hbq ↦ ha (haq.trans hbq.symm ▸ hb)
      split <;> split <;> omega
    · have htail : debt s' (w - 1) l ≤ debt s (w - 1) l + (w - 1) := ih hl
      by_cases has : a ∈ s
      · rw [if_pos has, if_pos (h (Finset.mem_erase.mpr ⟨haq, has⟩))]
        omega
      · rw [if_neg has]
        split <;> omega

theorem debt_mono {w' : ℕ} (h : w ≤ w') : debt s w l ≤ debt s w' l := by
  induction l generalizing w w' with
  | nil => exact le_rfl
  | cons a l ih =>
    have htail : debt s (w - 1) l ≤ debt s (w' - 1) l := ih (by omega)
    rw [debt, debt]
    split <;> omega

theorem debt_take_le (m : ℕ) : debt s w (l.take m) ≤ debt s w l := by
  induction l generalizing w m with
  | nil => rw [List.take_nil]
  | cons a l ih =>
    cases m with
    | zero => exact Nat.zero_le _
    | succ m =>
      rw [List.take_succ_cons, debt, debt]
      exact Nat.add_le_add_left (ih m) _

theorem debt_erase_le (hp : p ∈ s) (hmem : p ∈ l) : debt s (w - 1) (l.erase p) ≤ debt s w l := by
  induction l generalizing w with
  | nil => exact absurd hmem List.not_mem_nil
  | cons a l ih =>
    by_cases hap : a = p
    · subst hap
      rw [List.erase_cons_head, debt, if_pos hp, Nat.zero_add]
    · have hin : p ∈ l := (List.mem_cons.mp hmem).resolve_left (Ne.symm hap)
      have htail : debt s (w - 1 - 1) (l.erase p) ≤ debt s (w - 1) l := ih hin
      rw [List.erase_cons_tail (by simpa using hap), debt, debt]
      split <;> omega

theorem debt_sink (hlength : l.length ≤ w) {a : α} (ha : a ∈ l) (has : a ∉ s) :
    debt s (w - 1) l + 1 ≤ debt s w l := by
  induction l generalizing w with
  | nil => exact absurd ha List.not_mem_nil
  | cons b l ih =>
    rw [List.length_cons] at hlength
    rw [debt, debt]
    by_cases hbs : b ∈ s
    · have hin : a ∈ l := (List.mem_cons.mp ha).resolve_left fun hab ↦ has (hab ▸ hbs)
      have htail : debt s (w - 1 - 1) l + 1 ≤ debt s (w - 1) l := ih (by omega) hin
      rw [if_pos hbs, if_pos hbs]
      omega
    · have htail : debt s (w - 1 - 1) l ≤ debt s (w - 1) l := debt_mono (by omega)
      rw [if_neg hbs, if_neg hbs]
      omega

theorem lru_nodup (h : l.Nodup) : (lru k l p).Nodup := by
  unfold lru
  split
  case isTrue hp => exact List.nodup_cons.mpr ⟨h.not_mem_erase, h.erase p⟩
  case isFalse hp => exact (List.nodup_cons.mpr ⟨hp, h⟩).sublist (List.take_sublist ..)

theorem lru_length_le (h : l.length ≤ k) : (lru k l p).length ≤ k := by
  unfold lru
  split
  case isTrue hp =>
    have hpos : 0 < l.length := List.length_pos_of_mem hp
    rw [List.length_cons, List.length_erase_of_mem hp]
    omega
  case isFalse hp =>
    rw [List.length_take]
    exact Nat.min_le_left ..

/-- What a request costs the list is paid for by the debt and the room it has left,
as soon as the other memory has the page as well. -/
theorem debt_lru (hl : l.Nodup) (hlength : l.length ≤ k) (hp : p ∈ s) (hcard : s.card ≤ k) :
    (if p ∈ l then 0 else 1) + debt s k (lru k l p) + (k - (lru k l p).length) ≤
      debt s k l + (k - l.length) := by
  by_cases hmem : p ∈ l
  · have hpos : 0 < l.length := List.length_pos_of_mem hmem
    have hle : debt s (k - 1) (l.erase p) ≤ debt s k l := debt_erase_le hp hmem
    rw [lru, if_pos hmem, if_pos hmem, debt, if_pos hp, List.length_cons,
      List.length_erase_of_mem hmem]
    omega
  · obtain ⟨k, rfl⟩ : ∃ k', k = k' + 1 :=
      Nat.exists_eq_succ_of_ne_zero (by have := Finset.card_pos.mpr ⟨p, hp⟩; omega)
    rw [lru, if_neg hmem, if_neg hmem, List.take_succ_cons, debt, if_pos hp, List.length_cons,
      List.length_take]
    have htake : debt s (k + 1 - 1) (l.take k) ≤ debt s (k + 1 - 1) l := debt_take_le k
    rcases Nat.lt_or_ge k l.length with hfull | hroom
    · -- the list is full, so it has a page that the other memory has not
      obtain ⟨a, hal, has⟩ : ∃ a ∈ l, a ∉ s := by
        by_contra hall
        push Not at hall
        have hsub : insert p l.toFinset ⊆ s :=
          Finset.insert_subset hp fun a ha ↦ hall a (List.mem_toFinset.mp ha)
        have hle := Finset.card_le_card hsub
        rw [Finset.card_insert_of_notMem (by simpa using hmem),
          List.toFinset_card_of_nodup hl] at hle
        omega
      have hsink : debt s (k + 1 - 1) l + 1 ≤ debt s (k + 1) l := debt_sink hlength hal has
      omega
    · have hsink : debt s (k + 1 - 1) l ≤ debt s (k + 1) l := debt_mono (by omega)
      omega

theorem Serves.lazy {t : Finset α} (h : Serves k s s' p) (hst : s ⊆ t) (ht : t.card ≤ k) :
    ∃ t', s' ⊆ t' ∧ t'.card ≤ k ∧ (p ∈ t → t' = t) ∧ ∃ q, t.erase q ⊆ t' := by
  have hsub : s' ⊆ insert p t := h.subset.trans (Finset.insert_subset_insert p hst)
  by_cases hp : p ∈ t
  · rw [Finset.insert_eq_of_mem hp] at hsub
    exact ⟨t, hsub, ht, fun _ ↦ rfl, p, Finset.erase_subset ..⟩
  rcases Nat.lt_or_ge t.card k with hroom | hfull
  · refine ⟨insert p t, hsub, ?_, fun hx ↦ absurd hx hp, p, ?_⟩
    · rw [Finset.card_insert_of_notMem hp]
      exact hroom
    · exact (Finset.erase_subset ..).trans (Finset.subset_insert ..)
  · obtain ⟨q, hq, hqs⟩ : ∃ q ∈ t, q ∉ s' := by
      by_contra hall
      push Not at hall
      have hle := Finset.card_le_card (Finset.insert_subset h.mem hall)
      rw [Finset.card_insert_of_notMem hp] at hle
      have := h.card_le
      omega
    refine ⟨insert p (t.erase q), fun a ha ↦ ?_, ?_, fun hx ↦ absurd hx hp, q,
      Finset.subset_insert ..⟩
    · rcases Finset.mem_insert.mp (hsub ha) with rfl | hat
      · exact Finset.mem_insert_self ..
      · exact Finset.mem_insert_of_mem
          (Finset.mem_erase.mpr ⟨fun haq ↦ hqs (haq ▸ ha), hat⟩)
    · have hcard := Finset.card_erase_of_mem hq
      have hpos := Finset.card_pos.mpr ⟨q, hq⟩
      have hinsert := Finset.card_insert_le p (t.erase q)
      omega

theorem Schedule.eq_nil {ps : List α} {m : ℕ} (h : Schedule 0 s ps m) : ps = [] := by
  cases h with
  | nil s => rfl
  | cons hserves rest =>
    have hpos := Finset.card_pos.mpr ⟨_, hserves.mem⟩
    have hle := hserves.card_le
    omega

theorem Schedule.misses_le {ps : List α} {m : ℕ} (h : Schedule k s ps m) {t : Finset α}
    (hst : s ⊆ t) (ht : t.card ≤ k) (hl : l.Nodup) (hlength : l.length ≤ k) :
    lruMisses k l ps ≤ k * m + debt t k l + (k - l.length) := by
  induction h generalizing t l with
  | nil s => exact Nat.zero_le _
  | @cons s s' p ps m hserves rest ih =>
    obtain ⟨t', hsub, hcard, hhit, q, herase⟩ := hserves.lazy hst ht
    have hstep := debt_lru hl hlength (hsub hserves.mem) hcard
    have hrest := ih hsub hcard (lru_nodup (k := k) (p := p) hl) (lru_length_le hlength)
    rw [lruMisses, Nat.mul_add]
    by_cases hp : p ∈ s
    · rw [hhit (hst hp)] at hstep hrest
      omega
    · have hdrop : debt t' k l ≤ debt t k l + k := debt_le_of_erase hl herase
      rw [if_neg hp, Nat.mul_one]
      omega

/-- Dropping the page requested longest ago misses at most `k` times as often as
any schedule, and `k` times more while the list fills up. -/
theorem lruMisses_le {ps : List α} {m : ℕ} (h : Schedule k s ps m) (hs : s.card ≤ k) :
    lruMisses k [] ps ≤ k * m + k :=
  h.misses_le (Finset.Subset.refl s) hs List.nodup_nil (Nat.zero_le k)

end Paging

end GdalWarp.Foundation
