import Mathlib.Algebra.Order.Group.Nat
import Mathlib.Data.List.Basic

namespace GdalWarp.Foundation

theorem mapM_eq_some_map {α β : Type} {f : α → Option β} {g : α → β} {l : List α}
    (h : ∀ a ∈ l, f a = some (g a)) : l.mapM f = some (l.map g) := by
  induction l with
  | nil => rfl
  | cons a l ih =>
    rw [List.mapM_cons, h a List.mem_cons_self, ih fun b hb ↦ h b (List.mem_cons_of_mem a hb)]
    rfl

theorem map_append_eq_map_iff {α β : Type} {f g : α → β} {l : List α} {r : List β} :
    l.map f ++ r = l.map g ↔ r = [] ∧ ∀ a ∈ l, f a = g a := by
  rw [← List.map_inj_left]
  constructor
  · intro h
    have hlength := congrArg List.length h
    rw [List.length_append, List.length_map, List.length_map] at hlength
    have hnil : r = [] := List.length_eq_zero_iff.mp (by omega)
    rw [hnil, List.append_nil] at h
    exact ⟨hnil, h⟩
  · rintro ⟨rfl, h⟩
    rw [List.append_nil, h]

namespace Buffer

variable {α : Type}

/-- A store into an array, `none` at an index outside it. -/
def store (cells : List α) (i : ℕ) (a : α) : Option (List α) :=
  if i < cells.length then some (cells.set i a) else none

def storeFrom : List α → ℕ → List α → Option (List α)
  | cells, _, [] => some cells
  | cells, i, a :: as => (store cells i a).bind fun cells ↦ storeFrom cells (i + 1) as

theorem store_append (l₁ l₂ : List α) (a : α) :
    store (l₁ ++ l₂) l₁.length a =
      if l₂ = [] then none else some (l₁ ++ a :: l₂.drop 1) := by
  cases l₂ with
  | nil => simp [store]
  | cons b l₂ => simp [store, List.set_append_right]

theorem storeFrom_append (cells : List α) (i : ℕ) (as bs : List α) :
    storeFrom cells i (as ++ bs) =
      (storeFrom cells i as).bind fun cells ↦ storeFrom cells (i + as.length) bs := by
  induction as generalizing cells i with
  | nil => rfl
  | cons a as ih =>
    rw [List.cons_append, storeFrom, storeFrom, Option.bind_assoc]
    congr 1
    funext cells
    rw [ih, List.length_cons, Nat.add_assoc, Nat.add_comm 1]

theorem storeFrom_eq (l₁ l₂ as : List α) :
    storeFrom (l₁ ++ l₂) l₁.length as =
      if as.length ≤ l₂.length then some (l₁ ++ as ++ l₂.drop as.length) else none := by
  induction as generalizing l₁ l₂ with
  | nil => simp [storeFrom]
  | cons a as ih =>
    rw [storeFrom, store_append]
    cases l₂ with
    | nil => simp
    | cons b l₂ =>
      have htail := ih (l₁ ++ [a]) l₂
      rw [List.append_assoc, List.singleton_append, List.length_append, List.length_singleton]
        at htail
      rw [if_neg (List.cons_ne_nil b l₂), Option.bind_some, List.drop_one, List.tail_cons, htail]
      simp

theorem storeFrom_then_store {β : Type} {cells as : List α} (h : as.length < cells.length) (a : α)
    (f : List α → β) :
    ((storeFrom cells 0 as).bind fun cells ↦ (store cells as.length a).map f) =
      some (f (as ++ a :: cells.drop (as.length + 1))) := by
  have hall := storeFrom_eq [] cells as
  rw [List.nil_append, List.nil_append, List.length_nil, if_pos (Nat.le_of_lt h)] at hall
  have hne : cells.drop as.length ≠ [] := fun hnil ↦ by
    have hle := List.drop_eq_nil_iff.mp hnil
    omega
  rw [hall, Option.bind_some, store_append, if_neg hne, List.drop_drop, Option.map_some]

end Buffer

namespace Blocks

variable {α : Type}

def reverseBlocks (w : ℕ) (l : List α) : List α :=
  if 0 < w ∧ w ≤ l.length then (l.take w).reverse ++ reverseBlocks w (l.drop w) else l
termination_by l.length
decreasing_by
  rw [List.length_drop]
  omega

theorem reverseBlocks_of_le {w : ℕ} {l : List α} (hw : 0 < w) (h : w ≤ l.length) :
    reverseBlocks w l = (l.take w).reverse ++ reverseBlocks w (l.drop w) := by
  rw [reverseBlocks, if_pos ⟨hw, h⟩]

theorem reverseBlocks_of_not {w : ℕ} {l : List α} (h : ¬ (0 < w ∧ w ≤ l.length)) :
    reverseBlocks w l = l := by
  rw [reverseBlocks, if_neg h]

/-- `out` is `l` with the elements of each complete block in reverse order and
what follows the last one as it was. -/
structure Reversed (w : ℕ) (l out : List α) : Prop where
  length : out.length = l.length
  block : ∀ k j, (k + 1) * w ≤ l.length → j < w → out[k * w + j]? = l[k * w + (w - 1 - j)]?
  rest : ∀ i, l.length / w * w ≤ i → out[i]? = l[i]?

theorem Reversed.of_length_lt {w : ℕ} {l : List α} (h : l.length < w) : Reversed w l l := by
  refine ⟨rfl, fun k j hk hj ↦ ?_, fun i _ ↦ rfl⟩
  have hle : w ≤ (k + 1) * w := Nat.le_mul_of_pos_left w (Nat.succ_pos k)
  omega

theorem Reversed.cons_block {w : ℕ} {l out : List α} (hw : 0 < w) (hl : w ≤ l.length)
    (h : Reversed w (l.drop w) out) : Reversed w l ((l.take w).reverse ++ out) := by
  have hhead : (l.take w).reverse.length = w := by
    rw [List.length_reverse, List.length_take]
    omega
  have htail : (l.drop w).length = l.length - w := List.length_drop
  refine ⟨?_, fun k j hk hj ↦ ?_, fun i hi ↦ ?_⟩
  · rw [List.length_append, hhead, h.length, htail]
    omega
  · cases k with
    | zero =>
      rw [Nat.zero_mul, Nat.zero_add, Nat.zero_add, List.getElem?_append_left (by omega),
        List.getElem?_reverse (by rw [List.length_take]; omega), List.length_take,
        List.getElem?_take_of_lt (by omega), Nat.min_eq_left hl]
    | succ k =>
      rw [Nat.succ_mul] at hk
      have hblock := h.block k j (by omega) hj
      rw [List.getElem?_drop] at hblock
      have hleft : (k + 1) * w + j - w = k * w + j := by
        rw [Nat.succ_mul]
        omega
      have hright : (k + 1) * w + (w - 1 - j) = w + (k * w + (w - 1 - j)) := by
        rw [Nat.succ_mul]
        omega
      rw [List.getElem?_append_right (by rw [hhead, Nat.succ_mul]; omega), hhead, hleft, hblock,
        hright]
  · have hcount : l.length / w = (l.length - w) / w + 1 := by
      rw [← Nat.add_div_right _ hw, Nat.sub_add_cancel hl]
    rw [hcount, Nat.succ_mul] at hi
    have hrest := h.rest (i - w) (by rw [htail]; omega)
    rw [List.getElem?_append_right (by omega), hhead, hrest, List.getElem?_drop,
      Nat.add_sub_cancel' (by omega)]

theorem reversed_reverseBlocks {w : ℕ} (hw : 0 < w) (l : List α) :
    Reversed w l (reverseBlocks w l) := by
  induction l using reverseBlocks.induct w with
  | case1 l h ih =>
    rw [reverseBlocks_of_le h.1 h.2]
    exact ih.cons_block hw h.2
  | case2 l h =>
    rw [reverseBlocks_of_not h]
    exact .of_length_lt (by omega)

theorem Reversed.unique {w : ℕ} {l a b : List α} (hw : 0 < w) (ha : Reversed w l a)
    (hb : Reversed w l b) : a = b := by
  apply List.ext_getElem?
  intro i
  by_cases hi : l.length / w * w ≤ i
  · rw [ha.rest i hi, hb.rest i hi]
  · have hdecompose : i = i / w * w + i % w := (Nat.div_add_mod' i w).symm
    have hmod : i % w < w := Nat.mod_lt i hw
    have hblock : (i / w + 1) * w ≤ l.length := by
      have hlt : i / w < l.length / w := (Nat.div_lt_iff_lt_mul hw).mpr (by omega)
      exact Nat.le_trans (Nat.mul_le_mul_right w hlt) (Nat.div_mul_le_self _ _)
    rw [hdecompose, ha.block _ _ hblock hmod, hb.block _ _ hblock hmod]

end Blocks

structure Buffers (β : Type) where
  size : β → ℕ
  blank : ℕ → β
  size_blank : ∀ n, size (blank n) = n

namespace Buffers

variable {β ρ : Type} (B : Buffers β)

/-- Attempts numbered by turns, with larger and larger buffers until one has a
result; `overflow` is the result where no larger buffer can be made. -/
def retry (limit : ℕ) (overflow : ρ) (attempt : ℕ → β → Option ρ × β) (turn : ℕ) (b : β) : ρ × β :=
  match attempt turn b with
  | (some r, left) => (r, left)
  | (none, left) =>
    if B.size b ≠ 0 ∧ B.size b * 2 < limit then
      retry limit overflow attempt (turn + 1) (B.blank (B.size b * 2))
    else (overflow, left)
termination_by limit - B.size b
decreasing_by
  rw [B.size_blank]
  omega

variable {B} {limit : ℕ} {overflow : ρ} {attempt : ℕ → β → Option ρ × β}

theorem retry_done {turn : ℕ} {b left : β} {r : ρ} (h : attempt turn b = (some r, left)) :
    B.retry limit overflow attempt turn b = (r, left) := by
  rw [retry, h]

theorem retry_again {turn : ℕ} {b left : β} (h : attempt turn b = (none, left))
    (hgrow : B.size b ≠ 0 ∧ B.size b * 2 < limit) :
    B.retry limit overflow attempt turn b =
      B.retry limit overflow attempt (turn + 1) (B.blank (B.size b * 2)) := by
  rw [retry, h]
  exact if_pos hgrow

theorem retry_overflow {turn : ℕ} {b left : β} (h : attempt turn b = (none, left))
    (hgrow : ¬ (B.size b ≠ 0 ∧ B.size b * 2 < limit)) :
    B.retry limit overflow attempt turn b = (overflow, left) := by
  rw [retry, h]
  exact if_neg hgrow

theorem retry_induction {I : β → Prop} {P : ℕ → β → ρ × β → Prop}
    (hblank : ∀ n, n ≠ 0 ∧ n * 2 < limit → I (B.blank (n * 2)))
    (hdone : ∀ turn b r left, I b → attempt turn b = (some r, left) → P turn b (r, left))
    (hagain : ∀ turn b left result, I b → attempt turn b = (none, left) →
      B.size b ≠ 0 ∧ B.size b * 2 < limit →
      P (turn + 1) (B.blank (B.size b * 2)) result → P turn b result)
    (hoverflow : ∀ turn b left, I b → attempt turn b = (none, left) →
      ¬ (B.size b ≠ 0 ∧ B.size b * 2 < limit) → P turn b (overflow, left))
    (turn : ℕ) (b : β) (hb : I b) :
    P turn b (B.retry limit overflow attempt turn b) := by
  fun_induction Buffers.retry B limit overflow attempt turn b with
  | case1 turn b r left h => exact hdone turn b r left hb h
  | case2 turn b left h hgrow ih =>
    exact hagain turn b left _ hb h hgrow (ih (hblank _ hgrow))
  | case3 turn b left h hgrow => exact hoverflow turn b left hb h hgrow

end Buffers

end GdalWarp.Foundation
