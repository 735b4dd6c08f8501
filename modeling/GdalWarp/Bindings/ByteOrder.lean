import Mathlib.Algebra.Group.Int.Defs
import Mathlib.Algebra.Group.Nat.Defs
import Mathlib.Data.Int.Order.Basic
import GdalWarp.Foundation.Buffer

namespace GdalWarp.Bindings

open Foundation.Blocks

inductive DataType where
  | unknown
  | byte
  | int8
  | uInt16
  | int16
  | uInt32
  | int32
  | float32
  | float64
  | cInt16
  | cInt32
  | cFloat32
  | cFloat64
  | typeCount
  deriving DecidableEq

namespace DataType

def code : DataType → ℤ
  | unknown => 0
  | byte => 1
  | int8 => 14
  | uInt16 => 2
  | int16 => 3
  | uInt32 => 4
  | int32 => 5
  | float32 => 6
  | float64 => 7
  | cInt16 => 8
  | cInt32 => 9
  | cFloat32 => 10
  | cFloat64 => 11
  | typeCount => 12

/-- The bytes of one number; a pixel of a complex type has two. -/
def componentWidth : DataType → ℕ
  | unknown | typeCount => 0
  | byte | int8 => 1
  | uInt16 | int16 | cInt16 => 2
  | uInt32 | int32 | float32 | cInt32 | cFloat32 => 4
  | float64 | cFloat64 => 8

end DataType

def swapWidth (type : ℤ) : Option ℕ :=
  if type = DataType.int16.code ∨ type = DataType.uInt16.code ∨ type = DataType.cInt16.code then
    some 2
  else if type = DataType.int32.code ∨ type = DataType.uInt32.code ∨
      type = DataType.cInt32.code ∨ type = DataType.float32.code ∨
      type = DataType.cFloat32.code then
    some 4
  else if type = DataType.float64.code ∨ type = DataType.cFloat64.code then some 8
  else none

def sizeT (x : ℤ) : ℕ := (x % 2 ^ 64).toNat

/-- The loop over the components of `w` bytes, on a host whose byte order is the
other one; `none` when a component leaves the array. As long as none does, the
index stays below the length of an array and does not overflow. -/
def swapLoop (w : ℕ) (data : List UInt8) (i : ℕ) : Option (List UInt8) :=
  if i ≤ sizeT (data.length - w) then
    if 0 < w ∧ i + w ≤ data.length then
      swapLoop w (data.take i ++ ((data.drop i).take w).reverse ++ data.drop (i + w)) (i + w)
    else none
  else some data
termination_by data.length - i
decreasing_by
  simp only [List.length_append, List.length_take, List.length_reverse, List.length_drop]
  omega

def swapBytes (type : ℤ) (data : List UInt8) : Option (List UInt8) :=
  match swapWidth type with
  | some w => swapLoop w data 0
  | none => some data

def Ordered (dt : DataType) (data : List UInt8) (result : Option (List UInt8)) : Prop :=
  ∃ out, result = some out ∧
    if dt.componentWidth ≤ 1 then out = data else Reversed dt.componentWidth data out

theorem swapWidth_code (dt : DataType) :
    swapWidth dt.code = if dt.componentWidth ≤ 1 then none else some dt.componentWidth := by
  cases dt <;> rfl

theorem swapWidth_cases {type : ℤ} {w : ℕ} (h : swapWidth type = some w) : 0 < w ∧ w ≤ 8 := by
  unfold swapWidth at h
  split at h
  · cases h
    decide
  · split at h
    · cases h
      decide
    · split at h
      · cases h
        decide
      · cases h

theorem sizeT_sub {length w : ℕ} (hle : w ≤ length) (hlength : length < 2 ^ 31) :
    sizeT (length - w) = length - w := by
  rw [sizeT, Int.emod_eq_of_lt (by omega) (by omega)]
  omega

theorem swapLoop_eq {w : ℕ} (hw : 0 < w) (l₁ l₂ : List UInt8) (hle : w ≤ (l₁ ++ l₂).length)
    (hlength : (l₁ ++ l₂).length < 2 ^ 31) :
    swapLoop w (l₁ ++ l₂) l₁.length = some (l₁ ++ reverseBlocks w l₂) := by
  induction l₂ using reverseBlocks.induct w generalizing l₁ with
  | case1 l₂ h ih =>
    have hcount : (l₁ ++ (l₂.take w).reverse).length = l₁.length + w := by
      rw [List.length_append, List.length_reverse, List.length_take, Nat.min_eq_left h.2]
    have htotal : (l₁ ++ (l₂.take w).reverse ++ l₂.drop w).length = (l₁ ++ l₂).length := by
      rw [List.length_append, hcount, List.length_drop, List.length_append]
      omega
    have hnext := ih (l₁ ++ (l₂.take w).reverse) (by omega) (by omega)
    rw [hcount] at hnext
    have hguard : l₁.length ≤ sizeT ((l₁ ++ l₂).length - w) := by
      rw [sizeT_sub hle hlength, List.length_append]
      omega
    have hdrop : (l₁ ++ l₂).drop (l₁.length + w) = l₂.drop w := by
      rw [← List.drop_drop, List.drop_left]
    rw [swapLoop, if_pos hguard, if_pos ⟨hw, by rw [List.length_append]; omega⟩, List.take_left,
      List.drop_left, hdrop, hnext, reverseBlocks_of_le h.1 h.2, List.append_assoc]
  | case2 l₂ h =>
    have hguard : ¬ l₁.length ≤ sizeT ((l₁ ++ l₂).length - w) := by
      rw [sizeT_sub hle hlength, List.length_append]
      rw [List.length_append] at hle
      omega
    rw [swapLoop, if_neg hguard, reverseBlocks_of_not h]

/-- Below one component the bound wraps around, and the first access already
leaves the array. -/
theorem swapLoop_eq_none {w : ℕ} {data : List UInt8} (h : data.length < w) :
    swapLoop w data 0 = none := by
  rw [swapLoop, if_pos (Nat.zero_le _), if_neg (by omega)]

theorem swapBytes_eq {type : ℤ} {data : List UInt8} (hlength : data.length < 2 ^ 31) :
    swapBytes type data =
      match swapWidth type with
      | none => some data
      | some w => if w ≤ data.length then some (reverseBlocks w data) else none := by
  unfold swapBytes
  cases hw : swapWidth type with
  | none => rfl
  | some w =>
    dsimp only
    split
    · exact swapLoop_eq (swapWidth_cases hw).1 [] data ‹_› hlength
    · exact swapLoop_eq_none (by omega)

/-- The byte order is changed as it should exactly when an array of components of
several bytes has room for one. -/
theorem ordered_iff_component (dt : DataType) {data : List UInt8}
    (hlength : data.length < 2 ^ 31) :
    Ordered dt data (swapBytes dt.code data) ↔
      dt.componentWidth ≤ 1 ∨ dt.componentWidth ≤ data.length := by
  rw [swapBytes_eq hlength, swapWidth_code]
  by_cases hsmall : dt.componentWidth ≤ 1
  · rw [if_pos hsmall]
    exact iff_of_true ⟨data, rfl, by rw [if_pos hsmall]⟩ (Or.inl hsmall)
  · rw [if_neg hsmall]
    dsimp only
    split
    case isTrue hle =>
      refine iff_of_true ⟨_, rfl, ?_⟩ (Or.inr hle)
      rw [if_neg hsmall]
      exact reversed_reverseBlocks (by omega) data
    case isFalse hle =>
      refine iff_of_false (fun ⟨_, h, _⟩ ↦ nomatch h) ?_
      rintro (hx | hx)
      · exact hsmall hx
      · exact hle hx

theorem ordered_iff_component_odd_length :
    Ordered .cInt16 [1, 2, 3, 4, 5] (swapBytes DataType.cInt16.code [1, 2, 3, 4, 5]) :=
  (ordered_iff_component .cInt16 (by decide)).mpr (Or.inr (by decide))

theorem short_array_overrun :
    ¬ Ordered .float64 [1, 2, 3] (swapBytes DataType.float64.code [1, 2, 3]) := by
  have hnone : swapBytes DataType.float64.code [1, 2, 3] = none := swapLoop_eq_none (by decide)
  rw [hnone]
  exact fun ⟨_, h, _⟩ ↦ nomatch h

end GdalWarp.Bindings
