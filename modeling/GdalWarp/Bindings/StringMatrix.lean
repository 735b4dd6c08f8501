import GdalWarp.Foundation.Buffer
import GdalWarp.Bindings.Doit

namespace GdalWarp.Bindings

open Foundation Buffer

abbrev Row := List UInt8

namespace CString

-- `int len = strlen(...)`
def len (str : CString) : ℤ := int32 str.bytes.length

def spaced (str : CString) : List UInt8 := if str.bytes = [] then [32] else str.bytes

def shown (str : CString) : List UInt8 :=
  if str.len = 0 then [32] else str.bytes.take str.len.toNat

end CString

/-- One turn of the encoding loop: `none` when it leaves the row, `some none` when
the row is too short. -/
def putString (row : Row) (str : CString) : Option (Option Row) :=
  if str.len = 0 then (storeFrom row 0 [32, 0]).map some
  else if str.len < row.length - 1 then
    -- `strncpy` takes a negative length for a count that no array has
    if str.len < 0 then none
    else
      (storeFrom row 0 (str.bytes.take str.len.toNat)).bind fun row ↦
        (store row str.len.toNat 0).map some
  else some none

structure Filled where
  complete : Bool
  written : List Row
  left : List Row

def fillRows : List Row → List CString → Option Filled
  | rows, [] => some ⟨true, [], rows⟩
  | [], _ :: _ => some ⟨true, [], []⟩
  | row :: rows, str :: strs =>
    (putString row str).bind fun
      | none => some ⟨false, [], row :: rows⟩
      | some row => (fillRows rows strs).map fun filled ↦
        { filled with written := row :: filled.written }

def terminate : List Row → Option (List Row)
  | [] => none
  | row :: rows => (store row 0 0).map fun row ↦ row :: rows

/-- How the JNI functions hand a list over: the rows afterwards, and what is
returned. The native query returned `retval` and `list`. -/
def encodeList (retval : ℤ) (list : Option (List CString)) (rows : List Row) :
    Option (List Row × ℤ) :=
  if retval < 0 then some (rows, retval)
  else do
    let filled ← fillRows rows (list.getD [])
    if filled.complete then
      let i := filled.written.length
      let left ← if i + 1 < rows.length then terminate filled.left else some filled.left
      some (filled.written ++ left, if i = rows.length then -cpleAppDefined else retval)
    else some (filled.written ++ filled.left, -cpleAppDefined)

-- the two also differ in whether they free the list
def jniGetMetadataDomainList := encodeList

def jniGetMetadata := encodeList

def startsZero (row : Row) : Bool := decide (row.head? = some 0)

def cutRow (row : Row) : List UInt8 := row.takeWhile fun b ↦ decide (b ≠ 0)

/-- The rows up to the first that starts with a zero byte, each up to its first
zero byte. -/
def readRows (rows : List Row) : List (List UInt8) :=
  (rows.takeWhile fun row ↦ !startsZero row).map cutRow

def TooShort (row : Row) (str : CString) : Prop := str.len ≠ 0 ∧ row.length ≤ str.len + 1

def Overruns (row : Row) (str : CString) : Prop :=
  str.len = 0 ∧ row.length < 2 ∨ str.len < 0 ∧ str.len + 1 < row.length

instance (row : Row) (str : CString) : Decidable (TooShort row str) :=
  inferInstanceAs (Decidable (_ ∧ _))

instance (row : Row) (str : CString) : Decidable (Overruns row str) :=
  inferInstanceAs (Decidable (_ ∨ _))

def writtenRow (row : Row) (str : CString) : Row :=
  str.shown ++ 0 :: row.drop (str.shown.length + 1)

theorem CString.len_le (str : CString) : str.len ≤ str.bytes.length := by
  unfold CString.len int32 Int.bmod
  dsimp only
  split <;> omega

theorem CString.length_shown {str : CString} (h : 0 < str.len) :
    str.shown.length = str.len.toNat := by
  have hle := str.len_le
  rw [CString.shown, if_neg (by omega), List.length_take]
  omega

section

variable {row : Row} {str : CString}

theorem putString_overruns (h : Overruns row str) : putString row str = none := by
  rcases h with ⟨hzero, hlength⟩ | ⟨hneg, hlength⟩
  · have hrow := storeFrom_eq [] row [32, 0]
    rw [if_neg (by simpa using hlength)] at hrow
    rw [putString, if_pos hzero]
    exact congrArg (Option.map some) hrow
  · rw [putString, if_neg (by omega), if_pos (by omega), if_pos hneg]

theorem putString_tooShort (h : TooShort row str) : putString row str = some none := by
  obtain ⟨hne, hlength⟩ := h
  rw [putString, if_neg hne, if_neg (by omega)]

theorem putString_fits (hover : ¬ Overruns row str) (hfit : ¬ TooShort row str) :
    putString row str = some (some (writtenRow row str)) := by
  have hrow := storeFrom_eq [] row
  simp only [List.nil_append, List.length_nil] at hrow
  by_cases hzero : str.len = 0
  · have hlength : ([32, 0] : List UInt8).length ≤ row.length :=
      not_lt.mp fun hx ↦ hover (Or.inl ⟨hzero, hx⟩)
    have hshown : str.shown = [32] := if_pos hzero
    rw [putString, if_pos hzero, hrow, if_pos hlength, writtenRow, hshown]
    rfl
  · have hlength : str.len + 1 < row.length := by
      by_contra hle
      exact hfit ⟨hzero, by omega⟩
    have hpos : 0 < str.len := by
      by_contra hle
      exact hover (Or.inr ⟨by omega, hlength⟩)
    have hcount := CString.length_shown hpos
    have hshown : str.shown = str.bytes.take str.len.toNat := if_neg hzero
    have hstore := storeFrom_then_store (by omega : str.shown.length < row.length) 0 some
    rw [hcount] at hstore
    rw [putString, if_neg hzero, if_pos (by omega), if_neg (by omega), ← hshown, hstore, writtenRow,
      hcount]

theorem CString.len_nonneg (hover : ¬ Overruns row str) (hfit : ¬ TooShort row str) :
    0 ≤ str.len := by
  by_contra hneg
  by_cases hlength : str.len + 1 < row.length
  · exact hover (Or.inr ⟨by omega, hlength⟩)
  · exact hfit ⟨by omega, by omega⟩

end

namespace CString

variable {str : CString}

theorem zero_not_mem_shown : 0 ∉ str.shown := by
  unfold shown
  split
  · decide
  · exact fun hx ↦ str.nulFree (List.mem_of_mem_take hx)

theorem shown_ne_nil (h : 0 ≤ str.len) : str.shown ≠ [] := by
  by_cases hzero : str.len = 0
  · rw [shown, if_pos hzero]
    exact List.cons_ne_nil 32 []
  · have hlength := length_shown (by omega : 0 < str.len)
    intro hnil
    rw [hnil, List.length_nil] at hlength
    omega

theorem len_lt (str : CString) : str.len < 2 ^ 31 := int32_lt _

theorem len_of_lt (str : CString) (h : str.bytes.length < 2 ^ 31) :
    str.len = str.bytes.length := int32_natCast h

theorem shown_eq_spaced_iff (h : 0 ≤ str.len) :
    str.shown = str.spaced ↔ str.bytes.length < 2 ^ 31 := by
  have hlt := str.len_lt
  constructor
  · intro heq
    by_contra hge
    have hlength := congrArg List.length heq
    have hne : str.bytes ≠ [] := by
      rintro hnil
      rw [hnil, List.length_nil] at hge
      omega
    rw [spaced, if_neg hne] at hlength
    by_cases hzero : str.len = 0
    · rw [shown, if_pos hzero, List.length_singleton] at hlength
      omega
    · rw [length_shown (by omega)] at hlength
      omega
  · intro hshort
    have hlen := str.len_of_lt hshort
    unfold shown spaced
    by_cases hnil : str.bytes = []
    · rw [if_pos hnil, if_pos (by rw [hlen, hnil]; rfl)]
    · have hpos := List.length_pos_iff.mpr hnil
      rw [if_neg hnil, if_neg (by omega), hlen, Int.toNat_natCast, List.take_length]

end CString

/-- The strings that go into rows, with their rows, up to the first that does not
fit. -/
def fitting (rows : List Row) (strs : List CString) : List (Row × CString) :=
  (rows.zip strs).takeWhile fun p ↦ decide (¬ TooShort p.1 p.2)

theorem not_tooShort_of_mem {rows : List Row} {strs : List CString} {p : Row × CString}
    (h : p ∈ fitting rows strs) : ¬ TooShort p.1 p.2 :=
  of_decide_eq_true (List.all_eq_true.mp List.all_takeWhile p h)

theorem fitting_cons_of_fits {row : Row} {str : CString} {rows : List Row} {strs : List CString}
    (h : ¬ TooShort row str) :
    fitting (row :: rows) (str :: strs) = (row, str) :: fitting rows strs := by
  rw [fitting, List.zip_cons_cons, List.takeWhile_cons_of_pos (by simpa using h), fitting]

theorem fitting_cons_of_tooShort {row : Row} {str : CString} {rows : List Row}
    {strs : List CString} (h : TooShort row str) : fitting (row :: rows) (str :: strs) = [] := by
  rw [fitting, List.zip_cons_cons, List.takeWhile_cons_of_neg (by simpa using h)]

theorem fillRows_eq {rows : List Row} {strs : List CString}
    (h : ∀ p ∈ fitting rows strs, ¬ Overruns p.1 p.2) :
    fillRows rows strs = some
      ⟨decide ((fitting rows strs).length = min rows.length strs.length),
        (fitting rows strs).map fun p ↦ writtenRow p.1 p.2,
        rows.drop (fitting rows strs).length⟩ := by
  induction rows generalizing strs with
  | nil => cases strs <;> rfl
  | cons row rows ih =>
    cases strs with
    | nil => rfl
    | cons str strs =>
      by_cases hshort : TooShort row str
      · rw [fillRows, putString_tooShort hshort, fitting_cons_of_tooShort hshort]
        simp
      · rw [fitting_cons_of_fits hshort] at h ⊢
        have hover : ¬ Overruns row str := h (row, str) List.mem_cons_self
        have htail := ih fun p hp ↦ h p (List.mem_cons_of_mem _ hp)
        rw [fillRows, putString_fits hover hshort, Option.bind_some, htail]
        simp [Nat.succ_min_succ]

theorem fillRows_eq_none {rows : List Row} {strs : List CString}
    (h : ∃ p ∈ fitting rows strs, Overruns p.1 p.2) : fillRows rows strs = none := by
  induction rows generalizing strs with
  | nil =>
    obtain ⟨p, hp, -⟩ := h
    cases hp
  | cons row rows ih =>
    obtain ⟨p, hp, hover⟩ := h
    cases strs with
    | nil => cases hp
    | cons str strs =>
      by_cases hshort : TooShort row str
      · rw [fitting_cons_of_tooShort hshort] at hp
        cases hp
      · rw [fitting_cons_of_fits hshort] at hp
        by_cases hhead : Overruns row str
        · rw [fillRows, putString_overruns hhead, Option.bind_none]
        · rcases List.mem_cons.mp hp with rfl | hp
          · exact absurd hover hhead
          · rw [fillRows, putString_fits hhead hshort, Option.bind_some, ih ⟨p, hp, hover⟩]
            rfl

theorem cutRow_writtenRow (row : Row) (str : CString) :
    cutRow (writtenRow row str) = str.shown := by
  have hall : ∀ b ∈ str.shown, decide (b ≠ 0) = true := fun b hb ↦
    decide_eq_true fun hx ↦ CString.zero_not_mem_shown (hx ▸ hb)
  rw [cutRow, writtenRow, List.takeWhile_append_of_pos hall, List.takeWhile_cons_of_neg (by simp),
    List.append_nil]

theorem startsZero_writtenRow {row : Row} {str : CString} (h : 0 ≤ str.len) :
    startsZero (writtenRow row str) = false := by
  obtain ⟨b, bytes, hbytes⟩ := List.exists_cons_of_ne_nil (CString.shown_ne_nil h)
  have hmem : b ∈ str.shown := hbytes ▸ List.mem_cons_self
  refine decide_eq_false fun hx ↦ ?_
  rw [writtenRow, hbytes] at hx
  have hzero : b = 0 := Option.some.inj hx
  exact CString.zero_not_mem_shown (hzero ▸ hmem)

theorem readRows_append {ps : List (Row × CString)} (h : ∀ p ∈ ps, 0 ≤ p.2.len)
    (left : List Row) :
    readRows ((ps.map fun p ↦ writtenRow p.1 p.2) ++ left) =
      (ps.map fun p ↦ p.2.shown) ++ readRows left := by
  have hall : ∀ row ∈ ps.map (fun p ↦ writtenRow p.1 p.2), (!startsZero row) = true := by
    intro row hrow
    obtain ⟨p, hp, rfl⟩ := List.mem_map.mp hrow
    rw [startsZero_writtenRow (h p hp), Bool.not_false]
  have hcut : (ps.map fun p ↦ writtenRow p.1 p.2).map cutRow = ps.map fun p ↦ p.2.shown := by
    rw [List.map_map]
    refine List.map_congr_left fun p _ ↦ ?_
    rw [Function.comp_apply, cutRow_writtenRow]
  rw [readRows, List.takeWhile_append_of_pos hall, List.map_append, hcut, readRows]

theorem readRows_cons_eq_nil_iff {row : Row} {rows : List Row} :
    readRows (row :: rows) = [] ↔ row.head? = some 0 := by
  by_cases h : row.head? = some 0
  · simp [readRows, startsZero, h]
  · simp [readRows, startsZero, h]

/-- The buffer encodes the list, or the call says that it does not fit. -/
def Encodes (strs : List CString) (result : Option (List Row × ℤ)) : Prop :=
  ∃ rows retval, result = some (rows, retval) ∧
    (0 ≤ retval → readRows rows = strs.map CString.spaced) ∧
    (retval < 0 → retval = -cpleAppDefined)

/-- No string overruns its row, and where all have got one, the row after them can
end the list. -/
structure Sound (rows : List Row) (strs : List CString) : Prop where
  inside : ∀ p ∈ fitting rows strs, ¬ Overruns p.1 p.2
  ended : (fitting rows strs).length = strs.length → ∀ row, rows[strs.length]? = some row →
    (∀ str ∈ strs, str.bytes.length < 2 ^ 31) ∧
      if strs.length + 1 = rows.length then row.head? = some 0 else row ≠ []

theorem length_fitting_le (rows : List Row) (strs : List CString) :
    (fitting rows strs).length ≤ min rows.length strs.length := by
  rw [← List.length_zip]
  exact (List.takeWhile_sublist _).length_le

theorem map_snd_fitting {rows : List Row} {strs : List CString}
    (h : (fitting rows strs).length = strs.length) : (fitting rows strs).map Prod.snd = strs := by
  have hle := length_fitting_le rows strs
  have hfull : fitting rows strs = rows.zip strs := by
    refine (List.takeWhile_sublist _).eq_of_length ?_
    rw [List.length_zip]
    exact h.trans (by omega)
  rw [hfull, List.map_snd_zip (by omega)]

theorem length_writtenRow {row : Row} {str : CString} (hover : ¬ Overruns row str)
    (hshort : ¬ TooShort row str) : (writtenRow row str).length = row.length := by
  have hlength : str.shown.length + 1 ≤ row.length := by
    by_cases hzero : str.len = 0
    · have hrow : ¬ row.length < 2 := fun hx ↦ hover (Or.inl ⟨hzero, hx⟩)
      rw [CString.shown, if_pos hzero, List.length_singleton]
      omega
    · have hpos := CString.len_nonneg hover hshort
      have hrow : ¬ (row.length : ℤ) ≤ str.len + 1 := fun hx ↦ hshort ⟨hzero, hx⟩
      rw [CString.length_shown (by omega)]
      omega
  rw [writtenRow, List.length_append, List.length_cons, List.length_drop]
  omega

theorem encodeList_eq {retval : ℤ} (hretval : 0 ≤ retval) {list : Option (List CString)}
    {rows : List Row} (h : ∀ p ∈ fitting rows (list.getD []), ¬ Overruns p.1 p.2) :
    encodeList retval list rows =
      let ps := fitting rows (list.getD [])
      let written := ps.map fun p ↦ writtenRow p.1 p.2
      if ps.length = (list.getD []).length then
        match rows.drop ps.length with
        | [] => some (written, -cpleAppDefined)
        | [row] => some (written ++ [row], retval)
        | row :: rows => (store row 0 0).map fun row ↦ (written ++ row :: rows, retval)
      else some (written ++ rows.drop ps.length, -cpleAppDefined) := by
  have hle := length_fitting_le rows (list.getD [])
  rw [encodeList, if_neg (by omega), fillRows_eq h]
  dsimp only [Option.bind_eq_bind, Option.bind_some]
  rw [List.length_map]
  generalize fitting rows (list.getD []) = ps at hle ⊢
  by_cases hall : ps.length = (list.getD []).length
  · have hmin : ps.length = min rows.length (list.getD []).length := by omega
    have hdrop : (rows.drop ps.length).length = rows.length - ps.length := List.length_drop
    rw [if_pos hall, if_pos (decide_eq_true hmin)]
    rcases hleft : rows.drop ps.length with _ | ⟨row, _ | ⟨row', rest⟩⟩
    all_goals rw [hleft] at hdrop
    · rw [List.length_nil] at hdrop
      rw [if_neg (by omega), if_pos (by omega), List.append_nil]
    · rw [List.length_singleton] at hdrop
      rw [if_neg (by omega), if_neg (by omega)]
    · rw [List.length_cons, List.length_cons] at hdrop
      rw [if_pos (by omega), if_neg (by omega), terminate, Option.bind_map]
      dsimp only
      cases store row 0 0 <;> rfl
  · rw [if_neg hall]
    by_cases hmin : ps.length = min rows.length (list.getD []).length
    · have hnil : rows.drop ps.length = [] := List.drop_eq_nil_iff.mpr (by omega)
      have hlength := List.drop_eq_nil_iff.mp hnil
      rw [if_pos (decide_eq_true hmin), if_neg (by omega), hnil, if_pos (by omega)]
    · rw [if_neg (by simpa using hmin)]

theorem encodeList_overruns {retval : ℤ} (hretval : 0 ≤ retval) {list : Option (List CString)}
    {rows : List Row} (h : ∃ p ∈ fitting rows (list.getD []), Overruns p.1 p.2) :
    encodeList retval list rows = none := by
  rw [encodeList, if_neg (by omega), fillRows_eq_none h]
  rfl

theorem len_nonneg_of_mem {rows : List Row} {strs : List CString}
    (h : ∀ p ∈ fitting rows strs, ¬ Overruns p.1 p.2) :
    ∀ p ∈ fitting rows strs, 0 ≤ p.2.len :=
  fun p hp ↦ CString.len_nonneg (h p hp) (not_tooShort_of_mem hp)

theorem readRows_written {rows : List Row} {strs : List CString}
    (h : ∀ p ∈ fitting rows strs, ¬ Overruns p.1 p.2)
    (hall : (fitting rows strs).length = strs.length) (left : List Row) :
    readRows (((fitting rows strs).map fun p ↦ writtenRow p.1 p.2) ++ left) =
      strs.map CString.shown ++ readRows left := by
  have hstrs : ((fitting rows strs).map fun p ↦ p.2.shown) = strs.map CString.shown := by
    rw [← congrArg (List.map CString.shown) (map_snd_fitting hall), List.map_map, Function.comp_def]
  rw [readRows_append (len_nonneg_of_mem h), hstrs]

theorem readRows_written_iff {rows : List Row} {strs : List CString}
    (h : ∀ p ∈ fitting rows strs, ¬ Overruns p.1 p.2)
    (hall : (fitting rows strs).length = strs.length) (left : List Row) :
    readRows (((fitting rows strs).map fun p ↦ writtenRow p.1 p.2) ++ left) =
        strs.map CString.spaced ↔
      readRows left = [] ∧ ∀ str ∈ strs, str.bytes.length < 2 ^ 31 := by
  rw [readRows_written h hall, map_append_eq_map_iff]
  refine and_congr_right fun _ ↦ forall₂_congr fun str hstr ↦ CString.shown_eq_spaced_iff ?_
  obtain ⟨p, hp, rfl⟩ := List.mem_map.mp ((map_snd_fitting hall).symm ▸ hstr)
  exact len_nonneg_of_mem h p hp

theorem encodes_iff_sound {retval : ℤ} (hretval : 0 ≤ retval) (list : Option (List CString))
    (rows : List Row) :
    Encodes (list.getD []) (encodeList retval list rows) ↔ Sound rows (list.getD []) := by
  by_cases hinside : ∀ p ∈ fitting rows (list.getD []), ¬ Overruns p.1 p.2
  case neg =>
    refine iff_of_false ?_ fun h ↦ hinside h.inside
    push Not at hinside
    rw [encodeList_overruns hretval hinside]
    exact fun ⟨_, _, h, _⟩ ↦ nomatch h
  case pos =>
    have hended : Sound rows (list.getD []) ↔ _ := ⟨fun h ↦ h.ended, fun h ↦ ⟨hinside, h⟩⟩
    have hnegative {rows : List Row} :
        Encodes (list.getD []) (some (rows, -cpleAppDefined)) :=
      ⟨rows, _, rfl, fun h ↦ absurd h (by decide), fun _ ↦ rfl⟩
    have hpositive {rows : List Row} : Encodes (list.getD []) (some (rows, retval)) ↔
        readRows rows = (list.getD []).map CString.spaced := by
      constructor
      · rintro ⟨rows', retval', heq, hread, -⟩
        cases heq
        exact hread hretval
      · exact fun h ↦ ⟨rows, retval, rfl, fun _ ↦ h, fun hneg ↦ by omega⟩
    rw [hended, encodeList_eq hretval hinside]
    dsimp only
    by_cases hall : (fitting rows (list.getD [])).length = (list.getD []).length
    case neg =>
      rw [if_neg hall]
      exact iff_of_true hnegative fun h ↦ absurd h hall
    case pos =>
      have hread := readRows_written_iff hinside hall
      have hrow := List.head?_drop (l := rows) (i := (list.getD []).length)
      have hdrop : (rows.drop (list.getD []).length).length = rows.length - (list.getD []).length :=
        List.length_drop
      rw [if_pos hall, hall, forall_prop_of_true rfl, ← hrow]
      rcases hleft : rows.drop (list.getD []).length with _ | ⟨row, _ | ⟨row', rest⟩⟩
      all_goals rw [hleft] at hdrop
      · exact iff_of_true hnegative fun row hx ↦ nomatch hx
      · rw [List.length_singleton] at hdrop
        simp only [List.head?_cons, Option.some.injEq, forall_eq']
        rw [hpositive, hread, readRows_cons_eq_nil_iff, if_pos (by omega), and_comm]
      · rw [List.length_cons, List.length_cons] at hdrop
        simp only [List.head?_cons, Option.some.injEq, forall_eq']
        rw [if_neg (by omega)]
        cases row with
        | nil => exact iff_of_false (fun ⟨_, _, h, _⟩ ↦ nomatch h) fun h ↦ h.2 rfl
        | cons b row =>
          have hstore : store (b :: row) 0 0 = some (0 :: row) := rfl
          rw [hstore, Option.map_some, hpositive, hread, readRows_cons_eq_nil_iff, and_comm]
          exact and_congr_right fun _ ↦ iff_of_true rfl (List.cons_ne_nil b row)

/-- The JNI functions fill the caller's buffer correctly exactly when no string
overruns its row and the row after the last string can end the list. -/
theorem encodes_metadata_iff_sound {retval : ℤ} (hretval : 0 ≤ retval)
    (list : Option (List CString)) (rows : List Row) :
    (Encodes (list.getD []) (jniGetMetadataDomainList retval list rows) ↔
      Sound rows (list.getD [])) ∧
    (Encodes (list.getD []) (jniGetMetadata retval list rows) ↔ Sound rows (list.getD [])) :=
  ⟨encodes_iff_sound hretval list rows, encodes_iff_sound hretval list rows⟩

def letterA : CString := ⟨[97], by decide⟩

theorem encodes_metadata_iff_sound_two_strings :
    Encodes [letterA, emptyString] (jniGetMetadata 1 (some [letterA, emptyString])
      [[7, 7, 7], [7, 7], [0]]) := by
  refine (encodes_metadata_iff_sound (by decide) (some [letterA, emptyString])
    [[7, 7, 7], [7, 7], [0]]).2.mpr ⟨by decide, ?_⟩
  rintro - row hrow
  cases hrow
  exact ⟨by decide, by decide⟩

/-- The row after the last string keeps what it held. -/
theorem stale_last_row_read :
    ¬ Encodes [letterA] (jniGetMetadata 1 (some [letterA]) [[0, 0, 0], [98, 0, 0]]) := by
  rintro ⟨rows, retval, heq, hread, -⟩
  have hresult : jniGetMetadata 1 (some [letterA]) [[0, 0, 0], [98, 0, 0]] =
      some ([[97, 0, 0], [98, 0, 0]], 1) := by decide
  cases hresult.symm.trans heq
  exact absurd (hread (by decide)) (by decide)

end GdalWarp.Bindings
