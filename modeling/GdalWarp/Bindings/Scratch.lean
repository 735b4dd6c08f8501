import Mathlib.Data.List.DropRight
import GdalWarp.Foundation.Machine
import GdalWarp.Bindings.StringMatrix

namespace GdalWarp.Bindings

open Foundation Buffer

def utf8Bytes (s : String) : List UInt8 := s.toByteArray.data.toList

/-- `new String(bytes, ..., "UTF-8")`. Java leaves open what bytes that are not
UTF-8 become. -/
def newString (malformed : List UInt8 → String) (bytes : List UInt8) : String :=
  if h : (ByteArray.mk bytes.toArray).IsValidUTF8 then .fromUTF8 ⟨bytes.toArray⟩ h
  else malformed bytes

def isBlank (c : Char) : Bool := decide (c.val ≤ 32)

def trim (s : String) : String := .ofList ((s.toList.dropWhile isBlank).rdropWhile isBlank)

structure Entry where
  text : String
  nulFree : 0 ∉ utf8Bytes text

def Entry.cString (entry : Entry) : CString := ⟨utf8Bytes entry.text, entry.nulFree⟩

inductive MetadataMethod where
  | getMetadataDomainList
  | getMetadata

def MetadataMethod.native : MetadataMethod → ℤ → Option (List CString) → List Row →
    Option (List Row × ℤ)
  | .getMetadataDomainList => jniGetMetadataDomainList
  | .getMetadata => jniGetMetadata

/-- A call from Java, the list that GDAL has for it, and the number of attempts
that each of its native queries takes. -/
structure MetadataCall where
  method : MetadataMethod
  list : Option (List Entry)
  attempts : ℕ → ℕ

inductive MetadataOutcome where
  | delivered (strings : List String)
  | failed (retval : ℤ)
  | thrown
  | overrun

namespace MetadataCall

def strings (call : MetadataCall) : List String := (call.list.getD []).map Entry.text

def cStrings (call : MetadataCall) : List CString :=
  (call.list.map (List.map Entry.cString)).getD []

end MetadataCall

-- `new byte[len][len]`
def blankMatrix (len : ℕ) : List Row := List.replicate len (List.replicate len 0)

def countRows : List Row → Option ℕ
  | [] => none
  | [] :: _ => none
  | (b :: _) :: rows => if b ≠ 0 then (countRows rows).map fun n ↦ n + 1 else some 0

def scanRow : ℕ → Row → Option (List UInt8)
  | 0, _ => some []
  | _ + 1, [] => none
  | n + 1, b :: row => if b ≠ 0 then (scanRow n row).map fun bytes ↦ b :: bytes else some []

variable (malformed : List UInt8 → String)

def decodeRows (arrayLen : ℕ) (rows : List Row) : Option (List String) :=
  (countRows rows).bind fun n ↦
    (rows.take n).mapM fun row ↦ (scanRow arrayLen row).map fun bytes ↦
      trim (newString malformed bytes)

/-- The Java methods, from the native query on. A matrix that is too small is
replaced by one of twice its size. -/
def fetchList (call : MetadataCall) (turn : ℕ) (rows : List Row) : MetadataOutcome × List Row :=
  match call.method.native (call.attempts turn) (call.list.map (List.map Entry.cString)) rows with
  | none => (.overrun, rows)
  | some (filled, retval) =>
    if retval ≥ 0 then
      match decodeRows malformed rows.length filled with
      | none => (.thrown, filled)
      | some strings => (.delivered strings, filled)
    else if retval = -1 then
      -- from 2 ^ 30 rows on, `len << 1` is not a size; without rows the recursion does not end
      if rows.length ≠ 0 ∧ rows.length * 2 < 2 ^ 31 then
        fetchList call (turn + 1) (blankMatrix (rows.length * 2))
      else (.thrown, filled)
    else (.failed retval, filled)
termination_by 2 ^ 31 - rows.length
decreasing_by
  rw [blankMatrix, List.length_replicate]
  omega

/-- A square matrix whose last row would end a list. -/
structure Tidy (n : ℕ) (rows : List Row) : Prop where
  length : rows.length = n
  width : ∀ row ∈ rows, row.length = n
  last : ∀ row, rows.getLast? = some row → startsZero row = true

/-- A list that a matrix of size `n` has room for. -/
def FitsIn (n : ℕ) (strs : List CString) : Prop :=
  strs.length < n ∧ ∀ str ∈ strs, 0 ≤ str.len ∧ str.len + 1 < n

theorem FitsIn.mono {m n : ℕ} {strs : List CString} (h : FitsIn m strs) (hmn : m ≤ n) :
    FitsIn n strs := by
  have hcount := h.1
  refine ⟨by omega, fun str hstr ↦ ?_⟩
  have hlength := h.2 str hstr
  omega

theorem tidy_blankMatrix {n : ℕ} (h : 0 < n) : Tidy n (blankMatrix n) := by
  refine ⟨List.length_replicate, fun row hrow ↦ ?_, fun row hrow ↦ ?_⟩
  · rw [List.eq_of_mem_replicate hrow, List.length_replicate]
  · obtain ⟨m, rfl⟩ := Nat.exists_eq_succ_of_ne_zero (by omega : n ≠ 0)
    rw [List.eq_of_mem_replicate (List.mem_of_getLast? hrow)]
    rfl

namespace Tidy

variable {n : ℕ} {rows : List Row} {strs : List CString}

theorem inside (h : Tidy n rows) (hn : 2 ≤ n) (hlen : ∀ str ∈ strs, 0 ≤ str.len) :
    ∀ p ∈ fitting rows strs, ¬ Overruns p.1 p.2 := by
  intro p hp hover
  obtain ⟨hrow, hstr⟩ := List.of_mem_zip ((List.takeWhile_sublist _).subset hp)
  have hwidth := h.width p.1 hrow
  have hpos := hlen p.2 hstr
  rcases hover with ⟨-, hlt⟩ | ⟨hneg, -⟩ <;> omega

theorem length_fitting (h : Tidy n rows) (hfit : FitsIn n strs) :
    (fitting rows strs).length = strs.length := by
  have hall : fitting rows strs = rows.zip strs := by
    refine List.takeWhile_eq_self_iff.mpr fun p hp ↦ decide_eq_true fun hshort ↦ ?_
    obtain ⟨hrow, hstr⟩ := List.of_mem_zip hp
    have hwidth := h.width p.1 hrow
    have hlength := hfit.2 p.2 hstr
    have hle := hshort.2
    omega
  have hlength := h.length
  have hcount := hfit.1
  rw [hall, List.length_zip]
  omega

theorem written {left : List Row} (h : Tidy n rows) (hn : 2 ≤ n) (hfit : FitsIn n strs)
    (hleft : left ≠ []) (hwidth : ∀ row ∈ left, row.length = n)
    (hlength : strs.length + left.length = n)
    (hlast : ∀ row, left.getLast? = some row → startsZero row = true) :
    Tidy n (((fitting rows strs).map fun p ↦ writtenRow p.1 p.2) ++ left) := by
  have hinside := h.inside hn fun str hstr ↦ (hfit.2 str hstr).1
  refine ⟨?_, fun row hrow ↦ ?_, ?_⟩
  · rw [List.length_append, List.length_map, h.length_fitting hfit, hlength]
  · rcases List.mem_append.mp hrow with hrow | hrow
    · obtain ⟨p, hp, rfl⟩ := List.mem_map.mp hrow
      rw [length_writtenRow (hinside p hp) (not_tooShort_of_mem hp)]
      exact h.width p.1 (List.of_mem_zip ((List.takeWhile_sublist _).subset hp)).1
    · exact hwidth row hrow
  · rw [List.getLast?_append_of_ne_nil _ hleft]
    exact hlast

theorem encode_fits (h : Tidy n rows) (hn : 2 ≤ n) {list : Option (List CString)}
    (hfit : FitsIn n (list.getD [])) {retval : ℤ} (hretval : 0 ≤ retval) :
    ∃ filled, encodeList retval list rows = some (filled, retval) ∧ Tidy n filled ∧
      readRows filled = (list.getD []).map CString.shown := by
  have hinside := h.inside hn fun str hstr ↦ (hfit.2 str hstr).1
  have hall := h.length_fitting hfit
  have hcount := hfit.1
  have hrows := h.length
  have hdrop : (rows.drop (list.getD []).length).length = rows.length - (list.getD []).length :=
    List.length_drop
  have hlast := List.getLast?_drop (l := rows) (i := (list.getD []).length)
  rw [if_neg (by omega)] at hlast
  have hwidth : ∀ row ∈ rows.drop (list.getD []).length, row.length = n := fun row hrow ↦
    h.width row (List.mem_of_mem_drop hrow)
  have hread := readRows_written hinside hall
  rw [encodeList_eq hretval hinside]
  dsimp only
  rw [if_pos hall, hall]
  rcases hleft : rows.drop (list.getD []).length with _ | ⟨row, _ | ⟨row', rest⟩⟩
  all_goals rw [hleft] at hdrop hlast hwidth
  · rw [List.length_nil] at hdrop
    omega
  · have hend : startsZero row = true := h.last row hlast.symm
    refine ⟨_, rfl, h.written hn hfit (List.cons_ne_nil row []) hwidth ?_ ?_, ?_⟩
    · rw [List.length_singleton] at hdrop ⊢
      omega
    · exact fun last hx ↦ Option.some.inj hx ▸ hend
    · rw [hread, readRows_cons_eq_nil_iff.mpr (of_decide_eq_true hend), List.append_nil]
  · cases row with
    | nil =>
      have hzero := hwidth [] List.mem_cons_self
      rw [List.length_nil] at hzero
      omega
    | cons b row =>
      have hstore : store (b :: row) 0 0 = some (0 :: row) := rfl
      dsimp only
      rw [hstore]
      refine ⟨_, rfl, h.written hn hfit (List.cons_ne_nil _ _) (fun r hr ↦ ?_) ?_ ?_, ?_⟩
      · rcases List.mem_cons.mp hr with rfl | hr
        · exact hwidth (b :: row) List.mem_cons_self
        · exact hwidth r (List.mem_cons_of_mem _ hr)
      · rw [List.length_cons] at hdrop ⊢
        omega
      · intro last hx
        rw [List.getLast?_cons_cons] at hx hlast
        exact h.last last (hlast ▸ hx)
      · rw [hread, readRows_cons_eq_nil_iff.mpr rfl, List.append_nil]

theorem encode_too_small (h : Tidy n rows) (hn : 2 ≤ n) {list : Option (List CString)}
    (hinside : ∀ p ∈ fitting rows (list.getD []), ¬ Overruns p.1 p.2)
    (hfit : ¬ FitsIn n (list.getD [])) {retval : ℤ} (hretval : 0 ≤ retval) :
    ∃ filled, encodeList retval list rows = some (filled, -cpleAppDefined) := by
  rw [encodeList_eq hretval hinside]
  dsimp only
  by_cases hall : (fitting rows (list.getD [])).length = (list.getD []).length
  · have hrows := h.length
    have hcount : n ≤ (list.getD []).length := by
      by_contra hlt
      refine hfit ⟨by omega, fun str hstr ↦ ?_⟩
      obtain ⟨p, hp, rfl⟩ := List.mem_map.mp ((map_snd_fitting hall).symm ▸ hstr)
      refine ⟨len_nonneg_of_mem hinside p hp, ?_⟩
      have hshort := not_tooShort_of_mem hp
      have hwidth := h.width p.1 (List.of_mem_zip ((List.takeWhile_sublist _).subset hp)).1
      by_contra hle
      exact hshort ⟨by omega, by omega⟩
    have hnil : rows.drop (fitting rows (list.getD [])).length = [] :=
      List.drop_eq_nil_iff.mpr (by omega)
    rw [if_pos hall, hnil]
    exact ⟨_, rfl⟩
  · rw [if_neg hall]
    exact ⟨_, rfl⟩

theorem exists_startsZero (h : Tidy n rows) (hn : 0 < n) :
    ∃ row ∈ rows, startsZero row = true := by
  have hne : rows ≠ [] := List.ne_nil_of_length_pos (by rw [h.length]; exact hn)
  have hlast := List.getLast?_eq_some_getLast hne
  exact ⟨rows.getLast hne, List.getLast_mem hne, h.last _ hlast⟩

end Tidy

theorem countRows_eq {rows : List Row} (h : ∀ row ∈ rows, row ≠ [])
    (hend : ∃ row ∈ rows, startsZero row = true) :
    ∃ n, countRows rows = some n ∧ rows.take n = rows.takeWhile fun row ↦ !startsZero row := by
  induction rows with
  | nil =>
    obtain ⟨row, hrow, -⟩ := hend
    cases hrow
  | cons row rows ih =>
    obtain ⟨b, bytes, rfl⟩ := List.exists_cons_of_ne_nil (h row List.mem_cons_self)
    by_cases hb : b = 0
    · refine ⟨0, by rw [countRows, if_neg (not_not.mpr hb)], ?_⟩
      rw [List.take_zero, List.takeWhile_cons_of_neg (by simp [startsZero, hb])]
    · have htail : ∃ row ∈ rows, startsZero row = true := by
        obtain ⟨row, hrow, hzero⟩ := hend
        rcases List.mem_cons.mp hrow with rfl | hrow
        · exact absurd (Option.some.inj (of_decide_eq_true hzero)) hb
        · exact ⟨row, hrow, hzero⟩
      obtain ⟨n, hn, htake⟩ := ih (fun row hrow ↦ h row (List.mem_cons_of_mem _ hrow)) htail
      refine ⟨n + 1, by rw [countRows, if_pos hb, hn, Option.map_some], ?_⟩
      rw [List.take_succ_cons, htake, List.takeWhile_cons_of_pos (by simp [startsZero, hb])]

theorem scanRow_eq (row : Row) : scanRow row.length row = some (cutRow row) := by
  induction row with
  | nil => rfl
  | cons b row ih =>
    rw [List.length_cons, scanRow]
    by_cases hb : b = 0
    · rw [if_neg (not_not.mpr hb), cutRow, List.takeWhile_cons_of_neg (by simpa using hb)]
    · rw [if_pos hb, ih, Option.map_some, cutRow, cutRow,
        List.takeWhile_cons_of_pos (by simpa using hb)]

variable {malformed} in
theorem Tidy.decodeRows_eq {n : ℕ} {rows : List Row} (h : Tidy n rows) (hn : 0 < n) :
    decodeRows malformed n rows =
      some ((readRows rows).map fun bytes ↦ trim (newString malformed bytes)) := by
  have hne : ∀ row ∈ rows, row ≠ [] := fun row hrow hnil ↦ by
    have hwidth := h.width row hrow
    rw [hnil, List.length_nil] at hwidth
    omega
  obtain ⟨count, hcount, htake⟩ := countRows_eq hne (h.exists_startsZero hn)
  have hscan : ∀ row ∈ rows.takeWhile fun row ↦ !startsZero row,
      (scanRow n row).map (fun bytes ↦ trim (newString malformed bytes)) =
        some (trim (newString malformed (cutRow row))) := by
    intro row hrow
    have hwidth := h.width row ((List.takeWhile_sublist _).subset hrow)
    rw [← hwidth, scanRow_eq, Option.map_some]
  rw [decodeRows, hcount, Option.bind_some, htake, mapM_eq_some_map hscan, readRows, List.map_map]
  rfl

theorem native_eq (method : MetadataMethod) : method.native = encodeList := by
  cases method <;> rfl

theorem Tidy.fetch_fits (turn : ℕ) {n : ℕ} {rows : List Row} {call : MetadataCall} (h : Tidy n rows)
    (hn : 2 ≤ n) (hfit : FitsIn n call.cStrings) :
    ∃ filled, Tidy n filled ∧ fetchList malformed call turn rows =
      (.delivered (call.cStrings.map fun str ↦ trim (newString malformed str.shown)), filled) := by
  have hretval : (0 : ℤ) ≤ call.attempts turn := Int.natCast_nonneg _
  obtain ⟨filled, hfilled, htidy, hread⟩ := h.encode_fits hn hfit hretval
  refine ⟨filled, htidy, ?_⟩
  rw [fetchList, native_eq, hfilled]
  dsimp only
  rw [if_pos hretval, h.length, htidy.decodeRows_eq (by omega), hread, List.map_map]
  rfl

theorem Tidy.fetch_too_small (turn : ℕ) {n : ℕ} {rows : List Row} {call : MetadataCall}
    (h : Tidy n rows) (hn : 2 ≤ n) (hgrow : n * 2 < 2 ^ 31)
    (hlen : ∀ str ∈ call.cStrings, 0 ≤ str.len) (hfit : ¬ FitsIn n call.cStrings) :
    fetchList malformed call turn rows =
      fetchList malformed call (turn + 1) (blankMatrix (n * 2)) := by
  have hretval : (0 : ℤ) ≤ call.attempts turn := Int.natCast_nonneg _
  obtain ⟨filled, hfilled⟩ := h.encode_too_small hn (h.inside hn hlen) hfit hretval
  rw [fetchList, native_eq, hfilled]
  dsimp only
  rw [if_neg (by decide), if_pos (by decide), h.length, if_pos ⟨by omega, hgrow⟩]

theorem fetchList_delivers {call : MetadataCall} (hfit : FitsIn (2 ^ 30) call.cStrings)
    (m turn : ℕ) {k : ℕ} (hk : 1 ≤ k) (hm : k + m = 30) {rows : List Row} (h : Tidy (2 ^ k) rows) :
    ∃ k' filled, 1 ≤ k' ∧ k' ≤ 30 ∧ Tidy (2 ^ k') filled ∧
      fetchList malformed call turn rows =
        (.delivered (call.cStrings.map fun str ↦ trim (newString malformed str.shown)),
          filled) := by
  induction m generalizing k turn rows with
  | zero =>
    obtain rfl : k = 30 := by omega
    obtain ⟨filled, htidy, hfetch⟩ := h.fetch_fits malformed turn (by decide) hfit
    exact ⟨30, filled, hk, le_rfl, htidy, hfetch⟩
  | succ m ih =>
    have hsize : 2 ≤ 2 ^ k := Nat.le_self_pow (by omega) 2
    by_cases hroom : FitsIn (2 ^ k) call.cStrings
    · obtain ⟨filled, htidy, hfetch⟩ := h.fetch_fits malformed turn hsize hroom
      exact ⟨k, filled, hk, by omega, htidy, hfetch⟩
    · have hgrow : 2 ^ (k + 1) < 2 ^ 31 := Nat.pow_lt_pow_right (by omega) (by omega)
      have htidy : Tidy (2 ^ (k + 1)) (blankMatrix (2 ^ (k + 1))) := tidy_blankMatrix (by omega)
      have hlen : ∀ str ∈ call.cStrings, 0 ≤ str.len := fun str hstr ↦ (hfit.2 str hstr).1
      rw [h.fetch_too_small malformed turn hsize hgrow hlen hroom, ← Nat.pow_succ]
      exact ih (turn + 1) (by omega) (by omega) htidy

/-- A list without room in 2 ^ 30 rows ends in the exception that doubling them
throws. -/
theorem fetchList_thrown {call : MetadataCall} (hlen : ∀ str ∈ call.cStrings, 0 ≤ str.len)
    (hfit : ¬ FitsIn (2 ^ 30) call.cStrings) (m turn : ℕ) {k : ℕ} (hk : 1 ≤ k)
    (hm : k + m = 30) {rows : List Row} (h : Tidy (2 ^ k) rows) :
    ∃ filled, fetchList malformed call turn rows = (.thrown, filled) := by
  induction m generalizing k turn rows with
  | zero =>
    obtain rfl : k = 30 := by omega
    have hretval : (0 : ℤ) ≤ call.attempts turn := Int.natCast_nonneg _
    have hinside := h.inside (by decide) hlen
    obtain ⟨filled, hfilled⟩ := h.encode_too_small (by decide) hinside hfit hretval
    refine ⟨filled, ?_⟩
    rw [fetchList, native_eq, hfilled]
    dsimp only
    rw [if_neg (by decide), if_pos (by decide), h.length, if_neg (by omega)]
  | succ m ih =>
    have hsize : 2 ≤ 2 ^ k := Nat.le_self_pow (by omega) 2
    have hgrow : 2 ^ (k + 1) < 2 ^ 31 := Nat.pow_lt_pow_right (by omega) (by omega)
    have hle : 2 ^ k ≤ 2 ^ 30 := Nat.pow_le_pow_right (by omega) (by omega)
    have hroom : ¬ FitsIn (2 ^ k) call.cStrings := fun hx ↦ hfit (hx.mono hle)
    have htidy : Tidy (2 ^ (k + 1)) (blankMatrix (2 ^ (k + 1))) := tidy_blankMatrix (by omega)
    rw [h.fetch_too_small malformed turn hsize hgrow hlen hroom, ← Nat.pow_succ]
    exact ih (turn + 1) (by omega) (by omega) htidy

variable {malformed}

theorem newString_utf8Bytes (s : String) : newString malformed (utf8Bytes s) = s := by
  have hbytes : ByteArray.mk (utf8Bytes s).toArray = s.toByteArray := by
    rw [utf8Bytes, Array.toArray_toList]
  rw [newString, dif_pos (hbytes ▸ s.isValidUTF8)]
  exact String.toByteArray_inj.mp hbytes

theorem trim_newString_spaced (entry : Entry) :
    trim (newString malformed entry.cString.spaced) = trim entry.text := by
  have htext : newString malformed entry.cString.bytes = entry.text := newString_utf8Bytes entry.text
  rw [CString.spaced]
  split
  case isTrue hnil =>
    have hspace : newString malformed [32] = " " := newString_utf8Bytes " "
    have hempty : newString malformed [] = "" := newString_utf8Bytes ""
    rw [hnil, hempty] at htext
    rw [hspace, ← htext]
    decide
  case isFalse => rw [htext]

/-- A thread with its `scratch_2d`, and what its calls came to, the latest
first. -/
structure Scratch where
  matrix : Option (List Row)
  calls : List (MetadataCall × MetadataOutcome)

namespace Scratch

variable (malformed) in
def step (s : Scratch) (call : MetadataCall) : Option Scratch :=
  let fetched := fetchList malformed call 0 (s.matrix.getD (blankMatrix (2 ^ 8)))
  some ⟨some fetched.2, (call, fetched.1) :: s.calls⟩

variable (malformed) in
def machine : Machine Scratch MetadataCall where
  init := ⟨none, []⟩
  step := step malformed

def Delivered (s : Scratch) : Prop :=
  ∀ c ∈ s.calls, c.2 = .delivered (c.1.strings.map trim)

def Fits (call : MetadataCall) : Prop :=
  call.strings.length < 2 ^ 30 ∧ ∀ s ∈ call.strings, (utf8Bytes s).length + 1 < 2 ^ 30

structure Ready (s : Scratch) : Prop where
  matrix : ∃ k, 1 ≤ k ∧ k ≤ 30 ∧ Tidy (2 ^ k) (s.matrix.getD (blankMatrix (2 ^ 8)))
  delivered : Delivered s

theorem cStrings_eq (call : MetadataCall) :
    call.cStrings = (call.list.getD []).map Entry.cString := by
  unfold MetadataCall.cStrings
  cases call.list <;> rfl

theorem fitsIn_of_fits {call : MetadataCall} (h : Fits call) : FitsIn (2 ^ 30) call.cStrings := by
  obtain ⟨hcount, hlength⟩ := h
  rw [cStrings_eq]
  refine ⟨?_, fun str hstr ↦ ?_⟩
  · rw [List.length_map]
    rwa [MetadataCall.strings, List.length_map] at hcount
  · obtain ⟨entry, hentry, rfl⟩ := List.mem_map.mp hstr
    have hshort := hlength entry.text (List.mem_map_of_mem hentry)
    have hbytes : entry.cString.bytes = utf8Bytes entry.text := rfl
    rw [entry.cString.len_of_lt (by rw [hbytes]; omega), hbytes]
    omega

theorem delivered_texts {call : MetadataCall} (h : Fits call) :
    (call.cStrings.map fun str ↦ trim (newString malformed str.shown)) =
      call.strings.map trim := by
  rw [cStrings_eq, MetadataCall.strings, List.map_map, List.map_map]
  refine List.map_congr_left fun entry hentry ↦ ?_
  have hshort := h.2 entry.text (List.mem_map_of_mem hentry)
  have hlen := (fitsIn_of_fits h).2 entry.cString
    (by rw [cStrings_eq]; exact List.mem_map_of_mem hentry)
  have hshown : entry.cString.shown = entry.cString.spaced :=
    (CString.shown_eq_spaced_iff hlen.1).mpr (show (utf8Bytes entry.text).length < _ by omega)
  rw [Function.comp_apply, Function.comp_apply, hshown, trim_newString_spaced]

theorem Ready.step {s s' : Scratch} {call : MetadataCall} (h : Ready s) (hfit : Fits call)
    (hs : s.step malformed call = some s') : Ready s' := by
  obtain ⟨k, hk, hle, htidy⟩ := h.matrix
  obtain ⟨k', filled, hk', hle', hfilled, hfetch⟩ := fetchList_delivers malformed
    (fitsIn_of_fits hfit) (30 - k) 0 hk (by omega) htidy
  rw [delivered_texts hfit] at hfetch
  rw [Scratch.step, hfetch] at hs
  cases hs
  refine ⟨⟨k', hk', hle', hfilled⟩, fun c hc ↦ ?_⟩
  rcases List.mem_cons.mp hc with rfl | hc
  · rfl
  · exact h.delivered c hc

/-- As long as every list fits a matrix of 2 ^ 30 rows, every call of a thread
returns and delivers its list. -/
theorem delivered_of_fits (malformed : List UInt8 → String) {calls : List MetadataCall}
    (h : (machine malformed).EveryStep (fun _ call ↦ Fits call) (machine malformed).init calls) :
    (machine malformed).EveryState Delivered (machine malformed).init calls := by
  have hinit : Ready (machine malformed).init := by
    refine ⟨⟨8, by decide, by decide, tidy_blankMatrix (by decide)⟩, fun c hc ↦ ?_⟩
    exact absurd hc List.not_mem_nil
  exact h.everyState (fun s call s' hs hfit hstep ↦ hs.step hfit hstep) (fun s hs ↦ hs.delivered)
    hinit

theorem delivered_of_fits_two_calls :
    (machine fun _ ↦ "?").EveryState Delivered (machine fun _ ↦ "?").init
      [⟨.getMetadata, some [⟨" AREA_OR_POINT=Area", by decide⟩, ⟨"", by decide⟩], fun _ ↦ 1⟩,
        ⟨.getMetadataDomainList, none, fun _ ↦ 1⟩] := by
  apply delivered_of_fits
  refine (Machine.everyStep_cons rfl).mpr ⟨⟨by decide, by decide⟩, ?_⟩
  exact (Machine.everyStep_cons rfl).mpr ⟨⟨by decide, by decide⟩, trivial⟩

theorem utf8Bytes_replicate (n : ℕ) :
    utf8Bytes (.ofList (List.replicate n 'a')) = List.replicate n 97 := by
  induction n with
  | zero => rfl
  | succ n ih =>
    rw [List.replicate_succ, List.replicate_succ, ← ih, utf8Bytes, String.toByteArray_ofList,
      List.utf8Encode_cons, ByteArray.data_append, Array.toList_append]
    rfl

def letters (n : ℕ) : Entry where
  text := .ofList (List.replicate n 'a')
  nulFree h := by
    rw [utf8Bytes_replicate] at h
    exact absurd (List.eq_of_mem_replicate h) (by decide)

theorem length_letters (n : ℕ) : (letters n).cString.bytes.length = n := by
  have hbytes : (letters n).cString.bytes = List.replicate n 97 := utf8Bytes_replicate n
  rw [hbytes, List.length_replicate]

theorem trim_letters_ne {n : ℕ} (h : n ≠ 0) : trim (letters n).text ≠ "" := by
  obtain ⟨n, rfl⟩ := Nat.exists_eq_succ_of_ne_zero h
  intro hx
  have hlist := congrArg String.toList hx
  rw [trim, String.toList_ofList, letters, String.toList_ofList, List.replicate_succ,
    List.dropWhile_cons_of_neg (by decide)] at hlist
  have hblank := List.rdropWhile_eq_nil_iff.mp hlist 'a' List.mem_cons_self
  exact absurd hblank (by decide)

theorem not_delivered_of_len_zero {entry : Entry} (hlen : entry.cString.len = 0)
    (htrim : trim entry.text ≠ "") (malformed : List UInt8 → String) :
    ¬ (machine malformed).EveryState Delivered (machine malformed).init
      [⟨.getMetadata, some [entry], fun _ ↦ 1⟩] := by
  intro h
  let call : MetadataCall := ⟨.getMetadata, some [entry], fun _ ↦ 1⟩
  have hfit : FitsIn (2 ^ 8) call.cStrings := by
    refine ⟨show 1 < 2 ^ 8 by decide, fun str hstr ↦ ?_⟩
    obtain rfl := List.mem_singleton.mp hstr
    rw [hlen]
    decide
  have hblank : Tidy (2 ^ 8) (blankMatrix (2 ^ 8)) := tidy_blankMatrix (by decide)
  obtain ⟨filled, -, hfetch⟩ := hblank.fetch_fits malformed 0 (by decide) hfit
  have hstep : (machine malformed).step (machine malformed).init call = some ⟨some filled,
      [(call, .delivered [trim (newString malformed entry.cString.shown)])]⟩ := by
    change Scratch.step malformed _ call = _
    rw [Scratch.step, machine, Option.getD_none, hfetch]
    rfl
  have hlast := (h.2 _ hstep).head (call, _) List.mem_cons_self
  have hspace : newString malformed [32] = " " := newString_utf8Bytes " "
  have hshown : entry.cString.shown = [32] := if_pos hlen
  rw [hshown, hspace] at hlast
  have hempty := List.head_eq_of_cons_eq (MetadataOutcome.delivered.inj hlast)
  exact htrim (hempty.symm.trans (by decide))

theorem long_string_lost :
    ¬ (machine fun _ ↦ "?").EveryState Delivered (machine fun _ ↦ "?").init
      [⟨.getMetadata, some [letters (2 ^ 32)], fun _ ↦ 1⟩] := by
  have htrim : trim (letters (2 ^ 32)).text ≠ "" := trim_letters_ne (by omega)
  refine not_delivered_of_len_zero ?_ htrim _
  rw [CString.len, length_letters]
  decide

end Scratch

end GdalWarp.Bindings
