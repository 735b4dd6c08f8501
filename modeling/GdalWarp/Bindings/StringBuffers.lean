import GdalWarp.Bindings.ErrorReports
import GdalWarp.Bindings.Scratch

namespace GdalWarp.Bindings

open Foundation Foundation.Program Buffer

def Holds (buffer : Row) (s : CString) : Prop := ∃ rest, buffer = s.bytes ++ 0 :: rest

/-- What the JNI function does to the caller's buffer, and what it returns. The
native query returned `retval` and `value`; a null value is not looked at for its
length. -/
def jniGetMetadataItem (retval : ℤ) (value : Option CString) (bytes : Row) : Option (Row × ℤ) :=
  if retval < 0 then some (bytes, retval)
  else
    value.bind fun value ↦
      if value.len < bytes.length - 1 then
        -- `strncpy` takes a negative length for a count that no array has
        if value.len < 0 then none
        else
          (storeFrom bytes 0 (value.bytes.take value.len.toNat)).bind fun bytes ↦
            (store bytes value.len.toNat 0).map fun bytes ↦ (bytes, retval)
      else some (bytes, -cpleAppDefined)

def jniGetVersionInfo (info : CString) (value : Row) : Row × ℤ :=
  (strncpy info value.length, int32 info.bytes.length)

theorem length_strncpy (s : CString) (n : ℕ) : (strncpy s n).length = n := by
  rw [strncpy, List.length_append, List.length_take, List.length_replicate]
  omega

theorem holds_strncpy_iff (s : CString) (n : ℕ) :
    Holds (strncpy s n) s ↔ s.bytes.length < n := by
  constructor
  · rintro ⟨rest, hrest⟩
    have hlength := congrArg List.length hrest
    rw [strncpy, List.length_append, List.length_append, List.length_take, List.length_replicate,
      List.length_cons] at hlength
    omega
  · intro h
    obtain ⟨k, hk⟩ : ∃ k, n - s.bytes.length = k + 1 := ⟨n - s.bytes.length - 1, by omega⟩
    exact ⟨List.replicate k 0, by rw [strncpy, List.take_of_length_le (by omega), hk]; rfl⟩

def HandsOver (s : CString) (ans : Answer (List UInt8)) : Prop :=
  ans.code = attemptSuccessful → ∃ buffer, ans.out = some buffer ∧ Holds buffer s

theorem handsOver_iff (s : CString) (n : ℕ) :
    HandsOver s ⟨attemptSuccessful, some (strncpy s n)⟩ ↔ s.bytes.length < n := by
  rw [← holds_strncpy_iff]
  simp [HandsOver]

theorem getCrsProj4_iff {dataset maxSize : ℤ} {tr : Trace} {ans : Answer (List UInt8)}
    (h : (getCrsProj4 dataset maxSize).Runs tr ans) {ref : ℕ} {status : ℤ} {s : CString}
    (hs : ⟨.osrExportToProj4 ref, (status, s)⟩ ∈ tr) :
    HandsOver s ans ↔ s.bytes.length < maxSize.toNat := by
  obtain ⟨free, h⟩ := h
  cases free with
  | false =>
    obtain ⟨rfl, -⟩ := h
    cases hs
  | true =>
    obtain ⟨wkt, _, rfl, ref', _, rfl, result, _, rfl, _, _, rfl, _, _, rfl, rfl, rfl⟩ := h
    simp only [List.mem_cons, List.not_mem_nil, Sigma.mk.injEq, reduceCtorEq, false_and,
      false_or, or_false, Call.osrExportToProj4.injEq] at hs
    obtain ⟨rfl, hs⟩ := hs
    cases hs
    exact handsOver_iff s _

theorem getCrsWkt_iff {dataset maxSize : ℤ} {tr : Trace} {ans : Answer (List UInt8)}
    (h : (getCrsWkt dataset maxSize).Runs tr ans) {s : CString}
    (hs : ⟨.getProjectionRef dataset, s⟩ ∈ tr) :
    HandsOver s ans ↔ s.bytes.length < maxSize.toNat := by
  obtain ⟨free, h⟩ := h
  cases free with
  | false =>
    obtain ⟨rfl, -⟩ := h
    cases hs
  | true =>
    obtain ⟨wkt, _, rfl, rfl, rfl⟩ := h
    cases List.mem_singleton.mp hs
    exact handsOver_iff s _

/-- The string arrives, or the value returned says that the array is too small. -/
def ToldOf (s : CString) (result : Option (Row × ℤ)) (tooSmall : ℤ → Prop) : Prop :=
  ∃ buffer retval, result = some (buffer, retval) ∧ (Holds buffer s ∨ tooSmall retval)

theorem toldOf_some {s : CString} {buffer : Row} {retval : ℤ} {tooSmall : ℤ → Prop} :
    ToldOf s (some (buffer, retval)) tooSmall ↔ Holds buffer s ∨ tooSmall retval := by
  constructor
  · rintro ⟨_, _, heq, h⟩
    cases heq
    exact h
  · exact fun h ↦ ⟨buffer, retval, rfl, h⟩

theorem holds_take_iff {s : CString} {k : ℕ} (hk : k ≤ s.bytes.length) (rest : List UInt8) :
    Holds (s.bytes.take k ++ 0 :: rest) s ↔ s.bytes.length = k := by
  constructor
  · rintro ⟨rest', hrest⟩
    by_contra hne
    have hlength : (s.bytes.take k).length = k := List.length_take_of_le hk
    have hget := congrArg (fun l : List UInt8 ↦ l[k]?) hrest
    rw [List.getElem?_append_right hlength.le, hlength, Nat.sub_self, List.getElem?_cons_zero,
      List.getElem?_append_left (by omega)] at hget
    exact s.nulFree (List.mem_of_getElem? hget.symm)
  · rintro rfl
    exact ⟨rest, by rw [List.take_length]⟩

section Item

variable {retval : ℤ} (hretval : 0 ≤ retval) {s : CString} {bytes : Row}

include hretval

theorem jniGetMetadataItem_tooSmall (h : bytes.length ≤ s.len + 1) :
    jniGetMetadataItem retval (some s) bytes = some (bytes, -cpleAppDefined) := by
  rw [jniGetMetadataItem, if_neg (by omega), Option.bind_some, if_neg (by omega)]

theorem jniGetMetadataItem_overruns (hneg : s.len < 0) (h : s.len + 1 < bytes.length) :
    jniGetMetadataItem retval (some s) bytes = none := by
  rw [jniGetMetadataItem, if_neg (by omega), Option.bind_some, if_pos (by omega), if_pos hneg]

theorem jniGetMetadataItem_fits (hlen : 0 ≤ s.len) (h : s.len + 1 < bytes.length) :
    jniGetMetadataItem retval (some s) bytes = some
      (s.bytes.take s.len.toNat ++ 0 :: bytes.drop (s.len.toNat + 1), retval) := by
  have hle := s.len_le
  have hlength : (s.bytes.take s.len.toNat).length = s.len.toNat :=
    List.length_take_of_le (by omega)
  have hstore := storeFrom_then_store
    (by omega : (s.bytes.take s.len.toNat).length < bytes.length) 0 fun bytes ↦ (bytes, retval)
  rw [hlength] at hstore
  rw [jniGetMetadataItem, if_neg (by omega), Option.bind_some, if_pos (by omega),
    if_neg (by omega), hstore]

end Item

theorem jniGetMetadataItem_iff {retval : ℤ} (hretval : 0 ≤ retval) (s : CString) (bytes : Row) :
    ToldOf s (jniGetMetadataItem retval (some s) bytes) (fun r ↦ r = -cpleAppDefined) ↔
      s.bytes.length < 2 ^ 31 ∨ bytes.length ≤ s.len + 1 := by
  have hlen := s.len_of_lt
  by_cases hlong : bytes.length ≤ s.len + 1
  · rw [jniGetMetadataItem_tooSmall hretval hlong, toldOf_some]
    exact iff_of_true (Or.inr rfl) (Or.inr hlong)
  rw [or_iff_left hlong]
  by_cases hneg : s.len < 0
  · rw [jniGetMetadataItem_overruns hretval hneg (by omega)]
    exact iff_of_false (fun ⟨_, _, heq, _⟩ ↦ nomatch heq) fun hshort ↦ by
      have hpos := hlen hshort
      omega
  · have hle := s.len_le
    have hlt := s.len_lt
    rw [jniGetMetadataItem_fits hretval (by omega) (by omega), toldOf_some,
      holds_take_iff (by omega)]
    constructor
    · rintro (hwhole | htold)
      · omega
      · rw [htold] at hretval
        exact absurd hretval (by decide)
    · intro hshort
      have hpos := hlen hshort
      exact Or.inl (by omega)

theorem jniGetVersionInfo_iff (s : CString) (value : Row) :
    ToldOf s (some (jniGetVersionInfo s value)) (fun r ↦ (value.length : ℤ) ≤ r) ↔
      s.bytes.length < value.length ∨ (value.length : ℤ) ≤ int32 s.bytes.length := by
  rw [jniGetVersionInfo, toldOf_some, holds_strncpy_iff]

/-- Every call hands the string over or says that the array is too small exactly as
long as the string leaves it a byte (`get_crs_*`), or its length is an `int` or
looks too large. -/
theorem string_handed_iff (s : CString) :
    (∀ dataset maxSize ref status tr ans, (getCrsProj4 dataset maxSize).Runs tr ans →
      ⟨.osrExportToProj4 ref, (status, s)⟩ ∈ tr →
        (HandsOver s ans ↔ s.bytes.length < maxSize.toNat)) ∧
    (∀ dataset maxSize tr ans, (getCrsWkt dataset maxSize).Runs tr ans →
      ⟨.getProjectionRef dataset, s⟩ ∈ tr →
        (HandsOver s ans ↔ s.bytes.length < maxSize.toNat)) ∧
    (∀ retval bytes, 0 ≤ retval →
      (ToldOf s (jniGetMetadataItem retval (some s) bytes) (fun r ↦ r = -cpleAppDefined) ↔
        s.bytes.length < 2 ^ 31 ∨ bytes.length ≤ int32 s.bytes.length + 1)) ∧
    ∀ value, ToldOf s (some (jniGetVersionInfo s value)) (fun r ↦ value.length ≤ r) ↔
      s.bytes.length < value.length ∨ value.length ≤ int32 s.bytes.length :=
  ⟨fun _ _ _ _ _ _ hruns hs ↦ getCrsProj4_iff hruns hs,
    fun _ _ _ _ hruns hs ↦ getCrsWkt_iff hruns hs,
    fun _ bytes hretval ↦ jniGetMetadataItem_iff hretval s bytes, jniGetVersionInfo_iff s⟩

def threeLetters : CString := ⟨[97, 98, 99], by decide⟩

theorem string_handed_iff_three_letters :
    HandsOver threeLetters ⟨attemptSuccessful, some [97, 98, 99, 0]⟩ ∧
    ToldOf threeLetters (jniGetMetadataItem 1 (some threeLetters) [7, 7, 7, 7])
      (fun r ↦ r = -cpleAppDefined) := by
  obtain ⟨-, hwkt, hitem, -⟩ := string_handed_iff threeLetters
  have hruns : (getCrsWkt 1 4).Runs [⟨.getProjectionRef 1, threeLetters⟩]
      ⟨attemptSuccessful, some [97, 98, 99, 0]⟩ := ⟨true, _, _, rfl, rfl, rfl⟩
  exact ⟨(hwkt 1 4 _ _ hruns List.mem_cons_self).mpr (by decide),
    (hitem 1 [7, 7, 7, 7] (by decide)).mpr (Or.inl (by decide))⟩

theorem wkt_unterminated : ∃ tr ans, (getCrsWkt 1 3).Runs tr ans ∧
    ⟨.getProjectionRef 1, threeLetters⟩ ∈ tr ∧
    ans = ⟨attemptSuccessful, some [97, 98, 99]⟩ ∧ ¬ HandsOver threeLetters ans := by
  refine ⟨[⟨.getProjectionRef 1, threeLetters⟩], ⟨attemptSuccessful, some [97, 98, 99]⟩,
    ⟨true, _, _, rfl, rfl, rfl⟩, List.mem_cons_self, rfl, fun h ↦ ?_⟩
  obtain ⟨buffer, hbuffer, rest, hrest⟩ := h rfl
  cases hbuffer
  cases hrest

/-- `grow_scratch_1d`; no array has twice 2 ^ 30 bytes. -/
def growScratch1d (line : Row) (len : ℤ) : Option Row :=
  if len ≤ 0 then
    if line.length * 2 < 2 ^ 31 then some (List.replicate (line.length * 2) 0) else none
  else some (List.replicate len.toNat 0)

def newStringOf (malformed : List UInt8 → String) (bytes : Row) (len : ℤ) : Option String :=
  if 0 ≤ len ∧ len ≤ bytes.length then some (newString malformed (bytes.take len.toNat)) else none

def shownInfo (malformed : List UInt8 → String) (value : Row) (len : ℤ) : Option String × Row :=
  ((newStringOf malformed value len).map trim, value)

/-- The rest of the method, with what the first native call has left. -/
def finishVersionInfo (malformed : List UInt8 → String) (info : CString) (arrayLen : ℕ)
    (value : Row) (resultLen : ℤ) : Option String × Row :=
  if resultLen < arrayLen then shownInfo malformed value resultLen
  else
    (growScratch1d value (int32 (resultLen + 1))).elim (none, value) fun grown ↦
      shownInfo malformed (jniGetVersionInfo info grown).1 resultLen

/-- The Java method on the array of its thread. -/
def getVersionInfo (malformed : List UInt8 → String) (info : CString) (line : Row) :
    Option String × Row :=
  let result := jniGetVersionInfo info line
  finishVersionInfo malformed info line.length result.1 result.2

theorem newStringOf_strncpy (malformed : List UInt8 → String) {s : CString} {n : ℕ}
    (h : s.bytes.length < n) :
    newStringOf malformed (strncpy s n) s.bytes.length = some (newString malformed s.bytes) := by
  have hlength := length_strncpy s n
  rw [newStringOf, if_pos (by omega), Int.toNat_natCast, strncpy, List.take_of_length_le h.le,
    List.take_left]

theorem getVersionInfo_eq (malformed : List UInt8 → String) {info : CString}
    (h : info.bytes.length + 1 < 2 ^ 31) (line : Row) :
    (getVersionInfo malformed info line).1 = some (trim (newString malformed info.bytes)) := by
  have hlen : int32 info.bytes.length = info.bytes.length := int32_natCast (by omega)
  have hgrown : int32 ((info.bytes.length : ℤ) + 1) = (info.bytes.length + 1 : ℕ) := by
    rw [← int32_natCast h, Nat.cast_succ]
  have hfirst : getVersionInfo malformed info line = finishVersionInfo malformed info line.length
      (strncpy info line.length) info.bytes.length := by
    simp only [getVersionInfo, jniGetVersionInfo, hlen]
  rw [hfirst, finishVersionInfo]
  by_cases hroom : info.bytes.length < line.length
  · rw [if_pos (by omega), shownInfo, newStringOf_strncpy malformed hroom]
    rfl
  · rw [if_neg (by omega), hgrown, growScratch1d, if_neg (by omega), Int.toNat_natCast,
      Option.elim_some, shownInfo, jniGetVersionInfo, List.length_replicate,
      newStringOf_strncpy malformed (by omega)]
    rfl

end GdalWarp.Bindings
