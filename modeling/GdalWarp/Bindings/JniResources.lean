import GdalWarp.Foundation.Resources
import GdalWarp.Bindings.OptionArrays
import GdalWarp.Bindings.PixelBuffers
import GdalWarp.Bindings.StringBuffers

namespace GdalWarp.Bindings

open Foundation Foundation.Traced Buffer
open Foundation.ResourceEvent (Matched)

/-- What a JNI function has to give back: characters of a Java string, elements of
a Java array, and the list that GDAL has made for it. -/
inductive Handle (ρ : Type) where
  | stringUtfChars (string : ρ)
  | intArrayElements (array : ρ)
  | longArrayElements (array : ρ)
  | doubleArrayElements (array : ρ)
  | byteArrayElements (array : ρ)
  | primitiveArrayCritical (array : ρ)
  | domainList
  deriving DecidableEq

namespace Jni

-- references to Java objects; what the native calls come to are arguments
variable {ρ : Type}

/-- A function that only makes a native call with the elements of arrays. -/
def accessor (acquired released : List (Handle ρ)) (retval : ℤ) : Traced (Handle ρ) ℤ := do
  acquireAll acquired
  releaseAll released
  return retval

def getBlockSize (width height : ρ) :=
  accessor [.intArrayElements width, .intArrayElements height]
    [.intArrayElements width, .intArrayElements height]

def getHistogram (hist : ρ) := accessor [.longArrayElements hist] [.longArrayElements hist]

def getOffset (offset success : ρ) :=
  accessor [.doubleArrayElements offset, .intArrayElements success]
    [.intArrayElements success, .doubleArrayElements offset]

def getScale (scale success : ρ) :=
  accessor [.doubleArrayElements scale, .intArrayElements success]
    [.intArrayElements success, .doubleArrayElements scale]

def getColorInterpretation (colorInterp : ρ) :=
  accessor [.intArrayElements colorInterp] [.intArrayElements colorInterp]

def getOverviewWidthsHeights (widths heights : ρ) :=
  accessor [.intArrayElements widths, .intArrayElements heights]
    [.intArrayElements heights, .intArrayElements widths]

def getCrsProj4 (crs : ρ) := accessor [.byteArrayElements crs] [.byteArrayElements crs]

def getCrsWkt (crs : ρ) := accessor [.byteArrayElements crs] [.byteArrayElements crs]

def getBandNodata (nodata success : ρ) :=
  accessor [.doubleArrayElements nodata, .intArrayElements success]
    [.intArrayElements success, .doubleArrayElements nodata]

def getBandMinMax (minmax success : ρ) :=
  accessor [.doubleArrayElements minmax, .intArrayElements success]
    [.intArrayElements success, .doubleArrayElements minmax]

def getBandDataType (dataType : ρ) :=
  accessor [.intArrayElements dataType] [.intArrayElements dataType]

def getBandCount (bandCount : ρ) :=
  accessor [.intArrayElements bandCount] [.intArrayElements bandCount]

def getWidthHeight (widthHeight : ρ) :=
  accessor [.intArrayElements widthHeight] [.intArrayElements widthHeight]

def getTransform (transform : ρ) :=
  accessor [.doubleArrayElements transform] [.doubleArrayElements transform]

def getVersionInfo (key value : ρ) (info : CString) (bytes : Row) :
    Traced (Handle ρ) (Row × ℤ) := do
  acquire (.stringUtfChars key)
  acquire (.byteArrayElements value)
  let result := jniGetVersionInfo info bytes
  release (.stringUtfChars key)
  release (.byteArrayElements value)
  return result

def setConfigOption (key value : ρ) : Traced (Handle ρ) Unit := do
  acquire (.stringUtfChars key)
  acquire (.stringUtfChars value)
  release (.stringUtfChars key)
  release (.stringUtfChars value)

def copyOptions : List (Option String) → ℕ → List (ρ × String) →
    Traced (Handle ρ) (List (Option String))
  | cells, _, [] => return cells
  | cells, i, option :: rest =>
    if i < maxOptions then do
      acquire (.stringUtfChars option.1)
      let cells ← lift (store cells i (some option.2))
      copyOptions cells (i + 1) rest
    else return cells

def releaseOptions : ℕ → List (ρ × String) → Traced (Handle ρ) Unit
  | _, [] => return
  | i, option :: rest =>
    if i < maxOptions then do
      release (.stringUtfChars option.1)
      releaseOptions (i + 1) rest
    else return

def getToken (L : LruCache) (frame : List.Vector (Option String) maxOptions) (c : L.State)
    (uri : ρ × Uri) (options : List (ρ × String)) (draws : List Token) :
    Traced (Handle ρ) (Token × L.State) := do
  acquire (.stringUtfChars uri.1)
  let cells ← lift (store frame.toList options.length none)
  let cells ← copyOptions cells 0 options
  let issued ← lift (getTokenArray L c uri.2 cells draws)
  releaseOptions 0 options
  release (.stringUtfChars uri.1)
  return issued

def copyString (row : Row) (str : CString) : Option Row :=
  -- `strncpy` takes a negative length for a count that no array has
  if str.len < 0 then none
  else
    (storeFrom row 0 (str.bytes.take str.len.toNat)).bind fun row ↦ store row str.len.toNat 0

/-- One turn of the loop over the rows; `none` is the return in its last branch. -/
def putString (row : ρ × Row) (str : CString) : Traced (Handle ρ) (Option Row) := do
  acquire (.byteArrayElements row.1)
  if str.len = 0 then
    let filled ← lift (storeFrom row.2 0 [32, 0])
    release (.byteArrayElements row.1)
    return some filled
  else if str.len < row.2.length - 1 then
    let filled ← lift (copyString row.2 str)
    release (.byteArrayElements row.1)
    return some filled
  else
    release (.byteArrayElements row.1)
    return none

structure Filled (ρ : Type) where
  complete : Bool
  written : List Row
  left : List (ρ × Row)

def fillRows : List (ρ × Row) → List CString → Traced (Handle ρ) (Filled ρ)
  | rows, [] => return ⟨true, [], rows⟩
  | [], _ :: _ => return ⟨true, [], []⟩
  | row :: rows, str :: strs => do
    match ← putString row str with
    | none => return ⟨false, [], row :: rows⟩
    | some put =>
      let filled ← fillRows rows strs
      return { filled with written := put :: filled.written }

def terminate : List (ρ × Row) → Traced (Handle ρ) (List Row)
  | [] => lift none
  | row :: rows => do
    acquire (.byteArrayElements row.1)
    let ended ← lift (store row.2 0 0)
    release (.byteArrayElements row.1)
    return ended :: rows.map Prod.snd

def endRows (maxSize : ℕ) (filled : Filled ρ) : Traced (Handle ρ) (List Row) :=
  if filled.written.length + 1 < maxSize then terminate filled.left
  else return filled.left.map Prod.snd

/-- The part that the functions for lists share; `finish` is what they do before
they return. -/
def encodeList (finish : Traced (Handle ρ) Unit) (retval : ℤ) (list : Option (List CString))
    (rows : List (ρ × Row)) : Traced (Handle ρ) (List Row × ℤ) :=
  if retval < 0 then return (rows.map Prod.snd, retval)
  else do
    let filled ← fillRows rows (list.getD [])
    if filled.complete then
      let left ← endRows rows.length filled
      finish
      return (filled.written ++ left,
        if filled.written.length = rows.length then -cpleAppDefined else retval)
    else
      finish
      return (filled.written ++ filled.left.map Prod.snd, -cpleAppDefined)

def domainLists (list : Option (List CString)) : List (Handle ρ) :=
  list.toList.map fun _ ↦ .domainList

/-- The list is the function's own, `CSLDestroy` does nothing to a null list. -/
def getMetadataDomainList (retval : ℤ) (list : Option (List CString)) (rows : List (ρ × Row)) :
    Traced (Handle ρ) (List Row × ℤ) := do
  acquireAll (domainLists list)
  encodeList (releaseAll (domainLists list)) retval list rows

def getMetadata (domain : ρ) (retval : ℤ) (list : Option (List CString)) (rows : List (ρ × Row)) :
    Traced (Handle ρ) (List Row × ℤ) := do
  acquire (.stringUtfChars domain)
  encodeList (return) retval list rows

def getMetadataItem (key domain value : ρ) (retval : ℤ) (valueSrc : Option CString) (bytes : Row) :
    Traced (Handle ρ) (Row × ℤ) := do
  acquire (.stringUtfChars key)
  acquire (.stringUtfChars domain)
  acquire (.byteArrayElements value)
  if retval < 0 then return (bytes, retval)
  else
    let result ← lift (jniGetMetadataItem retval valueSrc bytes)
    release (.stringUtfChars key)
    release (.stringUtfChars domain)
    release (.byteArrayElements value)
    return result

def dataHandle (gcLock : Bool) (data : ρ) : Handle ρ :=
  if gcLock then .primitiveArrayCritical data else .byteArrayElements data

/-- `bytes` is what the native call has left in the array. -/
def getData (gcLock : Bool) (srcWindow dstWindow data : ρ) (retval type : ℤ) (bytes : List UInt8) :
    Traced (Handle ρ) (List UInt8 × ℤ) := do
  acquire (.intArrayElements srcWindow)
  acquire (.intArrayElements dstWindow)
  acquire (dataHandle gcLock data)
  let bytes ← lift (swapBytes type bytes)
  release (dataHandle gcLock data)
  release (.intArrayElements dstWindow)
  release (.intArrayElements srcWindow)
  return (bytes, retval)

section Result

theorem result_getVersionInfo (key value : ρ) (info : CString) (bytes : Row) :
    (getVersionInfo key value info bytes).result = some (jniGetVersionInfo info bytes) := by
  simp [getVersionInfo]

theorem result_copyOptions (cells : List (Option String)) (i : ℕ) (options : List (ρ × String)) :
    (copyOptions cells i options).result = Bindings.copyOptions cells i (options.map Prod.snd) := by
  induction options generalizing cells i with
  | nil => rfl
  | cons option rest ih =>
    rw [copyOptions, List.map_cons, Bindings.copyOptions]
    split
    case isTrue => simp [ih]
    case isFalse => rfl

theorem result_releaseOptions (i : ℕ) (options : List (ρ × String)) :
    (releaseOptions i options).result = some () := by
  induction options generalizing i with
  | nil => rfl
  | cons option rest ih =>
    rw [releaseOptions]
    split
    case isTrue => simp [ih]
    case isFalse => rfl

theorem result_getToken (L : LruCache) (frame : List.Vector (Option String) maxOptions)
    (c : L.State) (uri : ρ × Uri) (options : List (ρ × String)) (draws : List Token) :
    (getToken L frame c uri options draws).result =
      javaGetToken L frame c uri.2 (options.map Prod.snd) draws := by
  simp [getToken, javaGetToken, result_copyOptions, result_releaseOptions]

theorem putString_eq_copyString {row : Row} {str : CString} (hzero : str.len ≠ 0)
    (hfits : str.len < row.length - 1) :
    Bindings.putString row str = (copyString row str).map some := by
  rw [Bindings.putString, if_neg hzero, if_pos hfits, copyString]
  by_cases hneg : str.len < 0
  · rw [if_pos hneg, if_pos hneg, Option.map_none]
  · rw [if_neg hneg, if_neg hneg, Option.map_bind]
    rfl

theorem result_putString (row : ρ × Row) (str : CString) :
    (putString row str).result = Bindings.putString row.2 str := by
  by_cases hzero : str.len = 0
  · rw [putString, Bindings.putString, if_pos hzero, if_pos hzero]
    simp [Option.map_eq_bind]
  by_cases hfits : str.len < row.2.length - 1
  · rw [putString_eq_copyString hzero hfits, putString, if_neg hzero, if_pos hfits]
    -- the kernel would run the copy to check the steps at once
    simp -implicitDefEqProofs [Option.map_eq_bind]
  · rw [putString, Bindings.putString, if_neg hzero, if_neg hzero, if_neg hfits, if_neg hfits]
    simp

def Filled.forget (filled : Filled ρ) : Bindings.Filled :=
  ⟨filled.complete, filled.written, filled.left.map Prod.snd⟩

theorem result_fillRows (rows : List (ρ × Row)) (strs : List CString) :
    (fillRows rows strs).result.map Filled.forget =
      Bindings.fillRows (rows.map Prod.snd) strs := by
  induction rows generalizing strs with
  | nil => cases strs <;> rfl
  | cons row rows ih =>
    cases strs with
    | nil => rfl
    | cons str strs =>
      rw [fillRows, List.map_cons, Bindings.fillRows, result_bind, result_putString, ← ih,
        Option.map_bind]
      congr 1
      funext put
      cases put with
      | none => rfl
      | some put =>
        rw [Function.comp_apply, result_bind]
        cases (fillRows rows strs).result <;> rfl

theorem result_terminate (rows : List (ρ × Row)) :
    (terminate rows).result = Bindings.terminate (rows.map Prod.snd) := by
  cases rows with
  | nil => rfl
  | cons row rows => simp [terminate, Bindings.terminate, Option.map_eq_bind]

theorem result_endRows (maxSize : ℕ) (filled : Filled ρ) : (endRows maxSize filled).result =
    if filled.written.length + 1 < maxSize then Bindings.terminate filled.forget.left
    else some filled.forget.left := by
  rw [endRows]
  split
  case isTrue => exact result_terminate filled.left
  case isFalse => rfl

theorem result_encodeList {finish : Traced (Handle ρ) Unit} (hfinish : finish.result = some ())
    (retval : ℤ) (list : Option (List CString)) (rows : List (ρ × Row)) :
    (encodeList finish retval list rows).result =
      Bindings.encodeList retval list (rows.map Prod.snd) := by
  rw [encodeList, Bindings.encodeList]
  split
  case isTrue => rfl
  case isFalse =>
    rw [result_bind, ← result_fillRows, Option.bind_eq_bind, Option.bind_map]
    congr 1
    funext filled
    rw [Function.comp_apply, List.length_map]
    cases hcomplete : filled.complete with
    | false => simp [hcomplete, hfinish, Filled.forget]
    | true =>
      by_cases hlt : filled.written.length + 1 < rows.length <;>
        simp [hcomplete, hfinish, result_endRows, Filled.forget, hlt]

theorem result_getMetadataDomainList (retval : ℤ) (list : Option (List CString))
    (rows : List (ρ × Row)) : (getMetadataDomainList retval list rows).result =
      jniGetMetadataDomainList retval list (rows.map Prod.snd) := by
  rw [getMetadataDomainList, result_bind, result_acquireAll, Option.bind_some]
  exact result_encodeList (result_releaseAll _) retval list rows

theorem result_getMetadata (domain : ρ) (retval : ℤ) (list : Option (List CString))
    (rows : List (ρ × Row)) : (getMetadata domain retval list rows).result =
      jniGetMetadata retval list (rows.map Prod.snd) := by
  rw [getMetadata, result_bind, result_acquire, Option.bind_some]
  exact result_encodeList (result_pure _) retval list rows

theorem result_getMetadataItem (key domain value : ρ) (retval : ℤ) (valueSrc : Option CString)
    (bytes : Row) : (getMetadataItem key domain value retval valueSrc bytes).result =
      jniGetMetadataItem retval valueSrc bytes := by
  by_cases hneg : retval < 0
  · simp [getMetadataItem, jniGetMetadataItem, hneg]
  · simp [getMetadataItem, hneg]

theorem result_getData (gcLock : Bool) (srcWindow dstWindow data : ρ) {type attempts retval : ℤ}
    {start : UInt64} {queryResult : Option UriOptions} {rounds : List PixelRound}
    {bytes left : List UInt8}
    (h : nativeGetData attempts 0 start queryResult rounds bytes = some (retval, left)) :
    jniGetData type attempts start queryResult rounds bytes = some
      ((getData gcLock srcWindow dstWindow data retval type left).result.map Prod.fst, retval) := by
  rw [jniGetData, h, Option.map_some]
  simp [getData, Option.map_bind]

end Result

section Leaves

variable [DecidableEq ρ]

theorem leaves_accessor {acquired released : List (Handle ρ)} (h : released.Perm acquired)
    (retval : ℤ) : (accessor acquired released retval).Leaves 0 0 := by
  have hheld : (acquired : Multiset (Handle ρ)) = released := Multiset.coe_eq_coe.mpr h.symm
  refine leaves_bind (leaves_acquireAll acquired 0) fun _ _ ↦ ?_
  rw [hheld]
  exact leaves_bind (leaves_releaseAll released 0) fun _ _ ↦ leaves_pure retval 0

theorem leaves_getVersionInfo (key value : ρ) (info : CString) (bytes : Row) :
    (getVersionInfo key value info bytes).Leaves 0 0 := by
  apply leaves_acquire
  apply leaves_acquire
  apply leaves_release (Multiset.cons_swap _ _ _)
  apply leaves_release rfl
  exact leaves_pure _ 0

theorem leaves_setConfigOption (key value : ρ) : (setConfigOption key value).Leaves 0 0 := by
  apply leaves_acquire
  apply leaves_acquire
  apply leaves_release (Multiset.cons_swap _ _ _)
  exact leaves_release_self _ 0

def optionHandles : ℕ → List (ρ × String) → Multiset (Handle ρ)
  | _, [] => 0
  | i, option :: rest =>
    if i < maxOptions then .stringUtfChars option.1 ::ₘ optionHandles (i + 1) rest else 0

theorem leaves_copyOptions (cells : List (Option String)) (i : ℕ) (options : List (ρ × String))
    (held : Multiset (Handle ρ)) :
    (copyOptions cells i options).Leaves held (optionHandles i options + held) := by
  induction options generalizing cells i held with
  | nil => exact (Multiset.zero_add held).symm ▸ leaves_pure cells held
  | cons option rest ih =>
    rw [copyOptions, optionHandles]
    split
    case isTrue =>
      apply leaves_acquire
      refine leaves_lift fun cells _ ↦ ?_
      rw [Multiset.cons_add, ← Multiset.add_cons]
      exact ih cells (i + 1) _
    case isFalse => exact (Multiset.zero_add held).symm ▸ leaves_pure cells held

theorem leaves_releaseOptions (i : ℕ) (options : List (ρ × String)) (held : Multiset (Handle ρ)) :
    (releaseOptions i options).Leaves (optionHandles i options + held) held := by
  induction options generalizing i with
  | nil => exact (Multiset.zero_add held).symm ▸ leaves_pure () held
  | cons option rest ih =>
    rw [releaseOptions, optionHandles]
    split
    case isTrue => exact leaves_release (Multiset.cons_add _ _ _) (ih (i + 1))
    case isFalse => exact (Multiset.zero_add held).symm ▸ leaves_pure () held

theorem leaves_getToken (L : LruCache) (frame : List.Vector (Option String) maxOptions)
    (c : L.State) (uri : ρ × Uri) (options : List (ρ × String)) (draws : List Token) :
    (getToken L frame c uri options draws).Leaves 0 0 := by
  apply leaves_acquire
  refine leaves_lift fun cells _ ↦ ?_
  refine leaves_bind (leaves_copyOptions cells 0 options _) fun cells _ ↦ ?_
  refine leaves_lift fun issued _ ↦ ?_
  refine leaves_bind (leaves_releaseOptions 0 options _) fun _ _ ↦ ?_
  exact leaves_release rfl (leaves_pure issued 0)

theorem leaves_putString (row : ρ × Row) (str : CString) (held : Multiset (Handle ρ)) :
    (putString row str).Leaves held held := by
  apply leaves_acquire
  split
  case isTrue => exact leaves_lift fun filled _ ↦ leaves_release rfl (leaves_pure _ held)
  case isFalse =>
    split
    case isTrue => exact leaves_lift fun filled _ ↦ leaves_release rfl (leaves_pure _ held)
    case isFalse => exact leaves_release rfl (leaves_pure _ held)

theorem leaves_fillRows (rows : List (ρ × Row)) (strs : List CString) (held : Multiset (Handle ρ)) :
    (fillRows rows strs).Leaves held held := by
  induction rows generalizing strs with
  | nil => cases strs <;> exact leaves_pure _ held
  | cons row rows ih =>
    cases strs with
    | nil => exact leaves_pure _ held
    | cons str strs =>
      refine leaves_bind (leaves_putString row str held) fun put _ ↦ ?_
      cases put with
      | none => exact leaves_pure _ held
      | some put => exact leaves_bind (ih strs) fun filled _ ↦ leaves_pure _ held

theorem leaves_terminate (rows : List (ρ × Row)) (held : Multiset (Handle ρ)) :
    (terminate rows).Leaves held held := by
  cases rows with
  | nil => exact nofun
  | cons row rows =>
    apply leaves_acquire
    exact leaves_lift fun ended _ ↦ leaves_release rfl (leaves_pure _ held)

theorem leaves_endRows (maxSize : ℕ) (filled : Filled ρ) (held : Multiset (Handle ρ)) :
    (endRows maxSize filled).Leaves held held := by
  rw [endRows]
  split
  case isTrue => exact leaves_terminate filled.left held
  case isFalse => exact leaves_pure _ held

theorem leaves_encodeList {finish : Traced (Handle ρ) Unit} {held final : Multiset (Handle ρ)}
    (hfinish : finish.Leaves held final) (retval : ℤ) (list : Option (List CString))
    (rows : List (ρ × Row)) :
    (encodeList finish retval list rows).Leaves held (if retval < 0 then held else final) := by
  rw [encodeList]
  split
  case isTrue => exact leaves_pure _ held
  case isFalse =>
    refine leaves_bind (leaves_fillRows rows (list.getD []) held) fun filled _ ↦ ?_
    split
    case isTrue =>
      refine leaves_bind (leaves_endRows rows.length filled held) fun left _ ↦ ?_
      exact leaves_bind hfinish fun _ _ ↦ leaves_pure _ final
    case isFalse => exact leaves_bind hfinish fun _ _ ↦ leaves_pure _ final

theorem leaves_getMetadataDomainList (retval : ℤ) (list : Option (List CString))
    (rows : List (ρ × Row)) : (getMetadataDomainList retval list rows).Leaves 0
      (if retval < 0 then ↑(domainLists (ρ := ρ) list) else 0) := by
  have hall := leaves_acquireAll (domainLists (ρ := ρ) list) 0
  have hfinish := leaves_releaseAll (domainLists (ρ := ρ) list) 0
  rw [Multiset.add_zero] at hall hfinish
  exact leaves_bind hall fun _ _ ↦ leaves_encodeList hfinish retval list rows

theorem leaves_getMetadata (domain : ρ) (retval : ℤ) (list : Option (List CString))
    (rows : List (ρ × Row)) :
    (getMetadata domain retval list rows).Leaves 0 {.stringUtfChars domain} := by
  have hlist := leaves_encodeList (leaves_pure () ({.stringUtfChars domain} : Multiset (Handle ρ)))
    retval list rows
  rw [ite_self] at hlist
  exact leaves_acquire hlist

theorem leaves_getMetadataItem (key domain value : ρ) (retval : ℤ) (valueSrc : Option CString)
    (bytes : Row) : (getMetadataItem key domain value retval valueSrc bytes).Leaves 0
      (if retval < 0 then
        {.byteArrayElements value, .stringUtfChars domain, .stringUtfChars key}
      else 0) := by
  apply leaves_acquire
  apply leaves_acquire
  apply leaves_acquire
  split
  case isTrue => exact leaves_pure _ _
  case isFalse =>
    refine leaves_lift fun result _ ↦ ?_
    apply leaves_release
    · rw [Multiset.cons_swap (Handle.stringUtfChars domain),
        Multiset.cons_swap (Handle.byteArrayElements value)]
    apply leaves_release (Multiset.cons_swap _ _ _)
    apply leaves_release rfl
    exact leaves_pure _ 0

theorem leaves_getData (gcLock : Bool) (srcWindow dstWindow data : ρ) (retval type : ℤ)
    (bytes : List UInt8) :
    (getData gcLock srcWindow dstWindow data retval type bytes).Leaves 0 0 := by
  apply leaves_acquire
  apply leaves_acquire
  apply leaves_acquire
  refine leaves_lift fun bytes _ ↦ ?_
  apply leaves_release rfl
  apply leaves_release rfl
  apply leaves_release rfl
  exact leaves_pure _ 0

end Leaves

end Jni

/-- The JNI functions that acquire something, with their arguments and what their
native calls come to. -/
inductive JniCall (ρ : Type) (L : LruCache) where
  | getVersionInfo (key value : ρ) (info : CString) (bytes : Row)
  | setConfigOption (key value : ρ)
  | getToken (frame : List.Vector (Option String) maxOptions) (c : L.State) (uri : ρ × Uri)
    (options : List (ρ × String)) (draws : List Token)
  | getBlockSize (width height : ρ) (retval : ℤ)
  | getHistogram (hist : ρ) (retval : ℤ)
  | getOffset (offset success : ρ) (retval : ℤ)
  | getScale (scale success : ρ) (retval : ℤ)
  | getColorInterpretation (colorInterp : ρ) (retval : ℤ)
  | getMetadataDomainList (retval : ℤ) (list : Option (List CString)) (rows : List (ρ × Row))
  | getMetadata (domain : ρ) (retval : ℤ) (list : Option (List CString)) (rows : List (ρ × Row))
  | getMetadataItem (key domain value : ρ) (retval : ℤ) (valueSrc : Option CString) (bytes : Row)
  | getOverviewWidthsHeights (widths heights : ρ) (retval : ℤ)
  | getCrsProj4 (crs : ρ) (retval : ℤ)
  | getCrsWkt (crs : ρ) (retval : ℤ)
  | getBandNodata (nodata success : ρ) (retval : ℤ)
  | getBandMinMax (minmax success : ρ) (retval : ℤ)
  | getBandDataType (dataType : ρ) (retval : ℤ)
  | getBandCount (bandCount : ρ) (retval : ℤ)
  | getWidthHeight (widthHeight : ρ) (retval : ℤ)
  | getData (gcLock : Bool) (srcWindow dstWindow data : ρ) (retval type : ℤ) (bytes : List UInt8)
  | getTransform (transform : ρ) (retval : ℤ)

namespace JniCall

variable {ρ : Type} {L : LruCache}

def trace : JniCall ρ L → Option (List (ResourceEvent (Handle ρ)))
  | getVersionInfo key value info bytes => (Jni.getVersionInfo key value info bytes).trace
  | setConfigOption key value => (Jni.setConfigOption key value).trace
  | getToken frame c uri options draws => (Jni.getToken L frame c uri options draws).trace
  | getBlockSize width height retval => (Jni.getBlockSize width height retval).trace
  | getHistogram hist retval => (Jni.getHistogram hist retval).trace
  | getOffset offset success retval => (Jni.getOffset offset success retval).trace
  | getScale scale success retval => (Jni.getScale scale success retval).trace
  | getColorInterpretation colorInterp retval =>
    (Jni.getColorInterpretation colorInterp retval).trace
  | getMetadataDomainList retval list rows => (Jni.getMetadataDomainList retval list rows).trace
  | getMetadata domain retval list rows => (Jni.getMetadata domain retval list rows).trace
  | getMetadataItem key domain value retval valueSrc bytes =>
    (Jni.getMetadataItem key domain value retval valueSrc bytes).trace
  | getOverviewWidthsHeights widths heights retval =>
    (Jni.getOverviewWidthsHeights widths heights retval).trace
  | getCrsProj4 crs retval => (Jni.getCrsProj4 crs retval).trace
  | getCrsWkt crs retval => (Jni.getCrsWkt crs retval).trace
  | getBandNodata nodata success retval => (Jni.getBandNodata nodata success retval).trace
  | getBandMinMax minmax success retval => (Jni.getBandMinMax minmax success retval).trace
  | getBandDataType dataType retval => (Jni.getBandDataType dataType retval).trace
  | getBandCount bandCount retval => (Jni.getBandCount bandCount retval).trace
  | getWidthHeight widthHeight retval => (Jni.getWidthHeight widthHeight retval).trace
  | getData gcLock srcWindow dstWindow data retval type bytes =>
    (Jni.getData gcLock srcWindow dstWindow data retval type bytes).trace
  | getTransform transform retval => (Jni.getTransform transform retval).trace

/-- A call other than `get_metadata`; where it asks for a list or an item, the
query has been successful or has left no list. -/
def GivesBack : JniCall ρ L → Prop
  | getMetadata .. => False
  | getMetadataDomainList retval list _ => 0 ≤ retval ∨ list = none
  | getMetadataItem _ _ _ retval _ _ => 0 ≤ retval
  | _ => True

variable [DecidableEq ρ]

theorem matched_getMetadataDomainList_iff {retval : ℤ} {list : Option (List CString)}
    {rows : List (ρ × Row)} {tr : List (ResourceEvent (Handle ρ))}
    (h : (Jni.getMetadataDomainList retval list rows).trace = some tr) :
    Matched tr ↔ 0 ≤ retval ∨ list = none := by
  rw [(Jni.leaves_getMetadataDomainList retval list rows).matched_iff h]
  by_cases hneg : retval < 0
  · rw [if_pos hneg, or_iff_right (not_le.mpr hneg)]
    cases list with
    | none => exact iff_of_true rfl rfl
    | some list =>
      exact iff_of_false (mt (Multiset.coe_eq_zero _).mp (List.cons_ne_nil _ _)) nofun
  · rw [if_neg hneg]
    exact iff_of_true rfl (Or.inl (not_lt.mp hneg))

theorem matched_getMetadataItem_iff {key domain value : ρ} {retval : ℤ}
    {valueSrc : Option CString} {bytes : Row} {tr : List (ResourceEvent (Handle ρ))}
    (h : (Jni.getMetadataItem key domain value retval valueSrc bytes).trace = some tr) :
    Matched tr ↔ 0 ≤ retval := by
  rw [(Jni.leaves_getMetadataItem key domain value retval valueSrc bytes).matched_iff h]
  by_cases hneg : retval < 0
  · rw [if_pos hneg]
    exact iff_of_false Multiset.cons_ne_zero (not_le.mpr hneg)
  · rw [if_neg hneg]
    exact iff_of_true rfl (not_lt.mp hneg)

/-- A call that returns has given back everything exactly if it is one of those. -/
theorem gives_back_iff {call : JniCall ρ L} {tr : List (ResourceEvent (Handle ρ))}
    (h : call.trace = some tr) : Matched tr ↔ call.GivesBack := by
  have hzero {α : Type} {x : Traced (Handle ρ) α} (hx : x.Leaves 0 0) (htr : x.trace = some tr) :
      Matched tr ↔ True := (hx.matched_iff htr).trans (iff_true_intro rfl)
  cases call with
  | getVersionInfo => exact hzero (Jni.leaves_getVersionInfo _ _ _ _) h
  | setConfigOption => exact hzero (Jni.leaves_setConfigOption _ _) h
  | getToken => exact hzero (Jni.leaves_getToken L _ _ _ _ _) h
  | getBlockSize => exact hzero (Jni.leaves_accessor (.refl _) _) h
  | getHistogram => exact hzero (Jni.leaves_accessor (.refl _) _) h
  | getOffset => exact hzero (Jni.leaves_accessor (.swap ..) _) h
  | getScale => exact hzero (Jni.leaves_accessor (.swap ..) _) h
  | getColorInterpretation => exact hzero (Jni.leaves_accessor (.refl _) _) h
  | getMetadataDomainList => exact matched_getMetadataDomainList_iff h
  | getMetadata =>
    exact ((Jni.leaves_getMetadata _ _ _ _).matched_iff h).trans
      (iff_of_false (Multiset.singleton_ne_zero _) not_false)
  | getMetadataItem => exact matched_getMetadataItem_iff h
  | getOverviewWidthsHeights => exact hzero (Jni.leaves_accessor (.swap ..) _) h
  | getCrsProj4 => exact hzero (Jni.leaves_accessor (.refl _) _) h
  | getCrsWkt => exact hzero (Jni.leaves_accessor (.refl _) _) h
  | getBandNodata => exact hzero (Jni.leaves_accessor (.swap ..) _) h
  | getBandMinMax => exact hzero (Jni.leaves_accessor (.swap ..) _) h
  | getBandDataType => exact hzero (Jni.leaves_accessor (.refl _) _) h
  | getBandCount => exact hzero (Jni.leaves_accessor (.refl _) _) h
  | getWidthHeight => exact hzero (Jni.leaves_accessor (.refl _) _) h
  | getData => exact hzero (Jni.leaves_getData _ _ _ _ _ _ _) h
  | getTransform => exact hzero (Jni.leaves_accessor (.refl _) _) h

theorem gives_back_iff_last_attempt :
    Matched [.acquire (Handle.doubleArrayElements 0), .acquire (Handle.intArrayElements 1),
      .release (Handle.intArrayElements 1), .release (Handle.doubleArrayElements 0)] ∧
    ¬ Matched [.acquire (Handle.domainList : Handle ℕ)] := by
  let offset : JniCall ℕ (.ofList Token UriOptions) := .getOffset 0 1 1
  let domains : JniCall ℕ (.ofList Token UriOptions) :=
    .getMetadataDomainList (-attemptsExceeded) (some [threeLetters]) []
  have hoffset : offset.trace = some _ := rfl
  have hdomains : domains.trace = some _ := rfl
  refine ⟨(gives_back_iff hoffset).mpr trivial, fun h ↦ ?_⟩
  rcases (gives_back_iff hdomains).mp h with hretval | hlist
  · exact absurd hretval (by decide)
  · cases hlist

/-- One row is filled, the next is ended, and the domain is kept. -/
theorem domain_kept : ∃ tr,
    (getMetadata 0 1 (some [threeLetters]) [(1, [0, 0, 0, 0, 0]), (2, [0]), (3, [0])] :
      JniCall ℕ (.ofList Token UriOptions)).trace = some tr ∧ ¬ Matched tr := by
  let call : JniCall ℕ (.ofList Token UriOptions) :=
    .getMetadata 0 1 (some [threeLetters]) [(1, [0, 0, 0, 0, 0]), (2, [0]), (3, [0])]
  have htrace : call.trace = some [.acquire (.stringUtfChars 0), .acquire (.byteArrayElements 1),
      .release (.byteArrayElements 1), .acquire (.byteArrayElements 2),
      .release (.byteArrayElements 2)] := by decide
  exact ⟨_, htrace, fun h ↦ absurd (h (.stringUtfChars 0)).2 (by decide)⟩

end JniCall

end GdalWarp.Bindings
