import GdalWarp.Foundation.LockProgram
import GdalWarp.Bindings.Types

namespace GdalWarp.Bindings

open Foundation Foundation.Program

-- a C double by its bits
abbrev Double := UInt64

abbrev BandH := ℕ

inductive MajorObject where
  | dataset (dataset : ℤ)
  | band (band : Option BandH)

inductive BandGetter where
  | blockSize
  | rasterOffset
  | rasterScale
  | colorInterpretation
  | noDataValue
  | dataType

inductive MetadataGetter where
  | domainList
  | metadata (domain : Option String)

structure Window where
  srcWindow : List ℤ
  dstWindow : List ℤ
  type : ℤ

inductive Fate where
  | handedOver
  | replaced
  | failed

inductive Call where
  | getRasterBand (dataset bandNumber : ℤ)
  | getBand (getter : BandGetter) (band : Option BandH)
  | getRasterHistogramEx (band : Option BandH) (lower upper : Double)
      (numBuckets includeOutOfRange approxOk : ℤ)
  | getOverviewCount (band : Option BandH)
  | getOverview (band : Option BandH) (i : ℕ)
  | getRasterBandXSize (band : Option BandH)
  | getRasterBandYSize (band : Option BandH)
  | getProjectionRef (dataset : ℤ)
  | osrNewSpatialReference (wkt : CString)
  | osrExportToProj4 (ref : ℕ)
  | osrDestroySpatialReference (ref : ℕ)
  | cplFree
  | getRasterCount (dataset : ℤ)
  | getGeoTransform (dataset : ℤ)
  | getRasterXSize (dataset : ℤ)
  | getRasterYSize (dataset : ℤ)
  | computeRasterMinMax (band : Option BandH) (approxOk : Bool)
  | getRasterMinimum (band : Option BandH)
  | getRasterMaximum (band : Option BandH)
  | getMetadataList (getter : MetadataGetter) (object : MajorObject)
  | getMetadataItem (object : MajorObject) (key : String) (domain : Option String)
  | rasterIo (band : Option BandH) (window : Window)
  | getLastErrno
  | getLastErrnoTimestamp
  | useCount
  | valid
  | fate
  | gdalClose (dataset : ℤ)

-- what GDAL may leave unwritten is an `Option`
@[reducible] def BandReply : BandGetter → Type
  | .blockSize => Option (ℤ × ℤ)
  | .rasterOffset | .rasterScale | .noDataValue => Double × Option ℤ
  | .colorInterpretation | .dataType => ℤ

/-- What a call answers: a status first where the function returns one, a null
handle or string as `none`. -/
@[reducible] def Reply : Call → Type
  | .getRasterBand _ _ | .getOverview _ _ => Option BandH
  | .getBand getter _ => BandReply getter
  | .getRasterHistogramEx .. => ℤ × List UInt64
  | .getOverviewCount _ | .getRasterBandXSize _ | .getRasterBandYSize _ => ℤ
  | .getProjectionRef _ => CString
  | .osrNewSpatialReference _ => ℕ
  | .osrExportToProj4 _ => ℤ × CString
  | .osrDestroySpatialReference _ | .cplFree | .gdalClose _ => Unit
  | .getRasterCount _ | .getRasterXSize _ | .getRasterYSize _ => ℤ
  | .getGeoTransform _ => ℤ × List Double
  | .computeRasterMinMax _ _ => ℤ × Option (Double × Double)
  | .getRasterMinimum _ | .getRasterMaximum _ => Double × Option ℤ
  | .getMetadataList _ _ => Option (List String)
  | .getMetadataItem _ _ _ => Option String
  | .rasterIo _ _ => ℤ × List UInt8
  | .getLastErrno | .getLastErrnoTimestamp | .useCount => ℤ
  | .valid => Bool
  | .fate => Fate

def anyReply : ∀ c, Reply c
  | .getRasterBand _ _ | .getOverview _ _ => none
  | .getBand .blockSize _ => none
  | .getBand .rasterOffset _ | .getBand .rasterScale _ | .getBand .noDataValue _ => (0, none)
  | .getBand .colorInterpretation _ | .getBand .dataType _ => 0
  | .getRasterHistogramEx .. => (3, [])
  | .getOverviewCount _ | .getRasterBandXSize _ | .getRasterBandYSize _ => 0
  | .getProjectionRef _ => emptyString
  | .osrNewSpatialReference _ => 0
  | .osrExportToProj4 _ => (0, emptyString)
  | .osrDestroySpatialReference _ | .cplFree | .gdalClose _ => ()
  | .getRasterCount _ | .getRasterXSize _ | .getRasterYSize _ => 0
  | .getGeoTransform _ => (0, [])
  | .computeRasterMinMax _ _ => (3, none)
  | .getRasterMinimum _ | .getRasterMaximum _ => (0, none)
  | .getMetadataList _ _ => none
  | .getMetadataItem _ _ _ => none
  | .rasterIo _ _ => (3, [])
  | .getLastErrno | .getLastErrnoTimestamp | .useCount => 0
  | .valid => true
  | .fate => .replaced

/-- The call works on the handles of the dataset or on one of its bands. -/
def Call.touches : Call → Bool
  | .osrNewSpatialReference _ | .osrExportToProj4 _ | .osrDestroySpatialReference _ | .cplFree
  | .getLastErrno | .getLastErrnoTimestamp | .useCount | .valid | .fate => false
  | _ => true

/-- The code an operation returns and what it has written to its return
locations, if anything. -/
structure Answer (α : Type) where
  code : ℤ
  out : Option α

abbrev Task := Program Call Reply

def call (c : Call) : Task (Reply c) := perform c

/-- The macro `TRYLOCK` and what follows it. -/
def tryLock {α : Type} (body : Task (Answer α)) : Task (Answer α) := do
  if (← acquire) = true then body
  else return ⟨datasetLocked, none⟩

-- the macro `SUCCESS`
def success {α : Type} (out : α) : Task (Answer α) := return ⟨attemptSuccessful, some out⟩

-- the macro `FAILURE`
def failure {α : Type} (out : α) : Task (Answer α) := do
  let retval ← call .getLastErrno
  if retval = 0 then return ⟨-cpleObjectNull, some out⟩
  else return ⟨-retval, some out⟩

def noop : Task (Answer Unit) := tryLock do
  release
  success ()

def readBand (getter : BandGetter) (dataset bandNumber : ℤ) : Task (Answer (BandReply getter)) := tryLock do
  let band ← call (.getRasterBand dataset bandNumber)
  let value ← call (.getBand getter band)
  release
  success value

def getBlockSize := readBand .blockSize

def getOffset := readBand .rasterOffset

def getScale := readBand .rasterScale

def getColorInterpretation := readBand .colorInterpretation

def getBandNodata := readBand .noDataValue

def getBandDataType := readBand .dataType

def getHistogram (dataset bandNumber : ℤ) (lower upper : Double)
    (numBuckets includeOutOfRange approxOk : ℤ) : Task (Answer (List UInt64)) := tryLock do
  let bandh ← call (.getRasterBand dataset bandNumber)
  let retval ← call (.getRasterHistogramEx bandh lower upper numBuckets includeOutOfRange approxOk)
  release
  if retval.1 = 0 then success retval.2
  else failure retval.2

def getOverviews (band : Option BandH) (i : ℕ) : ℕ → Task (List (ℤ × ℤ))
  | 0 => return []
  | k + 1 => do
    let overview ← call (.getOverview band i)
    let width ← call (.getRasterBandXSize overview)
    let height ← call (.getRasterBandYSize overview)
    let rest ← getOverviews band (i + 1) k
    return (width, height) :: rest

def getOverviewWidthsHeights (dataset bandNumber maxLength : ℤ) : Task (Answer (List (ℤ × ℤ))) := tryLock do
  let band ← call (.getRasterBand dataset bandNumber)
  let overviewCount ← call (.getOverviewCount band)
  let sizes ← getOverviews band 0 (min overviewCount maxLength).toNat
  release
  success (sizes ++ List.replicate (maxLength - overviewCount).toNat (-1, -1))

/-- What `strncpy` writes: the bytes that there is room for, and zeros in what is
left. -/
def strncpy (s : CString) (n : ℕ) : List UInt8 :=
  s.bytes.take n ++ List.replicate (n - s.bytes.length) 0

def getCrsProj4 (dataset maxSize : ℤ) : Task (Answer (List UInt8)) := tryLock do
  let wkt ← call (.getProjectionRef dataset)
  let ref ← call (.osrNewSpatialReference wkt)
  let result ← call (.osrExportToProj4 ref)
  call .cplFree
  call (.osrDestroySpatialReference ref)
  release
  success (strncpy result.2 maxSize.toNat)

def getCrsWkt (dataset maxSize : ℤ) : Task (Answer (List UInt8)) := tryLock do
  let wkt ← call (.getProjectionRef dataset)
  release
  success (strncpy wkt maxSize.toNat)

def getBandCount (dataset : ℤ) : Task (Answer ℤ) := tryLock do
  let bandCount ← call (.getRasterCount dataset)
  release
  success bandCount

def getTransform (dataset : ℤ) : Task (Answer (List Double)) := tryLock do
  let transform ← call (.getGeoTransform dataset)
  release
  success transform.2

def getWidthHeight (dataset : ℤ) : Task (Answer (ℤ × ℤ)) := tryLock do
  let width ← call (.getRasterXSize dataset)
  let height ← call (.getRasterYSize dataset)
  release
  success (width, height)

structure MinMax where
  minimum : Option Double
  maximum : Option Double
  success : ℤ

/-- `flag` is what the success flag holds when the operation begins. -/
def getBandMaxMin (dataset bandNumber approxOkay flag : ℤ) : Task (Answer MinMax) := tryLock do
  let band ← call (.getRasterBand dataset bandNumber)
  if approxOkay ≠ 0 then
    let minmax ← call (.computeRasterMinMax band true)
    release
    success ⟨minmax.2.map Prod.fst, minmax.2.map Prod.snd, 1⟩
  else
    let minimum ← call (.getRasterMinimum band)
    let flag := minimum.2.getD flag
    if flag ≠ 0 then
      let maximum ← call (.getRasterMaximum band)
      release
      success ⟨some minimum.1, some maximum.1, maximum.2.getD flag⟩
    else
      release
      success ⟨some minimum.1, none, flag⟩

-- band number zero is the file itself
def majorObject (dataset bandNumber : ℤ) : Task MajorObject := do
  if bandNumber = 0 then return .dataset dataset
  else
    let band ← call (.getRasterBand dataset bandNumber)
    return .band band

def readMetadata (getter : MetadataGetter) (dataset bandNumber : ℤ) : Task (Answer (Option (List String))) :=
  tryLock do
    let timeBefore ← call .getLastErrnoTimestamp
    let object ← majorObject dataset bandNumber
    let list ← call (.getMetadataList getter object)
    let timeAfter ← call .getLastErrnoTimestamp
    release
    if list ≠ none ∨ timeBefore = timeAfter then success list
    else failure list

def getMetadataDomainList := readMetadata .domainList

def getMetadata (dataset bandNumber : ℤ) (domain : Option String) :=
  readMetadata (.metadata domain) dataset bandNumber

def getMetadataItem (dataset bandNumber : ℤ) (key : String) (domain : Option String) :
    Task (Answer (Option String)) := tryLock do
  let object ← majorObject dataset bandNumber
  let value ← call (.getMetadataItem object key domain)
  release
  if value ≠ none then success value
  else failure value

-- the band is asked for before the lock
def getPixels (dataset bandNumber : ℤ) (window : Window) : Task (Answer (List UInt8)) := do
  let band ← call (.getRasterBand dataset bandNumber)
  tryLock do
    let retval ← call (.rasterIo band window)
    release
    if retval.1 = 0 then success retval.2
    else failure retval.2

attribute [simp] call success failure majorObject

inductive Operation where
  | noop
  | getBlockSize (dataset bandNumber : ℤ)
  | getHistogram (dataset bandNumber : ℤ) (lower upper : Double)
      (numBuckets includeOutOfRange approxOk : ℤ)
  | getOffset (dataset bandNumber : ℤ)
  | getScale (dataset bandNumber : ℤ)
  | getColorInterpretation (dataset bandNumber : ℤ)
  | getOverviewWidthsHeights (dataset bandNumber maxLength : ℤ)
  | getCrsProj4 (dataset maxSize : ℤ)
  | getCrsWkt (dataset maxSize : ℤ)
  | getBandNodata (dataset bandNumber : ℤ)
  | getBandDataType (dataset bandNumber : ℤ)
  | getBandCount (dataset : ℤ)
  | getTransform (dataset : ℤ)
  | getWidthHeight (dataset : ℤ)
  | getBandMaxMin (dataset bandNumber approxOkay flag : ℤ)
  | getMetadataDomainList (dataset bandNumber : ℤ)
  | getMetadata (dataset bandNumber : ℤ) (domain : Option String)
  | getMetadataItem (dataset bandNumber : ℤ) (key : String) (domain : Option String)
  | getPixels (dataset bandNumber : ℤ) (window : Window)

namespace Operation

@[reducible] def Out : Operation → Type
  | .noop => Unit
  | .getBlockSize .. => BandReply .blockSize
  | .getHistogram .. => List UInt64
  | .getOffset .. => BandReply .rasterOffset
  | .getScale .. => BandReply .rasterScale
  | .getColorInterpretation .. => BandReply .colorInterpretation
  | .getOverviewWidthsHeights .. => List (ℤ × ℤ)
  | .getCrsProj4 .. | .getCrsWkt .. => List UInt8
  | .getBandNodata .. => BandReply .noDataValue
  | .getBandDataType .. => BandReply .dataType
  | .getBandCount _ => ℤ
  | .getTransform _ => List Double
  | .getWidthHeight _ => ℤ × ℤ
  | .getBandMaxMin .. => MinMax
  | .getMetadataDomainList .. | .getMetadata .. => Option (List String)
  | .getMetadataItem .. => Option String
  | .getPixels .. => List UInt8

def program : (op : Operation) → Task (Answer op.Out)
  | .noop => Bindings.noop
  | .getBlockSize d b => Bindings.getBlockSize d b
  | .getHistogram d b lower upper k oor approx => Bindings.getHistogram d b lower upper k oor approx
  | .getOffset d b => Bindings.getOffset d b
  | .getScale d b => Bindings.getScale d b
  | .getColorInterpretation d b => Bindings.getColorInterpretation d b
  | .getOverviewWidthsHeights d b k => Bindings.getOverviewWidthsHeights d b k
  | .getCrsProj4 d k => Bindings.getCrsProj4 d k
  | .getCrsWkt d k => Bindings.getCrsWkt d k
  | .getBandNodata d b => Bindings.getBandNodata d b
  | .getBandDataType d b => Bindings.getBandDataType d b
  | .getBandCount d => Bindings.getBandCount d
  | .getTransform d => Bindings.getTransform d
  | .getWidthHeight d => Bindings.getWidthHeight d
  | .getBandMaxMin d b approx flag => Bindings.getBandMaxMin d b approx flag
  | .getMetadataDomainList d b => Bindings.getMetadataDomainList d b
  | .getMetadata d b domain => Bindings.getMetadata d b domain
  | .getMetadataItem d b key domain => Bindings.getMetadataItem d b key domain
  | .getPixels d b window => Bindings.getPixels d b window

end Operation

end GdalWarp.Bindings
