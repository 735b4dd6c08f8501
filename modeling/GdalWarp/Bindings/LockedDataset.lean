import GdalWarp.Bindings.Types

namespace GdalWarp.Bindings

/-- A dataset handle, numbered in the order GDAL returned it. -/
abbrev DatasetH := ℕ

/-- What GDAL answers while a dataset is opened: `false` stands for a null
pointer. -/
structure Opener where
  warpAppOptionsNew : List (Option String) → Bool
  gdalOpen : Uri → Bool
  gdalWarp : Bool

-- warp options stand for the array they are made of
def Opener.appOptions (o : Opener) (array : List (Option String)) :
    Option (List (Option String)) :=
  if o.warpAppOptionsNew array then some array else none

def answering (source warped : Bool) : Opener := ⟨fun _ ↦ true, fun _ ↦ source, warped⟩

-- `false` also where GDAL was not asked
structure OpenOutcome where
  options : Bool
  source : Bool
  warped : Bool
  deriving DecidableEq

/-- The call of GDAL that returned a handle, with what it was given. -/
inductive Origin where
  | opened (uri : Uri)
  | warped (source : DatasetH) (appOptions : List (Option String))
  deriving DecidableEq

/-- GDAL's account of dataset handles: those below `issued` were returned by
`GDALOpen` or `GDALWarp`; `closed` lists the calls of `GDALClose`. -/
structure Gdal where
  issued : ℕ
  closed : List DatasetH
  opens : List OpenOutcome
  origins : List (DatasetH × Origin)

namespace Gdal

def start : Gdal := ⟨0, [], [], []⟩

def issue (g : Gdal) (origin : Origin) : Bool → Option DatasetH × Gdal
  | true => (some g.issued,
    { g with issued := g.issued + 1, origins := (g.issued, origin) :: g.origins })
  | false => (none, g)

def gdalOpen (g : Gdal) (o : Opener) (uri : Uri) : Option DatasetH × Gdal :=
  g.issue (.opened uri) (o.gdalOpen uri)

def gdalWarp (g : Gdal) (o : Opener) (source : DatasetH) (appOptions : List (Option String)) :
    Option DatasetH × Gdal :=
  g.issue (.warped source appOptions) o.gdalWarp

def close (g : Gdal) : Option DatasetH → Gdal
  | some h => { g with closed := h :: g.closed }
  | none => g

def record (g : Gdal) (o : OpenOutcome) : Gdal := { g with opens := o :: g.opens }

end Gdal

structure LockedDataset (τ : Type) where
  source : Option DatasetH
  warped : Option DatasetH
  uriOptions : UriOptions
  datasetLock : Option τ
  -- an `int` in the source; the model is of fewer than 2 ^ 31 references to a dataset
  useCount : ℤ

namespace LockedDataset

variable {τ : Type} [DecidableEq τ]

def empty : LockedDataset τ := ⟨none, none, ("", []), none, 0⟩

def ofUriOptions (key : UriOptions) : LockedDataset τ := ⟨none, none, key, none, 0⟩

def valid (ld : LockedDataset τ) : Bool := ld.source.isSome && ld.warped.isSome

def inc (ld : LockedDataset τ) : LockedDataset τ := { ld with useCount := ld.useCount + 1 }

def dec (ld : LockedDataset τ) : LockedDataset τ := { ld with useCount := ld.useCount - 1 }

def lock (t : τ) (ld : LockedDataset τ) : LockedDataset τ := { ld with datasetLock := some t }

-- an error-checking mutex is released by its owner only
def unlock (t : τ) (ld : LockedDataset τ) : LockedDataset τ :=
  if ld.datasetLock = some t then { ld with datasetLock := none } else ld

def lockForDeletion (t : τ) (ld : LockedDataset τ) : Bool × LockedDataset τ :=
  if ld.datasetLock ≠ none then (false, ld)
  else if ld.useCount ≠ 0 then (false, (ld.lock t).unlock t)
  else (true, ld.lock t)

def optionsArray (options : Options) : List (Option String) :=
  let scan := options.foldl (fun (acc : Bool × List (Option String)) value ↦
    (acc.1 || value == "-of", acc.2 ++ [some value])) (false, [])
  let cells := if scan.1 then scan.2 else scan.2 ++ [some "-of", some "VRT"]
  cells ++ [none]

def openDatasets (t : τ) (o : Opener) (g : Gdal) (ld : LockedDataset τ) : LockedDataset τ × Gdal :=
  if ld.datasetLock ≠ none then ({ ld with source := none, warped := none }, g)
  else
    let ld := ld.lock t
    if ld.source = none ∨ ld.warped = none then
      match o.appOptions (optionsArray ld.uriOptions.2) with
      | none => ({ ld with source := none, warped := none }, g.record ⟨false, false, false⟩)
      | some appOptions =>
        let opened := g.gdalOpen o ld.uriOptions.1
        match opened.1 with
        | none =>
          ({ ld with source := none, warped := none }, opened.2.record ⟨true, false, false⟩)
        | some source =>
          let warped := opened.2.gdalWarp o source appOptions
          let g := warped.2.record ⟨true, true, warped.1.isSome⟩
          -- the source tests the handle of `GDALOpen` a second time here
          if opened.1 = none then
            ({ ld with source := none, warped := none }, g.close opened.1)
          else (({ ld with source := opened.1, warped := warped.1 }).unlock t, g)
    else (ld.unlock t, g)

def close (g : Gdal) (ld : LockedDataset τ) : LockedDataset τ × Gdal :=
  if ld.valid then
    ({ ld with source := none, warped := none }, (g.close ld.warped).close ld.source)
  else (ld, g)

/-- The move constructor, with what it leaves of `rhs`. An assertion that fails
is `none`, here and in `moveAssign`. -/
def moveConstruct (rhs : LockedDataset τ) : Option (LockedDataset τ × LockedDataset τ) :=
  if rhs.useCount = 0 then
    some (⟨rhs.source, rhs.warped, rhs.uriOptions, none, 0⟩,
      { rhs with source := none, warped := none })
  else none

def moveAssign (t : τ) (g : Gdal) (lhs rhs : LockedDataset τ) :
    Option ((LockedDataset τ × LockedDataset τ) × Gdal) :=
  if lhs.useCount = 0 ∧ rhs.useCount = 0 then
    let closed := lhs.close g
    some ((({ closed.1 with source := rhs.source, warped := rhs.warped,
                            uriOptions := rhs.uriOptions }).unlock t,
      { rhs with source := none, warped := none }), closed.2)
  else none

/-- `auto ds = locked_dataset(key)`: the temporary is moved from and destroyed.
Eliding the move changes nothing but the lock of a local. -/
def construct (t : τ) (o : Opener) (g : Gdal) (key : UriOptions) :
    Option (LockedDataset τ × Gdal) := do
  let temporary := (ofUriOptions key).openDatasets t o g
  let moved ← temporary.1.moveConstruct
  some (moved.1, (moved.2.close temporary.2).2)

def outcome (o : Opener) (key : UriOptions) : OpenOutcome :=
  let options := o.warpAppOptionsNew (optionsArray key.2)
  let source := options && o.gdalOpen key.1
  ⟨options, source, source && o.gdalWarp⟩

end LockedDataset

end GdalWarp.Bindings
