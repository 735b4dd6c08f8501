import Mathlib.Data.UInt

namespace GdalWarp.Bindings

abbrev Uri := String

abbrev Options := List String

abbrev UriOptions := Uri × Options

abbrev Token := UInt64

abbrev StringHash := String → UInt64

-- for computations only
def lengthHash : StringHash := fun str ↦ str.length.toUInt64

def terminatedHash : StringHash := fun str ↦ lengthHash str + 1

def hashOptions (h : StringHash) (rhs : Options) : UInt64 :=
  rhs.foldl (fun result str ↦ result + h str) 0

def hashUriOptions (h : StringHash) (rhs : UriOptions) : UInt64 :=
  h rhs.1 + hashOptions h rhs.2

/-- A C string without its terminator. -/
structure CString where
  bytes : List UInt8
  nulFree : 0 ∉ bytes

def emptyString : CString := ⟨[], by decide⟩

def attemptSuccessful : ℤ := 2 ^ 31 - 1

def datasetLocked : ℤ := -2 ^ 31

def attemptsExceeded : ℤ := 100

def cpleNone : ℤ := 0

def cpleAppDefined : ℤ := 1

def cpleFileIo : ℤ := 3

def cpleOpenFailed : ℤ := 4

def cpleObjectNull : ℤ := 10

end GdalWarp.Bindings
