import Mathlib.Data.Vector.Defs
import GdalWarp.Foundation.Buffer
import GdalWarp.Bindings.LockedDataset
import GdalWarp.Bindings.Tokens

namespace GdalWarp.Bindings

open Foundation Buffer

def maxOptions : ℕ := 1024

def copyOptions : List (Option String) → ℕ → Options → Option (List (Option String))
  | cells, _, [] => some cells
  | cells, i, option :: rest =>
    if i < maxOptions then
      (store cells i (some option)).bind fun cells ↦ copyOptions cells (i + 1) rest
    else some cells

def fillOptions :
    List (Option String) → ℕ → Bool → Options → Option (Bool × List (Option String))
  | cells, _, configured, [] => some (configured, cells)
  | cells, i, configured, value :: rest =>
    (store cells i (some value)).bind fun cells ↦
      fillOptions cells (i + 1) (configured || value == "-of") rest

/-- `options_array` as `open` hands it to GDAL; `stack` is what the array held
before. -/
def warpOptions (stack : List.Vector (Option String) 256) (options : Options) :
    Option (List (Option String)) := do
  let filled ← fillOptions stack.toList 0 false options
  let i := options.length
  if filled.1 then store filled.2 i none
  else
    let cells ← store filled.2 i (some "-of")
    let cells ← store cells (i + 1) (some "VRT")
    store cells (i + 2) none

variable (L : LruCache)

/-- The JNI `get_token`; `frame` is what its array held before. -/
def javaGetToken (frame : List.Vector (Option String) maxOptions) (c : L.State) (uri : Uri)
    (options : Options) (draws : List Token) : Option (Token × L.State) := do
  let cells ← store frame.toList options.length none
  let cells ← copyOptions cells 0 options
  getTokenArray L c uri cells draws

def argumentArray (stack : List.Vector (Option String) 256) (issued : Token × L.State) :
    Option (List (Option String)) :=
  (queryToken L issued.2 issued.1).1.bind fun pair ↦ warpOptions stack pair.2

theorem fillOptions_eq (cells : List (Option String)) (i : ℕ) (configured : Bool)
    (options : Options) :
    fillOptions cells i configured options =
      (storeFrom cells i (options.map some)).map fun cells ↦
        (configured || decide ("-of" ∈ options), cells) := by
  induction options generalizing cells i configured with
  | nil => simp [fillOptions, storeFrom]
  | cons value rest ih =>
    rw [fillOptions, List.map_cons, storeFrom, Option.map_bind]
    congr 1
    funext cells
    rw [ih, Function.comp_apply]
    congr 1
    funext cells
    simp only [List.mem_cons, Bool.decide_or, Bool.or_assoc, eq_comm (a := "-of")]
    rfl

theorem copyOptions_eq {cells : List (Option String)} {i : ℕ} {options : Options}
    (h : i + options.length ≤ maxOptions) :
    copyOptions cells i options = storeFrom cells i (options.map some) := by
  induction options generalizing cells i with
  | nil => rfl
  | cons option rest ih =>
    rw [List.length_cons] at h
    rw [copyOptions, if_pos (by omega), List.map_cons, storeFrom]
    congr 1
    funext cells
    exact ih (by omega)

theorem optionsArray_eq (options : Options) :
    LockedDataset.optionsArray options =
      (options ++ if "-of" ∈ options then [] else ["-of", "VRT"]).map some ++ [none] := by
  have hscan (configured : Bool) (cells : List (Option String)) :
      options.foldl (fun (acc : Bool × List (Option String)) value ↦
        (acc.1 || value == "-of", acc.2 ++ [some value])) (configured, cells) =
      (configured || decide ("-of" ∈ options), cells ++ options.map some) := by
    induction options generalizing configured cells with
    | nil => simp
    | cons value rest ih =>
      rw [List.foldl_cons, ih]
      simp only [List.mem_cons, Bool.decide_or, Bool.or_assoc, eq_comm (a := "-of"), List.map_cons,
        List.append_assoc, List.singleton_append]
      rfl
  rw [LockedDataset.optionsArray, hscan, Bool.false_or, List.nil_append, List.map_append]
  by_cases hof : "-of" ∈ options
  · simp [hof]
  · simp [hof]

/-- Without its bound, `options_array` is the array of the cache's model. -/
theorem warpOptions_eq_storeFrom (stack : List.Vector (Option String) 256) (options : Options) :
    warpOptions stack options =
      storeFrom stack.toList 0 (LockedDataset.optionsArray options) := by
  rw [warpOptions, fillOptions_eq, optionsArray_eq, List.map_append, List.append_assoc,
    storeFrom_append, Option.bind_eq_bind, Option.bind_map, Bool.false_or, List.length_map,
    Nat.zero_add]
  congr 1
  funext cells
  by_cases hof : "-of" ∈ options
  · simp [hof, storeFrom]
  · simp [hof, storeFrom]

def FitsArray (options : Options) : Prop :=
  options.length + (if "-of" ∈ options then 1 else 3) ≤ 256

instance (options : Options) : Decidable (FitsArray options) :=
  inferInstanceAs (Decidable (_ ≤ 256))

theorem warpOptions_eq (stack : List.Vector (Option String) 256) (options : Options) :
    warpOptions stack options =
      if FitsArray options then
        some (LockedDataset.optionsArray options ++
          stack.toList.drop (LockedDataset.optionsArray options).length)
      else none := by
  have hlength : (LockedDataset.optionsArray options).length =
      options.length + if "-of" ∈ options then 1 else 3 := by
    rw [optionsArray_eq]
    by_cases hof : "-of" ∈ options
    · simp [hof]
    · simp [hof]
  have hstore := storeFrom_eq [] stack.toList (LockedDataset.optionsArray options)
  rw [List.nil_append, List.length_nil, List.nil_append, stack.toList_length] at hstore
  rw [warpOptions_eq_storeFrom, hstore, hlength]
  rfl

theorem javaGetToken_eq (frame : List.Vector (Option String) maxOptions) (c : L.State) (uri : Uri)
    (options : Options) (draws : List Token) :
    javaGetToken L frame c uri options draws =
      if options.length < maxOptions then getToken L c (uri, options) draws else none := by
  rw [javaGetToken, store, frame.toList_length]
  split
  case isTrue hlt =>
    have hsplit : frame.toList.set options.length none =
        frame.toList.take options.length ++ none :: frame.toList.drop (options.length + 1) :=
      List.set_eq_take_append_cons_drop.trans (if_pos (by rwa [frame.toList_length]))
    have hstore := storeFrom_eq [] (frame.toList.take options.length ++
      none :: frame.toList.drop (options.length + 1)) (options.map some)
    have htake : (frame.toList.take options.length).length = options.length := by
      rw [List.length_take, frame.toList_length]
      omega
    rw [List.nil_append, List.length_nil, List.nil_append, List.length_map, List.length_append,
      htake, if_pos (Nat.le_add_right _ _), List.drop_left' htake] at hstore
    rw [Option.bind_eq_bind, Option.bind_some, copyOptions_eq (by omega), hsplit, hstore]
    rw [Option.bind_some, getTokenArray, readOptions_append, Option.bind_some]
  case isFalse => rfl

variable {L}

/-- What GDAL should be handed: the options, the output format where they name
none, and a null pointer. -/
def Handed (options : Options) (result : Option (List (Option String))) : Prop :=
  ∃ rest, result = some
    ((options ++ if "-of" ∈ options then [] else ["-of", "VRT"]).map some ++ none :: rest)

theorem handed_warpOptions_iff (stack : List.Vector (Option String) 256) (options : Options) :
    Handed options (warpOptions stack options) ↔ FitsArray options := by
  rw [warpOptions_eq]
  split
  case isTrue hfits =>
    refine iff_of_true ⟨stack.toList.drop (LockedDataset.optionsArray options).length, ?_⟩ hfits
    rw [optionsArray_eq, List.append_assoc, List.singleton_append]
  case isFalse hfits => exact iff_of_false (fun ⟨_, h⟩ ↦ nomatch h) hfits

theorem argumentArray_getToken {stack : List.Vector (Option String) 256} {c : L.State} {uri : Uri}
    {options : Options} {draws : List Token} (hsize : 0 < L.capacity c)
    (hdraws : (chooseToken L c firstToken draws).isSome) :
    (getToken L c (uri, options) draws).bind (argumentArray L stack) =
      warpOptions stack options := by
  obtain ⟨token, htoken⟩ := Option.isSome_iff_exists.mp hdraws
  have hissued : getToken L c (uri, options) draws = some (token, L.insert c token (uri, options)) := by
    rw [getToken, htoken, Option.map_some]
  obtain ⟨hfree, hgood, -, -⟩ := getToken_some hissued
  rw [hissued, Option.bind_some, argumentArray, queryToken_fst token hgood,
    L.lookup_insert_self hfree hsize, Option.bind_some]

theorem handed_java_iff (frame : List.Vector (Option String) maxOptions)
    (stack : List.Vector (Option String) 256) {c : L.State} (hsize : 0 < L.capacity c) (uri : Uri)
    (options : Options) {draws : List Token}
    (hdraws : (chooseToken L c firstToken draws).isSome) :
    Handed options ((javaGetToken L frame c uri options draws).bind (argumentArray L stack)) ↔
      FitsArray options := by
  rw [javaGetToken_eq, ← handed_warpOptions_iff stack options]
  split
  case isTrue => rw [argumentArray_getToken hsize hdraws]
  case isFalse hlt =>
    refine iff_of_false (fun ⟨_, h⟩ ↦ nomatch h) ?_
    rw [handed_warpOptions_iff, FitsArray]
    have hmax : maxOptions = 1024 := rfl
    split <;> omega

/-- The options reach GDAL, with all stores inside the arrays, exactly when they
and what `open` adds fit its 256 cells. -/
theorem handed_iff_fits_array (frame : List.Vector (Option String) maxOptions)
    (stack : List.Vector (Option String) 256) {c : L.State} (hsize : 0 < L.capacity c) (uri : Uri)
    (options : Options) {draws : List Token}
    (hdraws : (chooseToken L c firstToken draws).isSome) :
    (Handed options ((javaGetToken L frame c uri options draws).bind (argumentArray L stack)) ↔
      FitsArray options) ∧
    ∀ rest, Handed options ((getTokenArray L c uri (options.map some ++ none :: rest) draws).bind
      (argumentArray L stack)) ↔ FitsArray options := by
  refine ⟨handed_java_iff frame stack hsize uri options hdraws, fun rest ↦ ?_⟩
  rw [getTokenArray, readOptions_append, Option.bind_some, argumentArray_getToken hsize hdraws]
  exact handed_warpOptions_iff stack options

theorem handed_iff_fits_array_resampling :
    Handed ["-r", "near"] ((javaGetToken (.ofList Token UriOptions) (.replicate _ none)
      (tokenInit _ 4) "a.tif" ["-r", "near"] []).bind (argumentArray _ (.replicate _ none))) :=
  (handed_iff_fits_array _ _ (by decide) _ _ (by decide)).1.mpr (by decide)

theorem many_options_overrun :
    ¬ Handed (List.replicate 254 "-q") ((javaGetToken (.ofList Token UriOptions)
      (.replicate _ none) (tokenInit _ 4) "a.tif" (List.replicate 254 "-q") []).bind
        (argumentArray _ (.replicate _ none))) := by
  rw [handed_java_iff _ _ (by decide) _ _ (by decide), FitsArray, List.length_replicate]
  have hof : "-of" ∉ List.replicate 254 "-q" := by
    rw [List.mem_replicate]
    decide
  rw [if_neg hof]
  decide

end GdalWarp.Bindings
