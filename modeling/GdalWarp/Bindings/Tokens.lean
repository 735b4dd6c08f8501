import Mathlib.Data.List.ReduceOption
import GdalWarp.Foundation.LruMap
import GdalWarp.Bindings.Types

namespace GdalWarp.Bindings

open Foundation

/-- `boost::compute::detail::lru_cache<token_t, uri_options_t>`. -/
abbrev LruCache := LruMap Token UriOptions

def badToken : Token := 0

def firstToken : Token := 33

/-- The options of a C array up to its first null pointer; `none` when there is
none to stop at. -/
def readOptions : List (Option String) → Option Options
  | [] => none
  | none :: _ => some []
  | some option :: rest => (readOptions rest).map fun options ↦ option :: options

theorem readOptions_some {array : List (Option String)} {options : Options}
    (h : readOptions array = some options) :
    (array.takeWhile Option.isSome).reduceOption = options := by
  induction array generalizing options with
  | nil => cases h
  | cons cell rest ih =>
    cases cell with
    | none => exact Option.some.inj h
    | some option =>
      obtain ⟨tail, htail, rfl⟩ := Option.map_eq_some_iff.mp h
      rw [List.takeWhile_cons_of_pos rfl, List.reduceOption_cons_of_some, ih htail]

theorem readOptions_append (options : Options) (rest : List (Option String)) :
    readOptions (options.map some ++ none :: rest) = some options := by
  induction options with
  | nil => rfl
  | cons option options ih => rw [List.map_cons, List.cons_append, readOptions, ih, Option.map_some]

variable (L : LruCache)

def tokenInit (size : ℕ) : L.State := L.make size

/-- The loop of `get_token`; `draws` are the values that `generate_token`
returned to it, and the loop is `none` when it would have drawn more or fewer. -/
def chooseToken (c : L.State) : Token → List Token → Option Token
  | token, [] => if L.contains c token || token == badToken then none else some token
  | token, d :: draws =>
    if L.contains c token || token == badToken then chooseToken c d draws else none

def getToken (c : L.State) (pair : UriOptions) (draws : List Token) : Option (Token × L.State) :=
  (chooseToken L c firstToken draws).map fun token ↦ (token, L.insert c token pair)

/-- `get_token` as C callers see it. -/
def getTokenArray (c : L.State) (uri : Uri) (array : List (Option String)) (draws : List Token) :
    Option (Token × L.State) :=
  (readOptions array).bind fun options ↦ getToken L c (uri, options) draws

def queryToken (c : L.State) (token : Token) : Option UriOptions × L.State :=
  if token = badToken then (none, c) else L.get c token

variable {L} {c : L.State}

theorem chooseToken_some {token chosen : Token} {draws : List Token}
    (h : chooseToken L c token draws = some chosen) :
    L.contains c chosen = false ∧ chosen ≠ badToken ∧
      (draws = [] ∧ chosen = token ∨ chosen ∈ draws ∧
        (L.contains c token = true ∨ token = badToken)) := by
  induction draws generalizing token with
  | nil =>
    rw [chooseToken] at h
    split at h
    · cases h
    · obtain rfl := Option.some.inj h
      simp_all
  | cons d draws ih =>
    rw [chooseToken] at h
    split at h
    · obtain ⟨hfree, hgood, hfrom⟩ := ih h
      refine ⟨hfree, hgood, Or.inr ⟨?_, by simp_all⟩⟩
      rcases hfrom with ⟨-, rfl⟩ | ⟨hmem, -⟩
      · exact List.mem_cons_self
      · exact List.mem_cons_of_mem d hmem
    · cases h

theorem getToken_some {pair : UriOptions} {draws : List Token} {token : Token} {c' : L.State}
    (h : getToken L c pair draws = some (token, c')) :
    L.contains c token = false ∧ token ≠ badToken ∧ c' = L.insert c token pair ∧
      (token = firstToken ∨ token ∈ draws ∧ L.contains c firstToken = true) := by
  obtain ⟨chosen, hchosen, heq⟩ := Option.map_eq_some_iff.mp h
  obtain ⟨rfl, rfl⟩ := Prod.mk.inj heq
  obtain ⟨hfree, hgood, hfrom⟩ := chooseToken_some hchosen
  refine ⟨hfree, hgood, rfl, ?_⟩
  rcases hfrom with ⟨-, hfirst⟩ | ⟨hmem, hused⟩
  · exact Or.inl hfirst
  · exact Or.inr ⟨hmem, hused.resolve_right (by decide)⟩

theorem queryToken_fst (token : Token) (h : token ≠ badToken) :
    (queryToken L c token).1 = L.lookup c token := by
  rw [queryToken, if_neg h, L.get_fst, LruMap.lookup]

theorem lookup_queryToken (token token' : Token) :
    L.lookup (queryToken L c token).2 token' = L.lookup c token' := by
  unfold queryToken
  split
  · rfl
  · exact L.lookup_get c token token'

end GdalWarp.Bindings
