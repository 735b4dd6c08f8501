import GdalWarp.Foundation.Machine
import GdalWarp.Bindings.Operations
import GdalWarp.Bindings.Retrieval
import GdalWarp.Bindings.Tokens
import GdalWarp.Bindings.Doit
import Mathlib.Data.Fintype.Basic

namespace GdalWarp.Bindings

open Foundation FlatLruCache

structure Invocation where
  token : Token
  op : Operation
  attempts : ℤ
  copies : ℤ
  nanos : UInt64

/-- What a call that runs `DOIT` has on its stack. -/
structure Frame where
  call : Invocation
  start : UInt64
  pair : UriOptions
  locals : Locals

/-- The dataset whose own strings an answer points to. -/
def Operation.lends : (op : Operation) → Answer op.Out → Option ℤ
  | .getMetadata dataset _ _, ⟨_, some (some _)⟩ => some dataset
  | .getMetadataItem dataset _ _ _, ⟨_, some (some _)⟩ => some dataset
  | _, _ => none

/-- The operation as `TRY` sees it: its code and whose strings it lends. -/
def Operation.task (op : Operation) : Task (ℤ × Option ℤ) :=
  op.program.bind fun ans ↦ .ret (ans.code, op.lends ans)

abbrev Work := Activity Call Reply (ℤ × Option ℤ)

def LockedDataset.handle {τ : Type} (ld : LockedDataset τ) (dataset : ℤ) : Option DatasetH :=
  if dataset = 0 then ld.source else if dataset = 1 then ld.warped else none

/-- Where a thread is: in `get` between its read-locked loop and its write lock,
in its write-locked loop with inserts left to make, in `TRY` with datasets left
to try, in an operation, before a `dec`, or back in the caller, which may still
have strings to read. -/
inductive Pc (n : ℕ) where
  | idle
  | called (call : Invocation)
  | round (f : Frame)
  | missing (f : Frame) (found : List (Fin n)) (request : Request)
  | inserting (f : Frame) (found : List (Fin n)) (left : ℕ)
  | trying (f : Frame) (rest : List (Fin n)) (lent : Option DatasetH)
  | running (f : Frame) (i : Fin n) (rest : List (Fin n)) (w : Work)
  | releasing (f : Frame) (i : Fin n) (rest : List (Fin n)) (lent : Option DatasetH)
  | returned (value : ℤ) (lent : Option DatasetH)

/-- `held` lists the references that `get` gave to the thread's call and that
the call has not given back. -/
structure Thread (n : ℕ) where
  pc : Pc n
  held : List (Fin n)

structure Service (τ : Type) (L : LruCache) (n : ℕ) where
  tokens : L.State
  cache : FlatLruCache τ n
  gdal : Gdal
  writer : Option τ
  threads : τ → Thread n
  aborted : Bool

inductive ServiceEvent (τ : Type) where
  | getToken (pair : UriOptions) (draws : List Token)
  | call (t : τ) (c : Invocation)
  | query (t : τ) (now : UInt64)
  | round (t : τ) (now : UInt64)
  | lockCache (t : τ)
  | giveUp (t : τ)
  | insert (t : τ) (o : Opener)
  | unlockCache (t : τ)
  | attempt (t : τ)
  | advance (t : τ)
  | answer (t : τ) (reply : ∀ c, Reply c)
  | dec (t : τ)
  | next (t : τ)
  | finish (t : τ)

namespace Pc

variable {n : ℕ}

/-- The test of the loop of `DOIT` and what follows it. -/
def loopHead (f : Frame) (lent : Option DatasetH) : Pc n :=
  if f.locals.loops f.call.attempts then .round f
  else .returned (f.locals.result f.call.attempts)
    (if 0 ≤ f.locals.result f.call.attempts then lent else none)

def got (f : Frame) (found : List (Fin n)) : Pc n :=
  if found.length = 0 then .returned (-cpleOpenFailed) none else .trying f found none

def scanned (f : Frame) (found : List (Fin n)) : Pc n :=
  match FlatLruCache.request f.call.copies found.length with
  | .nothing => got f found
  | request => .missing f found request

def refs : Pc n → List (Fin n)
  | .missing _ found _ | .inserting _ found _ => found
  | .trying _ rest _ => rest
  | .running _ i rest _ | .releasing _ i rest _ => i :: rest
  | _ => []

def pair : Pc n → Option UriOptions
  | .round f | .missing f _ _ | .inserting f _ _ | .trying f _ _ | .running f _ _ _
  | .releasing f _ _ _ => some f.pair
  | _ => none

def lent : Pc n → Option DatasetH
  | .trying _ _ lent | .releasing _ _ _ lent | .returned _ lent => lent
  | _ => none

def job : Pc n → Option (Fin n × Work)
  | .running _ i _ w => some (i, w)
  | _ => none

-- no public call is between its beginning and its end
def settled : Pc n → Bool
  | .idle | .returned _ _ => true
  | _ => false

attribute [simp] refs pair lent job

theorem refs_of_settled {pc : Pc n} (h : pc.settled = true) : pc.refs = [] := by
  cases pc <;> first | rfl | cases h

theorem job_of_settled {pc : Pc n} (h : pc.settled = true) : pc.job = none := by
  cases pc <;> first | rfl | cases h

structure Quiet (pc pc' : Pc n) : Prop where
  refs : pc'.refs = pc.refs
  pair : pc.refs = [] ∨ pc'.pair = pc.pair
  lent : pc'.lent = none ∨ pc'.lent = pc.lent
  job : pc.job = none
  job' : pc'.job = none

theorem loopHead_cases (f : Frame) (l : Option DatasetH) :
    (loopHead f l : Pc n) = .round f ∨
      ∃ value l', (loopHead f l : Pc n) = .returned value l' ∧ (l' = none ∨ l' = l) := by
  unfold loopHead
  split
  · exact Or.inl rfl
  · refine Or.inr ⟨_, _, rfl, ?_⟩
    split
    · exact Or.inr rfl
    · exact Or.inl rfl

theorem quiet_loopHead {pc : Pc n} {l : Option DatasetH} (f : Frame) (hrefs : pc.refs = [])
    (hlent : l = none ∨ l = pc.lent) (hjob : pc.job = none) : Quiet pc (loopHead f l) := by
  rcases loopHead_cases f l with h | ⟨value, l', h, hl⟩
  · rw [h]
    exact ⟨hrefs.symm, Or.inl hrefs, Or.inl rfl, hjob, rfl⟩
  · rw [h]
    refine ⟨hrefs.symm, Or.inl hrefs, ?_, hjob, rfl⟩
    rcases hl with rfl | rfl
    · exact Or.inl rfl
    · exact hlent

theorem got_cases (f : Frame) (found : List (Fin n)) :
    found = [] ∧ got f found = .returned (-cpleOpenFailed) none ∨
      got f found = .trying f found none := by
  unfold got
  split
  · exact Or.inl ⟨List.length_eq_zero_iff.mp ‹_›, rfl⟩
  · exact Or.inr rfl

theorem quiet_got {pc : Pc n} {f : Frame} {found : List (Fin n)} (hrefs : pc.refs = found)
    (hpair : pc.pair = some f.pair) (hjob : pc.job = none) : Quiet pc (got f found) := by
  rcases got_cases f found with ⟨rfl, h⟩ | h
  · rw [h]
    exact ⟨hrefs.symm, Or.inl hrefs, Or.inl rfl, hjob, rfl⟩
  · rw [h]
    exact ⟨hrefs.symm, Or.inr hpair.symm, Or.inl rfl, hjob, rfl⟩

theorem scanned_spec (f : Frame) (found : List (Fin n)) :
    (scanned f found).refs = found ∧ (found = [] ∨ (scanned f found).pair = some f.pair) ∧
      (scanned f found).lent = none ∧ (scanned f found).job = none := by
  unfold scanned
  split
  · rcases got_cases f found with ⟨rfl, h⟩ | h
    · rw [h]
      exact ⟨rfl, Or.inl rfl, rfl, rfl⟩
    · rw [h]
      exact ⟨rfl, Or.inr rfl, rfl, rfl⟩
  · exact ⟨rfl, Or.inr rfl, rfl, rfl⟩

end Pc

namespace Service

variable {τ : Type} {L : LruCache} {n : ℕ}

def Quiescent (s : Service τ L n) : Prop := ∀ t, (s.threads t).pc.settled = true

instance [Fintype τ] (s : Service τ L n) : Decidable s.Quiescent :=
  inferInstanceAs (Decidable (∀ _, _))

variable [DecidableEq τ]

def put (s : Service τ L n) (t : τ) (th : Thread n) : Service τ L n :=
  { s with threads := Function.update s.threads t th }

def move (s : Service τ L n) (t : τ) (pc : Pc n) : Service τ L n :=
  s.put t { s.threads t with pc := pc }

def setSlot (s : Service τ L n) (i : Fin n) (ld : LockedDataset τ) : Service τ L n :=
  { s with cache := s.cache.setValue i ld }

def work (s : Service τ L n) (t : τ) (f : Frame) (i : Fin n) (rest : List (Fin n)) :
    Task (ℤ × Option ℤ) → Service τ L n
  | .ret r => s.move t (.releasing { f with locals := f.locals.touch r.1 } i rest
      (r.2.bind (s.cache.values i).handle))
  | .tryLock k =>
    if (s.cache.values i).datasetLock = none then
      (s.setSlot i ((s.cache.values i).lock t)).move t (.running f i rest (.ready (k true)))
    else s.move t (.running f i rest (.ready (k false)))
  | .unlock k =>
    (s.setSlot i ((s.cache.values i).unlock t)).move t (.running f i rest (.ready k))
  | .call c k => s.move t (.running f i rest (.inside c k))

def step (h : StringHash) (s : Service τ L n) : ServiceEvent τ → Option (Service τ L n)
  | .getToken pair draws =>
    (getToken L s.tokens pair draws).map fun r ↦ { s with tokens := r.2 }
  | .call t c =>
    match (s.threads t).pc with
    | .idle => some (s.move t (.called c))
    | _ => none
  | .query t now =>
    match (s.threads t).pc with
    | .called c =>
      let r := queryToken L s.tokens c.token
      match r.1 with
      | some pair => some ({ s with tokens := r.2 }.move t (.loopHead ⟨c, now, pair, .start⟩ none))
      | none => some ({ s with tokens := r.2 }.move t (.returned (-cpleOpenFailed) none))
    | _ => none
  | .round t now =>
    match (s.threads t).pc with
    | .round f =>
      if Locals.timedOut f.call.nanos f.start now then
        some (s.move t (.returned (-cpleFileIo) none))
      else if s.writer = none then
        let found := s.cache.find (hashUriOptions h f.pair) f.pair
        some ({ s with cache := found.2 }.put t ⟨.scanned f found.1, found.1⟩)
      else none
    | _ => none
  | .lockCache t =>
    match (s.threads t).pc with
    | .missing f found request =>
      if s.writer = none then
        some ({ s with writer := some t }.move t (.inserting f found request.missing))
      else none
    | _ => none
  | .giveUp t =>
    match (s.threads t).pc with
    | .missing f found (.soft _) => some (s.move t (.got f found))
    | _ => none
  | .insert t o =>
    match (s.threads t).pc with
    | .inserting f found (left + 1) =>
      match insertOne t (hashUriOptions h f.pair) f.pair o ⟨found, s.cache, s.gdal⟩ with
      | some r =>
        some ({ s with cache := r.cache, gdal := r.gdal }.put t ⟨.inserting f r.list left, r.list⟩)
      | none => some { s with aborted := true }
    | _ => none
  | .unlockCache t =>
    match (s.threads t).pc with
    | .inserting f found 0 => some ({ s with writer := none }.move t (.got f found))
    | _ => none
  | .attempt t =>
    match (s.threads t).pc with
    | .trying f (i :: rest) lent =>
      if !f.locals.done then some (s.move t (.running f i rest (.ready f.call.op.task)))
      else some (s.move t (.releasing f i rest lent))
    | _ => none
  | .advance t =>
    match (s.threads t).pc with
    | .running f i rest (.ready p) => some (s.work t f i rest p)
    | _ => none
  | .answer t reply =>
    match (s.threads t).pc with
    | .running f i rest (.inside c k) =>
      some (s.move t (.running f i rest (.ready (k (reply c)))))
    | _ => none
  | .dec t =>
    match (s.threads t).pc with
    | .releasing f i rest lent =>
      some ((s.setSlot i (s.cache.values i).dec).put t
        ⟨.trying f rest lent, (s.threads t).held.erase i⟩)
    | _ => none
  | .next t =>
    match (s.threads t).pc with
    | .trying f [] lent =>
      some (s.move t (.loopHead
        { f with locals := { f.locals with i := int32 (f.locals.i + 1) } } lent))
    | _ => none
  | .finish t =>
    match (s.threads t).pc with
    | .returned _ _ => some (s.move t .idle)
    | _ => none

def machine (h : StringHash) (τ : Type) [DecidableEq τ] (L : LruCache) (size n : ℕ) :
    Machine (Service τ L n) (ServiceEvent τ) where
  init := ⟨tokenInit L size, fresh τ n, .start, none, fun _ ↦ ⟨.idle, []⟩, false⟩
  step := step h

@[simp] theorem put_self (s : Service τ L n) (t : τ) (th : Thread n) :
    (s.put t th).threads t = th := Function.update_self ..

theorem put_of_ne (s : Service τ L n) {t u : τ} (th : Thread n) (h : u ≠ t) :
    (s.put t th).threads u = s.threads u := Function.update_of_ne h ..

theorem forall_put {P : τ → Thread n → Prop} {s : Service τ L n} {t : τ} {th : Thread n}
    (ht : P t th) (hother : ∀ u ≠ t, P u (s.threads u)) (u : τ) :
    P u ((s.put t th).threads u) := by
  by_cases hu : u = t
  · subst hu
    rwa [put_self]
  · rw [put_of_ne _ _ hu]
    exact hother u hu

theorem work_gdal (s : Service τ L n) (t : τ) (f : Frame) (i : Fin n) (rest : List (Fin n))
    (p : Task (ℤ × Option ℤ)) : (s.work t f i rest p).gdal = s.gdal := by
  cases p with
  | tryLock k =>
    rw [work]
    split <;> rfl
  | _ => rfl

/-- What a step can do to the references, the datasets and the locks. -/
inductive Effect (h : StringHash) (s : Service τ L n) : ServiceEvent τ → Service τ L n → Prop
  | tokens (e : ServiceEvent τ) (tok : L.State) : Effect h s e { s with tokens := tok }
  | quiet (e : ServiceEvent τ) (t : τ) (tok : L.State) (wr : Option τ) (pc : Pc n)
      (hq : Pc.Quiet (s.threads t).pc pc) :
      Effect h s e ({ s with tokens := tok, writer := wr }.move t pc)
  | find (e : ServiceEvent τ) (t : τ) (f : Frame) (hpc : (s.threads t).pc = .round f) :
      Effect h s e ({ s with cache := (s.cache.find (hashUriOptions h f.pair) f.pair).2 }.put t
        ⟨.scanned f (s.cache.find (hashUriOptions h f.pair) f.pair).1,
          (s.cache.find (hashUriOptions h f.pair) f.pair).1⟩)
  | insert (t : τ) (o : Opener) (f : Frame) (found : List (Fin n)) (left : ℕ) (r : Got τ n)
      (hpc : (s.threads t).pc = .inserting f found (left + 1))
      (hr : insertOne t (hashUriOptions h f.pair) f.pair o ⟨found, s.cache, s.gdal⟩ = some r) :
      Effect h s (.insert t o)
        ({ s with cache := r.cache, gdal := r.gdal }.put t ⟨.inserting f r.list left, r.list⟩)
  | begin (e : ServiceEvent τ) (t : τ) (f : Frame) (i : Fin n) (rest : List (Fin n))
      (l : Option DatasetH) (hpc : (s.threads t).pc = .trying f (i :: rest) l) :
      Effect h s e (s.move t (.running f i rest (.ready f.call.op.task)))
  | work (e : ServiceEvent τ) (t : τ) (f : Frame) (i : Fin n) (rest : List (Fin n))
      (p : Task (ℤ × Option ℤ)) (hpc : (s.threads t).pc = .running f i rest (.ready p)) :
      Effect h s e (s.work t f i rest p)
  | answer (e : ServiceEvent τ) (t : τ) (f : Frame) (i : Fin n) (rest : List (Fin n)) (c : Call)
      (k : Reply c → Task (ℤ × Option ℤ)) (r : Reply c)
      (hpc : (s.threads t).pc = .running f i rest (.inside c k)) :
      Effect h s e (s.move t (.running f i rest (.ready (k r))))
  | dec (e : ServiceEvent τ) (t : τ) (f : Frame) (i : Fin n) (rest : List (Fin n))
      (l : Option DatasetH) (hpc : (s.threads t).pc = .releasing f i rest l) :
      Effect h s e ((s.setSlot i (s.cache.values i).dec).put t
        ⟨.trying f rest l, (s.threads t).held.erase i⟩)

theorem Effect.quiet' {h : StringHash} {s : Service τ L n} {e : ServiceEvent τ} {t : τ}
    {pc₀ pc : Pc n} (hpc : (s.threads t).pc = pc₀) (hq : Pc.Quiet pc₀ pc) (tok : L.State)
    (wr : Option τ) : Effect h s e ({ s with tokens := tok, writer := wr }.move t pc) :=
  .quiet e t tok wr pc (hpc ▸ hq)

/-- What the branches of `step` need and do; in particular no assertion fails. -/
inductive Moves (h : StringHash) (s : Service τ L n) : ServiceEvent τ → Service τ L n → Prop
  | getToken (pair : UriOptions) (draws : List Token) (r : Token × L.State)
      (hr : Bindings.getToken L s.tokens pair draws = some r) :
      Moves h s (.getToken pair draws) { s with tokens := r.2 }
  | call (t : τ) (c : Invocation) (hpc : (s.threads t).pc = .idle) :
      Moves h s (.call t c) (s.move t (.called c))
  | query (t : τ) (now : UInt64) (c : Invocation) (pair : UriOptions)
      (hpc : (s.threads t).pc = .called c)
      (hpair : (queryToken L s.tokens c.token).1 = some pair) :
      Moves h s (.query t now) ({ s with tokens := (queryToken L s.tokens c.token).2 }.move t
        (.loopHead ⟨c, now, pair, .start⟩ none))
  | unknown (t : τ) (now : UInt64) (c : Invocation) (hpc : (s.threads t).pc = .called c)
      (hnone : (queryToken L s.tokens c.token).1 = none) :
      Moves h s (.query t now) ({ s with tokens := (queryToken L s.tokens c.token).2 }.move t
        (.returned (-cpleOpenFailed) none))
  | timeOut (t : τ) (now : UInt64) (f : Frame) (hpc : (s.threads t).pc = .round f) :
      Moves h s (.round t now) (s.move t (.returned (-cpleFileIo) none))
  | scan (t : τ) (now : UInt64) (f : Frame) (hpc : (s.threads t).pc = .round f)
      (hfree : s.writer = none) :
      Moves h s (.round t now)
        ({ s with cache := (s.cache.find (hashUriOptions h f.pair) f.pair).2 }.put t
          ⟨.scanned f (s.cache.find (hashUriOptions h f.pair) f.pair).1,
            (s.cache.find (hashUriOptions h f.pair) f.pair).1⟩)
  | lockCache (t : τ) (f : Frame) (found : List (Fin n)) (request : Request)
      (hpc : (s.threads t).pc = .missing f found request) (hfree : s.writer = none) :
      Moves h s (.lockCache t)
        ({ s with writer := some t }.move t (.inserting f found request.missing))
  | giveUp (t : τ) (f : Frame) (found : List (Fin n)) (k : ℕ)
      (hpc : (s.threads t).pc = .missing f found (.soft k)) :
      Moves h s (.giveUp t) (s.move t (.got f found))
  | insert (t : τ) (o : Opener) (f : Frame) (found : List (Fin n)) (left : ℕ) (r : Got τ n)
      (hpc : (s.threads t).pc = .inserting f found (left + 1))
      (hr : insertOne t (hashUriOptions h f.pair) f.pair o ⟨found, s.cache, s.gdal⟩ = some r) :
      Moves h s (.insert t o)
        ({ s with cache := r.cache, gdal := r.gdal }.put t ⟨.inserting f r.list left, r.list⟩)
  | unlockCache (t : τ) (f : Frame) (found : List (Fin n))
      (hpc : (s.threads t).pc = .inserting f found 0) :
      Moves h s (.unlockCache t) ({ s with writer := none }.move t (.got f found))
  | attempt (t : τ) (f : Frame) (i : Fin n) (rest : List (Fin n)) (l : Option DatasetH)
      (hpc : (s.threads t).pc = .trying f (i :: rest) l) :
      Moves h s (.attempt t) (s.move t (.running f i rest (.ready f.call.op.task)))
  | skip (t : τ) (f : Frame) (i : Fin n) (rest : List (Fin n)) (l : Option DatasetH)
      (hpc : (s.threads t).pc = .trying f (i :: rest) l) :
      Moves h s (.attempt t) (s.move t (.releasing f i rest l))
  | advance (t : τ) (f : Frame) (i : Fin n) (rest : List (Fin n)) (p : Task (ℤ × Option ℤ))
      (hpc : (s.threads t).pc = .running f i rest (.ready p)) :
      Moves h s (.advance t) (s.work t f i rest p)
  | answer (t : τ) (reply : ∀ c, Reply c) (f : Frame) (i : Fin n) (rest : List (Fin n)) (c : Call)
      (k : Reply c → Task (ℤ × Option ℤ))
      (hpc : (s.threads t).pc = .running f i rest (.inside c k)) :
      Moves h s (.answer t reply) (s.move t (.running f i rest (.ready (k (reply c)))))
  | dec (t : τ) (f : Frame) (i : Fin n) (rest : List (Fin n)) (l : Option DatasetH)
      (hpc : (s.threads t).pc = .releasing f i rest l) :
      Moves h s (.dec t) ((s.setSlot i (s.cache.values i).dec).put t
        ⟨.trying f rest l, (s.threads t).held.erase i⟩)
  | next (t : τ) (f : Frame) (l : Option DatasetH) (hpc : (s.threads t).pc = .trying f [] l) :
      Moves h s (.next t) (s.move t (.loopHead
        { f with locals := { f.locals with i := int32 (f.locals.i + 1) } } l))
  | finish (t : τ) (value : ℤ) (l : Option DatasetH)
      (hpc : (s.threads t).pc = .returned value l) : Moves h s (.finish t) (s.move t .idle)

theorem step_moves {h : StringHash} {s s' : Service τ L n} {e : ServiceEvent τ}
    (hs : s.step h e = some s') : Moves h s e s' := by
  cases e with
  | getToken pair draws =>
    obtain ⟨r, hr, rfl⟩ := Option.map_eq_some_iff.mp hs
    exact .getToken pair draws r hr
  | call t c =>
    simp only [step] at hs
    split at hs
    case h_1 hpc =>
      cases hs
      exact .call t c hpc
    case h_2 => cases hs
  | query t now =>
    simp only [step] at hs
    split at hs
    case h_1 c hpc =>
      split at hs
      case h_1 pair hpair =>
        cases hs
        exact .query t now c pair hpc hpair
      case h_2 hnone =>
        cases hs
        exact .unknown t now c hpc hnone
    case h_2 => cases hs
  | round t now =>
    simp only [step] at hs
    split at hs
    case h_1 f hpc =>
      split at hs
      case isTrue =>
        cases hs
        exact .timeOut t now f hpc
      case isFalse =>
        split at hs
        case isTrue hfree =>
          cases hs
          exact .scan t now f hpc hfree
        case isFalse => cases hs
    case h_2 => cases hs
  | lockCache t =>
    simp only [step] at hs
    split at hs
    case h_1 f found request hpc =>
      split at hs
      case isTrue hfree =>
        cases hs
        exact .lockCache t f found request hpc hfree
      case isFalse => cases hs
    case h_2 => cases hs
  | giveUp t =>
    simp only [step] at hs
    split at hs
    case h_1 f found k hpc =>
      cases hs
      exact .giveUp t f found k hpc
    case h_2 => cases hs
  | insert t o =>
    simp only [step] at hs
    split at hs
    case h_1 f found left hpc =>
      obtain ⟨r, hr⟩ := insertOne_isSome t (hashUriOptions h f.pair) f.pair o
        ⟨found, s.cache, s.gdal⟩
      rw [hr] at hs
      cases hs
      exact .insert t o f found left r hpc hr
    case h_2 => cases hs
  | unlockCache t =>
    simp only [step] at hs
    split at hs
    case h_1 f found hpc =>
      cases hs
      exact .unlockCache t f found hpc
    case h_2 => cases hs
  | attempt t =>
    simp only [step] at hs
    split at hs
    case h_1 f i rest l hpc =>
      split at hs
      case isTrue =>
        cases hs
        exact .attempt t f i rest l hpc
      case isFalse =>
        cases hs
        exact .skip t f i rest l hpc
    case h_2 => cases hs
  | advance t =>
    simp only [step] at hs
    split at hs
    case h_1 f i rest p hpc =>
      cases hs
      exact .advance t f i rest p hpc
    case h_2 => cases hs
  | answer t reply =>
    simp only [step] at hs
    split at hs
    case h_1 f i rest c k hpc =>
      cases hs
      exact .answer t reply f i rest c k hpc
    case h_2 => cases hs
  | dec t =>
    simp only [step] at hs
    split at hs
    case h_1 f i rest l hpc =>
      cases hs
      exact .dec t f i rest l hpc
    case h_2 => cases hs
  | next t =>
    simp only [step] at hs
    split at hs
    case h_1 f l hpc =>
      cases hs
      exact .next t f l hpc
    case h_2 => cases hs
  | finish t =>
    simp only [step] at hs
    split at hs
    case h_1 value l hpc =>
      cases hs
      exact .finish t value l hpc
    case h_2 => cases hs

theorem step_effect {h : StringHash} {s s' : Service τ L n} {e : ServiceEvent τ}
    (hs : s.step h e = some s') : Effect h s e s' := by
  cases step_moves hs with
  | getToken pair draws r hr => exact .tokens _ r.2
  | call t c hpc =>
    have hq : Pc.Quiet (.idle : Pc n) (.called c) := ⟨rfl, Or.inl rfl, Or.inl rfl, rfl, rfl⟩
    exact .quiet' hpc hq s.tokens s.writer
  | query t now c pair hpc hpair =>
    exact .quiet' hpc (Pc.quiet_loopHead _ rfl (Or.inl rfl) rfl) _ s.writer
  | unknown t now c hpc hnone =>
    have hq : Pc.Quiet (.called c : Pc n) (.returned (-cpleOpenFailed) none) :=
      ⟨rfl, Or.inl rfl, Or.inl rfl, rfl, rfl⟩
    exact .quiet' hpc hq _ s.writer
  | timeOut t now f hpc =>
    have hq : Pc.Quiet (.round f : Pc n) (.returned (-cpleFileIo) none) :=
      ⟨rfl, Or.inl rfl, Or.inl rfl, rfl, rfl⟩
    exact .quiet' hpc hq s.tokens s.writer
  | scan t now f hpc hfree => exact .find _ t f hpc
  | lockCache t f found request hpc hfree =>
    have hq : Pc.Quiet (.missing f found request) (.inserting f found request.missing) :=
      ⟨rfl, Or.inr rfl, Or.inl rfl, rfl, rfl⟩
    exact .quiet' hpc hq s.tokens (some t)
  | giveUp t f found k hpc => exact .quiet' hpc (Pc.quiet_got rfl rfl rfl) s.tokens s.writer
  | insert t o f found left r hpc hr => exact .insert t o f found left r hpc hr
  | unlockCache t f found hpc => exact .quiet' hpc (Pc.quiet_got rfl rfl rfl) s.tokens none
  | attempt t f i rest l hpc => exact .begin _ t f i rest l hpc
  | skip t f i rest l hpc =>
    have hq : Pc.Quiet (.trying f (i :: rest) l) (.releasing f i rest l) :=
      ⟨rfl, Or.inr rfl, Or.inr rfl, rfl, rfl⟩
    exact .quiet' hpc hq s.tokens s.writer
  | advance t f i rest p hpc => exact .work _ t f i rest p hpc
  | answer t reply f i rest c k hpc => exact .answer _ t f i rest c k (reply c) hpc
  | dec t f i rest l hpc => exact .dec _ t f i rest l hpc
  | next t f l hpc =>
    exact .quiet' hpc (Pc.quiet_loopHead _ rfl (Or.inr rfl) rfl) s.tokens s.writer
  | finish t value l hpc =>
    have hq : Pc.Quiet (.returned value l : Pc n) .idle := ⟨rfl, Or.inl rfl, Or.inl rfl, rfl, rfl⟩
    exact .quiet' hpc hq s.tokens s.writer

end Service

end GdalWarp.Bindings
