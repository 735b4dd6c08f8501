import Mathlib.Data.List.Basic

namespace GdalWarp.Foundation

inductive Terminal.Mode where
  | text
  | escape
  | sequence (parameters : List Char)

/-- `shown` is what can be read; `plain` says that no colour is on. -/
structure Terminal where
  mode : Terminal.Mode
  shown : List Char
  plain : Bool

namespace Terminal

def esc : Char := '\x1b'

def start : Terminal := ⟨.text, [], true⟩

def put (s : Terminal) (c : Char) : Terminal :=
  match s.mode with
  | .text => if c = esc then { s with mode := .escape } else { s with shown := s.shown ++ [c] }
  | .escape => { s with mode := if c = '[' then .sequence [] else .text }
  | .sequence parameters =>
    if c.isDigit || c == ';' then { s with mode := .sequence (parameters ++ [c]) }
    else if c = 'm' then { s with mode := .text, plain := parameters == ['0'] }
    else { s with mode := .text }

def feed (s : Terminal) (cs : List Char) : Terminal := cs.foldl put s

def sgr (parameters : List Char) : List Char := esc :: '[' :: (parameters ++ ['m'])

/-- Sent to a terminal that shows text, `cs` adds `text` to it and leaves it with no colour
on if `plain`. -/
def Prints (cs text : List Char) (plain : Bool) : Prop :=
  ∀ shown before, feed ⟨.text, shown, before⟩ cs = ⟨.text, shown ++ text, plain⟩

variable {cs cs' text text' : List Char} {plain plain' : Bool}

theorem feed_append (s : Terminal) (cs cs' : List Char) :
    s.feed (cs ++ cs') = (s.feed cs).feed cs' := List.foldl_append

theorem Prints.append (h : Prints cs text plain) (h' : Prints cs' text' plain') :
    Prints (cs ++ cs') (text ++ text') plain' := by
  intro shown before
  rw [feed_append, h, h', List.append_assoc]

theorem feed_text (h : esc ∉ cs) (shown : List Char) (before : Bool) :
    feed ⟨.text, shown, before⟩ cs = ⟨.text, shown ++ cs, before⟩ := by
  induction cs generalizing shown with
  | nil => rw [List.append_nil, feed, List.foldl_nil]
  | cons c cs ih =>
    obtain ⟨hc, hcs⟩ := List.ne_and_not_mem_of_not_mem_cons h
    have hput : put ⟨.text, shown, before⟩ c = ⟨.text, shown ++ [c], before⟩ := if_neg hc.symm
    rw [feed, List.foldl_cons, hput, ← feed, ih hcs, List.append_assoc, List.singleton_append]

theorem Prints.append_text (h : Prints cs text plain) (h' : esc ∉ cs') :
    Prints (cs ++ cs') (text ++ cs') plain := by
  intro shown before
  rw [feed_append, h, feed_text h', List.append_assoc]

theorem feed_parameters {ps : List Char} (h : ∀ c ∈ ps, (c.isDigit || c == ';') = true)
    (parameters shown : List Char) (before : Bool) :
    feed ⟨.sequence parameters, shown, before⟩ ps =
      ⟨.sequence (parameters ++ ps), shown, before⟩ := by
  induction ps generalizing parameters with
  | nil => rw [List.append_nil, feed, List.foldl_nil]
  | cons c ps ih =>
    obtain ⟨hc, hps⟩ := List.forall_mem_cons.mp h
    have hput : put ⟨.sequence parameters, shown, before⟩ c =
        ⟨.sequence (parameters ++ [c]), shown, before⟩ := if_pos hc
    rw [feed, List.foldl_cons, hput, ← feed, ih hps, List.append_assoc, List.singleton_append]

theorem prints_sgr {ps : List Char} (h : ∀ c ∈ ps, (c.isDigit || c == ';') = true) :
    Prints (sgr ps) [] (ps == ['0']) := by
  intro shown before
  change feed ⟨.sequence [], shown, before⟩ (ps ++ ['m']) = _
  rw [feed_append, feed_parameters h, List.nil_append, List.append_nil]
  rfl

end Terminal

end GdalWarp.Foundation
