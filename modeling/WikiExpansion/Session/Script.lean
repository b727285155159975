import WikiExpansion.Reconcile
import WikiExpansion.Registry

/-!
# What a handler does with a token

A handler meets one token at a time.  It may answer at once, or keep its handle
and leave the answer for later; it may answer twice, start further runs over
tokens of its own, take an id, register more handlers, or answer for somebody
else whose handle it holds.  `Script` is the tree of these actions: each one
leads to the next, which depends on what the session replied.

`σ` is whatever the handlers of a session keep between tokens.  A script that
starts a run of its own says how it goes on with what comes out.
-/

namespace WikiExpansion

/-- The number of an invocation, which is the right to answer it.  It can be
copied at will; the first answer counts. -/
structure Handle where
  index : Nat
deriving DecidableEq, Inhabited

/-- What a handler is told beside the token: the handle to answer by, the name
and position it is registered under, and the options of the run. -/
structure Frame where
  handle : Handle
  name : String
  position : Position
  options : Options
deriving DecidableEq, Inhabited

inductive Event where
  /-- The run of a job over its tokens is over. -/
  | finished (job : Nat) (result : Outcome (List Token))
  | expanded (job : Nat) (result : Outcome (List (Held (Attribute Token))))
  | seen (handler : String) (token : Token) (options : Options)
  /-- A handler answered before it returned; `first` says whether that counted. -/
  | answered (handler : String) (first : Bool)
deriving Inhabited

/-- What a handler has to report.  It cannot report the end of a job. -/
inductive Note where
  | seen (handler : String) (token : Token) (options : Options)
  | answered (handler : String) (first : Bool)
deriving Inhabited

def Note.event : Note → Event
  | seen handler token options => .seen handler token options
  | answered handler first => .answered handler first

inductive Script (σ : Type) where
  | answer (result : Outcome (List Token))
  | suspend
  /-- Answer by any handle; the reply says whether the answer counted. -/
  | complete (h : Handle) (result : Outcome (List Token)) (next : Bool → Script σ)
  | isAnswered (h : Handle) (next : Bool → Script σ)
  /-- Run tokens through all handlers, with the options of the session where none
  are given, and go on at once; `done` takes what comes out. -/
  | process (tokens : List Token) (options : Option Options)
      (done : Outcome (List Token) → Script σ) (next : Script σ)
  /-- Expand the attributes of `token` with runs of their own, and go on at once.
  What the token becomes is the answer. -/
  | expandAttributes (token : Token) (options : Options) (next : Script σ)
  | newObjectId (next : String → Script σ)
  | register (name : String) (rank : Rank) (filter : Filter)
      (handler : Frame → Token → Script σ) (next : Script σ)
  | report (n : Note) (next : Script σ)
  | remember (update : σ → σ) (next : σ → Script σ)
deriving Inhabited

abbrev Handler (σ : Type) : Type := Frame → Token → Script σ

def Handler.ofFunction {σ : Type} (f : Options → Token → Outcome (List Token)) : Handler σ :=
  fun frame token => .answer (f frame.options token)

end WikiExpansion
