import Sable.Compilation

/-!
# Sessions

A session has one loader and at most one live context. A second context is refused as long as
the first one is live.
-/

namespace Sable

/-- The refusal of a second live context. -/
inductive SessionError
  /-- A context is live already. -/
  | contextAlreadyLive
  deriving DecidableEq, Repr

/-- The wording of a session error. -/
def SessionError.message : SessionError → String
  | contextAlreadyLive => "compiler context already created, cannot create a new one"

/-- A loader with a place for one context. -/
structure Session where
  /-- Where modules come from. -/
  loader : Loader
  /-- The live context. -/
  live? : Option Context

namespace Session

/-- A session without a live context. -/
def new (loader : Loader) : Session := ⟨loader, none⟩

/-- Creates a context, unless one is live. -/
def start (s : Session) : Except SessionError Session :=
  match s.live? with
  | some _ => .error .contextAlreadyLive
  | none => .ok { s with live? := some Context.initial }

/-- Ends the live context, and says whether there was one. -/
def close (s : Session) : Bool × Session := (s.live?.isSome, { s with live? := none })

end Session

end Sable
