import TapeMachine.LoadError

/-!
# Faults

Everything that can go wrong when the library is asked for something, by cause.
-/

namespace TapeMachine

/-- Why a request failed. -/
inductive Fault where
  /-- A program could not be loaded. -/
  | load (e : LoadError)
  /-- The tape has no cell with this id. -/
  | unknownCell (id : Int)
  /-- A text or a number that names no integer was given for one. -/
  | unreadable
  /-- An infinite number was given for an integer. -/
  | infinite
  /-- A value was given whose kind does not fit. -/
  | unsuitable
  /-- A path has a NUL character in it. -/
  | nulInPath
  /-- There is no text encoding of the given name. -/
  | unknownEncoding
  /-- Standard input is not UTF-8. -/
  | undecodableInput
  /-- The time to wait between steps does not fit into a clock. -/
  | delayTooLong
deriving DecidableEq, Repr, Inhabited

end TapeMachine
