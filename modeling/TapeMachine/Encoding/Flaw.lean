/-!
# Flaws of encoded text

The first place at which bytes stop being text in an encoding is described by one of a few reasons.
-/

namespace TapeMachine

namespace Encoding

/-- Why bytes are not text in an encoding. -/
inductive Flaw where
  /-- A byte that starts no character. -/
  | invalidStart
  /-- A byte inside a character that cannot stand there. -/
  | invalidContinuation
  /-- The bytes end inside a character. -/
  | unexpectedEnd
  /-- A byte that is no ASCII code. -/
  | notAscii
  /-- The bytes end inside a 16-bit unit. -/
  | truncated
  /-- The second half of a surrogate pair without the first. -/
  | loneSurrogate
  /-- The first half of a surrogate pair without the second. -/
  | brokenPair
deriving DecidableEq, Repr, Inhabited

/-- The words for a flaw. -/
def Flaw.reason : Flaw → String
  | .invalidStart => "invalid start byte"
  | .invalidContinuation => "invalid continuation byte"
  | .unexpectedEnd => "unexpected end of data"
  | .notAscii => "ordinal not in range(128)"
  | .truncated => "truncated data"
  | .loneSurrogate => "illegal encoding"
  | .brokenPair => "illegal UTF-16 surrogate"

end Encoding

end TapeMachine
