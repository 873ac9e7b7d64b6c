/-!
# Line ends

Programs are read with one kind of line end, whatever system they were written on.
-/

namespace TapeMachine

namespace Text

/-- Turns every carriage return, and a line feed right after it along with it, into one line
feed. -/
def unifyNewlines : List Char → List Char
  | [] => []
  | '\r' :: '\n' :: rest => '\n' :: unifyNewlines rest
  | c :: rest => (if c = '\r' then '\n' else c) :: unifyNewlines rest

end Text

end TapeMachine
