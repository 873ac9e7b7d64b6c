import TapeMachine.Bracket

/-!
# Programs

A program is a text. Seven characters are commands and everything else is a comment, so every text
is a program. The instruction pointer counts characters and may be any integer: positions outside
the text hold no command, which is how a program ends.
-/

namespace TapeMachine

/-- What a character of a program means. -/
inductive Command where
  | increment
  | decrement
  | right
  | left
  | print
  | opening
  | closing
  | comment
deriving DecidableEq, Repr, Inhabited

/-- The command that a character stands for. -/
def Command.ofChar : Char → Command
  | '+' => .increment
  | '-' => .decrement
  | '>' => .right
  | '<' => .left
  | '.' => .print
  | '[' => .opening
  | ']' => .closing
  | _ => .comment

/-- A text in the form that the batch loop reads. -/
structure Compiled where
  /-- The characters, one position each. -/
  text : Array Char
  /-- For each position, the number of the position that a closing bracket there jumps back to. -/
  jumps : Array Int
deriving DecidableEq, Repr, Inhabited

namespace Compiled

/-- The character at a position, if the position lies inside the program. -/
def charAt? (p : Compiled) (position : Int) : Option Char :=
  if 0 ≤ position then p.text[position.toNat]? else none

/-- Whether a position lies inside the program. -/
def inside (p : Compiled) (position : Int) : Bool :=
  decide (0 ≤ position ∧ position < p.text.size)

/-- The command at a position, if the position lies inside the program. -/
def commandAt? (p : Compiled) (position : Int) : Option Command :=
  (p.charAt? position).map Command.ofChar

/-- Where the column of jumps has a closing bracket at a position jump back to. -/
def targetAt? (p : Compiled) (position : Int) : Option Int :=
  if 0 ≤ position then p.jumps[position.toNat]?.filter (· ≠ Bracket.noJump) else none

end Compiled

/-- A text together with the jumps of its closing brackets, which are found by bracket matching:
once as a table, for single steps, and once as a column, for the batch loop. -/
structure Program extends Compiled where
  /-- The matched brackets as pairs `(close, open)`. -/
  table : List (Nat × Nat)
  table_eq : table = Bracket.pairs text.toList
  jumps_eq : jumps = Bracket.spread text.size table
deriving DecidableEq, Repr

namespace Program

/-- A program stands for its compiled form where the batch loop is concerned. -/
instance : Coe Program Compiled :=
  ⟨toCompiled⟩

/-- The program with the given characters. -/
def ofChars (text : List Char) : Program :=
  let table := Bracket.pairs text
  { text := text.toArray
    jumps := Bracket.spread text.length table
    table := table
    table_eq := rfl
    jumps_eq := rfl }

instance : Inhabited Program :=
  ⟨ofChars []⟩

/-- The program with the given text. -/
def ofString (text : String) : Program :=
  ofChars text.toList

/-- Where the table has a closing bracket at a position jump back to. -/
def jumpAt? (p : Program) (position : Int) : Option Nat :=
  if 0 ≤ position then p.table.lookup position.toNat else none

/-- A program is determined by its text. -/
theorem eq_ofChars (p : Program) : p = ofChars p.text.toList := by
  obtain ⟨⟨text, jumps⟩, table, htable, hjumps⟩ := p
  dsimp only at htable hjumps
  subst htable hjumps
  rfl

end Program

end TapeMachine
