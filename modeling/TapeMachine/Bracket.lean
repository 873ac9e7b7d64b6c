/-!
# Bracket matching

Each `]` is matched with the nearest pending `[`. One pass over the text with a stack of pending
openings finds the pairs. A `]` that is met while nothing is pending has no partner, and neither
has a `[` that is still pending at the end; such brackets are not errors.

`Bracket.pairs` lists the matches and is the table in which single steps look jumps up.
`Bracket.spread` lays them out as a column with one number per character, for the batch loop; there
`-1` stands for a jump that there is not. The numbers are below the length of the text, so that they
fit into 32 bits for texts of up to `2 ^ 31` characters.
-/

namespace TapeMachine

namespace Bracket

/-- The pairs `(close, open)` found in the text that starts at position `i`, given the positions
of the openings still pending, the innermost first. -/
def pairsFrom (i : Nat) (pending : List Nat) : List Char → List (Nat × Nat)
  | [] => []
  | c :: rest =>
    if c = '[' then
      pairsFrom (i + 1) (i :: pending) rest
    else if c = ']' then
      match pending with
      | [] => pairsFrom (i + 1) [] rest
      | opening :: outer => (i, opening) :: pairsFrom (i + 1) outer rest
    else
      pairsFrom (i + 1) pending rest

/-- The matched brackets of a text as pairs `(close, open)` of positions, in the order of the
closing ones. -/
def pairs (text : List Char) : List (Nat × Nat) :=
  pairsFrom 0 [] text

/-- The number that stands for a jump that there is not. -/
def noJump : Int :=
  -1

/-- For each position of a text of the given length, the number of the opening bracket that a
closing bracket there returns to. -/
def spread (length : Nat) (matched : List (Nat × Nat)) : Array Int :=
  matched.foldl (fun jumps p => jumps.setIfInBounds p.1 (p.2 : Int))
    (Array.replicate length noJump)

end Bracket

end TapeMachine
