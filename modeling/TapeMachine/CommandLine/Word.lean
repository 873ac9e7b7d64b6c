import TapeMachine.CommandLine.Switch
import TapeMachine.Numeral.Digit

/-!
# Words of a command line

Each argument is first told to be a switch or a plain word by its form alone. Long switches may be
shortened as long as they stay unique, and may carry an argument after an equals sign. Short ones
may be written together. Two dashes end the switches: every later argument is a plain word.

A word that starts with a dash and is no switch is still plain if it is a single dash, a negative
number, or has a blank in it.
-/

namespace TapeMachine

namespace CommandLine

/-- An argument, told by its form. -/
inductive Word where
  | plain (text : String)
  /-- The two dashes that end the switches. -/
  | separator
  /-- A switch, whether it was spelled with one dash, and the text attached to it. -/
  | switch (s : Switch) (short : Bool) (attached : Option String)
  /-- Something that looks like a switch and is none. -/
  | unknown (text : String)
deriving DecidableEq, Repr, Inhabited

/-- Splits a word at its first equals sign. -/
def splitEquals (word : List Char) : List Char × Option (List Char) :=
  match word.dropWhile (· != '=') with
  | [] => (word, none)
  | _ :: value => (word.takeWhile (· != '='), some value)

/-- Whether a text is made of decimal digits, and there is one at least. -/
def isDigits (text : List Char) : Bool :=
  !text.isEmpty && text.all fun c => (Numeral.digit? c).isSome

/-- A text without the line feed at its end. -/
def dropFinalNewline (text : List Char) : List Char :=
  if text.getLast? = some '\n' then text.dropLast else text

/-- Whether a word is a negative number: a dash and digits, with a point among them or before them
and perhaps a line feed after them. -/
def isNegativeNumber : List Char → Bool
  | '-' :: rest =>
    let number := dropFinalNewline rest
    let fraction := number.dropWhile (· != '.')
    isDigits number ||
      (let whole := number.takeWhile (· != '.')
       (whole.isEmpty || isDigits whole) && isDigits (fraction.drop 1))
  | _ => false

/-- Whether a spelling has one dash only. -/
def isShort (spelling : String) : Bool :=
  !"--".toList.isPrefixOf spelling.toList

/-- The switches that a word with two dashes may shorten, by their spelling. -/
def longCandidates (word : List Char) : List (String × Word) :=
  let (name, attached) := splitEquals word
  (spellings.filter fun spelling => name.isPrefixOf spelling.1.toList).map fun spelling =>
    (spelling.1, .switch spelling.2 (isShort spelling.1) (attached.map String.ofList))

/-- The switch that starts a word with one dash, by its spelling. -/
def shortCandidates (word : List Char) : List (String × Word) :=
  (spellings.filter fun spelling => spelling.1.toList == word.take 2).map fun spelling =>
    (spelling.1, .switch spelling.2 true (some (String.ofList (word.drop 2))))

/-- What a word is that is not the exact spelling of a switch. -/
def classifyInexact (word : String) (candidates : List (String × Word)) : Except Misuse Word :=
  match candidates with
  | [] =>
    if isNegativeNumber word.toList || word.toList.contains ' ' then .ok (.plain word)
    else .ok (.unknown word)
  | [(_, found)] => .ok found
  | several => .error (.ambiguous word (several.map (·.1)))

/-- What a word is that starts with a dash and has more characters. -/
def classifyDashed (word : String) (second : Char) : Except Misuse Word :=
  match Switch.ofSpelling? word with
  | some s => .ok (.switch s (isShort word) none)
  | none =>
    let (name, attached) := splitEquals word.toList
    match attached, Switch.ofSpelling? (String.ofList name) with
    | some value, some s =>
      .ok (.switch s (isShort (String.ofList name)) (some (String.ofList value)))
    | _, _ =>
      classifyInexact word
        (if second = '-' then longCandidates word.toList else shortCandidates word.toList)

/-- What a word is, if it is not the separator. -/
def classify (word : String) : Except Misuse Word :=
  match word.toList with
  | '-' :: second :: _ => classifyDashed word second
  | _ => .ok (.plain word)

/-- What the words of a command line are. -/
def classifyAll : List String → Except Misuse (List Word)
  | [] => .ok []
  | word :: rest =>
    if word = "--" then
      .ok (.separator :: rest.map .plain)
    else
      match classify word with
      | .error misuse => .error misuse
      | .ok first => (classifyAll rest).map (first :: ·)

end CommandLine

end TapeMachine
