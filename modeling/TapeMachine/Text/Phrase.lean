/-!
# Phrases

Looking for a phrase in a text, letter case aside.
-/

namespace TapeMachine

namespace Text

/-- Whether a phrase stands somewhere in a text. -/
def occursIn (phrase : List Char) : List Char → Bool
  | [] => phrase.isEmpty
  | c :: rest => phrase.isPrefixOf (c :: rest) || occursIn phrase rest

/-- Whether a phrase of small letters stands somewhere in a text whose capital ASCII letters are
taken as small ones. For a phrase of ASCII characters without `k` this is what lower-casing in all
scripts would find as well: the other letters whose lower case is or contains an ASCII letter are
the Kelvin sign, which gives `k`, and the dotted capital I, which gives an `i` with a mark after it
that no phrase has. -/
def mentions (text phrase : String) : Bool :=
  occursIn phrase.toList (text.toList.map Char.toLower)

end Text

end TapeMachine
