import Bx.Ash.Variables

/-!
# Words of the shell

What `src/applets/shell/ash/lexer.c` makes of a word: its parts, each with the
quotes it stands under. A `char` is a `Char`.
-/

namespace Bx.Ash.Lexer

open Bx.Kit

@[match_pattern] abbrev singleQuote : Char := Char.ofNat 39
@[match_pattern] abbrev doubleQuote : Char := Char.ofNat 34
@[match_pattern] abbrev backquote : Char := Char.ofNat 96

inductive QuoteKind
  | none
  | backslash
  | single
  | double
  | dollarSingle
  | locale
  deriving DecidableEq

inductive WordPartKind
  | text
  | parameter
  | commandSubstitution
  | arithmetic
  | backquote
  | processSubstitution
  deriving DecidableEq

/-- `rawSource` is the spelling where the text is not it. -/
structure WordPart where
  kind : WordPartKind
  quote : QuoteKind
  text : CStr
  rawSource : Option CStr := none
  backquoteEscapeDoubleQuote : Bool := false

abbrev Word := List WordPart

end Bx.Ash.Lexer
