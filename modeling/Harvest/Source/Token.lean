/-!
# Tokens

The coarse tokens of C++ that tracking scopes and finding calls needs. Every character that is no
part of such a token is passed over when a text is read.
-/

namespace Harvest

/-- The delimiters that come in pairs. -/
inductive Delimiter
  | brace
  | paren
  | bracket
deriving DecidableEq, Repr

/-- Which of a semicolon and an opening brace comes first in a text. -/
inductive Ahead
  | semicolon
  | leftBrace
  | nothing
deriving DecidableEq, Repr

inductive Token
  | eof
  /-- `class` or `struct`. -/
  | classWord
  | enumWord
  | friendWord
  | namespaceWord
  | usingWord
  | returnWord
  | decltypeWord
  /-- The class-level marker `Q_OBJECT`. -/
  | marker
  /-- An access specifier such as `public`, `slots` or `Q_SIGNALS`. -/
  | access
  /-- The end of a macro body, which gives up any construct in progress. -/
  | cancel
  | ident (word : String)
  /-- The body of a literal, its escape sequences still encoded. -/
  | string (body : String)
  /-- The body of a raw literal, its delimiter removed. -/
  | rawString (body : String)
  | arrow
  /-- A lone colon, with what comes first after it. -/
  | colon (ahead : Ahead)
  | colonColon
  | equals
  | opening (d : Delimiter)
  | closing (d : Delimiter)
  | angle
  | question
  | comma
  | semicolon
  /-- `NULL`, `nullptr`, `Q_NULLPTR` or a lone `0`. -/
  | null
  | integer
  | quotedInclude (path : String)
  | angledInclude (path : String)
deriving DecidableEq, Repr

namespace Token

def ident? : Token → Option String
  | ident word => some word
  | _ => none

def isColon : Token → Bool
  | colon _ => true
  | _ => false

/-- The fixed set of words that are not identifiers. -/
def keyword? (word : String) : Option Token :=
  if word ∈ ["NULL", "Q_NULLPTR", "nullptr"] then some null
  else if word = "Q_OBJECT" then some marker
  else if word ∈ ["class", "struct"] then some classWord
  else if word = "decltype" then some decltypeWord
  else if word = "enum" then some enumWord
  else if word = "friend" then some friendWord
  else if word = "namespace" then some namespaceWord
  else if word = "return" then some returnWord
  else if word = "using" then some usingWord
  else if word ∈ ["public", "protected", "private", "slots", "signals", "Q_SLOTS", "Q_SIGNALS"] then
    some access
  else none

/-- The words that may stand directly before an ordinary literal. -/
def literalMarks : List String := ["L", "U", "u", "u8"]

/-- The words that may stand directly before a raw literal. -/
def rawMarks : List String := ["R", "LR", "UR", "uR", "u8R"]

end Token

end Harvest
