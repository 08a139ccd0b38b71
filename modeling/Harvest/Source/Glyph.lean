/-!
# Logical characters of a source text

A source text is read with its line continuations removed and every line end turned into a single
newline. What is left of the physical text is kept beside each character: the line on which it
stands, whether a directive may begin there, and the text that follows it.
-/

namespace Harvest

structure Glyph where
  char : Char
  /-- The line reached once the character is read; for a newline, the line after it. -/
  line : Nat
  /-- Nothing but blanks and `#` stands before the character on its line. -/
  leads : Bool
  /-- The physical text after the character. -/
  rest : List Char

namespace Glyph

/-- Whether a directive may still begin after `c`, given whether it could before. -/
def leadsAfter (leads : Bool) (c : Char) : Bool :=
  c = '\n' || (leads && (c = ' ' || c = '\t' || c = '#'))

/-- The logical characters of a text that begins on `line`. -/
def read (line : Nat) (leads : Bool) : List Char → List Glyph
  | [] => []
  | '\\' :: '\n' :: rest => read (line + 1) leads rest
  | '\\' :: '\r' :: '\n' :: rest => read (line + 1) leads rest
  | '\\' :: '\r' :: rest => read (line + 1) leads rest
  | '\r' :: '\n' :: rest => ⟨'\n', line + 1, true, rest⟩ :: read (line + 1) true rest
  | '\r' :: rest => ⟨'\n', line + 1, true, rest⟩ :: read (line + 1) true rest
  | '\n' :: rest => ⟨'\n', line + 1, true, rest⟩ :: read (line + 1) true rest
  | c :: rest => ⟨c, line, leadsAfter leads c, rest⟩ :: read line (leadsAfter leads c) rest

/-- The logical characters of a whole text. -/
def ofText (text : String) : List Glyph := read 1 true text.toList

end Glyph

end Harvest
