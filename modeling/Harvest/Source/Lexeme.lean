import Harvest.Diagnostic
import Harvest.Source.Glyph
import Harvest.Source.Token

/-!
# Lexemes

The first reading of a source text: its logical characters are cut into lexemes, each of them a
token, a delimiter, a comment, a directive, a newline or something to pass over. A lexeme depends on
nothing but the characters it begins with; how deep it is nested and which branch of a conditional
it stands in is decided on the list of lexemes afterwards.
-/

namespace Harvest

/-- What the end of the text, or of a line, left unfinished. -/
inductive Fault
  | comment
  | string
  | character
  | rawString
deriving DecidableEq, Repr

namespace Fault

def kind : Fault → DiagnosticKind
  | comment => .unterminatedComment
  | string => .unterminatedString
  | character => .unterminatedCharacter
  | rawString => .unterminatedRawString

def message : Fault → String
  | comment => "Unterminated C++ comment"
  | string => "Unterminated C++ string"
  | character => "Unterminated C++ character"
  | rawString => "Unterminated/mismatched C++ Raw string"

end Fault

/-- The directives that matter: the parts of a conditional, and the definition of a macro that has
a body. -/
inductive Directive
  | conditional
  | alternative
  | conditionalEnd
  | macroBody
  | other
deriving DecidableEq, Repr

inductive LexemeKind
  | passed
  | newline
  | token (t : Token)
  | opening (d : Delimiter)
  | closing (d : Delimiter)
  | comment (body : String)
  | directive (d : Directive)
deriving DecidableEq, Repr

structure Lexeme where
  kind : LexemeKind
  line : Nat
  fault : Option Fault
deriving DecidableEq, Repr

namespace Lexeme

/-- One lexeme read: what it is, what it left unfinished, and the characters after it. -/
structure Read where
  kind : LexemeKind
  fault : Option Fault
  rest : List Glyph

def isSpace (c : Char) : Bool :=
  c = ' ' || c = '\t' || c = '\n' || c = '\x0b' || c = '\x0c' || c = '\r'

/-- A space within a line. -/
def isGap (c : Char) : Bool := isSpace c && c ≠ '\n'

def isWordStart (c : Char) : Bool := c.isAlpha || c = '_'

def isWordChar (c : Char) : Bool := c.isAlphanum || c = '_'

def isOperatorSymbol (c : Char) : Bool := c ∈ "+-*/%=<>!&|~^[]".toList

def isHexDigit (c : Char) : Bool :=
  c.isDigit || ('a' ≤ c && c ≤ 'f') || ('A' ≤ c && c ≤ 'F')

def skip (p : Char → Bool) (gs : List Glyph) : List Glyph := gs.dropWhile fun g => p g.char

def take (p : Char → Bool) (gs : List Glyph) : List Char :=
  (gs.takeWhile fun g => p g.char).map Glyph.char

/-- The first character, if there is one. -/
def char? (gs : List Glyph) : Option Char := gs.head?.map Glyph.char

theorem length_skip_le (p : Char → Bool) (gs : List Glyph) : (skip p gs).length ≤ gs.length :=
  (List.dropWhile_sublist _).length_le

/-! ### Comments -/

/-- The body of a block comment up to the first `*/`, whether there is one, and what follows. -/
def blockBody : List Glyph → List Char × Bool × List Glyph
  | [] => ([], false, [])
  | g :: gs =>
    if g.char = '*' && char? gs = some '/' then ([], true, gs.tail)
    else
      let (body, closed, rest) := blockBody gs
      (g.char :: body, closed, rest)

theorem length_blockBody_le (gs : List Glyph) : (blockBody gs).2.2.length ≤ gs.length := by
  induction gs with
  | nil => simp [blockBody]
  | cons g gs ih =>
    rw [blockBody]
    split
    · simp
      omega
    · exact Nat.le_succ_of_le ih

/-- Passes over the rest of a directive line and the comments on it. -/
def skipLine (gs : List Glyph) : Option Fault × List Glyph :=
  match gs with
  | [] => (none, [])
  | g :: gs =>
    if g.char = '\n' then (none, gs)
    else if g.char = '/' && char? gs = some '/' then (none, (skip (· ≠ '\n') gs).tail)
    else if g.char = '/' && char? gs = some '*' then
      if (blockBody gs.tail).2.1 then skipLine (blockBody gs.tail).2.2 else (some .comment, [])
    else skipLine gs
termination_by gs.length
decreasing_by
  · have := length_blockBody_le gs.tail
    simp at this ⊢
    omega
  · simp

theorem length_skipLine_le (gs : List Glyph) : (skipLine gs).2.length ≤ gs.length := by
  fun_induction skipLine gs with
  | case1 => simp
  | case2 => simp
  | case3 g gs _ _ =>
    have := length_skip_le (· ≠ '\n') gs
    rw [List.length_tail, List.length_cons]
    omega
  | case4 g gs _ _ _ _ ih =>
    have := length_blockBody_le gs.tail
    simp at this ⊢
    omega
  | case5 => simp
  | case6 g gs _ _ _ ih =>
    simp
    omega

/-! ### Directives -/

/-- After the `d` of a definition: the macro name, its arguments and blanks are passed over. The
first component says whether a body follows; if none does, the end of the line is left unread. -/
def macroHead (gs : List Glyph) : Bool × List Glyph :=
  let name := skip isGap (skip (fun c => !isSpace c) gs)
  let named := skip (fun c => c ≠ '(' && !isSpace c) name
  let ended :=
    if char? named = some '(' then skip (fun c => c ≠ ')' && c ≠ '\n') named.tail else named
  let body := if char? ended = some '\n' then ended else skip isGap ended.tail
  (char? body ≠ none && char? body ≠ some '\n', body)

/-- After the `n` of an inclusion: the written path and what follows its closing quote. -/
def includeToken (gs : List Glyph) : Option Token × List Glyph :=
  let path := skip isSpace (skip (fun c => !isSpace c && c ≠ '"' && c ≠ '<') gs)
  let closed (quote : Char) : List Glyph :=
    let rest := skip (fun c => c ≠ quote && c ≠ '\n') path.tail
    if char? rest = some quote then rest.tail else rest
  let written (quote : Char) : String :=
    String.ofList (take (fun c => c ≠ quote && c ≠ '\n') path.tail)
  match char? path with
  | some '"' => (some (.quotedInclude (written '"')), closed '"')
  | some '<' => (some (.angledInclude (written '>')), closed '>')
  | _ => (none, path)

theorem length_macroHead_le (gs : List Glyph) : (macroHead gs).2.length ≤ gs.length := by
  simp only [macroHead]
  grind [length_skip_le]

theorem length_includeToken_le (gs : List Glyph) : (includeToken gs).2.length ≤ gs.length := by
  simp only [includeToken]
  grind [length_skip_le]

/-- A directive whose line is passed over. -/
def lineOf (d : Directive) (gs : List Glyph) : Read :=
  let (fault, rest) := skipLine gs
  ⟨.directive d, fault, rest⟩

/-- After a `#` that begins a line. -/
def directive (gs : List Glyph) : Read :=
  let word := skip isGap gs
  match char? word with
  | some 'd' =>
    match macroHead word.tail with
    | (true, rest) => ⟨.directive .macroBody, none, rest⟩
    | (false, rest) => ⟨.passed, none, rest⟩
  | some 'i' =>
    match char? word.tail with
    | some 'f' => lineOf .conditional word.tail.tail
    | some 'n' =>
      match includeToken word.tail.tail with
      | (some t, rest) => ⟨.token t, none, rest⟩
      | (none, rest) => lineOf .other rest
    | _ => lineOf .other word.tail
  | some 'e' =>
    match char? word.tail with
    | some 'l' => lineOf .alternative word.tail.tail
    | some 'n' => lineOf .conditionalEnd word.tail.tail
    | _ => lineOf .other word.tail
  | _ => lineOf .other word

theorem length_lineOf_le (d : Directive) (gs : List Glyph) :
    (lineOf d gs).rest.length ≤ gs.length :=
  length_skipLine_le gs

theorem length_directive_le (gs : List Glyph) : (directive gs).rest.length ≤ gs.length := by
  simp only [directive]
  grind [length_skip_le, length_macroHead_le, length_includeToken_le, length_lineOf_le]

/-! ### Literals and words -/

/-- The body of a raw literal up to its terminator, whether there is one, and what follows.
`body` is what was read before, and `held` the text before the last closing parenthesis and the
text after it, as long as that may still turn out to be the terminator. -/
def rawBody (delimiter : List Char) (body : List Char) (held : Option (List Char × List Char)) :
    List Glyph → List Char × Bool × List Glyph
  | [] => (body, false, [])
  | g :: gs =>
    let read := body ++ [g.char]
    let held := held.map fun (before, since) => (before, since ++ [g.char])
    match held.filter fun (_, since) => since = delimiter with
    | some (before, _) =>
      if char? gs = some '"' then (before, true, gs.tail) else rawBody delimiter read none gs
    | none =>
      if g.char = ')' then
        if delimiter = [] then
          if char? gs = some '"' then (body, true, gs.tail) else rawBody delimiter read none gs
        else rawBody delimiter read (some (body, [])) gs
      else rawBody delimiter read held gs

theorem length_rawBody_le (delimiter body : List Char) (held : Option (List Char × List Char))
    (gs : List Glyph) : (rawBody delimiter body held gs).2.2.length ≤ gs.length := by
  fun_induction rawBody delimiter body held gs <;> grind

/-- After the opening quote of a raw literal. -/
def rawString (gs : List Glyph) : Read :=
  let delimiter := take (· ≠ '(') gs
  let (body, closed, rest) := rawBody delimiter [] none (skip (· ≠ '(') gs).tail
  ⟨.token (.rawString (String.ofList body)), if closed then none else some .rawString, rest⟩

theorem length_rawString_le (gs : List Glyph) : (rawString gs).rest.length ≤ gs.length := by
  simp only [rawString]
  grind [length_skip_le, length_rawBody_le]

/-- The body of a literal, and the characters from the one that ends it. -/
def stringBody : List Glyph → List Char × List Glyph
  | [] => ([], [])
  | [g] => if g.char = '\n' || g.char = '"' then ([], [g]) else
      if g.char = '\\' then ([], []) else ([g.char], [])
  | g :: e :: gs =>
    if g.char = '\n' || g.char = '"' then ([], g :: e :: gs)
    else if g.char = '\\' then
      if e.char = '\n' then ([], e :: gs)
      else
        let (body, rest) := stringBody gs
        ('\\' :: e.char :: body, rest)
    else
      let (body, rest) := stringBody (e :: gs)
      (g.char :: body, rest)

theorem length_stringBody_le (gs : List Glyph) : (stringBody gs).2.length ≤ gs.length := by
  fun_induction stringBody gs <;> grind

/-- After the opening quote of a literal. -/
def string (gs : List Glyph) : Read :=
  let (body, rest) := stringBody gs
  let token := LexemeKind.token (.string (String.ofList body))
  if char? rest = some '"' then ⟨token, none, rest.tail⟩ else ⟨token, some .string, rest⟩

theorem length_string_le (gs : List Glyph) : (string gs).rest.length ≤ gs.length := by
  simp only [string]
  grind [length_stringBody_le]

/-- Passes over a character literal of which one character is read already. -/
def skipCharacter : List Glyph → Option Fault × List Glyph
  | [] => (some .character, [])
  | g :: gs =>
    if g.char = '\n' then (some .character, g :: gs)
    else if char? gs = some '\'' then (none, gs.tail)
    else skipCharacter gs

theorem length_skipCharacter_le (gs : List Glyph) : (skipCharacter gs).2.length ≤ gs.length := by
  fun_induction skipCharacter gs <;> grind

/-- After the opening quote of a character literal. -/
def character (gs : List Glyph) : Read :=
  let (fault, rest) := skipCharacter (if char? gs = some '\\' then gs.tail else gs)
  ⟨.passed, fault, rest⟩

theorem length_character_le (gs : List Glyph) : (character gs).rest.length ≤ gs.length := by
  simp only [character]
  grind [length_skipCharacter_le]

/-- A word, at its first character. A mark of an ordinary literal is passed over, a mark of a raw
one begins it, and `operator` takes the symbol that follows. -/
def word (gs : List Glyph) : Read :=
  let text := String.ofList (take isWordChar gs)
  let rest := skip isWordChar gs
  if char? rest = some '"' && text ∈ Token.literalMarks then ⟨.passed, none, rest⟩
  else
    match Token.keyword? text with
    | some t => ⟨.token t, none, rest⟩
    | none =>
      if text = "operator" then
        ⟨.token (.ident text), none, skip isOperatorSymbol (skip isSpace rest)⟩
      else if char? rest = some '"' && text ∈ Token.rawMarks then rawString rest.tail
      else ⟨.token (.ident text), none, rest⟩

theorem length_word_le (g : Glyph) (gs : List Glyph) (start : isWordStart g.char = true) :
    (word (g :: gs)).rest.length ≤ gs.length := by
  have first : isWordChar g.char = true := by
    simp [isWordStart] at start
    simp [isWordChar, Char.isAlphanum]
    grind
  have rest : skip isWordChar (g :: gs) = skip isWordChar gs := by simp [skip, first]
  simp only [word, rest]
  grind [length_skip_le, length_rawString_le]

/-! ### Punctuation -/

/-- Which of `;` and `{` comes first. -/
def firstOf : List Char → Ahead
  | [] => .nothing
  | c :: rest => if c = ';' then .semicolon else if c = '\x7b' then .leftBrace else firstOf rest

/-- What comes first after a colon. The character after the colon and the physical one that follows
it are not looked at. -/
def ahead : List Glyph → Ahead
  | [] => .nothing
  | g :: _ => firstOf (g.rest.drop 1)

def comment (gs : List Glyph) : Read :=
  match char? gs with
  | some '/' =>
    let rest := skip (· ≠ '\n') gs.tail
    let body := take (· ≠ '\n') gs.tail ++ (char? rest).toList
    ⟨.comment (String.ofList body), none, rest⟩
  | some '*' =>
    let (body, closed, rest) := blockBody gs.tail
    ⟨.comment (String.ofList body), if closed then none else some .comment, rest⟩
  | _ => ⟨.passed, none, gs⟩

theorem length_comment_le (gs : List Glyph) : (comment gs).rest.length ≤ gs.length := by
  simp only [comment]
  grind [length_skip_le, length_blockBody_le]

/-- After a zero. -/
def afterZero (gs : List Glyph) : Read :=
  match char? gs with
  | none => ⟨.token .null, none, gs⟩
  | some c =>
    if c = 'x' || c = 'X' then
      ⟨.token .integer, none, skip (fun c => isHexDigit c || c = '\'') gs.tail⟩
    else if c.isDigit then ⟨.token .integer, none, skip (fun c => c.isDigit || c = '\'') gs⟩
    else ⟨.token .null, none, gs⟩

theorem length_afterZero_le (gs : List Glyph) : (afterZero gs).rest.length ≤ gs.length := by
  simp only [afterZero]
  grind [length_skip_le]

/-- The lexeme that begins with `c` and goes on in `gs`, where `c` starts neither a directive nor a
word. -/
def punctuation (c : Char) (gs : List Glyph) : Read :=
  let one (t : Token) : Read := ⟨.token t, none, gs⟩
  match c with
  | '\n' => ⟨.newline, none, gs⟩
  | '/' => comment gs
  | '"' => string gs
  | '-' => if char? gs = some '>' then ⟨.token .arrow, none, gs.tail⟩ else ⟨.passed, none, gs⟩
  | ':' =>
    if char? gs = some ':' then ⟨.token .colonColon, none, gs.tail⟩ else one (.colon (ahead gs))
  | '=' => one .equals
  | '<' | '>' => one .angle
  | '\'' => character gs
  | '\x7b' => ⟨.opening .brace, none, gs⟩
  | '\x7d' => ⟨.closing .brace, none, gs⟩
  | '(' => ⟨.opening .paren, none, gs⟩
  | ')' => ⟨.closing .paren, none, gs⟩
  | '[' => ⟨.opening .bracket, none, gs⟩
  | ']' => ⟨.closing .bracket, none, gs⟩
  | ',' => one .comma
  | ';' => one .semicolon
  | '?' => one .question
  | '0' => afterZero gs
  | c =>
    if c.isDigit then ⟨.token .integer, none, skip (fun c => c.isDigit || c = '\'') gs⟩
    else ⟨.passed, none, gs⟩

theorem length_punctuation_le (c : Char) (gs : List Glyph) :
    (punctuation c gs).rest.length ≤ gs.length := by
  simp only [punctuation]
  grind [length_skip_le, length_comment_le, length_string_le, length_character_le,
    length_afterZero_le]

/-- The lexeme that begins with `g` and goes on in `gs`. -/
def next (g : Glyph) (gs : List Glyph) : Read :=
  if g.char = '#' && g.leads then directive gs
  else if isWordStart g.char then word (g :: gs)
  else punctuation g.char gs

theorem length_next_le (g : Glyph) (gs : List Glyph) : (next g gs).rest.length ≤ gs.length := by
  simp only [next]
  grind [length_directive_le, length_word_le, length_punctuation_le]

/-- The lexemes of a text, given as its logical characters. -/
def scan : List Glyph → List Lexeme
  | [] => []
  | g :: gs =>
    let read := next g gs
    ⟨read.kind, g.line, read.fault⟩ :: scan read.rest
termination_by gs => gs.length
decreasing_by
  have := length_next_le g gs
  simp
  omega

end Lexeme

end Harvest
