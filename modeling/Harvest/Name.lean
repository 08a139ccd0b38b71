import Harvest.Text.Quoted

/-!
# Qualified names

A name is a list of segments. An empty first segment is the global scope: the scope `N::C` has the
name `["", "N", "C"]`, and a name written in a source begins with an empty segment if it was
written with a leading `::`.
-/

namespace Harvest

structure Name where
  segments : List String
deriving DecidableEq, Repr

namespace Name

def separator : String := "::"

/-- The global scope. -/
def root : Name := ⟨[""]⟩

def empty : Name := ⟨[]⟩

/-- The pieces between two colons in a row. -/
def splitColons : List Char → List (List Char)
  | [] => [[]]
  | [c] => [[c]]
  | c :: d :: rest =>
    if c = ':' && d = ':' then [] :: splitColons rest
    else
      match splitColons (d :: rest) with
      | [] => [[c]]
      | piece :: more => (c :: piece) :: more

/-- The name that a text spells, as written in a source. -/
def ofWritten (text : String) : Name := ⟨(splitColons text.toList).map String.ofList⟩

def length (n : Name) : Nat := n.segments.length

def push (n : Name) (segment : String) : Name := ⟨n.segments ++ [segment]⟩

/-- The first `count` segments. -/
def take (n : Name) (count : Nat) : Name := ⟨n.segments.take count⟩

/-- Segments with the separator between two of them. -/
def join (segments : List String) : String := separator.intercalate segments

/-- The text of the segments from index `start` on. -/
def joinFrom (n : Name) (start : Nat) : String := join (n.segments.drop start)

/-- The text of a name whose first segment is the global scope. -/
def render (n : Name) : String := n.joinFrom 1

/-- The path below the global scope that the first `count` segments lead along; a count past the
end leads nowhere. -/
def below (n : Name) (count : Nat) : List String :=
  if count ≤ n.length then (n.segments.take count).drop 1 else []

/-- The list of the segments, each of them quoted. -/
def quoted (n : Name) : String :=
  "[" ++ ", ".intercalate (n.segments.map Text.Quoted.encode) ++ "]"

end Name

/-- Two contexts put together, without a separator if one of them is empty. -/
def joinContexts (one two : String) : String :=
  if two = "" then one else if one = "" then two else one ++ Name.separator ++ two

end Harvest
