import Harvest.Parser.State
import Harvest.Proofs.Source.Macros
import Mathlib.Logic.Function.Iterate

/-!
# Reading token by token

The tokens of a text are a list, but they can also be asked for one at a time. A `Reader` holds what
is open, the line reached and the characters that are left; a call of `next` reads lexemes until one
of them is a token. Each call that finds a token reads at least one character, and a reader whose
text has ended finds nothing more. Where it is an error to count below zero, the call that meets a
closing brace at depth zero, in a macro body that began at a greater depth, does not return; no
other call fails, and none does if no `operator` stands in a macro body.

Main statement: the stream of a text is what the calls give, up to the first one that finds the end
(`Reader.exists_end`).
-/

namespace Harvest

/-- A step yields the end of the text only if its lexeme says so. -/
theorem Nesting.token_step_ne_eof {n : Nesting} {x : Lexeme} {t : Token}
    (hx : x.kind ≠ .token .eof) (ht : (n.step x).token = some t) : t ≠ .eof := by
  rintro rfl
  obtain ⟨kind, line, fault⟩ := x
  cases kind with
  | passed => cases ht
  | newline => simp only [step, endLine] at ht; split at ht <;> simp at ht
  | token t => exact hx (congrArg _ (Option.some.inj ht))
  | opening d => cases ht
  | closing d =>
    cases d
    all_goals
      simp only [step, closeDelimiter] at ht
      split_ifs at ht <;> simp at ht
  | comment body => cases ht
  | directive d => cases ht

namespace Nesting

/-- The tokens of the lexemes. -/
def tokensOf (n : Nesting) : List Lexeme → List Token
  | [] => []
  | x :: xs => (n.step x).token.toList ++ (n.step x).nesting.tokensOf xs

theorem tokensOf_append (n : Nesting) (xs ys : List Lexeme) :
    n.tokensOf (xs ++ ys) = n.tokensOf xs ++ (n.after xs).tokensOf ys := by
  induction xs generalizing n with
  | nil => rfl
  | cons x xs ih =>
    rw [List.cons_append, tokensOf, tokensOf, ih, List.append_assoc]
    rfl

end Nesting

/-- A text that is being read. -/
structure Reader where
  nesting : Nesting := {}
  /-- The line of the last lexeme. -/
  line : Nat := 1
  /-- The characters that are left. -/
  left : List Glyph

namespace Reader

def ofText (text : String) : Reader := { left := Glyph.ofText text }

/-- Reads up to the next token. `notes` are those taken since the last one. -/
def pull (n : Nesting) (notes : List Note) (line : Nat) : List Glyph → Item × Reader
  | [] => (⟨notes, .eof, line, n.depths⟩, ⟨n, line, []⟩)
  | g :: gs =>
    let read := Lexeme.next g gs
    let effect := n.step ⟨read.kind, g.line, read.fault⟩
    match effect.token with
    | none => pull effect.nesting (notes ++ effect.notes) g.line read.rest
    | some t =>
      (⟨notes ++ effect.notes, t, g.line, effect.nesting.depths⟩,
        ⟨effect.nesting, g.line, read.rest⟩)
termination_by gs => gs.length
decreasing_by
  have := Lexeme.length_next_le g gs
  simp
  omega

/-- One call: the next item, and the reader after it. -/
def next (r : Reader) : Item × Reader := pull r.nesting [] r.line r.left

/-- The items that are left. -/
def items (r : Reader) : List Item := r.nesting.items [] r.line (Lexeme.scan r.left)

/-- The reader after `k` calls. -/
def after (r : Reader) (k : Nat) : Reader := (fun r ↦ r.next.2)^[k] r

/-- What call number `k` gives. -/
def item (r : Reader) (k : Nat) : Item := (r.after k).next.1

variable {n : Nesting} {notes : List Note} {line : Nat} {gs : List Glyph} {r : Reader}

/-- The first item is what a call gives; the others are left for the reader after it. -/
theorem items_scan (n : Nesting) (notes : List Note) (line : Nat) (gs : List Glyph) :
    n.items notes line (Lexeme.scan gs) =
      (pull n notes line gs).1 ::
        if (pull n notes line gs).1.token = .eof then [] else (pull n notes line gs).2.items := by
  fun_induction pull n notes line gs with
  | case1 n notes line => simp [Lexeme.scan, Nesting.items]
  | case2 n notes line g gs read effect hnone ih =>
    rw [Lexeme.scan, Nesting.items, hnone]
    exact ih
  | case3 n notes line g gs read effect t ht =>
    have hne : t ≠ .eof :=
      Nesting.token_step_ne_eof (Lexeme.kind_next_ne_of_silent rfl g gs) ht
    rw [Lexeme.scan, Nesting.items, ht, if_neg hne]
    rfl

theorem pull_suffix (n : Nesting) (notes : List Note) (line : Nat) (gs : List Glyph) :
    (pull n notes line gs).2.left <:+ gs := by
  fun_induction pull n notes line gs with
  | case1 => exact List.suffix_rfl
  | case2 n notes line g gs read effect hnone ih => exact ih.trans (Lexeme.next_suffix g gs)
  | case3 n notes line g gs read effect t ht => exact Lexeme.next_suffix g gs

/-- A call that gives a token has read at least one character. -/
theorem length_pull_lt (h : (pull n notes line gs).1.token ≠ .eof) :
    (pull n notes line gs).2.left.length < gs.length := by
  fun_induction pull n notes line gs with
  | case1 => exact absurd rfl h
  | case2 n notes line g gs read effect hnone ih =>
    exact Nat.lt_trans (ih h) (Nat.lt_succ_of_le (Lexeme.length_next_le g gs))
  | case3 n notes line g gs read effect t ht => exact Nat.lt_succ_of_le (Lexeme.length_next_le g gs)

/-- The end of the text is found when no character is left. -/
theorem left_pull_of_eof (h : (pull n notes line gs).1.token = .eof) :
    (pull n notes line gs).2.left = [] := by
  fun_induction pull n notes line gs with
  | case1 => rfl
  | case2 n notes line g gs read effect hnone ih => exact ih h
  | case3 n notes line g gs read effect t ht =>
    exact absurd h (Nesting.token_step_ne_eof (Lexeme.kind_next_ne_of_silent rfl g gs) ht)

theorem items_eq (r : Reader) :
    r.items = r.next.1 :: if r.next.1.token = .eof then [] else r.next.2.items :=
  items_scan _ _ _ _

/-- At the end of the text a call gives the end, takes no note and changes nothing. -/
theorem next_of_left_eq_nil (h : r.left = []) :
    r.next = (⟨[], .eof, r.line, r.nesting.depths⟩, r) := by
  obtain ⟨nesting, line, left⟩ := r
  subst h
  rw [next, pull]

theorem after_succ' (r : Reader) (k : Nat) : r.after (k + 1) = (r.after k).next.2 :=
  Function.iterate_succ_apply' _ _ _

theorem item_succ (r : Reader) (k : Nat) : r.item (k + 1) = r.next.2.item k := rfl

theorem after_of_left_eq_nil (h : r.left = []) (k : Nat) : r.after k = r := by
  apply Function.iterate_fixed
  rw [next_of_left_eq_nil h]

/-- The calls give the items that are left, each of them another token, until one finds the end. All
later calls find it again and take no notes. -/
theorem exists_end (r : Reader) :
    ∃ n ≤ r.left.length, r.items = (List.range (n + 1)).map r.item ∧
      (∀ k < n, (r.item k).token ≠ .eof) ∧ (r.item n).token = .eof ∧
      ∀ k > n, (r.item k).token = .eof ∧ (r.item k).notes = [] := by
  induction hlength : r.left.length using Nat.strongRecOn generalizing r with
  | _ length ih =>
    subst hlength
    by_cases heof : r.next.1.token = .eof
    · refine ⟨0, Nat.zero_le _, ?_, nofun, heof, ?_⟩
      · rw [items_eq, if_pos heof]
        rfl
      · intro k hk
        obtain ⟨k, rfl⟩ := Nat.exists_eq_add_of_le' hk
        have hleft : r.next.2.left = [] := left_pull_of_eof heof
        rw [item_succ, item, after_of_left_eq_nil hleft, next_of_left_eq_nil hleft]
        exact ⟨rfl, rfl⟩
    · have hlt : r.next.2.left.length < r.left.length := length_pull_lt heof
      obtain ⟨n, hn, hitems, htokens, hend, hlater⟩ := ih _ hlt r.next.2 rfl
      refine ⟨n + 1, by omega, ?_, ?_, hend, ?_⟩
      · calc r.items = r.next.1 :: r.next.2.items := by rw [items_eq, if_neg heof]
          _ = r.item 0 :: (List.range (n + 1)).map (r.item ∘ Nat.succ) := by rw [hitems]; rfl
          _ = (List.range (n + 1 + 1)).map r.item := by
            conv => rhs; rw [List.range_succ_eq_map, List.map_cons, List.map_map]
      · intro k hk
        cases k with
        | zero => exact heof
        | succ k => exact htokens k (by omega)
      · intro k hk
        cases k with
        | zero => omega
        | succ k => exact hlater k (by omega)

end Reader

namespace Stream

/-- How many tokens a text has before its end. -/
def count (s : Stream) : Nat := s.items.length - 1

end Stream

namespace Parser

theorem rest_advance (p : Parser) : p.advance.rest = p.rest.tail := by
  unfold advance
  split <;> simp_all

theorem rest_iterate_advance (p : Parser) (k : Nat) : (advance^[k] p).rest = p.rest.drop k := by
  induction k with
  | zero => rfl
  | succ k ih => rw [Function.iterate_succ_apply', rest_advance, ih, List.tail_drop]

theorem token_advance (p : Parser) :
    p.advance.token = (p.rest.head?.map Item.token).getD .eof := by
  unfold advance
  split <;> simp_all

end Parser

namespace Stream

open Reader

end Stream

end Harvest
