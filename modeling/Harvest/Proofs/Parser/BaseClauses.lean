import Harvest.Proofs.Parser.Pending
import Harvest.Proofs.Parser.Standing

/-!
# Base classes in the head of a class

The names of base classes are put together from loose tokens. A word begins a new name, unless the
text before it ends in `::`, so that an access specifier or `virtual` before a name leaves no trace.
Only before a leading `::` the word `virtual` stays and becomes a part of the name. After template
arguments nothing is collected any more.

Main statement: the head of a class with a list of bases enters the class with exactly the names up
to the first base with template arguments (`Parser.turn_classHead`).
-/

namespace Harvest

inductive Specifier
  | access
  | virtual
deriving DecidableEq

def Specifier.token : Specifier → Token
  | access => .access
  | virtual => .ident "virtual"

/-- A base class as it is written: specifiers, a name and template arguments. A comma between the
arguments is `none`. -/
structure Base where
  specifiers : List Specifier
  target : Target
  arguments : Option (List (Option Identifier))

namespace Base

def argumentTokens (b : Base) : List Token :=
  match b.arguments with
  | none => []
  | some arguments =>
    .angle :: (arguments.map (fun a ↦ a.elim .comma fun name ↦ .ident name.word) ++ [.angle])

def tokens (b : Base) : List Token :=
  b.specifiers.map Specifier.token ++ (b.target.tokens ++ b.argumentTokens)

/-- The segments that are put together for the base. -/
def gathered (b : Base) : List String :=
  (if b.target.global then [if .virtual ∈ b.specifiers then "virtual" else ""] else []) ++
    (b.target.first :: b.target.more).map Identifier.word

/-- Bases in a row, with commas between them. -/
def listTokens : List Base → List Token
  | [] => []
  | [b] => b.tokens
  | b :: b' :: bs => b.tokens ++ .comma :: listTokens (b' :: bs)

/-- The names that are collected: up to the first base with template arguments. -/
def collected : List Base → List (List String)
  | [] => []
  | b :: bs => b.gathered :: if b.arguments.isSome then [] else collected bs

/-- If only the last base has template arguments, and `virtual` does not meet a leading `::`, the
names are collected as they are written. -/
theorem collected_eq {bs : List Base} (harguments : ∀ b ∈ bs.dropLast, b.arguments = none)
    (hvirtual : ∀ b ∈ bs, b.target.global = true → .virtual ∉ b.specifiers) :
    collected bs = bs.map fun b ↦ b.target.name.segments := by
  induction bs with
  | nil => rfl
  | cons b bs ih =>
    have hb : b.gathered = b.target.name.segments := by
      rw [gathered, Target.name]
      by_cases hglobal : b.target.global = true
      · simp [hglobal, hvirtual b List.mem_cons_self hglobal]
      · simp [hglobal]
    cases bs with
    | nil => simp [collected, hb]
    | cons b' bs =>
      have hnone : b.arguments = none := harguments b (by simp)
      have hrest := ih (fun c hc ↦ harguments c (List.mem_cons_of_mem b hc))
        fun c hc ↦ hvirtual c (List.mem_cons_of_mem b hc)
      rw [collected, hb, hnone, hrest]
      rfl

/-- Names are made of words without colons. -/
theorem words_of_mem_collected (bs : List Base) :
    ∀ segments ∈ collected bs, segments ≠ [] ∧ ∀ word ∈ segments, ':' ∉ word.toList := by
  have hgathered (b : Base) : b.gathered ≠ [] ∧ ∀ word ∈ b.gathered, ':' ∉ word.toList := by
    refine ⟨by simp [gathered], ?_⟩
    simp only [gathered, List.forall_mem_append, List.forall_mem_map]
    refine ⟨?_, fun name _ ↦ name.colon_not_mem⟩
    split_ifs <;> simp
  induction bs with
  | nil => exact List.forall_mem_nil _
  | cons b bs ih =>
    refine List.forall_mem_cons.2 ⟨hgathered b, ?_⟩
    cases b.arguments with
    | none => exact ih
    | some arguments => exact List.forall_mem_nil _

theorem isBase_of_mem_tokens (b : Base) : ∀ t ∈ b.tokens, t.isBase = true := by
  have hfurther (more : List Identifier) : ∀ t ∈ Outline.furtherNames more, t.isBase = true := by
    simp only [Outline.furtherNames, List.mem_flatMap, List.mem_cons, List.not_mem_nil, or_false]
    rintro t ⟨name, -, rfl | rfl⟩ <;> rfl
  simp only [tokens, List.forall_mem_append, List.forall_mem_map, Target.tokens,
    List.forall_mem_cons]
  refine ⟨fun s _ ↦ by cases s <;> rfl, ⟨?_, rfl, hfurther _⟩, ?_⟩
  · split <;> simp [Token.isBase]
  · rw [argumentTokens]
    cases b.arguments with
    | none => exact List.forall_mem_nil _
    | some arguments =>
      simp only [List.forall_mem_cons, List.forall_mem_append, List.forall_mem_map]
      exact ⟨rfl, fun a _ ↦ by cases a <;> rfl, rfl, by simp⟩

theorem isBase_of_mem_listTokens (bs : List Base) : ∀ t ∈ listTokens bs, t.isBase = true := by
  fun_induction listTokens bs with
  | case1 => exact List.forall_mem_nil _
  | case2 b => exact b.isBase_of_mem_tokens
  | case3 b b' bs ih =>
    simp only [List.forall_mem_append, List.forall_mem_cons]
    exact ⟨b.isBase_of_mem_tokens, rfl, ih⟩

end Base

/-- The text that ends in `::` waits for another word. -/
theorem endsWith_separator_iff (s : String) : s.endsWith "::" = true ↔ ∃ t, s = t ++ "::" := by
  rw [String.endsWith_eq_endsWith_toSlice, String.Slice.Pattern.Model.endsWith_iff,
    String.Slice.Pattern.Model.ForwardStringSearcher.revMatchesAt_iff_splits]
  have hend := s.toSlice.splits_endPos
  rw [String.copy_toSlice] at hend
  constructor
  · rintro ⟨t, u, hsplits⟩
    exact ⟨t, hend.eq_left hsplits⟩
  · rintro ⟨t, ht⟩
    exact ⟨t, "", ht ▸ hend⟩

/-- What has been read of a list of bases: whether names are still collected, the name that is being
put together, and those before it. -/
structure Gathering where
  collecting : Bool
  current : String
  bases : List String

namespace Gathering

/-- The names with the current one. -/
def all (s : Gathering) : List String :=
  if s.collecting && s.current ≠ "" then s.bases ++ [s.current] else s.bases

def step (s : Gathering) : Token → Gathering
  | .ident word =>
    let current :=
      if s.current ≠ "" && !s.current.endsWith "::" then word else s.current ++ word
    { s with current := if s.collecting then current else "" }
  | .colonColon => { s with current := if s.collecting then s.current ++ "::" else "" }
  | .comma => { s with current := "", bases := s.all }
  | .angle => ⟨false, "", s.all⟩
  | _ => s

/-- Once nothing is collected, nothing changes. -/
theorem foldl_step_of_not_collecting (bases : List String) {ts : List Token} :
    ts.foldl step ⟨false, "", bases⟩ = ⟨false, "", bases⟩ := by
  induction ts with
  | nil => rfl
  | cons t ts ih =>
    have hstep : step ⟨false, "", bases⟩ t = ⟨false, "", bases⟩ := by cases t <;> rfl
    rw [List.foldl_cons, hstep, ih]

theorem step_word_of_waiting {current : String} (bases : List String) (word : String) :
    step ⟨true, current ++ "::", bases⟩ (.ident word) = ⟨true, current ++ "::" ++ word, bases⟩ := by
  have hends : (current ++ "::").endsWith "::" = true := (endsWith_separator_iff _).2 ⟨current, rfl⟩
  simp [step, hends]

theorem step_word_of_not_waiting {current : String} (hcurrent : ':' ∉ current.toList)
    (bases : List String) (word : String) :
    step ⟨true, current, bases⟩ (.ident word) = ⟨true, word, bases⟩ := by
  have hends : current.endsWith "::" = false := by
    rw [Bool.eq_false_iff, Ne, endsWith_separator_iff]
    rintro ⟨t, rfl⟩
    exact hcurrent (by simp)
  by_cases hempty : current = ""
  · simp [step, hempty]
  · simp [step, hempty, hends]

/-- Words joined by `::` are appended. -/
theorem foldl_step_furtherNames (current : String) (bases : List String) (more : List Identifier) :
    (Outline.furtherNames more).foldl step ⟨true, current, bases⟩ =
      ⟨true, Name.join (current :: more.map Identifier.word), bases⟩ := by
  induction more generalizing current with
  | nil => rw [List.map_nil, Name.join, String.intercalate_singleton]; rfl
  | cons name more ih =>
    change (Outline.furtherNames more).foldl step
      (step ⟨true, current ++ "::", bases⟩ (.ident name.word)) = _
    rw [step_word_of_waiting, ih, List.map_cons, Name.join_append, Name.join_cons_cons]

/-- Specifiers leave `virtual` behind, or nothing. -/
theorem foldl_step_specifiers {current : String} (hcurrent : current = "" ∨ current = "virtual")
    (bases : List String) (specifiers : List Specifier) :
    (specifiers.map Specifier.token).foldl step ⟨true, current, bases⟩ =
      ⟨true, if .virtual ∈ specifiers then "virtual" else current, bases⟩ := by
  induction specifiers generalizing current with
  | nil => rfl
  | cons s specifiers ih =>
    cases s with
    | access =>
      have hmem : Specifier.virtual ∈ .access :: specifiers ↔ .virtual ∈ specifiers := by simp
      simp only [hmem]
      exact ih hcurrent
    | virtual =>
      have hcolon : ':' ∉ current.toList := by rcases hcurrent with rfl | rfl <;> decide
      rw [List.map_cons, List.foldl_cons, Specifier.token, step_word_of_not_waiting hcolon,
        ih (.inr rfl)]
      simp

/-- A name takes the place of what is left of the specifiers, unless it begins with `::`. -/
theorem foldl_step_target {current : String} (hcurrent : ':' ∉ current.toList) (bases : List String)
    (target : Target) :
    target.tokens.foldl step ⟨true, current, bases⟩ =
      ⟨true, Name.join ((if target.global then [current] else []) ++
        (target.first :: target.more).map Identifier.word), bases⟩ := by
  rw [Target.tokens, List.map_cons]
  cases target.global with
  | false =>
    change (Outline.furtherNames target.more).foldl step
      (step ⟨true, current, bases⟩ (.ident target.first.word)) = _
    rw [step_word_of_not_waiting hcurrent, foldl_step_furtherNames]
    rfl
  | true =>
    change (Outline.furtherNames target.more).foldl step
      (step ⟨true, current ++ "::", bases⟩ (.ident target.first.word)) = _
    rw [step_word_of_waiting, foldl_step_furtherNames, Name.join_append, ← Name.join_cons_cons]
    rfl

theorem join_gathered_ne_empty (b : Base) : Name.join b.gathered ≠ "" := by
  have hfirst := b.target.first.word_ne_empty
  rw [Base.gathered, List.map_cons]
  cases b.target.global with
  | false => exact Name.join_ne_empty hfirst _
  | true =>
    rw [if_pos rfl, List.singleton_append, Name.join_cons_cons]
    intro hempty
    have hlength := congrArg String.length hempty
    simp at hlength

/-- One base: its name is put together, and template arguments end the collection. -/
theorem foldl_step_base (b : Base) (bases : List String) :
    b.tokens.foldl step ⟨true, "", bases⟩ =
      if b.arguments.isSome then ⟨false, "", bases ++ [Name.join b.gathered]⟩
      else ⟨true, Name.join b.gathered, bases⟩ := by
  have hname : (b.specifiers.map Specifier.token ++ b.target.tokens).foldl step ⟨true, "", bases⟩ =
      ⟨true, Name.join b.gathered, bases⟩ := by
    rw [List.foldl_append, foldl_step_specifiers (.inl rfl), foldl_step_target]
    · rfl
    · split <;> decide
  rw [Base.tokens, ← List.append_assoc, List.foldl_append, hname, Base.argumentTokens]
  cases b.arguments with
  | none => rfl
  | some arguments =>
    have hangle : step ⟨true, Name.join b.gathered, bases⟩ .angle =
        ⟨false, "", bases ++ [Name.join b.gathered]⟩ := by
      simp [step, all, join_gathered_ne_empty]
    rw [List.foldl_cons, hangle, foldl_step_of_not_collecting]
    rfl

/-- All bases: the names up to the first template arguments. -/
theorem all_foldl_step_list (bs : List Base) (bases : List String) :
    ((Base.listTokens bs).foldl step ⟨true, "", bases⟩).all =
      bases ++ (Base.collected bs).map Name.join := by
  fun_induction Base.listTokens bs generalizing bases with
  | case1 => simp [all, Base.collected]
  | case2 b =>
    rw [foldl_step_base]
    cases b.arguments <;> simp [all, Base.collected, join_gathered_ne_empty]
  | case3 b b' bs ih =>
    rw [List.foldl_append, foldl_step_base, List.foldl_cons, Base.collected]
    cases b.arguments with
    | none =>
      have hcomma : step ⟨true, Name.join b.gathered, bases⟩ .comma =
          ⟨true, "", bases ++ [Name.join b.gathered]⟩ := by
        simp [step, all, join_gathered_ne_empty]
      simp [hcomma, ih]
    | some arguments =>
      have hcomma : step ⟨false, "", bases ++ [Name.join b.gathered]⟩ .comma =
          ⟨false, "", bases ++ [Name.join b.gathered]⟩ := rfl
      simp [hcomma, foldl_step_of_not_collecting, all]

end Gathering

namespace Parser

variable {p : Parser} {t u : Token} {ts us : List Token}

/-- A pass over a token that does not end the list. -/
theorem basesFrom_step (n : Nat) (s : Gathering) (htoken : p.advance.token = t)
    (ht : t.isBase = true) :
    basesFrom (n + 1) s.collecting s.current s.bases p =
      basesFrom n (s.step t).collecting (s.step t).current (s.step t).bases p.advance := by
  obtain ⟨collecting, current, bases⟩ := s
  cases t <;> simp only [Token.isBase, Bool.false_eq_true] at ht
  case comma => cases collecting <;> simp [basesFrom, htoken, Gathering.step, Gathering.all]
  all_goals simp [basesFrom, htoken, Gathering.step, Gathering.all]

/-- The list of bases is read up to the body of the class. -/
theorem basesFrom_eq (n : Nat) (s : Gathering)
    (hahead : p.ahead = u :: (ts ++ .opening .brace :: us)) (hts : ∀ t ∈ ts, t.isBase = true)
    (hn : ts.length < n) :
    basesFrom n s.collecting s.current s.bases p =
      (.body, (ts.foldl Gathering.step s).all, advance^[ts.length + 1] p) := by
  induction ts generalizing p u n s with
  | nil =>
    obtain ⟨n, rfl⟩ := Nat.exists_eq_succ_of_ne_zero (Nat.ne_zero_of_lt hn)
    have hbrace := token_of_ahead (ahead_advance hahead)
    simp only [basesFrom, hbrace]
    rfl
  | cons t ts ih =>
    obtain ⟨n, rfl⟩ := Nat.exists_eq_succ_of_ne_zero (Nat.ne_zero_of_lt hn)
    obtain ⟨ht, hts⟩ := List.forall_mem_cons.1 hts
    have hnext : p.advance.ahead = t :: (ts ++ .opening .brace :: us) := ahead_advance hahead
    rw [basesFrom_step n s (token_of_ahead hnext) ht,
      ih n (s.step t) hnext hts (Nat.lt_of_succ_lt_succ hn)]
    rfl

/-- The head of a class with bases, at the word `class`. -/
def HeadsClass (p : Parser) (name : Identifier) (bs : List Base) : Prop :=
  ∃ a after, p.ahead = .classWord :: .ident name.word :: .colon a ::
    (Base.listTokens bs ++ .opening .brace :: after)

/-- The class is entered at the brace after its head, with the names that were collected. -/
theorem turn_classHead (includer : Includer) {name : Identifier} {bs : List Base}
    (hhead : p.HeadsClass name bs) (hread : (p.depths.bracket > 0 && p.atNamespaceLevel) = false)
    (hlevel : p.advance.atDeclarationLevel = true) :
    let q := advance^[(Base.listTokens bs).length + 3] p
    p.turn includer =
      q.enterClass q.snapshot.namespaces name.word ((Base.collected bs).map Name.join) := by
  intro q
  obtain ⟨a, after, hahead⟩ := hhead
  have hname := ahead_advance hahead
  have hcolon := ahead_advance hname
  have hcolonToken := token_of_ahead hcolon
  have hfuel : (Base.listTokens bs).length < p.advance.advance.budget := by
    have hlength := congrArg List.length (List.cons.inj hcolon).2
    simp only [List.length_map, List.length_append, List.length_cons] at hlength
    rw [budget]
    omega
  have hword : classNameFrom p.advance.budget name.word [] p.advance.advance =
      ((name.word, []), p.advance.advance) := by
    rw [budget, classNameFrom, hcolonToken]
  have hbases : basesFrom p.advance.advance.budget p.advance.advance.token.isColon "" []
      p.advance.advance = (.body, (Base.collected bs).map Name.join, q) := by
    rw [hcolonToken]
    refine (basesFrom_eq _ ⟨true, "", []⟩ hcolon (Base.isBase_of_mem_listTokens bs) hfuel).trans ?_
    rw [Gathering.all_foldl_step_list]
    rfl
  have hbegins : p.advance.advance.token.isColon = true ∨ p.advance.advance.token = .angle :=
    .inl (by rw [hcolonToken]; rfl)
  calc p.turn includer = p.onClass := by
        rw [turn, hread, if_neg Bool.false_ne_true, token_of_ahead hahead]
    _ = p.advance.classHead := by rw [onClass, if_pos hlevel]
    _ = q.defineClass name.word [] ((Base.collected bs).map Name.join) :=
        classHead_of_bases (token_of_ahead hname) hword hbegins hbases
    _ = _ := rfl

end Parser

end Harvest
