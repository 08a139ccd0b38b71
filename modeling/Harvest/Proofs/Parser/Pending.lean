import Harvest.Proofs.Draft
import Harvest.Proofs.Parser.Reading

/-!
# Qualifiers that stay pending

The definition of a static member leaves its qualifier pending, and so does the head of a function
with a qualified name. What this does to the function body that comes next: the first call in it
resolves the qualifier, and from then on the calls belong to what it was resolved to.
-/

namespace Harvest

def Diagnostic.unknownQualifier (file name : String) : Diagnostic :=
  ⟨file, 0, .unknownQualifier, "Qualifying with unknown namespace/class " ++ name⟩

namespace Name

/-- A word without colons is one piece. -/
theorem splitColons_word {cs : List Char} (h : ':' ∉ cs) : splitColons cs = [cs] := by
  induction cs with
  | nil => rfl
  | cons c cs ih =>
    obtain ⟨hc, hcs⟩ : ':' ≠ c ∧ ':' ∉ cs := by simpa using h
    cases cs with
    | nil => rfl
    | cons d cs => simp [splitColons, Ne.symm hc, ih hcs]

theorem splitColons_append {cs : List Char} (h : ':' ∉ cs) (rest : List Char) :
    splitColons (cs ++ ':' :: ':' :: rest) = cs :: splitColons rest := by
  induction cs with
  | nil => rfl
  | cons c cs ih =>
    obtain ⟨hc, hcs⟩ : ':' ≠ c ∧ ':' ∉ cs := by simpa using h
    cases cs with
    | nil => simp [splitColons, Ne.symm hc]
    | cons d cs =>
      have hrest := ih hcs
      rw [List.cons_append] at hrest
      simp [splitColons, Ne.symm hc, hrest]

theorem join_cons_cons (a b : String) (segments : List String) :
    join (a :: b :: segments) = a ++ "::" ++ join (b :: segments) :=
  String.intercalate_cons_cons

/-- The beginning of the first word stands before the rest of the text. -/
theorem join_append (a b : String) (segments : List String) :
    join ((a ++ b) :: segments) = a ++ join (b :: segments) := by
  cases segments with
  | nil => simp only [join, String.intercalate_singleton]
  | cons c segments => simp only [join_cons_cons, String.append_assoc]

theorem join_ne_empty {first : String} (hfirst : first ≠ "") (more : List String) :
    join (first :: more) ≠ "" := by
  cases more with
  | nil =>
    rw [join, String.intercalate_singleton]
    exact hfirst
  | cons second more =>
    rw [join_cons_cons]
    intro hempty
    have hlists := congrArg String.toList hempty
    simp at hlists

/-- Words without colons can be read off the text that they make. -/
theorem ofWritten_join (first : String) (more : List String)
    (h : ∀ word ∈ first :: more, ':' ∉ word.toList) :
    (ofWritten (join (first :: more))).segments = first :: more := by
  have hsplit : splitColons (join (first :: more)).toList =
      (first :: more).map String.toList := by
    induction more generalizing first with
    | nil =>
      rw [join, String.intercalate_singleton]
      exact splitColons_word (h first List.mem_cons_self)
    | cons second more ih =>
      have hfirst := h first List.mem_cons_self
      have hmore := ih second fun word hword ↦ h word (List.mem_cons_of_mem first hword)
      rw [join_cons_cons, String.toList_append, String.toList_append, List.append_assoc]
      change splitColons (_ ++ ':' :: ':' :: (join (second :: more)).toList) = _
      rw [splitColons_append hfirst, hmore]
      rfl
  rw [ofWritten, hsplit, List.map_map]
  simp

end Name

/-- An identifier has no colon. -/
theorem Identifier.colon_not_mem (name : Identifier) : ':' ∉ name.word.toList := by
  have hvalid := name.valid
  unfold Token.isIdentifier at hvalid
  cases hword : name.word.toList with
  | nil => simp
  | cons c cs =>
    simp only [hword, Bool.and_eq_true, List.all_eq_true] at hvalid
    intro hmem
    rcases List.mem_cons.1 hmem with rfl | hmem
    · exact absurd hvalid.1.1.1 (by decide)
    · exact absurd (hvalid.1.1.2 _ hmem) (by decide)

theorem Identifier.word_ne_empty (name : Identifier) : name.word ≠ "" := by
  intro hempty
  have hvalid := name.valid
  rw [hempty] at hvalid
  exact absurd hvalid (by decide)

namespace Parser

variable {includer : Includer} {options : Options} {p : Parser} {path : List String}
  {opened : List Nat} {s : Snapshot} {n : Nat} {t : Token} {ts : List Token} {is : List Item}

/-- In the middle of a qualified name: its qualifier so far, and the one before its last
separator. -/
def amid (p : Parser) (prospective qualifier : String) : Parser :=
  { p with prospective, statement := { qualifier }, remarksExpected := false }

theorem turn_qualifierWord (prospective qualifier word : String) (l l' : Nat) (d : Depths) :
    ((p.amid prospective qualifier).load
        (⟨[], .ident word, l, ⟨n, 0, 0⟩⟩ :: ⟨[], .colonColon, l', d⟩ :: is)).turn includer =
      (p.amid prospective (qualifier ++ word)).load (⟨[], .colonColon, l', d⟩ :: is) := by
  simp [turn, load, onIdent, amid, advance]

theorem turn_firstQualifierWord (h : p.Stands s) (word : String) (l l' : Nat) (d : Depths) :
    (p.load (⟨[], .ident word, l, ⟨n, 0, 0⟩⟩ :: ⟨[], .colonColon, l', d⟩ :: is)).turn includer =
      (p.amid "" word).load (⟨[], .colonColon, l', d⟩ :: is) := by
  simp [turn, load, onIdent, amid, advance, h.statement, h.prospective]

/-- The type in front of a qualified name. -/
theorem turn_typeWord (h : p.Stands s) (type word : String) (l l' : Nat) (d : Depths) :
    (p.load (⟨[], .ident type, l, ⟨n, 0, 0⟩⟩ :: ⟨[], .ident word, l', d⟩ :: is)).turn includer =
      (p.amid "" "").load (⟨[], .ident word, l', d⟩ :: is) := by
  simp [turn, load, onIdent, amid, advance, clearQualifier, expectRemarks, h.statement,
    h.prospective]

/-- A separator makes the qualifier before it that of what may be a definition. -/
theorem turn_separator (hn : n = p.snapshot.depths.length) (prospective qualifier : String)
    (l l' : Nat) (d : Depths) :
    ((p.amid prospective qualifier).load
        (⟨[], .colonColon, l, ⟨n, 0, 0⟩⟩ :: ⟨[], t, l', d⟩ :: is)).turn includer =
      (p.amid qualifier (qualifier ++ "::")).load (⟨[], t, l', d⟩ :: is) := by
  simp [turn, load, onColonColon, amid, advance, atDeclarationLevel, atNamespaceLevel, hn]

theorem turn_memberName (prospective qualifier word : String) (l l' : Nat) (d : Depths) :
    ((p.amid prospective qualifier).load
        (⟨[], .ident word, l, ⟨n, 0, 0⟩⟩ :: ⟨[], .equals, l', d⟩ :: is)).turn includer =
      (p.amid prospective "").load (⟨[], .equals, l', d⟩ :: is) := by
  simp [turn, load, onIdent, amid, advance, clearQualifier, expectRemarks]

/-- A parser that is left with a pending qualifier after a statement. -/
def leftPending (p : Parser) (pending : String) : Parser :=
  { p with
    snapshot := { p.snapshot with pending }
    prospective := ""
    statement := {}
    remarksExpected := true }

theorem Stands.leftPending {pending : String} (h : p.Stands (.awaiting path opened pending))
    (whole : String) : (p.leftPending whole).Stands (.awaiting path opened whole) := by
  refine ⟨?_, rfl, rfl, h.remarks⟩
  change { p.snapshot with pending := whole } = _
  rw [h.snapshot]
  rfl

/-- The sign of an initializer makes the qualifier pending. -/
theorem turn_equals (hn : n = p.snapshot.depths.length) {prospective : String}
    (hprospective : prospective ≠ "") (l l' : Nat) (d : Depths) :
    ((p.amid prospective "").load (⟨[], .equals, l, ⟨n, 0, 0⟩⟩ :: ⟨[], t, l', d⟩ :: is)).turn
        includer = (p.leftPending prospective).load (⟨[], t, l', d⟩ :: is) := by
  simp [turn, load, onColonOrEquals, amid, leftPending, advance, atDeclarationLevel,
    atNamespaceLevel, promote, hprospective, expectRemarks, hn]

/-- The type of a member leads on to the first name of its qualifier. -/
theorem reaches_memberFirst {lead : Bool} {word : String} {l : Nat} (h : p.Stands s)
    (hn : n = s.depths.length)
    (his : Carries ⟨n, 0, 0⟩
      ((if lead then [Token.colonColon] else []) ++ Token.ident word :: ts) is) :
    ∃ prospective l' rest, Reaches includer
        (p.load (⟨[], .ident "int", l, ⟨n, 0, 0⟩⟩ :: is))
        ((p.amid prospective (if lead then "int::" else "")).load
          (⟨[], .ident word, l', ⟨n, 0, 0⟩⟩ :: rest)) ∧
      Carries ⟨n, 0, 0⟩ ts rest := by
  cases lead with
  | false =>
    obtain ⟨l', rest, rfl, hrest⟩ := his
    exact ⟨"", l', rest, .of_turn (by simp) (turn_typeWord h _ _ _ _ _) (by simp) (by simp), hrest⟩
  | true =>
    obtain ⟨l₁, _, rfl, l', rest, rfl, hrest⟩ := his
    have hlevel : n = p.snapshot.depths.length := h.snapshot.symm ▸ hn
    exact ⟨"int", l', rest,
      .trans (.of_turn (by simp) (turn_firstQualifierWord h _ _ _ _) (by simp) (by simp))
        (.of_turn (by simp) (turn_separator hlevel _ _ _ _ _) (by simp) (by simp)), hrest⟩

theorem reads_zero (hts : ts ≠ []) :
    Reads includer options ⟨s, ⟨n, 0, 0⟩, .null :: ts⟩ [] ⟨s, ⟨n, 0, 0⟩, ts⟩ := by
  obtain ⟨t, ts, rfl⟩ := List.exists_cons_of_ne_nil hts
  refine .of_turn (by simp) (by simp) hts ?_
  rintro p is - ⟨h, l, _, rfl, l', rest, rfl, hrest⟩
  refine ⟨p, _, ?_, ⟨h, l', rest, rfl, hrest⟩, rfl, rfl⟩
  simp [turn, load, clearProspective, advance, h.prospective, h.statement, Depths.after]

theorem carries_separator {d : Depths} {more : List Identifier}
    (his : Carries d (Outline.furtherNames more ++ .colonColon :: ts) is) :
    ∃ l rest, is = ⟨[], .colonColon, l, d⟩ :: rest := by
  cases more with
  | nil | cons next more =>
    obtain ⟨l, rest, rfl, -⟩ := his
    exact ⟨l, rest, rfl⟩

/-- The names after the first one of a qualifier lead on to the name that it qualifies. -/
theorem reaches_furtherNames {more : List Identifier} {name : String}
    (hn : n = p.snapshot.depths.length) (prospective qualifier : String)
    (his : Carries ⟨n, 0, 0⟩ (Outline.furtherNames more ++ .colonColon :: .ident name :: ts) is) :
    ∃ whole l rest, whole = Name.join (qualifier :: more.map Identifier.word) ∧
      Reaches includer ((p.amid prospective qualifier).load is)
        ((p.amid whole (whole ++ "::")).load (⟨[], .ident name, l, ⟨n, 0, 0⟩⟩ :: rest)) ∧
      Carries ⟨n, 0, 0⟩ ts rest := by
  induction more generalizing prospective qualifier is with
  | nil =>
    obtain ⟨l₁, _, rfl, l, rest, rfl, hrest⟩ := his
    refine ⟨qualifier, l, rest, ?_,
      .of_turn (by simp) (turn_separator hn _ _ _ _ _) (by simp) (by simp), hrest⟩
    rw [List.map_nil, Name.join, String.intercalate_singleton]
  | cons next more ih =>
    obtain ⟨l₁, _, rfl, l₂, rest, rfl, hrest⟩ := his
    obtain ⟨l₃, rest, rfl⟩ := carries_separator hrest
    obtain ⟨whole, l, left, hwhole, hreach, hleft⟩ :=
      ih qualifier (qualifier ++ "::" ++ next.word) hrest
    refine ⟨whole, l, left, ?_, .trans
      (.of_turn (by simp) (turn_separator hn _ _ _ _ _) (by simp) (by simp))
      (.trans (.of_turn (by simp) (turn_qualifierWord _ _ _ _ _ _) (by simp) (by simp)) hreach),
      hleft⟩
    rw [hwhole, Name.join_append, List.map_cons, Name.join_cons_cons]

/-- The names of a qualifier lead on to the name that it qualifies. -/
theorem reaches_memberName {more : List Identifier} {name : String} {l : Nat}
    (hn : n = p.snapshot.depths.length) (prospective qualifier word : String)
    (his : Carries ⟨n, 0, 0⟩ (Outline.furtherNames more ++ .colonColon :: .ident name :: ts) is) :
    ∃ whole l' rest, whole = qualifier ++ Name.join (word :: more.map Identifier.word) ∧
      Reaches includer
        ((p.amid prospective qualifier).load (⟨[], .ident word, l, ⟨n, 0, 0⟩⟩ :: is))
        ((p.amid whole (whole ++ "::")).load (⟨[], .ident name, l', ⟨n, 0, 0⟩⟩ :: rest)) ∧
      Carries ⟨n, 0, 0⟩ ts rest := by
  obtain ⟨l₁, rest, rfl⟩ := carries_separator his
  obtain ⟨whole, l', left, hwhole, hreach, hleft⟩ :=
    reaches_furtherNames hn prospective (qualifier ++ word) his
  refine ⟨whole, l', left, ?_,
    .trans (.of_turn (by simp) (turn_qualifierWord _ _ _ _ _ _) (by simp) (by simp)) hreach, hleft⟩
  rw [hwhole, Name.join_append]

/-- The definition of a static member leaves its qualifier pending. -/
theorem reads_member (m : Member) (pending : String) (hts : ts ≠ []) :
    Reads includer options
      ⟨.awaiting path opened pending, ⟨opened.length, 0, 0⟩, m.tokens ++ ts⟩ []
      ⟨.awaiting path opened (Name.join m.qualifier), ⟨opened.length, 0, 0⟩, ts⟩ := by
  obtain ⟨lead, first, more, name⟩ := m
  simp only [Member.tokens, Member.qualifier, List.cons_append, List.append_assoc, List.nil_append]
  rintro p is hoptions ⟨h, l, is, rfl, his⟩
  have hlevel : opened.length = p.snapshot.depths.length := by rw [h.snapshot]; rfl
  obtain ⟨prospective, l₁, is, hfirst, his⟩ := reaches_memberFirst (l := l) h rfl his
  obtain ⟨whole, l₂, is, hwhole, hname, l₃, _, rfl, l₄, is, rfl, his⟩ := reaches_memberName (l := l₁)
    hlevel prospective (if lead then "int::" else "") first.word his
  have hjoin : whole = Name.join
      ((if lead then ["int"] else []) ++ (first :: more).map Identifier.word) := by
    cases lead with
    | false => simpa using hwhole
    | true => simpa [Name.join_cons_cons] using hwhole
  have hne : whole ≠ "" := by
    rw [hjoin]
    cases lead with
    | false => exact Name.join_ne_empty first.word_ne_empty _
    | true => exact Name.join_ne_empty (by decide) _
  have hequals : Reaches includer
      ((p.amid whole (whole ++ "::")).load (⟨[], .ident name.word, l₂, ⟨opened.length, 0, 0⟩⟩ ::
        ⟨[], .equals, l₃, ⟨opened.length, 0, 0⟩⟩ :: ⟨[], .null, l₄, ⟨opened.length, 0, 0⟩⟩ :: is))
      ((p.leftPending whole).load (⟨[], .null, l₄, ⟨opened.length, 0, 0⟩⟩ :: is)) :=
    .trans (.of_turn (by simp) (turn_memberName _ _ _ _ _ _) (by simp) (by simp))
      (.of_turn (by simp) (turn_equals hlevel hne _ _ _) (by simp) (by simp))
  have hpending : (p.leftPending whole).IsAt (⟨[], .null, l₄, ⟨opened.length, 0, 0⟩⟩ :: is)
      ⟨.awaiting path opened whole, ⟨opened.length, 0, 0⟩, .null :: .semicolon :: ts⟩ :=
    ⟨h.leftPending whole, l₄, is, rfl, his⟩
  obtain ⟨q, rest, hreach, hq⟩ := ((reads_zero (by simp)).trans (reads_semicolon hts))
    (p.leftPending whole) _ hoptions hpending
  exact ⟨q, rest, hfirst.trans (hname.trans (hequals.trans hreach)), hjoin ▸ hq.isAt, hq.fixed,
    hq.yield⟩

theorem turn_methodName {word : String} (hword : p.options.calls.lookup word = none)
    (prospective qualifier : String) (l l' : Nat) (d : Depths) :
    ((p.amid prospective qualifier).load
        (⟨[], .ident word, l, ⟨n, 0, 0⟩⟩ :: ⟨[], .opening .paren, l', d⟩ :: is)).turn includer =
      (p.amid prospective "").load (⟨[], .opening .paren, l', d⟩ :: is) := by
  simp [turn, load, onIdent, amid, advance, clearQualifier, expectRemarks, hword]

/-- The parenthesis before the parameters makes the qualifier pending. -/
theorem turn_methodParen (hn : n = p.snapshot.depths.length) {prospective : String}
    (hprospective : prospective ≠ "") (l l' : Nat) (d : Depths) :
    ((p.amid prospective "").load
        (⟨[], .opening .paren, l, ⟨n, 1, 0⟩⟩ :: ⟨[], t, l', d⟩ :: is)).turn includer =
      (p.leftPending prospective).load (⟨[], t, l', d⟩ :: is) := by
  simp [turn, load, onOpeningParen, amid, leftPending, advance, atNamespaceLevel, promote,
    hprospective, expectRemarks, hn]

/-- From its name on, the head of a function leaves the qualifier pending that was read before. -/
theorem leads_methodName {name whole pending : String} (hname : options.calls.lookup name = none)
    (hwhole : whole ≠ "") (qualifier : String) (h : p.Stands (.awaiting path opened pending))
    (hoptions : p.options = options) (hts : ts ≠ [])
    (his : Carries ⟨opened.length, 0, 0⟩
      (.ident name :: .opening .paren :: .closing .paren :: .opening .brace :: ts) is) :
    ∃ (q : Parser) (rest : List Item),
      Reaches includer ((p.amid whole qualifier).load is) (q.load rest) ∧
      p.Leads (Yield.along []) q rest
        ⟨.awaiting path opened whole, ⟨opened.length + 1, 0, 0⟩, ts⟩ := by
  obtain ⟨l, _, rfl, l₁, _, rfl, l₂, rest, rfl, hrest⟩ := his
  have hlevel : opened.length = p.snapshot.depths.length := by rw [h.snapshot]; rfl
  have hparen : Reaches includer
      ((p.amid whole qualifier).load (⟨[], .ident name, l, ⟨opened.length, 0, 0⟩⟩ ::
        ⟨[], .opening .paren, l₁, ⟨opened.length, 1, 0⟩⟩ ::
        ⟨[], .closing .paren, l₂, ⟨opened.length, 0, 0⟩⟩ :: rest))
      ((p.leftPending whole).load (⟨[], .closing .paren, l₂, ⟨opened.length, 0, 0⟩⟩ :: rest)) :=
    .trans (.of_turn (by simp) (turn_methodName (hoptions ▸ hname) _ _ _ _ _) (by simp) (by simp))
      (.of_turn (by simp) (turn_methodParen hlevel hwhole _ _ _) (by simp) (by simp))
  have hpending : (p.leftPending whole).IsAt
      (⟨[], .closing .paren, l₂, ⟨opened.length, 0, 0⟩⟩ :: rest)
      ⟨.awaiting path opened whole, ⟨opened.length, 1, 0⟩, .closing .paren :: .opening .brace ::
        ts⟩ :=
    ⟨h.leftPending whole, l₂, rest, rfl, hrest⟩
  obtain ⟨q, rest', hreach, hq⟩ :=
    reads_parametersEnd rfl hts (p.leftPending whole) _ hoptions hpending
  exact ⟨q, rest', hparen.trans hreach, hq.isAt, hq.fixed, hq.yield⟩

/-- The head of a function with a qualified name leaves its qualifier pending. -/
theorem reads_methodHead (first : Identifier) (more : List Identifier) {name : String}
    (hname : options.calls.lookup name = none) (pending : String) (hts : ts ≠ []) :
    Reads includer options
      ⟨.awaiting path opened pending, ⟨opened.length, 0, 0⟩, .ident "void" :: .ident first.word ::
        (Outline.furtherNames more ++ .colonColon :: .ident name :: .opening .paren ::
          .closing .paren :: .opening .brace :: ts)⟩ []
      ⟨.awaiting path opened (Name.join ((first :: more).map Identifier.word)),
        ⟨opened.length + 1, 0, 0⟩, ts⟩ := by
  rintro p is hoptions ⟨h, l, _, rfl, l₁, is, rfl, his⟩
  have hlevel : opened.length = p.snapshot.depths.length := by rw [h.snapshot]; rfl
  obtain ⟨whole, l₂, rest, hwhole, hqualifier, hrest⟩ :=
    reaches_memberName (l := l₁) hlevel "" "" first.word his
  rw [String.empty_append] at hwhole
  have hne : whole ≠ "" := hwhole ▸ Name.join_ne_empty first.word_ne_empty _
  have htype : Reaches includer
      (p.load (⟨[], .ident "void", l, ⟨opened.length, 0, 0⟩⟩ ::
        ⟨[], .ident first.word, l₁, ⟨opened.length, 0, 0⟩⟩ :: is))
      ((p.amid "" "").load (⟨[], .ident first.word, l₁, ⟨opened.length, 0, 0⟩⟩ :: is)) :=
    .of_turn (by simp) (turn_typeWord h _ _ _ _ _) (by simp) (by simp)
  obtain ⟨q, rest', hreach, hq⟩ := leads_methodName hname hne (whole ++ "::") h hoptions hts
    ⟨l₂, rest, rfl, hrest⟩
  exact ⟨q, rest', htype.trans (hqualifier.trans hreach), hwhole ▸ hq⟩

/-- Blocks without calls change nothing. -/
theorem reads_silentBlock {body : Block} (hbody : body.texts = []) (hn : s.depths.length < n)
    (hts : ts ≠ []) :
    Reads includer options ⟨s, ⟨n, 0, 0⟩, body.tokens ++ ts⟩ [] ⟨s, ⟨n, 0, 0⟩, ts⟩ := by
  induction body generalizing n ts with
  | done => exact .refl _
  | block inner rest ihinner ihrest =>
    obtain ⟨hinner, hrest⟩ := List.append_eq_nil_iff.1 hbody
    simp only [Block.tokens, List.cons_append, List.append_assoc]
    exact (reads_openingBrace (by simp)).trans
      ((ihinner hinner (Nat.lt_succ_of_lt hn) (by simp)).trans
        ((reads_blockEnd hn (by simp [hts])).trans (ihrest hrest hn hts)))
  | call text rest _ => simp [Block.texts] at hbody

/-- To whom calls belong once a qualifier is resolved, and what is left of its name. -/
def ownerOf : Except PartialName Name → Name × String
  | .ok owner => (owner, "")
  | .error rest => (rest.resolved, Name.join rest.unresolved)

/-- What is reported once a qualifier is resolved: where its name leads no further. -/
def complaintOf (file : String) : Except PartialName Name → List Diagnostic
  | .ok _ => []
  | .error rest =>
    [.unknownQualifier file (rest.resolved.render ++ "::" ++ rest.unresolved.headD "")]

section Adopted

variable {pending : String} {outcome : Except PartialName Name} {f : Forest}

theorem resolvePending_load (h : p.Stands (.awaiting path opened pending))
    (hresolve : p.forest.qualifyWritten p.tree ⟨"" :: path⟩ pending true = (outcome, f)) (i : Item)
    (is : List Item) :
    ∃ q : Parser, (p.load (i :: is)).resolvePending = q.load (i :: is) ∧
      q.Stands (.within path opened (ownerOf outcome).1 (ownerOf outcome).2) ∧ q.fixed = p.fixed ∧
      q.yield.forest = f ∧ q.yield.messages = p.yield.messages ∧
      q.yield.diagnostics = p.yield.diagnostics ++ complaintOf p.file.text outcome := by
  have hsnapshot : (p.load (i :: is)).snapshot = .awaiting path opened pending := h.snapshot
  have hforest : (p.load (i :: is)).forest.qualifyWritten (p.load (i :: is)).tree
      (Snapshot.awaiting path opened pending).namespaces
      (Snapshot.awaiting path opened pending).pending true = (outcome, f) := hresolve
  simp only [resolvePending, hsnapshot, hforest]
  cases outcome with
  | ok owner =>
    exact ⟨(p.setForest f).setSnapshot (.within path opened owner ""), rfl,
      ⟨rfl, h.statement, h.prospective, h.remarks⟩, rfl, rfl, rfl, (List.append_nil _).symm⟩
  | error rest =>
    refine ⟨((p.setForest f).setSnapshot
        (.within path opened rest.resolved (Name.join rest.unresolved))).reportAt i.line
          .unknownQualifier ("Qualifying with unknown namespace/class " ++ rest.resolved.render ++
            "::" ++ rest.unresolved.headD ""), rfl,
      ⟨rfl, h.statement, h.prospective, h.remarks⟩, rfl, rfl, rfl, ?_⟩
    rw [yield_reportAt, complaintOf, Diagnostic.unknownQualifier]
    simp only [String.append_assoc]
    rfl

/-- The first call after a pending qualifier resolves it. -/
theorem trMessage_pending (h : p.Stands (.awaiting path opened pending)) (hpending : pending ≠ "")
    (hresolve : p.forest.qualifyWritten p.tree ⟨"" :: path⟩ pending true = (outcome, f))
    (line l : Nat) (d : Depths) (body : String) (is : List Item) :
    ∃ (q : Parser) (y : Yield),
      (p.load (⟨[], .closing .paren, l, d⟩ :: is)).trMessage line body false =
        q.load (⟨[], .closing .paren, l, d⟩ :: is) ∧
      q.Stands (.within path opened (ownerOf outcome).1 (ownerOf outcome).2) ∧ q.fixed = p.fixed ∧
      y.forest = f ∧ y.messages = p.yield.messages ∧
      y.diagnostics = p.yield.diagnostics ++ complaintOf p.file.text outcome ∧
      q.yield = y.heard p.file.text p.tree (ownerOf outcome).1 (ownerOf outcome).2 body := by
  obtain ⟨r, hload, hr, hfixed, hforest, hmessages, hdiagnostics⟩ :=
    resolvePending_load h hresolve ⟨[], .closing .paren, l, d⟩ is
  obtain ⟨q, hmessage, hq, hfixed', hyield⟩ := trMessage_load hr line l d body is
  have hmatters : (p.load (⟨[], .closing .paren, l, d⟩ :: is)).pendingMatters = true := by
    have hstart : "".startsWith "::" = false := by decide
    simp [pendingMatters, load, h.snapshot, h.statement, Snapshot.awaiting, hpending, hstart]
  have hsettled : (r.load (⟨[], .closing .paren, l, d⟩ :: is)).pendingMatters = false := by
    simp [pendingMatters, load, hr.snapshot, Snapshot.within, Snapshot.between]
  obtain ⟨-, hfile, htree⟩ := of_fixed_eq hfixed
  refine ⟨q, r.yield, ?_, hq, hfixed'.trans hfixed, hforest, hmessages, hdiagnostics,
    hfile ▸ htree ▸ hyield⟩
  rw [← hmessage]
  simp only [trMessage, commentAndCount_load, hmatters, hsettled, if_true, Bool.false_eq_true,
    if_false, hload]

/-- The body of a function that a pending qualifier adopts. -/
theorem reaches_adoptedBody (htr : options.calls.lookup "tr" = some .tr) {body : Block}
    (hbody : body.texts ≠ []) (hpending : pending ≠ "") (hn : opened.length < n) (hts : ts ≠ [])
    (hoptions : p.options = options)
    (hat : p.IsAt is ⟨.awaiting path opened pending, ⟨n, 0, 0⟩, body.tokens ++ ts⟩)
    (hresolve : p.forest.qualifyWritten p.tree ⟨"" :: path⟩ pending true = (outcome, f)) :
    ∃ (q : Parser) (rest : List Item) (y : Yield), Reaches includer (p.load is) (q.load rest) ∧
      q.IsAt rest ⟨.within path opened (ownerOf outcome).1 (ownerOf outcome).2, ⟨n, 0, 0⟩, ts⟩ ∧
      q.fixed = p.fixed ∧ y.forest = f ∧ y.messages = p.yield.messages ∧
      y.diagnostics = p.yield.diagnostics ++ complaintOf p.file.text outcome ∧
      q.yield = Yield.hearing (ownerOf outcome).1 (ownerOf outcome).2 body.texts p.file.text p.tree
        y := by
  induction body generalizing p is n ts with
  | done => exact absurd rfl hbody
  | call text rest _ =>
    obtain ⟨h, l₀, _, rfl, l₁, _, rfl, l₂, _, rfl, l₃, _, rfl, l₄, is, rfl, his⟩ := hat
    obtain ⟨q, y, hmessage, hq, hfixed, hforest, hmessages, hdiagnostics, hyield⟩ :=
      trMessage_pending h hpending hresolve l₁ l₃ ⟨n, 0, 0⟩ text.text
        (⟨[], .semicolon, l₄, ⟨n, 0, 0⟩⟩ :: is)
    obtain ⟨hsame, hfile, htree⟩ := of_fixed_eq hfixed
    obtain ⟨r, left, hreach, hr, hfixed', hyield'⟩ :=
      ((reads_semicolon (by simp [hts])).andThen (passes_block htr (ownerOf outcome).1
        (ownerOf outcome).2 rest hn hts)) q _ (hsame.trans hoptions) ⟨hq, l₄, is, rfl, his⟩
    refine ⟨r, left, y, .trans (.of_turn (by simp)
      (turn_of_trMessage h (hoptions ▸ htr) hmessage) (by simp) (by simp)) hreach, hr,
      hfixed'.trans hfixed, hforest, hmessages, hdiagnostics, ?_⟩
    rw [hyield', hyield, hfile, htree]
    rfl
  | block inner rest ihinner ihrest =>
    simp only [Block.tokens, List.cons_append, List.append_assoc] at hat
    by_cases hinner : inner.texts = []
    · -- The first call comes after the inner block.
      have hrest : rest.texts ≠ [] := by simpa [Block.texts, hinner] using hbody
      obtain ⟨q, left, hreach, hq, hfixed, hyield⟩ :=
        ((reads_openingBrace (by simp)).trans ((reads_silentBlock hinner (Nat.lt_succ_of_lt hn)
          (by simp)).trans (reads_blockEnd hn (by simp [hts])))) p is hoptions hat
      obtain ⟨hsame, hfile, htree⟩ := of_fixed_eq hfixed
      have hforest : q.forest = p.forest := congrArg Yield.forest hyield
      obtain ⟨r, left', y, hreach', hr, hfixed', hy, hmessages, hdiagnostics, hyield'⟩ :=
        ihrest hrest hn hts (hsame.trans hoptions) hq (hforest ▸ htree ▸ hresolve)
      refine ⟨r, left', y, hreach.trans hreach', hr, hfixed'.trans hfixed, hy,
        hmessages.trans (congrArg Yield.messages hyield),
        hfile ▸ congrArg Yield.diagnostics hyield ▸ hdiagnostics, ?_⟩
      rw [hyield', hfile, htree, Block.texts, hinner, List.nil_append]
    · obtain ⟨q, left, hreach, hq, hfixed, hyield⟩ :=
        reads_openingBrace (by simp) p is hoptions hat
      obtain ⟨hsame, hfile, htree⟩ := of_fixed_eq hfixed
      have hforest : q.forest = p.forest := congrArg Yield.forest hyield
      obtain ⟨r, left', y, hreach', hr, hfixed', hy, hmessages, hdiagnostics, hyield'⟩ :=
        ihinner hinner (Nat.lt_succ_of_lt hn) (by simp) (hsame.trans hoptions) hq
          (hforest ▸ htree ▸ hresolve)
      obtain ⟨hsame', hfile', htree'⟩ := of_fixed_eq hfixed'
      obtain ⟨v, left'', hreach'', hv, hfixed'', hyield''⟩ :=
        ((reads_blockEnd hn (by simp [hts])).andThen (passes_block htr (ownerOf outcome).1
          (ownerOf outcome).2 rest hn hts)) r left' (hsame'.trans (hsame.trans hoptions)) hr
      refine ⟨v, left'', y, hreach.trans (hreach'.trans hreach''), hv,
        hfixed''.trans (hfixed'.trans hfixed), hy,
        hmessages.trans (congrArg Yield.messages hyield),
        hfile ▸ congrArg Yield.diagnostics hyield ▸ hdiagnostics, ?_⟩
      rw [hyield'', hyield', hfile', htree', hfile, htree]
      exact List.foldl_append.symm

end Adopted

end Parser

end Harvest
