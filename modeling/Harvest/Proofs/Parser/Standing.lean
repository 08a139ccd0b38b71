import Harvest.Proofs.Layout
import Harvest.Proofs.Parser.Reading
import Harvest.Proofs.Source.Pulling

/-!
# Open scopes

What the pieces of a layout do to the path of the open scopes and to the lengths that are recorded
for it: the heads of namespaces and classes, closing braces, and directives. A parser may stand at
namespace level or not; the head of a class that is read elsewhere, or whose qualifier cannot be
resolved, is no head at all, and its body is a block.
-/

namespace Harvest

namespace Forest

/-- A forest after the directive `using namespace target` in the scope `here`. -/
def useNamespace (f : Forest) (t : Nat) (here target : Name) : Forest :=
  match f.qualify t here here.length target.segments false with
  | (.ok found, f) => f.modifyAt t here fun s ↦ { s with usings := s.usings ++ [found] }
  | (.error _, f) => f

/-- A forest after the declaration of an alias in the scope `here`. -/
def nameAlias (f : Forest) (t : Nat) (here : Name) (name : String) (target : Name) : Forest :=
  match f.qualify t here here.length target.segments false with
  | (.ok found, f) => f.modifyAt t here fun s ↦ s.setAlias name (Alias.resolved found)
  | (.error _, f) => f.modifyAt t here fun s ↦ s.setAlias name (Alias.pending target)

end Forest

namespace Parser

variable {includer : Includer} {p : Parser} {n : Nat} {t : Token} {ts : List Token} {is : List Item}
  {d : Depths}

/-- The current token and those after it. -/
def ahead (p : Parser) : List Token := p.token :: p.rest.map Item.token

/-- The path of the open scopes, and the lengths that were recorded for it. -/
def standing (p : Parser) : Name × List Nat := (p.snapshot.namespaces, p.snapshot.depths)

/-- The scopes in which the parser looks names up. -/
def scopes (p : Parser) : Forest × Nat := (p.forest, p.tree)

/-- The tokens are ahead of a parser that has these items ahead, with `n` braces open, and no list of
initializers is under way. -/
structure Faces (p : Parser) (is : List Item) (n : Nat) (ts : List Token) : Prop where
  carries : Carries ⟨n, 0, 0⟩ ts is
  colonSeen : p.statement.colonSeen = false
  opened : p.snapshot.depths.length ≤ n

@[simp] theorem snapshot_load (p : Parser) (is : List Item) : (p.load is).snapshot = p.snapshot := by
  cases is <;> rfl

@[simp] theorem session_load (p : Parser) (is : List Item) : (p.load is).session = p.session := by
  cases is <;> rfl

@[simp] theorem tree_load (p : Parser) (is : List Item) : (p.load is).tree = p.tree := by
  cases is <;> rfl

theorem carries_tokens (h : Carries d ts is) : is.map Item.token = ts := by
  induction ts generalizing d is with
  | nil => exact (congrArg (List.map Item.token) h).trans rfl
  | cons t ts ih =>
    obtain ⟨l, rest, rfl, hrest⟩ := h
    rw [List.map_cons, ih hrest]

theorem ahead_load (h : Carries d ts is) (hts : ts ≠ []) : (p.load is).ahead = ts := by
  rw [← carries_tokens h] at hts ⊢
  cases is with
  | nil => exact absurd rfl hts
  | cons i is => rfl

theorem token_of_ahead (h : p.ahead = t :: ts) : p.token = t := (List.cons.inj h).1

theorem ahead_advance {t' : Token} (h : p.ahead = t :: t' :: ts) : p.advance.ahead = t' :: ts := by
  have hrest : p.rest.map Item.token = t' :: ts := (List.cons.inj h).2
  rw [ahead, rest_advance, token_advance]
  cases hitems : p.rest with
  | nil =>
    rw [hitems] at hrest
    cases hrest
  | cons item rest =>
    rw [hitems] at hrest
    exact hrest

/-- Reading goes on to later tokens, with `m` braces open, and the open scopes are as before. -/
def Idles (includer : Includer) (p : Parser) (is : List Item) (m : Nat) (ts : List Token) : Prop :=
  ∃ (q : Parser) (rest : List Item), Reaches includer (p.load is) (q.load rest) ∧
    q.Faces rest m ts ∧ q.standing = p.standing ∧ q.scopes = p.scopes

theorem Idles.refl (h : p.Faces is n ts) : Idles includer p is n ts :=
  ⟨p, is, .refl _, h, rfl, rfl⟩

theorem Idles.trans {m k : Nat} {us : List Token} (hone : Idles includer p is m ts)
    (htwo : ∀ (q : Parser) (rest : List Item), q.Faces rest m ts → q.standing = p.standing →
      Idles includer q rest k us) : Idles includer p is k us := by
  obtain ⟨q, rest, hreach, hq, hstanding, hscopes⟩ := hone
  obtain ⟨r, rest', hreach', hr, hstanding', hscopes'⟩ := htwo q rest hq hstanding
  exact ⟨r, rest', hreach.trans hreach', hr, hstanding'.trans hstanding, hscopes'.trans hscopes⟩

theorem depths_of_standing {q : Parser} (h : q.standing = p.standing) :
    q.snapshot.depths = p.snapshot.depths := congrArg Prod.snd h

/-- A turn that goes on to the next token. -/
theorem Idles.of_turn {m : Nat} {u : Token} (h : p.Faces is n (t :: u :: ts)) (ht : t ≠ .eof)
    (hm : (⟨n, 0, 0⟩ : Depths).after t = ⟨m, 0, 0⟩) (hle : n ≤ m)
    (hturn : ∀ (l l' : Nat) (d : Depths) (is : List Item), ∃ q : Parser,
      (p.load (⟨[], t, l, ⟨m, 0, 0⟩⟩ :: ⟨[], u, l', d⟩ :: is)).turn includer =
        q.load (⟨[], u, l', d⟩ :: is) ∧
      q.statement.colonSeen = false ∧ q.standing = p.standing ∧ q.scopes = p.scopes) :
    Idles includer p is m (u :: ts) := by
  obtain ⟨l, _, rfl, l', rest, rfl, hrest⟩ := h.carries
  rw [hm] at hrest ⊢
  obtain ⟨q, hq, hcolon, hstanding, hscopes⟩ := hturn l l' _ rest
  refine ⟨q, _, .of_turn ht hq (by simp) (by simp), ⟨⟨l', rest, rfl, hrest⟩, hcolon, ?_⟩, hstanding,
    hscopes⟩
  rw [depths_of_standing hstanding]
  exact Nat.le_trans h.opened hle

/-- A word that no parenthesis follows. -/
theorem idles_word {word : String} {u : Token} (hu : u ≠ .opening .paren)
    (h : p.Faces is n (.ident word :: u :: ts)) : Idles includer p is n (u :: ts) := by
  refine .of_turn h (by simp) rfl (Nat.le_refl _) fun l l' d is ↦ ?_
  by_cases hqualifier : u = .colonColon ∧ p.statement.trailingReturn = false
  · refine ⟨{ p with
      statement := { p.statement with qualifier := p.statement.qualifier ++ word },
      remarksExpected := false }, ?_, h.colonSeen, rfl, rfl⟩
    simp [turn, load, onIdent, advance, h.colonSeen, hqualifier]
  · refine ⟨p.clearQualifier.expectRemarks false, ?_, h.colonSeen, rfl, rfl⟩
    have hcond : (decide (u = .colonColon) && !p.statement.trailingReturn) = false := by
      simpa using hqualifier
    simp [turn, load, onIdent, advance, h.colonSeen, hu, hcond, clearQualifier, expectRemarks]

/-- A separator outside of declarations. -/
theorem idles_colonColon {u : Token} (hn : n ≠ p.snapshot.depths.length)
    (h : p.Faces is n (.colonColon :: u :: ts)) : Idles includer p is n (u :: ts) := by
  refine .of_turn h (by simp) rfl (Nat.le_refl _) fun l l' d is ↦ ?_
  by_cases hskip : p.statement.identSeen = true ∨ p.statement.trailingReturn = true
  · exact ⟨p, by simp [turn, load, onColonColon, advance, hskip], h.colonSeen, rfl, rfl⟩
  · refine ⟨{ p with
      statement := { p.statement with qualifier := p.statement.qualifier ++ "::" } }, ?_,
      h.colonSeen, rfl, rfl⟩
    simp [turn, load, onColonColon, advance, hskip, atDeclarationLevel, atNamespaceLevel, hn]

theorem exists_of_isColon (h : t.isColon = true) : ∃ a, t = .colon a := by
  cases t with
  | colon a => exact ⟨a, rfl⟩
  | _ => simp [Token.isColon] at h

/-- A colon or a comma of a list of base classes outside of declarations. -/
theorem idles_mark {u : Token} (ht : (∃ a, t = .colon a) ∨ t = .comma)
    (hn : n ≠ p.snapshot.depths.length) (h : p.Faces is n (t :: u :: ts)) :
    Idles includer p is n (u :: ts) := by
  refine .of_turn h (by rintro rfl; simp at ht) (by rcases ht with ⟨a, rfl⟩ | rfl <;> rfl)
    (Nat.le_refl _) fun l l' d is ↦ ?_
  refine ⟨p.expectRemarks true, ?_, h.colonSeen, rfl, rfl⟩
  rcases ht with ⟨a, rfl⟩ | rfl <;>
    simp [turn, load, onColonOrEquals, advance, expectRemarks, atDeclarationLevel,
      atNamespaceLevel, hn]

/-- A token that means nothing to scopes. -/
theorem idles_plain {u : Token} (ht : t = .angle ∨ t = .integer ∨ t = .null)
    (h : p.Faces is n (t :: u :: ts)) : Idles includer p is n (u :: ts) := by
  refine .of_turn h (by rintro rfl; simp at ht) (by rcases ht with rfl | rfl | rfl <;> rfl)
    (Nat.le_refl _) fun l l' d is ↦ ?_
  cases hreturn : p.statement.trailingReturn with
  | true =>
    refine ⟨p, ?_, h.colonSeen, rfl, rfl⟩
    rcases ht with rfl | rfl | rfl <;> simp [turn, load, advance, hreturn]
  | false =>
    refine ⟨p.clearProspective, ?_, h.colonSeen, rfl, rfl⟩
    rcases ht with rfl | rfl | rfl <;> simp [turn, load, advance, hreturn, clearProspective]

/-- Access specifiers are passed over, as many as there are. -/
theorem skipAccess_load {bs : List Token} (hbs : ∀ b ∈ bs, b.isBase = true)
    (his : Carries d (bs ++ .opening .brace :: ts) is) (i : Item) {fuel : Nat}
    (hfuel : bs.length < fuel) :
    ∃ (rest : List Item) (bs' : List Token), skipAccess fuel (p.load (i :: is)) =
        (p.expectRemarks true).load rest ∧ bs'.length ≤ bs.length ∧
      (∀ b ∈ bs', b.isBase = true) ∧ Carries d (bs' ++ .opening .brace :: ts) rest := by
  induction bs generalizing is i fuel with
  | nil =>
    obtain ⟨fuel, rfl⟩ := Nat.exists_eq_succ_of_ne_zero (Nat.ne_zero_of_lt hfuel)
    refine ⟨is, [], ?_, Nat.le_refl _, by simp, his⟩
    obtain ⟨l, rest, rfl, -⟩ := his
    simp [skipAccess, load, advance, expectRemarks, Token.isColon]
  | cons b bs ih =>
    obtain ⟨fuel, rfl⟩ := Nat.exists_eq_succ_of_ne_zero (Nat.ne_zero_of_lt hfuel)
    have hb := hbs b List.mem_cons_self
    by_cases haccess : b = .access
    · subst haccess
      obtain ⟨l, is', rfl, his'⟩ := his
      obtain ⟨rest, bs', hskip, hlength, hbs', hrest⟩ :=
        ih (fun b h ↦ hbs b (List.mem_cons_of_mem _ h)) his' ⟨[], .access, l, d⟩
          (Nat.lt_of_succ_lt_succ hfuel)
      refine ⟨rest, bs', ?_, Nat.le_succ_of_le hlength, hbs', hrest⟩
      rw [← hskip]
      simp [skipAccess, load, advance, Depths.after]
    · refine ⟨is, b :: bs, ?_, Nat.le_refl _, hbs, his⟩
      obtain ⟨l, rest, rfl, -⟩ := his
      have hcolon : b.isColon = false := by
        rw [Bool.eq_false_iff]
        intro hcolon
        obtain ⟨a, rfl⟩ := exists_of_isColon hcolon
        simp [Token.isBase] at hb
      simp [skipAccess, load, advance, expectRemarks, haccess, hcolon]

/-- The base classes of a class whose head is not read as one. -/
theorem idles_bases {bs : List Token} (hbs : ∀ b ∈ bs, b.isBase = true)
    (hn : n ≠ p.snapshot.depths.length) (h : p.Faces is n (bs ++ .opening .brace :: ts)) :
    Idles includer p is n (.opening .brace :: ts) := by
  induction hlength : bs.length using Nat.strongRecOn generalizing bs p is with
  | ind length ih =>
    cases bs with
    | nil => exact .refl h
    | cons b bs =>
      have hb := hbs b List.mem_cons_self
      have hmore : ∀ b ∈ bs, b.isBase = true := fun b h ↦ hbs b (List.mem_cons_of_mem _ h)
      obtain ⟨u, us, hus⟩ : ∃ u us, bs ++ .opening .brace :: ts = u :: us :=
        List.exists_cons_of_ne_nil (by simp)
      -- Each kind of token leads to a shorter list, which the induction covers.
      have hnext : Idles includer p is n (bs ++ .opening .brace :: ts) →
          Idles includer p is n (.opening .brace :: ts) := by
        refine fun hidles ↦ hidles.trans fun q rest hq hstanding ↦ ?_
        refine ih bs.length (by simp [← hlength]) hmore ?_ hq rfl
        rwa [depths_of_standing hstanding]
      have hparen : u ≠ .opening .paren := by
        rintro rfl
        cases bs with
        | nil => simp at hus
        | cons c cs =>
          obtain rfl : c = .opening .paren := by simpa using congrArg List.head? hus
          simpa [Token.isBase] using hmore _ List.mem_cons_self
      rw [List.cons_append, hus] at h
      rw [hus] at hnext
      cases b with
      | ident word => exact hnext (idles_word hparen h)
      | colonColon => exact hnext (idles_colonColon hn h)
      | comma => exact hnext (idles_mark (.inr rfl) hn h)
      | angle => exact hnext (idles_plain (.inl rfl) h)
      | integer => exact hnext (idles_plain (.inr (.inl rfl)) h)
      | null => exact hnext (idles_plain (.inr (.inr rfl)) h)
      | access =>
        obtain ⟨l, is', rfl, his'⟩ := h.carries
        rw [← hus] at his'
        have hfuel : bs.length < is'.length + 1 := by
          rw [carries_length his', List.length_append, List.length_cons]
          omega
        obtain ⟨rest, bs', hskip, hless, hbs', hrest⟩ :=
          skipAccess_load (p := p) hmore his' ⟨[], .access, l, ⟨n, 0, 0⟩⟩ hfuel
        have hreach : Reaches includer (p.load (⟨[], .access, l, ⟨n, 0, 0⟩⟩ :: is'))
            ((p.expectRemarks true).load rest) := by
          refine .of_turn (by simp) ?_ ?_ ?_
          · simp only [turn, load]
            exact hskip
          · rw [carries_length hrest, carries_length his']
            simpa using hless
          · rintro rfl
            cases bs' <;> simp [Carries] at hrest
        obtain ⟨q, rest', hreach', hq, hsame⟩ := ih bs'.length (by simp [← hlength]; omega)
          (p := p.expectRemarks true) hbs' hn ⟨hrest, h.colonSeen, h.opened⟩ rfl
        exact ⟨q, rest', hreach.trans hreach', hq, hsame⟩
      | _ => simp [Token.isBase] at hb

/-- A brace that is not read as one of a scope. -/
theorem idles_openingBrace {u : Token} (h : p.Faces is n (.opening .brace :: u :: ts)) :
    Idles includer p is (n + 1) (u :: ts) := by
  refine .of_turn h (by simp) rfl (Nat.le_succ n) fun l l' d is ↦ ?_
  let q : Parser := if n = p.snapshot.depths.length then p.promote else p
  have hq : q.standing = p.standing ∧ q.scopes = p.scopes := by
    unfold q promote
    split_ifs <;> exact ⟨rfl, rfl⟩
  refine ⟨({ q with statement := { p.statement with
    colonSeen := false, identSeen := false, trailingReturn := false } } : Parser).expectRemarks true,
    ?_, rfl, hq⟩
  unfold q promote
  by_cases hn : n = p.snapshot.depths.length <;> by_cases hprospective : p.prospective = "" <;>
    simp [turn, load, onOpeningBrace, promote, advance, expectRemarks, h.colonSeen, hn, hprospective]

/-- The word `class` where no declaration is read. -/
theorem idles_classWord {u : Token} (h : p.Faces is n (.classWord :: u :: ts))
    (hn : ((⟨n, 0, 0⟩ : Depths).after u).brace ≠ p.snapshot.depths.length) :
    Idles includer p is n (u :: ts) := by
  obtain ⟨l, _, rfl, l', rest, rfl, hrest⟩ := h.carries
  refine ⟨p, _, .of_turn (by simp) ?_ (by simp) (by simp), ⟨⟨l', rest, rfl, hrest⟩, h.colonSeen,
    h.opened⟩, rfl, rfl⟩
  have hlevel : (p.load (⟨[], u, l', (⟨n, 0, 0⟩ : Depths).after u⟩ :: rest)).atDeclarationLevel =
      false := by
    rw [atDeclarationLevel, atNamespaceLevel, Bool.and_eq_false_iff]
    exact .inl (decide_eq_false hn)
  change onClass _ = _
  rw [onClass]
  exact if_neg (Bool.eq_false_iff.1 hlevel)

/-- The end of a statement leaves the snapshot alone. -/
theorem endStatement_spec (p : Parser) (i : Item) (t : Token) (l : Nat) (d : Depths)
    (is : List Item) :
    ∃ q : Parser, (p.load (i :: ⟨[], t, l, d⟩ :: is)).endStatement = q.load (⟨[], t, l, d⟩ :: is) ∧
      q.statement.colonSeen = p.statement.colonSeen ∧ q.snapshot = p.snapshot ∧
      q.scopes = p.scopes := by
  let ended : Parser := { p with
    prospective := "", remarksExpected := true
    statement := { p.statement with qualifier := "", trailingReturn := false } }
  cases hremarks : p.remarks.isEmpty with
  | true =>
    refine ⟨ended, ?_, rfl, rfl, rfl⟩
    simp [ended, load, endStatement, clearQualifier, hremarks, advance, expectRemarks]
  | false =>
    refine ⟨{ ended.reportAt i.line .discardedMetaData "Discarding unconsumed meta data" with
      remarks := {} }, ?_, rfl, rfl, rfl⟩
    simp [ended, load, endStatement, clearQualifier, hremarks, advance, expectRemarks, report,
      reportAt]

theorem idles_semicolon (h : p.Faces is n (.semicolon :: ts)) (hts : ts ≠ []) :
    Idles includer p is n ts := by
  obtain ⟨u, ts, rfl⟩ := List.exists_cons_of_ne_nil hts
  refine .of_turn h (by simp) rfl (Nat.le_refl _) fun l l' d is ↦ ?_
  obtain ⟨q, hq, hcolon, hsnapshot, hscopes⟩ :=
    p.endStatement_spec ⟨[], .semicolon, l, ⟨n, 0, 0⟩⟩ u l' d is
  exact ⟨q, hq, hcolon.trans h.colonSeen, by rw [standing, hsnapshot]; rfl, hscopes⟩

/-- The open scopes after a brace that leads back to depth `n`. -/
def left (s : Name × List Nat) (n : Nat) : Name × List Nat :=
  match s.2.getLast? with
  | some length => if n + 1 = s.2.length then (s.1.take length, s.2.dropLast) else s
  | none => s

theorem standing_closeBrace (p : Parser) :
    p.closeBrace.standing = left p.standing p.depths.brace := by
  unfold closeBrace standing left setSnapshot Snapshot.leave Snapshot.endBody
  dsimp only
  cases p.snapshot.depths.getLast? <;> dsimp only <;> split_ifs <;> rfl

theorem length_left {s : Name × List Nat} (h : s.2.length ≤ n + 1) : (left s n).2.length ≤ n := by
  unfold left
  cases hlast : s.2.getLast? with
  | none =>
    rw [List.getLast?_eq_none_iff] at hlast
    simp [hlast]
  | some length =>
    dsimp only
    split_ifs with hlevel
    · simp
      omega
    · omega

theorem reaches_closingBrace (h : p.Faces is (n + 1) (.closing .brace :: ts)) (hts : ts ≠ []) :
    ∃ (q : Parser) (rest : List Item), Reaches includer (p.load is) (q.load rest) ∧
      q.Faces rest n ts ∧ q.standing = left p.standing n := by
  obtain ⟨u, ts, rfl⟩ := List.exists_cons_of_ne_nil hts
  obtain ⟨l, _, rfl, l', rest, rfl, hrest⟩ := h.carries
  let i : Item := ⟨[], .closing .brace, l, ⟨n, 0, 0⟩⟩
  let closed : Parser := p.setSnapshot ((p.snapshot.leave n).endBody n p.inPlace)
  obtain ⟨q, hq, hcolon, hsnapshot, -⟩ := closed.endStatement_spec i u l' _ rest
  have hturn : (p.load (i :: ⟨[], u, l', (⟨n, 0, 0⟩ : Depths).after u⟩ :: rest)).turn includer =
      q.load (⟨[], u, l', (⟨n, 0, 0⟩ : Depths).after u⟩ :: rest) := by
    rw [← hq]
    simp [turn, load, i, closed, h.colonSeen, closeBrace, setSnapshot]
  have hstanding : q.standing = left p.standing n := by
    rw [standing, hsnapshot]
    exact standing_closeBrace (p.load [i])
  refine ⟨q, _, .of_turn (by simp) hturn (by simp) (by simp),
    ⟨⟨l', rest, rfl, hrest⟩, hcolon.trans h.colonSeen, ?_⟩, hstanding⟩
  rw [show q.snapshot.depths = (left p.standing n).2 from congrArg Prod.snd hstanding]
  exact length_left h.opened

/-! ### Heads -/

/-- The open scopes after a head that is read with `n` braces open. The head of a class counts at
namespace level only. -/
def opens (p : Parser) (n : Nat) (head : Head) : Name × List Nat :=
  if head.isClass = true ∧ n ≠ p.snapshot.depths.length then p.standing
  else
    match head.entered? p with
    | some path => (path, p.snapshot.depths ++ [p.snapshot.namespaces.length])
    | none => p.standing

theorem opens_of_some {head : Head} {path : Name} (hentered : head.entered? p = some path)
    (hlevel : head.isClass = true → n = p.snapshot.depths.length) :
    p.opens n head = (path, p.snapshot.depths ++ [p.snapshot.namespaces.length]) := by
  rw [opens, if_neg fun hskip ↦ hskip.2 (hlevel hskip.1), hentered]

theorem opens_of_none {head : Head} (hentered : head.entered? p = none) :
    p.opens n head = p.standing := by
  rw [opens, hentered]
  split_ifs <;> rfl

/-- Reading leads past a head. -/
def Heads (includer : Includer) (p : Parser) (is : List Item) (n : Nat) (head : Head)
    (ts : List Token) : Prop :=
  ∃ (q : Parser) (rest : List Item), Reaches includer (p.load is) (q.load rest) ∧
    q.Faces rest (n + 1) ts ∧ q.standing = p.opens n head

/-- A head that is not read as one. -/
theorem Idles.heads {head : Head} (h : Idles includer p is (n + 1) ts)
    (hopens : p.opens n head = p.standing) : Heads includer p is n head ts := by
  obtain ⟨q, rest, hreach, hq, hstanding, -⟩ := h
  exact ⟨q, rest, hreach, hq, hstanding.trans hopens.symm⟩

/-- A head that is read in one turn and enters a scope. -/
theorem heads_of_turn {q : Parser} {head : Head} {path : Name} {i : Item} {rest : List Item}
    {us : List Token} {u : Token} (h : p.Faces (i :: is) n us) (htoken : i.token ≠ .eof)
    (hlevel : head.isClass = true → n = p.snapshot.depths.length)
    (hentered : head.entered? p = some path)
    (hturn : (p.load (i :: is)).turn includer = q.load rest) (hless : rest.length ≤ is.length)
    (hcarries : Carries ⟨n + 1, 0, 0⟩ (u :: ts) rest) (hstatement : q.statement = p.statement)
    (hstanding : q.standing = (path, p.snapshot.depths ++ [p.snapshot.namespaces.length])) :
    Heads includer p (i :: is) n head (u :: ts) := by
  have hopens := opens_of_some hentered hlevel
  have hdepths : q.snapshot.depths = p.snapshot.depths ++ [p.snapshot.namespaces.length] :=
    congrArg Prod.snd hstanding
  refine ⟨q, rest, .of_turn htoken hturn hless ?_, ⟨hcarries, ?_, ?_⟩, hstanding.trans hopens.symm⟩
  · rintro rfl
    obtain ⟨_, _, hnil, -⟩ := hcarries
    cases hnil
  · rw [hstatement]
    exact h.colonSeen
  · rw [hdepths, List.length_append]
    exact Nat.succ_le_succ h.opened

theorem standing_foldl_enter (p : Parser) (names : List String) :
    (names.foldl enter p).standing =
        (⟨p.snapshot.namespaces.segments ++ names⟩, p.snapshot.depths) ∧
      (names.foldl enter p).statement = p.statement := by
  induction names generalizing p with
  | nil => simp [standing]
  | cons name names ih =>
    obtain ⟨hstanding, hstatement⟩ := ih (p.enter name)
    refine ⟨hstanding.trans ?_, hstatement⟩
    simp [enter, setForest, setSnapshot, Name.push]

theorem opensBody_standing (p : Parser) (names : List String) :
    (p.opensBody names).standing = (⟨p.snapshot.namespaces.segments ++ names⟩,
        p.snapshot.depths ++ [p.snapshot.namespaces.length]) ∧
      (p.opensBody names).statement = p.statement :=
  standing_foldl_enter p.pushDepth names

theorem heads_namespaces (first : Identifier) (more : List Identifier) {u : Token}
    (h : p.Faces is n ((Head.namespaces first more).tokens ++ u :: ts)) :
    Heads includer p is n (.namespaces first more) (u :: ts) := by
  have hcarries := h.carries
  simp only [Head.tokens, List.cons_append, List.append_assoc, List.nil_append] at hcarries
  obtain ⟨l₀, _, rfl, l₁, is, rfl, his⟩ := hcarries
  have hfuel : more.length < (p.load (⟨[], .ident first.word, l₁, ⟨n, 0, 0⟩⟩ :: is)).budget := by
    have hlength := carries_length his
    have hfurther := length_furtherNames more
    simp only [List.length_append, List.length_cons] at hlength
    simp only [budget, load]
    omega
  have hpath := @namespacePath_load p (u :: ts) is _ [] first.word more l₁ _ his hfuel
  obtain ⟨l', _, hpath, l'', rest, rfl, hrest⟩ := hpath
  obtain ⟨hstanding, hstatement⟩ := p.opensBody_standing ((first :: more).map Identifier.word)
  have hless := carries_length his
  have hless' := carries_length hrest
  refine heads_of_turn h (by simp) (by simp [Head.isClass]) rfl
    ((namespaceHead_of_path (advance_load _ _ _ _ _ _) rfl hpath rfl).trans
      (opensBody_load _ _ _ _ _ _ _)) ?_ ⟨l'', rest, rfl, hrest⟩ hstatement hstanding
  simp only [List.length_append, List.length_cons] at hless hless' ⊢
  omega

theorem heads_unnamedNamespace {u : Token}
    (h : p.Faces is n (Head.unnamedNamespace.tokens ++ u :: ts)) :
    Heads includer p is n .unnamedNamespace (u :: ts) := by
  obtain ⟨l₀, _, rfl, l₁, _, rfl, l₂, rest, rfl, hrest⟩ := h.carries
  have hturn : (p.load (⟨[], .namespaceWord, l₀, ⟨n, 0, 0⟩⟩ ::
      ⟨[], .opening .brace, l₁, ⟨n + 1, 0, 0⟩⟩ ::
      ⟨[], u, l₂, (⟨n + 1, 0, 0⟩ : Depths).after u⟩ :: rest)).turn includer =
        (p.pushDepth.expectRemarks true).load
          (⟨[], u, l₂, (⟨n + 1, 0, 0⟩ : Depths).after u⟩ :: rest) := rfl
  exact heads_of_turn h (by simp) (by simp [Head.isClass]) rfl hturn (by simp)
    ⟨l₂, rest, rfl, hrest⟩ rfl rfl

/-- A class without a name is not read as a scope. -/
theorem heads_unnamedClass {u : Token} (h : p.Faces is n (Head.unnamedClass.tokens ++ u :: ts)) :
    Heads includer p is n .unnamedClass (u :: ts) := by
  have hlevel : ((⟨n, 0, 0⟩ : Depths).after (.opening .brace)).brace ≠
      p.snapshot.depths.length := by
    have hopened := h.opened
    simp only [Depths.after, Depths.set, Depths.get]
    omega
  exact ((idles_classWord h hlevel).trans fun q rest hq _ ↦ idles_openingBrace hq).heads
    (opens_of_none rfl)

/-- The next token is the next one of those that are carried. -/
theorem advance_carries (p : Parser) (i : Item) (his : Carries d ts is) (hts : ts ≠ []) :
    (p.load (i :: is)).advance = p.load is := by
  obtain ⟨t, ts, rfl⟩ := List.exists_cons_of_ne_nil hts
  obtain ⟨l, rest, rfl, -⟩ := his
  rfl

/-- The name of a class is read up to what follows it. -/
theorem classNameFrom_load {more : List Identifier} {fuel : Nat} (name : String)
    (qualifier : List String) (ht : t ≠ .colonColon) (hword : t.ident? = none)
    (his : Carries d (Outline.furtherNames more ++ t :: ts) is) (hfuel : more.length < fuel) :
    ∃ l' rest, classNameFrom fuel name qualifier (p.load is) =
        (((name :: more.map Identifier.word).getLastD "",
          qualifier ++ (name :: more.map Identifier.word).dropLast),
          p.load (⟨[], t, l', d.after t⟩ :: rest)) ∧
      Carries (d.after t) ts rest := by
  induction more generalizing name qualifier is fuel with
  | nil =>
    obtain ⟨l', rest, rfl, hrest⟩ := his
    obtain ⟨fuel, rfl⟩ := Nat.exists_eq_succ_of_ne_zero (Nat.ne_zero_of_lt hfuel)
    refine ⟨l', rest, ?_, hrest⟩
    cases t with
    | colonColon => exact absurd rfl ht
    | ident word => cases hword
    | _ => simp [classNameFrom, load]
  | cons next more ih =>
    obtain ⟨l₁, rest, rfl, l₂, rest, rfl, hrest⟩ := his
    obtain ⟨fuel, rfl⟩ := Nat.exists_eq_succ_of_ne_zero (Nat.ne_zero_of_lt hfuel)
    obtain ⟨l', left, hname, hleft⟩ :=
      ih next.word (qualifier ++ [name]) hrest (Nat.lt_of_succ_lt_succ hfuel)
    refine ⟨l', left, ?_, hleft⟩
    have hstep : classNameFrom (fuel + 1) name qualifier
        (p.load (⟨[], .colonColon, l₁, d⟩ :: ⟨[], .ident next.word, l₂, d⟩ :: rest)) =
          classNameFrom fuel next.word (qualifier ++ [name])
            (p.load (⟨[], .ident next.word, l₂, d⟩ :: rest)).advance := rfl
    rw [advance_carries p _ hrest (by simp)] at hstep
    refine (hstep.trans hname).trans ?_
    simp only [List.map_cons, List.getLastD_cons, List.dropLast_cons_cons, List.append_assoc,
      List.singleton_append]

/-- The base classes of a class are read up to its body. -/
theorem basesFrom_load {bs : List Token} (hbs : ∀ b ∈ bs, b.isBase = true) (i : Item)
    {collecting : Bool} {current : String} {bases : List String} {fuel : Nat}
    (his : Carries d (bs ++ .opening .brace :: ts) is) (hfuel : bs.length < fuel) :
    ∃ all l' rest, basesFrom fuel collecting current bases (p.load (i :: is)) =
        (.body, all, p.load (⟨[], .opening .brace, l', d.after (.opening .brace)⟩ :: rest)) ∧
      Carries (d.after (.opening .brace)) ts rest := by
  induction bs generalizing i collecting current bases is fuel with
  | nil =>
    obtain ⟨l', rest, rfl, hrest⟩ := his
    obtain ⟨fuel, rfl⟩ := Nat.exists_eq_succ_of_ne_zero (Nat.ne_zero_of_lt hfuel)
    exact ⟨_, l', rest, rfl, hrest⟩
  | cons b bs ih =>
    obtain ⟨fuel, rfl⟩ := Nat.exists_eq_succ_of_ne_zero (Nat.ne_zero_of_lt hfuel)
    have hb := hbs b List.mem_cons_self
    obtain ⟨l, rest, rfl, hrest⟩ := his
    -- One token is taken in some way, and the rest of them is as before.
    obtain ⟨hafter, c, word, names, hstep⟩ : d.after b = d ∧ ∃ c word names,
        basesFrom (fuel + 1) collecting current bases
            (p.load (i :: ⟨[], b, l, d.after b⟩ :: rest)) =
          basesFrom fuel c word names (p.load (⟨[], b, l, d.after b⟩ :: rest)) := by
      cases b with
      | comma => cases collecting <;> exact ⟨rfl, _, _, _, rfl⟩
      | ident word | colonColon | angle | access | integer | null => exact ⟨rfl, _, _, _, rfl⟩
      | _ => simp [Token.isBase] at hb
    rw [hafter] at hrest hstep ⊢
    rw [hstep]
    exact ih (fun b h ↦ hbs b (List.mem_cons_of_mem _ h)) _ hrest (Nat.lt_of_succ_lt_succ hfuel)

/-- A parser in the scope of a class that is defined in the scope `enclosing`. -/
def inClass (p : Parser) (enclosing : Name) (name : String) : Parser :=
  let pushed := p.pushDepth
  (pushed.setSnapshot { pushed.snapshot with namespaces := enclosing }).enter name

theorem inClass_spec (p : Parser) (enclosing : Name) (name : String) :
    (p.inClass enclosing name).statement = p.statement ∧
      (p.inClass enclosing name).standing =
        (enclosing.push name, p.snapshot.depths ++ [p.snapshot.namespaces.length]) :=
  ⟨rfl, rfl⟩

theorem modifyOpenScope_spec (p : Parser) (change : Scope → Scope) :
    (p.modifyOpenScope change).statement = p.statement ∧
      (p.modifyOpenScope change).standing = p.standing :=
  ⟨rfl, rfl⟩

theorem begun_spec (p : Parser) : p.begun.statement = p.statement ∧ p.begun.standing = p.standing :=
  ⟨rfl, rfl⟩

/-- Entering a class opens its scope, whatever its base classes are. -/
theorem enterClass_load (p : Parser) (enclosing : Name) (name : String) (bases : List String)
    (i : Item) (t : Token) (l : Nat) (d : Depths) (is : List Item) :
    ∃ q : Parser, (p.load (i :: ⟨[], t, l, d⟩ :: is)).enterClass enclosing name bases =
        q.load (⟨[], t, l, d⟩ :: is) ∧
      q.statement = p.statement ∧
      q.standing = (enclosing.push name,
        p.snapshot.depths ++ [p.snapshot.namespaces.length]) := by
  rcases hbases : resolveBases p.forest p.tree enclosing bases with ⟨known, forest⟩
  let entered : Parser := (p.setForest forest).inClass enclosing name
  have hentered : entered.statement = p.statement ∧ entered.standing = _ :=
    (p.setForest forest).inClass_spec enclosing name
  have hclass : (p.load (i :: ⟨[], t, l, d⟩ :: is)).enterClass enclosing name bases =
      (if known.isEmpty then entered
        else entered.modifyOpenScope fun s ↦ { s with bases := known }).begun.load
          (⟨[], t, l, d⟩ :: is) := by
    have hloaded : resolveBases (p.load (i :: ⟨[], t, l, d⟩ :: is)).forest
        (p.load (i :: ⟨[], t, l, d⟩ :: is)).tree enclosing bases = (known, forest) := hbases
    rw [enterClass, hloaded]
    cases hempty : known.isEmpty with
    | true => simp only [hempty, if_true]; rfl
    | false => simp only [hempty, Bool.false_eq_true, if_false]; rfl
  refine ⟨_, hclass, ?_⟩
  rw [(begun_spec _).1, (begun_spec _).2]
  split_ifs
  · exact hentered
  · rw [(modifyOpenScope_spec _ _).1, (modifyOpenScope_spec _ _).2]
    exact hentered

/-- What follows the head of a class at its brace. -/
theorem defineClass_load (p : Parser) (first : Identifier) (more : List Identifier)
    (bases : Bases) (known : List String) (i : Item) (t : Token) (l : Nat) (d : Depths)
    (is : List Item) :
    let begun := (p.load (i :: ⟨[], t, l, d⟩ :: is)).defineClass
      (((first :: more).map Identifier.word).getLastD "")
      ((first :: more).map Identifier.word).dropLast known
    match (Head.classes first more bases).entered? p with
    | some path => ∃ q : Parser, begun = q.load (⟨[], t, l, d⟩ :: is) ∧
        q.statement = p.statement ∧
        q.standing = (path, p.snapshot.depths ++ [p.snapshot.namespaces.length])
    | none => ∃ q : Parser, begun = q.load (i :: ⟨[], t, l, d⟩ :: is) ∧
        q.statement = p.statement ∧ q.standing = p.standing := by
  cases more with
  | nil => exact p.enterClass_load _ _ _ _ _ _ _ _
  | cons second more =>
    simp only [Head.entered?, Head.enters?, reduceCtorEq, if_false]
    rcases hqualify : p.forest.qualify p.tree p.snapshot.namespaces p.snapshot.namespaces.length
      ((first :: second :: more).map Identifier.word).dropLast true with ⟨outcome, forest⟩
    have hloaded : (p.load (i :: ⟨[], t, l, d⟩ :: is)).forest.qualify
        (p.load (i :: ⟨[], t, l, d⟩ :: is)).tree
        (p.load (i :: ⟨[], t, l, d⟩ :: is)).snapshot.namespaces
        (p.load (i :: ⟨[], t, l, d⟩ :: is)).snapshot.namespaces.length
        ((first :: second :: more).map Identifier.word).dropLast true = (outcome, forest) :=
      hqualify
    rw [defineClass, hloaded]
    cases outcome with
    | ok enclosing => exact (p.setForest forest).enterClass_load _ _ _ _ _ _ _ _
    | error part =>
      exact ⟨(p.setForest forest).reportAt i.line .undeclaredQualifiedClass
        "Ignoring definition of undeclared qualified class", rfl, rfl, rfl⟩

theorem classHead_of_brace {p q : Parser} {word name : String} {qualifier : List String}
    (htoken : p.token = .ident word)
    (hname : classNameFrom p.budget word [] p.advance = ((name, qualifier), q))
    (hbrace : q.token = .opening .brace) : p.classHead = q.defineClass name qualifier [] := by
  simp [classHead, htoken, hname, hbrace, Token.isColon]

theorem classHead_of_bases {p q r : Parser} {word name : String} {qualifier known : List String}
    (htoken : p.token = .ident word)
    (hname : classNameFrom p.budget word [] p.advance = ((name, qualifier), q))
    (hbegins : q.token.isColon = true ∨ q.token = .angle)
    (hbases : basesFrom q.budget q.token.isColon "" [] q = (.body, known, r)) :
    p.classHead = r.defineClass name qualifier known := by
  have hcond : (q.token.isColon || decide (q.token = .angle)) = true := by simpa using hbegins
  simp only [classHead, htoken, hname, hcond, if_true, hbases]

/-- The head of a class is read up to its brace. -/
theorem classHead_carries (p : Parser) (first : Identifier) (more : List Identifier) (bases : Bases)
    (l : Nat)
    (his : Carries ⟨n, 0, 0⟩ (Outline.furtherNames more ++ (bases.tokens ++ .opening .brace :: ts))
      is) :
    ∃ known l' rest, (p.load (⟨[], .ident first.word, l, ⟨n, 0, 0⟩⟩ :: is)).classHead =
        (p.load (⟨[], .opening .brace, l', ⟨n + 1, 0, 0⟩⟩ :: rest)).defineClass
          (((first :: more).map Identifier.word).getLastD "")
          ((first :: more).map Identifier.word).dropLast known ∧
      Carries ⟨n + 1, 0, 0⟩ ts rest := by
  have hadvance : (p.load (⟨[], .ident first.word, l, ⟨n, 0, 0⟩⟩ :: is)).advance = p.load is :=
    advance_carries p _ his (by simp)
  have hfuel : more.length < (p.load (⟨[], .ident first.word, l, ⟨n, 0, 0⟩⟩ :: is)).budget := by
    have hlength := carries_length his
    have hfurther := length_furtherNames more
    simp only [List.length_append, List.length_cons] at hlength
    simp only [budget, load]
    omega
  cases bases with
  | none =>
    obtain ⟨l', rest, hname, hrest⟩ :=
      classNameFrom_load (p := p) first.word [] (by simp) rfl his hfuel
    rw [← hadvance] at hname
    exact ⟨[], l', rest, classHead_of_brace rfl hname rfl, hrest⟩
  | list begins others hbegins hothers =>
    have hplain : begins ≠ .colonColon ∧ begins.ident? = none ∧
        (⟨n, 0, 0⟩ : Depths).after begins = ⟨n, 0, 0⟩ := by
      rcases hbegins with hcolon | rfl
      · obtain ⟨a, rfl⟩ := exists_of_isColon hcolon
        exact ⟨by simp, rfl, rfl⟩
      · exact ⟨by simp, rfl, rfl⟩
    obtain ⟨l', rest, hname, hrest⟩ :=
      classNameFrom_load (p := p) first.word [] hplain.1 hplain.2.1 his hfuel
    rw [← hadvance] at hname
    rw [hplain.2.2] at hrest
    obtain ⟨known, l'', rest', hbases, hrest'⟩ := basesFrom_load (p := p) hothers
      ⟨[], begins, l', (⟨n, 0, 0⟩ : Depths).after begins⟩ hrest
      (show others.length < rest.length + 1 by
        rw [carries_length hrest]
        simp only [List.append_eq, List.length_append, List.length_cons]
        omega)
    exact ⟨known, l'', rest', classHead_of_bases rfl hname hbegins hbases, hrest'⟩

/-- The names of a head that is not read as one. -/
theorem idles_names (first : Identifier) (more : List Identifier) {u : Token}
    (hu : u ≠ .opening .paren) (hn : n ≠ p.snapshot.depths.length)
    (h : p.Faces is n (.ident first.word :: (Outline.furtherNames more ++ u :: ts))) :
    Idles includer p is n (u :: ts) := by
  induction more generalizing p is first with
  | nil => exact idles_word hu h
  | cons next more ih =>
    have hword : Idles includer p is n (.colonColon :: .ident next.word ::
        (Outline.furtherNames more ++ u :: ts)) := idles_word (by simp) h
    refine hword.trans fun q rest hq hstanding ↦ ?_
    rw [← depths_of_standing hstanding] at hn
    refine (idles_colonColon hn hq).trans fun r rest hr hstanding ↦ ?_
    rw [← depths_of_standing hstanding] at hn
    exact ih next hn hr

/-- The head of a class that is not read as one. -/
theorem idles_classHead (first : Identifier) (more : List Identifier) (bases : Bases) {u : Token}
    (hn : n ≠ p.snapshot.depths.length)
    (h : p.Faces is n ((Head.classes first more bases).tokens ++ u :: ts)) :
    Idles includer p is (n + 1) (u :: ts) := by
  simp only [Head.tokens, List.cons_append, List.append_assoc, List.nil_append] at h
  refine (idles_classWord h hn).trans fun q rest hq hstanding ↦ ?_
  rw [← depths_of_standing hstanding] at hn
  have hbrace : Idles includer q rest n (.opening .brace :: u :: ts) := by
    cases bases with
    | none => exact idles_names first more (by simp) hn hq
    | list begins others hbegins hothers =>
      have hparen : begins ≠ .opening .paren := by
        rintro rfl
        simp [Token.isColon] at hbegins
      refine (idles_names first more hparen hn hq).trans fun r rest hr hstanding ↦ ?_
      rw [← depths_of_standing hstanding] at hn
      obtain ⟨v, vs, hvs⟩ : ∃ v vs, others ++ .opening .brace :: u :: ts = v :: vs :=
        List.exists_cons_of_ne_nil (by simp)
      have hnext : Idles includer r rest n (others ++ .opening .brace :: u :: ts) := by
        change r.Faces rest n (begins :: (others ++ .opening .brace :: u :: ts)) at hr
        rw [hvs] at hr ⊢
        rcases hbegins with hcolon | rfl
        · exact idles_mark (.inl (exists_of_isColon hcolon)) hn hr
        · exact idles_plain (.inl rfl) hr
      refine hnext.trans fun v rest hv hstanding ↦ ?_
      rw [← depths_of_standing hstanding] at hn
      exact idles_bases hothers hn hv
  exact hbrace.trans fun r rest hr _ ↦ idles_openingBrace hr

theorem heads_classes (first : Identifier) (more : List Identifier) (bases : Bases) {u : Token}
    (h : p.Faces is n ((Head.classes first more bases).tokens ++ u :: ts)) :
    Heads includer p is n (.classes first more bases) (u :: ts) := by
  by_cases hn : n = p.snapshot.depths.length
  · have hcarries := h.carries
    simp only [Head.tokens, List.cons_append, List.append_assoc, List.nil_append] at hcarries
    obtain ⟨l₀, _, rfl, l₁, is, rfl, his⟩ := hcarries
    obtain ⟨known, l₂, _, hhead, l₃, rest, rfl, hrest⟩ :=
      p.classHead_carries first more bases l₁ his
    have hlevel : (p.load (⟨[], .ident first.word, l₁, ⟨n, 0, 0⟩⟩ :: is)).atDeclarationLevel =
        true := by
      simp [atDeclarationLevel, atNamespaceLevel, load, hn]
    have hturn : (p.load (⟨[], .classWord, l₀, ⟨n, 0, 0⟩⟩ ::
        ⟨[], .ident first.word, l₁, ⟨n, 0, 0⟩⟩ :: is)).turn includer =
          (p.load (⟨[], .ident first.word, l₁, ⟨n, 0, 0⟩⟩ :: is)).classHead := by
      change onClass _ = _
      rw [onClass, advance_load]
      exact if_pos hlevel
    have hlength := carries_length his
    have hlength' := carries_length hrest
    simp only [List.length_append, List.length_cons] at hlength
    have hdefine := p.defineClass_load first more bases known
      ⟨[], .opening .brace, l₂, ⟨n + 1, 0, 0⟩⟩ u l₃ ((⟨n + 1, 0, 0⟩ : Depths).after u) rest
    rw [← hhead, ← hturn] at hdefine
    cases hentered : (Head.classes first more bases).entered? p with
    | some path =>
      rw [hentered] at hdefine
      obtain ⟨q, hq, hstatement, hstanding⟩ := hdefine
      refine heads_of_turn h (by simp) (fun _ ↦ hn) hentered hq ?_ ⟨l₃, rest, rfl, hrest⟩ hstatement
        hstanding
      simp only [List.length_cons]
      omega
    | none =>
      -- The head is given up at its brace, which is then read as that of a block.
      rw [hentered] at hdefine
      obtain ⟨q, hq, hstatement, hstanding⟩ := hdefine
      have hbrace : q.Faces (⟨[], .opening .brace, l₂, ⟨n + 1, 0, 0⟩⟩ ::
          ⟨[], u, l₃, (⟨n + 1, 0, 0⟩ : Depths).after u⟩ :: rest) n (.opening .brace :: u :: ts) :=
        ⟨⟨l₂, _, rfl, l₃, rest, rfl, hrest⟩, by rw [hstatement]; exact h.colonSeen,
          by rw [depths_of_standing hstanding]; exact h.opened⟩
      obtain ⟨r, rest', hreach, hr, hsame, -⟩ : Idles includer q _ (n + 1) (u :: ts) :=
        idles_openingBrace hbrace
      refine ⟨r, rest', .trans (.of_turn (by simp) hq ?_ (by simp)) hreach, hr,
        (hsame.trans hstanding).trans (opens_of_none hentered).symm⟩
      simp only [List.length_cons]
      omega
  · refine (idles_classHead first more bases hn h).heads ?_
    rw [opens, if_pos ⟨rfl, hn⟩]

/-- Every head is read past its brace. -/
theorem heads_head (head : Head) (h : p.Faces is n (head.tokens ++ ts)) (hts : ts ≠ []) :
    Heads includer p is n head ts := by
  obtain ⟨u, ts, rfl⟩ := List.exists_cons_of_ne_nil hts
  cases head with
  | namespaces first more => exact heads_namespaces first more h
  | unnamedNamespace => exact heads_unnamedNamespace h
  | classes first more bases => exact heads_classes first more bases h
  | unnamedClass => exact heads_unnamedClass h

/-! ### Directives -/

/-- The names of a target are read up to what follows them. -/
theorem writtenFrom_load (first : Identifier) (more : List Identifier) (name : Name) {fuel : Nat}
    (his : Carries d (.ident first.word :: (Outline.furtherNames more ++ .semicolon :: ts)) is)
    (hfuel : 2 * more.length + 1 < fuel) :
    ∃ l rest, writtenFrom fuel name (p.load is) =
        (⟨name.segments ++ (first :: more).map Identifier.word⟩,
          p.load (⟨[], .semicolon, l, d⟩ :: rest)) ∧ Carries d ts rest := by
  induction more generalizing first name is fuel with
  | nil =>
    obtain ⟨fuel, rfl⟩ : ∃ m, fuel = m + 2 := ⟨fuel - 2, by omega⟩
    obtain ⟨l₀, _, rfl, l, rest, rfl, hrest⟩ := his
    exact ⟨l, rest, rfl, hrest⟩
  | cons next more ih =>
    obtain ⟨fuel, rfl⟩ : ∃ m, fuel = m + 2 := ⟨fuel - 2, by omega⟩
    obtain ⟨l₀, _, rfl, l₁, rest, rfl, hrest⟩ := his
    have hless : 2 * more.length + 1 < fuel := by
      simp only [List.length_cons] at hfuel
      omega
    obtain ⟨l, left, hname, hleft⟩ := ih next (name.push first.word) hrest hless
    refine ⟨l, left, ?_, hleft⟩
    have hstep : writtenFrom (fuel + 2) name (p.load (⟨[], .ident first.word, l₀, d⟩ ::
        ⟨[], .colonColon, l₁, d⟩ :: rest)) = writtenFrom fuel (name.push first.word)
          (p.load (⟨[], .colonColon, l₁, d⟩ :: rest)).advance := rfl
    rw [advance_carries p _ hrest (by simp)] at hstep
    refine (hstep.trans hname).trans ?_
    simp [Name.push]

/-- A target is read up to what follows it. -/
theorem written_load (p : Parser) (target : Target)
    (his : Carries d (target.tokens ++ .semicolon :: ts) is) :
    ∃ l rest, (p.load is).written = (target.name, p.load (⟨[], .semicolon, l, d⟩ :: rest)) ∧
      Carries d ts rest := by
  have hlength := carries_length his
  have hfurther := length_furtherNames target.more
  simp only [Target.tokens, Target.name] at his hlength ⊢
  cases hglobal : target.global with
  | false =>
    simp only [hglobal, Bool.false_eq_true, if_false, List.nil_append, List.cons_append] at his hlength ⊢
    have hwritten : (p.load is).written =
        writtenFrom (p.load is).budget Name.empty (p.load is) := by
      obtain ⟨l, rest, rfl, -⟩ := his
      rfl
    have hfuel : 2 * target.more.length + 1 < (p.load is).budget := by
      obtain ⟨l, rest, rfl, -⟩ := his
      simp only [List.length_append, List.length_cons] at hlength
      simp only [budget, load]
      omega
    rw [hwritten]
    exact writtenFrom_load target.first target.more Name.empty his hfuel
  | true =>
    simp only [hglobal, if_true, List.cons_append, List.nil_append] at his hlength ⊢
    obtain ⟨l, rest, rfl, hrest⟩ := his
    have hwritten : (p.load (⟨[], .colonColon, l, d⟩ :: rest)).written =
        writtenFrom rest.length Name.root (p.load rest) := by
      rw [← advance_carries p ⟨[], .colonColon, l, d⟩ hrest (by simp)]
      rfl
    rw [show d.after .colonColon = d from rfl, hwritten]
    refine writtenFrom_load target.first target.more Name.root hrest ?_
    simp only [List.length_append, List.length_cons] at hlength
    omega

/-- Reading leads past a directive, which makes the forest `f`. -/
def Obeys (includer : Includer) (p : Parser) (is : List Item) (f : Forest) (n : Nat)
    (ts : List Token) : Prop :=
  ∃ (r : Parser) (rest : List Item), Reaches includer (p.load is) (r.load rest) ∧
    r.Faces rest n ts ∧ r.standing = p.standing ∧ r.scopes = (f, p.tree)

/-- A directive that is read in one turn up to its semicolon. -/
theorem obeys_of_turn {f : Forest} {i : Item} {rest : List Item} {us : List Token} (l : Nat)
    (h : p.Faces (i :: is) n us) (htoken : i.token ≠ .eof)
    (hturn : (p.load (i :: is)).turn includer =
      (p.setForest f).load (⟨[], .semicolon, l, ⟨n, 0, 0⟩⟩ :: rest))
    (hrest : Carries ⟨n, 0, 0⟩ ts rest) (hts : ts ≠ []) (hless : rest.length < is.length) :
    Obeys includer p (i :: is) f n ts := by
  have hq : (p.setForest f).Faces (⟨[], .semicolon, l, ⟨n, 0, 0⟩⟩ :: rest) n (.semicolon :: ts) :=
    ⟨⟨l, rest, rfl, hrest⟩, h.colonSeen, h.opened⟩
  obtain ⟨r, rest', hreach, hr, hstanding, hscopes⟩ : Idles includer (p.setForest f) _ n ts :=
    idles_semicolon hq hts
  exact ⟨r, rest', .trans (.of_turn htoken hturn hless (by simp)) hreach, hr, hstanding, hscopes⟩

theorem usingHead_of_written {q r : Parser} {name : Name} (hadvance : p.advance = q)
    (htoken : q.token = .namespaceWord) (hwritten : q.advance.written = (name, r)) :
    p.usingHead = r.setForest (r.forest.useNamespace r.tree r.snapshot.namespaces name) := by
  subst hadvance
  simp only [usingHead, htoken, if_true, hwritten, qualifyHere, Forest.useNamespace]
  rcases r.forest.qualify r.tree r.snapshot.namespaces r.snapshot.namespaces.length name.segments
    false with ⟨_ | found, forest⟩
  · rfl
  · rfl

theorem obeys_using (target : Target)
    (h : p.Faces is n (.usingWord :: .namespaceWord :: (target.tokens ++ .semicolon :: ts)))
    (hts : ts ≠ []) :
    Obeys includer p is (p.forest.useNamespace p.tree p.snapshot.namespaces target.name) n ts := by
  obtain ⟨l₀, _, rfl, l₁, is, rfl, his⟩ := h.carries
  obtain ⟨l, rest, hwritten, hrest⟩ := p.written_load target his
  have hless := carries_length his
  have hless' := carries_length hrest
  rw [← advance_carries p ⟨[], .namespaceWord, l₁, ⟨n, 0, 0⟩⟩ his (by simp)] at hwritten
  have hturn : (p.load (⟨[], .usingWord, l₀, ⟨n, 0, 0⟩⟩ ::
      ⟨[], .namespaceWord, l₁, ⟨n, 0, 0⟩⟩ :: is)).turn includer =
        (p.setForest (p.forest.useNamespace p.tree p.snapshot.namespaces target.name)).load
          (⟨[], .semicolon, l, ⟨n, 0, 0⟩⟩ :: rest) :=
    usingHead_of_written (advance_load p ⟨[], .usingWord, l₀, ⟨n, 0, 0⟩⟩ _ _ _ _) rfl hwritten
  refine obeys_of_turn l h (by simp) hturn hrest hts ?_
  simp only [List.length_append, List.length_cons] at hless hless' ⊢
  omega

theorem addAlias_eq (p : Parser) (name : String) (target : Name) :
    p.addAlias name target =
      p.setForest (p.forest.nameAlias p.tree p.snapshot.namespaces name target) := by
  rw [addAlias, qualifyHere, Forest.nameAlias]
  rcases p.forest.qualify p.tree p.snapshot.namespaces p.snapshot.namespaces.length target.segments
    false with ⟨_ | found, forest⟩
  · rfl
  · rfl

theorem namespaceHead_of_equals {q r s : Parser} {names : List String} {word : String} {name : Name}
    (hadvance : p.advance = q) (htoken : q.token = .ident word)
    (hpath : namespacePath q.budget [] q = (names, r)) (hequals : r.token = .equals)
    (hwritten : r.advance.written = (name, s)) (hname : name.segments ≠ []) :
    p.namespaceHead = s.addAlias (names.getLastD "") name := by
  subst hadvance
  simp [namespaceHead, htoken, hpath, hequals, hwritten, hname]

theorem obeys_alias (name : Identifier) (target : Target)
    (h : p.Faces is n (.namespaceWord :: .ident name.word :: .equals ::
      (target.tokens ++ .semicolon :: ts))) (hts : ts ≠ []) :
    Obeys includer p is
      (p.forest.nameAlias p.tree p.snapshot.namespaces name.word target.name) n ts := by
  obtain ⟨l₀, _, rfl, l₁, _, rfl, l₂, is, rfl, his⟩ := h.carries
  obtain ⟨l, rest, hwritten, hrest⟩ := p.written_load target his
  have hless := carries_length his
  have hless' := carries_length hrest
  rw [← advance_carries p ⟨[], .equals, l₂, ⟨n, 0, 0⟩⟩ his (by simp)] at hwritten
  have hpath : namespacePath (is.length + 2) [] (p.load (⟨[], .ident name.word, l₁, ⟨n, 0, 0⟩⟩ ::
      ⟨[], .equals, l₂, ⟨n, 0, 0⟩⟩ :: is)) =
        ([name.word], p.load (⟨[], .equals, l₂, ⟨n, 0, 0⟩⟩ :: is)) := by
    simp [namespacePath, load, advance]
  have hturn : (p.load (⟨[], .namespaceWord, l₀, ⟨n, 0, 0⟩⟩ ::
      ⟨[], .ident name.word, l₁, ⟨n, 0, 0⟩⟩ :: ⟨[], .equals, l₂, ⟨n, 0, 0⟩⟩ :: is)).turn includer =
        (p.setForest (p.forest.nameAlias p.tree p.snapshot.namespaces name.word target.name)).load
          (⟨[], .semicolon, l, ⟨n, 0, 0⟩⟩ :: rest) :=
    (namespaceHead_of_equals (advance_load _ _ _ _ _ _) rfl hpath rfl hwritten
      (by simp [Target.name])).trans (addAlias_eq _ _ _)
  refine obeys_of_turn l h (by simp) hturn hrest hts ?_
  simp only [List.length_append, List.length_cons] at hless hless' ⊢
  omega

end Parser

end Harvest
