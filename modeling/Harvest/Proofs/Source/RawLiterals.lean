import Harvest.Proofs.Source.Pulling
import Harvest.Proofs.Source.Spelling

/-!
# Raw literals

The body of a raw literal ends where its terminator stands for the first time: a closing
parenthesis, the delimiter and a quote. The reader finds it in one pass. It holds the text since the
last closing parenthesis and drops it after a near miss, and an empty delimiter has a path of its
own. Main statement: what is read is what stands before the first terminator, and reading goes on
after it; a text without a terminator is read to its end and reported.
-/

namespace Harvest

/-- The text `s` is cut at the first place where `t` stands: before it is `b` and after it `rest`. -/
structure Cut (t s b rest : List Char) : Prop where
  eq : s = b ++ (t ++ rest)
  shortest : ∀ b' rest', s = b' ++ (t ++ rest') → b.length ≤ b'.length

namespace Cut

variable {t s b b' rest rest' : List Char}

theorem isInfix (h : Cut t s b rest) : t <:+: s := ⟨b, rest, by rw [h.eq, List.append_assoc]⟩

theorem unique (h : Cut t s b rest) (h' : Cut t s b' rest') : b = b' ∧ rest = rest' := by
  have hlength : b.length = b'.length :=
    Nat.le_antisymm (h.shortest b' rest' h'.eq) (h'.shortest b rest h.eq)
  obtain ⟨hb, hrest⟩ := List.append_inj (h.eq.symm.trans h'.eq) hlength
  exact ⟨hb, List.append_cancel_left hrest⟩

end Cut

namespace Lexeme

variable {d s b rest body more after : List Char} {held : Option (List Char × List Char)}
  {gs : List Glyph}

/-- What ends a raw literal with the delimiter `d`. -/
def terminator (d : List Char) : List Char := ')' :: (d ++ ['"'])

theorem terminator_append (d rest : List Char) :
    terminator d ++ rest = ')' :: (d ++ '"' :: rest) := by
  simp [terminator]

/-- The delimiter and its quote stand before the next closing parenthesis. -/
theorem prefix_of_paren (hd : ')' ∉ d) (h : d ++ '"' :: rest = more ++ ')' :: after) :
    d ++ ['"'] <+: more := by
  rcases List.append_eq_append_iff.1 h with ⟨as, rfl, has⟩ | ⟨bs, rfl, hbs⟩
  · cases as with
    | nil => simp at has
    | cons c as =>
      obtain ⟨rfl, -⟩ := List.cons.inj has
      exact ⟨as, by simp⟩
  · cases bs with
    | nil => simp at hbs
    | cons c bs =>
      obtain ⟨rfl, -⟩ := List.cons.inj hbs
      simp at hd

/-- A terminator is the first one if there is none in the text before it. -/
theorem cut_of_absent (hd : ')' ∉ d) (hs : s = b ++ (terminator d ++ rest))
    (hb : ¬ terminator d <:+: b) : Cut (terminator d) s b rest := by
  refine ⟨hs, fun b' rest' hs' ↦ Nat.le_of_not_lt fun hlt ↦ hb ?_⟩
  rw [hs, List.append_eq_append_iff] at hs'
  rcases hs' with ⟨as, rfl, -⟩ | ⟨as, rfl, has⟩
  · exact absurd hlt (by simp)
  · -- The parenthesis after `b` is not the first one after `b'`, so `b` holds what follows that.
    rw [terminator_append, terminator_append] at has
    cases as with
    | nil => simp at hlt
    | cons c as =>
      obtain ⟨rfl, hparen⟩ := List.cons.inj has
      obtain ⟨after, rfl⟩ := prefix_of_paren hd hparen
      exact ⟨b', after, by simp [terminator]⟩

/-- Before `rest` is read, a terminator may begin in what is left, or at the parenthesis before the
text that is held. What is held does not begin with the delimiter. -/
structure Watches (d body : List Char) (held : Option (List Char × List Char))
    (rest : List Char) : Prop where
  held_eq : ∀ before since, held = some (before, since) →
    body = before ++ ')' :: since ∧ ¬ d <+: since
  begins : ∀ b after, body ++ rest = b ++ (terminator d ++ after) →
    body.length ≤ b.length ∨ ∃ since, held = some (b, since)

namespace Watches

variable {c : Char} {before since : List Char}

theorem start (d s : List Char) : Watches d [] none s :=
  ⟨nofun, fun _ _ _ ↦ .inl (Nat.zero_le _)⟩

/-- With an empty delimiter nothing is held. -/
theorem held_eq_none (h : Watches d body held rest) (hd : d = []) : held = none := by
  cases hheld : held with
  | none => rfl
  | some held =>
    subst hd
    exact absurd List.nil_prefix (h.held_eq held.1 held.2 hheld).2

/-- At the end of the text no terminator was found. -/
theorem not_infix (h : Watches d body held []) : ¬ terminator d <:+: body := by
  rintro ⟨b, after, hbody⟩
  rw [List.append_assoc] at hbody
  rcases h.begins b after (by rw [List.append_nil, hbody]) with hle | ⟨since, hheld⟩
  · have hlength := congrArg List.length hbody
    simp only [terminator, List.length_append, List.length_cons] at hlength
    omega
  · obtain ⟨hbefore, hprefix⟩ := h.held_eq b since hheld
    rw [hbefore, terminator_append] at hbody
    have hsince := (List.cons.inj (List.append_cancel_left hbody)).2
    exact hprefix ⟨_, hsince⟩

/-- A character that is no parenthesis begins no terminator. -/
theorem length_lt (h : Watches d body held (c :: rest)) (hc : c ≠ ')')
    (hbegins : body ++ c :: rest = b ++ (terminator d ++ after)) :
    body.length < b.length ∨ ∃ since, held = some (b, since) := by
  rcases h.begins b after hbegins with hle | hheld
  · refine .inl (Nat.lt_of_le_of_ne hle fun hlength ↦ hc ?_)
    obtain ⟨-, hcs⟩ := List.append_inj hbegins hlength
    rw [terminator_append] at hcs
    exact (List.cons.inj hcs).1
  · exact .inr hheld

theorem append_read (body : List Char) (c : Char) (rest : List Char) :
    body ++ [c] ++ rest = body ++ c :: rest := by simp

theorem length_read (h : body.length < b.length) : (body ++ [c]).length ≤ b.length := by
  rw [List.length_append]
  exact h

/-- The text that is held has become the delimiter, and a quote follows. -/
theorem cut_of_held (h : Watches d body (some (before, since)) (c :: '"' :: rest))
    (hsince : since ++ [c] = d) : Cut (terminator d) (body ++ c :: '"' :: rest) before rest := by
  obtain ⟨hbody, -⟩ := h.held_eq before since rfl
  refine ⟨by simp [hbody, terminator, ← hsince], fun b after hbegins ↦ ?_⟩
  rcases h.begins b after hbegins with hle | ⟨since', hheld⟩
  · refine Nat.le_trans ?_ hle
    simp [hbody]
  · exact Nat.le_of_eq (congrArg (List.length ∘ Prod.fst) (Option.some.inj hheld))

/-- The text that is held has become the delimiter, but no quote follows. -/
theorem near_miss (h : Watches d body (some (before, since)) (c :: rest)) (hd : ')' ∉ d)
    (hsince : since ++ [c] = d) (hquote : rest.head? ≠ some '"') :
    Watches d (body ++ [c]) none rest := by
  refine ⟨nofun, fun b after hbegins ↦ .inl ?_⟩
  rw [append_read] at hbegins
  have hc : c ≠ ')' := by
    rintro rfl
    exact hd (hsince ▸ List.mem_append_right _ List.mem_cons_self)
  rcases h.length_lt hc hbegins with hlt | ⟨since', hheld⟩
  · exact length_read hlt
  · obtain ⟨rfl, rfl⟩ := Prod.mk.inj (Option.some.inj hheld)
    obtain ⟨hbody, -⟩ := h.held_eq before since rfl
    rw [hbody, terminator_append, ← hsince] at hbegins
    simp only [List.append_assoc, List.cons_append, List.nil_append, List.append_cancel_left_eq,
      List.cons.injEq, true_and] at hbegins
    exact absurd (congrArg List.head? hbegins) hquote

/-- With an empty delimiter, a closing parenthesis and a quote are the terminator. -/
theorem cut_of_paren (h : Watches d body held (')' :: '"' :: rest)) (hd : d = []) :
    Cut (terminator d) (body ++ ')' :: '"' :: rest) body rest := by
  refine ⟨by simp [terminator, hd], fun b after hbegins ↦ ?_⟩
  rcases h.begins b after hbegins with hle | ⟨since, hheld⟩
  · exact hle
  · rw [h.held_eq_none hd] at hheld
    cases hheld

theorem lone_paren (h : Watches d body held (')' :: rest)) (hd : d = [])
    (hquote : rest.head? ≠ some '"') : Watches d (body ++ [')']) none rest := by
  refine ⟨nofun, fun b after hbegins ↦ .inl ?_⟩
  rw [append_read] at hbegins
  rcases h.begins b after hbegins with hle | ⟨since, hheld⟩
  · rcases Nat.lt_or_eq_of_le hle with hlt | hlength
    · exact length_read hlt
    · obtain ⟨-, hrest⟩ := List.append_inj hbegins hlength
      rw [terminator_append, hd, List.nil_append] at hrest
      exact absurd (congrArg List.head? (List.cons.inj hrest).2) hquote
  · rw [h.held_eq_none hd] at hheld
    cases hheld

/-- A closing parenthesis begins a new text to hold; what was held is no terminator. -/
theorem paren (h : Watches d body held (')' :: rest)) (hd : ')' ∉ d) (hne : d ≠ []) :
    Watches d (body ++ [')']) (some (body, [])) rest := by
  refine ⟨?_, fun b after hbegins ↦ ?_⟩
  · rintro before since ⟨⟩
    exact ⟨rfl, fun hprefix ↦ hne (List.prefix_nil.1 hprefix)⟩
  · rw [append_read] at hbegins
    rcases h.begins b after hbegins with hle | ⟨since, hheld⟩
    · rcases Nat.lt_or_eq_of_le hle with hlt | hlength
      · exact .inl (length_read hlt)
      · obtain ⟨rfl, -⟩ := List.append_inj hbegins hlength
        exact .inr ⟨[], rfl⟩
    · obtain ⟨hbody, hprefix⟩ := h.held_eq b since hheld
      rw [hbody, terminator_append, List.append_assoc, List.cons_append] at hbegins
      have hsince := (List.cons.inj (List.append_cancel_left hbegins)).2
      exact absurd ((List.prefix_append d _).trans (prefix_of_paren hd hsince.symm)) hprefix

/-- Any other character is added to the text that is held. -/
theorem other (h : Watches d body held (c :: rest)) (hc : c ≠ ')')
    (hsince : ∀ before since, held = some (before, since) → since ++ [c] ≠ d) :
    Watches d (body ++ [c]) (held.map fun (before, since) ↦ (before, since ++ [c])) rest := by
  refine ⟨fun before since hheld ↦ ?_, fun b after hbegins ↦ ?_⟩
  · obtain ⟨⟨_, old⟩, hold, ⟨⟩⟩ := Option.map_eq_some_iff.1 hheld
    obtain ⟨hbody, hprefix⟩ := h.held_eq _ old hold
    refine ⟨by simp [hbody], fun hlonger ↦ ?_⟩
    rcases List.prefix_concat_iff.1 hlonger with heq | hshorter
    · exact hsince _ old hold heq.symm
    · exact hprefix hshorter
  · rw [append_read] at hbegins
    rcases h.length_lt hc hbegins with hlt | ⟨since, rfl⟩
    · exact .inl (length_read hlt)
    · exact .inr ⟨_, rfl⟩

end Watches

/-- The search finds the first terminator, or there is none. -/
theorem rawBody_cut (hd : ')' ∉ d) (h : Watches d body held (gs.map Glyph.char)) :
    (∃ b left, rawBody d body held gs = (b, true, left) ∧
        Cut (terminator d) (body ++ gs.map Glyph.char) b (left.map Glyph.char)) ∨
      (rawBody d body held gs = (body ++ gs.map Glyph.char, false, []) ∧
        ¬ terminator d <:+: body ++ gs.map Glyph.char) := by
  induction gs generalizing body held with
  | nil =>
    refine .inr ⟨by simp [rawBody], ?_⟩
    rw [List.map_nil, List.append_nil]
    exact h.not_infix
  | cons g gs ih =>
    have hread : body ++ (g :: gs).map Glyph.char = body ++ [g.char] ++ gs.map Glyph.char := by simp
    have hnext : char? gs = some '"' → (g :: gs).map Glyph.char =
        g.char :: '"' :: gs.tail.map Glyph.char := by
      intro hquote
      cases gs with
      | nil => cases hquote
      | cons q gs => simp [Option.some.inj hquote]
    rw [rawBody]
    dsimp only
    split
    · next before delimiter hmatched =>
      -- The text that is held has become the delimiter.
      obtain ⟨hheld, hdelimiter⟩ := Option.filter_eq_some_iff.1 hmatched
      obtain ⟨⟨start, since⟩, rfl, hpair⟩ := Option.map_eq_some_iff.1 hheld
      obtain ⟨rfl, rfl⟩ := Prod.mk.inj hpair
      have hsince : since ++ [g.char] = d := of_decide_eq_true hdelimiter
      split
      · next hquote =>
        rw [hnext hquote] at h ⊢
        exact .inl ⟨start, gs.tail, rfl, h.cut_of_held hsince⟩
      · next hquote =>
        rw [hread]
        exact ih (h.near_miss hd hsince (char?_eq_head? gs ▸ hquote))
    · next hmatched =>
      split
      · next hparen =>
        split
        · next hempty =>
          split
          · next hquote =>
            rw [hnext hquote, hparen] at h ⊢
            exact .inl ⟨body, gs.tail, rfl, h.cut_of_paren hempty⟩
          · next hquote =>
            rw [hread]
            rw [List.map_cons, hparen] at h
            rw [hparen]
            exact ih (h.lone_paren hempty (char?_eq_head? gs ▸ hquote))
        · next hne =>
          rw [hread]
          rw [List.map_cons, hparen] at h
          rw [hparen]
          exact ih (h.paren hd hne)
      · next hparen =>
        rw [hread]
        refine ih (h.other hparen fun before since hheld hsince ↦ ?_)
        rw [hheld] at hmatched
        exact Option.filter_eq_none_iff.1 hmatched (before, since ++ [g.char]) rfl
          (decide_eq_true hsince)

/-- A mark of a raw literal is a word, and none that is read in another way. -/
theorem rawMark_word {mark : String} (hmark : mark ∈ Token.rawMarks) :
    (∃ c cs, mark.toList = c :: cs ∧ isWordStart c = true) ∧
      (∀ c ∈ mark.toList, isWordChar c = true) ∧ mark ∉ Token.literalMarks ∧
      Token.keyword? mark = none ∧ mark ≠ "operator" := by
  simp only [Token.rawMarks, List.mem_cons, List.not_mem_nil, or_false] at hmark
  rcases hmark with rfl | rfl | rfl | rfl | rfl <;>
    exact ⟨⟨_, _, rfl, by decide⟩, List.all_eq_true.1 (by decide), by decide, by decide, by decide⟩

/-- After the mark and its quote a raw literal is read. -/
theorem next_rawMark {mark : String} (hmark : mark ∈ Token.rawMarks) {g : Glyph} {cs : List Char}
    (hgs : (g :: gs).map Glyph.char = mark.toList ++ '"' :: cs) :
    ∃ left, next g gs = rawString left ∧ left.map Glyph.char = cs := by
  obtain ⟨⟨c, more, hspelt, hstart⟩, hchars, hliteral, hkey, hoperator⟩ := rawMark_word hmark
  have hg : g.char = c := by
    rw [hspelt] at hgs
    exact (List.cons.inj hgs).1
  have hhash : c ≠ '#' := by
    rintro rfl
    exact absurd hstart (by decide)
  obtain ⟨htake, hskip⟩ := take_skip_of_append hgs hchars (by simp; decide)
  have hquote : char? (skip isWordChar (g :: gs)) = some '"' := by
    rw [char?_eq_head?, hskip]
    rfl
  refine ⟨(skip isWordChar (g :: gs)).tail, ?_, by rw [List.map_tail, hskip]; rfl⟩
  simp [next, hg, hhash, hstart, word, htake, hquote, hliteral, hkey, hoperator, hmark]

/-- The delimiter is read up to the opening parenthesis. -/
theorem rawString_eq (hd : '(' ∉ d) (hgs : gs.map Glyph.char = d ++ '(' :: s) :
    ∃ inner, inner.map Glyph.char = s ∧ rawString gs =
      ⟨.token (.rawString (String.ofList (rawBody d [] none inner).1)),
        if (rawBody d [] none inner).2.1 then none else some .rawString,
        (rawBody d [] none inner).2.2⟩ := by
  have hall : ∀ c ∈ d, decide (c ≠ '(') = true := by
    intro c hc
    rw [decide_eq_true_iff]
    rintro rfl
    exact hd hc
  obtain ⟨htake, hskip⟩ := take_skip_of_append hgs hall (by simp)
  refine ⟨(skip (· ≠ '(') gs).tail, by rw [List.map_tail, hskip]; rfl, ?_⟩
  rw [rawString, htake]

end Lexeme

namespace Reader

open Lexeme

/-- A call gives a token with these notes. Then the characters `rest` are left, and nothing was
opened or closed. -/
structure Yields (r : Reader) (t : Token) (notes : List Note) (rest : List Char) : Prop where
  token : r.next.1.token = t
  notes : r.next.1.notes = notes
  left : r.next.2.left.map Glyph.char = rest
  nesting : r.next.2.nesting = r.nesting

theorem yields_of_next {r : Reader} {g : Glyph} {gs left : List Glyph} {t : Token}
    {fault : Option Fault} (hleft : r.left = g :: gs)
    (hnext : Lexeme.next g gs = ⟨.token t, fault, left⟩) :
    r.Yields t (fault.map fun f ↦ .problem r.next.1.line f.kind f.message).toList
      (left.map Glyph.char) := by
  have hcall : r.next =
      (⟨(fault.map fun f ↦ .problem g.line f.kind f.message).toList, t, g.line, r.nesting.depths⟩,
        ⟨r.nesting, g.line, left⟩) := by
    rw [next, hleft, pull, hnext]
    rfl
  constructor <;> rw [hcall]

/-- A raw literal is cut at its first terminator: what stands before that is its body, nothing is
reported, and reading goes on after it. Without a terminator the body is the rest of the text, which
is reported once. So a body without the terminator in it is read as it stands. -/
theorem rawString_cut (r : Reader) {mark : String} (hmark : mark ∈ Token.rawMarks) {d s : List Char}
    (hopening : '(' ∉ d) (hclosing : ')' ∉ d)
    (hleft : r.left.map Glyph.char = mark.toList ++ '"' :: (d ++ '(' :: s)) :
    (terminator d <:+: s → ∃ b rest, Cut (terminator d) s b rest ∧
        r.Yields (.rawString (String.ofList b)) [] rest) ∧
      (¬ terminator d <:+: s → r.Yields (.rawString (String.ofList s))
        [.problem r.next.1.line .unterminatedRawString "Unterminated/mismatched C++ Raw string"] []) ∧
      ∀ b rest, ¬ terminator d <:+: b → s = b ++ (terminator d ++ rest) →
        r.Yields (.rawString (String.ofList b)) [] rest := by
  obtain ⟨g, gs, hr⟩ : ∃ g gs, r.left = g :: gs := by
    apply List.exists_cons_of_ne_nil
    intro hnil
    rw [hnil] at hleft
    simp at hleft
  rw [hr] at hleft
  obtain ⟨quoted, hnext, hquoted⟩ := next_rawMark hmark hleft
  obtain ⟨inner, rfl, hraw⟩ := rawString_eq hopening hquoted
  rw [hraw] at hnext
  rcases rawBody_cut hclosing (Watches.start d (inner.map Glyph.char)) with
    ⟨b, left, hbody, hcut⟩ | ⟨hbody, hnone⟩
  · rw [List.nil_append] at hcut
    rw [hbody] at hnext
    have hyields := yields_of_next hr hnext
    refine ⟨fun _ ↦ ⟨b, _, hcut, hyields⟩, fun hnone ↦ absurd hcut.isInfix hnone, ?_⟩
    intro b' rest hb' hs
    obtain ⟨rfl, rfl⟩ := (cut_of_absent hclosing hs hb').unique hcut
    exact hyields
  · rw [List.nil_append] at hbody hnone
    rw [hbody] at hnext
    refine ⟨fun hsome ↦ absurd hsome hnone, fun _ ↦ yields_of_next hr hnext, fun b rest _ hs ↦ ?_⟩
    exact absurd ⟨b, rest, by rw [hs, List.append_assoc]⟩ hnone

/-- Near misses before the terminator, a delimiter with a quote and a line end in it, and a text
without a terminator. -/
theorem rawString_cut_near_miss :
    (Reader.ofText "u8R\"d(a)d)d)d\";").Yields (.rawString "a)d)d") [] [';'] ∧
      (Reader.ofText "LR\"\"\n(\")\"\r\n\"").Yields (.rawString "\"") [] [] ∧
      (Reader.ofText "R\"x(a)x;").Yields (.rawString "a)x;")
        [.problem (Reader.ofText "R\"x(a)x;").next.1.line .unterminatedRawString
          "Unterminated/mismatched C++ Raw string"] [] := by
  refine ⟨?_, ?_, ?_⟩
  · have hcut := @rawString_cut (Reader.ofText "u8R\"d(a)d)d)d\";") "u8R" (by decide) ['d']
      "a)d)d)d\";".toList (by decide) (by decide) (by decide)
    exact hcut.2.2 "a)d)d".toList [';'] (by decide) (by decide)
  · have hcut := @rawString_cut (Reader.ofText "LR\"\"\n(\")\"\r\n\"") "LR" (by decide)
      ['"', '\n'] "\")\"\n\"".toList (by decide) (by decide) (by decide)
    exact hcut.2.2 ['"'] [] (by decide) (by decide)
  · have hcut := @rawString_cut (Reader.ofText "R\"x(a)x;") "R" (by decide) ['x'] "a)x;".toList
      (by decide) (by decide) (by decide)
    exact hcut.2.1 (by decide)

end Reader

end Harvest
