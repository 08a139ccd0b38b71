import Harvest.Extract
import Harvest.Proofs.Count
import Harvest.Proofs.Parser.Progress
import Harvest.Proofs.Parser.Standing

/-!
# Reading counts

The loop over a count keeps the number of open parentheses. Within them it goes past every token;
outside of them it goes on after a name with another name, an arrow or an opening parenthesis, and
after a closing parenthesis with a name only. So an arrow after a call ends the count, if the call is
not an argument itself, and so does the suffix of a literal. A count that ends before the closing
parenthesis of the call drops the call.

Main statement: a call with a context, a text, a comment and a count is recorded exactly if there is
a text and the count is simple.
-/

namespace Harvest

namespace Parser

variable {p : Parser} {t : Token} {ts us : List Token} {level : Nat}

/-- The loop over a count without its bound. -/
def counting (level : Nat) (p : Parser) : Bool × Parser := countFrom p.budget level p

theorem counting_eq (hends : p.Ends) {n : Nat} (hn : p.rest.length < n) :
    countFrom n level p = counting level p :=
  consumes_countFrom.eq_of_lt level hends hn (Nat.lt_succ_self _)

theorem ends_advance (hends : p.Ends) : p.advance.Ends := p.onward_advance.ends hends

theorem length_advance (hends : p.Ends) (htoken : p.token ≠ .eof) :
    p.advance.rest.length < p.rest.length := p.onward_advance.lt hends htoken

/-- A pass that begins with a name. -/
theorem counting_name {word : String} (htoken : p.token = .ident word) :
    counting level p = countAfterName p.rest.length level p.advance := by
  rw [counting, budget, countFrom_succ, if_pos (by rw [htoken]; rfl)]

/-- A pass within parentheses that does not begin with a name. -/
theorem counting_nested_of_ident?_eq_none (hident : p.token.ident? = none) :
    counting (level + 1) p = countAfterName p.rest.length (level + 1) p := by
  rw [counting, budget, countFrom_succ, if_neg (by simp [hident]), if_neg (Nat.succ_ne_zero level)]

/-- Outside of parentheses, a pass that does not begin with a name is the last one. -/
theorem counting_zero_of_ident?_eq_none (hident : p.token.ident? = none) :
    counting 0 p = (true, p) := by
  rw [counting, budget, countFrom_succ, if_neg (by simp [hident]), if_pos rfl]

theorem counting_closing (hends : p.Ends) (htoken : p.token = .closing .paren) :
    counting (level + 1) p = counting level p.advance := by
  rw [counting_nested_of_ident?_eq_none (by rw [htoken]; rfl), countAfterName, htoken]
  exact counting_eq (ends_advance hends) (length_advance hends (by simp [htoken]))

/-- An opening parenthesis is entered, also if it is closed at once. -/
theorem countAfterName_opening (hends : p.Ends) (htoken : p.token = .opening .paren) {n : Nat}
    (hn : p.rest.length ≤ n) : countAfterName n level p = counting (level + 1) p.advance := by
  have hlt := length_advance hends (by simp [htoken])
  rw [countAfterName, htoken]
  by_cases hclosed : p.advance.token = .closing .paren
  · have hlt' := length_advance (ends_advance hends) (by simp [hclosed])
    simp only [hclosed, if_true]
    rw [counting_closing (ends_advance hends) hclosed]
    exact counting_eq (ends_advance (ends_advance hends)) (by omega)
  · simp only [hclosed, if_false]
    exact counting_eq (ends_advance hends) (by omega)

theorem counting_opening (hends : p.Ends) (htoken : p.token = .opening .paren) :
    counting (level + 1) p = counting (level + 2) p.advance := by
  rw [counting_nested_of_ident?_eq_none (by rw [htoken]; rfl)]
  exact countAfterName_opening hends htoken (Nat.le_refl _)

/-- Within parentheses it does not matter whether a name came before. -/
theorem countAfterName_nested (hends : p.Ends) {n : Nat} (hn : p.rest.length < n) :
    countAfterName n (level + 1) p = counting (level + 1) p := by
  cases hident : p.token.ident?.isSome with
  | true =>
    rw [← counting_eq hends hn]
    cases htoken : p.token <;> simp_all [countAfterName, Token.ident?]
  | false =>
    rw [← counting_eq hends (Nat.lt_succ_of_lt hn), countFrom_succ]
    simp [hident]

theorem ahead_advance_of_ne_nil (hahead : p.ahead = t :: us) (hus : us ≠ []) :
    p.advance.ahead = us := by
  obtain ⟨u, rest, rfl⟩ := List.exists_cons_of_ne_nil hus
  exact ahead_advance hahead

theorem ahead_iterate_advance (hahead : p.ahead = ts ++ us) (hus : us ≠ []) :
    (advance^[ts.length] p).ahead = us := by
  induction ts generalizing p with
  | nil => exact hahead
  | cons t ts ih =>
    exact ih (ahead_advance_of_ne_nil hahead (List.append_ne_nil_of_right_ne_nil ts hus))

theorem ends_iterate_advance (hends : p.Ends) (k : Nat) : (advance^[k] p).Ends := by
  induction k generalizing p with
  | zero => exact hends
  | succ k ih => exact ih (ends_advance hends)

/-- The loop goes past the tokens wherever they stand within parentheses. -/
def PassedWithin (ts : List Token) : Prop :=
  ∀ (p : Parser) (level : Nat) (us : List Token), p.Ends → p.ahead = ts ++ us → us ≠ [] →
    counting (level + 1) p = counting (level + 1) (advance^[ts.length] p)

namespace PassedWithin

theorem nil : PassedWithin [] := fun _ _ _ _ _ _ ↦ rfl

theorem append (hts : PassedWithin ts) (hus : PassedWithin us) : PassedWithin (ts ++ us) := by
  intro p level rest hends hahead hrest
  rw [List.append_assoc] at hahead
  have hne : us ++ rest ≠ [] := List.append_ne_nil_of_right_ne_nil us hrest
  calc counting (level + 1) p = counting (level + 1) (advance^[ts.length] p) :=
        hts p level _ hends hahead hne
    _ = counting (level + 1) (advance^[us.length] (advance^[ts.length] p)) :=
        hus _ level rest (ends_iterate_advance hends _) (ahead_iterate_advance hahead hne) hrest
    _ = counting (level + 1) (advance^[(ts ++ us).length] p) := by
        rw [List.length_append, Nat.add_comm ts.length, Function.iterate_add_apply]

theorem name (word : String) : PassedWithin [.ident word] := by
  intro p level us hends hahead _
  have htoken := token_of_ahead hahead
  rw [counting_name htoken]
  exact countAfterName_nested (ends_advance hends) (length_advance hends (by simp [htoken]))

theorem token (ht : t = .comma ∨ t = .arrow ∨ t = .integer ∨ t = .null) : PassedWithin [t] := by
  intro p level us hends hahead _
  have htoken := token_of_ahead hahead
  have hlt := length_advance hends (by rcases ht with rfl | rfl | rfl | rfl <;> simp [htoken])
  have hident : p.token.ident? = none := by
    rcases ht with rfl | rfl | rfl | rfl <;> rw [htoken] <;> rfl
  rw [counting_nested_of_ident?_eq_none hident]
  refine Eq.trans ?_ (counting_eq (ends_advance hends) hlt)
  rcases ht with rfl | rfl | rfl | rfl <;> simp [countAfterName, htoken]

theorem parens (hts : PassedWithin ts) :
    PassedWithin (.opening .paren :: (ts ++ [.closing .paren])) := by
  intro p level us hends hahead hus
  have hopening := token_of_ahead hahead
  have hinner : p.advance.ahead = ts ++ .closing .paren :: us := by
    rw [List.cons_append, List.append_assoc] at hahead
    exact ahead_advance_of_ne_nil hahead (by simp)
  have hclosing := ahead_iterate_advance hinner (List.cons_ne_nil _ _)
  have hends' := ends_advance hends
  calc counting (level + 1) p = counting (level + 2) p.advance := counting_opening hends hopening
    _ = counting (level + 2) (advance^[ts.length] p.advance) :=
        hts _ _ _ hends' hinner (List.cons_ne_nil _ _)
    _ = counting (level + 1) (advance^[ts.length] p.advance).advance :=
        counting_closing (ends_iterate_advance hends' _) (token_of_ahead hclosing)
    _ = counting (level + 1) (advance^[(.opening .paren :: (ts ++ [.closing .paren])).length] p) := by
        rw [List.length_cons, List.length_append, List.length_singleton,
          Function.iterate_succ_apply, Function.iterate_succ_apply']

end PassedWithin

/-- Whatever a count is, the loop goes past it within parentheses. -/
theorem passedWithin_count {part : CountPart} (c : Count part) : PassedWithin c.tokens := by
  induction c with
  | literal i =>
    have hnumeral : PassedWithin [i.numeral.token] := by
      cases i.numeral with
      | zero => exact .token (.inr (.inr (.inr rfl)))
      | _ => exact .token (.inr (.inr (.inl rfl)))
    rw [Count.tokens_literal, IntegerLiteral.tokens]
    cases i.suffix with
    | none => exact hnumeral
    | some s => exact hnumeral.append (.name s.word)
  | chain c ih => exact ih
  | last l ih => exact ih
  | member l access rest ihl ihrest =>
    rw [Count.tokens_member]
    refine ihl.append ?_
    cases access with
    | dot => exact ihrest
    | arrow => exact (PassedWithin.token (.inr (.inl rfl))).append ihrest
  | name n => exact .name n.word
  | call n arguments ih =>
    rw [Count.tokens_call]
    exact (PassedWithin.name n.word).append ih.parens
  | empty => exact .nil
  | one e ih => exact ih
  | more e rest ihe ihrest =>
    rw [Count.tokens_more]
    exact ihe.append ((PassedWithin.token (.inl rfl)).append ihrest)

/-! ### Outside of parentheses -/

/-- A call is read up to what follows it. -/
theorem counting_call (hends : p.Ends) (n : Identifier) (arguments : Count .arguments)
    (hahead : p.ahead = (Count.call n arguments).tokens ++ t :: us) :
    counting 0 p = counting 0 (advance^[(Count.call n arguments).tokens.length] p) := by
  let q := p.advance.advance
  have hopen : p.advance.ahead =
      .opening .paren :: (arguments.tokens ++ .closing .paren :: t :: us) := by
    rw [Count.tokens_call, List.cons_append, List.cons_append, List.append_assoc] at hahead
    exact ahead_advance hahead
  have hinner : q.ahead = arguments.tokens ++ .closing .paren :: t :: us :=
    ahead_advance_of_ne_nil hopen (by simp)
  have hclosing := ahead_iterate_advance hinner (List.cons_ne_nil _ _)
  have hname : p.token = .ident n.word := by
    rw [Count.tokens_call] at hahead
    exact token_of_ahead hahead
  have hopening := token_of_ahead hopen
  have hq : q.Ends := ends_advance (ends_advance hends)
  calc counting 0 p = countAfterName p.rest.length 0 p.advance := counting_name hname
    _ = counting 1 q := countAfterName_opening (ends_advance hends) hopening
        (Nat.le_of_lt (length_advance hends (by simp [hname])))
    _ = counting 1 (advance^[arguments.tokens.length] q) :=
        passedWithin_count arguments _ _ _ hq hinner (List.cons_ne_nil _ _)
    _ = counting 0 (advance^[arguments.tokens.length] q).advance :=
        counting_closing (ends_iterate_advance hq _) (token_of_ahead hclosing)
    _ = counting 0 (advance^[(Count.call n arguments).tokens.length] p) := by
        rw [Count.tokens_call, List.length_cons, List.length_cons, List.length_append,
          List.length_singleton, Function.iterate_succ_apply, Function.iterate_succ_apply,
          Function.iterate_succ_apply']

/-- A link of a chain is read up to what follows it. After a call, that has to be a name. -/
theorem counting_link (hends : p.Ends) (l : Count .link) (hahead : p.ahead = l.tokens ++ t :: us) :
    let q := advance^[l.tokens.length] p
    (t = .closing .paren → counting 0 p = (true, q)) ∧
      ((∃ word, t = .ident word) → counting 0 p = counting 0 q) ∧
      (t = .arrow → counting 0 p = if l.isCall then (true, q) else counting 0 q.advance) := by
  intro q
  have hq : q.token = t := token_of_ahead (ahead_iterate_advance hahead (List.cons_ne_nil t us))
  cases l with
  | name n =>
    have hname : p.token = .ident n.word := token_of_ahead hahead
    have hlt : p.advance.rest.length < p.rest.length := length_advance hends (by simp [hname])
    have hends' : q.Ends := ends_advance hends
    have hpass : counting 0 p = countAfterName p.rest.length 0 q := counting_name hname
    refine ⟨?_, ?_, ?_⟩
    · rintro rfl
      rw [hpass, countAfterName, hq]
      rfl
    · rintro ⟨word, rfl⟩
      rw [hpass, countAfterName, hq]
      exact counting_eq hends' hlt
    · rintro rfl
      rw [hpass, countAfterName, hq]
      exact counting_eq (ends_advance hends')
        (Nat.lt_trans (length_advance hends' (by simp [hq])) hlt)
  | call n arguments =>
    have hcall : counting 0 p = counting 0 q := counting_call hends n arguments hahead
    refine ⟨?_, fun _ ↦ hcall, ?_⟩
    · rintro rfl
      exact hcall.trans (counting_zero_of_ident?_eq_none (by rw [hq]; rfl))
    · rintro rfl
      exact hcall.trans (counting_zero_of_ident?_eq_none (by rw [hq]; rfl))

theorem exists_tokens_of_chain (c : Count .chain) :
    ∃ n ts, c.firstName? = some n ∧ c.tokens = .ident n.word :: ts := by
  have hlink (l : Count .link) : ∃ n ts, l.firstName? = some n ∧ l.tokens = .ident n.word :: ts := by
    cases l with
    | name n => exact ⟨n, _, rfl, rfl⟩
    | call n arguments => exact ⟨n, _, rfl, Count.tokens_call n arguments⟩
  cases c with
  | last l => exact hlink l
  | member l access rest =>
    obtain ⟨n, ts, hn, hts⟩ := hlink l
    exact ⟨n, _, hn, by rw [Count.tokens_member, hts, List.cons_append]⟩

/-- A chain is read to its end, or up to the first arrow after a call. -/
theorem counting_chain (c : Count .chain) {p : Parser} (hends : p.Ends)
    (hahead : p.ahead = c.tokens ++ .closing .paren :: us) :
    ∃ read left, c.tokens = read ++ left ∧ counting 0 p = (true, advance^[read.length] p) ∧
      left.head? = if c.unbroken then none else some .arrow := by
  match c with
  | .last l =>
    exact ⟨l.tokens, [], (List.append_nil _).symm, (counting_link hends l hahead).1 rfl,
      by simp [Count.unbroken]⟩
  | .member l .dot rest =>
    rw [Count.tokens_member] at hahead ⊢
    rw [List.append_assoc] at hahead
    obtain ⟨n, ts, -, hrest⟩ := exists_tokens_of_chain rest
    have hlink := (counting_link hends l (hahead.trans (by rw [hrest]; rfl))).2.1 ⟨n.word, rfl⟩
    obtain ⟨read, left, htokens, hcount, hleft⟩ := counting_chain rest
      (ends_iterate_advance hends _) (ahead_iterate_advance hahead (by simp))
    refine ⟨l.tokens ++ read, left, by rw [List.append_assoc, ← htokens]; rfl, ?_, ?_⟩
    · rw [hlink, hcount, List.length_append, Nat.add_comm, Function.iterate_add_apply]
    · simpa [Count.unbroken] using hleft
  | .member l .arrow rest =>
    rw [Count.tokens_member] at hahead ⊢
    rw [List.append_assoc] at hahead
    have hlink := (counting_link hends l hahead).2.2 rfl
    cases hcall : l.isCall with
    | true =>
      rw [hcall, if_pos rfl] at hlink
      exact ⟨l.tokens, .arrow :: rest.tokens, rfl, hlink, by simp [Count.unbroken, hcall]⟩
    | false =>
      rw [hcall, if_neg Bool.false_ne_true] at hlink
      have hnext := ahead_iterate_advance hahead (by simp)
      obtain ⟨read, left, htokens, hcount, hleft⟩ := counting_chain rest
        (ends_advance (ends_iterate_advance hends _)) (ahead_advance_of_ne_nil hnext (by simp))
      refine ⟨l.tokens ++ .arrow :: read, left, ?_, ?_, ?_⟩
      · rw [List.append_assoc, List.cons_append, ← htokens]
        rfl
      · rw [hlink, hcount, List.length_append, List.length_cons, Nat.add_comm,
          Function.iterate_add_apply, Function.iterate_succ_apply]
      · simpa [Count.unbroken, hcall] using hleft

/-- A count is read to its end exactly if it is simple. -/
theorem count?_reads (c : Count .whole) (hends : p.Ends)
    (hahead : p.ahead = c.tokens ++ .closing .paren :: us) :
    ∃ read left, c.tokens = read ++ left ∧ p.count? = (true, advance^[read.length] p) ∧
      (c.isSimple = true → left = []) ∧
      (c.isSimple = false → ∃ t rest, left = t :: rest ∧ t ≠ .closing .paren) := by
  cases c with
  | literal i =>
    rw [Count.tokens_literal, IntegerLiteral.tokens] at hahead
    have hnumber : p.token = .null ∨ p.token = .integer := by
      rw [token_of_ahead hahead]
      cases i.numeral <;> simp [Numeral.token]
    refine ⟨[i.numeral.token], i.suffix.elim [] fun s ↦ [.ident s.word], Count.tokens_literal i, ?_,
      ?_, ?_⟩
    · rw [count?, if_pos (by simpa using hnumber)]
      rfl
    · intro hsimple
      rw [Option.isNone_iff_eq_none.1 hsimple, Option.elim_none]
    · intro hsimple
      obtain ⟨s, hs⟩ := Option.isSome_iff_exists.1 (Option.isNone_eq_false_iff.1 hsimple)
      exact ⟨.ident s.word, [], by rw [hs, Option.elim_some], by simp⟩
  | chain c =>
    obtain ⟨n, ts, -, hts⟩ := exists_tokens_of_chain c
    obtain ⟨read, left, htokens, hcount, hleft⟩ := counting_chain c hends hahead
    have hname : p.token = .ident n.word := by
      rw [Count.tokens_chain, hts] at hahead
      exact token_of_ahead hahead
    refine ⟨read, left, htokens, ?_, fun hsimple ↦ ?_, fun hsimple ↦ ?_⟩
    · rw [count?, if_neg (by simp [hname])]
      exact hcount
    · rw [Count.isSimple] at hsimple
      rwa [hsimple, if_pos rfl, List.head?_eq_none_iff] at hleft
    · rw [Count.isSimple] at hsimple
      rw [hsimple, if_neg Bool.false_ne_true] at hleft
      obtain ⟨rest, rfl⟩ := List.head?_eq_some_iff.1 hleft
      exact ⟨.arrow, rest, rfl, by simp⟩

theorem text?_of_string {body : String} (hbody : '\\' ∉ body.toList)
    (hahead : p.ahead = .string body :: .comma :: us) : p.text? = (some body, p.advance) := by
  have hcomma := token_of_ahead (ahead_advance hahead)
  have hnone (n : Nat) : literals n p.advance = (none, p.advance) := by
    cases n with
    | zero => rfl
    | succ n => simp [literals, hcomma]
  rw [text?, budget, literals, token_of_ahead hahead]
  simp [hnone, Text.Escape.decode_of_plain hbody]

theorem eat_of_ahead (hahead : p.ahead = t :: us) : p.eat t = (true, p.advance) := by
  rw [eat, if_pos (token_of_ahead hahead)]

theorem contextAndText?_of_ahead {context text : String} (hcontext : '\\' ∉ context.toList)
    (htext : '\\' ∉ text.toList)
    (hahead : p.ahead = .string context :: .comma :: .string text :: .comma :: us) :
    p.contextAndText? = (if text = "" then none else some (context, text), advance^[3] p) := by
  have hcomma := ahead_advance hahead
  have hsecond := ahead_advance hcomma
  simp only [contextAndText?, text?_of_string hcontext hahead, eat_of_ahead hcomma,
    text?_of_string htext hsecond]
  rfl

/-- A count that begins with no name of another kind of argument is not taken for one. -/
theorem encoding?_of_count (c : Count .whole)
    (husual : ∀ n ∈ c.firstName?,
      n.word ∉ applicationClasses ++ "UnicodeUTF8" :: unsupportedEncodings)
    (hahead : p.ahead = c.tokens ++ us) : p.encoding? = (false, p) := by
  cases c with
  | literal i =>
    rw [Count.tokens_literal, IntegerLiteral.tokens] at hahead
    have hident : p.token.ident? = none := by
      rw [token_of_ahead hahead]
      cases i.numeral <;> rfl
    rw [encoding?, hident]
  | chain c =>
    obtain ⟨n, ts, hn, hts⟩ := exists_tokens_of_chain c
    rw [Count.tokens_chain, hts] at hahead
    have hname : p.token.ident? = some n.word := by
      rw [token_of_ahead hahead]
      rfl
    have hword := husual n hn
    simp only [List.mem_append, List.mem_cons, not_or] at hword
    obtain ⟨happlication, hutf8, hencoding⟩ := hword
    simp only [encoding?, hname, happlication, if_false]
    split <;> simp_all

/-- The arguments after the text are read up to where the count ends. -/
theorem translateArguments_of_ahead (c : CountedCall) (plural : Bool) (hends : p.Ends)
    (hahead : p.ahead = .comma :: .string c.comment :: .comma ::
      (c.count.tokens ++ .closing .paren :: us)) :
    ∃ k ≤ c.count.tokens.length, p.translateArguments plural =
        (if c.count.isSimple then some (c.comment, true) else none, advance^[k + 3] p) ∧
      (c.count.isSimple = true → k = c.count.tokens.length) := by
  have hcomment := ahead_advance hahead
  have hcomma := ahead_advance hcomment
  have hcount : (advance^[3] p).ahead = c.count.tokens ++ .closing .paren :: us :=
    ahead_advance_of_ne_nil hcomma (by simp)
  have hends' := ends_iterate_advance hends 3
  obtain ⟨read, left, htokens, hread, hwhole, hpart⟩ := count?_reads c.count hends' hcount
  have hencoding : (advance^[3] p).encoding? = (false, advance^[3] p) :=
    encoding?_of_count c.count c.usual hcount
  have hplain : '\\' ∉ c.comment.toList := c.backslash_not_mem (by simp)
  rw [htokens, List.append_assoc] at hcount
  have hnext := ahead_iterate_advance hcount (by simp)
  refine ⟨read.length, by simp [htokens], ?_, fun hsimple ↦ by simp [htokens, hwhole hsimple]⟩
  have hstop : (advance^[read.length + 3] p).token = .closing .paren ↔ c.count.isSimple = true := by
    rw [Function.iterate_add_apply]
    cases hsimple : c.count.isSimple with
    | true =>
      rw [hwhole hsimple] at hnext
      exact iff_of_true (token_of_ahead hnext) rfl
    | false =>
      obtain ⟨t, rest, rfl, ht⟩ := hpart hsimple
      exact iff_of_false (by rwa [token_of_ahead hnext]) Bool.false_ne_true
  have htext : p.advance.textOrNull? = (some c.comment, advance^[2] p) := by
    rw [textOrNull?, text?_of_string hplain hcomment]
    rfl
  have heat : (advance^[2] p).eat .comma = (true, advance^[3] p) := eat_of_ahead hcomma
  have hnot : (advance^[2] p).token ≠ .closing .paren := by
    rw [show (advance^[2] p).token = .comma from token_of_ahead hcomma]
    simp
  rw [translateArguments, if_neg (by simp [token_of_ahead hahead]), eat_of_ahead hahead]
  simp only [htext, if_neg hnot, heat, hencoding, hread]
  rw [← Function.iterate_add_apply]
  by_cases hsimple : c.count.isSimple = true
  · rw [if_pos (hstop.2 hsimple), if_pos hsimple]
  · rw [if_neg (fun h ↦ hsimple (hstop.1 h)), if_neg hsimple]

/-! ### Calls -/

/-- What a call is recorded from, besides its arguments. -/
def ledger (p : Parser) : Array Message × Remarks × Path := (p.messages, p.remarks, p.file)

theorem ledger_iterate_advance {k : Nat} (hsilent : ∀ i ∈ p.rest.take k, i.notes = []) :
    (advance^[k] p).ledger = p.ledger := by
  induction k generalizing p with
  | zero => rfl
  | succ k ih =>
    have hone : p.advance.ledger = p.ledger := by
      rw [advance]
      cases hrest : p.rest with
      | nil => rfl
      | cons i is =>
        have hnotes : i.notes = [] := hsilent i (by simp [hrest])
        simp [ledger, hnotes]
    rw [Function.iterate_succ_apply, ih, hone]
    intro i hi
    rw [rest_advance] at hi
    apply hsilent i
    cases hrest : p.rest with
    | nil => simp [hrest] at hi
    | cons j is =>
      rw [hrest] at hi
      exact List.mem_cons_of_mem j hi

theorem push_message_of_ledger (c : CountedCall) {q : Parser} (hledger : q.ledger = p.ledger)
    (line : Nat) : q.messages.push (c.message q line) = p.messages.push (c.message p line) := by
  simp only [ledger, Prod.mk.injEq] at hledger
  obtain ⟨hmessages, hremarks, hfile⟩ := hledger
  simp only [CountedCall.message, hmessages, hremarks, hfile]

/-- The message is added and the remarks are forgotten, at the same place. -/
theorem record_spec (c : CountedCall) {q : Parser} (hledger : q.ledger = p.ledger) (line : Nat) :
    let recorded := (q.record line c.context c.text c.comment true).forgetRemarks
    recorded.messages = p.messages.push (c.message p line) ∧ recorded.token = q.token ∧
      recorded.rest = q.rest :=
  ⟨push_message_of_ledger c hledger line, rfl, rfl⟩

/-- The arguments of `translate` and what follows from them. -/
def translateRead (p : Parser) (plural : Bool) : Parser :=
  match p.advance.contextAndText? with
  | (none, q) => q.forgetRemarks
  | (some (context, text), q) =>
    match q.translateArguments plural with
    | (none, q) => q
    | (some (comment, plural), q) => (q.record p.line context text comment plural).forgetRemarks

/-- A remark that is of no use for the call is reported first, and nothing else changes. -/
theorem translateCall_eq (p : Parser) (plural : Bool) :
    ∃ p' : Parser, p'.rest = p.rest ∧ p'.token = p.token ∧ p'.line = p.line ∧ p'.ledger = p.ledger ∧
      p.translateCall plural = p'.translateRead plural := by
  by_cases hsource : p.remarks.sourceText = ""
  · refine ⟨p, rfl, rfl, rfl, rfl, ?_⟩
    rw [translateCall, if_pos hsource]
    rfl
  · refine ⟨p.report .ignoredRemark
      "//% cannot be used with translate() / QT_TRANSLATE_NOOP(). Ignoring", rfl, rfl, rfl, rfl, ?_⟩
    rw [translateCall, if_neg hsource]
    rfl

/-- A call with a count is recorded if there is a text and the count is simple, and is dropped
otherwise. -/
theorem translateCall_of_ahead (c : CountedCall) (plural : Bool) (hends : p.Ends)
    (hahead : p.ahead = .opening .paren :: (c.arguments ++ .closing .paren :: us))
    (hsilent : ∀ i ∈ p.rest.take (c.arguments.length + 1), i.notes = []) :
    let q := p.translateCall plural
    (c.isRecorded = true → q.messages = p.messages.push (c.message p p.line) ∧
        q.token = .closing .paren ∧ q.rest = p.rest.drop (c.arguments.length + 1)) ∧
      (c.isRecorded = false → q.messages = p.messages) := by
  intro q
  obtain ⟨p', hrest, htoken, hline, hledger, hq⟩ := p.translateCall_eq plural
  have hends' : p'.Ends := by rwa [Ends, hrest, htoken]
  have hahead' : p'.ahead = .opening .paren :: (c.arguments ++ .closing .paren :: us) := by
    rwa [ahead, hrest, htoken]
  have hstays : ∀ k ≤ c.arguments.length + 1, (advance^[k] p').ledger = p.ledger := by
    intro k hk
    refine (ledger_iterate_advance fun i hi ↦ hsilent i ?_).trans hledger
    rw [hrest] at hi
    exact (List.take_subset_take_left p.rest hk) hi
  have hcontext : p'.advance.ahead = c.arguments ++ .closing .paren :: us :=
    ahead_advance_of_ne_nil hahead' (by simp)
  have hcomma : (advance^[4] p').ahead = .comma :: .string c.comment :: .comma ::
      (c.count.tokens ++ .closing .paren :: us) :=
    ahead_advance (ahead_advance (ahead_advance hcontext))
  obtain ⟨k, hk, hargs, hwhole⟩ :=
    translateArguments_of_ahead c plural (ends_iterate_advance hends' 4) hcomma
  have hlength : c.arguments.length = c.count.tokens.length + 6 := rfl
  have htext : p'.advance.contextAndText? =
      (if c.text = "" then none else some (c.context, c.text), advance^[4] p') :=
    contextAndText?_of_ahead (c.backslash_not_mem (by simp)) (c.backslash_not_mem (by simp)) hcontext
  by_cases hempty : c.text = ""
  · have hdropped : q = (advance^[4] p').forgetRemarks := by
      rw [show q = _ from hq, translateRead, htext, if_pos hempty]
    refine ⟨fun h ↦ ?_, fun _ ↦ ?_⟩
    · simp [CountedCall.isRecorded, hempty] at h
    · rw [hdropped]
      exact congrArg Prod.fst (hstays 4 (by omega))
  rw [if_neg hempty] at htext
  by_cases hsimple : c.count.isSimple = true
  · have hrecorded : q = ((advance^[c.arguments.length + 1] p').record p'.line c.context c.text
        c.comment true).forgetRemarks := by
      have hplace : advance^[k + 3] (advance^[4] p') = advance^[c.arguments.length + 1] p' := by
        rw [← Function.iterate_add_apply, hwhole hsimple, hlength]
      rw [show q = _ from hq, translateRead, htext]
      simp only [hargs, if_pos hsimple, hplace]
    have hclosing : (advance^[c.arguments.length] p'.advance).ahead = .closing .paren :: us :=
      ahead_iterate_advance hcontext (List.cons_ne_nil _ _)
    obtain ⟨hmessages, htoken', hrest'⟩ := record_spec c (hstays _ (Nat.le_refl _)) p'.line
    refine ⟨fun _ ↦ ⟨?_, ?_, ?_⟩, fun h ↦ ?_⟩
    · rw [hrecorded, hmessages, hline]
    · rw [hrecorded, htoken', Function.iterate_succ_apply, token_of_ahead hclosing]
    · rw [hrecorded, hrest', rest_iterate_advance, hrest]
    · simp [CountedCall.isRecorded, hempty, hsimple] at h
  · have hdropped : q = advance^[k + 7] p' := by
      rw [show q = _ from hq, translateRead, htext]
      simp only [hargs, if_neg hsimple, ← Function.iterate_add_apply]
    refine ⟨fun h ↦ ?_, fun _ ↦ ?_⟩
    · simp [CountedCall.isRecorded, hsimple] at h
    · rw [hdropped]
      exact congrArg Prod.fst (hstays (k + 7) (by omega))

theorem carries_notes {d : Depths} {is : List Item} (h : Carries d ts is) :
    ∀ i ∈ is, i.notes = [] := by
  induction ts generalizing d is with
  | nil =>
    obtain rfl : is = [] := h
    nofun
  | cons t ts ih =>
    obtain ⟨l, rest, rfl, hrest⟩ := h
    exact List.forall_mem_cons.2 ⟨rfl, ih hrest⟩

/-- A parser that has all that is left of a text ahead comes to its end. -/
theorem ends_of_rest_eq_items {r : Reader} (hrest : p.rest = r.items) : p.Ends := by
  obtain ⟨n, -, hitems, -, hend, -⟩ := r.exists_end
  rw [Ends, hrest, hitems, List.range_succ, List.map_append, List.map_append]
  simp [hend]

/-- The name of a call, before its opening parenthesis. -/
theorem onIdent_of_call {word : String} {kind : Call}
    (hopening : p.advance.token = .opening .paren)
    (hkind : p.options.calls.lookup word = some kind) :
    ∃ p' : Parser, p'.rest = p.rest ∧ p'.ledger = p.ledger ∧
      p.onIdent word = (p'.advance.call kind).advance := by
  let p' : Parser := if p.statement.colonSeen && p.atDeclarationLevel then
    { p with statement := { p.statement with identSeen := true } } else p
  have hrest : p'.rest = p.rest := by unfold p'; split <;> rfl
  have hledger : p'.ledger = p.ledger := by unfold p'; split <;> rfl
  have hoptions : p'.advance.options = p.options := by
    have hfixed : p'.fixed = p.fixed := by unfold p'; split <;> rfl
    exact congrArg Prod.fst (p'.onward_advance.fixed.trans hfixed)
  have htoken : p'.advance.token = .opening .paren := by
    rw [token_advance, hrest, ← token_advance, hopening]
  refine ⟨p', hrest, hledger, ?_⟩
  change (if p'.advance.token = .opening .paren then _ else _) = _
  rw [if_pos htoken, hoptions, hkind]

/-- At the name of a function like `translate`, with a context, a text, a comment and a count in
parentheses after it, one turn reads the call. It records one message and ends behind the closing
parenthesis if there is a text and the count is simple, and records nothing otherwise. -/
theorem turn_countedCall (includer : Includer) (p : Parser) (c : CountedCall) {word : String}
    {kind : Call} (hword : p.token = .ident word) (hkind : p.options.calls.lookup word = some kind)
    (hshape : kind.shape = .translate)
    (hlevel : (p.depths.bracket > 0 && p.atNamespaceLevel) = false) (r : Reader)
    (hrest : p.rest = r.items) (houtside : r.nesting.macroBody = none) {cs rest : List Char}
    (htext : Composed true c.pieces cs) (hleft : r.left.map Glyph.char = cs ++ rest) :
    ∃ q : Parser, p.turn includer = q.advance ∧
      (c.isRecorded = true → q.messages = p.messages.push (c.message p r.next.1.line) ∧
        q.token = .closing .paren ∧
        ∃ r' : Reader, q.rest = r'.items ∧ r'.left.map Glyph.char = rest) ∧
      (c.isRecorded = false → q.messages = p.messages) := by
  obtain ⟨is, r', hitems, hcarries, hleft'⟩ := r.items_of_composed houtside htext hleft
    (fun piece hpiece hisWord ↦ by
      rw [c.getLast?_pieces] at hpiece
      obtain rfl := Option.some.inj hpiece
      cases hisWord)
    c.brace_notMem_tokens (c.balanced_tokens r.nesting.depths).1
  rw [c.tokens_pieces] at hcarries
  obtain ⟨line, is, rfl, hcarries⟩ := hcarries
  have hfirst : r.next.1.line = line := by
    rw [r.items_eq, List.cons_append] at hitems
    rw [(List.cons.inj hitems).1]
  have hopening : p.advance.token = .opening .paren := by
    rw [token_advance, hrest, hitems]
    rfl
  obtain ⟨p', hrest', hledger, hident⟩ := onIdent_of_call hopening hkind
  have hturn : p.turn includer = (p'.advance.translateCall kind.forcesPlural).advance := by
    rw [turn, if_neg (by simp [hlevel]), hword]
    refine hident.trans ?_
    rw [call, hshape]
  have hnext : p'.advance = { p' with
      rest := is ++ r'.items, token := .opening .paren, line
      depths := r.nesting.depths.after (.opening .paren) } := by
    rw [advance, hrest', hrest, hitems]
    rfl
  have hends : p'.advance.Ends := by
    apply ends_advance
    apply ends_of_rest_eq_items
    rw [hrest', hrest]
  have hahead : p'.advance.ahead =
      .opening .paren :: (c.arguments ++ .closing .paren :: r'.items.map Item.token) := by
    rw [ahead, hnext]
    simp only [List.map_append, carries_tokens hcarries, List.append_assoc]
    rfl
  have hlength : is.length = c.arguments.length + 1 := by
    rw [carries_length hcarries, List.length_append, List.length_singleton]
  have hdrop : p'.advance.rest = is ++ r'.items := by rw [hnext]
  have hnow : p'.advance.ledger = p.ledger := by
    rw [hnext]
    exact hledger
  obtain ⟨hrecorded, hdropped⟩ := translateCall_of_ahead c kind.forcesPlural hends hahead <| by
    rw [hdrop, ← hlength, List.take_left]
    exact carries_notes hcarries
  refine ⟨_, hturn, fun hc ↦ ?_, fun hc ↦ ?_⟩
  · obtain ⟨hmessages, htoken, hleft⟩ := hrecorded hc
    refine ⟨?_, htoken, r', ?_, hleft'⟩
    · rw [hmessages, push_message_of_ledger c hnow, hfirst, hnext]
    · rw [hleft, hdrop, ← hlength, List.drop_left]
  · rw [hdropped hc]
    exact congrArg Prod.fst hnow

/-- `a->b(f(), g()->h(0x1F, 5u)).c` as a count. The arrow after the call of `g` is in an argument. -/
def nestedCount : Count .whole :=
  .chain (.member (.name ⟨"a", by decide⟩) .arrow (.member (.call ⟨"b", by decide⟩
    (.more (.chain (.last (.call ⟨"f", by decide⟩ .empty)))
      (.one (.chain (.member (.call ⟨"g", by decide⟩ .empty) .arrow (.last (.call ⟨"h", by decide⟩
        (.more (.literal ⟨.hex 'x' ['1', 'F'] (by decide), none, rfl⟩)
          (.one (.literal ⟨.decimal '5' [] (by decide), some ⟨"u", by decide⟩, by decide⟩)))))))))) .dot
    (.last (.name ⟨"c", by decide⟩))))

def nestedCall : CountedCall := ⟨"c", "t", "m", by decide, nestedCount, by decide⟩

/-- A parser at the first token of a text. -/
def atFirst (text : String) : Parser :=
  (start {} {} ⟨"main.cpp"⟩ text false [] 0 #[] {}).advance

def nestedText : String :=
  String.ofList ("translate".toList ++ (spacedPieces nestedCall.pieces ++ [';']))

/-- A count with calls, arrows and numbers in its arguments. -/
theorem turn_countedCall_nested :
    nestedCall.isRecorded = true ∧ ∃ q : Parser,
      (atFirst nestedText).turn (fun _ p ↦ p) = q.advance ∧
      q.messages = #[nestedCall.message (atFirst nestedText) 1] ∧ q.token = .closing .paren ∧
      ∃ r' : Reader, q.rest = r'.items ∧ r'.left.map Glyph.char = [';'] := by
  have hrest : (atFirst nestedText).rest = (Reader.ofText nestedText).next.2.items := by
    rw [atFirst, rest_advance]
    change (Reader.ofText nestedText).items.tail = _
    rw [Reader.items_eq, if_neg (by decide +kernel), List.tail_cons]
  have hrecorded : nestedCall.isRecorded = true := by decide +kernel
  obtain ⟨q, hturn, hyes, -⟩ := turn_countedCall (fun _ p ↦ p) (atFirst nestedText) nestedCall
    (by decide +kernel : _ = Token.ident "translate")
    (by decide +kernel : _ = some Call.translate) rfl (by decide +kernel) _ hrest
    (by decide +kernel) (composed_spacedPieces true _) (by decide +kernel : _ = _ ++ [';'])
  obtain ⟨hmessages, htoken, hleft⟩ := hyes hrecorded
  refine ⟨hrecorded, q, hturn, ?_, htoken, hleft⟩
  rw [hmessages, show (Reader.ofText nestedText).next.2.next.1.line = 1 by decide +kernel,
    show (atFirst nestedText).messages = #[] by decide +kernel]
  rfl

/-- After a call, a member through an arrow drops the message, but one through a dot does not. -/
theorem arrow_after_call_dropped :
    let messages := fun source ↦ (({} : Extractor).extractSource ⟨"main.cpp"⟩ source).1.messages
    messages "void f() \x7b translate(\"c\", \"t\", \"m\", g()->h()); \x7d" = [] ∧
      (messages "void f() \x7b translate(\"c\", \"t\", \"m\", g().h()); \x7d").map
        (fun m ↦ (m.context, m.sourceText, m.comment, m.plural)) = [("c", "t", "m", true)] := by
  decide +kernel

end Parser

end Harvest
