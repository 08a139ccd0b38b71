import Harvest.Proofs.Parser.Following

/-!
# Progress of a parser

A parser never goes back in its tokens, and the last of them is the end of the file. Every turn of
the main loop that includes nothing goes past a token, and so does every pass of the loops within
it, unless it is the last. So the bounds on these loops are never reached: they do what loops
without bounds would do.
-/

namespace Harvest.Parser

variable {p q r : Parser} {j k : Nat}

/-- The last token is the end of the file. -/
def Ends (p : Parser) : Prop := (p.rest.map Item.token).getLastD p.token = .eof

/-- What stays the same between two tokens of a file. -/
def spot (p : Parser) := (p.fixed, p.token, p.rest)

/-- The second parser comes from the first by reading on, past `k` tokens or more. -/
structure Onward (k : Nat) (p q : Parser) : Prop where
  fixed : q.fixed = p.fixed
  left : q.rest.length ≤ p.rest.length - k
  ends : p.Ends → q.Ends

theorem rest_ne_nil (hends : p.Ends) (htoken : p.token ≠ .eof) : p.rest ≠ [] := by
  intro hrest
  rw [Ends, hrest] at hends
  exact htoken hends

namespace Onward

theorem of_spot (h : q.spot = p.spot) : Onward 0 p q := by
  simp only [spot, Prod.mk.injEq] at h
  obtain ⟨hfixed, htoken, hrest⟩ := h
  refine ⟨hfixed, Nat.le_of_eq (congrArg _ hrest), fun hends ↦ ?_⟩
  rwa [Ends, htoken, hrest]

theorem refl (p : Parser) : Onward 0 p p := of_spot rfl

theorem trans (hpq : Onward j p q) (hqr : Onward k q r) : Onward j p r :=
  ⟨hqr.fixed.trans hpq.fixed, by have := hpq.left; have := hqr.left; omega,
    fun hends ↦ hqr.ends (hpq.ends hends)⟩

/-- What was read before counts for less than what is read after it. -/
theorem after (hpq : Onward j p q) (hqr : Onward k q r) : Onward k p r :=
  ⟨hqr.fixed.trans hpq.fixed, by have := hpq.left; have := hqr.left; omega,
    fun hends ↦ hqr.ends (hpq.ends hends)⟩

theorem weaken (h : Onward k p q) : Onward 0 p q := h.after (refl q)

/-- There are fewer tokens left, unless the file had ended. -/
theorem lt (h : Onward 1 p q) (hends : p.Ends) (htoken : p.token ≠ .eof) :
    q.rest.length < p.rest.length := by
  have hpos := List.length_pos_iff.2 (rest_ne_nil hends htoken)
  have hleft := h.left
  omega

end Onward

/-- Nothing but remarks, messages and reports comes of a comment. -/
theorem note_comment (p : Parser) (body : String) (line : Nat) :
    ∃ remarks messages diagnostics, p.note (.comment body line) =
      { p with remarks, messages, session := { p.session with diagnostics } } := by
  have hfaults : ∀ (faults : List QuoteFault) (q : Parser), ∃ diagnostics,
      faults.foldl (fun p fault ↦ p.reportAt line fault.kind fault.message) q =
        { q with session := { q.session with diagnostics } } := by
    intro faults
    induction faults with
    | nil => exact fun q ↦ ⟨_, rfl⟩
    | cons fault faults ih =>
      intro q
      obtain ⟨diagnostics, h⟩ := ih (q.reportAt line fault.kind fault.message)
      exact ⟨diagnostics, h⟩
  unfold note
  dsimp only
  split
  · split
    · exact ⟨_, _, _, rfl⟩
    · rename_i r _
      cases r with
      | sourceText text faults =>
        obtain ⟨diagnostics, h⟩ := hfaults faults _
        exact ⟨_, _, diagnostics, h⟩
      | _ => exact ⟨_, _, _, rfl⟩
  · exact ⟨_, _, _, rfl⟩

theorem spot_note (p : Parser) (n : Note) : (p.note n).spot = p.spot := by
  cases n with
  | comment body line =>
    obtain ⟨_, _, _, h⟩ := p.note_comment body line
    rw [h]
    rfl
  | _ => rfl

theorem spot_notes (p : Parser) (ns : List Note) : (ns.foldl note p).spot = p.spot := by
  induction ns generalizing p with
  | nil => rfl
  | cons n ns ih => exact (ih (p.note n)).trans (p.spot_note n)

theorem onward_advance (p : Parser) : Onward 1 p p.advance := by
  unfold advance
  cases hrest : p.rest with
  | nil =>
    refine ⟨rfl, by simp [hrest], fun _ ↦ ?_⟩
    simp [Ends]
  | cons item rest =>
    have hnotes := p.spot_notes item.notes
    simp only [spot, Prod.mk.injEq] at hnotes
    refine ⟨hnotes.1, by simp [hrest], fun hends ↦ ?_⟩
    rwa [Ends, hrest, List.map_cons, List.getLastD_cons] at hends

/-- A token is gone past after some changes to the rest of the state. -/
theorem onward_advance_of_spot (h : q.spot = p.spot) : Onward 1 p q.advance :=
  (Onward.of_spot h).after q.onward_advance

section Loops

variable {σ ρ : Type} {loop : Nat → σ → Parser → ρ} {s s' : σ}

/-- A pass of a loop either ends it, whatever is left of its bound, or goes on past a token. -/
inductive Pass (loop : Nat → σ → Parser → ρ) (s : σ) (p : Parser) : Prop
  | stop (out : ρ) (hout : ∀ n, loop (n + 1) s p = out)
  | next (s' : σ) (q : Parser) (finish : ρ → ρ) (hends : q.Ends)
      (hless : q.rest.length < p.rest.length)
      (hnext : ∀ n, loop (n + 1) s p = finish (loop n s' q))

/-- No pass of the loop stays where it is. -/
def Consumes (loop : Nat → σ → Parser → ρ) : Prop := ∀ s p, p.Ends → Pass loop s p

/-- A bound above the number of tokens ahead is no bound. -/
theorem Consumes.eq_of_lt (h : Consumes loop) {n m : Nat} (s : σ) {p : Parser} (hends : p.Ends)
    (hn : p.rest.length < n) (hm : p.rest.length < m) : loop n s p = loop m s p := by
  induction n generalizing m s p with
  | zero => cases hn
  | succ n ih =>
    obtain ⟨m, rfl⟩ := Nat.exists_eq_succ_of_ne_zero (Nat.ne_zero_of_lt hm)
    cases h s p hends with
    | stop out hout => exact (hout n).trans (hout m).symm
    | next s' q finish hq hless hnext =>
      rw [hnext, hnext]
      exact congrArg finish (ih s' hq (by omega) (by omega))

/-- The loop goes on from a parser that has gone past a token. -/
theorem Pass.on (h : Onward 1 p q) (hends : p.Ends) (htoken : p.token ≠ .eof) (s' : σ)
    (hnext : ∀ n, loop (n + 1) s p = loop n s' q) : Pass loop s p :=
  .next s' q id (h.ends hends) (h.lt hends htoken) hnext

end Loops

/-- A pass over a count, from the token after a name on. -/
def countAfterName (n level : Nat) (p : Parser) : Bool × Parser :=
  match p.token with
  | .closing .paren => if level = 0 then (true, p) else countFrom n (level - 1) p.advance
  | .opening .paren =>
    if p.advance.token = .closing .paren then countFrom n level p.advance.advance
    else countFrom n (level + 1) p.advance
  | .ident _ => countFrom n level p
  | .arrow => countFrom n level p.advance
  | .eof | .cancel => (false, p)
  | _ => if level = 0 then (false, p) else countFrom n level p.advance

theorem countFrom_succ (n level : Nat) (p : Parser) :
    countFrom (n + 1) level p =
      if p.token.ident?.isSome then countAfterName n level p.advance
      else if level = 0 then (true, p) else countAfterName n level p := by
  rw [countFrom]
  cases p.token.ident?.isSome with
  | true => rfl
  | false => cases level <;> rfl

/-- A pass that has come to `q`, past a name or not. -/
theorem pass_countFrom {level : Nat} (hends : p.Ends) (hend : p.token ≠ .eof) (hq : Onward 0 p q)
    (hname : q.token.ident?.isSome → Onward 1 p q)
    (hopen : ∀ n, countFrom (n + 1) level p = countAfterName n level q) :
    Pass countFrom level p := by
  have hnext := hq.after q.onward_advance
  have hstop : ∀ out, (∀ n, countAfterName n level q = out) → Pass countFrom level p :=
    fun out hout ↦ .stop out fun n ↦ (hopen n).trans (hout n)
  have hgoes : ∀ level' r, Onward 1 p r →
      (∀ n, countAfterName n level q = countFrom n level' r) → Pass countFrom level p :=
    fun level' r hr hmore ↦ .on hr hends hend level' fun n ↦ (hopen n).trans (hmore n)
  cases htoken : q.token with
  | closing d =>
    by_cases hlevel : level = 0
    · exact hstop (decide (d = .paren), q)
        (by cases d <;> simp [countAfterName, htoken, hlevel])
    · exact hgoes (if d = .paren then level - 1 else level) q.advance hnext
        (by cases d <;> simp [countAfterName, htoken, hlevel])
  | opening d =>
    by_cases hparen : d = .paren
    · by_cases hclosed : q.advance.token = .closing .paren
      · exact hgoes level q.advance.advance (hnext.trans q.advance.onward_advance)
          (by simp [countAfterName, htoken, hparen, hclosed])
      · exact hgoes (level + 1) q.advance hnext
          (by simp [countAfterName, htoken, hparen, hclosed])
    · by_cases hlevel : level = 0
      · exact hstop (false, q) (by cases d <;> simp_all [countAfterName])
      · exact hgoes level q.advance hnext (by cases d <;> simp_all [countAfterName])
  | ident word =>
    exact hgoes level q (hname (by rw [htoken]; rfl)) (by simp [countAfterName, htoken])
  | arrow => exact hgoes level q.advance hnext (by simp [countAfterName, htoken])
  | eof => exact hstop (false, q) (by simp [countAfterName, htoken])
  | cancel => exact hstop (false, q) (by simp [countAfterName, htoken])
  | _ =>
    by_cases hlevel : level = 0
    · exact hstop (false, q) (by simp [countAfterName, htoken, hlevel])
    · exact hgoes level q.advance hnext (by simp [countAfterName, htoken, hlevel])

theorem consumes_countFrom : Consumes countFrom := by
  intro level p hends
  by_cases hident : p.token.ident?.isSome
  · have hend : p.token ≠ .eof := by
      intro heq
      rw [heq] at hident
      cases hident
    exact pass_countFrom hends hend p.onward_advance.weaken (fun _ ↦ p.onward_advance)
      fun n ↦ by rw [countFrom_succ, if_pos hident]
  · by_cases hlevel : level = 0
    · exact .stop (true, p) fun n ↦ by rw [countFrom_succ, if_neg hident, if_pos hlevel]
    have hopen : ∀ n, countFrom (n + 1) level p = countAfterName n level p := fun n ↦ by
      rw [countFrom_succ, if_neg hident, if_neg hlevel]
    by_cases hend : p.token = .eof
    · exact .stop (false, p) fun n ↦ by rw [hopen, countAfterName, hend]
    · exact pass_countFrom hends hend (.refl p) (fun h ↦ absurd h hident) hopen

end Harvest.Parser
