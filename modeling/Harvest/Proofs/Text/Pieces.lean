import Harvest.Text.Blank
import Mathlib.Tactic.SplitIfs

/-!
# Cutting texts

What the pieces between separators are, and that joining undoes cutting.
-/

namespace Harvest.Text

variable {p : Char → Bool} {c : Char} {cs : List Char}

theorem pieces_append (hc : p c = true) (cs ds : List Char) :
    pieces p (cs ++ c :: ds) = pieces p cs ++ pieces p ds := by
  induction cs with
  | nil =>
    cases h : pieces p ds with
    | nil => exact absurd h (pieces_ne_nil p ds)
    | cons piece more => simp [pieces, h, hc]
  | cons d cs ih =>
    cases h : pieces p cs with
    | nil => exact absurd h (pieces_ne_nil p cs)
    | cons piece more =>
      rw [List.cons_append, pieces, pieces, ih, h]
      by_cases hd : p d = true <;> simp [hd]

theorem pieces_eq_singleton (h : ∀ d ∈ cs, p d = false) : pieces p cs = [cs] := by
  induction cs with
  | nil => rfl
  | cons d cs ih =>
    rw [List.forall_mem_cons] at h
    simp [pieces, ih h.2, h.1]

/-- No piece has a separator in it. -/
theorem eq_false_of_mem_pieces {piece : List Char} (hpiece : piece ∈ pieces p cs) {d : Char}
    (hd : d ∈ piece) : p d = false := by
  induction cs generalizing piece with
  | nil =>
    rw [List.mem_singleton.1 hpiece] at hd
    cases hd
  | cons e cs ih =>
    cases h : pieces p cs with
    | nil => exact absurd h (pieces_ne_nil p cs)
    | cons first more =>
      rw [h] at ih
      rw [pieces, h] at hpiece
      dsimp only at hpiece
      split_ifs at hpiece with he
      · rcases List.mem_cons.1 hpiece with rfl | hpiece
        · cases hd
        · exact ih hpiece hd
      · rcases List.mem_cons.1 hpiece with rfl | hpiece
        · rcases List.mem_cons.1 hd with rfl | hd
          · exact Bool.eq_false_iff.2 he
          · exact ih List.mem_cons_self hd
        · exact ih (List.mem_cons_of_mem first hpiece) hd

theorem intercalate_pieces (c : Char) (cs : List Char) :
    [c].intercalate (pieces (· = c) cs) = cs := by
  induction cs with
  | nil => rfl
  | cons d cs ih =>
    cases h : pieces (· = c) cs with
    | nil => exact absurd h (pieces_ne_nil _ cs)
    | cons piece more =>
      rw [h] at ih
      rw [pieces, h]
      dsimp only
      split_ifs with hd
      · rw [List.intercalate_cons_cons, ih, of_decide_eq_true hd]
        rfl
      · cases more with
        | nil => simpa using ih
        | cons next more =>
          rw [List.intercalate_cons_cons] at ih ⊢
          rw [List.cons_append, List.cons_append, ih]

theorem splitFirst_eq_some_iff {head rest : List Char} :
    splitFirst c cs = some (head, rest) ↔ cs = head ++ c :: rest ∧ c ∉ head := by
  induction cs generalizing head with
  | nil => simp [splitFirst]
  | cons d cs ih =>
    rw [splitFirst]
    split_ifs with hd
    · subst hd
      constructor
      · rintro ⟨⟩
        exact ⟨rfl, by simp⟩
      · rintro ⟨heq, hhead⟩
        cases head with
        | nil => exact congrArg (fun r ↦ some ([], r)) (List.cons.inj heq).2
        | cons e head =>
          obtain ⟨rfl, -⟩ := List.cons.inj heq
          exact absurd List.mem_cons_self hhead
    · constructor
      · intro h
        obtain ⟨⟨head', rest'⟩, h', heq⟩ := Option.map_eq_some_iff.1 h
        obtain ⟨rfl, rfl⟩ := Prod.mk.inj heq
        obtain ⟨rfl, hhead⟩ := ih.1 h'
        exact ⟨rfl, by simp [hhead, Ne.symm hd]⟩
      · rintro ⟨heq, hhead⟩
        cases head with
        | nil => exact absurd (List.cons.inj heq).1 hd
        | cons e head =>
          obtain ⟨rfl, rfl⟩ := List.cons.inj heq
          rw [ih.2 ⟨rfl, fun h ↦ hhead (List.mem_cons_of_mem _ h)⟩]
          rfl

end Harvest.Text
