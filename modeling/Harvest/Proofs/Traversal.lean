import Harvest.Traversal
import Mathlib.Logic.Relation
import Mathlib.Tactic.SplitIfs

/-!
# Stacks of a traversal

A depth-first traversal may be read as one with a stack: the successors of a node are put on top of
the nodes that are left. Both the equations and the induction below follow the stack. What a
traversal finds is what can be reached over the edges; keys that are used up hide nothing but nodes
from which all that can be reached is used up as well. Nodes that stand twice on the stack or among
successors are visited at the first place.
-/

namespace Harvest

section

variable {α κ : Type} {visit visit' : α → List κ → List α × List κ}

theorem visitAll_append (stack stack' : List α) (fresh : List κ) :
    visitAll visit (stack ++ stack') fresh =
      ((visitAll visit stack fresh).1 ++ (visitAll visit stack' (visitAll visit stack fresh).2).1,
        (visitAll visit stack' (visitAll visit stack fresh).2).2) := by
  induction stack generalizing fresh with
  | nil => rfl
  | cons node rest ih => simp only [List.cons_append, visitAll, ih, List.append_assoc]

theorem length_visitAll_le (h : ∀ node fresh, (visit node fresh).2.length ≤ fresh.length)
    (stack : List α) (fresh : List κ) :
    (visitAll visit stack fresh).2.length ≤ fresh.length := by
  induction stack generalizing fresh with
  | nil => exact Nat.le_refl _
  | cons node rest ih => exact Nat.le_trans (ih _) (h node fresh)

/-- Only what is left of the keys at a node counts. -/
theorem visitAll_congr {bound : Nat}
    (hle : ∀ node fresh, (visit node fresh).2.length ≤ fresh.length)
    (h : ∀ node fresh, fresh.length ≤ bound → visit node fresh = visit' node fresh)
    (stack : List α) {fresh : List κ} (hfresh : fresh.length ≤ bound) :
    visitAll visit stack fresh = visitAll visit' stack fresh := by
  induction stack generalizing fresh with
  | nil => rfl
  | cons node rest ih =>
    simp only [visitAll, ← h node fresh hfresh, ih (Nat.le_trans (hle node fresh) hfresh)]

end

variable {α κ : Type} [DecidableEq κ] (key : α → κ) (next : α → List α)

theorem length_visit_le (length : Nat) (node : α) (fresh : List κ) :
    (visit key next length node fresh).2.length ≤ fresh.length := by
  induction length generalizing node fresh with
  | zero => exact Nat.le_refl _
  | succ length ih =>
    rw [visit]
    split
    · rename_i hmem
      exact Nat.le_trans (length_visitAll_le ih _ _) (Nat.le_of_lt (length_without_lt hmem))
    · exact Nat.le_refl _

/-- No path is longer than the list of keys. -/
theorem visit_of_le {length length' : Nat} (node : α) {fresh : List κ} (h : fresh.length ≤ length)
    (h' : fresh.length ≤ length') :
    visit key next length node fresh = visit key next length' node fresh := by
  induction length generalizing length' node fresh with
  | zero =>
    obtain rfl := List.length_eq_zero_iff.1 (Nat.le_zero.1 h)
    cases length' <;> simp [visit]
  | succ length ih =>
    cases length' with
    | zero =>
      obtain rfl := List.length_eq_zero_iff.1 (Nat.le_zero.1 h')
      simp [visit]
    | succ length' =>
      simp only [visit]
      split
      · rename_i hmem
        have hlt := length_without_lt hmem
        have hsame : ∀ other (left : List κ), left.length ≤ (without (key node) fresh).length →
            visit key next length other left = visit key next length' other left :=
          fun other _ hle ↦ ih other (by omega) (by omega)
        rw [visitAll_congr (length_visit_le key next length) hsame (next node) (Nat.le_refl _)]
      · rfl

theorem preorder_eq_visitAll {length : Nat} {fresh : List κ} (h : fresh.length ≤ length)
    (stack : List α) :
    preorder key next fresh stack = (visitAll (visit key next length) stack fresh).1 := by
  have hsame := visitAll_congr (length_visit_le key next fresh.length)
    (fun node _ hle ↦ visit_of_le key next node hle (Nat.le_trans hle h)) stack (Nat.le_refl _)
  rw [preorder, hsame]

@[simp]
theorem preorder_nil (fresh : List κ) : preorder key next fresh [] = [] := rfl

/-- The successors of a node are put on top of the nodes that are left. -/
theorem preorder_cons (fresh : List κ) (node : α) (rest : List α) :
    preorder key next fresh (node :: rest) =
      if key node ∈ fresh then
        node :: preorder key next (without (key node) fresh) (next node ++ rest)
      else preorder key next fresh rest := by
  rw [preorder_eq_visitAll key next (Nat.le_succ fresh.length), visitAll, visit]
  by_cases hmem : key node ∈ fresh
  · have hlt := length_without_lt hmem
    have hleft := length_visitAll_le (length_visit_le key next fresh.length) (next node)
      (without (key node) fresh)
    have hrest := visitAll_congr (length_visit_le key next (fresh.length + 1))
      (fun node _ hle ↦ visit_of_le key next node (Nat.le_succ_of_le hle) hle) rest
      (Nat.le_trans hleft (Nat.le_of_lt hlt))
    rw [if_pos hmem, if_pos hmem]
    dsimp only
    rw [hrest, preorder_eq_visitAll key next (Nat.le_of_lt hlt), visitAll_append, List.cons_append]
  · rw [if_neg hmem, if_neg hmem]
    exact (preorder_eq_visitAll key next (Nat.le_succ fresh.length) rest).symm

/-- Induction along the stack of a traversal. -/
@[elab_as_elim]
theorem preorder_induction {motive : List κ → List α → Prop} (nil : ∀ fresh, motive fresh [])
    (enter : ∀ fresh node rest, key node ∈ fresh →
      motive (without (key node) fresh) (next node ++ rest) → motive fresh (node :: rest))
    (pass : ∀ fresh node rest, key node ∉ fresh → motive fresh rest → motive fresh (node :: rest))
    (fresh : List κ) (stack : List α) : motive fresh stack :=
  match stack with
  | [] => nil fresh
  | node :: rest =>
    if h : key node ∈ fresh then
      enter fresh node rest h (preorder_induction nil enter pass _ _)
    else pass fresh node rest h (preorder_induction nil enter pass _ _)
termination_by (fresh.length, stack.length)
decreasing_by
  · exact Prod.Lex.left _ _ (length_without_lt h)
  · exact Prod.Lex.right _ (Nat.lt_succ_self _)

/-- A traversal stays among the nodes that have a property which edges keep. -/
theorem mem_preorder {V : α → Prop} (hclosed : ∀ x, V x → ∀ y ∈ next x, V y) {fresh : List κ}
    {stack : List α} (hstack : ∀ x ∈ stack, V x) : ∀ x ∈ preorder key next fresh stack, V x := by
  induction fresh, stack using preorder_induction key next with
  | nil fresh => simp
  | enter fresh node rest hmem ih =>
    have hnode := hstack node List.mem_cons_self
    rw [preorder_cons, if_pos hmem]
    intro x hx
    rcases List.mem_cons.1 hx with rfl | hx
    · exact hnode
    · apply ih _ x hx
      intro y hy
      rcases List.mem_append.1 hy with hy | hy
      · exact hclosed node hnode y hy
      · exact hstack y (List.mem_cons_of_mem _ hy)
  | pass fresh node rest hmem ih =>
    rw [preorder_cons, if_neg hmem]
    exact ih fun x hx ↦ hstack x (List.mem_cons_of_mem _ hx)

/-- No fresh key is left out, neither on the stack nor after a node that was found. -/
theorem exists_mem_preorder {fresh : List κ} {stack : List α} {x : α} (hfresh : key x ∈ fresh)
    (hx : x ∈ stack ∨ ∃ y ∈ preorder key next fresh stack, x ∈ next y) :
    ∃ y ∈ preorder key next fresh stack, key y = key x := by
  induction fresh, stack using preorder_induction key next with
  | nil fresh => simp at hx
  | enter fresh node rest hmem ih =>
    rw [preorder_cons, if_pos hmem] at hx ⊢
    by_cases hkey : key node = key x
    · exact ⟨node, List.mem_cons_self, hkey⟩
    · have hleft : key x ∈ without (key node) fresh := by simp [without, hfresh, Ne.symm hkey]
      have hstack : x ∈ next node ++ rest ∨
          ∃ y ∈ preorder key next (without (key node) fresh) (next node ++ rest), x ∈ next y := by
        rcases hx with hx | ⟨y, hy, hx⟩
        · rcases List.mem_cons.1 hx with rfl | hx
          · exact (hkey rfl).elim
          · exact .inl (List.mem_append_right _ hx)
        · rcases List.mem_cons.1 hy with rfl | hy
          · exact .inl (List.mem_append_left _ hx)
          · exact .inr ⟨y, hy, hx⟩
      obtain ⟨y, hy, hsame⟩ := ih hleft hstack
      exact ⟨y, List.mem_cons_of_mem _ hy, hsame⟩
  | pass fresh node rest hmem ih =>
    rw [preorder_cons, if_neg hmem] at hx ⊢
    refine ih hfresh (hx.imp_left fun hx ↦ ?_)
    rcases List.mem_cons.1 hx with rfl | hx
    · exact (hmem hfresh).elim
    · exact hx

/-- The node can be reached from one on the stack. -/
def ReachedFrom (stack : List α) (x : α) : Prop :=
  ∃ a ∈ stack, Relation.ReflTransGen (fun x y ↦ y ∈ next x) a x

variable {key next} {fresh : List κ} {stack : List α}

theorem ReachedFrom.after {x y : α} (hx : ReachedFrom next stack x) (hy : y ∈ next x) :
    ReachedFrom next stack y := by
  obtain ⟨a, ha, hreaches⟩ := hx
  exact ⟨a, ha, hreaches.tail hy⟩

theorem reachedFrom_of_mem_preorder {x : α} (hx : x ∈ preorder key next fresh stack) :
    ReachedFrom next stack x :=
  mem_preorder key next (fun _ hx _ hy ↦ ReachedFrom.after hx hy) (fun a ha ↦ ⟨a, ha, .refl⟩) x hx

/-- What can be reached is found, unless it is `done`. The nodes that are done may be missing from
the fresh keys, if the nodes after them are done as well. -/
theorem mem_preorder_of_reachedFrom {done : α → Prop} (hdone : ∀ x, done x → ∀ y ∈ next x, done y)
    (hfresh : ∀ x, ReachedFrom next stack x → ¬done x → key x ∈ fresh)
    (hkey : ∀ x y, ReachedFrom next stack x → ReachedFrom next stack y → key x = key y → x = y)
    {x : α} (hx : ReachedFrom next stack x) (hleft : ¬done x) :
    x ∈ preorder key next fresh stack := by
  have hfound : ∀ {x}, ReachedFrom next stack x → ¬done x →
      (x ∈ stack ∨ ∃ y ∈ preorder key next fresh stack, x ∈ next y) →
      x ∈ preorder key next fresh stack := by
    intro x hx hleft hseen
    obtain ⟨y, hy, hsame⟩ := exists_mem_preorder key next (hfresh x hx hleft) hseen
    rwa [← hkey y x (reachedFrom_of_mem_preorder hy) hx hsame]
  obtain ⟨a, ha, hreaches⟩ := hx
  induction hreaches with
  | refl => exact hfound ⟨a, ha, .refl⟩ hleft (.inl ha)
  | tail hbefore hlast ih =>
    have hbefore' := ih fun h ↦ hleft (hdone _ h _ hlast)
    exact hfound ⟨a, ha, hbefore.tail hlast⟩ hleft (.inr ⟨_, hbefore', hlast⟩)

/-- Where no key is used up, a traversal finds exactly what can be reached. -/
theorem mem_preorder_iff (hfresh : ∀ x, ReachedFrom next stack x → key x ∈ fresh)
    (hkey : ∀ x y, ReachedFrom next stack x → ReachedFrom next stack y → key x = key y → x = y)
    {x : α} : x ∈ preorder key next fresh stack ↔ ReachedFrom next stack x := by
  have hdone : ∀ x, False → ∀ y ∈ next x, False := fun _ h _ _ ↦ h
  refine ⟨reachedFrom_of_mem_preorder, fun hx ↦ ?_⟩
  exact mem_preorder_of_reachedFrom hdone (fun y hy _ ↦ hfresh y hy) hkey hx not_false

section Repeats

variable {α : Type} [DecidableEq α]

/-- Whether repetitions go first or what is not wanted makes no difference. -/
theorem eraseDups_filter (p : α → Bool) (xs : List α) :
    (xs.filter p).eraseDups = xs.eraseDups.filter p := by
  induction hlength : xs.length using Nat.strongRecOn generalizing xs with
  | ind length ih =>
    cases xs with
    | nil => rfl
    | cons a xs =>
      have hless : (xs.filter fun b ↦ !b == a).length < length := by
        rw [← hlength]
        exact Nat.lt_succ_of_le (List.length_filter_le _ xs)
      rw [List.eraseDups_cons, List.filter_cons, List.filter_cons, ← ih _ hless _ rfl,
        List.filter_filter]
      split_ifs with ha
      · rw [List.eraseDups_cons, List.filter_filter]
        simp only [Bool.and_comm]
      · congr 1
        apply List.filter_congr
        intro b _
        by_cases hb : b = a
        · simp [hb, ha]
        · simp [hb]

theorem eraseDups_append_congr {xs xs' ys ys' : List α} (hxs : xs.eraseDups = xs'.eraseDups)
    (hys : ys.eraseDups = ys'.eraseDups) : (xs ++ ys).eraseDups = (xs' ++ ys').eraseDups := by
  have hmem : ∀ a, xs.elem a = xs'.elem a := by
    intro a
    rw [Bool.eq_iff_iff, List.elem_iff, List.elem_iff, ← List.mem_eraseDups, hxs,
      List.mem_eraseDups]
  rw [List.eraseDups_append, List.eraseDups_append, hxs, List.removeAll, List.removeAll,
    eraseDups_filter, eraseDups_filter, hys]
  simp only [hmem]

omit [DecidableEq α] in
theorem preorder_append_of_notMem {κ : Type} [DecidableEq κ] {key : α → κ} {next : α → List α}
    {fresh : List κ} {before : List α} (h : ∀ x ∈ before, key x ∉ fresh) (stack : List α) :
    preorder key next fresh (before ++ stack) = preorder key next fresh stack := by
  induction before with
  | nil => rfl
  | cons x before ih =>
    rw [List.cons_append, preorder_cons, if_neg (h x List.mem_cons_self),
      ih fun y hy ↦ h y (List.mem_cons_of_mem x hy)]

/-- Repetitions do not count, neither on the stack nor among the successors of a node. -/
theorem preorder_eraseDups_congr {next next' : α → List α}
    (hnext : ∀ x, (next x).eraseDups = (next' x).eraseDups) {fresh stack stack' : List α}
    (h : (stack.filter (· ∈ fresh)).eraseDups = (stack'.filter (· ∈ fresh)).eraseDups) :
    preorder id next fresh stack = preorder id next' fresh stack' := by
  induction fresh, stack using preorder_induction id next generalizing stack' with
  | nil fresh =>
    have hnone : ∀ x ∈ stack', id x ∉ fresh := by
      intro x hx hfresh
      have hmem : x ∈ (stack'.filter (· ∈ fresh)).eraseDups :=
        List.mem_eraseDups.2 (List.mem_filter.2 ⟨hx, decide_eq_true hfresh⟩)
      rw [← h] at hmem
      cases hmem
    rw [preorder_nil, ← List.append_nil stack', preorder_append_of_notMem hnone, preorder_nil]
  | enter fresh node rest hmem ih =>
    have hfresh : node ∈ fresh := hmem
    rw [List.filter_cons, if_pos (by simpa using hfresh), List.eraseDups_cons] at h
    cases hstack : stack'.filter (· ∈ fresh) with
    | nil =>
      rw [hstack] at h
      cases h
    | cons first found =>
      rw [hstack, List.eraseDups_cons] at h
      obtain ⟨rfl, hfound⟩ := List.cons_eq_cons.1 h
      obtain ⟨before, rest', rfl, hbefore, -, rfl⟩ := List.filter_eq_cons_iff.1 hstack
      have hskipped : ∀ x ∈ before, id x ∉ fresh := by simpa using hbefore
      have hwithout : ∀ xs : List α, xs.filter (· ∈ without node fresh) =
          (xs.filter (· ∈ fresh)).filter (fun b ↦ !b == node) := by
        intro xs
        rw [List.filter_filter]
        apply List.filter_congr
        intro b _
        by_cases hb : b = node <;> simp [without, hb]
      rw [preorder_append_of_notMem hskipped, preorder_cons, preorder_cons, if_pos hmem, if_pos hmem]
      congr 1
      apply ih
      rw [List.filter_append, List.filter_append]
      apply eraseDups_append_congr
      · rw [eraseDups_filter, eraseDups_filter, hnext]
      · rw [id, hwithout, hwithout]
        exact hfound
  | pass fresh node rest hmem ih =>
    rw [preorder_cons, if_neg hmem]
    apply ih
    rwa [List.filter_cons, if_neg (by simpa using hmem)] at h

/-- Only which of the nodes that can be met are fresh counts. -/
theorem preorder_fresh_congr {next : α → List α} {V : α → Prop}
    (hclosed : ∀ x, V x → ∀ y ∈ next x, V y) {fresh fresh' stack : List α}
    (hfresh : ∀ x, V x → (x ∈ fresh' ↔ x ∈ fresh)) (hstack : ∀ x ∈ stack, V x) :
    preorder id next fresh' stack = preorder id next fresh stack := by
  induction fresh, stack using preorder_induction id next generalizing fresh' with
  | nil fresh => rfl
  | enter fresh node rest hmem ih =>
    have hnode := hstack node List.mem_cons_self
    have hrest : ∀ x ∈ next node ++ rest, V x := by
      intro x hx
      rcases List.mem_append.1 hx with hx | hx
      · exact hclosed node hnode x hx
      · exact hstack x (List.mem_cons_of_mem _ hx)
    have hused : ∀ x, V x → (x ∈ without (id node) fresh' ↔ x ∈ without (id node) fresh) := by
      intro x hx
      simp only [without, List.mem_filter, hfresh x hx]
    have hmem' : id node ∈ fresh' := (hfresh node hnode).2 hmem
    rw [preorder_cons, preorder_cons, if_pos hmem, if_pos hmem', ih hused hrest]
  | pass fresh node rest hmem ih =>
    have hnode := hstack node List.mem_cons_self
    have hmem' : id node ∉ fresh' := mt (hfresh node hnode).1 hmem
    rw [preorder_cons, preorder_cons, if_neg hmem, if_neg hmem']
    exact ih hfresh fun x hx ↦ hstack x (List.mem_cons_of_mem _ hx)

end Repeats

end Harvest
