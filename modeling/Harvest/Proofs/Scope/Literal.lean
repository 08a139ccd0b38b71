import Harvest.Proofs.Scope.Ledger
import Harvest.Proofs.Scope.Searches

/-!
# Names without detours

In a file that includes nothing and has neither aliases nor `using` directives, every segment of a
name is a child of the scope before it. So the name of a declaration is resolved as far as its path
is declared, nothing is found out on the way, and the ledger of the file says how far that is.
-/

namespace Harvest

/-- The words that lead from `path` along paths of which `found` holds. -/
def leading (found : List String → Prop) [DecidablePred found] (path : List String) :
    List String → List String
  | [] => []
  | word :: words =>
    if found (path ++ [word]) then word :: leading found (path ++ [word]) words else []

theorem leading_congr {found found' : List String → Prop} [DecidablePred found]
    [DecidablePred found'] (h : ∀ path, found path ↔ found' path) (path words : List String) :
    leading found path words = leading found' path words := by
  induction words generalizing path with
  | nil => rfl
  | cons word words ih => simp only [leading, h, ih]

namespace Forest

variable {f g : Forest} {t : Nat} {p : List String}

/-- The two forests have the same aliases and `using` directives. -/
def SameDetours (f g : Forest) : Prop :=
  ∀ x, (g.scope x).aliases = (f.scope x).aliases ∧ (g.scope x).usings = (f.scope x).usings

theorem SameDetours.refl (f : Forest) : f.SameDetours f := fun _ ↦ ⟨rfl, rfl⟩

theorem SameDetours.trans {h : Forest} (hfg : f.SameDetours g) (hgh : g.SameDetours h) :
    f.SameDetours h :=
  fun x ↦ ⟨(hgh x).1.trans (hfg x).1, (hgh x).2.trans (hfg x).2⟩

theorem sameDetours_modifyScope (f : Forest) (r : ScopeRef) {change : Scope → Scope}
    (haliases : ∀ s, (change s).aliases = s.aliases) (husings : ∀ s, (change s).usings = s.usings) :
    f.SameDetours (f.modifyScope r change) :=
  fun x ↦ ⟨field_modifyScope haliases f r x, field_modifyScope husings f r x⟩

/-- A new scope has no detours, as little as a scope that is not there. -/
theorem sameDetours_addChild (f : Forest) (r : ScopeRef) (segment : String)
    (definition : Option ScopeRef) : f.SameDetours (f.addChild r segment definition).1 := by
  have hpush : f.SameDetours (f.push r.tree { definition := definition.getD (f.fresh r.tree) }) := by
    intro x
    by_cases ht : r.tree < f.trees.size
    · rw [scope_push ht]
      split_ifs with hx
      · have hfresh : f.scope x = { definition := x } := by
          simp [scope, hx, fresh, Array.getD_eq_getD_getElem?]
        rw [hfresh]
        exact ⟨rfl, rfl⟩
      · exact ⟨rfl, rfl⟩
    · have hsame : ∀ u, (f.push r.tree { definition := definition.getD (f.fresh r.tree) }).tree u =
          f.tree u := by
        intro u
        rw [push, tree_modifyTree, if_neg fun h ↦ ht h.2]
      rw [scope, hsame, ← scope]
      exact ⟨rfl, rfl⟩
  exact hpush.trans (sameDetours_modifyScope _ r (fun _ ↦ rfl) fun _ ↦ rfl)

theorem sameDetours_openFrom (f : Forest) (t : Nat) (place : Name) (share : Bool) (r : ScopeRef)
    (k : Nat) (segments : List String) :
    f.SameDetours (f.openFrom t place share r k segments).1 ∧
      f.SameFiles (f.openFrom t place share r k segments).1 := by
  induction segments generalizing f r k with
  | nil => exact ⟨.refl f, .refl f⟩
  | cons segment segments ih =>
    rw [openFrom]
    cases (f.scope r).child? segment with
    | some child => exact ih f _ _
    | none =>
      dsimp only
      obtain ⟨hdetours, hfiles⟩ := ih (f.addChild r segment
        (if share || !segments.isEmpty then (f.find? t (place.below (k + 1))).map f.definition
          else none)).1 _ (k + 1)
      exact ⟨(sameDetours_addChild f r segment _).trans hdetours,
        (sameFiles_addChild f r segment _).trans hfiles⟩

/-- The file `t` includes nothing and has neither aliases nor `using` directives. -/
structure Literal (f : Forest) (t : Nat) : Prop where
  includes : (f.tree t).includes = []
  aliases : ∀ x : ScopeRef, x.tree = t → (f.scope x).aliases = []
  usings : ∀ x : ScopeRef, x.tree = t → (f.scope x).usings = []

namespace Literal

theorem congr (h : f.Literal t) (hdetours : f.SameDetours g) (hfiles : f.SameFiles g) :
    g.Literal t where
  includes := (hfiles.includes t).trans h.includes
  aliases x hx := (hdetours x).1.trans (h.aliases x hx)
  usings x hx := (hdetours x).2.trans (h.usings x hx)

theorem of_bare (h : f.Bare t) : f.Literal t := by
  have hscope : ∀ x : ScopeRef, x.tree = t → ∃ definition, f.scope x = { definition } := by
    rintro ⟨_, s⟩ rfl
    rw [scope, h.scopes]
    cases s with
    | zero => exact ⟨_, rfl⟩
    | succ s => exact ⟨_, rfl⟩
  refine ⟨h.includes, fun x hx ↦ ?_, fun x hx ↦ ?_⟩
  all_goals
    obtain ⟨definition, hdefault⟩ := hscope x hx
    rw [hdefault]

theorem modifyScope (h : f.Literal t) (r : ScopeRef) {change : Scope → Scope}
    (haliases : ∀ s, (change s).aliases = s.aliases) (husings : ∀ s, (change s).usings = s.usings) :
    (f.modifyScope r change).Literal t :=
  h.congr (sameDetours_modifyScope f r haliases husings) (sameFiles_modifyScope f r change)

theorem openScope (h : f.Literal t) (u : Nat) (place : Name) (share : Bool) :
    (f.openScope u place share).1.Literal t := by
  obtain ⟨hdetours, hfiles⟩ :=
    sameDetours_openFrom f u place share ⟨u, 0⟩ 1 (place.segments.drop 1)
  exact h.congr hdetours hfiles

theorem settleQualification (h : f.Literal t) (r : ScopeRef) (text : String) :
    (f.settleQualification r text).2.Literal t := by
  rw [Forest.settleQualification]
  split
  · exact h
  · exact h.modifyScope r (fun _ ↦ rfl) fun _ ↦ rfl

theorem unqualifiedContext (h : f.Literal t) (u : Nat) (place : Name) :
    (f.unqualifiedContext u place).2.Literal t := by
  rw [Forest.unqualifiedContext]
  split
  · exact h.settleQualification _ _
  · split
    · exact h
    · exact h.modifyScope _ (fun _ ↦ rfl) fun _ ↦ rfl

/-- The events of a text declare no detours. -/
theorem step {y : Yield} (h : y.forest.Literal t) (file : String) (u : Nat) (e : Event) :
    (y.step file u e).forest.Literal t := by
  cases e with
  | entered path =>
    change (y.forest.enter u _).Literal t
    rw [Forest.enter]
    split_ifs
    · exact h
    · exact h.openScope u _ false
  | marked path => exact (h.openScope u _ true).modifyScope _ (fun _ ↦ rfl) fun _ ↦ rfl
  | called path text =>
    rw [Yield.step, Yield.called]
    split_ifs
    · exact h
    · exact h.unqualifiedContext u _

theorem run {y : Yield} (h : y.forest.Literal t) (file : String) (u : Nat) (es : List Event) :
    (es.foldl (Yield.step file u) y).forest.Literal t := by
  induction es generalizing y with
  | nil => exact h
  | cons e es ih => exact ih (h.step file u e)

open Qualify

/-- One segment is looked for among the children. -/
theorem one_eq (h : f.Literal t) (resolve : Resolver (StateM Findings)) (p : List String)
    (segment : String) :
    one f [t] resolve ⟨"" :: p⟩ segment =
      pure (if (f.walk t (p ++ [segment])).isSome then some ⟨"" :: (p ++ [segment])⟩ else none) := by
  have hbelow : (⟨"" :: p⟩ : Name).below (⟨"" :: p⟩ : Name).length = p := by
    simp [Name.below, Name.length]
  have husings : usingOrder f [t] ⟨"" :: p⟩ = [] := by
    have hnone : usingsAt f [t] ⟨"" :: p⟩ = [] := by
      rw [usingsAt, List.flatMap_eq_nil_iff]
      intro x hx
      obtain ⟨u, hu, hwalk⟩ := List.mem_filterMap.1 hx
      exact h.usings x ((tree_of_walk hwalk).trans (List.mem_singleton.1 hu))
    rw [usingOrder, hnone, preorder_nil]
  rw [one, husings, walk_concat]
  simp only [first, ownAt, hbelow, scopesAt, List.filterMap_cons, List.filterMap_nil]
  cases hwalk : f.walk t p with
  | none => rfl
  | some r =>
    have halias : (f.scope r).alias? segment = none := by
      rw [Scope.alias?, h.aliases r (tree_of_walk hwalk), List.lookup_nil]
    cases hchild : (f.scope r).child? segment with
    | none => simp [first, own, hchild, halias]
    | some child => simp [first, own, hchild, Name.push]

/-- The segments after a path are resolved as far as they lead along scopes. -/
theorem onward_eq (h : f.Literal t) (idle : List AliasSite) (p segments : List String) :
    ∃ known rest, known ++ rest = segments ∧ known = leading (fun q ↦ (f.walk t q).isSome) p segments ∧
      (rest = [] ↔ segments = [] ∨ (f.walk t (p ++ segments)).isSome) ∧
      onward (f.finder [t] idle) ⟨"" :: p⟩ segments =
        pure (if rest = [] then .ok ⟨"" :: (p ++ segments)⟩
          else .error ⟨⟨"" :: (p ++ known)⟩, rest⟩) := by
  induction segments generalizing p with
  | nil => exact ⟨[], [], rfl, rfl, by simp, by simp [onward]⟩
  | cons segment segments ih =>
    have hpath : p ++ segment :: segments = p ++ [segment] ++ segments := by simp
    rw [onward, Forest.finder, h.one_eq, pure_bind]
    by_cases hfound : (f.walk t (p ++ [segment])).isSome
    · obtain ⟨known, rest, rfl, hknown, hrest, hrun⟩ := ih (p ++ [segment])
      refine ⟨segment :: known, rest, rfl, by rw [leading, if_pos hfound, ← hknown], ?_, ?_⟩
      · rw [hrest, hpath]
        simp only [reduceCtorEq, false_or, or_iff_right_iff_imp]
        intro hnil
        rwa [hnil, List.append_nil]
      · simp only [hfound, if_true]
        rw [← Forest.finder, hrun, hpath]
        simp
    · refine ⟨[], segment :: segments, rfl, by rw [leading, if_neg hfound], ?_, ?_⟩
      · rw [hpath]
        simp only [reduceCtorEq, false_or, false_iff]
        exact fun hwalk ↦ hfound (isSome_walk_of_append hwalk)
      · simp [hfound]

/-- The name of a declaration is looked up where it is written. -/
theorem name_declaration {first : String} (hfirst : first ≠ "") (find : Finder (StateM Findings))
    (p more : List String) :
    name find ⟨"" :: p⟩ (⟨"" :: p⟩ : Name).length (first :: more) true =
      within find [⟨"" :: p⟩] (first :: more) := by
  have htake : (⟨"" :: p⟩ : Name).take (⟨"" :: p⟩ : Name).length = ⟨"" :: p⟩ :=
    congrArg Name.mk List.take_length
  have hdeclared := name_declared find (List.cons_ne_nil "" p) hfirst
    (Nat.le_add_left 1 p.length) more
  rwa [← List.length_cons (a := ""), ← Name.length, htake] at hdeclared

/-- A name with a leading `::` is resolved as in the global scope. -/
theorem qualify_global (f : Forest) (t : Nat) (p : List String) {first : String}
    (hfirst : first ≠ "") (more : List String) :
    f.qualify t ⟨"" :: p⟩ (⟨"" :: p⟩ : Name).length ("" :: first :: more) true =
      f.qualify t ⟨[""]⟩ (⟨[""]⟩ : Name).length (first :: more) true := by
  simp only [Forest.qualify, name_declaration hfirst _ []]
  rfl

/-- The name of a declaration is resolved as far as its path is declared; without a first segment
there is no resolved part. Nothing is found out on the way. -/
theorem qualify_declaration (h : f.Literal t) (p : List String) {first : String}
    (hfirst : first ≠ "") (more : List String) :
    ∃ known rest, known ++ rest = first :: more ∧
      known = leading (fun q ↦ (f.walk t q).isSome) p (first :: more) ∧
      (rest = [] ↔ (f.walk t (p ++ first :: more)).isSome) ∧
      (known = [] ↔ ¬ (f.walk t (p ++ [first])).isSome) ∧
      f.qualify t ⟨"" :: p⟩ (⟨"" :: p⟩ : Name).length (first :: more) true =
        (if rest = [] then .ok ⟨"" :: (p ++ first :: more)⟩
          else .error ⟨if known = [] then Name.root else ⟨"" :: (p ++ known)⟩, rest⟩, f) := by
  have hpath : p ++ first :: more = p ++ [first] ++ more := by simp
  have horder : f.order t = [t] := order_of_no_includes h.includes
  have hwithin : within (f.finder [t] f.idleAliases) [⟨"" :: p⟩] (first :: more) =
      if (f.walk t (p ++ [first])).isSome then
        onward (f.finder [t] f.idleAliases) ⟨"" :: (p ++ [first])⟩ more
      else pure (.error ⟨Name.root, first :: more⟩) := by
    rw [within]
    simp only [Qualify.first]
    rw [Forest.finder, h.one_eq]
    split_ifs <;> simp
  simp only [Forest.qualify, name_declaration hfirst, horder, hwithin]
  by_cases hfound : (f.walk t (p ++ [first])).isSome
  · obtain ⟨known, rest, rfl, hreach, hrest, hrun⟩ := h.onward_eq f.idleAliases (p ++ [first]) more
    refine ⟨first :: known, rest, rfl, by rw [leading, if_pos hfound, ← hreach], ?_, by simp [hfound],
      ?_⟩
    · rw [hrest, hpath, or_iff_right_iff_imp]
      intro hnil
      rwa [hnil, List.append_nil]
    · have hknown : p ++ first :: known = p ++ [first] ++ known := by simp
      rw [if_pos hfound, hrun, if_neg (List.cons_ne_nil first known), hknown, hpath]
      rfl
  · refine ⟨[], first :: more, rfl, by rw [leading, if_neg hfound], ?_, by simp [hfound], ?_⟩
    · rw [hpath]
      simp only [reduceCtorEq, false_iff]
      exact fun hwalk ↦ hfound (isSome_walk_of_append hwalk)
    · rw [if_neg hfound, if_neg (List.cons_ne_nil first more), if_pos rfl]
      rfl

end Literal

end Forest

end Harvest
