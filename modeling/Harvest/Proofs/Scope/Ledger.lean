import Harvest.Proofs.Outline
import Harvest.Proofs.Parser.Reading
import Harvest.Proofs.Scope.Growth

/-!
# Ledgers

A ledger holds what a text has said about its scopes up to some point: which paths it has declared,
which of them it has marked, and for which of them a lack of support was reported. What a call at a
path yields can be read off the ledger, without any scope forest.

Main statement: a forest that agrees with a ledger yields what the ledger says, event after event.
The scopes of a file may be declared in part by an included file; the ledger does not tell the two
apart.
-/

namespace Harvest

structure Ledger where
  declared : List (List String) := [[]]
  marked : List (List String) := []
  complained : List (List String) := []

namespace Ledger

instance (l : Ledger) (path : List String) : Decidable (path ∈ l.declared) := inferInstance

/-- The beginnings of a path, the longest first. -/
def beginnings (path : List String) : List (List String) :=
  (List.range (path.length + 1)).reverse.map path.take

/-- The longest beginning of a path that is marked. -/
def support? (l : Ledger) (path : List String) : Option (List String) :=
  (beginnings path).find? (· ∈ l.marked)

/-- The context of a call: the longest marked beginning of its path, or else the whole path. -/
def context (l : Ledger) (path : List String) : String := Name.join ((l.support? path).getD path)

def step (l : Ledger) : Event → Ledger
  | .entered path => { l with declared := path :: l.declared }
  | .marked path => { l with marked := path :: l.marked }
  | .called path _ =>
    if path = [] ∨ (l.support? path).isSome then l
    else { l with complained := path :: l.complained }

/-- The messages of an event. A call outside of all scopes has no context and gives none. -/
def messages (l : Ledger) (file : String) : Event → List Message
  | .called path text => if path = [] then [] else [.plain file (l.context path) text]
  | _ => []

/-- The diagnostics of an event. The lack of support is reported once for each path. -/
def diagnostics (l : Ledger) (file : String) : Event → List Diagnostic
  | .called path _ =>
    if path = [] then [.missingContext file]
    else if (l.support? path).isNone ∧ path ∉ l.complained then
      [.missingSupport file (Name.join path)]
    else []
  | _ => []

def allMessages (l : Ledger) (file : String) : List Event → List Message
  | [] => []
  | e :: es => l.messages file e ++ (l.step e).allMessages file es

def allDiagnostics (l : Ledger) (file : String) : List Event → List Diagnostic
  | [] => []
  | e :: es => l.diagnostics file e ++ (l.step e).allDiagnostics file es

/-- Events that make sense after what the ledger holds, where no path that an included file has
declared is marked. -/
def Admits (l : Ledger) (inherited : List (List String)) : Event → Prop
  | .entered path => path.dropLast ∈ l.declared ∧ path ≠ []
  | .marked path => path ∈ l.declared ∧ path ≠ [] ∧ path ∉ inherited
  | .called path _ => path ∈ l.declared

def AdmitsAll (l : Ledger) (inherited : List (List String)) : List Event → Prop
  | [] => True
  | e :: es => l.Admits inherited e ∧ (l.step e).AdmitsAll inherited es

end Ledger

/-- What the ledger says about the scope at a path. -/
structure Scope.Fits (s : Scope) (l : Ledger) (path : List String) : Prop where
  marked : s.supportsTr = true ↔ path ∈ l.marked
  complained : s.complained = true ↔ path ∈ l.complained
  qualification : ∀ text, s.qualification = some text → text = Name.join path
  bases : s.bases = []

/-- The scopes of the file `t` agree with the ledger. Their paths in included files are among
`inherited`. -/
structure Forest.Tracks (f : Forest) (t : Nat) (inherited : List (List String)) (l : Ledger) :
    Prop where
  apart : t ∉ (f.order t).tail
  inherits : ∀ u ∈ (f.order t).tail, ∀ p, (f.walk u p).isSome → p ∈ inherited
  found : ∀ p, (f.find? t p).isSome ↔ p ∈ l.declared
  has : ∀ p r, f.find? t p = some r → f.Has r ∧ f.Has (f.definition r)
  home : ∀ p r, f.find? t p = some r → (f.definition r).tree ∈ f.order t
  fits : ∀ p r, f.find? t p = some r → (f.scope (f.definition r)).Fits l p
  bases : ∀ p r, f.find? t p = some r → (f.scope r).bases = []
  distinct : ∀ p q r s, f.find? t p = some r → f.find? t q = some s →
    f.definition r = f.definition s → p = q
  own : ∀ p r, f.walk t p = some r → p ∉ inherited → f.definition r = r
  marked : ∀ p ∈ l.marked, p ∈ l.declared
  complained : ∀ p ∈ l.complained, p ∈ l.declared

namespace Forest

variable {f : Forest} {t : Nat} {inherited : List (List String)} {l : Ledger} {r : ScopeRef}
  {p q : List String}

/-- A path that is found leads through paths that are found. -/
theorem isSome_find?_of_append (h : (f.find? t (p ++ q)).isSome) : (f.find? t p).isSome := by
  simp only [find?, List.findSome?_isSome_iff] at h ⊢
  obtain ⟨u, hu, hwalk⟩ := h
  exact ⟨u, hu, isSome_walk_of_append hwalk⟩

namespace Tracks

theorem declared_of_append (h : f.Tracks t inherited l) (hpq : p ++ q ∈ l.declared) :
    p ∈ l.declared :=
  (h.found p).1 (isSome_find?_of_append ((h.found _).2 hpq))

theorem root_declared (h : f.Tracks t inherited l) : [] ∈ l.declared :=
  (h.found []).1 (by rw [find?_of_walk (walk_nil f t)]; rfl)

/-- Only the membership of paths in the ledger counts. -/
theorem congr {declared : List (List String)} (h : f.Tracks t inherited l)
    (hdeclared : ∀ p, p ∈ declared ↔ p ∈ l.declared) :
    f.Tracks t inherited { l with declared } where
  __ := h
  found p := (h.found p).trans (hdeclared p).symm
  fits p r hp := ⟨(h.fits p r hp).marked, (h.fits p r hp).complained,
    (h.fits p r hp).qualification, (h.fits p r hp).bases⟩
  marked p hp := (hdeclared p).2 (h.marked p hp)
  complained p hp := (hdeclared p).2 (h.complained p hp)

section AddChild

variable {segment : String} {g : Forest} {x : ScopeRef}

/-- A path that no included file has is found in the file itself or not at all. -/
theorem find?_eq_walk (h : f.Tracks t inherited l) (hp : p ∉ inherited) :
    f.find? t p = f.walk t p := by
  have htail : (f.order t).tail.findSome? (fun u ↦ f.walk u p) = none := by
    refine List.findSome?_eq_none_iff.2 fun u hu ↦ ?_
    by_contra hsome
    exact hp (h.inherits u hu p (Option.isSome_iff_ne_none.2 hsome))
  rw [find?_eq, htail, Option.or_none]

/-- No other path leads to a scope of the file itself. -/
theorem eq_of_walk (h : f.Tracks t inherited l) (hp : f.walk t p = some r)
    (hq : f.walk t q = some r) : p = q :=
  h.distinct p q r r (find?_of_walk hp) (find?_of_walk hq) rfl

theorem has_of_walk (h : f.Tracks t inherited l) (hp : f.walk t p = some r) : f.Has r :=
  (h.has p r (find?_of_walk hp)).1

theorem walk_addChild_of_mem (h : f.Tracks t inherited l) (hr : r.tree = t)
    (definition : Option ScopeRef) {u : Nat} (hu : u ∈ (f.order t).tail) (p : List String) :
    (f.addChild r segment definition).1.walk u p = f.walk u p := by
  refine walk_congr (fun x hx ↦ ?_) p
  have hne : x.tree ≠ r.tree := by
    rw [hx, hr]
    exact fun hut ↦ h.apart (hut ▸ hu)
  rw [scope, tree_addChild_of_ne hne, ← scope]

theorem walk_of_addChild (h : f.Tracks t inherited l) (hq : f.walk t q = some r)
    (hchild : (f.scope r).child? segment = none) (definition : Option ScopeRef) (p : List String) :
    (f.addChild r segment definition).1.walk t p =
      if p = q ++ [segment] then some (f.fresh t) else f.walk t p :=
  walk_addChild hq (fun _ hp ↦ h.eq_of_walk hp hq) (fun _ _ hp ↦ h.has_of_walk hp) hchild
    definition p

theorem find?_addChild (h : f.Tracks t inherited l) (hq : f.walk t q = some r)
    (hchild : (f.scope r).child? segment = none) (definition : Option ScopeRef) (p : List String) :
    (f.addChild r segment definition).1.find? t p =
      if p = q ++ [segment] then some (f.fresh t) else f.find? t p := by
  rw [find?_eq, h.walk_of_addChild hq hchild, (sameFiles_addChild f r segment definition).order_eq,
    findSome?_walk_congr fun u hu ↦ h.walk_addChild_of_mem (tree_of_walk hq) definition hu p]
  by_cases hp : p = q ++ [segment]
  · rw [if_pos hp, if_pos hp, Option.some_or]
  · rw [if_neg hp, if_neg hp, ← find?_eq]

/-- The definitions behind the paths are the old ones, but that of a path that was not found before
is the new scope. -/
theorem definition_addChild (h : f.Tracks t inherited l) (hq : f.walk t q = some r)
    (hchild : (f.scope r).child? segment = none)
    (hg : g = (f.addChild r segment ((f.find? t (q ++ [segment])).map f.definition)).1)
    (hx : g.find? t p = some x) :
    (∃ y, f.find? t p = some y ∧ g.definition x = f.definition y) ∨
      (f.find? t p = none ∧ p = q ++ [segment] ∧ g.definition x = f.fresh t) := by
  have hr := h.has_of_walk hq
  subst hg
  rw [h.find?_addChild hq hchild] at hx
  by_cases hp : p = q ++ [segment]
  · rw [if_pos hp] at hx
    obtain rfl := Option.some.inj hx
    subst hp
    rw [definition, scope_addChild hr, tree_of_walk hq, if_pos rfl]
    cases hfound : f.find? t (q ++ [segment]) with
    | none => exact .inr ⟨rfl, rfl, rfl⟩
    | some y => exact .inl ⟨y, rfl, rfl⟩
  · rw [if_neg hp] at hx
    obtain ⟨children, hscope⟩ := scope_addChild_of_has hr (h.has p x hx).1 segment
      ((f.find? t (q ++ [segment])).map f.definition)
    refine .inl ⟨x, hx, ?_⟩
    rw [definition, hscope, ← definition]

/-- A scope of the file whose path no included file has is still its own definition. -/
theorem own_addChild (h : f.Tracks t inherited l) (hq : f.walk t q = some r)
    (hchild : (f.scope r).child? segment = none)
    (hg : g = (f.addChild r segment ((f.find? t (q ++ [segment])).map f.definition)).1)
    (hx : g.walk t p = some x) (hp : p ∉ inherited) : g.definition x = x := by
  have hwalk := h.walk_of_addChild hq hchild ((f.find? t (q ++ [segment])).map f.definition) p
  have hfound := h.find?_eq_walk hp
  rw [← hg, hx] at hwalk
  rcases h.definition_addChild hq hchild hg (find?_of_walk hx) with ⟨y, hy, heq⟩ | ⟨-, hpq, heq⟩
  · split_ifs at hwalk with hpq
    · -- The new path was found nowhere, since its parent has no such child.
      rw [hfound, hpq, walk_concat, hq, Option.bind_some, hchild] at hy
      cases hy
    · rw [hfound, ← hwalk] at hy
      obtain rfl := Option.some.inj hy
      exact heq.trans (h.own p x hwalk.symm hp)
  · rw [if_pos hpq] at hwalk
    rw [heq, Option.some.inj hwalk]

/-- A scope that is added with the definition of the scope found at its path, or with its own. -/
theorem addChild (h : f.Tracks t inherited l) (hq : f.walk t q = some r)
    (hchild : (f.scope r).child? segment = none)
    (hg : g = (f.addChild r segment ((f.find? t (q ++ [segment])).map f.definition)).1) :
    g.Tracks t inherited { l with declared := (q ++ [segment]) :: l.declared } := by
  have hr : f.Has r := h.has_of_walk hq
  have htree : r.tree = t := tree_of_walk hq
  have hfind : ∀ p, g.find? t p = if p = q ++ [segment] then some (f.fresh t) else f.find? t p :=
    fun p ↦ hg ▸ h.find?_addChild hq hchild _ p
  have horder : g.order t = f.order t := hg ▸ (sameFiles_addChild _ _ _ _).order_eq t
  have hhas : ∀ {x}, g.Has x ↔ f.Has x ∨ x = f.fresh t := by
    rw [hg, ← htree]
    exact has_addChild hr
  have hold : ∀ {x}, f.Has x → ∃ children, g.scope x = { f.scope x with children } :=
    fun hx ↦ hg ▸ scope_addChild_of_has hr hx segment _
  have hnew : ∃ definition, g.scope (f.fresh t) = { definition } :=
    ⟨_, by rw [hg, scope_addChild hr, htree, if_pos rfl]⟩
  have hdef := fun p x ↦ h.definition_addChild (p := p) (x := x) hq hchild hg
  exact {
    apart := by rw [horder]; exact h.apart
    inherits := by
      intro u hu p hp
      rw [horder] at hu
      rw [hg, h.walk_addChild_of_mem htree _ hu] at hp
      exact h.inherits u hu p hp
    found := by
      intro p
      rw [hfind]
      by_cases hp : p = q ++ [segment]
      · simp [hp]
      · simp [hp, h.found]
    has := by
      intro p x hx
      constructor
      · rw [hfind] at hx
        split_ifs at hx
        · exact hhas.2 (.inr (Option.some.inj hx).symm)
        · exact hhas.2 (.inl (h.has p x hx).1)
      · rcases hdef p x hx with ⟨y, hy, heq⟩ | ⟨-, -, heq⟩
        · exact heq ▸ hhas.2 (.inl (h.has p y hy).2)
        · exact heq ▸ hhas.2 (.inr rfl)
    home := by
      intro p x hx
      rw [horder]
      rcases hdef p x hx with ⟨y, hy, heq⟩ | ⟨-, -, heq⟩
      · exact heq ▸ h.home p y hy
      · exact heq ▸ List.mem_cons_self
    fits := by
      intro p x hx
      rcases hdef p x hx with ⟨y, hy, heq⟩ | ⟨hnone, -, heq⟩
      · obtain ⟨children, hscope⟩ := hold (h.has p y hy).2
        have hfits := h.fits p y hy
        rw [heq, hscope]
        exact ⟨hfits.marked, hfits.complained, hfits.qualification, hfits.bases⟩
      · -- A path that was not found is in none of the lists.
        obtain ⟨definition, hscope⟩ := hnew
        have habsent : p ∉ l.declared := by simp [← h.found, hnone]
        rw [heq, hscope]
        exact ⟨by simpa using fun hp ↦ habsent (h.marked p hp),
          by simpa using fun hp ↦ habsent (h.complained p hp), by simp, rfl⟩
    bases := by
      intro p x hx
      rw [hfind] at hx
      split_ifs at hx
      · obtain ⟨definition, hscope⟩ := hnew
        rw [← Option.some.inj hx, hscope]
      · obtain ⟨children, hscope⟩ := hold (h.has p x hx).1
        rw [hscope]
        exact h.bases p x hx
    distinct := by
      intro p p' x x' hx hx' heq
      rcases hdef p x hx with ⟨y, hy, hxy⟩ | ⟨-, hp, hxy⟩ <;>
        rcases hdef p' x' hx' with ⟨y', hy', hxy'⟩ | ⟨-, hp', hxy'⟩
      · exact h.distinct p p' y y' hy hy' (hxy.symm.trans (heq.trans hxy'))
      · exact absurd (hxy.symm.trans (heq.trans hxy')) (h.has p y hy).2.ne_fresh
      · exact absurd (hxy'.symm.trans (heq.symm.trans hxy)) (h.has p' y' hy').2.ne_fresh
      · rw [hp, hp']
    own := fun p x hx hp ↦ h.own_addChild hq hchild hg hx hp
    marked := fun p hp ↦ List.mem_cons_of_mem _ (h.marked p hp)
    complained := fun p hp ↦ List.mem_cons_of_mem _ (h.complained p hp) }

/-- The scopes along a path are opened, and nothing else is declared. -/
theorem openFrom (h : f.Tracks t inherited l) (share : Bool) {rest : List String}
    (hq : f.walk t q = some r)
    (hlast : rest ≠ [] → share = true ∨ f.find? t (q ++ rest) = none)
    (hg : (g, x) = f.openFrom t ⟨"" :: (q ++ rest)⟩ share r (q.length + 1) rest) :
    ∃ declared, g.Tracks t inherited { l with declared } ∧
      (∀ p, p ∈ declared ↔ p ∈ l.declared ∨ p <+: q ++ rest) ∧ g.walk t (q ++ rest) = some x ∧
      f.ChangesWithin t g := by
  induction rest generalizing f l q r with
  | nil =>
    obtain ⟨rfl, rfl⟩ := Prod.mk.inj hg
    rw [List.append_nil]
    refine ⟨l.declared, h, fun p ↦ ⟨.inl, ?_⟩, hq, .refl _ t⟩
    rintro (hp | ⟨s, rfl⟩)
    · exact hp
    · exact h.declared_of_append ((h.found _).1 (by rw [find?_of_walk hq]; rfl))
  | cons segment rest ih =>
    have hpath : q ++ segment :: rest = q ++ [segment] ++ rest := by simp
    rw [hpath] at hlast hg ⊢
    rw [Forest.openFrom] at hg
    cases hchild : (f.scope r).child? segment with
    | some child =>
      have hwalk : f.walk t (q ++ [segment]) = some ⟨r.tree, child⟩ := by
        rw [walk_concat, hq, Option.bind_some, hchild]
        rfl
      rw [hchild] at hg
      refine ih h hwalk (fun _ ↦ hlast (by simp)) ?_
      rw [hg, List.length_append, List.length_singleton]
    | none =>
      have hbelow : (⟨"" :: (q ++ [segment] ++ rest)⟩ : Name).below (q.length + 1 + 1) =
          q ++ [segment] := by
        simpa only [List.length_append, List.length_singleton] using
          Name.below_of_append "" (q ++ [segment]) rest
      have hdefinition : (if share || !rest.isEmpty then
          (f.find? t (q ++ [segment])).map f.definition else none) =
          (f.find? t (q ++ [segment])).map f.definition := by
        rcases hlast (by simp) with rfl | hnone
        · rfl
        · cases rest with
          | nil => rw [List.append_nil] at hnone; simp [hnone]
          | cons _ _ => simp
      rw [hchild] at hg
      simp only [hbelow, hdefinition] at hg
      have hadded := h.addChild hq hchild rfl
      have hwalk := h.walk_of_addChild hq hchild ((f.find? t (q ++ [segment])).map f.definition)
        (q ++ [segment])
      rw [if_pos rfl, ← tree_of_walk hq, ← addChild_snd, tree_of_walk hq] at hwalk
      obtain ⟨declared, htracks, hiff, hopened, hframe⟩ := ih hadded hwalk (fun hrest ↦ by
        rw [h.find?_addChild hq hchild, if_neg (by simpa using hrest)]
        exact hlast (by simp)) (by
        rw [hg, List.length_append, List.length_singleton])
      refine ⟨declared, htracks, fun p ↦ (hiff p).trans ?_, hopened, .trans ?_ hframe⟩
      · rw [List.mem_cons, or_assoc]
        refine ⟨?_, .inr⟩
        rintro (rfl | hp)
        · exact .inr (List.prefix_append _ _)
        · exact hp
      · refine ⟨sameFiles_addChild _ _ _ _, fun u hu ↦ tree_addChild_of_ne fun h ↦ hu ?_⟩
        rw [h, tree_of_walk hq]
        exact List.mem_cons_self

theorem openScope (h : f.Tracks t inherited l) (p : List String) (share : Bool)
    (hlast : p ≠ [] → share = true ∨ f.find? t p = none) :
    ∃ declared, (f.openScope t ⟨"" :: p⟩ share).1.Tracks t inherited { l with declared } ∧
      (∀ q, q ∈ declared ↔ q ∈ l.declared ∨ q <+: p) ∧
      (f.openScope t ⟨"" :: p⟩ share).1.walk t p = some (f.openScope t ⟨"" :: p⟩ share).2 ∧
      f.ChangesWithin t (f.openScope t ⟨"" :: p⟩ share).1 :=
  h.openFrom share (walk_nil f t) hlast rfl

end AddChild

theorem findName?_eq (f : Forest) (t : Nat) (p : List String) :
    f.findName? t ⟨"" :: p⟩ = f.find? t p := by
  simp [findName?, Name.below, Name.length]

/-- A scope is entered whose parent is known. -/
theorem enter (h : f.Tracks t inherited l) (hparent : p.dropLast ∈ l.declared) (hp : p ≠ []) :
    (f.enter t ⟨"" :: p⟩).Tracks t inherited { l with declared := p :: l.declared } ∧
      f.ChangesWithin t (f.enter t ⟨"" :: p⟩) := by
  rw [Forest.enter, findName?_eq]
  split_ifs with hfound
  · have hp := (h.found p).1 hfound
    refine ⟨h.congr fun q ↦ ⟨fun hq ↦ ?_, List.mem_cons_of_mem p⟩, .refl f t⟩
    exact (List.mem_cons.1 hq).elim (fun hqp ↦ hqp ▸ hp) id
  · obtain ⟨declared, htracks, hiff, -, hframe⟩ := h.openScope p false
      fun _ ↦ .inr (Option.not_isSome_iff_eq_none.1 hfound)
    refine ⟨htracks.congr fun q ↦ ?_, hframe⟩
    rw [List.mem_cons, hiff, or_comm]
    refine or_congr_right' fun hq ↦ ?_
    rw [← List.dropLast_concat_getLast hp, List.prefix_concat_iff, List.dropLast_concat_getLast hp]
    exact ⟨.inl, Or.rec id fun ⟨s, hs⟩ ↦ absurd (h.declared_of_append (hs ▸ hparent)) hq⟩

/-! ### Changed scopes -/

/-- The definition of one path changes, but for its place in the forest. -/
theorem modifyScope (h : f.Tracks t inherited l) (hp : f.find? t p = some r) (l' : Ledger)
    (change : Scope → Scope) (hchildren : ∀ s, (change s).children = s.children)
    (hdefinition : ∀ s, (change s).definition = s.definition)
    (hbases : ∀ s, (change s).bases = s.bases) (hdeclared : l'.declared = l.declared)
    (hmarked : ∀ q, q ≠ p → (q ∈ l'.marked ↔ q ∈ l.marked))
    (hcomplained : ∀ q, q ≠ p → (q ∈ l'.complained ↔ q ∈ l.complained))
    (hfits : (change (f.scope (f.definition r))).Fits l' p) :
    (f.modifyScope (f.definition r) change).Tracks t inherited l' := by
  have hsame := field_modifyScope hchildren f (f.definition r)
  have hfiles := sameFiles_modifyScope f (f.definition r) change
  have horder := hfiles.order_eq t
  have hfind : ∀ q, (f.modifyScope (f.definition r) change).find? t q = f.find? t q :=
    find?_congr hfiles hsame t
  have hwalk : ∀ u q, (f.modifyScope (f.definition r) change).walk u q = f.walk u q :=
    fun u ↦ walk_congr fun x _ ↦ hsame x
  have hdef : ∀ x, (f.modifyScope (f.definition r) change).definition x = f.definition x :=
    field_modifyScope hdefinition f (f.definition r)
  have hpdeclared : p ∈ l.declared := by simp [← h.found, hp]
  exact {
    apart := horder ▸ h.apart
    inherits := by
      intro u hu q hq
      rw [horder] at hu
      rw [hwalk] at hq
      exact h.inherits u hu q hq
    found := fun q ↦ by rw [hfind, hdeclared, h.found]
    has := by
      intro q x hx
      rw [hfind] at hx
      rw [hdef, has_modifyScope, has_modifyScope]
      exact h.has q x hx
    home := by
      intro q x hx
      rw [hfind] at hx
      rw [hdef, horder]
      exact h.home q x hx
    fits := by
      intro q x hx
      rw [hfind] at hx
      rw [hdef, scope_modifyScope]
      by_cases hq : q = p
      · subst hq
        obtain rfl := Option.some.inj (hp.symm.trans hx)
        rw [if_pos ⟨rfl, (h.has q r hp).2⟩]
        exact hfits
      · have hne : f.definition x ≠ f.definition r := fun heq ↦ hq (h.distinct q p x r hx hp heq)
        have hold := h.fits q x hx
        rw [if_neg fun hx ↦ hne hx.1]
        exact ⟨hold.marked.trans (hmarked q hq).symm, hold.complained.trans (hcomplained q hq).symm,
          hold.qualification, hold.bases⟩
    bases := by
      intro q x hx
      rw [hfind] at hx
      rw [field_modifyScope hbases]
      exact h.bases q x hx
    distinct := by
      intro q q' x x' hx hx' heq
      rw [hfind] at hx hx'
      rw [hdef, hdef] at heq
      exact h.distinct q q' x x' hx hx' heq
    own := by
      intro q x hx hq
      rw [hwalk] at hx
      rw [hdef]
      exact h.own q x hx hq
    marked := by
      intro q hq
      rw [hdeclared]
      by_cases hqp : q = p
      · exact hqp ▸ hpdeclared
      · exact h.marked q ((hmarked q hqp).1 hq)
    complained := by
      intro q hq
      rw [hdeclared]
      by_cases hqp : q = p
      · exact hqp ▸ hpdeclared
      · exact h.complained q ((hcomplained q hqp).1 hq) }

/-- A class of the file itself is marked. -/
theorem mark (h : f.Tracks t inherited l) (hp : p ∈ l.declared) (hown : p ∉ inherited) :
    (f.mark t ⟨"" :: p⟩).Tracks t inherited { l with marked := p :: l.marked } ∧
      f.ChangesWithin t (f.mark t ⟨"" :: p⟩) := by
  obtain ⟨declared, htracks, hiff, hopened, hframe⟩ := h.openScope p true fun _ ↦ .inl rfl
  have hknown : ∀ q, q ∈ l.declared ↔ q ∈ declared := fun q ↦ by
    rw [hiff, iff_self_or]
    rintro ⟨s, rfl⟩
    exact h.declared_of_append hp
  have hopen := htracks.congr hknown
  have hfound := find?_of_walk hopened
  have hfits := hopen.fits p _ hfound
  have hmarked := hopen.modifyScope hfound { l with marked := p :: l.marked }
    (fun s ↦ { s with supportsTr := true }) (fun _ ↦ rfl) (fun _ ↦ rfl) (fun _ ↦ rfl) rfl
    (fun q hq ↦ by simp [hq]) (fun _ _ ↦ Iff.rfl)
    ⟨by simp, hfits.complained, hfits.qualification, hfits.bases⟩
  rw [hopen.own p _ hopened hown] at hmarked
  have hmem : (f.openScope t ⟨"" :: p⟩ true).2.tree ∈ (f.openScope t ⟨"" :: p⟩ true).1.order t := by
    rw [tree_of_walk hopened]
    exact List.mem_cons_self
  exact ⟨hmarked, hframe.trans (changesWithin_modifyScope _ hmem)⟩

/-- The scope that gives a call its context is that of the longest marked beginning. -/
theorem innermost?_eq (h : f.Tracks t inherited l) (hp : p ∈ l.declared) {k : Nat}
    (hk : k ≤ p.length + 1) (fresh : List Name) :
    f.innermost? t ⟨"" :: p⟩ k fresh =
      (((List.range k).reverse.map p.take).find? (· ∈ l.marked)).bind fun q ↦
        (f.find? t q).map fun r ↦ (f.definition r, Name.join q) := by
  induction k generalizing fresh with
  | zero => rfl
  | succ k ih =>
    have hbelow : (⟨"" :: p⟩ : Name).below (k + 1) = p.take k := by
      simp [Name.below, Name.length, hk]
    have htake : p.take k ∈ l.declared :=
      h.declared_of_append ((List.take_append_drop k p).symm ▸ hp)
    obtain ⟨r, hr⟩ := Option.isSome_iff_exists.1 ((h.found _).2 htake)
    have hbases : f.basesOf r = [] := by
      rw [basesOf, h.bases _ r hr, (h.fits _ r hr).bases]
      rfl
    rw [innermost?, hbelow, hr, List.range_succ, List.reverse_append, List.reverse_singleton,
      List.singleton_append, List.map_cons]
    by_cases hmarked : p.take k ∈ l.marked
    · have hsupports : f.supports r = true := (h.fits _ r hr).marked.2 hmarked
      simp [hsupports, hmarked, hr]
    · have hsupports : f.supports r = false :=
        Bool.eq_false_iff.2 fun hs ↦ hmarked ((h.fits _ r hr).marked.1 hs)
      have hancestors : f.ancestors t fresh r = [] := by rw [ancestors, hbases, preorder_nil]
      simp only [hsupports, Bool.false_eq_true, if_false, hancestors, List.findSome?_nil]
      rw [ih (Nat.le_of_succ_le hk), List.find?_cons_of_neg (by simpa using hmarked)]

theorem settleQualification (h : f.Tracks t inherited l) (hp : f.find? t p = some r) :
    (f.settleQualification (f.definition r) (Name.join p)).1 = Name.join p ∧
      (f.settleQualification (f.definition r) (Name.join p)).2.Tracks t inherited l ∧
      f.ChangesWithin t (f.settleQualification (f.definition r) (Name.join p)).2 := by
  have hfits := h.fits p r hp
  rw [Forest.settleQualification]
  cases hsettled : (f.scope (f.definition r)).qualification with
  | some text => exact ⟨hfits.qualification text hsettled, h, .refl f t⟩
  | none =>
    refine ⟨rfl, ?_, changesWithin_modifyScope _ (h.home p r hp)⟩
    refine h.modifyScope hp l _ (fun _ ↦ rfl) (fun _ ↦ rfl) (fun _ ↦ rfl) rfl (fun _ _ ↦ Iff.rfl)
      (fun _ _ ↦ Iff.rfl) ⟨hfits.marked, hfits.complained, ?_, hfits.bases⟩
    exact fun text htext ↦ (Option.some.inj htext).symm

theorem complainOnce (h : f.Tracks t inherited l) (hp : f.find? t p = some r) :
    (f.complainOnce (f.definition r)).1 = decide (p ∉ l.complained) ∧
      (f.complainOnce (f.definition r)).2.Tracks t inherited
        { l with complained := p :: l.complained } ∧
      f.ChangesWithin t (f.complainOnce (f.definition r)).2 := by
  have hfits := h.fits p r hp
  refine ⟨?_, ?_, changesWithin_modifyScope _ (h.home p r hp)⟩
  · simp [Forest.complainOnce, ← hfits.complained]
  · exact h.modifyScope hp _ _ (fun _ ↦ rfl) (fun _ ↦ rfl) (fun _ ↦ rfl) rfl (fun _ _ ↦ Iff.rfl)
      (fun q hq ↦ by simp [hq]) ⟨hfits.marked, by simp, hfits.qualification, hfits.bases⟩

/-- The context of a call, as the ledger has it. -/
theorem unqualifiedContext (h : f.Tracks t inherited l) (hp : p ∈ l.declared) :
    (f.unqualifiedContext t ⟨"" :: p⟩).1 =
        ⟨l.context p, (l.support? p).isNone && decide (p ∉ l.complained)⟩ ∧
      (f.unqualifiedContext t ⟨"" :: p⟩).2.Tracks t inherited
        (if (l.support? p).isSome then l else { l with complained := p :: l.complained }) ∧
      f.ChangesWithin t (f.unqualifiedContext t ⟨"" :: p⟩).2 := by
  have hrender : (⟨"" :: p⟩ : Name).render = Name.join p := rfl
  have hinnermost := h.innermost?_eq hp (Nat.le_refl _) f.allBases
  change _ = (l.support? p).bind _ at hinnermost
  rw [Forest.unqualifiedContext, Name.length, List.length_cons, hinnermost]
  cases hsupport : l.support? p with
  | some q =>
    have hmarked : q ∈ l.marked := by simpa using List.find?_some hsupport
    obtain ⟨r, hr⟩ := Option.isSome_iff_exists.1 ((h.found q).2 (h.marked q hmarked))
    obtain ⟨htext, htracks, hframe⟩ := h.settleQualification hr
    simp only [Option.bind_some, hr, Option.map_some]
    refine ⟨?_, htracks, hframe⟩
    rw [htext, Ledger.context, hsupport]
    rfl
  | none =>
    obtain ⟨r, hr⟩ := Option.isSome_iff_exists.1 ((h.found p).2 hp)
    obtain ⟨hcomplain, htracks, hframe⟩ := h.complainOnce hr
    simp only [Option.bind_none, findName?_eq, hr]
    refine ⟨?_, htracks, hframe⟩
    rw [hcomplain, hrender, Ledger.context, hsupport]
    rfl

/-! ### Events -/

/-- One event yields what the ledger says. -/
theorem step {y : Yield} (h : y.forest.Tracks t inherited l) (file : String) {e : Event}
    (he : l.Admits inherited e) :
    (y.step file t e).forest.Tracks t inherited (l.step e) ∧
      (y.step file t e).messages = y.messages ++ l.messages file e ∧
      (y.step file t e).diagnostics = y.diagnostics ++ l.diagnostics file e ∧
      y.forest.ChangesWithin t (y.step file t e).forest := by
  cases e with
  | entered path =>
    obtain ⟨htracks, hframe⟩ := h.enter he.1 he.2
    exact ⟨htracks, (List.append_nil _).symm, (List.append_nil _).symm, hframe⟩
  | marked path =>
    obtain ⟨htracks, hframe⟩ := h.mark he.1 he.2.2
    exact ⟨htracks, (List.append_nil _).symm, (List.append_nil _).symm, hframe⟩
  | called path text =>
    simp only [Yield.step, Yield.called, Ledger.step, Ledger.messages, Ledger.diagnostics]
    by_cases hpath : path = []
    · simp only [hpath, if_true, true_or, List.append_nil]
      exact ⟨h, trivial, trivial, .refl _ t⟩
    · obtain ⟨hcontext, htracks, hframe⟩ := h.unqualifiedContext he
      simp only [hpath, if_false, false_or, hcontext]
      refine ⟨htracks, trivial, ?_, hframe⟩
      cases hsupport : l.support? path with
      | some q => simp
      | none =>
        have hwhole : l.context path = Name.join path := by rw [Ledger.context, hsupport]; rfl
        by_cases hcomplained : path ∈ l.complained <;> simp [hcomplained, hwhole]

/-- Events yield, one after the other, what the ledger says. -/
theorem run {y : Yield} (h : y.forest.Tracks t inherited l) (file : String) {es : List Event}
    (hes : l.AdmitsAll inherited es) :
    (es.foldl (Yield.step file t) y).forest.Tracks t inherited (es.foldl Ledger.step l) ∧
      (es.foldl (Yield.step file t) y).messages = y.messages ++ l.allMessages file es ∧
      (es.foldl (Yield.step file t) y).diagnostics = y.diagnostics ++ l.allDiagnostics file es ∧
      y.forest.ChangesWithin t (es.foldl (Yield.step file t) y).forest := by
  induction es generalizing y l with
  | nil => exact ⟨h, (List.append_nil _).symm, (List.append_nil _).symm, .refl _ t⟩
  | cons e es ih =>
    obtain ⟨htracks, hmessages, hdiagnostics, hframe⟩ := h.step file hes.1
    obtain ⟨htracks', hmessages', hdiagnostics', hframe'⟩ := ih htracks hes.2
    refine ⟨htracks', ?_, ?_, hframe.trans hframe'⟩
    · rw [List.foldl_cons, hmessages', hmessages, List.append_assoc, Ledger.allMessages]
    · rw [List.foldl_cons, hdiagnostics', hdiagnostics, List.append_assoc, Ledger.allDiagnostics]

end Tracks

/-- The file `t` includes nothing and has declared nothing but its global scope. -/
structure Bare (f : Forest) (t : Nat) : Prop where
  includes : (f.tree t).includes = []
  scopes : (f.tree t).scopes = #[{ definition := ⟨t, 0⟩ }]

theorem order_of_no_includes (h : (f.tree t).includes = []) : f.order t = [t] := by
  have hincluded : f.included t = [] := by rw [included, h]; rfl
  rw [order, hincluded, preorder_nil]

theorem find?_of_no_includes (h : (f.tree t).includes = []) (p : List String) :
    f.find? t p = f.walk t p := by
  rw [find?_eq, order_of_no_includes h, List.tail_cons, List.findSome?_nil, Option.or_none]

namespace Bare

theorem congr {g : Forest} (h : f.Bare t) (htree : g.tree t = f.tree t) : g.Bare t :=
  ⟨htree ▸ h.includes, htree ▸ h.scopes⟩

theorem has_root (h : f.Bare t) : f.Has ⟨t, 0⟩ := by simp [Has, h.scopes]

theorem scope_root (h : f.Bare t) : f.scope ⟨t, 0⟩ = { definition := ⟨t, 0⟩ } := by
  rw [scope, h.scopes]
  rfl

theorem definition_root (h : f.Bare t) : f.definition ⟨t, 0⟩ = ⟨t, 0⟩ := by
  rw [definition, h.scope_root]

theorem walk_eq (h : f.Bare t) (p : List String) :
    f.walk t p = if p = [] then some ⟨t, 0⟩ else none := by
  cases p with
  | nil => rfl
  | cons segment p => simp [walk, descend, Scope.child?, h.scope_root]

theorem find?_eq (h : f.Bare t) (p : List String) :
    f.find? t p = if p = [] then some ⟨t, 0⟩ else none := by
  rw [find?_of_no_includes h.includes, h.walk_eq]

theorem eq_of_find? (h : f.Bare t) (hp : f.find? t p = some r) : p = [] ∧ r = ⟨t, 0⟩ := by
  rw [h.find?_eq] at hp
  split_ifs at hp with hnil
  exact ⟨hnil, (Option.some.inj hp).symm⟩

/-- A file that has just begun agrees with an empty ledger. -/
theorem tracks (h : f.Bare t) : f.Tracks t [] {} := by
  have horder : f.order t = [t] := order_of_no_includes h.includes
  exact {
    apart := by simp [horder]
    inherits := by simp [horder]
    found := by
      intro p
      rw [h.find?_eq]
      split_ifs with hp <;> simp [hp]
    has := by
      intro p r hr
      obtain ⟨-, rfl⟩ := h.eq_of_find? hr
      exact ⟨h.has_root, h.definition_root.symm ▸ h.has_root⟩
    home := by
      intro p r hr
      obtain ⟨-, rfl⟩ := h.eq_of_find? hr
      simp [h.definition_root, horder]
    fits := by
      intro p r hr
      obtain ⟨-, rfl⟩ := h.eq_of_find? hr
      rw [h.definition_root, h.scope_root]
      exact ⟨by simp, by simp, by simp, rfl⟩
    bases := by
      intro p r hr
      obtain ⟨-, rfl⟩ := h.eq_of_find? hr
      rw [h.scope_root]
    distinct := fun p q r s hr hs _ ↦ (h.eq_of_find? hr).1.trans (h.eq_of_find? hs).1.symm
    own := by
      intro p r hr _
      obtain ⟨-, rfl⟩ := h.eq_of_find? (find?_of_walk hr)
      exact h.definition_root
    marked := by simp
    complained := by simp }

end Bare

theorem bare_plant (f : Forest) (id : Nat) : (f.plant id).Bare f.trees.size :=
  ⟨by rw [tree_plant], by rw [tree_plant]⟩

end Forest

namespace Ledger

variable {l : Ledger} {inherited : List (List String)} {path : List String}

/-- A path is declared by being entered. -/
theorem mem_declared_step_iff (e : Event) :
    path ∈ (l.step e).declared ↔ path ∈ l.declared ∨ e = .entered path := by
  cases e with
  | entered p =>
    rw [step, List.mem_cons, or_comm, Event.entered.injEq]
    exact or_congr_right eq_comm
  | marked p => simp [step]
  | called p text =>
    rw [step]
    split_ifs <;> simp

theorem mem_declared_foldl_iff (es : List Event) :
    path ∈ (es.foldl step l).declared ↔ path ∈ l.declared ∨ .entered path ∈ es := by
  induction es generalizing l with
  | nil => simp
  | cons e es ih =>
    rw [List.foldl_cons, ih, mem_declared_step_iff, List.mem_cons, or_assoc, eq_comm]

theorem mem_declared_step (e : Event) (h : path ∈ l.declared) : path ∈ (l.step e).declared :=
  (mem_declared_step_iff e).2 (.inl h)

theorem mem_declared_foldl (es : List Event) (h : path ∈ l.declared) :
    path ∈ (es.foldl step l).declared :=
  (mem_declared_foldl_iff es).2 (.inl h)

theorem allMessages_append (l : Ledger) (file : String) (es es' : List Event) :
    l.allMessages file (es ++ es') =
      l.allMessages file es ++ (es.foldl step l).allMessages file es' := by
  induction es generalizing l with
  | nil => rfl
  | cons e es ih =>
    simp only [List.cons_append, allMessages, ih, List.append_assoc, List.foldl_cons]

/-- The global scope is never marked, nor reported. -/
theorem root_not_mem {es : List Event} (hes : l.AdmitsAll inherited es) (hmarked : [] ∉ l.marked)
    (hcomplained : [] ∉ l.complained) :
    [] ∉ (es.foldl step l).marked ∧ [] ∉ (es.foldl step l).complained := by
  induction es generalizing l with
  | nil => exact ⟨hmarked, hcomplained⟩
  | cons e es ih =>
    apply ih hes.2
    · cases e with
      | entered p => exact hmarked
      | marked p =>
        have hp : p ≠ [] := hes.1.2.1
        simpa [step, hp.symm] using hmarked
      | called p text =>
        rw [step]
        split_ifs <;> exact hmarked
    · cases e with
      | entered p => exact hcomplained
      | marked p => exact hcomplained
      | called p text =>
        rw [step]
        split_ifs with hp
        · exact hcomplained
        · have hp : p ≠ [] := fun h ↦ hp (.inl h)
          simpa [hp.symm] using hcomplained

theorem AdmitsAll.append {es es' : List Event} (hes : l.AdmitsAll inherited es)
    (hes' : (es.foldl step l).AdmitsAll inherited es') : l.AdmitsAll inherited (es ++ es') := by
  induction es generalizing l with
  | nil => exact hes'
  | cons e es ih => exact ⟨hes.1, ih hes.2 hes'⟩

theorem admitsAll_block (body : Block) (hpath : path ∈ l.declared) :
    l.AdmitsAll inherited (body.events path) := by
  induction body generalizing l with
  | done => trivial
  | block inner rest ihinner ihrest =>
    exact (ihinner hpath).append (ihrest (mem_declared_foldl _ hpath))
  | call text rest ih => exact ⟨hpath, ih (mem_declared_step _ hpath)⟩

theorem admitsAll_entries (names : List String) (hpath : path ∈ l.declared) :
    l.AdmitsAll inherited (Outline.entries path names) ∧
      path ++ names ∈ ((Outline.entries path names).foldl step l).declared := by
  induction names generalizing l path with
  | nil => exact ⟨trivial, by rw [List.append_nil]; exact hpath⟩
  | cons name names ih =>
    have hname : path ++ [name] ∈ (l.step (.entered (path ++ [name]))).declared :=
      List.mem_cons_self
    obtain ⟨hadmits, hlast⟩ := ih hname
    refine ⟨⟨⟨by rw [List.dropLast_concat]; exact hpath, by simp⟩, hadmits⟩, ?_⟩
    rwa [List.append_assoc] at hlast

/-- The events of an outline make sense wherever its scope is declared. -/
theorem admitsAll_outline {inClass : Bool} (o : Outline inClass) (hpath : path ∈ l.declared)
    (hclass : inClass = true → path ≠ [])
    (hmarked : ∀ p, .marked p ∈ o.events path → p ≠ [] → p ∉ inherited) :
    l.AdmitsAll inherited (o.events path) := by
  induction o generalizing l path with
  | done => trivial
  | namespaces first more inner rest ihinner ihrest =>
    simp only [Declarations.events, List.mem_append] at hmarked
    obtain ⟨hentries, hopened⟩ := admitsAll_entries ((first :: more).map Identifier.word) hpath
    refine (hentries.append (ihinner hopened (by simp) fun p hp ↦ ?_)).append
      (ihrest (mem_declared_foldl _ hpath) hclass fun p hp ↦ ?_)
    · exact hmarked p (.inl (.inr hp))
    · exact hmarked p (.inr hp)
  | unnamed inner rest ihinner ihrest =>
    simp only [Declarations.events, List.mem_append] at hmarked
    exact (ihinner hpath (by simp) fun p hp ↦ hmarked p (.inl hp)).append
      (ihrest (mem_declared_foldl _ hpath) hclass fun p hp ↦ hmarked p (.inr hp))
  | classBody name inner rest ihinner ihrest =>
    simp only [Declarations.events, List.mem_append, List.mem_cons] at hmarked
    obtain ⟨hentries, hopened⟩ := admitsAll_entries [name.word] hpath
    refine (hentries.append (ihinner hopened (by simp) fun p hp ↦ ?_)).append
      (ihrest (mem_declared_foldl _ hpath) hclass fun p hp ↦ ?_)
    · exact hmarked p (.inl (.inr hp))
    · exact hmarked p (.inr hp)
  | marker rest ih =>
    simp only [Declarations.events, List.mem_cons] at hmarked
    exact ⟨⟨hpath, hclass rfl, hmarked path (.inl rfl) (hclass rfl)⟩,
      ih (mem_declared_step _ hpath) hclass fun p hp ↦ hmarked p (.inr hp)⟩
  | function name body rest ih =>
    simp only [Declarations.events, List.mem_append] at hmarked
    exact (admitsAll_block body hpath).append
      (ih (mem_declared_foldl _ hpath) hclass fun p hp ↦ hmarked p (.inr hp))
  | member allowed => cases allowed

end Ledger

end Harvest
