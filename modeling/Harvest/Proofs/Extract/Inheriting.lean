import Harvest.Proofs.Extract.Markers
import Harvest.Proofs.Parser.BaseClauses

/-!
# The bases of a class

The names in the head of a class are resolved one after the other, as uses in the scope around the
class. What they are resolved to is stored on the scope of the class, in this order; names that cannot
be resolved are left out. If none can be resolved, nothing is stored, and a class that is opened again
keeps the bases that it has.
-/

namespace Harvest

namespace Forest

variable {f g : Forest} {t : Nat} {here : Name} {r : ScopeRef}

/-- Names are resolved in a row, each in the forest that those before it leave. -/
inductive Resolves (t : Nat) (here : Name) :
    Forest → List (List String) → List Name → Forest → Prop
  | nil (f : Forest) : Resolves t here f [] [] f
  | found {f g k : Forest} {written : List String} {rest : List (List String)} {n : Name}
      {names : List Name} (hn : f.qualify t here here.length written false = (.ok n, g))
      (hrest : Resolves t here g rest names k) : Resolves t here f (written :: rest) (n :: names) k
  | lost {f g k : Forest} {written : List String} {rest : List (List String)} {n : PartialName}
      {names : List Name} (hn : f.qualify t here here.length written false = (.error n, g))
      (hrest : Resolves t here g rest names k) : Resolves t here f (written :: rest) names k

theorem bases_record (f : Forest) (findings : Findings) (x : ScopeRef) :
    ((f.record findings).scope x).bases = (f.scope x).bases := by
  rw [record_eq, scope_mapAliases, Scope.mapAliases]

theorem bases_qualify (f : Forest) (t : Nat) (here : Name) (count : Nat) (segments : List String)
    (declaration : Bool) (x : ScopeRef) :
    ((f.qualify t here count segments declaration).2.scope x).bases = (f.scope x).bases := by
  unfold qualify
  exact f.bases_record _ x

/-- Resolving changes neither the scopes nor their bases. -/
theorem Resolves.keeps {written : List (List String)} {names : List Name}
    (h : Resolves t here f written names g) :
    f.SameShape g ∧ ∀ x, (g.scope x).bases = (f.scope x).bases := by
  have hstep : ∀ {f g : Forest} {segments : List String} {out : Except PartialName Name},
      f.qualify t here here.length segments false = (out, g) →
        f.SameShape g ∧ ∀ x, (g.scope x).bases = (f.scope x).bases := by
    intro f g segments out hout
    obtain rfl : (f.qualify t here here.length segments false).2 = g := congrArg Prod.snd hout
    exact ⟨f.sameShape_qualify _ _ _ _ _, f.bases_qualify _ _ _ _ _⟩
  induction h with
  | nil f => exact ⟨.refl f, fun _ ↦ rfl⟩
  | found hn _ ih => exact ⟨(hstep hn).1.trans ih.1, fun x ↦ (ih.2 x).trans ((hstep hn).2 x)⟩
  | lost hn _ ih => exact ⟨(hstep hn).1.trans ih.1, fun x ↦ (ih.2 x).trans ((hstep hn).2 x)⟩

/-- There is one way to resolve names. -/
theorem Resolves.unique {written : List (List String)} {names names' : List Name} {g' : Forest}
    (h : Resolves t here f written names g) (h' : Resolves t here f written names' g') :
    names = names' ∧ g = g' := by
  induction h generalizing names' g' with
  | nil f =>
    cases h'
    exact ⟨rfl, rfl⟩
  | found hn _ ih =>
    cases h' with
    | found hn' hrest' =>
      obtain ⟨hname, rfl⟩ := Prod.mk.inj (hn.symm.trans hn')
      obtain rfl := Except.ok.inj hname
      obtain ⟨rfl, rfl⟩ := ih hrest'
      exact ⟨rfl, rfl⟩
    | lost hn' _ => cases hn.symm.trans hn'
  | lost hn _ ih =>
    cases h' with
    | found hn' _ => cases hn.symm.trans hn'
    | lost hn' hrest' =>
      obtain ⟨-, rfl⟩ := Prod.mk.inj (hn.symm.trans hn')
      exact ih hrest'

/-- The texts of names without colons are resolved as these names. -/
theorem resolves_resolveBases {written : List (List String)}
    (h : ∀ segments ∈ written, segments ≠ [] ∧ ∀ word ∈ segments, ':' ∉ word.toList) :
    Resolves t here f written (Parser.resolveBases f t here (written.map Name.join)).1
      (Parser.resolveBases f t here (written.map Name.join)).2 := by
  induction written generalizing f with
  | nil => exact .nil f
  | cons segments rest ih =>
    obtain ⟨⟨hne, hcolons⟩, hrest⟩ := List.forall_mem_cons.1 h
    obtain ⟨first, more, rfl⟩ := List.exists_cons_of_ne_nil hne
    rw [List.map_cons, Parser.resolveBases, qualifyWritten, Name.ofWritten_join first more hcolons]
    cases hout : f.qualify t here here.length (first :: more) false with
    | mk out g =>
      cases out with
      | ok n => exact .found hout (ih hrest)
      | error n => exact .lost hout (ih hrest)

/-- The scope called `place` is entered, and it takes the bases if there are any. -/
def inherit (f : Forest) (t : Nat) (place : Name) (names : List Name) : Forest :=
  if names.isEmpty then f.enter t place
  else (f.enter t place).modifyAt t place fun s ↦ { s with bases := names }

namespace WellFormed

/-- A scope that is opened has the bases of the scope at its path in the file, or none. -/
theorem bases_openFrom (h : f.WellFormed) (ht : t < f.trees.size) (first : String) (share : Bool)
    {q : List String} (hq : f.walk t q = some r) (rest : List String) :
    let opened := f.openFrom t ⟨first :: (q ++ rest)⟩ share r (q.length + 1) rest
    (opened.1.scope opened.2).bases =
      ((f.walk t (q ++ rest)).map fun x ↦ (f.scope x).bases).getD [] := by
  induction rest generalizing f q r with
  | nil =>
    rw [List.append_nil, Forest.openFrom, hq]
    rfl
  | cons segment rest ih =>
    have hpath : q ++ segment :: rest = q ++ [segment] ++ rest := by simp
    have hlength : q.length + 1 + 1 = (q ++ [segment]).length + 1 := by simp
    have hwalk : f.walk t (q ++ [segment]) =
        ((f.scope r).child? segment).map fun child ↦ ⟨r.tree, child⟩ := by
      rw [walk_concat, hq, Option.bind_some]
    rw [Forest.openFrom, hpath, hlength]
    cases hchild : (f.scope r).child? segment with
    | some child =>
      rw [hchild] at hwalk
      exact ih h ht hwalk
    | none =>
      have hnone : f.walk t (q ++ [segment] ++ rest) = none := by
        rw [walk, descend_append, ← walk, hwalk, hchild]
        rfl
      have hopens : f.Opens t (q ++ [segment]) (share || !rest.isEmpty)
          (f.openFrom t ⟨first :: (q ++ [segment])⟩ (share || !rest.isEmpty) r (q.length + 1)
            [segment]) := h.openFrom ht first _ hq
      simp only [Forest.openFrom, hchild, List.isEmpty_nil, Bool.not_true, Bool.or_false] at hopens
      have hplace :
          (⟨first :: (q ++ [segment])⟩ : Name).below (q.length + 1 + 1) = q ++ [segment] := by
        have hall := Name.below_of_append first (q ++ [segment]) []
        simpa using hall
      rw [hplace] at hopens
      dsimp only
      rw [Name.below_of_append, hnone]
      generalize (if (share || !rest.isEmpty) = true then
        (f.find? t (q ++ [segment])).map f.definition else none) = definition at hopens ⊢
      refine (ih hopens.formed (hopens.files.size ▸ ht) hopens.walk).trans ?_
      -- The scope at the whole path is the new one, or there is none yet.
      rw [h.walk_of_addChild ht hq hchild definition t, hnone]
      split_ifs
      · rw [Option.map_some, Option.getD_some, scope_addChild (h.has_of_walk ht hq), tree_of_walk hq,
          if_pos rfl]
        rfl
      · rw [Option.map_none, Option.map_none]

theorem bases_openScope (h : f.WellFormed) (ht : t < f.trees.size) (place : Name) (share : Bool) :
    ((f.openScope t place share).1.scope (f.openScope t place share).2).bases =
      ((f.walk t (place.below place.length)).map fun x ↦ (f.scope x).bases).getD [] := by
  obtain ⟨segments⟩ := place
  cases segments with
  | nil => rfl
  | cons first rest =>
    have hbelow : Name.below ⟨first :: rest⟩ (Name.length ⟨first :: rest⟩) = rest := by
      simp [Name.below, Name.length]
    have hopened := h.bases_openFrom ht first share (walk_nil f t) rest
    rw [hbelow]
    exact hopened

/-- A change of the scope called `place` is a change of the scope that is then found. -/
theorem modifyAt_found (h : f.WellFormed) (ht : t < f.trees.size) (place : Name)
    {change : Scope → Scope} (hlocal : Scope.Local change)
    (hchildren : Scope.KeepsChildren change) :
    ∃ r s, (f.modifyAt t place change).findName? t place = some r ∧
      (f.modifyAt t place change).scope r = change s := by
  obtain ⟨hformed, hfiles, hwalk, -, -⟩ := h.opens_openScope ht place true
  have hr := hformed.has_of_walk (hfiles.size ▸ ht) hwalk
  have hshape := (f.openScope t place true).1.sameShape_modifyScope (f.openScope t place true).2
    hlocal hchildren
  refine ⟨(f.openScope t place true).2,
    (f.openScope t place true).1.scope (f.openScope t place true).2, ?_, ?_⟩
  · rw [findName?, Forest.modifyAt, find?_congr hshape.files hshape.children]
    exact find?_of_walk hwalk
  · rw [Forest.modifyAt, scope_modifyScope, if_pos ⟨rfl, hr⟩]

/-- The scope that is entered has the bases that are stored on it. Without any, it has those of the
scope that was found before, or none. -/
theorem inherit_found (h : f.WellFormed) (ht : t < f.trees.size) (place : Name)
    (names : List Name) :
    ∃ r, (f.inherit t place names).findName? t place = some r ∧
      ((f.inherit t place names).scope r).bases =
        if names = [] then ((f.findName? t place).map fun x ↦ (f.scope x).bases).getD []
        else names := by
  by_cases hnames : names = []
  · subst hnames
    rw [inherit, if_pos List.isEmpty_nil, if_pos rfl, Forest.enter]
    cases hfound : f.findName? t place with
    | some r => exact ⟨r, hfound, rfl⟩
    | none =>
      have hnone : f.walk t (place.below place.length) = none := by
        cases hwalk : f.walk t (place.below place.length) with
        | none => rfl
        | some x => rw [findName?, find?_of_walk hwalk] at hfound; cases hfound
      have hbases := h.bases_openScope ht place false
      rw [hnone] at hbases
      exact ⟨_, find?_of_walk (h.opens_openScope ht place false).walk, hbases⟩
  · obtain ⟨hformed, hfiles⟩ := h.enter ht place
    have hlocal : Scope.Local fun s ↦ { s with bases := names } := fun _ _ ↦ rfl
    obtain ⟨r, s, hr, hs⟩ :=
      hformed.modifyAt_found (hfiles.size ▸ ht) place hlocal fun _ ↦ rfl
    rw [inherit, if_neg (by simpa using hnames), if_neg hnames]
    exact ⟨r, hr, by rw [hs]⟩

end WellFormed

end Forest

namespace Parser

theorem forest_beginBody (p : Parser) :
    p.beginBody.forest = p.forest ∧ p.beginBody.tree = p.tree :=
  ⟨forest_advance _, tree_advance _⟩

theorem forest_enter (p : Parser) (segment : String) :
    (p.enter segment).forest = p.forest.enter p.tree (p.snapshot.namespaces.push segment) ∧
      (p.enter segment).tree = p.tree :=
  ⟨rfl, rfl⟩

theorem forest_modifyOpenScope (p : Parser) (change : Scope → Scope) :
    (p.modifyOpenScope change).forest = p.forest.modifyAt p.tree p.snapshot.namespaces change ∧
      (p.modifyOpenScope change).tree = p.tree :=
  ⟨rfl, rfl⟩

/-- The scopes after a class is entered. -/
theorem forest_enterClass (p : Parser) (here : Name) (name : String) (bases : List String) :
    (p.enterClass here name bases).forest =
        (resolveBases p.forest p.tree here bases).2.inherit p.tree (here.push name)
          (resolveBases p.forest p.tree here bases).1 ∧
      (p.enterClass here name bases).tree = p.tree := by
  unfold enterClass Forest.inherit
  generalize resolveBases p.forest p.tree here bases = resolved
  dsimp only
  rw [(forest_beginBody _).1, (forest_beginBody _).2]
  split_ifs
  · rw [(forest_enter _ _).1, (forest_enter _ _).2]
    exact ⟨rfl, rfl⟩
  · rw [(forest_modifyOpenScope _ _).1, (forest_modifyOpenScope _ _).2, (forest_enter _ _).1,
      (forest_enter _ _).2]
    exact ⟨rfl, rfl⟩

end Parser

namespace Stage

theorem step_of_classWord {e : Extractor} {p : Parser} (waiting : List Parser)
    (left : List (Path × String)) (htoken : p.token = .classWord) :
    (Stage.reading p waiting left).step e = some (.reading (p.turn fun _ p ↦ p) waiting left) := by
  have hinclude : p.include? = none := by
    unfold Parser.include?
    rw [htoken]
    split <;> rfl
  have heof : p.token ≠ .eof := by
    rw [htoken]
    nofun
  simp only [step, heof, if_false, hinclude]

end Stage

namespace Extractor

/-- The head of a class with bases, at every stage of every extraction. The names that are collected
from it are resolved in their order, and what they are resolved to is stored on the scope of the
class. If none of them can be resolved, the bases stay what they were. If only the last base has
template arguments, and no leading `::` comes after `virtual`, the collected names are the written
ones. -/
theorem bases_stored (options : Options) (files : FileTree) (runs : List (List (Path × String)))
    (inputs : List (Path × String)) {p : Parser} {waiting : List Parser}
    {left : List (Path × String)}
    (hreached : Stage.Reaches (after { options, files } runs)
      ((after { options, files } runs).start inputs) (.reading p waiting left))
    {name : Identifier} {bs : List Base} (hhead : p.HeadsClass name bs)
    (hread : (p.depths.bracket > 0 && p.atNamespaceLevel) = false)
    (hlevel : p.advance.atDeclarationLevel = true) :
    let here := (Parser.advance^[(Base.listTokens bs).length + 3] p).snapshot.namespaces
    ∃ q names f r, (Stage.reading p waiting left).step (after { options, files } runs) =
        some (.reading q waiting left) ∧
      Forest.Resolves p.tree here p.forest (Base.collected bs) names f ∧
      q.tree = p.tree ∧ q.forest.findName? q.tree (here.push name.word) = some r ∧
      (q.forest.scope r).bases = (if names = [] then
          ((p.forest.findName? p.tree (here.push name.word)).map
            fun x ↦ (p.forest.scope x).bases).getD []
        else names) ∧
      ((∀ b ∈ bs.dropLast, b.arguments = none) →
        (∀ b ∈ bs, b.target.global = true → .virtual ∉ b.specifiers) →
        Base.collected bs = bs.map fun b ↦ b.target.name.segments) := by
  intro here
  obtain ⟨updates, hstart⟩ := sound_after options files runs inputs
  obtain ⟨updates', -, hsound⟩ := hstart.later hreached.later
  have hformed : p.forest.WellFormed := hsound.1.forest
  have htree : p.tree < p.forest.trees.size := hsound.2 p List.mem_cons_self
  have hword : p.token = .classWord := by
    obtain ⟨a, after, hahead⟩ := hhead
    exact Parser.token_of_ahead hahead
  have hturn := Parser.turn_classHead (fun _ p ↦ p) hhead hread hlevel
  obtain ⟨hforest, htree'⟩ := p.iterate_advance ((Base.listTokens bs).length + 3)
  obtain ⟨hentered, hsame⟩ :=
    (Parser.advance^[(Base.listTokens bs).length + 3] p).forest_enterClass here name.word
      ((Base.collected bs).map Name.join)
  rw [← hturn, hforest, htree'] at hentered
  rw [← hturn, htree'] at hsame
  have hresolves : Forest.Resolves p.tree here p.forest (Base.collected bs) _ _ :=
    Forest.resolves_resolveBases (Base.words_of_mem_collected bs)
  generalize Parser.resolveBases p.forest p.tree here _ = resolved at hentered hresolves
  obtain ⟨hshape, hbases⟩ := hresolves.keeps
  have hfind : resolved.2.findName? p.tree (here.push name.word) =
      p.forest.findName? p.tree (here.push name.word) :=
    Forest.find?_congr hshape.files hshape.children _ _
  obtain ⟨r, hr, hstored⟩ := (hformed.congr hshape).inherit_found (hshape.files.size ▸ htree)
    (here.push name.word) resolved.1
  refine ⟨_, resolved.1, resolved.2, r, Stage.step_of_classWord waiting left hword, hresolves, hsame,
    ?_, ?_, Base.collected_eq⟩
  · rw [hentered, hsame, hr]
  · simp only [hentered, hstored, hfind, hbases]

def derivedClass : List (Path × String) :=
  [(⟨"main.cpp"⟩, "class Shape \x7b \x7d; namespace Plane \x7b class Round \x7b \x7d; " ++
    "class Oval : public Shape, private virtual Round, Lost, " ++
    "::Plane::Round<size, Shape> \x7b \x7d; \x7d")]

def derivedBases : List Base :=
  [⟨[.access], ⟨false, ⟨"Shape", by decide⟩, []⟩, none⟩,
    ⟨[.access, .virtual], ⟨false, ⟨"Round", by decide⟩, []⟩, none⟩,
    ⟨[], ⟨false, ⟨"Lost", by decide⟩, []⟩, none⟩,
    ⟨[], ⟨true, ⟨"Plane", by decide⟩, [⟨"Round", by decide⟩]⟩,
      some [some ⟨"size", by decide⟩, none, some ⟨"Shape", by decide⟩]⟩]

/-- One of the four bases cannot be resolved, and two of them are the same class. -/
theorem bases_stored_derived :
    ∃ p waiting left q r,
      Stage.Reaches {} (start {} derivedClass) (.reading p waiting left) ∧
      p.HeadsClass ⟨"Oval", by decide⟩ derivedBases ∧
      (Stage.reading p waiting left).step {} = some (.reading q waiting left) ∧
      q.forest.findName? q.tree ⟨["", "Plane", "Oval"]⟩ = some r ∧
      (q.forest.scope r).bases =
        [⟨["", "Shape"]⟩, ⟨["", "Plane", "Round"]⟩, ⟨["", "Plane", "Round"]⟩] := by
  let head : List Token := .classWord :: .ident "Oval" :: .colon .leftBrace ::
    (Base.listTokens derivedBases ++ [.opening .brace])
  have hstages : ((start {} derivedClass).stepped {} 8).any (Stage.reads fun p ↦
      p.ahead = head ++ p.ahead.drop head.length ∧
      (p.depths.bracket > 0 && p.atNamespaceLevel) = false ∧
      p.advance.atDeclarationLevel = true ∧
      (Parser.advance^[(Base.listTokens derivedBases).length + 3] p).snapshot.namespaces =
        ⟨["", "Plane"]⟩ ∧
      (Parser.resolveBases p.forest p.tree ⟨["", "Plane"]⟩
        ((Base.collected derivedBases).map Name.join)).1 =
          [⟨["", "Shape"]⟩, ⟨["", "Plane", "Round"]⟩, ⟨["", "Plane", "Round"]⟩]) = true := by
    decide +kernel
  obtain ⟨p, waiting, left, hreached, hstage⟩ := Stage.exists_reading hstages
  obtain ⟨hahead, hread, hlevel, hplace, hnames⟩ := of_decide_eq_true hstage
  have hhead : p.HeadsClass ⟨"Oval", by decide⟩ derivedBases := ⟨.leftBrace, _, hahead⟩
  obtain ⟨q, names, f, r, hstep, hresolves, -, hr, hbases, -⟩ :=
    bases_stored {} {} [] derivedClass hreached hhead hread hlevel
  rw [hplace] at hresolves hr
  obtain ⟨rfl, -⟩ := hresolves.unique
    (Forest.resolves_resolveBases (Base.words_of_mem_collected derivedBases))
  rw [hnames] at hbases
  exact ⟨p, waiting, left, q, r, hreached, hhead, hstep, hr, hbases⟩

/-- A base after template arguments is lost, and so is one with a leading `::` after `virtual`. -/
theorem bases_lost :
    let contexts := fun source ↦
      (({} : Extractor).extractSource ⟨"main.cpp"⟩ source).1.messages.map Message.context
    contexts ("class T \x7b \x7d; class B \x7b Q_OBJECT \x7d; " ++
      "class X : T<int>, B \x7b void f() \x7b tr(\"s\"); \x7d \x7d;") = ["X"] ∧
    contexts ("class T \x7b \x7d; class B \x7b Q_OBJECT \x7d; " ++
      "class X : B, T<int> \x7b void f() \x7b tr(\"s\"); \x7d \x7d;") = ["B"] ∧
    contexts ("class B \x7b Q_OBJECT \x7d; " ++
      "class X : virtual ::B \x7b void f() \x7b tr(\"s\"); \x7d \x7d;") = ["X"] ∧
    contexts ("class B \x7b Q_OBJECT \x7d; " ++
      "class X : virtual B \x7b void f() \x7b tr(\"s\"); \x7d \x7d;") = ["B"] := by
  decide +kernel

end Extractor

end Harvest
