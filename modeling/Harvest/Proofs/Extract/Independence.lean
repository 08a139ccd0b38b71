import Harvest.Proofs.Extract.Alone

/-!
# Independence of the order of the inputs

The inputs of an extraction share headers, and the results of a header are kept from the first file
that includes it. Main statement: what is reported for an input is what an extraction of that input
alone reports, whatever other inputs there are and in which order they come, if no file includes
itself and the input is fit to be read in any session.
-/

namespace Harvest

namespace Parser

variable {C : Canon} {opened : Set Nat} {s s₀ : Session} {e : Extractor} {stack : List Path}
  {p q q' : Parser} {x path : Path} {source : String}

namespace Tandem

end Tandem

theorem upkeep_aloneAt {updates : List IncludeCache.Update} (h : s.Good C opened updates)
    (stack : List Path) (x : Path) :
    Tandem (.upkeep e C opened s stack x) x (aloneAt e.options e.files x (e.textOf x) stack s)
      (aloneAt e.options e.files x (e.textOf x) stack s) :=
  ⟨rfl, rfl, rfl, rfl, rfl, rfl, ⟨rfl, rfl, .planted h⟩, trivial,
    fun _ ht _ hfound hincluded ↦ follows_items ht hfound hincluded⟩

end Parser

namespace Stage

end Stage

namespace Extractor

variable {e : Extractor} {inputs : List Path} {input x y : Path} {hclean : input.clean = input}
  {stack : List Path} {depth : Nat} {opened : Set Nat} {s s₀ : Session}
  {updates : List IncludeCache.Update} {q : Parser}

/-- The file is an input, or an input leads to it. -/
def IsRead (e : Extractor) (inputs : List Path) (x : Path) : Prop :=
  ∃ other ∈ inputs, Relation.ReflTransGen e.Includes other x

/-- A file that is read keeps its session good, where `depth` bounds how many files can be read
within it. -/
def Upholds (e : Extractor) (inputs : List Path) (C : Canon) (depth : Nat) : Prop :=
  ∀ ⦃opened s₀ stack x p⦄, e.IsRead inputs x →
    Parser.Tandem (.upkeep e C opened s₀ stack x) x p p → e.Waits stack x depth → p.Ends →
    Parser.Tandem (.upkeep e C opened s₀ stack x) x (p.parse depth) (p.parse depth)

/-- The input is never read in place of an include. -/
def ReadApart (e : Extractor) (inputs : List Path) (input : Path) : Prop :=
  input.isHeader = true ∨ ∀ other ∈ inputs, ¬e.LeadsTo other input

/-- The input is read on its own in every run on the inputs, as if it were alone. -/
structure Stands (e : Extractor) (inputs : List Path) (input : Path) : Prop where
  fit : e.Fit input
  apart : e.ReadApart inputs input

/-- An input that is read on its own is trusted. -/
theorem Stands.isBlacklisted_eq_false (h : e.Stands inputs input)
    (hgood : s.Good (e.canon inputs hclean) opened updates) :
    s.cache.isBlacklisted input = false := by
  rw [Bool.eq_false_iff]
  intro hblacklisted
  obtain ⟨hheader, other, hother, hleads⟩ := hgood.blacklist input hclean hblacklisted
  rcases h.apart with hisHeader | hapart
  · rw [hheader] at hisHeader
    cases hisHeader
  · exact hapart other hother hleads

section Fit

variable (hfit : e.Fit input) (hacyclic : e.Acyclic inputs) (hinput : input ∈ inputs)

include hfit hacyclic hinput

/-- Whatever file is read on its own, it is as expected. -/
theorem Upholds.reads (h : e.Upholds inputs (e.canon inputs hclean) depth)
    (hx : e.IsRead inputs x) (hxclean : x.clean = x)
    (hgood : s.Good (e.canon inputs hclean) opened updates) (hwaits : e.Waits stack x depth) :
    (e.canon inputs hclean).Reads opened s x
      ((Parser.aloneAt e.options e.files x (e.textOf x) stack s).parse depth) := by
  by_cases hcounts : e.Counts input x
  · have hleads : Relation.ReflTransGen e.Includes input x := by
      rcases hcounts with rfl | ⟨-, hleads⟩
      · exact .refl
      · exact hleads.to_reflTransGen
    exact (readsAlike hfit hacyclic hinput hleads).reads hfit hcounts hgood hwaits
  · have hends := Parser.ends_aloneAt e.options e.files x (e.textOf x) stack s
    have htandem := h hx (Parser.upkeep_aloneAt hgood stack x) hwaits hends
    obtain ⟨hfile, htree⟩ := hwaits.frame_aloneAt s
    generalize (Parser.aloneAt e.options e.files x (e.textOf x) stack s).parse depth = r
      at htandem hfile htree
    refine ⟨hfile, htree, htandem.rel.2.2, ?_, fun h ↦ (hcounts (.inr h)).elim⟩
    subst hfile
    -- Nothing is expected of a file that does not count.
    exact ⟨hxclean, fun h ↦ (hcounts h).elim, fun h ↦ (hcounts h).elim,
      fun h ↦ (hcounts (.inr h)).elim, fun h ↦ (hcounts (.inr h)).elim,
      fun h ↦ (hcounts (.inr h)).elim⟩

end Fit

section Stands

variable (hstands : e.Stands inputs input) (hacyclic : e.Acyclic inputs) (hinput : input ∈ inputs)

include hstands hacyclic hinput

end Stands

variable {options : Options} {files : FileTree} {sources sources' : List (Path × String)}
  {i j : Path × String}

section Descends

variable {rest : List Path}

end Descends

/-- The files of a directory. -/
def directory (texts : List (Path × String)) : FileTree where
  entries := texts.map fun (path, text) ↦
    ([path.text], .file ⟨(Text.Utf8.encode text.toList).toArray⟩)

/-- The file `x.inc` reads `y.inc` in place of an include, but not where it is itself read in place
after a declaration of `B`. -/
def nested : List (Path × String) :=
  [(⟨"x.inc"⟩, "class A \x7b \x7d; class B::C \x7b [\n#include \"y.inc\"\n] \x7d;\n"),
    (⟨"a.cpp"⟩, "namespace B \x7b \x7d\n#include \"x.inc\"\n"),
    (⟨"y.inc"⟩, "class Y \x7b void g() \x7b tr(\"y\"); \x7d \x7d;\n")]

deriving instance DecidableEq for Session

end Extractor

end Harvest
