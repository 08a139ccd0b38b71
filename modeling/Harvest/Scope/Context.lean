import Harvest.Scope.Qualify

/-!
# Contexts of calls

The context of a call without a qualifier is that of the innermost enclosing scope that supports
localization, itself or through a base class. The context of a call with a qualifier is that of the
scope that the qualifier names.
-/

namespace Harvest

/-- A context, and whether its scope is to be reported for its lack of localization support. -/
structure Context where
  text : String
  lacksSupport : Bool
deriving DecidableEq, Repr

namespace Forest

/-- The context that belongs to a scope, which is settled as `text` at the first use. -/
def settleQualification (f : Forest) (r : ScopeRef) (text : String) : String × Forest :=
  match (f.scope r).qualification with
  | some settled => (settled, f)
  | none => (text, f.modifyScope r fun s => { s with qualification := some text })

/-- Whether the lack of support of a scope is still unreported; from now on it counts as
reported. -/
def complainOnce (f : Forest) (r : ScopeRef) : Bool × Forest :=
  (!(f.scope r).complained, f.modifyScope r fun s => { s with complained := true })

/-- Whether the definition of a scope supports localization. -/
def supports (f : Forest) (r : ScopeRef) : Bool := (f.scope (f.definition r)).supportsTr

/-- The base classes of a scope and of its definition. -/
def basesOf (f : Forest) (r : ScopeRef) : List Name :=
  (f.scope r).bases ++ (f.scope (f.definition r)).bases

def allBases (f : Forest) : List Name :=
  f.trees.toList.flatMap fun t => t.scopes.toList.flatMap Scope.bases

/-- The base classes of a scope, direct or not, as far as they are in `fresh`. -/
def ancestors (f : Forest) (t : Nat) (fresh : List Name) (r : ScopeRef) : List Name :=
  preorder id (fun base => ((f.findName? t base).map f.basesOf).getD []) fresh (f.basesOf r)

/-- The definition of a base class that supports localization. -/
def supporting? (f : Forest) (t : Nat) (base : Name) : Option ScopeRef :=
  match f.findName? t base with
  | none => none
  | some r => if f.supports r then some (f.definition r) else none

/-- The definition that gives a call its context, and the text of that context as long as none is
settled: that of the innermost of the first `k` enclosing scopes that supports localization or has a
base class that does. Base classes outside `fresh` were looked at further inside. -/
def innermost? (f : Forest) (t : Nat) (place : Name) : Nat → List Name → Option (ScopeRef × String)
  | 0, _ => none
  | k + 1, fresh =>
    match f.find? t (place.below (k + 1)) with
    | none => innermost? f t place k fresh
    | some r =>
      if f.supports r then some (f.definition r, Name.join (place.below (k + 1)))
      else
        let reached := f.ancestors t fresh r
        match reached.findSome? fun base =>
            (f.supporting? t base).map fun d => (d, base.render) with
        | some found => some found
        | none => innermost? f t place k (fresh.filter (· ∉ reached))

/-- The context of a call without a qualifier at `place`. -/
def unqualifiedContext (f : Forest) (t : Nat) (place : Name) : Context × Forest :=
  match f.innermost? t place place.length f.allBases with
  | some (definition, text) =>
    let (text, f) := f.settleQualification definition text
    (⟨text, false⟩, f)
  | none =>
    match f.findName? t place with
    | none => (⟨place.render, false⟩, f)
    | some r =>
      let (unreported, f) := f.complainOnce (f.definition r)
      (⟨place.render, unreported⟩, f)

/-- The context of a call that is qualified with `written`, at `place`. -/
def qualifiedContext (f : Forest) (t : Nat) (place : Name) (written : String) : Context × Forest :=
  match f.qualifyWritten t place written false with
  | (.error rest, f) =>
    (⟨joinContexts rest.resolved.render (Name.join rest.unresolved), false⟩, f)
  | (.ok owner, f) =>
    match f.findName? t owner with
    | none => (⟨owner.render, false⟩, f)
    | some r =>
      let d := f.definition r
      let (text, f) := f.settleQualification d owner.render
      if (f.scope d).supportsTr then (⟨text, false⟩, f)
      else
        let (unreported, f) := f.complainOnce d
        (⟨text, unreported⟩, f)

end Forest

end Harvest
