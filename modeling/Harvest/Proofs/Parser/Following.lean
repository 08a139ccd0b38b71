import Harvest.Parser.Include
import Harvest.Proofs.Parser.Tandem

/-!
# Turns at an include

A turn of the main loop either follows an include or does not depend on how includes are followed.
An include either leaves the other files alone or reads one of them, on its own or in place.
-/

namespace Harvest.Parser

variable {p : Parser} {includer includer' : Includer} {found : Path}

theorem onInclude_eq (written : String) (quoted : Bool) :
    p.onInclude includer written quoted =
      ((resolveInclude p.files p.file written quoted p.options.includePaths).elim p
        fun found ↦ includer found p).advance := by
  unfold onInclude
  split <;> rename_i heq <;> rw [heq] <;> rfl

theorem turn_of_include?_eq_some (h : p.include? = some found) :
    p.turn includer = (includer found p).advance := by
  unfold include? at h
  split at h
  · cases h
  · rename_i hbracket
    rw [turn, if_neg hbracket]
    cases htoken : p.token with
    | quotedInclude written =>
      rw [htoken] at h
      dsimp only
      rw [onInclude_eq, show resolveInclude _ _ _ _ _ = some found from h]
      rfl
    | angledInclude written =>
      rw [htoken] at h
      dsimp only
      rw [onInclude_eq, show resolveInclude _ _ _ _ _ = some found from h]
      rfl
    | _ =>
      rw [htoken] at h
      cases h

/-- What a turn does that includes nothing is the same however includes are followed. -/
theorem turn_of_include?_eq_none (h : p.include? = none) : p.turn includer = p.turn includer' := by
  unfold include? at h
  split at h
  · rename_i hbracket
    rw [turn, if_pos hbracket, turn, if_pos hbracket]
  · rename_i hbracket
    rw [turn, if_neg hbracket, turn, if_neg hbracket]
    cases htoken : p.token with
    | quotedInclude written =>
      rw [htoken] at h
      dsimp only
      rw [onInclude_eq, onInclude_eq, show resolveInclude _ _ _ _ _ = none from h]
      rfl
    | angledInclude written =>
      rw [htoken] at h
      dsimp only
      rw [onInclude_eq, onInclude_eq, show resolveInclude _ _ _ _ _ = none from h]
      rfl
    | opening d => cases d <;> rfl
    | closing d => cases d <;> rfl
    | _ => rfl

/-- The session with a tree for one more file. -/
def planted (session : Session) : Session :=
  { session with
    forest := session.forest.plant session.cache.nextFileId
    cache := { session.cache with nextFileId := session.cache.nextFileId + 1 } }

/-- A parser at the start of a file that is read on its own. -/
def aloneAt (options : Options) (files : FileTree) (file : Path) (source : String)
    (stack : List Path) (session : Session) : Parser :=
  start options files file source false stack session.forest.trees.size #[] (planted session)

/-- What is left of a parser that has read its file on its own. -/
def outcome (tree : Nat) (p : Parser) : Detached := ⟨tree, p.messages, p.snapshot⟩

theorem detached_eq (parse : Parser → Parser) (options : Options) (files : FileTree) (file : Path)
    (source : String) (stack : List Path) (session : Session) :
    detached parse options files file source stack session =
      ((parse (aloneAt options files file source stack session)).outcome session.forest.trees.size,
        (parse (aloneAt options files file source stack session)).session) := rfl

/-- A parser at the start of a file that is read in place of an include. -/
def inPlaceAt (p : Parser) (path : Path) (source : String) : Parser :=
  (start p.options p.files path source true (p.stack ++ [path]) p.tree p.messages
    p.session).setSnapshot
    { namespaces := p.snapshot.namespaces
      functionContext := p.snapshot.functionContext
      unresolved := p.snapshot.unresolved }

/-- How an include is followed. -/
inductive Way
  /-- The file is excluded. -/
  | skip
  /-- The file is being read already, and the files from it on form a cycle. -/
  | cycle (paths : List Path)
  /-- The results of the file are known. -/
  | known (trees : List Nat)
  | unreadable (e : ReadError)
  | alone (source : String)
  | inPlace (source : String)
deriving DecidableEq

/-- How the include of the file at `path` is followed. -/
def way (p : Parser) (path : Path) : Way :=
  if p.options.excludes path then .skip
  else
    match p.stack.findIdx? path.same with
    | some i => .cycle (p.stack.drop i)
    | none =>
      let alone := !p.session.cache.isBlacklisted path && path.isHeader
      let known := if alone then p.session.cache.results path p.snapshot else []
      if !known.isEmpty then .known known
      else
        match p.files.readText path with
        | .error e => .unreadable e
        | .ok source => if alone then .alone source else .inPlace source

/-- How the include of the file at `path` is followed, and why. -/
inductive Takes (p : Parser) (path : Path) : Way → Prop
  | skip (hexcluded : p.options.excludes path = true) :
      Takes p path .skip
  | cycle {i : Nat} (hstack : p.stack.findIdx? path.same = some i) :
      Takes p path (.cycle (p.stack.drop i))
  | known (hstack : p.stack.findIdx? path.same = none) :
      Takes p path (.known (p.session.cache.results path p.snapshot))
  | unreadable {e : ReadError} (hstack : p.stack.findIdx? path.same = none)
      (htext : p.files.readText path = .error e) : Takes p path (.unreadable e)
  | alone {source : String} (hstack : p.stack.findIdx? path.same = none)
      (hheader : path.isHeader = true) (hblacklist : p.session.cache.isBlacklisted path = false)
      (hunknown : p.session.cache.results path p.snapshot = [])
      (htext : p.files.readText path = .ok source) : Takes p path (.alone source)
  | inPlace {source : String} (hstack : p.stack.findIdx? path.same = none)
      (htext : p.files.readText path = .ok source) : Takes p path (.inPlace source)

theorem takes_way (p : Parser) (path : Path) : p.Takes path (p.way path) := by
  unfold way
  split
  · exact .skip ‹_›
  split
  · exact .cycle ‹_›
  rename_i hstack
  dsimp only
  cases halone : !p.session.cache.isBlacklisted path && path.isHeader with
  | false =>
    simp only [Bool.false_eq_true, if_false, List.isEmpty_nil, Bool.not_true]
    split
    · exact .unreadable hstack ‹_›
    · exact .inPlace hstack ‹_›
  | true =>
    simp only [if_true]
    split
    · exact .known hstack
    · rename_i hunknown
      simp only [Bool.and_eq_true, Bool.not_eq_true'] at halone
      split
      · exact .unreadable hstack ‹_›
      · exact .alone hstack halone.2 halone.1 (by simpa using hunknown) ‹_›

/-- What following an include in one way does. -/
def Way.take (parse : Parser → Parser) (path : Path) (p : Parser) : Way → Parser
  | skip => p
  | cycle paths => p.setCache (p.session.cache.addCycle paths p.snapshot)
  | known trees =>
    p.setForest (trees.foldl (fun forest tree ↦ forest.addInclude p.tree tree) p.forest)
  | unreadable e => p.report .unreadableInclude (unreadableMessage path e)
  | alone source => (includeAlone parse path source p).clearProspective.clearPending
  | inPlace source => (includeInPlace parse path source p).clearProspective.clearPending

theorem messages_take_alone (parse : Parser → Parser) (path : Path) (p : Parser) (source : String) :
    ((Way.alone source).take parse path p).messages = p.messages := rfl

theorem followInclude_eq (parse : Parser → Parser) (found : Path) (p : Parser) :
    followInclude parse found p = (p.way found.clean).take parse found.clean p := by
  unfold followInclude way
  dsimp only
  by_cases hexcluded : p.options.excludes found.clean = true
  · rw [if_pos hexcluded, if_pos hexcluded]
    rfl
  rw [if_neg hexcluded, if_neg hexcluded]
  cases p.stack.findIdx? found.clean.same with
  | some i => rfl
  | none =>
    dsimp only
    generalize (!p.session.cache.isBlacklisted found.clean && found.clean.isHeader) = alone
    generalize (if alone then p.session.cache.results found.clean p.snapshot else []) = known
    cases known with
    | cons tree trees => rfl
    | nil =>
      cases p.files.readText found.clean with
      | error e => rfl
      | ok source => cases alone <;> rfl

/-- What a parser keeps from its first token to its last. -/
def frame (p : Parser) := (p.options, p.files, p.file, p.inPlace, p.stack, p.trailing, p.tree)

/-- Whatever an include does, the includer keeps its place. -/
theorem place_followInclude (parse : Parser → Parser) (found : Path) (p : Parser) :
    (followInclude parse found p).frame = p.frame ∧
      (followInclude parse found p).token = p.token ∧
      (followInclude parse found p).rest = p.rest := by
  rw [followInclude_eq]
  cases p.way found.clean <;>
    simp only [Way.take, setCache, setForest, report, reportAt, includeAlone, includeInPlace,
      clearProspective, clearPending, frame, and_self]

end Harvest.Parser
