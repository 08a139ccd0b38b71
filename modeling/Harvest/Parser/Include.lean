import Harvest.Parser.Loop

/-!
# Following includes

A header is parsed on its own, from the global scope, and its result is shared by all includers
that stand in the same snapshot as it ended in. Any other file is parsed in place, as if its text
stood in the includer. A file that is being read already is not read again; the files on the cycle
share their results.
-/

namespace Harvest.Parser

/-- What parsing one file on its own produced. -/
structure Detached where
  tree : Nat
  messages : Array Message
  snapshot : Snapshot

/-- Parses a file on its own; `parse` reads a parser's file to its end. -/
def detached (parse : Parser → Parser) (options : Options) (files : FileTree) (file : Path)
    (source : String) (stack : List Path) (session : Session) : Detached × Session :=
  let id := session.cache.nextFileId
  let tree := session.forest.trees.size
  let session : Session :=
    { session with
      forest := session.forest.plant id
      cache := { session.cache with nextFileId := id + 1 } }
  let p := parse (start options files file source false stack tree #[] session)
  (⟨tree, p.messages, p.snapshot⟩, p.session)

/-- The tree that stands for a header. A header without messages that declares nothing and includes
one file is that file. -/
def representative (forest : Forest) (d : Detached) : Nat :=
  match (forest.tree d.tree).includes with
  | [(_, included)] =>
    if d.messages.isEmpty && forest.isForwarding d.tree then included else d.tree
  | _ => d.tree

/-- Stores the messages of a file and, for a header, its result under the snapshot at its end. -/
def store (session : Session) (file : Path) (d : Detached) (header : Bool) : Session :=
  let cache := session.cache.setMessages file d.messages.toList
  if header then
    let tree := representative session.forest d
    let fileId := (session.forest.tree tree).fileId
    { session with cache := cache.setResults file d.snapshot fileId tree }
  else { session with cache }

def unreadableMessage (path : Path) (e : ReadError) : String :=
  "Cannot open " ++ path.text ++ ": " ++ e.message

/-- A header, parsed on its own. -/
def includeAlone (parse : Parser → Parser) (path : Path) (source : String) (p : Parser) : Parser :=
  let (d, session) :=
    detached parse p.options p.files path source (p.stack ++ [path]) p.session
  let session := store session path d true
  let tree := representative session.forest d
  let p := { p with session }
  p.setForest (p.forest.addInclude p.tree tree)

/-- A file, parsed in place of its include. -/
def includeInPlace (parse : Parser → Parser) (path : Path) (source : String) (p : Parser) :
    Parser :=
  let s := p.snapshot
  let child :=
    (start p.options p.files path source true (p.stack ++ [path]) p.tree p.messages
      p.session).setSnapshot
      { namespaces := s.namespaces
        functionContext := s.functionContext
        unresolved := s.unresolved }
  let child := parse child
  let p := { p with session := child.session, messages := child.messages }
  p.setCache (p.session.cache.addBlacklisted path)

/-- What an include of a file does, where `parse` reads a parser's file to its end. -/
def followInclude (parse : Parser → Parser) (found : Path) (p : Parser) : Parser :=
  let path := found.clean
  if p.options.excludes path then p
  else
    match p.stack.findIdx? path.same with
    | some i => p.setCache (p.session.cache.addCycle (p.stack.drop i) p.snapshot)
    | none =>
      let alone := !p.session.cache.isBlacklisted path && path.isHeader
      let cached := if alone then p.session.cache.results path p.snapshot else []
      if !cached.isEmpty then
        p.setForest (cached.foldl (fun forest tree => forest.addInclude p.tree tree) p.forest)
      else
        match p.files.readText path with
        | .error e => p.report .unreadableInclude (unreadableMessage path e)
        | .ok source =>
          let p :=
            if alone then includeAlone parse path source p else includeInPlace parse path source p
          p.clearProspective.clearPending

/-- Reads a file to its end, following includes up to `depth` levels. -/
def parse : Nat → Parser → Parser
  | 0, p => p.run fun _ p => p
  | depth + 1, p => p.run (followInclude (parse depth))

/-- More than the number of paths that lead to files. No file is read within itself, so that
includes do not nest deeper. -/
@[irreducible]
def depthLimit : Nat := Nat.pow 256 (FileTree.maxLength + 1)

end Harvest.Parser
