import Harvest.Parser.Include

/-!
# Extraction

Extracts the messages of a list of files. The files share one scope forest and one include cache, so
that a header is parsed once for all of them.
-/

namespace Harvest

/-- What one extraction found. -/
structure Report where
  messages : List Message
  diagnostics : List Diagnostic

/-- Extracts from files, one list of them after the other. -/
structure Extractor where
  options : Options := {}
  files : FileTree := {}
  forest : Forest := {}
  cache : IncludeCache := {}

namespace Extractor

/-- Files that an earlier include has read need not be read again. -/
def isParsed (cache : IncludeCache) (path : Path) : Bool :=
  !(cache.results path {}).isEmpty || cache.isBlacklisted path

/-- Reads one input file. -/
def parseInput (e : Extractor) (session : Session) (path : Path) (source : String) : Session :=
  if isParsed session.cache path then session
  else
    let (d, session) :=
      Parser.detached (Parser.parse Parser.depthLimit) e.options e.files path source [path] session
    Parser.store session path d path.isHeader

/-- Extracts from files, given with their texts, and reports the messages of those that were not
read in place of an include. -/
def extractFiles (e : Extractor) (inputs : List (Path × String)) : Report × Extractor :=
  let inputs := inputs.map fun (path, source) => (path.clean, source)
  let session := inputs.foldl (fun session (path, source) => e.parseInput session path source)
    { forest := e.forest, cache := e.cache }
  let own := (inputs.map Prod.fst).filter fun path => !session.cache.isBlacklisted path
  (⟨own.flatMap session.cache.messagesOf, session.diagnostics.toList⟩,
    { e with forest := session.forest, cache := session.cache })

/-- Extracts from one text. -/
def extractSource (e : Extractor) (path : Path) (source : String) : Report × Extractor :=
  e.extractFiles [(path, source)]

end Extractor

end Harvest
