import Harvest.Message
import Harvest.Path
import Harvest.Scope.Forest
import Harvest.Snapshot

/-!
# The include cache

The results of headers that were parsed on their own, under their path and the snapshot at their
end. Files that include each other share their results: each key leads to a numbered group, and a
cycle of includes unites the groups of its files in a new one, to which all their keys lead then.
-/

namespace Harvest

/-- Under what results are stored. -/
structure CacheKey where
  path : Path
  snapshot : Snapshot
deriving DecidableEq, Repr

/-- Whether two keys are one: paths are told apart by their parts. -/
def CacheKey.same (k k' : CacheKey) : Bool := k.path.same k'.path && k.snapshot = k'.snapshot

/-- Files that include each other, with the results that they share. -/
structure IncludeGroup where
  paths : List Path := []
  /-- The results in the order of their file ids: id and tree number. -/
  results : List (Nat × Nat) := []
deriving DecidableEq, Repr

namespace IncludeGroup

/-- Adds a path, if none with its parts is there. -/
def insertPath (paths : List Path) (path : Path) : List Path :=
  if paths.any path.same then paths else path :: paths

/-- Adds a file with a result; of two results with one file id the first one stays. -/
def insert (g : IncludeGroup) (path : Path) (fileId tree : Nat) : IncludeGroup where
  paths := insertPath g.paths path
  results := Forest.insertAbsent fileId tree g.results

/-- Adds the files and results of another group; of two results with one file id its own goes. -/
def extend (g other : IncludeGroup) : IncludeGroup where
  paths := other.paths.foldl insertPath g.paths
  results := g.results.foldl (fun results entry => Forest.insertAbsent entry.1 entry.2 results)
    other.results

end IncludeGroup

/-- The numbers of the groups that keys lead to, and the groups by their numbers. -/
structure GroupTable where
  keys : List (CacheKey × Nat) := []
  groups : List (Nat × IncludeGroup) := []
  nextGroup : Nat := 0
deriving DecidableEq, Repr

namespace GroupTable

/-- The number that a key leads to. -/
def group? (t : GroupTable) (key : CacheKey) : Option Nat :=
  (t.keys.find? fun entry => key.same entry.1).map Prod.snd

/-- The group with a number. -/
def lookup? (t : GroupTable) (id : Nat) : Option IncludeGroup :=
  (t.groups.find? fun entry => entry.1 = id).map Prod.snd

/-- Lets a key lead to a group. -/
def setKey (t : GroupTable) (id : Nat) (key : CacheKey) : GroupTable :=
  { t with keys := (key, id) :: t.keys.filter fun entry => !key.same entry.1 }

/-- Adds a group under the next number. -/
def addGroup (t : GroupTable) (g : IncludeGroup) : GroupTable :=
  { t with groups := (t.nextGroup, g) :: t.groups, nextGroup := t.nextGroup + 1 }

def removeGroup (t : GroupTable) (id : Nat) : GroupTable :=
  { t with groups := t.groups.filter fun entry => entry.1 ≠ id }

def modifyGroup (t : GroupTable) (id : Nat) (f : IncludeGroup → IncludeGroup) : GroupTable :=
  { t with groups := t.groups.map fun entry => if entry.1 = id then (id, f entry.2) else entry }

def results (t : GroupTable) (key : CacheKey) : List Nat :=
  ((t.group? key).bind t.lookup?).elim [] fun g => g.results.map Prod.snd

/-- Adds a result to the group of a key; a new key gets a group of its own. -/
def setResults (t : GroupTable) (key : CacheKey) (fileId tree : Nat) : GroupTable :=
  match t.group? key with
  | some id => t.modifyGroup id fun g => g.insert key.path fileId tree
  | none =>
    ((t.addGroup {}).setKey t.nextGroup key).modifyGroup t.nextGroup fun g =>
      g.insert key.path fileId tree

/-- Takes the group of a path out of the table and into the group that is being united. -/
def absorb (snapshot : Snapshot) (u : IncludeGroup × GroupTable) (path : Path) :
    IncludeGroup × GroupTable :=
  match u.2.group? ⟨path, snapshot⟩ with
  | none => u
  | some id =>
    match u.2.lookup? id with
    | none => u
    | some g => (u.1.extend g, u.2.removeGroup id)

/-- Unites the paths and their groups. -/
def addCycle (t : GroupTable) (paths : List Path) (snapshot : Snapshot) : GroupTable :=
  let (united, t) := paths.foldl (absorb snapshot) ({ paths := paths.foldl IncludeGroup.insertPath [] }, t)
  united.paths.foldl (fun table path => table.setKey t.nextGroup ⟨path, snapshot⟩)
    (t.addGroup united)

end GroupTable

structure IncludeCache where
  table : GroupTable := {}
  /-- The files that were parsed in place of an include; their own results are never trusted. -/
  blacklist : List Path := []
  messages : List (Path × List Message) := []
  nextFileId : Nat := 0
deriving DecidableEq, Repr

namespace IncludeCache

/-- The trees with the results of a path's group. -/
def results (c : IncludeCache) (path : Path) (snapshot : Snapshot) : List Nat :=
  c.table.results ⟨path, snapshot⟩

/-- Adds a result to the group of a path. -/
def setResults (c : IncludeCache) (path : Path) (snapshot : Snapshot) (fileId tree : Nat) :
    IncludeCache :=
  { c with table := c.table.setResults ⟨path, snapshot⟩ fileId tree }

/-- Unites the paths and their groups. -/
def addCycle (c : IncludeCache) (paths : List Path) (snapshot : Snapshot) : IncludeCache :=
  { c with table := c.table.addCycle paths snapshot }

def isBlacklisted (c : IncludeCache) (path : Path) : Bool := c.blacklist.any path.same

def addBlacklisted (c : IncludeCache) (path : Path) : IncludeCache :=
  if c.isBlacklisted path then c else { c with blacklist := path :: c.blacklist }

/-- Stores the messages of a file; a file without messages keeps those it had. -/
def setMessages (c : IncludeCache) (path : Path) (messages : List Message) : IncludeCache :=
  if messages.isEmpty then c
  else { c with messages := (path, messages) :: c.messages.filter fun (p, _) => !path.same p }

def messagesOf (c : IncludeCache) (path : Path) : List Message :=
  match c.messages.find? fun (p, _) => path.same p with
  | none => []
  | some (_, messages) => messages

end IncludeCache

end Harvest
