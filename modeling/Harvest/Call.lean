import Harvest.Text.Blank

/-!
# Localization calls

The functions and macros whose arguments are translatable texts, and the table of their spellings.
A specification gives a function a new spelling or one more; a specification with a mistake leaves
every look-up as it was.
-/

namespace Harvest

inductive Call
  | declareTrFunctions
  | trNNoop
  | trIdNNoop
  | translateNNoop
  | translateNNoop3
  | trNoop
  | trIdNoop
  | translateNoop
  | translateNoop3
  | trNoopUtf8
  | translateNoopUtf8
  | translateNoop3Utf8
  | findMessage
  | qtTrId
  | tr
  | trUtf8
  | translate
deriving DecidableEq, Repr

/-- How the arguments of a call are read and where its context comes from. -/
inductive CallShape
  /-- The context of the surrounding class is the argument. -/
  | declare
  /-- The context is that of the place of the call: text, comment, count. -/
  | tr
  /-- The context is the first argument, followed by text, comment, count. -/
  | translate
  /-- The argument is the id of a message. -/
  | trId
deriving DecidableEq, Repr

namespace Call

/-- The order decides between two functions of one spelling: the later one wins. -/
def all : List Call :=
  [declareTrFunctions, trNNoop, trIdNNoop, translateNNoop, translateNNoop3, trNoop, trIdNoop,
    translateNoop, translateNoop3, trNoopUtf8, translateNoopUtf8, translateNoop3Utf8, findMessage,
    qtTrId, tr, trUtf8, translate]

def defaultName : Call → String
  | declareTrFunctions => "Q_DECLARE_TR_FUNCTIONS"
  | trNNoop => "QT_TR_N_NOOP"
  | trIdNNoop => "QT_TRID_N_NOOP"
  | translateNNoop => "QT_TRANSLATE_N_NOOP"
  | translateNNoop3 => "QT_TRANSLATE_N_NOOP3"
  | trNoop => "QT_TR_NOOP"
  | trIdNoop => "QT_TRID_NOOP"
  | translateNoop => "QT_TRANSLATE_NOOP"
  | translateNoop3 => "QT_TRANSLATE_NOOP3"
  | trNoopUtf8 => "QT_TR_NOOP_UTF8"
  | translateNoopUtf8 => "QT_TRANSLATE_NOOP_UTF8"
  | translateNoop3Utf8 => "QT_TRANSLATE_NOOP3_UTF8"
  | findMessage => "findMessage"
  | qtTrId => "qtTrId"
  | tr => "tr"
  | trUtf8 => "trUtf8"
  | translate => "translate"

theorem mem_all (call : Call) : call ∈ all := by cases call <;> decide

def shape : Call → CallShape
  | declareTrFunctions => .declare
  | tr | trUtf8 | trNoop | trNoopUtf8 | trNNoop => .tr
  | qtTrId | trIdNoop | trIdNNoop => .trId
  | translate | findMessage | translateNoop | translateNoop3 | translateNoopUtf8
  | translateNoop3Utf8 | translateNNoop | translateNNoop3 => .translate

/-- Whether every message of the call is a plural one. -/
def forcesPlural : Call → Bool
  | trNNoop | trIdNNoop | translateNNoop | translateNNoop3 => true
  | _ => false

def ofDefaultName? (name : String) : Option Call := all.find? fun call => call.defaultName = name

end Call

/-- A mistake in a specification of spellings. -/
inductive SpellingError
  | missingEquals (item : String)
  | unknownFunction (name : String)
  | emptyAlias (name : String)
deriving DecidableEq, Repr

namespace SpellingError

def message : SpellingError → String
  | missingEquals item => "tr-function mapping '" ++ item ++ "' is missing the '='"
  | unknownFunction name =>
    "unknown tr-function '" ++ name ++ "'; available tr-functions are: " ++
      ",".intercalate (Call.all.map Call.defaultName)
  | emptyAlias name => "empty alias for tr-function '" ++ name ++ "'"

end SpellingError

/-- One item of a specification: a function gets the spelling `alias`, beside its others if `add`
holds and else in their place. -/
structure SpellingItem where
  call : Call
  spelling : String
  add : Bool
deriving DecidableEq, Repr

namespace SpellingItem

/-- Reads `FUNCTION=alias` or `FUNCTION+=alias`. -/
def parse (item : List Char) : Except SpellingError SpellingItem :=
  match Text.splitFirst '=' item with
  | none => .error (.missingEquals (String.ofList item))
  | some (head, spelling) =>
    let spelling := String.ofList (Text.trim spelling)
    let add := head.getLast? = some '+'
    let name := String.ofList (Text.trim (if add then head.dropLast else head))
    match Call.ofDefaultName? name with
    | none => .error (.unknownFunction name)
    | some call => if spelling = "" then .error (.emptyAlias name) else .ok ⟨call, spelling, add⟩

end SpellingItem

/-- The function that each spelling stands for. -/
abbrev CallIndex := String → Option Call

namespace CallIndex

def insert (index : CallIndex) (name : String) (call : Call) : CallIndex := fun n =>
  if n = name then some call else index n

end CallIndex

/-- The spellings of every function. -/
abbrev Spellings := Call → List String

namespace Spellings

def default : Spellings := fun call => [call.defaultName]

def apply (s : Spellings) (item : SpellingItem) : Spellings := fun call =>
  if call = item.call then (if item.add then s call else []) ++ [item.spelling] else s call

/-- The index of all spellings, made function by function. -/
def index (s : Spellings) : CallIndex :=
  Call.all.foldl
    (fun index call => (s call).foldl (fun index name => index.insert name call) index)
    fun _ => none

end Spellings

/-- The spellings of the functions, and the index that look-ups see. The index stays behind after a
specification that failed half way, until the next one succeeds. -/
structure CallTable where
  spellings : Spellings := Spellings.default
  index : CallIndex := Spellings.default.index

namespace CallTable

/-- The function with this spelling. -/
def lookup (t : CallTable) (name : String) : Option Call := t.index name

/-- Applies items up to the first mistake. -/
def applyItems (s : Spellings) : List (List Char) → Spellings × Option SpellingError
  | [] => (s, none)
  | item :: items =>
    match SpellingItem.parse item with
    | .error e => (s, some e)
    | .ok item => applyItems (s.apply item) items

/-- The items of a specification, which commas separate. -/
def itemsOf (spec : String) : List (List Char) :=
  (Text.pieces (· = ',') spec.toList).filter fun item => !item.isEmpty

/-- Applies a specification; the items before a mistake stay applied, unseen. -/
def apply (t : CallTable) (spec : String) : CallTable × Option SpellingError :=
  match applyItems t.spellings (itemsOf spec) with
  | (s, none) => (⟨s, s.index⟩, none)
  | (s, some e) => (⟨s, t.index⟩, some e)

/-- Applies specifications up to the first mistake. -/
def applyAll (t : CallTable) : List String → Except SpellingError CallTable
  | [] => .ok t
  | spec :: specs =>
    match t.apply spec with
    | (t, none) => t.applyAll specs
    | (_, some e) => .error e

end CallTable

end Harvest
