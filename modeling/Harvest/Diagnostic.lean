/-!
# Diagnostics

Nothing found in a source text is fatal: every problem that reading recovers from is reported as a
diagnostic with a fixed kind, and the kind decides how severe it is.
-/

namespace Harvest

inductive Severity
  | error
  | warning
deriving DecidableEq, Repr

def Severity.name : Severity → String
  | .error => "error"
  | .warning => "warning"

/-- What went wrong, independent of the wording. -/
inductive DiagnosticKind
  | unterminatedComment
  | unterminatedString
  | unterminatedCharacter
  | unterminatedRawString
  | excessClosingDelimiter
  | unbalancedOpeningDelimiter
  | branchMismatch
  | unexpectedMetaCharacter
  | unterminatedMetaString
  | discardedMetaData
  | ignoredRemark
  | invalidTrInvocation
  | missingContext
  | missingTrSupport
  | unknownQualifier
  | undeclaredQualifiedClass
  | unsupportedEncoding
  | unreadableInclude
deriving DecidableEq, Repr

namespace DiagnosticKind

def all : List DiagnosticKind :=
  [unterminatedComment, unterminatedString, unterminatedCharacter, unterminatedRawString,
    excessClosingDelimiter, unbalancedOpeningDelimiter, branchMismatch, unexpectedMetaCharacter,
    unterminatedMetaString, discardedMetaData, ignoredRemark, invalidTrInvocation, missingContext,
    missingTrSupport, unknownQualifier, undeclaredQualifiedClass, unsupportedEncoding,
    unreadableInclude]

def name : DiagnosticKind → String
  | unterminatedComment => "unterminated-comment"
  | unterminatedString => "unterminated-string"
  | unterminatedCharacter => "unterminated-character"
  | unterminatedRawString => "unterminated-raw-string"
  | excessClosingDelimiter => "excess-closing-delimiter"
  | unbalancedOpeningDelimiter => "unbalanced-opening-delimiter"
  | branchMismatch => "branch-mismatch"
  | unexpectedMetaCharacter => "unexpected-meta-character"
  | unterminatedMetaString => "unterminated-meta-string"
  | discardedMetaData => "discarded-meta-data"
  | ignoredRemark => "ignored-annotation"
  | invalidTrInvocation => "invalid-tr-invocation"
  | missingContext => "missing-context"
  | missingTrSupport => "missing-tr-support"
  | unknownQualifier => "unknown-qualifier"
  | undeclaredQualifiedClass => "undeclared-qualified-class"
  | unsupportedEncoding => "unsupported-encoding"
  | unreadableInclude => "unreadable-include"

def ofName? (name : String) : Option DiagnosticKind := all.find? fun kind => kind.name = name

theorem mem_all (kind : DiagnosticKind) : kind ∈ all := by cases kind <;> decide

/-- Lexical problems are errors, all others are warnings. -/
def severity : DiagnosticKind → Severity
  | unterminatedComment | unterminatedString | unterminatedCharacter | unterminatedRawString
  | excessClosingDelimiter | unbalancedOpeningDelimiter => .error
  | _ => .warning

end DiagnosticKind

/-- One recovered problem, at a line of a file; lines count from one. -/
structure Diagnostic where
  file : String
  line : Nat
  kind : DiagnosticKind
  message : String
deriving DecidableEq, Repr

namespace Diagnostic

def severity (d : Diagnostic) : Severity := d.kind.severity

def render (d : Diagnostic) : String :=
  d.file ++ ":" ++ toString d.line ++ ": " ++ d.severity.name ++ ": " ++ d.message

end Diagnostic

end Harvest
