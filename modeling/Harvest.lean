import Harvest.Text.Blank
import Harvest.Text.Escape
import Harvest.Source.Glyph
import Harvest.Source.Lexeme
import Harvest.Source.Stream
import Harvest.Remark
import Harvest.Traversal
import Harvest.Name
import Harvest.Message
import Harvest.Call
import Harvest.Scope.Context
import Harvest.Include.Cache
import Harvest.FileTree
import Harvest.Pattern.Regex.Reader
import Harvest.Include.Search
import Harvest.Extract
import Harvest.JsonValue
import Harvest.Listing
import Harvest.Summary
import Harvest.Exploration
import Harvest.Config
import Harvest.CommandLine.Run
import Harvest.Main
import Harvest.Proofs.Text.Utf8
import Harvest.Proofs.Source.Spelling
import Harvest.Proofs.Outline
import Harvest.Proofs.Parser.Reading
import Harvest.Proofs.Scope.Growth
import Harvest.Proofs.Scope.Ledger
import Harvest.Proofs.Include.Groups
import Harvest.Proofs.Extract.Contexts
import Harvest.Proofs.Extract.Inclusion
import Harvest.Proofs.Scope.Aliases
import Harvest.Proofs.Scope.Searches
import Harvest.Proofs.Scope.Settling
import Harvest.Proofs.Scope.Guards
import Harvest.Proofs.Scope.Literal
import Harvest.Proofs.Draft
import Harvest.Proofs.Parser.Pending
import Harvest.Proofs.Scope.Adoption
import Harvest.Proofs.Extract.Drafts
import Harvest.Proofs.Layout
import Harvest.Proofs.Parser.Standing
import Harvest.Proofs.Parser.Restoring
import Harvest.Proofs.Parser.Tandem
import Harvest.Proofs.Parser.Following
import Harvest.Proofs.Extract.Readings
import Harvest.Proofs.Extract.Stages
import Harvest.Proofs.Extract.Halting
import Harvest.Proofs.Scope.Formation
import Harvest.Proofs.Extract.Sessions
import Harvest.Proofs.Extract.Reuse
import Harvest.Proofs.Extract.Methods
import Harvest.Proofs.Source.Macros
import Harvest.Proofs.Source.Branches
import Harvest.Proofs.Source.Folding
import Harvest.Proofs.Source.Pulling
import Harvest.Proofs.ReturnType
import Harvest.Proofs.Extract.ReturnTypes
import Harvest.Proofs.Occurrence
import Harvest.Proofs.Parser.Listening
import Harvest.Proofs.Parser.Spending
import Harvest.Proofs.Scope.Reachability
import Harvest.Proofs.Scope.Outward
import Harvest.Proofs.Scope.Inheritance
import Harvest.Proofs.Extract.Markers
import Harvest.Proofs.Count
import Harvest.Proofs.Source.LookAhead
import Harvest.Proofs.Source.RawLiterals
import Harvest.Proofs.Parser.Counting
import Harvest.Proofs.Extract.Inheriting
import Harvest.Proofs.Text.Escapes
import Harvest.Proofs.Source.Literals
import Harvest.Proofs.Source.Delimiters
import Harvest.Proofs.Text.Seams
import Harvest.Proofs.Parser.Annotations
import Harvest.Proofs.Source.Places
import Harvest.Proofs.Text.Pieces
import Harvest.Proofs.Spellings
import Harvest.Proofs.Path
import Harvest.Proofs.NormalPath
import Harvest.Proofs.FileTree
import Harvest.Proofs.Include.Search
import Harvest.Proofs.Include.Chains
import Harvest.Proofs.Exploration
import Harvest.Proofs.Extract.Independence
