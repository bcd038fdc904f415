import LocatedJson.Text.Basic
import LocatedJson.Text.Blank
import LocatedJson.Text.CodePoint
import LocatedJson.Text.Digit
import LocatedJson.Text.Display
import LocatedJson.Text.Slice
import LocatedJson.Text.Word
import LocatedJson.Pairs
import LocatedJson.Numeral
import LocatedJson.Profile
import LocatedJson.Token
import LocatedJson.Fault
import LocatedJson.Cursor
import LocatedJson.Token.Lex
import LocatedJson.StringBody
import LocatedJson.Numeral.Literal
import LocatedJson.Parse
import LocatedJson.Datum.Json
import LocatedJson.Walk
import LocatedJson.Lines
import LocatedJson.Neighbour
import LocatedJson.Directive
import LocatedJson.Session
import LocatedJson.Language
import LocatedJson.Proofs.Grammar
import LocatedJson.Proofs.Reading
import LocatedJson.Proofs.Derivation
import LocatedJson.Proofs.Lookahead
import LocatedJson.Proofs.Quoted
import LocatedJson.Proofs.Lexing
import LocatedJson.Proofs.Tiling
import LocatedJson.Proofs.Places
import LocatedJson.Proofs.Faults
import LocatedJson.Proofs.Complaints
import LocatedJson.Proofs.Interchange
import LocatedJson.Proofs.Interchange.Number
import LocatedJson.Proofs.Interchange.String
import LocatedJson.Proofs.Interchange.Reading
import LocatedJson.Proofs.Delimiting
import LocatedJson.Proofs.Sentences
import LocatedJson.Proofs.DialectChain
import LocatedJson.Proofs.Trivia
import LocatedJson.Proofs.Phrases
import LocatedJson.Proofs.Alignment
import LocatedJson.Proofs.Neighbours
import LocatedJson.Proofs.Punctuation
import LocatedJson.Proofs.History
import LocatedJson.Proofs.Unfolding
import LocatedJson.Proofs.Ancestors
import LocatedJson.Proofs.Labels
import LocatedJson.Proofs.Literals
import LocatedJson.Proofs.Escapes
import LocatedJson.Proofs.Refusals
import LocatedJson.Proofs.Comments
import LocatedJson.Proofs.Accounting
import LocatedJson.Proofs.StrictReading
import LocatedJson.Proofs.Settings
import LocatedJson.Proofs.Excerpts
import LocatedJson.Proofs.Interchange.Spelling
import LocatedJson.Proofs.Interchange.Acceptance
import LocatedJson.Proofs.Interchange.Decoding
import LocatedJson.Proofs.RuleGrammar
import LocatedJson.Proofs.Interchange.Lenient
import LocatedJson.Proofs.Interchange.Mending
import LocatedJson.Proofs.Limits
import LocatedJson.Proofs.LineTable
import LocatedJson.Proofs.StringRendering
import LocatedJson.Proofs.RuleNotation
import LocatedJson.Proofs.RuleReading
import LocatedJson.Proofs.DirectiveNotation
import LocatedJson.Proofs.Concatenation
import LocatedJson.Proofs.BareNames
import LocatedJson.Proofs.RuleLists
import LocatedJson.Proofs.NameLists
import LocatedJson.Proofs.Integers
import LocatedJson.Proofs.NumericEscapes
import LocatedJson.Proofs.BoundaryOwners
import LocatedJson.Proofs.Operations
import LocatedJson.Proofs.StringUnits
import LocatedJson.Proofs.LineDecomposition
