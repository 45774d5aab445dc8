import Graft.Main
import Graft.Tree.Path
import Graft.Proofs.Layout.Untouched
import Graft.Proofs.Layout.Spared
import Graft.Proofs.Layout.Statements
import Graft.Proofs.Layout.Meaning
import Graft.Proofs.Recipe.Failure
import Graft.Proofs.Recipe.Conforming
import Graft.Proofs.Change.EditLog
import Graft.Proofs.Change.Baseline
import Graft.Proofs.Recipe.Layout
import Graft.Proofs.Recipe.Identity
import Graft.Proofs.Token.Lossless
import Graft.Proofs.Token.Semicolons
import Graft.Proofs.Layout.SourceOrder
import Graft.Proofs.Patch.Headers
import Graft.Proofs.Recipe.ImportNames
import Graft.Proofs.Recipe.ListedImports
import Graft.Proofs.Change.SpanTerm
import Graft.Proofs.Match.Sections
import Graft.Proofs.Match.Greedy
import Graft.Proofs.Recipe.Stretch
import Graft.Proofs.Recipe.Rounds
import Graft.Proofs.Recipe.Ground
import Graft.Proofs.Recipe.Marks
import Graft.Proofs.Grammar.Precedence
import Graft.Proofs.Grammar.Termination
import Graft.Proofs.Change.Growth
import Graft.Proofs.Layout.Leaves
import Graft.Proofs.Layout.Documentation
import Graft.Proofs.Grammar.Enclosure
import Graft.Proofs.Grammar.EnclosureExpr
import Graft.Proofs.Grammar.EnclosureStmt
import Graft.Proofs.Grammar.Parentheses
import Graft.Proofs.Layout.Loops
import Graft.Proofs.Patch.Keys
import Graft.Proofs.Patch.Ranks
import Graft.Proofs.Recipe.WantedImports
import Graft.Proofs.Layout.SeamComments
