import InlineMarkup.TokenStream
import InlineMarkup.TokenQuery
import InlineMarkup.Registry.Workbench
import InlineMarkup.Settings.Program
import InlineMarkup.Settings.Thread
import InlineMarkup.Stored.Load
import InlineMarkup.Stored.Store
import InlineMarkup.Visit.Calls
import InlineMarkup.Rewrite.Rule
import InlineMarkup.Proofs.Losslessness
import InlineMarkup.Proofs.Lines
import InlineMarkup.Proofs.LiteralText
import InlineMarkup.Proofs.LeafGrammar
import InlineMarkup.Proofs.Comparison
import InlineMarkup.Proofs.DepthBound
import InlineMarkup.Proofs.Priority
import InlineMarkup.Proofs.Containers
import InlineMarkup.Proofs.Substitution
import InlineMarkup.Proofs.MaximalMunch
import InlineMarkup.Proofs.Histories
import InlineMarkup.Proofs.JsonReading
import InlineMarkup.Proofs.JsonRoundTrip
import InlineMarkup.Proofs.Loading
import InlineMarkup.Proofs.Storing
import InlineMarkup.Proofs.LoadFaults
import InlineMarkup.Proofs.Coalescing
import InlineMarkup.Proofs.Halting
import InlineMarkup.Proofs.Placement
import InlineMarkup.Proofs.TagWords
import InlineMarkup.Proofs.Restart
import InlineMarkup.Proofs.Streams
import InlineMarkup.Proofs.Building
import InlineMarkup.Proofs.Programs
import InlineMarkup.Proofs.Scoping
import InlineMarkup.Proofs.TopLevels
import InlineMarkup.Proofs.Rebasing
import InlineMarkup.Proofs.RewrittenText
import InlineMarkup.Proofs.PlainText
import InlineMarkup.Proofs.LinkSpans
import InlineMarkup.Proofs.Seams
import InlineMarkup.Proofs.NextTokens
import InlineMarkup.Proofs.RunKinds
import InlineMarkup.Proofs.Traversal
import InlineMarkup.Proofs.LooseReaders
import InlineMarkup.Proofs.LoadedNodes
