import Recompile.Config.Codec
import Recompile.Directive.Codec
import Recompile.Main
import Recompile.Proofs.Cli.Failure
import Recompile.Proofs.Cli.Pending
import Recompile.Proofs.Config.Canonical
import Recompile.Proofs.Directive.Continuation
import Recompile.Proofs.Directive.Written
import Recompile.Proofs.Graph.MoreRoots
import Recompile.Proofs.Graph.Search
import Recompile.Proofs.Graph.Size
import Recompile.Proofs.Graph.Worklist
import Recompile.Proofs.History.Outputs
import Recompile.Proofs.Macro.Execution
import Recompile.Proofs.Store.Others
import Recompile.Proofs.Store.Publication
import Recompile.Proofs.Store.Torn
import Recompile.Proofs.Verdict.Declaration
import Recompile.Proofs.Verdict.Fallback
import Recompile.Proofs.Directive.Composition
import Recompile.Proofs.Directive.Comments
import Recompile.Proofs.Directive.LineEndings
import Recompile.Proofs.Resolver.Visibility
import Recompile.Proofs.Resolver.Indirection
import Recompile.Proofs.History.Doubt
