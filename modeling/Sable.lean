import Sable.Session
import Sable.Main
import Sable.Proofs.ImportGraph.Acyclic
import Sable.Proofs.Module.Walk
import Sable.Proofs.Module.Discipline
import Sable.Proofs.Syntax.Receivers
import Sable.Proofs.Scope.Chain
import Sable.Proofs.Scope.Untyped
import Sable.Proofs.Scope.Growth
import Sable.Proofs.Scope.Lookup
import Sable.Proofs.Context.Registry
import Sable.Proofs.Context.Linked
import Sable.Proofs.Context.Progress
import Sable.Proofs.Context.Walking
import Sable.Proofs.Context.Filling
import Sable.Proofs.Context.Passing
import Sable.Proofs.Context.Sparing
import Sable.Proofs.Path.Normal
import Sable.Proofs.Loader.Keys
import Sable.Proofs.Compilation.Grounded
import Sable.Proofs.Compilation.Declaring
import Sable.Proofs.Compilation.Importing
import Sable.Proofs.Compilation.Collecting
import Sable.Proofs.Compilation.Checking
import Sable.Proofs.Module.Projection
import Sable.Proofs.Module.Chart
import Sable.Proofs.Module.Survey
import Sable.Proofs.Compilation.Recording
import Sable.Proofs.Module.Trace
import Sable.Proofs.Compilation.Calls
import Sable.Proofs.Compilation.Surveying
import Sable.Proofs.Compilation.Bodies
import Sable.Proofs.Compilation.Cycles
import Sable.Proofs.Loader.Located
import Sable.Proofs.Compilation.Editing
import Sable.Proofs.Compilation.Outcomes
import Sable.Proofs.Compilation.Phases
import Sable.Proofs.Token.Spans
import Sable.Proofs.Related
import Sable.Proofs.Syntax.Alike
import Sable.Proofs.Syntax.Parallel
import Sable.Proofs.Scope.Alike
import Sable.Proofs.Module.Lockstep
import Sable.Proofs.Context.Alike
import Sable.Proofs.Context.Mirrored
import Sable.Proofs.Loader.Reformatted
import Sable.Proofs.Compilation.Reformatting
import Sable.Proofs.Module.Script
import Sable.Proofs.Module.History
import Sable.Proofs.Module.Itinerary
import Sable.Proofs.Context.Attaching
import Sable.Proofs.Context.Fitting
import Sable.Proofs.Context.Reporting
import Sable.Proofs.Compilation.Attaching
import Sable.Proofs.Compilation.Reordering
import Sable.Proofs.Compilation.Fitting
import Sable.Proofs.Token.Respacing
import Sable.Proofs.Syntax.Wording
import Sable.Proofs.Syntax.Rereading
import Sable.Proofs.Syntax.RoundTrip
import Sable.Proofs.Syntax.Pending
import Sable.Proofs.Syntax.Performing
import Sable.Proofs.Syntax.PerformedGrammar
import Sable.Proofs.Syntax.FirstError
import Sable.Proofs.Context.Framing
import Sable.Proofs.Context.Isolated
import Sable.Proofs.Compilation.Isolation
import Sable.Proofs.Scope.Nested
import Sable.Proofs.Scope.Outline
import Sable.Proofs.Syntax.Sites
import Sable.Proofs.Syntax.OneFile
import Sable.Proofs.Module.Sites
import Sable.Proofs.Context.Pointing
import Sable.Proofs.Module.Declarations
import Sable.Proofs.Scope.Binding
import Sable.Proofs.Compilation.Declared
import Sable.Proofs.Compilation.Binding
import Sable.Proofs.Compilation.Pointing
import Sable.Proofs.Module.Respect
import Sable.Proofs.Compilation.Halting
import Sable.Proofs.Syntax.Binders
import Sable.Proofs.Syntax.Distinct
import Sable.Proofs.Syntax.Nesting
import Sable.Proofs.Syntax.Climbing
import Sable.Proofs.Module.Named
import Sable.Proofs.Module.Omitting
import Sable.Proofs.Compilation.Numbered
import Sable.Proofs.Compilation.Refusing
import Sable.Proofs.Context.Recasting
import Sable.Proofs.Compilation.Recasting
import Sable.Proofs.Compilation.Omitting
import Sable.Proofs.ImportGraph.Cycles
import Sable.Proofs.ImportGraph.Undoing
import Sable.Proofs.Compilation.Operations
import Sable.Proofs.Scope.Nearest
import Sable.Proofs.Scope.Imports
import Sable.Proofs.Ty.Fields
import Sable.Proofs.Ty.Denote
import Sable.Proofs.Ty.Shape
import Sable.Proofs.Compilation.Commuting
import Sable.Proofs.Module.Kinds
import Sable.Proofs.Compilation.Populated
import Sable.Proofs.Compilation.Retyping
import Sable.Proofs.Compilation.Owning
import Sable.Proofs.Context.Writing
import Sable.Proofs.Token.Recovering
import Sable.Proofs.Syntax.ExprStatements
import Sable.Proofs.Context.Coherence
import Sable.Proofs.Compilation.Establishing
import Sable.Proofs.Compilation.Signatures
import Sable.Proofs.Syntax.CoveredGrammar
import Sable.Proofs.Token.Numerals
import Sable.Proofs.Path.Destinations
import Sable.Proofs.Loader.Fencing
import Sable.Proofs.Loader.Aliases
import Sable.Proofs.Ty.Equality
import Sable.Proofs.Span.LineCol
import Sable.Proofs.Loader.Spellings
import Sable.Proofs.Syntax.Positions
import Sable.Proofs.Compilation.Literals
