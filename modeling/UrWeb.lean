import UrWeb.Lib.Binary64
import UrWeb.Mono.References
import UrWeb.Mono.Shake
import UrWeb.Mono.ShakeClosed
import UrWeb.Lib.Hex
import UrWeb.Runtime.Urlify
import UrWeb.Mono.Urlify
import UrWeb.Core.Syntax
import UrWeb.Core.DeadCodeElimination
import UrWeb.Core.DeadCodeWalks
import UrWeb.Core.DeadCodeClosed
import UrWeb.Lib.Tarjan
import UrWeb.Lib.TarjanSound
import UrWeb.Untangle
import UrWeb.Core.Untangling
import UrWeb.Mono.Untangle
import UrWeb.Core.Semantics
import UrWeb.Core.TerminationCheck
import UrWeb.Core.TerminationSound
import UrWeb.Lib.Behaviour
import UrWeb.Mono.Semantics
import UrWeb.Mono.Fuse
import UrWeb.Mono.FuseIds
import UrWeb.Mono.Correspondence
import UrWeb.Mono.FuseSound
import UrWeb.Core.MarshalCheck
import UrWeb.Core.MarshalSound
import UrWeb.Lib.Worklist
import UrWeb.Mono.SideCheck
import UrWeb.Mono.SideSound
import UrWeb.Core.Execution
import UrWeb.Core.ExecutionReach
import UrWeb.Core.EffectAnalysis
import UrWeb.Core.EffectSound
import UrWeb.Lib.GraphModel
import UrWeb.Core.Denotation
import UrWeb.Core.LocalReduction
import UrWeb.Core.DenotationLaws
import UrWeb.Core.FreeVariables
import UrWeb.Core.LocalReductionTypes
import UrWeb.Core.LocalReductionSound
import UrWeb.Core.LocalReductionExact
import UrWeb.Core.LocalReductionNormal
import UrWeb.Core.RpcElaboration
import UrWeb.Core.RpcElaborationRun
import UrWeb.Core.RpcElaborationSound
import UrWeb.Core.ConstArgs
import UrWeb.Core.ConstArgsSound
import UrWeb.Cjr.CSyntax
import UrWeb.Cjr.Printer
import UrWeb.Cjr.Values
import UrWeb.Cjr.Representation
import UrWeb.Cjr.Dissection
import UrWeb.Cjr.Faithful
import UrWeb.Cjr.Prepare
import UrWeb.Cjr.PrepareSound
import UrWeb.Cjr.CLiterals
import UrWeb.Cjr.NestCheck
import UrWeb.Cjr.NestSound
import UrWeb.Elaborated.Syntax
import UrWeb.Elaborated.ModuleDatabase
import UrWeb.Elaborated.Mentions
import UrWeb.Lib.DependencyCache
import UrWeb.Elaborated.ModuleCoherence
import UrWeb.Jscomp.Embedding
import UrWeb.Jscomp.Compile
import UrWeb.Jscomp.Embeddable
import UrWeb.Jscomp.Injectors
import UrWeb.Jscomp.Decoders
import UrWeb.Jscomp.CompileSound
import UrWeb.Jscomp.WalkSound
import UrWeb.Jscomp.ProcessSound
import UrWeb.Sql.Scan
import UrWeb.Sql.Syntax
import UrWeb.Sql.Parse
import UrWeb.Sql.Balanced
import UrWeb.Sql.Tokens
import UrWeb.Sql.PredicateText
import UrWeb.Sql.Splitting
import UrWeb.Sql.Wrapping
import UrWeb.Sql.AtomParse
import UrWeb.Sql.PredicateParse
import UrWeb.Sql.Statements
import UrWeb.Sql.ListParse
import UrWeb.Sql.StatementText
import UrWeb.Sql.FromParse
import UrWeb.Sql.Desugaring
import UrWeb.Sql.ItemParse
import UrWeb.Sql.StatementParse
import UrWeb.Sql.Faithful
import UrWeb.Sql.Kept
import UrWeb.Sql.KeptSound
import UrWeb.Runtime.ClientUrl
import UrWeb.Mono.Binders
import UrWeb.Mono.Walk
import UrWeb.Mono.Sqlcache
import UrWeb.Mono.SqlcacheSound
import UrWeb.Mono.SqlLiterals
import UrWeb.Iflow.Facts
import UrWeb.Iflow.FactsModel
import UrWeb.Iflow.FactsSound
import UrWeb.Iflow.FactsRun
import UrWeb.Iflow.Evaluate
import UrWeb.Iflow.Scope
import UrWeb.Iflow.Flow
import UrWeb.Iflow.Outcome
import UrWeb.Iflow.ScopeKept
import UrWeb.Iflow.ScopeLost
import UrWeb.Iflow.ScopeExact
import UrWeb.Lib.Utf8
import UrWeb.Runtime.Ndb
import UrWeb.Lib.Text
import UrWeb.Lib.Rewriting
import UrWeb.Debugger.DapFraming
import UrWeb.Debugger.MiParse
import UrWeb.Debugger.MiLookup
import UrWeb.Parse.Projection
import UrWeb.Parse.LexicalAnalyzer
import UrWeb.Parse.Skips
import UrWeb.Parse.LexerProgress
import UrWeb.Parse.Literals
import UrWeb.Parse.LiteralsScanned
import UrWeb.Parse.LiteralsRead
import UrWeb.Parse.Nesting
import UrWeb.Parse.NestingRun
import UrWeb.Parse.NestingSteps
import UrWeb.Parse.NestingRead
import UrWeb.Lib.Insertion
import UrWeb.Parse.UrsQuantifiers
import UrWeb.Parse.UrsQuantifiersRead
import UrWeb.Parse.UrsQuantifiersSound
import UrWeb.Mono.SqlLiteralsSound
import UrWeb.Lib.CLexer
import UrWeb.Mono.NumericNarrowing
import UrWeb.Mono.NarrowingSound
import UrWeb.Cjr.PatternLiterals
import UrWeb.Cjr.PatternCode
import UrWeb.Lib.DeBruijn
import UrWeb.Mono.Substitution
import UrWeb.Elaborated.ConstructorOperations
import UrWeb.Elaborated.ConstructorAlgebra
import UrWeb.Elaborated.ConstructorLaws
import UrWeb.Mono.ShakeSound
