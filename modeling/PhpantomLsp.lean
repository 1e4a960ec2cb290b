import PhpantomLsp.Lib.Runs
import PhpantomLsp.Lib.Table
import PhpantomLsp.Lib.GuardedRecursion
import PhpantomLsp.Lib.ZipAll
import PhpantomLsp.Lib.Retain
import PhpantomLsp.Lib.Intervals
import PhpantomLsp.Lib.Splices
import PhpantomLsp.Lib.StableSort
import PhpantomLsp.Lib.Anchors
import PhpantomLsp.Text.Ascii
import PhpantomLsp.Text.Numbers
import PhpantomLsp.Text.Float64
import PhpantomLsp.Text.PhpString
import PhpantomLsp.Text.Utf8
import PhpantomLsp.Text.Positions
import PhpantomLsp.Text.LineIndex
import PhpantomLsp.Text.Revisions
import PhpantomLsp.Text.TextEdits
import PhpantomLsp.Text.TextEditTies
import PhpantomLsp.Lib.DepthFirst
import PhpantomLsp.PhpType.Keywords
import PhpantomLsp.PhpType.Literal
import PhpantomLsp.PhpType.NamedLattice
import PhpantomLsp.PhpType.Basic
import PhpantomLsp.PhpType.ShapeKeys
import PhpantomLsp.PhpType.Dedup
import PhpantomLsp.PhpType.DedupExact
import PhpantomLsp.PhpType.Predicates
import PhpantomLsp.PhpType.Absorb
import PhpantomLsp.PhpType.Constructors
import PhpantomLsp.PhpType.Subtype
import PhpantomLsp.PhpType.RuntimeSubtype
import PhpantomLsp.PhpType.RuntimeJoin
import PhpantomLsp.PhpType.RuntimeJoinExact
import PhpantomLsp.PhpType.TypeOperators
import PhpantomLsp.PhpType.ShapeReaders
import PhpantomLsp.PhpType.ScalarNames
import PhpantomLsp.PhpType.ScalarSubtype
import PhpantomLsp.PhpType.ScalarTransitivity
import PhpantomLsp.PhpType.UnionAlternatives
import PhpantomLsp.PhpType.KeyOfValues
import PhpantomLsp.PhpType.Intern
import PhpantomLsp.Index.Inheritance
import PhpantomLsp.Index.References
import PhpantomLsp.Index.CiMap
import PhpantomLsp.Index.ClassDeclarations
import PhpantomLsp.Index.NameState
import PhpantomLsp.Index.ClassOwners
import PhpantomLsp.Index.Alternates
import PhpantomLsp.Diagnostics.Epoch
import PhpantomLsp.Diagnostics.Units
import PhpantomLsp.Diagnostics.Shift
import PhpantomLsp.Blade.Directives
import PhpantomLsp.Blade.ComponentTags
import PhpantomLsp.Blade.Preprocessor
import PhpantomLsp.Blade.Lowerings
import PhpantomLsp.Blade.LineBreaks
import PhpantomLsp.Blade.Scan
import PhpantomLsp.Blade.Lines
import PhpantomLsp.Blade.Anchors
import PhpantomLsp.Members.Merge
import PhpantomLsp.Members.Offers
import PhpantomLsp.Members.Ancestry
import PhpantomLsp.Members.Declaring
import PhpantomLsp.Members.Precedence
import PhpantomLsp.Members.Selection
import PhpantomLsp.Flow.Disjoint
import PhpantomLsp.Flow.Proofs
import PhpantomLsp.Flow.JoinSoundness
import PhpantomLsp.Index.Toposort
import PhpantomLsp.Lib.UnionFind
import PhpantomLsp.Lib.Patches
import PhpantomLsp.Text.Lines
import PhpantomLsp.Formatting.Range
import PhpantomLsp.Formatting.RangeMoves
import PhpantomLsp.Flow.KeyReads
import PhpantomLsp.Flow.ProofMap
import PhpantomLsp.Flow.Invalidation
import PhpantomLsp.Lib.Packed
import PhpantomLsp.Flow.Trie
import PhpantomLsp.Flow.TrieLookup
import PhpantomLsp.Flow.TrieWrites
import PhpantomLsp.Flow.TrieCells
import PhpantomLsp.Flow.TrieDiff
import PhpantomLsp.Flow.TrieMap
import PhpantomLsp.Flow.TrieRuns
import PhpantomLsp.Flow.SubjectKeys
import PhpantomLsp.Flow.SubjectReads
import PhpantomLsp.Flow.StaleKeys
import PhpantomLsp.Flow.DisjointHashes
import PhpantomLsp.Lib.FirstIndex
import PhpantomLsp.Flow.ProofIndex
import PhpantomLsp.Blade.SourceMap
import PhpantomLsp.Blade.BoundAttrs
import PhpantomLsp.Folding.ConstFold
import PhpantomLsp.Folding.Expressions
import PhpantomLsp.Folding.Operands
import PhpantomLsp.Folding.Literals
import PhpantomLsp.Folding.Splits
import PhpantomLsp.Folding.Integers
import PhpantomLsp.Folding.Soundness
import PhpantomLsp.Lib.Stuttering
import PhpantomLsp.Classmap.Lexer
import PhpantomLsp.Classmap.Following
import PhpantomLsp.Classmap.Agreement
import PhpantomLsp.Diagnostics.Suppression
import PhpantomLsp.Formatting.RangeEdits
import PhpantomLsp.SemanticTokens.Encoding
import PhpantomLsp.SemanticTokens.Blocks
import PhpantomLsp.SemanticTokens.Fidelity
import PhpantomLsp.Flow.Exits
import PhpantomLsp.Text.PhpBytes
import PhpantomLsp.Text.NumericText
import PhpantomLsp.PhpType.PhpComparison
import PhpantomLsp.PhpType.LooseEquals
import PhpantomLsp.PhpType.LooseEqualsExact
import PhpantomLsp.Lib.Worklist
import PhpantomLsp.Flow.LoopAssignments
import PhpantomLsp.Flow.SelfDependence
import PhpantomLsp.Imports.UseStatement
import PhpantomLsp.Imports.UseMembers
import PhpantomLsp.Lib.Joined
import PhpantomLsp.Imports.UseItems
import PhpantomLsp.Imports.UseDecl
import PhpantomLsp.Imports.UseDeletion
import PhpantomLsp.Imports.UseRemoval
import PhpantomLsp.Diagnostics.DqlProviders
import PhpantomLsp.Diagnostics.OpenUses
import PhpantomLsp.Composer.Psr4
import PhpantomLsp.Composer.Placement
import PhpantomLsp.PhpType.Substitute
import PhpantomLsp.PhpType.Mentions
import PhpantomLsp.PhpType.SubstituteMentions
import PhpantomLsp.Inheritance.Generics
import PhpantomLsp.Inheritance.TemplateLeaks
import PhpantomLsp.Lib.PreorderWalk
import PhpantomLsp.Lib.MarkedWorklist
import PhpantomLsp.Lib.BoundedSearch
import PhpantomLsp.Inheritance.AncestorGenerics
import PhpantomLsp.ClassLookup.Supertypes
import PhpantomLsp.ClassLookup.NominalSubtype
import PhpantomLsp.Lib.Nesting
import PhpantomLsp.TextScan.Brackets
import PhpantomLsp.TextScan.Tokens
import PhpantomLsp.TextScan.Agreement
import PhpantomLsp.PhpType.IntegerKeys
import PhpantomLsp.Text.OffsetToPosition
import PhpantomLsp.Lib.ExtendedInts
import PhpantomLsp.TypeOps.IntInterval
import PhpantomLsp.Lib.IntervalMerge
import PhpantomLsp.PhpType.IntRanges
import PhpantomLsp.Lib.Occurrences
import PhpantomLsp.Lib.PartitionPoint
import PhpantomLsp.TextScan.Namespaces
import PhpantomLsp.Lib.Replace
import PhpantomLsp.PhpType.ShapeKeyText
import PhpantomLsp.PhpType.RewriteGates
import PhpantomLsp.Lib.Settling
import PhpantomLsp.TypeOps.Widening
import PhpantomLsp.Lib.PartialRuns
import PhpantomLsp.Lib.WorkerPool
import PhpantomLsp.Parallel.Pool
import PhpantomLsp.Parallel.Blocks
import PhpantomLsp.Lib.Layering
import PhpantomLsp.Parallel.Layers
import PhpantomLsp.Lib.SharedStore
import PhpantomLsp.Blade.RenderOrder
import PhpantomLsp.Blade.RefreshPass
