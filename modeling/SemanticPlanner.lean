import SemanticPlanner.Command.Arguments
import SemanticPlanner.Command.Listing
import SemanticPlanner.Command.Run
import SemanticPlanner.Concept.Basic
import SemanticPlanner.Concept.Datasource
import SemanticPlanner.Concept.Grain
import SemanticPlanner.Concept.Lineage
import SemanticPlanner.Cte.Basic
import SemanticPlanner.Cte.DirectReturn
import SemanticPlanner.Cte.FoldAggregate
import SemanticPlanner.Cte.InlineConstant
import SemanticPlanner.Cte.InlineDatasource
import SemanticPlanner.Cte.Lower
import SemanticPlanner.Cte.Optimize
import SemanticPlanner.Cte.Plan
import SemanticPlanner.Cte.PushPredicate
import SemanticPlanner.Cte.Rule
import SemanticPlanner.Decimal.Shortest
import SemanticPlanner.Digest.Sha256
import SemanticPlanner.Environment.Basic
import SemanticPlanner.Environment.Declaration
import SemanticPlanner.Environment.Scalar
import SemanticPlanner.Error
import SemanticPlanner.Inspect
import SemanticPlanner.Json.Decode
import SemanticPlanner.Json.Number
import SemanticPlanner.Json.Printer
import SemanticPlanner.Json.Reader
import SemanticPlanner.Json.Value
import SemanticPlanner.Main
import SemanticPlanner.Order.DisjointSets
import SemanticPlanner.Order.Distinct
import SemanticPlanner.Order.Reach
import SemanticPlanner.Order.SortedMap
import SemanticPlanner.Order.SortedSet
import SemanticPlanner.Order.Sorts
import SemanticPlanner.Order.Topological
import SemanticPlanner.Plan.Arena
import SemanticPlanner.Plan.Copy
import SemanticPlanner.Plan.History
import SemanticPlanner.Plan.JoinOrder
import SemanticPlanner.Plan.Memo
import SemanticPlanner.Plan.Node
import SemanticPlanner.Plan.Resolve
import SemanticPlanner.Proofs.AggregateReach
import SemanticPlanner.Proofs.Agreement
import SemanticPlanner.Proofs.Applying
import SemanticPlanner.Proofs.Arborescence
import SemanticPlanner.Proofs.Arena
import SemanticPlanner.Proofs.Atomicity
import SemanticPlanner.Proofs.Bridging
import SemanticPlanner.Proofs.Chaining
import SemanticPlanner.Proofs.Columns
import SemanticPlanner.Proofs.ConditionText
import SemanticPlanner.Proofs.Conjunctions
import SemanticPlanner.Proofs.ConnectedNodes
import SemanticPlanner.Proofs.ConnectingTree
import SemanticPlanner.Proofs.Convergence
import SemanticPlanner.Proofs.Copy
import SemanticPlanner.Proofs.Coverage
import SemanticPlanner.Proofs.CoveredSources
import SemanticPlanner.Proofs.Cycles
import SemanticPlanner.Proofs.Declaring
import SemanticPlanner.Proofs.Determined
import SemanticPlanner.Proofs.DisjointSets
import SemanticPlanner.Proofs.Dispatch
import SemanticPlanner.Proofs.DroppedFilters
import SemanticPlanner.Proofs.EffectiveGrain
import SemanticPlanner.Proofs.Entailment
import SemanticPlanner.Proofs.Expansion
import SemanticPlanner.Proofs.Following
import SemanticPlanner.Proofs.Generators
import SemanticPlanner.Proofs.Handouts
import SemanticPlanner.Proofs.Identifiers
import SemanticPlanner.Proofs.InliningCutoff
import SemanticPlanner.Proofs.Isolation
import SemanticPlanner.Proofs.ItemByItem
import SemanticPlanner.Proofs.JoinPairs
import SemanticPlanner.Proofs.Joining
import SemanticPlanner.Proofs.Joins
import SemanticPlanner.Proofs.KeptOffers
import SemanticPlanner.Proofs.KeptPairs
import SemanticPlanner.Proofs.LeafCutting
import SemanticPlanner.Proofs.LightestFirst
import SemanticPlanner.Proofs.Links
import SemanticPlanner.Proofs.Literals
import SemanticPlanner.Proofs.Lowering
import SemanticPlanner.Proofs.Matching
import SemanticPlanner.Proofs.Memo
import SemanticPlanner.Proofs.MergedColumns
import SemanticPlanner.Proofs.Mirrors
import SemanticPlanner.Proofs.Naming
import SemanticPlanner.Proofs.Nesting
import SemanticPlanner.Proofs.OptimizedColumns
import SemanticPlanner.Proofs.OptimizedRoot
import SemanticPlanner.Proofs.Origins
import SemanticPlanner.Proofs.OuterRows
import SemanticPlanner.Proofs.Partition
import SemanticPlanner.Proofs.PickOrder
import SemanticPlanner.Proofs.Planning
import SemanticPlanner.Proofs.Progress
import SemanticPlanner.Proofs.Providers
import SemanticPlanner.Proofs.Pseudonyms
import SemanticPlanner.Proofs.Pushdown
import SemanticPlanner.Proofs.Query
import SemanticPlanner.Proofs.Reach
import SemanticPlanner.Proofs.Refinement
import SemanticPlanner.Proofs.Renaming
import SemanticPlanner.Proofs.Requests
import SemanticPlanner.Proofs.Rewriting
import SemanticPlanner.Proofs.Rounds
import SemanticPlanner.Proofs.Routes
import SemanticPlanner.Proofs.RowFilters
import SemanticPlanner.Proofs.RowGrain
import SemanticPlanner.Proofs.Rowsets
import SemanticPlanner.Proofs.Rules
import SemanticPlanner.Proofs.Scalar
import SemanticPlanner.Proofs.SearchKeys
import SemanticPlanner.Proofs.Searching
import SemanticPlanner.Proofs.Settled
import SemanticPlanner.Proofs.ShortestPaths
import SemanticPlanner.Proofs.Sourcing
import SemanticPlanner.Proofs.SpanningForests
import SemanticPlanner.Proofs.Stability
import SemanticPlanner.Proofs.Stacking
import SemanticPlanner.Proofs.Steps
import SemanticPlanner.Proofs.Termination
import SemanticPlanner.Proofs.Topological
import SemanticPlanner.Proofs.Tours
import SemanticPlanner.Proofs.Tracking
import SemanticPlanner.Proofs.Transparency
import SemanticPlanner.Proofs.TreeBound
import SemanticPlanner.Reference.Build
import SemanticPlanner.Reference.Graph
import SemanticPlanner.Reference.Node
import SemanticPlanner.Reference.SpanningTree
import SemanticPlanner.Reference.Steiner
import SemanticPlanner.Relation.Basic
import SemanticPlanner.Relation.ConceptMap
import SemanticPlanner.Relation.Grouping
import SemanticPlanner.Relation.Identifier
import SemanticPlanner.Relation.Join
import SemanticPlanner.Relation.JoinChain
import SemanticPlanner.Relation.Json
import SemanticPlanner.Relation.NodeJoins
import SemanticPlanner.Search.Coverage
import SemanticPlanner.Search.Loop
import SemanticPlanner.Search.Priority
import SemanticPlanner.Search.Query
import SemanticPlanner.Settings
import SemanticPlanner.Sourcing.Bridge
import SemanticPlanner.Sourcing.Bridged
import SemanticPlanner.Sourcing.Derivation
import SemanticPlanner.Sourcing.Derived
import SemanticPlanner.Sourcing.Direct
import SemanticPlanner.Sourcing.Enrich
import SemanticPlanner.Sourcing.Extracts
import SemanticPlanner.Sourcing.Filter
import SemanticPlanner.Sourcing.Inputs
import SemanticPlanner.Sourcing.Match
import SemanticPlanner.Sourcing.Multiselect
import SemanticPlanner.Sourcing.Planner
import SemanticPlanner.Sourcing.Ranges
import SemanticPlanner.Sourcing.Root
import SemanticPlanner.Sourcing.Rowset
import SemanticPlanner.Sourcing.Select
import SemanticPlanner.Sourcing.Synonym
import SemanticPlanner.Sourcing.Union
import SemanticPlanner.Term.Condition
import SemanticPlanner.Term.Expr
import SemanticPlanner.Term.Literal
import SemanticPlanner.Term.Operator
import SemanticPlanner.Text.Address
import SemanticPlanner.Text.Split
import SemanticPlanner.Toml.Number
import SemanticPlanner.Toml.Reader
import SemanticPlanner.Toml.Table
import SemanticPlanner.Toml.Text
