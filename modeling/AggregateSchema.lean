import AggregateSchema.Aggregate
import AggregateSchema.Arguments
import AggregateSchema.Binary64
import AggregateSchema.Binary64.Shortest
import AggregateSchema.CommandLine
import AggregateSchema.Compilation
import AggregateSchema.Declaration
import AggregateSchema.Distinct
import AggregateSchema.Document
import AggregateSchema.Entity
import AggregateSchema.Entity.Derivation
import AggregateSchema.Entity.Key
import AggregateSchema.Enumeration
import AggregateSchema.Failure
import AggregateSchema.Graph
import AggregateSchema.Graph.Visit
import AggregateSchema.Json
import AggregateSchema.Json.Parser
import AggregateSchema.Json.Text
import AggregateSchema.Main
import AggregateSchema.Member
import AggregateSchema.Outline
import AggregateSchema.Path
import AggregateSchema.Report
import AggregateSchema.Row
import AggregateSchema.Row.Reading
import AggregateSchema.Row.Writing
import AggregateSchema.ScalarKind
import AggregateSchema.Schema
import AggregateSchema.Search
import AggregateSchema.Snapshot
import AggregateSchema.Source
import AggregateSchema.Statement
import AggregateSchema.Storage
import AggregateSchema.Text.Alphanumeric
import AggregateSchema.Text.Blank
import AggregateSchema.Text.CodePoint
import AggregateSchema.Text.Int64
import AggregateSchema.Text.LetterCase
import AggregateSchema.Text.Occurrence
import AggregateSchema.Text.Pattern
import AggregateSchema.Text.Quoted
import AggregateSchema.Text.SnakeCase
import AggregateSchema.Text.Split
import AggregateSchema.Text.Utf8
import AggregateSchema.TypeRegistry
import AggregateSchema.Validation
import AggregateSchema.View
import AggregateSchema.Xml.Element
import AggregateSchema.Xml.Event
import AggregateSchema.Xml.Tag
import AggregateSchema.Proofs.Declared
import AggregateSchema.Proofs.Ownership
import AggregateSchema.Proofs.KeyTable
import AggregateSchema.Proofs.KeyDerivation
import AggregateSchema.Proofs.KeyDependence
import AggregateSchema.Proofs.KeySearch
import AggregateSchema.Proofs.Entities
import AggregateSchema.Proofs.KeyInheritance
import AggregateSchema.Proofs.MemberShape
import AggregateSchema.Proofs.DeclaredMembers
import AggregateSchema.Proofs.Columns
import AggregateSchema.Proofs.OwnedLinks
import AggregateSchema.Proofs.Instance
import AggregateSchema.Proofs.Stored
import AggregateSchema.Proofs.Nested
import AggregateSchema.Proofs.Restored
import AggregateSchema.Proofs.RoundTrip
import AggregateSchema.Proofs.Depth
import AggregateSchema.Proofs.CallHistory
import AggregateSchema.Proofs.Joins
import AggregateSchema.Proofs.SearchSteps
import AggregateSchema.Proofs.SearchRun
import AggregateSchema.Proofs.SearchConditions
import AggregateSchema.Proofs.SearchShape
import AggregateSchema.Proofs.Reordering
import AggregateSchema.Proofs.DeclarationOrder
import AggregateSchema.Proofs.Tags
import AggregateSchema.Proofs.Acceptance
import AggregateSchema.Proofs.Integrity
import AggregateSchema.Proofs.FieldNames
import AggregateSchema.Proofs.ResultColumns
import AggregateSchema.Proofs.Reading
import AggregateSchema.Proofs.Isolation
import AggregateSchema.Proofs.DistinctKeys
import AggregateSchema.Proofs.StorageOrder
import AggregateSchema.Proofs.ClearedVariants
import AggregateSchema.Proofs.ColumnAddresses
import AggregateSchema.Proofs.KeyCycles
import AggregateSchema.Proofs.GraphParts
import AggregateSchema.Proofs.MergedDrafts
import AggregateSchema.Proofs.KeySources
import AggregateSchema.Proofs.ReferenceKeys
import AggregateSchema.Proofs.Descendants
import AggregateSchema.Proofs.VariationBases
import AggregateSchema.Proofs.SearchResults
import AggregateSchema.Proofs.DetailShape
import AggregateSchema.Proofs.Walks
import AggregateSchema.Proofs.ForeignKeys
import AggregateSchema.Proofs.Coverage
import AggregateSchema.Proofs.Paths
import AggregateSchema.Proofs.SearchPlaces
import AggregateSchema.Proofs.TextSearch
import AggregateSchema.Proofs.VariantFilters
import AggregateSchema.Proofs.EnumerationValues
import AggregateSchema.Proofs.DocumentOwners
import AggregateSchema.Proofs.XmlTrees
import AggregateSchema.Proofs.Reports
import AggregateSchema.Proofs.SplitDocuments
import AggregateSchema.Proofs.ElementKinds
import AggregateSchema.Proofs.VariantMembers
import AggregateSchema.Proofs.MemberEdges
import AggregateSchema.Proofs.OffMarkers
import AggregateSchema.Proofs.TellingMarkers
import AggregateSchema.Proofs.Reporting
