import ValueResolution.Fields
import ValueResolution.Text.Blank
import ValueResolution.Text.Decimal
import ValueResolution.Value
import ValueResolution.Resolution
import ValueResolution.Reference
import ValueResolution.Sorter
import ValueResolution.Constraint
import ValueResolution.Store.Draft
import ValueResolution.Store.Search
import ValueResolution.Store.Materialize
import ValueResolution.Scope
import ValueResolution.Schema.References
import ValueResolution.Schema.Resolve
import ValueResolution.Mapping
import ValueResolution.Text.Lowercase
import ValueResolution.Toml.Text
import ValueResolution.Toml.Number
import ValueResolution.Toml.Document
import ValueResolution.Settings.Sources
import ValueResolution.Settings.Load
import ValueResolution.Proofs.Fields
import ValueResolution.Proofs.ResolutionOrder
import ValueResolution.Proofs.Store.Lawful
import ValueResolution.Proofs.Store.Unfolding
import ValueResolution.Proofs.Store.Updating
import ValueResolution.Proofs.Node.Form
import ValueResolution.Proofs.Node.Layout
import ValueResolution.Proofs.Recorded
import ValueResolution.Proofs.Steps
import ValueResolution.Proofs.Trace
import ValueResolution.Proofs.References.Equations
import ValueResolution.Proofs.References.Made
import ValueResolution.Proofs.Store.Walk
import ValueResolution.Proofs.References.Edges
import ValueResolution.Proofs.References.Levels
import ValueResolution.Proofs.Schema.Parts
import ValueResolution.Proofs.EarlyStop.Schema
import ValueResolution.Proofs.PathOrder
import ValueResolution.Proofs.Stripping
import ValueResolution.Proofs.Ending
import ValueResolution.Proofs.Substitution
import ValueResolution.Proofs.Settling
import ValueResolution.Proofs.DeclarationOrder
import ValueResolution.Proofs.Likeness.Schema
import ValueResolution.Proofs.Likeness.Runs
import ValueResolution.Proofs.Likeness.Trees
import ValueResolution.Proofs.Node.Permuted
import ValueResolution.Proofs.Reading
import ValueResolution.Proofs.Node.Exchange
import ValueResolution.Proofs.Likeness.Nested
import ValueResolution.Proofs.Wrapping
import ValueResolution.Proofs.References.Rings
import ValueResolution.Proofs.References.Text
import ValueResolution.Proofs.Revision
import ValueResolution.Proofs.Store.Acyclic
import ValueResolution.Proofs.Store.Layers
import ValueResolution.Proofs.Store.Sharing
import ValueResolution.Proofs.Store.Worktree
import ValueResolution.Proofs.Inquiry.Record
import ValueResolution.Proofs.Inquiry.Schema
import ValueResolution.Proofs.Inquiry.Accounts
import ValueResolution.Proofs.Inquiry.Scopes
import ValueResolution.Proofs.Inquiry.Locations
import ValueResolution.Proofs.NamedInput
import ValueResolution.Proofs.Conformance
import ValueResolution.Proofs.Store.Building
import ValueResolution.Proofs.Store.Isolation
import ValueResolution.Proofs.Store.Search.Graph
import ValueResolution.Proofs.Store.Search.Tree
import ValueResolution.Proofs.Store.Search.Preorder
import ValueResolution.Proofs.Node.Declared
import ValueResolution.Proofs.Registrations
import ValueResolution.Proofs.Culprit
import ValueResolution.Proofs.Store.Frames
import ValueResolution.Proofs.FirstMatch
import ValueResolution.Proofs.Cases
import ValueResolution.Proofs.DecimalText
import ValueResolution.Proofs.Store.Positions
import ValueResolution.Proofs.Store.Chart
import ValueResolution.Proofs.Store.Lineage
import ValueResolution.Proofs.Settings.Merging
import ValueResolution.Proofs.Settings.Variables
import ValueResolution.Proofs.Settings.Mentions
import ValueResolution.Proofs.Store.Splitting
import ValueResolution.Proofs.References.Nesting
import ValueResolution.Proofs.Counting
import ValueResolution.Proofs.Settings.Switches
import ValueResolution.Proofs.Store.Slots
