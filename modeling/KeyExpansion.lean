import KeyExpansion.CodeRef
import KeyExpansion.Coercion
import KeyExpansion.Command.Arguments
import KeyExpansion.Command.Basic
import KeyExpansion.Command.Fault
import KeyExpansion.Command.Report
import KeyExpansion.Command.Run
import KeyExpansion.Command.Setting
import KeyExpansion.Command.Starter
import KeyExpansion.Decimal.Binary
import KeyExpansion.Decimal.Read
import KeyExpansion.Decimal.Shortest
import KeyExpansion.Decimal.Text
import KeyExpansion.Decimal.Whole
import KeyExpansion.Error
import KeyExpansion.Expansion.Basic
import KeyExpansion.Expansion.Coerce
import KeyExpansion.Expansion.Conduct
import KeyExpansion.Expansion.Expand
import KeyExpansion.Expansion.Redirect
import KeyExpansion.FileTree
import KeyExpansion.Format.Apply
import KeyExpansion.Format.Fault
import KeyExpansion.Format.Parser
import KeyExpansion.Key.Family
import KeyExpansion.Key.Make
import KeyExpansion.Kind
import KeyExpansion.Layer.Basic
import KeyExpansion.Layer.Discovery
import KeyExpansion.Layer.Merged
import KeyExpansion.Machine
import KeyExpansion.Main
import KeyExpansion.Mark
import KeyExpansion.Path
import KeyExpansion.Proofs.Except
import KeyExpansion.Proofs.Key.Single
import KeyExpansion.Proofs.Template.Fill
import KeyExpansion.Proofs.Template.Pieces
import KeyExpansion.Registry
import KeyExpansion.Sectioned.Basic
import KeyExpansion.Sectioned.Clean
import KeyExpansion.Sectioned.Layout
import KeyExpansion.Sectioned.Lineage
import KeyExpansion.Sectioned.Meaning
import KeyExpansion.Sectioned.Needle
import KeyExpansion.Sectioned.Scheme
import KeyExpansion.Sectioned.Words
import KeyExpansion.Source
import KeyExpansion.Template.Fault
import KeyExpansion.Template.Fill
import KeyExpansion.Template.ParamName
import KeyExpansion.Template.Parser
import KeyExpansion.Template.Piece
import KeyExpansion.Text.CharClass
import KeyExpansion.Text.Quoted
import KeyExpansion.Text.Search
import KeyExpansion.Text.Span
import KeyExpansion.Uuid
import KeyExpansion.Value.Basic
import KeyExpansion.Value.Constraint
import KeyExpansion.Value.Entries
import KeyExpansion.Value.Equality
import KeyExpansion.Value.Node
import KeyExpansion.Value.Text
import KeyExpansion.Yaml.Glyph
import KeyExpansion.Yaml.Node
import KeyExpansion.Yaml.Reader
import KeyExpansion.Yaml.Scalar
import KeyExpansion.Yaml.Token
import KeyExpansion.Yaml.Writer
import KeyExpansion.Proofs.Expansion.Steady
import KeyExpansion.Proofs.Expansion.Chain
import KeyExpansion.Proofs.Key.Template
import KeyExpansion.Proofs.Expansion.Substitution
import KeyExpansion.Proofs.Expansion.Settle
import KeyExpansion.Proofs.Expansion.Invariant
import KeyExpansion.Proofs.Key.Written
import KeyExpansion.Proofs.Expansion.Reference
import KeyExpansion.Proofs.Expansion.Cycle
import KeyExpansion.Proofs.Key.Made
import KeyExpansion.Proofs.Expansion.Bounded
import KeyExpansion.Proofs.Expansion.Holding
import KeyExpansion.Proofs.Expansion.Simulation
import KeyExpansion.Proofs.Key.Built
import KeyExpansion.Proofs.Expansion.Ample
import KeyExpansion.Proofs.Text.Search
import KeyExpansion.Proofs.Text.Span
import KeyExpansion.Proofs.Text.InOrder
import KeyExpansion.Proofs.Sectioned.Grammar
import KeyExpansion.Proofs.Sectioned.Decomposition
import KeyExpansion.Proofs.Uuid
import KeyExpansion.Proofs.Sectioned.Token
import KeyExpansion.Proofs.Sectioned.Canonical
import KeyExpansion.Proofs.Sectioned.Dotted
import KeyExpansion.Proofs.Sectioned.FixedPoint
import KeyExpansion.Proofs.Sectioned.Tail
import KeyExpansion.Proofs.Sectioned.Push
import KeyExpansion.Proofs.Text.Words
import KeyExpansion.Proofs.Sectioned.Tokens
import KeyExpansion.Proofs.Sectioned.Decoding
import KeyExpansion.Proofs.Sectioned.Acceptance
import KeyExpansion.Proofs.Sectioned.Canon
import KeyExpansion.Proofs.Layer.Includes
import KeyExpansion.Proofs.Layer.Order
import KeyExpansion.Proofs.Template.Field
import KeyExpansion.Proofs.Key.Rebuilt
import KeyExpansion.Proofs.Format.Fill
import KeyExpansion.Proofs.Key.Encoded
import KeyExpansion.Proofs.Value.Entries
import KeyExpansion.Proofs.Layer.Merging
import KeyExpansion.Proofs.Expansion.Absorbed
import KeyExpansion.Proofs.Expansion.Extensional
import KeyExpansion.Proofs.Yaml.Distinct
import KeyExpansion.Proofs.Leases
import KeyExpansion.Proofs.Expansion.Indirect
import KeyExpansion.Proofs.FileTree
import KeyExpansion.Proofs.Layer.Placement
import KeyExpansion.Proofs.Layer.Discovery
import KeyExpansion.Proofs.Layer.Precedence
import KeyExpansion.Proofs.Sectioned.Ancestry
import KeyExpansion.Proofs.Template.Grammar
import KeyExpansion.Proofs.Template.Printed
import KeyExpansion.Proofs.Key.WellFormed
import KeyExpansion.Proofs.Sectioned.Separators
import KeyExpansion.Proofs.Sectioned.Whole
import KeyExpansion.Proofs.Expansion.Truncation
import KeyExpansion.Proofs.Expansion.Stack
import KeyExpansion.Proofs.Sectioned.Pop
import KeyExpansion.Proofs.Sectioned.Instances
import KeyExpansion.Proofs.Sectioned.Unique
import KeyExpansion.Proofs.Sectioned.Lasting
import KeyExpansion.Proofs.Sectioned.ReadBack
import KeyExpansion.Proofs.Decimal.Whole
import KeyExpansion.Proofs.Format.Padding
import KeyExpansion.Proofs.Format.Grammar
import KeyExpansion.Proofs.CodeRef
import KeyExpansion.Proofs.Sectioned.Joined
import KeyExpansion.Proofs.Template.ParamName
import KeyExpansion.Proofs.Layer.Composition
import KeyExpansion.Proofs.Path
import KeyExpansion.Proofs.Layer.Inheritance
import KeyExpansion.Proofs.Expansion.Absolute
import KeyExpansion.Proofs.Text.Runs
import KeyExpansion.Proofs.Sectioned.View
import KeyExpansion.Proofs.Yaml.Plain
import KeyExpansion.Proofs.Yaml.Quoted
import KeyExpansion.Proofs.Yaml.Lines
import KeyExpansion.Proofs.Yaml.Block
import KeyExpansion.Proofs.Yaml.Written
import KeyExpansion.Proofs.Yaml.Printable
import KeyExpansion.Proofs.FileTree.Write
import KeyExpansion.Proofs.Command.Written
import KeyExpansion.Proofs.Command.Starter
import KeyExpansion.Proofs.Command.Init
