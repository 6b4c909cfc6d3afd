import NodeRules.Span
import NodeRules.Hole
import NodeRules.Diagnostic
import NodeRules.Text.Basic
import NodeRules.Text.Quoted
import NodeRules.Token.Basic
import NodeRules.Token.Scanner
import NodeRules.Descriptor.Basic
import NodeRules.Rule.Basic
import NodeRules.Rule.Error
import NodeRules.Token.Place
import NodeRules.Descriptor.Reader
import NodeRules.Rule.Reader
import NodeRules.Program.Basic
import NodeRules.Program.Reader
import NodeRules.Scope
import NodeRules.License
import NodeRules.Template
import NodeRules.Text.Case
import NodeRules.Java.Names
import NodeRules.Java.Layout
import NodeRules.Java.Declaration
import NodeRules.Java.SourceFile
import NodeRules.Java.Target
import NodeRules.Java.NodeType
import NodeRules.Java.NodeClass
import NodeRules.Java.LiteralClass
import NodeRules.Java.Generate
import NodeRules.Compile
import NodeRules.Tree.Node
import NodeRules.Tree.Builder
import NodeRules.Tree.Catalog
import NodeRules.Disk
import NodeRules.CommandLine
import NodeRules.Main
import NodeRules.Proofs.Results
import NodeRules.Proofs.First
import NodeRules.Proofs.Separated
import NodeRules.Proofs.Scope.Declared
import NodeRules.Proofs.Scope.Bases
import NodeRules.Proofs.Scope.Chains
import NodeRules.Proofs.Scope.Outcome
import NodeRules.Proofs.Token.Kinds
import NodeRules.Proofs.Token.Unread
import NodeRules.Proofs.Descriptor.Grammar
import NodeRules.Proofs.Descriptor.Children
import NodeRules.Proofs.Rule.Readable
import NodeRules.Proofs.Rule.Written
import NodeRules.Proofs.Program.Lines
import NodeRules.Proofs.Rule.RoundTrip
import NodeRules.Proofs.Program.Readable
import NodeRules.Proofs.Program.RoundTrip
import NodeRules.Proofs.Program.Isolation
import NodeRules.Proofs.Program.WellFormed
import NodeRules.Proofs.Tree.Runs
import NodeRules.Proofs.Template.Holes
import NodeRules.Proofs.Compile.Units
import NodeRules.Proofs.Java.Groups
import NodeRules.Proofs.Compile.Groups
import NodeRules.Proofs.Java.Files
import NodeRules.Proofs.Java.Supertypes
import NodeRules.Proofs.Compile.Subtypes
import NodeRules.Proofs.Compile.Acceptance
import NodeRules.Proofs.Java.Imports
import NodeRules.Proofs.Compile.Seen
import NodeRules.Proofs.Scope.Order
import NodeRules.Proofs.Compile.Paths
import NodeRules.Proofs.Disk.Changes
import NodeRules.Proofs.Disk.Run
import NodeRules.Proofs.Token.Spans
import NodeRules.Proofs.Token.RoundTrip
import NodeRules.Proofs.Program.Sessions
import NodeRules.Proofs.Tree.Matching
import NodeRules.Proofs.Template.Cut
import NodeRules.Proofs.Java.Fields
import NodeRules.Proofs.Descriptor.Extents
import NodeRules.Proofs.Rule.Subtypes
import NodeRules.Proofs.Rule.Outcome
import NodeRules.Proofs.Token.Composition
import NodeRules.Proofs.Rule.Parts
import NodeRules.Proofs.Tree.Catalog
import NodeRules.Proofs.Token.Pieces
import NodeRules.Proofs.Rule.Faults
import NodeRules.Proofs.Program.ErrorPlaces
import NodeRules.Proofs.Java.Indentation
import NodeRules.Proofs.Java.LegalNames
import NodeRules.Proofs.Program.Padding
import NodeRules.Proofs.Disk.OutputDirectory
import NodeRules.Proofs.Token.Streams
import NodeRules.Proofs.Template.Numbers
import NodeRules.Proofs.Rule.LineEnds
import NodeRules.Proofs.Java.Printable
import NodeRules.Proofs.Compile.Tidy
import NodeRules.Proofs.License
import NodeRules.Proofs.Arguments
