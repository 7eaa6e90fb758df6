import AtomicCss.Cancellation
import AtomicCss.Category
import AtomicCss.Command.Args
import AtomicCss.Command.Run
import AtomicCss.Config.Basic
import AtomicCss.Config.Error
import AtomicCss.Config.File
import AtomicCss.Config.Load
import AtomicCss.Config.Validate
import AtomicCss.Decimal.Binary64
import AtomicCss.Decimal.Numeral
import AtomicCss.Decimal.Shortest
import AtomicCss.Distinct
import AtomicCss.Engine.Basic
import AtomicCss.Engine.Ruleset
import AtomicCss.Engine.Session
import AtomicCss.Glob.Expression
import AtomicCss.Glob.Limit
import AtomicCss.Glob.Match
import AtomicCss.Glob.Reader
import AtomicCss.Glob.Root
import AtomicCss.Glob.Shape
import AtomicCss.Glob.Token
import AtomicCss.Ignore.Patterns
import AtomicCss.Ignore.Repository
import AtomicCss.Ignore.Rule
import AtomicCss.Ignore.Table
import AtomicCss.Main
import AtomicCss.Memo
import AtomicCss.Memo.Shared
import AtomicCss.Project.Access
import AtomicCss.Project.Basic
import AtomicCss.Project.Edit
import AtomicCss.Project.Fault
import AtomicCss.Project.Path
import AtomicCss.Project.Walk
import AtomicCss.Proofs.Command.Agreement
import AtomicCss.Proofs.Command.Args
import AtomicCss.Proofs.Command.Line
import AtomicCss.Proofs.Command.Output
import AtomicCss.Proofs.Config.Content
import AtomicCss.Proofs.Config.Faults
import AtomicCss.Proofs.Decimal.Binary64
import AtomicCss.Proofs.Decimal.Numeral
import AtomicCss.Proofs.Distinct
import AtomicCss.Proofs.Engine.Build
import AtomicCss.Proofs.Engine.Cancelled
import AtomicCss.Proofs.Engine.Concurrent
import AtomicCss.Proofs.Engine.Learns
import AtomicCss.Proofs.Engine.Memoryless
import AtomicCss.Proofs.Engine.Reconfigure
import AtomicCss.Proofs.Engine.Ruleset
import AtomicCss.Proofs.Engine.Sound
import AtomicCss.Proofs.Fallible
import AtomicCss.Proofs.Glob.Anchor
import AtomicCss.Proofs.Glob.Bytes
import AtomicCss.Proofs.Glob.Literal
import AtomicCss.Proofs.Glob.Match
import AtomicCss.Proofs.Glob.Reader
import AtomicCss.Proofs.Glob.Root
import AtomicCss.Proofs.Ignore.Patterns
import AtomicCss.Proofs.Memo
import AtomicCss.Proofs.Memo.Crowd
import AtomicCss.Proofs.Memo.History
import AtomicCss.Proofs.Memo.Shared
import AtomicCss.Proofs.Project.Location
import AtomicCss.Proofs.Project.Order
import AtomicCss.Proofs.Project.Path
import AtomicCss.Proofs.Project.Plain
import AtomicCss.Proofs.Project.Walk
import AtomicCss.Proofs.Rebuild.FromScratch
import AtomicCss.Proofs.Rebuild.Look
import AtomicCss.Proofs.Rebuild.Safety
import AtomicCss.Proofs.Rebuild.Scripted
import AtomicCss.Proofs.Rebuild.Watch
import AtomicCss.Proofs.Rule
import AtomicCss.Proofs.Selector.ClassName
import AtomicCss.Proofs.Selector.Identifier
import AtomicCss.Proofs.Selector.Rule
import AtomicCss.Proofs.Sheet.Layout
import AtomicCss.Proofs.Sheet.Order
import AtomicCss.Proofs.Sheet.Reader
import AtomicCss.Proofs.SortedMap
import AtomicCss.Proofs.Source.Barrier
import AtomicCss.Proofs.Source.Blocks
import AtomicCss.Proofs.Source.Candidate
import AtomicCss.Proofs.Source.Delimited
import AtomicCss.Proofs.Source.Event
import AtomicCss.Proofs.Source.Ignored
import AtomicCss.Proofs.Source.Lookahead
import AtomicCss.Proofs.Source.Merge
import AtomicCss.Proofs.Source.Read
import AtomicCss.Proofs.Source.Run
import AtomicCss.Proofs.Source.Scan
import AtomicCss.Proofs.Source.Stretch
import AtomicCss.Proofs.Text.Ascii
import AtomicCss.Proofs.Text.Blank
import AtomicCss.Proofs.Text.Intercalate
import AtomicCss.Proofs.Text.Line
import AtomicCss.Proofs.Text.Words
import AtomicCss.Proofs.Theme.Additive
import AtomicCss.Proofs.Theme.Breakpoint
import AtomicCss.Proofs.Theme.Faults
import AtomicCss.Proofs.Theme.Layers
import AtomicCss.Proofs.Theme.Narrowest
import AtomicCss.Proofs.Theme.Resolve
import AtomicCss.Proofs.Utility.Arbitrary
import AtomicCss.Proofs.Utility.Braces
import AtomicCss.Proofs.Utility.Marks
import AtomicCss.Proofs.Utility.Resolve
import AtomicCss.Proofs.Utility.SelfContained
import AtomicCss.Proofs.Utility.Stem
import AtomicCss.Proofs.Value.Alphabet
import AtomicCss.Proofs.Value.Decode
import AtomicCss.Proofs.Value.Grammar
import AtomicCss.Proofs.Value.Negate
import AtomicCss.Proofs.Value.Quantity
import AtomicCss.Proofs.Value.SelfContained
import AtomicCss.Proofs.Variant.Chain
import AtomicCss.Proofs.Variant.Enabled
import AtomicCss.Proofs.Variant.Expansion
import AtomicCss.Proofs.Variant.Modifier
import AtomicCss.Proofs.Variant.Usable
import AtomicCss.Rebuild.Look
import AtomicCss.Rebuild.Loop
import AtomicCss.Rebuild.Schedule
import AtomicCss.Rebuild.Watch
import AtomicCss.Rule
import AtomicCss.Selector
import AtomicCss.Sheet.Basic
import AtomicCss.Sheet.Render
import AtomicCss.SortedMap
import AtomicCss.Source.Candidate
import AtomicCss.Source.FileKind
import AtomicCss.Source.Scan
import AtomicCss.Source.Selection
import AtomicCss.Source.Warning
import AtomicCss.Text.Affix
import AtomicCss.Text.Blank
import AtomicCss.Text.Line
import AtomicCss.Theme.Breakpoint
import AtomicCss.Theme.Default
import AtomicCss.Theme.Table
import AtomicCss.Theme.Value
import AtomicCss.Toml.Blank
import AtomicCss.Toml.Document
import AtomicCss.Toml.Moment
import AtomicCss.Toml.Number
import AtomicCss.Toml.Quoted
import AtomicCss.Toml.Reader
import AtomicCss.Toml.Table
import AtomicCss.Toml.Value
import AtomicCss.Utility.Arbitrary
import AtomicCss.Utility.Basic
import AtomicCss.Utility.Negate
import AtomicCss.Utility.Resolve
import AtomicCss.Variant.Chain
import AtomicCss.Variant.Context
import AtomicCss.Variant.Expansion
import AtomicCss.Variant.Modifier
