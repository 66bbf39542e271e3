import PlotGrammar.Compilation
import PlotGrammar.Config.Reader
import PlotGrammar.Proofs.Lists
import PlotGrammar.Proofs.Evaluation.Failures
import PlotGrammar.Proofs.Evaluation.Traversal
import PlotGrammar.Proofs.Pipeline.Grouping
import PlotGrammar.Proofs.Pipeline.Histories
import PlotGrammar.Proofs.Resolution
import PlotGrammar.Proofs.Results
import PlotGrammar.Proofs.Scene
import PlotGrammar.Proofs.Table.Fields
import PlotGrammar.Scene.Printer
import PlotGrammar.Table.Records
import PlotGrammar.View.Reader
import PlotGrammar.Proofs.Evaluation.Calls
import PlotGrammar.Proofs.Evaluation.Provenance
import PlotGrammar.Proofs.Table.Removal
import PlotGrammar.Proofs.View.Mentions
import PlotGrammar.Proofs.Evaluation.Unmentioned
import PlotGrammar.Proofs.Evaluation.Structure
import PlotGrammar.Proofs.Evaluation.Inheritance
import PlotGrammar.Proofs.Evaluation.Conservation
import PlotGrammar.Proofs.Binary64.Bits
import PlotGrammar.Proofs.Decimal.Rounding
import PlotGrammar.Proofs.Decimal.Shortest
import PlotGrammar.Proofs.Json.Numbers
import PlotGrammar.Proofs.Json.RoundTrip
import PlotGrammar.Proofs.View.Parts
import PlotGrammar.Proofs.View.Written
import PlotGrammar.Proofs.View.Kept
import PlotGrammar.Proofs.View.RoundTrip
import PlotGrammar.Proofs.Evaluation.Faults
import PlotGrammar.Proofs.Evaluation.Limits
import PlotGrammar.Proofs.Evaluation.Splitting
import PlotGrammar.Proofs.Evaluation.Subviews
import PlotGrammar.Proofs.Evaluation.Facets
import PlotGrammar.Proofs.View.Validity
import PlotGrammar.Proofs.Evaluation.Validation
import PlotGrammar.Proofs.Binary64.Whole
import PlotGrammar.Proofs.Json.Readings
import PlotGrammar.Proofs.View.Accepted
import PlotGrammar.Proofs.View.Rewriting
import PlotGrammar.Proofs.View.Alternatives
import PlotGrammar.Proofs.Table.Reduction
import PlotGrammar.Proofs.Evaluation.Tables
import PlotGrammar.Proofs.Pipeline.Outcomes
import PlotGrammar.Proofs.Table.Classes
import PlotGrammar.Proofs.Evaluation.Groups
import PlotGrammar.Proofs.Evaluation.Instances
import PlotGrammar.Proofs.Pipeline.Keyed
import PlotGrammar.Proofs.Evaluation.SingleRows
import PlotGrammar.Proofs.Binary64.Values
import PlotGrammar.Proofs.Binary64.Nearest
import PlotGrammar.Proofs.Binary64.Arithmetic
import PlotGrammar.Proofs.Binary64.WholeNumbers
import PlotGrammar.Proofs.Decimal.Nearness
import PlotGrammar.Proofs.Binning.Labels
import PlotGrammar.Proofs.Decimal.Orders
import PlotGrammar.Proofs.Binning.Grid
import PlotGrammar.Proofs.Binning.Buckets
import PlotGrammar.Proofs.Binning.Ends
import PlotGrammar.Proofs.Binning.Widths
import PlotGrammar.Proofs.Binning.Fitting
import PlotGrammar.Proofs.Binary64.Counts
import PlotGrammar.Proofs.Layout.Grid
import PlotGrammar.Proofs.Layout.Settling
import PlotGrammar.Proofs.Resolution.FixedPoint
import PlotGrammar.Proofs.Resolution.Order
import PlotGrammar.Proofs.Resolution.Memory
import PlotGrammar.Proofs.Binary64.Order
import PlotGrammar.Proofs.Binning.Ladder
import PlotGrammar.Proofs.Binning.Positions
import PlotGrammar.Proofs.Binning.Starts
import PlotGrammar.Proofs.Binning.Budget
import PlotGrammar.Proofs.Evaluation.Extents
import PlotGrammar.Proofs.Table.Records
import PlotGrammar.Proofs.Table.Reordering
import PlotGrammar.Proofs.Pipeline.Reordering
import PlotGrammar.Proofs.Json.Locations
import PlotGrammar.Proofs.View.Grammar
import PlotGrammar.Proofs.View.Strictness
import PlotGrammar.Proofs.Encoding.Merging
import PlotGrammar.Proofs.NodePath
import PlotGrammar.Proofs.Evaluation.Messages
import PlotGrammar.Json.Reader
import PlotGrammar.Proofs.Binary64.Infinity
import PlotGrammar.Proofs.Json.Shown
import PlotGrammar.Proofs.Binning.Search
import PlotGrammar.Proofs.Binning.Climbing
import PlotGrammar.Proofs.Binning.Naming
