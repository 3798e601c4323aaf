import Narrowing.Session
import Narrowing.Interval.Backward
import Narrowing.WordRange
import Narrowing.Sign
import Narrowing.Zero
import Narrowing.Lattice
import Narrowing.Graph.History
import Narrowing.Graph.Integer
import Narrowing.Graph.Table
import Narrowing.Explore
import Narrowing.Settings.Load
import Narrowing.Proofs.Dialogue
import Narrowing.Proofs.WordRange
import Narrowing.Proofs.WordRange.Backward
import Narrowing.Proofs.Meaning
import Narrowing.Proofs.Interval.Forward
import Narrowing.Proofs.Interval.Relations
import Narrowing.Proofs.Interval.Inclusion
import Narrowing.Proofs.Interval.Sums
import Narrowing.Proofs.Interval.Products
import Narrowing.Proofs.Interval.Saturation
import Narrowing.Proofs.Interval.Hull
import Narrowing.Proofs.Interval.Questions
import Narrowing.Proofs.Interval.Quotients
import Narrowing.Proofs.Constant
import Narrowing.Proofs.JoinTable
import Narrowing.Proofs.Lattice
import Narrowing.Proofs.Comparison
import Narrowing.Proofs.Coverage
import Narrowing.Proofs.Bindings
import Narrowing.Proofs.Table
import Narrowing.Proofs.LabelTree.Form
import Narrowing.Proofs.ChoiceTree.Equality
import Narrowing.Proofs.Report
import Narrowing.Proofs.Graph.Nodes
import Narrowing.Proofs.Graph.Descent
import Narrowing.Proofs.Order.Leaf
import Narrowing.Proofs.Order.Value
import Narrowing.Proofs.Sign.Backward
import Narrowing.Proofs.Zero.Words
import Narrowing.Proofs.Graph.WellFormed
import Narrowing.Proofs.Graph.Order
import Narrowing.Proofs.Refusal
import Narrowing.Proofs.Graph.Domains
import Narrowing.Proofs.Graph.Ranges
import Narrowing.Proofs.Picking
import Narrowing.Proofs.Truth
import Narrowing.Proofs.Graph.Picked
import Narrowing.Proofs.Graph.Wrapping
import Narrowing.Proofs.Comparison.Verdict
import Narrowing.Proofs.WordRange.Monotone
import Narrowing.Proofs.Constant.Slices
import Narrowing.Proofs.ChoiceTree.Text
