import FuzzReach.Loading
import FuzzReach.Proofs.Depth.Equation
import FuzzReach.Proofs.Table
import FuzzReach.Proofs.Trail
import FuzzReach.Session
import FuzzReach.Settings
import FuzzReach.Proofs.Depth.Settle
import FuzzReach.Proofs.Depth.Calls
import FuzzReach.Proofs.Reachable
import FuzzReach.Proofs.Session.Agree
import FuzzReach.Proofs.Session.History
import FuzzReach.Proofs.Call.Events
import FuzzReach.Proofs.Call.Initialiser
import FuzzReach.Proofs.Extract
import FuzzReach.Proofs.Registry.Retained
import FuzzReach.Proofs.CallTree
import FuzzReach.Proofs.Alias.Compact
import FuzzReach.Proofs.Alias.Cuts
import FuzzReach.Proofs.Alias.Expansion
import FuzzReach.Proofs.Alias.Factoring
import FuzzReach.Proofs.Alias.Lookup
import FuzzReach.Proofs.Registry.Designated
import FuzzReach.Proofs.Report
import FuzzReach.Proofs.Syntax.Count
import FuzzReach.Proofs.Syntax.Shift
import FuzzReach.Proofs.Call.Shift
import FuzzReach.Proofs.Extract.Items
import FuzzReach.Proofs.Extract.Shift
import FuzzReach.Proofs.Extract.Enclosure
import FuzzReach.Proofs.Extract.Forest
import FuzzReach.Proofs.Extract.Laminar
import FuzzReach.Proofs.Depth.PathRule
import FuzzReach.Proofs.Depth.Pair
import FuzzReach.Proofs.Extract.Attribution
import FuzzReach.Proofs.Extract.Containers
import FuzzReach.Proofs.Extract.Distinct
import FuzzReach.Proofs.Depth.Rank
import FuzzReach.Proofs.Lookup
import FuzzReach.Proofs.Depth.Reached
import FuzzReach.Proofs.Call.Replay
import FuzzReach.Proofs.Call.Interface
import FuzzReach.Proofs.Call.Chain
import FuzzReach.Proofs.Extract.Siblings
import FuzzReach.Proofs.Extract.Lines
import FuzzReach.Proofs.Reachable.Order
import FuzzReach.Proofs.CallTree.Shape
import FuzzReach.Proofs.CallTree.Root
import FuzzReach.Proofs.Alias.Items
import FuzzReach.Proofs.Text.Encoding
import FuzzReach.Proofs.Text.Lenient
import FuzzReach.Proofs.Files.Path
import FuzzReach.Proofs.Files.Exclude
import FuzzReach.Proofs.Files.Search
import FuzzReach.Proofs.Files.Tree
import FuzzReach.Proofs.Files.Implicit
import FuzzReach.Proofs.Call.Worklist
import FuzzReach.Proofs.Syntax.Walk
import FuzzReach.Proofs.Extract.Metrics
