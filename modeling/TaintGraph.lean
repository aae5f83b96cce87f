import TaintGraph.Codec
import TaintGraph.Limits.Toml
import TaintGraph.Scan.Request
import TaintGraph.Proofs.Memo.Index
import TaintGraph.Proofs.Scan.Edit
import TaintGraph.Proofs.Table.View
import TaintGraph.Proofs.Table.WellFormed
import TaintGraph.Proofs.Scan.Growth
import TaintGraph.Proofs.Scan.Log
import TaintGraph.Proofs.Scan.Passes
import TaintGraph.Proofs.Scan.Staleness
import TaintGraph.Proofs.Table.Shape
import TaintGraph.Proofs.Table.SinkChains
import TaintGraph.Proofs.Scan.Agreement
import TaintGraph.Proofs.Scan.Limits
import TaintGraph.Proofs.Ranking
import TaintGraph.Proofs.Scan.Arrival
import TaintGraph.Proofs.Scan.Roles
import TaintGraph.Proofs.Scan.Readers
import TaintGraph.Proofs.Scan.ZeroHops
import TaintGraph.Proofs.Memo.Recency
import TaintGraph.Proofs.Scan.Accounts
import TaintGraph.Proofs.Scan.Topology
import TaintGraph.Proofs.Scan.Neighbours
import TaintGraph.Proofs.Scan.Monotone
import TaintGraph.Proofs.Table.Reordered
import TaintGraph.Proofs.Scan.CallOrder
import TaintGraph.Proofs.Memo.Inclusion
import TaintGraph.Proofs.Scan.ShortestChain
import TaintGraph.Proofs.Scan.SinkTrails
import TaintGraph.Proofs.Json.Scanner
import TaintGraph.Proofs.Json.RoundTrip
import TaintGraph.Proofs.Search.FirstWalk
import TaintGraph.Proofs.Scan.FirstChain
import TaintGraph.Proofs.Scan.SinkAnswers
import TaintGraph.Proofs.Scan.Ranking
import TaintGraph.Proofs.Score
import TaintGraph.Proofs.Json.Grammar
import TaintGraph.Proofs.Naming
import TaintGraph.Proofs.Json.ByName
import TaintGraph.Proofs.Toml.Integer
import TaintGraph.Proofs.Toml.Lines
import TaintGraph.Proofs.Toml.Limits
import TaintGraph.Proofs.Search.Queue
import TaintGraph.Proofs.Table.ParentTree
import TaintGraph.Proofs.Walk.Stacks
import TaintGraph.Proofs.Walk.Iterations
import TaintGraph.Proofs.Scan.Depths
