import Flowgraph.Editor.Document
import Flowgraph.Main
import Flowgraph.Memo.Task
import Flowgraph.Tree.Writable
import Flowgraph.Proofs.Constant.Arithmetic
import Flowgraph.Proofs.Constant.Construction
import Flowgraph.Proofs.Editor.Highlight
import Flowgraph.Proofs.Grammar.Balance
import Flowgraph.Proofs.Grammar.Function
import Flowgraph.Proofs.Graph.Discovery
import Flowgraph.Proofs.Graph.Fragment
import Flowgraph.Proofs.Lowering.Stack.Call
import Flowgraph.Proofs.Lowering.Trace.Graph
import Flowgraph.Proofs.Memo.Once
import Flowgraph.Proofs.Scoping.Accepts
import Flowgraph.Proofs.Text.EditDistance
