import GridSolve.Lib.Wrap
import GridSolve.Lib.Specialize
import GridSolve.Lib.Cone
import GridSolve.Lib.Expansion
import GridSolve.Lib.Chain
import GridSolve.Lib.Rewriting
import GridSolve.Lib.Bisection
import GridSolve.Lib.Trie
import GridSolve.Lib.Rounding
import GridSolve.Lib.Text
import GridSolve.Lib.Significant
import GridSolve.Lib.Sexp
import GridSolve.Lib.Decision
import GridSolve.Lib.BinaryPower
import GridSolve.Lib.Trace
import GridSolve.Lib.Beginnings
import GridSolve.Lib.Mutex
import GridSolve.Poly.Multinomial
import GridSolve.Poly.Denote
import GridSolve.Poly.Arith
import GridSolve.Poly.Product
import GridSolve.Poly.Reduce
import GridSolve.Poly.Substitute
import GridSolve.Poly.Coeffs
import GridSolve.Poly.Power
import GridSolve.Poly.Monomials
import GridSolve.Poly.Degree
import GridSolve.Core.Handelman
import GridSolve.Core.GenPol
import GridSolve.Core.Encoding
import GridSolve.Core.Recursion
import GridSolve.Core.Variables
import GridSolve.Core.Lifetimes
import GridSolve.Core.Gurobi
import GridSolve.Grid.Box
import GridSolve.Grid.Ll
import GridSolve.Grid.Colors
import GridSolve.Grid.Refine
import GridSolve.Grid.Threads
import GridSolve.Grid.Sequential
import GridSolve.Grid.Visits
import GridSolve.Grid.Iters
import GridSolve.Grid.SingleShape
import GridSolve.Grid.Locking
import GridSolve.Grid.Operation
import GridSolve.Grid.Trie
import GridSolve.Grid.Filter
import GridSolve.Grid.Leaves
import GridSolve.Grid.Lookup
import GridSolve.Grid.PathEnds
import GridSolve.Grid.Optimize
import GridSolve.Core.Certificate
import GridSolve.Core.Relevance
import GridSolve.Core.Smt
import GridSolve.Core.Translation
import GridSolve.Core.Backends
import GridSolve.Core.Incremental
import GridSolve.Grid.Confidence
import GridSolve.Core.Solvers
import GridSolve.Grid.Pipeline
import GridSolve.Grid.SinglePoint
import GridSolve.Grid.Solutions
import GridSolve.Grid.Dictionaries
import GridSolve.Grid.Checkpoint
import GridSolve.Grid.SmtPrint
import GridSolve.Grid.Synthesis
import GridSolve.Grid.PrintCode
import GridSolve.Grid.PrintMeans
import GridSolve.Lib.Subdivision
import GridSolve.Core.Verdict
import GridSolve.Grid.Exactness
import GridSolve.Grid.WaitQueue
import GridSolve.Grid.IterLimit
import GridSolve.Core.PlainSolve
import GridSolve.Core.ModSolver
import GridSolve.Grid.PlainIters
import GridSolve.Lib.Json
import GridSolve.Grid.PrintTrie
import GridSolve.Grid.DrawGraph
import GridSolve.Lib.Heap
import GridSolve.Lib.Keyed
import GridSolve.Poly.Memory
import GridSolve.Poly.MemoryProduct
import GridSolve.Core.Scripts
