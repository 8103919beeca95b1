import LinReal.Main
import LinReal.Proofs.Script.Running
import LinReal.Proofs.Tableau.Histories
import LinReal.Proofs.Tableau.Columns
import LinReal.Proofs.Tableau.Canonical
import LinReal.Proofs.Script.InForce
import LinReal.Proofs.Script.Verifying
import LinReal.Proofs.Solver.Irreducible
import LinReal.Proofs.Solver.Backtracking
import LinReal.Proofs.Solver.Reports
import LinReal.Proofs.Solver.Resumption
import LinReal.Proofs.Solver.Faults
import LinReal.Proofs.Solver.EarlyScan
import LinReal.Proofs.Solver.Recomputation
import LinReal.Proofs.Solver.Intervals
import LinReal.Proofs.Script.Deltas
import LinReal.Proofs.Store.Edits
import LinReal.Proofs.Solver.Tokens
import LinReal.Proofs.Script.Definitions
import LinReal.Proofs.Script.Numbers
import LinReal.Proofs.Script.Descriptions
import LinReal.Proofs.Solver.Watching
import LinReal.Proofs.Solver.Improvements
import LinReal.Proofs.Solver.Selection
import LinReal.Proofs.Queue.Heaps
