import SatSearch.Command.DryRun
import SatSearch.Main
import SatSearch.Proofs.Cdcl.Canonical
import SatSearch.Proofs.Cdcl.Learning
import SatSearch.Proofs.Cdcl.Termination
import SatSearch.Proofs.Propagation.Session
import SatSearch.Proofs.Search.Faultless
import SatSearch.Proofs.Search.Head
import SatSearch.Proofs.Dpll.Accounting
import SatSearch.Proofs.Cdcl.Retrying
import SatSearch.Proofs.Search.Twins
import SatSearch.Proofs.Dpll.Lockstep
import SatSearch.Proofs.Cdcl.Filling
import SatSearch.Proofs.Search.Backtracking
import SatSearch.Proofs.Cdcl.Subsumption
import SatSearch.Proofs.Search.Adding
import SatSearch.Proofs.Search.ImplicationGraph
import SatSearch.Proofs.Search.Limits
import SatSearch.Proofs.Search.Rejection
import SatSearch.Proofs.Dpll.Canonical
import SatSearch.Proofs.Dimacs.Reading
import SatSearch.Proofs.Dimacs.Writing
import SatSearch.Proofs.Cdcl.Accounting
import SatSearch.Proofs.Search.Consequence
import SatSearch.Proofs.Search.ImplicationPoint
import SatSearch.Proofs.Trail.Undo
import SatSearch.Proofs.Cdcl.RootFacts
import SatSearch.Proofs.Store.Interleaving
import SatSearch.Proofs.Restart.Luby
import SatSearch.Proofs.Restart.Schedule
import SatSearch.Proofs.Search.Watching
import SatSearch.Proofs.Propagation.Persistence
import SatSearch.Proofs.Conflict.Reuse
import SatSearch.Proofs.Branching.Choice
