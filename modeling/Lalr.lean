import Lalr.Automaton.Build
import Lalr.Automaton.Census
import Lalr.Grammar.Examples
import Lalr.Proofs.Grammar.Derivation
import Lalr.Proofs.Grammar.First
import Lalr.Proofs.Grammar.Defined
import Lalr.Proofs.Grammar.Assembly
import Lalr.Proofs.Validity
import Lalr.Proofs.Failure
import Lalr.Proofs.Arena
import Lalr.Proofs.ItemSet
import Lalr.Proofs.Closure
import Lalr.Proofs.Automaton.Goto
import Lalr.Proofs.Propagation
import Lalr.Proofs.Automaton.Collection
import Lalr.Proofs.Automaton.Flow
import Lalr.Proofs.Automaton.Build
import Lalr.Proofs.Automaton.Canonical
import Lalr.Proofs.Automaton.Links
import Lalr.Proofs.Automaton.Lookaheads
import Lalr.Proofs.Automaton.Reductions
import Lalr.Proofs.Faultless
import Lalr.Proofs.Automaton.Count
import Lalr.Proofs.Automaton.Faultless
import Lalr.Proofs.Automaton.Limit
import Lalr.Proofs.Automaton.Ownership
import Lalr.Proofs.Follow
import Lalr.Proofs.Automaton.FollowSets
import Lalr.Proofs.Grammar.Failures
import Lalr.Proofs.Grammar.Declared
import Lalr.Proofs.Grammar.Outcome
import Lalr.Proofs.Renaming
import Lalr.Proofs.Automaton.Renaming
import Lalr.Proofs.Agreement
import Lalr.Proofs.Automaton.Agreement
import Lalr.Proofs.Grammar.Tables
import Lalr.Proofs.Reclosure
import Lalr.Proofs.Delimited
import Lalr.Proofs.Grammar.Names
import Lalr.Proofs.Listing
import Lalr.Proofs.Automaton.Text
import Lalr.Proofs.Completion
import Lalr.Proofs.Join
import Lalr.Proofs.Frame
import Lalr.Proofs.Hashing
import Lalr.Proofs.SetJoin
import Lalr.Proofs.Evolution
import Lalr.Proofs.Workbench
import Lalr.Proofs.Automaton.Acceptance
import Lalr.Proofs.Automaton.Barren
import Lalr.Proofs.ProductionText
import Lalr.Proofs.Schedule
import Lalr.Proofs.Automaton.Stage
import Lalr.Proofs.Automaton.Kernels
import Lalr.Proofs.Automaton.Markers
import Lalr.Proofs.Queue
import Lalr.Proofs.FiniteSet
import Lalr.Proofs.Allocation
