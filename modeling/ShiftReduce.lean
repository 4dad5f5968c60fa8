import ShiftReduce.Main
import ShiftReduce.Proofs.Automaton.Determinisation
import ShiftReduce.Proofs.Automaton.Coincidence
import ShiftReduce.Proofs.Grammar.FirstSets
import ShiftReduce.Proofs.Grammar.FollowSets
import ShiftReduce.Proofs.Simulation.Ambiguity
import ShiftReduce.Proofs.Simulation.Termination
import ShiftReduce.Proofs.Simulation.Safety
import ShiftReduce.Proofs.Simulation.Rightmost
import ShiftReduce.Proofs.Simulation.Rejection
import ShiftReduce.Proofs.Simulation.Agreement
import ShiftReduce.Proofs.Compilation
import ShiftReduce.Proofs.Simulation.Faults
import ShiftReduce.Proofs.CommandLine.Report
import ShiftReduce.Proofs.CommandLine.Status
import ShiftReduce.Proofs.Grammar.Layout
import ShiftReduce.Proofs.Grammar.Printing
import ShiftReduce.Proofs.Grammar.Reordering
import ShiftReduce.Proofs.Grammar.Indexes
import ShiftReduce.Proofs.Loop.Compilation
import ShiftReduce.Proofs.Automaton.Renumbering
import ShiftReduce.Proofs.Table.Renumbering
import ShiftReduce.Proofs.Table.Exactness
import ShiftReduce.Proofs.Simulation.Renumbering
import ShiftReduce.Proofs.Grammar.Pruning
import ShiftReduce.Proofs.Simulation.Pruning
import ShiftReduce.Proofs.Automaton.Openings
import ShiftReduce.Proofs.Text.Runs
import ShiftReduce.Proofs.Grammar.Segmentation
import ShiftReduce.Proofs.Grammar.NormalForm
import ShiftReduce.Proofs.Grammar.Malformed
import ShiftReduce.Proofs.Grammar.UselessSymbols
import ShiftReduce.Proofs.Grammar.Interruptions
import ShiftReduce.Proofs.Automaton.Displays
import ShiftReduce.Proofs.Automaton.Arrivals
import ShiftReduce.Proofs.Text.Columns
import ShiftReduce.Proofs.Grammar.Rounds
import ShiftReduce.Proofs.Table.Grid
import ShiftReduce.Proofs.Table.Forgetting
