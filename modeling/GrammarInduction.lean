import GrammarInduction.Breeding.Operator
import GrammarInduction.Breeding.Plan
import GrammarInduction.Breeding.Selector
import GrammarInduction.Chart.Pool
import GrammarInduction.Chart.Recognition
import GrammarInduction.Chart.Table
import GrammarInduction.Chart.Traceback
import GrammarInduction.Coverage.Operator
import GrammarInduction.Fault
import GrammarInduction.Grammar.Index
import GrammarInduction.Grammar.Limits
import GrammarInduction.Grammar.Population
import GrammarInduction.Grammar.Rule
import GrammarInduction.Grammar.RuleSet
import GrammarInduction.Grammar.Symbol
import GrammarInduction.Grammar.Usefulness
import GrammarInduction.Grammar.Vocabulary
import GrammarInduction.Grammar.Weighting
import GrammarInduction.Insertion.Crowding
import GrammarInduction.Insertion.Strategy
import GrammarInduction.Learning.Breeding
import GrammarInduction.Learning.CoveringParse
import GrammarInduction.Learning.Learner
import GrammarInduction.Learning.Run
import GrammarInduction.Learning.Settings
import GrammarInduction.Learning.Stop
import GrammarInduction.Learning.Submission
import GrammarInduction.Learning.Variant
import GrammarInduction.Proofs.Attempt
import GrammarInduction.Proofs.Breeding.Offspring
import GrammarInduction.Proofs.Breeding.Totality
import GrammarInduction.Proofs.Breeding.Weighing
import GrammarInduction.Proofs.Chart.Addressing
import GrammarInduction.Proofs.Chart.BestTree
import GrammarInduction.Proofs.Chart.Cell
import GrammarInduction.Proofs.Chart.Exactness
import GrammarInduction.Proofs.Chart.Filling
import GrammarInduction.Proofs.Chart.Likelihood
import GrammarInduction.Proofs.Chart.Linkage
import GrammarInduction.Proofs.Chart.Nodes
import GrammarInduction.Proofs.Chart.Rating
import GrammarInduction.Proofs.Chart.Search
import GrammarInduction.Proofs.Chart.Trace
import GrammarInduction.Proofs.Chart.Views
import GrammarInduction.Proofs.Coverage.Invention
import GrammarInduction.Proofs.Grammar.Closure
import GrammarInduction.Proofs.Grammar.Confinement
import GrammarInduction.Proofs.Grammar.Derivation
import GrammarInduction.Proofs.Grammar.Normalisation
import GrammarInduction.Proofs.Grammar.Occurrence
import GrammarInduction.Proofs.Grammar.Ownership
import GrammarInduction.Proofs.Grammar.ParseTree
import GrammarInduction.Proofs.Grammar.Pruning
import GrammarInduction.Proofs.Grammar.Reinsertion
import GrammarInduction.Proofs.Grammar.RuleMap
import GrammarInduction.Proofs.Grammar.Usefulness
import GrammarInduction.Proofs.Grammar.Vocabulary
import GrammarInduction.Proofs.Grammar.Weighting
import GrammarInduction.Proofs.Insertion.Crowding
import GrammarInduction.Proofs.Insertion.Selection
import GrammarInduction.Proofs.Learning.Accounting
import GrammarInduction.Proofs.Learning.Anchoring
import GrammarInduction.Proofs.Learning.Bound
import GrammarInduction.Proofs.Learning.Breeding
import GrammarInduction.Proofs.Learning.Change
import GrammarInduction.Proofs.Learning.Completeness
import GrammarInduction.Proofs.Learning.Confinement
import GrammarInduction.Proofs.Learning.Correction
import GrammarInduction.Proofs.Learning.Course
import GrammarInduction.Proofs.Learning.Covering
import GrammarInduction.Proofs.Learning.Ending
import GrammarInduction.Proofs.Learning.Estimation
import GrammarInduction.Proofs.Learning.Evaluation
import GrammarInduction.Proofs.Learning.Eviction
import GrammarInduction.Proofs.Learning.Extension
import GrammarInduction.Proofs.Learning.Failure
import GrammarInduction.Proofs.Learning.Growth
import GrammarInduction.Proofs.Learning.Keeping
import GrammarInduction.Proofs.Learning.Linking
import GrammarInduction.Proofs.Learning.Lockstep
import GrammarInduction.Proofs.Learning.Outcome
import GrammarInduction.Proofs.Learning.Quiet
import GrammarInduction.Proofs.Learning.Run
import GrammarInduction.Proofs.Learning.Stopping
import GrammarInduction.Proofs.Learning.Submission
import GrammarInduction.Proofs.Learning.Terminals
import GrammarInduction.Proofs.Learning.Threshold
import GrammarInduction.Proofs.Learning.Verdicts
import GrammarInduction.Proofs.Random.Arrangement
import GrammarInduction.Proofs.Random.Chance
import GrammarInduction.Proofs.Ranking
import GrammarInduction.Proofs.Scalar.Double
import GrammarInduction.Proofs.Scalar.Magnitude
import GrammarInduction.Proofs.Scalar.Order
import GrammarInduction.Proofs.Scalar.Places
import GrammarInduction.Proofs.Scalar.Rounding
import GrammarInduction.Proofs.Scalar.Sum
import GrammarInduction.Proofs.Scalar.Value
import GrammarInduction.Proofs.Sorting.Runs
import GrammarInduction.Proofs.Sorting.Short
import GrammarInduction.Proofs.Statistics.Blending
import GrammarInduction.Proofs.Statistics.Counters
import GrammarInduction.Proofs.Statistics.Extremes
import GrammarInduction.Proofs.Statistics.Parents
import GrammarInduction.Proofs.Statistics.Series
import GrammarInduction.Random.Arrangement
import GrammarInduction.Random.Draw
import GrammarInduction.Random.Keystream
import GrammarInduction.Ranking
import GrammarInduction.Scalar
import GrammarInduction.Sorting.Runs
import GrammarInduction.Sorting.Short
import GrammarInduction.Statistics.Fitness
import GrammarInduction.Statistics.Series
import GrammarInduction.Statistics.Tally
import GrammarInduction.Statistics.Usage
import GrammarInduction.Text.Blank
import GrammarInduction.Word
