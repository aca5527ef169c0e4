import TwoLevel.CommandLine
import TwoLevel.Expression.Parser
import TwoLevel.Guarded
import TwoLevel.Main
import TwoLevel.Minimizer
import TwoLevel.Trace.Chart
import TwoLevel.Proofs.Optimality
import TwoLevel.Proofs.PrimeCovers
import TwoLevel.Proofs.Failures
import TwoLevel.Proofs.Transparency
import TwoLevel.Proofs.Descriptions
import TwoLevel.Proofs.Registers
import TwoLevel.Proofs.Grammar
import TwoLevel.Proofs.Consistency
import TwoLevel.Proofs.InputOrder
import TwoLevel.Proofs.Counting
import TwoLevel.Proofs.Partition
import TwoLevel.Proofs.GreedyBound
import TwoLevel.Proofs.Pricing
import TwoLevel.Proofs.Unions
import TwoLevel.Proofs.ChartReading
import TwoLevel.Proofs.SelfCheck
import TwoLevel.Proofs.Spellings
import TwoLevel.Proofs.Distinctness
import TwoLevel.Proofs.AllPairs
import TwoLevel.Proofs.Patterns
import TwoLevel.Proofs.Sifting
