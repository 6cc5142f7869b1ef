import Horizon.Scalar
import Horizon.Number.Exact
import Horizon.Number.Decimal
import Horizon.Number.Text
import Horizon.Number.Reading
import Horizon.Random.Mix
import Horizon.Random.SipHash
import Horizon.Random.KeyStream
import Horizon.Sampling
import Horizon.Json.Value
import Horizon.Json.Reader
import Horizon.Json.Decode
import Horizon.Distribution.Normal
import Horizon.Distribution.Json
import Horizon.Config.Json
import Horizon.Problem
import Horizon.StateSpace
import Horizon.Ledger
import Horizon.Forward
import Horizon.Explicit
import Horizon.Inventory.Policy
import Horizon.Inventory.Json
import Horizon.Main
import Horizon.Proofs.Ranking
import Horizon.Proofs.Bellman
import Horizon.Proofs.Computation
import Horizon.Proofs.ForwardRun
import Horizon.Proofs.Enumeration
import Horizon.Proofs.BackwardRun
import Horizon.Proofs.Agreement
import Horizon.Proofs.Optimality
import Horizon.Proofs.Passes
import Horizon.Proofs.History
import Horizon.Proofs.Completion
import Horizon.Proofs.Failures
import Horizon.Proofs.WriteOnce
import Horizon.Proofs.Sequence
import Horizon.Proofs.Retry
import Horizon.Proofs.Masses
import Horizon.Proofs.Binary64
import Horizon.Proofs.Coverage
import Horizon.Proofs.Selection
import Horizon.Proofs.PartialRun
import Horizon.Proofs.Demand
import Horizon.Proofs.KConvexity
import Horizon.Proofs.OrderUpTo
import Horizon.Proofs.Kernel
import Horizon.Proofs.Solvability
import Horizon.Proofs.Journal
import Horizon.Proofs.Stores
import Horizon.Proofs.Alike
import Horizon.Proofs.Frontier
import Horizon.Proofs.Storage
import Horizon.Proofs.Contracts
import Horizon.Proofs.Moves
import Horizon.Proofs.Exploration
import Horizon.Proofs.Statistics
import Horizon.Proofs.Accounting
import Horizon.Proofs.Approximation
import Horizon.Proofs.Shape
import Horizon.Proofs.Monotonicity
import Horizon.Proofs.Negation
import Horizon.Proofs.Duality
import Horizon.Proofs.Schedule
import Horizon.Proofs.Pushforward
import Horizon.Proofs.Renormalization
import Horizon.Proofs.Offers
import Horizon.Proofs.Thinning
import Horizon.Proofs.FullSamples
import Horizon.Proofs.Rounding
import Horizon.Proofs.Values
import Horizon.Proofs.Shrinking
import Horizon.Proofs.Quantiles
import Horizon.Proofs.Overflow
import Horizon.Proofs.Extraction
import Horizon.Proofs.Mentions
import Horizon.Proofs.Overlooked
import Horizon.Proofs.Seeds
import Horizon.Proofs.Documents
import Horizon.Proofs.Numerals
import Horizon.Proofs.Codec
