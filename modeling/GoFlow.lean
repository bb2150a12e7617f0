import GoFlow.Flow.Step
import GoFlow.Workload.Measure
import GoFlow.Main
import GoFlow.Proofs.Traces
import GoFlow.Proofs.Completion
import GoFlow.Proofs.Accounts
import GoFlow.Proofs.Lines
import GoFlow.Proofs.Crossing
import GoFlow.Proofs.Lockstep
import GoFlow.Proofs.Editions
import GoFlow.Proofs.Neighbours
import GoFlow.Proofs.Legible
import GoFlow.Proofs.Nesting
import GoFlow.Proofs.Terminators
import GoFlow.Proofs.Gathering
import GoFlow.Proofs.LiteralTokens
import GoFlow.Proofs.Conversion
import GoFlow.Proofs.Labels
import GoFlow.Proofs.Respelling
