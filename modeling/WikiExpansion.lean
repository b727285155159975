import WikiExpansion.Config.Settings
import WikiExpansion.Expectation
import WikiExpansion.Handler.Expander
import WikiExpansion.Handler.Stock
import WikiExpansion.Handler.Templates
import WikiExpansion.Json.Reader
import WikiExpansion.Token.Json
import WikiExpansion.Proofs.Join
import WikiExpansion.Proofs.Move
import WikiExpansion.Proofs.Records
import WikiExpansion.Proofs.Debt
import WikiExpansion.Proofs.Ledger
import WikiExpansion.Proofs.Lineage
import WikiExpansion.Proofs.Account
import WikiExpansion.Proofs.Descent
import WikiExpansion.Proofs.Root
import WikiExpansion.Proofs.Verdict
import WikiExpansion.Proofs.Edits
import WikiExpansion.Proofs.Reconcile
import WikiExpansion.Proofs.Grouping
import WikiExpansion.Proofs.Mask
import WikiExpansion.Proofs.Ids
import WikiExpansion.Proofs.Order
import WikiExpansion.Proofs.Stages
import WikiExpansion.Proofs.Due
import WikiExpansion.Proofs.Flow
import WikiExpansion.Proofs.Rest
import WikiExpansion.Proofs.Immediate
import WikiExpansion.Proofs.Schedule
import WikiExpansion.Proofs.Unwrapped
import WikiExpansion.Proofs.Options
import WikiExpansion.Proofs.Runs
import WikiExpansion.Proofs.Provenance
import WikiExpansion.Proofs.Walk
import WikiExpansion.Proofs.Launch
import WikiExpansion.Proofs.Pairs
import WikiExpansion.Proofs.Expansion
import WikiExpansion.Proofs.Dispatch
import WikiExpansion.Proofs.Written
import WikiExpansion.Proofs.Encoding
import WikiExpansion.Proofs.Frame
import WikiExpansion.Proofs.Nesting
import WikiExpansion.Proofs.Settled
import WikiExpansion.Proofs.Work
import WikiExpansion.Proofs.Produces
import WikiExpansion.Proofs.Depth
import WikiExpansion.Proofs.Drain
import WikiExpansion.Proofs.Working
import WikiExpansion.Proofs.Completion
import WikiExpansion.Proofs.Idempotent
import WikiExpansion.Proofs.Sequence
import WikiExpansion.Proofs.Issues
import WikiExpansion.Proofs.Labels
import WikiExpansion.Proofs.Changes
import WikiExpansion.Proofs.Fragment
import WikiExpansion.Proofs.Sign
import WikiExpansion.Proofs.Pattern
import WikiExpansion.Proofs.Delivery
import WikiExpansion.Proofs.Table
import WikiExpansion.Proofs.Failure
import WikiExpansion.Proofs.Filled
import WikiExpansion.Proofs.Stripping
import WikiExpansion.Proofs.Undecided
import WikiExpansion.Proofs.Typeof
import WikiExpansion.Proofs.EmptyKeys
import WikiExpansion.Proofs.Cells
import WikiExpansion.Proofs.Copies
import WikiExpansion.Proofs.Registrations
