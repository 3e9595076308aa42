import CallOrder.Arity
import CallOrder.Attempt
import CallOrder.CallPlan
import CallOrder.Completion
import CallOrder.Completion.Script
import CallOrder.Config
import CallOrder.Constraint
import CallOrder.DetachMode
import CallOrder.Dispatch
import CallOrder.Document
import CallOrder.Event
import CallOrder.Failure
import CallOrder.Handler
import CallOrder.Ledger
import CallOrder.Node
import CallOrder.Probe
import CallOrder.Proofs.Extension
import CallOrder.Proofs.Judgement
import CallOrder.Proofs.Key
import CallOrder.Range
import CallOrder.Registry
import CallOrder.Registry.Script
import CallOrder.Reporter
import CallOrder.Reporter.Script
import CallOrder.Returned
import CallOrder.Session
import CallOrder.Setup
import CallOrder.SetupError
import CallOrder.Signature
import CallOrder.Sketch
import CallOrder.Switchboard
import CallOrder.Text.Combining
import CallOrder.Text.Invisible
import CallOrder.Text.Layout
import CallOrder.Text.Quoted
import CallOrder.Total
import CallOrder.Trial
import CallOrder.Value
import CallOrder.Proofs.Run
import CallOrder.Proofs.History
import CallOrder.Proofs.Arrangement
import CallOrder.Proofs.Pattern
import CallOrder.Proofs.Walk
import CallOrder.Proofs.Weave
import CallOrder.Proofs.Building
import CallOrder.Proofs.Language
import CallOrder.Proofs.Admission
import CallOrder.Proofs.Sequence
import CallOrder.Proofs.Log
import CallOrder.Proofs.Frontier
import CallOrder.Proofs.Evaluation
import CallOrder.Proofs.Forward
import CallOrder.Proofs.Preparation
import CallOrder.Proofs.Exercise
import CallOrder.Proofs.Binding
import CallOrder.Proofs.Isolation
import CallOrder.Proofs.Schedule
import CallOrder.Proofs.Locality
import CallOrder.Proofs.Deferral
import CallOrder.Proofs.Eagerness
import CallOrder.Proofs.Profile
import CallOrder.Proofs.Gathering
import CallOrder.Proofs.Place
import CallOrder.Proofs.Workshop
import CallOrder.Proofs.Errand
import CallOrder.Proofs.Rearrangement
import CallOrder.Proofs.Flattening
import CallOrder.Proofs.Replacement
import CallOrder.Proofs.Span
import CallOrder.Proofs.Selection
import CallOrder.Proofs.Nesting
import CallOrder.Proofs.Reply
import CallOrder.Proofs.Course
import CallOrder.Proofs.Descent
import CallOrder.Proofs.Queue
import CallOrder.Proofs.Relocation
import CallOrder.Proofs.Recipe
import CallOrder.Proofs.Word
import CallOrder.Proofs.Census
import CallOrder.Proofs.Company
import CallOrder.Proofs.Verifying
import CallOrder.Proofs.Solo
import CallOrder.Proofs.Fitting
import CallOrder.Proofs.Audit
import CallOrder.Proofs.Journal
import CallOrder.Proofs.Bookkeeping
