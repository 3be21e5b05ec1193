import SpeedTrial.Decimal.Layout
import SpeedTrial.Decimal.Reader
import SpeedTrial.Decimal.Shortest
import SpeedTrial.Estimator.Basic
import SpeedTrial.Estimator.Code
import SpeedTrial.Estimator.Table
import SpeedTrial.Failure
import SpeedTrial.Host.Basic
import SpeedTrial.Host.FileTree
import SpeedTrial.Host.Path
import SpeedTrial.Job.Arguments
import SpeedTrial.Job.Config
import SpeedTrial.Job.Document
import SpeedTrial.Job.Legacy
import SpeedTrial.Job.Load
import SpeedTrial.Job.Properties
import SpeedTrial.Job.Validation
import SpeedTrial.Json
import SpeedTrial.Main
import SpeedTrial.Numeric.Binary64
import SpeedTrial.Numeric.Checked
import SpeedTrial.Numeric.Exponential
import SpeedTrial.Numeric.FixedPoint
import SpeedTrial.Numeric.Logarithm
import SpeedTrial.Numeric.Power
import SpeedTrial.Numeric.Rounding
import SpeedTrial.Plan.Basic
import SpeedTrial.Plan.Series
import SpeedTrial.Profile.Concurrent
import SpeedTrial.Profile.Kind
import SpeedTrial.Profile.Session
import SpeedTrial.Profile.Settings
import SpeedTrial.Profile.Sweep
import SpeedTrial.Profile.Update
import SpeedTrial.Program
import SpeedTrial.Proofs.Estimator.Registers
import SpeedTrial.Proofs.Job.Legacy
import SpeedTrial.Proofs.Job.Listing
import SpeedTrial.Proofs.Job.Properties
import SpeedTrial.Proofs.Numeric.Arithmetic
import SpeedTrial.Proofs.Numeric.Exponential
import SpeedTrial.Proofs.Numeric.Logarithm
import SpeedTrial.Proofs.Plan.Axis
import SpeedTrial.Proofs.Plan.Skips
import SpeedTrial.Proofs.Plan.Sums
import SpeedTrial.Proofs.Plan.Totals
import SpeedTrial.Proofs.Plan.Trials
import SpeedTrial.Proofs.Profile.Course
import SpeedTrial.Proofs.Profile.Crew
import SpeedTrial.Proofs.Profile.History
import SpeedTrial.Proofs.Profile.LateUnits
import SpeedTrial.Proofs.Profile.Sequential
import SpeedTrial.Proofs.Profile.Sweep
import SpeedTrial.Proofs.Sketch.Reading
import SpeedTrial.Proofs.Sketch.Replay
import SpeedTrial.Proofs.Sketch.Shares
import SpeedTrial.Proofs.Sketch.Studio
import SpeedTrial.Proofs.Stats.Merging
import SpeedTrial.Proofs.Stats.Quantiles
import SpeedTrial.Proofs.Stream.Strided
import SpeedTrial.Proofs.Stream.Words
import SpeedTrial.Proofs.Time.Spans
import SpeedTrial.Proofs.Trial.Account
import SpeedTrial.Proofs.Trial.Arming
import SpeedTrial.Proofs.Trial.Balance
import SpeedTrial.Proofs.Trial.Calls
import SpeedTrial.Proofs.Trial.Casualty
import SpeedTrial.Proofs.Trial.Coherence
import SpeedTrial.Proofs.Trial.Completion
import SpeedTrial.Proofs.Trial.Counting
import SpeedTrial.Proofs.Trial.Delivery
import SpeedTrial.Proofs.Trial.Failing
import SpeedTrial.Proofs.Trial.Freezing
import SpeedTrial.Proofs.Trial.Halting
import SpeedTrial.Proofs.Trial.History
import SpeedTrial.Proofs.Trial.InTurn
import SpeedTrial.Proofs.Trial.Isolation
import SpeedTrial.Proofs.Trial.Ledger
import SpeedTrial.Proofs.Trial.Lifecycle
import SpeedTrial.Proofs.Trial.Move
import SpeedTrial.Proofs.Trial.Outline
import SpeedTrial.Proofs.Trial.Projection
import SpeedTrial.Proofs.Trial.Remembering
import SpeedTrial.Proofs.Trial.Reports
import SpeedTrial.Proofs.Trial.Requests
import SpeedTrial.Proofs.Trial.Reset
import SpeedTrial.Proofs.Trial.Roster
import SpeedTrial.Proofs.Trial.Runs
import SpeedTrial.Proofs.Trial.Totals
import SpeedTrial.Proofs.Trial.View
import SpeedTrial.Proofs.Trial.Waiting
import SpeedTrial.Report.Draft
import SpeedTrial.Report.Record
import SpeedTrial.Report.Table
import SpeedTrial.Sketch.Shared
import SpeedTrial.Sketch.WorkUnit
import SpeedTrial.Stats.Histogram
import SpeedTrial.Stats.Point
import SpeedTrial.Stream.Basic
import SpeedTrial.Stream.Strided
import SpeedTrial.Stream.Uniform
import SpeedTrial.Text.Blank
import SpeedTrial.Text.Name
import SpeedTrial.Text.Raw
import SpeedTrial.Time.Calendar
import SpeedTrial.Time.Span
import SpeedTrial.Toml.Document
import SpeedTrial.Toml.Node
import SpeedTrial.Toml.Quoted
import SpeedTrial.Toml.Scalar
import SpeedTrial.Trial.Control
import SpeedTrial.Trial.Error
import SpeedTrial.Trial.Loop
import SpeedTrial.Trial.Machine
import SpeedTrial.Trial.Rehearsal
import SpeedTrial.Trial.Schedule
import SpeedTrial.Trial.Tally
