import CommandConsole.Activity.Basic
import CommandConsole.Activity.Bench
import CommandConsole.Activity.Host
import CommandConsole.Activity.Work
import CommandConsole.Application
import CommandConsole.Command.Builtin
import CommandConsole.Command.Bundle
import CommandConsole.Command.Dispatch
import CommandConsole.Command.Help
import CommandConsole.Command.Listing
import CommandConsole.Command.Recipe
import CommandConsole.Command.Registry
import CommandConsole.Command.Script
import CommandConsole.CommandLine.Basic
import CommandConsole.CommandLine.Comma
import CommandConsole.CommandLine.Continuation
import CommandConsole.CommandLine.Scan
import CommandConsole.Console
import CommandConsole.Environment
import CommandConsole.Failure
import CommandConsole.Main
import CommandConsole.Number.Binary64
import CommandConsole.Number.Calendar
import CommandConsole.Number.Digit
import CommandConsole.Number.ExitCode
import CommandConsole.Number.Seconds
import CommandConsole.Options
import CommandConsole.Paths
import CommandConsole.Program
import CommandConsole.Session.Completion
import CommandConsole.Session.Hosted
import CommandConsole.Session.Level
import CommandConsole.Session.Plan
import CommandConsole.Session.Run
import CommandConsole.Session.State
import CommandConsole.Session.World
import CommandConsole.Settings
import CommandConsole.Stream.Sink
import CommandConsole.Stream.Source
import CommandConsole.Terminal.Attached
import CommandConsole.Terminal.Event
import CommandConsole.Terminal.Plain
import CommandConsole.Terminal.Scripted
import CommandConsole.Text.Blank
import CommandConsole.Text.Line
import CommandConsole.Text.Newline
import CommandConsole.Text.Parser
import CommandConsole.Text.Utf16
import CommandConsole.Text.Utf8
import CommandConsole.Toml.Document
import CommandConsole.Toml.Place
import CommandConsole.Toml.Quoted
import CommandConsole.Toml.Scalar
import CommandConsole.Toml.Value
import CommandConsole.Proofs.CommandLine.Grammar
import CommandConsole.Proofs.CommandLine.Reading
import CommandConsole.Proofs.CommandLine.Composition
import CommandConsole.Proofs.CommandLine.Incremental
import CommandConsole.Proofs.Activity.Lifecycle
import CommandConsole.Proofs.Session.Trace
import CommandConsole.Proofs.Session.Rule
import CommandConsole.Proofs.Session.Due
import CommandConsole.Proofs.Session.ReadLoop
import CommandConsole.Proofs.Session.Chain
import CommandConsole.Proofs.Session.Routing
import CommandConsole.Proofs.Stream.Answers
import CommandConsole.Proofs.Terminal.Reads
import CommandConsole.Proofs.Session.Hearing
import CommandConsole.Proofs.Session.Interrupts
import CommandConsole.Proofs.Session.Ending
import CommandConsole.Proofs.Activity.Bench
import CommandConsole.Proofs.Command.Resolution
import CommandConsole.Proofs.Session.Calls
import CommandConsole.Proofs.Session.Hosting
import CommandConsole.Proofs.Command.Deeds
import CommandConsole.Proofs.Session.Play
import CommandConsole.Proofs.Session.Subshells
import CommandConsole.Proofs.Command.Sections
import CommandConsole.Proofs.Text.Newline
import CommandConsole.Proofs.Text.Utf8
import CommandConsole.Proofs.Stream.Contents
import CommandConsole.Proofs.Command.Finding
import CommandConsole.Proofs.Session.Effect
import CommandConsole.Proofs.Session.Returns
import CommandConsole.Proofs.CommandLine.Reports
import CommandConsole.Proofs.CommandLine.DeadEnds
import CommandConsole.Proofs.CommandLine.Units
import CommandConsole.Proofs.Activity.Interrupts
import CommandConsole.Proofs.Activity.Waits
import CommandConsole.Proofs.Text.NormalForm
import CommandConsole.Proofs.Stream.Translation
import CommandConsole.Proofs.Session.Boundary
import CommandConsole.Proofs.Session.OneShot
import CommandConsole.Proofs.Session.Demand
import CommandConsole.Proofs.Session.Bare
import CommandConsole.Proofs.Session.Blind
import CommandConsole.Proofs.Session.Transparency
import CommandConsole.Proofs.Text.Lines
import CommandConsole.Proofs.Command.Details
import CommandConsole.Proofs.Text.Utf8Valid
import CommandConsole.Proofs.Stream.Bytes
import CommandConsole.Proofs.Command.ExitValues
import CommandConsole.Proofs.Session.Leaving
import CommandConsole.Proofs.Command.Modesty
import CommandConsole.Proofs.Session.Thrift
import CommandConsole.Proofs.Session.Story
import CommandConsole.Proofs.Session.Chronicle
import CommandConsole.Proofs.Session.Cast
import CommandConsole.Proofs.Session.Progress
import CommandConsole.Proofs.Session.Termination
