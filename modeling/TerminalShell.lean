import TerminalShell.Channel.Script
import TerminalShell.Command.NamedStreams
import TerminalShell.Main
import TerminalShell.Proofs.Channel.ChunkSize
import TerminalShell.Proofs.Channel.Directions
import TerminalShell.Proofs.Channel.Interrupts
import TerminalShell.Proofs.Channel.LineAccount
import TerminalShell.Proofs.Channel.SharedQueue
import TerminalShell.Proofs.Channel.EndedSource
import TerminalShell.Proofs.Channel.Typing
import TerminalShell.Proofs.Channel.WaitingRead
import TerminalShell.Proofs.Command.PipeIsolation
import TerminalShell.Proofs.Command.LineGrammar
import TerminalShell.Proofs.Command.Opening
import TerminalShell.Proofs.Command.RedirectionClause
import TerminalShell.Proofs.Command.WordGrammar
import TerminalShell.Text.Utf8RoundTrip
import TerminalShell.Proofs.Channel.Looking
import TerminalShell.Proofs.Inspector.ReportFraming
import TerminalShell.Proofs.Inspector.Dialogue
import TerminalShell.Proofs.Inspector.DialogueProgress
import TerminalShell.Proofs.Inspector.TurnTaking
import TerminalShell.Proofs.Inspector.SessionOutput
import TerminalShell.Proofs.Path.LastSegment
import TerminalShell.Proofs.Path.Resolution
import TerminalShell.Proofs.Command.BrokenLine
import TerminalShell.Proofs.Command.SeparatedLines
import TerminalShell.Proofs.Command.Redirecting
import TerminalShell.Proofs.Command.CommonStart
import TerminalShell.Proofs.Channel.DeliveredLines
import TerminalShell.Proofs.Inspector.ReportReading
import TerminalShell.Proofs.Command.Buffers
import TerminalShell.Proofs.Command.TypedOperators
import TerminalShell.Proofs.Path.Dots
import TerminalShell.Proofs.Path.Undoing
