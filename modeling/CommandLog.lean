import CommandLog.Console
import CommandLog.Main
import CommandLog.Proofs.Device.Rereading
import CommandLog.Proofs.Directive
import CommandLog.Proofs.Framing.Room
import CommandLog.Proofs.Hub.Line
import CommandLog.Proofs.Hub.Lines
import CommandLog.Proofs.Hub.Pace
import CommandLog.Proofs.Hub.Retreat
import CommandLog.Proofs.Server.Alert
import CommandLog.Proofs.Server.Binding
import CommandLog.Proofs.Server.Draining
import CommandLog.Proofs.Session.Exchange
import CommandLog.Proofs.Session.Trickle
import CommandLog.Proofs.Settings.Layering
import CommandLog.Proofs.Settings.Waits
import CommandLog.Proofs.Store.Checked
import CommandLog.Proofs.Timestamp.Reading
import CommandLog.Proofs.Transcript.Follow
import CommandLog.Proofs.Transcript.Unseen
import CommandLog.Server.Trial
