import Stave.Main
import Stave.Session
import Stave.Sink.Json
import Stave.Proofs.Ratio
import Stave.Proofs.Ratio.Reduction
import Stave.Proofs.Scale
import Stave.Proofs.Score.Grammar
import Stave.Proofs.Score.Steps
import Stave.Proofs.Score.Bare
import Stave.Proofs.Score.Spelt
import Stave.Proofs.Score.Cut
import Stave.Proofs.Score.Words
import Stave.Proofs.Score.Reread
import Stave.Proofs.Score.RoundTrip
import Stave.Proofs.Score.Exact
import Stave.Proofs.Score.Named
import Stave.Proofs.Score.Forward
import Stave.Proofs.Score.Accept
import Stave.Proofs.Score.Derive
import Stave.Proofs.Clock.Course
import Stave.Proofs.Clock.Order
import Stave.Proofs.Clock.Overdue
import Stave.Proofs.Clock.Ledger
import Stave.Proofs.Sequencer.Delivery
import Stave.Proofs.Sequencer.Sounding
import Stave.Proofs.Sequencer.Playback
import Stave.Proofs.Session
import Stave.Proofs.Score.Watch
import Stave.Proofs.Sequencer.Delay
import Stave.Proofs.Score.Seam
import Stave.Proofs.Score.Viable
import Stave.Proofs.Score.Origin
import Stave.Proofs.Score.Place
import Stave.Proofs.Score.Longest
import Stave.Proofs.Clock.Terminated
import Stave.Proofs.Score.Join
import Stave.Proofs.Json.Tokens
import Stave.Proofs.Json.Values
import Stave.Proofs.Json.Texts
import Stave.Proofs.Ratio.Json
import Stave.Proofs.Score.Json
import Stave.Proofs.Clock.Tick
import Stave.Proofs.Score.Parts
import Stave.Proofs.Score.Shares
import Stave.Proofs.Score.Motion
import Stave.Proofs.Score.Voices
import Stave.Proofs.Sequencer.Refusal
import Stave.Proofs.Sequencer.Binding
import Stave.Proofs.Clock.Runs
import Stave.Proofs.Sequencer.Retrigger
import Stave.Proofs.Scale.Degrees
import Stave.Proofs.Scale.Below
import Stave.Proofs.Score.Degrees
import Stave.Proofs.Score.Amounts
import Stave.Proofs.Session.Still
import Stave.Proofs.Clock.Periodic
import Stave.Proofs.Pitch.Written
import Stave.Proofs.Pitch.RoundTrip
import Stave.Proofs.Score.Marks
import Stave.Proofs.Score.Shown
import Stave.Proofs.Score.Lookahead
import Stave.Proofs.Sink
