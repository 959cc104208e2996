import SpeechBridge.Demo
import SpeechBridge.Driver.Settling
import SpeechBridge.Engine.Recorder
import SpeechBridge.Engine.Request
import SpeechBridge.Marker.Wire
import SpeechBridge.Platform.Apartment
import SpeechBridge.Platform.Console
import SpeechBridge.Platform.Flat
import SpeechBridge.Ssml.Document
import SpeechBridge.Voice.Basic
import SpeechBridge.Voice.Installed
import SpeechBridge.Proofs.Run
import SpeechBridge.Proofs.Standing
import SpeechBridge.Proofs.Utterances
import SpeechBridge.Proofs.Ledger
import SpeechBridge.Proofs.Markup
import SpeechBridge.Proofs.Chunks
import SpeechBridge.Proofs.Stretches
import SpeechBridge.Proofs.Recordings
import SpeechBridge.Proofs.Rounds
import SpeechBridge.Proofs.Silence
import SpeechBridge.Proofs.RoundTrip
import SpeechBridge.Proofs.Uncancelled
import SpeechBridge.Proofs.Exchanges
import SpeechBridge.Proofs.Bookmarks
import SpeechBridge.Proofs.Accounts
import SpeechBridge.Proofs.Correspondence
import SpeechBridge.Proofs.Replies
import SpeechBridge.Proofs.Interruptions
import SpeechBridge.Proofs.Idleness
import SpeechBridge.Proofs.Membership
import SpeechBridge.Proofs.Courses
import SpeechBridge.Proofs.Renderings
import SpeechBridge.Proofs.FlatCalls
import SpeechBridge.Proofs.Callbacks
import SpeechBridge.Proofs.Frames
import SpeechBridge.Proofs.Characters
import SpeechBridge.Proofs.Attachments
import SpeechBridge.Proofs.Surrogates
import SpeechBridge.Proofs.Grammar
import SpeechBridge.Proofs.Emptiness
import SpeechBridge.Proofs.Loudness
import SpeechBridge.Proofs.Levels
import SpeechBridge.Proofs.Normalization
import SpeechBridge.Proofs.Timing
import SpeechBridge.Proofs.Refusals
import SpeechBridge.Proofs.Redundancy
import SpeechBridge.Proofs.Expansion
import SpeechBridge.Proofs.Choices
import SpeechBridge.Proofs.Positions
