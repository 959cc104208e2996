import SpeechBridge.Marker.Basic
import SpeechBridge.Number.Total
import SpeechBridge.Text.Numeral

/-!
# Playback

Audio is fed in chunks that end at its bookmarks, so that progress can be reported on the way.
Feeding blocks only until the chunk before is done, so a bookmark is reported after the chunk
that follows it. Playback looks at the cancel flag at every marker and before the last chunk;
the calls between two looks are a round.
-/
namespace SpeechBridge

inductive OutputCall where
  | feed (chunk : List UInt8)
  | index (n : Nat)
  | stop
  | idle
  deriving DecidableEq, Repr

abbrev Round := List OutputCall

/-- The rest of a playback: of the round that was begun, and the rounds after it. -/
structure Playback where
  round : Round
  later : List Round
  deriving DecidableEq, Repr

namespace Playback

/-- The bookmark that a marker stands for; markers of words stand for none. -/
def bookmark? (m : Marker) : Option Nat := Numeral.readBelow 4294967296 m.text.toList

def report (waiting : Option Nat) : List OutputCall := (waiting.map OutputCall.index).toList

/-- Where the chunk of a marker ends: not before the last one, and not after the audio. -/
def chunkEnd (f : AudioFormat) (size position : Nat) (m : Marker) : Nat :=
  min (max (m.byteOffset f) position) size

def slice (audio : List UInt8) (first last : Nat) : List UInt8 :=
  (audio.drop first).take (last - first)

/-- The rounds from a position on, with a bookmark that waits to be reported. -/
def roundsFrom (f : AudioFormat) (audio : List UInt8) (position : Nat) (waiting : Option Nat) :
    List Marker → List Round
  | [] => [.feed (audio.drop position) :: report waiting]
  | m :: ms =>
    match bookmark? m with
    | none => [] :: roundsFrom f audio position waiting ms
    | some n =>
      let last := chunkEnd f audio.length position m
      (.feed (slice audio position last) :: report waiting) :: roundsFrom f audio last (some n) ms

def rounds (f : AudioFormat) (audio : List UInt8) (markers : List Marker) : List Round :=
  roundsFrom f audio 0 none markers

def start (f : AudioFormat) (audio : List UInt8) (markers : List Marker) : Playback :=
  ⟨[], rounds f audio markers⟩

def nextRound (cancelled : Bool) : List Round → Option (OutputCall × Playback)
  | [] => none
  | r :: rs =>
    if cancelled then none
    else match r with
      | [] => nextRound cancelled rs
      | call :: rest => some (call, ⟨rest, rs⟩)

def next (cancelled : Bool) (p : Playback) : Option (OutputCall × Playback) :=
  match p.round with
  | call :: rest => some (call, ⟨rest, p.later⟩)
  | [] => nextRound cancelled p.later

/-- The calls of rounds, given whether the flag is up once so many calls have been made. -/
def callsFrom (cancelled : Nat → Bool) (made : Nat) : List Round → List OutputCall
  | [] => []
  | r :: rs => if cancelled made then [] else r ++ callsFrom cancelled (made + r.length) rs

def calls (cancelled : Nat → Bool) (f : AudioFormat) (audio : List UInt8)
    (markers : List Marker) : List OutputCall :=
  callsFrom cancelled 0 (rounds f audio markers)

/-- How many calls are left, and rounds to look at the flag for. -/
def weight (p : Playback) : Nat :=
  2 * p.round.length + total (fun r => 1 + 2 * r.length) p.later

theorem weight_nextRound {cancelled : Bool} {rs : List Round} {call : OutputCall} {q : Playback}
    (h : nextRound cancelled rs = some (call, q)) :
    q.weight + 2 ≤ total (fun r => 1 + 2 * r.length) rs := by
  induction rs with
  | nil => simp [nextRound] at h
  | cons r rs ih =>
    simp only [nextRound] at h
    split at h
    · simp at h
    · cases r with
      | nil =>
        have := ih h
        simp only [total_cons]
        omega
      | cons c cs =>
        simp only [Option.some.injEq, Prod.mk.injEq] at h
        obtain ⟨_, rfl⟩ := h
        simp only [weight, total_cons, List.length_cons]
        omega

theorem weight_next {cancelled : Bool} {p q : Playback} {call : OutputCall}
    (h : p.next cancelled = some (call, q)) : q.weight + 2 ≤ p.weight := by
  rcases p with ⟨round, later⟩
  cases round with
  | nil =>
    have := weight_nextRound h
    simp only [weight, List.length_nil] at *
    omega
  | cons c cs =>
    simp only [next, Option.some.injEq, Prod.mk.injEq] at h
    obtain ⟨_, rfl⟩ := h
    simp only [weight, List.length_cons]
    omega

theorem weight_roundsFrom (f : AudioFormat) (audio : List UInt8) (position : Nat)
    (waiting : Option Nat) (ms : List Marker) :
    total (fun r => 1 + 2 * r.length) (roundsFrom f audio position waiting ms) ≤
      5 * (ms.length + 1) := by
  have hreport : ∀ w : Option Nat, (report w).length ≤ 1 := by
    intro w
    cases w <;> simp [report]
  induction ms generalizing position waiting with
  | nil =>
    have := hreport waiting
    simp [roundsFrom]
    omega
  | cons m ms ih =>
    simp only [roundsFrom]
    split
    · have := ih position waiting
      simp only [total_cons, List.length_nil, List.length_cons]
      omega
    next n _ =>
      have := ih (chunkEnd f audio.length position m) (some n)
      have := hreport waiting
      simp only [total_cons, List.length_cons]
      omega

theorem weight_start (f : AudioFormat) (audio : List UInt8) (ms : List Marker) :
    (start f audio ms).weight ≤ 5 * (ms.length + 1) := by
  have := weight_roundsFrom f audio 0 none ms
  simp only [start, weight, rounds, List.length_nil]
  omega

end Playback

end SpeechBridge
