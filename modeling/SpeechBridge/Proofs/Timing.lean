import SpeechBridge.Proofs.Frames

/-!
# Times and places

A word keeps the ticks of a marker, and the first time that has too many of them counts as the start
of the audio again. Main statement: places follow times exactly before that time.
-/
namespace SpeechBridge

namespace AudioFormat

theorem bytesPerSecond_pos (f : AudioFormat) : 0 < f.bytesPerSecond := by
  rcases f with ⟨rate, width, channels⟩
  cases rate <;> cases width <;> cases channels <;> decide

end AudioFormat

def Offset.overflow : Offset := ⟨wordSize * nanosPerTick⟩

namespace Marker

theorem ticks_of_lt {m : Marker} (h : m.offset.nanoseconds < Offset.overflow.nanoseconds) :
    m.ticks = m.offset.nanoseconds / Offset.nanosPerTick := by
  apply Nat.mod_eq_of_lt
  apply Nat.div_lt_of_lt_mul
  rwa [Nat.mul_comm]

theorem byteOffset_mono (f : AudioFormat) {a b : Marker}
    (hab : a.offset.nanoseconds ≤ b.offset.nanoseconds)
    (hb : b.offset.nanoseconds < Offset.overflow.nanoseconds) :
    a.byteOffset f ≤ b.byteOffset f := by
  have hticks : a.ticks ≤ b.ticks := by
    rw [ticks_of_lt (Nat.lt_of_le_of_lt hab hb), ticks_of_lt hb]
    exact Nat.div_le_div_right hab
  rw [byteOffset_eq, byteOffset_eq]
  exact Nat.div_le_div_right (Nat.mul_le_mul_right _ hticks)

theorem byteOffset_overflow (f : AudioFormat) (text : String) :
    (Marker.mk text Offset.overflow).byteOffset f = 0 := by
  have hticks : Offset.overflow.ticks = 0 := by decide
  rw [byteOffset_eq, ticks, hticks, Nat.zero_mul, Nat.zero_div]

theorem byteOffset_pos_before_overflow (f : AudioFormat) (text : String) :
    0 < (Marker.ofTicks text (wordSize - 1 : Nat)).byteOffset f := by
  have hle : ticksPerSecond ≤ (wordSize - 1) * f.bytesPerSecond :=
    Nat.le_trans (by decide) (Nat.le_mul_of_pos_right _ f.bytesPerSecond_pos)
  rw [byteOffset_eq, ticks_ofTicks (by decide)]
  exact Nat.div_pos hle (by decide)

end Marker

namespace Playback

theorem chunkEnd_mono {f : AudioFormat} {a b : Marker} (h : a.byteOffset f ≤ b.byteOffset f)
    (size position : Nat) : chunkEnd f size position a ≤ chunkEnd f size position b := by
  rw [chunkEnd, chunkEnd]
  omega

/-- Up to a limit, a later marker is not placed before an earlier one, nor ends its chunk before it
in audio of any size, exactly if a word holds all ticks up to the limit. -/
theorem places_follow_times_iff (f : AudioFormat) (limit : Nat) :
    (∀ a b : Marker, a.offset.nanoseconds ≤ b.offset.nanoseconds →
        b.offset.nanoseconds ≤ limit →
        a.byteOffset f ≤ b.byteOffset f ∧
          ∀ size position, chunkEnd f size position a ≤ chunkEnd f size position b) ↔
      limit < Offset.overflow.nanoseconds := by
  constructor
  · intro h
    by_contra hn
    obtain ⟨hle, _⟩ := h (.ofTicks "" (wordSize - 1 : Nat)) ⟨"", .overflow⟩ (by decide)
      (Nat.le_of_not_lt hn)
    rw [Marker.byteOffset_overflow] at hle
    exact absurd (Marker.byteOffset_pos_before_overflow f "") (Nat.not_lt.mpr hle)
  · intro hlimit a b hab hb
    have hmono := Marker.byteOffset_mono f hab (Nat.lt_of_le_of_lt hb hlimit)
    exact ⟨hmono, chunkEnd_mono hmono⟩

/-- A bookmark at the first time whose ticks are too many, in seconds and nanoseconds. -/
def distant : Marker := ⟨"1", .ofParts 1844674407370 955161600⟩

/-- It is later than a bookmark that stands behind four bytes of audio, and placed before them. -/
theorem distant_bookmark_at_start :
    (Marker.ofTicks "0" 1815).offset.nanoseconds ≤ distant.offset.nanoseconds ∧
    ¬ ((Marker.ofTicks "0" 1815).byteOffset .standard ≤ distant.byteOffset .standard ∧
      ∀ size position, chunkEnd .standard size position (Marker.ofTicks "0" 1815) ≤
        chunkEnd .standard size position distant) ∧
    fed (rounds .standard [1, 2, 3, 4] [distant]).flatten = [[], [1, 2, 3, 4]] ∧
    fed (rounds .standard [1, 2, 3, 4] [.ofTicks "1" 1815]).flatten = [[1, 2, 3, 4], []] := by
  refine ⟨by decide, fun h => absurd h.1 (by decide), by decide, by decide⟩

end Playback

end SpeechBridge
