import SpeechBridge.Proofs.Interruptions

/-!
# Whole frames

A bookmark ends a chunk at the byte that its time comes to, which may lie inside a frame. Main
statement: playback splits no frame exactly if every bookmark that ends a chunk at its own place
stands less than the time of one byte past the start of a frame.
-/
namespace SpeechBridge

namespace AudioFormat

theorem bytesPerSecond_le (f : AudioFormat) : f.bytesPerSecond ≤ Marker.ticksPerSecond := by
  rcases f with ⟨rate, width, channels⟩
  cases rate <;> cases width <;> cases channels <;> decide

end AudioFormat

namespace Marker

/-- How far the time of the marker is past the start of a frame, in ten-millionths of a frame. -/
def past (m : Marker) (f : AudioFormat) : Nat := m.ticks * f.rate.hertz % ticksPerSecond

/-- No position exceeds a 64-bit size, as a second has more ticks than bytes. -/
theorem byteOffset_eq (m : Marker) (f : AudioFormat) :
    m.byteOffset f = m.ticks * f.bytesPerSecond / ticksPerSecond := by
  have hticks : m.ticks < wordSize := Nat.mod_lt _ (by decide)
  have hle : m.ticks * f.bytesPerSecond / ticksPerSecond ≤ m.ticks := by
    apply Nat.div_le_of_le_mul
    rw [Nat.mul_comm]
    exact Nat.mul_le_mul_right _ f.bytesPerSecond_le
  rw [byteOffset, Nat.min_eq_left]
  omega

theorem byteOffset_eq_add (m : Marker) (f : AudioFormat) :
    m.byteOffset f =
      m.ticks * f.rate.hertz / ticksPerSecond * f.blockAlign +
        m.past f * f.blockAlign / ticksPerSecond := by
  have hsplit := Nat.div_add_mod (m.ticks * f.rate.hertz) ticksPerSecond
  have hmul : m.ticks * f.bytesPerSecond =
      ticksPerSecond * (m.ticks * f.rate.hertz / ticksPerSecond * f.blockAlign) +
        m.past f * f.blockAlign := by
    calc m.ticks * f.bytesPerSecond
        = m.ticks * f.rate.hertz * f.blockAlign := by rw [AudioFormat.bytesPerSecond, Nat.mul_assoc]
      _ = (ticksPerSecond * (m.ticks * f.rate.hertz / ticksPerSecond) + m.past f) *
            f.blockAlign := by rw [past, hsplit]
      _ = _ := by rw [Nat.add_mul, Nat.mul_assoc]
  rw [byteOffset_eq, hmul, Nat.mul_add_div (by decide)]

theorem dvd_byteOffset_iff (m : Marker) (f : AudioFormat) :
    f.blockAlign ∣ m.byteOffset f ↔ m.past f * f.blockAlign < ticksPerSecond := by
  have hpos : 0 < ticksPerSecond := by decide
  have hpast : m.past f < ticksPerSecond := Nat.mod_lt _ hpos
  have hlt : m.past f * f.blockAlign / ticksPerSecond < f.blockAlign := by
    rw [Nat.div_lt_iff_lt_mul hpos, Nat.mul_comm f.blockAlign]
    exact Nat.mul_lt_mul_of_pos_right hpast f.blockAlign_pos
  rw [byteOffset_eq_add, Nat.dvd_add_right (Nat.dvd_mul_left _ _)]
  constructor
  · intro h
    have hzero := Nat.eq_zero_of_dvd_of_lt h hlt
    exact (Nat.div_eq_zero_iff.mp hzero).resolve_left (Nat.ne_of_gt hpos)
  · intro h
    rw [Nat.div_eq_of_lt h]
    exact Nat.dvd_zero _

end Marker

namespace Playback

/-- The marker ends a chunk at its own place: it is a bookmark behind the position and all bookmarks
before it, and inside the audio. -/
structure Splits (f : AudioFormat) (size position : Nat) (before : List Marker) (m : Marker) :
    Prop where
  bookmark : bookmark? m ≠ none
  ahead : position < m.byteOffset f
  farther : ∀ b ∈ bookmarks f before, b.2 < m.byteOffset f
  inside : m.byteOffset f < size

theorem forall_split_cons {α : Type} {P : List α → α → Prop} {a : α} {as : List α} :
    (∀ before x after, a :: as = before ++ x :: after → P before x) ↔
      P [] a ∧ ∀ before x after, as = before ++ x :: after → P (a :: before) x := by
  constructor
  · intro h
    refine ⟨h [] a as rfl, ?_⟩
    rintro before x after rfl
    exact h (a :: before) x after rfl
  · rintro ⟨hfirst, hlater⟩ before x after h
    cases before with
    | nil => exact (List.cons.inj h).1 ▸ hfirst
    | cons b before =>
      obtain ⟨rfl, has⟩ := List.cons.inj h
      exact hlater before x after has

theorem splits_cons_of_none {f : AudioFormat} {size position : Nat} {m x : Marker}
    {before : List Marker} (hm : bookmark? m = none) :
    Splits f size position (m :: before) x ↔ Splits f size position before x := by
  have hb : bookmarks f (m :: before) = bookmarks f before := by simp [bookmarks, hm]
  constructor
  · rintro ⟨hx, ha, hf, hi⟩
    exact ⟨hx, ha, hb ▸ hf, hi⟩
  · rintro ⟨hx, ha, hf, hi⟩
    exact ⟨hx, ha, hb ▸ hf, hi⟩

theorem splits_cons_of_some {f : AudioFormat} {size position n : Nat} {m x : Marker}
    {before : List Marker} (hm : bookmark? m = some n) :
    Splits f size position (m :: before) x ↔
      Splits f size (chunkEnd f size position m) before x := by
  have hb : bookmarks f (m :: before) = (n, m.byteOffset f) :: bookmarks f before := by
    simp [bookmarks, hm]
  constructor
  · rintro ⟨hx, ha, hf, hi⟩
    rw [hb, List.forall_mem_cons] at hf
    refine ⟨hx, ?_, hf.2, hi⟩
    rw [chunkEnd]
    omega
  · rintro ⟨hx, ha, hf, hi⟩
    rw [chunkEnd] at ha
    refine ⟨hx, by omega, ?_, hi⟩
    rw [hb, List.forall_mem_cons]
    exact ⟨by dsimp only; omega, hf⟩

theorem dvd_length_slice_iff (f : AudioFormat) {audio : List UInt8} {position n : Nat} {m : Marker}
    (hs : f.blockAlign ∣ audio.length) (hp : f.blockAlign ∣ position)
    (hle : position ≤ audio.length) (hm : bookmark? m = some n) :
    f.blockAlign ∣ (slice audio position (chunkEnd f audio.length position m)).length ↔
      (Splits f audio.length position [] m → f.blockAlign ∣ m.byteOffset f) := by
  have hlast : chunkEnd f audio.length position m ≤ audio.length := Nat.min_le_right _ _
  have hfirst : position ≤ chunkEnd f audio.length position m := by
    rw [chunkEnd]
    omega
  rw [length_slice hlast, Nat.dvd_sub_iff_left hfirst hp]
  by_cases ha : position < m.byteOffset f
  · by_cases hi : m.byteOffset f < audio.length
    · have hend : chunkEnd f audio.length position m = m.byteOffset f := by
        rw [chunkEnd]
        omega
      have hsplit : Splits f audio.length position [] m :=
        ⟨by simp [hm], ha, by simp [bookmarks], hi⟩
      rw [hend]
      exact ⟨fun h _ => h, fun h => h hsplit⟩
    · have hend : chunkEnd f audio.length position m = audio.length := by
        rw [chunkEnd]
        omega
      rw [hend]
      exact iff_of_true hs fun h => absurd h.inside hi
  · have hend : chunkEnd f audio.length position m = position := by
      rw [chunkEnd]
      omega
    rw [hend]
    exact iff_of_true hp fun h => absurd h.ahead ha

theorem dvd_fed_roundsFrom_iff (f : AudioFormat) {audio : List UInt8} {position : Nat}
    (hs : f.blockAlign ∣ audio.length) (hp : f.blockAlign ∣ position)
    (hle : position ≤ audio.length) (waiting : Option Nat) (markers : List Marker) :
    (∀ chunk ∈ fed (roundsFrom f audio position waiting markers).flatten,
        f.blockAlign ∣ chunk.length) ↔
      ∀ before m after, markers = before ++ m :: after →
        Splits f audio.length position before m → f.blockAlign ∣ m.byteOffset f := by
  induction markers generalizing position waiting with
  | nil =>
    have hlast : f.blockAlign ∣ (audio.drop position).length := by
      rw [List.length_drop]
      exact Nat.dvd_sub hs hp
    rw [roundsFrom, List.flatten_singleton, fed_chunk]
    exact iff_of_true (by simpa using hlast) fun before m after h => by simp at h
  | cons m markers ih =>
    rw [forall_split_cons]
    cases hm : bookmark? m with
    | none =>
      simp only [roundsFrom, hm, List.flatten_cons, List.nil_append, splits_cons_of_none hm,
        ih hp hle]
      exact (and_iff_right fun h => absurd hm h.bookmark).symm
    | some n =>
      have hround := dvd_length_slice_iff f hs hp hle hm
      simp only [roundsFrom, hm, List.flatten_cons, fed_append, fed_chunk, List.singleton_append,
        List.forall_mem_cons, splits_cons_of_some hm, ← hround]
      apply and_congr_right
      intro hchunk
      have hlast : chunkEnd f audio.length position m ≤ audio.length := Nat.min_le_right _ _
      have hfirst : position ≤ chunkEnd f audio.length position m := by
        rw [chunkEnd]
        omega
      rw [length_slice hlast, Nat.dvd_sub_iff_left hfirst hp] at hchunk
      exact ih hchunk hlast (some n)

/-- While the flag stays down, whole frames of audio are fed in chunks of whole frames exactly if
every bookmark that ends a chunk at its own place stands less than the time of one byte past the
start of a frame. -/
theorem whole_frames_iff (f : AudioFormat) {audio : List UInt8} (markers : List Marker)
    (h : f.blockAlign ∣ audio.length) :
    (∀ chunk ∈ fed (performed (fun _ => false) 0 (start f audio markers)),
        f.blockAlign ∣ chunk.length) ↔
      ∀ before m after, markers = before ++ m :: after → Splits f audio.length 0 before m →
        m.past f * f.blockAlign < Marker.ticksPerSecond := by
  rw [performed_of_clear, rounds,
    dvd_fed_roundsFrom_iff f h (Nat.dvd_zero _) (Nat.zero_le _) none markers]
  simp only [Marker.dvd_byteOffset_iff]

/-- Of these, only the first one ends a chunk at its own place. The second stands before it, the
third is no bookmark, and the last is behind the audio. -/
def markersAstray : List Marker :=
  [.ofTicks "1" 454, .ofTicks "2" 300, .ofTicks "word" 700, .ofTicks "3" 99999]

theorem chunks_whole_with_markers_astray :
    AudioFormat.standard.blockAlign ∣ [1, 2, 3, 4, 5, 6, 7, 8].length ∧
    ∀ chunk ∈ fed (performed (fun _ => false) 0
        (start .standard [1, 2, 3, 4, 5, 6, 7, 8] markersAstray)),
      AudioFormat.standard.blockAlign ∣ chunk.length := by
  refine ⟨by decide, (whole_frames_iff .standard markersAstray (by decide)).mpr ?_⟩
  rw [markersAstray, forall_split_cons, forall_split_cons, forall_split_cons, forall_split_cons]
  refine ⟨fun _ => by decide, fun h => ?_, fun h => ?_, fun h => ?_, by simp⟩
  · exact absurd (h.farther _ (.head _)) (by decide)
  · exact absurd rfl h.bookmark
  · exact absurd h.inside (by decide)

/-- Inside the first frame a bookmark splits it. -/
theorem frame_split_by_bookmark :
    AudioFormat.standard.blockAlign ∣ [1, 2, 3, 4].length ∧
    ¬ ∀ chunk ∈ fed (performed (fun _ => false) 0
        (start .standard [1, 2, 3, 4] [.ofTicks "1" 227])),
      AudioFormat.standard.blockAlign ∣ chunk.length := by
  rw [performed_of_clear]
  decide

end Playback

end SpeechBridge
