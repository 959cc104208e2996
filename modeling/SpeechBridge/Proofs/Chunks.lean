import SpeechBridge.Driver.Playback

/-!
# Chunks of audio

What playback does while the flag stays down. Its chunks lie end to end, one ends at each
bookmark, and each bookmark is reported once, behind the chunk that follows it. Positions never go
back and never leave the audio, so no chunk is cut outside of it.
-/
namespace SpeechBridge.Playback

/-- The calls of a playback, given whether the flag is up once so many calls have been made. -/
def performed (cancelled : Nat → Bool) (made : Nat) (p : Playback) : List OutputCall :=
  match h : p.next (cancelled made) with
  | none => []
  | some (call, rest) => call :: performed cancelled (made + 1) rest
termination_by p.weight
decreasing_by
  have := weight_next h
  omega

theorem callsFrom_of_nextRound (cancelled : Nat → Bool) (made : Nat) (rs : List Round) :
    callsFrom cancelled made rs =
      match nextRound (cancelled made) rs with
      | none => []
      | some (call, p) =>
        call :: (p.round ++ callsFrom cancelled (made + 1 + p.round.length) p.later) := by
  induction rs with
  | nil => rfl
  | cons r rs ih =>
    by_cases hc : cancelled made = true
    · simp only [callsFrom, nextRound, if_pos hc]
    · cases r with
      | nil =>
        simp only [callsFrom, nextRound, if_neg hc]
        exact ih
      | cons call rest =>
        have hl : made + 1 + rest.length = made + (rest.length + 1) := by omega
        simp only [callsFrom, nextRound, if_neg hc, List.cons_append, List.length_cons, hl]

theorem performed_eq (cancelled : Nat → Bool) (made : Nat) (p : Playback) :
    performed cancelled made p =
      p.round ++ callsFrom cancelled (made + p.round.length) p.later := by
  fun_induction performed cancelled made p with
  | case1 made p h =>
    rcases p with ⟨_ | ⟨call, rest⟩, later⟩
    · have hn := callsFrom_of_nextRound cancelled made later
      rw [show nextRound _ later = none from h] at hn
      exact hn.symm
    · cases h
  | case2 made p call rest h ih =>
    rcases p with ⟨_ | ⟨first, round⟩, later⟩
    · have hn := callsFrom_of_nextRound cancelled made later
      rw [show nextRound _ later = some (call, rest) from h] at hn
      rw [ih]
      exact hn.symm
    · cases h
      have hl : made + 1 + round.length = made + (round.length + 1) := by omega
      rw [ih]
      simp only [List.cons_append, List.length_cons, hl]

theorem callsFrom_of_clear (made : Nat) (rs : List Round) :
    callsFrom (fun _ => false) made rs = rs.flatten := by
  induction rs generalizing made with
  | nil => rfl
  | cons r rs ih =>
    rw [callsFrom, if_neg (by simp), ih, List.flatten_cons]

theorem performed_of_clear (f : AudioFormat) (audio : List UInt8) (markers : List Marker) :
    performed (fun _ => false) 0 (start f audio markers) = (rounds f audio markers).flatten := by
  rw [performed_eq, callsFrom_of_clear, start, List.nil_append]

/-- The bookmarks among the markers, each with the place that it stands for. -/
def bookmarks (f : AudioFormat) (markers : List Marker) : List (Nat × Nat) :=
  markers.filterMap fun m => (bookmark? m).map fun n => (n, m.byteOffset f)

/-- The farthest of the places. -/
def farthest (places : List Nat) : Nat := places.foldr max 0

/-- Cuts what follows a position at the places, as far as they lie ahead and inside. -/
def cut (audio : List UInt8) (position : Nat) : List Nat → List (List UInt8)
  | [] => [audio.drop position]
  | place :: places =>
    let last := min (max place position) audio.length
    slice audio position last :: cut audio last places

theorem length_cut (audio : List UInt8) (position : Nat) (places : List Nat) :
    (cut audio position places).length = places.length + 1 := by
  induction places generalizing position with
  | nil => rfl
  | cons place places ih => rw [cut, List.length_cons, ih, List.length_cons]

theorem slice_append_drop {audio : List UInt8} {first last : Nat} (h : first ≤ last) :
    slice audio first last ++ audio.drop last = audio.drop first := by
  have hd : audio.drop last = (audio.drop first).drop (last - first) := by
    rw [List.drop_drop, Nat.add_sub_cancel' h]
  rw [slice, hd, List.take_append_drop]

theorem length_slice {audio : List UInt8} {first last : Nat} (h : last ≤ audio.length) :
    (slice audio first last).length = last - first := by
  rw [slice, List.length_take, List.length_drop]
  omega

theorem flatten_cut {audio : List UInt8} {position : Nat} (h : position ≤ audio.length)
    (places : List Nat) : (cut audio position places).flatten = audio.drop position := by
  induction places generalizing position with
  | nil => simp [cut]
  | cons place places ih =>
    have hl : min (max place position) audio.length ≤ audio.length := Nat.min_le_right _ _
    have hp : position ≤ min (max place position) audio.length := by omega
    rw [cut, List.flatten_cons, ih hl]
    exact slice_append_drop hp

/-- Each chunk ends at the farthest place so far, or where the audio ends. -/
theorem end_cut {audio : List UInt8} {position : Nat} (h : position ≤ audio.length)
    (places : List Nat) {i : Nat} (hi : i < places.length) :
    position + ((cut audio position places).take (i + 1)).flatten.length =
      min audio.length (max position (farthest (places.take (i + 1)))) := by
  induction places generalizing position i with
  | nil => cases hi
  | cons place places ih =>
    have hl : min (max place position) audio.length ≤ audio.length := Nat.min_le_right _ _
    have hs : (slice audio position (min (max place position) audio.length)).length = _ :=
      length_slice hl
    rw [cut, List.take_succ_cons, List.take_succ_cons, List.flatten_cons, List.length_append, hs]
    cases i with
    | zero =>
      simp only [List.take_zero, List.flatten_nil, List.length_nil, farthest, List.foldr_cons,
        List.foldr_nil]
      omega
    | succ i =>
      have hr := ih hl (Nat.lt_of_succ_lt_succ hi)
      simp only [farthest, List.foldr_cons] at hr ⊢
      omega

/-- Chunks, each with the report that follows it. -/
def interleave (chunks : List (List UInt8)) (reports : List (Option Nat)) : List OutputCall :=
  (List.zipWith (fun chunk waiting => .feed chunk :: report waiting) chunks reports).flatten

theorem interleave_cons (chunk : List UInt8) (chunks : List (List UInt8)) (waiting : Option Nat)
    (reports : List (Option Nat)) :
    interleave (chunk :: chunks) (waiting :: reports) =
      .feed chunk :: report waiting ++ interleave chunks reports := rfl

theorem flatten_roundsFrom (f : AudioFormat) (audio : List UInt8) (position : Nat)
    (waiting : Option Nat) (markers : List Marker) :
    (roundsFrom f audio position waiting markers).flatten =
      interleave (cut audio position ((bookmarks f markers).map Prod.snd))
        (waiting :: (bookmarks f markers).map fun b => some b.1) := by
  induction markers generalizing position waiting with
  | nil => rfl
  | cons m markers ih =>
    cases hm : bookmark? m with
    | none =>
      have hb : bookmarks f (m :: markers) = bookmarks f markers := by simp [bookmarks, hm]
      rw [hb, ← ih]
      simp [roundsFrom, hm]
    | some n =>
      have hb : bookmarks f (m :: markers) = (n, m.byteOffset f) :: bookmarks f markers := by
        simp [bookmarks, hm]
      rw [hb, List.map_cons, List.map_cons, cut, interleave_cons]
      simp only [roundsFrom, hm, List.flatten_cons]
      rw [ih]
      rfl

/-- What was fed, and what was reported, among the calls of a playback. -/
def fed (calls : List OutputCall) : List (List UInt8) :=
  calls.filterMap fun
    | .feed chunk => some chunk
    | _ => none

def reported (calls : List OutputCall) : List Nat :=
  calls.filterMap fun
    | .index n => some n
    | _ => none

theorem fed_interleave {chunks : List (List UInt8)} {reports : List (Option Nat)}
    (h : chunks.length = reports.length) : fed (interleave chunks reports) = chunks := by
  induction chunks generalizing reports with
  | nil => rfl
  | cons chunk chunks ih =>
    obtain ⟨waiting, reports, rfl⟩ := List.exists_cons_of_length_eq_add_one h.symm
    have hi := ih (Nat.succ.inj h)
    rw [fed] at hi ⊢
    rw [interleave_cons, List.filterMap_append, hi]
    cases waiting <;> rfl

theorem reported_interleave {chunks : List (List UInt8)} {reports : List (Option Nat)}
    (h : chunks.length = reports.length) :
    reported (interleave chunks reports) = reports.filterMap id := by
  induction reports generalizing chunks with
  | nil =>
    rw [List.length_eq_zero_iff.mp h]
    rfl
  | cons waiting reports ih =>
    obtain ⟨chunk, chunks, rfl⟩ := List.exists_cons_of_length_eq_add_one h
    have hi := ih (Nat.succ.inj h)
    rw [reported] at hi ⊢
    rw [interleave_cons, List.filterMap_append, hi]
    cases waiting <;> rfl

theorem fed_rounds (f : AudioFormat) (audio : List UInt8) (markers : List Marker) :
    (fed (rounds f audio markers).flatten).flatten = audio := by
  rw [rounds, flatten_roundsFrom, fed_interleave (by simp [length_cut]),
    flatten_cut (Nat.zero_le _), List.drop_zero]

theorem reported_rounds (f : AudioFormat) (audio : List UInt8) (markers : List Marker) :
    reported (rounds f audio markers).flatten = markers.filterMap bookmark? := by
  have hm : ∀ m, ((bookmark? m).map fun n => (n, m.byteOffset f)).bind (fun b => some b.1) =
      bookmark? m := by
    intro m
    cases bookmark? m <;> rfl
  rw [rounds, flatten_roundsFrom, reported_interleave (by simp [length_cut])]
  simp [bookmarks, List.filterMap_map, List.filterMap_filterMap, hm]

/-- Holding a number to bounds is defined only if they are in order. -/
def clamp? (low high n : Nat) : Option Nat :=
  if low ≤ high then some (min (max n low) high) else none

def slice? (audio : List UInt8) (first last : Nat) : Option (List UInt8) :=
  if first ≤ last ∧ last ≤ audio.length then some (slice audio first last) else none

/-- The rounds, if no bound and no slice on the way is out of order. -/
def roundsFrom? (f : AudioFormat) (audio : List UInt8) (position : Nat) (waiting : Option Nat) :
    List Marker → Option (List Round)
  | [] => do
    let chunk ← slice? audio position audio.length
    return [.feed chunk :: report waiting]
  | m :: ms =>
    match bookmark? m with
    | none => do
      let later ← roundsFrom? f audio position waiting ms
      return [] :: later
    | some n => do
      let last ← clamp? position audio.length (m.byteOffset f)
      let chunk ← slice? audio position last
      let later ← roundsFrom? f audio last (some n) ms
      return (.feed chunk :: report waiting) :: later

theorem roundsFrom?_eq (f : AudioFormat) {audio : List UInt8} {position : Nat}
    (h : position ≤ audio.length) (waiting : Option Nat) (markers : List Marker) :
    roundsFrom? f audio position waiting markers =
      some (roundsFrom f audio position waiting markers) := by
  induction markers generalizing position waiting with
  | nil =>
    have hs : slice audio position audio.length = audio.drop position := by
      rw [slice, List.take_of_length_le (by simp)]
    rw [roundsFrom?, slice?, if_pos ⟨h, Nat.le_refl _⟩, hs]
    rfl
  | cons m markers ih =>
    cases hm : bookmark? m with
    | none =>
      simp only [roundsFrom?, roundsFrom, hm, ih h]
      rfl
    | some n =>
      have hl : chunkEnd f audio.length position m ≤ audio.length := Nat.min_le_right _ _
      have hp : position ≤ chunkEnd f audio.length position m := by
        rw [chunkEnd]
        omega
      have hc : clamp? position audio.length (m.byteOffset f) =
          some (chunkEnd f audio.length position m) := if_pos h
      have hs : slice? audio position (chunkEnd f audio.length position m) =
          some (slice audio position (chunkEnd f audio.length position m)) := if_pos ⟨hp, hl⟩
      simp only [roundsFrom?, roundsFrom, hm, hc, Option.bind_eq_bind, Option.bind_some, hs, ih hl]
      rfl

/-- While the flag stays down, playback feeds the audio whole, in one chunk more than there are
bookmarks. Each bookmark ends a chunk, and is reported once, directly behind the chunk after it. -/
theorem playback_complete (f : AudioFormat) (audio : List UInt8) (markers : List Marker) :
    roundsFrom? f audio 0 none markers = some (rounds f audio markers) ∧
    ∃ first later,
      performed (fun _ => false) 0 (start f audio markers) =
        .feed first :: (List.zipWith (fun chunk b => [OutputCall.feed chunk, .index b.1]) later
          (bookmarks f markers)).flatten ∧
      later.length = (bookmarks f markers).length ∧
      (first :: later).flatten = audio ∧
      ∀ i < (bookmarks f markers).length,
        ((first :: later).take (i + 1)).flatten.length =
          min audio.length (farthest (((bookmarks f markers).take (i + 1)).map Prod.snd)) := by
  refine ⟨roundsFrom?_eq f (Nat.zero_le _) none markers, ?_⟩
  generalize hb : bookmarks f markers = marks
  have hl := length_cut audio 0 (marks.map Prod.snd)
  obtain ⟨first, later, hc⟩ : ∃ first later, cut audio 0 (marks.map Prod.snd) = first :: later :=
    List.exists_cons_of_ne_nil fun hn => by simp [hn] at hl
  refine ⟨first, later, ?_, ?_, ?_, ?_⟩
  · rw [performed_of_clear, rounds, flatten_roundsFrom, hb, hc, interleave_cons, interleave,
      List.zipWith_map_right]
    rfl
  · rw [hc, List.length_cons, List.length_map] at hl
    exact Nat.succ.inj hl
  · rw [← hc, flatten_cut (Nat.zero_le _), List.drop_zero]
  · intro i hi
    have he := end_cut (Nat.zero_le audio.length) (marks.map Prod.snd) (i := i)
      (by rwa [List.length_map])
    rw [hc, Nat.zero_add, Nat.zero_max, ← List.map_take] at he
    exact he

end SpeechBridge.Playback
