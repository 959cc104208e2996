import SpeechBridge.Proofs.Chunks
import SpeechBridge.Proofs.Rounds

/-!
# Interrupted playback

A flag that goes up during a call of a playback stays up, and is seen when the next round is about
to begin. Main statement: what is made of the playback then is all up to that call and, if the call
is a feed, the report that its round still owes.
-/
namespace SpeechBridge.Playback

/-- The calls of a playback during which the flag goes up: before the first call for zero, and else
during the call of that number. -/
def interrupted (f : AudioFormat) (audio : List UInt8) (markers : List Marker) (number : Nat) :
    List OutputCall :=
  performed (fun made => decide (number ≤ made)) 0 (start f audio markers)

theorem callsFrom_of_up {cancelled : Nat → Bool} {made : Nat} (h : cancelled made = true)
    (rs : List Round) : callsFrom cancelled made rs = [] := by
  cases rs with
  | nil => rfl
  | cons r rs => exact if_pos h

/-- A flag that goes up during a round lets this round be finished, and no other one begin. -/
theorem callsFrom_of_split {number made : Nat} {before after : List Round} {r : Round}
    (hb : made + before.flatten.length < number)
    (hr : number ≤ made + before.flatten.length + r.length) :
    callsFrom (fun n => decide (number ≤ n)) made (before ++ r :: after) =
      before.flatten ++ r := by
  induction before generalizing made with
  | nil =>
    simp only [List.flatten_nil, List.length_nil, Nat.add_zero] at hb hr
    have hdown : ¬ decide (number ≤ made) = true := by
      rw [decide_eq_true_iff]
      omega
    have hup : decide (number ≤ made + r.length) = true := decide_eq_true hr
    rw [List.nil_append, callsFrom, if_neg hdown, callsFrom_of_up hup, List.append_nil]
    rfl
  | cons first before ih =>
    simp only [List.flatten_cons, List.length_append] at hb hr
    have hdown : ¬ decide (number ≤ made) = true := by
      rw [decide_eq_true_iff]
      omega
    rw [List.cons_append, callsFrom, if_neg hdown, ih (by omega) (by omega), List.flatten_cons,
      List.append_assoc]

theorem callsFrom_of_late {number made : Nat} {rs : List Round}
    (h : made + rs.flatten.length < number) :
    callsFrom (fun n => decide (number ≤ n)) made rs = rs.flatten := by
  induction rs generalizing made with
  | nil => rfl
  | cons r rs ih =>
    simp only [List.flatten_cons, List.length_append] at h
    have hdown : ¬ decide (number ≤ made) = true := by
      rw [decide_eq_true_iff]
      omega
    rw [callsFrom, if_neg hdown, ih (by omega), List.flatten_cons]

theorem exists_round {rs : List Round} {place : Nat} {call : OutputCall}
    (h : rs.flatten[place]? = some call) :
    ∃ before r after i, rs = before ++ r :: after ∧ place = before.flatten.length + i ∧
      r[i]? = some call := by
  induction rs generalizing place with
  | nil => cases h
  | cons r rs ih =>
    rw [List.flatten_cons] at h
    by_cases hp : place < r.length
    · rw [List.getElem?_append_left hp] at h
      exact ⟨[], r, rs, place, rfl, (Nat.zero_add place).symm, h⟩
    · rw [List.getElem?_append_right (Nat.le_of_not_lt hp)] at h
      obtain ⟨before, r', after, i, hrs, hplace, hcall⟩ := ih h
      refine ⟨r :: before, r', after, i, ?_, ?_, hcall⟩
      · rw [hrs, List.cons_append]
      · rw [List.flatten_cons, List.length_append]
        omega

theorem fed_append (a b : List OutputCall) : fed (a ++ b) = fed a ++ fed b := List.filterMap_append

theorem reported_append (a b : List OutputCall) : reported (a ++ b) = reported a ++ reported b :=
  List.filterMap_append

theorem fed_chunk (chunk : List UInt8) (owed : Option Nat) :
    fed (.feed chunk :: report owed) = [chunk] := by
  cases owed <;> rfl

theorem reported_chunk (chunk : List UInt8) (owed : Option Nat) :
    reported (.feed chunk :: report owed) = owed.toList := by
  cases owed <;> rfl

theorem report_inj {chunk chunk' : List UInt8} {waiting owed : Option Nat}
    (h : OutputCall.feed chunk :: report waiting = .feed chunk' :: report owed) :
    waiting = owed := by
  have hr := congrArg reported h
  rw [reported_chunk, reported_chunk] at hr
  cases waiting with
  | none =>
    cases owed with
    | none => rfl
    | some n => cases hr
  | some n =>
    cases owed with
    | none => cases hr
    | some m => rw [List.singleton_inj.mp hr]

theorem call_of_round {chunk : List UInt8} {owed : Option Nat} {i : Nat} {call : OutputCall}
    (h : (OutputCall.feed chunk :: report owed)[i]? = some call) :
    (i = 0 ∧ call = .feed chunk) ∨ ∃ n, i = 1 ∧ owed = some n ∧ call = .index n := by
  cases i with
  | zero => exact .inl ⟨rfl, (Option.some.inj h).symm⟩
  | succ i =>
    right
    cases owed with
    | none => cases h
    | some n =>
      cases i with
      | zero => exact ⟨n, rfl, rfl, (Option.some.inj h).symm⟩
      | succ i => cases h

/-- What a round owes is the last bookmark before the one that its chunk ends at, and the bookmarks
before that one are reported by the rounds before. -/
theorem passed_of_round {f : AudioFormat} {audio : List UInt8} {position : Nat}
    {waiting owed : Option Nat} {markers : List Marker} {before after : List Round}
    {chunk : List UInt8}
    (h : roundsFrom f audio position waiting markers =
      before ++ (.feed chunk :: report owed) :: after) :
    waiting.toList ++ ((bookmarks f markers).take (fed before.flatten).length).map Prod.fst =
        reported before.flatten ++ owed.toList ∧
      (owed = none ↔ waiting = none ∧ fed before.flatten = []) := by
  induction markers generalizing position waiting before with
  | nil =>
    rw [roundsFrom] at h
    cases before with
    | nil =>
      obtain rfl := report_inj (List.cons.inj h).1
      simp [fed, reported]
    | cons r before => simp at h
  | cons m markers ih =>
    cases hm : bookmark? m with
    | none =>
      have hb : bookmarks f (m :: markers) = bookmarks f markers := by simp [bookmarks, hm]
      simp only [roundsFrom, hm] at h
      cases before with
      | nil => cases (List.cons.inj h).1
      | cons r before =>
        obtain ⟨hr, hlater⟩ := List.cons.inj h
        obtain ⟨hpassed, howed⟩ := ih hlater
        rw [hb, ← hr]
        exact ⟨hpassed, howed⟩
    | some n =>
      have hb : bookmarks f (m :: markers) = (n, m.byteOffset f) :: bookmarks f markers := by
        simp [bookmarks, hm]
      simp only [roundsFrom, hm] at h
      cases before with
      | nil =>
        obtain rfl := report_inj (List.cons.inj h).1
        simp [fed, reported]
      | cons r before =>
        obtain ⟨hr, hlater⟩ := List.cons.inj h
        obtain ⟨hpassed, howed⟩ := ih hlater
        rw [hb, ← hr, List.flatten_cons, fed_append, fed_chunk, reported_append, reported_chunk,
          List.singleton_append, List.length_cons, List.take_succ_cons, List.map_cons]
        constructor
        · rw [List.append_assoc, ← hpassed]
          rfl
        · -- The bookmark of this round waits for the next chunk, so that one owes a report.
          have hsome : owed ≠ none := fun hn => Option.some_ne_none n (howed.mp hn).1
          exact iff_of_false hsome fun hn => List.cons_ne_nil _ _ hn.2

theorem interrupted_eq (f : AudioFormat) (audio : List UInt8) (markers : List Marker)
    (number : Nat) :
    interrupted f audio markers number =
      callsFrom (fun made => decide (number ≤ made)) 0 (rounds f audio markers) := by
  rw [interrupted, performed_eq]
  rfl

theorem exists_round_of_call {f : AudioFormat} {audio : List UInt8} {markers : List Marker}
    {made : Nat} {call : OutputCall} (h : (rounds f audio markers).flatten[made]? = some call) :
    ∃ before chunk owed after i,
      rounds f audio markers = before ++ (.feed chunk :: report owed) :: after ∧
      made = before.flatten.length + i ∧
      (OutputCall.feed chunk :: report owed)[i]? = some call ∧
      interrupted f audio markers (made + 1) = before.flatten ++ .feed chunk :: report owed := by
  obtain ⟨before, r, after, i, hrounds, hmade, hcall⟩ := exists_round h
  have hr : r ∈ rounds f audio markers := by
    rw [hrounds]
    exact List.mem_append_right _ List.mem_cons_self
  rcases regular_roundsFrom f audio 0 none markers r hr with rfl | ⟨chunk, owed, rfl⟩
  · cases hcall
  · refine ⟨before, chunk, owed, after, i, hrounds, hmade, hcall, ?_⟩
    obtain ⟨hi, _⟩ := List.getElem?_eq_some_iff.mp hcall
    rw [interrupted_eq, hrounds]
    apply callsFrom_of_split
    · omega
    · omega

theorem interrupted_of_none {f : AudioFormat} {audio : List UInt8} {markers : List Marker}
    {made : Nat} (h : (rounds f audio markers).flatten[made]? = none) :
    interrupted f audio markers (made + 1) = (rounds f audio markers).flatten := by
  have hm := List.getElem?_eq_none_iff.mp h
  rw [interrupted_eq]
  apply callsFrom_of_late
  omega

theorem interrupted_of_index {f : AudioFormat} {audio : List UInt8} {markers : List Marker}
    {made n : Nat} (h : (rounds f audio markers).flatten[made]? = some (.index n)) :
    interrupted f audio markers (made + 1) =
      (rounds f audio markers).flatten.take (made + 1) := by
  obtain ⟨before, chunk, owed, after, i, hrounds, hmade, hcall, hleft⟩ := exists_round_of_call h
  rcases call_of_round hcall with ⟨_, hfeed⟩ | ⟨m, rfl, rfl, _⟩
  · cases hfeed
  · have hmade' : made + 1 = (before.flatten ++ .feed chunk :: report (some m)).length := by
      rw [List.length_append, hmade]
      rfl
    rw [hleft, hrounds, List.flatten_append, List.flatten_cons, ← List.append_assoc, hmade',
      List.take_left']
    rfl

theorem interrupted_of_feed {f : AudioFormat} {audio : List UInt8} {markers : List Marker}
    {made : Nat} {chunk : List UInt8}
    (h : (rounds f audio markers).flatten[made]? = some (.feed chunk)) :
    ∃ owed,
      interrupted f audio markers (made + 1) =
        (rounds f audio markers).flatten.take (made + 1) ++ report owed ∧
      ((bookmarks f markers).take
          (fed ((rounds f audio markers).flatten.take made)).length).map Prod.fst =
        reported ((rounds f audio markers).flatten.take (made + 1)) ++ owed.toList ∧
      (owed = none ↔ fed ((rounds f audio markers).flatten.take made) = []) := by
  obtain ⟨before, chunk', owed, after, i, hrounds, hmade, hcall, hleft⟩ := exists_round_of_call h
  obtain rfl : i = 0 := by
    rcases call_of_round hcall with ⟨hi, _⟩ | ⟨_, _, _, hindex⟩
    · exact hi
    · cases hindex
  obtain ⟨hpassed, howed⟩ := passed_of_round hrounds
  have hwhole : (rounds f audio markers).flatten =
      before.flatten ++ .feed chunk' :: (report owed ++ after.flatten) := by
    rw [hrounds, List.flatten_append, List.flatten_cons]
    rfl
  have hbefore : (rounds f audio markers).flatten.take made = before.flatten := by
    rw [hwhole, hmade, Nat.add_zero, List.take_left']
    rfl
  have hupto : (rounds f audio markers).flatten.take (made + 1) =
      before.flatten ++ [.feed chunk'] := by
    rw [hwhole, hmade, Nat.add_zero, List.take_length_add_append]
    rfl
  refine ⟨owed, ?_, ?_, ?_⟩
  · rw [hleft, hupto, List.append_assoc]
    rfl
  · rw [hbefore, hupto, reported_append]
    simpa [reported] using hpassed
  · rw [hbefore]
    simpa using howed

/-- When the flag goes up before the start, nothing is played. When it goes up during a call, what
is played is all up to that call and, behind a feed before which a bookmark was passed, the report
of the last such bookmark. -/
theorem interrupted_is_prefix (f : AudioFormat) (audio : List UInt8) (markers : List Marker)
    (made : Nat) :
    let whole := performed (fun _ => false) 0 (start f audio markers)
    let passed := ((bookmarks f markers).take (fed (whole.take made)).length).map Prod.fst
    let left := interrupted f audio markers (made + 1)
    interrupted f audio markers 0 = [] ∧
    left <+: whole ∧
    (whole[made]? = none → left = whole) ∧
    (∀ n, whole[made]? = some (.index n) → left = whole.take (made + 1)) ∧
    ∀ chunk, whole[made]? = some (.feed chunk) →
      (passed = [] → left = whole.take (made + 1)) ∧
      (passed ≠ [] → ∃ n, passed = reported (whole.take (made + 1)) ++ [n] ∧
        left = whole.take (made + 1) ++ [.index n]) := by
  rw [performed_of_clear]
  intro whole passed left
  refine ⟨?_, ?_, interrupted_of_none, fun n => interrupted_of_index, ?_⟩
  · rw [interrupted_eq]
    exact callsFrom_of_up rfl _
  · cases hc : whole[made]? with
    | none =>
      have hwhole : left = whole := interrupted_of_none hc
      exact hwhole ▸ List.prefix_rfl
    | some call =>
      obtain ⟨before, chunk, owed, after, i, hrounds, _, _, hleft⟩ := exists_round_of_call hc
      refine ⟨after.flatten, ?_⟩
      simp only [left, whole, hleft, hrounds, List.flatten_append, List.flatten_cons,
        List.append_assoc]
  · intro chunk hc
    obtain ⟨owed, hleft, hpassed, howed⟩ := interrupted_of_feed hc
    change passed = _ at hpassed
    cases owed with
    | none =>
      have hfed : fed (whole.take made) = [] := howed.mp rfl
      have hnone : passed = [] := by simp [passed, hfed]
      refine ⟨fun _ => ?_, fun hne => absurd hnone hne⟩
      exact hleft.trans (List.append_nil _)
    | some n =>
      refine ⟨fun hnone => ?_, fun _ => ⟨n, hpassed, hleft⟩⟩
      rw [hnone] at hpassed
      simp at hpassed

end SpeechBridge.Playback
