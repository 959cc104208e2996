import SpeechBridge.Marker.Wire

/-!
# The wire form read back

Each marker is written as a piece without bars of its own, and a piece is cut at its last colon, so
a text may hold colons and digits but no bar. Main statement: which lists are read back as they
were.
-/
namespace SpeechBridge

namespace Offset

/-- Whole ticks that a signed 64-bit word holds are kept, and no other offset is. -/
theorem ofTicks_ticks_iff (o : Offset) :
    o.ticks ≤ 9223372036854775807 ∧ ofTicks o.ticks = o ↔
      ∃ ticks ≤ 9223372036854775807, o = ⟨ticks * nanosPerTick⟩ := by
  constructor
  · rintro ⟨hle, ho⟩
    exact ⟨o.ticks, hle, ho.symm⟩
  · rintro ⟨ticks, hle, rfl⟩
    have ht : (⟨ticks * nanosPerTick⟩ : Offset).ticks = ticks := by
      simp only [Offset.ticks, nanosPerTick, wordSize]
      omega
    rw [ht]
    exact ⟨hle, rfl⟩

end Offset

namespace Marker

theorem notMem_write {c : Char} (hc : c ≠ ':') (hd : c.isDigit = false) {m : Marker}
    (ht : c ∉ m.text.toList) : c ∉ m.write := by
  rw [write, List.mem_append, List.mem_cons, not_or, not_or]
  refine ⟨ht, hc, ?_⟩
  intro hm
  rw [Numeral.isDigit_of_mem_write hm] at hd
  cases hd

/-- A piece that was written is cut into its own text and ticks, of which reading keeps those that
a signed word holds. -/
theorem read?_write (m : Marker) :
    read? m.write =
      if m.ticks ≤ 9223372036854775807 then some (ofTicks m.text m.ticks) else none := by
  have hcolon : ':' ∉ Numeral.write m.ticks := by
    intro hm
    exact absurd (Numeral.isDigit_of_mem_write hm) (by decide)
  have hcut : Split.atLast ':' m.write = some (m.text.toList, Numeral.write m.ticks) :=
    Split.atLast_append hcolon m.text.toList
  have htrim : Blank.trim (Numeral.write m.ticks) = Numeral.write m.ticks := by
    apply Blank.trim_of_forall
    intro c hc
    exact Blank.isBlank_of_isDigit (Numeral.isDigit_of_mem_write hc)
  simp only [read?, hcut, htrim, Numeral.readInt64_write, String.ofList_toList, bind,
    Option.bind_some]
  split
  · rfl
  · rfl

theorem read?_write_iff (m : Marker) :
    read? m.write = some m ↔
      ∃ ticks ≤ 9223372036854775807, m.offset = ⟨ticks * Offset.nanosPerTick⟩ := by
  rw [read?_write, ← Offset.ofTicks_ticks_iff]
  by_cases h : m.ticks ≤ 9223372036854775807
  · rw [if_pos h]
    constructor
    · intro hm
      exact ⟨h, congrArg Marker.offset (Option.some.inj hm)⟩
    · rintro ⟨_, ho⟩
      rw [ofTicks, show Offset.ofTicks m.ticks = m.offset from ho]
  · rw [if_neg h]
    constructor
    · intro hm
      cases hm
    · rintro ⟨hle, _⟩
      exact absurd hle h

theorem text_subset_of_read? {piece : List Char} {m : Marker} (h : read? piece = some m) :
    m.text.toList ⊆ piece := by
  obtain ⟨cut, hcut, h⟩ := Option.bind_eq_some_iff.mp h
  obtain ⟨ticks, _, h⟩ := Option.bind_eq_some_iff.mp h
  cases h
  rw [Split.atLast_eq_some hcut, ofTicks, String.toList_ofList]
  exact List.subset_append_left _ _

theorem read_eq_ok_iff {piece : List Char} {m : Marker} :
    read piece = .ok m ↔ read? piece = some m := by
  rw [read]
  cases read? piece <;> simp

end Marker

namespace Markers

theorem readPieces_eq_ok_iff {pieces : List (List Char)} {ms : List Marker} :
    readPieces pieces = .ok ms ↔ pieces.map Marker.read? = ms.map some := by
  induction pieces generalizing ms with
  | nil =>
    rw [readPieces, List.map_nil, eq_comm (a := []), List.map_eq_nil_iff]
    constructor
    · intro h
      exact (Except.ok.inj h).symm
    · rintro rfl
      rfl
  | cons piece pieces ih =>
    rw [readPieces, List.map_cons]
    split
    next e he =>
      have hn : Marker.read? piece = none := by
        rw [Marker.read] at he
        split at he
        · cases he
        next hn => exact hn
      rw [hn]
      cases ms <;> simp
    next m hm =>
      rw [Marker.read_eq_ok_iff.mp hm]
      constructor
      · intro h
        split at h
        · cases h
        next later hl =>
          rw [← Except.ok.inj h, List.map_cons, ih.mp hl]
      · intro h
        cases ms with
        | nil => cases h
        | cons first later =>
          obtain ⟨hf, hl⟩ := List.cons.inj h
          rw [ih.mpr hl, Option.some.inj hf]

theorem splitOn_write {ms : List Marker} (hne : ms ≠ []) (h : ∀ m ∈ ms, '|' ∉ m.text.toList) :
    (write ms).splitOn '|' = ms.map Marker.write := by
  apply List.splitOn_intercalate
  · intro piece hp
    obtain ⟨m, hm, rfl⟩ := List.mem_map.mp hp
    exact Marker.notMem_write (by decide) (by decide) (h m hm)
  · rwa [Ne, List.map_eq_nil_iff]

theorem write_ne_nil {ms : List Marker} (h : ms ≠ []) : write ms ≠ [] := by
  obtain ⟨m, ms, rfl⟩ := List.exists_cons_of_ne_nil h
  cases ms with
  | nil => simp [write, Marker.write]
  | cons n ms => simp [write, Marker.write, List.intercalate_cons_cons]

theorem notMem_of_read {cs : List Char} {ms : List Marker} (h : read cs = .ok ms) :
    ∀ m ∈ ms, '|' ∉ m.text.toList := by
  intro m hm hbar
  rw [read] at h
  split at h
  · rw [← Except.ok.inj h] at hm
    cases hm
  · have hs : some m ∈ (cs.splitOn '|').map Marker.read? := by
      rw [readPieces_eq_ok_iff.mp h]
      exact List.mem_map_of_mem hm
    obtain ⟨piece, hp, hr⟩ := List.mem_map.mp hs
    exact Split.notMem_of_mem_splitOn hp (Marker.text_subset_of_read? hr hbar)

theorem read_write_iff_of_no_bar {ms : List Marker} (h : ∀ m ∈ ms, '|' ∉ m.text.toList) :
    read (write ms) = .ok ms ↔ ∀ m ∈ ms, Marker.read? m.write = some m := by
  by_cases hne : ms = []
  · subst hne
    simp [read, write]
  · rw [read, if_neg (write_ne_nil hne), splitOn_write hne h, readPieces_eq_ok_iff, List.map_map]
    exact List.map_inj_left

/-- A list is read back from its wire form exactly if no text holds a bar and every offset is a
whole number of ticks that a signed 64-bit word holds. -/
theorem ofWire_toWire_iff (ms : List Marker) :
    ofWire (toWire ms) = .ok ms ↔
      ∀ m ∈ ms, '|' ∉ m.text.toList ∧
        ∃ ticks ≤ 9223372036854775807, m.offset = ⟨ticks * Offset.nanosPerTick⟩ := by
  rw [ofWire, toWire, String.toList_ofList]
  constructor
  · intro h m hm
    have hbar := notMem_of_read h
    refine ⟨hbar m hm, ?_⟩
    exact m.read?_write_iff.mp ((read_write_iff_of_no_bar hbar).mp h m hm)
  · intro h
    have hbar : ∀ m ∈ ms, '|' ∉ m.text.toList := fun m hm => (h m hm).1
    apply (read_write_iff_of_no_bar hbar).mpr
    intro m hm
    exact m.read?_write_iff.mpr (h m hm).2

end Markers

end SpeechBridge
