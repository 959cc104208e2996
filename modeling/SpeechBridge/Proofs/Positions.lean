import SpeechBridge.Proofs.Choices
import SpeechBridge.Proofs.FlatCalls
import SpeechBridge.Proofs.Renderings
import SpeechBridge.Text.Split

/-!
# Positions in a listing

A host gets the installed voices as one text, with bars between the entries, and chooses a voice by
the position of its entry. Main statement: there is one piece for each voice, and each position
chooses the voice of its piece, exactly if no identifier and no name has a bar in it. What is no
position never chooses any.
-/
namespace SpeechBridge

namespace Split

variable {sep : Char}

theorem splitOn_intercalate {texts : List (List Char)} (h : texts ≠ []) :
    ([sep].intercalate texts).splitOn sep = texts.flatMap (·.splitOn sep) := by
  induction texts with
  | nil => exact absurd rfl h
  | cons text texts ih =>
    cases texts with
    | nil => simp
    | cons next texts =>
      rw [List.intercalate_cons_cons, List.append_assoc, List.singleton_append,
        List.splitOn_append_cons_self, ih (List.cons_ne_nil _ _), ← List.flatMap_cons]

theorem length_splitOn_eq_one_iff {cs : List Char} : (cs.splitOn sep).length = 1 ↔ sep ∉ cs := by
  constructor
  · intro h
    obtain ⟨piece, hp⟩ := List.length_eq_one_iff.mp h
    have hcs : [sep].intercalate (cs.splitOn sep) = cs := List.intercalate_splitOn sep
    rw [hp, List.intercalate_singleton] at hcs
    rw [← hcs]
    exact notMem_of_mem_splitOn (hp ▸ List.mem_singleton_self piece)
  · intro h
    rw [List.splitOn_eq_singleton h]
    rfl

variable (sep) in
theorem length_le_length_flatMap_splitOn (texts : List (List Char)) :
    texts.length ≤ (texts.flatMap (·.splitOn sep)).length := by
  induction texts with
  | nil => exact Nat.le_refl 0
  | cons text texts ih =>
    have hpos := List.length_pos_iff.mpr (List.splitOn_ne_nil sep text)
    rw [List.flatMap_cons, List.length_append, List.length_cons]
    omega

/-- There is one piece for each text exactly if the separator is in none of them. -/
theorem length_flatMap_splitOn_eq_iff {texts : List (List Char)} :
    (texts.flatMap (·.splitOn sep)).length = texts.length ↔ ∀ text ∈ texts, sep ∉ text := by
  induction texts with
  | nil => simp
  | cons text texts ih =>
    have hpos := List.length_pos_iff.mpr (List.splitOn_ne_nil sep text)
    have hle := length_le_length_flatMap_splitOn sep texts
    rw [List.flatMap_cons, List.length_append, List.length_cons, List.forall_mem_cons, ← ih,
      ← length_splitOn_eq_one_iff]
    omega

end Split

namespace Voice

/-- There is no bar in what is listed of the voice. -/
def Unbarred (v : Voice) : Prop := '|' ∉ v.id.toList ∧ '|' ∉ v.displayName.toList

instance (v : Voice) : Decidable v.Unbarred := inferInstanceAs (Decidable (_ ∧ _))

theorem notMem_entry_iff {v : Voice} : '|' ∉ v.entry.toList ↔ v.Unbarred := by
  simp [entry, Unbarred, not_or]

variable {vs : List Voice}

theorem splitOn_listing (h : vs ≠ []) :
    (listing vs).toList.splitOn '|' = (vs.map (·.entry.toList)).flatMap (·.splitOn '|') := by
  rw [listing, String.toList_ofList, Split.splitOn_intercalate (mt List.map_eq_nil_iff.mp h)]

theorem length_le_splitOn_listing (h : vs ≠ []) :
    vs.length ≤ ((listing vs).toList.splitOn '|').length := by
  have hle := Split.length_le_length_flatMap_splitOn '|' (vs.map (·.entry.toList))
  rwa [List.length_map, ← splitOn_listing h] at hle

theorem length_splitOn_listing_iff (h : vs ≠ []) :
    ((listing vs).toList.splitOn '|').length = vs.length ↔ ∀ v ∈ vs, v.Unbarred := by
  have hiff := @Split.length_flatMap_splitOn_eq_iff '|' (vs.map (·.entry.toList))
  rw [List.length_map, ← splitOn_listing h, List.forall_mem_map] at hiff
  exact hiff.trans (forall₂_congr fun _ _ => notMem_entry_iff)

theorem splitOn_listing_of_unbarred (h : vs ≠ []) (hu : ∀ v ∈ vs, v.Unbarred) :
    (listing vs).toList.splitOn '|' = vs.map (·.entry.toList) := by
  rw [listing, String.toList_ofList]
  apply List.splitOn_intercalate
  · rw [List.forall_mem_map]
    exact fun v hv => notMem_entry_iff.mpr (hu v hv)
  · exact mt List.map_eq_nil_iff.mp h

end Voice

namespace Platform

def voice (v : PlatformVoice) : Voice := ⟨text v.id, text v.displayName, text v.language⟩

/-- No failure of these calls is planned. -/
def Spares (calls : List SystemCall) (p : Platform) : Prop := ∀ call ∈ calls, call ∉ p.planned

instance (calls : List SystemCall) (p : Platform) : Decidable (p.Spares calls) :=
  inferInstanceAs (Decidable (∀ call ∈ calls, call ∉ p.planned))

def listingCalls : List SystemCall :=
  [.allVoices, .voicesGetAt, .voiceId, .voiceDisplayName, .voiceLanguage, .allocateString]

variable {calls : List SystemCall} {p : Platform}

theorem Spares.of_keeps {α : Type} {act : Call α} (hk : Act.Keeps planned act)
    (hp : p.Spares calls) : (act.run p).world.Spares calls := by
  intro call hc
  rw [hk p]
  exact hp call hc

theorem Spares.result_pass {call : SystemCall} (hp : p.Spares calls) (hc : call ∈ calls) :
    ((pass call).run p).result = .ok () := by
  rw [run_pass, consult_of_notMem (hp call hc)]

theorem keeps_voices_pass (call : SystemCall) : Act.Keeps voices (pass call) := by
  intro p
  rw [world_pass]

theorem keeps_planned_readVoice (v : PlatformVoice) : Act.Keeps planned (readVoice v) :=
  (keeps_planned_pass _).bind fun _ => (keeps_planned_pass _).bind fun _ =>
    (keeps_planned_pass _).bind fun _ => Act.keeps_pure _ _

theorem keeps_planned_readItems {α β : Type} (call : SystemCall) {read : α → Call β}
    (hread : ∀ a, Act.Keeps planned (read a)) (items : List α) :
    Act.Keeps planned (readItems call read items) := by
  induction items with
  | nil => exact (keeps_planned_failure? call).bind fun _ => Act.keeps_pure _ _
  | cons item items ih =>
    apply (keeps_planned_failure? call).bind
    intro code
    cases code with
    | some code => exact Act.keeps_pure _ _
    | none => exact (hread item).bind fun _ => ih.bind fun _ => Act.keeps_pure _ _

theorem voice_of_readVoice {v : PlatformVoice} {read : Voice}
    (h : ((readVoice v).run p).result = .ok read) : read = voice v := by
  obtain ⟨_, _, h⟩ := Act.result_bind_eq_ok.mp h
  obtain ⟨_, _, h⟩ := Act.result_bind_eq_ok.mp h
  obtain ⟨_, _, h⟩ := Act.result_bind_eq_ok.mp h
  cases h
  rfl

theorem Spares.result_readVoice (hp : p.Spares listingCalls) (v : PlatformVoice) :
    ((readVoice v).run p).result = .ok (voice v) := by
  have hid := hp.of_keeps (keeps_planned_pass .voiceId)
  have hname := hid.of_keeps (keeps_planned_pass .voiceDisplayName)
  refine Act.result_bind_eq_ok.mpr ⟨(), hp.result_pass (by decide), ?_⟩
  refine Act.result_bind_eq_ok.mpr ⟨(), hid.result_pass (by decide), ?_⟩
  exact Act.result_bind_eq_ok.mpr ⟨(), hname.result_pass (by decide), rfl⟩

theorem Spares.result_readVoices (hp : p.Spares listingCalls) (voices : List PlatformVoice) :
    ((readItems .voicesGetAt readVoice voices).run p).result = .ok (voices.map voice) := by
  have hfailure : ∀ q : Platform, q.Spares listingCalls →
      ((failure? .voicesGetAt).run q).result = .ok none := by
    intro q hq
    exact congrArg Except.ok (consult_of_notMem (hq .voicesGetAt (by decide)))
  induction voices generalizing p with
  | nil => exact Act.result_bind_eq_ok.mpr ⟨none, hfailure p hp, rfl⟩
  | cons v voices ih =>
    have hitem := hp.of_keeps (keeps_planned_failure? .voicesGetAt)
    have hrest := hitem.of_keeps (keeps_planned_readVoice v)
    refine Act.result_bind_eq_ok.mpr ⟨none, hfailure p hp, ?_⟩
    refine Act.result_bind_eq_ok.mpr ⟨voice v, hitem.result_readVoice v, ?_⟩
    exact Act.result_bind_eq_ok.mpr ⟨voices.map voice, ih hrest, rfl⟩

theorem Spares.result_listVoices (hp : p.Spares listingCalls) :
    (listVoices.run p).result = .ok (p.voices.map voice) := by
  refine Act.result_bind_eq_ok.mpr ⟨(), hp.result_pass (by decide), ?_⟩
  refine Act.result_bind_eq_ok.mpr ⟨_, rfl, ?_⟩
  rw [keeps_voices_pass]
  exact (hp.of_keeps (keeps_planned_pass .allVoices)).result_readVoices p.voices

/-- Without planned failures to get one, all voices are listed. -/
theorem voices_of_listVoices {vs : List Voice} (hw : .voicesGetAt ∉ p.planned)
    (h : (listVoices.run p).result = .ok vs) : vs = p.voices.map voice := by
  obtain ⟨_, _, h⟩ := Act.result_bind_eq_ok.mp h
  obtain ⟨q, hq, h⟩ := Act.result_bind_eq_ok.mp h
  cases hq
  rw [keeps_voices_pass] at h
  have hq : .voicesGetAt ∉ ((pass .allVoices).run p).world.planned := by
    rw [keeps_planned_pass]
    exact hw
  exact readItems_whole (fun _ _ _ => voice_of_readVoice) keeps_planned_readVoice hq h

theorem keeps_planned_listVoices : Act.Keeps planned listVoices :=
  (keeps_planned_pass _).bind fun _ => (Act.keeps_get _).bind fun _ =>
    keeps_planned_readItems _ keeps_planned_readVoice _

end Platform

namespace Flat

variable {f : Flat} {handle : Nat}

theorem listing_of_allocateListing {vs : List Voice} {s : String}
    (h : (f.allocateListing vs).2.2 = .sized (some s)) : s = Voice.listing vs := by
  unfold allocateListing at h
  split at h
  · cases h
    rfl
  · cases h

theorem result_allocateListing (hp : f.studio.world.Spares Platform.listingCalls)
    (vs : List Voice) : (f.allocateListing vs).2.2 = .sized (some (Voice.listing vs)) := by
  have hn : ((Platform.failure? .allocateString).run f.studio.world).result = .ok none :=
    congrArg Except.ok (Platform.consult_of_notMem (hp .allocateString (by decide)))
  simp only [allocateListing, onPlatform, hn]

theorem listing_of_voices {s : String} (hw : .voicesGetAt ∉ f.studio.world.planned)
    (h : (f.voices handle).2.2 = .sized (some s)) :
    f.studio.world.voices ≠ [] ∧
      s = Voice.listing (f.studio.world.voices.map Platform.voice) := by
  unfold voices at h
  split at h
  · cases h
  · split at h
    · cases h
    · cases h
    next f' events v vs hl =>
      obtain ⟨_, hl⟩ := Prod.mk.inj hl
      obtain ⟨_, hl⟩ := Prod.mk.inj hl
      have hvs := Platform.voices_of_listVoices hw hl
      constructor
      · intro hnil
        rw [hnil] at hvs
        cases hvs
      · rw [← hvs]
        exact listing_of_allocateListing h

theorem result_voices {i : Instance} (hi : f.instance? handle = some i)
    (hv : f.studio.world.voices ≠ []) (hp : f.studio.world.Spares Platform.listingCalls) :
    (f.voices handle).2.2 =
      .sized (some (Voice.listing (f.studio.world.voices.map Platform.voice))) := by
  have hl := hp.result_listVoices
  obtain ⟨v, vs, hvs⟩ := List.exists_cons_of_ne_nil hv
  rw [hvs, List.map_cons] at hl ⊢
  simp only [voices, hi, onPlatform, hl]
  exact result_allocateListing (hp.of_keeps Platform.keeps_planned_listVoices) _

end Flat

namespace Platform

/-- The calls succeed one after the other. -/
def Passes : List SystemCall → Platform → Prop
  | [], _ => True
  | call :: calls, p => ((pass call).run p).result = .ok () ∧ Passes calls ((pass call).run p).world

def choiceCalls : List SystemCall := [.allVoices, .voicesSize, .voicesGetAt, .setVoice]

end Platform

namespace Station

variable {index : Nat} {s : Station}

theorem voices_pass (call : SystemCall) (s : Station) :
    ((onPlatform (Platform.pass call)).run s).world.platform.voices = s.platform.voices :=
  Platform.keeps_voices_pass call s.platform

theorem keeps_synthesizer_onPlatform {α : Type} (call : Platform.Call α) :
    Act.Keeps synthesizer (onPlatform call) := fun _ => rfl

theorem keepsOnError_setVoice (index : Nat) : Act.KeepsOnError synthesizer (setVoice index) := by
  apply (keeps_synthesizer_onPlatform _).bind_keepsOnError
  intro _
  apply (keeps_synthesizer_onPlatform _).bind_keepsOnError
  intro _
  apply (Act.keeps_get _).bind_keepsOnError
  intro s
  dsimp only
  split
  · apply (keeps_synthesizer_onPlatform _).bind_keepsOnError
    intro _
    apply (keeps_synthesizer_onPlatform _).bind_keepsOnError
    intro _ w e he
    cases he
  · exact (Act.keeps_fail _ _).keepsOnError

theorem setVoice_of_ok (h : ((setVoice index).run s).result = .ok ()) :
    index < s.platform.voices.length ∧ s.platform.Passes Platform.choiceCalls ∧
      ((setVoice index).run s).world.synthesizer = { s.synthesizer with voice := index } := by
  unfold setVoice at h ⊢
  obtain ⟨_, hall, h⟩ := Act.result_bind_eq_ok.mp h
  rw [Act.world_bind_of_ok hall]
  obtain ⟨_, hsize, h⟩ := Act.result_bind_eq_ok.mp h
  rw [Act.world_bind_of_ok hsize]
  obtain ⟨t, ht, h⟩ := Act.result_bind_eq_ok.mp h
  rw [Act.world_bind_of_ok ht]
  cases ht
  dsimp only at h ⊢
  split at h
  next hi =>
    rw [if_pos hi]
    obtain ⟨_, hget, h⟩ := Act.result_bind_eq_ok.mp h
    rw [Act.world_bind_of_ok hget]
    obtain ⟨_, hset, h⟩ := Act.result_bind_eq_ok.mp h
    rw [Act.world_bind_of_ok hset]
    refine ⟨?_, ⟨hall, hsize, hget, hset, trivial⟩, rfl⟩
    rwa [voices_pass, voices_pass] at hi
  next => cases h

theorem result_setVoice (hi : index < s.platform.voices.length)
    (hp : s.platform.Passes Platform.choiceCalls) : ((setVoice index).run s).result = .ok () := by
  obtain ⟨hall, hsize, hget, hset, _⟩ := hp
  refine Act.result_bind_eq_ok.mpr ⟨(), hall, ?_⟩
  refine Act.result_bind_eq_ok.mpr ⟨(), hsize, ?_⟩
  refine Act.result_bind_eq_ok.mpr ⟨_, rfl, ?_⟩
  dsimp only
  rw [voices_pass, voices_pass, if_pos hi]
  refine Act.result_bind_eq_ok.mpr ⟨(), hget, ?_⟩
  exact Act.result_bind_eq_ok.mpr ⟨(), hset, rfl⟩

theorem keeps_voices_setVoice (index : Nat) :
    Act.Keeps (·.platform.voices) (setVoice index) := by
  have hpass (call : SystemCall) :
      Act.Keeps (·.platform.voices) (onPlatform (Platform.pass call)) := voices_pass call
  apply (hpass _).bind
  intro _
  apply (hpass _).bind
  intro _
  apply (Act.keeps_get _).bind
  intro s
  dsimp only
  split
  · apply (hpass _).bind
    intro _
    apply (hpass _).bind
    intro _ s
    rfl
  · exact Act.keeps_fail _ _

end Station

namespace Flat

variable {f : Flat} {handle : Nat}

/-- The current voice of the instance under a handle. -/
def current? (f : Flat) (handle : Nat) : Option PlatformVoice :=
  (f.instance? handle).bind fun i => f.studio.world.voices[i.synthesizer.voice]?

theorem keeps_voices_voiceChoice (index : Int) :
    Act.Keeps (·.platform.voices) (voiceChoice index) := by
  unfold voiceChoice
  split
  · exact Station.keeps_voices_setVoice _
  · exact Act.keeps_fail _ _

theorem voiceChoice_of_ok {index : Int} {s : Station}
    (h : ((voiceChoice index).run s).result = .ok ()) :
    0 ≤ index ∧ index < s.platform.voices.length ∧ s.platform.Passes Platform.choiceCalls := by
  unfold voiceChoice at h
  split at h
  next hi =>
    obtain ⟨hlt, hp, _⟩ := Station.setVoice_of_ok h
    exact ⟨hi, by omega, hp⟩
  next => cases h

theorem keepsOnError_voiceChoice (index : Int) :
    Act.KeepsOnError Station.synthesizer (voiceChoice index) := by
  unfold voiceChoice
  split
  · exact Station.keepsOnError_setVoice _
  · exact (Act.keeps_fail _ _).keepsOnError

theorem setVoice_eq {i : Instance} (hi : f.instance? handle = some i) (index : Int) :
    (f.setVoice handle index).1 = (f.onStation handle i (voiceChoice index)).1 := by
  unfold setVoice
  rw [hi]
  dsimp only
  split
  next h => rw [h]
  next h => rw [h]

theorem current?_setVoice {i : Instance} (hi : f.instance? handle = some i) (index : Int)
    (n : Nat) :
    (f.setVoice handle index).1.current? n =
      if n = handle then f.studio.world.voices[
        ((voiceChoice index).run ⟨f.studio.world, i.synthesizer⟩).world.synthesizer.voice]?
      else f.current? n := by
  have hvoices : (f.setVoice handle index).1.studio.world.voices = f.studio.world.voices := by
    rw [setVoice_eq hi]
    exact keeps_voices_voiceChoice index ⟨f.studio.world, i.synthesizer⟩
  rw [current?, hvoices, setVoice_eq hi, onStation]
  change ((f.put handle _).instance? n).bind _ = _
  rw [instance?_put]
  split <;> rfl

theorem setVoice_chosen {i : Instance} (hi : f.instance? handle = some i) {k : Nat}
    (hk : k < f.studio.world.voices.length)
    (hp : f.studio.world.Passes Platform.choiceCalls) :
    (f.setVoice handle k).1.current? handle = f.studio.world.voices[k]? := by
  have hok := Station.result_setVoice (s := ⟨f.studio.world, i.synthesizer⟩) hk hp
  rw [current?_setVoice hi, if_pos rfl, voiceChoice, if_pos (Int.natCast_nonneg k),
    Int.toNat_natCast, (Station.setVoice_of_ok hok).2.2]

theorem setVoice_refused {index : Int} (h : index < 0 ∨ f.studio.world.voices.length ≤ index ∨
    ¬ f.studio.world.Passes Platform.choiceCalls) (n : Nat) :
    (f.setVoice handle index).1.current? n = f.current? n := by
  cases hi : f.instance? handle with
  | none =>
    unfold setVoice
    rw [hi]
  | some i =>
    rw [current?_setVoice hi]
    split
    next hn =>
      cases hr : ((voiceChoice index).run ⟨f.studio.world, i.synthesizer⟩).result with
      | error e =>
        rw [keepsOnError_voiceChoice index _ e hr, hn, current?, hi, Option.bind_some]
      | ok _ =>
        obtain ⟨h0, hlt, hp⟩ := voiceChoice_of_ok hr
        rcases h with h | h | h
        · omega
        · dsimp only at hlt
          omega
        · exact absurd hp h
    next => rfl

/-- The same voices are installed as for another host, and the instance can choose among them. -/
structure Offers (f g : Flat) (n : Nat) : Prop where
  voices : g.studio.world.voices = f.studio.world.voices
  present : ∃ i, g.instance? n = some i
  passes : g.studio.world.Passes Platform.choiceCalls

/-- Without a bar in any entry, the position of an entry is that of its voice. -/
theorem Offers.chosen_at_entry {g : Flat} {n : Nat} (h : f.Offers g n)
    (hv : f.studio.world.voices ≠ [])
    (hu : ∀ v ∈ f.studio.world.voices, (Platform.voice v).Unbarred) {k : Nat} {e : List Char}
    (he : ((Voice.listing (f.studio.world.voices.map Platform.voice)).toList.splitOn '|')[k]? =
      some e) :
    ∃ v, f.studio.world.voices[k]? = some v ∧ (g.setVoice n k).1.current? n = some v ∧
      (Platform.voice v).entry.toList = e := by
  have hne := mt (@List.map_eq_nil_iff _ _ Platform.voice _).mp hv
  rw [Voice.splitOn_listing_of_unbarred hne (List.forall_mem_map.mpr hu), List.map_map,
    List.getElem?_map, Option.map_eq_some_iff] at he
  obtain ⟨v, hk, rfl⟩ := he
  obtain ⟨i, hi⟩ := h.present
  have hlt : k < g.studio.world.voices.length := by
    rw [h.voices]
    exact (List.getElem?_eq_some_iff.mp hk).1
  refine ⟨v, hk, ?_, rfl⟩
  rw [setVoice_chosen hi hlt h.passes, h.voices, hk]

/-- If all voices can be had, they are listed as a text as soon as there are any and no call for it
fails. There is one piece of the text for each voice, and each position of a piece chooses the voice
with that entry, exactly if no identifier and no name has a bar in it. What is no position leaves
every current voice as it is, and so does a choice that the platform refuses. -/
theorem positions_are_voices_iff {i : Instance} (hi : f.instance? handle = some i)
    (hw : .voicesGetAt ∉ f.studio.world.planned) :
    let installed := f.studio.world.voices
    let unbarred := ∀ v ∈ installed, (Platform.voice v).Unbarred
    (installed ≠ [] → f.studio.world.Spares Platform.listingCalls →
      ∃ s, (f.voices handle).2.2 = .sized (some s)) ∧
    ∀ s, (f.voices handle).2.2 = .sized (some s) →
      let entries := s.toList.splitOn '|'
      (entries.length = installed.length ↔ unbarred) ∧
      ((∀ g n, f.Offers g n → ∀ (k : Nat) e, entries[k]? = some e →
        ∃ v, installed[k]? = some v ∧ (g.setVoice n k).1.current? n = some v ∧
          (Platform.voice v).entry.toList = e) ↔ unbarred) ∧
      ∀ (g : Flat) n (index : Int), g.studio.world.voices = installed →
        index < 0 ∨ entries.length ≤ index ∨ ¬ g.studio.world.Passes Platform.choiceCalls →
        ∀ m, (g.setVoice n index).1.current? m = g.current? m := by
  dsimp only
  constructor
  · intro hv hp
    exact ⟨_, result_voices hi hv hp⟩
  intro s hs
  obtain ⟨hv, rfl⟩ := listing_of_voices hw hs
  have hne : f.studio.world.voices.map Platform.voice ≠ [] := mt List.map_eq_nil_iff.mp hv
  have hle := Voice.length_le_splitOn_listing hne
  have hlength := Voice.length_splitOn_listing_iff hne
  rw [List.length_map] at hle hlength
  rw [List.forall_mem_map] at hlength
  refine ⟨hlength, ⟨?_, ?_⟩, ?_⟩
  · intro hchosen
    have hoffers : f.Offers (f.plan fun p => { p with failures := [] }) handle :=
      ⟨rfl, ⟨i, hi⟩, ⟨rfl, rfl, rfl, rfl, trivial⟩⟩
    apply hlength.mp
    apply Nat.le_antisymm _ hle
    apply Nat.le_of_not_lt
    intro hlt
    obtain ⟨v, hk, _⟩ := hchosen _ _ hoffers _ _ (List.getElem?_eq_getElem hlt)
    rw [List.getElem?_eq_none (Nat.le_refl _)] at hk
    cases hk
  · intro hu g n hg k e he
    exact hg.chosen_at_entry hv hu he
  · intro g n index hg h
    apply setVoice_refused
    rw [hg]
    rcases h with h | h | h
    · exact .inl h
    · exact .inr (.inl (by omega))
    · exact .inr (.inr h)

/-- A host with an instance, whose platform has voices with these identifiers and names and fails
once to set a property. -/
def furnished (names : List (String × String)) : Flat :=
  let voices := names.map fun v =>
    ⟨Utf16.encode v.1.toList, Utf16.encode v.2.toList, Utf16.encode "en-US".toList⟩
  ⟨⟨⟨.manual, voices, [], [⟨.setVoicePropertyNum, 0x80004005, 0, 1⟩]⟩, []⟩,
    [(0, ⟨⟨0, true⟩, none⟩)]⟩

def colonized : Flat := furnished [("David", "Microsoft: David"), ("Hedda", "Microsoft Hedda")]

theorem colonized_chosen_by_position :
    colonized.instance? 0 = some ⟨⟨0, true⟩, none⟩ ∧
    .voicesGetAt ∉ colonized.studio.world.planned ∧
    ∃ s, (colonized.voices 0).2.2 = .sized (some s) ∧ (s.toList.splitOn '|').length = 2 ∧
      ∀ (k : Nat) e, (s.toList.splitOn '|')[k]? = some e →
        ∃ v, (colonized.setVoice 0 k).1.current? 0 = some v ∧
          (Platform.voice v).entry.toList = e := by
  have hi : colonized.instance? 0 = some ⟨⟨0, true⟩, none⟩ := rfl
  have hunbarred : ∀ v ∈ colonized.studio.world.voices, (Platform.voice v).Unbarred := by
    decide +kernel
  have hw : .voicesGetAt ∉ colonized.studio.world.planned := by decide
  obtain ⟨hlisted, hentries⟩ := positions_are_voices_iff hi hw
  obtain ⟨s, hs⟩ := hlisted (by decide) (by decide)
  obtain ⟨hlength, hchosen, _⟩ := hentries s hs
  refine ⟨hi, hw, s, hs, hlength.mpr hunbarred, ?_⟩
  intro k e he
  obtain ⟨v, _, hcurrent, hentry⟩ :=
    hchosen.mpr hunbarred colonized 0 ⟨rfl, ⟨_, hi⟩, ⟨rfl, rfl, rfl, rfl, trivial⟩⟩ k e he
  exact ⟨v, hcurrent, hentry⟩

def barred : Flat := furnished [("x", "y|a:b"), ("a", "b")]

/-- The last of three positions is no voice, and the choice of it leaves the first one. -/
theorem barred_position_chooses_none :
    (barred.voices 0).2.2 = .sized (some "x:y|a:b|a:b") ∧
      ("x:y|a:b|a:b".toList.splitOn '|').length = 3 ∧ barred.studio.world.voices.length = 2 ∧
      ("x:y|a:b|a:b".toList.splitOn '|')[2]? = some "a:b".toList ∧ barred.Offers barred 0 ∧
      ((barred.setVoice 0 2).1.current? 0).map (fun v => (Platform.voice v).entry) =
        some "x:y|a:b" := by
  refine ⟨by decide +kernel, by decide +kernel, rfl, by decide +kernel, ?_, by decide +kernel⟩
  exact ⟨rfl, ⟨_, rfl⟩, ⟨rfl, rfl, rfl, rfl, trivial⟩⟩

end Flat

end SpeechBridge
