import SpeechBridge.Driver.State
import SpeechBridge.Engine.Scripted
import SpeechBridge.Proofs.Fates
import SpeechBridge.Proofs.Submission

/-!
# Choosing a voice by its identifier

A driver lists the voices of its engine, looks for an identifier and chooses by the position at
which it has found it, and each of these may fail. Main statement: the first voice with the
identifier becomes the current one, or the call fails and the current voice stays, whichever of the
voices are shown as usable.
-/
namespace SpeechBridge

namespace Act

variable {W E α β γ : Type}

/-- If the call fails, it has not changed what is seen of the world. -/
def KeepsOnError (see : W → γ) (act : Act W E α) : Prop :=
  ∀ w e, (act.run w).result = .error e → see (act.run w).world = see w

theorem Keeps.keepsOnError {see : W → γ} {act : Act W E α} (h : Keeps see act) :
    KeepsOnError see act :=
  fun w _ _ => h w

theorem Keeps.bind_keepsOnError {see : W → γ} {act : Act W E α} {next : α → Act W E β}
    (h : Keeps see act) (k : ∀ a, KeepsOnError see (next a)) : KeepsOnError see (act >>= next) := by
  intro w e he
  cases ha : (act.run w).result with
  | error e' =>
    rw [world_bind_of_error ha]
    exact h w
  | ok a =>
    rw [result_bind, ha] at he
    rw [world_bind_of_ok ha, k a _ e he]
    exact h w

end Act

/-- The voices of an engine in their order, and the position of the current one. -/
structure Roster where
  voices : List Voice
  current : Nat
  deriving DecidableEq

namespace Roster

def voice? (r : Roster) : Option Voice := r.voices[r.current]?

/-- The voice stands at the position, and no voice before it has the same identifier. -/
structure First (r : Roster) (id : String) (k : Nat) (v : Voice) : Prop where
  voice : r.voices[k]? = some v
  named : v.id = id
  earlier : ∀ j u, j < k → r.voices[j]? = some u → u.id ≠ id

theorem First.findIdx? {r : Roster} {id : String} {k : Nat} {v : Voice} (h : r.First id k v) :
    r.voices.findIdx? (·.id == id) = some k := by
  obtain ⟨hk, hv⟩ := List.getElem?_eq_some_iff.mp h.voice
  rw [List.findIdx?_eq_some_iff_getElem]
  refine ⟨hk, ?_, ?_⟩
  · rw [hv, h.named]
    exact beq_self_eq_true id
  · intro j hj
    have hne := h.earlier j _ hj (List.getElem?_eq_getElem (Nat.lt_trans hj hk))
    simpa using hne

theorem first_of_findIdx? {r : Roster} {id : String} {k : Nat}
    (h : r.voices.findIdx? (·.id == id) = some k) : ∃ v, r.First id k v := by
  obtain ⟨hk, hv, hj⟩ := List.findIdx?_eq_some_iff_getElem.mp h
  refine ⟨r.voices[k], List.getElem?_eq_getElem hk, eq_of_beq hv, ?_⟩
  intro j u hlt hu
  obtain ⟨_, rfl⟩ := List.getElem?_eq_some_iff.mp hu
  simpa using hj j hlt

theorem findIdx?_eq_none {r : Roster} {id : String} (h : ∀ v ∈ r.voices, v.id ≠ id) :
    r.voices.findIdx? (·.id == id) = none := by
  rw [List.findIdx?_eq_none_iff]
  intro v hv
  exact beq_eq_false_iff_ne.mpr (h v hv)

theorem exists_first {r : Roster} {id : String} {v : Voice} (hm : v ∈ r.voices) (hv : v.id = id) :
    ∃ k u, r.First id k u := by
  cases hf : r.voices.findIdx? (·.id == id) with
  | none =>
    have hne := List.findIdx?_eq_none_iff.mp hf v hm
    exact absurd hv (beq_eq_false_iff_ne.mp hne)
  | some k => exact ⟨k, first_of_findIdx? hf⟩

end Roster

/-- What is seen of an engine is its roster. Each call does what it is for or fails. A choice that
succeeds changes the current voice, and neither a listing nor a choice that fails changes
anything. -/
structure VoiceControl.Follows (W : Type) {E : Type} [VoiceControl W E] (see : W → Roster) :
    Prop where
  listing : Act.Keeps see (VoiceControl.voices : Act W E (List Voice))
  listed : ∀ w vs, ((VoiceControl.voices : Act W E (List Voice)).run w).result = .ok vs →
    vs = (see w).voices
  current : ∀ w v, ((VoiceControl.currentVoice : Act W E Voice).run w).result = .ok v →
    (see w).voice? = some v
  chosen : ∀ w i, ((VoiceControl.setVoice i : Act W E Unit).run w).result = .ok () →
    see ((VoiceControl.setVoice i : Act W E Unit).run w).world = { see w with current := i }
  refused : ∀ i, Act.KeepsOnError see (VoiceControl.setVoice i : Act W E Unit)

namespace Driver

variable {W E : Type} [VoiceControl W E]

def choose (id : String) (vs : List Voice) : Act W E Unit :=
  match vs.findIdx? (·.id == id) with
  | some index => VoiceControl.setVoice index
  | none => Act.fail (.noSuchVoice id)

theorem setVoice_eq (id : String) :
    (setVoice id : Act W E Unit) = VoiceControl.voices >>= choose id := rfl

variable {see : W → Roster} (h : VoiceControl.Follows W see) (w : W) (id : String)
include h

theorem result_setVoice :
    ((setVoice id : Act W E Unit).run w).result =
      ((VoiceControl.voices : Act W E (List Voice)).run w).result.bind fun _ =>
        ((choose id (see w).voices : Act W E Unit).run
          ((VoiceControl.voices : Act W E (List Voice)).run w).world).result := by
  rw [setVoice_eq, Act.result_bind]
  cases hr : ((VoiceControl.voices : Act W E (List Voice)).run w).result with
  | error e => rfl
  | ok vs =>
    rw [h.listed w vs hr]
    rfl

theorem keepsOnError_setVoice : Act.KeepsOnError see (setVoice id : Act W E Unit) := by
  rw [setVoice_eq]
  apply h.listing.bind_keepsOnError
  intro vs
  unfold choose
  split
  · exact h.refused _
  · exact (Act.keeps_fail _ _).keepsOnError

theorem roster_of_setVoice (hok : ((setVoice id : Act W E Unit).run w).result = .ok ()) :
    ∃ k v, (see w).First id k v ∧
      see ((setVoice id : Act W E Unit).run w).world = { see w with current := k } := by
  rw [setVoice_eq] at hok ⊢
  obtain ⟨vs, hl, hc⟩ := Act.result_bind_eq_ok.mp hok
  rw [Act.world_bind_of_ok hl]
  obtain rfl := h.listed w vs hl
  unfold choose at hc ⊢
  split at hc
  next k hk =>
    obtain ⟨v, hv⟩ := Roster.first_of_findIdx? hk
    refine ⟨k, v, hv, ?_⟩
    rw [h.chosen _ k hc, h.listing w]
  next => cases hc

theorem result_current {v : Voice} (hv : (see w).voice? = some v) :
    ((voiceId : Act W E String).run w).result =
        ((VoiceControl.currentVoice : Act W E Voice).run w).result.map (fun _ => v.id) ∧
      ((language : Act W E String).run w).result =
        ((VoiceControl.currentVoice : Act W E Voice).run w).result.map fun _ => v.language := by
  rw [voiceId, language, Act.result_bind, Act.result_bind]
  cases hr : ((VoiceControl.currentVoice : Act W E Voice).run w).result with
  | error e => exact ⟨rfl, rfl⟩
  | ok u =>
    obtain rfl := Option.some.inj (hv.symm.trans (h.current w u hr))
    exact ⟨rfl, rfl⟩

theorem result_voices (c : DriverConfig) (onlyValid : Bool) :
    ((voices c onlyValid : Act W E (List Voice)).run w).result =
      ((VoiceControl.voices : Act W E (List Voice)).run w).result.map fun _ =>
        if onlyValid then (see w).voices.filter fun v => c.filter v.id else (see w).voices := by
  rw [voices, Act.result_bind]
  cases hr : ((VoiceControl.voices : Act W E (List Voice)).run w).result with
  | error e => rfl
  | ok vs =>
    obtain rfl := h.listed w vs hr
    cases onlyValid with
    | true => rfl
    | false => simp [pure, Act.run, bind, Except.bind, Except.map]

theorem keeps_voices (c : DriverConfig) (onlyValid : Bool) :
    Act.Keeps see (voices c onlyValid : Act W E (List Voice)) :=
  h.listing.bind fun _ => Act.keeps_pure _ _

/-- Choosing an identifier makes the first voice with it the current one, which is then told by its
identifier and its language, if the engine grants that; if no voice has it, the identifier is
refused. Where the engine fails to list its voices, to choose, or to tell the current one, its error
is passed on. No error changes the current voice. The voices shown are all of them in their order,
or those that can be used, and an identifier that is shown can be chosen. -/
theorem chosen_by_id (c : DriverConfig) :
    let listing := (VoiceControl.voices : Act W E (List Voice)).run w
    let choice := (setVoice id : Act W E Unit).run w
    let current := (VoiceControl.currentVoice : Act W E Voice).run choice.world
    (∀ k v, (see w).First id k v → choice.result = listing.result.bind fun _ =>
      ((VoiceControl.setVoice k : Act W E Unit).run listing.world).result) ∧
    ((∀ v ∈ (see w).voices, v.id ≠ id) →
      choice.result = listing.result.bind fun _ => .error (.noSuchVoice id)) ∧
    (choice.result = .ok () → ∃ k v, (see w).First id k v ∧
      see choice.world = { see w with current := k } ∧ (see choice.world).voice? = some v ∧
      ((voiceId : Act W E String).run choice.world).result = current.result.map (fun _ => id) ∧
      ((language : Act W E String).run choice.world).result =
        current.result.map fun _ => v.language) ∧
    (∀ e, choice.result = .error e → see choice.world = see w) ∧
    ∀ u onlyValid, see u = see w →
      let shown := (voices c onlyValid : Act W E (List Voice)).run u
      shown.result = ((VoiceControl.voices : Act W E (List Voice)).run u).result.map (fun _ =>
        if onlyValid then (see w).voices.filter fun v => c.filter v.id else (see w).voices) ∧
      see shown.world = see w ∧
      ∀ vs, shown.result = .ok vs → (∃ v ∈ vs, v.id = id) → ∃ k v, (see w).First id k v := by
  dsimp only
  refine ⟨?_, ?_, ?_, ?_, ?_⟩
  · intro k v hv
    rw [result_setVoice h, choose, hv.findIdx?]
  · intro hne
    rw [result_setVoice h, choose, Roster.findIdx?_eq_none hne]
    rfl
  · intro hok
    obtain ⟨k, v, hv, hs⟩ := roster_of_setVoice h w id hok
    have hcurrent : (see ((setVoice id : Act W E Unit).run w).world).voice? = some v := by
      rw [hs]
      exact hv.voice
    obtain ⟨hid, hlanguage⟩ := result_current h _ hcurrent
    rw [hv.named] at hid
    exact ⟨k, v, hv, hs, hcurrent, hid, hlanguage⟩
  · exact keepsOnError_setVoice h id w
  · intro u onlyValid hu
    have hshown := result_voices h u c onlyValid
    rw [hu] at hshown
    refine ⟨hshown, (keeps_voices h c onlyValid u).trans hu, ?_⟩
    rintro vs hvs ⟨v, hm, hv⟩
    apply Roster.exists_first _ hv
    rw [hshown] at hvs
    cases hl : ((VoiceControl.voices : Act W E (List Voice)).run u).result with
    | error e =>
      rw [hl] at hvs
      cases hvs
    | ok _ =>
      rw [hl] at hvs
      obtain rfl := Except.ok.inj hvs
      cases onlyValid with
      | true => exact (List.mem_filter.mp hm).1
      | false => exact hm

end Driver

namespace ScriptedEngine

def roster (s : ScriptedEngine) : Roster := ⟨s.voices, s.current⟩

theorem keeps_roster_pass (call : VoiceCall) : Act.Keeps roster (pass call) := fun _ => rfl

theorem follows : VoiceControl.Follows ScriptedEngine roster where
  listing := (keeps_roster_pass _).bind fun _ => (Act.keeps_get _).bind fun _ => Act.keeps_pure _ _
  listed s vs hr := by
    obtain ⟨_, hp, hr⟩ := Act.result_bind_eq_ok.mp hr
    exact (Except.ok.inj hr).symm
  current s v hr := by
    obtain ⟨_, _, hr⟩ := Act.result_bind_eq_ok.mp hr
    obtain ⟨t, ht, hr⟩ := Act.result_bind_eq_ok.mp hr
    cases ht
    split at hr
    next hv =>
      cases hr
      exact hv
    next => cases hr
  chosen s i hr := by
    obtain ⟨_, hp, hr⟩ := Act.result_bind_eq_ok.mp hr
    obtain ⟨t, ht, hr⟩ := Act.result_bind_eq_ok.mp hr
    change ((setVoice i).run s).world.roster = _
    rw [setVoice, Act.world_bind_of_ok hp, Act.world_bind_of_ok ht]
    dsimp only at hr ⊢
    split at hr
    next hi =>
      rw [if_pos hi]
      cases ht
      rfl
    next => cases hr
  refused i := by
    apply (keeps_roster_pass _).bind_keepsOnError
    intro _
    apply (Act.keeps_get _).bind_keepsOnError
    intro s
    split
    · intro t e he
      cases he
    · exact (Act.keeps_fail _ _).keepsOnError

end ScriptedEngine

namespace Driver

def trio : ScriptedEngine :=
  ⟨.manual, [], [⟨.setProperty, 1, .engine "set_property"⟩],
    [⟨"Anna", "Anna", "en-US"⟩, ⟨"Bert", "Bert", "de-DE"⟩, ⟨"Bert", "Bert II", "fr-FR"⟩], 0⟩

def withoutAnna : DriverConfig := ⟨.standard, 44, (· != "Anna")⟩

theorem first_shown_chosen_by_id :
    VoiceControl.Follows ScriptedEngine ScriptedEngine.roster ∧
    ((voices withoutAnna true : Act ScriptedEngine _ _).run trio).result =
      .ok [⟨"Bert", "Bert", "de-DE"⟩, ⟨"Bert", "Bert II", "fr-FR"⟩] ∧
    ((setVoice "Bert" : Act ScriptedEngine _ _).run trio).result = .ok () ∧
    ∃ k v, trio.roster.First "Bert" k v ∧
      ((setVoice "Bert" : Act ScriptedEngine _ _).run trio).world.roster = ⟨trio.voices, k⟩ ∧
      ((voiceId : Act ScriptedEngine _ _).run
        ((setVoice "Bert" : Act ScriptedEngine _ _).run trio).world).result = .ok "Bert" ∧
      ((language : Act ScriptedEngine _ _).run
        ((setVoice "Bert" : Act ScriptedEngine _ _).run trio).world).result = .ok v.language := by
  have hok : ((setVoice "Bert" : Act ScriptedEngine _ _).run trio).result = .ok () := rfl
  obtain ⟨_, _, hchosen, _, _⟩ := chosen_by_id ScriptedEngine.follows trio "Bert" withoutAnna
  obtain ⟨k, v, hv, hs, _, hid, hlanguage⟩ := hchosen hok
  exact ⟨ScriptedEngine.follows, rfl, hok, k, v, hv, hs, hid, hlanguage⟩

def distracted : ScriptedEngine :=
  ⟨.manual, [], [⟨.voices, 1, .engine "voices"⟩, ⟨.currentVoice, 1, .engine "current_voice"⟩],
    [⟨"David", "Microsoft David", "en-US"⟩, ⟨"Hedda", "Microsoft Hedda", "de-DE"⟩], 0⟩

/-- An identifier that no voice has meets with the error of the listing, and a voice that has been
chosen with that of the engine. -/
theorem engine_errors_passed_on :
    let asked := (setVoice "nobody" : Act ScriptedEngine _ _).run distracted
    let chosen := (setVoice "Hedda" : Act ScriptedEngine _ _).run asked.world
    VoiceControl.Follows ScriptedEngine ScriptedEngine.roster ∧
    (∀ v ∈ distracted.voices, v.id ≠ "nobody") ∧
    asked.result = .error (.engine "voices") ∧
    chosen.result = .ok () ∧ chosen.world.roster = ⟨distracted.voices, 1⟩ ∧
    ((voiceId : Act ScriptedEngine _ _).run chosen.world).result =
      .error (.engine "current_voice") := by
  refine ⟨ScriptedEngine.follows, ?_, rfl, rfl, rfl, rfl⟩
  decide

end Driver

end SpeechBridge
