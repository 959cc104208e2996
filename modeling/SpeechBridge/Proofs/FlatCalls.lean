import SpeechBridge.Platform.Flat
import SpeechBridge.Proofs.Correspondence
import SpeechBridge.Proofs.Courses

/-!
# Calls of the flat interface

What each call of the flat interface does to the utterances in progress and to the callbacks that
are registered, and which callbacks it makes. Main statements: only a call to speak starts an
utterance or makes a callback, and what is registered can be read off the calls.
-/
namespace SpeechBridge

abbrev FlatJob := Job Rendering (List UInt8) CallbackId

abbrev FlatCourse := Course Platform Rendering (List UInt8)

def FlatEvent.isCallback : FlatEvent → Bool
  | callback _ _ _ => true
  | _ => false

namespace Progress

variable {S : Type}

def parked : Progress Rendering (List UInt8) S → List (Job Rendering (List UInt8) S)
  | waiting job => [job]
  | ended _ _ => []

def callbacks : Progress Rendering (List UInt8) CallbackId → List FlatEvent
  | waiting _ => []
  | ended id fate => (Flat.showHappening (.ended id fate)).filter FlatEvent.isCallback

end Progress

namespace Flat

def registered (f : Flat) (handle : Nat) : Option (Option CallbackId) :=
  (f.instance? handle).map (·.callback)

theorem callbacks_platform (events : List PlatformEvent) :
    (events.map FlatEvent.platform).filter FlatEvent.isCallback = [] := by
  apply List.filter_eq_nil_iff.mpr
  intro e he
  obtain ⟨event, _, rfl⟩ := List.mem_map.mp he
  exact Bool.false_ne_true

theorem callbacks_engine (events : List PlatformEvent) :
    ((events.map Happening.engine).flatMap showHappening).filter FlatEvent.isCallback = [] := by
  rw [List.flatMap_map]
  apply List.filter_eq_nil_iff.mpr
  intro e he
  obtain ⟨event, _, he⟩ := List.mem_flatMap.mp he
  rw [List.mem_singleton.mp he]
  exact Bool.false_ne_true

theorem place_eq (s : FlatStudio) (w : Platform) (p : Progress Rendering (List UInt8) CallbackId) :
    (s.place w p : _ × List (Happening PlatformEvent CallbackId)).1 = ⟨w, s.parked ++ p.parked⟩ ∧
      ((s.place w p).2.flatMap showHappening).filter FlatEvent.isCallback = p.callbacks := by
  cases p with
  | waiting job => exact ⟨rfl, rfl⟩
  | ended id fate =>
    constructor
    · simp [Studio.place, Progress.parked]
    · simp only [Studio.place, List.flatMap_cons, List.flatMap_nil, List.append_nil]
      rfl

theorem complete_of_some {f : Flat} {index : Nat} {job : FlatJob}
    (h : f.studio.parked[index]? = some job) :
    (f.complete index).1.studio.parked = f.studio.parked.eraseIdx index ++
        (Pipeline.resume f.studio.world job).progress.parked ∧
      (f.complete index).1.instances = f.instances ∧
      (f.complete index).2.1.filter FlatEvent.isCallback =
        (Pipeline.resume f.studio.world job).progress.callbacks := by
  obtain ⟨hs, he⟩ := place_eq { f.studio with parked := f.studio.parked.eraseIdx index }
    (Pipeline.resume f.studio.world job).world (Pipeline.resume f.studio.world job).progress
  simp only [complete, Studio.complete, h, Studio.resume, hs, List.flatMap_append,
    List.filter_append, callbacks_engine, List.nil_append]
  exact ⟨trivial, trivial, he⟩

theorem complete_of_none {f : Flat} {index : Nat} (h : f.studio.parked[index]? = none) :
    f.complete index = (f, [], false) := by
  simp [complete, Studio.complete, h]

/-- A request that the platform accepts is answered with zero, and on its way. -/
theorem speak_of_accepted {f : Flat} {handle : Nat} {units : List UInt16} {id : CallbackId}
    {synthesis : Operation Rendering} (hr : f.registered handle = some (some id))
    (hs : ((Platform.synthesize (Utf16.untilZero units)).run f.studio.world).result =
      .ok synthesis) :
    ∃ progress, Course.Leads synthesis.reports
          (Course.submitted (Utf16.untilZero units) f.studio.world) id progress ∧
      (f.speak handle (some units)).1.studio.parked = f.studio.parked ++ progress.parked ∧
      (f.speak handle (some units)).1.instances = f.instances ∧
      (f.speak handle (some units)).2.1.filter FlatEvent.isCallback = progress.callbacks ∧
      (f.speak handle (some units)).2.2 = .status 0 := by
  obtain ⟨i, hi, hc⟩ := Option.map_eq_some_iff.mp hr
  obtain ⟨progress, hp, hl⟩ := Course.leads_submit id hs
  obtain ⟨hplace, he⟩ := place_eq f.studio
    ((Pipeline.submit (E := PlatformEvent) (Utf16.untilZero units) id).run f.studio.world).world
    progress
  refine ⟨progress, hl, ?_⟩
  simp only [speak, hi, hc, Studio.submit, hp, hplace, List.flatMap_append, List.filter_append,
    callbacks_engine, List.nil_append]
  exact ⟨trivial, trivial, he, trivial⟩

theorem speak_of_refused {f : Flat} {handle : Nat} {text : Option (List UInt16)}
    (h : ∀ id units synthesis, f.registered handle = some (some id) → text = some units →
      ((Platform.synthesize (Utf16.untilZero units)).run f.studio.world).result ≠
        .ok synthesis) :
    (f.speak handle text).1.studio.parked = f.studio.parked ∧
      (f.speak handle text).1.instances = f.instances ∧
      (f.speak handle text).2.1.filter FlatEvent.isCallback = [] ∧
      (f.speak handle text).2.2 = .status (-1) := by
  unfold speak
  split
  next i units hi =>
    cases hc : i.callback with
    | none => exact ⟨rfl, rfl, rfl, rfl⟩
    | some id =>
      have hr : f.registered handle = some (some id) := by rw [registered, hi, Option.map_some, hc]
      cases hs : ((Platform.synthesize (Utf16.untilZero units)).run f.studio.world).result with
      | ok synthesis => exact absurd hs (h id units synthesis hr rfl)
      | error e =>
        have hp := Pipeline.result_submit_of_error id hs
        simp only [Studio.submit, hp, List.filter_append, callbacks_engine, List.nil_append]
        exact ⟨trivial, trivial, rfl, trivial⟩
  next => exact ⟨rfl, rfl, rfl, rfl⟩

theorem instance?_without (f : Flat) (handle n : Nat) :
    (f.without handle).instance? n = if n = handle then none else f.instance? n :=
  Requests.lookup_filter_bne f.instances handle n

theorem instance?_put (f : Flat) (handle n : Nat) (i : Instance) :
    (f.put handle i).instance? n = if n = handle then some i else f.instance? n := by
  change ((handle, i) :: (f.without handle).instances).lookup n = _
  by_cases h : n = handle
  · subst h
    rw [if_pos rfl, List.lookup_cons_self]
  · rw [if_neg h, Requests.lookup_cons_of_ne h]
    exact (f.instance?_without handle n).trans (if_neg h)

theorem registered_put (f : Flat) (handle n : Nat) (i : Instance) :
    (f.put handle i).registered n = if n = handle then some i.callback else f.registered n := by
  rw [registered, instance?_put]
  split <;> rfl

theorem registered_of_instances {f f' : Flat} (h : f'.instances = f.instances) (n : Nat) :
    f'.registered n = f.registered n :=
  congrArg (fun instances => (instances.lookup n).map (·.callback)) h

/-- A call that is not about speech or about what is registered. -/
structure Quiet (f f' : Flat) (events : List FlatEvent) : Prop where
  parked : f'.studio.parked = f.studio.parked
  registered : ∀ n, f'.registered n = f.registered n
  callbacks : events.filter FlatEvent.isCallback = []

theorem Quiet.append {f f' : Flat} {events more : List FlatEvent} (h : Quiet f f' events)
    (hm : more.filter FlatEvent.isCallback = []) : Quiet f f' (events ++ more) := by
  refine ⟨h.parked, h.registered, ?_⟩
  rw [List.filter_append, h.callbacks, hm]
  rfl

theorem quiet_refl (f : Flat) : Quiet f f [] := ⟨rfl, fun _ => rfl, rfl⟩

theorem quiet_onPlatform {α : Type} {f f' : Flat} {call : Platform.Call α}
    {events : List FlatEvent} {result : Except Error α}
    (h : f.onPlatform call = (f', events, result)) : Quiet f f' events := by
  obtain ⟨rfl, he⟩ := Prod.mk.inj h
  obtain ⟨rfl, _⟩ := Prod.mk.inj he
  exact ⟨rfl, fun _ => rfl, callbacks_platform _⟩

theorem quiet_onStation {α : Type} {f f' : Flat} {handle : Nat} {i : Instance}
    (hi : f.instance? handle = some i) {call : Station.Call α} {events : List FlatEvent}
    {result : Except Error α} (h : f.onStation handle i call = (f', events, result)) :
    Quiet f f' events := by
  obtain ⟨rfl, he⟩ := Prod.mk.inj h
  obtain ⟨rfl, _⟩ := Prod.mk.inj he
  refine ⟨rfl, ?_, callbacks_platform _⟩
  intro n
  refine (registered_put f handle n _).trans ?_
  split
  next hn => rw [hn, registered, hi, Option.map_some]
  next => rfl

theorem quiet_allocateListing (f : Flat) (voices : List Voice) :
    Quiet f (f.allocateListing voices).1 (f.allocateListing voices).2.1 := by
  unfold allocateListing
  split
  next h => exact quiet_onPlatform h
  next h => exact (quiet_onPlatform h).append rfl

theorem quiet_voices (f : Flat) (handle : Nat) :
    Quiet f (f.voices handle).1 (f.voices handle).2.1 := by
  unfold voices
  split
  · exact quiet_refl f
  · split
    next h => exact (quiet_onPlatform h).append rfl
    next h => exact (quiet_onPlatform h).append rfl
    next f' events v vs h =>
      have hl := f'.quiet_allocateListing (v :: vs)
      have hf := (quiet_onPlatform h).append hl.callbacks
      refine ⟨hl.parked.trans hf.parked, ?_, hf.callbacks⟩
      intro n
      exact (hl.registered n).trans (hf.registered n)

theorem quiet_currentVoice (f : Flat) (handle : Nat) (part : Voice → String) :
    Quiet f (f.currentVoice handle part).1 (f.currentVoice handle part).2.1 := by
  unfold currentVoice
  split
  · exact quiet_refl f
  next i hi =>
    split
    next h => exact quiet_onStation hi h
    next h => exact (quiet_onStation hi h).append rfl

theorem quiet_setVoice (f : Flat) (handle : Nat) (index : Int) :
    Quiet f (f.setVoice handle index).1 (f.setVoice handle index).2.1 := by
  unfold setVoice
  split
  · exact quiet_refl f
  next i hi =>
    split
    next h => exact quiet_onStation hi h
    next h => exact (quiet_onStation hi h).append rfl

theorem quiet_setProperty (f : Flat) (handle : Nat) (name : Option (List UInt16)) (value : Int) :
    Quiet f (f.setProperty handle name value).1 (f.setProperty handle name value).2.1 := by
  unfold setProperty
  split
  next i units hi => exact quiet_onStation hi rfl
  next => exact quiet_refl f

end Flat

/-- A call of the host with its result. -/
structure Dealing where
  handle : Nat
  call : FlatCall
  result : FlatResult
  deriving DecidableEq, Repr

namespace Dealing

/-- What a dealing makes of the callback that is registered on its instance, if there is one. -/
def registers (d : Dealing) (registered : Option (Option CallbackId)) :
    Option (Option CallbackId) :=
  match d.call, d.result with
  | .create, .created true => some none
  | .terminate, _ => none
  | .setCallback callback, _ => registered.map fun _ => callback
  | _, _ => registered

def isSpeak (d : Dealing) : Bool :=
  match d.call with
  | .speak _ => true
  | _ => false

end Dealing

/-- The callback that a handle has after dealings: none for a handle without an instance. -/
def registration (dealings : List Dealing) (handle : Nat) : Option (Option CallbackId) :=
  dealings.foldl (fun registered d => if d.handle = handle then d.registers registered
    else registered) none

theorem registration_concat (dealings : List Dealing) (d : Dealing) (handle : Nat) :
    registration (dealings ++ [d]) handle =
      if d.handle = handle then d.registers (registration dealings handle)
      else registration dealings handle := by
  rw [registration, List.foldl_append]
  rfl

namespace Flat

/-- What a call that is not to speak does. -/
structure Deals (f f' : Flat) (d : Dealing) (events : List FlatEvent) : Prop where
  parked : f'.studio.parked = f.studio.parked
  registered : ∀ n, f'.registered n =
    if d.handle = n then d.registers (f.registered n) else f.registered n
  callbacks : events.filter FlatEvent.isCallback = []

theorem Quiet.deals {f f' : Flat} {events : List FlatEvent} (h : Quiet f f' events) {d : Dealing}
    (hd : ∀ registered, d.registers registered = registered) : Deals f f' d events := by
  refine ⟨h.parked, ?_, h.callbacks⟩
  intro n
  rw [h.registered, hd, ite_self]

theorem deals_of_none {f : Flat} {d : Dealing} (h : f.instance? d.handle = none)
    (hd : d.registers none = none) : Deals f f d [] := by
  refine ⟨rfl, ?_, rfl⟩
  intro n
  split
  next hn => rw [← hn, registered, h, Option.map_none, hd]
  next => rfl

theorem deals_of_registered {f f' : Flat} {d : Dealing} {events : List FlatEvent}
    {registered : Option (Option CallbackId)} (hp : f'.studio.parked = f.studio.parked)
    (hr : ∀ n, f'.registered n = if n = d.handle then registered else f.registered n)
    (hd : d.registers (f.registered d.handle) = registered)
    (hc : events.filter FlatEvent.isCallback = []) : Deals f f' d events := by
  refine ⟨hp, ?_, hc⟩
  intro n
  rw [hr]
  by_cases hn : n = d.handle
  · subst hn
    rw [if_pos rfl, if_pos rfl, hd]
  · rw [if_neg hn, if_neg (Ne.symm hn)]

theorem deals_create (f : Flat) (handle : Nat) :
    Deals f (f.create handle).1 ⟨handle, .create, (f.create handle).2.2⟩
      (f.create handle).2.1 := by
  unfold create
  split
  next h => exact ((quiet_onPlatform h).append rfl).deals fun _ => rfl
  next f' events synthesizer h =>
    have hq := quiet_onPlatform h
    refine deals_of_registered hq.parked ?_ rfl (hq.append ?_).callbacks
    · intro n
      rw [registered_put, hq.registered]
      rfl
    · cases f.instance? handle <;> rfl

theorem deals_terminate (f : Flat) (handle : Nat) :
    Deals f (f.terminate handle).1 ⟨handle, .terminate, (f.terminate handle).2.2⟩
      (f.terminate handle).2.1 := by
  unfold terminate
  cases hi : f.instance? handle with
  | none => exact deals_of_none hi rfl
  | some i =>
    refine deals_of_registered rfl ?_ rfl rfl
    intro n
    rw [registered, instance?_without]
    split <;> rfl

theorem deals_setCallback (f : Flat) (handle : Nat) (callback : Option CallbackId) :
    Deals f (f.setCallback handle callback) ⟨handle, .setCallback callback, .none⟩ [] := by
  unfold setCallback
  cases hi : f.instance? handle with
  | none => exact deals_of_none hi rfl
  | some i =>
    refine deals_of_registered rfl (fun n => f.registered_put handle n _) ?_ rfl
    rw [registered, hi]
    rfl

theorem deals_perform (f : Flat) (handle : Nat) {c : FlatCall} (hc : ∀ text, c ≠ .speak text) :
    Deals f (f.perform handle c).1 ⟨handle, c, (f.perform handle c).2.2⟩
      (f.perform handle c).2.1 := by
  cases c with
  | create => exact f.deals_create handle
  | terminate => exact f.deals_terminate handle
  | setCallback callback => exact f.deals_setCallback handle callback
  | speak text => exact absurd rfl (hc text)
  | voices => exact (f.quiet_voices handle).deals fun _ => rfl
  | currentVoiceId => exact (f.quiet_currentVoice handle _).deals fun _ => rfl
  | currentVoiceLanguage => exact (f.quiet_currentVoice handle _).deals fun _ => rfl
  | setVoice index => exact (f.quiet_setVoice handle index).deals fun _ => rfl
  | setProperty name value => exact (f.quiet_setProperty handle name value).deals fun _ => rfl

end Flat

end SpeechBridge
