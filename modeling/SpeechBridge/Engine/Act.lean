import SpeechBridge.Error

/-!
# Calls into an engine

A call may change the engine, shows events in order, and returns a value or fails. What was
changed and shown before a failure stays.
-/
namespace SpeechBridge

structure Reply (W E α : Type) where
  world : W
  events : List E
  result : Except Error α

def Act (W E α : Type) := W → Reply W E α

namespace Act

variable {W E α β : Type}

def run (act : Act W E α) (w : W) : Reply W E α := act w

instance : Monad (Act W E) where
  pure a := fun w => ⟨w, [], .ok a⟩
  bind act next := fun w =>
    let first := act w
    match first.result with
    | .error e => ⟨first.world, first.events, .error e⟩
    | .ok a =>
      let second := next a first.world
      ⟨second.world, first.events ++ second.events, second.result⟩

def fail (e : Error) : Act W E α := fun w => ⟨w, [], .error e⟩

def ofExcept (r : Except Error α) : Act W E α := fun w => ⟨w, [], r⟩

def get : Act W E W := fun w => ⟨w, [], .ok w⟩

def set (w : W) : Act W E Unit := fun _ => ⟨w, [], .ok ()⟩

def modify (f : W → W) : Act W E Unit := fun w => ⟨f w, [], .ok ()⟩

def note (e : E) : Act W E Unit := fun w => ⟨w, [e], .ok ()⟩

/-- Shows an event about a failure, which stays. -/
def onError (act : Act W E α) (report : Error → E) : Act W E α := fun w =>
  let r := act w
  match r.result with
  | .ok _ => r
  | .error e => ⟨r.world, r.events ++ [report e], .error e⟩

def within {V : Type} (part : V → W) (put : W → V → V) (act : Act W E α) : Act V E α := fun v =>
  let r := act (part v)
  ⟨put r.world v, r.events, r.result⟩

theorem result_bind_eq_ok {act : Act W E α} {next : α → Act W E β} {w : W} {b : β} :
    ((act >>= next).run w).result = .ok b ↔
      ∃ a, (act.run w).result = .ok a ∧ ((next a).run (act.run w).world).result = .ok b := by
  simp only [run, Bind.bind]
  split
  next h => simp [h]
  next a h => simp [h]

theorem world_bind_of_ok {act : Act W E α} {next : α → Act W E β} {w : W} {a : α}
    (h : (act.run w).result = .ok a) :
    ((act >>= next).run w).world = ((next a).run (act.run w).world).world := by
  simp only [run, Bind.bind] at h ⊢
  rw [h]

theorem world_bind_of_error {act : Act W E α} {next : α → Act W E β} {w : W} {e : Error}
    (h : (act.run w).result = .error e) : ((act >>= next).run w).world = (act.run w).world := by
  simp only [run, Bind.bind] at h ⊢
  rw [h]

variable {γ : Type}

/-- The call does not change what is seen of the world. -/
def Keeps (see : W → γ) (act : Act W E α) : Prop := ∀ w, see (act.run w).world = see w

theorem keeps_pure (see : W → γ) (a : α) : Keeps see (pure a : Act W E α) := fun _ => rfl

theorem keeps_fail (see : W → γ) (e : Error) : Keeps see (fail e : Act W E α) := fun _ => rfl

theorem keeps_ofExcept (see : W → γ) (r : Except Error α) :
    Keeps see (ofExcept r : Act W E α) := fun _ => rfl

theorem keeps_get (see : W → γ) : Keeps see (get : Act W E W) := fun _ => rfl

theorem keeps_note (see : W → γ) (e : E) : Keeps see (note e : Act W E Unit) := fun _ => rfl

theorem keeps_modify {see : W → γ} {f : W → W} (h : ∀ w, see (f w) = see w) :
    Keeps see (modify f : Act W E Unit) := h

theorem Keeps.bind {see : W → γ} {act : Act W E α} {next : α → Act W E β} (h : Keeps see act)
    (k : ∀ a, Keeps see (next a)) : Keeps see (act >>= next) := by
  intro w
  have hw := h w
  simp only [run, Bind.bind] at hw ⊢
  split
  · exact hw
  next a _ => exact (k a _).trans hw

end Act

end SpeechBridge
