import SpeechBridge.Proofs.Correspondence

/-!
# Requests that agree

Two states of the requests agree apart from one future if they differ at most in what they keep of
it. Main statement: what is done with other futures, with jobs or with the engine keeps them in
agreement and gives the same answers.
-/
namespace SpeechBridge.Requests

variable {W E Stream Audio : Type}

structure Agree (id : Nat) (r s : Requests W Stream Audio) : Prop where
  studio : s.studio = r.studio
  replies : s.replies = r.replies
  nextTicket : s.nextTicket = r.nextTicket
  requests : ∀ n ≠ id, s.requests.lookup n = r.requests.lookup n

namespace Agree

variable {id : Nat} {r s t : Requests W Stream Audio}

theorem refl (id : Nat) (r : Requests W Stream Audio) : Agree id r r :=
  ⟨rfl, rfl, rfl, fun _ _ => rfl⟩

theorem symm (h : Agree id r s) : Agree id s r :=
  ⟨h.studio.symm, h.replies.symm, h.nextTicket.symm, fun n hn => (h.requests n hn).symm⟩

theorem trans (h : Agree id r s) (k : Agree id s t) : Agree id r t :=
  ⟨k.studio.trans h.studio, k.replies.trans h.replies, k.nextTicket.trans h.nextTicket,
    fun n hn => (k.requests n hn).trans (h.requests n hn)⟩

theorem of_forget (id : Nat) (r : Requests W Stream Audio) : Agree id r (r.forget id) :=
  ⟨rfl, rfl, rfl, fun _ hn => (lookup_forget _ _ _).trans (if_neg hn)⟩

theorem of_settle (id ticket : Nat) (r : Requests W Stream Audio) :
    Agree id r (r.settle id ticket).1 := by
  obtain ⟨hs, hr, ht⟩ := r.settle_kept id ticket
  refine ⟨hs, hr, ht, fun n hn => ?_⟩
  rw [lookup_settle, if_neg hn]

theorem of_poll [Renderer W E Stream Audio] (r : Requests W Stream Audio)
    (hid : ∀ document, r.requests.lookup id ≠ some (.fresh document)) :
    Agree id r (r.poll (E := E) id).1 := by
  cases hr : r.requests.lookup id with
  | none =>
    rw [poll_of_none hr]
    exact refl id r
  | some request =>
    cases request with
    | fresh document => exact absurd hr (hid document)
    | submitted ticket =>
      rw [poll_of_submitted hr]
      exact of_settle id ticket r

theorem forget (h : Agree id r s) (n : Nat) : Agree id (r.forget n) (s.forget n) := by
  refine ⟨h.studio, h.replies, h.nextTicket, fun m hm => ?_⟩
  rw [lookup_forget, lookup_forget, h.requests m hm]

theorem store (h : Agree id r s) (n : Nat) (request : Request) :
    Agree id (r.store n request) (s.store n request) := by
  refine ⟨h.studio, h.replies, h.nextTicket, fun m hm => ?_⟩
  rw [lookup_store, lookup_store, h.requests m hm]

theorem after {α : Type} (h : Agree id r s) (m : Moved W E Stream Audio Nat α) :
    Agree id (r.after m) (s.after m) := by
  refine ⟨rfl, ?_, h.nextTicket, h.requests⟩
  rw [Requests.after, Requests.after, h.replies]

theorem settle (h : Agree id r s) (n ticket : Nat) :
    Agree id (r.settle n ticket).1 (s.settle n ticket).1 ∧
      (s.settle n ticket).2 = (r.settle n ticket).2 := by
  rw [Requests.settle, Requests.settle, h.replies]
  split
  · exact ⟨h.forget n, rfl⟩
  · exact ⟨h.store n _, rfl⟩

theorem act (h : Agree id r s) (call : Act W E Value) :
    Agree id (r.act call).1 (s.act call).1 := by
  rw [Requests.act, Requests.act, h.studio]
  exact ⟨rfl, h.replies, h.nextTicket, h.requests⟩

variable [Renderer W E Stream Audio] {a : Answers Stream Audio}

theorem submitted (h : Agree id r s) (document : String) :
    Agree id (r.submitted (E := E) document) (s.submitted (E := E) document) := by
  have ha := h.after (r.studio.submit (E := E) document r.nextTicket)
  rw [Requests.submitted, Requests.submitted, h.studio, h.nextTicket]
  exact ⟨ha.studio, ha.replies, rfl, ha.requests⟩

/-- Another future gives the same answer, and is left in the same state. -/
theorem poll (ha : Renderer.Steady W a) (h : Agree id r s) {n : Nat} (hn : n ≠ id) :
    Agree id (r.poll (E := E) n).1 (s.poll (E := E) n).1 ∧
      (s.poll (E := E) n).2.2 = (r.poll (E := E) n).2.2 := by
  have hs := h.requests n hn
  rcases r.poll_cases (E := E) ha n with ⟨hr, hp⟩ | ⟨ticket, hr, hp⟩ |
    ⟨document, e, hr, ho, hp⟩ | ⟨document, synthesis, hr, ho, hp⟩
  · rw [hp, poll_of_none (hs.trans hr)]
    exact ⟨h, rfl⟩
  · rw [hp, poll_of_submitted (hs.trans hr)]
    exact h.settle n ticket
  · rw [hp, poll_of_rejected (hs.trans hr) (h.studio ▸ ho)]
    exact ⟨(h.submitted document).forget n, rfl⟩
  · rw [hp, poll_of_accepted ha (hs.trans hr) (h.studio ▸ ho), h.nextTicket]
    exact (h.submitted document).settle n r.nextTicket

theorem complete (h : Agree id r s) (index : Nat) :
    Agree id (r.complete (E := E) index).1 (s.complete (E := E) index).1 := by
  rw [Requests.complete, Requests.complete, h.studio]
  exact h.after _

theorem finish (h : Agree id r s) (index : Nat) (job : Job Stream Audio Nat) :
    Agree id (r.finish (E := E) index job).1 (s.finish (E := E) index job).1 := by
  rw [Requests.finish, Requests.finish, h.studio]
  exact h.after _

end Agree

end SpeechBridge.Requests
