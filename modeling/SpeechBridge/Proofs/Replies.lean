import SpeechBridge.Proofs.Agreement

/-!
# Futures and their own answers

A future is open from its creation until it resolves or is dropped. Main statement: it is submitted
at its first poll and not again, and resolves to what belongs to its own document, whatever is done
with the other ones.
-/
namespace SpeechBridge.Correspondence

variable {W E Stream Audio : Type} {a : Answers Stream Audio}

/-- Each open future is as fresh as it was made, or submitted under the ticket of its inquiry. -/
structure Filed (c : Correspondence W E Stream Audio) : Prop where
  opened : ∀ id, (c.request? id).isSome ↔ id < c.documents.length ∧ id ∉ c.closed
  closed : ∀ id ∈ c.closed, id < c.documents.length
  fresh : ∀ id document, c.request? id = some (.fresh document) →
    c.documents[id]? = some document ∧ id ∉ c.inquiries.map Inquiry.id
  submitted : ∀ id ticket, c.request? id = some (.submitted ticket) →
    ∃ q ∈ c.inquiries, q.id = id ∧ q.ticket = ticket ∧ ∃ reports, q.outcome = .ok reports
  asked : ∀ q ∈ c.inquiries, c.documents[q.id]? = some q.document ∧ q.id ∈ c.polled
  once : (c.inquiries.map Inquiry.id).Nodup

theorem filed_start (w : W) : Filed (start w : Correspondence W E Stream Audio) := by
  have hr : ∀ id, (start w : Correspondence W E Stream Audio).request? id = none := fun _ => rfl
  constructor
  case opened =>
    intro id
    rw [hr]
    exact iff_of_false Bool.false_ne_true fun h => Nat.not_lt_zero id h.1
  case closed =>
    intro id hid
    exact absurd hid List.not_mem_nil
  case fresh =>
    intro id document h
    cases (hr id).symm.trans h
  case submitted =>
    intro id ticket h
    cases (hr id).symm.trans h
  case asked =>
    intro q hq
    exact absurd hq List.not_mem_nil
  case once =>
    exact List.nodup_nil

theorem Filed.not_fresh {c : Correspondence W E Stream Audio} (h : Filed c) {id : Nat}
    (hid : id ∈ c.inquiries.map Inquiry.id) (document : String) :
    c.request? id ≠ some (.fresh document) :=
  fun hf => (h.fresh id document hf).2 hid

theorem request?_create (c : Correspondence W E Stream Audio) (document : String) (n : Nat) :
    (c.create document).request? n =
      if n = c.documents.length then some (.fresh document) else c.request? n :=
  Requests.lookup_store _ _ _ _

theorem request?_drop (c : Correspondence W E Stream Audio) (id n : Nat) :
    (c.drop id).request? n = if n = id then none else c.request? n :=
  Requests.lookup_forget _ _ _

theorem Filed.create {c : Correspondence W E Stream Audio} (h : Filed c) (document : String) :
    Filed (c.create document) := by
  have hd : (c.create document).documents = c.documents ++ [document] := rfl
  constructor
  case opened =>
    intro id
    rw [request?_create, hd, List.length_append, List.length_singleton]
    by_cases hid : id = c.documents.length
    · rw [if_pos hid]
      refine iff_of_true rfl ⟨by omega, ?_⟩
      intro hc
      have := h.closed id hc
      omega
    · rw [if_neg hid, h.opened id]
      exact and_congr_left fun _ => by omega
  case closed =>
    intro id hid
    have := h.closed id hid
    rw [hd, List.length_append]
    omega
  case fresh =>
    intro id document' hr
    rw [request?_create] at hr
    split at hr
    next hid =>
      cases hr
      refine ⟨by rw [hd, hid, List.getElem?_concat_length], ?_⟩
      intro hm
      obtain ⟨q, hq, rfl⟩ := List.mem_map.mp hm
      obtain ⟨hlt, _⟩ := List.getElem?_eq_some_iff.mp (h.asked q hq).1
      omega
    next hid =>
      obtain ⟨hdoc, hq⟩ := h.fresh id document' hr
      obtain ⟨hlt, _⟩ := List.getElem?_eq_some_iff.mp hdoc
      exact ⟨by rw [hd, List.getElem?_append_left hlt, hdoc], hq⟩
  case submitted =>
    intro id ticket hr
    rw [request?_create] at hr
    split at hr
    · cases hr
    · exact h.submitted id ticket hr
  case asked =>
    intro q hq
    obtain ⟨hdoc, hp⟩ := h.asked q hq
    obtain ⟨hlt, _⟩ := List.getElem?_eq_some_iff.mp hdoc
    exact ⟨by rw [hd, List.getElem?_append_left hlt, hdoc], hp⟩
  case once =>
    exact h.once

theorem mem_closed {closed : List Nat} {found : Bool} {id n : Nat} :
    n ∈ (if found then closed ++ [id] else closed) ↔ n ∈ closed ∨ (found = true ∧ n = id) := by
  cases found <;> simp

theorem Filed.drop {c : Correspondence W E Stream Audio} (h : Filed c) (id : Nat) :
    Filed (c.drop id) := by
  have hc : ∀ n, n ∈ (c.drop id).closed ↔ n ∈ c.closed ∨ ((c.request? id).isSome ∧ n = id) :=
    fun n => mem_closed
  have hr : ∀ {n request}, (c.drop id).request? n = some request → c.request? n = some request := by
    intro n request hn
    rw [request?_drop] at hn
    split at hn
    · cases hn
    · exact hn
  constructor
  case opened =>
    intro n
    rw [request?_drop, hc]
    by_cases hn : n = id
    · subst hn
      rw [if_pos rfl, h.opened]
      refine iff_of_false Bool.false_ne_true ?_
      rintro ⟨hlt, hm⟩
      rw [not_or] at hm
      exact hm.2 ⟨⟨hlt, hm.1⟩, rfl⟩
    · rw [if_neg hn, h.opened n]
      simp only [hn, and_false, or_false]
      rfl
  case closed =>
    intro n hn
    rcases (hc n).mp hn with hn | ⟨hs, rfl⟩
    · exact h.closed n hn
    · exact ((h.opened n).mp hs).1
  case fresh =>
    intro n document hn
    exact h.fresh n document (hr hn)
  case submitted =>
    intro n ticket hn
    exact h.submitted n ticket (hr hn)
  case asked =>
    exact h.asked
  case once =>
    exact h.once

theorem Filed.of_requests {c : Correspondence W E Stream Audio} (h : Filed c)
    (requests : Requests W Stream Audio) (hr : requests.requests = c.requests.requests)
    (dropped : List Nat) (events : List (RequestEvent E)) :
    Filed { c with requests, dropped, events } := by
  have hreq : ∀ id, Correspondence.request? { c with requests, dropped, events } id =
      c.request? id := by
    intro id
    exact congrArg (List.lookup id) hr
  constructor
  case opened =>
    intro id
    rw [hreq]
    exact h.opened id
  case closed =>
    exact h.closed
  case fresh =>
    intro id document hd
    exact h.fresh id document ((hreq id).symm.trans hd)
  case submitted =>
    intro id ticket ht
    exact h.submitted id ticket ((hreq id).symm.trans ht)
  case asked =>
    exact h.asked
  case once =>
    exact h.once

variable [Renderer W E Stream Audio]

theorem inquiry?_eq_some {c : Correspondence W E Stream Audio} {id : Nat} {q : Inquiry Stream}
    (h : c.inquiry? id = some q) : q.id = id ∧ c.request? id = some (.fresh q.document) := by
  unfold inquiry? at h
  split at h
  next document hd =>
    cases h
    exact ⟨rfl, hd⟩
  · cases h

theorem Filed.polled (ha : Renderer.Steady W a) {c : Correspondence W E Stream Audio}
    (h : Filed c) {id : Nat} (hid : (c.request? id).isSome) :
    ∃ q ∈ (c.poll id).inquiries, q.id = id ∧
      (∀ n, (c.poll id).request? n =
        if n = id then if (c.answer id).isReady then none else some (.submitted q.ticket)
        else c.request? n) ∧
      ((∃ e, q.outcome = .error e ∧ c.answer id = .ready (.error e)) ∨
        ∃ reports, q.outcome = .ok reports ∧
          c.answer id = .ofReply ((c.poll id).requests.replies.lookup q.ticket)) := by
  have hreq : (c.poll id).requests = (c.requests.poll (E := E) id).1 := rfl
  have hans : c.answer id = (c.requests.poll (E := E) id).2.2 := rfl
  have hinq : (c.poll id).inquiries = c.inquiries ++ (c.inquiry? id).toList := rfl
  rcases c.requests.poll_cases (E := E) ha id with ⟨hr, _⟩ | ⟨ticket, hr, hp⟩ |
    ⟨document, e, hr, ho, hp⟩ | ⟨document, synthesis, hr, ho, hp⟩
  · rw [request?, hr] at hid
    cases hid
  · obtain ⟨q, hq, hqid, rfl, reports, ho⟩ := h.submitted id ticket hr
    rw [hp] at hreq hans
    rw [Requests.answer_settle] at hans
    refine ⟨q, hinq ▸ List.mem_append_left _ hq, hqid, ?_, .inr ⟨reports, ho, ?_⟩⟩
    · intro n
      rw [request?, hreq, Requests.lookup_settle, hans]
      rfl
    · rw [hans, hreq, (Requests.settle_kept _ _ _).2.1]
  · rw [inquiry?_of_fresh hr, ho] at hinq
    rw [hp] at hreq hans
    refine ⟨_, hinq ▸ List.mem_append_right _ List.mem_cons_self, rfl, ?_, .inl ⟨e, rfl, hans⟩⟩
    intro n
    rw [request?, hreq, Requests.lookup_forget, hans]
    rfl
  · rw [inquiry?_of_fresh hr, ho] at hinq
    rw [hp] at hreq hans
    rw [Requests.answer_settle] at hans
    refine ⟨_, hinq ▸ List.mem_append_right _ List.mem_cons_self, rfl, ?_,
      .inr ⟨synthesis.reports, rfl, ?_⟩⟩
    · intro n
      rw [request?, hreq, Requests.lookup_settle, hans]
      rfl
    · rw [hans, hreq, (Requests.settle_kept _ _ _).2.1]

theorem poll_of_closed {c : Correspondence W E Stream Audio} {id : Nat}
    (h : c.request? id = none) :
    c.answer id = .absent ∧ c.poll id = { c with polled := c.polled ++ [id] } := by
  have hi : c.inquiry? id = none := inquiry?_of_not_fresh (by simp [h])
  constructor
  · rw [answer, Requests.poll_of_none h]
  · rw [poll, Requests.poll_of_none h, hi]
    simp [Poll.isReady]

theorem Filed.inquired {c : Correspondence W E Stream Audio} (h : Filed c) (id : Nat) :
    (∀ q ∈ (c.poll id).inquiries,
        c.documents[q.id]? = some q.document ∧ q.id ∈ (c.poll id).polled) ∧
      ((c.poll id).inquiries.map Inquiry.id).Nodup ∧
      ∀ n ∉ c.inquiries.map Inquiry.id, n ≠ id → n ∉ (c.poll id).inquiries.map Inquiry.id := by
  have hinq : (c.poll id).inquiries = c.inquiries ++ (c.inquiry? id).toList := rfl
  have hold : ∀ q ∈ c.inquiries,
      c.documents[q.id]? = some q.document ∧ q.id ∈ (c.poll id).polled := fun q hq =>
    ⟨(h.asked q hq).1, List.mem_append_left _ (h.asked q hq).2⟩
  cases hi : c.inquiry? id with
  | none =>
    rw [hi, Option.toList_none, List.append_nil] at hinq
    rw [hinq]
    exact ⟨hold, h.once, fun n hn _ => hn⟩
  | some q =>
    obtain ⟨hid, hr⟩ := inquiry?_eq_some hi
    obtain ⟨hdoc, hnew⟩ := h.fresh id q.document hr
    rw [hi, Option.toList_some] at hinq
    rw [hinq, List.map_append, List.map_singleton, hid]
    refine ⟨?_, ?_, ?_⟩
    · intro p hp
      rcases List.mem_append.mp hp with hp | hp
      · exact hold p hp
      · rw [List.mem_singleton.mp hp, hid]
        exact ⟨hdoc, List.mem_append_right _ List.mem_cons_self⟩
    · rw [List.nodup_append]
      refine ⟨h.once, by simp, ?_⟩
      intro m hm n hn hmn
      rw [hmn, List.mem_singleton.mp hn] at hm
      exact hnew hm
    · intro n hn hne hm
      rcases List.mem_append.mp hm with hm | hm
      · exact hn hm
      · exact hne (List.mem_singleton.mp hm)

theorem Filed.poll (ha : Renderer.Steady W a) {c : Correspondence W E Stream Audio}
    (h : Filed c) (id : Nat) : Filed (c.poll id) := by
  obtain ⟨hasked, honce, hother⟩ := h.inquired id
  cases hr : c.request? id with
  | none =>
    obtain ⟨_, hp⟩ := poll_of_closed hr
    rw [hp] at hasked ⊢
    exact ⟨h.opened, h.closed, h.fresh, h.submitted, hasked, h.once⟩
  | some request =>
    have hs : (c.request? id).isSome := hr ▸ rfl
    obtain ⟨q, hq, hqid, hreq, hanswer⟩ := h.polled ha hs
    obtain ⟨hlt, hopen⟩ := (h.opened id).mp hs
    have hc : ∀ n, n ∈ (c.poll id).closed ↔ n ∈ c.closed ∨ ((c.answer id).isReady ∧ n = id) :=
      fun n => mem_closed
    constructor
    case opened =>
      intro n
      rw [hreq, hc]
      by_cases hn : n = id
      · subst hn
        rw [if_pos rfl]
        cases (c.answer n).isReady with
        | true => exact iff_of_false Bool.false_ne_true fun hh => hh.2 (.inr ⟨rfl, rfl⟩)
        | false => exact iff_of_true rfl ⟨hlt, fun hm => hm.elim hopen fun hh => by cases hh.1⟩
      · rw [if_neg hn, h.opened n]
        simp only [hn, and_false, or_false]
        rfl
    case closed =>
      intro n hn
      rcases (hc n).mp hn with hn | ⟨_, rfl⟩
      · exact h.closed n hn
      · exact hlt
    case fresh =>
      intro n document hn
      rw [hreq] at hn
      split at hn
      · split at hn <;> cases hn
      next hne =>
        obtain ⟨hdoc, hm⟩ := h.fresh n document hn
        exact ⟨hdoc, hother n hm hne⟩
    case submitted =>
      intro n ticket hn
      rw [hreq] at hn
      split at hn
      next he =>
        split at hn
        · cases hn
        next hready =>
          cases hn
          rcases hanswer with ⟨e, _, hready'⟩ | ⟨reports, ho, _⟩
          · rw [hready'] at hready
            exact absurd rfl hready
          · exact ⟨q, hq, hqid.trans he.symm, rfl, reports, ho⟩
      next =>
        obtain ⟨p, hp, hrest⟩ := h.submitted n ticket hn
        exact ⟨p, List.mem_append_left _ hp, hrest⟩
    case asked => exact hasked
    case once => exact honce

theorem Filed.take (ha : Renderer.Steady W a) {c : Correspondence W E Stream Audio}
    (h : Filed c) (action : Action W E) : Filed (c.take action) := by
  cases action with
  | create document => exact h.create document
  | poll id => exact h.poll ha id
  | drop id => exact h.drop id
  | complete index => exact h.of_requests (c.requests.complete (E := E) index).1 rfl _ _
  | abandon index =>
    rw [Correspondence.take, abandon]
    split
    · exact h
    next job _ => exact h.of_requests (c.requests.finish (E := E) index job.abandoned).1 rfl _ _
  | act call => exact h.of_requests (c.requests.act call).1 rfl _ _

theorem Reached.filed (ha : Renderer.Steady W a) {document? : E → Option String}
    {c : Correspondence W E Stream Audio} (h : Reached document? c) : Filed c := by
  induction h with
  | start w => exact filed_start w
  | take _ _ ih => exact ih.take ha _

section Documents

variable {document? : E → Option String}

theorem documents_poll (ha : Renderer.Steady W a) (hs : Renderer.Announces W document?)
    (c : Correspondence W E Stream Audio) (id : Nat) :
    (c.requests.poll (E := E) id).2.1.filterMap (RequestEvent.document? document?) =
      (c.inquiry? id).toList.map Inquiry.document := by
  rcases c.requests.poll_cases (E := E) ha id with ⟨hr, hp⟩ | ⟨ticket, hr, hp⟩ |
    ⟨document, e, hr, ho, hp⟩ | ⟨document, synthesis, hr, ho, hp⟩
  · rw [hp, inquiry?_of_not_fresh (by simp [request?, hr])]
    rfl
  · rw [hp, inquiry?_of_not_fresh (by simp [request?, hr])]
    rfl
  · rw [hp, inquiry?_of_fresh hr]
    exact Requests.documents_submit hs _ document _
  · rw [hp, inquiry?_of_fresh hr]
    exact Requests.documents_submit hs _ document _

theorem Reached.handed (ha : Renderer.Steady W a) (hs : Renderer.Announces W document?)
    {c : Correspondence W E Stream Audio} (h : Reached document? c) :
    c.events.filterMap (RequestEvent.document? document?) =
      c.inquiries.map Inquiry.document := by
  induction h with
  | start w => rfl
  | @take c action _ hd ih =>
    cases action with
    | create document => exact ih
    | drop id => exact ih
    | poll id =>
      change (c.events ++ (c.requests.poll (E := E) id).2.1).filterMap _ =
        (c.inquiries ++ (c.inquiry? id).toList).map _
      rw [List.filterMap_append, List.map_append, ih, documents_poll ha hs]
    | complete index =>
      cases hi : c.requests.studio.parked[index]? with
      | none =>
        rw [Correspondence.take, complete_of_none hi]
        exact ih
      | some job =>
        rw [Correspondence.take, complete_of_some hi]
        change (c.events ++ (c.requests.finish (E := E) index job).2).filterMap _ = _
        rw [List.filterMap_append, ih, Requests.documents_finish hs, List.append_nil]
    | abandon index =>
      rw [Correspondence.take, abandon]
      split
      · exact ih
      next job _ =>
        change (c.events ++ (c.requests.finish (E := E) index job.abandoned).2).filterMap _ = _
        rw [List.filterMap_append, ih, Requests.documents_finish hs, List.append_nil]
    | act call =>
      change (c.events ++ (call.run c.requests.studio.world).events.map
        RequestEvent.engine).filterMap _ = _
      have hn : ((call.run c.requests.studio.world).events.map RequestEvent.engine).filterMap
          (RequestEvent.document? document?) = [] := by
        rw [List.filterMap_map, List.filterMap_eq_nil_iff]
        exact hd c.requests.studio.world
      rw [List.filterMap_append, ih, hn, List.append_nil]
      rfl

end Documents

def reported (c : Correspondence W E Stream Audio) : Action W E → Option (Nat × Poll)
  | .poll id => some (id, c.answer id)
  | _ => none

def answers (c : Correspondence W E Stream Audio) : List (Action W E) → List (Nat × Poll)
  | [] => []
  | action :: actions => (c.reported action).toList ++ (c.take action).answers actions

/-- The answers to the other futures. -/
def answersBesides (id : Nat) (c : Correspondence W E Stream Audio)
    (actions : List (Action W E)) : List (Nat × Poll) :=
  (c.answers actions).filter (·.1 ≠ id)

theorem inquiries_take (c : Correspondence W E Stream Audio) (action : Action W E) :
    c.inquiries <+: (c.take action).inquiries := by
  cases action with
  | poll id => exact List.prefix_append _ _
  | abandon index =>
    rw [take, abandon]
    split <;> exact List.prefix_rfl
  | _ => exact List.prefix_rfl

theorem inquired_take {c : Correspondence W E Stream Audio} {id : Nat}
    (h : id ∈ c.inquiries.map Inquiry.id) (action : Action W E) :
    id ∈ (c.take action).inquiries.map Inquiry.id :=
  ((c.inquiries_take action).map Inquiry.id).subset h

/-- Agreement apart from one future is kept by every action that does not submit this future. -/
theorem agree_take (ha : Renderer.Steady W a) {id : Nat} {c t : Correspondence W E Stream Audio}
    (hc : Filed c) (ht : Filed t) (hd : t.documents = c.documents)
    (h : Requests.Agree id c.requests t.requests) {action : Action W E}
    (hid : (id ∈ c.inquiries.map Inquiry.id ∧ id ∈ t.inquiries.map Inquiry.id) ∨
      action ≠ .poll id) :
    (t.take action).documents = (c.take action).documents ∧
      Requests.Agree id (c.take action).requests (t.take action).requests ∧
      (t.reported action).toList.filter (·.1 ≠ id) =
        (c.reported action).toList.filter (·.1 ≠ id) := by
  cases action with
  | create document =>
    refine ⟨congrArg (· ++ [document]) hd, ?_, rfl⟩
    have hs := h.store c.documents.length (.fresh document)
    change Requests.Agree id (c.requests.store c.documents.length (.fresh document))
      (t.requests.store t.documents.length (.fresh document))
    rwa [hd]
  | drop n => exact ⟨hd, h.forget n, rfl⟩
  | complete index => exact ⟨hd, h.complete index, rfl⟩
  | act call => exact ⟨hd, h.act call, rfl⟩
  | abandon index =>
    rw [take, take, abandon, abandon, h.studio]
    split
    · exact ⟨hd, h, rfl⟩
    · exact ⟨hd, h.finish index _, rfl⟩
  | poll n =>
    by_cases hn : n = id
    · subst hn
      rcases hid with ⟨hic, hit⟩ | hne
      · have hkc := Requests.Agree.of_poll (E := E) c.requests (hc.not_fresh hic)
        have hkt := Requests.Agree.of_poll (E := E) t.requests (ht.not_fresh hit)
        refine ⟨hd, (hkc.symm.trans h).trans hkt, ?_⟩
        simp [reported]
      · exact absurd rfl hne
    · obtain ⟨hagree, hanswer⟩ := h.poll (E := E) ha hn
      refine ⟨hd, hagree, ?_⟩
      rw [reported, reported, answer, answer, hanswer]

theorem answersBesides_of_agree (ha : Renderer.Steady W a) {id : Nat}
    {actions : List (Action W E)} {c t : Correspondence W E Stream Audio} (hc : Filed c)
    (ht : Filed t) (hd : t.documents = c.documents)
    (h : Requests.Agree id c.requests t.requests)
    (hid : (id ∈ c.inquiries.map Inquiry.id ∧ id ∈ t.inquiries.map Inquiry.id) ∨
      .poll id ∉ actions) :
    t.answersBesides id actions = c.answersBesides id actions := by
  induction actions generalizing c t with
  | nil => rfl
  | cons action actions ih =>
    obtain ⟨hdocuments, hagree, hreported⟩ := agree_take ha hc ht hd h
      (hid.imp_right fun hm he => hm (he ▸ List.mem_cons_self))
    have hlater := ih (hc.take ha action) (ht.take ha action) hdocuments hagree
      (hid.imp (fun hm => ⟨inquired_take hm.1 action, inquired_take hm.2 action⟩)
        fun hm ha => hm (List.mem_cons_of_mem _ ha))
    unfold answersBesides at hlater ⊢
    rw [answers, answers, List.filter_append, List.filter_append, hreported, hlater]

/-- A poll of an open future answers its own result, or that its utterance is in progress. -/
theorem Reached.answered (ha : Renderer.Steady W a) {document? : E → Option String}
    {c : Correspondence W E Stream Audio} (h : Reached document? c) {id : Nat}
    (hid : (c.request? id).isSome) :
    ∃ q ∈ (c.poll id).inquiries, q.id = id ∧
      (((c.poll id).jobs q.ticket = [] ∧ c.answer id = .ready (q.result a c.dropped)) ∨
        ((∃ job, (c.poll id).jobs q.ticket = [job]) ∧ c.answer id = .pending)) := by
  obtain ⟨q, hq, hqid, _, hanswer⟩ := (h.filed ha).polled ha hid
  have hacc := (h.accounted ha).poll ha id
  refine ⟨q, hq, hqid, ?_⟩
  rcases hanswer with ⟨e, ho, hready⟩ | ⟨reports, ho, hreply⟩
  · left
    refine ⟨hacc.rejected hq ho, ?_⟩
    rw [hready, Inquiry.result, ho]
  · rw [hreply]
    rcases hacc.accepted hq ho with ⟨hjobs, hlookup⟩ | ⟨hjobs, hlookup⟩
    · exact .inl ⟨hjobs, congrArg Poll.ofReply hlookup⟩
    · exact .inr ⟨hjobs, congrArg Poll.ofReply hlookup⟩

/-- A future is submitted by its first poll and not again, and resolves to what belongs to its own
utterance once that is over; dropping it changes no answer to another one. -/
theorem every_future_gets_its_own_answer (ha : Renderer.Steady W a) {document? : E → Option String}
    (hs : Renderer.Announces W document?) {c : Correspondence W E Stream Audio}
    (hc : Reached document? c) :
    c.events.filterMap (RequestEvent.document? document?) = c.inquiries.map Inquiry.document ∧
    (c.inquiries.map Inquiry.id).Nodup ∧
    c.inquiries.map Inquiry.ticket = List.range' 1 c.inquiries.length ∧
    (∀ q ∈ c.inquiries, c.documents[q.id]? = some q.document ∧ q.id ∈ c.polled ∧
      ∀ reports, q.outcome = .ok reports →
        (Inquiry.fate a c.dropped q.ticket reports = .dropped ↔
          q.ticket ∈ c.dropped ∨ reports = [] ∨
            ∃ stream later markers, reports = .ok stream :: later ∧
              a.markers stream = .ok markers ∧ a.read stream = .ok [])) ∧
    (∀ id,
      (id < c.documents.length ∧ id ∉ c.closed →
        ∃ q ∈ (c.poll id).inquiries, q.id = id ∧
          (((c.poll id).jobs q.ticket = [] ∧ c.answer id = .ready (q.result a c.dropped)) ∨
            ((∃ job, (c.poll id).jobs q.ticket = [job]) ∧ c.answer id = .pending))) ∧
      (¬ (id < c.documents.length ∧ id ∉ c.closed) → c.answer id = .absent)) ∧
    ∀ id actions, id ∈ c.inquiries.map Inquiry.id ∨ .poll id ∉ actions →
      (c.drop id).answersBesides id actions = c.answersBesides id actions := by
  have hf := hc.filed ha
  refine ⟨hc.handed ha hs, hf.once, (hc.accounted ha).tickets, ?_, ?_, ?_⟩
  · intro q hq
    refine ⟨(hf.asked q hq).1, (hf.asked q hq).2, fun reports _ => ?_⟩
    by_cases hd : q.ticket ∈ c.dropped
    · simp [Inquiry.fate, hd]
    · simp only [Inquiry.fate, hd, if_false, false_or]
      exact a.fate_eq_dropped_iff
  · intro id
    rw [← hf.opened id]
    refine ⟨hc.answered ha, fun hn => (poll_of_closed ?_).1⟩
    exact Option.not_isSome_iff_eq_none.mp hn
  · intro id actions hid
    exact answersBesides_of_agree ha hf (hf.drop id) rfl (.of_forget id c.requests)
      (hid.imp_left fun hm => ⟨hm, hm⟩)

abbrev OfScript := Correspondence ScriptedEngine EngineEvent Outcome Outcome

/-- The futures are polled out of order, one with an utterance in progress is dropped, and the
continuation of another one is. -/
def scatter : List (Action ScriptedEngine EngineEvent) :=
  [.create "a", .create "b", .create "c", .create "d", .create "e", .poll 3, .poll 1, .poll 0,
    .drop 1, .poll 2, .complete 0, .abandon 1, .complete 1]

def scattered : OfScript := scatter.foldl take (start ScriptedEngine.mixed)

theorem scattered_futures_get_their_own :
    Reached EngineEvent.document? scattered ∧
      scattered.events.filterMap (RequestEvent.document? EngineEvent.document?) =
        ["d", "b", "a", "c"] ∧
      scattered.answer 3 = .ready (.ok ⟨[1], [⟨"1", ⟨0⟩⟩]⟩) ∧
      scattered.answer 0 = .ready (.error .abandoned) ∧
      scattered.answer 1 = .absent ∧
      (scattered.drop 0).answersBesides 0 [.poll 3, .complete 0, .poll 4, .poll 0] =
        scattered.answersBesides 0 [.poll 3, .complete 0, .poll 4, .poll 0] := by
  have hd : ∀ action ∈ scatter, action.Discreet EngineEvent.document? := by
    simp [scatter, Action.Discreet]
  have hr : Reached EngineEvent.document? scattered := (Reached.start ScriptedEngine.mixed).foldl hd
  obtain ⟨hhanded, _, _, _, hanswers, hdrop⟩ :=
    every_future_gets_its_own_answer ScriptedEngine.steady ScriptedEngine.announces hr
  exact ⟨hr, hhanded.trans rfl, rfl, rfl, (hanswers 1).2 (by decide), hdrop 0 _ (.inl (by decide))⟩

end SpeechBridge.Correspondence
