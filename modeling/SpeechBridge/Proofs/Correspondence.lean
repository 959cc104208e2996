import SpeechBridge.Proofs.Accounts

/-!
# Requests in progress

Futures of one engine are polled and dropped, and jobs run or dropped, in any order. A
correspondence keeps what was asked of the engine on the way. Main statement: the ticket of every
request that was accepted is with one job, or has the reply that belongs to its own document.
-/
namespace SpeechBridge

/-- A request that was submitted: its future, document and ticket, and what became of that. -/
structure Inquiry (Stream : Type) where
  id : Nat
  document : String
  ticket : Nat
  outcome : Except Error (List (Except Error Stream))

namespace Inquiry

variable {Stream Audio : Type}

/-- The fate of the utterance, given the tickets whose continuation was dropped. -/
def fate (a : Answers Stream Audio) (dropped : List Nat) (ticket : Nat)
    (reports : List (Except Error Stream)) : Fate :=
  if ticket ∈ dropped then .dropped else a.fate reports

/-- What the future resolves to: the error of a submission that is rejected, or the reply. -/
def result (a : Answers Stream Audio) (dropped : List Nat) (q : Inquiry Stream) :
    Except Error Utterance :=
  match q.outcome with
  | .error e => .error e
  | .ok reports => (fate a dropped q.ticket reports).reply

/-- What the account has of the inquiry. -/
def item? (a : Answers Stream Audio) (dropped : List Nat) (q : Inquiry Stream) :
    Option (Nat × Except Error Utterance) :=
  match q.outcome with
  | .error _ => none
  | .ok _ => some (q.ticket, q.result a dropped)

end Inquiry

/-- Requests, with what has been asked of them and shown so far. -/
structure Correspondence (W E Stream Audio : Type) where
  requests : Requests W Stream Audio
  documents : List String
  inquiries : List (Inquiry Stream)
  polled : List Nat
  /-- Futures that have resolved or were dropped. -/
  closed : List Nat
  dropped : List Nat
  events : List (RequestEvent E)

inductive Action (W E : Type) where
  | create (document : String)
  | poll (id : Nat)
  | drop (id : Nat)
  | complete (index : Nat)
  | abandon (index : Nat)
  | act (call : Act W E Value)

def Poll.isReady : Poll → Bool
  | ready _ => true
  | _ => false

namespace Correspondence

variable {W E Stream Audio : Type}

def start (w : W) : Correspondence W E Stream Audio := ⟨.ofWorld w, [], [], [], [], [], []⟩

def request? (c : Correspondence W E Stream Audio) (id : Nat) : Option Request :=
  c.requests.requests.lookup id

def jobs (c : Correspondence W E Stream Audio) (ticket : Nat) : List (Job Stream Audio Nat) :=
  c.requests.studio.parked.filter (·.sink = ticket)

def create (c : Correspondence W E Stream Audio) (document : String) :
    Correspondence W E Stream Audio :=
  { c with
    requests := c.requests.create c.documents.length document
    documents := c.documents ++ [document] }

def drop (c : Correspondence W E Stream Audio) (id : Nat) : Correspondence W E Stream Audio :=
  let (requests, found) := c.requests.drop id
  { c with requests, closed := if found then c.closed ++ [id] else c.closed }

variable [Renderer W E Stream Audio]

/-- What the first poll of a future asks of the engine. -/
def inquiry? (c : Correspondence W E Stream Audio) (id : Nat) : Option (Inquiry Stream) :=
  match c.request? id with
  | some (.fresh document) =>
    let synthesis : Act W E (Operation Stream) := Renderer.synthesize document
    some ⟨id, document, c.requests.nextTicket,
      (synthesis.run c.requests.studio.world).result.map Operation.reports⟩
  | _ => none

def answer (c : Correspondence W E Stream Audio) (id : Nat) : Poll :=
  (c.requests.poll (E := E) id).2.2

def poll (c : Correspondence W E Stream Audio) (id : Nat) : Correspondence W E Stream Audio :=
  let (requests, shown, answer) := c.requests.poll id
  { c with
    requests
    inquiries := c.inquiries ++ (c.inquiry? id).toList
    polled := c.polled ++ [id]
    closed := if answer.isReady then c.closed ++ [id] else c.closed
    events := c.events ++ shown }

def complete (c : Correspondence W E Stream Audio) (index : Nat) :
    Correspondence W E Stream Audio :=
  let (requests, shown, _) := c.requests.complete index
  { c with requests, events := c.events ++ shown }

def abandon (c : Correspondence W E Stream Audio) (index : Nat) :
    Correspondence W E Stream Audio :=
  match c.requests.studio.parked[index]? with
  | none => c
  | some job =>
    let (requests, shown) := c.requests.finish index job.abandoned
    { c with requests, dropped := c.dropped ++ [job.sink], events := c.events ++ shown }

def act (c : Correspondence W E Stream Audio) (call : Act W E Value) :
    Correspondence W E Stream Audio :=
  let (requests, shown, _) := c.requests.act call
  { c with requests, events := c.events ++ shown }

def take (c : Correspondence W E Stream Audio) : Action W E → Correspondence W E Stream Audio
  | .create document => c.create document
  | .poll id => c.poll id
  | .drop id => c.drop id
  | .complete index => c.complete index
  | .abandon index => c.abandon index
  | .act call => c.act call

end Correspondence

/-- The client hands no document to the engine behind the back of its requests. -/
def Action.Discreet {W E : Type} (document? : E → Option String) : Action W E → Prop
  | act call => Act.Shows (fun e => document? e = none) call
  | _ => True

namespace Correspondence

variable {W E Stream Audio : Type} [Renderer W E Stream Audio]

inductive Reached (document? : E → Option String) : Correspondence W E Stream Audio → Prop where
  | start (w) : Reached document? (start w)
  | take {c action} : Reached document? c → action.Discreet document? →
      Reached document? (c.take action)

theorem Reached.foldl {document? : E → Option String} {c : Correspondence W E Stream Audio}
    (h : Reached document? c) {actions : List (Action W E)}
    (hd : ∀ action ∈ actions, action.Discreet document?) :
    Reached document? (actions.foldl Correspondence.take c) := by
  induction actions generalizing c with
  | nil => exact h
  | cons action actions ih =>
    rw [List.forall_mem_cons] at hd
    exact ih (.take h hd.1) hd.2

end Correspondence

namespace Requests

variable {W E Stream Audio : Type}

theorem lookup_cons_of_ne {α : Type} {n m : Nat} (h : n ≠ m) (x : α) (l : List (Nat × α)) :
    ((m, x) :: l).lookup n = l.lookup n := by
  rw [List.lookup_cons, beq_eq_false_iff_ne.mpr h]

theorem lookup_filter_bne {α : Type} (l : List (Nat × α)) (m n : Nat) :
    (l.filter (·.1 != m)).lookup n = if n = m then none else l.lookup n := by
  induction l with
  | nil => exact (ite_self none).symm
  | cons p ps ih =>
    rcases p with ⟨k, x⟩
    by_cases hk : k = m
    · subst hk
      rw [List.filter_cons_of_neg (by simp), ih]
      by_cases hn : n = k
      · rw [if_pos hn, if_pos hn]
      · rw [if_neg hn, if_neg hn, lookup_cons_of_ne hn]
    · rw [List.filter_cons_of_pos (by simpa using hk)]
      by_cases hn : n = k
      · subst hn
        rw [if_neg hk, List.lookup_cons_self, List.lookup_cons_self]
      · rw [lookup_cons_of_ne hn, lookup_cons_of_ne hn, ih]

theorem lookup_forget (r : Requests W Stream Audio) (id n : Nat) :
    (r.forget id).requests.lookup n = if n = id then none else r.requests.lookup n :=
  lookup_filter_bne r.requests id n

theorem lookup_store (r : Requests W Stream Audio) (id n : Nat) (request : Request) :
    (r.store id request).requests.lookup n =
      if n = id then some request else r.requests.lookup n := by
  change ((r.forget id).requests ++ [(id, request)]).lookup n = _
  rw [List.lookup_append, lookup_forget]
  by_cases hn : n = id
  · subst hn
    rw [if_pos rfl, if_pos rfl, List.lookup_cons_self, Option.none_or]
  · rw [if_neg hn, if_neg hn, lookup_cons_of_ne hn, List.lookup_nil, Option.or_none]

end Requests

def Poll.ofReply : Option (Except Error Utterance) → Poll
  | some outcome => .ready outcome
  | none => .pending

namespace Requests

variable {W E Stream Audio : Type}

theorem settle_kept (r : Requests W Stream Audio) (id ticket : Nat) :
    (r.settle id ticket).1.studio = r.studio ∧ (r.settle id ticket).1.replies = r.replies ∧
      (r.settle id ticket).1.nextTicket = r.nextTicket := by
  rw [settle]
  split
  · exact ⟨rfl, rfl, rfl⟩
  · exact ⟨rfl, rfl, rfl⟩

theorem answer_settle (r : Requests W Stream Audio) (id ticket : Nat) :
    (r.settle id ticket).2 = .ofReply (r.replies.lookup ticket) := by
  rw [settle]
  split
  next h => rw [h]; rfl
  next h => rw [h]; rfl

theorem lookup_settle (r : Requests W Stream Audio) (id ticket n : Nat) :
    (r.settle id ticket).1.requests.lookup n =
      if n = id then
        if (Poll.ofReply (r.replies.lookup ticket)).isReady then none else some (.submitted ticket)
      else r.requests.lookup n := by
  rw [settle]
  split
  next h =>
    rw [lookup_forget, h]
    rfl
  next h =>
    rw [lookup_store, h]
    rfl

theorem account_settle (a : Answers Stream Audio) (r : Requests W Stream Audio) (id ticket : Nat) :
    (r.settle id ticket).1.account a = r.account a := by
  obtain ⟨hs, hr, _⟩ := r.settle_kept id ticket
  rw [account, account, hs, hr]

variable [Renderer W E Stream Audio] {a : Answers Stream Audio}

/-- The requests once a document was submitted, before its request is settled. -/
def submitted (r : Requests W Stream Audio) (document : String) : Requests W Stream Audio :=
  { r.after (r.studio.submit (E := E) document r.nextTicket) with nextTicket := r.nextTicket + 1 }

theorem poll_of_none {r : Requests W Stream Audio} {id : Nat} (h : r.requests.lookup id = none) :
    r.poll (E := E) id = (r, [], .absent) := by
  rw [poll, h]

theorem poll_of_submitted {r : Requests W Stream Audio} {id ticket : Nat}
    (h : r.requests.lookup id = some (.submitted ticket)) :
    r.poll (E := E) id = ((r.settle id ticket).1, [], (r.settle id ticket).2) := by
  rw [poll, h]

theorem poll_of_rejected {r : Requests W Stream Audio} {id : Nat} {document : String} {e : Error}
    (h : r.requests.lookup id = some (.fresh document))
    (he : ((Renderer.synthesize document : Act W E (Operation Stream)).run
      r.studio.world).result = .error e) :
    r.poll (E := E) id = ((r.submitted (E := E) document).forget id,
      eventsOf (r.studio.submit (E := E) document r.nextTicket).shown, .ready (.error e)) := by
  rw [poll, h]
  dsimp only
  rw [answer_submit_of_error he]
  rfl

theorem poll_of_accepted (ha : Renderer.Steady W a) {r : Requests W Stream Audio} {id : Nat}
    {document : String} {synthesis : Operation Stream}
    (h : r.requests.lookup id = some (.fresh document))
    (ho : ((Renderer.synthesize document : Act W E (Operation Stream)).run
      r.studio.world).result = .ok synthesis) :
    r.poll (E := E) id = (((r.submitted (E := E) document).settle id r.nextTicket).1,
      eventsOf (r.studio.submit (E := E) document r.nextTicket).shown,
      ((r.submitted (E := E) document).settle id r.nextTicket).2) := by
  have hs := (account_submit_of_ok ha ho r.nextTicket).1
  rw [poll, h]
  dsimp only
  rw [hs]
  rfl

/-- A poll finds no request, one that was submitted, or a fresh one that the engine rejects or
accepts. -/
theorem poll_cases (ha : Renderer.Steady W a) (r : Requests W Stream Audio) (id : Nat) :
    (r.requests.lookup id = none ∧ r.poll (E := E) id = (r, [], .absent)) ∨
    (∃ ticket, r.requests.lookup id = some (.submitted ticket) ∧
      r.poll (E := E) id = ((r.settle id ticket).1, [], (r.settle id ticket).2)) ∨
    (∃ document e, r.requests.lookup id = some (.fresh document) ∧
      ((Renderer.synthesize document : Act W E (Operation Stream)).run
        r.studio.world).result = .error e ∧
      r.poll (E := E) id = ((r.submitted (E := E) document).forget id,
        eventsOf (r.studio.submit (E := E) document r.nextTicket).shown, .ready (.error e))) ∨
    (∃ document synthesis, r.requests.lookup id = some (.fresh document) ∧
      ((Renderer.synthesize document : Act W E (Operation Stream)).run
        r.studio.world).result = .ok synthesis ∧
      r.poll (E := E) id = (((r.submitted (E := E) document).settle id r.nextTicket).1,
        eventsOf (r.studio.submit (E := E) document r.nextTicket).shown,
        ((r.submitted (E := E) document).settle id r.nextTicket).2)) := by
  cases hr : r.requests.lookup id with
  | none => exact .inl ⟨rfl, poll_of_none hr⟩
  | some request =>
    cases request with
    | submitted ticket => exact .inr (.inl ⟨ticket, rfl, poll_of_submitted hr⟩)
    | fresh document =>
      cases ho : ((Renderer.synthesize document : Act W E (Operation Stream)).run
          r.studio.world).result with
      | error e => exact .inr (.inr (.inl ⟨document, e, rfl, ho, poll_of_rejected hr ho⟩))
      | ok synthesis =>
        exact .inr (.inr (.inr ⟨document, synthesis, rfl, ho, poll_of_accepted ha hr ho⟩))

end Requests

namespace Inquiry

variable {Stream Audio : Type} {a : Answers Stream Audio}

theorem filter_entries {inquiries : List (Inquiry Stream)} {dropped : List Nat}
    (hn : (inquiries.map ticket).Nodup) {q : Inquiry Stream} (hq : q ∈ inquiries) :
    (inquiries.filterMap (item? a dropped)).filter (·.1 = q.ticket) =
      (q.item? a dropped).toList := by
  have hentry : ∀ p : Inquiry Stream, (p.item? a dropped).filter (·.1 = q.ticket) =
      if p.ticket = q.ticket then p.item? a dropped else none := by
    intro p
    unfold item?
    cases p.outcome with
    | error e => exact (ite_self none).symm
    | ok reports => by_cases ht : p.ticket = q.ticket <;> simp [ht]
  obtain ⟨before, after, rfl⟩ := List.append_of_mem hq
  rw [List.map_append, List.map_cons, List.nodup_append, List.nodup_cons] at hn
  obtain ⟨_, ⟨hafter, _⟩, hbefore⟩ := hn
  have hnone : ∀ l : List (Inquiry Stream), (∀ p ∈ l, p.ticket ≠ q.ticket) →
      l.filterMap (fun p => (p.item? a dropped).filter (·.1 = q.ticket)) = [] := by
    intro l hl
    apply List.filterMap_eq_nil_iff.mpr
    intro p hp
    rw [hentry, if_neg (hl p hp)]
  rw [List.filter_filterMap, List.filterMap_append, List.filterMap_cons, hnone before,
    hnone after, hentry, if_pos rfl]
  · cases q.item? a dropped <;> rfl
  · intro p hp ht
    exact hafter (ht ▸ List.mem_map_of_mem hp)
  · intro p hp
    exact hbefore _ (List.mem_map_of_mem hp) _ List.mem_cons_self

theorem item?_dropped (dropped : List Nat) (ticket : Nat) (q : Inquiry Stream) :
    q.item? a (dropped ++ [ticket]) =
      (q.item? a dropped).map fun p =>
        if p.1 = ticket then (ticket, Fate.dropped.reply) else p := by
  unfold item? result
  cases q.outcome with
  | error e => rfl
  | ok reports =>
    by_cases ht : q.ticket = ticket
    · simp [fate, ht]
    · simp [fate, ht]

end Inquiry

namespace Correspondence

variable {W E Stream Audio : Type} {a : Answers Stream Audio}

/-- The inquiries are numbered by their tickets, and make up the account. -/
structure Accounted (a : Answers Stream Audio) (c : Correspondence W E Stream Audio) : Prop where
  next : c.requests.nextTicket = c.inquiries.length + 1
  tickets : c.inquiries.map Inquiry.ticket = List.range' 1 c.inquiries.length
  dropped : ∀ ticket ∈ c.dropped, ticket < c.requests.nextTicket
  account : (c.requests.account a).Perm (c.inquiries.filterMap (Inquiry.item? a c.dropped))

theorem lookup_eq_head_filter {α : Type} (l : List (Nat × α)) (n : Nat) :
    l.lookup n = ((l.filter (·.1 = n)).head?).map Prod.snd := by
  induction l with
  | nil => rfl
  | cons p ps ih =>
    rcases p with ⟨m, x⟩
    by_cases h : n = m
    · subst h
      rw [List.lookup_cons_self, List.filter_cons_of_pos (by simp)]
      rfl
    · rw [Requests.lookup_cons_of_ne h, List.filter_cons_of_neg (by simpa using Ne.symm h), ih]

/-- The ticket of an inquiry has what is left of its entry: a job or a reply, but not both. -/
theorem Accounted.split {c : Correspondence W E Stream Audio} (h : Accounted a c)
    {q : Inquiry Stream} (hq : q ∈ c.inquiries) :
    (c.jobs q.ticket).map (Requests.due a) ++ c.requests.replies.filter (·.1 = q.ticket) =
      (q.item? a c.dropped).toList := by
  have hn : (c.inquiries.map Inquiry.ticket).Nodup := by
    rw [h.tickets]
    exact List.nodup_range'
  have hp := h.account.filter (·.1 = q.ticket)
  rw [Inquiry.filter_entries hn hq, Requests.account, List.filter_append, List.filter_map] at hp
  cases he : q.item? a c.dropped with
  | none =>
    rw [he] at hp
    exact List.perm_nil.mp hp
  | some entry =>
    rw [he] at hp
    exact List.perm_singleton.mp hp

theorem Accounted.rejected {c : Correspondence W E Stream Audio} (h : Accounted a c)
    {q : Inquiry Stream} (hq : q ∈ c.inquiries) {e : Error} (ho : q.outcome = .error e) :
    c.jobs q.ticket = [] := by
  have hs := h.split hq
  rw [show q.item? a c.dropped = none by rw [Inquiry.item?, ho]] at hs
  exact List.map_eq_nil_iff.mp (List.append_eq_nil_iff.mp hs).1

theorem Accounted.accepted {c : Correspondence W E Stream Audio} (h : Accounted a c)
    {q : Inquiry Stream} (hq : q ∈ c.inquiries) {reports : List (Except Error Stream)}
    (ho : q.outcome = .ok reports) :
    (c.jobs q.ticket = [] ∧
        c.requests.replies.lookup q.ticket = some (q.result a c.dropped)) ∨
      ((∃ job, c.jobs q.ticket = [job]) ∧ c.requests.replies.lookup q.ticket = none) := by
  have hs := h.split hq
  rw [show q.item? a c.dropped = some (q.ticket, q.result a c.dropped) by
    rw [Inquiry.item?, ho]] at hs
  rw [lookup_eq_head_filter]
  cases hj : c.jobs q.ticket with
  | nil =>
    rw [hj] at hs
    left
    refine ⟨rfl, ?_⟩
    rw [show c.requests.replies.filter (·.1 = q.ticket) = _ from hs]
    rfl
  | cons job rest =>
    rw [hj] at hs
    obtain ⟨_, hrest⟩ := List.cons.inj hs
    obtain ⟨hr, hf⟩ := List.append_eq_nil_iff.mp hrest
    right
    refine ⟨⟨job, ?_⟩, ?_⟩
    · rw [List.map_eq_nil_iff.mp hr]
    · rw [hf]
      rfl

theorem Accounted.of_perm {c t : Correspondence W E Stream Audio} (h : Accounted a c)
    (hp : (t.requests.account a).Perm (c.requests.account a))
    (hn : t.requests.nextTicket = c.requests.nextTicket) (hi : t.inquiries = c.inquiries)
    (hd : t.dropped = c.dropped) : Accounted a t := by
  constructor
  · rw [hn, hi, h.next]
  · rw [hi, h.tickets]
  · rw [hd, hn]
    exact h.dropped
  · rw [hi, hd]
    exact hp.trans h.account

theorem Accounted.add {c t : Correspondence W E Stream Audio} {q : Inquiry Stream}
    (h : Accounted a c) (hq : q.ticket = c.requests.nextTicket)
    (hp : (t.requests.account a).Perm ((q.item? a c.dropped).toList ++ c.requests.account a))
    (hn : t.requests.nextTicket = c.requests.nextTicket + 1)
    (hi : t.inquiries = c.inquiries ++ [q]) (hd : t.dropped = c.dropped) : Accounted a t := by
  constructor
  · rw [hn, hi, h.next, List.length_append, List.length_singleton]
  · rw [hi, List.map_append, h.tickets, List.length_append, List.map_singleton, hq, h.next,
      List.length_singleton, List.range'_1_concat, Nat.add_comm 1]
  · rw [hd, hn]
    intro ticket ht
    exact Nat.lt_succ_of_lt (h.dropped ticket ht)
  · rw [hi, hd, List.filterMap_append]
    have hs : [q].filterMap (Inquiry.item? a c.dropped) = (q.item? a c.dropped).toList := by
      rw [List.filterMap_cons]
      cases q.item? a c.dropped <;> rfl
    rw [hs]
    exact hp.trans ((List.Perm.append_left _ h.account).trans List.perm_append_comm)

theorem Accounted.ticket_mem {c : Correspondence W E Stream Audio} (h : Accounted a c)
    {job : Job Stream Audio Nat} (hj : job ∈ c.requests.studio.parked) :
    job.sink ∈ c.inquiries.map Inquiry.ticket := by
  have hm : Requests.due a job ∈ c.requests.account a :=
    List.mem_append_left _ (List.mem_map_of_mem hj)
  obtain ⟨q, hq, he⟩ := List.mem_filterMap.mp (h.account.mem_iff.mp hm)
  refine List.mem_map.mpr ⟨q, hq, ?_⟩
  unfold Inquiry.item? at he
  split at he
  · cases he
  · exact (Prod.mk.inj (Option.some.inj he)).1

theorem Accounted.others_of_perm {c : Correspondence W E Stream Audio} (h : Accounted a c)
    {ticket : Nat} (hm : ticket ∈ c.inquiries.map Inquiry.ticket)
    {reply : Except Error Utterance} {others : List (Nat × Except Error Utterance)}
    (hp : ((ticket, reply) :: others).Perm
      (c.inquiries.filterMap (Inquiry.item? a c.dropped))) (entry : Nat × Except Error Utterance) :
    (others.map fun p => if p.1 = ticket then entry else p) = others := by
  obtain ⟨q, hq, rfl⟩ := List.mem_map.mp hm
  have hn : (c.inquiries.map Inquiry.ticket).Nodup := by
    rw [h.tickets]
    exact List.nodup_range'
  have hf := (hp.filter (·.1 = q.ticket)).length_eq
  rw [Inquiry.filter_entries hn hq, List.filter_cons_of_pos (by simp), List.length_cons] at hf
  have hle : (q.item? a c.dropped).toList.length ≤ 1 := by
    cases q.item? a c.dropped with
    | none => exact Nat.zero_le 1
    | some entry => exact Nat.le_refl 1
  have hnone : others.filter (·.1 = q.ticket) = [] := by
    apply List.eq_nil_of_length_eq_zero
    omega
  have hid : ∀ p ∈ others, (if p.1 = q.ticket then entry else p) = p := by
    intro p hpo
    apply if_neg
    intro ht
    exact List.filter_eq_nil_iff.mp hnone p hpo (decide_eq_true ht)
  rw [List.map_congr_left hid, List.map_id']

variable [Renderer W E Stream Audio]

theorem complete_of_none {c : Correspondence W E Stream Audio} {index : Nat}
    (hi : c.requests.studio.parked[index]? = none) : c.complete index = c := by
  rw [complete, Requests.complete, Studio.complete, hi]
  simp [Requests.after, Requests.repliesOf, Requests.eventsOf]

theorem complete_of_some {c : Correspondence W E Stream Audio} {index : Nat}
    {job : Job Stream Audio Nat} (hi : c.requests.studio.parked[index]? = some job) :
    c.complete index =
      { c with
        requests := (c.requests.finish (E := E) index job).1
        events := c.events ++ (c.requests.finish (E := E) index job).2 } := by
  rw [complete, Requests.complete, Studio.complete, hi]
  rfl

theorem Accounted.complete (ha : Renderer.Steady W a) {c : Correspondence W E Stream Audio}
    (h : Accounted a c) (index : Nat) : Accounted a (c.complete index) := by
  cases hi : c.requests.studio.parked[index]? with
  | none =>
    rw [complete_of_none hi]
    exact h
  | some job =>
    obtain ⟨others, hc, ht⟩ := Requests.account_finish (E := E) ha hi rfl
    rw [complete_of_some hi]
    exact h.of_perm (ht.trans hc.symm) rfl rfl rfl

theorem Accounted.abandon (ha : Renderer.Steady W a) {c : Correspondence W E Stream Audio}
    (h : Accounted a c) (index : Nat) : Accounted a (c.abandon index) := by
  unfold Correspondence.abandon
  split
  · exact h
  next job hi =>
    obtain ⟨others, hc, ht⟩ := Requests.account_finish (E := E) ha hi job.sink_abandoned
    rw [Job.jobFate_abandoned] at ht
    have hm := h.ticket_mem (List.mem_of_getElem? hi)
    refine ⟨h.next, h.tickets, ?_, ?_⟩
    · intro ticket hd
      rcases List.mem_append.mp hd with hd | hd
      · exact h.dropped ticket hd
      · rw [h.tickets, List.mem_range'_1] at hm
        rw [List.mem_singleton.mp hd]
        change _ < c.requests.nextTicket
        rw [h.next]
        omega
    · have hothers := h.others_of_perm hm (hc.symm.trans h.account)
      have hentries := (hc.symm.trans h.account).map fun p =>
        if p.1 = job.sink then (job.sink, Fate.dropped.reply) else p
      rw [List.map_cons, hothers, List.map_filterMap] at hentries
      have hdropped : Inquiry.item? a (c.dropped ++ [job.sink]) = fun q : Inquiry Stream =>
          (q.item? a c.dropped).map fun p =>
            if p.1 = job.sink then (job.sink, Fate.dropped.reply) else p :=
        funext (Inquiry.item?_dropped c.dropped job.sink)
      refine ht.trans ?_
      rw [hdropped]
      rwa [Requests.due, if_pos rfl] at hentries

theorem inquiry?_of_fresh {c : Correspondence W E Stream Audio} {id : Nat} {document : String}
    (h : c.request? id = some (.fresh document)) :
    c.inquiry? id = some ⟨id, document, c.requests.nextTicket,
      ((Renderer.synthesize document : Act W E (Operation Stream)).run
        c.requests.studio.world).result.map Operation.reports⟩ := by
  rw [inquiry?, h]

theorem inquiry?_of_not_fresh {c : Correspondence W E Stream Audio} {id : Nat}
    (h : ∀ document, c.request? id ≠ some (.fresh document)) : c.inquiry? id = none := by
  unfold inquiry?
  split
  next document hd => exact absurd hd (h document)
  · rfl

theorem Accounted.poll (ha : Renderer.Steady W a) {c : Correspondence W E Stream Audio}
    (h : Accounted a c) (id : Nat) : Accounted a (c.poll id) := by
  have hreq : (c.poll id).requests = (c.requests.poll (E := E) id).1 := rfl
  have hinq : (c.poll id).inquiries = c.inquiries ++ (c.inquiry? id).toList := rfl
  rcases c.requests.poll_cases (E := E) ha id with ⟨hr, hp⟩ | ⟨ticket, hr, hp⟩ |
    ⟨document, e, hr, ho, hp⟩ | ⟨document, synthesis, hr, ho, hp⟩
  · rw [hp] at hreq
    rw [inquiry?_of_not_fresh (by simp [request?, hr]), Option.toList_none,
      List.append_nil] at hinq
    exact h.of_perm (by rw [hreq]) (by rw [hreq]) hinq rfl
  · rw [hp] at hreq
    rw [inquiry?_of_not_fresh (by simp [request?, hr]), Option.toList_none,
      List.append_nil] at hinq
    refine h.of_perm ?_ ?_ hinq rfl
    · rw [hreq, Requests.account_settle]
    · rw [hreq]
      exact (c.requests.settle_kept id ticket).2.2
  · rw [hp] at hreq
    rw [inquiry?_of_fresh hr, ho] at hinq
    refine h.add rfl ?_ ?_ hinq rfl
    · rw [hreq]
      exact .of_eq (Requests.account_submit_of_error ho _)
    · rw [hreq]
      rfl
  · rw [hp] at hreq
    rw [inquiry?_of_fresh hr, ho] at hinq
    -- A ticket is dropped only once it is with a job, so the next one is not among them.
    have hnew : c.requests.nextTicket ∉ c.dropped := fun hd =>
      Nat.lt_irrefl _ (h.dropped _ hd)
    refine h.add rfl ?_ ?_ hinq rfl
    · rw [hreq, Requests.account_settle]
      have hp := (Requests.account_submit_of_ok ha ho c.requests.nextTicket).2
      rw [show a.fate synthesis.reports = Inquiry.fate a c.dropped c.requests.nextTicket
        synthesis.reports from (if_neg hnew).symm] at hp
      exact hp
    · rw [hreq]
      exact (Requests.settle_kept _ _ _).2.2

theorem Accounted.take (ha : Renderer.Steady W a) {c : Correspondence W E Stream Audio}
    (h : Accounted a c) (action : Action W E) : Accounted a (c.take action) := by
  cases action with
  | create document => exact h.of_perm (.refl _) rfl rfl rfl
  | poll id => exact h.poll ha id
  | drop id => exact h.of_perm (.refl _) rfl rfl rfl
  | complete index => exact h.complete ha index
  | abandon index => exact h.abandon ha index
  | act call => exact h.of_perm (.refl _) rfl rfl rfl

theorem Reached.accounted (ha : Renderer.Steady W a) {document? : E → Option String}
    {c : Correspondence W E Stream Audio} (h : Reached document? c) : Accounted a c := by
  induction h with
  | start w => exact ⟨rfl, rfl, fun _ hd => absurd hd List.not_mem_nil, .refl _⟩
  | take _ _ ih => exact ih.take ha _

end Correspondence

end SpeechBridge
