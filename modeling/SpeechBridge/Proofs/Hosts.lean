import Mathlib.Data.List.InsertIdx
import SpeechBridge.Proofs.FlatCalls

/-!
# Hosts

A host calls the flat interface with any handles, and the jobs of the platform are run in any order
in between, with any failures. Main statement: at any time each call to speak has been refused, or
its utterance waits in exactly one job and has had no callback, or it has ended as its course says.
-/
namespace SpeechBridge

/-- A call to speak, with the calls of the host before it and the platform that it found. -/
structure SpeakCall where
  handle : Nat
  text : Option (List UInt16)
  before : List Dealing
  platform : Platform
  result : FlatResult
  course : FlatCourse

namespace SpeakCall

def dealing (s : SpeakCall) : Dealing := ⟨s.handle, .speak s.text, s.result⟩

def past (s : SpeakCall) : List Dealing := s.before ++ [s.dealing]

def rendering (s : SpeakCall) : Rendering := s.platform.script.headD .silent

/-- The job of the utterance is run on the platform. -/
def hear (s : SpeakCall) (p : Platform) (job : FlatJob) : SpeakCall :=
  { s with course := s.course.hear p job }

/-- The instance has a callback, there is a text, and the platform takes the request. -/
structure Accepted (s : SpeakCall) (id : CallbackId) (synthesis : Operation Rendering) : Prop where
  registered : registration s.before s.handle = some (some id)
  synthesis : ∃ units, s.text = some units ∧
    ((Platform.synthesize (Utf16.untilZero units)).run s.platform).result = .ok synthesis

end SpeakCall

/-- A flat interface, with what its host has asked of it and been shown. -/
structure Host where
  flat : Flat
  dealings : List Dealing
  spoken : List SpeakCall
  /-- The parked jobs, each with the number of the call to speak that it is of. -/
  jobs : List (Nat × FlatJob)
  shown : List (Option Nat × FlatEvent)

namespace Host

def start (p : Platform) : Host := ⟨.ofPlatform p, [], [], [], []⟩

/-- Parked jobs that are not of earlier calls are of the call with the number. -/
def adopt (flat : Flat) (earlier : List (Nat × FlatJob)) (k : Nat) : List (Nat × FlatJob) :=
  earlier ++ (flat.studio.parked.drop earlier.length).map (k, ·)

def asks (h : Host) (handle : Nat) (text : Option (List UInt16)) : SpeakCall :=
  let result := (h.flat.speak handle text).2.2
  { handle, text, result
    before := h.dealings
    platform := h.flat.studio.world
    course :=
      if result = .status 0 then .submitted (Utf16.untilZero (text.getD [])) h.flat.studio.world
      else .fresh }

def speak (h : Host) (handle : Nat) (text : Option (List UInt16)) : Host :=
  let (flat, events, result) := h.flat.speak handle text
  { flat
    dealings := h.dealings ++ [⟨handle, .speak text, result⟩]
    spoken := h.spoken ++ [h.asks handle text]
    jobs := adopt flat h.jobs h.spoken.length
    shown := h.shown ++ events.map (some h.spoken.length, ·) }

def deal (h : Host) (handle : Nat) (c : FlatCall) : Host :=
  let (flat, events, result) := h.flat.perform handle c
  { h with
    flat
    dealings := h.dealings ++ [⟨handle, c, result⟩]
    shown := h.shown ++ events.map (none, ·) }

def call (h : Host) (handle : Nat) : FlatCall → Host
  | .speak text => h.speak handle text
  | c => h.deal handle c

def complete (h : Host) (index : Nat) : Host :=
  let (flat, events, _) := h.flat.complete index
  match h.jobs[index]? with
  | none => { h with flat, shown := h.shown ++ events.map (none, ·) }
  | some (k, job) =>
    { h with
      flat
      spoken := h.spoken.modify k (·.hear h.flat.studio.world job)
      jobs := adopt flat (h.jobs.eraseIdx index) k
      shown := h.shown ++ events.map (some k, ·) }

def plan (h : Host) (change : Platform → Platform) : Host := { h with flat := h.flat.plan change }

inductive Move : Host → Host → Prop where
  | call (h) (handle) (c) : Move h (h.call handle c)
  | complete (h) (index) : Move h (h.complete index)
  | plan (h) (change) : Move h (h.plan change)

inductive Reached : Host → Prop where
  | start (p) : Reached (start p)
  | move {h t} : Reached h → Move h t → Reached t

/-- The callbacks that the submission and the jobs of a call to speak have led to. -/
def callbacks (h : Host) (k : Nat) : List FlatEvent :=
  (h.shown.filter fun e => e.1 = some k && e.2.isCallback).map (·.2)

def jobsOf (h : Host) (k : Nat) : List FlatJob := (h.jobs.filter (·.1 = k)).map (·.2)

/-- A call to speak was refused, or its utterance waits in one job, or has ended. -/
inductive Stands (h : Host) (k : Nat) (s : SpeakCall) : Prop where
  | refused : s.result = .status (-1) → (∀ id synthesis, ¬ s.Accepted id synthesis) →
      h.jobsOf k = [] → h.callbacks k = [] → Stands h k s
  | waiting {id synthesis job} : s.result = .status 0 → s.Accepted id synthesis →
      job.sink = id → s.course.Waits synthesis.reports job → h.jobsOf k = [job] →
      h.callbacks k = [] → Stands h k s
  | ended {id synthesis fate} : s.result = .status 0 → s.Accepted id synthesis →
      s.course.Own synthesis.reports →
      (∀ bytes markers, fate = .delivered bytes markers ↔ s.course.Delivers bytes markers) →
      h.jobsOf k = [] →
      h.callbacks k = (Flat.showHappening (.ended id fate)).filter FlatEvent.isCallback →
      Stands h k s

structure Kept (h : Host) : Prop where
  parked : h.jobs.map (·.2) = h.flat.studio.parked
  registered : ∀ handle, h.flat.registered handle = registration h.dealings handle
  untagged : ∀ e ∈ h.shown, e.1 = none → e.2.isCallback = false
  stands : ∀ k s, h.spoken[k]? = some s → Stands h k s
  strangers : ∀ k, h.spoken.length ≤ k → h.jobsOf k = [] ∧ h.callbacks k = []

theorem Stands.of_unchanged {h t : Host} {k : Nat} {s : SpeakCall} (hs : Stands h k s)
    (hj : t.jobsOf k = h.jobsOf k) (hc : t.callbacks k = h.callbacks k) : Stands t k s := by
  cases hs with
  | refused hr ha hjobs hcalls => exact .refused hr ha (hj.trans hjobs) (hc.trans hcalls)
  | waiting hr ha hsink hw hjobs hcalls =>
    exact .waiting hr ha hsink hw (hj.trans hjobs) (hc.trans hcalls)
  | ended hr ha hown hf hjobs hcalls =>
    exact .ended hr ha hown hf (hj.trans hjobs) (hc.trans hcalls)

theorem stands_of_leads {t : Host} {k : Nat} {s : SpeakCall} {id : CallbackId}
    {synthesis : Operation Rendering} {p : Progress Rendering (List UInt8) CallbackId}
    (hr : s.result = .status 0) (ha : s.Accepted id synthesis)
    (hl : Course.Leads synthesis.reports s.course id p) (hj : t.jobsOf k = p.parked)
    (hc : t.callbacks k = p.callbacks) : Stands t k s := by
  cases hl with
  | waiting hsink hw => exact .waiting hr ha hsink hw hj hc
  | ended hown hf => exact .ended hr ha hown hf hj hc

theorem callbacks_tagged (events : List FlatEvent) (tag : Option Nat) (n : Nat) :
    ((events.map (tag, ·)).filter fun e => e.1 = some n && e.2.isCallback).map (·.2) =
      if tag = some n then events.filter FlatEvent.isCallback else [] := by
  rw [List.filter_map, List.map_map]
  by_cases ht : tag = some n
  · simp [Function.comp_def, ht]
  · simp [Function.comp_def, ht]

theorem jobs_tagged (jobs : List FlatJob) (k n : Nat) :
    ((jobs.map (k, ·)).filter (·.1 = n)).map (·.2) = if k = n then jobs else [] := by
  rw [List.filter_map, List.map_map]
  by_cases hk : k = n
  · simp [Function.comp_def, hk]
  · simp [Function.comp_def, hk]

theorem callbacks_append {h t : Host} {events : List FlatEvent} {tag : Option Nat}
    (he : t.shown = h.shown ++ events.map (tag, ·)) (n : Nat) :
    t.callbacks n =
      h.callbacks n ++ if tag = some n then events.filter FlatEvent.isCallback else [] := by
  rw [callbacks, he, List.filter_append, List.map_append, callbacks_tagged]
  rfl

theorem jobs_adopt {t : Host} {earlier : List (Nat × FlatJob)} {k : Nat} {jobs : List FlatJob}
    (hj : t.jobs = adopt t.flat earlier k)
    (hp : t.flat.studio.parked = earlier.map (·.2) ++ jobs) :
    t.jobs.map (·.2) = t.flat.studio.parked ∧
      ∀ n, t.jobsOf n = (earlier.filter (·.1 = n)).map (·.2) ++ if k = n then jobs else [] := by
  have hd : t.flat.studio.parked.drop earlier.length = jobs := by
    rw [hp]
    exact List.drop_left' (List.length_map _)
  have ht : t.jobs = earlier ++ jobs.map (k, ·) := by rw [hj, adopt, hd]
  constructor
  · rw [ht, hp, List.map_append, List.map_map]
    congr 1
    exact List.map_id _
  · intro n
    rw [jobsOf, ht, List.filter_append, List.map_append, jobs_tagged]

theorem untagged_append {h : Host} {events : List FlatEvent} {tag : Option Nat}
    (hu : ∀ e ∈ h.shown, e.1 = none → e.2.isCallback = false)
    (ht : tag = none → events.filter FlatEvent.isCallback = []) :
    ∀ e ∈ h.shown ++ events.map (tag, ·), e.1 = none → e.2.isCallback = false := by
  intro e he hn
  rcases List.mem_append.mp he with he | he
  · exact hu e he hn
  · obtain ⟨event, hm, rfl⟩ := List.mem_map.mp he
    exact Bool.eq_false_iff.mpr (List.filter_eq_nil_iff.mp (ht hn) event hm)

theorem Kept.plan {h : Host} (hk : Kept h) (change : Platform → Platform) :
    Kept (h.plan change) := by
  refine ⟨hk.parked, hk.registered, hk.untagged, ?_, hk.strangers⟩
  intro k s hs
  exact (hk.stands k s hs).of_unchanged rfl rfl

theorem Kept.dealt {h t : Host} (hk : Kept h) {d : Dealing} {events : List FlatEvent}
    (hd : Flat.Deals h.flat t.flat d events) (hdealings : t.dealings = h.dealings ++ [d])
    (hspoken : t.spoken = h.spoken) (hjobs : t.jobs = h.jobs)
    (hshown : t.shown = h.shown ++ events.map (none, ·)) : Kept t := by
  have hcalls : ∀ n, t.callbacks n = h.callbacks n := by
    intro n
    rw [callbacks_append hshown, if_neg (by simp), List.append_nil]
  have hjobsOf : ∀ n, t.jobsOf n = h.jobsOf n := by
    intro n
    rw [jobsOf, hjobs, jobsOf]
  constructor
  · rw [hjobs, hk.parked, hd.parked]
  · intro handle
    rw [hd.registered, hdealings, registration_concat, hk.registered]
  · rw [hshown]
    exact untagged_append hk.untagged fun _ => hd.callbacks
  · rw [hspoken]
    intro k s hs
    exact (hk.stands k s hs).of_unchanged (hjobsOf k) (hcalls k)
  · rw [hspoken]
    intro k hlt
    rw [hjobsOf, hcalls]
    exact hk.strangers k hlt

theorem Kept.spoken {h t : Host} (hk : Kept h) {d : Dealing} {s : SpeakCall}
    {events : List FlatEvent} {jobs : List FlatJob}
    (hregistered : ∀ n, t.flat.registered n = h.flat.registered n)
    (hd : ∀ registered, d.registers registered = registered)
    (hdealings : t.dealings = h.dealings ++ [d]) (hspoken : t.spoken = h.spoken ++ [s])
    (hjobs : t.jobs = adopt t.flat h.jobs h.spoken.length)
    (hparked : t.flat.studio.parked = h.flat.studio.parked ++ jobs)
    (hshown : t.shown = h.shown ++ events.map (some h.spoken.length, ·))
    (hs : t.jobsOf h.spoken.length = jobs →
      t.callbacks h.spoken.length = events.filter FlatEvent.isCallback →
      Stands t h.spoken.length s) : Kept t := by
  rw [← hk.parked] at hparked
  obtain ⟨hall, hof⟩ := jobs_adopt hjobs hparked
  have hjobsOf : ∀ n, t.jobsOf n = h.jobsOf n ++ if h.spoken.length = n then jobs else [] := hof
  have hcalls := callbacks_append hshown
  have hother : ∀ n, h.spoken.length ≠ n →
      t.jobsOf n = h.jobsOf n ∧ t.callbacks n = h.callbacks n := by
    intro n hn
    rw [hjobsOf, hcalls, if_neg hn, if_neg (fun he => hn (Option.some.inj he))]
    exact ⟨List.append_nil _, List.append_nil _⟩
  obtain ⟨hnojobs, hnocalls⟩ := hk.strangers h.spoken.length (Nat.le_refl _)
  constructor
  · exact hall
  · intro handle
    rw [hregistered, hdealings, registration_concat, hd, ite_self, hk.registered]
  · rw [hshown]
    exact untagged_append hk.untagged fun he => absurd he (Option.some_ne_none _)
  · intro k u hu
    rw [hspoken] at hu
    by_cases hlt : k < h.spoken.length
    · rw [List.getElem?_append_left hlt] at hu
      obtain ⟨hj, hc⟩ := hother k (Nat.ne_of_gt hlt)
      exact (hk.stands k u hu).of_unchanged hj hc
    · have hle := Nat.le_of_not_lt hlt
      rw [List.getElem?_append_right hle, List.getElem?_singleton] at hu
      split at hu
      next hzero =>
        obtain rfl : k = h.spoken.length := by omega
        rw [← Option.some.inj hu]
        apply hs
        · rw [hjobsOf, hnojobs, if_pos rfl, List.nil_append]
        · rw [hcalls, hnocalls, if_pos rfl, List.nil_append]
      next => cases hu
  · intro k hle
    rw [hspoken, List.length_append, List.length_singleton] at hle
    obtain ⟨hj, hc⟩ := hother k (by omega)
    rw [hj, hc]
    exact hk.strangers k (by omega)

theorem Kept.speak {h : Host} (hk : Kept h) (handle : Nat) (text : Option (List UInt16)) :
    Kept (h.speak handle text) := by
  by_cases ha : ∃ id units synthesis, h.flat.registered handle = some (some id) ∧
      text = some units ∧
      ((Platform.synthesize (Utf16.untilZero units)).run h.flat.studio.world).result =
        .ok synthesis
  · obtain ⟨id, units, synthesis, hr, rfl, hs⟩ := ha
    obtain ⟨p, hl, hparked, hinst, hcalls, hres⟩ := Flat.speak_of_accepted hr hs
    refine hk.spoken (Flat.registered_of_instances hinst) (fun _ => rfl) rfl rfl rfl hparked rfl ?_
    intro hj hc
    have haccepted : (h.asks handle (some units)).Accepted id synthesis := by
      refine ⟨?_, units, rfl, hs⟩
      rw [← hr]
      exact (hk.registered handle).symm
    apply stands_of_leads hres haccepted _ hj (hc.trans hcalls)
    rw [asks, if_pos hres]
    exact hl
  · have hn : ∀ id units synthesis, h.flat.registered handle = some (some id) →
        text = some units →
        ((Platform.synthesize (Utf16.untilZero units)).run h.flat.studio.world).result ≠
          .ok synthesis := by
      intro id units synthesis hr ht hs
      exact ha ⟨id, units, synthesis, hr, ht, hs⟩
    obtain ⟨hparked, hinst, hcalls, hres⟩ := Flat.speak_of_refused hn
    rw [← List.append_nil h.flat.studio.parked] at hparked
    refine hk.spoken (Flat.registered_of_instances hinst) (fun _ => rfl) rfl rfl rfl hparked rfl ?_
    intro hj hc
    refine .refused hres ?_ hj (hc.trans hcalls)
    rintro id synthesis ⟨hr, units, ht, hs⟩
    exact hn id units synthesis ((hk.registered handle).trans hr) ht hs

theorem call_of_ne (h : Host) (handle : Nat) {c : FlatCall} (hc : ∀ text, c ≠ .speak text) :
    h.call handle c = h.deal handle c := by
  cases c with
  | speak text => exact absurd rfl (hc text)
  | _ => rfl

theorem Kept.call {h : Host} (hk : Kept h) (handle : Nat) (c : FlatCall) :
    Kept (h.call handle c) := by
  by_cases hc : ∃ text, c = .speak text
  · obtain ⟨text, rfl⟩ := hc
    exact hk.speak handle text
  · have hn : ∀ text, c ≠ .speak text := fun text ht => hc ⟨text, ht⟩
    rw [h.call_of_ne handle hn]
    exact hk.dealt (h.flat.deals_perform handle hn) rfl rfl rfl rfl

theorem jobsOf_of_ne {h : Host} {before after : List (Nat × FlatJob)} {k n : Nat} {job : FlatJob}
    (hj : h.jobs = before ++ (k, job) :: after) (hn : k ≠ n) :
    h.jobsOf n = ((before ++ after).filter (·.1 = n)).map (·.2) := by
  rw [jobsOf, hj, List.filter_append, List.filter_append, List.filter_cons_of_neg (by simpa)]

theorem others_of_jobsOf {h : Host} {before after : List (Nat × FlatJob)} {k : Nat}
    {job job' : FlatJob} (hj : h.jobs = before ++ (k, job) :: after) (hw : h.jobsOf k = [job']) :
    job' = job ∧ ((before ++ after).filter (·.1 = k)).map (·.2) = [] := by
  rw [jobsOf, hj, List.filter_append, List.filter_cons_of_pos (by simp), List.map_append,
    List.map_cons] at hw
  rw [List.filter_append, List.map_append]
  cases hb : (before.filter (·.1 = k)).map (·.2) with
  | nil =>
    rw [hb, List.nil_append] at hw
    obtain ⟨hjob, hafter⟩ := List.cons.inj hw
    exact ⟨hjob.symm, hafter⟩
  | cons first rest =>
    rw [hb] at hw
    have hlength := congrArg List.length hw
    simp at hlength

/-- The job of a call is replaced by what it leads to, and so the call is told of it. -/
theorem Kept.resumed {h t : Host} (hk : Kept h) {before after : List (Nat × FlatJob)} {k : Nat}
    {job : FlatJob} {events : List FlatEvent} (hj : h.jobs = before ++ (k, job) :: after)
    (hinst : t.flat.instances = h.flat.instances) (hdealings : t.dealings = h.dealings)
    (hspoken : t.spoken = h.spoken.modify k (·.hear h.flat.studio.world job))
    (hjobs : t.jobs = adopt t.flat (before ++ after) k)
    (hparked : t.flat.studio.parked = (before ++ after).map (·.2) ++
      (Pipeline.resume h.flat.studio.world job).progress.parked)
    (hshown : t.shown = h.shown ++ events.map (some k, ·))
    (hevents : events.filter FlatEvent.isCallback =
      (Pipeline.resume h.flat.studio.world job).progress.callbacks) : Kept t := by
  obtain ⟨hall, hof⟩ := jobs_adopt hjobs hparked
  have hcalls := callbacks_append hshown
  have hother : ∀ n, k ≠ n → t.jobsOf n = h.jobsOf n ∧ t.callbacks n = h.callbacks n := by
    intro n hn
    rw [hof, hcalls, jobsOf_of_ne hj hn, if_neg hn, if_neg (fun he => hn (Option.some.inj he))]
    exact ⟨List.append_nil _, List.append_nil _⟩
  have hmem : job ∈ h.jobsOf k := by
    rw [jobsOf, hj]
    simp
  constructor
  · exact hall
  · intro handle
    rw [Flat.registered_of_instances hinst, hdealings, hk.registered]
  · rw [hshown]
    exact untagged_append hk.untagged fun he => absurd he (Option.some_ne_none _)
  · intro n u hu
    rw [hspoken] at hu
    by_cases hn : k = n
    · subst hn
      rw [List.getElem?_modify_eq] at hu
      obtain ⟨s, hs, rfl⟩ := Option.map_eq_some_iff.mp hu
      cases hk.stands k s hs with
      | refused _ _ hnone _ =>
        rw [hnone] at hmem
        cases hmem
      | ended _ _ _ _ hnone _ =>
        rw [hnone] at hmem
        cases hmem
      | waiting hr ha hsink hw hone hnocalls =>
        obtain ⟨rfl, hothers⟩ := others_of_jobsOf hj hone
        subst hsink
        refine stands_of_leads hr ⟨ha.registered, ha.synthesis⟩ (hw.resume _) ?_ ?_
        · rw [hof, hothers, if_pos rfl, List.nil_append]
        · rw [hcalls, hnocalls, if_pos rfl, hevents, List.nil_append]
    · rw [List.getElem?_modify_ne _ _ hn] at hu
      obtain ⟨hjn, hcn⟩ := hother n hn
      exact (hk.stands n u hu).of_unchanged hjn hcn
  · intro n hle
    rw [hspoken, List.length_modify] at hle
    have hn : k ≠ n := by
      rintro rfl
      rw [(hk.strangers k hle).1] at hmem
      cases hmem
    obtain ⟨hjn, hcn⟩ := hother n hn
    rw [hjn, hcn]
    exact hk.strangers n hle

theorem Kept.complete {h : Host} (hk : Kept h) (index : Nat) : Kept (h.complete index) := by
  have hat : h.flat.studio.parked[index]? = (h.jobs[index]?).map (·.2) := by
    rw [← hk.parked, List.getElem?_map]
  cases hi : h.jobs[index]? with
  | none =>
    rw [hi] at hat
    have ht : h.complete index = h := by
      simp only [Host.complete, Flat.complete_of_none hat, hi, List.map_nil, List.append_nil]
    rw [ht]
    exact hk
  | some tagged =>
    obtain ⟨k, job⟩ := tagged
    rw [hi] at hat
    obtain ⟨hparked, hinst, hcalls⟩ := Flat.complete_of_some hat
    obtain ⟨before, after, hj, herase⟩ := Recording.exists_split_of_getElem? hi
    rw [← hk.parked, List.eraseIdx_map, herase] at hparked
    have ht : h.complete index =
        { h with
          flat := (h.flat.complete index).1
          spoken := h.spoken.modify k (·.hear h.flat.studio.world job)
          jobs := adopt (h.flat.complete index).1 (before ++ after) k
          shown := h.shown ++ (h.flat.complete index).2.1.map (some k, ·) } := by
      simp only [Host.complete, hi, herase]
    rw [ht]
    exact hk.resumed hj hinst rfl rfl rfl hparked rfl hcalls

theorem kept_start (p : Platform) : Kept (start p) := by
  constructor
  · rfl
  · intro handle
    rfl
  · intro e he
    cases he
  · intro k s hs
    cases hs
  · intro k _
    exact ⟨rfl, rfl⟩

theorem Reached.kept {h : Host} (hr : Reached h) : Kept h := by
  induction hr with
  | start p => exact kept_start p
  | move _ hm ih =>
    cases hm with
    | call handle c => exact ih.call handle c
    | complete index => exact ih.complete index
    | plan change => exact ih.plan change

theorem map_modify_of_eq {α β : Type} {f : α → α} {g : α → β} (h : ∀ a, g (f a) = g a)
    (l : List α) (i : Nat) : (l.modify i f).map g = l.map g := by
  apply List.ext_getElem?
  intro j
  rw [List.getElem?_map, List.getElem?_map, List.getElem?_modify]
  cases l[j]? with
  | none => rfl
  | some a =>
    by_cases hij : i = j
    · simp [hij, h]
    · simp [hij]

structure Faithful (h : Host) : Prop where
  asked : h.spoken.map SpeakCall.dealing = h.dealings.filter Dealing.isSpeak
  past : ∀ past ∈ h.spoken.map SpeakCall.past, past <+: h.dealings

theorem Faithful.call {h : Host} (hf : Faithful h) (handle : Nat) (c : FlatCall) :
    Faithful (h.call handle c) := by
  have hlater : ∀ d, ∀ past ∈ h.spoken.map SpeakCall.past, past <+: h.dealings ++ [d] := by
    intro d past hp
    exact (hf.past past hp).trans (List.prefix_append _ _)
  by_cases hc : ∃ text, c = .speak text
  · obtain ⟨text, rfl⟩ := hc
    constructor
    · change (h.spoken ++ [h.asks handle text]).map SpeakCall.dealing =
        (h.dealings ++ [(h.asks handle text).dealing]).filter Dealing.isSpeak
      rw [List.map_append, List.filter_append, hf.asked]
      rfl
    · intro past hp
      change past ∈ (h.spoken ++ [h.asks handle text]).map SpeakCall.past at hp
      change past <+: h.dealings ++ [(h.asks handle text).dealing]
      rw [List.map_append] at hp
      rcases List.mem_append.mp hp with hp | hp
      · exact hlater _ past hp
      · rw [List.mem_singleton.mp hp]
        exact List.prefix_rfl
  · have hn : ∀ text, c ≠ .speak text := fun text ht => hc ⟨text, ht⟩
    rw [h.call_of_ne handle hn]
    have hs : ∀ result, (⟨handle, c, result⟩ : Dealing).isSpeak = false := by
      intro result
      cases c with
      | speak text => exact absurd rfl (hn text)
      | _ => rfl
    constructor
    · simp [deal, hs, hf.asked]
    · exact hlater _

theorem Faithful.complete {h : Host} (hf : Faithful h) (index : Nat) :
    Faithful (h.complete index) := by
  unfold Host.complete
  dsimp only
  split
  next => exact ⟨hf.asked, hf.past⟩
  next k job _ =>
    have hd : ∀ s : SpeakCall, (s.hear h.flat.studio.world job).dealing = s.dealing :=
      fun _ => rfl
    have hp : ∀ s : SpeakCall, (s.hear h.flat.studio.world job).past = s.past := fun _ => rfl
    constructor
    · rw [map_modify_of_eq hd]
      exact hf.asked
    · rw [map_modify_of_eq hp]
      exact hf.past

theorem Reached.faithful {h : Host} (hr : Reached h) : Faithful h := by
  induction hr with
  | start p =>
    refine ⟨rfl, ?_⟩
    intro past hp
    cases hp
  | move _ hm ih =>
    cases hm with
    | call handle c => exact ih.call handle c
    | complete index => exact ih.complete index
    | plan change => exact ⟨ih.asked, ih.past⟩

end Host

end SpeechBridge
