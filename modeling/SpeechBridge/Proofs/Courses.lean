import SpeechBridge.Proofs.Fates

/-!
# The course of an utterance

An engine need not answer alike whenever it is asked. What becomes of an utterance depends on what
its continuations are told, and on the engine at that moment. Main statement: an utterance ends
delivered exactly if both of its operations have reported success and its markers and its bytes can
be read then, and it is delivered with those.
-/
namespace SpeechBridge

/-- A report that a continuation is called with, and the engine as it finds it. -/
structure Told (W α : Type) where
  report : Except Error α
  engine : W

/-- What the continuations of an utterance have been told so far. -/
structure Course (W Stream Audio : Type) where
  stream : Option (Told W Stream)
  audio : Option (Told W Audio)

namespace Course

variable {W E Stream Audio S : Type}

def fresh : Course W Stream Audio := ⟨none, none⟩

def hearAudio (c : Course W Stream Audio) (reports : List (Except Error Audio)) (w : W) :
    Course W Stream Audio :=
  { c with audio := reports.head?.map fun report => ⟨report, w⟩ }

variable [Renderer W E Stream Audio]

def hearStream (c : Course W Stream Audio) (reports : List (Except Error Stream)) (w : W) :
    Course W Stream Audio :=
  match reports with
  | [] => c
  | report :: _ =>
    let heard := { c with stream := some ⟨report, w⟩ }
    let reply := (Pipeline.collect report).run w
    match reply.result with
    | .ok (_, .atOnce reports) => heard.hearAudio reports reply.world
    | _ => heard

/-- What the utterance is told when its job is run. -/
def hear (c : Course W Stream Audio) (w : W) : Job Stream Audio S → Course W Stream Audio
  | .synthesis reports _ => c.hearStream reports w
  | .read reports _ _ => c.hearAudio reports w

def submitted (document : String) (w : W) : Course W Stream Audio :=
  let reply := (Renderer.synthesize document : Act W E (Operation Stream)).run w
  match reply.result with
  | .ok (.atOnce reports) => fresh.hearStream reports reply.world
  | _ => fresh

/-- Both operations have reported success, and the markers and the bytes can be read then. -/
inductive Delivers : Course W Stream Audio → List UInt8 → List Marker → Prop where
  | mk {stream : Stream} {audio : Audio} {v w : W} {bytes markers} :
      ((Renderer.markers stream : Act W E (List Marker)).run v).result = .ok markers →
      ((Renderer.bytes audio : Act W E (List UInt8)).run w).result = .ok bytes →
      Delivers ⟨some ⟨.ok stream, v⟩, some ⟨.ok audio, w⟩⟩ bytes markers

structure Reads (reports : List (Except Error Stream)) (c : Course W Stream Audio)
    (stream : Stream) (w : W) (markers : List Marker) (read : Operation Audio) : Prop where
  own : reports.head? = some (.ok stream)
  told : c.stream = some ⟨.ok stream, w⟩
  markers : ((Renderer.markers stream : Act W E (List Marker)).run w).result = .ok markers
  read : ((Renderer.readToEnd stream : Act W E (Operation Audio)).run
    ((Renderer.markers stream : Act W E (List Marker)).run w).world).result = .ok read

/-- The job is what an utterance waits in whose synthesis makes the reports. -/
def Waits (reports : List (Except Error Stream)) (c : Course W Stream Audio) :
    Job Stream Audio S → Prop
  | .synthesis parked _ => c = fresh ∧ parked = reports
  | .read parked markers _ => c.audio = none ∧
      ∃ stream w read, c.Reads reports stream w markers read ∧ parked = read.reports

/-- An utterance is told the first report of its synthesis, and the first one of the read of the
stream that it has got from that. -/
structure Own (reports : List (Except Error Stream)) (c : Course W Stream Audio) : Prop where
  stream : ∀ told, c.stream = some told → reports.head? = some told.report
  audio : ∀ told, c.audio = some told → ∃ stream w markers read,
    c.Reads reports stream w markers read ∧ read.reports.head? = some told.report

/-- Where an utterance is: it waits in a job of its own, or has ended as its course says. -/
inductive Leads (reports : List (Except Error Stream)) (c : Course W Stream Audio) (sink : S) :
    Progress Stream Audio S → Prop where
  | waiting {job} : job.sink = sink → c.Waits reports job → Leads reports c sink (.waiting job)
  | ended {fate} : c.Own reports →
      (∀ bytes markers, fate = .delivered bytes markers ↔ c.Delivers bytes markers) →
      Leads reports c sink (.ended sink fate)

variable {reports : List (Except Error Stream)} {c : Course W Stream Audio}

theorem Delivers.inj {bytes bytes' : List UInt8} {markers markers' : List Marker}
    (h : c.Delivers bytes markers) (k : c.Delivers bytes' markers') :
    bytes = bytes' ∧ markers = markers' := by
  cases h with
  | mk hm hb =>
    cases k with
    | mk hm' hb' =>
      constructor
      · exact Except.ok.inj (hb.symm.trans hb')
      · exact Except.ok.inj (hm.symm.trans hm')

theorem not_delivers_of_none (h : c.audio = none) (bytes : List UInt8) (markers : List Marker) :
    ¬ c.Delivers bytes markers := by
  intro hd
  cases hd with
  | mk => cases h

theorem own_fresh : (fresh : Course W Stream Audio).Own reports := by
  constructor
  · intro told h
    cases h
  · intro told h
    cases h

theorem own_of_none {report : Except Error Stream} {w : W} (hs : c.stream = some ⟨report, w⟩)
    (hr : reports.head? = some report) (ha : c.audio = none) : c.Own reports := by
  constructor
  · intro told h
    rw [hs] at h
    rw [hr, ← Option.some.inj h]
  · intro told h
    cases ha.symm.trans h

theorem Waits.own {job : Job Stream Audio S} (h : c.Waits reports job) :
    c.Own reports ∧ c.audio = none := by
  cases job with
  | synthesis parked sink =>
    obtain ⟨rfl, _⟩ := h
    exact ⟨own_fresh, rfl⟩
  | read parked markers sink =>
    obtain ⟨ha, stream, w, read, hr, _⟩ := h
    exact ⟨own_of_none hr.told hr.own ha, ha⟩

theorem result_collect_eq_ok {report : Except Error Stream} {w : W} {markers : List Marker}
    {read : Operation Audio} :
    ((Pipeline.collect report : Act W E (List Marker × Operation Audio)).run w).result =
        .ok (markers, read) ↔
      ∃ stream, report = .ok stream ∧
        ((Renderer.markers stream : Act W E (List Marker)).run w).result = .ok markers ∧
        ((Renderer.readToEnd stream : Act W E (Operation Audio)).run
          ((Renderer.markers stream : Act W E (List Marker)).run w).world).result = .ok read := by
  cases report with
  | error e =>
    constructor
    · intro h
      cases h
    · rintro ⟨stream, h, _⟩
      cases h
  | ok stream =>
    constructor
    · intro h
      obtain ⟨stream', hs, h⟩ := Act.result_bind_eq_ok.mp h
      obtain ⟨markers', hm, h⟩ := Act.result_bind_eq_ok.mp h
      obtain ⟨read', hr, h⟩ := Act.result_bind_eq_ok.mp h
      cases hs
      cases h
      exact ⟨stream, rfl, hm, hr⟩
    · rintro ⟨stream', hs, hm, hr⟩
      cases hs
      apply Act.result_bind_eq_ok.mpr
      refine ⟨stream, rfl, ?_⟩
      apply Act.result_bind_eq_ok.mpr
      refine ⟨markers, hm, ?_⟩
      exact Act.result_bind_eq_ok.mpr ⟨read, hr, rfl⟩

theorem delivers_iff {stream : Stream} {report : Except Error Audio} {v w : W}
    {markers : List Marker}
    (h : ((Renderer.markers stream : Act W E (List Marker)).run v).result = .ok markers)
    (bytes : List UInt8) (markers' : List Marker) :
    (⟨some ⟨.ok stream, v⟩, some ⟨report, w⟩⟩ : Course W Stream Audio).Delivers bytes markers' ↔
      ∃ audio, report = .ok audio ∧
        ((Renderer.bytes audio : Act W E (List UInt8)).run w).result = .ok bytes ∧
        markers = markers' := by
  constructor
  · rintro ⟨hm, hb⟩
    exact ⟨_, rfl, hb, Except.ok.inj (h.symm.trans hm)⟩
  · rintro ⟨audio, rfl, hb, rfl⟩
    exact ⟨h, hb⟩

theorem exists_fate_onAudio (sink : S) (markers : List Marker) (report : Except Error Audio)
    (w : W) :
    ∃ fate, (Pipeline.onAudio sink markers report w).progress = .ended sink fate ∧
      ∀ bytes markers', fate = .delivered bytes markers' ↔
        ∃ audio, report = .ok audio ∧
          ((Renderer.bytes audio : Act W E (List UInt8)).run w).result = .ok bytes ∧
          markers = markers' := by
  have hr : ∀ bytes, ((do Renderer.bytes (← Act.ofExcept report) : Act W E (List UInt8)).run
      w).result = .ok bytes ↔ ∃ audio, report = .ok audio ∧
        ((Renderer.bytes audio : Act W E (List UInt8)).run w).result = .ok bytes :=
    fun bytes => Act.result_bind_eq_ok
  rw [Pipeline.onAudio]
  split
  next bytes h =>
    refine ⟨_, rfl, ?_⟩
    intro bytes' markers'
    rw [Fate.delivered.injEq]
    constructor
    · rintro ⟨rfl, rfl⟩
      obtain ⟨audio, ha, hb⟩ := (hr bytes).mp h
      exact ⟨audio, ha, hb, rfl⟩
    · rintro ⟨audio, ha, hb, rfl⟩
      have hb' := (hr bytes').mpr ⟨audio, ha, hb⟩
      exact ⟨Except.ok.inj (h.symm.trans hb'), rfl⟩
  next e h =>
    refine ⟨_, rfl, ?_⟩
    intro bytes markers'
    apply iff_of_false Fate.noConfusion
    rintro ⟨audio, ha, hb, _⟩
    cases h.symm.trans ((hr bytes).mpr ⟨audio, ha, hb⟩)

theorem leads_onReadReports {stream : Stream} {v : W} {markers : List Marker}
    {read : Operation Audio} (h : c.Reads reports stream v markers read) (sink : S) (w : W) :
    Leads reports (c.hearAudio read.reports w) sink
      (Pipeline.onReadReports sink markers read.reports w).progress := by
  rw [Pipeline.onReadReports, Slot.calls_full]
  cases hr : read.reports with
  | nil =>
    have hs : (c.hearAudio [] w).stream = some ⟨.ok stream, v⟩ := h.told
    refine .ended (own_of_none hs h.own rfl) ?_
    intro bytes markers
    exact iff_of_false Fate.noConfusion (not_delivers_of_none rfl bytes markers)
  | cons report later =>
    have hc : c.hearAudio (report :: later) w =
        ⟨some ⟨.ok stream, v⟩, some ⟨report, w⟩⟩ := by
      rw [hearAudio, h.told]
      rfl
    obtain ⟨fate, hfate, hends⟩ := exists_fate_onAudio (E := E) sink markers report w
    rw [hc]
    change Leads reports _ sink (Pipeline.onAudio sink markers report w).progress
    rw [hfate]
    apply Leads.ended
    · constructor
      · intro told ht
        rw [h.own, ← Option.some.inj ht]
      · intro told ht
        refine ⟨stream, v, markers, read, ⟨h.own, rfl, h.markers, h.read⟩, ?_⟩
        rw [hr, ← Option.some.inj ht]
        rfl
    · intro bytes markers'
      rw [hends, delivers_iff h.markers]

theorem leads_onSynthesisReports (reports : List (Except Error Stream)) (sink : S) (w : W) :
    Leads reports ((fresh : Course W Stream Audio).hearStream reports w) sink
      (Pipeline.onSynthesisReports sink reports w).progress := by
  rw [Pipeline.onSynthesisReports, Slot.calls_full]
  cases reports with
  | nil =>
    apply Leads.ended own_fresh
    intro bytes markers
    exact iff_of_false Fate.noConfusion (not_delivers_of_none rfl bytes markers)
  | cons report later =>
    change Leads _ _ sink (Pipeline.onStream sink report w).progress
    rw [Pipeline.onStream, hearStream]
    cases h : ((Pipeline.collect report : Act W E (List Marker × Operation Audio)).run w).result with
    | error e =>
      apply Leads.ended (own_of_none rfl rfl rfl)
      intro bytes markers
      exact iff_of_false Fate.noConfusion (not_delivers_of_none rfl bytes markers)
    | ok collected =>
      obtain ⟨markers, read⟩ := collected
      obtain ⟨stream, rfl, hm, hr⟩ := result_collect_eq_ok.mp h
      cases read with
      | parked parked =>
        refine .waiting rfl ?_
        exact ⟨rfl, stream, w, .parked parked, ⟨rfl, rfl, hm, hr⟩, rfl⟩
      | atOnce reports =>
        have hreads : Reads (.ok stream :: later) (⟨some ⟨.ok stream, w⟩, none⟩ : Course _ _ Audio)
            stream w markers (.atOnce reports) := ⟨rfl, rfl, hm, hr⟩
        exact leads_onReadReports hreads sink _

theorem Waits.resume {job : Job Stream Audio S} (h : c.Waits reports job) (w : W) :
    Leads reports (c.hear w job) job.sink (Pipeline.resume w job).progress := by
  cases job with
  | synthesis parked sink =>
    obtain ⟨rfl, rfl⟩ := h
    exact leads_onSynthesisReports parked sink w
  | read parked markers sink =>
    obtain ⟨_, stream, v, read, hr, rfl⟩ := h
    exact leads_onReadReports hr sink w

theorem leads_submit {document : String} {w : W} {synthesis : Operation Stream} (sink : S)
    (h : ((Renderer.synthesize document : Act W E (Operation Stream)).run w).result =
      .ok synthesis) :
    ∃ progress, ((Pipeline.submit document sink : Act W E (Progress Stream Audio S)).run w).result =
        .ok progress ∧
      Leads synthesis.reports (submitted document w) sink progress := by
  rw [Pipeline.submit, Act.result_bind, submitted, h]
  cases synthesis with
  | parked reports => exact ⟨_, rfl, .waiting rfl ⟨rfl, rfl⟩⟩
  | atOnce reports => exact ⟨_, rfl, leads_onSynthesisReports reports sink _⟩

end Course

end SpeechBridge
