import Http1.Proofs.Probing
import Http1.Proofs.Steps
import Http1.Proofs.Uptake

/-! The two probes for input. Both depend on nothing but what is buffered, whether the wait can be
bounded, and what the first read comes to that is not interrupted (`Session.outlook`): a read that
timed out is no input and yet no sign that the peer is gone. Input that a probe has found keeps both
of them content until some of it is used (`Connection.probes_agree`). -/

namespace Http1

theorem IoErrorKind.isTimeout_iff {kind : IoErrorKind} :
    kind.isTimeout = true ↔ kind = .wouldBlock ∨ kind = .timedOut := by
  rw [isTimeout, Bool.or_eq_true, beq_iff_eq, beq_iff_eq]

theorem IoErrorKind.isTimeout_eq_false_iff {kind : IoErrorKind} :
    kind.isTimeout = false ↔ kind ≠ .wouldBlock ∧ kind ≠ .timedOut := by
  rw [← Bool.not_eq_true, isTimeout_iff, not_or]

def ReadEvent.isInterrupted : ReadEvent → Bool
  | data _ => false
  | fail error => error.kind = .interrupted

/-- What the first read comes to that is not interrupted, no bytes being the end of the stream. -/
def Source.outcome (source : Source) (offered : Nat) : Except IoError Bytes :=
  match source.script.find? fun event => !event.isInterrupted with
  | some (.data bytes) => .ok (bytes.take offered)
  | some (.fail error) => .error error
  | none => .ok []

theorem Source.read_outcome (source : Source) (offered : Nat) :
    (source.read offered).1 = source.outcome offered := by
  obtain ⟨script, calls⟩ := source
  unfold read outcome
  fun_induction readFrom offered calls script with
  | case1 calls => rfl
  | case2 calls bytes rest taken left => rfl
  | case3 calls error rest calls' hk ih =>
    rw [ih, List.find?_cons_of_neg]
    simpa [ReadEvent.isInterrupted] using hk
  | case4 calls error rest calls' hk =>
    rw [List.find?_cons_of_pos]
    simpa [ReadEvent.isInterrupted] using hk

namespace Inlet

/-- What the next fill comes to. -/
def outcome (inlet : Inlet) : Except IoError Bytes := inlet.source.outcome inlet.readSize

theorem fill_outcome (inlet : Inlet) :
    inlet.fill.1 = inlet.outcome.map List.length
      ∧ inlet.fill.2.buffered = inlet.buffered ++ Source.given inlet.outcome := by
  rw [outcome, ← Source.read_outcome]
  unfold fill
  rcases inlet.source.read inlet.readSize with ⟨error | bytes, source⟩
  · exact ⟨rfl, (List.append_nil _).symm⟩
  · exact ⟨rfl, rfl⟩

/-- A peek at an empty inlet shows what the next fill comes to. -/
theorem peek_outcome {inlet : Inlet} (hb : inlet.buffered = []) :
    inlet.peek.1 = (match inlet.outcome with
        | .ok [] => .ok .endOfStream
        | .ok bytes => .ok (.data bytes.length)
        | .error error => if error.kind.isTimeout then .ok .wouldBlock else .error error)
      ∧ inlet.peek.2.buffered = Source.given inlet.outcome := by
  obtain ⟨hanswer, hbuffered⟩ := inlet.fill_outcome
  rw [hb, List.nil_append] at hbuffered
  unfold peek
  rw [hb, if_neg (by simp)]
  generalize inlet.outcome = outcome at hanswer hbuffered ⊢
  rcases hfill : inlet.fill with ⟨answer, next⟩
  rw [hfill] at hanswer hbuffered
  obtain rfl : answer = outcome.map List.length := hanswer
  rcases outcome with error | _ | ⟨b, rest⟩
  · simp only [Except.map]
    split
    · exact ⟨rfl, hbuffered⟩
    · exact ⟨rfl, hbuffered⟩
  · exact ⟨rfl, hbuffered⟩
  · exact ⟨rfl, hbuffered⟩

/-- Since `first`, bytes have only been taken from the front and added at the back. -/
def Draws (first inlet : Inlet) : Prop :=
  ∃ used, used ++ inlet.ahead = first.ahead ∧ first.buffered <+: used ++ inlet.buffered

theorem Draws.refl (inlet : Inlet) : inlet.Draws inlet := ⟨[], rfl, List.prefix_refl _⟩

theorem draws_kept (first : Inlet) (most : Nat) : Kept most first.Draws where
  fill inlet _ h := by
    obtain ⟨used, hahead, hbuffered⟩ := h
    refine ⟨used, by rw [fill_ahead, hahead], hbuffered.trans ?_⟩
    exact (List.prefix_append_right_inj used).2 (Uptake.buffered_fill inlet)
  take inlet rest hrest h := by
    obtain ⟨used, hahead, hbuffered⟩ := h
    obtain ⟨front, hfront⟩ := hrest
    refine ⟨used ++ front, ?_, ?_⟩
    · rw [← hahead, ahead, ahead, ← hfront]
      simp only [List.append_assoc]
    · rwa [List.append_assoc, hfront]

/-- When nothing has been used, nothing that was buffered is gone. -/
theorem Draws.unused {first inlet : Inlet} (h : first.Draws inlet)
    (ha : inlet.ahead = first.ahead) : first.buffered <+: inlet.buffered := by
  obtain ⟨used, hahead, hbuffered⟩ := h
  rw [ha] at hahead
  rwa [List.append_left_eq_self.1 hahead, List.nil_append] at hbuffered

end Inlet

/-- What it comes to when the timeout is looked up and another one is set. -/
def Control.bounding (control : Control) : Except IoError Unit :=
  match control.query.1 with
  | .error error => .error error
  | .ok _ => control.changes.head?.getD (.ok ())

/-- What there is to be seen when one looks for input. -/
inductive Outlook
  | input
  | silence
  | ended
  | failed (error : IoError)

namespace Session

variable {session : Session}

theorem peekWithin_unbounded {error : IoError} (h : session.control.bounding = .error error)
    (timeout : Timeout) :
    (session.peekWithin timeout).1 = .error error
      ∧ (session.peekWithin timeout).2.inlet = session.inlet := by
  unfold Control.bounding at h
  split at h
  · next fault hq =>
    rw [peekWithin_unknown hq]
    cases h
    exact ⟨rfl, rfl⟩
  · next inForce hq =>
    have hc : (session.control.query.2.change timeout).1 = .error error := by
      simp only [Control.change, Control.query, h]
    rw [peekWithin_refused hq hc]
    exact ⟨rfl, rfl⟩

theorem peekWithin_bounded (h : session.control.bounding = .ok ()) (timeout : Timeout) :
    (session.peekWithin timeout).1 = session.inlet.peek.1
      ∧ (session.peekWithin timeout).2.inlet = (session.receiving Inlet.peek).2.inlet := by
  unfold Control.bounding at h
  split at h
  · cases h
  · next inForce hq =>
    have hc : (session.control.query.2.change timeout).1 = .ok () := by
      simp only [Control.change, Control.query, h]
    rw [peekWithin_looks hq hc]
    exact ⟨rfl, rfl⟩

def outlook (session : Session) : Outlook :=
  if session.inlet.buffered ≠ [] then .input
  else match session.control.bounding with
    | .error error => .failed error
    | .ok () => match session.inlet.outcome with
      | .ok [] => .ended
      | .ok (_ :: _) => .input
      | .error error => if error.kind.isTimeout then .silence else .failed error

/-- The inlet that looking for input leaves. -/
def probed (session : Session) : Inlet :=
  if session.inlet.buffered ≠ [] then session.inlet
  else match session.control.bounding with
    | .error _ => session.inlet
    | .ok () => (session.receiving Inlet.peek).2.inlet

/-- A look at an empty inlet shows the outlook. -/
theorem peekWithin_outlook (hb : session.inlet.buffered = []) (timeout : Timeout) :
    (session.peekWithin timeout).1 = (match session.outlook with
        | .input => .ok (.data session.probed.buffered.length)
        | .silence => .ok .wouldBlock
        | .ended => .ok .endOfStream
        | .failed error => .error error)
      ∧ (session.peekWithin timeout).2.inlet = session.probed := by
  rw [outlook, probed, if_neg (not_not.2 hb), if_neg (not_not.2 hb)]
  cases hbound : session.control.bounding with
  | error error => exact peekWithin_unbounded hbound timeout
  | ok u =>
    obtain ⟨hanswer, hinlet⟩ := peekWithin_bounded hbound timeout
    obtain ⟨hpeek, hbuffered⟩ := Inlet.peek_outcome hb
    refine ⟨?_, hinlet⟩
    have hreceived : (session.receiving Inlet.peek).2.inlet.buffered
        = Source.given session.inlet.outcome := hbuffered
    rw [hanswer, hpeek]
    simp only [hreceived]
    rcases session.inlet.outcome with error | _ | ⟨b, rest⟩
    · simp only
      split
      · rfl
      · rfl
    · rfl
    · rfl

/-- What a probe does: with something in the buffer it has found input, and otherwise it judges one
look at the source. -/
def glance {α : Type} (session : Session) (limit : Timeout) (found : α)
    (judge : Except IoError Peek → α) : α × Session :=
  if ¬ session.inlet.buffered.isEmpty then (found, session)
  else (judge (session.peekWithin limit).1, (session.peekWithin limit).2)

theorem glance_buffered {α : Type} (hb : session.inlet.buffered ≠ []) (limit : Timeout) (found : α)
    (judge : Except IoError Peek → α) : session.glance limit found judge = (found, session) := by
  simp [glance, hb]

/-- A probe that takes data for what it has found tells no more than the outlook. -/
theorem glance_outlook {α : Type} (session : Session) (limit : Timeout) (found : α)
    (judge : Except IoError Peek → α) (hfound : ∀ size, judge (.ok (.data size)) = found) :
    (session.glance limit found judge).1 = (match session.outlook with
        | .input => found
        | .silence => judge (.ok .wouldBlock)
        | .ended => judge (.ok .endOfStream)
        | .failed error => judge (.error error))
      ∧ (session.glance limit found judge).2.inlet = session.probed := by
  by_cases hb : session.inlet.buffered = []
  · obtain ⟨hanswer, hinlet⟩ := peekWithin_outlook hb limit
    rw [glance, hb, if_neg (by simp)]
    refine ⟨?_, hinlet⟩
    rw [hanswer]
    cases session.outlook with
    | input => exact hfound _
    | silence => rfl
    | ended => rfl
    | failed error => rfl
  · rw [glance_buffered hb, outlook, probed, if_pos hb, if_pos hb]
    exact ⟨rfl, rfl⟩

theorem probed_buffered (session : Session) :
    session.probed.buffered ≠ [] ↔ session.outlook = .input := by
  unfold probed outlook
  by_cases hb : session.inlet.buffered = []
  · rw [if_neg (not_not.2 hb), if_neg (not_not.2 hb)]
    cases hbound : session.control.bounding with
    | error error => simp [hb]
    | ok u =>
      have hreceived : (session.receiving Inlet.peek).2.inlet.buffered
          = Source.given session.inlet.outcome := (Inlet.peek_outcome hb).2
      simp only [hreceived]
      rcases session.inlet.outcome with error | _ | ⟨b, rest⟩
      · simp only
        split
        · simp [Source.given]
        · simp [Source.given]
      · simp [Source.given]
      · simp [Source.given]
  · simp [hb]

theorem probed_ahead (session : Session) : session.probed.ahead = session.inlet.ahead := by
  unfold probed
  split
  · rfl
  · split
    · rfl
    · exact session.inlet.peek_ahead

theorem outlook_input : session.outlook = .input ↔ session.inlet.buffered ≠ []
    ∨ session.control.bounding = .ok ()
      ∧ ∃ bytes, bytes ≠ [] ∧ session.inlet.outcome = .ok bytes := by
  unfold outlook
  grind

theorem outlook_quiet : (session.outlook = .ended ∨ session.outlook = .silence) ↔
    session.inlet.buffered = [] ∧ session.control.bounding = .ok ()
      ∧ (session.inlet.outcome = .ok []
        ∨ ∃ error, session.inlet.outcome = .error error
          ∧ (error.kind = .wouldBlock ∨ error.kind = .timedOut)) := by
  simp only [← IoErrorKind.isTimeout_iff]
  unfold outlook
  grind

theorem outlook_silence : session.outlook = .silence ↔ session.inlet.buffered = []
    ∧ session.control.bounding = .ok ()
    ∧ ∃ error, session.inlet.outcome = .error error
      ∧ (error.kind = .wouldBlock ∨ error.kind = .timedOut) := by
  simp only [← IoErrorKind.isTimeout_iff]
  unfold outlook
  grind

theorem outlook_failed {error : IoError} : session.outlook = .failed error ↔
    session.inlet.buffered = [] ∧ (session.control.bounding = .error error
      ∨ session.control.bounding = .ok () ∧ session.inlet.outcome = .error error
        ∧ error.kind ≠ .wouldBlock ∧ error.kind ≠ .timedOut) := by
  rw [← IoErrorKind.isTimeout_eq_false_iff]
  unfold outlook
  grind

/-- Whatever fails where the wait is bounded, the peer counts as gone. -/
theorem outlook_gone : (session.outlook = .ended ∨ ∃ error, session.outlook = .failed error) ↔
    session.inlet.buffered = []
      ∧ ((∃ error, session.control.bounding = .error error) ∨ session.inlet.outcome = .ok []
        ∨ ∃ error, session.inlet.outcome = .error error
          ∧ error.kind ≠ .wouldBlock ∧ error.kind ≠ .timedOut) := by
  simp only [← IoErrorKind.isTimeout_eq_false_iff]
  unfold outlook
  grind

end Session

namespace Connection

variable {connection : Connection} {addresses : Addresses} {session : Session}

/-- What a look makes of `isStale`. -/
def staleBy : Except IoError Peek → Bool
  | .ok (.data _) | .ok .wouldBlock => false
  | .ok .endOfStream | .error _ => true

/-- What a look makes of `awaitInput`. -/
def inputBy (answer : Except IoError Peek) : Except IoError Bool :=
  answer.map fun
    | .data _ => true
    | .endOfStream | .wouldBlock => false

/-- Both probes are a glance at the session of an open connection. -/
theorem isStale_glance (hopen : connection.state = .opened addresses session) :
    let glanced := session.glance staleTimeout false staleBy
    connection.isStale = (glanced.1, withOpen connection addresses glanced.2) := by
  simp only [isStale, withSession, hopen]
  rfl

theorem awaitInput_glance (hopen : connection.state = .opened addresses session)
    (limit : Timeout) :
    let glanced := session.glance limit (.ok true) inputBy
    connection.awaitInput limit
      = (glanced.1.mapError .io, withOpen connection addresses glanced.2) := by
  simp only [awaitInput, withSessionIo, withSession, hopen]
  rfl

theorem isStale_opened (hopen : connection.state = .opened addresses session) :
    connection.isStale.1 = (match session.outlook with
        | .input | .silence => false
        | .ended | .failed _ => true)
      ∧ ∃ next, connection.isStale.2 = withOpen connection addresses next
        ∧ next.inlet = session.probed := by
  rw [isStale_glance hopen]
  obtain ⟨hanswer, hinlet⟩ := session.glance_outlook staleTimeout false staleBy fun _ => rfl
  refine ⟨hanswer.trans ?_, _, rfl, hinlet⟩
  cases session.outlook with
  | input => rfl
  | silence => rfl
  | ended => rfl
  | failed error => rfl

theorem awaitInput_opened (hopen : connection.state = .opened addresses session)
    (limit : Timeout) :
    (connection.awaitInput limit).1 = (match session.outlook with
        | .input => .ok true
        | .silence | .ended => .ok false
        | .failed error => .error (.io error))
      ∧ ∃ next, (connection.awaitInput limit).2 = withOpen connection addresses next
        ∧ next.inlet = session.probed := by
  rw [awaitInput_glance hopen]
  obtain ⟨hanswer, hinlet⟩ := session.glance_outlook limit (.ok true) inputBy fun _ => rfl
  refine ⟨(congrArg (Except.mapError ConnectionError.io) hanswer).trans ?_, _, rfl, hinlet⟩
  cases session.outlook with
  | input => rfl
  | silence => rfl
  | ended => rfl
  | failed error => rfl

/-- With input in the buffer neither probe does anything. -/
theorem probes_buffered (hopen : connection.state = .opened addresses session)
    (hb : session.inlet.buffered ≠ []) (limit : Timeout) :
    connection.isStale = (false, connection)
      ∧ connection.awaitInput limit = (.ok true, connection) := by
  rw [isStale_glance hopen, awaitInput_glance hopen, Session.glance_buffered hb,
    Session.glance_buffered hb, ← eq_withOpen hopen]
  exact ⟨rfl, rfl⟩

/-- Input that is in the buffer is there until some of the bytes ahead are used. -/
theorem run_buffered (hb : 0 < connection.bufferedInput) {operations : List Operation}
    (hopen : (connection.run operations).2.isOpen = true)
    (ha : (connection.run operations).2.ahead = connection.ahead) :
    ∃ addresses last, (connection.run operations).2.state = .opened addresses last
      ∧ last.inlet.buffered ≠ [] := by
  cases hstate : connection.state with
  | unbound => simp [bufferedInput, hstate] at hb
  | closed addresses log => simp [bufferedInput, hstate] at hb
  | opened addresses session =>
    cases hlast : (connection.run operations).2.state with
    | unbound => simp [isOpen, hlast] at hopen
    | closed addresses log => simp [isOpen, hlast] at hopen
    | opened addresses' last =>
      refine ⟨addresses', last, rfl, ?_⟩
      have hsession := session?_eq_some.2 ⟨addresses', hlast⟩
      simp only [Connection.ahead, hstate, hlast] at ha
      simp only [bufferedInput, hstate, List.length_pos_iff] at hb
      rw [eq_withOpen hstate] at hsession
      have hdraws := (run_steps hsession).keeps (Inlet.draws_kept session.inlet _)
        (fun _ h => h) (Inlet.Draws.refl _)
      intro hnil
      have hprefix := hdraws.unused ha
      rw [hnil] at hprefix
      exact hb (List.prefix_nil.1 hprefix)

/-- Without an endpoint there is nothing to look at. -/
theorem probes_refused (hnone : connection.session? = none) (limit : Timeout) :
    connection.isStale = (true, connection) ∧ ∃ error, connection.ensureOpen = .error error
      ∧ connection.awaitInput limit = (.error error, connection) := by
  obtain ⟨config, strategy, state⟩ := connection
  cases state with
  | unbound => exact ⟨rfl, .notBound, rfl, rfl⟩
  | opened addresses session => cases hnone
  | closed addresses log => exact ⟨rfl, .closed, rfl, rfl⟩

theorem nothing_buffered (hnone : connection.session? = none) :
    connection.isOpen = false ∧ connection.bufferedInput = 0 := by
  obtain ⟨config, strategy, state⟩ := connection
  cases state with
  | unbound => exact ⟨rfl, rfl⟩
  | opened addresses session => cases hnone
  | closed addresses log => exact ⟨rfl, rfl⟩

/-- What the two probes tell of a connection, and of each other when both are tried on it. A probe
has found input when something is buffered after it; then both go on to say so without a call as
long as the connection is open and no byte of what is ahead has been used. -/
structure ProbesAgree (connection : Connection) (limit : Timeout) : Prop where
  stale : connection.isStale.1 = true ↔ connection.isOpen = false
    ∨ ∃ session, connection.session? = some session ∧ session.inlet.buffered = []
      ∧ ((∃ error, session.control.bounding = .error error) ∨ session.inlet.outcome = .ok []
        ∨ ∃ error, session.inlet.outcome = .error error
          ∧ error.kind ≠ .wouldBlock ∧ error.kind ≠ .timedOut)
  input : (connection.awaitInput limit).1 = .ok true ↔
    ∃ session, connection.session? = some session ∧ (session.inlet.buffered ≠ []
      ∨ session.control.bounding = .ok ()
        ∧ ∃ bytes, bytes ≠ [] ∧ session.inlet.outcome = .ok bytes)
  noInput : (connection.awaitInput limit).1 = .ok false ↔
    ∃ session, connection.session? = some session ∧ session.inlet.buffered = []
      ∧ session.control.bounding = .ok () ∧ (session.inlet.outcome = .ok []
        ∨ ∃ error, session.inlet.outcome = .error error
          ∧ (error.kind = .wouldBlock ∨ error.kind = .timedOut))
  failed : ∀ error, (connection.awaitInput limit).1 = .error error ↔
    connection.ensureOpen = .error error
      ∨ ∃ fault, error = .io fault ∧ ∃ session, connection.session? = some session
        ∧ session.inlet.buffered = [] ∧ (session.control.bounding = .error fault
          ∨ session.control.bounding = .ok () ∧ session.inlet.outcome = .error fault
            ∧ fault.kind ≠ .wouldBlock ∧ fault.kind ≠ .timedOut)
  input_fresh : (connection.awaitInput limit).1 = .ok true → connection.isStale.1 = false
  stale_noInput : connection.isStale.1 = true → (connection.awaitInput limit).1 ≠ .ok true
  neither : connection.isStale.1 = false → (connection.awaitInput limit).1 = .ok false →
    ∃ session error, connection.session? = some session
      ∧ session.inlet.outcome = .error error
      ∧ (error.kind = .wouldBlock ∨ error.kind = .timedOut)
  inlet : connection.isStale.2.session?.map Session.inlet
    = (connection.awaitInput limit).2.session?.map Session.inlet
  found : ∀ probe, 0 < (connection.probe probe).bufferedInput ↔
    (connection.awaitInput limit).1 = .ok true
  lasting : ∀ probe operations, 0 < (connection.probe probe).bufferedInput →
    let later := ((connection.probe probe).run operations).2
    later.isOpen = true → later.ahead = connection.ahead →
      ∀ limit, later.isStale = (false, later) ∧ later.awaitInput limit = (.ok true, later)

theorem probe_opened (hopen : connection.state = .opened addresses session) (probe : Probe) :
    ∃ next, connection.probe probe = withOpen connection addresses next
      ∧ next.inlet = session.probed := by
  cases probe with
  | isStale => exact (isStale_opened hopen).2
  | awaitInput limit => exact (awaitInput_opened hopen limit).2

theorem probe_refused (hnone : connection.session? = none) (probe : Probe) :
    connection.probe probe = connection := by
  cases probe with
  | isStale => exact congrArg Prod.snd (probes_refused hnone staleTimeout).1
  | awaitInput limit =>
    obtain ⟨-, error, -, hawait⟩ := probes_refused hnone limit
    exact congrArg Prod.snd hawait

theorem probe_ahead (connection : Connection) (probe : Probe) :
    (connection.probe probe).ahead = connection.ahead := by
  cases hsession : connection.session? with
  | none => rw [probe_refused hsession]
  | some session =>
    obtain ⟨addresses, hopen⟩ := session?_eq_some.1 hsession
    obtain ⟨next, hnext, hinlet⟩ := probe_opened hopen probe
    rw [hnext, ahead, ahead, hopen, withOpen]
    simp only [hinlet, Session.probed_ahead]

/-- After a probe that has left input in the buffer, both probes are content and make no call, as
long as the connection is open and no byte of what was ahead has been used. -/
theorem probes_lasting (probe : Probe) (operations : List Operation)
    (hb : 0 < (connection.probe probe).bufferedInput) :
    let later := ((connection.probe probe).run operations).2
    later.isOpen = true → later.ahead = connection.ahead →
      ∀ limit, later.isStale = (false, later) ∧ later.awaitInput limit = (.ok true, later) := by
  intro later hopen ha limit
  rw [← probe_ahead connection probe] at ha
  obtain ⟨addresses, last, hlast, hbuffered⟩ := run_buffered hb hopen ha
  exact probes_buffered hlast hbuffered limit

theorem isStale_iff (hopen : connection.state = .opened addresses session) :
    connection.isStale.1 = true ↔
      session.outlook = .ended ∨ ∃ error, session.outlook = .failed error := by
  rw [(isStale_opened hopen).1]
  cases session.outlook <;> simp

theorem awaitInput_iff (hopen : connection.state = .opened addresses session) (limit : Timeout) :
    ((connection.awaitInput limit).1 = .ok true ↔ session.outlook = .input)
      ∧ ((connection.awaitInput limit).1 = .ok false ↔
        session.outlook = .ended ∨ session.outlook = .silence)
      ∧ ∀ error, (connection.awaitInput limit).1 = .error error ↔
        ∃ fault, error = .io fault ∧ session.outlook = .failed fault := by
  rw [(awaitInput_opened hopen limit).1]
  cases session.outlook <;> simp [eq_comm]

theorem probesAgree_opened (hopen : connection.state = .opened addresses session)
    (limit : Timeout) : connection.ProbesAgree limit := by
  have hsession : connection.session? = some session := session?_eq_some.2 ⟨addresses, hopen⟩
  have honly {P : Session → Prop} :
      (∃ session, connection.session? = some session ∧ P session) ↔ P session := by
    simp [hsession]
  have hisOpen : connection.isOpen = true := by rw [isOpen, hopen]
  have hopened : connection.ensureOpen = .ok () := by rw [ensureOpen, withSession, hopen]
  have hstale := isStale_iff hopen
  obtain ⟨hinput, hquiet, hfailed⟩ := awaitInput_iff hopen limit
  constructor
  case stale => simp [honly, hstale, Session.outlook_gone, hisOpen]
  case input => rw [honly, hinput, Session.outlook_input]
  case noInput => rw [honly, hquiet, Session.outlook_quiet]
  case failed => simp [honly, hfailed, Session.outlook_failed, hopened]
  case input_fresh =>
    intro h
    rw [(isStale_opened hopen).1, hinput.1 h]
  case stale_noInput =>
    intro h hi
    rw [(isStale_opened hopen).1, hinput.1 hi] at h
    cases h
  case neither =>
    intro hs hq
    rcases hquiet.1 hq with hended | hsilence
    · rw [(isStale_opened hopen).1, hended] at hs
      cases hs
    · obtain ⟨-, -, error, houtcome, htimeout⟩ := Session.outlook_silence.1 hsilence
      exact ⟨session, error, hsession, houtcome, htimeout⟩
  case inlet =>
    obtain ⟨-, next, hnext, hinlet⟩ := isStale_opened hopen
    obtain ⟨-, next', hnext', hinlet'⟩ := awaitInput_opened hopen limit
    rw [hnext, hnext']
    exact congrArg some (hinlet.trans hinlet'.symm)
  case found =>
    intro probe
    obtain ⟨after, hafter, hprobed⟩ := probe_opened hopen probe
    rw [hinput, ← Session.probed_buffered, ← hprobed, hafter]
    exact List.length_pos_iff
  case lasting => exact fun probe operations hb => probes_lasting probe operations hb

theorem probesAgree_refused (hnone : connection.session? = none) (limit : Timeout) :
    connection.ProbesAgree limit := by
  obtain ⟨hstale, error, hrefused, hawait⟩ := probes_refused hnone limit
  constructor
  case stale => simp [hstale, nothing_buffered hnone]
  case input => simp [hawait, hnone]
  case noInput => simp [hawait, hnone]
  case failed => simp [hawait, hnone, hrefused]
  case input_fresh => simp [hawait]
  case stale_noInput => simp [hawait]
  case neither => simp [hawait]
  case inlet => rw [hstale, hawait]
  case found => simp [hawait, probe_refused hnone, nothing_buffered hnone]
  case lasting => exact fun probe operations hb => probes_lasting probe operations hb

/-- The probes agree on a connection in any state, whatever the script of its endpoint is. -/
theorem probes_agree (connection : Connection) (limit : Timeout) :
    connection.ProbesAgree limit := by
  cases hsession : connection.session? with
  | none => exact probesAgree_refused hsession limit
  | some session =>
    obtain ⟨addresses, hopen⟩ := session?_eq_some.1 hsession
    exact probesAgree_opened hopen limit

end Connection
end Http1
