import Http1.Proofs.Pipeline

/-! Looking for input between the operations that receive. A probe may read from the source and
keeps what it has read, so all later reads are cut in other places. But it leaves the bytes ahead as
they are, and over a steady source these settle what receiving comes to (`takeIn_alike`). Hence a
run shows nothing of the probes in it (`observe_quiet`). -/

namespace Http1

/-- An operation that looks for input and uses none up. -/
inductive Probe
  | isStale
  | awaitInput (timeout : Timeout)

/-- An operation that receives: a head, or a body that is drained by a plan. -/
inductive Intake
  | head
  | entity (message : Headers) (framing : Framing) (plan : DrainPlan)

/-- What an intake came to. -/
inductive Received
  | head (answer : Except HttpError (Option Bytes))
  | entity (answer : Except ConnectionError (List Reply × Option Headers))

/-- Both were answered by the connection: with the same head or error, or with the same data in
other pieces, the same end or error behind it and the same trailers. Only a head that is too large
may have been given up at another size. -/
inductive Received.Alike : Received → Received → Prop
  | head {one other : Except ParseError (Option Bytes)} (h : Inlet.SameHead one other) :
    Alike (.head (one.mapError .parse)) (.head (other.mapError .parse))
  | entity {item : Item} {one other : List Reply} {data : Bytes} (trailers : Option Headers)
    (hone : Delivers item one data) (hother : Delivers item other data) :
    Alike (.entity (.ok (one, trailers))) (.entity (.ok (other, trailers)))

/-- An intake behind any number of probes. -/
structure Turn where
  probes : List Probe
  intake : Intake

def Turn.quiet (turn : Turn) : Turn := { turn with probes := [] }

/-- Two answers that differ from a third in no more than a size differ from one another in no
more. -/
theorem Inlet.SameHead.join {one other third : Except ParseError (Option Bytes)}
    (h : SameHead one third) (h' : SameHead other third) : SameHead one other := by
  cases h with
  | same =>
    cases h' with
    | same => exact .same _
    | tooLarge size size' max => exact .tooLarge size' size max
  | tooLarge size size' max =>
    cases h' with
    | same => exact .tooLarge size size' max
    | tooLarge size'' => exact .tooLarge size size'' max

theorem Inlet.peek_steady {inlet : Inlet} (h : inlet.Steady) : inlet.peek.2.Steady := by
  unfold peek
  split
  · exact h
  · cases hr : inlet.fill with
    | mk answer next =>
      obtain ⟨n, rfl, hsteady, -⟩ := fill_steady h hr
      cases n with
      | zero => exact hsteady
      | succ n => exact hsteady

/-- Whatever the endpoint makes of the timeouts, a look at the source leaves the bytes ahead. -/
theorem Session.peekWithin_steady {session : Session} (h : session.inlet.Steady)
    (timeout : Timeout) :
    (session.peekWithin timeout).2.inlet.Steady
      ∧ (session.peekWithin timeout).2.inlet.ahead = session.inlet.ahead := by
  have hquery : session.queryTimeout.2.inlet = session.inlet := rfl
  unfold peekWithin
  split
  · next error between hr =>
    rw [hr] at hquery
    rw [hquery]
    exact ⟨h, rfl⟩
  · next inForce between hr =>
    rw [hr] at hquery
    have hchange : (between.changeTimeout timeout).2.inlet = between.inlet := rfl
    rw [← hquery] at h ⊢
    split
    · next error between' hr' =>
      rw [hr'] at hchange
      rw [hchange]
      exact ⟨h, rfl⟩
    · next between' hr' =>
      rw [hr'] at hchange
      rw [← hchange] at h ⊢
      have hpeek := Inlet.peek_steady h
      exact ⟨⟨hpeek.readSize_pos, hpeek.source⟩, between'.inlet.peek_ahead⟩

namespace Connection

def probe (connection : Connection) : Probe → Connection
  | .isStale => connection.isStale.2
  | .awaitInput timeout => (connection.awaitInput timeout).2

def takeIn (connection : Connection) : Intake → Received × Connection
  | .head =>
    let (answer, connection) := connection.receiveHead
    (.head answer, connection)
  | .entity message framing plan =>
    let (answer, connection) :=
      connection.incomingEntity message framing (IncomingEntity.drainBy plan)
    (.entity answer, connection)

/-- What the intakes of a run come to, each with the bytes that are ahead behind it. -/
def observe (connection : Connection) : List Turn → List (Received × Bytes)
  | [] => []
  | turn :: more =>
    let (received, next) := (turn.probes.foldl probe connection).takeIn turn.intake
    (received, next.ahead) :: next.observe more

/-- An open connection over a steady source. -/
structure Receiving (config : Config) (ahead : Bytes) (connection : Connection) : Prop where
  config : connection.config = config
  opened : ∃ addresses session, connection.state = .opened addresses session
    ∧ session.inlet.Steady ∧ session.inlet.ahead = ahead

variable {config : Config} {ahead : Bytes} {connection one other : Connection}

theorem Receiving.ahead_eq (h : Receiving config ahead connection) : connection.ahead = ahead := by
  obtain ⟨-, addresses, session, hopen, -, ha⟩ := h
  rw [Connection.ahead, hopen]
  exact ha

theorem probe_receiving (h : Receiving config ahead connection) (probe : Probe) :
    Receiving config ahead (connection.probe probe) := by
  obtain ⟨hconfig, addresses, session, hopen, hs, ha⟩ := h
  have hstay : Receiving config ahead { connection with state := .opened addresses session } :=
    ⟨hconfig, addresses, session, rfl, hs, ha⟩
  have hlook (timeout : Timeout) : Receiving config ahead
      { connection with state := .opened addresses (session.peekWithin timeout).2 } := by
    obtain ⟨hsteady, hsame⟩ := Session.peekWithin_steady hs timeout
    exact ⟨hconfig, addresses, _, rfl, hsteady, hsame.trans ha⟩
  cases probe with
  | isStale =>
    simp only [Connection.probe, isStale, withSession, hopen]
    split
    · exact hstay
    · exact hlook staleTimeout
  | awaitInput timeout =>
    simp only [Connection.probe, awaitInput, withSessionIo, withSession, hopen]
    split
    · exact hstay
    · exact hlook timeout

theorem probes_receiving (h : Receiving config ahead connection) (probes : List Probe) :
    Receiving config ahead (probes.foldl probe connection) := by
  induction probes generalizing connection with
  | nil => exact h
  | cons first others ih => exact ih (probe_receiving h first)

/-- Two connections with the same bytes ahead cannot be told apart by what is received. -/
theorem takeIn_alike (hone : Receiving config ahead one) (hother : Receiving config ahead other)
    (intake : Intake) :
    ∃ rest, (one.takeIn intake).1.Alike (other.takeIn intake).1
      ∧ Receiving config rest (one.takeIn intake).2
      ∧ Receiving config rest (other.takeIn intake).2 := by
  obtain ⟨hconfig, addresses, session, hopen, hs, ha⟩ := hone
  obtain ⟨hconfig', addresses', session', hopen', hs', ha'⟩ := hother
  cases intake with
  | head =>
    obtain ⟨answer, next, hreceive, hanswer, hsteady, hrest⟩ := receiveHead_headOf hopen hs
    obtain ⟨answer', next', hreceive', hanswer', hsteady', hrest'⟩ := receiveHead_headOf hopen' hs'
    rw [hconfig, ha] at hanswer hrest
    rw [hconfig', ha'] at hanswer' hrest'
    simp only [takeIn, hreceive, hreceive']
    exact ⟨_, .head (hanswer.join hanswer'), ⟨hconfig, addresses, next, rfl, hsteady, hrest⟩,
      ⟨hconfig', addresses', next', rfl, hsteady', hrest'⟩⟩
  | entity message framing plan =>
    have hwhole : (BodyDecoder.ofConfig one.config framing).whole session.inlet.ahead
        = (BodyDecoder.ofConfig config framing).whole ahead := by rw [hconfig, ha]
    have hwhole' : (BodyDecoder.ofConfig other.config framing).whole session'.inlet.ahead
        = (BodyDecoder.ofConfig config framing).whole ahead := by rw [hconfig', ha']
    obtain ⟨replies, next, hentity, hdelivers, hsteady, hrest⟩ :=
      incomingEntity_whole message plan hopen hs hwhole
    obtain ⟨replies', next', hentity', hdelivers', hsteady', hrest'⟩ :=
      incomingEntity_whole message plan hopen' hs' hwhole'
    simp only [takeIn, hentity, hentity']
    exact ⟨_, .entity _ hdelivers hdelivers', ⟨hconfig, addresses, next, rfl, hsteady, hrest⟩,
      ⟨hconfig', addresses', next', rfl, hsteady', hrest'⟩⟩

theorem observe_alike (hone : Receiving config ahead one) (hother : Receiving config ahead other)
    (turns : List Turn) :
    List.Forall₂ (fun seen seen' => seen.1.Alike seen'.1 ∧ seen.2 = seen'.2)
      (one.observe turns) (other.observe (turns.map Turn.quiet)) := by
  induction turns generalizing one other ahead with
  | nil => exact .nil
  | cons turn more ih =>
    obtain ⟨rest, halike, hnext, hnext'⟩ :=
      takeIn_alike (probes_receiving hone turn.probes) hother turn.intake
    exact .cons ⟨halike, hnext.ahead_eq.trans hnext'.ahead_eq.symm⟩ (ih hnext hnext')

/-- Probing is invisible: over a steady source, a run receives the same heads, bodies, trailers and
errors whether or not input was looked for in between, and leaves the same bytes ahead behind each
of them. -/
theorem observe_quiet {addresses : Addresses} {session : Session}
    (hopen : connection.state = .opened addresses session) (hs : session.inlet.Steady)
    (turns : List Turn) :
    List.Forall₂ (fun seen seen' => seen.1.Alike seen'.1 ∧ seen.2 = seen'.2)
      (connection.observe turns) (connection.observe (turns.map Turn.quiet)) := by
  have h : Receiving connection.config session.inlet.ahead connection :=
    ⟨rfl, addresses, session, hopen, hs, rfl⟩
  exact observe_alike h h turns

end Connection

namespace TwoMessages

/-- Input is looked for before the first head, before the first body and behind the last one. -/
def probedTurns : List Turn :=
  [⟨[.isStale, .awaitInput ⟨5⟩], .head⟩, ⟨[.awaitInput .disabled], .entity .empty (.length 2) plan⟩,
    ⟨[], .head⟩, ⟨[.isStale, .isStale], .entity .empty .chunked plan⟩, ⟨[.isStale], .head⟩]

theorem observe_twoMessages :
    List.Forall₂ (fun seen seen' => seen.1.Alike seen'.1 ∧ seen.2 = seen'.2)
      (connection.observe probedTurns) (connection.observe (probedTurns.map Turn.quiet)) :=
  Connection.observe_quiet rfl session_steady probedTurns

end TwoMessages
end Http1
