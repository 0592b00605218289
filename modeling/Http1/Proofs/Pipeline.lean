import Http1.Connection
import Http1.Proofs.SteadyBody
import Http1.Proofs.Written

/-! Messages one behind the other on one connection. A body on the wire is decoded as its data with
nothing behind it used up (`WireBody.whole`), so receiving a message leaves exactly what follows it
(`receive_steady`) and a whole pipeline is received message by message (`receiveAll_exact`). It is
received so far as there are maps with room for the trailers: the first body whose trailers have
none gives its data and ends the program. -/

namespace Http1

/-- The body of a message as its peer sends it. -/
inductive WireBody
  | raw (bytes : Bytes)
  | chunked (body : Chunked.WholeBody)

namespace WireBody

def framing : WireBody → Framing
  | raw bytes => .length bytes.length
  | chunked _ => .chunked

def wire : WireBody → Bytes
  | raw bytes => bytes
  | chunked body => body.wire

def data : WireBody → Bytes
  | raw bytes => bytes
  | chunked body => body.data

def trailers : WireBody → Option Headers
  | raw _ => none
  | chunked body => body.trailers

/-- There is a map that the trailers go into. -/
def HasRoom : WireBody → Prop
  | raw _ => True
  | chunked body => body.HasRoom

instance : (body : WireBody) → Decidable body.HasRoom
  | raw _ => .isTrue trivial
  | chunked body => inferInstanceAs (Decidable body.HasRoom)

/-- What comes behind the data. -/
def verdict (body : WireBody) : Item := if body.HasRoom then .endOfBody else .failed .overrun

/-- The trailers that there are behind the data. -/
def received (body : WireBody) : Option Headers := if body.HasRoom then body.trailers else none

theorem scan (body : WireBody) (rest : Bytes) :
    ∃ decoder, BodyDecoder.scan (.start .none body.framing) (body.wire ++ rest)
        = ⟨body.data, body.verdict, decoder, rest⟩
      ∧ decoder.trailers = body.received := by
  cases body with
  | raw bytes => exact ⟨_, BodyDecoder.scan_length rfl 0 rest, rfl⟩
  | chunked body =>
    by_cases h : (chunked body).HasRoom
    · rw [verdict, received, if_pos h, if_pos h]
      exact ⟨_, Chunked.WholeBody.scan h rest, rfl⟩
    · rw [verdict, received, if_neg h, if_neg h]
      exact ⟨_, Chunked.WholeBody.scan_overrun h rest, rfl⟩

theorem verdict_stops (body : WireBody) : body.verdict.Stops := by
  unfold verdict
  split <;> trivial

theorem whole (body : WireBody) (rest : Bytes) :
    ∃ decoder, BodyDecoder.whole (.start .none body.framing) (body.wire ++ rest)
        = ⟨body.data, body.verdict, decoder, rest⟩
      ∧ decoder.trailers = body.received := by
  obtain ⟨decoder, hscan, htrailers⟩ := body.scan rest
  refine ⟨decoder, ?_, htrailers⟩
  rw [BodyDecoder.whole_of_scan (by rw [hscan]; exact body.verdict_stops), hscan]

end WireBody

/-- A message of a pipeline: what its peer sends, the header fields that its head was parsed to, and
how its body is drained here. -/
structure Message where
  head : Head
  fields : Headers
  body : WireBody
  plan : DrainPlan

def Message.wire (message : Message) : Bytes := message.head.bytes ++ message.body.wire

/-- What receiving a message comes to. -/
structure Receipt where
  head : Except HttpError (Option Bytes)
  body : Except ConnectionError (List Reply × Option Headers)

/-- The head, the data and the trailers of the message were all received. -/
structure Receipt.Holds (receipt : Receipt) (message : Message) : Prop where
  head : receipt.head = .ok (some message.head.bytes)
  body : ∃ replies, receipt.body = .ok (replies, message.body.trailers)
    ∧ Delivers .endOfBody replies message.body.data

/-- The head and the data were received, and then the program has ended. -/
structure Receipt.Overruns (receipt : Receipt) (message : Message) : Prop where
  head : receipt.head = .ok (some message.head.bytes)
  body : ∃ replies, receipt.body = .ok (replies, none)
    ∧ Delivers (.failed .overrun) replies message.body.data

theorem Receipt.Overruns.not_holds {receipt : Receipt} {message : Message}
    (h : receipt.Overruns message) : ¬ receipt.Holds message := by
  intro hholds
  obtain ⟨replies, hreplies, hdelivers⟩ := h.body
  obtain ⟨others, hothers, hends⟩ := hholds.body
  rw [hreplies, Except.ok.injEq, Prod.mk.injEq] at hothers
  obtain ⟨rfl, -⟩ := hothers
  exact hdelivers.not_ended hends

namespace IncomingEntity

/-- Drains the body and then asks for its trailers. -/
def drainBy (plan : DrainPlan) (entity : IncomingEntity) :
    (List Reply × Option Headers) × IncomingEntity :=
  let (replies, reader) := entity.reader.drainBy plan 0
  ((replies, reader.trailers), { entity with reader })

/-- Over a steady source, draining a body is settled by what its decoder makes of all that is
ahead. -/
theorem drainBy_whole {config : Config} (message : Headers) {framing : Framing} (plan : DrainPlan)
    {inlet : Inlet} {found : Scan BodyDecoder} (hs : inlet.Steady)
    (hw : (BodyDecoder.ofConfig config framing).whole inlet.ahead = found) :
    ∃ replies entity, (start config message framing inlet).drainBy plan
          = ((replies, found.last.decoder.trailers), entity)
        ∧ Delivers found.last.item replies found.data
        ∧ entity.reader.inlet.Steady ∧ entity.reader.inlet.ahead = found.last.rest := by
  obtain ⟨replies, next, hdrain, hdelivers, hsteady, hn, hrest⟩ :=
    BodyReader.drainBy_start plan hs hw
  refine ⟨replies, { start config message framing inlet with reader := next }, ?_, hdelivers,
    hsteady, hrest⟩
  rw [drainBy, start, hdrain]
  simp only [BodyReader.trailers, hn]

end IncomingEntity

theorem Session.receiving_steady {α : Type} {session : Session} {use : Inlet → α × Inlet}
    {answer : α} {inlet : Inlet} (h : use session.inlet = (answer, inlet)) (hs : inlet.Steady) :
    ∃ next, session.receiving use = (answer, next) ∧ next.inlet.Steady
      ∧ next.inlet.ahead = inlet.ahead := by
  refine ⟨_, by rw [receiving, h], ⟨hs.readSize_pos, hs.source⟩, rfl⟩

namespace Connection

/-- The bytes in the input buffer and behind them those that the source has not given yet. -/
def ahead (connection : Connection) : Bytes :=
  match connection.state with
  | .opened _ session => session.inlet.ahead
  | .unbound | .closed _ _ => []

/-- Receives a message: its head, then its body by the framing that was decided on. -/
def receive (connection : Connection) (message : Message) : Receipt × Connection :=
  let (head, connection) := connection.receiveHead
  let (body, connection) := connection.incomingEntity message.fields message.body.framing
    (IncomingEntity.drainBy message.plan)
  (⟨head, body⟩, connection)

def receiveAll (connection : Connection) : List Message → List Receipt × Connection
  | [] => ([], connection)
  | message :: rest =>
    let (receipt, connection) := connection.receive message
    let (receipts, connection) := connection.receiveAll rest
    (receipt :: receipts, connection)

variable {connection : Connection} {addresses : Addresses} {session : Session}

/-- Over a steady source, receiving a head is settled by the bytes ahead. -/
theorem receiveHead_headOf (hopen : connection.state = .opened addresses session)
    (hs : session.inlet.Steady) :
    ∃ answer next, connection.receiveHead
        = (answer.mapError .parse, { connection with state := .opened addresses next })
      ∧ Inlet.SameHead answer (Inlet.headOf connection.config.bufferSize session.inlet.ahead).1
      ∧ next.inlet.Steady
      ∧ next.inlet.ahead
        = (Inlet.headOf connection.config.bufferSize session.inlet.ahead).2 := by
  obtain ⟨answer, inlet, hread, hsteady, hanswer, hrest⟩ :=
    Inlet.readHead_headOf connection.config.bufferSize session.inlet hs
  obtain ⟨next, hnext, hnextSteady, hsame⟩ := Session.receiving_steady hread hsteady
  refine ⟨answer, next, ?_, hanswer, hnextSteady, hsame.trans hrest⟩
  rw [receiveHead, withSession, hopen]
  simp only [hnext]

theorem receiveHead_steady {head : Head} {rest : Bytes}
    (hopen : connection.state = .opened addresses session) (hs : session.inlet.Steady)
    (hsize : head.bytes.length ≤ connection.config.bufferSize)
    (ha : session.inlet.ahead = head.bytes ++ rest) :
    ∃ next, connection.receiveHead
        = (.ok (some head.bytes), { connection with state := .opened addresses next })
      ∧ next.inlet.Steady ∧ next.inlet.ahead = rest := by
  obtain ⟨answer, next, hreceive, hanswer, hsteady, hrest⟩ := receiveHead_headOf hopen hs
  rw [ha, Inlet.headOf_head head rest hsize] at hanswer hrest
  cases hanswer
  exact ⟨next, hreceive, hsteady, hrest⟩

/-- Over a steady source, draining a body is settled by the bytes ahead. -/
theorem incomingEntity_whole (message : Headers) {framing : Framing} (plan : DrainPlan)
    {found : Scan BodyDecoder} (hopen : connection.state = .opened addresses session)
    (hs : session.inlet.Steady)
    (hw : (BodyDecoder.ofConfig connection.config framing).whole session.inlet.ahead = found) :
    ∃ replies next, connection.incomingEntity message framing (IncomingEntity.drainBy plan)
        = (.ok (replies, found.last.decoder.trailers),
          { connection with state := .opened addresses next })
      ∧ Delivers found.last.item replies found.data
      ∧ next.inlet.Steady ∧ next.inlet.ahead = found.last.rest := by
  obtain ⟨replies, entity, hdrain, hdelivers, hsteady, hrest⟩ :=
    IncomingEntity.drainBy_whole message plan hs hw
  obtain ⟨next, hnext, hnextSteady, hsame⟩ : ∃ next, session.receiving (fun inlet =>
      let (answer, entity) := IncomingEntity.drainBy plan
        (.start connection.config message framing inlet)
      (answer, entity.reader.inlet)) = ((replies, found.last.decoder.trailers), next)
        ∧ next.inlet.Steady ∧ next.inlet.ahead = entity.reader.inlet.ahead :=
    Session.receiving_steady (by simp only [hdrain]) hsteady
  refine ⟨replies, next, ?_, hdelivers, hnextSteady, hsame.trans hrest⟩
  rw [incomingEntity, withSession, hopen]
  simp only [hnext]

theorem incomingEntity_steady (message : Message) {rest : Bytes}
    (hopen : connection.state = .opened addresses session) (hs : session.inlet.Steady)
    (hline : connection.config.maxLineLength = none)
    (hcount : connection.config.maxHeaderCount = none)
    (ha : session.inlet.ahead = message.body.wire ++ rest) :
    ∃ replies next, connection.incomingEntity message.fields message.body.framing
          (IncomingEntity.drainBy message.plan)
        = (.ok (replies, message.body.received),
          { connection with state := .opened addresses next })
      ∧ Delivers message.body.verdict replies message.body.data
      ∧ next.inlet.Steady ∧ next.inlet.ahead = rest := by
  obtain ⟨decoder, hwhole, htrailers⟩ := message.body.whole rest
  have hdecoder : BodyDecoder.ofConfig connection.config message.body.framing
      = .start .none message.body.framing := by
    rw [BodyDecoder.ofConfig, hline, hcount]
    rfl
  rw [← ha, ← hdecoder] at hwhole
  rw [← htrailers]
  exact incomingEntity_whole message.fields message.plan hopen hs hwhole

/-- Receiving a message uses up its bytes and no others. -/
theorem receive_steady {message : Message} {rest : Bytes}
    (hopen : connection.state = .opened addresses session) (hs : session.inlet.Steady)
    (hline : connection.config.maxLineLength = none)
    (hcount : connection.config.maxHeaderCount = none)
    (hsize : message.head.bytes.length ≤ connection.config.bufferSize)
    (ha : session.inlet.ahead = message.wire ++ rest) :
    ∃ receipt next, connection.receive message
        = (receipt, { connection with state := .opened addresses next })
      ∧ (message.body.HasRoom → receipt.Holds message)
      ∧ (¬ message.body.HasRoom → receipt.Overruns message)
      ∧ next.inlet.Steady ∧ next.inlet.ahead = rest := by
  rw [Message.wire, List.append_assoc] at ha
  obtain ⟨middle, hhead, hmiddle, hbody⟩ := receiveHead_steady hopen hs hsize ha
  have hopen' : ({ connection with state := .opened addresses middle } : Connection).state
      = .opened addresses middle := rfl
  obtain ⟨replies, next, hentity, hdelivers, hnext, hrest⟩ :=
    incomingEntity_steady message hopen' hmiddle hline hcount hbody
  rw [WireBody.received] at hentity
  rw [WireBody.verdict] at hdelivers
  refine ⟨⟨_, _⟩, next, by rw [receive, hhead]; simp only [hentity]; rfl, fun hroom => ?_,
    fun hroom => ?_, hnext, hrest⟩
  · rw [if_pos hroom] at hdelivers ⊢
    exact ⟨rfl, replies, rfl, hdelivers⟩
  · rw [if_neg hroom] at hdelivers ⊢
    exact ⟨rfl, replies, rfl, hdelivers⟩

theorem receiveAll_steady (messages : List Message) (rest : Bytes)
    (hopen : connection.state = .opened addresses session) (hs : session.inlet.Steady)
    (hline : connection.config.maxLineLength = none)
    (hcount : connection.config.maxHeaderCount = none)
    (hsize : ∀ message ∈ messages, message.head.bytes.length ≤ connection.config.bufferSize)
    (hroom : ∀ message ∈ messages, message.body.HasRoom)
    (ha : session.inlet.ahead = messages.flatMap Message.wire ++ rest) :
    ∃ receipts next, connection.receiveAll messages
        = (receipts, { connection with state := .opened addresses next })
      ∧ List.Forall₂ Receipt.Holds receipts messages
      ∧ next.inlet.Steady ∧ next.inlet.ahead = rest := by
  induction messages generalizing connection session with
  | nil =>
    refine ⟨[], session, ?_, .nil, hs, ha⟩
    rw [receiveAll, ← hopen]
  | cons message more ih =>
    rw [List.flatMap_cons, List.append_assoc] at ha
    obtain ⟨receipt, middle, hreceive, hholds, -, hmiddle, hmore⟩ :=
      receive_steady hopen hs hline hcount (hsize message List.mem_cons_self) ha
    have hopen' : ({ connection with state := .opened addresses middle } : Connection).state
        = .opened addresses middle := rfl
    obtain ⟨receipts, next, hall, hmatch, hnext, hrest⟩ := ih hopen' hmiddle hline hcount
      (fun message hm => hsize message (List.mem_cons_of_mem _ hm))
      (fun message hm => hroom message (List.mem_cons_of_mem _ hm)) hmore
    refine ⟨receipt :: receipts, next, ?_, .cons (hholds (hroom message List.mem_cons_self)) hmatch,
      hnext, hrest⟩
    rw [receiveAll, hreceive]
    simp only [hall]

/-- A pipeline is received message by message, and what follows it is left for later, when no body
in it has more than 24576 trailers. Otherwise the messages in front of the first such body are
received, and of its message the head and the data; then the program ends. -/
theorem receiveAll_exact (messages : List Message) (rest : Bytes)
    (hopen : connection.state = .opened addresses session) (hs : session.inlet.Steady)
    (hline : connection.config.maxLineLength = none)
    (hcount : connection.config.maxHeaderCount = none)
    (hsize : ∀ message ∈ messages, message.head.bytes.length ≤ connection.config.bufferSize)
    (ha : session.inlet.ahead = messages.flatMap Message.wire ++ rest) :
    ((∀ message ∈ messages, message.body.HasRoom) →
      ∃ receipts next, connection.receiveAll messages
          = (receipts, { connection with state := .opened addresses next })
        ∧ List.Forall₂ Receipt.Holds receipts messages ∧ next.inlet.ahead = rest)
    ∧ ∀ front message back, messages = front ++ message :: back →
        (∀ message ∈ front, message.body.HasRoom) → ¬ message.body.HasRoom →
        ∃ receipts middle, connection.receiveAll front = (receipts, middle)
          ∧ List.Forall₂ Receipt.Holds receipts front
          ∧ (middle.receive message).1.Overruns message := by
  constructor
  · intro hroom
    obtain ⟨receipts, next, hall, hmatch, -, hrest⟩ :=
      receiveAll_steady messages rest hopen hs hline hcount hsize hroom ha
    exact ⟨receipts, next, hall, hmatch, hrest⟩
  · rintro front message back rfl hroom hcrowded
    rw [List.flatMap_append, List.append_assoc, List.flatMap_cons, List.append_assoc] at ha
    obtain ⟨receipts, middle, hall, hmatch, hmiddle, hmore⟩ :=
      receiveAll_steady front _ hopen hs hline hcount
        (fun message hm => hsize message (List.mem_append_left _ hm)) hroom ha
    have hopen' : ({ connection with state := .opened addresses middle } : Connection).state
        = .opened addresses middle := rfl
    have hlast := hsize message (List.mem_append_right _ List.mem_cons_self)
    obtain ⟨receipt, next, hreceive, -, hoverruns, -⟩ :=
      receive_steady hopen' hmiddle hline hcount hlast hmore
    refine ⟨receipts, _, hall, hmatch, ?_⟩
    rw [hreceive]
    exact hoverruns hcrowded

end Connection

/-! Two messages whose bytes come in pieces that end inside line ends and across the borders. -/

namespace TwoMessages

theorem emptyLine_first {front back : Bytes}
    (h : 71 :: Inlet.emptyLine = front ++ Inlet.emptyLine ++ back) : back = [] := by
  cases front with
  | nil => cases h
  | cons b front =>
    have hlen := congrArg List.length h
    simp only [List.length_cons, List.length_append, Inlet.emptyLine_length] at hlen
    exact List.length_eq_zero_iff.1 (by omega)

def head : Head where
  bytes := 71 :: Inlet.emptyLine
  ends := List.suffix_cons 71 Inlet.emptyLine
  first := fun _ _ => emptyLine_first

def chunk : Chunked.Chunk := ⟨.ofDigit 49 (by decide), [120], by decide, by decide⟩

def field : Field := ⟨⟨[116], by decide⟩, ⟨[97], by decide⟩⟩

def plan : DrainPlan where
  call turn := if turn = 0 then .read 1 else .nextChunk
  wants turn := by
    split
    · exact Nat.one_pos
    · trivial

def messages : List Message :=
  [⟨head, .empty, .raw [97, 98], plan⟩,
    ⟨head, .empty, .chunked ⟨⟨[chunk], .zero, Chunked.SizeLine.value_zero⟩, [.ofField field]⟩,
      plan⟩]

def rest : Bytes := [90]

def pieces : List Bytes :=
  [[71, 13, 10, 13], [10, 97], [98, 71, 13], [10, 13, 10, 49, 13], [10, 120, 13],
    [10, 48, 13, 10, 116, 58], [32, 97, 13, 10, 13], [10, 90]]

def endpoint : Endpoint where
  reads := pieces.map .data
  writes := []
  flushes := []
  control := ⟨.disabled, [], [], []⟩
  localAddr := .ok ""
  peerAddr := .ok ""

def connection : Connection :=
  ((Connection.start .default fun _ => .ok .untilClose).bind endpoint).2

def session : Session := .start .default endpoint #[.localAddr, .peerAddr]

theorem session_steady : session.inlet.Steady := by
  refine ⟨by decide, ?_⟩
  intro event he
  obtain ⟨piece, hpiece, rfl⟩ := List.mem_map.1 he
  have hne : ∀ piece ∈ pieces, piece ≠ [] := by decide
  exact ⟨piece, hne piece hpiece, rfl⟩

theorem receiveAll_twoMessages :
    ∃ receipts next, connection.receiveAll messages
        = (receipts, { connection with state := .opened ⟨some "", some ""⟩ next })
      ∧ List.Forall₂ Receipt.Holds receipts messages ∧ next.inlet.ahead = rest :=
  (Connection.receiveAll_exact messages rest rfl session_steady rfl rfl (by decide) (by decide)).1
    (by decide)

end TwoMessages

/-! A message with any number of trailers in a single piece. -/

namespace CrowdedMessage

def message (n : Nat) : Message :=
  ⟨TwoMessages.head, .empty, .chunked (.crowded n), TwoMessages.plan⟩

def endpoint (n : Nat) : Endpoint :=
  { TwoMessages.endpoint with reads := [.data (message n).wire] }

def connection (n : Nat) : Connection :=
  ((Connection.start .default fun _ => .ok .untilClose).bind (endpoint n)).2

def session (n : Nat) : Session := .start .default (endpoint n) #[.localAddr, .peerAddr]

theorem connection_state (n : Nat) :
    (connection n).state = .opened ⟨some "", some ""⟩ (session n) := rfl

theorem connection_config (n : Nat) : (connection n).config = .default := rfl

theorem session_steady (n : Nat) : (session n).inlet.Steady := by
  have hsize : 0 < Config.default.bufferSize := by decide
  refine ⟨hsize, ?_⟩
  intro event he
  rw [List.mem_singleton.1 he]
  exact ⟨(message n).wire, List.cons_ne_nil _ _, rfl⟩

theorem session_ahead (n : Nat) : (session n).inlet.ahead = (message n).wire ++ [] := rfl

theorem message_fits (n : Nat) : (message n).head.bytes.length ≤ Config.default.bufferSize := by
  have hsize : TwoMessages.head.bytes.length ≤ Config.default.bufferSize := by decide
  exact hsize

theorem receive_overruns {n : Nat} (hn : 24576 < n) :
    ((connection n).receive (message n)).1.Overruns (message n) := by
  have hcrowded : ¬ (message n).body.HasRoom := fun hroom =>
    Nat.not_le_of_lt hn ((Chunked.WholeBody.crowded_hasRoom n).1 hroom)
  obtain ⟨receipt, next, hreceive, -, hoverruns, -⟩ :=
    Connection.receive_steady (connection_state n) (session_steady n) rfl rfl (message_fits n)
      (session_ahead n)
  rw [hreceive]
  exact hoverruns hcrowded

theorem not_receiveAll {n : Nat} (hn : 24576 < n) :
    ¬ List.Forall₂ Receipt.Holds ((connection n).receiveAll [message n]).1 [message n] := by
  intro hall
  cases hall with
  | cons hholds _ => exact (receive_overruns hn).not_holds hholds

/-- A message with one trailer too many keeps to all that a pipeline has to, and is not received. -/
theorem receiveAll_crowded :
    (connection 24577).state = .opened ⟨some "", some ""⟩ (session 24577)
      ∧ (session 24577).inlet.Steady ∧ (connection 24577).config = .default
      ∧ (message 24577).head.bytes.length ≤ Config.default.bufferSize
      ∧ (session 24577).inlet.ahead = (message 24577).wire ++ []
      ∧ ((connection 24577).receive (message 24577)).1.Overruns (message 24577)
      ∧ ¬ List.Forall₂ Receipt.Holds ((connection 24577).receiveAll [message 24577]).1
          [message 24577] := by
  have hn : 24576 < 24577 := by decide
  exact ⟨connection_state _, session_steady _, connection_config _, message_fits _,
    session_ahead _, receive_overruns hn, not_receiveAll hn⟩

end CrowdedMessage
end Http1
