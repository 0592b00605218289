import Http1.Proofs.Sides

/-! The timeout of an endpoint over a run. It can be replayed from the calls, for only a change that
succeeded alters it (`inForceAfter`). Looking for input changes it for the time of one look
(`Looks`). When the endpoint tells the timeout in force and lets it be put back, nothing is left of
that behind an operation, whatever else has failed, and the timeout is the last one that was asked
for (`run_timeouts`). -/

namespace Http1

namespace Call

/-- The timeout that a call has put in force, if it has. -/
def changed? : Call → Option Timeout
  | .setSoTimeout timeout (.ok ()) => some timeout
  | _ => none

/-- The timeout that the endpoint has told of. -/
def told? : Call → Option Timeout
  | .soTimeout (.ok timeout) => some timeout
  | _ => none

/-- A change of the timeout that failed. -/
def isRefusal : Call → Bool
  | .setSoTimeout _ (.error _) => true
  | _ => false

/-- The timeout in force behind a call. -/
def inForce (timeout : Timeout) (call : Call) : Timeout := call.changed?.getD timeout

/-- The timeout in force behind some calls. -/
def inForceAfter (timeout : Timeout) (calls : List Call) : Timeout := calls.foldl inForce timeout

/-- Every call is as it should be for the timeout in force when it is made. -/
def Throughout (P : Timeout → Call → Prop) : Timeout → List Call → Prop
  | _, [] => True
  | timeout, call :: rest => P timeout call ∧ Throughout P (call.inForce timeout) rest

/-- Every read is made with this timeout in force. -/
def ReadsWithin (limit : Timeout) : Timeout → List Call → Prop :=
  Throughout fun timeout call => call.IsRead → timeout = limit

/-- Every timeout that is told is the one in force. -/
def Honest : Timeout → List Call → Prop :=
  Throughout fun timeout call => ∀ told ∈ call.told?, told = timeout

/-- The endpoint can be trusted with its timeout: it tells none but the one in force, and when an
operation has changed it, it can be changed back. -/
structure Trusted (timeout : Timeout) (calls : List Call) : Prop where
  honest : Honest timeout calls
  restores : calls.Pairwise fun earlier later =>
    earlier.changed?.isSome → later.isRefusal = false

instance decidableThroughout (P : Timeout → Call → Prop)
    [∀ timeout call, Decidable (P timeout call)] : (timeout : Timeout) →
    (calls : List Call) → Decidable (Throughout P timeout calls)
  | _, [] => isTrue trivial
  | timeout, call :: rest =>
    have := decidableThroughout P (call.inForce timeout) rest
    inferInstanceAs (Decidable (P timeout call ∧ Throughout P (call.inForce timeout) rest))

instance (timeout : Timeout) (calls : List Call) : Decidable (Honest timeout calls) :=
  inferInstanceAs (Decidable (Throughout _ timeout calls))

instance (timeout : Timeout) (calls : List Call) : Decidable (Trusted timeout calls) :=
  decidable_of_iff _ ⟨fun h => ⟨h.1, h.2⟩, fun h => And.intro h.honest h.restores⟩

variable {limit timeout : Timeout} {calls : List Call}

theorem IsRead.changed?_eq {call : Call} (h : call.IsRead) : call.changed? = none := by
  cases call with
  | read => rfl
  | _ => exact h.elim

theorem changed?_of_sending {call : Call} (h : call.side? = some .sending) :
    call.changed? = none := by
  cases call with
  | write => rfl
  | flush => rfl
  | _ => cases h

theorem inForceAfter_append (timeout : Timeout) (front back : List Call) :
    inForceAfter timeout (front ++ back) = inForceAfter (inForceAfter timeout front) back :=
  List.foldl_append

theorem inForceAfter_unchanging (h : ∀ call ∈ calls, call.changed? = none) (timeout : Timeout) :
    inForceAfter timeout calls = timeout := by
  induction calls with
  | nil => rfl
  | cons first others ih =>
    rw [inForceAfter, List.foldl_cons, inForce, h first List.mem_cons_self]
    exact ih fun call hc => h call (List.mem_cons_of_mem _ hc)

theorem Throughout.append {P : Timeout → Call → Prop} {front back : List Call}
    (hf : Throughout P timeout front) (hb : Throughout P (inForceAfter timeout front) back) :
    Throughout P timeout (front ++ back) := by
  induction front generalizing timeout with
  | nil => exact hb
  | cons first others ih => exact ⟨hf.1, ih hf.2 hb⟩

theorem ReadsWithin.unchanging (h : ∀ call ∈ calls, call.changed? = none) :
    ReadsWithin limit limit calls := by
  induction calls with
  | nil => trivial
  | cons first others ih =>
    refine ⟨fun _ => rfl, ?_⟩
    rw [inForce, h first List.mem_cons_self]
    exact ih fun call hc => h call (List.mem_cons_of_mem _ hc)

end Call

/-- The calls of a look at the source within a timeout. Nothing is read unless the timeout that was
in force is known and the other one is set, and then it is put back behind the reads. -/
inductive Looks (limit : Timeout) : List Call → Prop
  | unknown (error : IoError) : Looks limit [.soTimeout (.error error)]
  | refused (former : Timeout) (error : IoError) :
    Looks limit [.soTimeout (.ok former), .setSoTimeout limit (.error error)]
  | looked (former : Timeout) {reads : List Call} (h : ∀ call ∈ reads, call.IsRead)
    (restored : Except IoError Unit) :
    Looks limit (.soTimeout (.ok former) :: .setSoTimeout limit (.ok ())
      :: (reads ++ [.setSoTimeout former restored]))

namespace Looks

variable {limit timeout : Timeout} {calls : List Call}

theorem readsWithin (h : Looks limit calls) (timeout : Timeout) :
    Call.ReadsWithin limit timeout calls := by
  cases h with
  | unknown error => exact ⟨nofun, trivial⟩
  | refused former error => exact ⟨nofun, nofun, trivial⟩
  | @looked former reads h restored =>
    have hrestore : Call.ReadsWithin limit limit [.setSoTimeout former restored] :=
      ⟨nofun, trivial⟩
    have hnone : ∀ call ∈ reads, call.changed? = none := fun call hc => (h call hc).changed?_eq
    refine ⟨nofun, nofun, (Call.ReadsWithin.unchanging hnone).append ?_⟩
    rw [Call.inForceAfter_unchanging hnone]
    exact hrestore

/-- Over an endpoint that can be trusted, nothing is left of the change. -/
theorem inForceAfter (h : Looks limit calls) (ht : Call.Trusted timeout calls) :
    Call.inForceAfter timeout calls = timeout := by
  cases h with
  | unknown error => rfl
  | refused former error => rfl
  | looked former h restored =>
    have hformer : former = timeout := ht.honest.1 former rfl
    subst hformer
    have hrestored : (Call.setSoTimeout former restored).isRefusal = false := by
      have hbehind := (List.pairwise_cons.1 (List.pairwise_cons.1 ht.restores).2).1
      exact hbehind _ (List.mem_append_right _ List.mem_cons_self) rfl
    rcases restored with error | u
    · cases hrestored
    · rw [← List.cons_append, ← List.cons_append, Call.inForceAfter_append]
      rfl

end Looks

namespace Operation

/-- How long an operation that looks for input waits for it, which is a millisecond when it only
checks for staleness. -/
def limit? : Operation → Option Timeout
  | .awaitInput limit => some limit
  | .isStale => some ⟨1⟩
  | _ => none

/-- What is wanted for a timeout behind an operation with these calls: what the caller has asked
for, once the endpoint has taken it, and else what was wanted before. -/
def wanted (timeout : Timeout) (calls : List Call) : Operation → Timeout
  | .setSocketTimeout asked => if calls.any (·.changed?.isSome) then asked else timeout
  | _ => timeout

/-- What calls an operation makes. -/
inductive Makes : Operation → List Call → Prop
  | nothing (operation : Operation) : Makes operation []
  | asks (asked : Timeout) (answer : Except IoError Unit) :
    Makes (.setSocketTimeout asked) [.setSoTimeout asked answer]
  | looks {operation : Operation} {limit : Timeout} {calls : List Call}
    (hl : operation.limit? = some limit) (h : Looks limit calls) : Makes operation calls
  | unchanging {operation : Operation} {calls : List Call} (hl : operation.limit? = none)
    (h : ∀ call ∈ calls, call.changed? = none) : Makes operation calls

variable {operation : Operation} {timeout : Timeout} {calls : List Call}

theorem wanted_unchanging (h : ∀ call ∈ calls, call.changed? = none) :
    operation.wanted timeout calls = timeout := by
  cases operation with
  | setSocketTimeout asked =>
    have hnone : calls.any (·.changed?.isSome) = false := by
      refine List.any_eq_false.2 ?_
      intro call hc
      simp [h call hc]
    simp [wanted, hnone]
  | _ => rfl

theorem wanted_looks {limit : Timeout} (hl : operation.limit? = some limit) :
    operation.wanted timeout calls = timeout := by
  cases operation with
  | setSocketTimeout asked => cases hl
  | _ => rfl

namespace Makes

/-- The timeout in force behind an operation is the one that is wanted. -/
theorem inForceAfter (h : operation.Makes calls) (ht : Call.Trusted timeout calls) :
    Call.inForceAfter timeout calls = operation.wanted timeout calls := by
  cases h with
  | nothing => rw [wanted_unchanging fun call hc => absurd hc List.not_mem_nil]; rfl
  | asks asked answer =>
    rcases answer with error | u
    · rfl
    · rfl
  | looks hl h => rw [wanted_looks hl, h.inForceAfter ht]
  | unchanging hl h => rw [wanted_unchanging h, Call.inForceAfter_unchanging h]

/-- An operation that looks for input reads within its own limit, and any other one within the
timeout that it finds. -/
theorem readsWithin (h : operation.Makes calls) (timeout : Timeout) :
    Call.ReadsWithin (operation.limit?.getD timeout) timeout calls := by
  cases h with
  | nothing => trivial
  | asks asked answer => exact ⟨nofun, trivial⟩
  | looks hl h =>
    rw [hl]
    exact h.readsWithin timeout
  | unchanging hl h =>
    rw [hl]
    exact Call.ReadsWithin.unchanging h

end Makes
end Operation

namespace Session

/-- These calls have been made, and the endpoint has gone along with them. -/
structure Goes (before : Session) (calls : List Call) (after : Session) : Prop where
  log : after.log.toList = before.log.toList ++ calls
  timeout : after.control.timeout = Call.inForceAfter before.control.timeout calls

variable {session between after : Session} {calls more : List Call}

theorem Goes.refl (session : Session) : session.Goes [] session := ⟨by simp, rfl⟩

theorem Goes.trans (h : session.Goes calls between) (h' : between.Goes more after) :
    session.Goes (calls ++ more) after :=
  ⟨by rw [h'.log, h.log, List.append_assoc],
    by rw [h'.timeout, h.timeout, Call.inForceAfter_append]⟩

theorem queryTimeout_goes (session : Session) :
    session.Goes [.soTimeout session.control.query.1] session.queryTimeout.2 :=
  ⟨by simp [queryTimeout], rfl⟩

theorem changeTimeout_goes (session : Session) (timeout : Timeout) :
    session.Goes [.setSoTimeout timeout (session.control.change timeout).1]
      (session.changeTimeout timeout).2 := by
  refine ⟨by simp [changeTimeout], ?_⟩
  simp only [changeTimeout, Control.change]
  rcases session.control.changes.head?.getD (.ok ()) with error | u
  · rfl
  · rfl

/-- What is received makes reads and nothing else. -/
theorem receiving_goes {α : Type} {use : Inlet → α × Inlet} (horderly : session.Orderly)
    (hu : ∀ inlet : Inlet, LogOf Call.IsRead inlet.source.calls →
      LogOf Call.IsRead (use inlet).2.source.calls) :
    ∃ reads, (∀ call ∈ reads, call.IsRead) ∧ session.Goes reads (session.receiving use).2 := by
  have hreads := hu session.inlet (by rw [horderly.source]; exact LogOf.none _)
  have hlist : ∀ call ∈ (use session.inlet).2.source.calls.toList, call.IsRead :=
    fun call hc => hreads call (Array.mem_toList_iff.1 hc)
  refine ⟨_, hlist, by simp [receiving], ?_⟩
  rw [Call.inForceAfter_unchanging fun call hc => (hlist call hc).changed?_eq]
  rfl

theorem peekWithin_goes (horderly : session.Orderly) (limit : Timeout) :
    ∃ calls, Looks limit calls ∧ session.Goes calls (session.peekWithin limit).2 := by
  have hquery := session.queryTimeout_goes
  have hinstall := hquery.trans (session.queryTimeout.2.changeTimeout_goes limit)
  have hbetween := changeTimeout_orderly (queryTimeout_orderly horderly) limit
  rcases hq : session.control.query.1 with error | former
  · rw [hq] at hquery
    rw [peekWithin_unknown hq]
    exact ⟨_, .unknown error, hquery⟩
  · rcases hc : (session.control.query.2.change limit).1 with error | u
    · have hanswer : (session.queryTimeout.2.control.change limit).1 = .error error := hc
      rw [hq, hanswer] at hinstall
      rw [peekWithin_refused hq hc]
      exact ⟨_, .refused former error, hinstall⟩
    · have hanswer : (session.queryTimeout.2.control.change limit).1 = .ok () := hc
      rw [hq, hanswer] at hinstall
      obtain ⟨reads, hreads, hlook⟩ :=
        receiving_goes hbetween (Inlet.peek_keeps (Inlet.reads_kept 0))
      rw [peekWithin_looks hq hc]
      exact ⟨_, .looked former hreads _,
        hinstall.trans (hlook.trans (changeTimeout_goes _ former))⟩

theorem close_unchanging (horderly : session.Orderly) (flushFirst : Bool) :
    ∃ calls, (∀ call ∈ calls, call.changed? = none)
      ∧ (session.close flushFirst).2.toList = session.log.toList ++ calls := by
  cases flushFirst with
  | false =>
    refine ⟨[.close session.control.close.1], ?_, by simp [close]⟩
    simp [Call.changed?]
  | true =>
    obtain ⟨answer, next, calls, -, hcalls, hflush⟩ := sending_acts
      (Outlet.flush_keeps Sink.writeAll_isWrite Sink.flush_isWrite) session.outlet horderly.sink
    refine ⟨calls.toList ++ [.close session.control.close.1], ?_, ?_⟩
    · intro call hc
      rcases List.mem_append.1 hc with hc | hc
      · exact Call.changed?_of_sending (hcalls call (Array.mem_toList_iff.1 hc))
      · obtain rfl := List.mem_singleton.1 hc
        rfl
    · simp [close, hflush session rfl, withPart]

end Session

namespace Connection

/-- These calls have been made, and the endpoint has gone along with them for as long as there is
one. -/
structure Goes (before : Connection) (calls : List Call) (after : Connection) : Prop where
  log : after.log.toList = before.log.toList ++ calls
  timeout : ∀ session', after.session? = some session' → ∃ session,
    before.session? = some session
      ∧ session'.control.timeout = Call.inForceAfter session.control.timeout calls

/-- The calls of a run. -/
def callsOf (connection : Connection) (operations : List Operation) : List Call :=
  (connection.run operations).2.log.toList.drop connection.log.size

/-- What is wanted for a timeout behind a run. -/
def wanted (connection : Connection) (timeout : Timeout) : List Operation → Timeout
  | [] => timeout
  | first :: others =>
    (connection.perform first).2.wanted (first.wanted timeout (connection.callsOf [first])) others

/-- The endpoint can be trusted with its timeout in every operation of a run. -/
def Trusts (connection : Connection) (timeout : Timeout) : List Operation → Prop
  | [] => True
  | first :: others => Call.Trusted timeout (connection.callsOf [first])
    ∧ (connection.perform first).2.Trusts
        (Call.inForceAfter timeout (connection.callsOf [first])) others

instance decidableTrusts : (connection : Connection) → (timeout : Timeout) →
    (operations : List Operation) → Decidable (connection.Trusts timeout operations)
  | _, _, [] => isTrue trivial
  | connection, timeout, first :: others =>
    have := decidableTrusts (connection.perform first).2
      (Call.inForceAfter timeout (connection.callsOf [first])) others
    inferInstanceAs (Decidable (_ ∧ _))

variable {connection between after : Connection} {calls more : List Call}

theorem Goes.refl (connection : Connection) : connection.Goes [] connection :=
  ⟨by simp, fun session' hs => ⟨session', hs, rfl⟩⟩

theorem Goes.trans (h : connection.Goes calls between) (h' : between.Goes more after) :
    connection.Goes (calls ++ more) after := by
  refine ⟨by rw [h'.log, h.log, List.append_assoc], ?_⟩
  intro session'' hs''
  obtain ⟨session', hs', hlast⟩ := h'.timeout session'' hs''
  obtain ⟨session, hs, hfirst⟩ := h.timeout session' hs'
  exact ⟨session, hs, by rw [hlast, hfirst, Call.inForceAfter_append]⟩

theorem Goes.callsOf {operations : List Operation}
    (h : connection.Goes calls (connection.run operations).2) :
    connection.callsOf operations = calls := by
  rw [Connection.callsOf, h.log, ← Array.length_toList, List.drop_left]

/-- An operation has been performed, by calls of its own. -/
def Performs (before : Connection) (operation : Operation) (after : Connection) : Prop :=
  ∃ calls, operation.Makes calls ∧ before.Goes calls after

theorem Performs.refl (connection : Connection) (operation : Operation) :
    connection.Performs operation connection :=
  ⟨[], .nothing operation, .refl connection⟩

variable {operation : Operation}

theorem withSession_performs {α : Type} {use : Session → α × Session}
    (horderly : connection.Orderly) (hu : ∀ session : Session, session.Orderly →
      ∃ calls, operation.Makes calls ∧ session.Goes calls (use session).2) :
    connection.Performs operation (connection.withSession use).2 := by
  obtain ⟨config, strategy, state⟩ := connection
  cases state with
  | unbound => exact .refl _ operation
  | closed addresses log => exact .refl _ operation
  | opened addresses session =>
    obtain ⟨calls, hmakes, hgoes⟩ := hu session horderly
    refine ⟨calls, hmakes, hgoes.log, ?_⟩
    rintro _ ⟨⟩
    exact ⟨session, rfl, hgoes.timeout⟩

theorem receiving_performs {α : Type} {use : Inlet → α × Inlet} (horderly : connection.Orderly)
    (hl : operation.limit? = none)
    (hu : ∀ inlet : Inlet, LogOf Call.IsRead inlet.source.calls →
      LogOf Call.IsRead (use inlet).2.source.calls) :
    connection.Performs operation (connection.withSession (Session.receiving · use)).2 := by
  refine withSession_performs horderly ?_
  intro session hs
  obtain ⟨reads, hreads, hgoes⟩ := Session.receiving_goes hs hu
  exact ⟨reads, .unchanging hl fun call hc => (hreads call hc).changed?_eq, hgoes⟩

theorem withSessionIo_performs {α : Type} {use : Session → Except IoError α × Session}
    (horderly : connection.Orderly) (hu : ∀ session : Session, session.Orderly →
      ∃ calls, operation.Makes calls ∧ session.Goes calls (use session).2) :
    connection.Performs operation (connection.withSessionIo use).2 :=
  withSession_performs horderly hu

theorem awaitInput_performs (horderly : connection.Orderly) (limit : Timeout) :
    connection.Performs (.awaitInput limit) (connection.awaitInput limit).2 := by
  unfold awaitInput
  refine withSessionIo_performs horderly ?_
  intro session hs
  split
  · exact ⟨[], .nothing _, .refl session⟩
  · obtain ⟨calls, hlooks, hgoes⟩ := Session.peekWithin_goes hs limit
    exact ⟨calls, .looks rfl hlooks, hgoes⟩

theorem isStale_performs (horderly : connection.Orderly) :
    connection.Performs .isStale connection.isStale.2 := by
  unfold isStale
  refine withSession_performs horderly ?_
  intro session hs
  split
  · exact ⟨[], .nothing _, .refl session⟩
  · obtain ⟨calls, hlooks, hgoes⟩ := Session.peekWithin_goes hs staleTimeout
    exact ⟨calls, .looks rfl hlooks, hgoes⟩

theorem sending_performs {addresses : Addresses} {session : Session}
    (hopen : connection.state = .opened addresses session) (horderly : session.Orderly)
    (hl : operation.limit? = none) (hside : operation.side? = some .sending) :
    connection.Performs operation (connection.perform operation).2 := by
  have hconnection := eq_withOpen hopen
  obtain ⟨answer, next, calls, -, hcalls, hperform⟩ :=
    perform_withOpen hside connection addresses (horderly.quiet .sending)
  have hafter := hperform session rfl
  rw [← hconnection] at hafter
  have hnone : ∀ call ∈ calls.toList, call.changed? = none :=
    fun call hc => Call.changed?_of_sending (hcalls call (Array.mem_toList_iff.1 hc))
  rw [hafter]
  refine ⟨calls.toList, .unchanging hl hnone, ?_, ?_⟩
  · rw [log, log, hopen]
    exact Array.toList_append
  · rintro _ ⟨⟩
    refine ⟨session, by rw [session?, hopen], ?_⟩
    rw [Call.inForceAfter_unchanging hnone]
    rfl

theorem close_performs {addresses : Addresses} {session : Session}
    (hopen : connection.state = .opened addresses session) (horderly : session.Orderly)
    (mode : CloseMode) :
    connection.Performs (.close mode) (connection.perform (.close mode)).2 := by
  obtain ⟨calls, hnone, hlog⟩ := Session.close_unchanging horderly (mode == .immediate)
  have hafter : (connection.close mode).2.state
      = .closed addresses (session.close (mode == .immediate)).2 := by
    simp only [close, hopen]
  refine ⟨calls, .unchanging rfl hnone, ?_, ?_⟩
  · rw [log, log, hopen, perform, answering, hafter]
    exact hlog
  · rw [session?, perform, answering, hafter]
    intro session' hs
    cases hs

theorem socketTimeout_performs (horderly : connection.Orderly) :
    connection.Performs .socketTimeout connection.socketTimeout.2 := by
  have hquery : connection.Performs .socketTimeout
      (connection.withSessionIo Session.queryTimeout).2 := by
    refine withSessionIo_performs horderly ?_
    intro session _
    refine ⟨_, .unchanging rfl ?_, session.queryTimeout_goes⟩
    simp [Call.changed?]
  unfold socketTimeout
  split
  · next hr => rwa [hr] at hquery
  · next hr => rwa [hr] at hquery

theorem incomingEntity_performs (horderly : connection.Orderly) (hl : operation.limit? = none)
    (message : Headers) (framing : Framing) (calls : List BodyCall) :
    connection.Performs operation
      (connection.incomingEntity message framing (IncomingEntity.use calls)).2 :=
  receiving_performs horderly hl fun inlet =>
    BodyReader.run_keeps (Inlet.reads_kept 0)
      (.start (.ofConfig connection.config framing) inlet) calls

theorem receiveEntity_performs (horderly : connection.Orderly) (message : Headers)
    (calls : List BodyCall) :
    connection.Performs (.receiveEntity message calls)
      (connection.receiveEntity message (IncomingEntity.use calls)).2 := by
  unfold receiveEntity
  split
  · exact .refl connection _
  · next framing _ => exact incomingEntity_performs horderly rfl message framing calls

/-- What one operation makes of the timeout of the endpoint. -/
theorem perform_performs (horderly : connection.Orderly) (hbound : connection.stage ≠ .unbound)
    (operation : Operation) :
    connection.Performs operation (connection.perform operation).2 := by
  rcases hstate : connection.state with _ | ⟨addresses, session⟩ | ⟨addresses, log⟩
  · rw [stage, hstate] at hbound
    exact absurd rfl hbound
  · have hsession : session.Orderly := by rwa [Orderly, hstate] at horderly
    cases operation with
    | bind endpoint =>
      have hsame : (connection.perform (.bind endpoint)).2 = connection := by
        simp only [perform, answering, bind, hstate]
      rw [hsame]
      exact .refl connection _
    | close mode => exact close_performs hstate hsession mode
    | ensureOpen => exact .refl connection _
    | socketTimeout => exact socketTimeout_performs horderly
    | setSocketTimeout timeout =>
      exact withSession_performs horderly fun session _ =>
        ⟨_, .asks timeout _, session.changeTimeout_goes timeout⟩
    | awaitInput limit => exact awaitInput_performs horderly limit
    | isStale => exact isStale_performs horderly
    | receiveHead =>
      exact receiving_performs horderly rfl
        (Inlet.readHead_keeps (Inlet.reads_kept connection.config.bufferSize) le_rfl)
    | incomingEntity message framing calls =>
      exact incomingEntity_performs horderly rfl message framing calls
    | receiveEntity message calls => exact receiveEntity_performs horderly message calls
    | flush => exact sending_performs hstate hsession rfl rfl
    | sendContent framing calls finish => exact sending_performs hstate hsession rfl rfl
    | sendEntity message calls finish => exact sending_performs hstate hsession rfl rfl
  · have hrefused : connection.stage.refusal? connection.strategy operation
        = some (operation.refusal connection.strategy .closed) := by
      rw [stage, hstate]
      rfl
    rw [perform_refused hrefused]
    exact .refl connection operation

/-- A connection that was bound once stays so. -/
theorem Leads.bound (h : Leads connection (connection.stage.next operation) after)
    (hbound : connection.stage ≠ .unbound) : after.stage ≠ .unbound := by
  rw [h.stage]
  unfold Stage.next
  split
  · nofun
  · nofun
  · exact hbound

theorem run_bound (hbound : connection.stage ≠ .unbound) (operations : List Operation) :
    (connection.run operations).2.stage ≠ .unbound := by
  induction operations generalizing connection with
  | nil => exact hbound
  | cons first others ih => exact ih ((connection.perform_leads first).bound hbound)

theorem run_goes (horderly : connection.Orderly) (hbound : connection.stage ≠ .unbound)
    (operations : List Operation) :
    ∃ calls, connection.Goes calls (connection.run operations).2 := by
  induction operations generalizing connection with
  | nil => exact ⟨[], .refl connection⟩
  | cons first others ih =>
    obtain ⟨calls, -, hfirst⟩ := perform_performs horderly hbound first
    have hleads := connection.perform_leads first
    obtain ⟨more, hothers⟩ := ih (hleads.orderly horderly) (hleads.bound hbound)
    exact ⟨calls ++ more, hfirst.trans hothers⟩

theorem Goes.run_callsOf {operations : List Operation}
    (h : ∃ calls, connection.Goes calls (connection.run operations).2) :
    connection.Goes (connection.callsOf operations) (connection.run operations).2 := by
  obtain ⟨calls, hgoes⟩ := h
  rwa [hgoes.callsOf]

theorem callsOf_cons (horderly : connection.Orderly) (hbound : connection.stage ≠ .unbound)
    (first : Operation) (others : List Operation) :
    connection.callsOf (first :: others)
      = connection.callsOf [first] ++ (connection.perform first).2.callsOf others := by
  have hleads := connection.perform_leads first
  obtain ⟨calls, hfirst⟩ := run_goes horderly hbound [first]
  obtain ⟨more, hothers⟩ := run_goes (hleads.orderly horderly) (hleads.bound hbound) others
  rw [hfirst.callsOf, hothers.callsOf]
  exact (hfirst.trans hothers).callsOf

theorem perform_makes (horderly : connection.Orderly) (hbound : connection.stage ≠ .unbound)
    (operation : Operation) : operation.Makes (connection.callsOf [operation]) := by
  obtain ⟨calls, hmakes, hgoes⟩ := perform_performs horderly hbound operation
  have hcalls : connection.callsOf [operation] = calls := Goes.callsOf hgoes
  rwa [hcalls]

/-- Over an endpoint that can be trusted, the calls of a run leave the timeout that is wanted. -/
theorem run_wanted {timeout : Timeout} {operations : List Operation} (horderly : connection.Orderly)
    (hbound : connection.stage ≠ .unbound) (htrusts : connection.Trusts timeout operations) :
    Call.inForceAfter timeout (connection.callsOf operations)
      = connection.wanted timeout operations := by
  induction operations generalizing connection timeout with
  | nil =>
    rw [Goes.callsOf (.refl connection)]
    rfl
  | cons first others ih =>
    have hleads := connection.perform_leads first
    have hfirst := (perform_makes horderly hbound first).inForceAfter htrusts.1
    have hothers := ih (hleads.orderly horderly) (hleads.bound hbound) htrusts.2
    rw [callsOf_cons horderly hbound, Call.inForceAfter_append, hothers, hfirst]
    rfl

theorem Trusts.of_prefix {timeout : Timeout} {front operations : List Operation}
    (h : connection.Trusts timeout operations) (hf : front <+: operations) :
    connection.Trusts timeout front := by
  induction front generalizing connection timeout operations with
  | nil => trivial
  | cons first others ih =>
    obtain ⟨back, rfl⟩ := hf
    exact ⟨h.1, ih h.2 (List.prefix_append others back)⟩

/-- Input that is buffered already is not looked for. -/
theorem callsOf_buffered {limit : Timeout} (hl : operation.limit? = some limit)
    (hb : 0 < connection.bufferedInput) : connection.callsOf [operation] = [] := by
  obtain ⟨config, strategy, state⟩ := connection
  cases state with
  | unbound => cases hb
  | closed addresses log => cases hb
  | opened addresses session =>
    have hne : session.inlet.buffered ≠ [] := List.ne_nil_of_length_pos hb
    refine Goes.callsOf ?_
    cases operation with
    | awaitInput limit =>
      simp only [run, perform, answering, awaitInput, withSessionIo, withSession,
        List.isEmpty_iff, hne, not_false_eq_true, if_true]
      exact .refl _
    | isStale =>
      simp only [run, perform, answering, isStale, withSession, List.isEmpty_iff, hne,
        not_false_eq_true, if_true]
      exact .refl _
    | _ => cases hl

/-- No operation leaves its own timeout behind. Over an endpoint that tells none but the timeout in
force and lets it be put back, any run of operations leaves the endpoint with the timeout that it
started with or with the last one that the caller has asked for and the endpoint has taken, whatever
else fails. Every operation reads within that timeout, but one that looks for input reads within its
own limit, and makes no call at all when input is buffered already. -/
theorem run_timeouts {addresses : Addresses} {session : Session}
    (hopen : connection.state = .opened addresses session) (horderly : connection.Orderly)
    {operations front : List Operation} (hfront : front <+: operations)
    (htrusts : connection.Trusts session.control.timeout operations) :
    let here := (connection.run front).2
    let inForce := connection.wanted session.control.timeout front
    here.log.toList = connection.log.toList ++ connection.callsOf front
      ∧ Call.inForceAfter session.control.timeout (connection.callsOf front) = inForce
      ∧ (∀ last, here.session? = some last → last.control.timeout = inForce)
      ∧ ∀ operation : Operation,
        Call.ReadsWithin (operation.limit?.getD inForce) inForce (here.callsOf [operation])
          ∧ (operation.limit?.isSome → 0 < here.bufferedInput → here.callsOf [operation] = []) := by
  intro here inForce
  have hbound : connection.stage ≠ .unbound := by
    rw [stage, hopen]
    nofun
  have hsession : connection.session? = some session := by rw [session?, hopen]
  have hgoes := Goes.run_callsOf (run_goes horderly hbound front)
  have hwanted := run_wanted horderly hbound (htrusts.of_prefix hfront)
  refine ⟨hgoes.log, hwanted, ?_, ?_⟩
  · intro last hlast
    obtain ⟨first, hfirst, htimeout⟩ := hgoes.timeout last hlast
    obtain rfl := Option.some.inj (hsession.symm.trans hfirst)
    rw [htimeout, hwanted]
  · intro operation
    have hleads := connection.run_leads front
    have hhere : here.stage ≠ .unbound := run_bound hbound front
    have hmakes := perform_makes (hleads.orderly horderly) hhere operation
    refine ⟨hmakes.readsWithin inForce, ?_⟩
    intro hlimit hb
    obtain ⟨limit, hl⟩ := Option.isSome_iff_exists.1 hlimit
    exact callsOf_buffered hl hb

end Connection

/-! An endpoint that does not tell its timeout at first, then refuses to change it, and is
interrupted while it is looked at in the end. -/

namespace Hesitant

def session : Session where
  inlet := .start 8 ⟨[.fail ⟨.interrupted, ""⟩, .fail ⟨.timedOut, ""⟩, .data [97]], #[]⟩
  outlet := .start 8 8 ⟨[], [], #[]⟩
  control := ⟨⟨7⟩, [.error ⟨.other, ""⟩], [.error ⟨.other, ""⟩], []⟩
  log := #[.localAddr, .peerAddr]

def connection : Connection :=
  ⟨.default, fun _ => .ok .untilClose, .opened ⟨none, none⟩ session⟩

def operations : List Operation :=
  [.isStale, .isStale, .setSocketTimeout ⟨9⟩, .awaitInput ⟨3⟩, .isStale]

theorem run_timeouts_hesitant :
    (∀ last, (connection.run operations).2.session? = some last → last.control.timeout = ⟨9⟩)
      ∧ (connection.run operations).2.isOpen = true
      ∧ (connection.callsOf operations).length = 13 := by
  have horderly : connection.Orderly :=
    (⟨rfl, rfl, ((LogOf.none _).push ⟨rfl, rfl⟩).push ⟨rfl, rfl⟩⟩ : session.Orderly)
  have hopen : connection.state = .opened ⟨none, none⟩ session := rfl
  have htrusts : connection.Trusts session.control.timeout operations := by decide +kernel
  have hwanted : connection.wanted session.control.timeout operations = ⟨9⟩ := by decide +kernel
  obtain ⟨-, -, htimeout, -⟩ :=
    Connection.run_timeouts hopen horderly (List.prefix_refl operations) htrusts
  refine ⟨?_, by decide +kernel, by decide +kernel⟩
  intro last hs
  rw [htimeout last hs, hwanted]

end Hesitant
end Http1
