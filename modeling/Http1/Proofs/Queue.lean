import Http1.Inlet.InPlace
import Http1.Proofs.HeadSearch

/-! An inlet as a queue. Whatever is called on it and however the calls end, the bytes it has given
out and those it has buffered are together the bytes that its source has supplied, in order
(`Supplied`). For a single call this follows from the steps it takes on the inlet (`call_leads`),
and for a run from its calls. A fill makes room behind the buffered bytes and cuts it off again,
which leaves no trace of the room (`fillInPlace_eq`). -/

namespace Http1

/-- The bytes that a read has got. -/
def Call.supplied : Call → Nat
  | .read _ (.ok n) => n
  | _ => 0

namespace Source

/-- The bytes that all reads so far have got. -/
def supplied (source : Source) : Nat := (source.calls.toList.map Call.supplied).sum

theorem supplied_push (script : List ReadEvent) (calls : Array Call) (call : Call) :
    supplied ⟨script, calls.push call⟩ = supplied ⟨script, calls⟩ + call.supplied := by
  simp [supplied]

theorem supplied_readFrom (offered : Nat) (calls : Array Call) (script : List ReadEvent) :
    (readFrom offered calls script).2.supplied
      = supplied ⟨script, calls⟩ + (given (readFrom offered calls script).1).length := by
  fun_induction readFrom offered calls script with
  | case1 calls => exact supplied_push [] calls _
  | case2 calls bytes rest taken left => exact supplied_push _ calls _
  | case3 calls error rest calls' hk ih =>
    rw [ih]
    exact congrArg (· + _) (supplied_push rest calls _)
  | case4 calls error rest calls' hk => exact supplied_push rest calls _

end Source

namespace Inlet

/-! ### Filling in place -/

/-- The room behind the buffered bytes is where a read goes, and where its bytes are left. -/
theorem fillBehind_step (front room : Bytes) (source : Source) :
    fillBehind front.length (front ++ room) source
      = match source.readInto room with
        | (.ok n, after, next) => (.ok n, front ++ after.take n, next)
        | (.error error, after, next) =>
          if error.kind = .interrupted then fillBehind front.length (front ++ after) next
          else (.error error, front, next) := by
  rw [fillBehind, List.drop_left, List.take_left]
  split
  · next n after next hr => rw [hr, List.take_length_add_append]
  · next error after next hr => rw [hr, List.take_left]

/-- Nothing of the room is left over, and nothing that was read into it gets lost. -/
theorem fillBehind_eq (front room : Bytes) (source : Source) :
    fillBehind front.length (front ++ room) source
      = ((source.read room.length).1.map List.length,
        front ++ Source.given (source.read room.length).1, (source.read room.length).2) := by
  obtain ⟨script, calls⟩ := source
  induction script generalizing calls with
  | nil =>
    rw [fillBehind_step, Source.readInto]
    rfl
  | cons event rest ih =>
    rw [fillBehind_step, Source.readInto]
    cases event with
    | data bytes =>
      simp only [List.take_left]
      rfl
    | fail error =>
      rw [Source.read, Source.readFrom]
      by_cases hk : error.kind = .interrupted
      · simp only [if_pos hk]
        exact ih _
      · simp only [if_neg hk]
        rw [Source.given, List.append_nil]
        rfl

/-- It gives the same, and the buffer has been as long as its record says. -/
theorem fillInPlace_eq (inlet : Inlet) : inlet.fillInPlace = inlet.fill := by
  have hlength : (inlet.buffered ++ List.replicate inlet.readSize 0).length
      = inlet.buffered.length + inlet.readSize := by
    rw [List.length_append, List.length_replicate]
  rw [fillInPlace, hlength, fillBehind_eq, List.length_replicate, fill]
  rcases inlet.source.read inlet.readSize with ⟨error | bytes, source⟩
  · rw [Source.given, List.append_nil]
    rfl
  · rfl

/-! ### What a call does -/

/-- In between the source has supplied the bytes `came`, and the bytes `handed` were given out: the
queue has got them at the back and lost these at the front. -/
structure Supplied (first : Inlet) (came handed : Bytes) (last : Inlet) : Prop where
  source : first.source.undelivered = came ++ last.source.undelivered
  count : last.source.supplied = first.source.supplied + came.length
  queue : handed ++ last.buffered = first.buffered ++ came

theorem Supplied.trans {first between last : Inlet} {came came' handed handed' : Bytes}
    (h : Supplied first came handed between) (h' : Supplied between came' handed' last) :
    Supplied first (came ++ came') (handed ++ handed') last where
  source := by rw [h.source, h'.source, List.append_assoc]
  count := by rw [h'.count, h.count, List.length_append, Nat.add_assoc]
  queue := by rw [List.append_assoc, h'.queue, ← List.append_assoc, h.queue, List.append_assoc]

theorem fill_supplied (inlet : Inlet) : ∃ came, Supplied inlet came [] inlet.fill.2 := by
  have hgiven := inlet.source.given_read inlet.readSize
  have hcount : (inlet.source.read inlet.readSize).2.supplied
      = inlet.source.supplied + (Source.given (inlet.source.read inlet.readSize).1).length :=
    Source.supplied_readFrom _ _ _
  unfold fill
  generalize inlet.source.read inlet.readSize = got at hgiven hcount
  obtain ⟨error | bytes, source⟩ := got
  · exact ⟨[], hgiven.symm, hcount, (List.append_nil _).symm⟩
  · exact ⟨bytes, hgiven.symm, hcount, rfl⟩

end Inlet

/-- Fills and takes keep the queue, in any order. -/
theorem Uptake.Leads.supplied {allowed : Uptake → Prop} {first last : Uptake}
    (h : Leads allowed first last) (hused : first.used = []) :
    ∃ came, Inlet.Supplied first.inlet came last.used last.inlet := by
  induction h with
  | refl => exact ⟨[], rfl, rfl, by rw [hused, List.append_nil, List.nil_append]⟩
  | @fill between _ _ ih =>
    obtain ⟨came, hcame⟩ := ih
    obtain ⟨more, hmore⟩ := between.inlet.fill_supplied
    have hall := hcame.trans hmore
    rw [List.append_nil] at hall
    exact ⟨came ++ more, hall⟩
  | take _ hb ih =>
    obtain ⟨came, hcame⟩ := ih
    refine ⟨came, hcame.source, hcame.count, ?_⟩
    rw [List.append_assoc, ← hb]
    exact hcame.queue

/-- A call on an inlet. -/
inductive InletCall
  | fill
  | peek
  | read (size : Nat)
  | readHead (max : Nat)

/-- What a call on an inlet came to. -/
inductive InletReply
  | filled (answer : Except IoError Nat)
  | peeked (answer : Except IoError Peek)
  | read (answer : Except IoError Bytes)
  | head (answer : Except ParseError (Option Bytes))

namespace InletReply

/-- The bytes that were given out. -/
def given : InletReply → Bytes
  | filled _ | peeked _ => []
  | read answer => Source.given answer
  | head answer => Inlet.headGiven answer

def Failed : InletReply → Prop
  | filled (.error _) | peeked (.error _) | read (.error _) | head (.error _) => True
  | _ => False

theorem given_of_failed {reply : InletReply} (h : reply.Failed) : reply.given = [] := by
  cases reply with
  | filled answer => rfl
  | peeked answer => rfl
  | read answer =>
    cases answer with
    | error error => rfl
    | ok bytes => exact h.elim
  | head answer =>
    cases answer with
    | error error => rfl
    | ok head => exact h.elim

end InletReply

/-- The moments at which a call may read from the source. -/
def InletCall.Reads : InletCall → Uptake → Prop
  | fill, _ => True
  | peek, uptake | read _, uptake => uptake.obtained = []
  | readHead _, uptake => Inlet.EndMissing uptake

namespace Inlet

def call (inlet : Inlet) : InletCall → InletReply × Inlet
  | .fill => inlet.fill.map .filled id
  | .peek => inlet.peek.map .peeked id
  | .read size => (inlet.read size).map .read id
  | .readHead max => (inlet.readHead max).map .head id

def run (inlet : Inlet) : List InletCall → List InletReply × Inlet
  | [] => ([], inlet)
  | first :: others =>
    let (reply, next) := inlet.call first
    let (replies, last) := next.run others
    (reply :: replies, last)

theorem peek_leads (inlet : Inlet) :
    Uptake.Leads InletCall.peek.Reads ⟨[], inlet⟩ ⟨[], inlet.peek.2⟩ := by
  unfold peek
  split
  · exact .refl
  · next hempty =>
    have hnil : inlet.buffered = [] := by simpa using hempty
    have hreads : InletCall.peek.Reads ⟨[], inlet⟩ := hnil
    have hfill := Uptake.Leads.refl.fill hreads
    generalize inlet.fill = filled at hfill
    obtain ⟨error | n | n, next⟩ := filled
    · dsimp only
      split
      · exact hfill
      · exact hfill
    · exact hfill
    · exact hfill

theorem read_leads (inlet : Inlet) (size : Nat) :
    Uptake.Leads (InletCall.read size).Reads ⟨[], inlet⟩
      ⟨Source.given (inlet.read size).1, (inlet.read size).2⟩ := by
  have htake (next : Inlet) : next.buffered = (next.take size).1 ++ (next.take size).2.buffered :=
    (List.take_append_drop size next.buffered).symm
  unfold read
  split
  · exact .refl
  split
  · exact Uptake.Leads.refl.take (htake inlet)
  · next hempty =>
    have hnil : inlet.buffered = [] := by simpa using hempty
    have hreads : (InletCall.read size).Reads ⟨[], inlet⟩ := hnil
    have hfill := Uptake.Leads.refl.fill hreads
    generalize inlet.fill = filled at hfill
    obtain ⟨error | n, next⟩ := filled
    · exact hfill
    · exact hfill.take (htake next)

/-- Whatever a call does, it only fills and takes, and it reads at its moments only. -/
theorem call_leads (inlet : Inlet) (first : InletCall) :
    Uptake.Leads first.Reads ⟨[], inlet⟩ ⟨(inlet.call first).1.given, (inlet.call first).2⟩ := by
  cases first with
  | fill => exact Uptake.Leads.refl.fill trivial
  | peek => exact inlet.peek_leads
  | read size => exact inlet.read_leads size
  | readHead max => exact readHead_leads max inlet

theorem call_supplied (inlet : Inlet) (first : InletCall) :
    ∃ came, Supplied inlet came (inlet.call first).1.given (inlet.call first).2 :=
  (inlet.call_leads first).supplied rfl

theorem run_supplied (inlet : Inlet) (calls : List InletCall) :
    ∃ came, Supplied inlet came ((inlet.run calls).1.flatMap InletReply.given)
      (inlet.run calls).2 := by
  induction calls generalizing inlet with
  | nil => exact ⟨[], rfl, rfl, (List.append_nil _).symm⟩
  | cons first others ih =>
    obtain ⟨came, hfirst⟩ := inlet.call_supplied first
    obtain ⟨more, hothers⟩ := ih (inlet.call first).2
    exact ⟨came ++ more, hfirst.trans hothers⟩

/-- Peeking and reading leave the source alone while bytes are buffered. -/
theorem call_source {inlet : Inlet} {first : InletCall} (hb : inlet.hasBuffered)
    (hf : first = .peek ∨ ∃ size, first = .read size) :
    (inlet.call first).2.source = inlet.source := by
  have hne : inlet.buffered ≠ [] := by simpa [InputBuffer.hasBuffered] using hb
  have hno : ∀ uptake : Uptake, inlet.buffered <+: uptake.obtained → ¬ first.Reads uptake := by
    intro uptake hp hreads
    have hnil : uptake.obtained = [] := by
      rcases hf with rfl | ⟨size, rfl⟩
      · exact hreads
      · exact hreads
    rw [hnil] at hp
    exact hne (List.prefix_nil.1 hp)
  exact (inlet.call_leads first).source_eq hno

/-- After any calls on a new inlet, the bytes given out and then those that are buffered are the
bytes that the source has supplied, as many as its reads have got; so bytes are buffered just when
not all of them were given out. A call that fails gives nothing out and adds what its reads have got
to the buffered bytes, and while there are any, peeking and reading make no read at all. Filling in
place and a head search that goes on where it stopped do the same. -/
theorem run_queue (readSize : Nat) (script : List ReadEvent) (calls : List InletCall) :
    ∃ replies inlet came, (start readSize ⟨script, #[]⟩).run calls = (replies, inlet)
      ∧ came = (script.flatMap ReadEvent.bytes).take inlet.source.supplied
      ∧ came.length = inlet.source.supplied
      ∧ replies.flatMap InletReply.given ++ inlet.buffered = came
      ∧ (inlet.hasBuffered ↔ replies.flatMap InletReply.given ≠ came)
      ∧ (∀ next : InletCall, (inlet.call next).1.Failed → (inlet.call next).1.given = []
        ∧ (inlet.call next).2.buffered = inlet.buffered ++ inlet.source.undelivered.take
          ((inlet.call next).2.source.supplied - inlet.source.supplied))
      ∧ (inlet.hasBuffered → (inlet.call .peek).2.source = inlet.source
        ∧ ∀ size, (inlet.call (.read size)).2.source = inlet.source)
      ∧ inlet.fillInPlace = inlet.fill ∧ ∀ max, inlet.searchHead 0 max = inlet.readHead max := by
  obtain ⟨came, hrun⟩ := (start readSize ⟨script, #[]⟩).run_supplied calls
  generalize (start readSize ⟨script, #[]⟩).run calls = result at hrun
  obtain ⟨replies, inlet⟩ := result
  have hcount : inlet.source.supplied = came.length := hrun.count.trans (Nat.zero_add _)
  have hqueue : replies.flatMap InletReply.given ++ inlet.buffered = came := hrun.queue
  have hwhole : script.flatMap ReadEvent.bytes = came ++ inlet.source.undelivered := hrun.source
  refine ⟨replies, inlet, came, rfl, ?_, hcount.symm, hqueue, ?_, fun next hfailed => ?_,
    fun hb => ?_, inlet.fillInPlace_eq, fun max => searchHead_eq 0 max inlet rfl⟩
  · rw [hwhole, hcount, List.take_left]
  · rw [← hqueue]
    simp [InputBuffer.hasBuffered]
  · have hgiven := InletReply.given_of_failed hfailed
    obtain ⟨more, hnext⟩ := inlet.call_supplied next
    refine ⟨hgiven, ?_⟩
    rw [hnext.count, Nat.add_sub_cancel_left, hnext.source, List.take_left, ← hnext.queue, hgiven,
      List.nil_append]
  · exact ⟨call_source hb (.inl rfl), fun size => call_source hb (.inr ⟨size, rfl⟩)⟩

end Inlet
end Http1
