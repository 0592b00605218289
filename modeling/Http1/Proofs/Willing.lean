import Mathlib
import Http1.Outlet

/-! A sink that takes what it is given, in as many writes as it likes. Over it nothing that is sent
fails: every operation of an outlet succeeds and its stream grows by exactly the bytes that were
written (`Outlet.Grown`), whether they were collected, sent behind what waited or sent directly. -/

namespace Http1

/-- The write takes at least one byte or has to be made again. -/
def WriteEvent.Willing : WriteEvent → Prop
  | .accept n => 0 < n
  | .fail error => error.kind = .interrupted

/-- Writes take something sooner or later, and flushes succeed. -/
structure Sink.Willing (sink : Sink) : Prop where
  writes : ∀ event ∈ sink.writes, event.Willing
  flushes : ∀ answer ∈ sink.flushes, answer = .ok ()

namespace Sink

theorem pushTo_willing (bytes : Bytes) (calls : Array Call) (events : List WriteEvent)
    (h : ∀ event ∈ events, event.Willing) :
    (pushTo bytes calls events).1 = .ok ()
      ∧ ∀ event ∈ (pushTo bytes calls events).2.1, event.Willing := by
  induction events generalizing bytes calls with
  | nil =>
    unfold pushTo
    split
    · exact ⟨rfl, h⟩
    · exact ⟨rfl, h⟩
  | cons event rest ih =>
    have hrest : ∀ event ∈ rest, event.Willing :=
      fun event he => h event (List.mem_cons_of_mem _ he)
    have hfirst := h event List.mem_cons_self
    by_cases hb : bytes = []
    · rw [hb]
      exact ⟨rfl, h⟩
    have hempty : bytes.isEmpty = false := by simpa using hb
    have hlen := List.length_pos_iff.2 hb
    cases event with
    | accept n =>
      have htaken : min n bytes.length ≠ 0 := by
        have hn : 0 < n := hfirst
        omega
      rw [pushTo, hempty]
      simp only [Bool.false_eq_true, if_false, htaken]
      exact ih _ _ hrest
    | fail error =>
      have hkind : error.kind = .interrupted := hfirst
      rw [pushTo, hempty]
      simp only [Bool.false_eq_true, if_false, hkind, if_true]
      exact ih _ _ hrest

theorem writeAll_willing {sink : Sink} (h : sink.Willing) (bytes : Bytes) :
    ∃ next, sink.writeAll bytes = (.ok (), next) ∧ next.Willing
      ∧ next.accepted = sink.accepted ++ bytes := by
  obtain ⟨hok, hwrites⟩ := pushTo_willing bytes sink.calls sink.writes h.writes
  obtain ⟨taken, -, haccepted, hall⟩ := sink.writeAll_accepted bytes
  have hanswer : (sink.writeAll bytes).1 = .ok () := hok
  refine ⟨(sink.writeAll bytes).2, Prod.ext hanswer rfl, ⟨hwrites, h.flushes⟩, ?_⟩
  rw [haccepted, hall hanswer]

theorem flush_willing {sink : Sink} (h : sink.Willing) :
    ∃ next, sink.flush = (.ok (), next) ∧ next.Willing ∧ next.accepted = sink.accepted := by
  have hanswer : sink.flush.1 = .ok () := by
    rw [flush]
    cases hf : sink.flushes with
    | nil => rfl
    | cons answer rest => exact h.flushes answer (hf ▸ List.mem_cons_self)
  have hflushes : ∀ answer ∈ sink.flush.2.flushes, answer = .ok () := by
    intro answer ha
    exact h.flushes answer (List.mem_of_mem_tail ha)
  exact ⟨sink.flush.2, Prod.ext hanswer rfl, ⟨h.writes, hflushes⟩, sink.flush_accepted⟩

end Sink

namespace Outlet

/-- The stream has grown by these bytes, and the sink goes on taking more. -/
structure Grown (outlet : Outlet) (bytes : Bytes) (next : Outlet) : Prop where
  willing : next.sink.Willing
  stream : next.stream = outlet.stream ++ bytes

theorem Grown.trans {first second third : Outlet} {front back : Bytes}
    (hf : Grown first front second) (hb : Grown second back third) :
    Grown first (front ++ back) third :=
  ⟨hb.willing, by rw [hb.stream, hf.stream, List.append_assoc]⟩

variable {outlet : Outlet}

theorem append_grown (h : outlet.sink.Willing) (bytes : Bytes) :
    Grown outlet bytes (outlet.append bytes) :=
  ⟨h, outlet.append_stream bytes⟩

theorem flushBuffer_grown (h : outlet.sink.Willing) :
    ∃ next, outlet.flushBuffer = (.ok (), next) ∧ next.pending = [] ∧ Grown outlet [] next := by
  obtain ⟨sink, hwrite, hwilling, -⟩ := Sink.writeAll_willing h outlet.pending
  have hflush : outlet.flushBuffer = (.ok (), { outlet with pending := [], sink }) := by
    rw [flushBuffer, hwrite]
  obtain ⟨hpending, hstream⟩ := flushBuffer_stream hflush
  exact ⟨_, hflush, hpending, hwilling, hstream.trans (List.append_nil _).symm⟩

theorem sendDirect_grown (h : outlet.sink.Willing) (hp : outlet.pending = []) (bytes : Bytes) :
    ∃ next, outlet.sendDirect bytes = (.ok (), next) ∧ Grown outlet bytes next := by
  obtain ⟨sink, hwrite, hwilling, haccepted⟩ := Sink.writeAll_willing h bytes
  refine ⟨{ outlet with sink }, by rw [sendDirect, hwrite], hwilling, ?_⟩
  rw [stream, stream, hp, haccepted, List.append_nil, List.append_nil]

/-- What is written comes behind all that was written before. -/
theorem write_grown (h : outlet.sink.Willing) (bytes : Bytes) :
    ∃ next, outlet.write bytes = (.ok (), next) ∧ Grown outlet bytes next := by
  obtain ⟨middle, hflush, hpending, hmiddle⟩ := flushBuffer_grown h
  unfold write afterFlush
  rw [hflush]
  split
  · obtain ⟨next, hdirect, hnext⟩ := sendDirect_grown hmiddle.willing hpending bytes
    exact ⟨next, hdirect, hmiddle.trans hnext⟩
  · split
    · exact ⟨middle.append bytes, rfl, hmiddle.trans (append_grown hmiddle.willing bytes)⟩
    · exact ⟨outlet.append bytes, rfl, append_grown h bytes⟩

theorem flush_grown (h : outlet.sink.Willing) :
    ∃ next, outlet.flush = (.ok (), next) ∧ next.pending = [] ∧ Grown outlet [] next := by
  obtain ⟨middle, hflush, hpending, hmiddle⟩ := flushBuffer_grown h
  obtain ⟨sink, hsink, hwilling, haccepted⟩ := Sink.flush_willing hmiddle.willing
  refine ⟨{ middle with sink }, ?_, hpending, hwilling, ?_⟩
  · rw [flush, afterFlush, hflush]
    simp only [hsink]
  · rw [← hmiddle.stream, stream, stream, haccepted]

end Outlet
end Http1
