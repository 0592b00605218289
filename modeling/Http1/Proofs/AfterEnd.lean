import Http1.Proofs.Fragments

/-! Calls on an encoder behind the end of its body. A chunked encoder refuses them. The others never
look at the end again: one that runs until the close lets everything out, and one of declared length
as much as there is still room for (`run_afterEnd`). -/

namespace Http1

namespace BodyEncoder

/-- What an encoder has noted of the end of its body. A declared length takes no note of it. -/
def Ended : BodyEncoder → Prop
  | length _ => True
  | chunked encoder => encoder.finished = true
  | untilClose ended => ended = true

/-- What goes out of data that comes behind the end. -/
def lateData (encoder : BodyEncoder) (data : Bytes) : Bytes :=
  match encoder with
  | length left => data.take left
  | chunked _ => []
  | untilClose _ => data

def lateAnswer : BodyEncoder → EncoderCall → Except SendError Unit
  | chunked _ => fun
    | .setTrailers _ => .ok ()
    | _ => .error Chunked.Encoder.alreadyFinished
  | _ => fun _ => .ok ()

end BodyEncoder

namespace Encoding

open BodyEncoder

variable {encoding next after : Encoding} {data : Bytes}

/-- A step behind the end, with data in it: what goes out then and later is what comes out of all
the data together. -/
structure Late (encoding : Encoding) (data : Bytes) (next : Encoding) : Prop where
  ended : next.encoder.Ended
  output : next.output = encoding.output ++ encoding.encoder.lateData data
  answer : next.encoder.lateAnswer = encoding.encoder.lateAnswer
  more : ∀ more, encoding.encoder.lateData (data ++ more)
    = encoding.encoder.lateData data ++ next.encoder.lateData more

theorem lateData_nil (encoder : BodyEncoder) : encoder.lateData [] = [] := by
  cases encoder with
  | length left => exact List.take_nil
  | chunked encoder => rfl
  | untilClose ended => rfl

theorem Late.idle (h : encoding.encoder.Ended) : encoding.Late [] encoding where
  ended := h
  output := by rw [lateData_nil, List.append_nil]
  answer := rfl
  more := fun more => by rw [lateData_nil, List.nil_append, List.nil_append]

theorem whole_late (h : encoding.encoder.Ended) (data : Bytes) :
    (encoding.call (.whole [data])).1 = encoding.encoder.lateAnswer (.whole [data])
      ∧ encoding.Late data (encoding.call (.whole [data])).2 := by
  obtain ⟨encoder, output⟩ := encoding
  rw [call, chunkOf_eq, List.flatten_singleton]
  cases encoder with
  | length left =>
    refine ⟨rfl, trivial, ?_, rfl, fun more => ?_⟩
    · simp [put, chunk, fitting, lateData, List.take_eq_take_min]
    · have hleft : left - min left data.length = left - data.length := by omega
      simp [put, chunk, fitting, lateData, List.take_append, hleft]
  | untilClose ended => exact ⟨rfl, h, rfl, rfl, fun more => rfl⟩
  | chunked encoder =>
    have hf : encoder.finished = true := h
    simp only [chunk, Chunked.Encoder.chunk, Chunked.Encoder.beginChunk, hf, if_true, Except.map]
    exact ⟨rfl, h, (List.append_nil _).symm, rfl, fun more => rfl⟩

theorem finish_late (h : encoding.encoder.Ended) :
    (encoding.call .finish).1 = encoding.encoder.lateAnswer .finish
      ∧ (encoding.call .finish).2 = encoding := by
  obtain ⟨encoder, output⟩ := encoding
  cases encoder with
  | length left => exact ⟨rfl, by simp [call, put, finish]⟩
  | untilClose ended =>
    obtain rfl : ended = true := h
    exact ⟨rfl, by simp [call, put, finish]⟩
  | chunked encoder =>
    have hf : encoder.finished = true := h
    simp only [call, finish, Chunked.Encoder.finish, hf, if_true, Except.map]
    exact ⟨rfl, rfl⟩

theorem call_late (h : encoding.encoder.Ended) (step : EncoderCall) :
    (encoding.call step).1 = encoding.encoder.lateAnswer step
      ∧ encoding.Late step.given (encoding.call step).2 := by
  cases step with
  | whole segments =>
    rw [call_whole]
    obtain ⟨hanswer, hlate⟩ := whole_late h segments.flatten
    exact ⟨by rw [hanswer]; cases encoding.encoder <;> rfl, hlate⟩
  | fragment data =>
    rw [call_fragment]
    obtain ⟨hanswer, hlate⟩ := whole_late h data
    exact ⟨by rw [hanswer]; cases encoding.encoder <;> rfl, hlate⟩
  | finish =>
    obtain ⟨hanswer, hsame⟩ := finish_late h
    rw [hsame]
    exact ⟨hanswer, .idle h⟩
  | setTrailers trailers =>
    obtain ⟨encoder, output⟩ := encoding
    cases encoder with
    | chunked encoder => exact ⟨rfl, h, (List.append_nil _).symm, rfl, fun _ => rfl⟩
    | _ => exact ⟨rfl, .idle h⟩

/-- All calls behind the end, by induction on them: a step leaves an encoder that has ended too. -/
theorem run_late (h : encoding.encoder.Ended) (calls : List EncoderCall) :
    (encoding.run calls).1 = calls.map encoding.encoder.lateAnswer
      ∧ (encoding.run calls).2.output
        = encoding.output ++ encoding.encoder.lateData (EncoderCall.data calls) := by
  induction calls generalizing encoding with
  | nil =>
    refine ⟨rfl, ?_⟩
    rw [EncoderCall.data, List.flatMap_nil, lateData_nil, List.append_nil]
    rfl
  | cons step others ih =>
    obtain ⟨hanswer, hlate⟩ := call_late h step
    obtain ⟨hanswers, houtput⟩ := ih hlate.ended
    rw [run_cons, List.map_cons, EncoderCall.data, List.flatMap_cons, hlate.more]
    refine ⟨?_, ?_⟩
    · rw [hanswers, hanswer, hlate.answer]
    · rw [houtput, hlate.output, List.append_assoc]
      rfl

/-- Nothing goes out any more, and what is refused is refused for the body. -/
def Silent (encoding : Encoding) : Prop :=
  ∀ calls, (encoding.run calls).2.output = encoding.output
    ∧ ∀ answer ∈ (encoding.run calls).1,
      answer = .ok () ∨ ∃ reason, answer = .error (.invalidBody reason)

theorem call_finish (h : encoding.call .finish = (.ok (), next)) :
    next.encoder.Ended ∧ next.encoder.lateData = encoding.encoder.lateData
      ∧ next.encoder.lateAnswer = encoding.encoder.lateAnswer := by
  obtain ⟨encoder, output⟩ := encoding
  cases encoder with
  | length left =>
    cases h
    exact ⟨trivial, rfl, rfl⟩
  | untilClose ended =>
    cases h
    exact ⟨rfl, rfl, rfl⟩
  | chunked encoder =>
    cases hf : encoder.finished with
    | true => simp [call, put, finish, Chunked.Encoder.finish, hf, Except.map] at h
    | false =>
      simp only [call, put, finish, Chunked.Encoder.finish, hf, Except.map] at h
      cases h
      exact ⟨rfl, rfl, rfl⟩

theorem silent_iff (h : encoding.encoder.Ended) :
    encoding.Silent ↔ ∀ data, encoding.encoder.lateData data = [] := by
  constructor
  · intro hs data
    have hout := (run_late h [.whole [data]]).2
    rw [(hs _).1] at hout
    simpa [EncoderCall.data, EncoderCall.given] using hout.symm
  · intro hn calls
    obtain ⟨hanswers, houtput⟩ := run_late h calls
    refine ⟨by rw [houtput, hn, List.append_nil], ?_⟩
    rw [hanswers]
    intro answer ha
    obtain ⟨step, -, rfl⟩ := List.mem_map.1 ha
    cases encoding.encoder with
    | chunked encoder =>
      cases step with
      | setTrailers trailers => exact .inl rfl
      | _ => exact .inr ⟨_, rfl⟩
    | _ => exact .inl rfl

/-- After the end of a body has been encoded, more data is let out as far as a declared length has
room for it, all of it when the body runs until the close, and none when it is chunked: only then,
or with no room left, is the end of the body the end of what goes out. -/
theorem run_afterEnd (h : encoding.call .finish = (.ok (), next)) :
    (∀ calls, (next.run calls).1 = calls.map encoding.encoder.lateAnswer
        ∧ (next.run calls).2.output
          = next.output ++ encoding.encoder.lateData (EncoderCall.data calls))
      ∧ (next.Silent ↔
        (∃ encoder, encoding.encoder = .chunked encoder) ∨ encoding.encoder = .length 0) := by
  obtain ⟨hended, hdata, hanswer⟩ := call_finish h
  refine ⟨fun calls => ?_, ?_⟩
  · rw [← hdata, ← hanswer]
    exact run_late hended calls
  · rw [silent_iff hended, hdata]
    cases encoding.encoder with
    | length left =>
      constructor
      · intro hn
        cases left with
        | zero => exact .inr rfl
        | succ left => exact absurd (hn [0]) (List.cons_ne_nil _ _)
      · rintro (⟨encoder, he⟩ | hz)
        · cases he
        · cases hz
          exact fun _ => rfl
    | chunked encoder => exact ⟨fun _ => .inl ⟨encoder, rfl⟩, fun _ _ => rfl⟩
    | untilClose ended =>
      constructor
      · intro hn
        exact absurd (hn [0]) (List.cons_ne_nil _ _)
      · rintro (⟨encoder, he⟩ | hz)
        · cases he
        · cases hz

end Encoding

/-! The end, and then more data in either way. -/

namespace AfterEnd

theorem run_afterEnd_chunked :
    let ended : Encoding := ⟨.chunked ⟨true, 0, none⟩, [48, 13, 10, 13, 10]⟩
    (⟨.chunked .start, []⟩ : Encoding).call .finish = (.ok (), ended)
      ∧ (ended.run [.whole [[97]], .setTrailers ⟨[]⟩, .fragment [98], .finish]).1
        = [.error Chunked.Encoder.alreadyFinished, .ok (),
          .error Chunked.Encoder.alreadyFinished, .error Chunked.Encoder.alreadyFinished]
      ∧ ended.Silent := by
  intro ended
  have h : (⟨.chunked .start, []⟩ : Encoding).call .finish = (.ok (), ended) := rfl
  obtain ⟨hrun, hsilent⟩ := Encoding.run_afterEnd h
  exact ⟨h, (hrun _).1, hsilent.2 (.inl ⟨_, rfl⟩)⟩

/-- Data goes out behind the end. -/
theorem run_goes_out :
    (⟨.untilClose false, []⟩ : Encoding).run [.finish, .whole [[97]], .fragment [98]]
        = ([.ok (), .ok (), .ok ()], ⟨.untilClose true, [97, 98]⟩)
      ∧ (⟨.length 5, []⟩ : Encoding).run [.finish, .whole [[97]], .fragment [98]]
        = ([.ok (), .ok (), .ok ()], ⟨.length 3, [97, 98]⟩) := ⟨rfl, rfl⟩

end AfterEnd
end Http1
