import Http1.Proofs.Fragments
import Http1.Proofs.Sending

/-! Trailers over the wire. An encoder writes a line for each value, the values of one name
together, and a decoder has a field for each line, without the blanks around its value. Fields that
come in groups are listed in the same groups (`Headers.names_ofGroups`, `Headers.getAll_ofGroups`),
so the trailers of an encoder arrive as they were, with their values trimmed
(`Encoding.run_trailers`). -/

namespace Http1

theorem Bytes.trim_valid {bs : Bytes} (h : bs.all Byte.isFieldContent = true) :
    bs.trim.all Byte.isFieldContent = true := by
  rw [← trim_parts bs, List.all_append, List.all_append, Bool.and_eq_true, Bool.and_eq_true] at h
  exact h.1.2

/-- The value without the blanks at its ends. -/
def FieldValue.trimmed (value : FieldValue) : FieldValue :=
  ⟨value.bytes.trim, Bytes.trim_valid value.valid⟩

def Field.trimmed (field : Field) : Field := ⟨field.name, field.value.trimmed⟩

theorem FieldName.toLower_bytes (name : FieldName) : name.bytes.toLower = name.bytes := by
  have hlower : ∀ b ∈ name.bytes, Byte.lower b = b := by
    intro b hb
    have hvalid := List.all_eq_true.1 name.valid.2.2 b hb
    rw [Bool.and_eq_true, Bool.not_eq_true'] at hvalid
    rw [Byte.lower, hvalid.2]
    rfl
  exact (List.map_congr_left hlower).trans (List.map_id' _)

theorem Chunked.FieldLine.field_ofField (field : Field) :
    (FieldLine.ofField field).field = field.trimmed := by
  have hname : (FieldLine.ofField field).field.name = field.name :=
    FieldName.mk.injEq .. ▸ field.name.toLower_bytes
  rw [Field.trimmed, ← hname]
  rfl

namespace Headers

/-- Fields that come in groups: each name with its values. -/
def ofGroups (names : List FieldName) (values : FieldName → List FieldValue) : Headers :=
  ⟨names.flatMap fun name => (values name).map (Field.mk name)⟩

variable {names : List FieldName} {values : FieldName → List FieldValue}

theorem mem_ofGroups {field : Field} (h : field ∈ (ofGroups names values).fields) :
    field.name ∈ names := by
  obtain ⟨name, hn, hf⟩ := List.mem_flatMap.1 h
  obtain ⟨value, -, rfl⟩ := List.mem_map.1 hf
  exact hn

theorem getAll_ofGroups (hn : names.Nodup) (name : FieldName) :
    (ofGroups names values).getAll name = if name ∈ names then values name else [] := by
  induction names with
  | nil => rfl
  | cons first others ih =>
    obtain ⟨hfirst, hothers⟩ := List.nodup_cons.1 hn
    have hrest := ih hothers
    rw [ofGroups, getAll] at hrest ⊢
    rw [List.flatMap_cons, List.filter_append, List.map_append, hrest]
    by_cases h : name = first
    · subst h
      simp [hfirst, List.filter_map, Function.comp_def]
    · have hne : first ≠ name := Ne.symm h
      simp [h, hne]

theorem names_ofGroups (hn : names.Nodup) (hv : ∀ name ∈ names, values name ≠ []) :
    (ofGroups names values).names = names := by
  induction names with
  | nil => rfl
  | cons first others ih =>
    obtain ⟨hfirst, hothers⟩ := List.nodup_cons.1 hn
    have hrest := ih hothers fun name hm => hv name (List.mem_cons_of_mem _ hm)
    obtain ⟨value, more, hvalues⟩ := List.exists_cons_of_ne_nil (hv first List.mem_cons_self)
    -- the values behind the first one have its name, and those of the others do not
    have hmore :
        ((more.map (Field.mk first)).map Field.name).filter (fun b => !b == first) = [] := by simp
    have hkept : ((ofGroups others values).fields.map Field.name).filter (fun b => !b == first)
        = (ofGroups others values).fields.map Field.name := by
      refine List.filter_eq_self.2 fun name hm => ?_
      obtain ⟨field, hf, rfl⟩ := List.mem_map.1 hm
      have hne : field.name ≠ first := fun he => hfirst (he ▸ mem_ofGroups hf)
      simpa using hne
    rw [Headers.names, ofGroups] at hrest ⊢
    rw [ofGroups] at hkept
    rw [List.flatMap_cons, hvalues, List.map_cons, List.cons_append, List.map_cons,
      List.eraseDups_cons, List.map_append, List.filter_append, hmore, hkept, List.nil_append,
      hrest]

theorem getAll_ne_nil {headers : Headers} {name : FieldName} (h : name ∈ headers.names) :
    headers.getAll name ≠ [] := by
  obtain ⟨field, hf, rfl⟩ := List.mem_map.1 (List.mem_eraseDups.1 h)
  have hvalue : field.value ∈ headers.getAll field.name :=
    List.mem_map.2 ⟨field, List.mem_filter.2 ⟨hf, decide_eq_true rfl⟩, rfl⟩
  exact List.ne_nil_of_mem hvalue

theorem getAll_eq_nil {headers : Headers} {name : FieldName} (h : name ∉ headers.names) :
    headers.getAll name = [] := by
  rw [getAll, List.map_eq_nil_iff, List.filter_eq_nil_iff]
  intro field hf hname
  refine h (List.mem_eraseDups.2 (List.mem_map.2 ⟨field, hf, ?_⟩))
  simpa using hname

/-- What a decoder makes of the lines that an encoder writes for these headers. -/
def received (headers : Headers) : Headers := ⟨headers.grouped.map Field.trimmed⟩

variable (headers : Headers)

theorem received_eq : headers.received
    = ofGroups headers.names fun name => (headers.getAll name).map FieldValue.trimmed := by
  simp [received, ofGroups, grouped, List.map_flatMap, Function.comp_def, Field.trimmed]

theorem names_received : headers.received.names = headers.names := by
  rw [received_eq]
  apply names_ofGroups headers.nodup_names
  intro name hn
  simpa using getAll_ne_nil hn

theorem getAll_received (name : FieldName) :
    headers.received.getAll name = (headers.getAll name).map FieldValue.trimmed := by
  rw [received_eq, getAll_ofGroups headers.nodup_names]
  split
  · rfl
  · next hn => rw [getAll_eq_nil hn, List.map_nil]

theorem grouped_received : headers.received.grouped = headers.grouped.map Field.trimmed := by
  have hfields := congrArg Headers.fields headers.received_eq
  rw [grouped, names_received]
  simp only [getAll_received]
  exact hfields.symm

theorem grouped_eq_nil_iff : headers.grouped = [] ↔ headers.fields = [] := by
  constructor
  · intro h
    apply List.eq_nil_iff_forall_not_mem.2
    intro field hf
    have hn : field.name ∈ headers.names := List.mem_eraseDups.2 (List.mem_map_of_mem hf)
    have hnone := List.flatMap_eq_nil_iff.1 h field.name hn
    exact getAll_ne_nil hn (List.map_eq_nil_iff.1 hnone)
  · intro h
    rw [grouped, names, h]
    rfl

end Headers

/-- The trailers that a step leaves set. -/
def EncoderCall.trailersAfter (before : Option Headers) : EncoderCall → Option Headers
  | setTrailers trailers => some trailers
  | _ => before

/-- The trailers that the last of the steps which set any has set. -/
def EncoderCall.lastTrailers (calls : List EncoderCall) : Option Headers :=
  calls.foldl trailersAfter none

namespace Encoding

variable {encoding : Encoding} {data : Bytes} {trailers : Option Headers}

/-- A chunked body that has been written for this data and has not been finished, with the trailers
that its end will have. -/
structure Writing (data : Bytes) (trailers : Option Headers) (encoding : Encoding) : Prop where
  encodes : Encodes .chunked encoding.encoder encoding.output data
  trailers : encoding.encoder.trailers? = some trailers

theorem start_writing : Writing [] none ⟨.chunked .start, []⟩ := ⟨.start .chunked, rfl⟩

theorem stream_writing (h : encoding.Writing data trailers) (bytes : Bytes)
    (hsize : bytes.length < 2 ^ 64) :
    ∃ next, encoding.stream bytes = (.ok (), next) ∧ next.Writing (data ++ bytes) trailers := by
  obtain ⟨fragment, encoder, hbegin, hencodes⟩ := h.encodes.fragment bytes hsize
  refine ⟨_, by rw [stream, hbegin], ?_, ?_⟩
  · simpa using hencodes
  · exact (BodyEncoder.beginFragment_trailers hbegin).trans h.trailers

theorem call_writing (h : encoding.Writing data trailers) (step : EncoderCall)
    (hstep : step ≠ .finish) (hsize : step.given.length < 2 ^ 64) :
    ∃ next, encoding.call step = (.ok (), next)
      ∧ next.Writing (data ++ step.given) (step.trailersAfter trailers) := by
  cases step with
  | whole segments =>
    rw [call_whole, ← call_fragment]
    exact stream_writing h segments.flatten hsize
  | fragment bytes => exact stream_writing h bytes hsize
  | finish => exact absurd rfl hstep
  | setTrailers trailers =>
    refine ⟨_, rfl, ?_, ?_⟩
    · rw [EncoderCall.given, List.append_nil]
      exact h.encodes.withTrailers trailers
    · obtain ⟨encoder, output⟩ := encoding
      cases h.encodes
      rfl

/-- All steps succeed, and the trailers of the last step that sets any are set. -/
theorem run_writing (h : encoding.Writing data trailers) {calls : List EncoderCall}
    (hcalls : .finish ∉ calls) (hsize : ∀ step ∈ calls, step.given.length < 2 ^ 64) :
    ∃ next, encoding.run calls = (calls.map fun _ => .ok (), next)
      ∧ next.Writing (data ++ EncoderCall.data calls)
        (calls.foldl EncoderCall.trailersAfter trailers) := by
  induction calls generalizing encoding data trailers with
  | nil => exact ⟨encoding, rfl, by rwa [EncoderCall.data, List.flatMap_nil, List.append_nil]⟩
  | cons step others ih =>
    obtain ⟨hstep, hothers⟩ : .finish ≠ step ∧ .finish ∉ others := by simpa using hcalls
    obtain ⟨middle, hcall, hmiddle⟩ :=
      call_writing h step (Ne.symm hstep) (hsize step List.mem_cons_self)
    obtain ⟨next, hrun, hnext⟩ :=
      ih hmiddle hothers fun step hm => hsize step (List.mem_cons_of_mem _ hm)
    refine ⟨next, ?_, ?_⟩
    · rw [run_cons, hcall, hrun]
      rfl
    · rwa [List.append_assoc] at hnext

/-- The end makes a whole body of what has been written. -/
theorem finish_writing (h : encoding.Writing data trailers) :
    ∃ next chunks, encoding.call .finish = (.ok (), next) ∧ Chunked.Chunks.data chunks = data
      ∧ next.output = (Chunked.WholeBody.ofChunks chunks trailers).wire := by
  obtain ⟨encoder, output⟩ := encoding
  obtain ⟨hencodes, htrailers⟩ := h
  cases hencodes with
  | chunked encoder chunks hf =>
    obtain rfl : encoder.trailers = trailers := Option.some.inj htrailers
    obtain ⟨last, next, hfinish, hwire⟩ := BodyEncoder.finish_chunked hf chunks
    refine ⟨⟨.chunked next, chunks.wire ++ last⟩, chunks, ?_, rfl, hwire.symm⟩
    rw [call, hfinish]
    rfl

end Encoding

/-- Trailers without a field leave no trace. -/
theorem Chunked.WholeBody.trailers_ofChunks (chunks : Chunks) (trailers : Option Headers) :
    (WholeBody.ofChunks chunks trailers).trailers
      = trailers.bind fun given => if given.fields = [] then none else some given.received := by
  cases trailers with
  | none => rfl
  | some given =>
    have hfields : given.grouped.map (fun field => (FieldLine.ofField field).field)
        = given.grouped.map Field.trimmed :=
      List.map_congr_left fun field _ => FieldLine.field_ofField field
    simp [WholeBody.trailers, ofChunks, FieldLines.ofTrailers, FieldLines.trailers,
      Headers.grouped_eq_nil_iff, Headers.received, ← hfields, Function.comp_def]

namespace Encoding

/-- Whatever the steps before the end of a body are, and however its bytes are cut: all steps
succeed, all data is decoded, and if there is room for the trailers that were set last, the body is
decoded to its end and they arrive, name by name and value by value, but for the blanks around
values. -/
theorem run_trailers {calls : List EncoderCall} (hcalls : EncoderCall.finish ∉ calls)
    (hsize : ∀ step ∈ calls, step.given.length < 2 ^ 64) :
    ∃ last, (⟨.chunked .start, []⟩ : Encoding).run (calls ++ [.finish])
        = (calls.map (fun _ => .ok ()) ++ [.ok ()], last)
      ∧ ∀ first others, first ++ others.flatten = last.output →
        let found := (BodyDecoder.start .none .chunked).feed [] first others
        found.consumed = last.output.length ∧ found.data = EncoderCall.data calls
          ∧ (Headers.Fit (EncoderCall.lastTrailers calls) → found.last.item = .endOfBody
            ∧ ∀ given, EncoderCall.lastTrailers calls = some given →
              (given.fields = [] → found.last.decoder.trailers = none)
              ∧ (given.fields ≠ [] → ∃ arrived, found.last.decoder.trailers = some arrived
                ∧ arrived.names = given.names
                ∧ (∀ name, arrived.getAll name = (given.getAll name).map FieldValue.trimmed)
                ∧ arrived.grouped = given.grouped.map Field.trimmed))
          ∧ (¬ Headers.Fit (EncoderCall.lastTrailers calls) →
            found.last.item = .failed .overrun) := by
  obtain ⟨middle, hrun, hmiddle⟩ := run_writing start_writing hcalls hsize
  obtain ⟨last, chunks, hfinish, hdata, houtput⟩ := finish_writing hmiddle
  refine ⟨last, ?_, ?_⟩
  · rw [run_append, hrun, run_cons, hfinish]
    rfl
  · intro first others h
    rw [houtput] at h
    have hroom := Chunked.WholeBody.hasRoom_ofChunks chunks (EncoderCall.lastTrailers calls)
    obtain ⟨hfound, hconsumed, hends, hoverruns⟩ :=
      Chunked.WholeBody.feed_front (Chunked.WholeBody.passes_front _) h
    refine ⟨by rw [hconsumed, houtput], hfound.trans hdata, fun hfit => ?_,
      fun hfit => hoverruns fun hfits => hfit (hroom.1 hfits)⟩
    obtain ⟨hitem, htrailers⟩ := hends (hroom.2 hfit)
    rw [Chunked.WholeBody.trailers_ofChunks] at htrailers
    refine ⟨hitem, ?_⟩
    intro given hgiven
    rw [EncoderCall.lastTrailers] at hgiven
    rw [hgiven] at htrailers
    refine ⟨fun hnone => ?_, fun hsome => ⟨given.received, ?_, given.names_received,
      given.getAll_received, given.grouped_received⟩⟩
    · rw [htrailers]
      exact if_pos hnone
    · rw [htrailers]
      exact if_neg hsome

end Encoding

/-! Two names, one of them with two values that have blanks at their ends, between two pieces of
data; the bytes are fed one by one. -/

namespace TwoNames

def one : FieldName := ⟨[97], by decide⟩

def other : FieldName := ⟨[98], by decide⟩

def given : Headers :=
  ⟨[⟨one, ⟨[32, 49], by decide⟩⟩, ⟨other, ⟨[], by decide⟩⟩, ⟨one, ⟨[50, 9], by decide⟩⟩]⟩

def calls : List EncoderCall := [.whole [[97]], .setTrailers given, .fragment [98]]

theorem run_trailers_two :
    ∃ last, (⟨.chunked .start, []⟩ : Encoding).run (calls ++ [.finish])
        = ([.ok (), .ok (), .ok (), .ok ()], last)
      ∧ let found := (BodyDecoder.start .none .chunked).feed [] [] (last.output.map fun b => [b])
        found.last.item = .endOfBody ∧ found.data = [97, 98]
          ∧ ∃ arrived, found.last.decoder.trailers = some arrived ∧ arrived.names = [one, other]
            ∧ arrived.getAll one = [⟨[49], by decide⟩, ⟨[50], by decide⟩]
            ∧ arrived.getAll other = [⟨[], by decide⟩] := by
  have hcalls : EncoderCall.finish ∉ calls := by simp [calls]
  have hsize : ∀ step ∈ calls, step.given.length < 2 ^ 64 := by simp [calls, EncoderCall.given]
  obtain ⟨last, hrun, hfed⟩ := Encoding.run_trailers hcalls hsize
  have hcut : [] ++ (last.output.map fun b => [b]).flatten = last.output := by
    rw [List.nil_append, ← List.flatMap_def]
    exact List.flatMap_singleton' last.output
  have hfit : Headers.Fit (EncoderCall.lastTrailers calls) := by decide
  obtain ⟨-, hdata, hends, -⟩ := hfed [] _ hcut
  obtain ⟨hitem, htrailers⟩ := hends hfit
  obtain ⟨arrived, harrived, hnames, hvalues, -⟩ := (htrailers given rfl).2 (List.cons_ne_nil _ _)
  refine ⟨last, hrun, hitem, hdata, arrived, harrived, hnames, ?_, ?_⟩
  · rw [hvalues]
    rfl
  · rw [hvalues]
    rfl

end TwoNames
end Http1
