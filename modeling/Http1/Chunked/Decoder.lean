import Http1.Body.Item
import Http1.Chunked.Phase

/-!
Reading a chunked body from a buffer. Framing goes byte by byte through `Phase.step`; the data of a
chunk is taken in bulk, which is the same as stepping over its bytes one by one.
-/

namespace Http1.Chunked.Phase

/-- Runs to the first data, the end of the body, an error, or the end of the buffer. -/
def decode (limits : Limits) (phase : Phase) : Bytes → Decoded Phase
  | [] => ⟨if phase.isDone then .endOfBody else .needMore, phase, []⟩
  | b :: rest =>
    match phase with
    | done trailers => ⟨.endOfBody, .done trailers, b :: rest⟩
    | data (left + 1) =>
      let taken := (b :: rest).take (left + 1)
      ⟨.data taken, .data (left + 1 - taken.length), (b :: rest).drop (left + 1)⟩
    | phase =>
      match phase.step limits b with
      | .moved next | .delivered next => decode limits next rest
      | .refused here failure => ⟨.failed failure, here, rest⟩

/-- The error of a body that ends in this phase. -/
def truncated (phase : Phase) : ParseError :=
  .truncatedChunk ("end of stream while in " ++ phase.name ++ " state")

theorem decode_takes (limits : Limits) (phase : Phase) (src : Bytes) :
    (phase.decode limits src).Takes src := by
  fun_induction decode limits phase src with
  | case1 phase => constructor <;> split <;> simp [Item.bytes]
  | case2 => simp [Decoded.Takes, Item.bytes]
  | case3 b rest left taken =>
    refine ⟨by simp [taken], ?_⟩
    simp only [Item.bytes, taken, List.length_take, List.length_drop]
    omega
  | case4 => exact Decoded.Takes.cons (by assumption)
  | case5 => exact Decoded.Takes.cons (by assumption)
  | case6 => simp [Decoded.Takes, Item.bytes]

end Http1.Chunked.Phase
