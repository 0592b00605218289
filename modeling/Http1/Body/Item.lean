import Http1.Error
import Http1.Bytes

/-!
What a decoder finds at the front of a buffer, and what it leaves behind.
-/

namespace Http1

inductive Item
  | needMore
  | data (bytes : Bytes)
  | endOfBody
  | failed (failure : Failure ParseError)
  deriving DecidableEq

namespace Item

def bytes : Item → Bytes
  | data bytes => bytes
  | _ => []

end Item

/-- An item, the decoder after it and the bytes it left. -/
structure Decoded (State : Type) where
  item : Item
  decoder : State
  rest : Bytes

namespace Decoded

def map {State Other : Type} (f : State → Other) (found : Decoded State) : Decoded Other :=
  ⟨found.item, f found.decoder, found.rest⟩

/-- Data is never empty, and all that was not left behind is at least the data. -/
def Takes {State : Type} (found : Decoded State) (src : Bytes) : Prop :=
  found.item ≠ .data [] ∧ found.item.bytes.length + found.rest.length ≤ src.length

theorem Takes.map {State Other : Type} {found : Decoded State} {src : Bytes} {f : State → Other}
    (h : found.Takes src) : (found.map f).Takes src := h

theorem Takes.cons {State : Type} {found : Decoded State} {src : Bytes} {b : UInt8}
    (h : found.Takes src) : found.Takes (b :: src) :=
  ⟨h.1, Nat.le_trans h.2 (Nat.le_succ _)⟩

end Decoded
end Http1
