import Http1.Bytes

/-!
Reading bytes as UTF-8 when they may not be: each longest start of a character that cannot be
continued, and each byte that cannot start one, becomes one replacement character.
-/

namespace Http1.Utf8

/-- A character begun: its bits so far, how many bytes it still wants, and the range of the next. -/
structure Partial where
  bits : Nat
  wanted : Nat
  low : Nat
  high : Nat

/-- What a byte may begin: the second byte's range excludes overlong forms, surrogates and what
lies past the last code point. -/
def begin? (b : UInt8) : Option Partial :=
  let n := b.toNat
  if n < 0x80 then some ⟨n, 0, 0x80, 0xBF⟩
  else if n < 0xC2 then none
  else if n < 0xE0 then some ⟨n - 0xC0, 1, 0x80, 0xBF⟩
  else if n < 0xF0 then
    some ⟨n - 0xE0, 2, if n = 0xE0 then 0xA0 else 0x80, if n = 0xED then 0x9F else 0xBF⟩
  else if n < 0xF5 then
    some ⟨n - 0xF0, 3, if n = 0xF0 then 0x90 else 0x80, if n = 0xF4 then 0x8F else 0xBF⟩
  else none

def replacement : Char := Char.ofNat 0xFFFD

/-- Emits the character or the replacement that `b` stands for when it begins one. -/
def start (b : UInt8) (done : List Char) : List Char × Option Partial :=
  match begin? b with
  | none => (replacement :: done, none)
  | some begun =>
    if begun.wanted = 0 then (Char.ofNat begun.bits :: done, none) else (done, some begun)

/-- Characters found so far stand in reverse. -/
def step (state : List Char × Option Partial) (b : UInt8) : List Char × Option Partial :=
  match state with
  | (done, none) => start b done
  | (done, some ⟨bits, wanted, low, high⟩) =>
    if low ≤ b.toNat ∧ b.toNat ≤ high then
      let bits := 64 * bits + (b.toNat - 0x80)
      if wanted = 1 then (Char.ofNat bits :: done, none)
      else (done, some ⟨bits, wanted - 1, 0x80, 0xBF⟩)
    else start b (replacement :: done)

def lossy (bs : Bytes) : String :=
  match bs.foldl step ([], none) with
  | (done, none) => String.ofList done.reverse
  | (done, some _) => String.ofList (replacement :: done).reverse

end Http1.Utf8
