import Http1.Bytes

/-!
Media types in their normal spelling. `normalize?` refuses what is no media type and lower-cases
the type, the parameter names and the value of `charset`; other values keep their case.
-/

namespace Http1.MediaType

/-- A parameter value as it is spelled, and the text behind its semicolon if it has one. -/
abbrev Value := Bytes × Option Bytes

/-- The text behind a semicolon, or the end of the text. -/
def ending? : Bytes → Option (Option Bytes)
  | [] => some none
  | b :: rest => if b = Byte.semicolon then some (some rest) else none

/-- A value without quotes may be empty only at the end of the text. -/
def tokenValue? (text : Bytes) : Option Value :=
  let value := text.takeWhile Byte.isToken
  match ending? (text.dropWhile Byte.isToken) with
  | none => none
  | some rest => if value.isEmpty ∧ rest.isSome then none else some (value, rest)

def isQuotable (b : UInt8) : Bool := b != Byte.quote && 32 ≤ b && b != 127

def isSpace (b : UInt8) : Bool := b == Byte.space

/-- What follows the bytes of a quoted value: the closing quote, then spaces. -/
def closing? (spelled : Bytes) : Bytes → Option Value
  | [] => none
  | b :: text =>
    if b ≠ Byte.quote then none
    else (ending? (text.dropWhile isSpace)).map fun rest =>
      (spelled ++ b :: text.takeWhile isSpace, rest)

/-- A value behind its opening quote has at least one byte, and a quote may be that byte. -/
def quotedValue? : Bytes → Option Value
  | [] => none
  | b :: text =>
    if isQuotable b || b == Byte.quote then
      closing? (Byte.quote :: b :: text.takeWhile isQuotable) (text.dropWhile isQuotable)
    else none

def value? : Bytes → Option Value
  | [] => some ([], none)
  | b :: text => if b = Byte.quote then quotedValue? text else tokenValue? (b :: text)

theorem ending?_lt {text rest : Bytes} (h : ending? text = some (some rest)) :
    rest.length < text.length := by
  cases text with
  | nil => simp [ending?] at h
  | cons b tail => simp only [ending?] at h; split at h <;> simp_all

theorem length_dropWhile_le (p : UInt8 → Bool) (text : Bytes) :
    (text.dropWhile p).length ≤ text.length := (List.dropWhile_sublist p).length_le

theorem closing?_lt {spelled text value rest : Bytes}
    (h : closing? spelled text = some (value, some rest)) : rest.length < text.length := by
  cases text with
  | nil => simp [closing?] at h
  | cons b tail =>
    simp only [closing?] at h
    split at h
    · simp at h
    · obtain ⟨found, he, hf⟩ := Option.map_eq_some_iff.1 h
      cases hf
      have := ending?_lt he
      have := length_dropWhile_le isSpace tail
      simp only [List.length_cons]; omega

theorem value?_lt {text value rest : Bytes} (h : value? text = some (value, some rest)) :
    rest.length < text.length := by
  cases text with
  | nil => simp [value?] at h
  | cons b tail =>
    simp only [value?] at h
    split at h
    · cases tail with
      | nil => simp [quotedValue?] at h
      | cons c more =>
        simp only [quotedValue?] at h
        split at h
        · have := closing?_lt h
          have := length_dropWhile_le isQuotable more
          simp only [List.length_cons]; omega
        · simp at h
    · simp only [tokenValue?] at h
      split at h
      · simp at h
      · next found he =>
        split at h
        · simp at h
        · cases h
          have := ending?_lt he
          have := length_dropWhile_le Byte.isToken (b :: tail)
          omega

/-- The parameters behind a semicolon in their normal spelling, `none` when one is malformed. -/
def parameters? (text : Bytes) : Option Bytes :=
  let spaces := text.takeWhile isSpace
  let text' := text.dropWhile isSpace
  let name := Bytes.toLower (text'.takeWhile Byte.isToken)
  if text'.isEmpty then some spaces
  else match _ht : text'.dropWhile Byte.isToken with
    | [] => none
    | mark :: behind =>
      if name.isEmpty ∨ mark ≠ 61 then none
      else match _hv : value? behind with
        | none => none
        | some (value, rest) =>
          let value := if name = Bytes.ofAscii "charset" then Bytes.toLower value else value
          let spelled := spaces ++ name ++ mark :: value
          match rest with
          | none => some spelled
          | some rest => (parameters? rest).map fun more => spelled ++ Byte.semicolon :: more
termination_by text.length
decreasing_by
  have := value?_lt _hv
  have := length_dropWhile_le isSpace text
  have := length_dropWhile_le Byte.isToken (text.dropWhile isSpace)
  simp only [text'] at _ht
  simp only [_ht, List.length_cons] at this
  omega

/-- A semicolon with nothing but spaces behind it is dropped with them. -/
def normalize? (text : Bytes) : Option Bytes :=
  if text = Bytes.ofAscii "*/*" then some text
  else
    let main := text.takeWhile Byte.isToken
    match text.dropWhile Byte.isToken with
    | [] => none
    | slash :: rest =>
      if main.isEmpty ∨ slash ≠ 47 then none
      else
        let sub := rest.takeWhile Byte.isToken
        let whole := Bytes.toLower (main ++ slash :: sub)
        match ending? (rest.dropWhile Byte.isToken) with
        | none => none
        | some none => some whole
        | some (some params) =>
          if sub.isEmpty then none
          else (parameters? params).map fun params =>
            if params.all isSpace then whole else whole ++ Byte.semicolon :: params

end Http1.MediaType
