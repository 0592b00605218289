/-!
Byte strings and the classes of bytes that HTTP/1.1 tells apart.
-/

namespace Http1

abbrev Bytes := List UInt8

namespace Byte

abbrev tab : UInt8 := 9
abbrev lf : UInt8 := 10
abbrev cr : UInt8 := 13
abbrev space : UInt8 := 32
abbrev quote : UInt8 := 34
abbrev comma : UInt8 := 44
abbrev colon : UInt8 := 58
abbrev semicolon : UInt8 := 59

/-- Optional white space inside a line. -/
def isBlank (b : UInt8) : Bool := b == space || b == tab

def isDigit (b : UInt8) : Bool := 48 ≤ b && b ≤ 57

def isUpper (b : UInt8) : Bool := 65 ≤ b && b ≤ 90

def isLower (b : UInt8) : Bool := 97 ≤ b && b ≤ 122

/-- Punctuation that may stand in a token beside letters and digits. -/
def tokenMarks : Bytes := [33, 35, 36, 37, 38, 39, 42, 43, 45, 46, 94, 95, 96, 124, 126]

def isToken (b : UInt8) : Bool := isDigit b || isUpper b || isLower b || tokenMarks.contains b

/-- Bytes of a field value: all but the controls, of which only tab is allowed. -/
def isFieldContent (b : UInt8) : Bool := b == tab || (32 ≤ b && b != 127)

/-- Field content that reads as ASCII text. -/
def isText (b : UInt8) : Bool := b == tab || (32 ≤ b && b ≤ 126)

def lower (b : UInt8) : UInt8 := if isUpper b then b + 32 else b

/-- The value of a hexadecimal digit, in either case. -/
def hexValue? (b : UInt8) : Option Nat :=
  if isDigit b then some (b.toNat - 48)
  else if 97 ≤ b && b ≤ 102 then some (b.toNat - 87)
  else if 65 ≤ b && b ≤ 70 then some (b.toNat - 55)
  else none

/-- The upper-case digit of `n < 16`. -/
def hexDigit (n : Nat) : UInt8 := if n < 10 then UInt8.ofNat (48 + n) else UInt8.ofNat (55 + n)

theorem hexValue?_hexDigit (n : Nat) (h : n < 16) : hexValue? (hexDigit n) = some n := by
  have : ∀ m : Fin 16, hexValue? (hexDigit m.val) = some m.val := by decide
  exact this ⟨n, h⟩

theorem hexValue?_lt {b : UInt8} {n : Nat} (h : hexValue? b = some n) : n < 16 := by
  unfold hexValue? isDigit at h
  simp only [Bool.and_eq_true, decide_eq_true_eq, UInt8.le_iff_toNat_le] at h
  split at h
  · next hd => simp at hd h; omega
  split at h
  · next hd => simp at hd h; omega
  split at h
  · next hd => simp at hd h; omega
  · simp at h

end Byte

namespace Bytes

def crlf : Bytes := [Byte.cr, Byte.lf]

def ofAscii (text : String) : Bytes := text.toList.map fun c => UInt8.ofNat c.toNat

/-- Each byte as the character of its number. -/
def toLatin1 (bs : Bytes) : String := String.ofList (bs.map fun b => Char.ofNat b.toNat)

def trimEnd (bs : Bytes) : Bytes := (bs.reverse.dropWhile Byte.isBlank).reverse

def trim (bs : Bytes) : Bytes := trimEnd (bs.dropWhile Byte.isBlank)

def toLower (bs : Bytes) : Bytes := bs.map Byte.lower

/-- Upper-case hexadecimal without leading zeros. -/
def hex (n : Nat) : Bytes :=
  if n < 16 then [Byte.hexDigit n] else hex (n / 16) ++ [Byte.hexDigit (n % 16)]

/-- The number that decimal digits denote, leading zeros allowed. -/
def decimal (digits : Bytes) : Nat := digits.foldl (fun n b => 10 * n + (b.toNat - 48)) 0

end Bytes
end Http1
