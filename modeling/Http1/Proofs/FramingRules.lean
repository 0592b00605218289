import Http1.Framing.Decision
import Http1.Proofs.TrailerLines

/-! What decides the framing of a message: the values under two names and nothing else
(`Headers.valuesOf_getAll`). The rules are written down as `Framing.Decides`, by which a decision is
settled up to the text of its error (`Decides.sameVerdict`); so whatever leaves those values as they
are, or permutes the lengths among them, leaves the decision as it is. -/

namespace Http1

open Byte

/-! ### Reading a field value -/

/-- `core` is the text without the white space at both of its ends. -/
structure Trimmed (white : UInt8 → Bool) (text core : Bytes) : Prop where
  parts : ∃ front back, text = front ++ core ++ back
    ∧ (∀ b ∈ front, white b) ∧ ∀ b ∈ back, white b
  head : ∀ b ∈ core.head?, ¬ white b
  last : ∀ b ∈ core.getLast?, ¬ white b

theorem trimmed_trim (text : Bytes) : Trimmed isBlank text text.trim where
  parts := by
    refine ⟨_, _, (Bytes.trim_parts text).symm, fun b hb => Bytes.blank_takeWhile hb, ?_⟩
    intro b hb
    exact Bytes.blank_takeWhile (List.mem_reverse.1 hb)
  head := fun _ hb => Bytes.trim_head hb
  last := fun _ hb => Bytes.trim_last hb

theorem trimEnd_append {core back : Bytes} (hlast : ∀ b ∈ core.getLast?, ¬ isBlank b)
    (hback : ∀ b ∈ back, isBlank b) : Bytes.trimEnd (core ++ back) = core := by
  have hhead : ∀ b ∈ core.reverse.head?, ¬ isBlank b := by
    rw [List.head?_reverse]
    exact hlast
  rw [Bytes.trimEnd, List.reverse_append,
    List.dropWhile_append_of_pos (fun b hb => hback b (List.mem_reverse.1 hb)),
    Chunked.FieldText.dropWhile_of_head hhead, List.reverse_reverse]

theorem Trimmed.eq_trim {text core : Bytes} (h : Trimmed isBlank text core) : core = text.trim := by
  obtain ⟨front, back, rfl, hfront, hback⟩ := h.parts
  rw [Bytes.trim, List.append_assoc, List.dropWhile_append_of_pos hfront]
  cases core with
  | nil =>
    rw [List.nil_append, List.dropWhile_eq_nil_iff.2 hback]
    rfl
  | cons b rest =>
    rw [List.cons_append, List.dropWhile_cons_of_neg (h.head b rfl), ← List.cons_append]
    exact (trimEnd_append h.last hback).symm

/-- White space of all kinds that ASCII has. -/
def Byte.isAsciiWhite (b : UInt8) : Bool :=
  b == 9 || b == 10 || b == 12 || b == 13 || b == 32

/-- Of the white space that ASCII has, a field value holds blanks only. -/
theorem isAsciiWhite_eq {b : UInt8} (h : isFieldContent b) : isAsciiWhite b = isBlank b := by
  have hkeep (control : UInt8) (hc : isFieldContent control = false) : (b == control) = false := by
    apply beq_false_of_ne
    rintro rfl
    rw [hc] at h
    cases h
  rw [isAsciiWhite, hkeep 10 rfl, hkeep 12 rfl, hkeep 13 rfl, isBlank, Bool.or_comm]
  simp only [Bool.or_false]

/-- `part` is what comes behind the last comma of a list. -/
def LastPart (value part : Bytes) : Prop :=
  comma ∉ part ∧ (value = part ∨ ∃ front, value = front ++ comma :: part)

theorem lastPart_takeWhile (value : Bytes) :
    LastPart value (value.reverse.takeWhile (· ≠ comma)).reverse := by
  refine ⟨fun hmem => ?_, ?_⟩
  · have hne := List.all_eq_true.1 List.all_takeWhile comma (List.mem_reverse.1 hmem)
    simp at hne
  have hsplit := List.takeWhile_append_dropWhile (p := (· ≠ comma)) (l := value.reverse)
  cases hd : value.reverse.dropWhile (· ≠ comma) with
  | nil =>
    rw [hd, List.append_nil] at hsplit
    rw [hsplit, List.reverse_reverse]
    exact .inl rfl
  | cons b rest =>
    have hhead := List.head?_dropWhile_not (fun c => decide (c ≠ comma)) value.reverse
    rw [hd] at hhead
    obtain rfl : b = comma := by simpa using hhead
    right
    rw [hd] at hsplit
    refine ⟨rest.reverse, ?_⟩
    have hvalue := congrArg List.reverse hsplit
    rw [List.reverse_reverse] at hvalue
    nth_rewrite 1 [← hvalue]
    simp

theorem LastPart.eq_takeWhile {value part : Bytes} (h : LastPart value part) :
    part = (value.reverse.takeWhile (· ≠ comma)).reverse := by
  obtain ⟨hfree, hvalue⟩ := h
  have hall : ∀ b ∈ part.reverse, decide (b ≠ comma) = true := by
    intro b hb
    rw [decide_eq_true_eq]
    rintro rfl
    exact hfree (List.mem_reverse.1 hb)
  rcases hvalue with rfl | ⟨front, rfl⟩
  · rw [List.takeWhile_eq_self_iff.2 hall, List.reverse_reverse]
  · rw [List.reverse_append, List.reverse_cons, List.append_assoc,
      List.takeWhile_append_of_pos hall]
    simp

/-- The list ends in the coding `chunked`, in any case and with white space around it. -/
def ChunkedLast (value : Bytes) : Prop :=
  ∃ part core, LastPart value part ∧ Trimmed isAsciiWhite part core
    ∧ core.toLower = Bytes.ofAscii "chunked"

theorem Trimmed.of_white {white other : UInt8 → Bool} {text core : Bytes}
    (h : Trimmed white text core) (hw : ∀ b ∈ text, white b = other b) :
    Trimmed other text core := by
  obtain ⟨front, back, rfl, hfront, hback⟩ := h.parts
  refine ⟨⟨front, back, rfl, ?_, ?_⟩, ?_, ?_⟩
  · intro b hb
    rw [← hw b (by simp [hb])]
    exact hfront b hb
  · intro b hb
    rw [← hw b (by simp [hb])]
    exact hback b hb
  · intro b hb
    rw [← hw b (by simp [List.mem_of_head? hb])]
    exact h.head b hb
  · intro b hb
    rw [← hw b (by simp [List.mem_of_getLast? hb])]
    exact h.last b hb

theorem LastPart.mem {value part : Bytes} (h : LastPart value part) {b : UInt8} (hb : b ∈ part) :
    b ∈ value := by
  rcases h.2 with rfl | ⟨front, rfl⟩
  · exact hb
  · simp [hb]

theorem endsChunked_iff (value : FieldValue) :
    Framing.endsChunked value = true ↔ ChunkedLast value.bytes := by
  have hwhite {part : Bytes} (hp : LastPart value.bytes part) (b : UInt8) (hb : b ∈ part) :
      isAsciiWhite b = isBlank b :=
    isAsciiWhite_eq (List.all_eq_true.1 value.valid b (hp.mem hb))
  rw [Framing.endsChunked, Framing.lastCoding, beq_iff_eq]
  constructor
  · intro h
    have hpart := lastPart_takeWhile value.bytes
    exact ⟨_, _, hpart, (trimmed_trim _).of_white fun b hb => (hwhite hpart b hb).symm, h⟩
  · rintro ⟨part, core, hpart, htrim, hcore⟩
    rw [← hpart.eq_takeWhile, ← (htrim.of_white (hwhite hpart)).eq_trim, hcore]

/-- The value is a number of decimal digits, however many, with blanks around it. -/
def Denotes (value : Bytes) (n : Nat) : Prop :=
  ∃ digits, Trimmed isBlank value digits ∧ digits ≠ [] ∧ (∀ b ∈ digits, isDigit b)
    ∧ Nat.ofDigits 10 (digits.map fun b => b.toNat - 48).reverse = n ∧ n < 2 ^ 64

theorem Denotes.unique {value : Bytes} {n m : Nat} (h : Denotes value n) (h' : Denotes value m) :
    n = m := by
  obtain ⟨digits, htrim, -, -, hn, -⟩ := h
  obtain ⟨digits', htrim', -, -, hm, -⟩ := h'
  rw [← hn, ← hm, htrim.eq_trim, htrim'.eq_trim]

theorem decimal_eq (digits : Bytes) :
    Bytes.decimal digits = Nat.ofDigits 10 (digits.map fun b => b.toNat - 48).reverse := by
  induction digits using List.reverseRecOn with
  | nil => rfl
  | append_singleton front b ih =>
    rw [Bytes.decimal, List.foldl_append, ← Bytes.decimal, ih]
    simp [Nat.ofDigits_cons, Nat.add_comm]

theorem isText_of_blank {b : UInt8} (h : isBlank b) : isText b := by
  rw [isBlank, Bool.or_eq_true, beq_iff_eq, beq_iff_eq] at h
  rcases h with rfl | rfl
  · rfl
  · rfl

theorem isText_of_digit {b : UInt8} (h : isDigit b) : isText b := by
  simp only [isDigit, isText, Bool.and_eq_true, Bool.or_eq_true, decide_eq_true_eq,
    UInt8.le_iff_toNat_le] at h ⊢
  have hlow : (48 : UInt8).toNat = 48 := rfl
  have hhigh : (57 : UInt8).toNat = 57 := rfl
  right
  simp
  omega

/-- Digits with blanks around them are text. -/
theorem Trimmed.isText {value digits : Bytes} (h : Trimmed isBlank value digits)
    (hdigits : ∀ b ∈ digits, isDigit b) : value.all Byte.isText := by
  obtain ⟨front, back, rfl, hfront, hback⟩ := h.parts
  rw [List.all_eq_true]
  intro b hb
  rcases List.mem_append.1 hb with hb | hb
  · rcases List.mem_append.1 hb with hb | hb
    · exact isText_of_blank (hfront b hb)
    · exact isText_of_digit (hdigits b hb)
  · exact isText_of_blank (hback b hb)

theorem parseLength_ok {value : FieldValue} {n : Nat} (h : Denotes value.bytes n) :
    Framing.parseLength value = .ok n := by
  obtain ⟨digits, htrim, hne, hdigits, hn, hlt⟩ := h
  have htext := htrim.isText hdigits
  have hall : digits.all isDigit = true := List.all_eq_true.2 hdigits
  rw [← decimal_eq] at hn
  rw [Framing.parseLength, ← htrim.eq_trim]
  simp only [htext, hall, hn, List.isEmpty_eq_false_iff.2 hne, UInt64.size]
  exact if_pos hlt

theorem parseLength_error {value : FieldValue} (h : ∀ n, ¬ Denotes value.bytes n) :
    ∃ text, Framing.parseLength value = .error (.invalidContentLength text) := by
  rw [Framing.parseLength]
  split
  · exact ⟨_, rfl⟩
  split
  · exact ⟨_, rfl⟩
  next hdigits =>
  split
  · next hlt =>
    have hparts : value.bytes.trim ≠ [] ∧ ∀ b ∈ value.bytes.trim, isDigit b := by
      simpa using hdigits
    exact absurd ⟨_, trimmed_trim _, hparts.1, hparts.2, (decimal_eq _).symm, hlt⟩ (h _)
  · exact ⟨_, rfl⟩

/-! ### Lengths that agree -/

theorem agreedLength_ok {n : Nat} {values : List FieldValue}
    (h : ∀ value ∈ values, Denotes value.bytes n) :
    Framing.agreedLength (some n) values = .ok (some n) := by
  induction values with
  | nil => rfl
  | cons value rest ih =>
    simp only [Framing.agreedLength, parseLength_ok (h value List.mem_cons_self), if_true]
    exact ih fun other ho => h other (List.mem_cons_of_mem _ ho)

theorem agreedLength_error {n : Nat} {values : List FieldValue}
    (h : ∃ value ∈ values, ¬ Denotes value.bytes n) :
    ∃ text, Framing.agreedLength (some n) values = .error (.invalidContentLength text) := by
  induction values with
  | nil => simp at h
  | cons value rest ih =>
    by_cases hnone : ∀ m, ¬ Denotes value.bytes m
    · obtain ⟨text, htext⟩ := parseLength_error hnone
      simp only [Framing.agreedLength, htext]
      exact ⟨text, rfl⟩
    obtain ⟨m, hm⟩ := not_forall_not.1 hnone
    simp only [Framing.agreedLength, parseLength_ok hm]
    by_cases hsame : n = m
    · subst hsame
      rw [if_pos rfl]
      apply ih
      obtain ⟨other, hmem, hother⟩ := h
      rcases List.mem_cons.1 hmem with rfl | hmem
      · exact absurd hm hother
      · exact ⟨other, hmem, hother⟩
    · rw [if_neg hsame]
      exact ⟨_, rfl⟩

/-! ### The rules -/

/-- The framing that goes with the values of Transfer-Encoding and of Content-Length. -/
inductive Framing.Decides (codings lengths : List Bytes) : Except ParseError Framing → Prop
  | chunked {coding : Bytes} (h : codings.getLast? = some coding) (hc : ChunkedLast coding) :
    Decides codings lengths (.ok .chunked)
  | unsupported {coding : Bytes} (h : codings.getLast? = some coding) (hc : ¬ ChunkedLast coding) :
    Decides codings lengths (.error (.unsupportedTransferEncoding (Utf8.lossy coding)))
  | length {n : Nat} (h : codings = []) (hne : lengths ≠ [])
    (hl : ∀ value ∈ lengths, Denotes value n) :
    Decides codings lengths (.ok (.length n))
  | untilClose (h : codings = []) (hl : lengths = []) : Decides codings lengths (.ok .untilClose)
  | invalid (text : String) (h : codings = []) (hne : lengths ≠ [])
    (hl : ∀ n, ∃ value ∈ lengths, ¬ Denotes value n) :
    Decides codings lengths (.error (.invalidContentLength text))

/-- The same decision, but for the text that says why a length is invalid. -/
inductive Framing.SameVerdict :
    Except ParseError Framing → Except ParseError Framing → Prop
  | same (verdict : Except ParseError Framing) : SameVerdict verdict verdict
  | invalid (one other : String) : SameVerdict (.error (.invalidContentLength one))
    (.error (.invalidContentLength other))

namespace Framing

variable {codings lengths permuted : List Bytes} {verdict other : Except ParseError Framing}

theorem Decides.perm (h : Decides codings lengths verdict) (hp : lengths.Perm permuted) :
    Decides codings permuted verdict := by
  cases h with
  | chunked h hc => exact .chunked h hc
  | unsupported h hc => exact .unsupported h hc
  | length h hne hl =>
    refine .length h (fun hnil => hne ?_) fun value hv => hl value (hp.mem_iff.2 hv)
    rw [hnil] at hp
    exact hp.eq_nil
  | untilClose h hl =>
    subst hl
    exact .untilClose h hp.nil_eq.symm
  | invalid text h hne hl =>
    refine .invalid text h (fun hnil => hne ?_) fun n => ?_
    · rw [hnil] at hp
      exact hp.eq_nil
    · obtain ⟨value, hv, hno⟩ := hl n
      exact ⟨value, hp.mem_iff.1 hv, hno⟩

/-- The rules never decide in two ways. -/
theorem Decides.unique (h : Decides codings lengths verdict) (h' : Decides codings lengths other) :
    SameVerdict verdict other := by
  cases h with
  | chunked h hc =>
    cases h' with
    | chunked h' => exact .same _
    | unsupported h' hc' => cases h.symm.trans h'; exact absurd hc hc'
    | length h' | untilClose h' | invalid _ h' => subst h'; cases h
  | unsupported h hc =>
    cases h' with
    | chunked h' hc' => cases h.symm.trans h'; exact absurd hc' hc
    | unsupported h' => cases h.symm.trans h'; exact .same _
    | length h' | untilClose h' | invalid _ h' => subst h'; cases h
  | @length n h hne hl =>
    cases h' with
    | chunked h' | unsupported h' => subst h; cases h'
    | length _ _ hl' =>
      obtain ⟨value, hv⟩ := List.exists_mem_of_ne_nil _ hne
      rw [(hl value hv).unique (hl' value hv)]
      exact .same _
    | untilClose _ hnil => exact absurd hnil hne
    | invalid _ _ _ hl' =>
      obtain ⟨value, hv, hno⟩ := hl' n
      exact absurd (hl value hv) hno
  | untilClose h hnil =>
    cases h' with
    | chunked h' | unsupported h' => subst h; cases h'
    | untilClose => exact .same _
    | length _ hne | invalid _ _ hne => exact absurd hnil hne
  | invalid text h hne hl =>
    cases h' with
    | chunked h' | unsupported h' => subst h; cases h'
    | @length n _ _ hl' =>
      obtain ⟨value, hv, hno⟩ := hl n
      exact absurd (hl' value hv) hno
    | untilClose _ hnil => exact absurd hnil hne
    | invalid => exact .invalid _ _

/-- The framing that agreed lengths make. -/
theorem agreedLength_decides (values : List FieldValue) :
    (values = [] ∧ agreedLength none values = .ok none)
      ∨ (∃ n, values ≠ [] ∧ (∀ value ∈ values, Denotes value.bytes n)
        ∧ agreedLength none values = .ok (some n))
      ∨ ∃ text, values ≠ [] ∧ (∀ n, ∃ value ∈ values, ¬ Denotes value.bytes n)
        ∧ agreedLength none values = .error (.invalidContentLength text) := by
  cases values with
  | nil => exact .inl ⟨rfl, rfl⟩
  | cons value rest =>
    right
    by_cases hnone : ∀ m, ¬ Denotes value.bytes m
    · obtain ⟨text, htext⟩ := parseLength_error hnone
      refine .inr ⟨text, List.cons_ne_nil _ _, fun n => ⟨value, List.mem_cons_self, hnone n⟩, ?_⟩
      simp only [agreedLength, htext]
    obtain ⟨m, hm⟩ := not_forall_not.1 hnone
    simp only [agreedLength, parseLength_ok hm]
    by_cases hall : ∀ other ∈ rest, Denotes other.bytes m
    · left
      refine ⟨m, List.cons_ne_nil _ _, ?_, agreedLength_ok hall⟩
      exact List.forall_mem_cons.2 ⟨hm, hall⟩
    · have hsome : ∃ other ∈ rest, ¬ Denotes other.bytes m := by simpa using hall
      obtain ⟨text, htext⟩ := agreedLength_error hsome
      refine .inr ⟨text, List.cons_ne_nil _ _, fun n => ?_, htext⟩
      by_cases hn : n = m
      · obtain ⟨other, hmem, hno⟩ := hsome
        exact ⟨other, List.mem_cons_of_mem _ hmem, by rwa [hn]⟩
      · exact ⟨value, List.mem_cons_self, fun hd => hn (hd.unique hm)⟩

theorem ofHeaders_decides (headers : Headers) :
    Decides ((headers.getAll .transferEncoding).map (·.bytes))
      ((headers.getAll .contentLength).map (·.bytes)) (ofHeaders headers) := by
  rw [ofHeaders]
  generalize headers.getAll .transferEncoding = codings
  generalize headers.getAll .contentLength = lengths
  cases hlast : codings.getLast? with
  | some coding =>
    have hcoding : (codings.map (·.bytes)).getLast? = some coding.bytes := by
      rw [List.getLast?_map, hlast]
      rfl
    by_cases hc : endsChunked coding
    · simp only [hc, if_true]
      exact .chunked hcoding ((endsChunked_iff coding).1 hc)
    · simp only [hc]
      exact .unsupported hcoding fun h => hc ((endsChunked_iff coding).2 h)
  | none =>
    have hcodings : codings = [] := List.getLast?_eq_none_iff.1 hlast
    subst hcodings
    rcases agreedLength_decides lengths with
      ⟨rfl, hok⟩ | ⟨n, hne, hall, hok⟩ | ⟨text, hne, hno, herr⟩
    · simp only [hok]
      exact .untilClose rfl rfl
    · simp only [hok]
      exact .length rfl (by simpa using hne) (by simpa using hall)
    · simp only [herr]
      exact .invalid text rfl (by simpa using hne) (by simpa using hno)

end Framing

/-! ### The pairs that headers are made of -/

theorem ofBytes_bytes {name value : Bytes} {field : Field}
    (h : Field.ofBytes name value = .ok field) :
    field.name.bytes = name.toLower ∧ field.value.bytes = value := by
  rw [Field.ofBytes, FieldName.ofBytes?] at h
  split at h
  · cases h
  next checked hname =>
  split at hname
  · cases hname
    rw [FieldValue.ofBytes?] at h
    split at h
    · cases h
    next content hvalue =>
    split at hvalue
    · cases hvalue
      cases h
      exact ⟨rfl, rfl⟩
    · cases hvalue
  · cases hname

/-- The values under a name, in whatever case it is written. -/
def valuesOf (name : FieldName) (pairs : List (Bytes × Bytes)) : List Bytes :=
  (pairs.filter (·.1.toLower = name.bytes)).map (·.2)

section Values

variable {name : FieldName} {pairs front back : List (Bytes × Bytes)} {headers : Headers}

theorem valuesOf_append :
    valuesOf name (front ++ back) = valuesOf name front ++ valuesOf name back := by
  simp [valuesOf]

theorem valuesOf_cons (pair : Bytes × Bytes) :
    valuesOf name (pair :: pairs)
      = if pair.1.toLower = name.bytes then pair.2 :: valuesOf name pairs
        else valuesOf name pairs := by
  by_cases h : pair.1.toLower = name.bytes <;> simp [valuesOf, h]

theorem getAll_ofPairs (h : Headers.ofPairs pairs = .ok headers) :
    (headers.getAll name).map (·.bytes) = valuesOf name pairs := by
  induction pairs generalizing headers with
  | nil => cases h; rfl
  | cons pair rest ih =>
    obtain ⟨field, more, hfield, hmore, rfl⟩ := Trailers.ofPairs_cons h
    obtain ⟨hname, hvalue⟩ := ofBytes_bytes hfield
    rw [valuesOf_cons, ← ih hmore, ← hname, ← hvalue]
    by_cases hsame : field.name = name
    · simp [Headers.getAll, hsame]
    · have hbytes : ¬ field.name.bytes = name.bytes := by
        intro hb
        exact hsame (by cases hn : field.name; cases name; simp_all)
      simp [Headers.getAll, hsame, hbytes]

/-- A change that the framing of a message does not depend on. Changes may also be undone, so fields
of other names may be removed, and moved by being removed and added in another place. -/
inductive Retouch : List (Bytes × Bytes) → List (Bytes × Bytes) → Prop
  | added {front back : List (Bytes × Bytes)} {name value : Bytes}
    (ht : name.toLower ≠ FieldName.transferEncoding.bytes)
    (hl : name.toLower ≠ FieldName.contentLength.bytes) :
    Retouch (front ++ back) (front ++ (name, value) :: back)
  | recased {front back : List (Bytes × Bytes)} {name other value : Bytes}
    (h : name.toLower = other.toLower) :
    Retouch (front ++ (name, value) :: back) (front ++ (other, value) :: back)
  | swapped {front between back : List (Bytes × Bytes)} {name other value later : Bytes}
    (hn : name.toLower = FieldName.contentLength.bytes)
    (ho : other.toLower = FieldName.contentLength.bytes) :
    Retouch (front ++ (name, value) :: between ++ (other, later) :: back)
      (front ++ (name, later) :: between ++ (other, value) :: back)

theorem Retouch.values {other : List (Bytes × Bytes)} (h : Retouch pairs other) :
    valuesOf .transferEncoding pairs = valuesOf .transferEncoding other
      ∧ (valuesOf .contentLength pairs).Perm (valuesOf .contentLength other) := by
  have hdistinct : FieldName.contentLength.bytes ≠ FieldName.transferEncoding.bytes := by
    decide +kernel
  cases h with
  | added ht hl => simp [valuesOf_append, valuesOf_cons, ht, hl]
  | recased h => simp [valuesOf_append, valuesOf_cons, h]
  | @swapped front between back _ _ value later hn ho =>
    simp only [valuesOf_append, valuesOf_cons, hn, ho, if_true, if_neg hdistinct, List.append_assoc,
      List.cons_append, true_and]
    apply List.Perm.append_left
    apply (List.Perm.cons value List.perm_middle).trans
    apply (List.Perm.swap later value _).trans
    exact List.Perm.cons later List.perm_middle.symm

theorem values_of_retouched {other : List (Bytes × Bytes)}
    (h : Relation.EqvGen Retouch pairs other) :
    valuesOf .transferEncoding pairs = valuesOf .transferEncoding other
      ∧ (valuesOf .contentLength pairs).Perm (valuesOf .contentLength other) := by
  induction h with
  | rel _ _ h => exact h.values
  | refl => exact ⟨rfl, .refl _⟩
  | symm _ _ _ ih => exact ⟨ih.1.symm, ih.2.symm⟩
  | trans _ _ _ _ _ ih1 ih2 => exact ⟨ih1.1.trans ih2.1, ih1.2.trans ih2.2⟩

namespace Framing

theorem SameVerdict.eq_ok {framing : Framing} (h : SameVerdict verdict (.ok framing)) :
    verdict = .ok framing := by
  cases h
  rfl

theorem Decides.by_coding (h : Decides codings lengths verdict) {coding : Bytes}
    (hlast : codings.getLast? = some coding) :
    (verdict = .ok .chunked ↔ ChunkedLast coding)
      ∧ (¬ ChunkedLast coding →
        verdict = .error (.unsupportedTransferEncoding (Utf8.lossy coding))) := by
  refine ⟨⟨?_, fun hc => (h.unique (.chunked hlast hc)).eq_ok⟩, fun hc => ?_⟩
  · rintro rfl
    cases h with
    | chunked hlast' hc => cases hlast.symm.trans hlast'; exact hc
  · cases h.unique (.unsupported hlast hc)
    rfl

theorem Decides.by_lengths (h : Decides [] lengths verdict) :
    (∀ n, verdict = .ok (.length n) ↔ lengths ≠ [] ∧ ∀ value ∈ lengths, Denotes value n)
      ∧ (verdict = .ok .untilClose ↔ lengths = [])
      ∧ ((∃ text, verdict = .error (.invalidContentLength text)) ↔
        lengths ≠ [] ∧ ∀ n, ∃ value ∈ lengths, ¬ Denotes value n) := by
  refine ⟨fun n => ⟨?_, fun hl => (h.unique (.length rfl hl.1 hl.2)).eq_ok⟩,
    ⟨?_, fun hl => (h.unique (.untilClose rfl hl)).eq_ok⟩, ?_, fun hl => ?_⟩
  · rintro rfl
    cases h with
    | length _ hne hall => exact ⟨hne, hall⟩
  · rintro rfl
    cases h with
    | untilClose _ hl => exact hl
  · rintro ⟨text, rfl⟩
    cases h with
    | invalid _ _ hne hno => exact ⟨hne, hno⟩
  · cases h.unique (.invalid "" rfl hl.1 hl.2) with
    | same => exact ⟨_, rfl⟩
    | invalid one => exact ⟨one, rfl⟩

/-- The framing of a message whose header is accepted. The last value of Transfer-Encoding decides
alone, if there is one, and else the values of Content-Length do. Changes of other fields, of the
case of names and of the order of lengths change no more than the text of an error. -/
theorem ofHeaders_rules (h : Headers.ofPairs pairs = .ok headers) :
    (∀ coding, (valuesOf .transferEncoding pairs).getLast? = some coding →
      (ofHeaders headers = .ok .chunked ↔ ChunkedLast coding)
        ∧ (¬ ChunkedLast coding → ofHeaders headers
          = .error (.unsupportedTransferEncoding (Utf8.lossy coding))))
      ∧ (valuesOf .transferEncoding pairs = [] →
        (∀ n, ofHeaders headers = .ok (.length n) ↔ valuesOf .contentLength pairs ≠ []
            ∧ ∀ value ∈ valuesOf .contentLength pairs, Denotes value n)
          ∧ (ofHeaders headers = .ok .untilClose ↔ valuesOf .contentLength pairs = [])
          ∧ ((∃ text, ofHeaders headers = .error (.invalidContentLength text)) ↔
            valuesOf .contentLength pairs ≠ []
              ∧ ∀ n, ∃ value ∈ valuesOf .contentLength pairs, ¬ Denotes value n))
      ∧ ∀ (other : List (Bytes × Bytes)) (otherHeaders : Headers),
          Relation.EqvGen Retouch pairs other → Headers.ofPairs other = .ok otherHeaders →
          SameVerdict (ofHeaders headers) (ofHeaders otherHeaders) := by
  have hdecides := ofHeaders_decides headers
  rw [getAll_ofPairs h, getAll_ofPairs h] at hdecides
  refine ⟨fun coding hlast => hdecides.by_coding hlast, fun hnil => ?_,
    fun other otherHeaders hr ho => ?_⟩
  · rw [hnil] at hdecides
    exact hdecides.by_lengths
  · have hother := ofHeaders_decides otherHeaders
    obtain ⟨hcodings, hperm⟩ := values_of_retouched hr
    rw [getAll_ofPairs ho, getAll_ofPairs ho, ← hcodings] at hother
    exact (hdecides.perm hperm).unique hother

end Framing
end Values

/-! Two lengths that agree, with blanks and leading zeros, then in the other order and case and with
another field between them. -/

namespace Lengths

def pairs : List (Bytes × Bytes) :=
  [(Bytes.ofAscii "Content-Length", [32, 48, 48, 55, 9]), (Bytes.ofAscii "content-length", [55])]

def retouched : List (Bytes × Bytes) :=
  [(Bytes.ofAscii "CONTENT-LENGTH", [55]), (Bytes.ofAscii "accept", [42]),
    (Bytes.ofAscii "content-length", [32, 48, 48, 55, 9])]

theorem pairs_retouched : Relation.EqvGen Retouch pairs retouched := by
  have hswapped : Retouch pairs [(Bytes.ofAscii "Content-Length", [55]),
      (Bytes.ofAscii "content-length", [32, 48, 48, 55, 9])] :=
    @Retouch.swapped [] [] [] _ _ _ _ (by decide +kernel) (by decide +kernel)
  have hrecased : Retouch [(Bytes.ofAscii "Content-Length", [55]),
      (Bytes.ofAscii "content-length", [32, 48, 48, 55, 9])]
      [(Bytes.ofAscii "CONTENT-LENGTH", [55]),
        (Bytes.ofAscii "content-length", [32, 48, 48, 55, 9])] :=
    @Retouch.recased [] _ _ _ _ (by decide +kernel)
  have hadded : Retouch [(Bytes.ofAscii "CONTENT-LENGTH", [55]),
      (Bytes.ofAscii "content-length", [32, 48, 48, 55, 9])] retouched :=
    @Retouch.added [(Bytes.ofAscii "CONTENT-LENGTH", [55])] _ _ _ (by decide +kernel)
      (by decide +kernel)
  exact ((Relation.EqvGen.rel _ _ hswapped).trans _ _ _ (.rel _ _ hrecased)).trans _ _ _
    (.rel _ _ hadded)

theorem denotes_seven : ∀ value ∈ valuesOf .contentLength pairs, Denotes value 7 := by
  have hvalues : valuesOf .contentLength pairs = [[32, 48, 48, 55, 9], [55]] := by decide +kernel
  have hpadded : Denotes [32, 48, 48, 55, 9] 7 :=
    ⟨[48, 48, 55], trimmed_trim _, by decide, by decide +kernel, rfl, by norm_num⟩
  have hplain : Denotes [55] 7 :=
    ⟨[55], trimmed_trim _, by decide, by decide +kernel, rfl, by norm_num⟩
  rw [hvalues]
  simp [hpadded, hplain]

theorem ofHeaders_rules_lengths :
    ∃ headers other, Headers.ofPairs pairs = .ok headers ∧ Headers.ofPairs retouched = .ok other
      ∧ Framing.ofHeaders headers = .ok (.length 7)
      ∧ Framing.SameVerdict (Framing.ofHeaders headers) (Framing.ofHeaders other) := by
  obtain ⟨headers, h⟩ : ∃ headers, Headers.ofPairs pairs = .ok headers := ⟨_, rfl⟩
  obtain ⟨other, ho⟩ : ∃ headers, Headers.ofPairs retouched = .ok headers := ⟨_, rfl⟩
  have hnone : valuesOf .transferEncoding pairs = [] := by decide +kernel
  have hsome : valuesOf .contentLength pairs ≠ [] := by decide +kernel
  obtain ⟨-, hlengths, hsame⟩ := Framing.ofHeaders_rules h
  exact ⟨headers, other, h, ho, ((hlengths hnone).1 7).2 ⟨hsome, denotes_seven⟩,
    hsame retouched other pairs_retouched ho⟩

end Lengths
end Http1
