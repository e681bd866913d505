import RankingServer.Foundation.Loop
import RankingServer.Nlohmann.Value

/-!
# The lexer

`lexer::scan` of `nlohmann::json`.  The input adapter is the list of the bytes
that were not read yet; `get` takes the first of them, and `unget` leaves it
there.  Positions and the texts of the tokens, which the library keeps for its
error messages, are left out.
-/

universe u

namespace Nlohmann

open Json

/-- `token_type`, with the value that the getters of the lexer return for it.
The value of a floating-point number is left to `strtod`; the token carries the
text that it is called with. -/
inductive Token
  | literalTrue
  | literalFalse
  | literalNull
  | valueString (s : List UInt8)
  | valueUnsigned (n : UInt64)
  | valueInteger (n : Int64)
  | valueFloat (text : List UInt8)
  | beginArray
  | beginObject
  | endArray
  | endObject
  | nameSeparator
  | valueSeparator
  | parseError
  | endOfInput
deriving DecidableEq, Repr

/-! ## Strings -/

/-- The value of a hexadecimal digit. -/
def hexValue (b : UInt8) : Option ℕ :=
  if 48 ≤ b ∧ b ≤ 57 then some (b.toNat - 0x30)
  else if 65 ≤ b ∧ b ≤ 70 then some (b.toNat - 0x37)
  else if 97 ≤ b ∧ b ≤ 102 then some (b.toNat - 0x57)
  else none

/-- `get_codepoint`: the value of the next four digits, and what is behind
them. -/
def getCodepoint : List UInt8 → Option (ℕ × List UInt8)
  | c1 :: c2 :: c3 :: c4 :: rest => do
      let d1 ← hexValue c1
      let d2 ← hexValue c2
      let d3 ← hexValue c3
      let d4 ← hexValue c4
      return (d1 <<< 12 + d2 <<< 8 + d3 <<< 4 + d4, rest)
  | _ => none

/-- The bytes that a code point is translated into. -/
def encode (codepoint : ℕ) : List UInt8 :=
  if codepoint < 0x80 then [UInt8.ofNat codepoint]
  else if codepoint ≤ 0x7FF then
    [UInt8.ofNat (0xC0 ||| codepoint >>> 6),
      UInt8.ofNat (0x80 ||| codepoint &&& 0x3F)]
  else if codepoint ≤ 0xFFFF then
    [UInt8.ofNat (0xE0 ||| codepoint >>> 12),
      UInt8.ofNat (0x80 ||| codepoint >>> 6 &&& 0x3F),
      UInt8.ofNat (0x80 ||| codepoint &&& 0x3F)]
  else
    [UInt8.ofNat (0xF0 ||| codepoint >>> 18),
      UInt8.ofNat (0x80 ||| codepoint >>> 12 &&& 0x3F),
      UInt8.ofNat (0x80 ||| codepoint >>> 6 &&& 0x3F),
      UInt8.ofNat (0x80 ||| codepoint &&& 0x3F)]

/-- The escape `\u`: the code point, for which a high surrogate takes a second
escape, and what is behind it. -/
def unicodeEscape (text : List UInt8) : Option (ℕ × List UInt8) :=
  (getCodepoint text).bind fun (codepoint1, rest) =>
    if 0xD800 ≤ codepoint1 ∧ codepoint1 ≤ 0xDBFF then
      match rest with
      | 92 :: 117 :: rest =>
          (getCodepoint rest).bind fun (codepoint2, rest) =>
            if 0xDC00 ≤ codepoint2 ∧ codepoint2 ≤ 0xDFFF then
              some (codepoint1 <<< 10 + codepoint2 - 0x35FDC00, rest)
            else none
      | _ => none
    else if 0xDC00 ≤ codepoint1 ∧ codepoint1 ≤ 0xDFFF then none
    else some (codepoint1, rest)

/-- What is added for the characters behind a backslash, and what is behind
them. -/
def scanEscape : List UInt8 → Option (List UInt8 × List UInt8)
  | 34 :: rest => some ([34], rest)
  | 92 :: rest => some ([92], rest)
  | 47 :: rest => some ([47], rest)
  | 98 :: rest => some ([8], rest)
  | 102 :: rest => some ([12], rest)
  | 110 :: rest => some ([10], rest)
  | 114 :: rest => some ([13], rest)
  | 116 :: rest => some ([9], rest)
  | 117 :: rest =>
      (unicodeEscape rest).map fun (codepoint, rest) =>
        (encode codepoint, rest)
  | _ => none

/-- `next_byte_in_range`, without the current byte: the bytes that are added
and what is behind them. -/
def nextByteInRange :
    List ByteRange → List UInt8 → Option (List UInt8 × List UInt8)
  | [], text => some ([], text)
  | range :: ranges, b :: text =>
      if range.1 ≤ b ∧ b ≤ range.2 then
        (nextByteInRange ranges text).map fun (added, rest) =>
          (b :: added, rest)
      else none
  | _ :: _, [] => none

/-- The cases of `scan_string` for a byte that is neither a quotation mark nor
a backslash: the ranges that the following bytes have to lie in. -/
def continuation (b : UInt8) : Option (List ByteRange) :=
  if b ≤ 0x1F then none
  else if b ≤ 0x7F then some []
  else if 0xC2 ≤ b ∧ b ≤ 0xDF then some [(0x80, 0xBF)]
  else if b = 0xE0 then some [(0xA0, 0xBF), (0x80, 0xBF)]
  else if 0xE1 ≤ b ∧ b ≤ 0xEC ∨ 0xEE ≤ b ∧ b ≤ 0xEF then
    some [(0x80, 0xBF), (0x80, 0xBF)]
  else if b = 0xED then some [(0x80, 0x9F), (0x80, 0xBF)]
  else if b = 0xF0 then some [(0x90, 0xBF), (0x80, 0xBF), (0x80, 0xBF)]
  else if 0xF1 ≤ b ∧ b ≤ 0xF3 then
    some [(0x80, 0xBF), (0x80, 0xBF), (0x80, 0xBF)]
  else if b = 0xF4 then some [(0x80, 0x8F), (0x80, 0xBF), (0x80, 0xBF)]
  else none

/-- One character of a string, up to its escapes. -/
def scanCharacter (b : UInt8) (text : List UInt8) :
    Option (List UInt8 × List UInt8) :=
  if b = 92 then scanEscape text
  else
    (continuation b).bind fun ranges =>
      (nextByteInRange ranges text).map fun (added, rest) =>
        (b :: added, rest)

/-- The loop of `scan_string`, on `token_buffer` and the input. -/
def scanStringPass : List UInt8 × List UInt8 →
    (List UInt8 × List UInt8) ⊕ (Token × List UInt8)
  | (_, []) => .inr (.parseError, [])
  | (buffer, b :: text) =>
      if b = 34 then .inr (.valueString buffer, text)
      else
        match scanCharacter b text with
        | some (added, rest) => .inl (buffer ++ added, rest)
        | none => .inr (.parseError, [])

theorem length_nextByteInRange {ranges : List ByteRange}
    {text added rest : List UInt8}
    (h : nextByteInRange ranges text = some (added, rest)) :
    rest.length ≤ text.length := by
  induction ranges generalizing text added with
  | nil =>
      obtain ⟨-, rfl⟩ := Prod.mk.inj (Option.some.inj h)
      exact le_rfl
  | cons range ranges ih =>
      cases text with
      | nil => cases h
      | cons b text =>
          rw [nextByteInRange] at h
          split_ifs at h
          obtain ⟨⟨added', rest'⟩, hnext, heq⟩ := Option.map_eq_some_iff.mp h
          obtain ⟨-, rfl⟩ := Prod.mk.inj heq
          exact (ih hnext).trans (Nat.le_succ _)

theorem length_getCodepoint {text rest : List UInt8} {codepoint : ℕ}
    (h : getCodepoint text = some (codepoint, rest)) :
    rest.length ≤ text.length := by
  rw [getCodepoint.eq_def] at h
  split at h
  · simp only [Option.bind_eq_bind, Option.bind_eq_some_iff,
      Option.pure_def, Option.some.injEq, Prod.mk.injEq] at h
    obtain ⟨_, -, _, -, _, -, _, -, -, rfl⟩ := h
    simp only [List.length_cons]
    omega
  · cases h

theorem length_unicodeEscape {text rest : List UInt8} {codepoint : ℕ}
    (h : unicodeEscape text = some (codepoint, rest)) :
    rest.length ≤ text.length := by
  obtain ⟨⟨codepoint1, rest1⟩, hfirst, h⟩ := Option.bind_eq_some_iff.mp h
  have hle := length_getCodepoint hfirst
  simp only at h
  split_ifs at h with hhigh hlow
  · split at h
    · next rest2 =>
        obtain ⟨⟨codepoint2, rest3⟩, hsecond, h⟩ :=
          Option.bind_eq_some_iff.mp h
        have hle' := length_getCodepoint hsecond
        simp only at h
        split_ifs at h
        obtain ⟨-, rfl⟩ := Prod.mk.inj (Option.some.inj h)
        simp only [List.length_cons] at hle
        omega
    · cases h
  · obtain ⟨-, rfl⟩ := Prod.mk.inj (Option.some.inj h)
    exact hle

theorem length_scanEscape {text added rest : List UInt8}
    (h : scanEscape text = some (added, rest)) :
    rest.length ≤ text.length := by
  rw [scanEscape.eq_def] at h
  split at h
  case h_9 text =>
    obtain ⟨⟨codepoint, rest'⟩, hescape, heq⟩ := Option.map_eq_some_iff.mp h
    obtain ⟨-, rfl⟩ := Prod.mk.inj heq
    exact (length_unicodeEscape hescape).trans (Nat.le_succ _)
  case h_10 => cases h
  all_goals
    obtain ⟨-, rfl⟩ := Prod.mk.inj (Option.some.inj h)
    exact Nat.le_succ _

theorem length_scanCharacter {b : UInt8} {text added rest : List UInt8}
    (h : scanCharacter b text = some (added, rest)) :
    rest.length ≤ text.length := by
  rw [scanCharacter] at h
  split_ifs at h
  · exact length_scanEscape h
  · obtain ⟨ranges, -, h⟩ := Option.bind_eq_some_iff.mp h
    obtain ⟨⟨added', rest'⟩, hnext, heq⟩ := Option.map_eq_some_iff.mp h
    obtain ⟨-, rfl⟩ := Prod.mk.inj heq
    exact length_nextByteInRange hnext

theorem scanString_decreases (s t : List UInt8 × List UInt8)
    (h : scanStringPass s = .inl t) : t.2.length < s.2.length := by
  obtain ⟨buffer, text⟩ := s
  cases text with
  | nil => cases h
  | cons b text =>
      rw [scanStringPass] at h
      split_ifs at h
      split at h
      · next added rest hscan =>
          obtain rfl := Sum.inl.inj h
          exact Nat.lt_succ_of_le (length_scanCharacter hscan)
      · cases h

def scanStringLoop :
    Loop (List UInt8 × List UInt8) (Token × List UInt8) :=
  ⟨scanStringPass, fun s => s.2.length, scanString_decreases⟩

/-- `scan_string`, behind the opening quotation mark. -/
def scanString (text : List UInt8) : Token × List UInt8 :=
  scanStringLoop.result ([], text)

/-! ## Numbers -/

/-- The labels of `scan_number`. -/
inductive NumberState
  | minus
  | zero
  | any1
  | decimal1
  | decimal2
  | exponent
  | sign
  | any2
deriving DecidableEq, Repr

/-- `number_type` -/
inductive NumberType
  | unsigned
  | integer
  | float
deriving DecidableEq, Repr

/-- The label that the next byte leads to; `none` for the default of the
switch. -/
def NumberState.next (state : NumberState) (b : UInt8) : Option NumberState :=
  match state with
  | .minus =>
      if b = 48 then some .zero
      else if 49 ≤ b ∧ b ≤ 57 then some .any1
      else none
  | .zero =>
      if b = 46 then some .decimal1
      else if b = 101 ∨ b = 69 then some .exponent
      else none
  | .any1 =>
      if 48 ≤ b ∧ b ≤ 57 then some .any1
      else if b = 46 then some .decimal1
      else if b = 101 ∨ b = 69 then some .exponent
      else none
  | .decimal1 => if 48 ≤ b ∧ b ≤ 57 then some .decimal2 else none
  | .decimal2 =>
      if 48 ≤ b ∧ b ≤ 57 then some .decimal2
      else if b = 101 ∨ b = 69 then some .exponent
      else none
  | .exponent =>
      if b = 43 ∨ b = 45 then some .sign
      else if 48 ≤ b ∧ b ≤ 57 then some .any2
      else none
  | .sign => if 48 ≤ b ∧ b ≤ 57 then some .any2 else none
  | .any2 => if 48 ≤ b ∧ b ≤ 57 then some .any2 else none

/-- The default leads to `scan_number_done`, and not to an error. -/
def NumberState.done : NumberState → Bool
  | .zero | .any1 | .decimal2 | .any2 => true
  | .minus | .decimal1 | .exponent | .sign => false

/-- The assignments to `number_type` behind the labels. -/
def NumberState.type : NumberState → NumberType → NumberType
  | .minus, _ => .integer
  | .decimal1, _ | .exponent, _ => .float
  | _, type => type

/-- `scan_number_done`: the conversions by `strtoull` and `strtoll`, and by
`strtod` when the number is out of their range. -/
def convertNumber (type : NumberType) (buffer : List UInt8) : Token :=
  match type with
  | .unsigned =>
      if parseNat buffer < 2 ^ 64 then
        .valueUnsigned (UInt64.ofNat (parseNat buffer))
      else .valueFloat buffer
  | .integer =>
      if parseNat buffer.tail ≤ 2 ^ 63 then
        .valueInteger (Int64.ofInt (-(parseNat buffer.tail : ℤ)))
      else .valueFloat buffer
  | .float => .valueFloat buffer

/-- `scan_number`, at one of its labels. -/
def scanNumber (state : NumberState) (type : NumberType)
    (buffer : List UInt8) : List UInt8 → Token × List UInt8
  | [] =>
      if state.done then (convertNumber type buffer, []) else (.parseError, [])
  | b :: text =>
      match state.next b with
      | some next => scanNumber next (next.type type) (buffer ++ [b]) text
      | none =>
          if state.done then (convertNumber type buffer, b :: text)
          else (.parseError, [])

/-! ## Tokens -/

/-- `scan_literal`, at its first character. -/
def scanLiteral (literal : List UInt8) (token : Token) (text : List UInt8) :
    Token × List UInt8 :=
  if text.take literal.length = literal then
    (token, text.drop literal.length)
  else (.parseError, [])

def isWhitespace (b : UInt8) : Bool := b = 32 || b = 9 || b = 10 || b = 13

/-- `scan`, behind `skip_whitespace`. -/
def scanToken : List UInt8 → Token × List UInt8
  | [] => (.endOfInput, [])
  | b :: text =>
      if b = 91 then (.beginArray, text)
      else if b = 93 then (.endArray, text)
      else if b = 123 then (.beginObject, text)
      else if b = 125 then (.endObject, text)
      else if b = 58 then (.nameSeparator, text)
      else if b = 44 then (.valueSeparator, text)
      else if b = 116 then
        scanLiteral [116, 114, 117, 101] .literalTrue (b :: text)
      else if b = 102 then
        scanLiteral [102, 97, 108, 115, 101] .literalFalse (b :: text)
      else if b = 110 then
        scanLiteral [110, 117, 108, 108] .literalNull (b :: text)
      else if b = 34 then scanString text
      else if b = 45 then scanNumber .minus .integer [b] text
      else if b = 48 then scanNumber .zero .unsigned [b] text
      else if 49 ≤ b ∧ b ≤ 57 then scanNumber .any1 .unsigned [b] text
      else if b = 0 then (.endOfInput, text)
      else (.parseError, [])

/-- `scan` -/
def scan (text : List UInt8) : Token × List UInt8 :=
  scanToken (text.dropWhile isWhitespace)

/-- The first `scan`, which skips the byte order mark. -/
def scanFirst : List UInt8 → Token × List UInt8
  | 0xEF :: 0xBB :: 0xBF :: text => scan text
  | 0xEF :: _ => (.parseError, [])
  | text => scan text

/-! ### Progress -/

theorem length_scanString_le (text : List UInt8) :
    (scanString text).2.length ≤ text.length := by
  refine scanStringLoop.invariant
    (I := fun s => s.2.length ≤ text.length)
    (P := fun r => r.2.length ≤ text.length) ?_ ?_ le_rfl
  · intro s t hs hpass
    exact (scanString_decreases s t hpass).le.trans hs
  · rintro ⟨buffer, rest⟩ r hs hpass
    simp only [scanStringLoop] at hpass
    cases rest with
    | nil =>
        obtain rfl := Sum.inr.inj hpass
        exact Nat.zero_le _
    | cons b rest =>
        rw [scanStringPass] at hpass
        split_ifs at hpass
        · obtain rfl := Sum.inr.inj hpass
          exact (Nat.le_succ _).trans hs
        · split at hpass
          · cases hpass
          · obtain rfl := Sum.inr.inj hpass
            exact Nat.zero_le _

theorem length_scanNumber_le (state : NumberState) (type : NumberType)
    (buffer text : List UInt8) :
    (scanNumber state type buffer text).2.length ≤ text.length := by
  induction text generalizing state type buffer with
  | nil =>
      rw [scanNumber]
      split_ifs <;> exact le_rfl
  | cons b text ih =>
      rw [scanNumber]
      split
      · next next hnext => exact (ih _ _ _).trans (Nat.le_succ _)
      · split_ifs
        · exact le_rfl
        · exact Nat.zero_le _

/-- The tokens behind which the parser reads no further. -/
def Token.final : Token → Bool
  | .endOfInput | .parseError => true
  | _ => false

theorem length_scanLiteral {literal : List UInt8} (hliteral : literal ≠ [])
    (token : Token) (b : UInt8) (text : List UInt8) :
    (scanLiteral literal token (b :: text)).2.length ≤ text.length := by
  have hpos := List.length_pos_of_ne_nil hliteral
  rw [scanLiteral]
  split_ifs
  · rw [List.length_drop, List.length_cons]
    omega
  · exact Nat.zero_le _

/-- A token takes at least one byte, unless there is none. -/
def Progress (text : List UInt8) (scanned : Token × List UInt8) : Prop :=
  scanned.2.length + 1 ≤ text.length ∨
    scanned.1.final = true ∧ scanned.2 = []

theorem progress_of_le {b : UInt8} {text : List UInt8}
    {scanned : Token × List UInt8} (h : scanned.2.length ≤ text.length) :
    Progress (b :: text) scanned :=
  .inl (Nat.succ_le_succ h)

theorem progress_ite {text : List UInt8} {c : Prop} [Decidable c]
    {x y : Token × List UInt8} (hx : Progress text x) (hy : Progress text y) :
    Progress text (if c then x else y) := by
  split
  · exact hx
  · exact hy

theorem progress_scanToken (text : List UInt8) :
    Progress text (scanToken text) := by
  cases text with
  | nil => exact .inr ⟨rfl, rfl⟩
  | cons b text =>
      have hone (token : Token) : Progress (b :: text) (token, text) :=
        progress_of_le le_rfl
      rw [scanToken]
      iterate 6 refine progress_ite (hone _) ?_
      iterate 3
        refine progress_ite (progress_of_le
          (length_scanLiteral (by simp) _ _ _)) ?_
      refine progress_ite (progress_of_le (length_scanString_le text)) ?_
      iterate 3
        refine progress_ite (progress_of_le
          (length_scanNumber_le _ _ _ text)) ?_
      exact progress_ite (hone _) (.inr ⟨rfl, rfl⟩)

theorem length_scan (text : List UInt8) :
    (scan text).2.length + 1 ≤ text.length ∨
      (scan text).1.final = true ∧ (scan text).2.length ≤ text.length := by
  have hle := (List.dropWhile_suffix isWhitespace (l := text)).length_le
  rcases progress_scanToken (text.dropWhile isWhitespace) with
    h | ⟨hfinal, hnil⟩
  · exact .inl (h.trans hle)
  · refine .inr ⟨hfinal, ?_⟩
    rw [scan, hnil]
    exact Nat.zero_le _

end Nlohmann
