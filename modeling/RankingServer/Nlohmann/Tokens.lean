import RankingServer.Nlohmann.Lexer
import RankingServer.Nlohmann.Text

/-!
# What the lexer reads

The tokens of the text of a value are read back one by one (`scan_quoted`,
`scan_dumpInteger`), and whatever the input is, the strings among the tokens are
well-formed UTF-8 (`valid_scan`): an ill-formed byte is refused, and an escape
adds the encoding of a code point.
-/

universe u

namespace Nlohmann

open Json

/-! ## Strings -/

theorem hexValue_hexDigit {n : ℕ} (h : n < 16) :
    hexValue (hexDigit n) = some n := by
  interval_cases n <;> rfl

/-- The format `%04x` of a control character is read back. -/
theorem getCodepoint_control {n : ℕ} (h : n < 32) (rest : List UInt8) :
    getCodepoint (48 :: 48 :: hexDigit (n / 16) :: hexDigit (n % 16) :: rest) =
      some (n, rest) := by
  have hvalue : 0 <<< 12 + 0 <<< 8 + (n / 16) <<< 4 + n % 16 <<< 0 = n := by
    simp only [Nat.shiftLeft_eq]
    omega
  have hzero : hexValue 48 = some 0 := rfl
  simp only [getCodepoint, hzero, hexValue_hexDigit (show n / 16 < 16 by omega),
    hexValue_hexDigit (show n % 16 < 16 by omega), Option.bind_eq_bind,
    Option.bind_some, Option.pure_def]
  exact congrArg (fun m => some (m, rest)) hvalue

theorem unicodeEscape_control {n : ℕ} (h : n < 32) (rest : List UInt8) :
    unicodeEscape
        (48 :: 48 :: hexDigit (n / 16) :: hexDigit (n % 16) :: rest) =
      some (n, rest) := by
  have hhigh : ¬ (0xD800 ≤ n ∧ n ≤ 0xDBFF) := by omega
  have hlow : ¬ (0xDC00 ≤ n ∧ n ≤ 0xDFFF) := by omega
  rw [unicodeEscape, getCodepoint_control h, Option.bind_some]
  simp only [hhigh, hlow, if_false]

/-- A byte of its own is read back from its escaped form. -/
theorem scanCharacter_escape {b : UInt8} (hb : b ≤ 0x7F) (rest : List UInt8) :
    ∃ c text, escape b ++ rest = c :: text ∧ c ≠ 34 ∧
      scanCharacter c text = some ([b], rest) := by
  by_cases hspecial : b ∈ [8, 9, 10, 12, 13, 34, 92]
  · simp only [List.mem_cons, List.not_mem_nil, or_false] at hspecial
    rcases hspecial with rfl | rfl | rfl | rfl | rfl | rfl | rfl <;>
      exact ⟨92, _, rfl, by decide, rfl⟩
  simp only [List.mem_cons, List.not_mem_nil, or_false, not_or] at hspecial
  obtain ⟨h8, h9, h10, h12, h13, h34, h92⟩ := hspecial
  simp only [escape, h8, h9, h10, h12, h13, h34, h92, if_false]
  split_ifs with hcontrol
  · refine ⟨92, 117 :: 48 :: 48 :: hexDigit (b.toNat / 16) ::
      hexDigit (b.toNat % 16) :: rest, rfl, by decide, ?_⟩
    have hlt : b.toNat < 32 :=
      Nat.lt_succ_of_le (UInt8.le_iff_toNat_le.mp hcontrol)
    have hascii : b.toNat < 0x80 := by omega
    have hencode : encode b.toNat = [b] := by
      rw [encode, if_pos hascii, UInt8.ofNat_toNat]
    rw [scanCharacter, if_pos rfl, scanEscape, unicodeEscape_control hlt,
      Option.map_some]
    exact congrArg (fun added => some (added, rest)) hencode
  · have hranges : continuation b = some [] := by
      rw [continuation, if_neg hcontrol, if_pos hb]
    refine ⟨b, rest, rfl, h34, ?_⟩
    rw [scanCharacter, if_neg h92, hranges]
    rfl

/-- The switch of `scan_string` has the decoder's ranges. -/
theorem continuation_eq_owed {b : UInt8} (hb : 0x1F < b) :
    continuation b = (Utf8State.accept.decode b).owed := by
  have htable : ∀ i : Fin 256, 0x1F < UInt8.ofFin i →
      continuation (UInt8.ofFin i) =
        (Utf8State.accept.decode (UInt8.ofFin i)).owed := by
    decide +kernel
  exact htable b.toFin hb

theorem nextByteInRange_append {ranges : List ByteRange} {tail : List UInt8}
    (h : InRanges ranges tail) (rest : List UInt8) :
    nextByteInRange ranges (tail ++ rest) = some (tail, rest) := by
  induction h with
  | nil => rfl
  | cons hin _ ih =>
      rw [List.cons_append, nextByteInRange, if_pos hin, ih]
      rfl

/-- The bytes behind the first one of a character are no ASCII characters. -/
theorem not_ascii_of_inRanges {b : UInt8} {ranges : List ByteRange}
    {tail : List UInt8}
    (howed : (Utf8State.accept.decode b).owed = some ranges)
    (htail : InRanges ranges tail) : ∀ c ∈ tail, 0x80 ≤ c := by
  have hlow : ∀ range ∈ ranges, (0x80 : UInt8) ≤ range.1 := by
    have htable : ∀ state : Utf8State,
        (state.owed.getD []).all (fun range => 0x80 ≤ range.1) = true := by
      intro state
      cases state <;> rfl
    have hall := htable (Utf8State.accept.decode b)
    rw [howed] at hall
    simpa using hall
  clear howed
  induction htail with
  | nil => simp
  | cons hin _ ih =>
      obtain ⟨hfirst, hrest⟩ := List.forall_mem_cons.mp hlow
      exact List.forall_mem_cons.mpr ⟨UInt8.le_trans hfirst hin.1, ih hrest⟩

theorem flatMap_escape_of_not_ascii {s : List UInt8}
    (h : ∀ c ∈ s, 0x80 ≤ c) : s.flatMap escape = s := by
  induction s with
  | nil => rfl
  | cons b s ih =>
      obtain ⟨hb, hs⟩ := List.forall_mem_cons.mp h
      rw [List.flatMap_cons, escape_of_not_ascii hb, ih hs,
        List.singleton_append]

/-- A character is read back from its escaped form. -/
theorem scanCharacter_character {b : UInt8} {ranges : List ByteRange}
    {tail : List UInt8}
    (howed : (Utf8State.accept.decode b).owed = some ranges)
    (htail : InRanges ranges tail) (rest : List UInt8) :
    ∃ c text, (b :: tail).flatMap escape ++ rest = c :: text ∧ c ≠ 34 ∧
      scanCharacter c text = some (b :: tail, rest) := by
  have htailText : tail.flatMap escape = tail :=
    flatMap_escape_of_not_ascii (not_ascii_of_inRanges howed htail)
  rw [List.flatMap_cons, htailText]
  by_cases hb : b ≤ 0x7F
  · rw [Utf8State.decode, if_pos hb, Utf8State.owed, Option.some.injEq]
      at howed
    subst howed
    cases htail
    rw [List.append_nil]
    exact scanCharacter_escape hb rest
  · have hlarge : (0x80 : UInt8) ≤ b := by
      rw [UInt8.le_iff_toNat_le] at hb ⊢
      exact Nat.lt_of_not_le hb
    have hcontrol : (0x1F : UInt8) < b :=
      UInt8.lt_of_lt_of_le (by decide : (0x1F : UInt8) < 0x80) hlarge
    have hquote : b ≠ 34 := by
      rintro rfl
      exact absurd hlarge (by decide)
    have hbackslash : b ≠ 92 := by
      rintro rfl
      exact absurd hlarge (by decide)
    refine ⟨b, tail ++ rest, ?_, hquote, ?_⟩
    · rw [escape_of_not_ascii hlarge, List.singleton_append, List.cons_append]
    · rw [scanCharacter, if_neg hbackslash, continuation_eq_owed hcontrol,
        howed, Option.bind_some, nextByteInRange_append htail]
      rfl

theorem scanStringLoop_escape {s : List UInt8} (hs : wellFormed s = true)
    (buffer rest : List UInt8) :
    scanStringLoop.result (buffer, s.flatMap escape ++ 34 :: rest) =
      (.valueString (buffer ++ s), rest) := by
  revert buffer
  refine wellFormed_induction (P := fun s => ∀ buffer,
    scanStringLoop.result (buffer, s.flatMap escape ++ 34 :: rest) =
      (.valueString (buffer ++ s), rest)) ?_ ?_ hs
  · intro buffer
    apply scanStringLoop.result_of_inr
    rw [List.append_nil]
    rfl
  · intro b ranges tail s howed htail hs ih buffer
    obtain ⟨c, text, htext, hquote, hscan⟩ :=
      scanCharacter_character howed htail (s.flatMap escape ++ 34 :: rest)
    have hpass : scanStringLoop.pass (buffer, c :: text) =
        .inl (buffer ++ b :: tail, s.flatMap escape ++ 34 :: rest) := by
      change scanStringPass (buffer, c :: text) = _
      rw [scanStringPass, if_neg hquote, hscan]
    rw [List.flatMap_append, List.append_assoc, htext,
      scanStringLoop.result_of_inl hpass, ih, List.append_assoc]

theorem scan_quoted {s : List UInt8} (hs : wellFormed s = true)
    (rest : List UInt8) :
    scan (quoted s ++ rest) = (.valueString s, rest) := by
  have htext : quoted s ++ rest = 34 :: (s.flatMap escape ++ 34 :: rest) := by
    simp [quoted]
  have hscan : scan (quoted s ++ rest) =
      scanString (s.flatMap escape ++ 34 :: rest) := by
    rw [htext]
    rfl
  rw [hscan, scanString, scanStringLoop_escape hs, List.nil_append]

/-! ## Numbers -/

/-- What may stand behind a value: the end of the input, or a character that
ends a number. -/
def Delimited (rest : List UInt8) : Prop :=
  ∀ b ∈ rest.head?, b = 44 ∨ b = 93 ∨ b = 125

theorem delimited_nil : Delimited [] := by
  intro b hb
  cases hb

theorem delimited_cons {b : UInt8} (hb : b = 44 ∨ b = 93 ∨ b = 125)
    (rest : List UInt8) : Delimited (b :: rest) := by
  rintro c ⟨⟩
  exact hb

theorem scanNumber_delimited {state : NumberState} (hdone : state.done = true)
    (type : NumberType) (buffer : List UInt8) {rest : List UInt8}
    (hrest : Delimited rest) :
    scanNumber state type buffer rest = (convertNumber type buffer, rest) := by
  cases rest with
  | nil => rw [scanNumber, if_pos hdone]
  | cons b rest =>
      have hnext : state.next b = none := by
        rcases hrest b rfl with rfl | rfl | rfl <;> cases state <;> rfl
      rw [scanNumber, hnext]
      exact if_pos hdone

theorem scanNumber_digits {digits : List UInt8}
    (hdigits : ∀ b ∈ digits, isDigit b = true) (type : NumberType)
    (buffer : List UInt8) {rest : List UInt8} (hrest : Delimited rest) :
    scanNumber .any1 type buffer (digits ++ rest) =
      (convertNumber type (buffer ++ digits), rest) := by
  induction digits generalizing buffer with
  | nil =>
      rw [List.append_nil]
      exact scanNumber_delimited rfl type buffer hrest
  | cons b digits ih =>
      obtain ⟨hb, hdigits⟩ := List.forall_mem_cons.mp hdigits
      have hrange : 48 ≤ b ∧ b ≤ 57 := by
        simpa [isDigit] using hb
      have hnext : NumberState.any1.next b = some .any1 := if_pos hrange
      rw [List.cons_append, scanNumber, hnext]
      change scanNumber .any1 type (buffer ++ [b]) (digits ++ rest) = _
      rw [ih hdigits, List.append_assoc, List.singleton_append]

theorem digit_range {n : ℕ} (hpos : 0 < n) (hlt : n < 10) :
    49 ≤ digit n ∧ digit n ≤ 57 := by
  interval_cases n <;> decide

/-- The first digit of a number is not zero. -/
theorem exists_dumpNat_eq_cons {n : ℕ} (hn : 0 < n) :
    ∃ d digits, dumpNat n = d :: digits ∧ 49 ≤ d ∧ d ≤ 57 ∧
      ∀ b ∈ digits, isDigit b = true := by
  induction n using Nat.strong_induction_on with
  | _ n ih =>
      by_cases hten : 10 ≤ n
      · obtain ⟨d, digits, hsplit, hlow, hhigh, hdigits⟩ :=
          ih (n / 10) (by omega) (by omega)
        refine ⟨d, digits ++ [digit (n % 10)], ?_, hlow, hhigh, ?_⟩
        · rw [dumpNat_of_ten_le hten, hsplit, List.cons_append]
        · intro b hb
          rcases List.mem_append.mp hb with hb | hb
          · exact hdigits b hb
          · obtain rfl := List.mem_singleton.mp hb
            exact isDigit_digit (Nat.mod_lt _ (by decide))
      · have hlt : n < 10 := Nat.lt_of_not_le hten
        obtain ⟨hlow, hhigh⟩ := digit_range hn hlt
        exact ⟨digit n, [], dumpNat_of_lt_ten hlt, hlow, hhigh, by simp⟩

/-- The first byte of a number other than zero leads the scanner to
`scan_number`. -/
theorem scan_digit {d : UInt8} (hlow : 49 ≤ d) (hhigh : d ≤ 57)
    (text : List UInt8) :
    scan (d :: text) = scanNumber .any1 .unsigned [d] text := by
  have htable : ∀ i : Fin 256, 49 ≤ UInt8.ofFin i → UInt8.ofFin i ≤ 57 →
      UInt8.ofFin i ∈ [49, 50, 51, 52, 53, 54, 55, 56, 57] := by
    decide +kernel
  have hmem := htable d.toFin hlow hhigh
  simp only [UInt8.ofFin_toFin, List.mem_cons, List.not_mem_nil, or_false]
    at hmem
  rcases hmem with rfl | rfl | rfl | rfl | rfl | rfl | rfl | rfl | rfl <;> rfl

theorem scan_dumpNat {n : ℕ} (hn : n < 2 ^ 64) {rest : List UInt8}
    (hrest : Delimited rest) :
    scan (dumpNat n ++ rest) = (.valueUnsigned (UInt64.ofNat n), rest) := by
  have hconvert : convertNumber .unsigned (dumpNat n) =
      .valueUnsigned (UInt64.ofNat n) := by
    rw [convertNumber, parseNat_dumpNat, if_pos hn]
  rcases Nat.eq_zero_or_pos n with rfl | hpos
  · exact scanNumber_delimited rfl .unsigned [48] hrest
  · obtain ⟨d, digits, hsplit, hlow, hhigh, hdigits⟩ :=
      exists_dumpNat_eq_cons hpos
    rw [hsplit, List.cons_append, scan_digit hlow hhigh,
      scanNumber_digits hdigits _ _ hrest, List.singleton_append, ← hsplit,
      hconvert]

theorem scan_dumpInteger_neg {n : ℤ} (hneg : n < 0) (hlow : -2 ^ 63 ≤ n)
    {rest : List UInt8} (hrest : Delimited rest) :
    scan (Json.dumpInteger n ++ rest) =
      (.valueInteger (Int64.ofInt n), rest) := by
  have hconvert : convertNumber .integer (45 :: dumpNat n.natAbs) =
      .valueInteger (Int64.ofInt n) := by
    have hle : n.natAbs ≤ 2 ^ 63 := by omega
    have habs : -((n.natAbs : ℕ) : ℤ) = n := by omega
    rw [convertNumber, List.tail_cons, parseNat_dumpNat, if_pos hle, habs]
  obtain ⟨d, digits, hsplit, hfirst, hlast, hdigits⟩ :=
    exists_dumpNat_eq_cons (n := n.natAbs) (by omega)
  have hscan : scan (45 :: (d :: digits) ++ rest) =
      scanNumber .minus .integer [45] (d :: (digits ++ rest)) := rfl
  have hnot : d ≠ 48 := by
    rintro rfl
    exact absurd hfirst (by decide)
  have hnext : NumberState.minus.next d = some .any1 := by
    rw [NumberState.next, if_neg hnot, if_pos ⟨hfirst, hlast⟩]
  rw [Json.dumpInteger, if_pos hneg, hsplit, hscan, scanNumber, hnext]
  change scanNumber .any1 .integer [45, d] (digits ++ rest) = _
  rw [scanNumber_digits hdigits _ _ hrest]
  rw [hsplit] at hconvert
  exact congrArg (fun token => (token, rest)) hconvert

/-! ## What tokens hold -/

/-- The string of a token is well-formed UTF-8. -/
def Token.Valid : Token → Prop
  | .valueString s => wellFormed s = true
  | _ => True

theorem hexValue_lt {b : UInt8} {n : ℕ} (h : hexValue b = some n) :
    n < 16 := by
  rw [hexValue] at h
  split_ifs at h with hdigit hupper hlower
  · have hle := UInt8.le_iff_toNat_le.mp hdigit.2
    obtain rfl := Option.some.inj h
    exact Nat.sub_lt_left_of_lt_add (UInt8.le_iff_toNat_le.mp hdigit.1)
      (lt_of_le_of_lt hle (by decide))
  · have hle := UInt8.le_iff_toNat_le.mp hupper.2
    obtain rfl := Option.some.inj h
    exact Nat.sub_lt_left_of_lt_add
      (le_trans (by decide) (UInt8.le_iff_toNat_le.mp hupper.1))
      (lt_of_le_of_lt hle (by decide))
  · have hle := UInt8.le_iff_toNat_le.mp hlower.2
    obtain rfl := Option.some.inj h
    exact Nat.sub_lt_left_of_lt_add
      (le_trans (by decide) (UInt8.le_iff_toNat_le.mp hlower.1))
      (lt_of_le_of_lt hle (by decide))

theorem getCodepoint_lt {text rest : List UInt8} {codepoint : ℕ}
    (h : getCodepoint text = some (codepoint, rest)) :
    codepoint < 0x10000 := by
  rw [getCodepoint.eq_def] at h
  split at h
  · simp only [Option.bind_eq_bind, Option.bind_eq_some_iff,
      Option.pure_def, Option.some.injEq, Prod.mk.injEq] at h
    obtain ⟨d1, h1, d2, h2, d3, h3, d4, h4, rfl, -⟩ := h
    have hlt1 := hexValue_lt h1
    have hlt2 := hexValue_lt h2
    have hlt3 := hexValue_lt h3
    have hlt4 := hexValue_lt h4
    simp only [Nat.shiftLeft_eq]
    omega
  · cases h

/-- The code points other than surrogates. -/
def IsScalar (codepoint : ℕ) : Prop :=
  codepoint < 0x110000 ∧ (codepoint < 0xD800 ∨ 0xDFFF < codepoint)

/-- A pair of surrogates stands for a code point behind the others. -/
theorem isScalar_unicodeEscape {text rest : List UInt8} {codepoint : ℕ}
    (h : unicodeEscape text = some (codepoint, rest)) :
    IsScalar codepoint := by
  obtain ⟨⟨codepoint1, rest1⟩, hfirst, h⟩ := Option.bind_eq_some_iff.mp h
  have hlt := getCodepoint_lt hfirst
  simp only at h
  split_ifs at h with hhigh hlow
  · split at h
    · obtain ⟨⟨codepoint2, rest2⟩, hsecond, h⟩ :=
        Option.bind_eq_some_iff.mp h
      simp only at h
      split_ifs at h with hlow
      obtain ⟨rfl, -⟩ := Prod.mk.inj (Option.some.inj h)
      rw [Nat.shiftLeft_eq]
      constructor <;> omega
    · cases h
  · obtain ⟨rfl, -⟩ := Prod.mk.inj (Option.some.inj h)
    constructor <;> omega

theorem or_six_bits (x : ℕ) : 0x80 ||| x &&& 0x3F = 0x80 + x % 64 := by
  have htable : ∀ i : Fin 64, 0x80 ||| i.val = 0x80 + i.val := by decide
  have hmod : x &&& 0x3F = x % 64 := Nat.and_two_pow_sub_one_eq_mod x 6
  rw [hmod]
  exact htable ⟨x % 64, Nat.mod_lt _ (by decide)⟩

theorem toNat_ofNat_add {low x : ℕ} (h : low + x < 256) :
    (UInt8.ofNat (low + x)).toNat = low + x :=
  UInt8.toNat_ofNat_of_lt' h

/-- A byte that carries six bits of a code point lies in a range, if the bits
do. -/
theorem six_bits_inRange (range : ByteRange) (x : ℕ)
    (hlow : range.1.toNat ≤ 0x80 + x % 64)
    (hhigh : 0x80 + x % 64 ≤ range.2.toNat) :
    range.1 ≤ UInt8.ofNat (0x80 ||| x &&& 0x3F) ∧
      UInt8.ofNat (0x80 ||| x &&& 0x3F) ≤ range.2 := by
  rw [or_six_bits, UInt8.le_iff_toNat_le, UInt8.le_iff_toNat_le,
    toNat_ofNat_add (by omega)]
  exact ⟨hlow, hhigh⟩

theorem six_bits_tail (x : ℕ) :
    (0x80 : UInt8) ≤ UInt8.ofNat (0x80 ||| x &&& 0x3F) ∧
      UInt8.ofNat (0x80 ||| x &&& 0x3F) ≤ 0xBF :=
  six_bits_inRange (0x80, 0xBF) x (Nat.le_add_right _ _) (by
    change 0x80 + x % 64 ≤ 191
    omega)

theorem owed_lead_two {x : ℕ} (hlow : 2 ≤ x) (hhigh : x < 32) :
    (Utf8State.accept.decode (UInt8.ofNat (0xC0 ||| x))).owed =
      some [(0x80, 0xBF)] := by
  interval_cases x <;> rfl

/-- The second byte excludes overlong sequences behind `E0` and surrogates
behind `ED`. -/
theorem owed_lead_three {x : ℕ} (h : x < 16) :
    (Utf8State.accept.decode (UInt8.ofNat (0xE0 ||| x))).owed =
      some [(if x = 0 then 0xA0 else 0x80, if x = 13 then 0x9F else 0xBF),
        (0x80, 0xBF)] := by
  interval_cases x <;> rfl

/-- It excludes overlong sequences behind `F0` and what lies behind the last
code point behind `F4`. -/
theorem owed_lead_four {x : ℕ} (h : x < 5) :
    (Utf8State.accept.decode (UInt8.ofNat (0xF0 ||| x))).owed =
      some [(if x = 0 then 0x90 else 0x80, if x = 4 then 0x8F else 0xBF),
        (0x80, 0xBF), (0x80, 0xBF)] := by
  interval_cases x <;> rfl

/-- A code point other than a surrogate is translated into a character. -/
theorem wellFormed_encode {codepoint : ℕ} (h : IsScalar codepoint) :
    wellFormed (encode codepoint) = true := by
  obtain ⟨hlast, hsurrogate⟩ := h
  have hshift (k : ℕ) : codepoint >>> k = codepoint / 2 ^ k :=
    Nat.shiftRight_eq_div_pow codepoint k
  rw [encode]
  split_ifs with hone htwo hthree
  · apply wellFormed_ascii
    rw [UInt8.le_iff_toNat_le, UInt8.toNat_ofNat_of_lt' (by
      change codepoint < 256
      omega)]
    exact Nat.le_of_lt_succ hone
  · have hlead := owed_lead_two (x := codepoint >>> 6)
      (by rw [hshift]; omega) (by rw [hshift]; omega)
    exact wellFormed_character hlead (.cons (six_bits_tail codepoint) .nil)
  · have hlead := owed_lead_three (x := codepoint >>> 12)
      (by rw [hshift]; omega)
    refine wellFormed_character hlead (.cons ?_
      (.cons (six_bits_tail codepoint) .nil))
    rw [hshift, hshift]
    apply six_bits_inRange
    · dsimp only
      split_ifs
      · change 160 ≤ 0x80 + codepoint / 2 ^ 6 % 64
        omega
      · exact Nat.le_add_right _ _
    · dsimp only
      split_ifs
      · change 0x80 + codepoint / 2 ^ 6 % 64 ≤ 159
        omega
      · change 0x80 + codepoint / 2 ^ 6 % 64 ≤ 191
        omega
  · have hlead := owed_lead_four (x := codepoint >>> 18)
      (by rw [hshift]; omega)
    refine wellFormed_character hlead (.cons ?_
      (.cons (six_bits_tail (codepoint >>> 6))
        (.cons (six_bits_tail codepoint) .nil)))
    rw [hshift, hshift]
    apply six_bits_inRange
    · dsimp only
      split_ifs
      · change 144 ≤ 0x80 + codepoint / 2 ^ 12 % 64
        omega
      · exact Nat.le_add_right _ _
    · dsimp only
      split_ifs
      · change 0x80 + codepoint / 2 ^ 12 % 64 ≤ 143
        omega
      · change 0x80 + codepoint / 2 ^ 12 % 64 ≤ 191
        omega

theorem wellFormed_scanEscape {text added rest : List UInt8}
    (h : scanEscape text = some (added, rest)) :
    wellFormed added = true := by
  rw [scanEscape.eq_def] at h
  split at h
  case h_9 text =>
    obtain ⟨⟨codepoint, rest'⟩, hescape, heq⟩ := Option.map_eq_some_iff.mp h
    obtain ⟨rfl, -⟩ := Prod.mk.inj heq
    exact wellFormed_encode (isScalar_unicodeEscape hescape)
  case h_10 => cases h
  all_goals
    obtain ⟨rfl, -⟩ := Prod.mk.inj (Option.some.inj h)
    rfl

theorem inRanges_nextByteInRange {ranges : List ByteRange}
    {text added rest : List UInt8}
    (h : nextByteInRange ranges text = some (added, rest)) :
    InRanges ranges added := by
  induction ranges generalizing text added with
  | nil =>
      obtain ⟨rfl, -⟩ := Prod.mk.inj (Option.some.inj h)
      exact .nil
  | cons range ranges ih =>
      cases text with
      | nil => cases h
      | cons b text =>
          rw [nextByteInRange] at h
          split_ifs at h with hin
          obtain ⟨⟨added', rest'⟩, hnext, heq⟩ := Option.map_eq_some_iff.mp h
          obtain ⟨rfl, rfl⟩ := Prod.mk.inj heq
          exact .cons hin (ih hnext)

/-- Whatever one pass of `scan_string` adds is well-formed. -/
theorem wellFormed_scanCharacter {b : UInt8} {text added rest : List UInt8}
    (h : scanCharacter b text = some (added, rest)) :
    wellFormed added = true := by
  rw [scanCharacter] at h
  split_ifs at h with hbackslash
  · exact wellFormed_scanEscape h
  · obtain ⟨ranges, hranges, h⟩ := Option.bind_eq_some_iff.mp h
    obtain ⟨⟨tail, rest'⟩, hnext, heq⟩ := Option.map_eq_some_iff.mp h
    obtain ⟨rfl, -⟩ := Prod.mk.inj heq
    have hcontrol : 0x1F < b := by
      by_contra hle
      rw [continuation, if_pos (UInt8.not_lt.mp hle)] at hranges
      cases hranges
    rw [continuation_eq_owed hcontrol] at hranges
    exact wellFormed_character hranges (inRanges_nextByteInRange hnext)

theorem valid_scanString (text : List UInt8) :
    (scanString text).1.Valid := by
  refine scanStringLoop.invariant
    (I := fun s => wellFormed s.1 = true) (P := fun r => r.1.Valid) ?_ ?_ rfl
  · rintro ⟨buffer, rest⟩ t hbuffer hpass
    simp only [scanStringLoop] at hpass
    cases rest with
    | nil => cases hpass
    | cons b rest =>
        rw [scanStringPass] at hpass
        split_ifs at hpass
        split at hpass
        · next added rest' hscan =>
            obtain rfl := Sum.inl.inj hpass
            exact wellFormed_append hbuffer (wellFormed_scanCharacter hscan)
        · cases hpass
  · rintro ⟨buffer, rest⟩ r hbuffer hpass
    simp only [scanStringLoop] at hpass
    cases rest with
    | nil =>
        obtain rfl := Sum.inr.inj hpass
        trivial
    | cons b rest =>
        rw [scanStringPass] at hpass
        split_ifs at hpass
        · obtain rfl := Sum.inr.inj hpass
          exact hbuffer
        · split at hpass
          · cases hpass
          · obtain rfl := Sum.inr.inj hpass
            trivial

theorem valid_convertNumber (type : NumberType) (buffer : List UInt8) :
    (convertNumber type buffer).Valid := by
  cases type with
  | unsigned =>
      rw [convertNumber]
      split <;> trivial
  | integer =>
      rw [convertNumber]
      split <;> trivial
  | float => trivial

theorem valid_scanNumber (state : NumberState) (type : NumberType)
    (buffer text : List UInt8) :
    (scanNumber state type buffer text).1.Valid := by
  induction text generalizing state type buffer with
  | nil =>
      rw [scanNumber]
      split_ifs
      · exact valid_convertNumber type buffer
      · trivial
  | cons b text ih =>
      rw [scanNumber]
      split
      · exact ih _ _ _
      · split_ifs
        · exact valid_convertNumber type buffer
        · trivial

theorem valid_scanLiteral (token : Token) (htoken : token.Valid)
    (literal text : List UInt8) : (scanLiteral literal token text).1.Valid := by
  rw [scanLiteral]
  split_ifs
  · exact htoken
  · trivial

theorem valid_ite {c : Prop} [Decidable c] {x y : Token × List UInt8}
    (hx : x.1.Valid) (hy : y.1.Valid) : (if c then x else y).1.Valid := by
  split
  · exact hx
  · exact hy

/-- The strings that the lexer reads are well-formed UTF-8. -/
theorem valid_scan (text : List UInt8) : (scan text).1.Valid := by
  rw [scan]
  cases text.dropWhile isWhitespace with
  | nil => trivial
  | cons b text =>
      rw [scanToken]
      iterate 6 refine valid_ite trivial ?_
      refine valid_ite (valid_scanLiteral .literalTrue trivial _ _) ?_
      refine valid_ite (valid_scanLiteral .literalFalse trivial _ _) ?_
      refine valid_ite (valid_scanLiteral .literalNull trivial _ _) ?_
      refine valid_ite (valid_scanString text) ?_
      iterate 3 refine valid_ite (valid_scanNumber _ _ _ text) ?_
      exact valid_ite trivial trivial

end Nlohmann
