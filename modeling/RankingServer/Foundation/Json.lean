import Mathlib

/-!
# Flat JSON objects as text

The texts that the serializer writes for an object whose members are strings and
integers, and a parser for these texts.  The serializer refuses strings that are
not well-formed UTF-8; whatever it writes is read back as the object it was
written for (`parse_dump`) and contains no NUL (`zero_notMem_dump`).

The parser covers what the serializer emits and no more: no white space, no
fractions, and `\u` escapes only for control characters.
-/

namespace Json

/-! ## UTF-8 -/

/-- The states of the decoder: between two characters, after an invalid byte,
or in front of continuation bytes, the first of which may be restricted. -/
inductive Utf8State
  | accept
  | reject
  | one
  | two
  | three
  | afterE0
  | afterED
  | afterF0
  | afterF4
deriving DecidableEq, Repr

def Utf8State.expect (b low high : UInt8) (next : Utf8State) : Utf8State :=
  if low ≤ b ∧ b ≤ high then next else .reject

/-- `decode`, without the code point. -/
def Utf8State.decode (state : Utf8State) (b : UInt8) : Utf8State :=
  match state with
  | .accept =>
      if b ≤ 0x7F then .accept
      else if b < 0xC2 then .reject
      else if b ≤ 0xDF then .one
      else if b = 0xE0 then .afterE0
      else if b = 0xED then .afterED
      else if b ≤ 0xEF then .two
      else if b = 0xF0 then .afterF0
      else if b ≤ 0xF3 then .three
      else if b = 0xF4 then .afterF4
      else .reject
  | .reject => .reject
  | .one => expect b 0x80 0xBF .accept
  | .two => expect b 0x80 0xBF .one
  | .three => expect b 0x80 0xBF .two
  | .afterE0 => expect b 0xA0 0xBF .one
  | .afterED => expect b 0x80 0x9F .one
  | .afterF0 => expect b 0x90 0xBF .two
  | .afterF4 => expect b 0x80 0x8F .two

/-- The string is well-formed UTF-8. -/
def wellFormed (s : List UInt8) : Bool :=
  s.foldl Utf8State.decode .accept = .accept

/-! ## Strings -/

/-- A lower-case hexadecimal digit. -/
def hexDigit (n : ℕ) : UInt8 := UInt8.ofNat (if n < 10 then 48 + n else 87 + n)

/-- `dump_escaped` on one byte.  Only ASCII characters are ever escaped, so the
bytes of longer sequences are copied. -/
def escape (b : UInt8) : List UInt8 :=
  if b = 8 then [92, 98]
  else if b = 9 then [92, 116]
  else if b = 10 then [92, 110]
  else if b = 12 then [92, 102]
  else if b = 13 then [92, 114]
  else if b = 34 then [92, 34]
  else if b = 92 then [92, 92]
  else if b ≤ 0x1F then
    [92, 117, 48, 48, hexDigit (b.toNat / 16), hexDigit (b.toNat % 16)]
  else [b]

def dumpString (s : List UInt8) : Option (List UInt8) :=
  if wellFormed s then some (34 :: s.flatMap escape ++ [34]) else none

/-- The value of a lower-case hexadecimal digit. -/
def unhex (b : UInt8) : ℕ :=
  if b ≤ 57 then b.toNat - 48 else b.toNat - 87

/-- The character that a two-character escape stands for. -/
def unescape (b : UInt8) : Option UInt8 :=
  if b = 98 then some 8
  else if b = 116 then some 9
  else if b = 110 then some 10
  else if b = 102 then some 12
  else if b = 114 then some 13
  else if b = 34 then some 34
  else if b = 92 then some 92
  else none

/-- A string up to its closing quotation mark, and the text behind it. -/
def parseString : List UInt8 → Option (List UInt8 × List UInt8)
  | [] => none
  | 34 :: rest => some ([], rest)
  | 92 :: 117 :: _ :: _ :: x :: y :: rest =>
      (parseString rest).map fun r =>
        (UInt8.ofNat (16 * unhex x + unhex y) :: r.1, r.2)
  | 92 :: b :: rest =>
      (unescape b).bind fun c =>
        (parseString rest).map fun r => (c :: r.1, r.2)
  | b :: rest =>
      if b ≤ 0x1F then none
      else (parseString rest).map fun r => (b :: r.1, r.2)

theorem unhex_hexDigit {n : ℕ} (hn : n < 16) : unhex (hexDigit n) = n := by
  interval_cases n <;> rfl

theorem parseString_escape_append (b : UInt8) (text : List UInt8) :
    parseString (escape b ++ text) =
      (parseString text).map fun r => (b :: r.1, r.2) := by
  by_cases hspecial : b ∈ [8, 9, 10, 12, 13, 34, 92]
  · simp only [List.mem_cons, List.not_mem_nil, or_false] at hspecial
    rcases hspecial with rfl | rfl | rfl | rfl | rfl | rfl | rfl <;>
      simp [escape, parseString, unescape]
  simp only [List.mem_cons, List.not_mem_nil, or_false, not_or] at hspecial
  obtain ⟨h8, h9, h10, h12, h13, h34, h92⟩ := hspecial
  have hescape : escape b = if b ≤ 0x1F then
      [92, 117, 48, 48, hexDigit (b.toNat / 16), hexDigit (b.toNat % 16)]
      else [b] := by
    simp [escape, h8, h9, h10, h12, h13, h34, h92]
  by_cases hcontrol : b ≤ 0x1F
  · have hlt : b.toNat < 32 := Nat.lt_succ_of_le hcontrol
    have hvalue : 16 * unhex (hexDigit (b.toNat / 16)) +
        unhex (hexDigit (b.toNat % 16)) = b.toNat := by
      rw [unhex_hexDigit (by omega), unhex_hexDigit (by omega)]
      omega
    rw [hescape, if_pos hcontrol]
    simp [parseString, hvalue]
  · rw [hescape, if_neg hcontrol, List.singleton_append, parseString.eq_def]
    simp [hcontrol, h92]

/-- A string is read back from its escaped form. -/
theorem parseString_escape (s rest : List UInt8) :
    parseString (s.flatMap escape ++ 34 :: rest) = some (s, rest) := by
  induction s with
  | nil => rfl
  | cons b s ih =>
      rw [List.flatMap_cons, List.append_assoc, parseString_escape_append, ih]
      rfl

/-! ## Integers -/

def digit (n : ℕ) : UInt8 := UInt8.ofNat (48 + n)

def isDigit (b : UInt8) : Bool := 48 ≤ b && b ≤ 57

def dumpNat (n : ℕ) : List UInt8 :=
  if n = 0 then [48] else (Nat.digits 10 n).reverse.map digit

def dumpInteger (n : ℤ) : List UInt8 :=
  if n < 0 then 45 :: dumpNat n.natAbs else dumpNat n.natAbs

def parseNat (text : List UInt8) : ℕ :=
  text.foldl (fun n b => 10 * n + (b.toNat - 48)) 0

/-- An integer and the text behind it. -/
def parseInteger : List UInt8 → Option (ℤ × List UInt8)
  | 45 :: rest =>
      if (rest.takeWhile isDigit).isEmpty then none
      else some (-(parseNat (rest.takeWhile isDigit) : ℤ),
        rest.dropWhile isDigit)
  | text =>
      if (text.takeWhile isDigit).isEmpty then none
      else some ((parseNat (text.takeWhile isDigit) : ℤ),
        text.dropWhile isDigit)

theorem toNat_digit {n : ℕ} (hn : n < 10) : (digit n).toNat = 48 + n := by
  rw [digit, UInt8.toNat_ofNat_of_lt']
  simp [UInt8.size]
  omega

theorem isDigit_digit {n : ℕ} (hn : n < 10) : isDigit (digit n) = true := by
  interval_cases n <;> rfl

theorem isDigit_of_mem_dumpNat {n : ℕ} {b : UInt8} (hb : b ∈ dumpNat n) :
    isDigit b = true := by
  by_cases hn : n = 0
  · rw [dumpNat, if_pos hn, List.mem_singleton] at hb
    subst hb
    rfl
  · rw [dumpNat, if_neg hn, List.mem_map] at hb
    obtain ⟨d, hd, rfl⟩ := hb
    exact isDigit_digit
      (Nat.digits_lt_base (by decide) (List.mem_reverse.mp hd))

theorem dumpNat_ne_nil (n : ℕ) : dumpNat n ≠ [] := by
  by_cases hn : n = 0
  · simp [dumpNat, hn]
  · simp [dumpNat, hn, Nat.digits_ne_nil_iff_ne_zero]

theorem parseNat_dumpNat (n : ℕ) : parseNat (dumpNat n) = n := by
  by_cases hn : n = 0
  · simp [dumpNat, hn, parseNat]
  · rw [dumpNat, if_neg hn, parseNat, List.foldl_map, List.foldl_reverse]
    conv_rhs => rw [← Nat.ofDigits_digits 10 n, Nat.ofDigits_eq_foldr]
    apply List.foldr_ext
    intro d hd m
    rw [toNat_digit (Nat.digits_lt_base (by decide) hd),
      Nat.add_sub_cancel_left, Nat.cast_id, Nat.add_comm]

/-- The digits of a number end where something else follows. -/
theorem takeWhile_dumpNat (n : ℕ) {rest : List UInt8}
    (hrest : ∀ b ∈ rest.head?, isDigit b = false) :
    (dumpNat n ++ rest).takeWhile isDigit = dumpNat n ∧
      (dumpNat n ++ rest).dropWhile isDigit = rest := by
  have hdigits (b : UInt8) (hb : b ∈ dumpNat n) := isDigit_of_mem_dumpNat hb
  rw [List.takeWhile_append_of_pos hdigits,
    List.dropWhile_append_of_pos hdigits]
  cases rest with
  | nil => simp
  | cons c rest =>
      have hc : isDigit c = false := hrest c rfl
      simp [hc]

theorem parseInteger_dumpInteger (n : ℤ) {rest : List UInt8}
    (hrest : ∀ b ∈ rest.head?, isDigit b = false) :
    parseInteger (dumpInteger n ++ rest) = some (n, rest) := by
  obtain ⟨htake, hdrop⟩ := takeWhile_dumpNat n.natAbs hrest
  have hne : (dumpNat n.natAbs).isEmpty = false := by
    rw [List.isEmpty_eq_false_iff]
    exact dumpNat_ne_nil n.natAbs
  by_cases hneg : n < 0
  · have habs : -((n.natAbs : ℕ) : ℤ) = n := by omega
    rw [dumpInteger, if_pos hneg, List.cons_append, parseInteger, htake, hdrop,
      hne, parseNat_dumpNat, habs]
    rfl
  · have habs : ((n.natAbs : ℕ) : ℤ) = n := by omega
    have hhead : ∀ tail, dumpNat n.natAbs ++ rest ≠ 45 :: tail := by
      intro tail heq
      obtain ⟨d, ds, hds⟩ :=
        List.exists_cons_of_ne_nil (dumpNat_ne_nil n.natAbs)
      have hd : isDigit d = true := isDigit_of_mem_dumpNat (by rw [hds]; simp)
      rw [hds, List.cons_append, List.cons.injEq] at heq
      rw [heq.1] at hd
      exact absurd hd (by decide)
    rw [dumpInteger, if_neg hneg, parseInteger.eq_2 _ hhead, htake, hdrop, hne,
      parseNat_dumpNat, habs]
    rfl

/-! ## Objects -/

/-- The value of a member. -/
inductive Value
  | string (s : List UInt8)
  | integer (n : ℤ)
deriving DecidableEq, Repr

/-- The members of an object, in the order of their keys. -/
abbrev Members := List (List UInt8 × Value)

def dumpValue : Value → Option (List UInt8)
  | .string s => dumpString s
  | .integer n => some (dumpInteger n)

def dumpMember (member : List UInt8 × Value) : Option (List UInt8) :=
  (dumpString member.1).bind fun key =>
    (dumpValue member.2).map fun value => key ++ 58 :: value

/-- The members after the first, each behind a comma. -/
def dumpRest : Members → Option (List UInt8)
  | [] => some []
  | member :: rest =>
      (dumpMember member).bind fun text =>
        (dumpRest rest).map fun tail => 44 :: text ++ tail

/-- `dump`; `none` is the exception for a string that is not UTF-8. -/
def dump : Members → Option (List UInt8)
  | [] => some [123, 125]
  | member :: rest =>
      (dumpMember member).bind fun text =>
        (dumpRest rest).map fun tail => 123 :: text ++ tail ++ [125]

def parseValue : List UInt8 → Option (Value × List UInt8)
  | 34 :: text =>
      (parseString text).bind fun r =>
        if wellFormed r.1 then some (.string r.1, r.2) else none
  | text => (parseInteger text).map fun r => (.integer r.1, r.2)

def parseMember : List UInt8 → Option ((List UInt8 × Value) × List UInt8)
  | 34 :: text =>
      (parseString text).bind fun key =>
        if wellFormed key.1 then
          match key.2 with
          | 58 :: text => (parseValue text).map fun r => ((key.1, r.1), r.2)
          | _ => none
        else none
  | _ => none

/-- The members after the first, up to the closing brace, which must be the end
of the text.  The first argument bounds the number of members. -/
def parseRest : ℕ → List UInt8 → Option Members
  | _, [125] => some []
  | fuel + 1, 44 :: text =>
      (parseMember text).bind fun r =>
        (parseRest fuel r.2).map fun members => r.1 :: members
  | _, _ => none

/-- `parse` on the text of a flat object. -/
def parse (text : List UInt8) : Option Members :=
  match text with
  | [123, 125] => some []
  | 123 :: text =>
      (parseMember text).bind fun r =>
        (parseRest text.length r.2).map fun members => r.1 :: members
  | _ => none

/-! ## Reading an object back -/

theorem dumpString_eq_some_iff {s text : List UInt8} :
    dumpString s = some text ↔
      wellFormed s = true ∧ 34 :: s.flatMap escape ++ [34] = text := by
  by_cases h : wellFormed s <;> simp [dumpString, h]

theorem parseValue_dumpValue {value : Value} {text rest : List UInt8}
    (htext : dumpValue value = some text)
    (hrest : ∀ b ∈ rest.head?, isDigit b = false) :
    parseValue (text ++ rest) = some (value, rest) := by
  cases value with
  | string s =>
      obtain ⟨hs, rfl⟩ := dumpString_eq_some_iff.mp htext
      have hparse := parseString_escape s rest
      rw [List.append_cons] at hparse
      simp only [List.cons_append, parseValue, hparse, Option.bind_some, hs,
        if_true]
  | integer n =>
      obtain rfl := Option.some.inj htext
      have hparse := parseInteger_dumpInteger n hrest
      rw [parseValue.eq_2, hparse]
      · rfl
      · intro tail heq
        rw [heq] at hparse
        simp [parseInteger, isDigit] at hparse

theorem parseMember_dumpMember {member : List UInt8 × Value}
    {text rest : List UInt8} (htext : dumpMember member = some text)
    (hrest : ∀ b ∈ rest.head?, isDigit b = false) :
    parseMember (text ++ rest) = some (member, rest) := by
  obtain ⟨key, value⟩ := member
  simp only [dumpMember, Option.bind_eq_some_iff, Option.map_eq_some_iff]
    at htext
  obtain ⟨keyText, hkey, valueText, hvalue, rfl⟩ := htext
  obtain ⟨hwell, rfl⟩ := dumpString_eq_some_iff.mp hkey
  have hparse := parseString_escape key (58 :: (valueText ++ rest))
  have hsplit : 34 :: key.flatMap escape ++ [34] ++ 58 :: valueText ++ rest =
      34 :: (key.flatMap escape ++ 34 :: (58 :: (valueText ++ rest))) := by
    simp
  rw [hsplit, parseMember, hparse]
  simp [hwell, parseValue_dumpValue hvalue hrest]

theorem head_dumpRest {members : Members} {text : List UInt8}
    (htext : dumpRest members = some text) :
    ∀ b ∈ (text ++ [125]).head?, isDigit b = false := by
  cases members with
  | nil =>
      obtain rfl := Option.some.inj htext
      simp [isDigit]
  | cons member members =>
      simp only [dumpRest, Option.bind_eq_some_iff, Option.map_eq_some_iff]
        at htext
      obtain ⟨_, -, _, -, rfl⟩ := htext
      simp [isDigit]

theorem parseRest_dumpRest {members : Members} {text : List UInt8} {fuel : ℕ}
    (htext : dumpRest members = some text) (hfuel : members.length ≤ fuel) :
    parseRest fuel (text ++ [125]) = some members := by
  induction members generalizing text fuel with
  | nil =>
      obtain rfl := Option.some.inj htext
      cases fuel <;> rfl
  | cons member members ih =>
      simp only [dumpRest, Option.bind_eq_some_iff, Option.map_eq_some_iff]
        at htext
      obtain ⟨memberText, hmember, tail, htail, rfl⟩ := htext
      cases fuel with
      | zero => simp at hfuel
      | succ fuel =>
          have hparse := parseMember_dumpMember hmember (head_dumpRest htail)
          have hrest := ih htail (Nat.le_of_succ_le_succ hfuel)
          rw [List.cons_append, List.cons_append, List.append_assoc, parseRest,
            hparse]
          simp [hrest]

/-- A text is long enough to bound the number of members it holds. -/
theorem length_le_dumpRest {members : Members} {text : List UInt8}
    (htext : dumpRest members = some text) : members.length ≤ text.length := by
  induction members generalizing text with
  | nil => exact Nat.zero_le _
  | cons member members ih =>
      simp only [dumpRest, Option.bind_eq_some_iff, Option.map_eq_some_iff]
        at htext
      obtain ⟨memberText, -, tail, htail, rfl⟩ := htext
      have hle := ih htail
      simp only [List.length_cons, List.length_append, List.cons_append]
      omega

/-- What the serializer writes is read back. -/
theorem parse_dump {members : Members} {text : List UInt8}
    (htext : dump members = some text) : parse text = some members := by
  cases members with
  | nil =>
      obtain rfl := Option.some.inj htext
      rfl
  | cons member members =>
      simp only [dump, Option.bind_eq_some_iff, Option.map_eq_some_iff]
        at htext
      obtain ⟨memberText, hmember, tail, htail, rfl⟩ := htext
      have hparse := parseMember_dumpMember hmember (head_dumpRest htail)
      have hfuel : members.length ≤ (memberText ++ (tail ++ [125])).length := by
        have hle := length_le_dumpRest htail
        simp only [List.length_append]
        omega
      have hrest := parseRest_dumpRest htail hfuel
      rw [List.cons_append, List.cons_append, List.append_assoc, parse, hparse]
      · simp only [Option.bind_some, hrest, Option.map_some]
      · intro heq
        rw [heq] at hparse
        simp [parseMember] at hparse

/-! ## Which objects are written -/

/-- The serializer writes a value exactly when it is no invalid string. -/
theorem dumpValue_isSome_iff {value : Value} :
    (dumpValue value).isSome ↔
      ∀ s, value = .string s → wellFormed s = true := by
  cases value with
  | string s => by_cases h : wellFormed s <;> simp [dumpValue, dumpString, h]
  | integer n => simp [dumpValue]

theorem dumpMember_isSome_iff {member : List UInt8 × Value} :
    (dumpMember member).isSome ↔
      wellFormed member.1 = true ∧ (dumpValue member.2).isSome := by
  by_cases h : wellFormed member.1 <;> simp [dumpMember, dumpString, h]

theorem dumpRest_isSome_iff {members : Members} :
    (dumpRest members).isSome ↔
      ∀ member ∈ members, (dumpMember member).isSome := by
  induction members with
  | nil => simp [dumpRest]
  | cons member members ih =>
      rw [List.forall_mem_cons, ← ih]
      cases h : dumpMember member <;> simp [dumpRest, h]

theorem dump_isSome_iff {members : Members} :
    (dump members).isSome ↔
      ∀ member ∈ members, (dumpMember member).isSome := by
  cases members with
  | nil => simp [dump]
  | cons member members =>
      rw [List.forall_mem_cons, ← dumpRest_isSome_iff]
      cases h : dumpMember member <;> simp [dump, h]

/-! ## The text as a C string -/

theorem zero_notMem_escape (b : UInt8) : 0 ∉ escape b := by
  by_cases hcontrol : b ≤ 0x1F
  · have hlt : b.toNat < 32 := Nat.lt_succ_of_le hcontrol
    have hbyte : b = UInt8.ofNat b.toNat := by simp
    rw [hbyte]
    generalize b.toNat = n at hlt
    interval_cases n <;> decide
  · have hne : b ≠ 0 := by
      rintro rfl
      exact hcontrol (by decide)
    simp only [escape, if_neg hcontrol]
    split_ifs <;> simp [hne.symm]

theorem zero_notMem_dumpString {s text : List UInt8}
    (htext : dumpString s = some text) : 0 ∉ text := by
  obtain ⟨-, rfl⟩ := dumpString_eq_some_iff.mp htext
  simp [zero_notMem_escape]

theorem zero_notMem_dumpInteger (n : ℤ) : 0 ∉ dumpInteger n := by
  have hnat : 0 ∉ dumpNat n.natAbs := by
    intro hmem
    exact absurd (isDigit_of_mem_dumpNat hmem) (by decide)
  by_cases hneg : n < 0
  · simp [dumpInteger, hneg, hnat]
  · simp [dumpInteger, hneg, hnat]

theorem zero_notMem_dumpMember {member : List UInt8 × Value}
    {text : List UInt8} (htext : dumpMember member = some text) :
    0 ∉ text := by
  obtain ⟨key, value⟩ := member
  simp only [dumpMember, Option.bind_eq_some_iff, Option.map_eq_some_iff]
    at htext
  obtain ⟨keyText, hkey, valueText, hvalue, rfl⟩ := htext
  have hvalue0 : 0 ∉ valueText := by
    cases value with
    | string s => exact zero_notMem_dumpString hvalue
    | integer n =>
        obtain rfl := Option.some.inj hvalue
        exact zero_notMem_dumpInteger n
  simp [zero_notMem_dumpString hkey, hvalue0]

theorem zero_notMem_dumpRest {members : Members} {text : List UInt8}
    (htext : dumpRest members = some text) : 0 ∉ text := by
  induction members generalizing text with
  | nil =>
      obtain rfl := Option.some.inj htext
      simp
  | cons member members ih =>
      simp only [dumpRest, Option.bind_eq_some_iff, Option.map_eq_some_iff]
        at htext
      obtain ⟨memberText, hmember, tail, htail, rfl⟩ := htext
      simp [zero_notMem_dumpMember hmember, ih htail]

/-- The serializer escapes NUL characters. -/
theorem zero_notMem_dump {members : Members} {text : List UInt8}
    (htext : dump members = some text) : 0 ∉ text := by
  cases members with
  | nil =>
      obtain rfl := Option.some.inj htext
      decide
  | cons member members =>
      simp only [dump, Option.bind_eq_some_iff, Option.map_eq_some_iff]
        at htext
      obtain ⟨memberText, hmember, tail, htail, rfl⟩ := htext
      simp [zero_notMem_dumpMember hmember, zero_notMem_dumpRest htail]

/-! ## Members -/

/-- `operator[]`; `none` where the key is missing. -/
def lookup (key : List UInt8) : Members → Option Value
  | [] => none
  | member :: rest =>
      if member.1 = key then some member.2 else lookup key rest

/-- The conversion to a string; `none` where it throws. -/
def Value.toString : Value → Option (List UInt8)
  | .string s => some s
  | .integer _ => none

/-- The conversion to an integer; `none` where it throws. -/
def Value.toInteger : Value → Option ℤ
  | .string _ => none
  | .integer n => some n

end Json
