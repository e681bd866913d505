import RankingServer.Foundation.Loop
import RankingServer.Nlohmann.Value

/-!
# The serializer

`serializer::dump` of `nlohmann::json`, called without arguments: no
indentation, no escapes for non-ASCII characters, and an exception for a string
that is not well-formed UTF-8.

The serializer writes through two buffers of fixed size.  Here a write behind
the end of one of them, or in front of its beginning, is a failure of its own,
and `dumpEscaped_eq` and `dumpInteger_eq` show that it never comes to that.
-/

universe u

namespace Nlohmann

open Json

/-- Why `dump` does not return a text: a write outside of a buffer, or the
exception `type_error` 316. -/
inductive Failure
  | overflow
  | typeError316
deriving DecidableEq, Repr

/-! ## Strings -/

/-- `string_buffer.size()` -/
def STRING_BUFFER_SIZE : ℕ := 512

def UTF8_ACCEPT : ℕ := 0

def UTF8_REJECT : ℕ := 1

/-- `utf8d`: the classes of the 256 bytes, and 16 transitions for each state. -/
def utf8d : List ℕ :=
  List.replicate 128 0 ++ List.replicate 16 1 ++ List.replicate 16 9 ++
    List.replicate 32 7 ++ [8, 8] ++ List.replicate 30 2 ++
    [0xA, 3, 3, 3, 3, 3, 3, 3, 3, 3, 3, 3, 3, 4, 3, 3] ++
    [0xB, 6, 6, 6, 5, 8, 8, 8, 8, 8, 8, 8, 8, 8, 8, 8] ++
    [0, 1, 2, 3, 5, 8, 7, 1, 1, 1, 4, 6, 1, 1, 1, 1] ++
    [1, 1, 1, 1, 1, 1, 1, 1, 1, 1, 1, 1, 1, 1, 1, 1] ++
    [1, 0, 1, 1, 1, 1, 1, 0, 1, 0, 1, 1, 1, 1, 1, 1] ++
    [1, 2, 1, 1, 1, 1, 1, 2, 1, 2, 1, 1, 1, 1, 1, 1] ++
    [1, 1, 1, 1, 1, 1, 1, 2, 1, 1, 1, 1, 1, 1, 1, 1] ++
    [1, 2, 1, 1, 1, 1, 1, 1, 1, 2, 1, 1, 1, 1, 1, 1] ++
    [1, 1, 1, 1, 1, 1, 1, 3, 1, 3, 1, 1, 1, 1, 1, 1] ++
    [1, 3, 1, 1, 1, 1, 1, 3, 1, 3, 1, 1, 1, 1, 1, 1] ++
    [1, 3, 1, 1, 1, 1, 1, 1, 1, 1, 1, 1, 1, 1, 1, 1]

/-- `decode`: the new state and the new code point. -/
def decode (state codep : ℕ) (byte : UInt8) : ℕ × ℕ :=
  let type := utf8d.getD byte.toNat 0
  (utf8d.getD (256 + state * 16 + type) 0,
    if state = UTF8_ACCEPT then (0xFF >>> type) &&& byte.toNat
    else (byte.toNat &&& 0x3F) ||| (codep <<< 6))

/-- The format `%04x`, for a `uint16_t`. -/
def hex4 (n : ℕ) : List UInt8 :=
  [hexDigit (n / 4096 % 16), hexDigit (n / 256 % 16), hexDigit (n / 16 % 16),
    hexDigit (n % 16)]

/-- What is stored for a code point whose last byte is `byte`, and whether a NUL
is stored behind it, as `snprintf` does. -/
def escaped (codepoint : ℕ) (byte : UInt8) : List UInt8 × ℕ :=
  if codepoint = 0x08 then ([92, 98], 0)
  else if codepoint = 0x09 then ([92, 116], 0)
  else if codepoint = 0x0A then ([92, 110], 0)
  else if codepoint = 0x0C then ([92, 102], 0)
  else if codepoint = 0x0D then ([92, 114], 0)
  else if codepoint = 0x22 then ([92, 34], 0)
  else if codepoint = 0x5C then ([92, 92], 0)
  else if codepoint ≤ 0x1F then (92 :: 117 :: hex4 codepoint, 1)
  else ([byte], 0)

/-- The locals of `dump_escaped`: what it has passed to the output adapter, the
first `bytes` bytes of `string_buffer`, the state and the code point. -/
structure Escaper where
  written : List UInt8
  buffer : List UInt8
  state : ℕ
  codepoint : ℕ

/-- Store bytes in `string_buffer`, and `terminator` more behind them. -/
def store (buffer added : List UInt8) (terminator : ℕ) :
    Except Failure (List UInt8) :=
  if buffer.length + added.length + terminator ≤ STRING_BUFFER_SIZE then
    .ok (buffer ++ added)
  else .error .overflow

/-- The buffer is passed on when it has less than 13 bytes left. -/
def Escaper.flush (e : Escaper) : Escaper :=
  if STRING_BUFFER_SIZE - e.buffer.length < 13 then
    { e with written := e.written ++ e.buffer, buffer := [] }
  else e

/-- The loop of `dump_escaped`, for one byte. -/
def Escaper.dump (e : Escaper) (byte : UInt8) : Except Failure Escaper :=
  let next := decode e.state e.codepoint byte
  if next.1 = UTF8_ACCEPT then
    (store e.buffer (escaped next.2 byte).1 (escaped next.2 byte).2).map
      fun buffer => Escaper.flush ⟨e.written, buffer, next.1, next.2⟩
  else if next.1 = UTF8_REJECT then .error .typeError316
  else
    (store e.buffer [byte] 0).map
      fun buffer => ⟨e.written, buffer, next.1, next.2⟩

/-- `dump_escaped` -/
def dumpEscaped (s : List UInt8) : Except Failure (List UInt8) :=
  (s.foldlM Escaper.dump ⟨[], [], UTF8_ACCEPT, 0⟩).bind fun e =>
    if e.state = UTF8_ACCEPT then .ok (e.written ++ e.buffer)
    else .error .typeError316

/-! ### The decoder -/

/-- The number of a state in `utf8d`. -/
def code : Utf8State → ℕ
  | .accept => 0
  | .reject => 1
  | .one => 2
  | .two => 3
  | .afterE0 => 4
  | .afterED => 5
  | .afterF0 => 6
  | .three => 7
  | .afterF4 => 8

theorem code_eq_accept_iff {state : Utf8State} :
    code state = UTF8_ACCEPT ↔ state = .accept := by
  cases state <;> simp [code, UTF8_ACCEPT]

theorem code_eq_reject_iff {state : Utf8State} :
    code state = UTF8_REJECT ↔ state = .reject := by
  cases state <;> simp [code, UTF8_REJECT]

/-- The tables agree with the decoder by ranges. -/
theorem decode_fst (state : Utf8State) (codep : ℕ) (byte : UInt8) :
    (decode (code state) codep byte).1 = code (state.decode byte) := by
  have htable : ∀ i : Fin 256, ∀ state : Utf8State,
      utf8d.getD (256 + code state * 16 + utf8d.getD i 0) 0 =
        code (state.decode (UInt8.ofFin i)) := by
    intro i state
    revert i
    cases state <;> decide +kernel
  exact htable byte.toFin state

/-- A bound for the code point read so far.  The states of the decoder exclude
overlong sequences, so that a character of several bytes is never an ASCII
character. -/
def leastCodepoint : Utf8State → ℕ
  | .accept | .reject | .afterE0 | .afterF0 => 0
  | .two | .three | .afterED | .afterF4 => 1
  | .one => 2

/-- The first byte of a character. -/
theorem decode_accept_snd (codep : ℕ) (byte : UInt8) :
    leastCodepoint (Utf8State.accept.decode byte) ≤
        (decode UTF8_ACCEPT codep byte).2 ∧
      (Utf8State.accept.decode byte = .accept →
        (decode UTF8_ACCEPT codep byte).2 = byte.toNat) := by
  have htable : ∀ i : Fin 256,
      leastCodepoint (Utf8State.accept.decode (UInt8.ofFin i)) ≤
          (0xFF >>> utf8d.getD i 0) &&& i.val ∧
        (Utf8State.accept.decode (UInt8.ofFin i) = .accept →
          (0xFF >>> utf8d.getD i 0) &&& i.val = i.val) := by
    decide +kernel
  exact htable byte.toFin

theorem six_bits_ge {byte : UInt8} (low : ℕ)
    (hlow : 128 + low ≤ byte.toNat) (hhigh : byte.toNat < 192) :
    low ≤ byte.toNat &&& 0x3F := by
  have htable : ∀ i : Fin 256, i.val < 192 → 128 ≤ i.val →
      i.val &&& 0x3F = i.val - 128 := by
    decide +kernel
  have hge : 128 ≤ byte.toNat := by omega
  have heq : byte.toNat &&& 0x3F = byte.toNat - 128 :=
    htable byte.toFin hhigh hge
  omega

/-- The bytes behind it. -/
theorem decode_snd_ge {state : Utf8State} {codep : ℕ} {byte : UInt8}
    (hstate : state ≠ .accept) (hcodep : leastCodepoint state ≤ codep)
    (hnext : state.decode byte ≠ .reject) :
    leastCodepoint (state.decode byte) ≤
        (decode (code state) codep byte).2 ∧
      (state.decode byte = .accept →
        128 ≤ (decode (code state) codep byte).2) := by
  have hne : code state ≠ UTF8_ACCEPT := fun h =>
    hstate (code_eq_accept_iff.mp h)
  have hsnd : (decode (code state) codep byte).2 =
      (byte.toNat &&& 0x3F) ||| (codep <<< 6) := by
    rw [decode, if_neg hne]
  have hshift : codep * 64 ≤ (byte.toNat &&& 0x3F) ||| (codep <<< 6) := by
    calc codep * 64 = codep <<< 6 := (Nat.shiftLeft_eq codep 6).symm
      _ ≤ (byte.toNat &&& 0x3F) ||| (codep <<< 6) := Nat.right_le_or
  have hbits : byte.toNat &&& 0x3F ≤
      (byte.toNat &&& 0x3F) ||| (codep <<< 6) := Nat.left_le_or
  rw [hsnd]
  cases state with
  | accept => exact absurd rfl hstate
  | reject => exact absurd rfl hnext
  | one | two | three | afterED | afterF4 =>
      rw [Utf8State.decode, Utf8State.expect] at hnext ⊢
      simp only [leastCodepoint] at hcodep
      split_ifs at hnext ⊢ with hin
      · simp only [leastCodepoint, false_imp_iff, true_imp_iff, and_true]
        omega
      · exact absurd rfl hnext
  | afterE0 | afterF0 =>
      rw [Utf8State.decode, Utf8State.expect] at hnext ⊢
      split_ifs at hnext ⊢ with hin
      · have hlow := UInt8.le_iff_toNat_le.mp hin.1
        have hhigh := UInt8.le_iff_toNat_le.mp hin.2
        have hsix := six_bits_ge 16 (le_trans (by decide) hlow)
          (lt_of_le_of_lt hhigh (by decide))
        simp only [leastCodepoint, false_imp_iff, and_true]
        omega
      · exact absurd rfl hnext

/-! ### The buffer -/

theorem escaped_ascii {byte : UInt8} (hbyte : byte ≤ 0x7F) :
    (escaped byte.toNat byte).1 = escape byte ∧
      (escaped byte.toNat byte).1.length +
        (escaped byte.toNat byte).2 ≤ 7 := by
  have htable : ∀ i : Fin 256, i.val < 128 →
      (escaped i.val (UInt8.ofFin i)).1 = escape (UInt8.ofFin i) ∧
        (escaped i.val (UInt8.ofFin i)).1.length +
          (escaped i.val (UInt8.ofFin i)).2 ≤ 7 := by
    decide +kernel
  have hlt : byte.toNat < 128 :=
    Nat.lt_succ_of_le (UInt8.le_iff_toNat_le.mp hbyte)
  exact htable byte.toFin hlt

theorem escaped_of_le {codepoint : ℕ} (h : 128 ≤ codepoint) (byte : UInt8) :
    escaped codepoint byte = ([byte], 0) := by
  rw [escaped]
  split_ifs <;> first | omega | rfl

theorem escape_of_not_ascii {byte : UInt8} (hbyte : 0x80 ≤ byte) :
    escape byte = [byte] := by
  have htable : ∀ i : Fin 256, 128 ≤ i.val →
      escape (UInt8.ofFin i) = [UInt8.ofFin i] := by
    decide +kernel
  exact htable byte.toFin (UInt8.le_iff_toNat_le.mp hbyte)

/-- How much of the buffer may be in use.  At least 13 bytes are left after a
character, and of the next one three bytes are stored before its last. -/
def bufferBound : Utf8State → ℕ
  | .accept | .reject => 499
  | .three | .afterF0 | .afterF4 => 500
  | .two | .afterE0 | .afterED => 501
  | .one => 502

/-- The loop of `dump_escaped` after the bytes in `read`. -/
structure Escaper.Running (e : Escaper) (state : Utf8State)
    (read : List UInt8) : Prop where
  state_eq : e.state = code state
  codepoint : leastCodepoint state ≤ e.codepoint
  text : e.written ++ e.buffer = read.flatMap escape
  bound : e.buffer.length ≤ bufferBound state

theorem store_eq_ok (buffer added : List UInt8) (terminator : ℕ)
    (h : buffer.length + added.length + terminator ≤ STRING_BUFFER_SIZE) :
    store buffer added terminator = .ok (buffer ++ added) :=
  if_pos h

/-- The end of a character. -/
theorem Escaper.Running.accept {e : Escaper} {state : Utf8State}
    {read : List UInt8} (h : e.Running state read) {byte : UInt8}
    (hnext : state.decode byte = .accept)
    (hstored : (escaped (decode e.state e.codepoint byte).2 byte).1 =
      escape byte)
    (hlength : (escaped (decode e.state e.codepoint byte).2 byte).1.length +
      (escaped (decode e.state e.codepoint byte).2 byte).2 ≤ 7) :
    ∃ e', e.dump byte = .ok e' ∧ e'.Running .accept (read ++ [byte]) := by
  have hstate : (decode e.state e.codepoint byte).1 = UTF8_ACCEPT := by
    rw [h.state_eq, decode_fst, hnext]
    rfl
  have hbound : e.buffer.length ≤ 502 := by
    refine h.bound.trans ?_
    cases state <;> decide
  have hstore := store_eq_ok e.buffer
    (escaped (decode e.state e.codepoint byte).2 byte).1
    (escaped (decode e.state e.codepoint byte).2 byte).2
    (by rw [STRING_BUFFER_SIZE]; omega)
  have htext : e.written ++ (e.buffer ++ escape byte) =
      (read ++ [byte]).flatMap escape := by
    rw [← List.append_assoc, h.text, List.flatMap_append,
      List.flatMap_singleton]
  rw [Escaper.dump, if_pos hstate, hstore, hstored]
  refine ⟨_, rfl, ?_⟩
  simp only [Escaper.flush]
  split_ifs with hfull
  · exact ⟨hstate, Nat.zero_le _, (List.append_nil _).trans htext,
      Nat.zero_le _⟩
  · refine ⟨hstate, Nat.zero_le _, htext, ?_⟩
    simp only [STRING_BUFFER_SIZE, bufferBound] at hfull ⊢
    omega

/-- A byte in the middle of a character. -/
theorem Escaper.Running.continue {e : Escaper} {state : Utf8State}
    {read : List UInt8} (h : e.Running state read) {byte : UInt8}
    (haccept : state.decode byte ≠ .accept)
    (hreject : state.decode byte ≠ .reject)
    (hcodepoint : leastCodepoint (state.decode byte) ≤
      (decode e.state e.codepoint byte).2)
    (hbyte : 0x80 ≤ byte)
    (hbound : bufferBound state + 1 ≤ bufferBound (state.decode byte)) :
    ∃ e', e.dump byte = .ok e' ∧
      e'.Running (state.decode byte) (read ++ [byte]) := by
  have hstate : (decode e.state e.codepoint byte).1 =
      code (state.decode byte) := by
    rw [h.state_eq, decode_fst]
  have hlength := h.bound
  have hroom : bufferBound state ≤ 502 := by
    cases state <;> decide
  have hstore := store_eq_ok e.buffer [byte] 0 (by
    rw [STRING_BUFFER_SIZE, List.length_singleton]
    omega)
  have hnot : (decode e.state e.codepoint byte).1 ≠ UTF8_ACCEPT := by
    rw [hstate]
    exact fun heq => haccept (code_eq_accept_iff.mp heq)
  have hnot' : (decode e.state e.codepoint byte).1 ≠ UTF8_REJECT := by
    rw [hstate]
    exact fun heq => hreject (code_eq_reject_iff.mp heq)
  rw [Escaper.dump, if_neg hnot, if_neg hnot', hstore]
  refine ⟨_, rfl, hstate, hcodepoint, ?_, ?_⟩
  · rw [← List.append_assoc, h.text, List.flatMap_append,
      List.flatMap_singleton, escape_of_not_ascii hbyte]
  · rw [List.length_append, List.length_singleton]
    omega

theorem bufferBound_decode {state : Utf8State} {byte : UInt8}
    (haccept : state.decode byte ≠ .accept)
    (hreject : state.decode byte ≠ .reject) :
    0x80 ≤ byte ∧ bufferBound state + 1 ≤ bufferBound (state.decode byte) := by
  have htable : ∀ i : Fin 256, ∀ state : Utf8State,
      state.decode (UInt8.ofFin i) ≠ .accept →
        state.decode (UInt8.ofFin i) ≠ .reject →
          (0x80 : UInt8) ≤ UInt8.ofFin i ∧
            bufferBound state + 1 ≤
              bufferBound (state.decode (UInt8.ofFin i)) := by
    intro i state
    revert i
    cases state <;> decide +kernel
  exact htable byte.toFin state haccept hreject

theorem ascii_of_decode_accept {byte : UInt8}
    (h : Utf8State.accept.decode byte = .accept) : byte ≤ 0x7F := by
  have htable : ∀ i : Fin 256,
      Utf8State.accept.decode (UInt8.ofFin i) = .accept →
        UInt8.ofFin i ≤ (0x7F : UInt8) := by
    decide +kernel
  exact htable byte.toFin h

theorem not_ascii_of_decode {state : Utf8State} {byte : UInt8}
    (hstate : state ≠ .accept) (h : state.decode byte ≠ .reject) :
    0x80 ≤ byte := by
  have htable : ∀ i : Fin 256, ∀ state : Utf8State, state ≠ .accept →
      state.decode (UInt8.ofFin i) ≠ .reject →
        (0x80 : UInt8) ≤ UInt8.ofFin i := by
    intro i state
    revert i
    cases state <;> decide +kernel
  exact htable byte.toFin state hstate h

/-- One pass of the loop: it goes on as long as the decoder does not reject. -/
theorem Escaper.Running.dump {e : Escaper} {state : Utf8State}
    {read : List UInt8} (h : e.Running state read) {byte : UInt8}
    (hreject : state.decode byte ≠ .reject) :
    ∃ e', e.dump byte = .ok e' ∧
      e'.Running (state.decode byte) (read ++ [byte]) := by
  by_cases hstart : state = .accept
  · subst hstart
    obtain ⟨hleast, hascii⟩ := decode_accept_snd e.codepoint byte
    rw [← show e.state = UTF8_ACCEPT from h.state_eq] at hleast hascii
    by_cases haccept : Utf8State.accept.decode byte = .accept
    · obtain ⟨hstored, hlength⟩ :=
        escaped_ascii (ascii_of_decode_accept haccept)
      rw [haccept]
      apply h.accept haccept
      · rw [hascii haccept, hstored]
      · rw [hascii haccept]
        exact hlength
    · obtain ⟨hbyte, hbound⟩ := bufferBound_decode haccept hreject
      exact h.continue haccept hreject hleast hbyte hbound
  · obtain ⟨hleast, hlarge⟩ := decode_snd_ge hstart h.codepoint hreject
    rw [← h.state_eq] at hleast hlarge
    by_cases haccept : state.decode byte = .accept
    · have hstored := escaped_of_le (hlarge haccept) byte
      rw [haccept]
      apply h.accept haccept
      · rw [hstored, escape_of_not_ascii (not_ascii_of_decode hstart hreject)]
      · rw [hstored]
        exact (by decide : 1 + 0 ≤ 7)
    · obtain ⟨hbyte, hbound⟩ := bufferBound_decode haccept hreject
      exact h.continue haccept hreject hleast hbyte hbound

theorem Escaper.Running.dump_reject {e : Escaper} {state : Utf8State}
    {read : List UInt8} (h : e.Running state read) {byte : UInt8}
    (hreject : state.decode byte = .reject) :
    e.dump byte = .error .typeError316 := by
  have hstate : (decode e.state e.codepoint byte).1 = UTF8_REJECT := by
    rw [h.state_eq, decode_fst, hreject]
    rfl
  have hnot : (decode e.state e.codepoint byte).1 ≠ UTF8_ACCEPT := by
    rw [hstate]
    decide
  rw [Escaper.dump, if_neg hnot, if_pos hstate]

/-- The whole loop. -/
theorem Escaper.Running.foldlM {e : Escaper} {state : Utf8State}
    {read : List UInt8} (h : e.Running state read) (s : List UInt8)
    (hstate : state ≠ .reject) :
    (s.foldl Utf8State.decode state = .reject ∧
      s.foldlM Escaper.dump e = .error .typeError316) ∨
    ∃ e', s.foldlM Escaper.dump e = .ok e' ∧
      e'.Running (s.foldl Utf8State.decode state) (read ++ s) := by
  induction s generalizing e state read with
  | nil =>
      refine .inr ⟨e, rfl, ?_⟩
      rwa [List.append_nil]
  | cons byte s ih =>
      by_cases hreject : state.decode byte = .reject
      · refine .inl ⟨?_, ?_⟩
        · rw [List.foldl_cons, hreject, foldl_decode_reject]
        · rw [List.foldlM_cons, h.dump_reject hreject]
          rfl
      · obtain ⟨e', hdump, hrunning⟩ := h.dump hreject
        have hrest := ih hrunning hreject
        rw [List.append_assoc, List.singleton_append] at hrest
        rw [List.foldl_cons, List.foldlM_cons, hdump]
        exact hrest

/-- `dump_escaped` writes each byte in its escaped form and stays inside of its
buffer; it throws exactly for strings that are not well-formed. -/
theorem dumpEscaped_eq (s : List UInt8) :
    dumpEscaped s =
      if wellFormed s then .ok (s.flatMap escape)
      else .error .typeError316 := by
  have hstart : Escaper.Running ⟨[], [], UTF8_ACCEPT, 0⟩ .accept [] :=
    ⟨rfl, Nat.zero_le _, rfl, Nat.zero_le _⟩
  rw [dumpEscaped, wellFormed]
  rcases hstart.foldlM s (by decide) with ⟨hreject, hloop⟩ |
    ⟨e, hloop, hrunning⟩
  · rw [hloop, hreject]
    rfl
  · rw [hloop, Except.bind, hrunning.state_eq]
    by_cases haccept : s.foldl Utf8State.decode .accept = .accept
    · rw [if_pos (code_eq_accept_iff.mpr haccept), haccept, hrunning.text]
      rfl
    · have hnot := fun h => haccept (code_eq_accept_iff.mp h)
      rw [if_neg hnot, if_neg (by simpa using haccept)]

/-! ## Integers -/

/-- `number_buffer.size()` -/
def NUMBER_BUFFER_SIZE : ℕ := 64

/-- The loop of `count_digits`, on the number and the digits counted. -/
def countDigitsPass : ℕ × ℕ → (ℕ × ℕ) ⊕ ℕ
  | (x, n_digits) =>
      if x < 10 then .inr n_digits
      else if x < 100 then .inr (n_digits + 1)
      else if x < 1000 then .inr (n_digits + 2)
      else if x < 10000 then .inr (n_digits + 3)
      else .inl (x / 10000, n_digits + 4)

theorem countDigits_decreases (s t : ℕ × ℕ)
    (h : countDigitsPass s = .inl t) : t.1 < s.1 := by
  obtain ⟨x, n_digits⟩ := s
  simp only [countDigitsPass] at h
  split_ifs at h
  obtain rfl := Sum.inl.inj h
  change x / 10000 < x
  omega

def countDigitsLoop : Loop (ℕ × ℕ) ℕ :=
  ⟨countDigitsPass, Prod.fst, countDigits_decreases⟩

/-- `count_digits` -/
def countDigits (x : ℕ) : ℕ := countDigitsLoop.result (x, 1)

/-- `remove_sign` -/
def removeSign (x : ℤ) : ℕ := (-(x + 1)).toNat + 1

/-- `digits_to_99` -/
def digitsTo99 (index : ℕ) : UInt8 × UInt8 :=
  (digit (index / 10), digit (index % 10))

/-- The locals of `dump_integer` that its loop changes. -/
structure DigitWriter where
  absValue : ℕ
  bufferPtr : ℕ
  numberBuffer : List UInt8

/-- `*(--buffer_ptr) = c` -/
def DigitWriter.put (w : DigitWriter) (c : UInt8) :
    Except Failure DigitWriter :=
  if 0 < w.bufferPtr ∧ w.bufferPtr ≤ w.numberBuffer.length then
    .ok { w with
      bufferPtr := w.bufferPtr - 1
      numberBuffer := w.numberBuffer.set (w.bufferPtr - 1) c }
  else .error .overflow

/-- Both digits of an entry of the table, the second one first. -/
def DigitWriter.putPair (w : DigitWriter) (index : ℕ) :
    Except Failure DigitWriter :=
  (w.put (digitsTo99 index).2).bind fun w => w.put (digitsTo99 index).1

/-- The loop of `dump_integer`: two digits in each pass. -/
def dumpIntegerPass (w : DigitWriter) :
    DigitWriter ⊕ Except Failure DigitWriter :=
  if 100 ≤ w.absValue then
    match { w with absValue := w.absValue / 100 }.putPair (w.absValue % 100)
    with
    | .ok w => .inl w
    | .error failure => .inr (.error failure)
  else .inr (.ok w)

theorem DigitWriter.absValue_put {w w' : DigitWriter} {c : UInt8}
    (h : w.put c = .ok w') : w'.absValue = w.absValue := by
  rw [DigitWriter.put] at h
  split_ifs at h
  exact (Except.ok.inj h) ▸ rfl

theorem DigitWriter.absValue_putPair {w w' : DigitWriter} {index : ℕ}
    (h : w.putPair index = .ok w') : w'.absValue = w.absValue := by
  rw [DigitWriter.putPair] at h
  cases hfirst : w.put (digitsTo99 index).2 with
  | error failure =>
      rw [hfirst] at h
      cases h
  | ok w₁ =>
      rw [hfirst] at h
      exact (absValue_put h).trans (absValue_put hfirst)

theorem dumpInteger_decreases (s t : DigitWriter)
    (h : dumpIntegerPass s = .inl t) : t.absValue < s.absValue := by
  rw [dumpIntegerPass] at h
  split_ifs at h with hlarge
  split at h
  · next w hw =>
      obtain rfl := Sum.inl.inj h
      rw [DigitWriter.absValue_putPair hw]
      change s.absValue / 100 < s.absValue
      omega
  · cases h

def dumpIntegerLoop : Loop DigitWriter (Except Failure DigitWriter) :=
  ⟨dumpIntegerPass, DigitWriter.absValue, dumpInteger_decreases⟩

/-- `dump_integer`, with what `number_buffer` held before. -/
def dumpInteger (numberBuffer : List UInt8) (x : ℤ) :
    Except Failure (List UInt8) :=
  if x = 0 then .ok [48]
  else
    let absValue := if x < 0 then removeSign x else x.toNat
    let nChars :=
      if x < 0 then 1 + countDigits absValue else countDigits absValue
    let numberBuffer := if x < 0 then numberBuffer.set 0 45 else numberBuffer
    (dumpIntegerLoop.result ⟨absValue, nChars, numberBuffer⟩).bind fun w =>
      (if 10 ≤ w.absValue then w.putPair w.absValue
        else w.put (digit w.absValue)).map fun w => w.numberBuffer.take nChars

/-! ### The digits -/

theorem dumpNat_of_ten_le {x : ℕ} (h : 10 ≤ x) :
    dumpNat x = dumpNat (x / 10) ++ [digit (x % 10)] := by
  have hx : x ≠ 0 := by omega
  have hquotient : x / 10 ≠ 0 := by omega
  rw [dumpNat, if_neg hx, dumpNat, if_neg hquotient,
    Nat.digits_def' (by decide) (Nat.pos_of_ne_zero hx), List.reverse_cons,
    List.map_append, List.map_singleton]

theorem dumpNat_of_lt_ten {x : ℕ} (h : x < 10) : dumpNat x = [digit x] := by
  interval_cases x <;> rfl

theorem length_dumpNat_of_ten_le {x : ℕ} (h : 10 ≤ x) :
    (dumpNat x).length = (dumpNat (x / 10)).length + 1 := by
  rw [dumpNat_of_ten_le h, List.length_append, List.length_singleton]

theorem length_dumpNat_of_lt_ten {x : ℕ} (h : x < 10) :
    (dumpNat x).length = 1 := by
  rw [dumpNat_of_lt_ten h, List.length_singleton]

theorem length_dumpNat_of_le_of_lt {x k : ℕ} (hle : 10 ^ k ≤ x)
    (hlt : x < 10 ^ (k + 1)) : (dumpNat x).length = k + 1 := by
  induction k generalizing x with
  | zero => exact length_dumpNat_of_lt_ten hlt
  | succ k ih =>
      have hten : 10 ≤ x := by
        have hpos := Nat.one_le_pow k 10 (by decide)
        rw [pow_succ] at hle
        omega
      rw [length_dumpNat_of_ten_le hten, ih]
      · rw [pow_succ] at hle
        omega
      · rw [pow_succ] at hlt
        omega

theorem length_dumpNat_div {x : ℕ} (h : 10000 ≤ x) :
    (dumpNat x).length = (dumpNat (x / 10000)).length + 4 := by
  rw [length_dumpNat_of_ten_le (by omega), length_dumpNat_of_ten_le (by omega),
    length_dumpNat_of_ten_le (by omega), length_dumpNat_of_ten_le (by omega)]
  simp only [Nat.div_div_eq_div_mul]

/-- `count_digits` takes four digits at a time. -/
theorem countDigits_eq (x : ℕ) : countDigits x = (dumpNat x).length := by
  have hcount : countDigitsLoop.result (x, 1) + 1 =
      1 + (dumpNat x).length := by
    refine countDigitsLoop.induction
      (P := fun s r => r + 1 = s.2 + (dumpNat s.1).length) ?_ ?_ (x, 1)
    · rintro ⟨x, n_digits⟩ r hpass
      simp only [countDigitsLoop, countDigitsPass] at hpass
      split_ifs at hpass with h1 h2 h3 h4
      · obtain rfl := Sum.inr.inj hpass
        rw [length_dumpNat_of_lt_ten h1]
      · obtain rfl := Sum.inr.inj hpass
        rw [length_dumpNat_of_le_of_lt (k := 1) (by omega) h2]
      · obtain rfl := Sum.inr.inj hpass
        rw [length_dumpNat_of_le_of_lt (k := 2) (by omega) h3]
      · obtain rfl := Sum.inr.inj hpass
        rw [length_dumpNat_of_le_of_lt (k := 3) (by omega) h4]
    · rintro ⟨x, n_digits⟩ t hpass ih
      simp only [countDigitsLoop, countDigitsPass] at hpass
      split_ifs at hpass with h1 h2 h3 h4
      obtain rfl := Sum.inl.inj hpass
      have hlength := length_dumpNat_div (Nat.le_of_not_lt h4)
      change _ + 1 = n_digits + 4 + (dumpNat (x / 10000)).length at ih
      change _ + 1 = n_digits + (dumpNat x).length
      omega
  exact Nat.add_right_cancel (hcount.trans (Nat.add_comm _ _))

theorem removeSign_eq {x : ℤ} (h : x < 0) : removeSign x = x.natAbs := by
  rw [removeSign]
  omega

/-! ### The number buffer -/

/-- The writer has `text` behind its pointer, up to `n`, and has left the bytes
before `start` alone. -/
structure DigitWriter.Holds (w : DigitWriter) (original : List UInt8)
    (start n : ℕ) (text : List UInt8) : Prop where
  length : w.numberBuffer.length = original.length
  front : w.numberBuffer.take start = original.take start
  behind : (w.numberBuffer.take n).drop w.bufferPtr = text
  inside : w.bufferPtr ≤ n

theorem drop_set_self {l : List UInt8} {i : ℕ} (h : i < l.length)
    (c : UInt8) : (l.set i c).drop i = c :: l.drop (i + 1) := by
  rw [List.drop_set, if_neg (lt_irrefl i), Nat.sub_self,
    List.drop_eq_getElem_cons h, List.set_cons_zero]

/-- A digit is put in front of those that are there. -/
theorem DigitWriter.Holds.put {w : DigitWriter} {original : List UInt8}
    {start n : ℕ} {text : List UInt8} (h : w.Holds original start n text)
    (hn : n ≤ original.length) (hstart : start < w.bufferPtr) (c : UInt8) :
    ∃ w', w.put c = .ok w' ∧ w'.absValue = w.absValue ∧
      w'.bufferPtr + 1 = w.bufferPtr ∧
        w'.Holds original start n (c :: text) := by
  obtain ⟨hlength, hfront, hbehind, hinside⟩ := h
  obtain ⟨i, hi⟩ := Nat.exists_eq_add_of_lt hstart
  have hptr : w.bufferPtr - 1 = start + i := by omega
  have hroom : 0 < w.bufferPtr ∧ w.bufferPtr ≤ w.numberBuffer.length := by
    omega
  refine ⟨_, if_pos hroom, rfl, Nat.sub_add_cancel hroom.1, ?_, ?_, ?_, ?_⟩
  · rw [List.length_set, hlength]
  · rw [hptr, List.take_set_of_le (Nat.le_add_right _ _), hfront]
  · have hlt : w.bufferPtr - 1 < (w.numberBuffer.take n).length := by
      rw [List.length_take]
      omega
    rw [List.take_set, drop_set_self hlt, Nat.sub_add_cancel hroom.1, hbehind]
  · exact (Nat.sub_le _ _).trans hinside

theorem DigitWriter.Holds.putPair {w : DigitWriter} {original : List UInt8}
    {start n : ℕ} {text : List UInt8} (h : w.Holds original start n text)
    (hn : n ≤ original.length) (hstart : start + 1 < w.bufferPtr)
    (index : ℕ) :
    ∃ w', w.putPair index = .ok w' ∧ w'.absValue = w.absValue ∧
      w'.bufferPtr + 2 = w.bufferPtr ∧
        w'.Holds original start n
          (digit (index / 10) :: digit (index % 10) :: text) := by
  obtain ⟨w₁, hput₁, habs₁, hptr₁, hholds₁⟩ :=
    h.put hn (by omega) (digit (index % 10))
  obtain ⟨w₂, hput₂, habs₂, hptr₂, hholds₂⟩ :=
    hholds₁.put hn (by omega) (digit (index / 10))
  refine ⟨w₂, ?_, habs₂.trans habs₁, by omega, hholds₂⟩
  rw [DigitWriter.putPair, digitsTo99, hput₁]
  exact hput₂

/-- The digits of what is left of the number and those behind the pointer are
the digits of the number, and they just fit. -/
structure DigitWriter.Running (w : DigitWriter) (original : List UInt8)
    (start n x : ℕ) (text : List UInt8) : Prop where
  holds : w.Holds original start n text
  pos : 0 < w.absValue
  ptr : w.bufferPtr = start + (dumpNat w.absValue).length
  digits : dumpNat w.absValue ++ text = dumpNat x

theorem dumpNat_of_hundred_le {x : ℕ} (h : 100 ≤ x) :
    dumpNat x =
      dumpNat (x / 100) ++ [digit (x % 100 / 10), digit (x % 100 % 10)] := by
  have hten : 10 ≤ x / 10 := by omega
  have hmod : x / 10 % 10 = x % 100 / 10 := by omega
  have hmod' : x % 10 = x % 100 % 10 := by omega
  rw [dumpNat_of_ten_le (by omega), dumpNat_of_ten_le hten,
    Nat.div_div_eq_div_mul, hmod, hmod', List.append_assoc]
  rfl

/-- Two digits go from the number to the buffer. -/
theorem DigitWriter.Running.putPair {w : DigitWriter}
    {original : List UInt8} {start n x : ℕ} {text : List UInt8}
    (h : w.Running original start n x text) (hn : n ≤ original.length)
    (hlarge : 100 ≤ w.absValue) :
    ∃ w' text',
      { w with absValue := w.absValue / 100 }.putPair (w.absValue % 100) =
          .ok w' ∧ w'.Running original start n x text' := by
  obtain ⟨hholds, hpos, hptr, hdigits⟩ := h
  have hsplit := dumpNat_of_hundred_le hlarge
  have hlength : (dumpNat w.absValue).length =
      (dumpNat (w.absValue / 100)).length + 2 := by
    rw [hsplit, List.length_append]
    rfl
  have hdivided : DigitWriter.Holds { w with absValue := w.absValue / 100 }
      original start n text :=
    ⟨hholds.length, hholds.front, hholds.behind, hholds.inside⟩
  have hroom : start + 1 < w.bufferPtr := by omega
  obtain ⟨w', hput, habs, hptr', hholds'⟩ :=
    hdivided.putPair hn hroom (w.absValue % 100)
  simp only at habs hptr'
  refine ⟨w', _, hput, hholds', ?_, ?_, ?_⟩
  · rw [habs]
    omega
  · rw [habs]
    omega
  · rw [habs, ← hdigits, hsplit, List.append_assoc]
    rfl

/-- The loop leaves a number below 100. -/
theorem dumpIntegerLoop_result {w : DigitWriter} {original : List UInt8}
    {start n x : ℕ} {text : List UInt8}
    (h : w.Running original start n x text) (hn : n ≤ original.length) :
    ∃ w' text', dumpIntegerLoop.result w = .ok w' ∧ w'.absValue < 100 ∧
      w'.Running original start n x text' := by
  refine dumpIntegerLoop.invariant
    (I := fun w => ∃ text, w.Running original start n x text)
    (P := fun r => ∃ w' text', r = .ok w' ∧ w'.absValue < 100 ∧
      w'.Running original start n x text') ?_ ?_ ⟨text, h⟩
  · rintro w w' ⟨text, hrunning⟩ hpass
    simp only [dumpIntegerLoop, dumpIntegerPass] at hpass
    split_ifs at hpass with hlarge
    obtain ⟨w₁, text', hput, hrunning'⟩ := hrunning.putPair hn hlarge
    rw [hput] at hpass
    obtain rfl := Sum.inl.inj hpass
    exact ⟨text', hrunning'⟩
  · rintro w r ⟨text, hrunning⟩ hpass
    simp only [dumpIntegerLoop, dumpIntegerPass] at hpass
    split_ifs at hpass with hlarge
    · obtain ⟨w₁, text', hput, -⟩ := hrunning.putPair hn hlarge
      rw [hput] at hpass
      cases hpass
    · obtain rfl := Sum.inr.inj hpass
      exact ⟨w, text, rfl, Nat.lt_of_not_le hlarge, hrunning⟩

/-- The last one or two digits. -/
theorem DigitWriter.Running.finish {w : DigitWriter}
    {original : List UInt8} {start n x : ℕ} {text : List UInt8}
    (h : w.Running original start n x text) (hn : n ≤ original.length)
    (hsmall : w.absValue < 100) :
    ∃ w', (if 10 ≤ w.absValue then w.putPair w.absValue
        else w.put (digit w.absValue)) = .ok w' ∧ w'.bufferPtr = start ∧
      w'.Holds original start n (dumpNat x) := by
  obtain ⟨hholds, hpos, hptr, hdigits⟩ := h
  split_ifs with hten
  · have hpair : dumpNat w.absValue =
        [digit (w.absValue / 10), digit (w.absValue % 10)] := by
      rw [dumpNat_of_ten_le hten, dumpNat_of_lt_ten (by omega)]
      rfl
    rw [hpair] at hptr hdigits
    simp only [List.length_cons, List.length_nil] at hptr
    obtain ⟨w', hput, -, hptr', hholds'⟩ :=
      hholds.putPair hn (by omega) w.absValue
    exact ⟨w', hput, by omega, hdigits ▸ hholds'⟩
  · rw [dumpNat_of_lt_ten (Nat.lt_of_not_le hten)] at hptr hdigits
    rw [List.length_singleton] at hptr
    obtain ⟨w', hput, -, hptr', hholds'⟩ :=
      hholds.put hn (by omega) (digit w.absValue)
    exact ⟨w', hput, by omega, hdigits ▸ hholds'⟩

/-- All digits of a number, behind the first `start` bytes of the buffer. -/
theorem dumpInteger_digits {x : ℕ} (hpos : 0 < x) (buffer : List UInt8)
    (start : ℕ) (hroom : start + (dumpNat x).length ≤ buffer.length) :
    ((dumpIntegerLoop.result
        ⟨x, start + (dumpNat x).length, buffer⟩).bind fun w =>
      (if 10 ≤ w.absValue then w.putPair w.absValue
        else w.put (digit w.absValue)).map fun w =>
          w.numberBuffer.take (start + (dumpNat x).length)) =
      .ok (buffer.take start ++ dumpNat x) := by
  have hstart : DigitWriter.Running
      ⟨x, start + (dumpNat x).length, buffer⟩ buffer start
      (start + (dumpNat x).length) x [] := by
    refine ⟨⟨rfl, rfl, ?_, le_rfl⟩, hpos, rfl, List.append_nil _⟩
    rw [List.drop_eq_nil_iff, List.length_take]
    exact Nat.min_le_left _ _
  obtain ⟨w, text, hloop, hsmall, hrunning⟩ :=
    dumpIntegerLoop_result hstart hroom
  obtain ⟨w', hput, hptr, hholds⟩ := hrunning.finish hroom hsmall
  have hbehind := hholds.behind
  rw [hptr] at hbehind
  have hfront : (w'.numberBuffer.take (start + (dumpNat x).length)).take
      start = buffer.take start := by
    rw [List.take_take, Nat.min_eq_left (Nat.le_add_right _ _), hholds.front]
  have htext : w'.numberBuffer.take (start + (dumpNat x).length) =
      buffer.take start ++ dumpNat x :=
    calc
      _ = _ ++ _ := (List.take_append_drop start _).symm
      _ = buffer.take start ++ dumpNat x := by rw [hfront, hbehind]
  rw [hloop]
  change Except.map _ (if 10 ≤ w.absValue then _ else _) = _
  rw [hput, Except.map, htext]

/-- The 64-bit numbers have at most twenty digits. -/
theorem length_dumpNat_le {x : ℕ} (h : x < 2 ^ 64) :
    (dumpNat x).length ≤ 20 := by
  rw [dumpNat]
  split_ifs
  · decide
  · rw [List.length_map, List.length_reverse]
    exact (Nat.digits_length_le_iff (by decide) x).mpr (by omega)

/-- `dump_integer` writes the decimal digits of a number, whatever was left in
its buffer, and stays inside of it. -/
theorem dumpInteger_eq {numberBuffer : List UInt8}
    (hbuffer : numberBuffer.length = NUMBER_BUFFER_SIZE) {x : ℤ}
    (hlow : -2 ^ 63 ≤ x) (hhigh : x < 2 ^ 64) :
    dumpInteger numberBuffer x = .ok (Json.dumpInteger x) := by
  by_cases hzero : x = 0
  · subst hzero
    rfl
  have hlength : (dumpNat x.natAbs).length ≤ 20 :=
    length_dumpNat_le (by omega)
  have hpos : 0 < x.natAbs := by omega
  by_cases hneg : x < 0
  · have hdigits := dumpInteger_digits hpos (numberBuffer.set 0 45) 1
      (by rw [List.length_set, hbuffer, NUMBER_BUFFER_SIZE]; omega)
    have hsign : (numberBuffer.set 0 45).take 1 = [45] := by
      cases numberBuffer with
      | nil => cases hbuffer
      | cons b numberBuffer => rfl
    rw [hsign] at hdigits
    simp only [dumpInteger, hzero, hneg, if_true, if_false, removeSign_eq hneg,
      countDigits_eq]
    rw [hdigits, Json.dumpInteger, if_pos hneg]
    rfl
  · have hdigits := dumpInteger_digits hpos numberBuffer 0
      (by rw [hbuffer, NUMBER_BUFFER_SIZE]; omega)
    have habs : x.toNat = x.natAbs := by omega
    rw [Nat.zero_add] at hdigits
    simp only [dumpInteger, hzero, hneg, if_false, habs, countDigits_eq]
    rw [hdigits, Json.dumpInteger, if_neg hneg]
    rfl

/-! ## Values -/

variable {F : Type u}

/-- A string or a key in quotation marks. -/
def dumpQuoted (s : List UInt8) : Except Failure (List UInt8) :=
  (dumpEscaped s).map fun text => 34 :: text ++ [34]

/-- `dump_integer` with the buffer as it was constructed.  What later calls find
in it does not matter, by `dumpInteger_eq`. -/
def dumpNumber (x : ℤ) : Except Failure (List UInt8) :=
  dumpInteger (List.replicate NUMBER_BUFFER_SIZE 0) x

mutual

/-- `dump`.  The conversion of floating-point numbers is a parameter. -/
def dump (dumpFloat : F → List UInt8) :
    Value F → Except Failure (List UInt8)
  | .object [] => .ok [123, 125]
  | .object (member :: members) =>
      (dumpMember dumpFloat member).bind fun text =>
        (dumpMembers dumpFloat members).map fun rest =>
          123 :: (text ++ rest) ++ [125]
  | .array [] => .ok [91, 93]
  | .array (v :: elements) =>
      (dump dumpFloat v).bind fun text =>
        (dumpElements dumpFloat elements).map fun rest =>
          91 :: (text ++ rest) ++ [93]
  | .string s => dumpQuoted s
  | .boolean true => .ok [116, 114, 117, 101]
  | .boolean false => .ok [102, 97, 108, 115, 101]
  | .numberInteger n => dumpNumber n.toInt
  | .numberUnsigned n => dumpNumber n.toNat
  | .numberFloat x => .ok (dumpFloat x)
  | .null => .ok [110, 117, 108, 108]

/-- The elements behind the first one, each behind a comma. -/
def dumpElements (dumpFloat : F → List UInt8) :
    List (Value F) → Except Failure (List UInt8)
  | [] => .ok []
  | v :: elements =>
      (dump dumpFloat v).bind fun text =>
        (dumpElements dumpFloat elements).map fun rest => 44 :: (text ++ rest)

/-- The members behind the first one, each behind a comma. -/
def dumpMembers (dumpFloat : F → List UInt8) :
    List (List UInt8 × Value F) → Except Failure (List UInt8)
  | [] => .ok []
  | member :: members =>
      (dumpMember dumpFloat member).bind fun text =>
        (dumpMembers dumpFloat members).map fun rest => 44 :: (text ++ rest)

def dumpMember (dumpFloat : F → List UInt8) :
    List UInt8 × Value F → Except Failure (List UInt8)
  | (key, v) =>
      (dumpQuoted key).bind fun quoted =>
        (dump dumpFloat v).map fun text => quoted ++ 58 :: text

end

theorem dumpQuoted_eq (s : List UInt8) :
    dumpQuoted s =
      if wellFormed s then .ok (34 :: s.flatMap escape ++ [34])
      else .error .typeError316 := by
  rw [dumpQuoted, dumpEscaped_eq]
  split_ifs <;> rfl

theorem dumpNumber_eq {x : ℤ} (hlow : -2 ^ 63 ≤ x) (hhigh : x < 2 ^ 64) :
    dumpNumber x = .ok (Json.dumpInteger x) :=
  dumpInteger_eq (List.length_replicate ..) hlow hhigh

theorem dumpNumber_int64 (n : Int64) :
    dumpNumber n.toInt = .ok (Json.dumpInteger n.toInt) := by
  apply dumpNumber_eq n.le_toInt
  have hlt := n.toInt_lt
  omega

theorem dumpNumber_uint64 (n : UInt64) :
    dumpNumber n.toNat = .ok (Json.dumpInteger n.toNat) := by
  have hlt := n.toNat_lt
  apply dumpNumber_eq <;> omega

end Nlohmann
