import RankingServer.Foundation.Json

/-!
# Well-formed UTF-8 by characters

The decoder reads one byte at a time.  Between two characters it owes nothing;
inside of one it owes bytes that lie in given ranges.  A well-formed string is
therefore a sequence of characters, each of them a first byte followed by bytes
in the ranges that it calls for (`wellFormed_cons_iff`).
-/

namespace Json

/-- A range of bytes, both ends included. -/
abbrev ByteRange := UInt8 × UInt8

/-- The ranges of the bytes up to the end of the character. -/
def Utf8State.owed : Utf8State → Option (List ByteRange)
  | .accept => some []
  | .reject => none
  | .one => some [(0x80, 0xBF)]
  | .two => some [(0x80, 0xBF), (0x80, 0xBF)]
  | .three => some [(0x80, 0xBF), (0x80, 0xBF), (0x80, 0xBF)]
  | .afterE0 => some [(0xA0, 0xBF), (0x80, 0xBF)]
  | .afterED => some [(0x80, 0x9F), (0x80, 0xBF)]
  | .afterF0 => some [(0x90, 0xBF), (0x80, 0xBF), (0x80, 0xBF)]
  | .afterF4 => some [(0x80, 0x8F), (0x80, 0xBF), (0x80, 0xBF)]

/-- The bytes lie in the ranges, one in each. -/
def InRanges (ranges : List ByteRange) (bytes : List UInt8) : Prop :=
  List.Forall₂ (fun range b => range.1 ≤ b ∧ b ≤ range.2) ranges bytes

theorem foldl_decode_reject (s : List UInt8) :
    s.foldl Utf8State.decode .reject = .reject := by
  induction s with
  | nil => rfl
  | cons b s ih => exact ih

/-- A byte in the first range takes the decoder to the next one. -/
theorem owed_decode {state : Utf8State} {range : ByteRange}
    {ranges : List ByteRange} (howed : state.owed = some (range :: ranges))
    {b : UInt8} (hb : range.1 ≤ b ∧ b ≤ range.2) :
    (state.decode b).owed = some ranges := by
  cases state with
  | accept | reject => cases howed
  | one | two | three | afterE0 | afterED | afterF0 | afterF4 =>
      obtain ⟨rfl, rfl⟩ := List.cons.inj (Option.some.inj howed)
      rw [Utf8State.decode, Utf8State.expect, if_pos hb]
      rfl

theorem decode_eq_reject {state : Utf8State} {range : ByteRange}
    {ranges : List ByteRange} (howed : state.owed = some (range :: ranges))
    {b : UInt8} (hb : ¬ (range.1 ≤ b ∧ b ≤ range.2)) :
    state.decode b = .reject := by
  cases state with
  | accept | reject => cases howed
  | one | two | three | afterE0 | afterED | afterF0 | afterF4 =>
      obtain ⟨rfl, rfl⟩ := List.cons.inj (Option.some.inj howed)
      rw [Utf8State.decode, Utf8State.expect, if_neg hb]

theorem eq_accept_of_owed {state : Utf8State} (howed : state.owed = some []) :
    state = .accept := by
  cases state <;> first | rfl | cases howed

/-- What is owed is delivered before the next character starts. -/
theorem foldl_decode_iff {state : Utf8State} {ranges : List ByteRange}
    (howed : state.owed = some ranges) (s : List UInt8) :
    s.foldl Utf8State.decode state = .accept ↔
      ∃ tail rest, s = tail ++ rest ∧ InRanges ranges tail ∧
        wellFormed rest = true := by
  induction ranges generalizing state s with
  | nil =>
      obtain rfl := eq_accept_of_owed howed
      constructor
      · intro h
        exact ⟨[], s, rfl, .nil, decide_eq_true h⟩
      · rintro ⟨tail, rest, rfl, htail, hrest⟩
        cases htail
        exact of_decide_eq_true hrest
  | cons range ranges ih =>
      cases s with
      | nil =>
          constructor
          · rintro rfl
            cases howed
          · rintro ⟨tail, rest, hsplit, htail, -⟩
            cases htail
            cases hsplit
      | cons b s =>
          rw [List.foldl_cons]
          by_cases hb : range.1 ≤ b ∧ b ≤ range.2
          · rw [ih (owed_decode howed hb)]
            constructor
            · rintro ⟨tail, rest, rfl, htail, hrest⟩
              exact ⟨b :: tail, rest, rfl, .cons hb htail, hrest⟩
            · rintro ⟨tail, rest, hsplit, htail, hrest⟩
              cases htail with
              | cons _ htail =>
                  obtain ⟨rfl, rfl⟩ := List.cons.inj hsplit
                  exact ⟨_, rest, rfl, htail, hrest⟩
          · rw [decode_eq_reject howed hb, foldl_decode_reject]
            constructor
            · intro h
              cases h
            · rintro ⟨tail, rest, hsplit, htail, -⟩
              cases htail with
              | cons hin htail =>
                  obtain ⟨rfl, rfl⟩ := List.cons.inj hsplit
                  exact absurd hin hb

/-- A well-formed string starts with a character, and the rest is well-formed
again. -/
theorem wellFormed_cons_iff {b : UInt8} {s : List UInt8} :
    wellFormed (b :: s) = true ↔
      ∃ ranges, (Utf8State.accept.decode b).owed = some ranges ∧
        ∃ tail rest, s = tail ++ rest ∧ InRanges ranges tail ∧
          wellFormed rest = true := by
  rw [wellFormed, decide_eq_true_iff, List.foldl_cons]
  cases howed : (Utf8State.accept.decode b).owed with
  | none =>
      have hreject : Utf8State.accept.decode b = .reject := by
        cases hstate : Utf8State.accept.decode b <;> rw [hstate] at howed <;>
          first | rfl | cases howed
      rw [hreject, foldl_decode_reject]
      simp
  | some ranges =>
      rw [foldl_decode_iff howed]
      simp

theorem wellFormed_append {s t : List UInt8} (hs : wellFormed s = true)
    (ht : wellFormed t = true) : wellFormed (s ++ t) = true := by
  rw [wellFormed, decide_eq_true_iff] at *
  rw [List.foldl_append, hs, ht]

/-- One character is well-formed. -/
theorem wellFormed_character {b : UInt8} {ranges : List ByteRange}
    {tail : List UInt8}
    (howed : (Utf8State.accept.decode b).owed = some ranges)
    (htail : InRanges ranges tail) : wellFormed (b :: tail) = true :=
  wellFormed_cons_iff.mpr ⟨ranges, howed, tail, [], by simp, htail, rfl⟩

theorem wellFormed_ascii {b : UInt8} (hb : b ≤ 0x7F) :
    wellFormed [b] = true := by
  have howed : (Utf8State.accept.decode b).owed = some [] := by
    rw [Utf8State.decode, if_pos hb, Utf8State.owed]
  exact wellFormed_character howed .nil

/-- To prove something of all well-formed strings it is enough to prove it of
the empty one, and to add one character. -/
theorem wellFormed_induction {P : List UInt8 → Prop} (nil : P [])
    (character : ∀ b ranges tail rest,
      (Utf8State.accept.decode b).owed = some ranges →
        InRanges ranges tail → wellFormed rest = true → P rest →
          P (b :: tail ++ rest))
    {s : List UInt8} (hs : wellFormed s = true) : P s := by
  induction hlength : s.length using Nat.strong_induction_on
    generalizing s with
  | _ n ih =>
      cases s with
      | nil => exact nil
      | cons b s =>
          obtain ⟨ranges, howed, tail, rest, rfl, htail, hrest⟩ :=
            wellFormed_cons_iff.mp hs
          have hshorter : rest.length < n := by
            rw [← hlength, List.length_cons, List.length_append]
            omega
          exact character b ranges tail rest howed htail hrest
            (ih _ hshorter hrest rfl)

end Json
