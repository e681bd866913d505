import RankingServer.Nlohmann.Serializer

/-!
# The text of a value

What the serializer is for, without its buffers and tables: strings in quotation
marks with the characters escaped that have to be, numbers by their decimal
digits, elements and members separated by commas.  `dump_eq` states that this is
what the serializer writes, and when it throws instead.
-/

universe u

namespace Nlohmann

open Json

variable {F : Type u}

def quoted (s : List UInt8) : List UInt8 := 34 :: s.flatMap escape ++ [34]

mutual

/-- The text of a value, given the texts of the floating-point numbers. -/
def Value.text (floatText : F → List UInt8) : Value F → List UInt8
  | .null => [110, 117, 108, 108]
  | .boolean true => [116, 114, 117, 101]
  | .boolean false => [102, 97, 108, 115, 101]
  | .numberInteger n => Json.dumpInteger n.toInt
  | .numberUnsigned n => Json.dumpInteger n.toNat
  | .numberFloat x => floatText x
  | .string s => quoted s
  | .array [] => [91, 93]
  | .array (v :: elements) =>
      91 :: (v.text floatText ++ elementsText floatText elements) ++ [93]
  | .object [] => [123, 125]
  | .object (member :: members) =>
      123 :: (memberText floatText member ++ membersText floatText members) ++
        [125]

def elementsText (floatText : F → List UInt8) :
    List (Value F) → List UInt8
  | [] => []
  | v :: elements =>
      44 :: (v.text floatText ++ elementsText floatText elements)

def membersText (floatText : F → List UInt8) :
    List (List UInt8 × Value F) → List UInt8
  | [] => []
  | member :: members =>
      44 :: (memberText floatText member ++ membersText floatText members)

def memberText (floatText : F → List UInt8) :
    List UInt8 × Value F → List UInt8
  | (key, v) => quoted key ++ 58 :: v.text floatText

end

mutual

/-- The strings and keys in a value. -/
def Value.strings : Value F → List (List UInt8)
  | .string s => [s]
  | .array elements => elementsStrings elements
  | .object members => membersStrings members
  | _ => []

def elementsStrings : List (Value F) → List (List UInt8)
  | [] => []
  | v :: elements => v.strings ++ elementsStrings elements

def membersStrings : List (List UInt8 × Value F) → List (List UInt8)
  | [] => []
  | member :: members => memberStrings member ++ membersStrings members

def memberStrings : List UInt8 × Value F → List (List UInt8)
  | (key, v) => key :: v.strings

end

/-- The text, if all these strings are well-formed UTF-8, and otherwise the
exception. -/
def ifWellFormed (strings : List (List UInt8)) (text : List UInt8) :
    Except Failure (List UInt8) :=
  if strings.all wellFormed then .ok text else .error .typeError316

/-- The exception is thrown at the first string that calls for it. -/
theorem ifWellFormed_append (strings strings' : List (List UInt8))
    (text text' : List UInt8) (f : List UInt8 → List UInt8 → List UInt8) :
    ((ifWellFormed strings text).bind fun a =>
        (ifWellFormed strings' text').map fun b => f a b) =
      ifWellFormed (strings ++ strings') (f text text') := by
  simp only [ifWellFormed, List.all_append]
  cases strings.all wellFormed with
  | false => rfl
  | true => cases strings'.all wellFormed <;> rfl

theorem dumpQuoted_eq_ifWellFormed (s : List UInt8) :
    dumpQuoted s = ifWellFormed [s] (quoted s) := by
  rw [dumpQuoted_eq, ifWellFormed]
  simp only [List.all_cons, List.all_nil, Bool.and_true]
  rfl

mutual

/-- `dump` writes the text of a value and never writes outside of its buffers.
It throws exactly for the values that contain a string or a key that is not
well-formed UTF-8. -/
theorem dump_eq (floatText : F → List UInt8) (v : Value F) :
    dump floatText v = ifWellFormed v.strings (v.text floatText) := by
  match v with
  | .null | .boolean true | .boolean false | .numberFloat x => rfl
  | .numberInteger n => exact dumpNumber_int64 n
  | .numberUnsigned n => exact dumpNumber_uint64 n
  | .string s => exact dumpQuoted_eq_ifWellFormed s
  | .array [] | .object [] => rfl
  | .array (v :: elements) =>
      rw [dump, dump_eq floatText v, dumpElements_eq floatText elements,
        ifWellFormed_append]
      rfl
  | .object (member :: members) =>
      rw [dump, dumpMember_eq floatText member,
        dumpMembers_eq floatText members, ifWellFormed_append]
      rfl

theorem dumpElements_eq (floatText : F → List UInt8)
    (elements : List (Value F)) :
    dumpElements floatText elements =
      ifWellFormed (elementsStrings elements)
        (elementsText floatText elements) := by
  match elements with
  | [] => rfl
  | v :: elements =>
      rw [dumpElements, dump_eq floatText v,
        dumpElements_eq floatText elements, ifWellFormed_append]
      rfl

theorem dumpMembers_eq (floatText : F → List UInt8)
    (members : List (List UInt8 × Value F)) :
    dumpMembers floatText members =
      ifWellFormed (membersStrings members)
        (membersText floatText members) := by
  match members with
  | [] => rfl
  | member :: members =>
      rw [dumpMembers, dumpMember_eq floatText member,
        dumpMembers_eq floatText members, ifWellFormed_append]
      rfl

theorem dumpMember_eq (floatText : F → List UInt8)
    (member : List UInt8 × Value F) :
    dumpMember floatText member =
      ifWellFormed (memberStrings member) (memberText floatText member) := by
  match member with
  | (key, v) =>
      rw [dumpMember, dumpQuoted_eq_ifWellFormed, dump_eq floatText v,
        ifWellFormed_append]
      rfl

end

/-- The serializer never leaves its buffers: it writes the plain text of every
value whose strings and keys are well-formed UTF-8, and throws for the others
only. -/
theorem dump_writes_text (floatText : F → List UInt8) (v : Value F) :
    dump floatText v ≠ .error .overflow ∧
      (dump floatText v = .error .typeError316 ↔
        ∃ s ∈ v.strings, wellFormed s = false) ∧
      ∀ text, dump floatText v = .ok text → text = v.text floatText := by
  rw [dump_eq, ifWellFormed]
  by_cases hall : v.strings.all wellFormed = true
  · rw [if_pos hall]
    refine ⟨by simp, ⟨by simp, ?_⟩, ?_⟩
    · rintro ⟨s, hs, hnot⟩
      rw [List.all_eq_true.mp hall s hs] at hnot
      cases hnot
    · intro text htext
      exact (Except.ok.inj htext).symm
  · rw [if_neg hall]
    refine ⟨by simp, ⟨?_, fun _ => rfl⟩, by simp⟩
    intro _
    simpa using hall

end Nlohmann
