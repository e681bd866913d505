import RankingServer.Foundation.Utf8

/-!
# JSON values

`nlohmann::json` without binary values, which no text stands for.  A string is a
`std::string`, an object a `std::map` from strings to values, listed in the
order of its keys, and the integers are the 64-bit types of the library.  The
floating-point numbers are a type of their own that nothing here looks into.
-/

universe u

namespace Nlohmann

open Json

/-- `basic_json`. -/
inductive Value (F : Type u)
  | null
  | boolean (b : Bool)
  | numberInteger (n : Int64)
  | numberUnsigned (n : UInt64)
  | numberFloat (x : F)
  | string (s : List UInt8)
  | array (elements : List (Value F))
  | object (members : List (List UInt8 × Value F))

/-- `object_t`, in the order of the keys. -/
abbrev Members (F : Type u) := List (List UInt8 × Value F)

variable {F : Type u}

/-- The assignment of `value` to `operator[](key)`. -/
def Members.assign (key : List UInt8) (value : Value F) :
    Members F → Members F
  | [] => [(key, value)]
  | member :: members =>
      if key < member.1 then (key, value) :: member :: members
      else if member.1 < key then member :: assign key value members
      else (key, value) :: members

/-- The keys ascend, and so no two of them are the same. -/
def Members.Ascending (members : Members F) : Prop :=
  members.Pairwise fun m m' => m.1 < m'.1

theorem Members.ascending_iff {members : Members F} :
    members.Ascending ↔ (members.map Prod.fst).Pairwise (· < ·) :=
  List.pairwise_map.symm

theorem Members.mem_assign {key : List UInt8} {value : Value F}
    {members : Members F} {member : List UInt8 × Value F}
    (h : member ∈ assign key value members) :
    member = (key, value) ∨ member ∈ members := by
  induction members with
  | nil => exact .inl (List.mem_singleton.mp h)
  | cons first members ih =>
      rw [assign] at h
      split_ifs at h with hbefore hbehind
      · exact (List.mem_cons.mp h)
      · rcases List.mem_cons.mp h with rfl | h
        · exact .inr List.mem_cons_self
        · rcases ih h with h | h
          · exact .inl h
          · exact .inr (List.mem_cons_of_mem _ h)
      · rcases List.mem_cons.mp h with h | h
        · exact .inl h
        · exact .inr (List.mem_cons_of_mem _ h)

theorem Members.Ascending.assign {members : Members F}
    (h : members.Ascending) (key : List UInt8) (value : Value F) :
    (Members.assign key value members).Ascending := by
  induction members with
  | nil => exact List.pairwise_singleton _ _
  | cons first members ih =>
      obtain ⟨hfirst, hrest⟩ := List.pairwise_cons.mp h
      rw [Members.assign]
      split_ifs with hbefore hbehind
      · refine List.pairwise_cons.mpr ⟨?_, h⟩
        intro member hmember
        rcases List.mem_cons.mp hmember with rfl | hmember
        · exact hbefore
        · exact List.lt_trans hbefore (hfirst member hmember)
      · refine List.pairwise_cons.mpr ⟨?_, ih hrest⟩
        intro member hmember
        rcases mem_assign hmember with rfl | hmember
        · exact hbehind
        · exact hfirst member hmember
      · have hkey : key = first.1 := List.le_antisymm hbehind hbefore
        refine List.pairwise_cons.mpr ⟨?_, hrest⟩
        rw [hkey]
        exact hfirst

/-- A key behind all others is added at the end. -/
theorem Members.assign_of_forall_lt {key : List UInt8} (value : Value F)
    {members : Members F} (h : ∀ member ∈ members, member.1 < key) :
    assign key value members = members ++ [(key, value)] := by
  induction members with
  | nil => rfl
  | cons first members ih =>
      obtain ⟨hfirst, hrest⟩ := List.forall_mem_cons.mp h
      have hnot : ¬ key < first.1 := List.lt_asymm hfirst
      rw [assign, if_neg hnot, if_pos hfirst, ih hrest, List.cons_append]

/-! ## Values that a text can stand for -/

/-- Strings and keys are well-formed UTF-8, the keys of an object ascend, as
those of a `std::map` do, and the floating-point numbers satisfy `P`. -/
inductive Value.Valid (P : F → Prop) : Value F → Prop
  | null : Valid P .null
  | boolean (b : Bool) : Valid P (.boolean b)
  | numberInteger (n : Int64) : Valid P (.numberInteger n)
  | numberUnsigned (n : UInt64) : Valid P (.numberUnsigned n)
  | numberFloat {x : F} : P x → Valid P (.numberFloat x)
  | string {s : List UInt8} : wellFormed s = true → Valid P (.string s)
  | array {elements : List (Value F)} :
      (∀ v ∈ elements, Valid P v) → Valid P (.array elements)
  | object {members : Members F} : members.Ascending →
      (∀ m ∈ members, wellFormed m.1 = true) →
        (∀ m ∈ members, Valid P m.2) → Valid P (.object members)

mutual

/-- A text does not tell a signed number that is not negative from an unsigned
one, and is read as the latter. -/
def Value.reread : Value F → Value F
  | .numberInteger n =>
      if n < 0 then .numberInteger n else .numberUnsigned n.toUInt64
  | .array elements => .array (rereadElements elements)
  | .object members => .object (rereadMembers members)
  | v => v

def rereadElements : List (Value F) → List (Value F)
  | [] => []
  | v :: elements => v.reread :: rereadElements elements

def rereadMembers : List (List UInt8 × Value F) → List (List UInt8 × Value F)
  | [] => []
  | member :: members => rereadMember member :: rereadMembers members

def rereadMember : List UInt8 × Value F → List UInt8 × Value F
  | (key, v) => (key, v.reread)

end

end Nlohmann
