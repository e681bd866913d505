import RankingServer.Business.DataStructure
import RankingServer.Nlohmann.RoundTrip

/-!
# The cached records in the library's hands

The other modules of this directory write and read the cached records with the
JSON of `RankingServer.Foundation.Json`, which knows flat objects of strings and
integers and nothing else.  On such objects the library does the same: it writes
the same text, throws for the same objects, and reads the text as the same
members (`agrees_of_flat`).
-/

universe u

namespace RankingServer.Business

open Json

variable {F : Type u} {strtod : List UInt8 → F} {isfinite : F → Bool}
  {floatText : F → List UInt8}

/-- The `nlohmann::json` that a member is initialized with. -/
def toValue : Json.Value → Nlohmann.Value F
  | .string s => .string s
  | .integer n => .numberInteger (Int64.ofInt n)

def toMembers (members : Json.Members) : Nlohmann.Members F :=
  members.map fun m => (m.1, toValue m.2)

/-- The keys are in the order of the `std::map`, and the integers fit into a
`number_integer_t`. -/
structure Flat (members : Json.Members) : Prop where
  ascending : members.Pairwise fun m m' => m.1 < m'.1
  integers : ∀ m ∈ members, ∀ n, m.2 = .integer n → -2 ^ 63 ≤ n ∧ n < 2 ^ 63

theorem flat_score (id : List UInt8) {score last_update : ℤ}
    (hscore : IsInt score)
    (hdate : -2 ^ 63 ≤ last_update ∧ last_update < 2 ^ 63) :
    Flat (Data_Score.toJson id score last_update) := by
  have hkeys : ascii "last_update" < ascii "player_id" ∧
      ascii "last_update" < ascii "score" ∧
      ascii "player_id" < ascii "score" := by decide
  obtain ⟨hlow, hhigh⟩ := hscore
  constructor
  · simp [Data_Score.toJson, hkeys]
  · intro m hm n hn
    simp only [Data_Score.toJson, List.mem_cons, List.not_mem_nil, or_false]
      at hm
    rcases hm with rfl | rfl | rfl
    · obtain rfl := Json.Value.integer.inj hn
      exact hdate
    · cases hn
    · obtain rfl := Json.Value.integer.inj hn
      constructor <;> omega

theorem flat_ranking (id : List UInt8) {rank score : ℤ} (hrank : IsInt rank)
    (hscore : IsInt score) : Flat (Data_Ranking.toJson rank id score) := by
  have hkeys : ascii "player_id" < ascii "rank" ∧
      ascii "player_id" < ascii "score" ∧
      ascii "rank" < ascii "score" := by decide
  obtain ⟨hlow, hhigh⟩ := hscore
  obtain ⟨hlow', hhigh'⟩ := hrank
  constructor
  · simp [Data_Ranking.toJson, hkeys]
  · intro m hm n hn
    simp only [Data_Ranking.toJson, List.mem_cons, List.not_mem_nil, or_false]
      at hm
    rcases hm with rfl | rfl | rfl
    · cases hn
    · obtain rfl := Json.Value.integer.inj hn
      constructor <;> omega
    · obtain rfl := Json.Value.integer.inj hn
      constructor <;> omega

/-! ## The texts -/

section

variable {ε α β : Type*} (x : Except ε α)

theorem toOption_bind (f : α → Except ε β) :
    (x.bind f).toOption = x.toOption.bind fun a => (f a).toOption := by
  cases x <;> rfl

theorem toOption_map (f : α → β) :
    (x.map f).toOption = x.toOption.map f := by
  cases x <;> rfl

end

theorem dumpString_eq (s : List UInt8) :
    dumpString s = (Nlohmann.dumpQuoted s).toOption := by
  rw [dumpString, Nlohmann.dumpQuoted_eq]
  split_ifs <;> rfl

theorem dumpValue_eq (floatText : F → List UInt8) {value : Json.Value}
    (hinteger : ∀ n, value = .integer n → -2 ^ 63 ≤ n ∧ n < 2 ^ 63) :
    dumpValue value = (Nlohmann.dump floatText (toValue value)).toOption := by
  cases value with
  | string s => exact dumpString_eq s
  | integer n =>
      obtain ⟨hlow, hhigh⟩ := hinteger n rfl
      rw [toValue, Nlohmann.dump, Int64.toInt_ofInt_of_le hlow hhigh,
        Nlohmann.dumpNumber_eq hlow (by omega)]
      rfl

theorem dumpMember_eq (floatText : F → List UInt8)
    {member : List UInt8 × Json.Value}
    (hinteger : ∀ n, member.2 = .integer n → -2 ^ 63 ≤ n ∧ n < 2 ^ 63) :
    dumpMember member =
      (Nlohmann.dumpMember floatText
        (member.1, toValue member.2)).toOption := by
  rw [dumpMember, Nlohmann.dumpMember, toOption_bind, dumpString_eq,
    dumpValue_eq floatText hinteger]
  simp only [toOption_map]

theorem dumpRest_eq (floatText : F → List UInt8) {members : Json.Members}
    (hintegers : ∀ m ∈ members, ∀ n, m.2 = .integer n →
      -2 ^ 63 ≤ n ∧ n < 2 ^ 63) :
    dumpRest members =
      (Nlohmann.dumpMembers floatText (toMembers members)).toOption := by
  induction members with
  | nil => rfl
  | cons member members ih =>
      obtain ⟨hmember, hmembers⟩ := List.forall_mem_cons.mp hintegers
      rw [dumpRest, toMembers, List.map_cons, Nlohmann.dumpMembers,
        toOption_bind, dumpMember_eq floatText hmember, ih hmembers]
      simp only [toOption_map]
      rfl

theorem dump_eq_toOption (floatText : F → List UInt8)
    {members : Json.Members} (hflat : Flat members) :
    dump members =
      (Nlohmann.dump floatText (.object (toMembers members))).toOption := by
  have hintegers := hflat.integers
  cases members with
  | nil => rfl
  | cons member members =>
      obtain ⟨hmember, hmembers⟩ := List.forall_mem_cons.mp hintegers
      rw [dump, toMembers, List.map_cons, Nlohmann.dump, toOption_bind,
        dumpMember_eq floatText hmember, dumpRest_eq floatText hmembers]
      simp only [toOption_map]
      rfl

/-! ## The values -/

theorem valid_toMembers {members : Json.Members} (hflat : Flat members)
    {text : List UInt8} (htext : dump members = some text) (P : F → Prop) :
    (Nlohmann.Value.object (toMembers members)).Valid P := by
  have hsome := dump_isSome_iff.mp (htext ▸ rfl : (dump members).isSome = true)
  have hwell : ∀ m ∈ members, wellFormed m.1 = true ∧
      ∀ s, m.2 = .string s → wellFormed s = true := by
    intro m hm
    obtain ⟨hkey, hvalue⟩ := dumpMember_isSome_iff.mp (hsome m hm)
    exact ⟨hkey, dumpValue_isSome_iff.mp hvalue⟩
  refine .object ?_ ?_ ?_
  · rw [toMembers, Nlohmann.Members.Ascending, List.pairwise_map]
    exact hflat.ascending
  · intro m hm
    obtain ⟨member, hmember, rfl⟩ := List.mem_map.mp hm
    exact (hwell member hmember).1
  · intro m hm
    obtain ⟨⟨key, value⟩, hmember, rfl⟩ := List.mem_map.mp hm
    obtain ⟨-, hstring⟩ := hwell (key, value) hmember
    cases value with
    | string s => exact .string (hstring s rfl)
    | integer n => exact .numberInteger _

/-- On flat objects the JSON of this development and the library agree.  They
write the same text or both refuse, and from a text that is written both read
the members it was written for. -/
theorem agrees_of_flat {members : Json.Members} (hflat : Flat members) :
    dump members =
        (Nlohmann.dump floatText (.object (toMembers members))).toOption ∧
      ∀ text, dump members = some text →
        parse text = some members ∧
          Nlohmann.parse strtod isfinite text =
            .ok (Nlohmann.Value.object (toMembers members)).reread := by
  have hagree := dump_eq_toOption floatText hflat
  refine ⟨hagree, ?_⟩
  intro text htext
  refine ⟨parse_dump htext, ?_⟩
  have hvalid := valid_toMembers hflat htext (fun _ : F => False)
  have hdump := Nlohmann.dump_of_valid hvalid floatText
  rw [hagree, hdump] at htext
  obtain rfl := Option.some.inj htext
  exact Nlohmann.parse_text hvalid fun _ h => h.elim

theorem agrees_of_flat_score :
    dump (Data_Score.toJson (ascii "A") 7 0) =
        (Nlohmann.dump (fun _ : Unit => []) (.object (toMembers
          (Data_Score.toJson (ascii "A") 7 0)))).toOption ∧
      ∀ text, dump (Data_Score.toJson (ascii "A") 7 0) = some text →
        parse text = some (Data_Score.toJson (ascii "A") 7 0) ∧
          Nlohmann.parse (fun _ => ()) (fun _ => true) text =
            .ok (Nlohmann.Value.object (toMembers
              (Data_Score.toJson (ascii "A") 7 0))).reread :=
  agrees_of_flat
    (flat_score (ascii "A") ⟨by decide, by decide⟩ ⟨by decide, by decide⟩)

end RankingServer.Business
