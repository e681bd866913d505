import RankingServer.Foundation.Json

/-!
# The cached records

`DataStructure.h`: the entries of the `Score` and `Ranking` caches as JSON
objects.  A constructor that meets a missing key or a value of the wrong type
does not return, which `none` stands for.
-/

namespace RankingServer.Business

/-- The bytes of an ASCII text. -/
def ascii (text : String) : List UInt8 := text.toList.map Char.toUInt8

/-- The conversion of a JSON number to `int`. -/
def toInt (n : ℤ) : ℤ := n.bmod (2 ^ 32)

/-- The value of an `int`. -/
def IsInt (n : ℤ) : Prop := -2 ^ 31 ≤ n ∧ n < 2 ^ 31

instance : DecidablePred IsInt :=
  fun n => inferInstanceAs (Decidable (-2 ^ 31 ≤ n ∧ n < 2 ^ 31))

theorem toInt_of_isInt {n : ℤ} (h : IsInt n) : toInt n = n := by
  obtain ⟨hlow, hhigh⟩ := h
  apply Int.bmod_eq_of_le <;> omega

structure Data_Score where
  mPlayerId : List UInt8
  mScore : ℤ
  mLastUpdate : ℤ
deriving DecidableEq, Repr

namespace Data_Score

def toJson (id : List UInt8) (score last_update : ℤ) : Json.Members :=
  [(ascii "last_update", .integer last_update), (ascii "player_id", .string id),
    (ascii "score", .integer score)]

def ofJson (jsonStr : Json.Members) : Option Data_Score := do
  let mPlayerId ← (Json.lookup (ascii "player_id") jsonStr).bind
    Json.Value.toString
  let mScore ← (Json.lookup (ascii "score") jsonStr).bind Json.Value.toInteger
  let mLastUpdate ← (Json.lookup (ascii "last_update") jsonStr).bind
    Json.Value.toInteger
  return ⟨mPlayerId, toInt mScore, mLastUpdate⟩

theorem ofJson_toJson (id : List UInt8) {score : ℤ} (hscore : IsInt score)
    (last_update : ℤ) :
    ofJson (toJson id score last_update) = some ⟨id, score, last_update⟩ := by
  have hread : ofJson (toJson id score last_update) =
      some ⟨id, toInt score, last_update⟩ := rfl
  rw [hread, toInt_of_isInt hscore]

theorem dump_toJson_isSome_iff (id : List UInt8) (score last_update : ℤ) :
    (Json.dump (toJson id score last_update)).isSome ↔
      Json.wellFormed id = true := by
  have hkeys : Json.wellFormed (ascii "last_update") = true ∧
      Json.wellFormed (ascii "player_id") = true ∧
      Json.wellFormed (ascii "score") = true := by decide
  rw [Json.dump_isSome_iff]
  simp [toJson, Json.dumpMember_isSome_iff, Json.dumpValue_isSome_iff, hkeys]

theorem exists_dump_toJson {id : List UInt8} (h : Json.wellFormed id = true)
    (score last_update : ℤ) :
    ∃ text, Json.dump (toJson id score last_update) = some text :=
  Option.isSome_iff_exists.mp
    ((dump_toJson_isSome_iff id score last_update).mpr h)

end Data_Score

structure Data_Ranking where
  mRrank : ℤ
  mPlayerId : List UInt8
  mScore : ℤ
deriving DecidableEq, Repr

namespace Data_Ranking

def toJson (rank : ℤ) (id : List UInt8) (score : ℤ) : Json.Members :=
  [(ascii "player_id", .string id), (ascii "rank", .integer rank),
    (ascii "score", .integer score)]

def ofJson (jsonStr : Json.Members) : Option Data_Ranking := do
  let mRrank ← (Json.lookup (ascii "rank") jsonStr).bind Json.Value.toInteger
  let mPlayerId ← (Json.lookup (ascii "player_id") jsonStr).bind
    Json.Value.toString
  let mScore ← (Json.lookup (ascii "score") jsonStr).bind Json.Value.toInteger
  return ⟨toInt mRrank, mPlayerId, toInt mScore⟩

theorem ofJson_toJson (rank : ℤ) (id : List UInt8) (score : ℤ) :
    ofJson (toJson rank id score) = some ⟨toInt rank, id, toInt score⟩ :=
  rfl

theorem dump_toJson_isSome_iff (rank : ℤ) (id : List UInt8) (score : ℤ) :
    (Json.dump (toJson rank id score)).isSome ↔
      Json.wellFormed id = true := by
  have hkeys : Json.wellFormed (ascii "player_id") = true ∧
      Json.wellFormed (ascii "rank") = true ∧
      Json.wellFormed (ascii "score") = true := by decide
  rw [Json.dump_isSome_iff]
  simp [toJson, Json.dumpMember_isSome_iff, Json.dumpValue_isSome_iff, hkeys]

end Data_Ranking

end RankingServer.Business
