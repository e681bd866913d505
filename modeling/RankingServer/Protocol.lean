import RankingServer.Flatbuffers.Builder
import RankingServer.Flatbuffers.Table

/-!
# The message bodies

The generated accessors and builders of `RANKING_PROTOCOL_generated.h` for the
four tables that the server reads or writes, and the enumeration of the contents
types.
-/

namespace RankingServer.Protocol

open Flatbuffers Scalar

def MessageContent_REQUEST_SAVE_SCORE : ℕ := 1

def MessageContent_RESPONSE_SAVE_SCORE : ℕ := 2

def MessageContent_REQUEST_PLAYER_RANKING : ℕ := 3

def MessageContent_RESPONSE_PLAYER_RANKING : ℕ := 4

/-- `static_cast<MessageContent>`; the underlying type has 8 bits. -/
def messageContent (contentsType : ℕ) : ℕ := contentsType % 2 ^ 8

/-! ## Requests -/

namespace REQUEST_SAVE_SCORE

def VT_PLAYER_ID : ℤ := 4

def VT_SCORE : ℤ := 6

def VT_LAST_UPDATE : ℤ := 8

/-- `player_id()->str()` -/
def player_id (buf : List UInt8) (data : ℤ) : Access (List UInt8) :=
  getString buf data VT_PLAYER_ID

def score (buf : List UInt8) (data : ℤ) : Access ℤ :=
  getField int32_t buf data VT_SCORE 0

def last_update (buf : List UInt8) (data : ℤ) : Access ℤ :=
  getField int64_t buf data VT_LAST_UPDATE 0

end REQUEST_SAVE_SCORE

namespace REQUEST_PLAYER_RANKING

def VT_PLAYER_ID : ℤ := 4

/-- `player_id()->str()` -/
def player_id (buf : List UInt8) (data : ℤ) : Access (List UInt8) :=
  getString buf data VT_PLAYER_ID

end REQUEST_PLAYER_RANKING

/-! ## Responses -/

namespace RESPONSE_SAVE_SCORE

def VT_PLAYER_ID : ℕ := 4

def VT_FEEDBACK : ℕ := 6

/-- `player_id()->str()` -/
def player_id (buf : List UInt8) (data : ℤ) : Access (List UInt8) :=
  getString buf data VT_PLAYER_ID

def feedback (buf : List UInt8) (data : ℤ) : Access ℤ :=
  getField uint8_t buf data VT_FEEDBACK 0

end RESPONSE_SAVE_SCORE

namespace RESPONSE_PLAYER_RANKING

def VT_PLAYER_ID : ℕ := 4

def VT_SCORE : ℕ := 6

def VT_RANKING : ℕ := 8

def VT_IN_RANKING : ℕ := 10

def VT_FEEDBACK : ℕ := 12

/-- `player_id()->str()` -/
def player_id (buf : List UInt8) (data : ℤ) : Access (List UInt8) :=
  getString buf data VT_PLAYER_ID

def score (buf : List UInt8) (data : ℤ) : Access ℤ :=
  getField int32_t buf data VT_SCORE 0

def ranking (buf : List UInt8) (data : ℤ) : Access ℤ :=
  getField int32_t buf data VT_RANKING 0

def in_ranking (buf : List UInt8) (data : ℤ) : Access ℤ :=
  getField uint8_t buf data VT_IN_RANKING 0

end RESPONSE_PLAYER_RANKING

/-- The value of a `bool` field. -/
def boolField (b : Bool) : ℤ := if b then 1 else 0

/-- `CreateRESPONSE_SAVE_SCORE` -/
def CreateRESPONSE_SAVE_SCORE (b : Builder) (playerId : ℕ)
    (feedback : Bool) : Builder × ℕ :=
  let start := b.getSize
  let b := b.addOffset RESPONSE_SAVE_SCORE.VT_PLAYER_ID playerId
  let b := b.addElement RESPONSE_SAVE_SCORE.VT_FEEDBACK 1
    (boolField feedback) 0
  b.endTable start

/-- `CreateRESPONSE_PLAYER_RANKING` -/
def CreateRESPONSE_PLAYER_RANKING (b : Builder) (playerId : ℕ)
    (score ranking : ℤ) (inRanking feedback : Bool) : Builder × ℕ :=
  let start := b.getSize
  let b := b.addElement RESPONSE_PLAYER_RANKING.VT_RANKING 4 ranking 0
  let b := b.addElement RESPONSE_PLAYER_RANKING.VT_SCORE 4 score 0
  let b := b.addOffset RESPONSE_PLAYER_RANKING.VT_PLAYER_ID playerId
  let b := b.addElement RESPONSE_PLAYER_RANKING.VT_FEEDBACK 1
    (boolField feedback) 0
  let b := b.addElement RESPONSE_PLAYER_RANKING.VT_IN_RANKING 1
    (boolField inRanking) 0
  b.endTable start

/-- `CreateREQUEST_PLAYER_RANKING` -/
def CreateREQUEST_PLAYER_RANKING (b : Builder) (playerId : ℕ) :
    Builder × ℕ :=
  let start := b.getSize
  let b := b.addOffset REQUEST_PLAYER_RANKING.VT_PLAYER_ID.toNat playerId
  b.endTable start

/-- The finished buffer of a `REQUEST_PLAYER_RANKING`. -/
def requestPlayerRanking (playerId : List UInt8) : List UInt8 :=
  let b := Builder.new.createString playerId
  let table := CreateREQUEST_PLAYER_RANKING b b.getSize
  (table.1.finish table.2).buf

/-- The finished buffer of a `RESPONSE_SAVE_SCORE`. -/
def responseSaveScore (playerId : List UInt8) (feedback : Bool) :
    List UInt8 :=
  let b := Builder.new.createString playerId
  let table := CreateRESPONSE_SAVE_SCORE b b.getSize feedback
  (table.1.finish table.2).buf

/-- The finished buffer of a `RESPONSE_PLAYER_RANKING`. -/
def responsePlayerRanking (playerId : List UInt8) (score ranking : ℤ)
    (inRanking feedback : Bool) : List UInt8 :=
  let b := Builder.new.createString playerId
  let table := CreateRESPONSE_PLAYER_RANKING b b.getSize score ranking
    inRanking feedback
  (table.1.finish table.2).buf

/-! ## The bytes in front of the string -/

/-- `AddOffset` of the string behind the builder's own bytes. -/
def addString (b : Builder) (field : ℕ) : Builder :=
  (b.align 4).addElement field 4 ((b.align 4).getSize + 4 : ℕ) 0

def saveScoreTable (feedback : Bool) : Builder × ℕ :=
  let b := addString Builder.seed RESPONSE_SAVE_SCORE.VT_PLAYER_ID
  let b := b.addElement RESPONSE_SAVE_SCORE.VT_FEEDBACK 1
    (boolField feedback) 0
  b.endTable 0

def playerRankingTable (score ranking : ℤ) (inRanking feedback : Bool) :
    Builder × ℕ :=
  let b := Builder.seed.addElement RESPONSE_PLAYER_RANKING.VT_RANKING 4
    ranking 0
  let b := b.addElement RESPONSE_PLAYER_RANKING.VT_SCORE 4 score 0
  let b := addString b RESPONSE_PLAYER_RANKING.VT_PLAYER_ID
  let b := b.addElement RESPONSE_PLAYER_RANKING.VT_FEEDBACK 1
    (boolField feedback) 0
  let b := b.addElement RESPONSE_PLAYER_RANKING.VT_IN_RANKING 1
    (boolField inRanking) 0
  b.endTable 0

/-- The bytes of the finished buffer in front of the string. -/
def head (table : Builder × ℕ) : List UInt8 := (table.1.finish table.2).buf

theorem minalign_addElement {b : Builder} (h : b.minalign = 4)
    (field : ℕ) {width : ℕ} (hwidth : width ≤ 4) (e default : ℤ) :
    (b.addElement field width e default).minalign = 4 := by
  by_cases he : e = default
  · rw [Builder.addElement, if_pos he, h]
  · rw [Builder.addElement, if_neg he]
    change max b.minalign width = 4
    rw [h]
    exact max_eq_left hwidth

theorem minalign_addString {b : Builder} (h : b.minalign = 4) (field : ℕ) :
    (addString b field).minalign = 4 := by
  apply minalign_addElement _ _ le_rfl
  change max b.minalign 4 = 4
  rw [h, max_self]

theorem minalign_endTable {b : Builder} (h : b.minalign = 4) (start : ℕ) :
    (b.endTable start).1.minalign = 4 := by
  change max b.minalign 4 = 4
  rw [h, max_self]

theorem addOffset_atop_stringBytes (b : Builder) (field : ℕ)
    (str : List UInt8) :
    (b.atop (stringBytes str)).addOffset field (stringBytes str).length =
      (addString b field).atop (stringBytes str) :=
  Builder.addOffset_atop b field (dvd_length_stringBytes str) (by simp)

theorem finish_endTable_atop {b : Builder} (h : b.minalign = 4)
    (str : List UInt8) :
    let table := (b.atop (stringBytes str)).endTable (stringBytes str).length
    (table.1.finish table.2).buf =
      head (b.endTable 0) ++ stringBytes str := by
  have hdvd := dvd_length_stringBytes str
  have hminalign := minalign_endTable h 0
  simp only [Builder.endTable_atop b hdvd,
    Builder.finish_atop _ hdvd (hminalign ▸ hdvd)]
  rfl

/-- The request stores nothing but the offset of the player id in front of the
string. -/
theorem requestPlayerRanking_eq (playerId : List UInt8) :
    requestPlayerRanking playerId =
      [12, 0, 0, 0, 0, 0, 6, 0, 8, 0, 4, 0, 6, 0, 0, 0, 4, 0, 0, 0] ++
        stringBytes playerId := by
  have hhead : head ((addString Builder.seed
      REQUEST_PLAYER_RANKING.VT_PLAYER_ID.toNat).endTable 0) =
        [12, 0, 0, 0, 0, 0, 6, 0, 8, 0, 4, 0, 6, 0, 0, 0, 4, 0, 0, 0] := by
    decide
  rw [← hhead]
  simp only [requestPlayerRanking, CreateREQUEST_PLAYER_RANKING,
    Builder.createString_eq_atop, Builder.getSize_seed_atop,
    addOffset_atop_stringBytes]
  apply finish_endTable_atop
  exact minalign_addString rfl _

theorem responseSaveScore_eq (playerId : List UInt8) (feedback : Bool) :
    responseSaveScore playerId feedback =
      head (saveScoreTable feedback) ++ stringBytes playerId := by
  have hdvd := dvd_length_stringBytes playerId
  have hone : 1 ∣ (stringBytes playerId).length := one_dvd _
  simp only [responseSaveScore, CreateRESPONSE_SAVE_SCORE,
    Builder.createString_eq_atop, Builder.getSize_seed_atop,
    addOffset_atop_stringBytes, Builder.addElement_atop _ _ hone]
  apply finish_endTable_atop
  exact minalign_addElement (minalign_addString rfl _) _ (by decide) _ _

theorem responsePlayerRanking_eq (playerId : List UInt8) (score ranking : ℤ)
    (inRanking feedback : Bool) :
    responsePlayerRanking playerId score ranking inRanking feedback =
      head (playerRankingTable score ranking inRanking feedback) ++
        stringBytes playerId := by
  have hdvd := dvd_length_stringBytes playerId
  have hone : 1 ∣ (stringBytes playerId).length := one_dvd _
  simp only [responsePlayerRanking, CreateRESPONSE_PLAYER_RANKING,
    Builder.createString_eq_atop, Builder.getSize_seed_atop,
    addOffset_atop_stringBytes, Builder.addElement_atop _ _ hone,
    Builder.addElement_atop _ _ hdvd]
  apply finish_endTable_atop
  apply minalign_addElement _ _ (by decide)
  apply minalign_addElement _ _ (by decide)
  apply minalign_addString
  apply minalign_addElement _ _ le_rfl
  exact minalign_addElement rfl _ le_rfl _ _

/-! ## The player a response names -/

theorem head_saveScoreTable :
    head (saveScoreTable true) =
      [12, 0, 0, 0, 8, 0, 12, 0, 8, 0, 7, 0, 8, 0, 0, 0, 0, 0, 0, 1,
        4, 0, 0, 0] := by
  decide

theorem pointsPast_saveScoreTable :
    PointsPast (head (saveScoreTable true)) []
      RESPONSE_SAVE_SCORE.VT_PLAYER_ID := by
  rw [head_saveScoreTable]
  exact ⟨by decide, ⟨⟨by decide, by decide, by decide⟩, by decide⟩,
    by decide, by decide⟩

/-- The scalars of a ranking response that are stored behind the rest of the
table. -/
def rankingScalars (score ranking : ℤ) : List UInt8 :=
  (if score = 0 then [] else scalarBytes 4 score) ++
    if ranking = 0 then [] else scalarBytes 4 ranking

/-- The bytes of a ranking response in front of these scalars, for the given
size of the table object and the given offsets. -/
def rankingHead (size score ranking player : UInt8) (inRanking : Bool) :
    List UInt8 :=
  [20, 0, 0, 0, 0, 0] ++
    [14, 0, size, 0, 8, 0, score, 0, ranking, 0,
      if inRanking then 6 else 0, 0, 7, 0] ++
    [14, 0, 0, 0, 0, 0, if inRanking then 1 else 0, 1, player, 0, 0, 0]

/-- The part of a ranking response that follows `add_score`. -/
def finishRanking (b : Builder) (inRanking : Bool) : List UInt8 :=
  let b := addString b RESPONSE_PLAYER_RANKING.VT_PLAYER_ID
  let b := b.addElement RESPONSE_PLAYER_RANKING.VT_FEEDBACK 1
    (boolField true) 0
  let b := b.addElement RESPONSE_PLAYER_RANKING.VT_IN_RANKING 1
    (boolField inRanking) 0
  head (b.endTable 0)

section Layout

open Builder RESPONSE_PLAYER_RANKING

theorem finishRanking_nil (inRanking : Bool) :
    finishRanking seed inRanking = rankingHead 12 0 0 4 inRanking := by
  cases inRanking <;> decide

theorem finishRanking_score {a b c d : UInt8} (inRanking : Bool) :
    finishRanking ⟨[a, b, c, d], 4, [(4, VT_SCORE)], VT_SCORE⟩ inRanking =
      rankingHead 16 12 0 8 inRanking ++ [a, b, c, d] := by
  cases inRanking <;>
    simp [finishRanking, rankingHead, head, addString, boolField, addElement,
      pushElement, align, fill, pushBytes, getSize, trackMinAlign,
      paddingBytes, writeAt, vtable, toBytes, trackField, endTable, pushVTable,
      linkVTable, finish, referTo, preAlign, VT_PLAYER_ID, VT_SCORE,
      VT_IN_RANKING, VT_FEEDBACK]

theorem finishRanking_ranking {a b c d : UInt8} (inRanking : Bool) :
    finishRanking ⟨[a, b, c, d], 4, [(4, VT_RANKING)], VT_RANKING⟩ inRanking =
      rankingHead 16 0 12 8 inRanking ++ [a, b, c, d] := by
  cases inRanking <;>
    simp [finishRanking, rankingHead, head, addString, boolField, addElement,
      pushElement, align, fill, pushBytes, getSize, trackMinAlign,
      paddingBytes, writeAt, vtable, toBytes, trackField, endTable, pushVTable,
      linkVTable, finish, referTo, preAlign, VT_PLAYER_ID, VT_RANKING,
      VT_IN_RANKING, VT_FEEDBACK]

theorem finishRanking_both {a b c d e f g h : UInt8} (inRanking : Bool) :
    finishRanking ⟨[a, b, c, d, e, f, g, h], 4,
        [(4, VT_RANKING), (8, VT_SCORE)], VT_RANKING⟩ inRanking =
      rankingHead 20 12 16 12 inRanking ++ [a, b, c, d, e, f, g, h] := by
  cases inRanking <;>
    simp [finishRanking, rankingHead, head, addString, boolField, addElement,
      pushElement, align, fill, pushBytes, getSize, trackMinAlign,
      paddingBytes, writeAt, vtable, toBytes, trackField, endTable, pushVTable,
      linkVTable, finish, referTo, preAlign, VT_PLAYER_ID, VT_SCORE,
      VT_RANKING, VT_IN_RANKING, VT_FEEDBACK]

theorem addElement_default (b : Builder) (field width : ℕ) (e : ℤ) :
    b.addElement field width e e = b := by
  rw [addElement, if_pos rfl]

/-- A scalar of four bytes on top of scalars of four bytes. -/
theorem addElement_scalar {b : Builder} (hsize : 4 ∣ b.buf.length)
    (hminalign : b.minalign = 4) (field : ℕ) {e : ℤ} (he : e ≠ 0) :
    b.addElement field 4 e 0 =
      ⟨scalarBytes 4 e ++ b.buf, 4,
        b.fieldLocs ++ [(4 + b.buf.length, field)],
        max b.maxVoffset field⟩ := by
  have hpadding : paddingBytes b.buf.length 4 = 0 := by
    have hzero := paddingBytes_add hsize 0
    rwa [Nat.zero_add] at hzero
  simp [addElement, he, pushElement, align, fill, pushBytes, getSize,
    trackMinAlign, trackField, hpadding, hminalign, scalarBytes]

theorem scalarBytes_four (e : ℤ) :
    ∃ a b c d, scalarBytes 4 e = [a, b, c, d] :=
  ⟨_, _, _, _, rfl⟩

theorem head_playerRankingTable (score ranking : ℤ) (inRanking : Bool) :
    head (playerRankingTable score ranking inRanking true) =
      finishRanking ((seed.addElement VT_RANKING 4 ranking 0).addElement
        VT_SCORE 4 score 0) inRanking :=
  rfl

/-- A ranking response stores the offset of the player id in front of the
scalars. -/
theorem exists_rankingHead (score ranking : ℤ) (inRanking : Bool) :
    ∃ front, front.length = 32 ∧
      PointsPast front (rankingScalars score ranking) VT_PLAYER_ID ∧
      head (playerRankingTable score ranking inRanking true) =
        front ++ rankingScalars score ranking := by
  obtain ⟨a, b, c, d, hscore⟩ := scalarBytes_four score
  obtain ⟨e, f, g, h, hranking⟩ := scalarBytes_four ranking
  rw [head_playerRankingTable, rankingScalars]
  by_cases hr : ranking = 0
  · subst hr
    rw [addElement_default, if_pos rfl]
    by_cases hs : score = 0
    · subst hs
      rw [addElement_default, finishRanking_nil, if_pos rfl]
      refine ⟨rankingHead 12 0 0 4 inRanking, rfl, ?_, rfl⟩
      cases inRanking <;>
        exact ⟨by decide, ⟨⟨by decide, by decide, by decide⟩, by decide⟩,
          by decide, rfl⟩
    · rw [addElement_scalar (dvd_zero 4) rfl _ hs, if_neg hs, hscore]
      refine ⟨rankingHead 16 12 0 8 inRanking, rfl, ?_,
        finishRanking_score inRanking⟩
      cases inRanking <;>
        exact ⟨by decide, ⟨⟨by decide, by decide, by decide⟩, by decide⟩,
          by decide, rfl⟩
  · rw [addElement_scalar (dvd_zero 4) rfl _ hr, if_neg hr, hranking]
    by_cases hs : score = 0
    · subst hs
      rw [addElement_default, if_pos rfl]
      refine ⟨rankingHead 16 0 12 8 inRanking, rfl, ?_,
        finishRanking_ranking inRanking⟩
      cases inRanking <;>
        exact ⟨by decide, ⟨⟨by decide, by decide, by decide⟩, by decide⟩,
          by decide, rfl⟩
    · rw [addElement_scalar ⟨1, rfl⟩ rfl _ hs, if_neg hs, hscore]
      refine ⟨rankingHead 20 12 16 12 inRanking, rfl, ?_,
        finishRanking_both inRanking⟩
      cases inRanking <;>
        exact ⟨by decide, ⟨⟨by decide, by decide, by decide⟩, by decide⟩,
          by decide, rfl⟩

end Layout

/-- The player id in the root table of a response. -/
def respondedPlayer (body : List UInt8) : Access (List UInt8) :=
  (getRoot body).bind fun data => RESPONSE_PLAYER_RANKING.player_id body data

theorem respondedPlayer_responseSaveScore {playerId : List UInt8}
    (hlen : playerId.length < 2 ^ 32) :
    respondedPlayer (responseSaveScore playerId true) = .ok playerId := by
  have hstring := pointsPast_saveScoreTable.getString hlen
  rw [List.append_nil] at hstring
  rw [responseSaveScore_eq]
  exact hstring

theorem respondedPlayer_responsePlayerRanking {playerId : List UInt8}
    (hlen : playerId.length < 2 ^ 32) (score ranking : ℤ) (inRanking : Bool) :
    respondedPlayer
      (responsePlayerRanking playerId score ranking inRanking true) =
        .ok playerId := by
  obtain ⟨front, -, hpoints, hhead⟩ :=
    exists_rankingHead score ranking inRanking
  rw [responsePlayerRanking_eq, hhead]
  exact hpoints.getString hlen

theorem length_requestPlayerRanking (playerId : List UInt8) :
    (requestPlayerRanking playerId).length =
      24 + paddedLength playerId.length := by
  rw [requestPlayerRanking_eq, List.length_append, length_stringBytes,
    ← Nat.add_assoc]
  rfl

theorem length_responseSaveScore (playerId : List UInt8) :
    (responseSaveScore playerId true).length =
      28 + paddedLength playerId.length := by
  rw [responseSaveScore_eq, head_saveScoreTable, List.length_append,
    length_stringBytes, ← Nat.add_assoc]
  rfl

theorem length_responsePlayerRanking (playerId : List UInt8)
    (score ranking : ℤ) (inRanking : Bool) :
    (responsePlayerRanking playerId score ranking inRanking true).length =
      36 + (rankingScalars score ranking).length +
        paddedLength playerId.length := by
  obtain ⟨front, hfront, -, hhead⟩ :=
    exists_rankingHead score ranking inRanking
  rw [responsePlayerRanking_eq, hhead, List.length_append, List.length_append,
    length_stringBytes, hfront]
  omega

end RankingServer.Protocol
