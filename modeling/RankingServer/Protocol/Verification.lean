import RankingServer.Flatbuffers.Acceptance
import RankingServer.Protocol.RoundTrip

/-!
# Verifying messages

The generated `Verify` functions of `RANKING_PROTOCOL_generated.h`.  The server
runs none of them; what they would give it is that no byte outside a message is
read, and they would refuse no message that the generated builders make.
-/

namespace RankingServer.Protocol

open Flatbuffers Scalar Verification
open Verifier (Check verifyTable)

/-! ## The generated functions -/

namespace REQUEST_SAVE_SCORE

def checks : List Check :=
  [.string VT_PLAYER_ID, .scalar VT_SCORE int32_t 4,
    .scalar VT_LAST_UPDATE int64_t 8]

def Verify : Verifier → ℤ → Verification := verifyTable checks

end REQUEST_SAVE_SCORE

namespace RESPONSE_SAVE_SCORE

def checks : List Check :=
  [.string VT_PLAYER_ID, .scalar VT_FEEDBACK uint8_t 1]

def Verify : Verifier → ℤ → Verification := verifyTable checks

end RESPONSE_SAVE_SCORE

namespace REQUEST_PLAYER_RANKING

def checks : List Check := [.string VT_PLAYER_ID]

def Verify : Verifier → ℤ → Verification := verifyTable checks

end REQUEST_PLAYER_RANKING

namespace RESPONSE_PLAYER_RANKING

def checks : List Check :=
  [.string VT_PLAYER_ID, .scalar VT_SCORE int32_t 4,
    .scalar VT_RANKING int32_t 4, .scalar VT_IN_RANKING uint8_t 1,
    .scalar VT_FEEDBACK uint8_t 1]

def Verify : Verifier → ℤ → Verification := verifyTable checks

end RESPONSE_PLAYER_RANKING

/-- The checks of the table that a value of the union has; `none` for values
without a table. -/
def contentChecks (type : ℤ) : Option (List Check) :=
  if type = MessageContent_REQUEST_SAVE_SCORE then
    some REQUEST_SAVE_SCORE.checks
  else if type = MessageContent_RESPONSE_SAVE_SCORE then
    some RESPONSE_SAVE_SCORE.checks
  else if type = MessageContent_REQUEST_PLAYER_RANKING then
    some REQUEST_PLAYER_RANKING.checks
  else if type = MessageContent_RESPONSE_PLAYER_RANKING then
    some RESPONSE_PLAYER_RANKING.checks
  else none

/-- `VerifyMessageContent` -/
def VerifyMessageContent (v : Verifier) (obj : Option ℤ) (type : ℤ) :
    Verification :=
  match contentChecks type with
  | none => .ok (some v)
  | some checks =>
      match obj with
      | none => .ok (some v)
      | some ptr => verifyTable checks v ptr

namespace RANKING_PROTOCOL

def VT_MESSAGE_TYPE : ℤ := 4

def VT_CONTENT_TYPE : ℤ := 6

def VT_CONTENT : ℤ := 8

def message_type (buf : List UInt8) (data : ℤ) : Access ℤ :=
  getField int32_t buf data VT_MESSAGE_TYPE 0

def content_type (buf : List UInt8) (data : ℤ) : Access ℤ :=
  getField uint8_t buf data VT_CONTENT_TYPE 0

def content (buf : List UInt8) (data : ℤ) : Access (Option ℤ) :=
  getPointer buf data VT_CONTENT

def Verify (v : Verifier) (data : ℤ) : Verification :=
  (v.verifyTableStart data).andThen fun v =>
  (v.verifyField data VT_MESSAGE_TYPE int32_t 4).andThen fun v =>
  (v.verifyField data VT_CONTENT_TYPE uint8_t 1).andThen fun v =>
  (v.verifyOffsetField data VT_CONTENT).andThen fun v =>
  Verification.andThen
    ((content v.buf data).bind fun obj =>
      (content_type v.buf data).bind fun type =>
      VerifyMessageContent v obj type)
    Verifier.endTable

end RANKING_PROTOCOL

/-- `VerifyRANKING_PROTOCOLBuffer` -/
def VerifyRANKING_PROTOCOLBuffer (v : Verifier) : Verification :=
  v.verifyBuffer RANKING_PROTOCOL.Verify

/-! ## What is accepted can be read -/

/-- The message type, the contents type and, if there is a table for the
contents, all its fields can be read. -/
structure RANKING_PROTOCOL.Readable (buf : List UInt8) (data : ℤ) : Prop where
  messageType : ∃ value, RANKING_PROTOCOL.message_type buf data = .ok value
  contentType : ∃ type, RANKING_PROTOCOL.content_type buf data = .ok type
  obj : ∃ obj, RANKING_PROTOCOL.content buf data = .ok obj ∧
    ∀ ptr type checks, obj = some ptr →
      RANKING_PROTOCOL.content_type buf data = .ok type →
      contentChecks type = some checks →
        ∀ c ∈ checks, Verifier.Check.Holds buf ptr c

theorem contentChecks_aligned {type : ℤ} {checks : List Check}
    (h : contentChecks type = some checks) : ∀ c ∈ checks, c.Aligned := by
  simp only [contentChecks] at h
  split at h
  · obtain rfl := Option.some.inj h
    decide
  split at h
  · obtain rfl := Option.some.inj h
    decide
  split at h
  · obtain rfl := Option.some.inj h
    decide
  split at h
  · obtain rfl := Option.some.inj h
    decide
  · cases h

theorem VerifyMessageContent_ensures {v : Verifier}
    (hlen : v.buf.length < 2 ^ 63) {obj : Option ℤ}
    (hobj : ∀ ptr, obj = some ptr → 0 ≤ ptr ∧ ptr < v.buf.length) (type : ℤ) :
    (VerifyMessageContent v obj type).Ensures fun w => w.buf = v.buf ∧
      ∀ ptr checks, obj = some ptr → contentChecks type = some checks →
        ∀ c ∈ checks, Verifier.Check.Holds v.buf ptr c := by
  rw [VerifyMessageContent]
  cases hchecks : contentChecks type with
  | none =>
      apply ensures_some
      refine ⟨rfl, ?_⟩
      intro ptr checks _ h
      cases h
  | some checks =>
      cases obj with
      | none =>
          apply ensures_some
          refine ⟨rfl, ?_⟩
          intro ptr checks h
          cases h
      | some ptr =>
          obtain ⟨hpos, hlt⟩ := hobj ptr rfl
          apply (Verifier.verifyTable_ensures hlen hpos (by omega)
            (contentChecks_aligned hchecks)).mono
          rintro w ⟨hbuf, -, hholds⟩
          refine ⟨hbuf, ?_⟩
          rintro _ _ hptr hsome
          obtain rfl := Option.some.inj hptr
          obtain rfl := Option.some.inj hsome
          exact hholds

theorem getPointer_of_absent {buf : List UInt8} {data field : ℤ}
    (hentry : EntryWithin buf data field)
    (habsent : fieldOffsetAt buf data field = 0) :
    getPointer buf data field = .ok none := by
  rw [getPointer, getOptionalFieldOffset_eq_ok_iff.mpr ⟨hentry, habsent⟩,
    ok_bind, if_neg (by simp)]

theorem exists_getPointer {buf : List UInt8} {data field : ℤ}
    (h : FieldWithin 4 buf data field) :
    ∃ obj, getPointer buf data field = .ok obj ∧ ∀ ptr, obj = some ptr →
      fieldOffsetAt buf data field ≠ 0 ∧ targetAt buf data field = ptr := by
  by_cases hpresent : fieldOffsetAt buf data field = 0
  · exact ⟨none, getPointer_of_absent h.toEntryWithin hpresent, by simp⟩
  · refine ⟨_, getPointer_eq_some_iff.mpr ⟨h, hpresent, rfl⟩, ?_⟩
    intro ptr hptr
    exact ⟨hpresent, Option.some.inj hptr⟩

theorem RANKING_PROTOCOL.Verify_ensures {v : Verifier}
    (hlen : v.buf.length < 2 ^ 63) {data : ℤ} (hpos : 0 ≤ data)
    (hdata : data < v.buf.length) :
    (Verify v data).Ensures fun w =>
      w.buf = v.buf ∧ Readable v.buf data := by
  apply (Verifier.verifyTableStart_ensures hlen hpos (by omega)).andThen
  rintro v₁ ⟨hbuf, htable⟩
  rw [← hbuf] at hlen htable ⊢
  have hentry {field : ℤ} (hfield : 0 ≤ field) (heven : 2 ∣ field) :
      EntryWithin v₁.buf data field := htable.entryWithin hfield heven
  apply (Verifier.verifyField_ensures hlen
    (hentry (by decide) (by decide)) int32_t 4).andThen
  rintro v₂ ⟨hbuf₂, hmessage⟩
  rw [← hbuf₂] at hlen hmessage hentry ⊢
  apply (Verifier.verifyField_ensures hlen
    (hentry (by decide) (by decide)) uint8_t 1).andThen
  rintro v₃ ⟨hbuf₃, htype⟩
  rw [← hbuf₃] at hlen htype hmessage hentry ⊢
  apply (Verifier.verifyOffsetField_ensures hlen
    (hentry (by decide) (by decide))).andThen
  rintro v₄ ⟨rfl, hcontent, htarget⟩
  obtain ⟨obj, hobj, hptr⟩ := exists_getPointer hcontent
  have htypeok := getField_eq_ok_iff.mpr
    (⟨htype, rfl⟩ : FieldWithin uint8_t.width v₄.buf data VT_CONTENT_TYPE ∧
      fieldAt uint8_t v₄.buf data VT_CONTENT_TYPE 0 = _)
  have hbody : Ensures
      ((content v₄.buf data).bind fun obj =>
        (content_type v₄.buf data).bind fun type =>
        VerifyMessageContent v₄ obj type)
      fun w => w.buf = v₄.buf ∧ Readable v₄.buf data := by
    apply ensures_bind hobj
    apply ensures_bind htypeok
    apply (VerifyMessageContent_ensures hlen _ _).mono
    · rintro w ⟨hw, hholds⟩
      refine ⟨hw, ⟨_, getField_eq_ok_iff.mpr ⟨hmessage, rfl⟩⟩, ⟨_, htypeok⟩,
        obj, hobj, ?_⟩
      intro ptr type checks hptr htype' hchecks
      rw [content_type, htypeok] at htype'
      obtain rfl := Except.ok.inj htype'
      exact hholds ptr checks hptr hchecks
    · intro ptr hsome
      obtain ⟨hpresent, rfl⟩ := hptr ptr hsome
      exact htarget hpresent
  apply hbody.andThen
  rintro w ⟨hw, hreadable⟩
  exact ensures_some ⟨hw, hreadable⟩

/-- On any bytes at all the verifier reads only bytes that are there, and what
it accepts can be read to the last field of its contents. -/
theorem VerifyRANKING_PROTOCOLBuffer_sound {buf : List UInt8} (opts : Options)
    (hlen : buf.length < 2 ^ 63) :
    (∃ result,
        VerifyRANKING_PROTOCOLBuffer (Verifier.new buf opts) = .ok result) ∧
      ∀ w, VerifyRANKING_PROTOCOLBuffer (Verifier.new buf opts) =
          .ok (some w) →
        ∃ data, getRoot buf = .ok data ∧
          RANKING_PROTOCOL.Readable buf data := by
  have hsound : (VerifyRANKING_PROTOCOLBuffer (Verifier.new buf opts)).Ensures
      fun w => w.buf = buf ∧ ∃ data, getRoot buf = .ok data ∧
        RANKING_PROTOCOL.Readable buf data := by
    apply Verifier.verifyBuffer_ensures
    intro data hpos hlt
    exact RANKING_PROTOCOL.Verify_ensures hlen hpos hlt
  obtain ⟨result, hresult, hpost⟩ := hsound
  refine ⟨⟨result, hresult⟩, ?_⟩
  intro w hw
  exact (hpost w (Except.ok.inj (hresult.symm.trans hw))).2

theorem VerifyRANKING_PROTOCOLBuffer_sound_empty :
    ∃ data, getRoot [8, 0, 0, 0, 4, 0, 4, 0, 4, 0, 0, 0] = .ok data ∧
      RANKING_PROTOCOL.Readable [8, 0, 0, 0, 4, 0, 4, 0, 4, 0, 0, 0] data :=
  (VerifyRANKING_PROTOCOLBuffer_sound Options.default (by decide)).2
    ⟨[8, 0, 0, 0, 4, 0, 4, 0, 4, 0, 0, 0], Options.default, 0, 1⟩ rfl

/-! ## What is built is accepted -/

/-- The check is about the field, and asks for the alignment of its type. -/
def Field.Matches (f : Field) : Check → Prop
  | .scalar field type align => ∃ (n : ℕ) (e : ℤ), field = n ∧
      align = type.width ∧ f = .scalar n type e
  | .string field => ∃ n : ℕ, field = n ∧ f = .player n

theorem room_new (buf : List UInt8) :
    (Verifier.new buf Options.default).Room := by
  change (0 + 1) % 2 ^ 32 ≤ 64 ∧ (0 + 1) % 2 ^ 32 ≤ 1000000
  decide

/-- A message whose checks are about its fields is accepted. -/
theorem message_accepted {playerId : List UInt8} {fields : List Field}
    (h : Layout playerId fields) (checks : List Check)
    (hchecks : ∀ c ∈ checks, ∃ f ∈ fields, f.Matches c) :
    ((Verifier.new (message playerId fields) Options.default).verifyBuffer
      (verifyTable checks)).Accepts fun w =>
        w.buf = message playerId fields := by
  have hfew := h.few
  obtain ⟨habove, hstored⟩ := above_message h
  have hfinished := habove.finished
  have hbuilding := habove.building
  have hrange := habove.inRange (by omega) h.short
  have hstring := habove.string
  have hshort := h.short
  have htable := hfinished.loc_le
  have hvtable := (hfinished.vtable_stores hbuilding).le_length
  have hfour := Builder.Building.four_le_vtableSize
    (Field.addAll (stringBytes playerId).length
      (Builder.new.createString playerId) fields)
  have hsize := hfinished.size
  have hbehind := hstring.le_length.trans
    (Builder.getSize_le_align _ 4)
  have hlen := hstring.length_le
  rw [List.length_append, List.length_append, length_toBytes,
    List.length_singleton] at hlen
  change _ ≤ (message playerId fields).length at hvtable
  apply Verifier.verifyBuffer_accepts hfinished hrange
  · change 12 ≤ (message playerId fields).length
    omega
  · change _ < (message playerId fields).length
    omega
  apply Verifier.verifyTable_accepts
  · exact hfinished.verifyTableStart_accepts hbuilding hrange rfl
      (room_new _)
  · intro c hc w hbuf hopts
    obtain ⟨f, hf, hmatch⟩ := hchecks c hc
    have hvalid := h.valid f hf
    have hfield := hstored f hf
    cases c with
    | scalar field type align =>
        obtain ⟨n, e, rfl, rfl, rfl⟩ := hmatch
        obtain ⟨hwidth, -, -⟩ := hvalid.width n type e rfl
        rw [← hopts]
        exact hfinished.verifyField_accepts hbuilding hrange hbuf
          hvalid.four_le hvalid.even hwidth hfield
    | string field =>
        obtain ⟨n, rfl, rfl⟩ := hmatch
        rw [← hopts]
        apply hfinished.verifyStringField_accepts hbuilding hrange hbuf hfield
          (dvd_length_stringBytes playerId) hstring
        rw [hopts]
        change playerId.length < 2 ^ 31 - 1
        omega

/-- Verifying the buffer with a generated function succeeds. -/
def Verified (verifyRoot : Verifier → ℤ → Verification) (buf : List UInt8) :
    Prop :=
  ∃ w, (Verifier.new buf Options.default).verifyBuffer verifyRoot =
    .ok (some w)

theorem requestSaveScore_verified {playerId : List UInt8}
    {score lastUpdate : ℤ} (h : SaveScoreFits playerId score lastUpdate) :
    Verified REQUEST_SAVE_SCORE.Verify
      (requestSaveScore playerId score lastUpdate) := by
  have hmatch : ∀ c ∈ REQUEST_SAVE_SCORE.checks,
      ∃ f ∈ saveScoreFields score lastUpdate, f.Matches c := by
    simp only [REQUEST_SAVE_SCORE.checks, List.forall_mem_cons]
    refine ⟨⟨.player 4, ?_, 4, rfl, rfl⟩,
      ⟨.scalar 6 int32_t score, ?_, 6, score, rfl, rfl, rfl⟩,
      ⟨.scalar 8 int64_t lastUpdate, ?_, 8, lastUpdate, rfl, rfl, rfl⟩,
      by simp⟩
    all_goals simp [saveScoreFields]
  rw [requestSaveScore_eq_message]
  obtain ⟨w, hw, -⟩ := message_accepted (layout_saveScore h) _ hmatch
  exact ⟨w, hw⟩

theorem requestPlayerRanking_verified {playerId : List UInt8}
    (hlen : playerId.length < 2 ^ 30) :
    Verified REQUEST_PLAYER_RANKING.Verify
      (requestPlayerRanking playerId) := by
  have hmatch : ∀ c ∈ REQUEST_PLAYER_RANKING.checks,
      ∃ f ∈ playerRankingFields, f.Matches c := by
    simp only [REQUEST_PLAYER_RANKING.checks, List.forall_mem_cons]
    refine ⟨⟨.player 4, ?_, 4, rfl, rfl⟩, by simp⟩
    simp [playerRankingFields]
  rw [requestPlayerRanking_eq_message]
  obtain ⟨w, hw, -⟩ := message_accepted (layout_playerRanking hlen) _ hmatch
  exact ⟨w, hw⟩

theorem responseSaveScore_verified {playerId : List UInt8}
    (hlen : playerId.length < 2 ^ 30) (feedback : Bool) :
    Verified RESPONSE_SAVE_SCORE.Verify
      (responseSaveScore playerId feedback) := by
  have hmatch : ∀ c ∈ RESPONSE_SAVE_SCORE.checks,
      ∃ f ∈ saveScoreResponseFields feedback, f.Matches c := by
    simp only [RESPONSE_SAVE_SCORE.checks, List.forall_mem_cons]
    refine ⟨⟨.player 4, ?_, 4, rfl, rfl⟩,
      ⟨.scalar 6 uint8_t (boolField feedback), ?_, 6, _, rfl, rfl, rfl⟩,
      by simp⟩
    all_goals simp [saveScoreResponseFields]
  rw [responseSaveScore_eq_message]
  obtain ⟨w, hw, -⟩ :=
    message_accepted (layout_saveScoreResponse hlen feedback) _ hmatch
  exact ⟨w, hw⟩

theorem responsePlayerRanking_verified {playerId : List UInt8}
    (hlen : playerId.length < 2 ^ 30) {score ranking : ℤ}
    (hscore : -2 ^ 31 ≤ score ∧ score < 2 ^ 31)
    (hranking : -2 ^ 31 ≤ ranking ∧ ranking < 2 ^ 31)
    (inRanking feedback : Bool) :
    Verified RESPONSE_PLAYER_RANKING.Verify
      (responsePlayerRanking playerId score ranking inRanking feedback) := by
  have hmatch : ∀ c ∈ RESPONSE_PLAYER_RANKING.checks,
      ∃ f ∈ playerRankingResponseFields score ranking inRanking feedback,
        f.Matches c := by
    simp only [RESPONSE_PLAYER_RANKING.checks, List.forall_mem_cons]
    refine ⟨⟨.player 4, ?_, 4, rfl, rfl⟩,
      ⟨.scalar 6 int32_t score, ?_, 6, _, rfl, rfl, rfl⟩,
      ⟨.scalar 8 int32_t ranking, ?_, 8, _, rfl, rfl, rfl⟩,
      ⟨.scalar 10 uint8_t (boolField inRanking), ?_, 10, _, rfl, rfl, rfl⟩,
      ⟨.scalar 12 uint8_t (boolField feedback), ?_, 12, _, rfl, rfl, rfl⟩,
      by simp⟩
    all_goals simp [playerRankingResponseFields]
  rw [responsePlayerRanking_eq_message]
  obtain ⟨w, hw, -⟩ := message_accepted
    (layout_playerRankingResponse hlen hscore hranking inRanking feedback) _
    hmatch
  exact ⟨w, hw⟩

/-- No message that the client or the server builds is refused by the generated
verifier of its table. -/
theorem verified_of_built {playerId : List UInt8}
    {score lastUpdate ranking : ℤ}
    (h : SaveScoreFits playerId score lastUpdate)
    (hranking : -2 ^ 31 ≤ ranking ∧ ranking < 2 ^ 31)
    (inRanking feedback : Bool) :
    Verified REQUEST_SAVE_SCORE.Verify
        (requestSaveScore playerId score lastUpdate) ∧
      Verified REQUEST_PLAYER_RANKING.Verify
        (requestPlayerRanking playerId) ∧
      Verified RESPONSE_SAVE_SCORE.Verify
        (responseSaveScore playerId feedback) ∧
      Verified RESPONSE_PLAYER_RANKING.Verify
        (responsePlayerRanking playerId score ranking inRanking feedback) :=
  ⟨requestSaveScore_verified h, requestPlayerRanking_verified h.playerId,
    responseSaveScore_verified h.playerId feedback,
    responsePlayerRanking_verified h.playerId h.score hranking inRanking
      feedback⟩

theorem verified_of_built_minimum :
    Verified REQUEST_SAVE_SCORE.Verify
        (requestSaveScore [65] (-2 ^ 31) (2 ^ 63 - 1)) ∧
      Verified REQUEST_PLAYER_RANKING.Verify (requestPlayerRanking [65]) ∧
      Verified RESPONSE_SAVE_SCORE.Verify (responseSaveScore [65] true) ∧
      Verified RESPONSE_PLAYER_RANKING.Verify
        (responsePlayerRanking [65] (-2 ^ 31) 1 true true) :=
  verified_of_built ⟨by decide, by decide, by decide⟩ (by decide) true true

end RankingServer.Protocol
