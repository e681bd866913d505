import RankingServer.Flatbuffers.Finished
import RankingServer.Protocol

/-!
# Every message reads back as it was built

The four tables of `RANKING_PROTOCOL_generated.h` that are sent on their own,
as `Create…` builds them above the string of the player id.  Whatever follows a
message in its buffer, all accessors return the values it was built from, with
the fields that are left out because they have the default value among them.
-/

namespace RankingServer.Protocol

open Flatbuffers Scalar Builder

/-- `CreateREQUEST_SAVE_SCORE` -/
def CreateREQUEST_SAVE_SCORE (b : Builder) (playerId : ℕ)
    (score lastUpdate : ℤ) : Builder × ℕ :=
  let start := b.getSize
  let b := b.addElement REQUEST_SAVE_SCORE.VT_LAST_UPDATE.toNat 8 lastUpdate 0
  let b := b.addElement REQUEST_SAVE_SCORE.VT_SCORE.toNat 4 score 0
  let b := b.addOffset REQUEST_SAVE_SCORE.VT_PLAYER_ID.toNat playerId
  b.endTable start

/-- The finished buffer of a `REQUEST_SAVE_SCORE`. -/
def requestSaveScore (playerId : List UInt8) (score lastUpdate : ℤ) :
    List UInt8 :=
  let b := Builder.new.createString playerId
  let table := CreateREQUEST_SAVE_SCORE b b.getSize score lastUpdate
  (table.1.finish table.2).buf

/-! ## Building above the player id -/

/-- A builder of a message: above the string of the player id, with at most
`n` bytes of a table. -/
structure Above (playerId : List UInt8) (n : ℕ) (b : Builder) : Prop where
  building : Building (stringBytes playerId).length b
  string : Stores b.buf (stringBytes playerId).length
    (toBytes 4 playerId.length ++ playerId ++ [0])
  size : b.getSize ≤ (stringBytes playerId).length + n
  minalign : b.minalign ≤ 8
  maxVoffset : b.maxVoffset ≤ 12

theorem stores_stringBytes (playerId : List UInt8) :
    Stores (stringBytes playerId) (stringBytes playerId).length
      (toBytes 4 playerId.length ++ playerId ++ [0]) := by
  have hzeros : paddedLength playerId.length - playerId.length =
      paddingBytes (playerId.length + 1) 4 + 1 := by
    rw [paddedLength]
    omega
  have hpad : pad (paddedLength playerId.length) playerId = playerId ++
      ([0] ++ List.replicate (paddingBytes (playerId.length + 1) 4) 0) := by
    rw [pad, List.take_of_length_le (by rw [paddedLength]; omega), hzeros]
    rfl
  rw [stringBytes, hpad, ← List.append_assoc, ← List.append_assoc]
  exact stores_append _ _

theorem above_createString (playerId : List UInt8) :
    Above playerId 0 (Builder.new.createString playerId) := by
  rw [createString_new]
  refine ⟨⟨le_rfl, ⟨2, rfl⟩, dvd_zero 2, ?_, ?_, List.Pairwise.nil⟩,
    stores_stringBytes playerId, le_rfl, ?_, ?_⟩
  · intro loc hloc
    cases hloc
  · intro loc hloc
    cases hloc
  · change 4 ≤ 8
    decide
  · change 0 ≤ 12
    decide

theorem length_stringBytes_le (playerId : List UInt8) :
    (stringBytes playerId).length ≤ playerId.length + 8 := by
  have hpadding : paddingBytes (playerId.length + 1) 4 < 4 :=
    Nat.mod_lt _ (by decide)
  rw [length_stringBytes, paddedLength]
  omega

theorem getSize_createString (playerId : List UInt8) :
    (Builder.new.createString playerId).getSize =
      (stringBytes playerId).length := by
  rw [createString_new]
  rfl

section Add

variable {playerId : List UInt8} {n : ℕ} {b : Builder}

theorem Above.stringBytes_pos (playerId : List UInt8) :
    0 < (stringBytes playerId).length := by
  rw [length_stringBytes]
  omega

theorem Above.extends {field m : ℕ} {b' : Builder} (h : Above playerId n b)
    (hbuilding : Building (stringBytes playerId).length b')
    (hext : Extends field b b') (hsize : b'.getSize ≤ b.getSize + m)
    (hminalign : b'.minalign ≤ 8) (hmax : b'.maxVoffset ≤ 12) :
    Above playerId (n + m) b' := by
  obtain ⟨more, hmore⟩ := hext.buf
  have hle := h.size
  refine ⟨hbuilding, ?_, by omega, hminalign, hmax⟩
  rw [hmore]
  exact h.string.prepend more

theorem Above.addElement (h : Above playerId n b) {field width : ℕ}
    (hwidth : ∃ k, width = 2 ^ k) (height : width ≤ 8) (hfour : 4 ≤ field)
    (htwo : 2 ∣ field) (hmax : field ≤ 12) (hlacks : Lacks b field)
    (e default : ℤ) :
    Above playerId (n + 16) (b.addElement field width e default) := by
  by_cases he : e = default
  · have hsize := h.size
    rw [he, addElement_default]
    exact ⟨h.building, h.string, by omega, h.minalign, h.maxVoffset⟩
  · have hpos : 0 < width := by
      obtain ⟨k, rfl⟩ := hwidth
      positivity
    have halign := getSize_align_lt b hpos
    have hadd : b.addElement field width e default =
        (b.pushElement width e).trackField field := by
      rw [Builder.addElement, if_neg he]
    apply h.extends (h.building.addElement hwidth hfour htwo hlacks e default)
      (h.building.extends_addElement hwidth field e default)
    · rw [hadd]
      change (b.pushElement width e).getSize ≤ _
      rw [getSize_pushElement]
      omega
    · rw [hadd]
      exact max_le h.minalign height
    · rw [hadd]
      exact max_le h.maxVoffset hmax

theorem Above.addOffset (h : Above playerId n b) {field : ℕ}
    (hfour : 4 ≤ field) (htwo : 2 ∣ field) (hmax : field ≤ 12)
    (hlacks : Lacks b field) :
    Above playerId (n + 16)
      (b.addOffset field (stringBytes playerId).length) := by
  have hpos := Above.stringBytes_pos playerId
  have hadd := addOffset_eq b field hpos
  have halign := getSize_align_lt b (by decide : 0 < 4)
  have hagain := getSize_align_lt (b.align 4) (by decide : 0 < 4)
  apply h.extends (h.building.addOffset hfour htwo hlacks hpos)
    (h.building.extends_addOffset field hpos)
  · rw [hadd]
    change ((b.align 4).pushElement 4 _).getSize ≤ _
    rw [getSize_pushElement]
    omega
  · rw [hadd]
    exact max_le (max_le h.minalign (by decide)) (by decide)
  · rw [hadd]
    exact max_le h.maxVoffset hmax

end Add

/-- The finished buffer of the table that the builder holds. -/
def finished (playerId : List UInt8) (b : Builder) : List UInt8 :=
  let table := b.endTable (stringBytes playerId).length
  (table.1.finish table.2).buf

section Finish

variable {playerId : List UInt8} {n : ℕ} {b : Builder}

/-- Where the table of a finished message starts. -/
def tableAt (playerId : List UInt8) (b : Builder) : ℕ :=
  (b.endTable (stringBytes playerId).length).2

theorem Above.finished (h : Above playerId n b) :
    Finished b (stringBytes playerId).length (finished playerId b)
      (tableAt playerId b) :=
  h.building.finished

theorem Above.inRange (h : Above playerId n b) (hn : n ≤ 2 ^ 10)
    (hlen : playerId.length < 2 ^ 30) :
    InRange b (stringBytes playerId).length (Protocol.finished playerId b) := by
  have hlength := h.finished.length_le
  have hsize := h.size
  have hmax := h.maxVoffset
  have hminalign := max_le h.minalign (by decide : 4 ≤ 8)
  have halign := getSize_align_lt b (by decide : 0 < 4)
  rw [h.building.length_vtableOf, Building.vtableSize] at hlength
  have hstring := length_stringBytes_le playerId
  constructor
  · omega
  · omega
  · omega

/-- The player id of a message. -/
theorem Above.getString (h : Above playerId n b) (hn : n ≤ 2 ^ 10)
    (hlen : playerId.length < 2 ^ 30) {field : ℕ}
    (hfield : Refers b field (stringBytes playerId).length)
    (rest : List UInt8) :
    getString (Protocol.finished playerId b ++ rest)
      ((Protocol.finished playerId b).length - tableAt playerId b) field =
        .ok playerId :=
  getString_append (h.finished.getString h.building (h.inRange hn hlen) hfield
    h.string.left) rest

/-- A scalar field of a message. -/
theorem Above.getField (h : Above playerId n b) (hn : n ≤ 2 ^ 10)
    (hlen : playerId.length < 2 ^ 30) {type : ScalarType} {field : ℕ}
    {e default : ℤ} (hfour : 4 ≤ field) (htwo : 2 ∣ field)
    (hfield : Builder.Scalar b field type.width e default)
    (hrep : type.Represents e) (rest : List UInt8) :
    getField type (Protocol.finished playerId b ++ rest)
      ((Protocol.finished playerId b).length - tableAt playerId b) field
      default = .ok e :=
  getField_append (h.finished.getField h.building (h.inRange hn hlen) hfour
    htwo hfield hrep) rest

theorem Above.getRoot (h : Above playerId n b) (hn : n ≤ 2 ^ 10)
    (hlen : playerId.length < 2 ^ 30) (rest : List UInt8) :
    getRoot (Protocol.finished playerId b ++ rest) =
      .ok ((Protocol.finished playerId b).length - tableAt playerId b) :=
  readScalar_append
    (h.finished.getRoot (h.inRange hn hlen).buffer) rest

end Finish

/-! ## The fields of a message -/

/-- One call of an `add_…` function of a generated builder. -/
inductive Field
  | scalar (field : ℕ) (type : ScalarType) (e : ℤ)
  | player (field : ℕ)

namespace Field

/-- The place of the field in the vtable. -/
def id : Field → ℕ
  | scalar field _ _ => field
  | player field => field

/-- The call; `playerId` is the offset of the player id. -/
def add (playerId : ℕ) (b : Builder) : Field → Builder
  | scalar field type e => b.addElement field type.width e 0
  | player field => b.addOffset field playerId

/-- The calls of a generated builder in their order. -/
def addAll (playerId : ℕ) (b : Builder) (fields : List Field) : Builder :=
  fields.foldl (add playerId) b

/-- The field has a place in the vtable, and its value fits into its type. -/
structure Valid (f : Field) : Prop where
  four_le : 4 ≤ f.id
  even : 2 ∣ f.id
  le : f.id ≤ 12
  width : ∀ field type e, f = scalar field type e →
    (∃ k, type.width = 2 ^ k) ∧ type.width ≤ 8 ∧ type.Represents e

/-- The field as it is found in the builder. -/
def Stored (playerId : ℕ) (b : Builder) : Field → Prop
  | scalar field type e => Builder.Scalar b field type.width e 0
  | player field => Refers b field playerId

section Add

variable {playerId : List UInt8} {n : ℕ} {b : Builder}

theorem Stored.extends {m field : ℕ} {f : Field} {b' : Builder}
    (h : f.Stored m b) (hext : Extends field b b')
    (hapart : Apart field f.id) : f.Stored m b' := by
  cases f with
  | scalar other type e => exact Scalar.extends h hext hapart
  | player other => exact Refers.extends h hext

/-- One call: the builder is still that of the message, the field is stored,
and no other field is touched. -/
theorem above_add (h : Above playerId n b) {f : Field} (hvalid : f.Valid)
    (hlacks : Lacks b f.id) :
    Above playerId (n + 16) (f.add (stringBytes playerId).length b) ∧
      f.Stored (stringBytes playerId).length
        (f.add (stringBytes playerId).length b) ∧
      Extends f.id b (f.add (stringBytes playerId).length b) := by
  have hpos := Above.stringBytes_pos playerId
  cases f with
  | scalar field type e =>
      obtain ⟨hwidth, height, -⟩ := hvalid.width field type e rfl
      exact ⟨h.addElement hwidth height hvalid.four_le hvalid.even hvalid.le
          hlacks e 0,
        h.building.scalar_addElement hwidth hlacks e 0,
        h.building.extends_addElement hwidth field e 0⟩
  | player field =>
      exact ⟨h.addOffset hvalid.four_le hvalid.even hvalid.le hlacks,
        h.building.refers_addOffset field hpos h.building.start_le,
        h.building.extends_addOffset field hpos⟩

/-- All calls: every field is stored. -/
theorem above_addAll {fields : List Field} (h : Above playerId n b)
    (hvalid : ∀ f ∈ fields, f.Valid) (hlacks : ∀ f ∈ fields, Lacks b f.id)
    (hapart : fields.Pairwise fun f g => Apart f.id g.id) :
    Above playerId (n + 16 * fields.length)
        (addAll (stringBytes playerId).length b fields) ∧
      (∀ f ∈ fields, f.Stored (stringBytes playerId).length
        (addAll (stringBytes playerId).length b fields)) ∧
      ∀ f : Field, f.Stored (stringBytes playerId).length b →
        (∀ g ∈ fields, Apart g.id f.id) →
        f.Stored (stringBytes playerId).length
          (addAll (stringBytes playerId).length b fields) := by
  induction fields generalizing n b with
  | nil =>
      refine ⟨h, ?_, ?_⟩
      · intro f hf
        cases hf
      · intro f hf _
        exact hf
  | cons f fields ih =>
      rw [List.pairwise_cons] at hapart
      obtain ⟨habove, hstored, hext⟩ := above_add h
        (hvalid f List.mem_cons_self) (hlacks f List.mem_cons_self)
      obtain ⟨hall, hfields, hothers⟩ := ih habove
        (fun g hg => hvalid g (List.mem_cons_of_mem f hg))
        (fun g hg => (hlacks g (List.mem_cons_of_mem f hg)).extends hext
          (hapart.1 g hg)) hapart.2
      refine ⟨?_, ?_, ?_⟩
      · have hsum : n + 16 * (f :: fields).length =
            n + 16 + 16 * fields.length := by
          rw [List.length_cons]
          omega
        rw [hsum]
        exact hall
      · intro g hg
        rcases List.mem_cons.mp hg with rfl | hg
        · exact hothers g hstored fun other hother =>
            (hapart.1 other hother).symm
        · exact hfields g hg
      · intro g hg hgapart
        apply hothers g (hg.extends hext (hgapart f List.mem_cons_self))
        intro other hother
        exact hgapart other (List.mem_cons_of_mem f hother)

end Add

end Field

/-! ## Reading a message back -/

/-- The finished buffer of the message with the given fields. -/
def message (playerId : List UInt8) (fields : List Field) : List UInt8 :=
  finished playerId (Field.addAll (stringBytes playerId).length
    (Builder.new.createString playerId) fields)

/-- The fields of a table, each with its own place, and their values fit. -/
structure Layout (playerId : List UInt8) (fields : List Field) : Prop where
  valid : ∀ f ∈ fields, f.Valid
  apart : fields.Pairwise fun f g => Apart f.id g.id
  few : fields.length ≤ 2 ^ 6
  short : playerId.length < 2 ^ 30

theorem above_message {playerId : List UInt8} {fields : List Field}
    (h : Layout playerId fields) :
    Above playerId (16 * fields.length)
        (Field.addAll (stringBytes playerId).length
          (Builder.new.createString playerId) fields) ∧
      ∀ f ∈ fields, f.Stored (stringBytes playerId).length
        (Field.addAll (stringBytes playerId).length
          (Builder.new.createString playerId) fields) := by
  have hlacks : ∀ f ∈ fields,
      Lacks (Builder.new.createString playerId) f.id := by
    rw [createString_new]
    intro f _ loc hloc
    cases hloc
  obtain ⟨habove, hstored, -⟩ := Field.above_addAll
    (above_createString playerId) h.valid hlacks h.apart
  rw [Nat.zero_add] at habove
  exact ⟨habove, hstored⟩

/-- A field of the table at `data` reads as it was built. -/
def Field.ReadsBack (playerId buf : List UInt8) (data : ℤ) : Field → Prop
  | scalar field type e => getField type buf data field 0 = .ok e
  | player field => getString buf data field = .ok playerId

/-- Every message reads back as it was built, whatever follows it in its
buffer. -/
theorem message_readsBack {playerId : List UInt8} {fields : List Field}
    (h : Layout playerId fields) (rest : List UInt8) :
    ∃ data, getRoot (message playerId fields ++ rest) = .ok data ∧
      ∀ f ∈ fields,
        f.ReadsBack playerId (message playerId fields ++ rest) data := by
  have hfew := h.few
  obtain ⟨habove, hstored⟩ := above_message h
  refine ⟨_, habove.getRoot (by omega) h.short rest, ?_⟩
  intro f hf
  have hvalid := h.valid f hf
  have hfield := hstored f hf
  cases f with
  | scalar field type e =>
      obtain ⟨-, -, hrep⟩ := hvalid.width field type e rfl
      exact habove.getField (by omega) h.short hvalid.four_le hvalid.even hfield
        hrep rest
  | player field =>
      exact habove.getString (by omega) h.short hfield rest

/-- The values of a save request that its types can hold. -/
structure SaveScoreFits (playerId : List UInt8) (score lastUpdate : ℤ) :
    Prop where
  playerId : playerId.length < 2 ^ 30
  score : -2 ^ 31 ≤ score ∧ score < 2 ^ 31
  lastUpdate : -2 ^ 63 ≤ lastUpdate ∧ lastUpdate < 2 ^ 63

def saveScoreFields (score lastUpdate : ℤ) : List Field :=
  [.scalar 8 int64_t lastUpdate, .scalar 6 int32_t score, .player 4]

def playerRankingFields : List Field := [.player 4]

def saveScoreResponseFields (feedback : Bool) : List Field :=
  [.player 4, .scalar 6 uint8_t (boolField feedback)]

def playerRankingResponseFields (score ranking : ℤ)
    (inRanking feedback : Bool) : List Field :=
  [.scalar 8 int32_t ranking, .scalar 6 int32_t score, .player 4,
    .scalar 12 uint8_t (boolField feedback),
    .scalar 10 uint8_t (boolField inRanking)]

theorem requestSaveScore_eq_message (playerId : List UInt8)
    (score lastUpdate : ℤ) :
    requestSaveScore playerId score lastUpdate =
      message playerId (saveScoreFields score lastUpdate) := by
  simp only [requestSaveScore, CreateREQUEST_SAVE_SCORE, getSize_createString]
  rfl

theorem requestPlayerRanking_eq_message (playerId : List UInt8) :
    requestPlayerRanking playerId = message playerId playerRankingFields := by
  simp only [requestPlayerRanking, CreateREQUEST_PLAYER_RANKING,
    getSize_createString]
  rfl

theorem responseSaveScore_eq_message (playerId : List UInt8)
    (feedback : Bool) :
    responseSaveScore playerId feedback =
      message playerId (saveScoreResponseFields feedback) := by
  simp only [responseSaveScore, CreateRESPONSE_SAVE_SCORE,
    getSize_createString]
  rfl

theorem responsePlayerRanking_eq_message (playerId : List UInt8)
    (score ranking : ℤ) (inRanking feedback : Bool) :
    responsePlayerRanking playerId score ranking inRanking feedback =
      message playerId
        (playerRankingResponseFields score ranking inRanking feedback) := by
  simp only [responsePlayerRanking, CreateRESPONSE_PLAYER_RANKING,
    getSize_createString]
  rfl

theorem valid_player : Field.Valid (.player 4) :=
  ⟨by decide, by decide, by decide, by simp⟩

theorem valid_scalar {field : ℕ} {type : ScalarType} {e : ℤ}
    (hfield : 4 ≤ field ∧ 2 ∣ field ∧ field ≤ 12)
    (hwidth : ∃ k, type.width = 2 ^ k) (height : type.width ≤ 8)
    (hrep : type.Represents e) : Field.Valid (.scalar field type e) := by
  refine ⟨hfield.1, hfield.2.1, hfield.2.2, ?_⟩
  rintro _ _ _ heq
  obtain ⟨rfl, rfl, rfl⟩ := Field.scalar.inj heq
  exact ⟨hwidth, height, hrep⟩

theorem valid_bool {field : ℕ} (hfield : 4 ≤ field ∧ 2 ∣ field ∧ field ≤ 12)
    (b : Bool) : Field.Valid (.scalar field uint8_t (boolField b)) := by
  apply valid_scalar hfield ⟨0, rfl⟩ (by decide)
  cases b with
  | false => exact uint8_t_represents (by decide) (by decide)
  | true => exact uint8_t_represents (by decide) (by decide)

theorem valid_int32 {field : ℕ} (hfield : 4 ≤ field ∧ 2 ∣ field ∧ field ≤ 12)
    {e : ℤ} (he : -2 ^ 31 ≤ e ∧ e < 2 ^ 31) :
    Field.Valid (.scalar field int32_t e) :=
  valid_scalar hfield ⟨2, rfl⟩ (by decide) (int32_t_represents he.1 he.2)

theorem layout_saveScore {playerId : List UInt8} {score lastUpdate : ℤ}
    (h : SaveScoreFits playerId score lastUpdate) :
    Layout playerId (saveScoreFields score lastUpdate) := by
  constructor
  · simp only [saveScoreFields, List.forall_mem_cons]
    refine ⟨?_, valid_int32 (by decide) h.score, valid_player, by simp⟩
    exact valid_scalar (by decide) ⟨3, rfl⟩ (by decide)
      (int64_t_represents h.lastUpdate.1 h.lastUpdate.2)
  · simp [saveScoreFields, Field.id, Apart]
  · simp [saveScoreFields]
  · exact h.playerId

theorem layout_playerRanking {playerId : List UInt8}
    (hlen : playerId.length < 2 ^ 30) :
    Layout playerId playerRankingFields := by
  constructor
  · simp only [playerRankingFields, List.forall_mem_cons]
    exact ⟨valid_player, by simp⟩
  · simp [playerRankingFields]
  · decide
  · exact hlen

theorem layout_saveScoreResponse {playerId : List UInt8}
    (hlen : playerId.length < 2 ^ 30) (feedback : Bool) :
    Layout playerId (saveScoreResponseFields feedback) := by
  constructor
  · simp only [saveScoreResponseFields, List.forall_mem_cons]
    exact ⟨valid_player, valid_bool (by decide) feedback, by simp⟩
  · simp [saveScoreResponseFields, Field.id, Apart]
  · simp [saveScoreResponseFields]
  · exact hlen

theorem layout_playerRankingResponse {playerId : List UInt8}
    (hlen : playerId.length < 2 ^ 30) {score ranking : ℤ}
    (hscore : -2 ^ 31 ≤ score ∧ score < 2 ^ 31)
    (hranking : -2 ^ 31 ≤ ranking ∧ ranking < 2 ^ 31)
    (inRanking feedback : Bool) :
    Layout playerId
      (playerRankingResponseFields score ranking inRanking feedback) := by
  constructor
  · simp only [playerRankingResponseFields, List.forall_mem_cons]
    exact ⟨valid_int32 (by decide) hranking, valid_int32 (by decide) hscore,
      valid_player, valid_bool (by decide) feedback,
      valid_bool (by decide) inRanking, by simp⟩
  · simp [playerRankingResponseFields, Field.id, Apart]
  · simp [playerRankingResponseFields]
  · exact hlen

/-! ## What a reader of the four messages gets -/

namespace RESPONSE_PLAYER_RANKING

def feedback (buf : List UInt8) (data : ℤ) : Access ℤ :=
  getField uint8_t buf data VT_FEEDBACK 0

end RESPONSE_PLAYER_RANKING

theorem requestSaveScore_reads {playerId : List UInt8} {score lastUpdate : ℤ}
    (h : SaveScoreFits playerId score lastUpdate) (rest : List UInt8) :
    let buf := requestSaveScore playerId score lastUpdate ++ rest
    ∃ data, getRoot buf = .ok data ∧
      REQUEST_SAVE_SCORE.player_id buf data = .ok playerId ∧
      REQUEST_SAVE_SCORE.score buf data = .ok score ∧
      REQUEST_SAVE_SCORE.last_update buf data = .ok lastUpdate := by
  obtain ⟨data, hroot, hfields⟩ :=
    message_readsBack (layout_saveScore h) rest
  simp only [saveScoreFields, List.forall_mem_cons, Field.ReadsBack] at hfields
  obtain ⟨hupdate, hscore, hplayer, -⟩ := hfields
  rw [requestSaveScore_eq_message]
  exact ⟨data, hroot, hplayer, hscore, hupdate⟩

theorem requestPlayerRanking_reads {playerId : List UInt8}
    (hlen : playerId.length < 2 ^ 30) (rest : List UInt8) :
    let buf := requestPlayerRanking playerId ++ rest
    ∃ data, getRoot buf = .ok data ∧
      REQUEST_PLAYER_RANKING.player_id buf data = .ok playerId := by
  obtain ⟨data, hroot, hfields⟩ :=
    message_readsBack (layout_playerRanking hlen) rest
  simp only [playerRankingFields, List.forall_mem_cons, Field.ReadsBack]
    at hfields
  rw [requestPlayerRanking_eq_message]
  exact ⟨data, hroot, hfields.1⟩

theorem responseSaveScore_reads {playerId : List UInt8}
    (hlen : playerId.length < 2 ^ 30) (feedback : Bool) (rest : List UInt8) :
    let buf := responseSaveScore playerId feedback ++ rest
    ∃ data, getRoot buf = .ok data ∧
      RESPONSE_SAVE_SCORE.player_id buf data = .ok playerId ∧
      RESPONSE_SAVE_SCORE.feedback buf data = .ok (boolField feedback) := by
  obtain ⟨data, hroot, hfields⟩ :=
    message_readsBack (layout_saveScoreResponse hlen feedback) rest
  simp only [saveScoreResponseFields, List.forall_mem_cons, Field.ReadsBack]
    at hfields
  obtain ⟨hplayer, hfeedback, -⟩ := hfields
  rw [responseSaveScore_eq_message]
  exact ⟨data, hroot, hplayer, hfeedback⟩

theorem responsePlayerRanking_reads {playerId : List UInt8}
    (hlen : playerId.length < 2 ^ 30) {score ranking : ℤ}
    (hscore : -2 ^ 31 ≤ score ∧ score < 2 ^ 31)
    (hranking : -2 ^ 31 ≤ ranking ∧ ranking < 2 ^ 31)
    (inRanking feedback : Bool) (rest : List UInt8) :
    let buf :=
      responsePlayerRanking playerId score ranking inRanking feedback ++ rest
    ∃ data, getRoot buf = .ok data ∧
      RESPONSE_PLAYER_RANKING.player_id buf data = .ok playerId ∧
      RESPONSE_PLAYER_RANKING.score buf data = .ok score ∧
      RESPONSE_PLAYER_RANKING.ranking buf data = .ok ranking ∧
      RESPONSE_PLAYER_RANKING.in_ranking buf data =
        .ok (boolField inRanking) ∧
      RESPONSE_PLAYER_RANKING.feedback buf data = .ok (boolField feedback) := by
  obtain ⟨data, hroot, hfields⟩ := message_readsBack
    (layout_playerRankingResponse hlen hscore hranking inRanking feedback) rest
  simp only [playerRankingResponseFields, List.forall_mem_cons,
    Field.ReadsBack] at hfields
  obtain ⟨hrank, hsc, hplayer, hfeedback, hin, -⟩ := hfields
  rw [responsePlayerRanking_eq_message]
  exact ⟨data, hroot, hplayer, hsc, hrank, hin, hfeedback⟩

/-- Every message of the program reads back as it was built, to the last field
and whatever follows it in its buffer. -/
theorem roundTrip_of_built {playerId : List UInt8}
    {score lastUpdate ranking : ℤ}
    (h : SaveScoreFits playerId score lastUpdate)
    (hranking : -2 ^ 31 ≤ ranking ∧ ranking < 2 ^ 31)
    (inRanking feedback : Bool) (rest : List UInt8) :
    (let buf := requestSaveScore playerId score lastUpdate ++ rest
      ∃ data, getRoot buf = .ok data ∧
        REQUEST_SAVE_SCORE.player_id buf data = .ok playerId ∧
        REQUEST_SAVE_SCORE.score buf data = .ok score ∧
        REQUEST_SAVE_SCORE.last_update buf data = .ok lastUpdate) ∧
    (let buf := requestPlayerRanking playerId ++ rest
      ∃ data, getRoot buf = .ok data ∧
        REQUEST_PLAYER_RANKING.player_id buf data = .ok playerId) ∧
    (let buf := responseSaveScore playerId feedback ++ rest
      ∃ data, getRoot buf = .ok data ∧
        RESPONSE_SAVE_SCORE.player_id buf data = .ok playerId ∧
        RESPONSE_SAVE_SCORE.feedback buf data = .ok (boolField feedback)) ∧
    (let buf :=
        responsePlayerRanking playerId score ranking inRanking feedback ++ rest
      ∃ data, getRoot buf = .ok data ∧
        RESPONSE_PLAYER_RANKING.player_id buf data = .ok playerId ∧
        RESPONSE_PLAYER_RANKING.score buf data = .ok score ∧
        RESPONSE_PLAYER_RANKING.ranking buf data = .ok ranking ∧
        RESPONSE_PLAYER_RANKING.in_ranking buf data =
          .ok (boolField inRanking) ∧
        RESPONSE_PLAYER_RANKING.feedback buf data =
          .ok (boolField feedback)) :=
  ⟨requestSaveScore_reads h rest, requestPlayerRanking_reads h.playerId rest,
    responseSaveScore_reads h.playerId feedback rest,
    responsePlayerRanking_reads h.playerId h.score hranking inRanking feedback
      rest⟩

theorem roundTrip_of_built_zero :
    ∃ data, getRoot (responsePlayerRanking [65] 0 1 false false) = .ok data ∧
      RESPONSE_PLAYER_RANKING.score
        (responsePlayerRanking [65] 0 1 false false) data = .ok 0 := by
  have h : SaveScoreFits [65] 0 0 := ⟨by decide, by decide, by decide⟩
  obtain ⟨-, -, -, data, hroot, -, hscore, -⟩ :=
    roundTrip_of_built h (by decide : (-2 ^ 31 : ℤ) ≤ 1 ∧ (1 : ℤ) < 2 ^ 31)
      false false []
  rw [List.append_nil] at hroot hscore
  exact ⟨data, hroot, hscore⟩

end RankingServer.Protocol
