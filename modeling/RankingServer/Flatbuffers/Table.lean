import RankingServer.Foundation.Scalar

/-!
# Reading tables

The accessors of `flatbuffers/table.h`, `buffer.h` and `string.h` as they follow
offsets through a buffer.  A pointer is its distance from the start of the
buffer, and every read that does not lie inside the buffer is a fault.

Each accessor comes with the value it has and the condition under which it
reads inside the buffer, both as plain arithmetic on the bytes; the `_eq_ok_iff`
lemmas say that the accessor returns that value exactly under that condition.
-/

namespace Flatbuffers

open Scalar

/-- What goes wrong when a table is read without being verified first. -/
inductive Fault
  | outside
  | null
deriving DecidableEq, Repr

/-- The result of following a chain of reads. -/
abbrev Access := Except Fault

theorem bind_eq_ok_iff {α β : Type*} {x : Access α} {f : α → Access β}
    {b : β} : x.bind f = .ok b ↔ ∃ a, x = .ok a ∧ f a = .ok b := by
  cases x with
  | error e => simp [Except.bind]
  | ok a => simp [Except.bind]

/-! ## Scalars -/

/-- The `width` bytes from `start` on lie inside the buffer. -/
def Within (buf : List UInt8) (start : ℤ) (width : ℕ) : Prop :=
  0 ≤ start ∧ start + width ≤ buf.length

instance (buf : List UInt8) (start : ℤ) (width : ℕ) :
    Decidable (Within buf start width) :=
  inferInstanceAs (Decidable (_ ∧ _))

def bytesAt (buf : List UInt8) (start : ℤ) (width : ℕ) : List UInt8 :=
  (buf.drop start.toNat).take width

def readBytes (buf : List UInt8) (start : ℤ) (width : ℕ) :
    Access (List UInt8) :=
  if Within buf start width then .ok (bytesAt buf start width)
  else .error .outside

theorem readBytes_eq_ok_iff {buf : List UInt8} {start : ℤ} {width : ℕ}
    {bs : List UInt8} :
    readBytes buf start width = .ok bs ↔
      Within buf start width ∧ bytesAt buf start width = bs := by
  by_cases h : Within buf start width
  · simp [readBytes, h]
  · simp [readBytes, h]

/-- The two's complement value of a byte string. -/
def signed (bs : List UInt8) : ℤ :=
  if 2 * ofBytes bs < 256 ^ bs.length then ofBytes bs
  else ofBytes bs - 256 ^ bs.length

/-- A scalar type that `ReadScalar` is used at. -/
structure ScalarType where
  width : ℕ
  decode : List UInt8 → ℤ

def uint8_t : ScalarType := ⟨1, fun bs => ofBytes bs⟩

def int32_t : ScalarType := ⟨4, signed⟩

def int64_t : ScalarType := ⟨8, signed⟩

/-- `voffset_t` -/
def voffset_t : ScalarType := ⟨2, fun bs => ofBytes bs⟩

/-- `uoffset_t` -/
def uoffset_t : ScalarType := ⟨4, fun bs => ofBytes bs⟩

/-- `soffset_t` -/
def soffset_t : ScalarType := int32_t

def scalarAt (type : ScalarType) (buf : List UInt8) (start : ℤ) : ℤ :=
  type.decode (bytesAt buf start type.width)

/-- `ReadScalar<T>` -/
def readScalar (type : ScalarType) (buf : List UInt8) (start : ℤ) :
    Access ℤ :=
  (readBytes buf start type.width).bind fun bs => .ok (type.decode bs)

theorem readScalar_eq_ok_iff {type : ScalarType} {buf : List UInt8}
    {start value : ℤ} :
    readScalar type buf start = .ok value ↔
      Within buf start type.width ∧ scalarAt type buf start = value := by
  rw [readScalar, bind_eq_ok_iff]
  constructor
  · rintro ⟨bs, hbs, hvalue⟩
    obtain ⟨hwithin, rfl⟩ := readBytes_eq_ok_iff.mp hbs
    exact ⟨hwithin, Except.ok.inj hvalue⟩
  · rintro ⟨hwithin, rfl⟩
    exact ⟨_, readBytes_eq_ok_iff.mpr ⟨hwithin, rfl⟩, rfl⟩

/-! ## Tables -/

/-- `GetRoot`: the pointer to the root table. -/
def getRoot (buf : List UInt8) : Access ℤ :=
  readScalar uoffset_t buf 0

/-- The pointer that `Table::GetVTable` computes. -/
def vtableAt (buf : List UInt8) (data : ℤ) : ℤ :=
  data - scalarAt soffset_t buf data

/-- `Table::GetVTable` -/
def getVTable (buf : List UInt8) (data : ℤ) : Access ℤ :=
  (readScalar soffset_t buf data).bind fun offset => .ok (data - offset)

/-- `Table::GetOptionalFieldOffset` -/
def getOptionalFieldOffset (buf : List UInt8) (data field : ℤ) : Access ℤ :=
  (getVTable buf data).bind fun vtable =>
  (readScalar voffset_t buf vtable).bind fun vtsize =>
  if field < vtsize then readScalar voffset_t buf (vtable + field) else .ok 0

/-- The size that a vtable gives for itself. -/
def vtsizeAt (buf : List UInt8) (data : ℤ) : ℤ :=
  scalarAt voffset_t buf (vtableAt buf data)

/-- The offset of a field in its table, or 0 when the field is not present. -/
def fieldOffsetAt (buf : List UInt8) (data field : ℤ) : ℤ :=
  if field < vtsizeAt buf data then
    scalarAt voffset_t buf (vtableAt buf data + field)
  else 0

/-- The vtable offset, the vtable size and, if the vtable reaches that far, the
entry of the field lie inside the buffer. -/
structure EntryWithin (buf : List UInt8) (data field : ℤ) : Prop where
  table : Within buf data 4
  vtable : Within buf (vtableAt buf data) 2
  entry : field < vtsizeAt buf data →
    Within buf (vtableAt buf data + field) 2

instance (buf : List UInt8) (data field : ℤ) :
    Decidable (EntryWithin buf data field) :=
  decidable_of_iff
    (Within buf data 4 ∧ Within buf (vtableAt buf data) 2 ∧
      (field < vtsizeAt buf data → Within buf (vtableAt buf data + field) 2))
    ⟨fun h => ⟨h.1, h.2.1, h.2.2⟩, fun h => ⟨h.table, h.vtable, h.entry⟩⟩

theorem getOptionalFieldOffset_eq_ok_iff {buf : List UInt8}
    {data field offset : ℤ} :
    getOptionalFieldOffset buf data field = .ok offset ↔
      EntryWithin buf data field ∧ fieldOffsetAt buf data field = offset := by
  simp only [getOptionalFieldOffset, getVTable, bind_eq_ok_iff,
    readScalar_eq_ok_iff]
  constructor
  · rintro ⟨vtable, ⟨_, ⟨htable, rfl⟩, hvtable⟩, vtsize, ⟨hsize, rfl⟩, hentry⟩
    obtain rfl := Except.ok.inj hvtable
    by_cases hfield : field < vtsizeAt buf data
    · rw [← vtableAt, ← vtsizeAt, if_pos hfield, readScalar_eq_ok_iff] at hentry
      refine ⟨⟨htable, hsize, fun _ => hentry.1⟩, ?_⟩
      rw [fieldOffsetAt, if_pos hfield]
      exact hentry.2
    · rw [← vtableAt, ← vtsizeAt, if_neg hfield] at hentry
      refine ⟨⟨htable, hsize, fun h => absurd h hfield⟩, ?_⟩
      rw [fieldOffsetAt, if_neg hfield]
      exact Except.ok.inj hentry
  · rintro ⟨⟨htable, hvtable, hentry⟩, rfl⟩
    refine ⟨vtableAt buf data, ⟨_, ⟨htable, rfl⟩, rfl⟩, vtsizeAt buf data,
      ⟨hvtable, rfl⟩, ?_⟩
    by_cases hfield : field < vtsizeAt buf data
    · rw [if_pos hfield, fieldOffsetAt, if_pos hfield, readScalar_eq_ok_iff]
      exact ⟨hentry hfield, rfl⟩
    · rw [if_neg hfield, fieldOffsetAt, if_neg hfield]

/-- `Table::GetField` -/
def getField (type : ScalarType) (buf : List UInt8)
    (data field defaultval : ℤ) : Access ℤ :=
  (getOptionalFieldOffset buf data field).bind fun offset =>
  if offset ≠ 0 then readScalar type buf (data + offset) else .ok defaultval

def fieldAt (type : ScalarType) (buf : List UInt8)
    (data field defaultval : ℤ) : ℤ :=
  if fieldOffsetAt buf data field ≠ 0 then
    scalarAt type buf (data + fieldOffsetAt buf data field)
  else defaultval

/-- The entry of the field and, if it is present, its value lie inside the
buffer. -/
structure FieldWithin (width : ℕ) (buf : List UInt8) (data field : ℤ) :
    Prop extends EntryWithin buf data field where
  value : fieldOffsetAt buf data field ≠ 0 →
    Within buf (data + fieldOffsetAt buf data field) width

instance (width : ℕ) (buf : List UInt8) (data field : ℤ) :
    Decidable (FieldWithin width buf data field) :=
  decidable_of_iff
    (EntryWithin buf data field ∧ (fieldOffsetAt buf data field ≠ 0 →
      Within buf (data + fieldOffsetAt buf data field) width))
    ⟨fun h => ⟨h.1, h.2⟩, fun h => ⟨h.toEntryWithin, h.value⟩⟩

theorem getField_eq_ok_iff {type : ScalarType} {buf : List UInt8}
    {data field defaultval value : ℤ} :
    getField type buf data field defaultval = .ok value ↔
      FieldWithin type.width buf data field ∧
        fieldAt type buf data field defaultval = value := by
  simp only [getField, bind_eq_ok_iff, getOptionalFieldOffset_eq_ok_iff]
  constructor
  · rintro ⟨_, ⟨hentry, rfl⟩, hvalue⟩
    by_cases hpresent : fieldOffsetAt buf data field ≠ 0
    · rw [if_pos hpresent, readScalar_eq_ok_iff] at hvalue
      refine ⟨⟨hentry, fun _ => hvalue.1⟩, ?_⟩
      rw [fieldAt, if_pos hpresent]
      exact hvalue.2
    · rw [if_neg hpresent] at hvalue
      refine ⟨⟨hentry, fun h => absurd h hpresent⟩, ?_⟩
      rw [fieldAt, if_neg hpresent]
      exact Except.ok.inj hvalue
  · rintro ⟨⟨hentry, hwithin⟩, rfl⟩
    refine ⟨_, ⟨hentry, rfl⟩, ?_⟩
    by_cases hpresent : fieldOffsetAt buf data field ≠ 0
    · rw [if_pos hpresent, fieldAt, if_pos hpresent, readScalar_eq_ok_iff]
      exact ⟨hwithin hpresent, rfl⟩
    · rw [if_neg hpresent, fieldAt, if_neg hpresent]

/-- `Table::GetPointer`, where `none` is the null pointer. -/
def getPointer (buf : List UInt8) (data field : ℤ) : Access (Option ℤ) :=
  (getOptionalFieldOffset buf data field).bind fun offset =>
  if offset ≠ 0 then
    (readScalar uoffset_t buf (data + offset)).bind fun distance =>
      .ok (some (data + offset + distance))
  else .ok none

/-- Where the pointer field points to. -/
def targetAt (buf : List UInt8) (data field : ℤ) : ℤ :=
  data + fieldOffsetAt buf data field +
    scalarAt uoffset_t buf (data + fieldOffsetAt buf data field)

theorem getPointer_eq_some_iff {buf : List UInt8} {data field target : ℤ} :
    getPointer buf data field = .ok (some target) ↔
      FieldWithin 4 buf data field ∧ fieldOffsetAt buf data field ≠ 0 ∧
        targetAt buf data field = target := by
  simp only [getPointer, bind_eq_ok_iff, getOptionalFieldOffset_eq_ok_iff]
  constructor
  · rintro ⟨_, ⟨hentry, rfl⟩, htarget⟩
    by_cases hpresent : fieldOffsetAt buf data field ≠ 0
    · rw [if_pos hpresent, bind_eq_ok_iff] at htarget
      obtain ⟨distance, hdistance, heq⟩ := htarget
      obtain ⟨hwithin, rfl⟩ := readScalar_eq_ok_iff.mp hdistance
      exact ⟨⟨hentry, fun _ => hwithin⟩, hpresent,
        Option.some.inj (Except.ok.inj heq)⟩
    · rw [if_neg hpresent] at htarget
      cases htarget
  · rintro ⟨⟨hentry, hwithin⟩, hpresent, rfl⟩
    refine ⟨_, ⟨hentry, rfl⟩, ?_⟩
    rw [if_pos hpresent, bind_eq_ok_iff]
    exact ⟨_, readScalar_eq_ok_iff.mpr ⟨hwithin hpresent, rfl⟩, rfl⟩

/-! ## Strings -/

/-- `String::str` -/
def str (buf : List UInt8) : Option ℤ → Access (List UInt8)
  | none => .error .null
  | some start =>
      (readScalar uoffset_t buf start).bind fun size =>
        readBytes buf (start + 4) size.toNat

def stringAt (buf : List UInt8) (start : ℤ) : List UInt8 :=
  bytesAt buf (start + 4) (scalarAt uoffset_t buf start).toNat

/-- The length of the string and its bytes lie inside the buffer. -/
structure StringWithin (buf : List UInt8) (start : ℤ) : Prop where
  length : Within buf start 4
  bytes : Within buf (start + 4) (scalarAt uoffset_t buf start).toNat

instance (buf : List UInt8) (start : ℤ) : Decidable (StringWithin buf start) :=
  decidable_of_iff
    (Within buf start 4 ∧
      Within buf (start + 4) (scalarAt uoffset_t buf start).toNat)
    ⟨fun h => ⟨h.1, h.2⟩, fun h => ⟨h.length, h.bytes⟩⟩

theorem str_eq_ok_iff {buf : List UInt8} {target : Option ℤ}
    {bs : List UInt8} :
    str buf target = .ok bs ↔
      ∃ start, target = some start ∧ StringWithin buf start ∧
        stringAt buf start = bs := by
  cases target with
  | none => simp [str]
  | some start =>
      simp only [str, bind_eq_ok_iff, readScalar_eq_ok_iff,
        readBytes_eq_ok_iff, Option.some.injEq, exists_eq_left']
      constructor
      · rintro ⟨_, ⟨hlength, rfl⟩, hbytes, rfl⟩
        exact ⟨⟨hlength, hbytes⟩, rfl⟩
      · rintro ⟨⟨hlength, hbytes⟩, rfl⟩
        exact ⟨_, ⟨hlength, rfl⟩, hbytes, rfl⟩

/-- The string that a pointer field refers to. -/
def getString (buf : List UInt8) (data field : ℤ) : Access (List UInt8) :=
  (getPointer buf data field).bind (str buf)

/-- The field is present, and it and the string it points to lie inside the
buffer. -/
structure StringFieldWithin (buf : List UInt8) (data field : ℤ) :
    Prop extends FieldWithin 4 buf data field where
  present : fieldOffsetAt buf data field ≠ 0
  string : StringWithin buf (targetAt buf data field)

instance (buf : List UInt8) (data field : ℤ) :
    Decidable (StringFieldWithin buf data field) :=
  decidable_of_iff
    (FieldWithin 4 buf data field ∧ fieldOffsetAt buf data field ≠ 0 ∧
      StringWithin buf (targetAt buf data field))
    ⟨fun h => ⟨h.1, h.2.1, h.2.2⟩,
      fun h => ⟨h.toFieldWithin, h.present, h.string⟩⟩

theorem getString_eq_ok_iff {buf : List UInt8} {data field : ℤ}
    {bs : List UInt8} :
    getString buf data field = .ok bs ↔
      StringFieldWithin buf data field ∧
        stringAt buf (targetAt buf data field) = bs := by
  simp only [getString, bind_eq_ok_iff, str_eq_ok_iff]
  constructor
  · rintro ⟨_, hpointer, start, rfl, hstring, rfl⟩
    obtain ⟨hfield, hpresent, rfl⟩ := getPointer_eq_some_iff.mp hpointer
    exact ⟨⟨hfield, hpresent, hstring⟩, rfl⟩
  · rintro ⟨⟨hfield, hpresent, hstring⟩, rfl⟩
    exact ⟨_, getPointer_eq_some_iff.mpr ⟨hfield, hpresent, rfl⟩, _, rfl,
      hstring, rfl⟩

/-! ## Reading in front of further bytes -/

theorem Within.append {buf : List UInt8} {start : ℤ} {width : ℕ}
    (h : Within buf start width) (rest : List UInt8) :
    Within (buf ++ rest) start width := by
  refine ⟨h.1, h.2.trans ?_⟩
  rw [List.length_append]
  omega

theorem bytesAt_append {buf : List UInt8} {start : ℤ} {width : ℕ}
    (h : Within buf start width) (rest : List UInt8) :
    bytesAt (buf ++ rest) start width = bytesAt buf start width := by
  obtain ⟨hpos, hend⟩ := h
  rw [bytesAt, bytesAt, List.drop_append_of_le_length (by omega),
    List.take_append_of_le_length (by rw [List.length_drop]; omega)]

theorem scalarAt_append (type : ScalarType) {buf : List UInt8} {start : ℤ}
    (h : Within buf start type.width) (rest : List UInt8) :
    scalarAt type (buf ++ rest) start = scalarAt type buf start := by
  rw [scalarAt, scalarAt, bytesAt_append h]

theorem EntryWithin.append {buf : List UInt8} {data field : ℤ}
    (h : EntryWithin buf data field) (rest : List UInt8) :
    EntryWithin (buf ++ rest) data field ∧
      fieldOffsetAt (buf ++ rest) data field =
        fieldOffsetAt buf data field := by
  have hvtable : vtableAt (buf ++ rest) data = vtableAt buf data := by
    rw [vtableAt, vtableAt, scalarAt_append soffset_t h.table]
  have hvtsize : vtsizeAt (buf ++ rest) data = vtsizeAt buf data := by
    rw [vtsizeAt, vtsizeAt, hvtable,
      scalarAt_append voffset_t h.vtable]
  constructor
  · refine ⟨h.table.append rest, ?_, fun hfield => ?_⟩
    · rw [hvtable]
      exact h.vtable.append rest
    · rw [hvtsize] at hfield
      rw [hvtable]
      exact (h.entry hfield).append rest
  · rw [fieldOffsetAt, fieldOffsetAt, hvtsize, hvtable]
    by_cases hfield : field < vtsizeAt buf data
    · rw [if_pos hfield, if_pos hfield,
        scalarAt_append voffset_t (h.entry hfield)]
    · rw [if_neg hfield, if_neg hfield]

theorem FieldWithin.append {width : ℕ} {buf : List UInt8} {data field : ℤ}
    (h : FieldWithin width buf data field) (rest : List UInt8) :
    FieldWithin width (buf ++ rest) data field := by
  obtain ⟨hentry, hoffset⟩ := h.toEntryWithin.append rest
  refine ⟨hentry, fun hpresent => ?_⟩
  rw [hoffset] at hpresent ⊢
  exact (h.value hpresent).append rest

theorem targetAt_append {buf : List UInt8} {data field : ℤ}
    (h : FieldWithin 4 buf data field)
    (hpresent : fieldOffsetAt buf data field ≠ 0) (rest : List UInt8) :
    targetAt (buf ++ rest) data field = targetAt buf data field := by
  obtain ⟨-, hoffset⟩ := h.toEntryWithin.append rest
  rw [targetAt, targetAt, hoffset,
    scalarAt_append uoffset_t (h.value hpresent)]

/-- What an accessor returns does not depend on the bytes behind the buffer. -/
theorem readScalar_append {type : ScalarType} {buf : List UInt8}
    {start value : ℤ} (h : readScalar type buf start = .ok value)
    (rest : List UInt8) :
    readScalar type (buf ++ rest) start = .ok value := by
  obtain ⟨hwithin, rfl⟩ := readScalar_eq_ok_iff.mp h
  exact readScalar_eq_ok_iff.mpr
    ⟨hwithin.append rest, scalarAt_append type hwithin rest⟩

theorem getField_append {type : ScalarType} {buf : List UInt8}
    {data field defaultval value : ℤ}
    (h : getField type buf data field defaultval = .ok value)
    (rest : List UInt8) :
    getField type (buf ++ rest) data field defaultval = .ok value := by
  obtain ⟨hwithin, rfl⟩ := getField_eq_ok_iff.mp h
  obtain ⟨-, hoffset⟩ := hwithin.toEntryWithin.append rest
  rw [getField_eq_ok_iff]
  refine ⟨hwithin.append rest, ?_⟩
  rw [fieldAt, fieldAt, hoffset]
  by_cases hpresent : fieldOffsetAt buf data field ≠ 0
  · rw [if_pos hpresent, if_pos hpresent,
      scalarAt_append type (hwithin.value hpresent)]
  · rw [if_neg hpresent, if_neg hpresent]

theorem getString_append {buf : List UInt8} {data field : ℤ}
    {bs : List UInt8} (h : getString buf data field = .ok bs)
    (rest : List UInt8) : getString (buf ++ rest) data field = .ok bs := by
  obtain ⟨⟨hfield, hpresent, hlength, hbytes⟩, rfl⟩ := getString_eq_ok_iff.mp h
  have htarget := targetAt_append hfield hpresent rest
  obtain ⟨-, hoffset⟩ := hfield.toEntryWithin.append rest
  have hsize := scalarAt_append uoffset_t hlength rest
  rw [getString_eq_ok_iff, htarget]
  refine ⟨⟨hfield.append rest, ?_, ?_, ?_⟩, ?_⟩
  · rw [hoffset]
    exact hpresent
  · rw [htarget]
    exact hlength.append rest
  · rw [htarget, hsize]
    exact hbytes.append rest
  · rw [stringAt, stringAt, hsize, bytesAt_append hbytes]

end Flatbuffers
