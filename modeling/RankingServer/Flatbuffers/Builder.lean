import RankingServer.Flatbuffers.Table

/-!
# Building tables

`flatbuffers::FlatBufferBuilder`, as far as it is used to build one table of
scalars and strings.  The buffer grows downwards: `buf` lists its bytes from
the current position to the end, and an offset is a distance from the end.  A
builder that makes a single table has no earlier vtable to share, so the search
for an equal vtable in `EndTable` is left out.
-/

namespace Flatbuffers

open Scalar

/-- The number of padding bytes that make `bufSize` a multiple of
`scalarSize`. -/
def paddingBytes (bufSize scalarSize : ℕ) : ℕ :=
  (scalarSize - bufSize % scalarSize) % scalarSize

/-- `WriteScalar` into bytes that exist already. -/
def writeAt (buf : List UInt8) (i : ℕ) (bytes : List UInt8) : List UInt8 :=
  buf.take i ++ bytes ++ buf.drop (i + bytes.length)

/-- `FlatBufferBuilder`: the buffer, `minalign_`, the locations of the fields of
the current table (`off` and `id`) and `max_voffset_`. -/
structure Builder where
  buf : List UInt8
  minalign : ℕ
  fieldLocs : List (ℕ × ℕ)
  maxVoffset : ℕ

namespace Builder

def new : Builder := ⟨[], 1, [], 0⟩

/-- `GetSize` -/
def getSize (b : Builder) : ℕ := b.buf.length

/-- `PushBytes` -/
def pushBytes (b : Builder) (bytes : List UInt8) : Builder :=
  { b with buf := bytes ++ b.buf }

/-- `buf_.fill` -/
def fill (b : Builder) (zeroPadBytes : ℕ) : Builder :=
  b.pushBytes (List.replicate zeroPadBytes 0)

def trackMinAlign (b : Builder) (elemSize : ℕ) : Builder :=
  { b with minalign := max b.minalign elemSize }

def align (b : Builder) (elemSize : ℕ) : Builder :=
  (b.trackMinAlign elemSize).fill (paddingBytes b.getSize elemSize)

def preAlign (b : Builder) (len alignment : ℕ) : Builder :=
  if len = 0 then b
  else (b.trackMinAlign alignment).fill
    (paddingBytes (b.getSize + len) alignment)

/-- `PushElement`, for a scalar of the given width. -/
def pushElement (b : Builder) (width : ℕ) (element : ℤ) : Builder :=
  (b.align width).pushBytes
    (toBytes width (element % (256 ^ width : ℕ)).toNat)

/-- `ReferTo`: the buffer is aligned before the distance is taken. -/
def referTo (b : Builder) (off : ℕ) : Builder × ℕ :=
  (b.align 4, (b.align 4).getSize - off + 4)

def trackField (b : Builder) (field : ℕ) : Builder :=
  { b with
    fieldLocs := b.fieldLocs ++ [(b.getSize, field)]
    maxVoffset := max b.maxVoffset field }

/-- `AddElement`: a value equal to the default is not stored. -/
def addElement (b : Builder) (field width : ℕ) (e default : ℤ) : Builder :=
  if e = default then b else (b.pushElement width e).trackField field

def addOffset (b : Builder) (field off : ℕ) : Builder :=
  if off = 0 then b
  else (b.referTo off).1.addElement field 4 (b.referTo off).2 0

/-- `CreateString`; the offset of the string is the size afterwards. -/
def createString (b : Builder) (str : List UInt8) : Builder :=
  (((b.preAlign (str.length + 1) 4).fill 1).pushBytes str).pushElement 4
    str.length

/-- The vtable of `EndTable`, written over zeros. -/
def vtable (vtableOffsetLoc start maxVoffset : ℕ)
    (fieldLocs : List (ℕ × ℕ)) : List UInt8 :=
  let zeros := List.replicate maxVoffset 0
  let sized := writeAt (writeAt zeros 2 (toBytes 2 (vtableOffsetLoc - start)))
    0 (toBytes 2 maxVoffset)
  fieldLocs.foldl
    (fun bytes loc => writeAt bytes loc.2 (toBytes 2 (vtableOffsetLoc - loc.1)))
    sized

/-- The part of `EndTable` that makes the vtable of the table object that ends
here. -/
def pushVTable (b : Builder) (start : ℕ) : Builder :=
  b.pushBytes
    (vtable b.getSize start (max (b.maxVoffset + 2) 4) b.fieldLocs)

/-- The part of `EndTable` that stores the distance to the vtable at the start
of the table, after which the fields are forgotten. -/
def linkVTable (b : Builder) (vtableOffsetLoc : ℕ) : Builder :=
  { b with
    buf := writeAt b.buf (b.getSize - vtableOffsetLoc)
      (toBytes 4 (b.getSize - vtableOffsetLoc))
    fieldLocs := []
    maxVoffset := 0 }

/-- `EndTable` for a table started at size `start`; the offset of the table is
returned beside the builder. -/
def endTable (b : Builder) (start : ℕ) : Builder × ℕ :=
  let b := b.pushElement 4 0
  ((b.pushVTable start).linkVTable b.getSize, b.getSize)

/-- `Finish`, without a file identifier. -/
def finish (b : Builder) (root : ℕ) : Builder :=
  let b := b.preAlign 4 b.minalign
  (b.referTo root).1.pushElement 4 (b.referTo root).2

end Builder

/-! ## Sizes -/

theorem paddingBytes_add {size scalarSize : ℕ} (hsize : scalarSize ∣ size)
    (n : ℕ) : paddingBytes (n + size) scalarSize =
      paddingBytes n scalarSize := by
  obtain ⟨k, rfl⟩ := hsize
  rw [paddingBytes, Nat.add_mul_mod_self_left]
  rfl

/-- A string of `n` bytes with its terminator and its padding. -/
def paddedLength (n : ℕ) : ℕ := n + 1 + paddingBytes (n + 1) 4

theorem dvd_paddedLength (n : ℕ) : 4 ∣ paddedLength n := by
  simp only [paddedLength, paddingBytes]
  omega

/-- The bytes of a string at the end of a buffer. -/
def stringBytes (str : List UInt8) : List UInt8 :=
  toBytes 4 str.length ++ pad (paddedLength str.length) str

@[simp] theorem length_stringBytes (str : List UInt8) :
    (stringBytes str).length = 4 + paddedLength str.length := by
  simp [stringBytes]

theorem dvd_length_stringBytes (str : List UInt8) :
    4 ∣ (stringBytes str).length := by
  rw [length_stringBytes]
  exact Nat.dvd_add (dvd_refl 4) (dvd_paddedLength _)

/-- The bytes of a scalar of the given width. -/
def scalarBytes (width : ℕ) (e : ℤ) : List UInt8 :=
  toBytes width (e % (256 ^ width : ℕ)).toNat

@[simp] theorem length_scalarBytes (width : ℕ) (e : ℤ) :
    (scalarBytes width e).length = width :=
  length_toBytes _ _

theorem scalarBytes_natCast (width n : ℕ) :
    scalarBytes width (n : ℤ) = toBytes width n := by
  rw [scalarBytes, ← Int.natCast_mod, Int.toNat_natCast, toBytes_mod]

namespace Builder

theorem createString_new (str : List UInt8) :
    new.createString str = ⟨stringBytes str, 4, [], 0⟩ := by
  have hpadding : paddingBytes
      (str.length + (paddingBytes (str.length + 1) 4 + 1)) 4 = 0 := by
    simp only [paddingBytes]
    omega
  have hpad : pad (paddedLength str.length) str =
      str ++ 0 :: List.replicate (paddingBytes (str.length + 1) 4) 0 := by
    rw [pad, paddedLength, List.take_of_length_le (by omega),
      ← List.replicate_succ]
    congr 2
    omega
  rw [stringBytes, hpad, ← scalarBytes_natCast]
  simp [createString, new, preAlign, trackMinAlign, fill, pushBytes,
    pushElement, align, getSize, hpadding, scalarBytes]

/-! ## Building above bytes that exist already -/

/-- The builder with the bytes of `base` behind its own. -/
def atop (b : Builder) (base : List UInt8) : Builder :=
  { b with
    buf := b.buf ++ base
    fieldLocs := b.fieldLocs.map fun loc => (loc.1 + base.length, loc.2) }

variable {base : List UInt8}

theorem getSize_atop (b : Builder) :
    (b.atop base).getSize = b.getSize + base.length := by
  simp [atop, getSize]

theorem pushBytes_atop (b : Builder) (bytes : List UInt8) :
    (b.atop base).pushBytes bytes = (b.pushBytes bytes).atop base := by
  simp [atop, pushBytes]

theorem align_atop (b : Builder) {elemSize : ℕ}
    (hdvd : elemSize ∣ base.length) :
    (b.atop base).align elemSize = (b.align elemSize).atop base := by
  rw [align, getSize_atop, paddingBytes_add hdvd]
  exact pushBytes_atop (b.trackMinAlign elemSize) _

theorem preAlign_atop (b : Builder) (len : ℕ) {alignment : ℕ}
    (hdvd : alignment ∣ base.length) :
    (b.atop base).preAlign len alignment =
      (b.preAlign len alignment).atop base := by
  by_cases hlen : len = 0
  · rw [preAlign, preAlign, if_pos hlen, if_pos hlen]
  · have hsize : b.getSize + base.length + len =
        b.getSize + len + base.length := by omega
    rw [preAlign, preAlign, if_neg hlen, if_neg hlen, getSize_atop, hsize,
      paddingBytes_add hdvd]
    exact pushBytes_atop (b.trackMinAlign alignment) _

theorem pushElement_atop (b : Builder) {width : ℕ}
    (hdvd : width ∣ base.length) (element : ℤ) :
    (b.atop base).pushElement width element =
      (b.pushElement width element).atop base := by
  rw [pushElement, align_atop b hdvd, pushBytes_atop]
  rfl

theorem addElement_atop (b : Builder) (field : ℕ) {width : ℕ}
    (hdvd : width ∣ base.length) (e default : ℤ) :
    (b.atop base).addElement field width e default =
      (b.addElement field width e default).atop base := by
  by_cases he : e = default
  · rw [addElement, addElement, if_pos he, if_pos he]
  · rw [addElement, addElement, if_neg he, if_neg he,
      pushElement_atop b hdvd, trackField, getSize_atop]
    simp [atop, trackField]

/-- An offset field that refers to the string at the start of `base`. -/
theorem addOffset_atop (b : Builder) (field : ℕ) (hdvd : 4 ∣ base.length)
    (hpos : base.length ≠ 0) :
    (b.atop base).addOffset field base.length =
      ((b.align 4).addElement field 4 ((b.align 4).getSize + 4 : ℕ) 0).atop
        base := by
  rw [addOffset, if_neg hpos, referTo, align_atop b hdvd, getSize_atop,
    Nat.add_sub_cancel, addElement_atop _ _ hdvd]

theorem vtable_atop (vtableOffsetLoc start maxVoffset : ℕ)
    (fieldLocs : List (ℕ × ℕ)) (n : ℕ) :
    vtable (vtableOffsetLoc + n) (start + n) maxVoffset
        (fieldLocs.map fun loc => (loc.1 + n, loc.2)) =
      vtable vtableOffsetLoc start maxVoffset fieldLocs := by
  simp only [vtable, List.foldl_map, Nat.add_sub_add_right]

theorem writeAt_append {buf : List UInt8} {i : ℕ} {bytes : List UInt8}
    (hfit : i + bytes.length ≤ buf.length) (rest : List UInt8) :
    writeAt (buf ++ rest) i bytes = writeAt buf i bytes ++ rest := by
  rw [writeAt, writeAt, List.take_append_of_le_length (by omega),
    List.drop_append_of_le_length hfit, ← List.append_assoc]

theorem le_getSize_pushElement (b : Builder) (width : ℕ) (element : ℤ) :
    width ≤ (b.pushElement width element).getSize := by
  simp [pushElement, pushBytes, getSize]

theorem pushVTable_atop (b : Builder) :
    (b.atop base).pushVTable base.length = (b.pushVTable 0).atop base := by
  have hvtable := vtable_atop b.getSize 0 (max (b.maxVoffset + 2) 4)
    b.fieldLocs base.length
  rw [Nat.zero_add, ← getSize_atop] at hvtable
  rw [pushVTable, pushVTable, ← hvtable]
  exact pushBytes_atop b _

theorem linkVTable_atop (b : Builder) {vtableOffsetLoc : ℕ}
    (hpos : 4 ≤ vtableOffsetLoc) (hle : vtableOffsetLoc ≤ b.getSize) :
    (b.atop base).linkVTable (vtableOffsetLoc + base.length) =
      (b.linkVTable vtableOffsetLoc).atop base := by
  have hfit : b.getSize - vtableOffsetLoc +
      (toBytes 4 (b.getSize - vtableOffsetLoc)).length ≤ b.buf.length := by
    rw [length_toBytes]
    simp only [getSize] at hle ⊢
    omega
  rw [linkVTable, getSize_atop, Nat.add_sub_add_right]
  simp only [atop, linkVTable, writeAt_append hfit, List.map_nil]

theorem endTable_atop (b : Builder) (hdvd : 4 ∣ base.length) :
    (b.atop base).endTable base.length =
      ((b.endTable 0).1.atop base, (b.endTable 0).2 + base.length) := by
  have hpos := le_getSize_pushElement b 4 0
  have hle : (b.pushElement 4 0).getSize ≤
      ((b.pushElement 4 0).pushVTable 0).getSize := by
    simp [pushVTable, pushBytes, getSize]
  rw [endTable, pushElement_atop b hdvd, getSize_atop, pushVTable_atop,
    linkVTable_atop _ hpos hle]
  rfl

theorem finish_atop (b : Builder) {root : ℕ} (hdvd : 4 ∣ base.length)
    (hminalign : b.minalign ∣ base.length) :
    (b.atop base).finish (root + base.length) = (b.finish root).atop base := by
  have hpre := preAlign_atop b 4 hminalign
  have hrefer : ((b.preAlign 4 b.minalign).atop base).referTo
      (root + base.length) =
        (((b.preAlign 4 b.minalign).align 4).atop base,
          ((b.preAlign 4 b.minalign).referTo root).2) := by
    rw [referTo, referTo, align_atop _ hdvd, getSize_atop,
      Nat.add_sub_add_right]
  simp only [finish]
  change (((b.atop base).preAlign 4 b.minalign).referTo _).1.pushElement 4
    ((((b.atop base).preAlign 4 b.minalign).referTo _).2 : ℤ) = _
  rw [hpre, hrefer]
  exact pushElement_atop _ hdvd _

/-- A builder that just stored a string, without the string. -/
def seed : Builder := { new with minalign := 4 }

theorem createString_eq_atop (str : List UInt8) :
    new.createString str = seed.atop (stringBytes str) :=
  createString_new str

theorem getSize_seed_atop (base : List UInt8) :
    (seed.atop base).getSize = base.length := by
  rw [getSize_atop]
  exact Nat.zero_add _

end Builder

/-! ## Reading a string back -/

theorem bytesAt_append_right (head : List UInt8) {bs rest : List UInt8} {n : ℕ}
    (hn : bs.length = n) :
    bytesAt (head ++ (bs ++ rest)) head.length n = bs := by
  rw [bytesAt, Int.toNat_natCast, List.drop_left, List.take_left' hn]

theorem string_stringBytes (head : List UInt8) {str : List UInt8}
    (hlen : str.length < 2 ^ 32) :
    StringWithin (head ++ stringBytes str) head.length ∧
      stringAt (head ++ stringBytes str) head.length = str := by
  have hfit : str.length < 256 ^ 4 := by
    have : (256 : ℕ) ^ 4 = 2 ^ 32 := by norm_num
    omega
  have hpad : pad (paddedLength str.length) str =
      str ++ List.replicate (paddedLength str.length - str.length) 0 := by
    rw [pad, List.take_of_length_le (by rw [paddedLength]; omega)]
  have hsize : scalarAt uoffset_t (head ++ stringBytes str) head.length =
      str.length := by
    change ((ofBytes (bytesAt _ _ 4) : ℕ) : ℤ) = _
    rw [stringBytes, bytesAt_append_right head (length_toBytes 4 _),
      ofBytes_toBytes hfit]
  have hstart : (head.length : ℤ) + 4 =
      (head ++ toBytes 4 str.length).length := by
    simp
  refine ⟨⟨?_, ?_⟩, ?_⟩
  · simp [Within, stringBytes]
  · rw [hsize, Int.toNat_natCast]
    simp [Within, paddedLength, stringBytes]
    omega
  · rw [stringAt, hsize, Int.toNat_natCast, hstart, stringBytes, hpad,
      ← List.append_assoc]
    exact bytesAt_append_right _ rfl

/-- The field of the root table that `head` starts with points to the byte
behind `head` and `tail`. -/
structure PointsPast (head tail : List UInt8) (field : ℤ) : Prop where
  root : Within head 0 4
  within : FieldWithin 4 head (scalarAt uoffset_t head 0) field
  present : fieldOffsetAt head (scalarAt uoffset_t head 0) field ≠ 0
  target : targetAt head (scalarAt uoffset_t head 0) field =
    (head ++ tail).length

/-- A string behind the bytes that point to it is read back. -/
theorem PointsPast.getString {head tail : List UInt8} {field : ℤ}
    (h : PointsPast head tail field) {str : List UInt8}
    (hlen : str.length < 2 ^ 32) :
    ((getRoot (head ++ tail ++ stringBytes str)).bind fun data =>
      Flatbuffers.getString (head ++ tail ++ stringBytes str) data field) =
        .ok str := by
  obtain ⟨hwithin, hstring⟩ := string_stringBytes (head ++ tail) hlen
  rw [bind_eq_ok_iff]
  refine ⟨scalarAt uoffset_t head 0, ?_, ?_⟩
  · rw [getRoot, readScalar_eq_ok_iff, List.append_assoc]
    exact ⟨h.root.append _, scalarAt_append uoffset_t h.root _⟩
  · have htarget : targetAt (head ++ tail ++ stringBytes str)
        (scalarAt uoffset_t head 0) field = (head ++ tail).length := by
      rw [List.append_assoc, targetAt_append h.within h.present, h.target]
    rw [getString_eq_ok_iff, htarget]
    refine ⟨⟨?_, ?_, ?_⟩, hstring⟩
    · rw [List.append_assoc]
      exact h.within.append _
    · rw [List.append_assoc, (h.within.toEntryWithin.append _).2]
      exact h.present
    · rw [htarget]
      exact hwithin

end Flatbuffers
