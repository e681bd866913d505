import RankingServer.Flatbuffers.Builder

/-!
# The layout of a finished table

What `EndTable` and `Finish` leave in the buffer for any sequence of fields that
a table was built from, and that the accessors of a table read every field back.

Everything is located by its distance from the end of the buffer, which does
not change while the buffer grows downwards.
-/

namespace Flatbuffers

open Scalar

/-! ## Bytes at a distance from the end -/

/-- The bytes start at distance `off` from the end of the buffer. -/
def Stores (buf : List UInt8) (off : ℕ) (bytes : List UInt8) : Prop :=
  ∃ front rest, buf = front ++ (bytes ++ rest) ∧
    bytes.length + rest.length = off

theorem stores_append (bytes rest : List UInt8) :
    Stores (bytes ++ rest) (bytes ++ rest).length bytes :=
  ⟨[], rest, rfl, List.length_append.symm⟩

namespace Stores

variable {buf bytes : List UInt8} {off : ℕ}

theorem prepend (h : Stores buf off bytes) (more : List UInt8) :
    Stores (more ++ buf) off bytes := by
  obtain ⟨front, rest, rfl, hoff⟩ := h
  exact ⟨more ++ front, rest, (List.append_assoc _ _ _).symm, hoff⟩

theorem le_length (h : Stores buf off bytes) : off ≤ buf.length := by
  obtain ⟨front, rest, rfl, rfl⟩ := h
  simp

theorem length_le (h : Stores buf off bytes) : bytes.length ≤ off := by
  obtain ⟨front, rest, rfl, rfl⟩ := h
  omega

/-- The first part of what is stored. -/
theorem left {more : List UInt8} (h : Stores buf off (bytes ++ more)) :
    Stores buf off bytes := by
  obtain ⟨front, rest, rfl, hoff⟩ := h
  refine ⟨front, more ++ rest, by simp, ?_⟩
  simp only [List.length_append] at hoff ⊢
  omega

/-- The rest of what is stored. -/
theorem right {more : List UInt8} (h : Stores buf off (bytes ++ more)) :
    Stores buf (off - bytes.length) more := by
  obtain ⟨front, rest, rfl, hoff⟩ := h
  refine ⟨front ++ bytes, rest, by simp, ?_⟩
  simp only [List.length_append] at hoff ⊢
  omega

/-- The start of what is stored, as an index into the buffer. -/
theorem exists_index (h : Stores buf off bytes) :
    ∃ front rest, buf = front ++ (bytes ++ rest) ∧
      (buf.length : ℤ) - off = front.length := by
  obtain ⟨front, rest, rfl, rfl⟩ := h
  refine ⟨front, rest, rfl, ?_⟩
  simp only [List.length_append]
  omega

theorem bytesAt (h : Stores buf off bytes) {width : ℕ}
    (hwidth : bytes.length = width) :
    bytesAt buf (buf.length - off) width = bytes := by
  obtain ⟨front, rest, hbuf, hindex⟩ := h.exists_index
  rw [hindex, hbuf]
  exact bytesAt_append_right front hwidth

theorem within (h : Stores buf off bytes) {width : ℕ}
    (hwidth : bytes.length = width) :
    Within buf (buf.length - off) width := by
  have hle := h.le_length
  have hlen := h.length_le
  constructor
  · omega
  · omega

/-- A part of what is stored. -/
theorem bytesAt_add (h : Stores buf off bytes) {j width : ℕ}
    (hfit : j + width ≤ bytes.length) :
    Flatbuffers.bytesAt buf (buf.length - off + j) width =
      Flatbuffers.bytesAt bytes j width := by
  obtain ⟨front, rest, hbuf, hindex⟩ := h.exists_index
  have hsum : ((front.length : ℤ) + j).toNat = front.length + j := by omega
  rw [Flatbuffers.bytesAt, Flatbuffers.bytesAt, hindex, hsum, hbuf,
    Int.toNat_natCast, ← List.drop_drop, List.drop_left,
    List.drop_append_of_le_length (by omega),
    List.take_append_of_le_length (by rw [List.length_drop]; omega)]

theorem within_add (h : Stores buf off bytes) {j width : ℕ}
    (hfit : j + width ≤ bytes.length) :
    Within buf (buf.length - off + j) width := by
  have hle := h.le_length
  have hlen := h.length_le
  constructor
  · omega
  · omega

end Stores

/-! ## Scalars -/

/-- The value survives being stored in the width of the type. -/
def ScalarType.Represents (type : ScalarType) (e : ℤ) : Prop :=
  type.decode (scalarBytes type.width e) = e

theorem ofBytes_scalarBytes {width : ℕ} {e : ℤ} (hpos : 0 ≤ e)
    (hlt : e < 256 ^ width) : (ofBytes (scalarBytes width e) : ℤ) = e := by
  obtain ⟨n, rfl⟩ := Int.eq_ofNat_of_zero_le hpos
  have hn : n < 256 ^ width := by exact_mod_cast hlt
  rw [scalarBytes_natCast, ofBytes_toBytes hn]

/-- Two's complement of a number that fits in the width. -/
theorem signed_scalarBytes {width : ℕ} {e : ℤ} (hlow : -256 ^ width ≤ 2 * e)
    (hhigh : 2 * e < 256 ^ width) : signed (scalarBytes width e) = e := by
  have hpow : (0 : ℤ) < 256 ^ width := by positivity
  have hmod : (0 : ℤ) ≤ e % (256 ^ width : ℕ) := by
    apply Int.emod_nonneg
    positivity
  have hvalue : (ofBytes (scalarBytes width e) : ℤ) = e % 256 ^ width := by
    have hlt : (e % (256 ^ width : ℕ)).toNat < 256 ^ width := by
      rw [Int.toNat_lt hmod]
      exact_mod_cast Int.emod_lt_of_pos e hpow
    rw [scalarBytes, ofBytes_toBytes hlt, Int.toNat_of_nonneg hmod]
    norm_cast
  have hcast : 2 * ofBytes (scalarBytes width e) < 256 ^ width ↔
      2 * (e % 256 ^ width) < 256 ^ width := by
    rw [← hvalue]
    exact_mod_cast Iff.rfl
  rw [signed, length_scalarBytes, hvalue]
  by_cases hneg : e < 0
  · have hshift : e % 256 ^ width = e + 256 ^ width := by
      rw [← Int.add_emod_right]
      exact Int.emod_eq_of_lt (by omega) (by omega)
    rw [if_neg (by rw [hcast, hshift]; omega), hshift]
    omega
  · have hsame : e % 256 ^ width = e :=
      Int.emod_eq_of_lt (by omega) (by omega)
    rw [if_pos (by rw [hcast, hsame]; exact hhigh), hsame]

theorem uint8_t_represents {e : ℤ} (hpos : 0 ≤ e) (hlt : e < 2 ^ 8) :
    uint8_t.Represents e :=
  @ofBytes_scalarBytes 1 e hpos hlt

theorem voffset_t_represents {n : ℕ} (hlt : n < 2 ^ 16) :
    voffset_t.Represents n :=
  @ofBytes_scalarBytes 2 n (Int.natCast_nonneg n) (by norm_num; omega)

theorem uoffset_t_represents {n : ℕ} (hlt : n < 2 ^ 32) :
    uoffset_t.Represents n :=
  @ofBytes_scalarBytes 4 n (Int.natCast_nonneg n) (by norm_num; omega)

theorem int32_t_represents {e : ℤ} (hlow : -2 ^ 31 ≤ e) (hhigh : e < 2 ^ 31) :
    int32_t.Represents e :=
  @signed_scalarBytes 4 e (by norm_num; omega) (by norm_num; omega)

theorem int64_t_represents {e : ℤ} (hlow : -2 ^ 63 ≤ e) (hhigh : e < 2 ^ 63) :
    int64_t.Represents e := by
  have hpow : (256 : ℤ) ^ 8 = 2 * 2 ^ 63 := by norm_num
  simp only [ScalarType.Represents, int64_t]
  exact signed_scalarBytes (by rw [hpow]; omega) (by rw [hpow]; omega)

theorem Stores.scalarAt {buf : List UInt8} {off : ℕ} {type : ScalarType}
    {e : ℤ} (h : Stores buf off (scalarBytes type.width e))
    (hrep : type.Represents e) :
    scalarAt type buf (buf.length - off) = e := by
  rw [Flatbuffers.scalarAt, h.bytesAt (length_scalarBytes _ _)]
  exact hrep

theorem Stores.scalarAt_toBytes {buf : List UInt8} {off n : ℕ}
    {type : ScalarType} (h : Stores buf off (toBytes type.width n))
    (hrep : type.Represents n) :
    Flatbuffers.scalarAt type buf (buf.length - off) = n := by
  rw [← scalarBytes_natCast] at h
  exact h.scalarAt hrep

/-! ## The vtable -/

section Write

variable {buf bytes : List UInt8} {i : ℕ}

theorem length_writeAt (hfit : i + bytes.length ≤ buf.length) :
    (writeAt buf i bytes).length = buf.length := by
  simp only [writeAt, List.length_append, List.length_take, List.length_drop]
  omega

theorem getElem?_writeAt (hfit : i + bytes.length ≤ buf.length) (k : ℕ) :
    (writeAt buf i bytes)[k]? =
      if i ≤ k ∧ k < i + bytes.length then bytes[k - i]? else buf[k]? := by
  have hlen : (buf.take i).length = i := by
    rw [List.length_take]
    omega
  rw [writeAt, List.append_assoc, List.getElem?_append, hlen]
  by_cases hlow : k < i
  · rw [if_pos hlow, if_neg (by omega), List.getElem?_take_of_lt hlow]
  · rw [if_neg hlow, List.getElem?_append]
    by_cases hhigh : k < i + bytes.length
    · rw [if_pos (by omega), if_pos ⟨by omega, hhigh⟩]
    · rw [if_neg (by omega), if_neg (by omega), List.getElem?_drop]
      congr 1
      omega

theorem bytesAt_writeAt (hfit : i + bytes.length ≤ buf.length) {width : ℕ}
    (hwidth : bytes.length = width) :
    bytesAt (writeAt buf i bytes) i width = bytes := by
  subst hwidth
  have hlen : (buf.take i).length = i := by
    rw [List.length_take]
    omega
  rw [bytesAt, Int.toNat_natCast, writeAt, List.append_assoc,
    List.drop_left' hlen, List.take_left]

theorem bytesAt_writeAt_of_disjoint (hfit : i + bytes.length ≤ buf.length)
    {j width : ℕ} (hdisjoint : j + width ≤ i ∨ i + bytes.length ≤ j) :
    bytesAt (writeAt buf i bytes) j width = bytesAt buf j width := by
  apply List.ext_getElem?
  intro k
  simp only [bytesAt, Int.toNat_natCast, List.getElem?_take,
    List.getElem?_drop, getElem?_writeAt hfit]
  by_cases hk : k < width
  · rw [if_pos hk, if_pos hk, if_neg (by omega)]
  · rw [if_neg hk, if_neg hk]

end Write

/-- The entries of two fields do not overlap. -/
def Apart (field other : ℕ) : Prop :=
  field + 2 ≤ other ∨ other + 2 ≤ field

instance (field other : ℕ) : Decidable (Apart field other) :=
  inferInstanceAs (Decidable (_ ∨ _))

theorem Apart.symm {field other : ℕ} (h : Apart field other) :
    Apart other field :=
  Or.symm h

/-- The loop of `EndTable` over the fields. -/
def writeEntries (vtableOffsetLoc : ℕ) (bytes : List UInt8)
    (fieldLocs : List (ℕ × ℕ)) : List UInt8 :=
  fieldLocs.foldl
    (fun bytes loc => writeAt bytes loc.2 (toBytes 2 (vtableOffsetLoc - loc.1)))
    bytes

section Entries

variable {vtableOffsetLoc : ℕ} {bytes : List UInt8} {fieldLocs : List (ℕ × ℕ)}

theorem fits_cons {first : ℕ × ℕ}
    (hfit : ∀ loc ∈ first :: fieldLocs, loc.2 + 2 ≤ bytes.length) (n : ℕ) :
    first.2 + (toBytes 2 n).length ≤ bytes.length ∧
      ∀ loc ∈ fieldLocs,
        loc.2 + 2 ≤ (writeAt bytes first.2 (toBytes 2 n)).length := by
  have hfirst : first.2 + (toBytes 2 n).length ≤ bytes.length := by
    rw [length_toBytes]
    exact hfit first List.mem_cons_self
  refine ⟨hfirst, ?_⟩
  intro loc hloc
  rw [length_writeAt hfirst]
  exact hfit loc (List.mem_cons_of_mem _ hloc)

theorem length_writeEntries
    (hfit : ∀ loc ∈ fieldLocs, loc.2 + 2 ≤ bytes.length) :
    (writeEntries vtableOffsetLoc bytes fieldLocs).length = bytes.length := by
  induction fieldLocs generalizing bytes with
  | nil => rfl
  | cons first fieldLocs ih =>
      obtain ⟨hfirst, hrest⟩ := fits_cons hfit (vtableOffsetLoc - first.1)
      rw [writeEntries, List.foldl_cons, ← writeEntries, ih hrest,
        length_writeAt hfirst]

/-- An entry that no field is written to stays as it was. -/
theorem bytesAt_writeEntries_of_apart {field : ℕ}
    (hfit : ∀ loc ∈ fieldLocs, loc.2 + 2 ≤ bytes.length)
    (hapart : ∀ loc ∈ fieldLocs, Apart loc.2 field) :
    bytesAt (writeEntries vtableOffsetLoc bytes fieldLocs) field 2 =
      bytesAt bytes field 2 := by
  induction fieldLocs generalizing bytes with
  | nil => rfl
  | cons first fieldLocs ih =>
      obtain ⟨hfirst, hrest⟩ := fits_cons hfit (vtableOffsetLoc - first.1)
      rw [writeEntries, List.foldl_cons, ← writeEntries, ih hrest]
      · apply bytesAt_writeAt_of_disjoint hfirst
        rw [length_toBytes]
        exact Or.symm (hapart first List.mem_cons_self)
      · intro loc hloc
        exact hapart loc (List.mem_cons_of_mem _ hloc)

/-- The entry of a field is its distance from the start of the table. -/
theorem bytesAt_writeEntries_of_mem {loc : ℕ × ℕ} (hmem : loc ∈ fieldLocs)
    (hfit : ∀ loc ∈ fieldLocs, loc.2 + 2 ≤ bytes.length)
    (hapart : fieldLocs.Pairwise fun loc other => Apart loc.2 other.2) :
    bytesAt (writeEntries vtableOffsetLoc bytes fieldLocs) loc.2 2 =
      toBytes 2 (vtableOffsetLoc - loc.1) := by
  induction fieldLocs generalizing bytes with
  | nil => cases hmem
  | cons first fieldLocs ih =>
      rw [List.pairwise_cons] at hapart
      obtain ⟨hfirst, hrest⟩ := fits_cons hfit (vtableOffsetLoc - first.1)
      rw [writeEntries, List.foldl_cons, ← writeEntries]
      rcases List.mem_cons.mp hmem with rfl | hmem
      · rw [bytesAt_writeEntries_of_apart hrest]
        · exact bytesAt_writeAt hfirst (length_toBytes 2 _)
        · intro other hother
          exact (hapart.1 other hother).symm
      · exact ih hmem hrest hapart.2

end Entries

namespace Builder

section VTable

variable {vtableOffsetLoc start n : ℕ} {fieldLocs : List (ℕ × ℕ)}

/-- The vtable before the entries of the fields are written. -/
theorem vtable_eq :
    vtable vtableOffsetLoc start n fieldLocs =
      writeEntries vtableOffsetLoc
        (writeAt (writeAt (List.replicate n 0) 2
          (toBytes 2 (vtableOffsetLoc - start))) 0 (toBytes 2 n)) fieldLocs :=
  rfl

theorem length_sizes (hn : 4 ≤ n) (size : ℕ) :
    (writeAt (writeAt (List.replicate n 0) 2 (toBytes 2 size)) 0
      (toBytes 2 n)).length = n := by
  rw [length_writeAt, length_writeAt]
  · exact List.length_replicate
  · simpa using hn
  · rw [length_writeAt]
    · simp
      omega
    · simpa using hn

theorem bytesAt_sizes (hn : 4 ≤ n) (size : ℕ) :
    bytesAt (writeAt (writeAt (List.replicate n 0) 2 (toBytes 2 size)) 0
      (toBytes 2 n)) 0 2 = toBytes 2 n := by
  apply bytesAt_writeAt (i := 0)
  · rw [length_writeAt]
    · simp
      omega
    · simpa using hn
  · exact length_toBytes 2 n

theorem bytesAt_sizes_of_le {field : ℕ} (hfield : 4 ≤ field)
    (hn : field + 2 ≤ n) (size : ℕ) :
    bytesAt (writeAt (writeAt (List.replicate n 0) 2 (toBytes 2 size)) 0
      (toBytes 2 n)) field 2 = toBytes 2 0 := by
  have hinner : 2 + (toBytes 2 size).length ≤
      (List.replicate n (0 : UInt8)).length := by
    simp
    omega
  rw [bytesAt_writeAt_of_disjoint, bytesAt_writeAt_of_disjoint hinner]
  · have hzeros : min 2 (n - field) = 2 := by omega
    rw [bytesAt, Int.toNat_natCast, List.drop_replicate, List.take_replicate,
      hzeros]
    rfl
  · right
    rw [length_toBytes]
    exact hfield
  · rw [length_writeAt hinner]
    simp
    omega
  · right
    rw [length_toBytes]
    omega

end VTable

/-! ## Adding fields -/

theorem dvd_max_pow {m n : ℕ} (hm : ∃ k, m = 2 ^ k) (hn : ∃ k, n = 2 ^ k) :
    m ∣ max m n ∧ n ∣ max m n ∧ ∃ k, max m n = 2 ^ k := by
  obtain ⟨i, rfl⟩ := hm
  obtain ⟨j, rfl⟩ := hn
  rcases Nat.le_total i j with hle | hle
  · have hpow : 2 ^ i ≤ 2 ^ j := Nat.pow_le_pow_right (by decide) hle
    rw [max_eq_right hpow]
    exact ⟨pow_dvd_pow 2 hle, dvd_rfl, j, rfl⟩
  · have hpow : 2 ^ j ≤ 2 ^ i := Nat.pow_le_pow_right (by decide) hle
    rw [max_eq_left hpow]
    exact ⟨dvd_rfl, pow_dvd_pow 2 hle, i, rfl⟩

theorem dvd_paddingBytes_add {scalarSize : ℕ} (hpos : 0 < scalarSize)
    (bufSize : ℕ) :
    scalarSize ∣ paddingBytes bufSize scalarSize + bufSize := by
  have hlt := Nat.mod_lt bufSize hpos
  rw [paddingBytes, Nat.dvd_iff_mod_eq_zero, Nat.mod_add_mod,
    Nat.add_mod_eq_add_mod_left (scalarSize - bufSize % scalarSize)
      (Nat.mod_mod bufSize scalarSize).symm,
    Nat.sub_add_cancel hlt.le, Nat.mod_self]

/-- `b'` is got from `b` by adding bytes and nothing but the given field. -/
structure Extends (field : ℕ) (b b' : Builder) : Prop where
  buf : ∃ more, b'.buf = more ++ b.buf
  fieldLocs : ∃ added, b'.fieldLocs = b.fieldLocs ++ added ∧
    ∀ loc ∈ added, loc.2 = field
  minalign : b.minalign ∣ b'.minalign

theorem Extends.refl (field : ℕ) (b : Builder) : Extends field b b :=
  ⟨⟨[], rfl⟩, ⟨[], by simp⟩, dvd_rfl⟩

theorem Extends.trans {field : ℕ} {b b' b'' : Builder}
    (h : Extends field b b') (h' : Extends field b' b'') :
    Extends field b b'' := by
  obtain ⟨⟨more, hmore⟩, ⟨added, hadded, hfield⟩, hminalign⟩ := h
  obtain ⟨⟨more', hmore'⟩, ⟨added', hadded', hfield'⟩, hminalign'⟩ := h'
  refine ⟨⟨more' ++ more, ?_⟩, ⟨added ++ added', ?_, ?_⟩,
    hminalign.trans hminalign'⟩
  · rw [hmore', hmore, List.append_assoc]
  · rw [hadded', hadded, List.append_assoc]
  · intro loc hloc
    rcases List.mem_append.mp hloc with hloc | hloc
    · exact hfield loc hloc
    · exact hfield' loc hloc

/-- No entry of the table overlaps that of the field. -/
def Lacks (b : Builder) (field : ℕ) : Prop :=
  ∀ loc ∈ b.fieldLocs, Apart loc.2 field

theorem Lacks.extends {field other : ℕ} {b b' : Builder}
    (h : Lacks b field) (hext : Extends other b b')
    (hapart : Apart other field) : Lacks b' field := by
  obtain ⟨added, hadded, hfield⟩ := hext.fieldLocs
  intro loc hloc
  rw [hadded] at hloc
  rcases List.mem_append.mp hloc with hloc | hloc
  · exact h loc hloc
  · rw [hfield loc hloc]
    exact hapart

/-- The field is at the given distance from the end and holds these bytes,
aligned to their number. -/
structure Holds (b : Builder) (field off : ℕ) (bytes : List UInt8) :
    Prop where
  loc : (off, field) ∈ b.fieldLocs
  stores : Stores b.buf off bytes
  aligned : bytes.length ∣ off
  minalign : bytes.length ∣ b.minalign

theorem Holds.extends {field other off : ℕ} {bytes : List UInt8}
    {b b' : Builder} (h : Holds b field off bytes)
    (hext : Extends other b b') : Holds b' field off bytes := by
  obtain ⟨more, hmore⟩ := hext.buf
  obtain ⟨added, hadded, -⟩ := hext.fieldLocs
  refine ⟨?_, ?_, h.aligned, h.minalign.trans hext.minalign⟩
  · rw [hadded]
    exact List.mem_append_left _ h.loc
  · rw [hmore]
    exact h.stores.prepend more

/-- A scalar field of the table: present with its value, or not present when
the value is the default. -/
def Scalar (b : Builder) (field width : ℕ) (e default : ℤ) : Prop :=
  (e = default ∧ Lacks b field) ∨
    ∃ off, Holds b field off (scalarBytes width e)

theorem Scalar.extends {field other width : ℕ} {e default : ℤ}
    {b b' : Builder} (h : Scalar b field width e default)
    (hext : Extends other b b') (hapart : Apart other field) :
    Scalar b' field width e default := by
  rcases h with ⟨he, hlacks⟩ | ⟨off, hholds⟩
  · exact Or.inl ⟨he, hlacks.extends hext hapart⟩
  · exact Or.inr ⟨off, hholds.extends hext⟩

/-- An offset field of the table that refers to what is at distance `target`
from the end. -/
def Refers (b : Builder) (field target : ℕ) : Prop :=
  ∃ off, target < off ∧ Holds b field off (toBytes 4 (off - target))

theorem Refers.extends {field other target : ℕ} {b b' : Builder}
    (h : Refers b field target) (hext : Extends other b b') :
    Refers b' field target := by
  obtain ⟨off, hlt, hholds⟩ := h
  exact ⟨off, hlt, hholds.extends hext⟩

/-- What holds of a builder while a table is built that starts at size
`start`. -/
structure Building (start : ℕ) (b : Builder) : Prop where
  start_le : start ≤ b.getSize
  minalign : ∃ k, b.minalign = 2 ^ k
  even : 2 ∣ b.maxVoffset
  behind : ∀ loc ∈ b.fieldLocs, start < loc.1 ∧ loc.1 ≤ b.getSize
  entry : ∀ loc ∈ b.fieldLocs, 4 ≤ loc.2 ∧ loc.2 ≤ b.maxVoffset
  apart : b.fieldLocs.Pairwise fun loc other => Apart loc.2 other.2

section Push

variable {start width : ℕ} {b : Builder}

theorem extends_align (hb : ∃ k, b.minalign = 2 ^ k)
    (hwidth : ∃ k, width = 2 ^ k) (field : ℕ) :
    Extends field b (b.align width) :=
  ⟨⟨_, rfl⟩, ⟨[], by simp [align, fill, pushBytes, trackMinAlign]⟩,
    (dvd_max_pow hb hwidth).1⟩

theorem dvd_getSize_align (hpos : 0 < width) (b : Builder) :
    width ∣ (b.align width).getSize := by
  have hdvd := dvd_paddingBytes_add hpos b.getSize
  simpa [align, fill, pushBytes, trackMinAlign, getSize] using hdvd

theorem getSize_le_align (b : Builder) (width : ℕ) :
    b.getSize ≤ (b.align width).getSize := by
  simp [align, fill, pushBytes, trackMinAlign, getSize]

theorem getSize_align_lt (b : Builder) {width : ℕ} (hpos : 0 < width) :
    (b.align width).getSize < b.getSize + width := by
  have hlt : paddingBytes b.getSize width < width := Nat.mod_lt _ hpos
  have hsize : (b.align width).getSize =
      paddingBytes b.getSize width + b.getSize := by
    simp [align, fill, pushBytes, trackMinAlign, getSize]
  omega

theorem getSize_pushElement (b : Builder) (width : ℕ) (e : ℤ) :
    (b.pushElement width e).getSize = width + (b.align width).getSize := by
  simp [pushElement, pushBytes, getSize]

theorem Building.align (h : Building start b) (hwidth : ∃ k, width = 2 ^ k) :
    Building start (b.align width) := by
  have hle := getSize_le_align b width
  refine ⟨h.start_le.trans hle, (dvd_max_pow h.minalign hwidth).2.2, h.even,
    ?_, h.entry, h.apart⟩
  intro loc hloc
  obtain ⟨hstart, hsize⟩ := h.behind loc hloc
  exact ⟨hstart, hsize.trans hle⟩

/-- Pushing a scalar and recording it as a field. -/
theorem Building.pushField (h : Building start b)
    (hwidth : ∃ k, width = 2 ^ k) {field : ℕ} (hfour : 4 ≤ field)
    (htwo : 2 ∣ field) (hfresh : Lacks b field) (e : ℤ) :
    Building start ((b.pushElement width e).trackField field) := by
  have hpos : 0 < width := by
    obtain ⟨k, rfl⟩ := hwidth
    positivity
  have hle := getSize_le_align b width
  have hsize := getSize_pushElement b width e
  have hstart := h.start_le
  have hlocs : ((b.pushElement width e).trackField field).fieldLocs =
      b.fieldLocs ++ [((b.pushElement width e).getSize, field)] := rfl
  have hmax : ((b.pushElement width e).trackField field).maxVoffset =
      max b.maxVoffset field := rfl
  constructor
  · change start ≤ (b.pushElement width e).getSize
    omega
  · exact (dvd_max_pow h.minalign hwidth).2.2
  · rw [hmax]
    rcases max_choice b.maxVoffset field with heq | heq
    · rw [heq]
      exact h.even
    · rw [heq]
      exact htwo
  · intro loc hloc
    rw [hlocs] at hloc
    change start < loc.1 ∧ loc.1 ≤ (b.pushElement width e).getSize
    rcases List.mem_append.mp hloc with hloc | hloc
    · obtain ⟨hlt, hloc⟩ := h.behind loc hloc
      exact ⟨hlt, by omega⟩
    · obtain rfl := List.mem_singleton.mp hloc
      exact ⟨by simp only; omega, le_rfl⟩
  · rw [hlocs, hmax]
    intro loc hloc
    rcases List.mem_append.mp hloc with hloc | hloc
    · obtain ⟨hfour, hloc⟩ := h.entry loc hloc
      exact ⟨hfour, hloc.trans (le_max_left _ _)⟩
    · obtain rfl := List.mem_singleton.mp hloc
      exact ⟨hfour, le_max_right _ _⟩
  · rw [hlocs, List.pairwise_append]
    refine ⟨h.apart, List.pairwise_singleton _ _, ?_⟩
    intro loc hloc other hother
    obtain rfl := List.mem_singleton.mp hother
    exact hfresh loc hloc

theorem extends_pushField (hb : ∃ k, b.minalign = 2 ^ k)
    (hwidth : ∃ k, width = 2 ^ k) (field : ℕ) (e : ℤ) :
    Extends field b ((b.pushElement width e).trackField field) := by
  obtain ⟨⟨more, hmore⟩, -, hminalign⟩ := extends_align hb hwidth field
  refine ⟨⟨scalarBytes width e ++ more, ?_⟩, ⟨[_], rfl, by simp⟩, hminalign⟩
  rw [List.append_assoc, ← hmore]
  rfl

theorem holds_pushField (hb : ∃ k, b.minalign = 2 ^ k)
    (hwidth : ∃ k, width = 2 ^ k) (field : ℕ) (e : ℤ) :
    Holds ((b.pushElement width e).trackField field) field
      (b.pushElement width e).getSize (scalarBytes width e) := by
  have hpos : 0 < width := by
    obtain ⟨k, rfl⟩ := hwidth
    positivity
  constructor
  · exact List.mem_append_right _ (List.mem_singleton_self _)
  · exact stores_append _ _
  · rw [length_scalarBytes, getSize_pushElement]
    exact dvd_add dvd_rfl (dvd_getSize_align hpos b)
  · rw [length_scalarBytes]
    exact (dvd_max_pow hb hwidth).2.1

end Push

/-! ### The operations of generated builders -/

section Add

variable {start field width : ℕ} {b : Builder}

theorem Building.addElement (h : Building start b)
    (hwidth : ∃ k, width = 2 ^ k) (hfour : 4 ≤ field) (htwo : 2 ∣ field)
    (hfresh : Lacks b field) (e default : ℤ) :
    Building start (b.addElement field width e default) := by
  by_cases he : e = default
  · rw [Builder.addElement, if_pos he]
    exact h
  · rw [Builder.addElement, if_neg he]
    exact h.pushField hwidth hfour htwo hfresh e

theorem Building.extends_addElement (h : Building start b)
    (hwidth : ∃ k, width = 2 ^ k) (field : ℕ) (e default : ℤ) :
    Extends field b (b.addElement field width e default) := by
  by_cases he : e = default
  · rw [Builder.addElement, if_pos he]
    exact Extends.refl field b
  · rw [Builder.addElement, if_neg he]
    exact extends_pushField h.minalign hwidth field e

/-- A field that was added is there, unless it has the default value. -/
theorem Building.scalar_addElement (h : Building start b)
    (hwidth : ∃ k, width = 2 ^ k) (hfresh : Lacks b field) (e default : ℤ) :
    Scalar (b.addElement field width e default) field width e default := by
  by_cases he : e = default
  · rw [Builder.addElement, if_pos he]
    exact Or.inl ⟨he, hfresh⟩
  · rw [Builder.addElement, if_neg he]
    exact Or.inr ⟨_, holds_pushField h.minalign hwidth field e⟩

theorem pow_four : ∃ k, 4 = 2 ^ k := ⟨2, rfl⟩

/-- `AddOffset` of something that is in the buffer. -/
theorem addOffset_eq (b : Builder) (field : ℕ) {target : ℕ}
    (hpos : 0 < target) :
    b.addOffset field target =
      ((b.align 4).pushElement 4
        ((b.align 4).getSize - target + 4 : ℕ)).trackField field := by
  rw [addOffset, if_neg (by omega), referTo, Builder.addElement,
    if_neg (by omega)]

theorem Building.addOffset (h : Building start b) (hfour : 4 ≤ field)
    (htwo : 2 ∣ field) (hfresh : Lacks b field) {target : ℕ}
    (hpos : 0 < target) :
    Building start (b.addOffset field target) := by
  rw [addOffset_eq b field hpos]
  exact (h.align pow_four).pushField pow_four hfour htwo hfresh _

theorem Building.extends_addOffset (h : Building start b) (field : ℕ)
    {target : ℕ} (hpos : 0 < target) :
    Extends field b (b.addOffset field target) := by
  rw [addOffset_eq b field hpos]
  exact (extends_align h.minalign pow_four field).trans
    (extends_pushField (h.align pow_four).minalign pow_four field _)

/-- The stored distance leads from the field to what it refers to. -/
theorem Building.refers_addOffset (h : Building start b) (field : ℕ)
    {target : ℕ} (hpos : 0 < target) (hle : target ≤ b.getSize) :
    Refers (b.addOffset field target) field target := by
  have hsize := getSize_le_align b 4
  have hdvd := dvd_getSize_align (by decide : 0 < 4) b
  have hpadding : paddingBytes (b.align 4).getSize 4 = 0 := by
    rw [paddingBytes]
    omega
  have haligned : ((b.align 4).align 4).getSize = (b.align 4).getSize := by
    rw [Builder.align, hpadding]
    rfl
  have hholds := holds_pushField (h.align pow_four).minalign pow_four field
    ((b.align 4).getSize - target + 4 : ℕ)
  rw [scalarBytes_natCast, getSize_pushElement, haligned] at hholds
  rw [addOffset_eq b field hpos]
  refine ⟨4 + (b.align 4).getSize, by omega, ?_⟩
  have hdistance : 4 + (b.align 4).getSize - target =
      (b.align 4).getSize - target + 4 := by omega
  rw [hdistance]
  exact hholds

end Add

end Builder

end Flatbuffers
