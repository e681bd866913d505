import RankingServer.Flatbuffers.Layout

/-!
# Reading a finished table back

`EndTable` puts the vtable in front of the table and `Finish` the distance to
the table in front of everything.  Reading follows them in the other direction:
root, table, vtable, entry, value.
-/

namespace Flatbuffers

open Scalar

namespace Builder

/-! ## What `EndTable` and `Finish` write -/

/-- The vtable that `EndTable` makes. -/
def vtableOf (b : Builder) (start : ℕ) : List UInt8 :=
  vtable (b.pushElement 4 0).getSize start (max (b.maxVoffset + 2) 4)
    b.fieldLocs

theorem writeAt_middle (front old rest bytes : List UInt8)
    (hlen : old.length = bytes.length) :
    writeAt (front ++ (old ++ rest)) front.length bytes =
      front ++ (bytes ++ rest) := by
  rw [writeAt, List.take_left, ← hlen, ← List.append_assoc front old rest,
    ← List.length_append, List.drop_left, List.append_assoc]

theorem buf_endTable (b : Builder) (start : ℕ) :
    (b.endTable start).1.buf =
      vtableOf b start ++
        (toBytes 4 (vtableOf b start).length ++ (b.align 4).buf) := by
  have hloc : ((b.pushElement 4 0).pushVTable start).getSize -
      (b.pushElement 4 0).getSize = (vtableOf b start).length := by
    simp [pushVTable, pushBytes, getSize, vtableOf, pushElement, align, fill,
      trackMinAlign]
  have hbuf : ((b.pushElement 4 0).pushVTable start).buf =
      vtableOf b start ++ (scalarBytes 4 0 ++ (b.align 4).buf) := rfl
  simp only [endTable, linkVTable, hloc, hbuf]
  exact writeAt_middle _ _ _ _ (by simp)

theorem dvd_minalign_endTable (b : Builder) (start : ℕ)
    (hb : ∃ k, b.minalign = 2 ^ k) :
    b.minalign ∣ (b.endTable start).1.minalign ∧
      4 ∣ (b.endTable start).1.minalign :=
  ⟨(dvd_max_pow hb pow_four).1, (dvd_max_pow hb pow_four).2.1⟩

theorem buf_align_of_dvd {b : Builder} (hdvd : 4 ∣ b.getSize) :
    (b.align 4).buf = b.buf := by
  have hpadding : paddingBytes b.getSize 4 = 0 := by
    rw [paddingBytes]
    omega
  rw [align, hpadding]
  rfl

/-- `Finish` aligns the whole buffer and starts it with the distance to the
root. -/
theorem buf_finish {b : Builder} {root : ℕ} (hroot : root ≤ b.getSize)
    (hfour : 4 ∣ b.minalign) (hpos : 0 < b.minalign) :
    ∃ more, (b.finish root).buf =
        toBytes 4 ((b.finish root).getSize - root) ++ (more ++ b.buf) ∧
      more.length < b.minalign ∧ b.minalign ∣ (b.finish root).getSize := by
  have hpre : b.preAlign 4 b.minalign =
      (b.trackMinAlign b.minalign).fill
        (paddingBytes (b.getSize + 4) b.minalign) := rfl
  have hsize : (b.preAlign 4 b.minalign).getSize =
      paddingBytes (b.getSize + 4) b.minalign + b.getSize := by
    simp [hpre, fill, pushBytes, getSize, trackMinAlign]
  have hdvd : b.minalign ∣ (b.preAlign 4 b.minalign).getSize + 4 := by
    rw [hsize, Nat.add_assoc]
    exact dvd_paddingBytes_add hpos _
  have hb₁ : 4 ∣ (b.preAlign 4 b.minalign).getSize := by
    have := hfour.trans hdvd
    omega
  have hbuf₁ := buf_align_of_dvd hb₁
  have hb₂ : 4 ∣ ((b.preAlign 4 b.minalign).align 4).getSize := by
    rw [getSize, hbuf₁]
    exact hb₁
  have hbuf₂ := buf_align_of_dvd hb₂
  have hfinish : (b.finish root).buf = toBytes 4
      ((b.preAlign 4 b.minalign).getSize - root + 4) ++
        (b.preAlign 4 b.minalign).buf := by
    change scalarBytes 4 ((((b.preAlign 4 b.minalign).align 4).getSize -
      root + 4 : ℕ) : ℤ) ++
        (((b.preAlign 4 b.minalign).align 4).align 4).buf = _
    rw [hbuf₂, hbuf₁, scalarBytes_natCast, getSize, hbuf₁]
    rfl
  have hlen : (b.finish root).getSize =
      (b.preAlign 4 b.minalign).getSize + 4 := by
    rw [getSize, hfinish, List.length_append, length_toBytes, Nat.add_comm]
    rfl
  refine ⟨List.replicate (paddingBytes (b.getSize + 4) b.minalign) 0,
    ?_, ?_, ?_⟩
  · rw [hlen, hfinish]
    congr 2
    omega
  · rw [List.length_replicate]
    exact Nat.mod_lt _ hpos
  · rw [hlen]
    exact hdvd

end Builder

/-- A buffer with a table of the given builder: where it starts, where its
vtable is, and what is behind it. -/
structure Finished (b : Builder) (start : ℕ) (buf : List UInt8) (loc : ℕ) :
    Prop where
  root : Stores buf buf.length (toBytes 4 (buf.length - loc))
  table : Stores buf loc (toBytes 4 (b.vtableOf start).length)
  vtable : Stores buf (loc + (b.vtableOf start).length) (b.vtableOf start)
  fields : ∃ more, buf = more ++ b.buf
  size : loc = 4 + (b.align 4).getSize
  minalign : b.minalign ∣ buf.length
  four : 4 ∣ buf.length
  length_le : buf.length ≤
    (b.vtableOf start).length + b.getSize + max b.minalign 4 + 11

theorem Builder.Building.finished {start : ℕ} {b : Builder}
    (h : Builder.Building start b) :
    Finished b start ((b.endTable start).1.finish (b.endTable start).2).buf
      (b.endTable start).2 := by
  have hloc : (b.endTable start).2 = 4 + (b.align 4).getSize :=
    Builder.getSize_pushElement b 4 0
  have hend := Builder.buf_endTable b start
  obtain ⟨hminalign, hfour⟩ :=
    Builder.dvd_minalign_endTable b start h.minalign
  have hpos : 0 < (b.endTable start).1.minalign :=
    lt_of_lt_of_le (by decide : 0 < 4) (le_max_right b.minalign 4)
  have hroot : (b.endTable start).2 ≤ (b.endTable start).1.getSize := by
    have hlen := congrArg List.length hend
    simp only [List.length_append, length_toBytes] at hlen
    rw [hloc]
    simp only [Builder.getSize]
    omega
  obtain ⟨more, hbuf, hmore, hdvd⟩ := Builder.buf_finish hroot hfour hpos
  have hbehind : ((b.endTable start).1.finish (b.endTable start).2).buf =
      (toBytes 4 (((b.endTable start).1.finish (b.endTable start).2).getSize -
        (b.endTable start).2) ++ more) ++
        (b.vtableOf start ++
          (toBytes 4 (b.vtableOf start).length ++ (b.align 4).buf)) := by
    rw [hbuf, hend, List.append_assoc]
  constructor
  · rw [hbuf]
    have hstores := stores_append (toBytes 4
      (((b.endTable start).1.finish (b.endTable start).2).getSize -
        (b.endTable start).2)) (more ++ (b.endTable start).1.buf)
    rw [← hbuf] at hstores ⊢
    exact hstores
  · rw [hbehind]
    have hstores := stores_append
      (toBytes 4 (b.vtableOf start).length) (b.align 4).buf
    rw [List.length_append, length_toBytes] at hstores
    rw [hloc]
    exact (hstores.prepend (b.vtableOf start)).prepend _
  · rw [hbehind, hloc]
    have hstores := stores_append (b.vtableOf start)
      (toBytes 4 (b.vtableOf start).length ++ (b.align 4).buf)
    rw [List.length_append, List.length_append, length_toBytes,
      Nat.add_comm] at hstores
    exact hstores.prepend _
  · obtain ⟨padding, hpadding⟩ :=
      (Builder.extends_align h.minalign Builder.pow_four 0).buf
    rw [hbehind, hpadding]
    simp only [← List.append_assoc]
    exact ⟨_, rfl⟩
  · exact hloc
  · exact hminalign.trans hdvd
  · exact hfour.trans hdvd
  · have hpadding := Builder.getSize_align_lt b (by decide : 0 < 4)
    have hlen := congrArg List.length hbehind
    simp only [List.length_append, length_toBytes] at hlen
    change more.length < max b.minalign 4 at hmore
    simp only [Builder.getSize] at hpadding ⊢
    omega

/-! ## Following the offsets -/

namespace Builder.Building

variable {start : ℕ} {b : Builder}

/-- The size of the vtable. -/
def vtableSize (b : Builder) : ℕ := max (b.maxVoffset + 2) 4

theorem four_le_vtableSize (b : Builder) : 4 ≤ vtableSize b :=
  le_max_right _ _

theorem fits (h : Building start b) (size : ℕ) :
    ∀ loc ∈ b.fieldLocs, loc.2 + 2 ≤
      (writeAt (writeAt (List.replicate (vtableSize b) 0) 2 (toBytes 2 size)) 0
        (toBytes 2 (vtableSize b))).length := by
  intro loc hloc
  obtain ⟨-, hle⟩ := h.entry loc hloc
  rw [length_sizes (four_le_vtableSize b), vtableSize]
  omega

theorem length_vtableOf (h : Building start b) :
    (b.vtableOf start).length = vtableSize b := by
  rw [vtableOf, vtable_eq]
  exact (length_writeEntries (h.fits _)).trans
    (length_sizes (four_le_vtableSize b) _)

theorem even_vtableSize (h : Building start b) : 2 ∣ vtableSize b := by
  have heven := h.even
  rw [vtableSize]
  omega

/-- The vtable starts with its own size. -/
theorem bytesAt_vtableOf_zero (h : Building start b) :
    bytesAt (b.vtableOf start) (0 : ℕ) 2 = toBytes 2 (vtableSize b) := by
  have hapart : ∀ loc ∈ b.fieldLocs, Apart loc.2 0 := by
    intro loc hloc
    have hfour := (h.entry loc hloc).1
    right
    omega
  rw [vtableOf, vtable_eq]
  exact (bytesAt_writeEntries_of_apart (h.fits _) hapart).trans
    (bytesAt_sizes (four_le_vtableSize b) _)

/-- The entry of a field that was not added is 0. -/
theorem bytesAt_vtableOf_of_lacks (h : Building start b) {field : ℕ}
    (hfour : 4 ≤ field) (hfit : field + 2 ≤ vtableSize b)
    (hlacks : Lacks b field) :
    bytesAt (b.vtableOf start) field 2 = toBytes 2 0 := by
  rw [vtableOf, vtable_eq]
  exact (bytesAt_writeEntries_of_apart (h.fits _) hlacks).trans
    (bytesAt_sizes_of_le hfour hfit _)

/-- The entry of a field that was added is its offset in the table. -/
theorem bytesAt_vtableOf_of_mem (h : Building start b) {field off : ℕ}
    (hmem : (off, field) ∈ b.fieldLocs) :
    bytesAt (b.vtableOf start) field 2 =
      toBytes 2 (4 + (b.align 4).getSize - off) := by
  rw [vtableOf, vtable_eq, ← getSize_pushElement b 4 0]
  exact bytesAt_writeEntries_of_mem hmem (h.fits _) h.apart

end Builder.Building

/-- The sizes fit into the integers that hold them. -/
structure Builder.InRange (b : Builder) (start : ℕ) (buf : List UInt8) :
    Prop where
  buffer : buf.length < 2 ^ 31
  object : 4 + (b.align 4).getSize - start < 2 ^ 16
  vtable : b.maxVoffset + 2 < 2 ^ 16

namespace Finished

variable {start loc : ℕ} {b : Builder} {buf : List UInt8}

theorem loc_le (h : Finished b start buf loc) : loc ≤ buf.length :=
  h.table.le_length

/-- Where the table starts. -/
theorem getRoot (h : Finished b start buf loc) (hlen : buf.length < 2 ^ 31) :
    getRoot buf = .ok (buf.length - loc) := by
  have hle := h.loc_le
  have hzero : (buf.length : ℤ) - buf.length = 0 := sub_self _
  have hwithin := h.root.within (length_toBytes 4 _)
  have hroot : Stores buf buf.length
      (toBytes uoffset_t.width (buf.length - loc)) := h.root
  have hscalar := hroot.scalarAt_toBytes (uoffset_t_represents (by omega))
  rw [hzero] at hwithin hscalar
  rw [Flatbuffers.getRoot, readScalar_eq_ok_iff]
  refine ⟨hwithin, ?_⟩
  rw [hscalar]
  omega

theorem vtable_stores (h : Finished b start buf loc)
    (hb : Builder.Building start b) :
    Stores buf (loc + Builder.Building.vtableSize b) (b.vtableOf start) := by
  rw [← hb.length_vtableOf]
  exact h.vtable

section Entries

variable (h : Finished b start buf loc) (hb : Builder.Building start b)
  (hrange : b.InRange start buf)

include h hb hrange

/-- Where the vtable starts. -/
theorem vtableAt :
    vtableAt buf (buf.length - loc) =
      buf.length - (loc + Builder.Building.vtableSize b : ℕ) := by
  have hvtable := hrange.vtable
  have htable : Stores buf loc
      (toBytes soffset_t.width (Builder.Building.vtableSize b)) := by
    rw [← hb.length_vtableOf]
    exact h.table
  have hscalar := htable.scalarAt_toBytes (int32_t_represents (by omega)
    (by rw [Builder.Building.vtableSize]; omega))
  rw [Flatbuffers.vtableAt, hscalar]
  omega

/-- An entry of the vtable, read from the buffer. -/
theorem scalarAt_entry {field n : ℕ}
    (hfit : field + 2 ≤ Builder.Building.vtableSize b)
    (hentry : bytesAt (b.vtableOf start) field 2 = toBytes 2 n)
    (hn : n < 2 ^ 16) :
    Within buf (Flatbuffers.vtableAt buf (buf.length - loc) + field) 2 ∧
      scalarAt voffset_t buf
        (Flatbuffers.vtableAt buf (buf.length - loc) + field) = n := by
  have hstores := h.vtable_stores hb
  rw [← hb.length_vtableOf] at hfit
  rw [h.vtableAt hb hrange]
  refine ⟨hstores.within_add hfit, ?_⟩
  change voffset_t.decode (bytesAt _ _ 2) = n
  rw [hstores.bytesAt_add hfit, hentry, ← scalarBytes_natCast]
  exact voffset_t_represents hn

theorem vtsizeAt :
    Within buf (Flatbuffers.vtableAt buf (buf.length - loc)) 2 ∧
      vtsizeAt buf (buf.length - loc) = Builder.Building.vtableSize b := by
  have hfour := Builder.Building.four_le_vtableSize b
  have hvtable := hrange.vtable
  have hentry := h.scalarAt_entry hb hrange (by omega)
    hb.bytesAt_vtableOf_zero (by rw [Builder.Building.vtableSize]; omega)
  rwa [Nat.cast_zero, add_zero] at hentry

theorem entryWithin_of_entry {field n : ℕ}
    (hentry : field < Builder.Building.vtableSize b →
      Within buf (Flatbuffers.vtableAt buf (buf.length - loc) + field) 2 ∧
        scalarAt voffset_t buf
          (Flatbuffers.vtableAt buf (buf.length - loc) + field) = n)
    (hbeyond : ¬field < Builder.Building.vtableSize b → n = 0) :
    EntryWithin buf (buf.length - loc) field ∧
      fieldOffsetAt buf (buf.length - loc) field = n := by
  obtain ⟨hwithin, hsize⟩ := h.vtsizeAt hb hrange
  have htable := h.table.within (length_toBytes 4 _)
  rw [fieldOffsetAt, hsize]
  refine ⟨⟨htable, hwithin, ?_⟩, ?_⟩
  · intro hlt
    rw [hsize] at hlt
    exact (hentry (by exact_mod_cast hlt)).1
  · by_cases hlt : field < Builder.Building.vtableSize b
    · rw [if_pos (by exact_mod_cast hlt)]
      exact (hentry hlt).2
    · rw [if_neg (by exact_mod_cast hlt), hbeyond hlt]
      rfl

/-- A field that was not added is not present. -/
theorem fieldOffsetAt_of_lacks {field : ℕ} (hfour : 4 ≤ field)
    (htwo : 2 ∣ field) (hlacks : Builder.Lacks b field) :
    EntryWithin buf (buf.length - loc) field ∧
      fieldOffsetAt buf (buf.length - loc) field = 0 := by
  have heven := hb.even_vtableSize
  apply h.entryWithin_of_entry hb hrange (n := 0)
  · intro hlt
    have hfit : field + 2 ≤ Builder.Building.vtableSize b := by omega
    exact h.scalarAt_entry hb hrange hfit
      (hb.bytesAt_vtableOf_of_lacks hfour hfit hlacks) (by decide)
  · intro _
    rfl

/-- The entry of a field that was added leads to its bytes. -/
theorem fieldOffsetAt_of_holds {field off : ℕ} {bytes : List UInt8}
    (hholds : Builder.Holds b field off bytes) :
    EntryWithin buf (buf.length - loc) field ∧
      fieldOffsetAt buf (buf.length - loc) field = (loc - off : ℕ) ∧
      0 < loc - off := by
  obtain ⟨hstart, hoff⟩ := hb.behind _ hholds.loc
  obtain ⟨-, hmax⟩ := hb.entry _ hholds.loc
  have hobject := hrange.object
  have hsize := h.size
  have halign := Builder.getSize_le_align b 4
  simp only at hstart hoff hmax
  have hentry := hb.bytesAt_vtableOf_of_mem hholds.loc
  rw [← hsize] at hentry hobject
  obtain ⟨hwithin, hvalue⟩ := h.entryWithin_of_entry hb hrange
    (fun _ => h.scalarAt_entry hb hrange
      (by rw [Builder.Building.vtableSize]; omega) hentry (by omega))
    (fun hbeyond => absurd
      (by rw [Builder.Building.vtableSize]; omega) hbeyond)
  exact ⟨hwithin, hvalue, by omega⟩

/-- A field that was added lies where it was stored. -/
theorem data_add_fieldOffsetAt {field off : ℕ} {bytes : List UInt8}
    (hholds : Builder.Holds b field off bytes) :
    (buf.length : ℤ) - loc + fieldOffsetAt buf (buf.length - loc) field =
      buf.length - off := by
  obtain ⟨-, hoffset, hpos⟩ := h.fieldOffsetAt_of_holds hb hrange hholds
  rw [hoffset]
  omega

end Entries

theorem stores (h : Finished b start buf loc) {off : ℕ} {bytes : List UInt8}
    (hstores : Stores b.buf off bytes) : Stores buf off bytes := by
  obtain ⟨more, rfl⟩ := h.fields
  exact hstores.prepend more

/-! ## What the accessors return -/

/-- Every scalar field reads as the value it was built with. -/
theorem getField (h : Finished b start buf loc)
    (hb : Builder.Building start b) (hrange : b.InRange start buf)
    {type : ScalarType} {field : ℕ} {e default : ℤ} (hfour : 4 ≤ field)
    (htwo : 2 ∣ field) (hfield : Builder.Scalar b field type.width e default)
    (hrep : type.Represents e) :
    getField type buf (buf.length - loc) field default = .ok e := by
  rw [getField_eq_ok_iff]
  rcases hfield with ⟨rfl, hlacks⟩ | ⟨off, hholds⟩
  · obtain ⟨hentry, hoffset⟩ :=
      h.fieldOffsetAt_of_lacks hb hrange hfour htwo hlacks
    refine ⟨⟨hentry, fun hpresent => absurd hoffset hpresent⟩, ?_⟩
    rw [fieldAt, if_neg (not_not.mpr hoffset)]
  · obtain ⟨hentry, hoffset, hpos⟩ :=
      h.fieldOffsetAt_of_holds hb hrange hholds
    have hdata := h.data_add_fieldOffsetAt hb hrange hholds
    have hstores := h.stores hholds.stores
    have hpresent : fieldOffsetAt buf (buf.length - loc) field ≠ 0 := by
      rw [hoffset]
      omega
    refine ⟨⟨hentry, fun _ => ?_⟩, ?_⟩
    · rw [hdata]
      exact hstores.within (length_scalarBytes _ _)
    · rw [fieldAt, if_pos hpresent, hdata]
      exact hstores.scalarAt hrep

/-- Every offset field leads to what it was made to refer to. -/
theorem getPointer (h : Finished b start buf loc)
    (hb : Builder.Building start b) (hrange : b.InRange start buf)
    {field target : ℕ} (hfield : Builder.Refers b field target) :
    getPointer buf (buf.length - loc) field =
      .ok (some (buf.length - target)) := by
  obtain ⟨off, hlt, hholds⟩ := hfield
  obtain ⟨hentry, hoffset, hpos⟩ := h.fieldOffsetAt_of_holds hb hrange hholds
  have hdata := h.data_add_fieldOffsetAt hb hrange hholds
  have hstores : Stores buf off (toBytes uoffset_t.width (off - target)) :=
    h.stores hholds.stores
  have hle := hstores.le_length
  have hbuffer := hrange.buffer
  have hpresent : fieldOffsetAt buf (buf.length - loc) field ≠ 0 := by
    rw [hoffset]
    omega
  rw [getPointer_eq_some_iff]
  refine ⟨⟨hentry, fun _ => ?_⟩, hpresent, ?_⟩
  · rw [hdata]
    exact hstores.within (length_toBytes 4 _)
  · rw [targetAt, hdata,
      hstores.scalarAt_toBytes (uoffset_t_represents (by omega))]
    omega

/-- A string that the buffer holds is read through the field that refers to
it. -/
theorem getString (h : Finished b start buf loc)
    (hb : Builder.Building start b) (hrange : b.InRange start buf)
    {field target : ℕ} (hfield : Builder.Refers b field target)
    {str : List UInt8}
    (hstr : Stores b.buf target (toBytes 4 str.length ++ str)) :
    getString buf (buf.length - loc) field = .ok str := by
  have hbuffer := hrange.buffer
  have hstores := h.stores hstr
  have hle := hstores.le_length
  have hlen := hstores.length_le
  rw [List.length_append, length_toBytes] at hlen
  have hsize : scalarAt uoffset_t buf (buf.length - target) = str.length :=
    Stores.scalarAt_toBytes hstores.left (uoffset_t_represents (by omega))
  have hbytes := hstores.right
  rw [length_toBytes] at hbytes
  have hfour : (buf.length : ℤ) - target + 4 =
      buf.length - (target - 4 : ℕ) := by omega
  rw [Flatbuffers.getString, h.getPointer hb hrange hfield]
  change Flatbuffers.str buf (some _) = _
  rw [str_eq_ok_iff]
  refine ⟨_, rfl, ⟨hstores.left.within (length_toBytes 4 _), ?_⟩, ?_⟩
  · rw [hsize, hfour]
    exact hbytes.within (Int.toNat_natCast _).symm
  · rw [stringAt, hsize, hfour]
    exact hbytes.bytesAt (Int.toNat_natCast _).symm

end Finished

end Flatbuffers
