import RankingServer.Flatbuffers.Finished
import RankingServer.Flatbuffers.Verifier

/-!
# The verifier accepts what the builder makes

Each check that `VerifyTableStart`, `VerifyField` and `VerifyString` make
succeeds on a finished table: everything in it is inside the buffer, and what
the builder aligned at a distance from the end is aligned at its index, because
`Finish` aligns the whole buffer.
-/

namespace Flatbuffers

open Scalar

namespace Verification

/-- The chain passes on a verifier that satisfies `P`. -/
def Accepts (x : Verification) (P : Verifier → Prop) : Prop :=
  ∃ v, x = .ok (some v) ∧ P v

variable {x : Verification} {f : Verifier → Verification}
  {P Q : Verifier → Prop}

theorem Accepts.andThen (h : x.Accepts P) (hf : ∀ v, P v → (f v).Accepts Q) :
    (x.andThen f).Accepts Q := by
  obtain ⟨v, rfl, hv⟩ := h
  exact hf v hv

theorem accepts_check {v : Verifier} {ok : Bool} (hok : ok = true)
    (hv : P v) : (v.check ok).Accepts P := by
  refine ⟨v, ?_, hv⟩
  rw [Verifier.check, if_pos hok]

theorem accepts_bind {α : Type} {y : Access α} {a : α}
    {g : α → Verification} (hy : y = .ok a) (h : (g a).Accepts P) :
    Accepts (y.bind g) P := by
  rw [hy]
  exact h

end Verification

namespace Verifier

open Verification

variable {v : Verifier}

theorem verify_eq_true {elem elemLen : ℕ} (hlt : elemLen < v.buf.length)
    (hle : elem + elemLen ≤ v.buf.length) : v.verify elem elemLen = true := by
  rw [verify, decide_eq_true_iff]
  omega

theorem verifyAlignment_eq_true {elem align : ℕ}
    (halign : ∃ k, align = 2 ^ k) (hdvd : align ∣ elem) :
    v.verifyAlignment elem align = true := by
  obtain ⟨k, rfl⟩ := halign
  rw [verifyAlignment, Nat.and_two_pow_sub_one_eq_mod,
    Nat.mod_eq_zero_of_dvd hdvd]
  rfl

theorem verifyScalar_eq_true {type : ScalarType} {elem : ℕ}
    (hwidth : ∃ k, type.width = 2 ^ k) (hdvd : type.width ∣ elem)
    (hlt : type.width < v.buf.length)
    (hle : elem + type.width ≤ v.buf.length) :
    v.verifyScalar type elem = true := by
  rw [verifyScalar, verifyAlignment_eq_true hwidth hdvd,
    verify_eq_true hlt hle]
  rfl

/-- The counters leave room for one more table. -/
def Room (v : Verifier) : Prop :=
  (v.depth + 1) % 2 ^ 32 ≤ v.opts.max_depth ∧
    (v.num_tables + 1) % 2 ^ 32 ≤ v.opts.max_tables

theorem verifyComplexity_eq_some (h : v.Room) :
    ∃ w, v.verifyComplexity = some w ∧ w.buf = v.buf ∧ w.opts = v.opts := by
  obtain ⟨hdepth, htables⟩ := h
  simp only [verifyComplexity]
  rw [if_pos ⟨hdepth, htables⟩]
  exact ⟨_, rfl, rfl, rfl⟩

end Verifier

namespace Finished

open Verification Verifier

variable {start loc : ℕ} {b : Builder} {buf : List UInt8}

/-- An index of something that the builder stored. -/
theorem size_t_sub {off : ℕ} (hoff : off ≤ buf.length)
    (hlen : buf.length < 2 ^ 31) :
    size_t (buf.length - off) = buf.length - off := by
  have hsize := size_t_of_bounds (p := buf.length - off) (by omega) (by omega)
  omega

theorem four_dvd_loc (h : Finished b start buf loc) : 4 ∣ loc := by
  have hdvd := Builder.dvd_getSize_align (by decide : 0 < 4) b
  rw [h.size]
  omega

section Verify

variable (h : Finished b start buf loc) (hb : Builder.Building start b)
  (hrange : b.InRange start buf) {v : Verifier} (hbuf : v.buf = buf)

include h hb hrange hbuf

/-- `VerifyTableStart` accepts the table. -/
theorem verifyTableStart_accepts (hroom : v.Room) :
    (v.verifyTableStart (buf.length - loc)).Accepts fun w =>
      w.buf = buf ∧ w.opts = v.opts := by
  subst hbuf
  have hlen := hrange.buffer
  have hloc := h.loc_le
  have hfour := h.four
  have hfour_loc := h.four_dvd_loc
  have heven := hb.even_vtableSize
  have hvt := Builder.Building.four_le_vtableSize b
  have hvtable := h.vtableAt hb hrange
  obtain ⟨hwithin, hvtsize⟩ := h.vtsizeAt hb hrange
  have hstores := (h.vtable_stores hb).le_length
  have htable := h.table.length_le
  rw [length_toBytes] at htable
  have hstart : size_t ((v.buf.length : ℤ) - loc) = v.buf.length - loc :=
    size_t_sub hloc hlen
  have hsoffset : v.verifyScalar soffset_t (size_t (v.buf.length - loc)) =
      true := by
    rw [hstart]
    exact verifyScalar_eq_true ⟨2, rfl⟩ (Nat.dvd_sub hfour hfour_loc)
      (by change 4 < _; omega) (by change _ + 4 ≤ _; omega)
  rw [verifyTableStart, if_pos hsoffset]
  apply accepts_bind (readScalar_eq_ok_iff.mpr
    ⟨h.table.within (length_toBytes 4 _), rfl⟩)
  obtain ⟨w, hw, hwbuf, hwopts⟩ := verifyComplexity_eq_some hroom
  have hdata : (size_t ((v.buf.length : ℤ) - loc) : ℤ) =
      v.buf.length - loc := by
    rw [hstart]
    omega
  simp only [hw, hdata]
  rw [← Flatbuffers.vtableAt, hvtable, size_t_sub hstores hlen]
  have hindex : ((v.buf.length - (loc + Builder.Building.vtableSize b) : ℕ) :
      ℤ) = v.buf.length - (loc + Builder.Building.vtableSize b : ℕ) := by
    omega
  have hvoffset : w.verifyScalar voffset_t
      (v.buf.length - (loc + Builder.Building.vtableSize b)) = true := by
    apply verifyScalar_eq_true ⟨1, rfl⟩
    · change 2 ∣ _
      omega
    · rw [hwbuf]
      change 2 < _
      omega
    · rw [hwbuf]
      change _ + 2 ≤ _
      omega
  rw [if_pos hvoffset, hwbuf, hindex, ← hvtable]
  apply accepts_bind (readScalar_eq_ok_iff.mpr ⟨hwithin, rfl⟩)
  have halign : w.verifyAlignment (Builder.Building.vtableSize b) 2 = true :=
    verifyAlignment_eq_true ⟨1, rfl⟩ heven
  rw [← Flatbuffers.vtsizeAt, hvtsize, Int.toNat_natCast, if_pos halign]
  apply accepts_check
  · have hzero : Builder.Building.vtableSize b &&& 1 = 0 := by
      rw [Nat.and_one_is_mod]
      omega
    rw [Bool.and_eq_true, decide_eq_true_iff]
    refine ⟨hzero, verify_eq_true ?_ ?_⟩
    · rw [hwbuf]
      omega
    · rw [hwbuf]
      omega
  · exact ⟨hwbuf, hwopts⟩

/-- `VerifyField` accepts a scalar field. -/
theorem verifyField_accepts {type : ScalarType} {field : ℕ} {e default : ℤ}
    (hfour : 4 ≤ field) (htwo : 2 ∣ field)
    (hwidth : ∃ k, type.width = 2 ^ k)
    (hfield : Builder.Scalar b field type.width e default) :
    (v.verifyField (buf.length - loc) field type type.width).Accepts fun w =>
      w.buf = buf ∧ w.opts = v.opts := by
  subst hbuf
  have hlen := hrange.buffer
  rcases hfield with ⟨rfl, hlacks⟩ | ⟨off, hholds⟩
  · obtain ⟨hentry, hoffset⟩ :=
      h.fieldOffsetAt_of_lacks hb hrange hfour htwo hlacks
    apply accepts_bind (getOptionalFieldOffset_eq_ok_iff.mpr ⟨hentry, hoffset⟩)
    exact accepts_check rfl ⟨rfl, rfl⟩
  · obtain ⟨hentry, -, -⟩ := h.fieldOffsetAt_of_holds hb hrange hholds
    have hdata := h.data_add_fieldOffsetAt hb hrange hholds
    have hplace := size_t_field (by omega) hentry
    have hstores := h.stores hholds.stores
    have hle := hstores.le_length
    have hfit := hstores.length_le
    have hobject := h.fieldOffsetAt_of_holds hb hrange hholds
    have hloc := h.loc_le
    have htable := h.table.length_le
    have hdvd := hholds.aligned
    have hminalign := hholds.minalign.trans h.minalign
    rw [length_scalarBytes] at hfit hdvd hminalign
    rw [length_toBytes] at htable
    have hindex : size_t (size_t ((v.buf.length : ℤ) - loc) +
        fieldOffsetAt v.buf (v.buf.length - loc) field) =
          v.buf.length - off := by omega
    apply accepts_bind (getOptionalFieldOffset_eq_ok_iff.mpr ⟨hentry, rfl⟩)
    apply accepts_check
    · rw [hindex, verifyAlignment_eq_true hwidth (Nat.dvd_sub hminalign hdvd),
        verify_eq_true (by omega) (by omega), Bool.and_true, Bool.or_true]
    · exact ⟨rfl, rfl⟩

/-- `VerifyOffset` accepts an offset field. -/
theorem verifyOffsetField_accepts {field target : ℕ} (htarget : 0 < target)
    (hfield : Builder.Refers b field target) :
    (v.verifyOffsetField (buf.length - loc) field).Accepts (· = v) := by
  subst hbuf
  have hlen := hrange.buffer
  obtain ⟨off, hlt, hholds⟩ := hfield
  obtain ⟨hentry, hoffset, hpos⟩ := h.fieldOffsetAt_of_holds hb hrange hholds
  have hdata := h.data_add_fieldOffsetAt hb hrange hholds
  have hplace := size_t_field (by omega) hentry
  have hstores : Stores v.buf off (toBytes uoffset_t.width (off - target)) :=
    h.stores hholds.stores
  have hle := hstores.le_length
  have hfit := hstores.length_le
  have hwithin := hstores.within (length_toBytes uoffset_t.width _)
  have hvalue := hstores.scalarAt_toBytes
    (uoffset_t_represents (by omega : off - target < 2 ^ 32))
  have hdvd := hholds.aligned
  rw [length_toBytes] at hfit hdvd
  change 4 ≤ off at hfit
  have hloc := h.loc_le
  have hfour := h.four
  have hindex : size_t (size_t ((v.buf.length : ℤ) - loc) +
      fieldOffsetAt v.buf (v.buf.length - loc) field) =
        v.buf.length - off := by omega
  have hcast : ((v.buf.length - off : ℕ) : ℤ) = v.buf.length - off := by omega
  have htable := h.table.length_le
  rw [length_toBytes] at htable
  have hscalar : v.verifyScalar uoffset_t (v.buf.length - off) = true :=
    verifyScalar_eq_true ⟨2, rfl⟩ (Nat.dvd_sub hfour hdvd)
      (by change 4 < _; omega) (by change _ + 4 ≤ _; omega)
  have hverify : v.verify ((v.buf.length - off + (off - target)) % 2 ^ 64) 1 =
      true := by
    rw [Nat.mod_eq_of_lt (by omega)]
    exact verify_eq_true (by omega) (by omega)
  have hok : v.verifyOffset (v.buf.length - off) = .ok (off - target) := by
    rw [verifyOffset, if_pos hscalar, hcast,
      readScalar_eq_ok_iff.mpr ⟨hwithin, hvalue⟩, ok_bind,
      if_neg (by omega), if_neg (by omega), Int.toNat_natCast, if_pos hverify]
  apply accepts_bind (getOptionalFieldOffset_eq_ok_iff.mpr ⟨hentry, rfl⟩)
  rw [if_neg (by omega), hindex]
  apply accepts_bind hok
  exact accepts_check (decide_eq_true (by omega)) rfl

omit hb in
/-- `VerifyString` accepts a string with its terminator. -/
theorem verifyString_ok_true {target : ℕ} (hdvd : 4 ∣ target)
    {str : List UInt8}
    (hstr : Stores b.buf target (toBytes 4 str.length ++ str ++ [0]))
    (hmax : str.length < v.opts.max_size) :
    v.verifyString (some (buf.length - target)) = .ok true := by
  subst hbuf
  have hlen := hrange.buffer
  have hstores := h.stores hstr
  have hle := hstores.le_length
  have hfit := hstores.length_le
  have htable := h.table.length_le
  have hloc := h.loc_le
  have hfour := h.four
  have hbehind : target ≤ (b.align 4).getSize :=
    hstr.le_length.trans (Builder.getSize_le_align b 4)
  have hsize := h.size
  rw [length_toBytes] at htable
  simp only [List.length_append, length_toBytes, List.length_cons,
    List.length_nil] at hfit
  have hlength : Stores v.buf target
      (toBytes uoffset_t.width str.length) := hstores.left.left
  have hwithin := hlength.within (length_toBytes uoffset_t.width _)
  have hvalue := hlength.scalarAt_toBytes
    (uoffset_t_represents (by omega : str.length < 2 ^ 32))
  have hterminator := hstores.right
  rw [List.length_append, length_toBytes] at hterminator
  have hone : [(0 : UInt8)].length = 1 := rfl
  have hlast := hterminator.within hone
  have hzero : scalarAt uint8_t v.buf
      (v.buf.length - (target - (4 + str.length) : ℕ)) = 0 := by
    change ((ofBytes (bytesAt _ _ 1) : ℕ) : ℤ) = 0
    rw [hterminator.bytesAt hone]
    rfl
  have hstart : size_t ((v.buf.length : ℤ) - target) =
      v.buf.length - target := size_t_sub hle hlen
  have hscalar : v.verifyScalar uoffset_t
      (size_t ((v.buf.length : ℤ) - target)) = true := by
    rw [hstart]
    exact verifyScalar_eq_true ⟨2, rfl⟩ (Nat.dvd_sub hfour hdvd)
      (by change 4 < _; omega) (by change _ + 4 ≤ _; omega)
  have hstop : ((v.buf.length - target + (4 + 1 * str.length)) % 2 ^ 64 : ℕ) =
      v.buf.length - (target - (4 + str.length)) := by
    rw [Nat.mod_eq_of_lt (by omega)]
    omega
  have hcast : ((v.buf.length - (target - (4 + str.length)) : ℕ) : ℤ) =
      v.buf.length - (target - (4 + str.length) : ℕ) := by omega
  have hvector : v.verifyVectorOrString (v.buf.length - target) =
      .ok (some (v.buf.length - (target - (4 + str.length)))) := by
    rw [verifyVectorOrString, if_pos hscalar,
      readScalar_eq_ok_iff.mpr ⟨hwithin, hvalue⟩, ok_bind,
      Int.toNat_natCast, Nat.div_one, if_pos hmax, hstart, hstop,
      if_pos (verify_eq_true (by omega) (by omega))]
  rw [verifyString, hvector, ok_bind]
  simp only
  rw [if_pos (verify_eq_true (by omega) (by omega)), hcast,
    readScalar_eq_ok_iff.mpr ⟨hlast, hzero⟩, ok_bind]
  rfl

/-- The lines for a string field are accepted. -/
theorem verifyStringField_accepts {field target : ℕ}
    (hfield : Builder.Refers b field target) (hdvd : 4 ∣ target)
    {str : List UInt8}
    (hstr : Stores b.buf target (toBytes 4 str.length ++ str ++ [0]))
    (hmax : str.length < v.opts.max_size) :
    (v.verifyStringField (buf.length - loc) field).Accepts fun w =>
      w.buf = buf ∧ w.opts = v.opts := by
  have hlen := hstr.length_le
  rw [List.length_append, List.length_append, length_toBytes] at hlen
  apply (h.verifyOffsetField_accepts hb hrange hbuf (by omega)
    hfield).andThen
  rintro w rfl
  rw [hbuf]
  apply accepts_bind (h.getPointer hb hrange hfield)
  apply accepts_bind (h.verifyString_ok_true hrange hbuf hdvd hstr hmax)
  exact accepts_check rfl ⟨hbuf, rfl⟩

end Verify

end Finished

namespace Verifier

open Verification

variable {v : Verifier}

/-- A table is accepted when its start and each of its fields are. -/
theorem verifyTable_accepts {buf : List UInt8} {opts : Options} {data : ℤ}
    {checks : List Check}
    (hstart : (v.verifyTableStart data).Accepts fun w =>
      w.buf = buf ∧ w.opts = opts)
    (hchecks : ∀ c ∈ checks, ∀ w : Verifier, w.buf = buf → w.opts = opts →
      (c.run w data).Accepts fun w' => w'.buf = buf ∧ w'.opts = opts) :
    (verifyTable checks v data).Accepts fun w => w.buf = buf := by
  apply hstart.andThen
  rintro w ⟨hbuf, hopts⟩
  have hfields : (w.verifyFields data checks).Accepts fun w' =>
      w'.buf = buf := by
    clear hstart
    induction checks generalizing w with
    | nil => exact ⟨w, rfl, hbuf⟩
    | cons c checks ih =>
        apply (hchecks c List.mem_cons_self w hbuf hopts).andThen
        rintro w' ⟨hbuf', hopts'⟩
        exact ih (fun d hd => hchecks d (List.mem_cons_of_mem c hd)) w' hbuf'
          hopts'
  apply hfields.andThen
  intro w' hbuf'
  exact ⟨_, rfl, hbuf'⟩

/-- A buffer is accepted when its root is a table that is accepted. -/
theorem verifyBuffer_accepts {start loc : ℕ} {b : Builder}
    (h : Finished b start v.buf loc) (hrange : b.InRange start v.buf)
    {verifyRoot : Verifier → ℤ → Verification} {P : Verifier → Prop}
    (hsize : 12 ≤ v.buf.length) (hend : loc < v.buf.length)
    (hroot : (verifyRoot v (v.buf.length - loc)).Accepts P) :
    (v.verifyBuffer verifyRoot).Accepts P := by
  have hlen := hrange.buffer
  have htable := h.table.length_le
  rw [length_toBytes] at htable
  obtain ⟨hwithin, hvalue⟩ := readScalar_eq_ok_iff.mp (h.getRoot hlen)
  have hscalar : v.verifyScalar uoffset_t 0 = true :=
    verifyScalar_eq_true ⟨2, rfl⟩ (dvd_zero _) (by change 4 < _; omega)
      (by change 0 + 4 ≤ _; omega)
  have hnat : ((v.buf.length : ℤ) - loc).toNat = v.buf.length - loc := by
    omega
  have hverify : v.verify ((0 + (v.buf.length - loc)) % 2 ^ 64) 1 = true := by
    rw [Nat.mod_eq_of_lt (by omega)]
    exact verify_eq_true (by omega) (by omega)
  have hoffset : v.verifyOffset 0 = .ok (v.buf.length - loc) := by
    rw [verifyOffset, if_pos hscalar, Nat.cast_zero,
      readScalar_eq_ok_iff.mpr ⟨hwithin, hvalue⟩, ok_bind,
      if_neg (by omega), if_neg (by omega), hnat, if_pos hverify]
  have hcast : ((v.buf.length - loc : ℕ) : ℤ) = v.buf.length - loc := by omega
  rw [verifyBuffer, if_pos hsize]
  apply accepts_bind hoffset
  rw [if_neg (by omega), hcast]
  exact hroot

end Verifier

end Flatbuffers
