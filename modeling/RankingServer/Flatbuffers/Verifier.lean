import RankingServer.Flatbuffers.Table

/-!
# The verifier

`VerifierTemplate` of `flatbuffers/verifier.h`, without tracking of the buffer
size, and the `Verify…` methods of `table.h` that generated code calls.

The verifier itself reads the bytes it is about to trust, so a result is an
`Access`: a verifier that reads outside the buffer faults.  The main results are
that it never does, whatever the bytes are, and that a table it accepts can be
read by the accessors.
-/

namespace Flatbuffers

open Scalar

/-- `VerifierTemplate::Options`, as far as they are used. -/
structure Options where
  max_depth : ℕ
  max_tables : ℕ
  check_alignment : Bool
  max_size : ℕ

/-- `FLATBUFFERS_MAX_BUFFER_SIZE` -/
def MAX_BUFFER_SIZE : ℕ := 2 ^ 31 - 1

/-- The options that `Verifier(buf, buf_len)` is constructed with. -/
def Options.default : Options := ⟨64, 1000000, true, MAX_BUFFER_SIZE⟩

/-- `VerifierTemplate<false>` -/
structure Verifier where
  buf : List UInt8
  opts : Options
  depth : ℕ
  num_tables : ℕ

/-- A chain of checks: `none` when one of them returned `false`. -/
abbrev Verification := Access (Option Verifier)

/-- `x && f`, where `f` uses the verifier as `x` left it. -/
def Verification.andThen (x : Verification) (f : Verifier → Verification) :
    Verification :=
  x.bind fun result =>
    match result with
    | none => .ok none
    | some v => f v

namespace Verifier

/-- `Verifier(buf, buf_len)` -/
def new (buf : List UInt8) (opts : Options) : Verifier := ⟨buf, opts, 0, 0⟩

/-- `static_cast<size_t>` of a pointer difference. -/
def size_t (p : ℤ) : ℕ := (p % 2 ^ 64).toNat

/-- `Verify(elem, elem_len)` -/
def verify (v : Verifier) (elem elemLen : ℕ) : Bool :=
  decide (elemLen < v.buf.length ∧ elem ≤ v.buf.length - elemLen)

def verifyAlignment (v : Verifier) (elem align : ℕ) : Bool :=
  decide (elem &&& (align - 1) = 0) || !v.opts.check_alignment

/-- `Verify<T>(elem)` -/
def verifyScalar (v : Verifier) (type : ScalarType) (elem : ℕ) : Bool :=
  v.verifyAlignment elem type.width && v.verify elem type.width

/-- A check that leaves the counters alone. -/
def check (v : Verifier) (ok : Bool) : Verification :=
  .ok (if ok then some v else none)

/-- `VerifyOffset(start)`; 0 when a check fails. -/
def verifyOffset (v : Verifier) (start : ℕ) : Access ℕ :=
  if v.verifyScalar uoffset_t start then
    (readScalar uoffset_t v.buf start).bind fun o =>
    if o = 0 then .ok 0
    else if ¬o < 2 ^ 31 then .ok 0
    else if v.verify ((start + o.toNat) % 2 ^ 64) 1 then .ok o.toNat
    else .ok 0
  else .ok 0

/-- `VerifyVectorOrString`, for elements of one byte; the end is returned
beside the verdict. -/
def verifyVectorOrString (v : Verifier) (vec : ℤ) : Access (Option ℕ) :=
  if v.verifyScalar uoffset_t (size_t vec) then
    (readScalar uoffset_t v.buf vec).bind fun size =>
    if size.toNat < v.opts.max_size / 1 then
      if v.verify (size_t vec) (4 + 1 * size.toNat) then
        .ok (some ((size_t vec + (4 + 1 * size.toNat)) % 2 ^ 64))
      else .ok none
    else .ok none
  else .ok none

/-- `VerifyString` -/
def verifyString (v : Verifier) : Option ℤ → Access Bool
  | none => .ok true
  | some str =>
      (v.verifyVectorOrString str).bind fun stop =>
      match stop with
      | none => .ok false
      | some stop =>
          if v.verify stop 1 then
            (readScalar uint8_t v.buf stop).bind fun last =>
            .ok (decide (last = 0))
          else .ok false

/-- `VerifyComplexity`; the counters have 32 bits. -/
def verifyComplexity (v : Verifier) : Option Verifier :=
  let v := { v with
    depth := (v.depth + 1) % 2 ^ 32
    num_tables := (v.num_tables + 1) % 2 ^ 32 }
  if v.depth ≤ v.opts.max_depth ∧ v.num_tables ≤ v.opts.max_tables then some v
  else none

/-- `EndTable` -/
def endTable (v : Verifier) : Verification :=
  .ok (some { v with depth := (v.depth + 2 ^ 32 - 1) % 2 ^ 32 })

/-- `VerifyTableStart` -/
def verifyTableStart (v : Verifier) (table : ℤ) : Verification :=
  if v.verifyScalar soffset_t (size_t table) then
    (readScalar soffset_t v.buf table).bind fun distance =>
    let vtableo := size_t (size_t table - distance)
    match v.verifyComplexity with
    | none => .ok none
    | some v =>
        if v.verifyScalar voffset_t vtableo then
          (readScalar voffset_t v.buf vtableo).bind fun vsize =>
          if v.verifyAlignment vsize.toNat 2 then
            v.check (decide (vsize.toNat &&& 1 = 0) &&
              v.verify vtableo vsize.toNat)
          else .ok none
        else .ok none
  else .ok none

/-! ## The methods of `Table` -/

/-- `Table::VerifyField<T>` -/
def verifyField (v : Verifier) (data field : ℤ) (type : ScalarType)
    (align : ℕ) : Verification :=
  (getOptionalFieldOffset v.buf data field).bind fun offset =>
  v.check (decide (offset = 0) ||
    (v.verifyAlignment (size_t (size_t data + offset)) align &&
      v.verify (size_t (size_t data + offset)) type.width))

/-- `Table::VerifyOffset` -/
def verifyOffsetField (v : Verifier) (data field : ℤ) : Verification :=
  (getOptionalFieldOffset v.buf data field).bind fun offset =>
  if offset = 0 then .ok (some v)
  else (v.verifyOffset (size_t (size_t data + offset))).bind fun o =>
    v.check (decide (o ≠ 0))

/-- `VerifyOffset(verifier, field) && verifier.VerifyString(…)` for the string
that the field refers to. -/
def verifyStringField (v : Verifier) (data field : ℤ) : Verification :=
  (v.verifyOffsetField data field).andThen fun v =>
  (getPointer v.buf data field).bind fun target =>
  (v.verifyString target).bind fun ok => v.check ok

/-- The line of a generated `Verify` for one field. -/
inductive Check
  | scalar (field : ℤ) (type : ScalarType) (align : ℕ)
  | string (field : ℤ)

def Check.run (v : Verifier) (data : ℤ) : Check → Verification
  | scalar field type align => v.verifyField data field type align
  | string field => v.verifyStringField data field

/-- The lines for the fields, from the first one that fails on skipped. -/
def verifyFields (v : Verifier) (data : ℤ) : List Check → Verification
  | [] => .ok (some v)
  | c :: checks =>
      (c.run v data).andThen fun v => v.verifyFields data checks

/-- A generated `Verify` of a table of scalars and strings. -/
def verifyTable (checks : List Check) (v : Verifier) (data : ℤ) :
    Verification :=
  (v.verifyTableStart data).andThen fun v =>
  (v.verifyFields data checks).andThen endTable

/-- `VerifyBuffer<T>(nullptr)`, where `verifyRoot` is `T::Verify`. -/
def verifyBuffer (v : Verifier) (verifyRoot : Verifier → ℤ → Verification) :
    Verification :=
  if 4 + 4 + 2 + 2 ≤ v.buf.length then
    (v.verifyOffset 0).bind fun o =>
    if o = 0 then .ok none else verifyRoot v o
  else .ok none

end Verifier

/-! ## Chains of checks -/

namespace Verification

/-- The chain reads inside the buffer, and a verifier it passes on satisfies
`P`. -/
def Ensures (x : Verification) (P : Verifier → Prop) : Prop :=
  ∃ result, x = .ok result ∧ ∀ v, result = some v → P v

variable {x : Verification} {f : Verifier → Verification}
  {P Q : Verifier → Prop}

theorem Ensures.andThen (h : x.Ensures P) (hf : ∀ v, P v → (f v).Ensures Q) :
    (x.andThen f).Ensures Q := by
  obtain ⟨result, rfl, hresult⟩ := h
  cases result with
  | none => exact ⟨none, rfl, by simp⟩
  | some v => exact hf v (hresult v rfl)

theorem Ensures.mono (h : x.Ensures P) (hPQ : ∀ v, P v → Q v) :
    x.Ensures Q := by
  obtain ⟨result, hx, hresult⟩ := h
  exact ⟨result, hx, fun v hv => hPQ v (hresult v hv)⟩

theorem ensures_none (P : Verifier → Prop) : Ensures (.ok none) P :=
  ⟨none, rfl, by simp⟩

theorem ensures_some {v : Verifier} (h : P v) : Ensures (.ok (some v)) P := by
  refine ⟨some v, rfl, ?_⟩
  rintro w hw
  obtain rfl := Option.some.inj hw
  exact h

theorem ensures_check {v : Verifier} {ok : Bool} (h : ok = true → P v) :
    (v.check ok).Ensures P := by
  cases ok with
  | false => exact ensures_none P
  | true => exact ensures_some (h rfl)

theorem ensures_bind {α : Type} {y : Access α} {a : α}
    {g : α → Verification} (hy : y = .ok a) (h : (g a).Ensures P) :
    Ensures (y.bind g) P := by
  rw [hy]
  exact h

end Verification

/-! ## What the checks establish -/

theorem ok_bind {α β : Type} (a : α) (f : α → Access β) :
    Except.bind (.ok a) f = f a :=
  rfl

theorem ofBytes_lt (bs : List UInt8) : ofBytes bs < 256 ^ bs.length := by
  induction bs with
  | nil => decide
  | cons b bs ih =>
      have hb := b.toNat_lt
      rw [ofBytes, List.length_cons, pow_succ]
      omega

theorem length_bytesAt {buf : List UInt8} {start : ℤ} {width : ℕ}
    (h : Within buf start width) :
    (bytesAt buf start width).length = width := by
  obtain ⟨hpos, hend⟩ := h
  rw [bytesAt, List.length_take, List.length_drop]
  omega

theorem scalarAt_voffset_t {buf : List UInt8} {start : ℤ}
    (h : Within buf start 2) :
    0 ≤ scalarAt voffset_t buf start ∧
      scalarAt voffset_t buf start < 2 ^ 16 := by
  have hlt := ofBytes_lt (bytesAt buf start 2)
  rw [length_bytesAt h] at hlt
  change 0 ≤ ((ofBytes (bytesAt buf start 2) : ℕ) : ℤ) ∧
    ((ofBytes (bytesAt buf start 2) : ℕ) : ℤ) < 2 ^ 16
  omega

theorem scalarAt_uoffset_t {buf : List UInt8} {start : ℤ}
    (h : Within buf start 4) :
    0 ≤ scalarAt uoffset_t buf start ∧
      scalarAt uoffset_t buf start < 2 ^ 32 := by
  have hlt := ofBytes_lt (bytesAt buf start 4)
  rw [length_bytesAt h] at hlt
  change 0 ≤ ((ofBytes (bytesAt buf start 4) : ℕ) : ℤ) ∧
    ((ofBytes (bytesAt buf start 4) : ℕ) : ℤ) < 2 ^ 32
  omega

theorem scalarAt_soffset_t {buf : List UInt8} {start : ℤ}
    (h : Within buf start 4) :
    -2 ^ 31 ≤ scalarAt soffset_t buf start ∧
      scalarAt soffset_t buf start < 2 ^ 31 := by
  have hlt := ofBytes_lt (bytesAt buf start 4)
  rw [length_bytesAt h] at hlt
  change -2 ^ 31 ≤ signed (bytesAt buf start 4) ∧
    signed (bytesAt buf start 4) < 2 ^ 31
  rw [signed, length_bytesAt h]
  split
  · omega
  · omega

/-- The vtable of the table lies inside the buffer and has an even size. -/
structure TableVerified (buf : List UInt8) (data : ℤ) : Prop where
  table : Within buf data 4
  vtable : Within buf (vtableAt buf data) 2
  even : 2 ∣ vtsizeAt buf data
  whole : vtableAt buf data + vtsizeAt buf data ≤ buf.length

/-- Entries have two bytes, so an even vtable that reaches to an entry covers
it. -/
theorem TableVerified.entryWithin {buf : List UInt8} {data field : ℤ}
    (h : TableVerified buf data) (hpos : 0 ≤ field) (heven : 2 ∣ field) :
    EntryWithin buf data field := by
  have hvtable := h.vtable.1
  have hsize := h.even
  have hwhole := h.whole
  refine ⟨h.table, h.vtable, ?_⟩
  intro hlt
  constructor
  · omega
  · omega

theorem EntryWithin.fieldOffsetAt_bounds {buf : List UInt8} {data field : ℤ}
    (h : EntryWithin buf data field) :
    0 ≤ fieldOffsetAt buf data field ∧
      fieldOffsetAt buf data field < 2 ^ 16 := by
  rw [fieldOffsetAt]
  by_cases hfield : field < vtsizeAt buf data
  · rw [if_pos hfield]
    exact scalarAt_voffset_t (h.entry hfield)
  · rw [if_neg hfield]
    decide

namespace Verifier

open Verification

variable {v : Verifier}

theorem size_t_of_bounds {p : ℤ} (hpos : 0 ≤ p) (hlt : p < 2 ^ 64) :
    (size_t p : ℤ) = p := by
  rw [size_t, Int.emod_eq_of_lt hpos hlt, Int.toNat_of_nonneg hpos]

theorem within_of_verify {elem elemLen : ℕ}
    (h : v.verify elem elemLen = true) : Within v.buf elem elemLen := by
  rw [verify, decide_eq_true_iff] at h
  constructor
  · omega
  · omega

theorem within_of_verifyScalar {type : ScalarType} {elem : ℕ}
    (h : v.verifyScalar type elem = true) : Within v.buf elem type.width := by
  rw [verifyScalar, Bool.and_eq_true] at h
  exact within_of_verify h.2

theorem verifyComplexity_buf {w : Verifier}
    (h : v.verifyComplexity = some w) : w.buf = v.buf := by
  simp only [verifyComplexity] at h
  split at h
  · obtain rfl := Option.some.inj h
    rfl
  · cases h

/-- `VerifyTableStart` never reads outside the buffer, and what it accepts has
its vtable inside. -/
theorem verifyTableStart_ensures (hlen : v.buf.length < 2 ^ 63) {data : ℤ}
    (hpos : 0 ≤ data) (hdata : data < 2 ^ 63) :
    (v.verifyTableStart data).Ensures fun w =>
      w.buf = v.buf ∧ TableVerified v.buf data := by
  have hsize := size_t_of_bounds hpos (by omega)
  rw [verifyTableStart]
  by_cases htable : v.verifyScalar soffset_t (size_t data) = true
  · rw [if_pos htable]
    have hwithin := within_of_verifyScalar htable
    rw [hsize] at hwithin
    apply ensures_bind (readScalar_eq_ok_iff.mpr ⟨hwithin, rfl⟩)
    simp only [hsize]
    rw [← vtableAt]
    cases hcomplexity : v.verifyComplexity with
    | none => exact ensures_none _
    | some w =>
        have hbuf := verifyComplexity_buf hcomplexity
        simp only
        by_cases hvtable :
            w.verifyScalar voffset_t (size_t (vtableAt v.buf data)) = true
        · rw [if_pos hvtable, hbuf]
          have hwithin' := within_of_verifyScalar hvtable
          rw [hbuf] at hwithin'
          have hbounds := scalarAt_soffset_t hwithin
          -- a vtable in front of the buffer wraps around to far behind it
          have hvtableo : (size_t (vtableAt v.buf data) : ℤ) =
              vtableAt v.buf data := by
            have hend := hwithin'.2
            by_cases hneg : vtableAt v.buf data < 0
            · rw [size_t] at hend
              rw [vtableAt] at hneg hend
              omega
            · exact size_t_of_bounds (by omega) (by rw [vtableAt]; omega)
          rw [hvtableo] at hwithin' ⊢
          apply ensures_bind (readScalar_eq_ok_iff.mpr ⟨hwithin', rfl⟩)
          rw [← vtsizeAt]
          split
          · apply ensures_check
            intro hchecks
            obtain ⟨hvtsize, -⟩ := scalarAt_voffset_t hwithin'
            rw [← vtsizeAt] at hvtsize
            rw [Bool.and_eq_true, decide_eq_true_iff] at hchecks
            obtain ⟨heven, hverify⟩ := hchecks
            have hwhole := (within_of_verify hverify).2
            rw [Nat.and_one_is_mod] at heven
            rw [hvtableo, hbuf] at hwhole
            exact ⟨hbuf, hwithin, hwithin', by omega, by omega⟩
          · exact ensures_none _
        · rw [if_neg hvtable]
          exact ensures_none _
  · rw [if_neg htable]
    exact ensures_none _

section Fields

variable {data field : ℤ}

/-- The place of a field that is not absent, as the verifier computes it. -/
theorem size_t_field (hlen : v.buf.length < 2 ^ 63)
    (hentry : EntryWithin v.buf data field) :
    (size_t (size_t data + fieldOffsetAt v.buf data field) : ℤ) =
      data + fieldOffsetAt v.buf data field := by
  obtain ⟨hpos, hend⟩ := hentry.table
  obtain ⟨hoffset, hlt⟩ := hentry.fieldOffsetAt_bounds
  rw [size_t_of_bounds hpos (by omega)]
  exact size_t_of_bounds (by omega) (by omega)

/-- `VerifyField` accepts a field only if it is absent or inside the buffer. -/
theorem verifyField_ensures (hlen : v.buf.length < 2 ^ 63)
    (hentry : EntryWithin v.buf data field) (type : ScalarType)
    (align : ℕ) :
    (v.verifyField data field type align).Ensures fun w =>
      w.buf = v.buf ∧ FieldWithin type.width v.buf data field := by
  apply ensures_bind (getOptionalFieldOffset_eq_ok_iff.mpr ⟨hentry, rfl⟩)
  apply ensures_check
  intro hchecks
  rw [Bool.or_eq_true, decide_eq_true_iff, Bool.and_eq_true] at hchecks
  refine ⟨rfl, hentry, fun hpresent => ?_⟩
  rcases hchecks with habsent | ⟨-, hverify⟩
  · exact absurd habsent hpresent
  · have hwithin := within_of_verify hverify
    rwa [size_t_field hlen hentry] at hwithin

/-- `VerifyOffset` returns an offset that leads to a byte of the buffer, or
0. -/
theorem verifyOffset_ok {start : ℕ} (hstart : start + 2 ^ 31 ≤ 2 ^ 64) :
    ∃ o, v.verifyOffset start = .ok o ∧
      (o ≠ 0 → Within v.buf start 4 ∧ scalarAt uoffset_t v.buf start = o ∧
        start + o < v.buf.length) := by
  rw [verifyOffset]
  by_cases hscalar : v.verifyScalar uoffset_t start = true
  · rw [if_pos hscalar]
    have hwithin := within_of_verifyScalar hscalar
    rw [readScalar_eq_ok_iff.mpr ⟨hwithin, rfl⟩, ok_bind]
    split
    · exact ⟨0, rfl, by simp⟩
    split
    · exact ⟨0, rfl, by simp⟩
    split
    · rename_i hsmall hverify
      obtain ⟨hpos, -⟩ := scalarAt_uoffset_t hwithin
      have hend := (within_of_verify hverify).2
      have hmod : (start + (scalarAt uoffset_t v.buf start).toNat) % 2 ^ 64 =
          start + (scalarAt uoffset_t v.buf start).toNat :=
        Nat.mod_eq_of_lt (by omega)
      rw [hmod] at hend
      refine ⟨_, rfl, fun _ => ⟨hwithin, ?_, ?_⟩⟩
      · rw [Int.toNat_of_nonneg hpos]
      · omega
    · exact ⟨0, rfl, by simp⟩
  · rw [if_neg hscalar]
    exact ⟨0, rfl, by simp⟩

/-- An offset field that is accepted leads to a byte of the buffer. -/
theorem verifyOffsetField_ensures (hlen : v.buf.length < 2 ^ 63)
    (hentry : EntryWithin v.buf data field) :
    (v.verifyOffsetField data field).Ensures fun w =>
      w = v ∧ FieldWithin 4 v.buf data field ∧
        (fieldOffsetAt v.buf data field ≠ 0 →
          0 ≤ targetAt v.buf data field ∧
            targetAt v.buf data field < v.buf.length) := by
  have hfield := size_t_field hlen hentry
  obtain ⟨hpos, hend⟩ := hentry.table
  obtain ⟨hoffset, hlt⟩ := hentry.fieldOffsetAt_bounds
  apply ensures_bind (getOptionalFieldOffset_eq_ok_iff.mpr ⟨hentry, rfl⟩)
  by_cases habsent : fieldOffsetAt v.buf data field = 0
  · rw [if_pos habsent]
    exact ensures_some ⟨rfl, ⟨hentry, fun h => absurd habsent h⟩,
      fun h => absurd habsent h⟩
  · rw [if_neg habsent]
    have hstart : size_t (size_t data + fieldOffsetAt v.buf data field) +
        2 ^ 31 ≤ 2 ^ 64 := by omega
    obtain ⟨o, ho, hvalue⟩ := verifyOffset_ok hstart
    apply ensures_bind ho
    apply ensures_check
    intro hnonzero
    obtain ⟨hwithin, hscalar, htarget⟩ := hvalue (of_decide_eq_true hnonzero)
    rw [hfield] at hwithin hscalar
    refine ⟨rfl, ⟨hentry, fun _ => hwithin⟩, fun _ => ?_⟩
    rw [targetAt, hscalar]
    constructor
    · omega
    · omega

/-- The byte behind the string is 0. -/
def Terminated (buf : List UInt8) (start : ℤ) : Prop :=
  Within buf (start + 4 + scalarAt uoffset_t buf start) 1 ∧
    scalarAt uint8_t buf (start + 4 + scalarAt uoffset_t buf start) = 0

/-- `VerifyVectorOrString` accepts a string only if it is inside the
buffer. -/
theorem verifyVectorOrString_ok (hlen : v.buf.length < 2 ^ 63) {start : ℤ}
    (hpos : 0 ≤ start) (hstart : start < v.buf.length) :
    ∃ stop, v.verifyVectorOrString start = .ok stop ∧
      ∀ n, stop = some n → StringWithin v.buf start ∧
        n = start + 4 + scalarAt uoffset_t v.buf start := by
  have hsize := size_t_of_bounds hpos (by omega)
  rw [verifyVectorOrString]
  by_cases hscalar : v.verifyScalar uoffset_t (size_t start) = true
  · rw [if_pos hscalar]
    have hwithin := within_of_verifyScalar hscalar
    rw [hsize] at hwithin
    obtain ⟨hlength, -⟩ := scalarAt_uoffset_t hwithin
    rw [readScalar_eq_ok_iff.mpr ⟨hwithin, rfl⟩, ok_bind]
    split
    · split
      · rename_i hverify
        obtain ⟨-, hend⟩ := within_of_verify hverify
        refine ⟨_, rfl, ?_⟩
        rintro n hn
        obtain rfl := Option.some.inj hn
        refine ⟨⟨hwithin, ?_⟩, ?_⟩
        · constructor
          · omega
          · omega
        · omega
      · exact ⟨none, rfl, by simp⟩
    · exact ⟨none, rfl, by simp⟩
  · rw [if_neg hscalar]
    exact ⟨none, rfl, by simp⟩

/-- `VerifyString` accepts a string only if its terminator is inside the buffer
too. -/
theorem verifyString_ok (hlen : v.buf.length < 2 ^ 63) {start : ℤ}
    (hpos : 0 ≤ start) (hstart : start < v.buf.length) :
    ∃ ok, v.verifyString (some start) = .ok ok ∧
      (ok = true → StringWithin v.buf start ∧ Terminated v.buf start) := by
  obtain ⟨stop, hstop, hvalue⟩ := verifyVectorOrString_ok hlen hpos hstart
  rw [verifyString, hstop, ok_bind]
  cases stop with
  | none => exact ⟨false, rfl, by simp⟩
  | some n =>
      obtain ⟨hwithin, hn⟩ := hvalue n rfl
      simp only
      split
      · rename_i hlast
        have hterminator := within_of_verify hlast
        rw [hn] at hterminator ⊢
        rw [readScalar_eq_ok_iff.mpr ⟨hterminator, rfl⟩, ok_bind]
        refine ⟨_, rfl, fun hzero => ⟨hwithin, hterminator, ?_⟩⟩
        exact of_decide_eq_true hzero
      · exact ⟨false, rfl, by simp⟩

/-- A string field that is accepted is absent or can be read. -/
theorem verifyStringField_ensures (hlen : v.buf.length < 2 ^ 63)
    (hentry : EntryWithin v.buf data field) :
    (v.verifyStringField data field).Ensures fun w =>
      w.buf = v.buf ∧ (fieldOffsetAt v.buf data field ≠ 0 →
        StringFieldWithin v.buf data field ∧
          Terminated v.buf (targetAt v.buf data field)) := by
  apply (verifyOffsetField_ensures hlen hentry).andThen
  rintro w ⟨rfl, hfield, htarget⟩
  by_cases habsent : fieldOffsetAt w.buf data field = 0
  · have hpointer : getPointer w.buf data field = .ok none := by
      rw [getPointer, getOptionalFieldOffset_eq_ok_iff.mpr ⟨hentry, rfl⟩]
      simp only [Except.bind, habsent, ne_eq, not_true_eq_false, if_false]
    apply ensures_bind hpointer
    exact ensures_some ⟨rfl, fun h => absurd habsent h⟩
  · obtain ⟨hpos, hlt⟩ := htarget habsent
    apply ensures_bind (getPointer_eq_some_iff.mpr ⟨hfield, habsent, rfl⟩)
    obtain ⟨ok, hok, hstring⟩ := verifyString_ok hlen hpos hlt
    apply ensures_bind hok
    apply ensures_check
    intro htrue
    obtain ⟨hwithin, hterminated⟩ := hstring htrue
    exact ⟨rfl, fun _ => ⟨⟨hfield, habsent, hwithin⟩, hterminated⟩⟩

end Fields

/-! ### Whole tables -/

/-- The field of the check has an entry of its own. -/
def Check.Aligned : Check → Prop
  | scalar field _ _ | string field => 0 ≤ field ∧ 2 ∣ field

instance : DecidablePred Check.Aligned
  | .scalar _ _ _ | .string _ => inferInstanceAs (Decidable (_ ∧ _))

/-- What a check that succeeds says of the table at `data`. -/
def Check.Holds (buf : List UInt8) (data : ℤ) : Check → Prop
  | scalar field type _ => FieldWithin type.width buf data field
  | string field => fieldOffsetAt buf data field ≠ 0 →
      StringFieldWithin buf data field ∧
        Terminated buf (targetAt buf data field)

theorem Check.run_ensures (hlen : v.buf.length < 2 ^ 63) {data : ℤ}
    (htable : TableVerified v.buf data) {c : Check} (hc : c.Aligned) :
    (c.run v data).Ensures fun w =>
      w.buf = v.buf ∧ c.Holds v.buf data := by
  cases c with
  | scalar field type align =>
      exact verifyField_ensures hlen (htable.entryWithin hc.1 hc.2) type align
  | string field =>
      exact verifyStringField_ensures hlen (htable.entryWithin hc.1 hc.2)

theorem verifyFields_ensures (hlen : v.buf.length < 2 ^ 63) {data : ℤ}
    (htable : TableVerified v.buf data) {checks : List Check}
    (hchecks : ∀ c ∈ checks, c.Aligned) :
    (v.verifyFields data checks).Ensures fun w =>
      w.buf = v.buf ∧ ∀ c ∈ checks, c.Holds v.buf data := by
  induction checks generalizing v with
  | nil => exact ensures_some ⟨rfl, by simp⟩
  | cons c checks ih =>
      apply (c.run_ensures hlen htable
        (hchecks c List.mem_cons_self)).andThen
      rintro w ⟨hbuf, hholds⟩
      rw [← hbuf] at hlen htable hholds
      apply (ih hlen htable
        (fun d hd => hchecks d (List.mem_cons_of_mem c hd))).mono
      rintro w' ⟨hbuf', hrest⟩
      refine ⟨hbuf'.trans hbuf, ?_⟩
      rw [← hbuf]
      intro d hd
      rcases List.mem_cons.mp hd with rfl | hd
      · exact hholds
      · exact hrest d hd

/-- Verifying a table never reads outside the buffer, and in a table that is
accepted every field can be read. -/
theorem verifyTable_ensures (hlen : v.buf.length < 2 ^ 63) {data : ℤ}
    (hpos : 0 ≤ data) (hdata : data < 2 ^ 63) {checks : List Check}
    (hchecks : ∀ c ∈ checks, c.Aligned) :
    (verifyTable checks v data).Ensures fun w =>
      w.buf = v.buf ∧ TableVerified v.buf data ∧
        ∀ c ∈ checks, c.Holds v.buf data := by
  apply (verifyTableStart_ensures hlen hpos hdata).andThen
  rintro w ⟨hbuf, htable⟩
  rw [← hbuf] at hlen htable
  apply (verifyFields_ensures hlen htable hchecks).andThen
  rintro w' ⟨hbuf', hholds⟩
  rw [← hbuf]
  exact ensures_some ⟨hbuf', htable, hholds⟩

/-- Verifying a buffer never reads outside it, and the root of a buffer that is
accepted is what `verifyRoot` accepts. -/
theorem verifyBuffer_ensures {verifyRoot : Verifier → ℤ → Verification}
    {P : ℤ → Prop}
    (hroot : ∀ data : ℤ, 0 ≤ data → data < v.buf.length →
      (verifyRoot v data).Ensures fun w => w.buf = v.buf ∧ P data) :
    (v.verifyBuffer verifyRoot).Ensures fun w =>
      w.buf = v.buf ∧ ∃ data, getRoot v.buf = .ok data ∧ P data := by
  rw [verifyBuffer]
  split
  · obtain ⟨o, ho, hvalue⟩ := verifyOffset_ok
      (by decide : 0 + 2 ^ 31 ≤ 2 ^ 64)
    apply ensures_bind ho
    split
    · exact ensures_none _
    · rename_i hnonzero
      obtain ⟨hwithin, hscalar, hlt⟩ := hvalue hnonzero
      apply (hroot o (by omega) (by omega)).mono
      rintro w ⟨hbuf, hP⟩
      exact ⟨hbuf, o, readScalar_eq_ok_iff.mpr ⟨hwithin, hscalar⟩, hP⟩
  · exact ensures_none _

end Verifier

end Flatbuffers
