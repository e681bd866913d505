import Mathlib

/-!
# Handles

A program allocates handles, works with them and frees them.  A live handle is
busy while something is open on it and idle otherwise; a handle that was freed
may be allocated again.

A `Status` is what a program point knows of one handle, or what a call needs of
it.  `others` are the live handles besides that one.
-/

/-- The live handles, and those of them that are busy. -/
structure Handles (ι : Type*) where
  live : Finset ι
  busy : Finset ι
  busy_subset : busy ⊆ live

namespace Handles

variable {ι : Type*}

/-- No handle is live. -/
def empty : Handles ι := ⟨∅, ∅, Finset.Subset.rfl⟩

/-! ## What is known of a handle -/

inductive Status
  | any
  | freed
  | live
  | idle

def Meets (t : Handles ι) (h : ι) : Status → Prop
  | .any => True
  | .freed => h ∉ t.live
  | .live => h ∈ t.live
  | .idle => h ∈ t.live ∧ h ∉ t.busy

/-- A handle with the first status has the second one too. -/
def Status.Implies : Status → Status → Prop
  | _, .any => True
  | .freed, .freed => True
  | .live, .live => True
  | .idle, .live => True
  | .idle, .idle => True
  | _, _ => False

theorem Meets.of_implies {t : Handles ι} {h : ι} {a b : Status}
    (hmeets : t.Meets h a) (himplies : a.Implies b) : t.Meets h b := by
  cases b with
  | any => trivial
  | freed =>
      cases a with
      | freed => exact hmeets
      | _ => cases himplies
  | live =>
      cases a with
      | live => exact hmeets
      | idle => exact hmeets.1
      | _ => cases himplies
  | idle =>
      cases a with
      | idle => exact hmeets
      | _ => cases himplies

/-! ## The operations -/

section Operations

variable [DecidableEq ι]

def alloc (t : Handles ι) (h : ι) : Handles ι where
  live := insert h t.live
  busy := t.busy
  busy_subset := t.busy_subset.trans (Finset.subset_insert h t.live)

def free (t : Handles ι) (h : ι) : Handles ι where
  live := t.live.erase h
  busy := t.busy.erase h
  busy_subset := Finset.erase_subset_erase h t.busy_subset

/-- Something is opened on a handle, if it is live. -/
def occupy (t : Handles ι) (h : ι) : Handles ι where
  live := t.live
  busy := t.live.filter fun k => k = h ∨ k ∈ t.busy
  busy_subset := Finset.filter_subset _ t.live

/-- Whatever is open on a handle is closed. -/
def release (t : Handles ι) (h : ι) : Handles ι where
  live := t.live
  busy := t.busy.erase h
  busy_subset := (Finset.erase_subset h t.busy).trans t.busy_subset

/-- The live handles besides one. -/
def others (t : Handles ι) (h : ι) : Finset ι := t.live.erase h

theorem idle_alloc {t : Handles ι} {h : ι} (hfresh : h ∉ t.live) :
    (t.alloc h).Meets h .idle :=
  ⟨Finset.mem_insert_self h t.live, fun hbusy => hfresh (t.busy_subset hbusy)⟩

theorem freed_free (t : Handles ι) (h : ι) : (t.free h).Meets h .freed :=
  Finset.notMem_erase h t.live

theorem live_occupy {t : Handles ι} {h : ι} (hlive : t.Meets h .live) :
    (t.occupy h).Meets h .live :=
  hlive

theorem idle_release {t : Handles ι} {h : ι} (hlive : t.Meets h .live) :
    (t.release h).Meets h .idle :=
  ⟨hlive, Finset.notMem_erase h t.busy⟩

@[simp] theorem others_occupy (t : Handles ι) (h k : ι) :
    (t.occupy h).others k = t.others k := rfl

@[simp] theorem others_release (t : Handles ι) (h k : ι) :
    (t.release h).others k = t.others k := rfl

@[simp] theorem others_free (t : Handles ι) (h : ι) :
    (t.free h).others h = t.others h :=
  Finset.erase_idem

/-- A new handle leaves all live handles behind. -/
theorem others_alloc {t : Handles ι} {h : ι} (hfresh : h ∉ t.live) :
    (t.alloc h).others h = t.live :=
  Finset.erase_insert hfresh

theorem others_of_freed {t : Handles ι} {h : ι} (hfreed : t.Meets h .freed) :
    t.others h = t.live :=
  Finset.erase_eq_of_notMem hfreed

theorem card_others_add_one {t : Handles ι} {h : ι} (hlive : t.Meets h .live) :
    (t.others h).card + 1 = t.live.card :=
  Finset.card_erase_add_one hlive

theorem card_alloc {t : Handles ι} {h : ι} (hfresh : h ∉ t.live) :
    (t.alloc h).live.card = t.live.card + 1 :=
  Finset.card_insert_of_notMem hfresh

theorem card_le_of_others_eq_empty {t : Handles ι} {h : ι}
    (hothers : t.others h = ∅) : t.live.card ≤ 1 := by
  have hpred : t.live.card - 1 ≤ (t.others h).card :=
    Finset.pred_card_le_card_erase
  rw [hothers, Finset.card_empty] at hpred
  omega

end Operations

end Handles
