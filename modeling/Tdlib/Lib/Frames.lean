import Mathlib

/-!
# Streams of frames

A stream is the concatenation of the images of its frames. Cutting it anywhere
leaves some whole frames and a piece of the next one; `whole f bs n` are the
frames of `bs` that lie wholly in the first `n` symbols.

A reader has some of the stream in its buffer, and the rest is still to come. It
takes one frame at a time off the front, when all of it is there.
-/

namespace Tdlib.Lib

open List

variable {α β : Type*} (f : β → List α)

/-- The frames whose images, one after another, fit in `n` symbols. -/
def whole : List β → Nat → List β
  | [], _ => []
  | b :: bs, n => if (f b).length ≤ n then b :: whole bs (n - (f b).length) else []

variable {f}

theorem whole_cons_of_le {b : β} {bs : List β} {n : Nat} (h : (f b).length ≤ n) :
    whole f (b :: bs) n = b :: whole f bs (n - (f b).length) := if_pos h

theorem whole_cons_of_lt {b : β} {bs : List β} {n : Nat} (h : n < (f b).length) :
    whole f (b :: bs) n = [] := if_neg (by omega)

/-- `whole` is an initial run of the frames. -/
theorem whole_initial (bs : List β) (n : Nat) : whole f bs n <+: bs := by
  fun_induction whole f bs n with
  | case1 | case3 => exact nil_prefix
  | case2 b bs n h ih => exact cons_prefix_cons.mpr ⟨rfl, ih⟩

theorem whole_fits (bs : List β) (n : Nat) : ((whole f bs n).flatMap f).length ≤ n := by
  fun_induction whole f bs n with
  | case1 | case3 => exact Nat.zero_le _
  | case2 b bs n h ih =>
    rw [flatMap_cons, length_append]
    omega

/-- **No longer run fits.** -/
theorem whole_longest {as bs : List β} {n : Nat} (hab : as <+: bs)
    (hn : (as.flatMap f).length ≤ n) : as <+: whole f bs n := by
  induction as generalizing bs n with
  | nil => exact nil_prefix
  | cons a as ih =>
    obtain ⟨t, rfl⟩ := hab
    rw [flatMap_cons, length_append] at hn
    rw [cons_append, whole_cons_of_le (by omega)]
    exact cons_prefix_cons.mpr ⟨rfl, ih ⟨t, rfl⟩ (by omega)⟩

/-- All the frames of a whole stream are in it. -/
theorem whole_flatMap (bs : List β) : whole f bs (bs.flatMap f).length = bs := by
  have h := whole_longest (prefix_refl bs) (le_refl (bs.flatMap f).length)
  exact (whole_initial bs _).eq_of_length_le h.length_le

/-- Frames that are there are not looked at again. -/
theorem whole_append (as bs : List β) (n : Nat) :
    whole f (as ++ bs) ((as.flatMap f).length + n) = as ++ whole f bs n := by
  induction as with
  | nil => rw [flatMap_nil, length_nil, zero_add, nil_append, nil_append]
  | cons a as ih =>
    rw [flatMap_cons, length_append, cons_append, whole_cons_of_le (by omega)]
    rw [add_assoc, Nat.add_sub_cancel_left, ih, cons_append]

/-- A stream cut after `n` symbols starts with the images of its whole frames. -/
theorem take_flatMap_whole {bs : List β} {s : List α} (h : s <+: bs.flatMap f) :
    s.take ((whole f bs s.length).flatMap f).length = (whole f bs s.length).flatMap f := by
  obtain ⟨t, ht⟩ := whole_initial (f := f) bs s.length
  have hs : (whole f bs s.length).flatMap f <+: bs.flatMap f := by
    refine ⟨t.flatMap f, ?_⟩
    rw [← flatMap_append, ht]
  have := prefix_of_prefix_length_le hs h (whole_fits bs s.length)
  exact (prefix_iff_eq_take.mp this).symm

/-! ## Reading -/

variable {b : β} {bs : List β} {buffer coming : List α}

/-- The first frame is all there. -/
theorem take_frame (h : buffer ++ coming = (b :: bs).flatMap f)
    (hlength : (f b).length ≤ buffer.length) :
    ∃ rest, buffer = f b ++ rest ∧ rest ++ coming = bs.flatMap f := by
  obtain ⟨rest, hbuffer⟩ : f b <+: buffer := by
    refine prefix_of_prefix_length_le ?_ (prefix_append buffer coming) hlength
    rw [h]
    exact prefix_append _ _
  refine ⟨rest, hbuffer.symm, ?_⟩
  rw [← hbuffer, append_assoc] at h
  exact append_cancel_left h

/-- Only a piece of the first frame is there. -/
theorem piece_of_frame (h : buffer ++ coming = (b :: bs).flatMap f)
    (hlength : buffer.length < (f b).length) : ∃ rest, f b = buffer ++ rest := by
  obtain ⟨rest, hframe⟩ : buffer <+: f b := by
    refine prefix_of_prefix_length_le (prefix_append buffer coming) ?_
      (le_of_lt hlength)
    rw [h]
    exact prefix_append _ _
  exact ⟨rest, hframe.symm⟩

/-- Nothing is to come: then every frame is there. -/
theorem frame_there (h : buffer ++ [] = (b :: bs).flatMap f) : (f b).length ≤ buffer.length := by
  rw [append_nil] at h
  rw [h, flatMap_cons, length_append]
  exact Nat.le_add_right _ _

end Tdlib.Lib
