import Mathlib

/-!
# Intervals end to end

A tiling is a list of intervals, each of which begins where the one before ends.
An interval is known by its end and its width. What matters is how a part of a
tiling can be told from an initial piece of it: by adding up the widths.
-/

namespace Tdlib.Lib

open List

variable {α : Type*} {stop width : α → Int} {p bound : Int} {l part : List α} {u : α}

/-- The intervals of the list follow one another, beginning with `p`. -/
def Tiled (stop width : α → Int) : Int → List α → Prop
  | _, [] => True
  | p, u :: l => 0 < width u ∧ stop u = p + width u ∧ Tiled stop width (stop u) l

/-- Where the last interval ends. -/
def endOf (stop : α → Int) : Int → List α → Int
  | p, [] => p
  | _, u :: l => endOf stop (stop u) l

def widths (width : α → Int) : List α → Int
  | [] => 0
  | u :: l => width u + widths width l

theorem endOf_append (p : Int) (l l' : List α) :
    endOf stop p (l ++ l') = endOf stop (endOf stop p l) l' := by
  induction l generalizing p with
  | nil => rfl
  | cons u l ih => exact ih (stop u)

theorem endOf_lt (hp : p < bound) (hl : ∀ u ∈ l, stop u < bound) : endOf stop p l < bound := by
  induction l generalizing p with
  | nil => exact hp
  | cons u l ih =>
    exact ih (hl u mem_cons_self) (forall_mem_cons.1 hl).2

theorem widths_append (l l' : List α) :
    widths width (l ++ l') = widths width l + widths width l' := by
  induction l with
  | nil => exact (Int.zero_add _).symm
  | cons u l ih =>
    rw [cons_append, widths, widths]
    omega

namespace Tiled

theorem append_iff {l' : List α} : Tiled stop width p (l ++ l') ↔
    Tiled stop width p l ∧ Tiled stop width (endOf stop p l) l' := by
  induction l generalizing p with
  | nil => exact ⟨fun h => ⟨trivial, h⟩, And.right⟩
  | cons u l ih =>
    rw [cons_append, Tiled, ih]
    constructor
    · rintro ⟨h1, h2, h3, h4⟩
      exact ⟨⟨h1, h2, h3⟩, h4⟩
    · rintro ⟨⟨h1, h2, h3⟩, h4⟩
      exact ⟨h1, h2, h3, h4⟩

section

variable (h : Tiled stop width p l)
include h

/-- No interval begins before the first one. -/
theorem le_start (hu : u ∈ l) : 0 < width u ∧ p ≤ stop u - width u := by
  induction l generalizing p with
  | nil => cases hu
  | cons v l ih =>
    obtain ⟨hpos, hstop, hrest⟩ := h
    rcases mem_cons.mp hu with rfl | hu
    · exact ⟨hpos, by omega⟩
    · obtain ⟨hwidth, hle⟩ := ih hrest hu
      exact ⟨hwidth, by omega⟩

theorem lt_stop (hu : u ∈ l) : p < stop u := by
  have := h.le_start hu
  omega

theorem sorted : l.Pairwise fun u v => stop u < stop v := by
  induction l generalizing p with
  | nil => exact .nil
  | cons u l ih => exact pairwise_cons.mpr ⟨fun v hv => h.2.2.lt_stop hv, ih h.2.2⟩

theorem stop_le_endOf : p ≤ endOf stop p l ∧
    ∀ u ∈ l, stop u ≤ endOf stop p l := by
  induction l generalizing p with
  | nil => exact ⟨Int.le_refl p, nofun⟩
  | cons v l ih =>
    obtain ⟨hpos, hstop, hrest⟩ := h
    obtain ⟨hle, hall⟩ := ih hrest
    refine ⟨by rw [endOf]; omega, fun u hu => ?_⟩
    rcases mem_cons.mp hu with rfl | hu
    · exact hle
    · exact hall u hu

theorem widths_nonneg (hpart : part.Sublist l) : 0 ≤ widths width part := by
  induction hpart generalizing p with
  | slnil => exact Int.le_refl 0
  | cons v _ ih => exact ih h.2.2
  | cons_cons v _ ih =>
    have := h.1
    have := ih h.2.2
    rw [widths]
    omega

/-- **A part of a tiling that covers everything up to its end is an initial piece of it.** Without
the rest it would be too short. -/
theorem part_le (hpart : part.Sublist l) (hle : ∀ u ∈ part, stop u ≤ bound)
    (hmax : ∃ u ∈ part, stop u = bound) :
    p + widths width part ≤ bound ∧ (p + widths width part = bound → part <+: l) := by
  induction hpart generalizing p with
  | slnil =>
    obtain ⟨u, hu, _⟩ := hmax
    cases hu
  | cons v _ ih =>
    -- an interval that is left out makes the part too short
    obtain ⟨hpos, hstop, hrest⟩ := h
    obtain ⟨hsum, _⟩ := ih hrest hle hmax
    exact ⟨by omega, fun heq => absurd heq (by omega)⟩
  | @cons_cons part l v hsub ih =>
    obtain ⟨hpos, hstop, hrest⟩ := h
    rw [widths]
    by_cases hlast : stop v = bound
    · have hnil : part = [] := eq_nil_iff_forall_not_mem.mpr fun u hu => by
        have hlt := hrest.lt_stop (hsub.subset hu)
        have := hle u (mem_cons_of_mem _ hu)
        omega
      subst hnil
      exact ⟨by rw [widths]; omega, fun _ => ⟨l, rfl⟩⟩
    obtain ⟨u, hu, hbound⟩ := hmax
    have hu : u ∈ part := by
      rcases mem_cons.mp hu with rfl | hu
      · exact absurd hbound hlast
      · exact hu
    obtain ⟨hsum, hinitial⟩ := ih hrest (forall_mem_cons.1 hle).2
      ⟨u, hu, hbound⟩
    exact ⟨by omega, fun heq => prefix_cons_inj v |>.mpr (hinitial (by omega))⟩

/-- The widths of all intervals add up to the distance. -/
theorem endOf_eq : endOf stop p l = p + widths width l := by
  induction l generalizing p with
  | nil => exact (Int.add_zero p).symm
  | cons u l ih =>
    rw [endOf, ih h.2.2, widths, h.2.1]
    omega

end

end Tiled

end Tdlib.Lib
