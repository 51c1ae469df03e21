import Mathlib

/-!
# Reads and writes at a position of a file

A file is the list of its bytes. A read returns what there is, at most the size that was asked for,
and a write behind the end fills the gap. What was read in full stays the same under writes to other
positions.
-/

namespace Tdlib.Lib

open List

variable {α : Type*}

def pread (file : List α) (offset size : Nat) : List α := (file.drop offset).take size

def pwrite (zero : α) (file : List α) (offset : Nat) (bytes : List α) : List α :=
  file.take offset ++ replicate (offset - file.length) zero ++ bytes ++
    file.drop (offset + bytes.length)

variable {file : List α} {zero : α} {offset size : Nat} {bytes : List α}

/-- A read that returns as much as was asked for does not reach over the end. -/
theorem le_length_of_pread (hpos : 0 < size) (h : (pread file offset size).length = size) :
    offset + size ≤ file.length := by
  unfold pread at h
  rw [length_take, length_drop] at h
  omega

theorem getElem?_pread (i : Nat) :
    (pread file offset size)[i]? = if i < size then file[offset + i]? else none := by
  unfold pread
  rw [getElem?_take]
  split
  · rw [getElem?_drop]
  · rfl

/-- A byte that is not written stays. -/
theorem getElem?_pwrite {i : Nat} (hi : i < file.length)
    (hother : i < offset ∨ offset + bytes.length ≤ i) :
    (pwrite zero file offset bytes)[i]? = file[i]? := by
  have hlength : (file.take offset ++ replicate (offset - file.length) zero).length =
      offset := by
    rw [length_append, length_take, length_replicate]
    omega
  unfold pwrite
  rcases hother with hlt | hge
  · rw [append_assoc, getElem?_append_left (by rw [hlength]; exact hlt),
      getElem?_append_left (by rw [length_take]; omega), getElem?_take, if_pos hlt]
  · rw [getElem?_append_right (by rw [length_append, hlength]; exact hge),
      length_append, hlength, getElem?_drop]
    congr 1
    omega

/-- **What was read in full stays** when other positions are written. -/
theorem pread_pwrite {offset' : Nat} (hfull : offset' + size ≤ file.length)
    (hother : ∀ i, offset' ≤ i → i < offset' + size → i < offset ∨ offset + bytes.length ≤ i) :
    pread (pwrite zero file offset bytes) offset' size = pread file offset' size := by
  refine ext_getElem? ?_
  intro i
  rw [getElem?_pread, getElem?_pread]
  split
  · exact getElem?_pwrite (by omega) (hother _ (by omega) (by omega))
  · rfl

theorem length_le_pwrite : file.length ≤ (pwrite zero file offset bytes).length := by
  unfold pwrite
  rw [length_append, length_append, length_append, length_take, length_drop]
  omega

end Tdlib.Lib
