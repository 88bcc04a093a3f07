import Mathlib.Data.List.Basic
import Mathlib.Tactic.Common

/-!
# Blocks of memory

An allocation is a list of cells. Copying into it and moving cells inside it are partial: `none` is
an access outside the block. What a program keeps in a block is usually a front of it, so each
operation comes with what it does to fronts.
-/

namespace Foundation.Block

variable {α : Type}

/-- `memcpy` of `source` to `offset`. -/
def write (block : List α) (offset : Nat) (source : List α) : Option (List α) :=
  if offset + source.length ≤ block.length then
    some (block.take offset ++ source ++ block.drop (offset + source.length))
  else
    none

/-- `memmove` of `count` cells from `source` to `destination`, which may overlap. -/
def move (block : List α) (destination source count : Nat) : Option (List α) :=
  if source + count ≤ block.length then
    write block destination ((block.drop source).take count)
  else
    none

/-- `realloc`: the cells that fit are kept, and the new ones hold anything. -/
def resize (block : List α) (size : Nat) (fresh : Nat → α) : List α :=
  block.take size ++ (List.range (size - block.length)).map fresh

theorem write_of_le (block : List α) (offset : Nat) (source : List α)
    (h : offset + source.length ≤ block.length) :
    ∃ block', write block offset source = some block' ∧ block'.length = block.length ∧
      block'.take (offset + source.length) = block.take offset ++ source := by
  refine ⟨_, if_pos h, ?_, ?_⟩
  · simp only [List.length_append, List.length_take, List.length_drop]
    omega
  · have hlength : (block.take offset ++ source).length = offset + source.length := by
      rw [List.length_append, List.length_take]
      omega
    rw [← hlength, List.take_left]

theorem move_of_le (block : List α) (source count : Nat) (h : source + count ≤ block.length) :
    ∃ block', move block 0 source count = some block' ∧ block'.length = block.length ∧
      block'.take count = (block.drop source).take count := by
  have hcount : ((block.drop source).take count).length = count := by
    rw [List.length_take, List.length_drop]
    omega
  obtain ⟨block', hwrite, hlength, htake⟩ :=
    write_of_le block 0 ((block.drop source).take count) (by rw [hcount]; omega)
  refine ⟨block', ?_, hlength, ?_⟩
  · rw [move, if_pos h, hwrite]
  · rw [hcount] at htake
    simpa using htake

@[simp] theorem length_resize (block : List α) (size : Nat) (fresh : Nat → α) :
    (resize block size fresh).length = size := by
  simp only [resize, List.length_append, List.length_take, List.length_map, List.length_range]
  omega

/-- A front that fits survives. -/
theorem take_resize {block : List α} {size n : Nat} (fresh : Nat → α) (hblock : n ≤ block.length)
    (hsize : n ≤ size) : (resize block size fresh).take n = block.take n := by
  rw [resize, List.take_append_of_le_length (by rw [List.length_take]; omega), List.take_take,
    Nat.min_eq_left hsize]

end Foundation.Block
