import Cube.Lib.Outcome
import Cube.Lib.Window
import Cube.Lib.Wire

/-!
# Blocks of memory

A block of bytes that a program reads and writes at offsets. What reaches out of the
block is undefined.

* `fetch_memcpy`: what is copied into a block is read back.
* `memcpy_frame`: the other bytes stay as they were.
-/

namespace Cube.Lib

/-- The `n` bytes at an offset of a block. -/
def fetch (mem : List UInt8) (addr n : Nat) : Outcome (List UInt8) :=
  if addr + n ≤ mem.length then .done (slice mem addr (addr + n)) else .fault

/-- The block with bytes copied to an offset. -/
def memcpy (mem : List UInt8) (addr : Nat) (src : List UInt8) : Outcome (List UInt8) :=
  if addr + src.length ≤ mem.length then .done (patch mem addr src) else .fault

/-- The signed number with the given bytes, the lowest first. -/
def leInt (l : List UInt8) : Int := Int.bmod (leNat l) (256 ^ l.length)

variable {mem mem' src : List UInt8} {addr : Nat}

theorem memcpy_eq (h : addr + src.length ≤ mem.length) :
    memcpy mem addr src = .done (patch mem addr src) := if_pos h

theorem fetch_memcpy (h : memcpy mem addr src = .done mem') {n : Nat} (hn : n = src.length) :
    fetch mem' addr n = .done src := by
  subst hn
  rw [memcpy] at h
  split at h
  next hin =>
    obtain rfl := Outcome.done.inj h
    rw [fetch, length_patch hin, if_pos hin, slice_patch_self hin rfl]
  next => cases h

theorem memcpy_length (h : memcpy mem addr src = .done mem') : mem'.length = mem.length := by
  rw [memcpy] at h
  split at h
  next hin =>
    obtain rfl := Outcome.done.inj h
    exact length_patch hin
  next => cases h

theorem memcpy_frame (h : memcpy mem addr src = .done mem') {i : Nat}
    (hi : i < addr ∨ addr + src.length ≤ i) : mem'[i]? = mem[i]? := by
  rw [memcpy] at h
  split at h
  next hin =>
    obtain rfl := Outcome.done.inj h
    rw [getElem?_patch hin]
    rcases hi with hi | hi
    · rw [if_pos hi]
    · rw [if_neg (by omega), if_neg (by omega)]
  next => cases h

/-- The bytes behind the front of a block are read. -/
theorem fetch_append (front src back : List UInt8) :
    fetch (front ++ (src ++ back)) front.length src.length = .done src := by
  have hle : front.length + src.length ≤ (front ++ (src ++ back)).length := by
    rw [List.length_append, List.length_append, ← Nat.add_assoc]
    exact Nat.le_add_right _ _
  rw [fetch, if_pos hle, slice, List.drop_left, Nat.add_sub_cancel_left, List.take_left]

/-- Bytes are written over the first ones behind the front of a block. -/
theorem memcpy_append (front : List UInt8) {back src : List UInt8} (h : src.length ≤ back.length) :
    memcpy (front ++ back) front.length src = .done (front ++ src ++ back.drop src.length) := by
  have hle : front.length + src.length ≤ (front ++ back).length := by
    rw [List.length_append]
    exact Nat.add_le_add_left h _
  rw [memcpy_eq hle, patch, List.take_left, ← List.drop_drop, List.drop_left]

/-- A block is read as a whole. -/
theorem fetch_self (mem : List UInt8) : fetch mem 0 mem.length = .done mem := by
  have h := fetch_append [] mem []
  rwa [List.append_nil] at h

/-- Bytes are written over the first ones of a block. -/
theorem memcpy_zero (h : src.length ≤ mem.length) :
    memcpy mem 0 src = .done (src ++ mem.drop src.length) := memcpy_append [] h

/-- A number that fits in the bytes it is stored in is the one read from them. -/
theorem leInt_leBytes {k n : Nat} (h : 2 * n < 256 ^ k) : leInt (leBytes k n) = n := by
  rw [leInt, length_leBytes, leNat_leBytes, Nat.mod_eq_of_lt (by omega)]
  exact Int.bmod_eq_of_le (by omega) (by omega)

end Cube.Lib
