import Mathlib

/-!
# Fields of fixed size

Little-endian numbers as bytes, and *fields*: pairs of a printer and a reader of
a fixed number of bytes, in which what is printed is read back. Fields are put
together in pairs, so that the layout of a packed structure is one term.
-/

namespace Cube.Lib

/-! ## Little-endian numbers -/

/-- The `k` low bytes of a number, the lowest first. -/
def leBytes : Nat → Nat → List UInt8
  | 0, _ => []
  | k + 1, n => UInt8.ofNat n :: leBytes k (n / 256)

/-- The number with the given bytes, the lowest first. -/
def leNat : List UInt8 → Nat
  | [] => 0
  | b :: bs => b.toNat + 256 * leNat bs

@[simp] theorem length_leBytes (k n : Nat) : (leBytes k n).length = k := by
  induction k generalizing n with
  | zero => rfl
  | succ k ih => rw [leBytes, List.length_cons, ih]

theorem leNat_leBytes (k n : Nat) : leNat (leBytes k n) = n % 256 ^ k := by
  induction k generalizing n with
  | zero => rw [leBytes, leNat, Nat.pow_zero, Nat.mod_one]
  | succ k ih =>
    rw [leBytes, leNat, ih, Nat.pow_succ, Nat.mul_comm _ 256, Nat.mod_mul, UInt8.toNat_ofNat']

theorem leNat_lt (l : List UInt8) : leNat l < 256 ^ l.length := by
  induction l with
  | nil => exact Nat.one_pos
  | cons b l ih =>
    have := b.toNat_lt
    rw [leNat, List.length_cons, Nat.pow_succ]
    omega

theorem leBytes_leNat (l : List UInt8) : leBytes l.length (leNat l) = l := by
  induction l with
  | nil => rfl
  | cons b l ih =>
    have hb := b.toNat_lt
    have hdiv : (b.toNat + 256 * leNat l) / 256 = leNat l := by omega
    have hmod : UInt8.ofNat (b.toNat + 256 * leNat l) = b := by
      refine UInt8.toNat_inj.1 ?_
      rw [UInt8.toNat_ofNat']
      omega
    rw [List.length_cons, leNat, leBytes, hdiv, ih, hmod]

/-- The four bytes of a 32-bit integer. -/
def int32Bytes (i : Int32) : List UInt8 := leBytes 4 i.toUInt32.toNat

/-- The 32-bit integer with the given four bytes. -/
def bytesInt32 (l : List UInt8) : Int32 := (UInt32.ofNat (leNat (l.take 4))).toInt32

@[simp] theorem length_int32Bytes (i : Int32) : (int32Bytes i).length = 4 := length_leBytes ..

theorem bytesInt32_int32Bytes (i : Int32) (rest : List UInt8) :
    bytesInt32 (int32Bytes i ++ rest) = i := by
  have hlt : i.toUInt32.toNat < 256 ^ 4 := i.toUInt32.toNat_lt
  rw [bytesInt32, List.take_left' (length_int32Bytes i), int32Bytes, leNat_leBytes,
    Nat.mod_eq_of_lt hlt, UInt32.ofNat_toNat, Int32.toInt32_toUInt32]

/-! ## Fields -/

/-- A field: values printed to, and read from, a fixed number of bytes. -/
structure Layout (α : Type*) where
  size : Nat
  put : α → List UInt8
  get : List UInt8 → α
  length_put : ∀ a, (put a).length = size
  get_put : ∀ a rest, get (put a ++ rest) = a

namespace Layout

variable {α β : Type*}

/-- A 32-bit integer. -/
def int32 : Layout Int32 where
  size := 4
  put := int32Bytes
  get := bytesInt32
  length_put := length_int32Bytes
  get_put := bytesInt32_int32Bytes

/-- An array of `n` bytes. -/
def bytes (n : Nat) : Layout (Vector UInt8 n) where
  size := n
  put v := v.toList
  get l := Vector.ofFn fun i => l.getD i 0
  length_put v := by simp
  get_put v rest := by
    refine Vector.ext fun i hi => ?_
    have hlen : i < v.toList.length := by simpa using hi
    rw [Vector.getElem_ofFn, List.getD_append _ _ _ _ hlen, List.getD_eq_getElem _ _ hlen,
      Vector.getElem_toList]

/-- A field followed by another. -/
def pair (f : Layout α) (g : Layout β) : Layout (α × β) where
  size := f.size + g.size
  put p := f.put p.1 ++ g.put p.2
  get l := (f.get l, g.get (l.drop f.size))
  length_put p := by rw [List.length_append, f.length_put, g.length_put]
  get_put p rest := by
    rw [List.append_assoc, f.get_put, List.drop_left' (f.length_put _), g.get_put]

/-- A field seen through another type. -/
def map (f : Layout α) (out : α → β) (back : β → α) (h : ∀ b, out (back b) = b) : Layout β where
  size := f.size
  put b := f.put (back b)
  get l := out (f.get l)
  length_put b := f.length_put _
  get_put b rest := by rw [f.get_put, h]

end Layout

end Cube.Lib
