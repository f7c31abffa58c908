import Cube.Lib.Outcome

/-!
# Digests, and strings in their place

A field of the size of a digest holds a digest or a name. A name in it is a string: it ends at a
zero, if there is one.
-/

namespace Cube.Lib

/-- The size of a digest, and of a name in its place. -/
abbrev DIGEST_SIZE : Nat := 32

theorem digestSize_pos : 0 < DIGEST_SIZE := Nat.succ_pos 31

/-- A uuid: a digest, or a name in its place. -/
abbrev Uuid := Vector UInt8 DIGEST_SIZE

/-- The list for a uuid in a hash table: its low byte. -/
def hashIndex (uuid : Uuid) : UInt8 := getElem uuid 0 digestSize_pos

/-- The string in the bytes. -/
def cString (bytes : List UInt8) : List UInt8 := bytes.takeWhile (· ≠ 0)

end Cube.Lib
