import Cube.FileTrans.FileData
import Cube.Lib.Scan
import Cube.Lib.Wire

/-!
# The packages of a file channel

A package is a `FILE_DATA` record as `struct_2_blob` prints it: the uuid, the name
with the zero that ends it, four numbers, and the data, as many bytes as the last
of the numbers says. `blob_2_struct` reads a package from the start of a buffer; it
is not told where the bytes received end.

* `blob2Struct_struct2Blob`: what is printed is read back, whatever follows it;
* `length_of_blob2Struct`: what is read takes as many bytes as it is printed to.
-/

namespace Cube.FileTrans

open Lib

/-- The numbers of a record: `total_size`, `record_no`, `offset` and `data_size`. -/
def numbers : Layout (Int32 × Int32 × Int32 × Int32) :=
  .pair .int32 (.pair .int32 (.pair .int32 .int32))

/-- `struct_2_blob` of a `FILE_DATA` record. -/
def struct2Blob (pfdata : PolicyfileData) : List UInt8 :=
  (Layout.bytes 32).put pfdata.uuid ++ (pfdata.filename.chars ++ 0 ::
    (numbers.put (pfdata.totalSize, pfdata.recordNo, pfdata.offset, pfdata.dataSize) ++
      pfdata.fileData))

/-- The string at the start of a buffer, of which the end may be missing. -/
def stringAt (blob : List UInt8) : CString where
  chars := blob.takeWhile (· ≠ 0)
  noZero := zero_notMem_takeWhile blob

/-- `blob_2_struct` of a `FILE_DATA` record: the record, and the bytes it has taken. To
    read beyond the end of the buffer is a fault. -/
def blob2Struct (blob : List UInt8) : Outcome (PolicyfileData × Nat) :=
  let filename := stringAt (blob.drop 32)
  let rest := blob.drop (33 + filename.chars.length)
  if blob.length < 33 + filename.chars.length + numbers.size then .fault
  else
    let (totalSize, recordNo, offset, dataSize) := numbers.get rest
    let fileData := (rest.drop numbers.size).take dataSize.toInt.toNat
    if dataSize.toInt < 0 then .error dataSize.toInt
    else if h : dataSize.toInt = fileData.length then
      .done
        ({ uuid := (Layout.bytes 32).get blob
           filename := filename
           totalSize := totalSize
           recordNo := recordNo
           offset := offset
           dataSize := dataSize
           fileData := fileData
           dataSize_eq := h },
          33 + filename.chars.length + numbers.size + fileData.length)
    else .fault

theorem size_numbers : numbers.size = 16 := rfl

theorem length_struct2Blob (pfdata : PolicyfileData) :
    (struct2Blob pfdata).length =
      33 + pfdata.filename.chars.length + numbers.size + pfdata.fileData.length := by
  have huuid : ((Layout.bytes 32).put pfdata.uuid).length = 32 := (Layout.bytes 32).length_put _
  rw [struct2Blob, List.length_append, List.length_append, List.length_cons, List.length_append,
    numbers.length_put, huuid]
  omega

/-- What is read takes as many bytes as it is printed to. -/
theorem length_of_blob2Struct {blob : List UInt8} {pfdata : PolicyfileData} {n : Nat}
    (h : blob2Struct blob = .done (pfdata, n)) : (struct2Blob pfdata).length = n := by
  simp only [blob2Struct] at h
  split_ifs at h
  obtain ⟨rfl, rfl⟩ := Outcome.pair_inj h
  exact length_struct2Blob _

theorem stringAt_append (name : CString) (rest : List UInt8) :
    stringAt (name.chars ++ 0 :: rest) = name := by
  refine CString.ext ?_
  exact takeWhile_terminator name.noZero rest

/-- What is printed is read back, whatever follows it. -/
theorem blob2Struct_struct2Blob (pfdata : PolicyfileData) (rest : List UInt8) :
    blob2Struct (struct2Blob pfdata ++ rest) = .done (pfdata, (struct2Blob pfdata).length) := by
  have huuid : ((Layout.bytes 32).put pfdata.uuid).length = 32 := (Layout.bytes 32).length_put _
  have hlen : 33 + pfdata.filename.chars.length + numbers.size ≤
      (struct2Blob pfdata ++ rest).length := by
    rw [List.length_append, length_struct2Blob]
    omega
  obtain ⟨nums, hnums⟩ : ∃ nums, nums =
    numbers.put (pfdata.totalSize, pfdata.recordNo, pfdata.offset, pfdata.dataSize) := ⟨_, rfl⟩
  have hblob : struct2Blob pfdata ++ rest = (Layout.bytes 32).put pfdata.uuid ++
      (pfdata.filename.chars ++ 0 :: (nums ++ (pfdata.fileData ++ rest))) := by
    simp only [struct2Blob, hnums, List.append_assoc, List.cons_append]
  -- The parts of the buffer at which the fields are read.
  have hname : stringAt ((struct2Blob pfdata ++ rest).drop 32) = pfdata.filename := by
    rw [hblob, List.drop_left' huuid, stringAt_append]
  have hrest : (struct2Blob pfdata ++ rest).drop (33 + pfdata.filename.chars.length) =
      nums ++ (pfdata.fileData ++ rest) := by
    rw [hblob, show 33 + pfdata.filename.chars.length = 32 + (pfdata.filename.chars.length + 1) by
      omega, ← List.drop_drop, List.drop_left' huuid, ← List.drop_drop, List.drop_left,
      List.drop_one, List.tail_cons]
  have hget : numbers.get (nums ++ (pfdata.fileData ++ rest)) =
      (pfdata.totalSize, pfdata.recordNo, pfdata.offset, pfdata.dataSize) := by
    rw [hnums, numbers.get_put]
  have hdata : ((nums ++ (pfdata.fileData ++ rest)).drop numbers.size).take
      pfdata.dataSize.toInt.toNat = pfdata.fileData := by
    rw [List.drop_left' (hnums ▸ numbers.length_put _), pfdata.dataSize_eq, Int.toNat_natCast,
      List.take_left]
  have hsize : ¬ pfdata.dataSize.toInt < 0 := by
    rw [pfdata.dataSize_eq]
    omega
  have hbytes : (Layout.bytes 32).get (struct2Blob pfdata ++ rest) = pfdata.uuid := by
    rw [hblob, (Layout.bytes 32).get_put]
  simp only [blob2Struct, hname, hrest, hget, hdata, hbytes]
  rw [if_neg (Nat.not_lt.2 hlen), if_neg hsize, dif_pos pfdata.dataSize_eq, length_struct2Blob]

end Cube.FileTrans
