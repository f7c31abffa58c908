import Cube.Lib.Digest
import Cube.Lib.Write

/-!
# The records of a file transfer

The records of `file_struct.h`: the data of a file (`FILE_DATA`), a request for a
file (`REQUEST`), the account of the blocks received (`FILE_STORE`) and the
notice of a file received (`NOTICE`). With them, the files of a node.
-/

namespace Cube.FileTrans

open Lib

/-- A string without its end, a zero byte. -/
@[ext]
structure CString where
  chars : List UInt8
  noZero : 0 ∉ chars

instance : DecidableEq CString := fun a b => decidable_of_iff (a.chars = b.chars) CString.ext_iff.symm

/-- `struct policyfile_data`. The bytes at `file_data` are as many as its
    description says, `data_size`. -/
@[ext]
structure PolicyfileData where
  uuid : Uuid
  filename : CString
  totalSize : Int32
  recordNo : Int32
  offset : Int32
  dataSize : Int32
  fileData : List UInt8
  dataSize_eq : dataSize.toInt = fileData.length
  deriving DecidableEq

/-- `struct policyfile_req`. -/
structure PolicyfileReq where
  uuid : Uuid
  filename : Option CString
  requestor : Option CString

/-- `struct policyfile_store`. -/
structure PolicyfileStore where
  uuid : Uuid
  filename : CString
  fileSize : Int32
  blockSize : Int32
  blockNum : Int32
  markLen : Int32
  marks : List UInt8
  deriving DecidableEq

/-- `struct policyfile_notice`. -/
structure PolicyfileNotice where
  uuid : Uuid
  filename : CString
  result : Int
  deriving DecidableEq

/-- The size of the data is determined by the data. -/
theorem PolicyfileData.eq_of_fileData {p q : PolicyfileData} (huuid : p.uuid = q.uuid)
    (hname : p.filename = q.filename) (htotal : p.totalSize = q.totalSize)
    (hno : p.recordNo = q.recordNo) (hoff : p.offset = q.offset)
    (hdata : p.fileData = q.fileData) : p = q := by
  refine PolicyfileData.ext huuid hname htotal hno hoff ?_ hdata
  rw [← Int32.toInt_inj, p.dataSize_eq, q.dataSize_eq, hdata]

/-! ## Files -/

/-- The files of a node: the contents by the name, if there is such a file. -/
abbrev Files := CString → Option (List UInt8)

/-- The file of a name removed. -/
def Files.remove (files : Files) (filename : CString) : Files :=
  Function.update files filename none

/-- Data written at a place of a file, which is created if there is none. -/
def Files.writeAt (files : Files) (filename : CString) (offset : Nat) (data : List UInt8) : Files :=
  Function.update files filename
    (some (Lib.writeAt 0 ((files filename).getD []) offset data))

/-- The data of a record written to the file of its name. To seek a place before the
    start fails, and leaves the file at its start. -/
def Files.write (files : Files) (pfdata : PolicyfileData) : Files :=
  files.writeAt pfdata.filename pfdata.offset.toInt.toNat pfdata.fileData

theorem Files.write_filename (files : Files) (pfdata : PolicyfileData) :
    files.write pfdata pfdata.filename =
      some (Lib.writeAt 0 ((files pfdata.filename).getD []) pfdata.offset.toInt.toNat
        pfdata.fileData) :=
  Function.update_self ..

end Cube.FileTrans
