import Mathlib.Data.List.Basic

/-!
# Streams in append mode

What `stdio` does with a file that is opened with `"a+"`: every write goes to
the end of the file, wherever the position of the stream was set, and leaves
the position behind what was written.
-/

namespace EceLib.Support

/-- An open stream: the bytes of its file and its position. -/
structure Stream where
  file : List UInt8
  pos : ℕ

namespace Stream

/-- `fopen(path, "a+")`. -/
def openAppend (file : List UInt8) : Stream where
  file := file
  pos := 0

/-- `fwrite`. -/
def fwrite (fp : Stream) (data : List UInt8) : Stream :=
  if data = [] then fp
  else { file := fp.file ++ data, pos := fp.file.length + data.length }

def ftell (fp : Stream) : ℕ := fp.pos

def rewind (fp : Stream) : Stream := { fp with pos := 0 }

/-- `fclose` leaves the file. -/
def fclose (fp : Stream) : List UInt8 := fp.file

@[simp] theorem fclose_openAppend (file : List UInt8) : (openAppend file).fclose = file := rfl

@[simp] theorem fclose_fwrite (fp : Stream) (data : List UInt8) :
    (fp.fwrite data).fclose = fp.fclose ++ data := by
  unfold fwrite
  split
  · rename_i hnil
    rw [hnil, List.append_nil]
  · rfl

/-- Setting the position back does not make the file shorter. -/
@[simp] theorem fclose_rewind (fp : Stream) : fp.rewind.fclose = fp.fclose := rfl

end Stream

end EceLib.Support
