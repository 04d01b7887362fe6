import Mos.Fs.Coverage

/-!
# Durability

`fs_sync` writes the blocks that are marked dirty. Whether the disk is then what the cache
is depends on the stores to the other blocks in the run before it.
-/

namespace Mos.Fs

open Lib (Bytes Proc Prog always always_run_ok)

end Mos.Fs
