/-!
# Where output goes

A `Sink` collects bytes. It may have room for only so many more: then a write that does not fit is
stored as far as it fits and fails, and so does every later write of at least one byte.
-/

namespace Treewalk

/-- A place for output. -/
structure Sink where
  /-- What has been stored. -/
  written : ByteArray
  /-- How many bytes can still be stored, if there is a limit. -/
  room : Option Nat

namespace Sink

/-- A write did not fit. -/
structure Full where

/-- What is said of a write that did not fit. -/
def Full.message : String := "limit reached"

/-- An empty sink. -/
def empty (room : Option Nat) : Sink :=
  ⟨ByteArray.empty, room⟩

/-- Store bytes as far as there is room for them. -/
def write (sink : Sink) (bytes : ByteArray) : Except Full Unit × Sink :=
  match sink.room with
  | none => (.ok (), { sink with written := sink.written ++ bytes })
  | some n =>
    if bytes.size ≤ n then
      (.ok (), ⟨sink.written ++ bytes, some (n - bytes.size)⟩)
    else
      (.error ⟨⟩, ⟨sink.written ++ bytes.extract 0 n, some 0⟩)

end Sink

end Treewalk
