import LinuxRiscv32.C.EpollServer
import LinuxRiscv32.Common.CInt

/-!
# `logger`: one read, one record

Reference: `C/logger.c`.

Each read from the FIFO becomes one numbered line of the shared log, without the line feed at its
end.
-/

namespace LinuxRiscv32.Logger

open Common
open EpollServer (Byte bytes cString)

/-- The result of `read(fd, buf, size)` with `n > 0`. -/
structure Received (size : ℕ) where
  data : List Byte
  ne_nil : data ≠ []
  fits : data.length ≤ size
deriving DecidableEq

/-- The string in `buf` once `buf[n]`, and a line feed in `buf[n - 1]`, are overwritten with NUL. -/
def payload (m : Received 255) : List Byte :=
  cString (if m.data.getLast? = some '\n'.toUInt8 then m.data.dropLast else m.data)

/-- A line of the log. -/
structure Record where
  tbuf : String
  cnt : ℤ
  payload : List Byte
deriving DecidableEq

def Record.text (r : Record) : List Byte :=
  let tbuf := r.tbuf
  let cnt := r.cnt
  bytes s!"{tbuf} [LOG sem={cnt}] " ++ r.payload ++ bytes "\n"

/-- The record for a read, if `cnt` records were written before. -/
def record (tbuf : String) (cnt : ℤ) (m : Received 255) : Record :=
  { tbuf := tbuf, cnt := s32 (cnt + 1), payload := payload m }

end LinuxRiscv32.Logger
