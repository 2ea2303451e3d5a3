import SocketManager.Lib.Machine

/-! Constants and the connection configuration, shared by the two directions of a connection. -/

namespace SocketManager

/-- 256KB ring buffer. -/
def ringBufferSize : Nat := 256 * 1024

def minMsgBufferSize : Nat := 1024 * 8

def maxMsgBufferSize : Nat := 1024 * 1024 * 8

/-- Connection configuration; the intervals are in milliseconds and zero means no auto flush. -/
structure ConnConfig where
  writeFlushInterval : Nat
  readMsgFlushInterval : Nat
  msgBufferSize : Nat
  deriving DecidableEq

end SocketManager
