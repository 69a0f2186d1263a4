import BlackCat.ByteMemory

/-!
Declarations shared by the servers: the receive limit, the size of a packet
header and the read callback of a connection. A callback is handed a pointer
into memory and a signed length. Its scan is a loop, so the model gives it a
number of rounds and it answers `none` while that number is too small.
-/
namespace BlackCat.ServerCommon

open ByteMemory

/-- `MAX_RECV_BUF`, also the size of a socket's receive buffer. -/
def maxRecvBuf : ℤ := 32 * 1024

def kHeaderLen : ℤ := 4

/-- `sizeof(PacketHeader)`: the packed struct has an int32 and an empty array. -/
def sizeofPacketHeader : ℤ := 4

/-- How a read handler stops without returning. -/
inductive Failure
  | resizeThrows
  | eraseOutOfRange
  deriving DecidableEq, Repr

/-- What a read callback did: the value returned, the packets it passed to
`Dispatch` in order, and whether it called `Shutdown` on the connection. -/
structure ReadResult (δ : Type) where
  procLen : ℤ
  dispatched : List δ
  shutdown : Bool
  deriving DecidableEq, Repr

/-- `FuncOnRead`: rounds allowed, memory, `buf` and `len`. -/
abbrev FuncOnRead (δ : Type) :=
  ℕ → Memory → ℤ → ℤ → Option (Except Failure (ReadResult δ))

end BlackCat.ServerCommon
