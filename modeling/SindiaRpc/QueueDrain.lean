import SindiaRpc.StreamReading

/-!
# Draining the queue

`Write` sends `buffer_length()` bytes from `buffer()`, `OnWrite` the same number
from `data()`, twenty bytes further on. The two ranges hold the same bytes only
if the frame repeats with that period, which of the messages the program builds
only the one without content does.
-/
namespace SindiaRpc.QueueDrain
open MessageFrames ConnectionState GuardedRuns StreamReading

/-- In `m_buffer` the frame is followed by its own bytes, twenty cells on. -/
structure Repeats (abi : Abi) (msg : Message) : Prop where
  fits : Buffer.InRange 4096 20 (msg.bufferLength abi)
  period : ∀ i < msg.bufferLength abi, msg.buffer.cells[i + 20]? = msg.buffer.cells[i]?

section Drain
variable {abi : Abi} {n : ℕ} {s t : Connection} {msg : Message}

end Drain

/-! ### Built messages -/

section Built
variable {abi : Abi} {o : ByteOrder} {x : Outgoing} {msg : Message} {i : ℕ}

end Built

end SindiaRpc.QueueDrain
