import OmniJsonDb.Lib.Exec
import OmniJsonDb.Model.Msgpack

/-!
# Messages on a socket

A message goes over a connection as a frame: eight bytes of header, a tag with the length of the
encoding, then the encoding, padded to a multiple of eight bytes. The receiver gets the bytes in
packets that need not be frames.

* `Sock.recv`, `recvExactly`: reading from the socket.
* `recvAndLoad`, `frame`: receiving a message, and the bytes that send one.
-/

namespace OmniJsonDb

/-- What receiving raises: `EOFError`, `ValueError`, or another error of the codec. -/
inductive RecvErr where
  | eof
  | value
  | other (e : MsgErr)
  deriving DecidableEq

/-- A step of the receiver; the state is the packets that are still to come. -/
abbrev SockM := Exec (List Bytes) RecvErr

namespace Sock

/-- `sock.recv(n)`: what is there, `n` bytes at most; nothing once the other side has closed. -/
def recv (n : ℕ) : SockM Bytes :=
  Exec.modifyGet fun
    | [] => ([], [])
    | p :: ps => if p.length ≤ n then (p, ps) else (p.take n, p.drop n :: ps)

/-- A length rounded up to a multiple of eight. -/
def alignSize (size : ℕ) : ℕ := ((size >>> 3) <<< 3) + (if size &&& 0x7 ≠ 0 then 8 else 0)

/-- The loop of `recv_exactly`; every round gets a byte, so that `alignSize` rounds are enough. -/
def recvLoop (alignSize : ℕ) : ℕ → List Bytes → ℕ → SockM (List Bytes)
  | 0, chunks, _ => pure chunks
  | fuel + 1, chunks, got =>
    if got < alignSize then do
      let packet ← recv (alignSize - got)
      if packet = [] then Exec.raise .eof
      else recvLoop alignSize fuel (chunks ++ [packet]) (got + packet.length)
    else pure chunks

/-- `recv_exactly`. -/
def recvExactly (size : ℕ) : SockM Bytes :=
  List.flatten <$> recvLoop (alignSize size) (alignSize size) [] 0

variable {M : Type}

/-- `recv_and_load`; `loads` is `msg_loads`. -/
def recvAndLoad (loads : Bytes → Except MsgErr M) : SockM M := do
  let head ← recvExactly 8
  let header := beNat head
  if header &&& 0xFFFF000000000000 ≠ 0xFEED000000000000 then Exec.raise .value
  else
    let size := header &&& 0x0000FFFFFFFFFFFF
    let req ← recvExactly size
    if 0 < size ∧ req = [] then Exec.raise .value
    else
      match loads (req.take size) with
      | .ok obj => pure obj
      | .error e => Exec.raise (if e.isValueError then .value else .other e)

/-- The bytes of an encoding that `dump_and_send` sends. -/
def frame (data : Bytes) : Except MsgErr Bytes :=
  let size := data.length
  let padSize := alignSize size - size
  let header := 0xFEED000000000000 ||| size
  if header < 256 ^ 8 then .ok (beBytes 8 header ++ data ++ List.replicate padSize 0) else .error .struct

/-- `dump_and_send`: the bytes handed to `sendall`; `dumps` is `msg_dumps`. -/
def dumpAndSend (dumps : M → Except MsgErr Bytes) (obj : M) : Except MsgErr Bytes := dumps obj >>= frame

/-- Messages sent one after the other. -/
def dumpMany (dumps : M → Except MsgErr Bytes) : List M → Except MsgErr Bytes
  | [] => .ok []
  | obj :: objs => do
    let buf ← dumpAndSend dumps obj
    let bufs ← dumpMany dumps objs
    return buf ++ bufs

/-- So many messages in a row. -/
def recvMany (loads : Bytes → Except MsgErr M) : ℕ → SockM (List M)
  | 0 => pure []
  | n + 1 => do
    let obj ← recvAndLoad loads
    let objs ← recvMany loads n
    pure (obj :: objs)

end Sock

end OmniJsonDb
