import Mathlib.Tactic

/-!
# Transport identifiers

The handles and enumerations the reactor layer shares (`core/types.h`, `core/address.h`). The 64-bit
handles are counted up from 1 and never reused, so they are natural numbers here.
-/

namespace Librats

/-- Byte strings on the wire. -/
abbrev Bytes := List UInt8

abbrev ConnId := ℕ

abbrev TimerId := ℕ

/-- A socket number; the operating system reuses those of closed sockets. -/
abbrev Socket := ℕ

/-- Who dialed a connection. -/
inductive ConnRole
  | inbound
  | outbound
  deriving DecidableEq

inductive ConnState
  | connecting
  | handshaking
  | established
  | closing
  | closed
  deriving DecidableEq

/-- Why a connection was torn down. -/
inductive CloseReason
  | localClose
  | peerClosed
  | peerReset
  | connectFailed
  | handshakeFailed
  | protocolError
  | slowConsumer
  | reactorShutdown
  | duplicateConn
  | peerLimit
  deriving DecidableEq

structure Address where
  ip : Bytes
  port : ℕ
  deriving DecidableEq

end Librats
