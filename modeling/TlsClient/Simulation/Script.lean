import TlsClient.Network.Transport
import TlsClient.Registry.Handshake
import TlsClient.Registry.Record
import TlsClient.Rsa.PrivateKey

namespace TlsClient.Simulation

open Network

structure Damage where
  /-- Bytes whose lowest bit is inverted; negative positions count from the end. -/
  flips : List Int
  cut : Nat
deriving DecidableEq

namespace Damage

def none : Damage := ⟨[], 0⟩

def flip (bs : Bytes) (position : Int) : Bytes :=
  let i := if position < 0 then bs.length + position else position
  if i < 0 then bs else bs.modify i.toNat (· ^^^ 1)

def apply (d : Damage) (bs : Bytes) : Bytes :=
  let bs := d.flips.foldl flip bs
  bs.take (bs.length - d.cut)

end Damage

structure Sealing where
  version : ProtocolVersion
  sequence : Option UInt64
  damage : Damage
  /-- The content type in the header, if it differs from the sealed one. -/
  outer : Option ContentType
deriving DecidableEq

structure FinishedItem where
  label : String
  flip : Option Int
  append : Bytes
  pieceLength : Nat
deriving DecidableEq

inductive Item where
  | raw (bs : Bytes)
  | idle (count : Nat)
  | fault (error : TransportError)
  /-- Handshake bytes in plain records of at most the given length. -/
  | handshake (bs : Bytes) (pieceLength : Nat)
  | changeCipherSpec
  | sealed (contentType : ContentType) (content : Bytes) (sealing : Sealing)
  | finished (message : FinishedItem) (sealing : Sealing)
deriving DecidableEq

structure Settings where
  key : PrivateKey
  suite : CipherSuite
  serverRandom : Bytes
  /-- What follows the client's hello. -/
  onHello : List Item
  /-- What follows the client's Finished message. -/
  onFinished : List Item
  /-- Whether secrets are shown. -/
  reveal : Bool
  echo : Bool
  /-- How many bytes are delivered at once at most. -/
  chunk : Option Nat
  hungUp : Bool
  /-- How many bytes are accepted at once at most. -/
  maxSend : Option Nat
  sendFault : Option TransportError
  connectFault : Option TransportError
  closeFault : Option TransportError
deriving DecidableEq

def Settings.silent : Settings where
  key := ⟨0, 0⟩
  suite := default
  serverRandom := []
  onHello := []
  onFinished := []
  reveal := false
  echo := false
  chunk := none
  hungUp := false
  maxSend := none
  sendFault := none
  connectFault := none
  closeFault := none

end TlsClient.Simulation
