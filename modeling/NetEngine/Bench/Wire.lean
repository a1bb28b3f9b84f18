import NetEngine.Library.LittleEndian

/-! `wire.h`: the frame header, the two length conventions behind `--proto`,
and the blob that every measured message carries. -/

set_option autoImplicit false

namespace NetEngine.Bench

abbrev Bytes := List UInt8

structure Proto where
  lenIncludesHeader : Bool
  idChat : UInt16
  idChatOut : UInt16
  idTickOut : UInt16

def study : Proto := ⟨false, 3, 101, 102⟩

def headerSize : Nat := 4

def maxPayload : Nat := 1024

def prefixSlack : Nat := 16

def maxBlob : Nat := maxPayload - prefixSlack

def blobHeader : Nat := 20

def putHeader (proto : Proto) (type : UInt16) (len : Nat) : Bytes :=
  LittleEndian.encode (UInt16.ofNat (if proto.lenIncludesHeader then len + headerSize else len)) ++
    LittleEndian.encode type

/-- The payload length behind a raw length field; a size below the header's is malformed. -/
def payloadLen (proto : Proto) (raw : UInt16) : Option Nat :=
  if ¬ proto.lenIncludesHeader then some raw.toNat
  else if raw.toNat < headerSize then none
  else some (raw.toNat - headerSize)

end NetEngine.Bench
