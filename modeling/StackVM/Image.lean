/-
  StackVM.Image — programs stored in files.

  An image is a mark of eight bytes, the entry offset and the length of the code, eight bytes each and
  lowest byte first, and then the code. Bytes after the declared length are ignored. Encoding never
  fails; decoding refuses an entry past the end of the code.
-/

import StackVM.Bytes

namespace StackVM

structure Image where
  entry : UInt64
  code : Bytes
  deriving DecidableEq, Repr

namespace Image

/-- The letters VVMM and four zero bytes. -/
def magic : List UInt8 := [0x56, 0x56, 0x4D, 0x4D, 0, 0, 0, 0]

def headerSize : Nat := 24

def header (i : Image) : List UInt8 :=
  magic ++ LittleEndian.bytes 8 i.entry ++ LittleEndian.bytes 8 (UInt64.ofNat i.code.size)

def encode (i : Image) : Bytes := i.header.toArray ++ i.code

inductive DecodeError
  | unexpectedEnd
  | invalidMagic
  | entryOutOfRange
  deriving DecidableEq, Repr

def decode (bytes : Bytes) : Except DecodeError Image :=
  if bytes.size < 8 then .error .unexpectedEnd
  else if (bytes.extract 0 8).toList != magic then .error .invalidMagic
  else if bytes.size < headerSize then .error .unexpectedEnd
  else
    let entry := LittleEndian.read bytes 8 8
    let length := LittleEndian.read bytes 16 8
    if bytes.size - headerSize < length.toNat then .error .unexpectedEnd
    else if length < entry then .error .entryOutOfRange
    else .ok ⟨entry, bytes.extract headerSize (headerSize + length.toNat)⟩

/-! ## Outcomes by name -/

inductive Status
  | ok
  | unexpectedEnd
  | invalidMagic
  | entryOutOfRange
  deriving DecidableEq, Repr

namespace Status

def all : List Status := [ok, unexpectedEnd, invalidMagic, entryOutOfRange]

def name : Status → String
  | ok => "ok"
  | unexpectedEnd => "unexpected end of input"
  | invalidMagic => "invalid magic"
  | entryOutOfRange => "entry out of range"

end Status

def DecodeError.status : DecodeError → Status
  | unexpectedEnd => .unexpectedEnd
  | invalidMagic => .invalidMagic
  | entryOutOfRange => .entryOutOfRange

end Image

end StackVM
