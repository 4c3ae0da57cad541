import Ferrosa.Lib.Decoder

/-!
# CQL native protocol frames

Frame headers, the checksums of protocol version 5 and `CqlCodec::decode`.  A connection starts
with plain envelopes, each a header of nine bytes and a body; after the handshake of version 5
envelopes travel inside checksummed frames, several of them in one frame or one of them over
several.  The codec holds the slices of an envelope that is not complete yet, and the envelopes
of a frame that it has not returned yet.  LZ4 and Snappy are parameters.
-/

namespace Ferrosa.Cql

abbrev Bytes := List UInt8

def headerSize : ℕ := 9

def compressionFlag : UInt8 := 0x01

def v5MaxPayload : ℕ := 2 ^ 17 - 1

inductive Compression where
  | lz4
  | snappy
  deriving DecidableEq, Repr

inductive Opcode where
  | error | startup | ready | authenticate | options | supported | query | result | prepare
  | execute | register | event | batch | authChallenge | authResponse | authSuccess
  deriving DecidableEq, Repr

namespace Opcode

def toByte : Opcode → UInt8
  | error => 0x00
  | startup => 0x01
  | ready => 0x02
  | authenticate => 0x03
  | options => 0x05
  | supported => 0x06
  | query => 0x07
  | result => 0x08
  | prepare => 0x09
  | execute => 0x0A
  | register => 0x0B
  | event => 0x0C
  | batch => 0x0D
  | authChallenge => 0x0E
  | authResponse => 0x0F
  | authSuccess => 0x10

/-- The deprecated 0x04 has no opcode. -/
def tryFrom (value : UInt8) : Option Opcode :=
  [error, startup, ready, authenticate, options, supported, query, result, prepare, execute,
    register, event, batch, authChallenge, authResponse, authSuccess].find? (·.toByte = value)

end Opcode

inductive FrameError where
  | headerTooShort (length : ℕ)
  | unknownOpcode (value : UInt8)
  | bodyTooLarge (length limit : UInt32)
  | noCompressionNegotiated
  | lz4TooShort
  | lz4
  | snappy
  | headerChecksum (expected actual : ℕ)
  | payloadChecksum (expected actual : ℕ)
  | decompressedLength (actual declared : ℕ)
  | envelopeOverran (accumulated target : ℕ)
  | bodyPastPayload (offset bodyEnd payloadLength : ℕ)
  | payloadTooShort
  | versionMismatch (requested supported : UInt8)
  deriving DecidableEq, Repr

structure FrameHeader where
  version : UInt8
  flags : UInt8
  streamId : Int16
  opcode : Opcode
  length : UInt32
  deriving DecidableEq, Repr

namespace FrameHeader

def decode : Bytes → Except FrameError FrameHeader
  | version :: flags :: s1 :: s0 :: opcode :: l3 :: l2 :: l1 :: l0 :: _ =>
    match Opcode.tryFrom opcode with
    | none => .error (.unknownOpcode opcode)
    | some opcode =>
      .ok ⟨version, flags, (UInt16.ofNat (ofBigEndian [s1, s0])).toInt16, opcode,
        UInt32.ofNat (ofBigEndian [l3, l2, l1, l0])⟩
  | short => .error (.headerTooShort short.length)

end FrameHeader

structure CqlFrame where
  header : FrameHeader
  body : Bytes
  deriving DecidableEq, Repr

structure Compressors where
  lz4Compress : Bytes → Bytes
  lz4Decompress : Bytes → ℕ → Option Bytes
  snappyCompress : Bytes → Option Bytes
  snappyDecompress : Bytes → Option Bytes

namespace Compressors

variable (library : Compressors)

def decompressLz4 (data : Bytes) : Except FrameError Bytes :=
  if data.length < 4 then .error .lz4TooShort
  else
    let uncompressedLen := ofBigEndian (data.take 4)
    if uncompressedLen = 0 then .ok []
    else
      match library.lz4Decompress (data.drop 4) uncompressedLen with
      | none => .error .lz4
      | some plain => .ok plain

def decompressSnappy (data : Bytes) : Except FrameError Bytes :=
  match library.snappyDecompress data with
  | none => .error .snappy
  | some plain => .ok plain

def decompress : Compression → Bytes → Except FrameError Bytes
  | .lz4 => library.decompressLz4
  | .snappy => library.decompressSnappy

def envelopeBody (compression : Option Compression) (header : FrameHeader) (body : Bytes) :
    Except FrameError Bytes :=
  if header.flags &&& compressionFlag ≠ 0 then
    match compression with
    | some algorithm => library.decompress algorithm body
    | none => .error .noCompressionNegotiated
  else .ok body

end Compressors

def crc24Bit (crc : UInt32) : UInt32 :=
  if crc <<< 1 &&& 0x1000000 ≠ 0 then crc <<< 1 ^^^ 0x1974F0B else crc <<< 1

def crc24Byte (crc : UInt32) (byte : UInt8) : UInt32 :=
  crc24Bit^[8] (crc ^^^ (byte.toUInt32 <<< (16 : UInt32)))

def crc24 (data : Bytes) : ℕ := (data.foldl crc24Byte 0x875060 &&& 0xFFFFFF).toNat

def crc32Bit (crc : UInt32) : UInt32 :=
  if crc &&& 1 ≠ 0 then crc >>> 1 ^^^ 0xEDB88320 else crc >>> 1

def crc32Byte (crc : UInt32) (byte : UInt8) : UInt32 := crc32Bit^[8] (crc ^^^ byte.toUInt32)

/-- The checksum is seeded with four bytes before the payload. -/
def crc32IeeeV5 (data : Bytes) : ℕ :=
  (([0xFA, 0x2D, 0x55, 0xCA] ++ data).foldl crc32Byte 0xFFFFFFFF ^^^ 0xFFFFFFFF).toNat

structure CqlCodec where
  maxFrameSize : UInt32
  compression : Option Compression
  v5Framed : Bool
  v5SegmentBuf : Bytes
  pendingEnvelopes : List CqlFrame
  deriving DecidableEq, Repr

structure SegmentHeader where
  payloadLen : ℕ
  uncompressedLen : ℕ
  isSelfContained : Bool
  deriving DecidableEq, Repr

def segmentHeaderSize (compressed : Bool) : ℕ := if compressed then 5 else 3

def segmentHeader (compressed : Bool) (src : Bytes) : Except FrameError (Option SegmentHeader) :=
  let headerLen := segmentHeaderSize compressed
  if src.length < headerLen + 3 then .ok none
  else
    let headerBits := ofLittleEndian (src.take headerLen)
    let expected := ofLittleEndian ((src.drop headerLen).take 3)
    let actual := crc24 (src.take headerLen)
    if expected ≠ actual then .error (.headerChecksum expected actual)
    else if compressed then
      .ok (some ⟨headerBits % 2 ^ 17, headerBits / 2 ^ 17 % 2 ^ 17, headerBits / 2 ^ 34 % 2 = 1⟩)
    else .ok (some ⟨headerBits % 2 ^ 17, 0, headerBits / 2 ^ 17 % 2 = 1⟩)

structure Segment where
  header : SegmentHeader
  payload : Bytes
  deriving DecidableEq, Repr

def nextSegment (compressed : Bool) (src : Bytes) :
    Except FrameError (Option (Segment × Bytes)) := do
  match ← segmentHeader compressed src with
  | none => .ok none
  | some header =>
    let payloadStart := segmentHeaderSize compressed + 3
    let payloadEnd := payloadStart + header.payloadLen
    if src.length < payloadEnd + 4 then .ok none
    else
      let payload := (src.drop payloadStart).take header.payloadLen
      let expected := ofLittleEndian ((src.drop payloadEnd).take 4)
      let actual := crc32IeeeV5 payload
      if expected ≠ actual then .error (.payloadChecksum expected actual)
      else .ok (some (⟨header, payload⟩, src.drop (payloadEnd + 4)))

/-- The length of the envelope whose slices are accumulated, once its header is there. -/
def v5ReassemblyTarget (buf : Bytes) : Option ℕ :=
  if buf.length < headerSize then none
  else some (headerSize + ofBigEndian ((buf.drop 5).take 4))

namespace CqlCodec

variable (library : Compressors)

def new (maxFrameSize : UInt32) : CqlCodec := ⟨maxFrameSize, none, false, [], []⟩

variable (codec : CqlCodec)

def envelopeHeader (src : Bytes) : Except FrameError (Option FrameHeader) :=
  if src.length < headerSize then .ok none
  else do
    let header ← FrameHeader.decode (src.take headerSize)
    if codec.maxFrameSize < header.length then
      .error (.bodyTooLarge header.length codec.maxFrameSize)
    else .ok (some header)

def decodeV4Envelope (src : Bytes) : Except FrameError (Option CqlFrame × CqlCodec × Bytes) := do
  match ← codec.envelopeHeader src with
  | none => .ok (none, codec, src)
  | some header =>
    let total := headerSize + header.length.toNat
    if src.length < total then .ok (none, codec, src)
    else do
      let body ← library.envelopeBody codec.compression header
        ((src.drop headerSize).take header.length.toNat)
      .ok (some ⟨header, body⟩, codec, src.drop total)

/-- The length that LZ4 expects in front of a block is in the frame's header; a frame has an
uncompressed length only where compression is negotiated. -/
def segmentPayload (compression : Option Compression) (segment : Segment) :
    Except FrameError Bytes :=
  match compression with
  | none => .ok segment.payload
  | some algorithm =>
    if segment.header.uncompressedLen = 0 then .ok segment.payload
    else do
      let plain ← library.decompress algorithm
        (bigEndian 4 segment.header.uncompressedLen ++ segment.payload)
      if plain.length ≠ segment.header.uncompressedLen then
        .error (.decompressedLength plain.length segment.header.uncompressedLen)
      else .ok plain

/-- The envelopes from an offset on. Each takes a header at least, so the fuel suffices. -/
def envelopesFrom (compression : Option Compression) (data : Bytes) :
    ℕ → ℕ → Except FrameError (List CqlFrame)
  | 0, _ => .ok []
  | fuel + 1, offset =>
    if data.length < offset + headerSize then .ok []
    else do
      let header ← FrameHeader.decode ((data.drop offset).take headerSize)
      let bodyEnd := offset + headerSize + header.length.toNat
      if data.length < bodyEnd then .error (.bodyPastPayload offset bodyEnd data.length)
      else do
        let body ← library.envelopeBody compression header
          ((data.drop (offset + headerSize)).take header.length.toNat)
        let rest ← envelopesFrom compression data fuel bodyEnd
        .ok (⟨header, body⟩ :: rest)

def emitEnvelopes (envelopeData : Bytes) : Except FrameError (Option CqlFrame × CqlCodec) := do
  let frames ← envelopesFrom library codec.compression envelopeData envelopeData.length 0
  match frames with
  | [] => .error .payloadTooShort
  | first :: rest =>
    .ok (some first, { codec with pendingEnvelopes := codec.pendingEnvelopes ++ rest })

/-- Slices of a large envelope are not self-contained; its own length field says when it is
complete. -/
def acceptPayload (payload : Bytes) (isSelfContained : Bool) :
    Except FrameError (Option CqlFrame × CqlCodec) :=
  let accumulated := codec.v5SegmentBuf ++ payload
  if isSelfContained then emitEnvelopes library { codec with v5SegmentBuf := [] } accumulated
  else
    match v5ReassemblyTarget accumulated with
    | none => .ok (none, { codec with v5SegmentBuf := accumulated })
    | some target =>
      if accumulated.length < target then
        .ok (none, { codec with v5SegmentBuf := accumulated })
      else if target < accumulated.length then
        .error (.envelopeOverran accumulated.length target)
      else emitEnvelopes library { codec with v5SegmentBuf := [] } accumulated

def decodeV5Frame (src : Bytes) : Except FrameError (Option CqlFrame × CqlCodec × Bytes) := do
  match ← nextSegment codec.compression.isSome src with
  | none => .ok (none, codec, src)
  | some (segment, rest) =>
    let payload ← segmentPayload library codec.compression segment
    let (frame, codec) ← acceptPayload library codec payload segment.header.isSelfContained
    .ok (frame, codec, rest)

def decode (src : Bytes) : Except FrameError (Option CqlFrame × CqlCodec × Bytes) :=
  match codec.pendingEnvelopes with
  | frame :: rest => .ok (some frame, { codec with pendingEnvelopes := rest }, src)
  | [] =>
    if codec.v5Framed then decodeV5Frame library codec src
    else if headerSize ≤ src.length ∧ 0x06 ≤ src.headD 0 ∧ src.headD 0 ≤ 0x7F then
      .error (.versionMismatch (src.headD 0) 0x05)
    else decodeV4Envelope library codec src

end CqlCodec

end Ferrosa.Cql
