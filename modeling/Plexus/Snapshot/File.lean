import Plexus.Codec.Gzip
import Plexus.Codec.Sha256
import Plexus.Snapshot.BodyCodec

/-!
# Snapshot files

A snapshot is a header, the bytes of a body, and the digest of these. The header has a mark, the
version of the format, flags, and the length of the body. With the compression flag the body is
stored as its inflated length and a gzip member. Whatever is wrong with a snapshot, reading it
gives no graph; the checks are made from the outside in.
-/

namespace Plexus

/-- Why a snapshot cannot be read. -/
inductive SnapshotFault where
  | badMagic
  | version (found : UInt16)
  | truncated (expected found : Nat)
  | checksum
  | unknownFlags (flags : UInt8)
  /-- The compressed body is not a gzip member. -/
  | compression
  | corrupt (cause : Corruption)
  /-- The body's bytes are not a body. -/
  | unreadable (fault : ReadFault)
  /-- There is no file to read. -/
  | noFile
  deriving DecidableEq, Repr

/-- The fixed part at the start of a snapshot. -/
structure Header where
  version : UInt16
  flags : UInt8
  bodyLength : UInt64
  deriving DecidableEq, Repr

namespace Header

/-- The mark at the start of every snapshot. -/
def magic : Bytes := [0x53, 0x4d, 0x59, 0x47]

/-- The version that is written and read. -/
def formatVersion : UInt16 := 1

/-- The flag of a compressed body, the only one there is. -/
def compressionFlag : UInt8 := 1

/-- How long a header is. -/
def size : Nat := 15

def isCompressed (h : Header) : Bool := h.flags &&& compressionFlag ≠ 0

/-- The bytes of a header. -/
def toBytes (h : Header) : Bytes :=
  magic ++ Bytes.littleEndian 2 h.version.toNat ++ h.flags ::
    Bytes.littleEndian 8 h.bodyLength.toNat

/-- The header at the start of some bytes: its mark, its size, its version and its flags are
checked in this order. -/
def parse (bytes : Bytes) : Except SnapshotFault Header :=
  let seen := min bytes.length magic.length
  if bytes.take seen ≠ magic.take seen then .error .badMagic
  else if bytes.length < size then .error (.truncated size bytes.length)
  else
    let version := UInt16.ofNat (Bytes.ofLittleEndian ((bytes.drop 4).take 2))
    let flags := (bytes.drop 6).headD 0
    let bodyLength := UInt64.ofNat (Bytes.ofLittleEndian ((bytes.drop 7).take 8))
    if version ≠ formatVersion then .error (.version version)
    else if flags &&& ~~~compressionFlag ≠ 0 then .error (.unknownFlags flags)
    else .ok ⟨version, flags, bodyLength⟩

end Header

namespace SnapshotFault

/-- The flags as two hexadecimal digits. -/
def flagsText (flags : UInt8) : String :=
  String.ofList ['0', 'x', Text.hexDigit (flags.toNat / 16), Text.hexDigit (flags.toNat % 16)]

/-- The text of a fault that is not another format's. -/
def message? : SnapshotFault → Option String
  | badMagic => some "not a snapshot: bad magic bytes"
  | version found =>
    some s!"unsupported snapshot version {found} (expected {Header.formatVersion})"
  | truncated expected found =>
    some s!"snapshot truncated: expected {expected} bytes, found {found}"
  | checksum => some "snapshot checksum mismatch"
  | unknownFlags flags => some s!"unknown snapshot flags {flagsText flags}"
  | corrupt cause => some s!"corrupt snapshot: {cause.message}"
  | compression | unreadable _ | noFile => none

end SnapshotFault

namespace Snapshot

/-- How long the digest at the end is. -/
def digestSize : Nat := 32

/-- Deflating makes nothing smaller by more than this factor. -/
def maxRatio : Nat := 1032

/-- The largest length that a word holds. -/
def maxLength : Nat := 0xffffffffffffffff

/-- The body's bytes as they are stored, given how bytes are deflated at a level. -/
def payload (deflate : Nat → Bytes → Bytes) (settings : SnapshotSettings) (bytes : Bytes) : Bytes :=
  if settings.compress then
    Bytes.littleEndian 8 bytes.length ++ deflate settings.compressionLevel bytes
  else bytes

/-- The snapshot of a graph, given how bytes are deflated at a level. -/
def encodeWith (deflate : Nat → Bytes → Bytes) (g : Graph) (settings : SnapshotSettings) : Bytes :=
  let stored := payload deflate settings (Body.ofGraph g).toBytes
  let flags := if settings.compress then Header.compressionFlag else 0
  let header : Header := ⟨Header.formatVersion, flags, UInt64.ofNat stored.length⟩
  header.toBytes ++ stored ++ Sha256.digest stored

/-- The snapshot of a graph, in which compressed bytes are stored in gzip's own blocks. -/
def encode (g : Graph) (settings : SnapshotSettings) : Bytes := encodeWith Gzip.write g settings

/-- Inflate a compressed body, reading no more than its declared length. -/
def inflate (stored : Bytes) : Except SnapshotFault Bytes :=
  if stored.length < 8 then .error (.corrupt .noLengthPrefix)
  else
    let declared := Bytes.ofLittleEndian (stored.take 8)
    let stream := stored.drop 8
    let ceiling := min maxLength (stream.length * maxRatio)
    if ceiling < declared then
      .error (.corrupt (.implausibleLength declared ceiling stream.length))
    else
      match Gzip.read? (declared + 1) stream with
      | none => .error .compression
      | some bytes =>
        if bytes.length = declared then .ok bytes else .error (.corrupt (.wrongLength declared))

/-- The stored bytes of the body, once their length and digest are found to be right. -/
def split (header : Header) (bytes : Bytes) : Except SnapshotFault Bytes :=
  let expected := Header.size + header.bodyLength.toNat + digestSize
  if maxLength < expected then .error (.corrupt (.unaddressable header.bodyLength.toNat))
  else if bytes.length < expected then .error (.truncated expected bytes.length)
  else if expected < bytes.length then
    .error (.corrupt (.trailingBytes (bytes.length - expected)))
  else
    let stored := (bytes.drop Header.size).take header.bodyLength.toNat
    if Sha256.digest stored = bytes.drop (Header.size + header.bodyLength.toNat) then .ok stored
    else .error .checksum

/-- The body of a snapshot, with every identifier in it checked. -/
def decodeBody (bytes : Bytes) : Except SnapshotFault Body := do
  let header ← Header.parse bytes
  let stored ← split header bytes
  let plain ← if header.isCompressed then inflate stored else .ok stored
  match Body.ofBytes plain with
  | .error fault => throw (.unreadable fault)
  | .ok body =>
    match body.validate with
    | .error cause => throw (.corrupt cause)
    | .ok () => return body

/-- The graph of a snapshot. -/
def decode (bytes : Bytes) (settings : TraversalSettings) : Except SnapshotFault Graph := do
  let body ← decodeBody bytes
  match body.build settings with
  | .error cause => throw (.corrupt cause)
  | .ok g => return g

/-- The graph of a snapshot file with default settings, given what the file holds, if it exists. -/
def load (content : Option Bytes) : Except SnapshotFault Graph :=
  match content with
  | some bytes => decode bytes {}
  | none => .error .noFile

end Snapshot

end Plexus
