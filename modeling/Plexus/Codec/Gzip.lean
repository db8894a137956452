import Plexus.Codec.Crc32
import Plexus.Codec.Inflate

/-!
# Gzip members

A member is a header, a deflated stream, and a trailer with the check and the length of what was
deflated. Writing stores the bytes in blocks without coding them. Reading follows the header's
optional fields and verifies the trailer, but only if the member is read to its end. What is
wrong behind the bytes that are asked for may go unnoticed.
-/

namespace Plexus.Gzip

/-- The two bytes that start every member, and the one that stands for deflate. -/
def magic : Bytes := [0x1f, 0x8b, 8]

/-- A stored block holds no more bytes than this. -/
def blockLimit : Nat := 0xffff

/-- The bytes in stored blocks, of which the first argument bounds the number. -/
def storedBlocks : Nat → Bytes → Bytes
  | 0, _ => []
  | fuel + 1, bytes =>
    let chunk := bytes.take blockLimit
    let rest := bytes.drop blockLimit
    let isLast : UInt8 := if rest.isEmpty then 1 else 0
    isLast :: Bytes.littleEndian 2 chunk.length ++
      Bytes.littleEndian 2 (blockLimit - chunk.length) ++ chunk ++
      (if rest.isEmpty then [] else storedBlocks fuel rest)

/-- What the header says about the effort of compression. -/
def effort (level : Nat) : UInt8 := if 9 ≤ level then 2 else if level ≤ 1 then 4 else 0

/-- The check and the length of some bytes. -/
def trailer (bytes : Bytes) : Bytes :=
  Bytes.littleEndian 4 (Crc32.checksum bytes).toNat ++ Bytes.littleEndian 4 bytes.length

/-- A member that holds some bytes. -/
def write (level : Nat) (bytes : Bytes) : Bytes :=
  magic ++ [0, 0, 0, 0, 0, effort level, 0xff] ++
    storedBlocks (bytes.length / blockLimit + 1) bytes ++ trailer bytes

/-- A text in the header holds no more bytes than this. -/
def textLimit : Nat := 0xffff

/-- The bytes after a text that a zero byte ends, if it is no longer than a limit. -/
def skipText? : Nat → Bytes → Option Bytes
  | _, [] => none
  | 0, b :: rest => if b = 0 then some rest else none
  | limit + 1, b :: rest => if b = 0 then some rest else skipText? limit rest

/-- The bytes after a field with its length in front. -/
def skipField? : Bytes → Option Bytes
  | a :: b :: rest =>
    let length := Bytes.ofLittleEndian [a, b]
    if length ≤ rest.length then some (rest.drop length) else none
  | _ => none

/-- The bytes after the header's own check, which covers the header before it. -/
def skipCheck? (member : Bytes) (rest : Bytes) : Option Bytes :=
  match rest with
  | a :: b :: after =>
    let header := member.take (member.length - rest.length)
    if Bytes.ofLittleEndian [a, b] = (Crc32.checksum header).toNat % 0x10000 then some after
    else none
  | _ => none

/-- The bytes after the header of a member, if it is a proper one. -/
def skipHeader? (member : Bytes) : Option Bytes :=
  match member with
  | a :: b :: c :: flags :: _ :: _ :: _ :: _ :: _ :: _ :: rest => do
    let has (bit : Nat) := flags.toNat.testBit bit
    if [a, b, c] ≠ magic ∨ 32 ≤ flags.toNat then none
    let rest ← if has 2 then skipField? rest else some rest
    let rest ← if has 3 then skipText? textLimit rest else some rest
    let rest ← if has 4 then skipText? textLimit rest else some rest
    if has 1 then skipCheck? member rest else some rest
  | _ => none

/-- A member is read in pieces of this many bytes, and what it holds is handed on in windows of
this many. -/
def windowSize : Nat := 0x8000

/-- Whether so many bytes are handed on before damage to a stream is met, given the output up to
the damage: a window is handed on once a byte after it is to be written, and all output whenever
a piece of the member is used up. A header of the given length belongs to the first pieces. -/
def isAheadOfDamage (limit header : Nat) (stream : Bytes) (out : Array UInt8) : Bool :=
  limit ≤ (out.size - 1) / windowSize * windowSize ||
    (List.range ((header + stream.length) / windowSize)).any fun i =>
      match Inflate.run (stream.take ((i + 1) * windowSize - header)) with
      | (out, .error .truncated) => limit ≤ out.size
      | _ => false

/-- The first bytes that a member holds, up to a limit; all of them only if the trailer is right.
Damage to the stream goes unnoticed only if so many bytes are handed on before it. -/
def read? (limit : Nat) (member : Bytes) : Option Bytes := do
  let stream ← skipHeader? member
  match Inflate.run stream with
  | (out, .error .damaged) =>
    if isAheadOfDamage limit (member.length - stream.length) stream out then
      some (out.toList.take limit)
    else none
  | (out, .error .truncated) => if limit ≤ out.size then some (out.toList.take limit) else none
  | (out, .ok rest) =>
    let bytes := out.toList
    if limit ≤ bytes.length then some (bytes.take limit)
    else if rest.take 8 = trailer bytes then some bytes
    else none

end Plexus.Gzip
