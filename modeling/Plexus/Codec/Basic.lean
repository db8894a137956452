import Plexus.Codec.Word

/-!
# Codecs

A codec writes values of one type as bytes and reads them back from the front of some bytes,
leaving the rest. Nothing separates one value from the next: words have a fixed width, and texts
and lists have their length in front. Codecs of larger types are put together from those of
smaller ones.
-/

namespace Plexus

/-- Why bytes cannot be read. -/
inductive ReadFault where
  /-- The bytes end early, or a length runs past their end. -/
  | truncated
  | invalidText
  /-- A boolean is neither zero nor one. -/
  | invalidBoolean
  /-- A tag is not one of those of its type. -/
  | unknownTag
  deriving DecidableEq, Repr

/-- How values of a type are written and read. -/
structure Codec (α : Type) where
  write : α → Bytes
  read : Bytes → Except ReadFault (α × Bytes)

namespace Codec

variable {α β : Type}

/-- Split off some bytes. -/
def takeBytes (n : Nat) (bytes : Bytes) : Except ReadFault (Bytes × Bytes) :=
  if n ≤ bytes.length then .ok (bytes.take n, bytes.drop n) else .error .truncated

/-- Natural numbers below the range of a width, least significant byte first. -/
def word (width : Nat) : Codec Nat where
  write := Bytes.littleEndian width
  read bytes := do
    let (front, rest) ← takeBytes width bytes
    return (Bytes.ofLittleEndian front, rest)

/-- The codec of a type whose values stand for those of another one. -/
def map (c : Codec α) (there : α → β) (back : β → α) : Codec β where
  write b := c.write (back b)
  read bytes := do
    let (a, rest) ← c.read bytes
    return (there a, rest)

def word32 : Codec UInt32 := (word 4).map UInt32.ofNat UInt32.toNat

def word64 : Codec UInt64 := (word 8).map UInt64.ofNat UInt64.toNat

/-- One byte that is zero or one. -/
def boolean : Codec Bool where
  write b := [if b then 1 else 0]
  read
    | [] => .error .truncated
    | b :: rest =>
      if b = 0 then .ok (false, rest)
      else if b = 1 then .ok (true, rest)
      else .error .invalidBoolean

/-- Two values one after the other. -/
def pair (c : Codec α) (d : Codec β) : Codec (α × β) where
  write p := c.write p.1 ++ d.write p.2
  read bytes := do
    let (a, rest) ← c.read bytes
    let (b, rest) ← d.read rest
    return ((a, b), rest)

/-- Bytes with their number in front. -/
def block : Codec Bytes where
  write bytes := (word 8).write bytes.length ++ bytes
  read bytes := do
    let (n, rest) ← (word 8).read bytes
    takeBytes n rest

/-- Texts as their bytes, with the number of these in front. -/
def text : Codec String where
  write s := block.write s.toByteArray.toList
  read bytes := do
    let (front, rest) ← block.read bytes
    match String.fromUTF8? ⟨front.toArray⟩ with
    | some s => return (s, rest)
    | none => throw .invalidText

/-- Read a number of values. -/
def readMany (c : Codec α) : Nat → Bytes → Except ReadFault (List α × Bytes)
  | 0, bytes => .ok ([], bytes)
  | n + 1, bytes => do
    let (a, rest) ← c.read bytes
    let (others, rest) ← readMany c n rest
    return (a :: others, rest)

/-- Values with their number in front. -/
def list (c : Codec α) : Codec (List α) where
  write as := (word 8).write as.length ++ as.flatMap c.write
  read bytes := do
    let (n, rest) ← (word 8).read bytes
    c.readMany n rest

end Codec

end Plexus
