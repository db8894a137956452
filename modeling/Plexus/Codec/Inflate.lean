import Plexus.Codec.Word

/-!
# Inflating

Reading a deflated stream: blocks of stored bytes, or of symbols under prefix codes that are
either fixed or described at the start of the block. A symbol is a byte, the end of the block, or
a copy of earlier output. Whatever goes wrong, the output so far is part of the result; a stream
that ends early is told apart from one that is damaged.
-/

namespace Plexus.Inflate

/-- Bits still to be read, each byte from its lowest bit. -/
structure Bits where
  bytes : Bytes
  /-- How many bits of the first byte are used up. -/
  used : Nat
  deriving DecidableEq, Repr

/-- Why inflating ends before the stream does. -/
inductive Fault where
  | truncated
  | damaged
  deriving DecidableEq, Repr

namespace Bits

/-- Read one bit. -/
def bit (s : Bits) : Except Fault (Bool × Bits) :=
  match s.bytes with
  | [] => .error .truncated
  | b :: rest =>
    .ok (b.toNat.testBit s.used, if s.used = 7 then ⟨rest, 0⟩ else ⟨b :: rest, s.used + 1⟩)

/-- Read a number of the given width, lowest bit first. -/
def number : Nat → Bits → Except Fault (Nat × Bits)
  | 0, s => .ok (0, s)
  | width + 1, s => do
    let (low, s) ← s.bit
    let (high, s) ← number width s
    return (low.toNat + 2 * high, s)

/-- The bytes from the next whole one on. -/
def wholeBytes (s : Bits) : Bytes := if s.used = 0 then s.bytes else s.bytes.drop 1

end Bits

/-- A prefix code in which shorter codewords come before longer ones, and those of one length in
the order of their symbols. -/
structure Code where
  /-- How many codewords there are of each length, from one bit up to the longest. -/
  counts : List Nat
  /-- The symbols in the order of their codewords. -/
  symbols : Array Nat
  deriving DecidableEq, Repr

namespace Code

/-- The code with the given codeword length for each symbol; zero for an unused symbol. -/
def ofLengths (lengths : List Nat) : Code :=
  let withLength (n : Nat) := lengths.zipIdx.filterMap fun (l, symbol) =>
    if l = n then some symbol else none
  let bySize := (List.range (lengths.foldl max 1)).map fun i => withLength (i + 1)
  ⟨bySize.map List.length, bySize.flatten.toArray⟩

/-- How many codewords there are. -/
def size (c : Code) : Nat := c.symbols.size

/-- The number of bits of the longest codeword. -/
def longest (c : Code) : Nat := c.counts.length

/-- Every sequence of bits starts with a codeword, and no codeword starts with another. -/
def isComplete (c : Code) : Bool :=
  c.counts.foldl (fun total n => 2 * total + n) 0 = Nat.pow 2 c.longest

/-- Read a codeword bit by bit: among the codewords of one length the first is `first`, and its
symbol stands at `index`. Bits that are none are refused at the length of the longest. -/
def readFrom (c : Code) : List Nat → Nat → Nat → Nat → Bits → Except Fault (Nat × Bits)
  | [], _, _, _, _ => .error .damaged
  | count :: counts, word, first, index, s => do
    let (b, s) ← s.bit
    let word := 2 * word + b.toNat
    if word < first + count then
      match c.symbols[index + (word - first)]? with
      | some symbol => return (symbol, s)
      | none => throw .damaged
    else readFrom c counts word (2 * (first + count)) (index + count) s

/-- Read a symbol. -/
def read (c : Code) (s : Bits) : Except Fault (Nat × Bits) := c.readFrom c.counts 0 0 0 s

end Code

/-- The least length of each copy symbol and the number of extra bits that are added to it. -/
def lengthTable : List (Nat × Nat) :=
  [(3, 0), (4, 0), (5, 0), (6, 0), (7, 0), (8, 0), (9, 0), (10, 0), (11, 1), (13, 1), (15, 1),
    (17, 1), (19, 2), (23, 2), (27, 2), (31, 2), (35, 3), (43, 3), (51, 3), (59, 3), (67, 4),
    (83, 4), (99, 4), (115, 4), (131, 5), (163, 5), (195, 5), (227, 5), (258, 0)]

/-- The least distance of each distance symbol and the number of extra bits that are added. -/
def distanceTable : List (Nat × Nat) :=
  [(1, 0), (2, 0), (3, 0), (4, 0), (5, 1), (7, 1), (9, 2), (13, 2), (17, 3), (25, 3), (33, 4),
    (49, 4), (65, 5), (97, 5), (129, 6), (193, 6), (257, 7), (385, 7), (513, 8), (769, 8),
    (1025, 9), (1537, 9), (2049, 10), (3073, 10), (4097, 11), (6145, 11), (8193, 12), (12289, 12),
    (16385, 13), (24577, 13)]

/-- The number that a symbol and its extra bits stand for. -/
def readExtended (table : List (Nat × Nat)) (symbol : Nat) (s : Bits) :
    Except Fault (Nat × Bits) :=
  match table[symbol]? with
  | none => .error .damaged
  | some (least, extra) => do
    let (more, s) ← s.number extra
    return (least + more, s)

/-- Repeat earlier output byte by byte; before the first byte there are zeros. -/
def copy (distance : Nat) : Nat → Array UInt8 → Array UInt8
  | 0, out => out
  | n + 1, out =>
    let b := if distance ≤ out.size then out.getD (out.size - distance) 0 else 0
    copy distance n (out.push b)

/-- The output so far, with the rest of the input or the fault that ended it. -/
abbrev Progress := Array UInt8 × Except Fault Bits

/-- Read the length and distance of a copy. -/
def readCopy (distances : Code) (symbol : Nat) (s : Bits) : Except Fault (Nat × Nat × Bits) := do
  let (length, s) ← readExtended lengthTable (symbol - 257) s
  let (symbol, s) ← distances.read s
  let (distance, s) ← readExtended distanceTable symbol s
  return (length, distance, s)

/-- Inflate symbols up to the end of their block. The first argument bounds their number; every
symbol takes at least one bit. -/
def symbols (literals distances : Code) : Nat → Bits → Array UInt8 → Progress
  | 0, _, out => (out, .error .truncated)
  | fuel + 1, s, out =>
    match literals.read s with
    | .error fault => (out, .error fault)
    | .ok (symbol, s) =>
      if symbol < 256 then symbols literals distances fuel s (out.push (UInt8.ofNat symbol))
      else if symbol = 256 then (out, .ok s)
      else
        match readCopy distances symbol s with
        | .error fault => (out, .error fault)
        | .ok (length, distance, s) =>
          symbols literals distances fuel s (copy distance length out)

/-- Inflate stored bytes, whose number is given twice, the second time complemented. -/
def stored (s : Bits) (out : Array UInt8) : Progress :=
  match s.wholeBytes with
  | a :: b :: c :: d :: rest =>
    let length := Bytes.ofLittleEndian [a, b]
    if length + Bytes.ofLittleEndian [c, d] = 0xffff then
      if length ≤ rest.length then
        (out ++ rest.take length, .ok ⟨rest.drop length, 0⟩)
      else (out ++ rest, .error .truncated)
    else (out, .error .damaged)
  | _ => (out, .error .truncated)

/-- The code for bytes and copies that needs no description. -/
def fixedLiterals : Code :=
  Code.ofLengths (List.replicate 144 8 ++ List.replicate 112 9 ++ List.replicate 24 7 ++
    List.replicate 8 8)

/-- The code for distances that needs no description. -/
def fixedDistances : Code := Code.ofLengths (List.replicate 32 5)

/-- The order in which the lengths of the code for lengths are written. -/
def lengthOrder : List Nat := [16, 17, 18, 0, 8, 7, 9, 6, 10, 5, 11, 4, 12, 3, 13, 2, 14, 1, 15]

/-- Read three-bit lengths for the first symbols of an order. -/
def readLengthLengths : Nat → Bits → Except Fault (List Nat × Bits)
  | 0, s => .ok ([], s)
  | n + 1, s => do
    let (l, s) ← s.number 3
    let (rest, s) ← readLengthLengths n s
    return (l :: rest, s)

/-- Read codeword lengths, given newest first, until there are enough. A symbol above fifteen
repeats the last length or zero. The first argument bounds the number of symbols. -/
def readLengths (code : Code) (wanted : Nat) :
    Nat → Bits → List Nat → Except Fault (List Nat × Bits)
  | 0, _, _ => .error .damaged
  | fuel + 1, s, lengths =>
    if lengths.length = wanted then .ok (lengths.reverse, s)
    else if wanted < lengths.length then .error .damaged
    else do
      let (symbol, s) ← code.read s
      if symbol < 16 then readLengths code wanted fuel s (symbol :: lengths)
      else if symbol = 16 then
        match lengths with
        | [] => throw .damaged
        | last :: _ =>
          let (n, s) ← s.number 2
          readLengths code wanted fuel s (List.replicate (n + 3) last ++ lengths)
      else if symbol = 17 then
        let (n, s) ← s.number 3
        readLengths code wanted fuel s (List.replicate (n + 3) 0 ++ lengths)
      else
        let (n, s) ← s.number 7
        readLengths code wanted fuel s (List.replicate (n + 11) 0 ++ lengths)

/-- A described code is complete, or has no codeword but one of a single bit. -/
def checkCode (c : Code) : Except Fault Unit :=
  if c.isComplete || (c.size ≤ 1 && c.longest = 1) then .ok () else .error .damaged

/-- No more symbols for bytes and copies are described. -/
def maxLiterals : Nat := 286

/-- No more symbols for distances are described. -/
def maxDistances : Nat := 30

/-- Read the description of the codes of a block. -/
def readCodes (s : Bits) : Except Fault (Code × Code × Bits) := do
  let (literalCount, s) ← s.number 5
  let (distanceCount, s) ← s.number 5
  let (lengthCount, s) ← s.number 4
  let literalCount := literalCount + 257
  let distanceCount := distanceCount + 1
  if maxLiterals < literalCount || maxDistances < distanceCount then throw .damaged
  let (lengths, s) ← readLengthLengths (lengthCount + 4) s
  let pairs := lengthOrder.zip lengths
  let code := Code.ofLengths ((List.range 19).map fun symbol => (pairs.lookup symbol).getD 0)
  if !code.isComplete then throw .damaged
  let wanted := literalCount + distanceCount
  let (lengths, s) ← readLengths code wanted (wanted + 1) s []
  let literals := Code.ofLengths (lengths.take literalCount)
  let distances := Code.ofLengths (lengths.drop literalCount)
  checkCode literals
  checkCode distances
  return (literals, distances, s)

/-- Inflate one block of the given kind. -/
def block (fuel kind : Nat) (s : Bits) (out : Array UInt8) : Progress :=
  if kind = 0 then stored s out
  else if kind = 1 then symbols fixedLiterals fixedDistances fuel s out
  else if kind = 2 then
    match readCodes s with
    | .error fault => (out, .error fault)
    | .ok (literals, distances, s) => symbols literals distances fuel s out
  else (out, .error .damaged)

/-- Read whether a block is the last one, and its kind. -/
def blockHeader (s : Bits) : Except Fault (Bool × Nat × Bits) := do
  let (last, s) ← s.bit
  let (kind, s) ← s.number 2
  return (last, kind, s)

/-- Inflate blocks up to the last one. The first argument bounds their number and that of the
symbols in each. -/
def blocks : Nat → Bits → Array UInt8 → Progress
  | 0, _, out => (out, .error .truncated)
  | fuel + 1, s, out =>
    match blockHeader s with
    | .error fault => (out, .error fault)
    | .ok (last, kind, s) =>
      match block fuel kind s out with
      | (out, .error fault) => (out, .error fault)
      | (out, .ok s) => if last then (out, .ok s) else blocks fuel s out

/-- Inflate a stream: the output, and the bytes after the stream unless a fault ended it. -/
def run (stream : Bytes) : Array UInt8 × Except Fault Bytes :=
  match blocks (8 * stream.length + 1) ⟨stream, 0⟩ #[] with
  | (out, .ok s) => (out, .ok s.wholeBytes)
  | (out, .error fault) => (out, .error fault)

end Plexus.Inflate
