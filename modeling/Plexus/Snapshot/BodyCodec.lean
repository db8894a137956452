import Plexus.Snapshot.Body

/-!
# Snapshot bodies as bytes

Every part of a body has a codec. Alternatives start with a tag, a word of 32 bits that counts
them from zero in the order of their definition. Bytes after a body are ignored.
-/

namespace Plexus

namespace Codec

/-- A tag and what follows it. -/
def tagged (tag : UInt32) (rest : Bytes) : Bytes := word32.write tag ++ rest

/-- Property values: null, booleans, numbers as their words, and texts. -/
def scalar : Codec Scalar where
  write
    | .null => tagged 0 []
    | .boolean b => tagged 1 (boolean.write b)
    | .number x => tagged 2 (word64.write x.bits)
    | .text s => tagged 3 (text.write s)
  read bytes := do
    let (tag, rest) ← word32.read bytes
    if tag = 0 then return (.null, rest)
    else if tag = 1 then
      let (b, rest) ← boolean.read rest
      return (.boolean b, rest)
    else if tag = 2 then
      let (bits, rest) ← word64.read rest
      return (.number ⟨bits⟩, rest)
    else if tag = 3 then
      let (s, rest) ← text.read rest
      return (.text s, rest)
    else throw .unknownTag

/-- Listed properties. -/
def properties : Codec PropertyList := list (pair word32 scalar)

/-- Node slots. -/
def nodeEntry : Codec NodeEntry where
  write
    | .tombstone => tagged 0 []
    | .live ls ps => tagged 1 ((pair (list word32) properties).write (ls, ps))
  read bytes := do
    let (tag, rest) ← word32.read bytes
    if tag = 0 then return (.tombstone, rest)
    else if tag = 1 then
      let ((ls, ps), rest) ← (pair (list word32) properties).read rest
      return (.live ls ps, rest)
    else throw .unknownTag

/-- The parts of a live edge slot. -/
def edgeParts : Codec (UInt64 × UInt64 × UInt32 × PropertyList) :=
  pair word64 (pair word64 (pair word32 properties))

/-- Edge slots. -/
def edgeEntry : Codec EdgeEntry where
  write
    | .tombstone => tagged 0 []
    | .live source target relationType ps =>
      tagged 1 (edgeParts.write (source, target, relationType, ps))
  read bytes := do
    let (tag, rest) ← word32.read bytes
    if tag = 0 then return (.tombstone, rest)
    else if tag = 1 then
      let ((source, target, relationType, ps), rest) ← edgeParts.read rest
      return (.live source target relationType ps, rest)
    else throw .unknownTag

/-- Definitions of indices. -/
def indexEntry : Codec IndexEntry :=
  (pair word32 word32).map (fun p => ⟨p.1, p.2⟩) fun e => (e.label, e.property)

/-- The three name tables. -/
def tables : Codec (List String × List String × List String) :=
  pair (list text) (pair (list text) (list text))

/-- Bodies: the name tables, the node slots, the edge slots, and the indices. -/
def body : Codec Body :=
  (pair tables (pair (list nodeEntry) (pair (list edgeEntry) (list indexEntry)))).map
    (fun ((labels, types, properties), nodes, edges, indices) =>
      ⟨labels, types, properties, nodes, edges, indices⟩)
    fun b => ((b.labels, b.relationTypes, b.properties), b.nodes, b.edges, b.indices)

end Codec

namespace Body

/-- The bytes of a body. -/
def toBytes (b : Body) : Bytes := Codec.body.write b

/-- The body at the front of some bytes. -/
def ofBytes (bytes : Bytes) : Except ReadFault Body := (Codec.body.read bytes).map Prod.fst

end Body

end Plexus
