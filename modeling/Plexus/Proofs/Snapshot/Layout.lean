import Plexus.Proofs.Reader

/-!
# The layout of bodies

A body is laid out in words of fixed width, booleans of one byte, and texts. Alternatives start
with the number of their kind, and texts and sequences with their length. Nothing else delimits
the parts, and nothing else is needed: a body is read back whatever follows it, of a body that is
cut short nothing is read, and no body begins another one.
-/

namespace Plexus

/-- The smallest parts that bodies are written in. -/
inductive Atom where
  /-- A word of 32 bits: the number of an alternative, or an identifier in the name tables. -/
  | word32 (n : UInt32)
  /-- A word of 64 bits: the slot of a node, or the bits of a number. -/
  | word64 (n : UInt64)
  /-- How many things follow, as a word of 64 bits. -/
  | count (n : Nat)
  | boolean (b : Bool)
  | utf8 (s : String)

namespace Atom

/-- Words have all their bytes, least significant first. -/
def bytes : Atom → Bytes
  | word32 n => Bytes.littleEndian 4 n.toNat
  | word64 n => Bytes.littleEndian 8 n.toNat
  | count n => Bytes.littleEndian 8 n
  | boolean b => [if b then 1 else 0]
  | utf8 s => s.toByteArray.toList

/-- The bytes of parts one after the other. -/
def join (atoms : List Atom) : Bytes := atoms.flatMap bytes

/-- How many things there are, then each of them. -/
def sequence {α : Type} (atoms : α → List Atom) (as : List α) : List Atom :=
  count as.length :: as.flatMap atoms

/-- How many bytes a text has, then these. -/
def text (s : String) : List Atom := [count s.utf8ByteSize, utf8 s]

/-- The properties of a slot: for each its key, the kind of its value, and the value. -/
def properties : PropertyList → List Atom :=
  sequence fun (key, value) => word32 key ::
    match value with
    | .null => [word32 0]
    | .boolean b => [word32 1, boolean b]
    | .number x => [word32 2, word64 x.bits]
    | .text s => word32 3 :: text s

def nodeEntry : NodeEntry → List Atom
  | .tombstone => [word32 0]
  | .live labels ps => word32 1 :: (sequence (fun l => [word32 l]) labels ++ properties ps)

def edgeEntry : EdgeEntry → List Atom
  | .tombstone => [word32 0]
  | .live source target relationType ps =>
    [word32 1, word64 source, word64 target, word32 relationType] ++ properties ps

def indexEntry (entry : IndexEntry) : List Atom := [word32 entry.label, word32 entry.property]

end Atom

/-- The sections of a body: three name tables, the node slots, the edge slots, the indices. -/
def Body.atoms (b : Body) : List Atom :=
  Atom.sequence Atom.text b.labels ++ Atom.sequence Atom.text b.relationTypes ++
    Atom.sequence Atom.text b.properties ++ Atom.sequence Atom.nodeEntry b.nodes ++
    Atom.sequence Atom.edgeEntry b.edges ++ Atom.sequence Atom.indexEntry b.indices

namespace Codec

variable {α β : Type} {c : Codec α} {d : Codec β} {f : α → List Atom} {h : β → List Atom}

/-- Every value is written as its parts. -/
def Writes (c : Codec α) (atoms : α → List Atom) : Prop := ∀ a, c.write a = Atom.join (atoms a)

/-- A value in another form is written as the value in its own form. -/
theorem Writes.map (hc : c.Writes f) (there : α → β) (back : β → α) :
    (c.map there back).Writes fun b => f (back b) := fun b => hc (back b)

/-- A pair is written one part after the other. -/
theorem Writes.pair (hc : c.Writes f) (hd : d.Writes h) :
    (pair c d).Writes fun p => f p.1 ++ h p.2 := by
  intro p
  simp only [Codec.pair, hc p.1, hd p.2, Atom.join, List.flatMap_append]

/-- A list is written behind the number of its elements. -/
theorem Writes.list (hc : c.Writes f) : (list c).Writes (Atom.sequence f) := by
  intro as
  have hwrite : c.write = fun a => (f a).flatMap Atom.bytes := funext hc
  simp only [Codec.list, hwrite, Atom.sequence, Atom.join, List.flatMap_cons, List.flatMap_assoc]
  rfl

theorem writes_word32 : word32.Writes fun n => [.word32 n] := fun _ => (List.append_nil _).symm

theorem writes_word64 : word64.Writes fun n => [.word64 n] := fun _ => (List.append_nil _).symm

/-- A text is written behind the number of its bytes. -/
theorem writes_text : text.Writes Atom.text := by
  intro s
  simp only [text, block, word, length_utf8, Atom.text, Atom.join, Atom.bytes, List.flatMap_cons,
    List.flatMap_nil, List.append_nil]

/-- Properties are written key by key, each with its value. -/
theorem writes_properties : properties.Writes Atom.properties := by
  refine Writes.list fun p => ?_
  obtain ⟨key, value⟩ := p
  cases value with
  | null => rfl
  | boolean b => rfl
  | number x => simp [Codec.pair, scalar, tagged, writes_word32 _, writes_word64 _, Atom.join]
  | text s => simp [Codec.pair, scalar, tagged, writes_word32 _, writes_text _, Atom.join]

/-- The entry of a node slot is written behind the number of its kind. -/
theorem writes_nodeEntry : nodeEntry.Writes Atom.nodeEntry := by
  intro entry
  cases entry with
  | tombstone => rfl
  | live labels ps =>
    have hparts := writes_word32.list.pair writes_properties (labels, ps)
    simp only [nodeEntry, tagged, writes_word32 _, hparts, Atom.nodeEntry, Atom.join,
      List.flatMap_cons, List.flatMap_nil, List.append_nil]

/-- The entry of an edge slot is written behind the number of its kind. -/
theorem writes_edgeEntry : edgeEntry.Writes Atom.edgeEntry := by
  intro entry
  cases entry with
  | tombstone => rfl
  | live source target relationType ps =>
    have hparts := writes_word64.pair (writes_word64.pair (writes_word32.pair writes_properties))
      (source, target, relationType, ps)
    simp only [edgeEntry, tagged, edgeParts, writes_word32 _, hparts, Atom.edgeEntry, Atom.join,
      List.flatMap_cons, List.flatMap_nil, List.append_nil, List.cons_append, List.nil_append]

/-- The definition of an index is written as a label and a property. -/
theorem writes_indexEntry : indexEntry.Writes Atom.indexEntry := fun entry =>
  writes_word32.pair writes_word32 (entry.label, entry.property)

/-- A body is written part by part. -/
theorem writes_body : body.Writes Body.atoms := by
  intro b
  have htables := writes_text.list.pair (writes_text.list.pair writes_text.list)
  have hslots := writes_nodeEntry.list.pair (writes_edgeEntry.list.pair writes_indexEntry.list)
  have hparts := htables.pair hslots
    ((b.labels, b.relationTypes, b.properties), b.nodes, b.edges, b.indices)
  refine hparts.trans ?_
  simp only [Body.atoms, List.append_assoc]

end Codec

namespace Body

/-- A body is written part by part, and its bytes delimit themselves: they are read back whatever
follows them, nothing is read if they are cut short, and they begin those of no other body. The
lengths of all parts are words if that of the whole is one. -/
theorem delimits_itself (b : Body) (h : b.toBytes.length < 2 ^ 64) :
    b.toBytes = Atom.join b.atoms ∧
      (∀ rest, ofBytes (b.toBytes ++ rest) = .ok b) ∧
      (∀ front, front <+: b.toBytes → front ≠ b.toBytes → ofBytes front = .error .truncated) ∧
      ∀ other : Body, other.toBytes.length < 2 ^ 64 → b.toBytes <+: other.toBytes → b = other := by
  refine ⟨Codec.writes_body b, fun rest => ?_, fun front hfront hcut => ?_, fun other hother => ?_⟩
  · rw [ofBytes, toBytes, Codec.lossless_body.read_write b rest h]
    rfl
  · rw [ofBytes, Codec.lossless_body.read_front Codec.steady_body h hfront hcut]
    rfl
  · exact Codec.lossless_body.eq_of_prefix h hother

/-- A body with every kind of value, among them a NaN with a payload and a text of several bytes,
is read back before other bytes, and not without its last byte. -/
theorem delimits_itself_of_every_kind :
    let b : Body := ⟨["A", "A"], ["R"], ["k"],
      [.live [1, 0, 1] [(0, .null), (0, .boolean true), (7, .number ⟨0x7ff8000000000123⟩)],
        .tombstone, .live [] [(0, .text "né")]],
      [.tombstone, .live 2 0 0 [(0, .boolean false)]], [⟨1, 0⟩, ⟨1, 0⟩]⟩
    b.toBytes.length < 2 ^ 64 ∧ ofBytes (b.toBytes ++ [1, 2]) = .ok b ∧
      ofBytes b.toBytes.dropLast = .error .truncated := by
  intro b
  have hlength : b.toBytes.length < 2 ^ 64 := by decide +kernel
  obtain ⟨-, hread, hcut, -⟩ := delimits_itself b hlength
  exact ⟨hlength, hread [1, 2], hcut _ (List.dropLast_prefix _) (by decide +kernel)⟩

end Body

end Plexus
