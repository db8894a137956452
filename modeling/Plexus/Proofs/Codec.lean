import Mathlib.Algebra.Group.Nat.Defs
import Plexus.Proofs.Outcome
import Plexus.Snapshot.BodyCodec

/-!
# Codecs are lossless

Reading what a codec wrote gives the value back and leaves what follows, whatever that is. Lengths
are written as words, so this holds as long as the bytes of a value can be counted by one.
-/

namespace Plexus

namespace Codec

variable {α β : Type} {c : Codec α} {d : Codec β}

/-- A written value is read back, and it takes at least one byte. -/
structure Lossless (c : Codec α) : Prop where
  read_write (a : α) (rest : Bytes) :
    (c.write a).length < 2 ^ 64 → c.read (c.write a ++ rest) = .ok (a, rest)
  write_pos (a : α) : 0 < (c.write a).length

/-- As many bytes as stand in front are those in front. -/
theorem takeBytes_append (front rest : Bytes) :
    takeBytes front.length (front ++ rest) = .ok (front, rest) := by
  simp [takeBytes]

/-- A word that fits its width is read back, whatever follows. -/
theorem read_word {width n : Nat} (h : n < 256 ^ width) (rest : Bytes) :
    (word width).read ((word width).write n ++ rest) = .ok (n, rest) := by
  have htake := takeBytes_append (Bytes.littleEndian width n) rest
  rw [Bytes.length_littleEndian] at htake
  have hvalue : Bytes.ofLittleEndian (Bytes.littleEndian width n) = n := by
    rw [Bytes.ofLittleEndian_littleEndian]
    exact Nat.mod_eq_of_lt h
  simp only [word, htake, bind, Except.bind, pure, Except.pure, hvalue]

theorem lossless_word32 : word32.Lossless where
  read_write a rest _ := by
    have hread := read_word (show a.toNat < 256 ^ 4 from a.toNat_lt) rest
    simp only [word32, map, hread, bind, Except.bind, pure, Except.pure, UInt32.ofNat_toNat]
  write_pos a := by simp [word32, map, word]

theorem lossless_word64 : word64.Lossless where
  read_write a rest _ := by
    have hread := read_word (show a.toNat < 256 ^ 8 from a.toNat_lt) rest
    simp only [word64, map, hread, bind, Except.bind, pure, Except.pure, UInt64.ofNat_toNat]
  write_pos a := by simp [word64, map, word]

/-- Truth values are read back. -/
theorem lossless_boolean : boolean.Lossless where
  read_write a rest _ := by cases a <;> rfl
  write_pos a := by simp [boolean]

/-- A codec that is carried over to another type along an embedding stays lossless. -/
theorem Lossless.map (h : c.Lossless) {there : α → β} {back : β → α}
    (hback : ∀ b, there (back b) = b) : (c.map there back).Lossless where
  read_write b rest hlen := by
    have hread := h.read_write (back b) rest hlen
    simp only [Codec.map, hread, bind, Except.bind, pure, Except.pure, hback]
  write_pos b := h.write_pos (back b)

/-- A pair is read back if both of its parts are. -/
theorem Lossless.pair (h : c.Lossless) (h' : d.Lossless) : (pair c d).Lossless where
  read_write p rest hlen := by
    simp only [Codec.pair, List.length_append] at hlen
    have hfirst := h.read_write p.1 (d.write p.2 ++ rest) (by omega)
    have hsecond := h'.read_write p.2 rest (by omega)
    simp only [Codec.pair, List.append_assoc, hfirst, hsecond, bind, Except.bind, pure, Except.pure]
  write_pos p := by
    have hpos := h.write_pos p.1
    simp only [Codec.pair, List.length_append]
    omega

/-- Values that are written one after the other are read back one after the other. -/
theorem Lossless.readMany (h : c.Lossless) (as : List α) (rest : Bytes)
    (hlen : (as.flatMap c.write).length < 2 ^ 64) :
    c.readMany as.length (as.flatMap c.write ++ rest) = .ok (as, rest) := by
  induction as with
  | nil => rfl
  | cons a as ih =>
    rw [List.flatMap_cons, List.length_append] at hlen
    have hfirst := h.read_write a (as.flatMap c.write ++ rest) (by omega)
    simp only [List.flatMap_cons, List.append_assoc, List.length_cons, Codec.readMany, hfirst,
      ih (by omega), bind, Except.bind, pure, Except.pure]

/-- There are no more values than bytes. -/
theorem Lossless.length_le (h : c.Lossless) (as : List α) :
    as.length ≤ (as.flatMap c.write).length := by
  induction as with
  | nil => exact Nat.le_refl 0
  | cons a as ih =>
    have hpos := h.write_pos a
    rw [List.flatMap_cons, List.length_append, List.length_cons]
    omega

/-- A list that is written behind its length is read back if its elements are. -/
theorem Lossless.list (h : c.Lossless) : (list c).Lossless where
  read_write as rest hlen := by
    simp only [Codec.list, List.length_append] at hlen
    have hcount := h.length_le as
    have hnumber := read_word (show as.length < 256 ^ 8 by omega) (as.flatMap c.write ++ rest)
    have hmany := h.readMany as rest (by omega)
    simp only [Codec.list, List.append_assoc, hnumber, bind, Except.bind, hmany]
  write_pos as := by
    simp only [Codec.list, word, List.length_append, Bytes.length_littleEndian]
    omega

/-- A block of bytes is read back. -/
theorem lossless_block : block.Lossless where
  read_write bytes rest hlen := by
    simp only [block, List.length_append] at hlen
    have hnumber := read_word (show bytes.length < 256 ^ 8 by omega) (bytes ++ rest)
    simp only [block, List.append_assoc, hnumber, bind, Except.bind, takeBytes_append]
  write_pos bytes := by
    simp only [block, word, List.length_append, Bytes.length_littleEndian]
    omega

private theorem toList_loop (bytes : ByteArray) (i : Nat) (seen : List UInt8) :
    ByteArray.toList.loop bytes i seen = seen.reverse ++ bytes.data.toList.drop i := by
  fun_induction ByteArray.toList.loop bytes i seen with
  | case1 i seen hi ih =>
    have hi' : i < bytes.data.toList.length := hi
    have hget : bytes.get! i = bytes.data.toList[i] := getElem!_pos bytes.data i hi
    rw [ih, List.drop_eq_getElem_cons hi', List.reverse_cons, List.append_assoc, hget,
      List.singleton_append]
  | case2 i seen hi =>
    have hi' : bytes.data.toList.length ≤ i := Nat.le_of_not_lt hi
    rw [List.drop_eq_nil_of_le hi', List.append_nil]

/-- A text has as many bytes as it says. -/
theorem length_utf8 (s : String) : s.toByteArray.toList.length = s.utf8ByteSize := by
  rw [ByteArray.toList, toList_loop]
  rfl

/-- A text is read back from its encoding. -/
theorem lossless_text : text.Lossless where
  read_write s rest hlen := by
    have hblock := lossless_block.read_write s.toByteArray.toList rest hlen
    have hbytes : (⟨s.toByteArray.toList.toArray⟩ : ByteArray) = s.toByteArray := by
      rw [ByteArray.toList, toList_loop]
      rfl
    have hvalid : String.fromUTF8? s.toByteArray = some s := by
      unfold String.fromUTF8?
      rw [dif_pos s.isValidUTF8]
      rfl
    simp only [text, hblock, bind, Except.bind, hbytes, hvalid, pure, Except.pure]
  write_pos s := lossless_block.write_pos _

private theorem read_tagged (tag : UInt32) (rest : Bytes) :
    word32.read (tagged tag rest) = .ok (tag, rest) :=
  lossless_word32.read_write tag rest (by simp [word32, map, word])

private theorem tagged_append (tag : UInt32) (front rest : Bytes) :
    tagged tag front ++ rest = tagged tag (front ++ rest) :=
  List.append_assoc _ _ _

private theorem length_tagged (tag : UInt32) (rest : Bytes) :
    (tagged tag rest).length = 4 + rest.length := by
  simp [tagged, word32, map, word]

/-- A property value is read back, whatever its kind. -/
theorem lossless_scalar : scalar.Lossless where
  read_write a rest hlen := by
    cases a with
    | null =>
      simp only [scalar, tagged_append, read_tagged, bind, Except.bind]
      rfl
    | boolean b =>
      simp only [scalar, length_tagged] at hlen
      have hvalue := lossless_boolean.read_write b rest (by omega)
      simp only [scalar, tagged_append, read_tagged, bind, Except.bind, hvalue]
      rfl
    | number x =>
      simp only [scalar, length_tagged] at hlen
      have hvalue := lossless_word64.read_write x.bits rest (by omega)
      simp only [scalar, tagged_append, read_tagged, bind, Except.bind, hvalue]
      rfl
    | text s =>
      simp only [scalar, length_tagged] at hlen
      have hvalue := lossless_text.read_write s rest (by omega)
      simp only [scalar, tagged_append, read_tagged, bind, Except.bind, hvalue]
      rfl
  write_pos a := by
    cases a <;> simp only [scalar, length_tagged] <;> omega

/-- A list of properties is read back. -/
theorem lossless_properties : properties.Lossless :=
  (lossless_word32.pair lossless_scalar).list

/-- The entry of a node slot is read back. -/
theorem lossless_nodeEntry : nodeEntry.Lossless where
  read_write entry rest hlen := by
    cases entry with
    | tombstone =>
      simp only [nodeEntry, tagged_append, read_tagged, bind, Except.bind]
      rfl
    | live labels ps =>
      simp only [nodeEntry, length_tagged] at hlen
      have hvalue := (lossless_word32.list.pair lossless_properties).read_write (labels, ps) rest
        (by omega)
      simp only [nodeEntry, tagged_append, read_tagged, bind, Except.bind, hvalue]
      rfl
  write_pos entry := by
    cases entry <;> simp only [nodeEntry, length_tagged] <;> omega

/-- The parts of a live edge are read back. -/
theorem lossless_edgeParts : edgeParts.Lossless :=
  lossless_word64.pair (lossless_word64.pair (lossless_word32.pair lossless_properties))

/-- The entry of an edge slot is read back. -/
theorem lossless_edgeEntry : edgeEntry.Lossless where
  read_write entry rest hlen := by
    cases entry with
    | tombstone =>
      simp only [edgeEntry, tagged_append, read_tagged, bind, Except.bind]
      rfl
    | live source target relationType ps =>
      simp only [edgeEntry, length_tagged] at hlen
      have hvalue := lossless_edgeParts.read_write (source, target, relationType, ps) rest
        (by omega)
      simp only [edgeEntry, tagged_append, read_tagged, bind, Except.bind, hvalue]
      rfl
  write_pos entry := by
    cases entry <;> simp only [edgeEntry, length_tagged] <;> omega

/-- The definition of an index is read back. -/
theorem lossless_indexEntry : indexEntry.Lossless :=
  (lossless_word32.pair lossless_word32).map fun _ => rfl

/-- The name tables are read back. -/
theorem lossless_tables : tables.Lossless :=
  lossless_text.list.pair (lossless_text.list.pair lossless_text.list)

/-- The body of a snapshot is read back. -/
theorem lossless_body : body.Lossless :=
  (lossless_tables.pair (lossless_nodeEntry.list.pair
    (lossless_edgeEntry.list.pair lossless_indexEntry.list))).map fun _ => rfl

end Codec

/-- A body is read back from its bytes. -/
theorem Body.ofBytes_toBytes (b : Body) (h : b.toBytes.length < 2 ^ 64) :
    Body.ofBytes b.toBytes = .ok b := by
  have hread := Codec.lossless_body.read_write b [] h
  rw [List.append_nil] at hread
  rw [ofBytes, toBytes, hread]
  rfl

end Plexus
