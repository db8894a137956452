import Plexus.Proofs.Graph.Reachable
import Plexus.Proofs.Snapshot.File

/-!
# Damaged snapshots

A snapshot that is cut short, lengthened, or changed in one byte is refused, and what it is refused
with tells where the damage is. The one bit that is not guarded is the flag that says whether the
body is compressed.
-/

namespace Plexus

namespace Bytes

/-- Bytes make a number that fits as many of them. -/
theorem ofLittleEndian_lt (bytes : Bytes) : ofLittleEndian bytes < 256 ^ bytes.length := by
  induction bytes with
  | nil => simp [ofLittleEndian]
  | cons b rest ih =>
    have hb := b.toNat_lt
    rw [ofLittleEndian, List.length_cons, Nat.pow_succ]
    omega

/-- Bytes of one number that are equally many are the same. -/
theorem eq_of_ofLittleEndian_eq {bytes others : Bytes} (hlength : bytes.length = others.length)
    (h : ofLittleEndian bytes = ofLittleEndian others) : bytes = others := by
  induction bytes generalizing others with
  | nil => exact (List.eq_nil_of_length_eq_zero hlength.symm).symm
  | cons b rest ih =>
    cases others with
    | nil => cases hlength
    | cons c more =>
      have hb := b.toNat_lt
      have hc := c.toNat_lt
      simp only [ofLittleEndian, List.length_cons, Nat.add_right_cancel_iff] at h hlength
      have hrest := ih hlength (by omega)
      have hfirst : b = c := UInt8.toNat_inj.1 (by omega)
      rw [hfirst, hrest]

/-- The same holds if the number is cut off at what so many bytes can say. -/
theorem eq_of_ofLittleEndian_mod_eq {bytes others : Bytes} {width : Nat}
    (hwidth : bytes.length = width) (hwidth' : others.length = width)
    (h : ofLittleEndian bytes % 256 ^ width = ofLittleEndian others % 256 ^ width) :
    bytes = others := by
  have hlt := ofLittleEndian_lt bytes
  have hlt' := ofLittleEndian_lt others
  rw [hwidth] at hlt
  rw [hwidth'] at hlt'
  rw [Nat.mod_eq_of_lt hlt, Nat.mod_eq_of_lt hlt'] at h
  exact eq_of_ofLittleEndian_eq (hwidth.trans hwidth'.symm) h

end Bytes

namespace Header.Fields

variable (f : Fields) (i : Nat) (b : UInt8)

/-- One byte of the mark is changed. -/
def setMark : Fields :=
  { f with mark := f.mark.set i b, length_mark := by rw [List.length_set, f.length_mark] }

/-- One byte of the version is changed. -/
def setVersion : Fields :=
  { f with
    version := f.version.set i b
    length_version := by rw [List.length_set, f.length_version] }

/-- One byte of the length is changed. -/
def setBodyLength : Fields :=
  { f with
    bodyLength := f.bodyLength.set i b
    length_bodyLength := by rw [List.length_set, f.length_bodyLength] }

variable {i}

theorem bytes_setMark (hi : i < 4) : (f.setMark i b).bytes = f.bytes.set i b := by
  have hmark : i < f.mark.length := by rwa [f.length_mark]
  rw [bytes, bytes, List.append_assoc, List.append_assoc, List.set_append_left _ _ hmark]
  rfl

theorem bytes_setVersion (hi : i < 2) : (f.setVersion i b).bytes = f.bytes.set (4 + i) b := by
  have hversion : i < f.version.length := by rwa [f.length_version]
  rw [bytes, bytes, List.append_assoc, List.append_assoc, ← f.length_mark,
    List.set_append_right _ _ (Nat.le_add_right _ _), Nat.add_sub_cancel_left,
    List.set_append_left _ _ hversion]
  rfl

theorem bytes_setFlags : { f with flags := b }.bytes = f.bytes.set 6 b := by
  have hfront : (f.mark ++ f.version).length = 6 := by
    rw [List.length_append, f.length_mark, f.length_version]
  rw [bytes, bytes, List.set_append_right _ _ (Nat.le_of_eq hfront), hfront]
  rfl

theorem bytes_setBodyLength : (f.setBodyLength i b).bytes = f.bytes.set (7 + i) b := by
  have hfront : (f.mark ++ f.version).length = 6 := by
    rw [List.length_append, f.length_mark, f.length_version]
  have hi : 7 + i - 6 = i + 1 := by omega
  rw [bytes, bytes, List.set_append_right _ _ (by omega), hfront, hi]
  rfl

end Header.Fields

namespace Snapshot

variable {bytes stored : Bytes} {header : Header} {fault : SnapshotFault} {i : Nat} {b : UInt8}

/-- Bytes whose header is refused are refused for the same reason. -/
theorem decode_of_parse (h : Header.parse bytes = .error fault) (settings : TraversalSettings) :
    decode bytes settings = .error fault := by
  simp only [decode, decodeBody, h, bind, Except.bind]

/-- Bytes that do not split as their header says are refused for the same reason. -/
theorem decode_of_split (h : Header.parse bytes = .ok header)
    (h' : split header bytes = .error fault) (settings : TraversalSettings) :
    decode bytes settings = .error fault := by
  simp only [decode, decodeBody, h, h', bind, Except.bind]

private theorem split_of_bodyLength (hlength : bytes.length = Header.size + stored.length +
    digestSize) (hne : header.bodyLength.toNat ≠ stored.length) :
    (∃ expected, split header bytes = .error (.truncated expected bytes.length)) ∨
      ∃ cause, split header bytes = .error (.corrupt cause) := by
  unfold split
  dsimp only
  split_ifs with hmax hshort hlong
  · exact .inr ⟨_, rfl⟩
  · exact .inl ⟨_, rfl⟩
  · exact .inr ⟨_, rfl⟩
  all_goals omega

/-- What reading makes of some bytes if they are cut short, go on, or are changed in one byte; the
stored bytes are those between the header and the digest. -/
structure Guarded (bytes stored : Bytes) (settings : TraversalSettings) : Prop where
  length_eq : bytes.length = Header.size + stored.length + digestSize
  cut (n : Nat) : n < bytes.length → decode (bytes.take n) settings =
    .error (.truncated (if n < Header.size then Header.size else bytes.length) n)
  lengthened (more : Bytes) : more ≠ [] →
    decode (bytes ++ more) settings = .error (.corrupt (.trailingBytes more.length))
  mark (i : Nat) (b : UInt8) : i < 4 → bytes.set i b ≠ bytes →
    decode (bytes.set i b) settings = .error .badMagic
  version (i : Nat) (b : UInt8) : 4 ≤ i → i < 6 → bytes.set i b ≠ bytes →
    ∃ found, found ≠ Header.formatVersion ∧
      decode (bytes.set i b) settings = .error (.version found)
  flags (b : UInt8) : b &&& ~~~Header.compressionFlag ≠ 0 →
    decode (bytes.set 6 b) settings = .error (.unknownFlags b)
  bodyLength (i : Nat) (b : UInt8) : 7 ≤ i → i < Header.size → bytes.set i b ≠ bytes →
    (∃ expected, decode (bytes.set i b) settings = .error (.truncated expected bytes.length)) ∨
      ∃ cause, decode (bytes.set i b) settings = .error (.corrupt cause)
  body (i : Nat) (b : UInt8) : i < stored.length →
    Sha256.digest (stored.set i b) ≠ Sha256.digest stored →
      decode (bytes.set (Header.size + i) b) settings = .error .checksum
  digest (i : Nat) (b : UInt8) : Header.size + stored.length ≤ i → bytes.set i b ≠ bytes →
    decode (bytes.set i b) settings = .error .checksum

namespace Intact

variable (h : Intact bytes header stored) (settings : TraversalSettings)

include h

private theorem take_of_lt {n : Nat} (hn : n < Header.size) :
    Header.parse (bytes.take n) = .error (.truncated Header.size n) := by
  have hlength : (bytes.take n).length = n := by
    have hall := h.length_eq
    rw [List.length_take]
    omega
  have hmark : bytes.take 4 = Header.magic := by
    rw [h.bytes_eq]
    rfl
  have hseen : (bytes.take n).take (min n 4) = Header.magic.take (min n 4) := by
    rw [← hmark, List.take_take, List.take_take]
    congr 1
    omega
  unfold Header.parse
  rw [hlength]
  have hfour : Header.magic.length = 4 := rfl
  simp only [hfour, hseen, ne_eq, not_true_eq_false, if_false, if_pos hn]

/-- A snapshot that is cut short is refused as truncated, with the length that it should have. -/
theorem cut {n : Nat} (hn : n < bytes.length) : decode (bytes.take n) settings =
    .error (.truncated (if n < Header.size then Header.size else bytes.length) n) := by
  by_cases hheader : n < Header.size
  · rw [if_pos hheader]
    exact decode_of_parse (h.take_of_lt hheader) settings
  · -- The whole header is there, and says how long the snapshot was.
    have hparse : Header.parse (bytes.take n) = .ok header := by
      have hfront : bytes.take n =
          header.toBytes ++ (stored ++ Sha256.digest stored).take (n - Header.size) := by
        rw [h.bytes_eq, List.append_assoc, List.take_append, header.length_toBytes,
          List.take_of_length_le (by rw [header.length_toBytes]; omega)]
      rw [hfront]
      exact Header.parse_toBytes h.version h.flags _
    have hall := h.length_eq
    have hmax := h.addressable
    have hlength : (bytes.take n).length = n := by
      rw [List.length_take]
      omega
    rw [if_neg hheader]
    refine decode_of_split hparse ?_ settings
    unfold Snapshot.split
    rw [h.bodyLength, ← hall, hlength, if_neg (Nat.not_lt.2 hmax), if_pos hn]

/-- A snapshot with more bytes behind it is refused as corrupt, with the number of these bytes. -/
theorem lengthened {more : Bytes} (hmore : more ≠ []) :
    decode (bytes ++ more) settings = .error (.corrupt (.trailingBytes more.length)) := by
  have hparse : Header.parse (bytes ++ more) = .ok header := by
    rw [h.bytes_eq, List.append_assoc, List.append_assoc]
    exact Header.parse_toBytes h.version h.flags _
  have hpos := List.length_pos_of_ne_nil hmore
  refine decode_of_split hparse ?_ settings
  unfold Snapshot.split
  rw [h.bodyLength, ← h.length_eq, List.length_append, if_neg (Nat.not_lt.2 h.addressable),
    if_neg (by omega), if_pos (by omega), Nat.add_sub_cancel_left]

/-- The snapshot with other fields in its header. -/
theorem set_of_fields {f : Header.Fields} (hi : i < Header.size)
    (hf : f.bytes = header.fields.bytes.set i b) :
    bytes.set i b = f.bytes ++ (stored ++ Sha256.digest stored) := by
  rw [h.bytes_eq, List.append_assoc, hf, Header.bytes_fields,
    List.set_append_left _ _ (by rwa [header.length_toBytes])]

private theorem fields_ne {f : Header.Fields} (hi : i < Header.size)
    (hf : f.bytes = header.fields.bytes.set i b) (hne : bytes.set i b ≠ bytes) :
    f.bytes ≠ header.fields.bytes := by
  intro heq
  rw [h.set_of_fields hi hf, heq, Header.bytes_fields, ← List.append_assoc] at hne
  exact hne h.bytes_eq.symm

/-- A snapshot with another mark is refused for it. -/
theorem mark (hi : i < 4) (hne : bytes.set i b ≠ bytes) :
    decode (bytes.set i b) settings = .error .badMagic := by
  have hsize : i < Header.size := Nat.lt_trans hi (by decide)
  have hf := header.fields.bytes_setMark b hi
  have hmark : (header.fields.setMark i b).mark ≠ Header.magic := by
    intro heq
    refine h.fields_ne hsize hf hne ?_
    rw [Header.Fields.bytes, heq]
    rfl
  rw [h.set_of_fields hsize hf]
  refine decode_of_parse ?_ settings
  rw [Header.Fields.parse_bytes, if_pos hmark]

/-- A snapshot with another version is refused for that version. -/
theorem version_set (hlow : 4 ≤ i) (hhigh : i < 6) (hne : bytes.set i b ≠ bytes) :
    ∃ found, found ≠ Header.formatVersion ∧
      decode (bytes.set i b) settings = .error (.version found) := by
  obtain ⟨j, rfl⟩ := Nat.exists_eq_add_of_le hlow
  have hsize : 4 + j < Header.size := Nat.lt_trans hhigh (by decide)
  have hf := header.fields.bytes_setVersion b (by omega : j < 2)
  have hmark : (header.fields.setVersion j b).mark = Header.magic := rfl
  have hfound : UInt16.ofNat (Bytes.ofLittleEndian (header.fields.setVersion j b).version) ≠
      Header.formatVersion := by
    intro heq
    refine h.fields_ne hsize hf hne ?_
    have hnumber := congrArg UInt16.toNat (heq.trans (Header.version_fields h.version).symm)
    rw [UInt16.toNat_ofNat', UInt16.toNat_ofNat'] at hnumber
    have hbytes := Bytes.eq_of_ofLittleEndian_mod_eq (header.fields.setVersion j b).length_version
      header.fields.length_version hnumber
    rw [Header.Fields.bytes, hbytes]
    rfl
  refine ⟨_, hfound, ?_⟩
  rw [h.set_of_fields hsize hf]
  refine decode_of_parse ?_ settings
  rw [Header.Fields.parse_bytes, if_neg (not_not.2 hmark)]
  exact if_pos hfound

/-- A snapshot with an unknown flag is refused for its flags. -/
theorem flags_set (hb : b &&& ~~~Header.compressionFlag ≠ 0) :
    decode (bytes.set 6 b) settings = .error (.unknownFlags b) := by
  have hsize : 6 < Header.size := by decide
  have hf := header.fields.bytes_setFlags b
  have hmark : header.fields.mark = Header.magic := rfl
  rw [h.set_of_fields hsize hf]
  refine decode_of_parse ?_ settings
  rw [Header.Fields.parse_bytes, if_neg (not_not.2 hmark)]
  simp only [Header.version_fields h.version, ne_eq, not_true_eq_false, if_false]
  exact if_pos hb

/-- A snapshot that says another length of its body is refused as truncated or as corrupt. -/
theorem bodyLength_set (hlow : 7 ≤ i) (hhigh : i < Header.size) (hne : bytes.set i b ≠ bytes) :
    (∃ expected, decode (bytes.set i b) settings = .error (.truncated expected bytes.length)) ∨
      ∃ cause, decode (bytes.set i b) settings = .error (.corrupt cause) := by
  obtain ⟨j, rfl⟩ := Nat.exists_eq_add_of_le hlow
  have hf := header.fields.bytes_setBodyLength b (i := j)
  have hmark : (header.fields.setBodyLength j b).mark = Header.magic := rfl
  let other : Header := { header with
    bodyLength := UInt64.ofNat (Bytes.ofLittleEndian (header.fields.setBodyLength j b).bodyLength) }
  have hother : other.bodyLength.toNat ≠ stored.length := by
    intro heq
    have hnumber := heq.trans h.bodyLength.symm
    rw [← header.bodyLength_fields, UInt64.toNat_ofNat', UInt64.toNat_ofNat'] at hnumber
    have hbytes := Bytes.eq_of_ofLittleEndian_mod_eq
      (header.fields.setBodyLength j b).length_bodyLength header.fields.length_bodyLength hnumber
    refine h.fields_ne hhigh hf hne ?_
    rw [Header.Fields.bytes, hbytes]
    rfl
  have hparse : Header.parse (bytes.set (7 + j) b) = .ok other := by
    have hversion : UInt16.ofNat (Bytes.ofLittleEndian (header.fields.setBodyLength j b).version) =
        Header.formatVersion := Header.version_fields h.version
    have hflags : (header.fields.setBodyLength j b).flags = header.flags := rfl
    rw [h.set_of_fields hhigh hf, Header.Fields.parse_bytes, if_neg (not_not.2 hmark)]
    simp only [hversion, hflags, h.flags, ne_eq, not_true_eq_false, if_false]
    rw [← h.version]
  have hlength : (bytes.set (7 + j) b).length = Header.size + stored.length + digestSize := by
    rw [List.length_set, h.length_eq]
  rcases split_of_bodyLength hlength hother with ⟨expected, hsplit⟩ | ⟨cause, hsplit⟩
  · rw [List.length_set] at hsplit
    exact .inl ⟨expected, decode_of_split hparse hsplit settings⟩
  · exact .inr ⟨cause, decode_of_split hparse hsplit settings⟩

/-- Any bytes of the right lengths behind the header are compared with their digest. -/
theorem decode_of_digest {stored' digest : Bytes} (hlength : stored'.length = stored.length)
    (hdigest : digest.length = digestSize) (hne : Sha256.digest stored' ≠ digest) :
    decode (header.toBytes ++ stored' ++ digest) settings = .error .checksum := by
  have hparse := Header.parse_toBytes h.version h.flags (stored' ++ digest)
  have hmax : (header.toBytes ++ stored' ++ digest).length ≤ maxLength := by
    have hall := h.addressable
    rw [h.length_eq] at hall
    rw [List.length_append, List.length_append, header.length_toBytes, hlength, hdigest]
    exact hall
  rw [← List.append_assoc] at hparse
  refine decode_of_split hparse ?_ settings
  rw [split_append header.length_toBytes (h.bodyLength.trans hlength.symm) hdigest hmax, if_neg hne]

/-- A snapshot with another byte in its body is refused if the digest of the body is another one. -/
theorem body_set (hi : i < stored.length)
    (hne : Sha256.digest (stored.set i b) ≠ Sha256.digest stored) :
    decode (bytes.set (Header.size + i) b) settings = .error .checksum := by
  have hset : bytes.set (Header.size + i) b =
      header.toBytes ++ stored.set i b ++ Sha256.digest stored := by
    rw [h.bytes_eq, List.append_assoc, ← header.length_toBytes,
      List.set_append_right _ _ (Nat.le_add_right _ _), Nat.add_sub_cancel_left,
      List.set_append_left _ _ hi, List.append_assoc]
  rw [hset]
  exact h.decode_of_digest settings List.length_set (Sha256.length_digest stored) hne

/-- A snapshot with another byte in its digest is refused for its digest. -/
theorem digest_set (hi : Header.size + stored.length ≤ i) (hne : bytes.set i b ≠ bytes) :
    decode (bytes.set i b) settings = .error .checksum := by
  obtain ⟨j, rfl⟩ := Nat.exists_eq_add_of_le hi
  have hset : bytes.set (Header.size + stored.length + j) b =
      header.toBytes ++ stored ++ (Sha256.digest stored).set j b := by
    have hfront : (header.toBytes ++ stored).length = Header.size + stored.length := by
      rw [List.length_append, header.length_toBytes]
    rw [h.bytes_eq, ← hfront, List.set_append_right _ _ (Nat.le_add_right _ _),
      Nat.add_sub_cancel_left]
  have hdigest : Sha256.digest stored ≠ (Sha256.digest stored).set j b := by
    intro heq
    rw [hset, ← heq] at hne
    exact hne h.bytes_eq.symm
  have hlength : ((Sha256.digest stored).set j b).length = 32 :=
    List.length_set.trans (Sha256.length_digest stored)
  rw [hset]
  exact h.decode_of_digest settings rfl hlength hdigest

/-- Damage is found in all of what was put together. -/
theorem guarded : Guarded bytes stored settings where
  length_eq := h.length_eq
  cut _ := h.cut settings
  lengthened _ := h.lengthened settings
  mark _ _ := h.mark settings
  version _ _ := h.version_set settings
  flags _ := h.flags_set settings
  bodyLength _ _ := h.bodyLength_set settings
  body _ _ := h.body_set settings
  digest _ _ := h.digest_set settings

end Intact

/-- The snapshot of any graph, compressed or not, is refused once it is damaged: cut short anywhere,
lengthened, or changed in any byte but for the flag of a compressed body. -/
theorem guarded_encodeWith (deflate : Nat → Bytes → Bytes) (g : Graph) (settings : SnapshotSettings)
    (hmax : (encodeWith deflate g settings).length ≤ maxLength) (traversal : TraversalSettings) :
    Guarded (encodeWith deflate g settings) (payload deflate settings (Body.ofGraph g).toBytes)
      traversal :=
  (intact_encodeWith hmax).guarded traversal

set_option maxRecDepth 4000 in
/-- Damage of every kind to the compressed snapshot of a graph with one node. -/
theorem guarded_encode_of_one_node :
    let g := Graph.after (.empty {}) (.createNode ["A"] [("n", .text "x")])
    let bytes := encode g ⟨true, 9⟩
    decode (bytes.take 3) {} = .error (.truncated 15 3) ∧
      decode (bytes.take 184) {} = .error (.truncated 185 184) ∧
      decode (bytes ++ [0]) {} = .error (.corrupt (.trailingBytes 1)) ∧
      decode (bytes.set 3 0) {} = .error .badMagic ∧
      (∃ found, found ≠ 1 ∧ decode (bytes.set 5 9) {} = .error (.version found)) ∧
      decode (bytes.set 6 3) {} = .error (.unknownFlags 3) ∧
      ((∃ expected, decode (bytes.set 8 1) {} = .error (.truncated expected 185)) ∨
        ∃ cause, decode (bytes.set 8 1) {} = .error (.corrupt cause)) ∧
      decode (bytes.set 16 1) {} = .error .checksum ∧
      decode (bytes.set 184 (bytes.getLastD 0 + 1)) {} = .error .checksum := by
  intro g bytes
  have h : Guarded bytes (payload Gzip.write ⟨true, 9⟩ (Body.ofGraph g).toBytes) {} :=
    guarded_encodeWith Gzip.write g ⟨true, 9⟩ (by decide +kernel) {}
  have hlength : bytes.length = 185 := by decide +kernel
  refine ⟨h.cut 3 (by omega), ?_, h.lengthened [0] (by decide),
    h.mark 3 0 (by decide) (by decide +kernel),
    h.version 5 9 (by decide) (by decide) (by decide +kernel), h.flags 3 (by decide), ?_,
    h.body 1 1 (by decide +kernel) (by decide +kernel),
    h.digest 184 _ (by decide +kernel) (by decide +kernel)⟩
  · rw [h.cut 184 (by omega), hlength]
    rfl
  · rw [← hlength]
    exact h.bodyLength 8 1 (by decide) (by decide) (by decide +kernel)

end Snapshot

end Plexus
