import Plexus.Proofs.Codec
import Plexus.Proofs.Gzip
import Plexus.Proofs.Graph.Restore

/-!
# Snapshot files are read back

Taking apart what was put together: the header is parsed, the stored bytes are split off and
found right, inflated if they were deflated, and read as the body they were written from.
-/

namespace Plexus

namespace Header

/-- The fields of a header as bytes, whether or not they are those of a proper one. -/
structure Fields where
  mark : Bytes
  version : Bytes
  flags : UInt8
  bodyLength : Bytes
  length_mark : mark.length = 4
  length_version : version.length = 2
  length_bodyLength : bodyLength.length = 8

namespace Fields

variable (f : Fields)

def bytes : Bytes := f.mark ++ f.version ++ f.flags :: f.bodyLength

theorem length_bytes : f.bytes.length = size := by
  simp [bytes, f.length_mark, f.length_version, f.length_bodyLength, size]

/-- The fields are checked one after the other, and whatever follows them is not looked at. -/
theorem parse_bytes (rest : Bytes) :
    parse (f.bytes ++ rest) =
      if f.mark ≠ magic then .error .badMagic
      else
        let version := UInt16.ofNat (Bytes.ofLittleEndian f.version)
        if version ≠ formatVersion then .error (.version version)
        else if f.flags &&& ~~~compressionFlag ≠ 0 then .error (.unknownFlags f.flags)
        else .ok ⟨version, f.flags, UInt64.ofNat (Bytes.ofLittleEndian f.bodyLength)⟩ := by
  have hsize : ¬(f.bytes ++ rest).length < size := by
    rw [List.length_append, f.length_bytes]
    omega
  have hseen : min (f.bytes ++ rest).length magic.length = 4 := by
    rw [Nat.min_eq_right (Nat.le_trans (by decide) (Nat.not_lt.1 hsize))]
    rfl
  have hall : f.bytes ++ rest = f.mark ++ (f.version ++ ([f.flags] ++ (f.bodyLength ++ rest))) := by
    simp [bytes]
  have hmark : (f.bytes ++ rest).take 4 = f.mark := by
    rw [hall, List.take_left' f.length_mark]
  have hversion : ((f.bytes ++ rest).drop 4).take 2 = f.version := by
    rw [hall, List.drop_left' f.length_mark, List.take_left' f.length_version]
  have hflags : ((f.bytes ++ rest).drop 6).headD 0 = f.flags := by
    rw [hall, ← List.append_assoc, List.drop_left' (by simp [f.length_mark, f.length_version])]
    rfl
  have hlength : ((f.bytes ++ rest).drop 7).take 8 = f.bodyLength := by
    rw [hall, ← List.append_assoc, ← List.append_assoc,
      List.drop_left' (by simp [f.length_mark, f.length_version]),
      List.take_left' f.length_bodyLength]
  unfold parse
  simp only [hseen, hmark, if_neg hsize, hversion, hflags, hlength]
  rfl

end Fields

/-- The fields of a header. -/
def fields (h : Header) : Fields where
  mark := magic
  version := Bytes.littleEndian 2 h.version.toNat
  flags := h.flags
  bodyLength := Bytes.littleEndian 8 h.bodyLength.toNat
  length_mark := rfl
  length_version := Bytes.length_littleEndian _ _
  length_bodyLength := Bytes.length_littleEndian _ _

theorem bytes_fields (h : Header) : h.fields.bytes = h.toBytes := rfl

theorem length_toBytes (h : Header) : h.toBytes.length = size := h.fields.length_bytes

/-- The version of a header is read back from its fields. -/
theorem version_fields {h : Header} (hversion : h.version = formatVersion) :
    UInt16.ofNat (Bytes.ofLittleEndian h.fields.version) = formatVersion := by
  rw [fields, hversion]
  rfl

/-- The length of the body is read back from the fields of a header. -/
theorem bodyLength_fields (h : Header) :
    UInt64.ofNat (Bytes.ofLittleEndian h.fields.bodyLength) = h.bodyLength := by
  have hmod : h.bodyLength.toNat % Nat.pow 256 8 = h.bodyLength.toNat :=
    Nat.mod_eq_of_lt h.bodyLength.toNat_lt
  rw [fields, Bytes.ofLittleEndian_littleEndian, hmod, UInt64.ofNat_toNat]

/-- A header that can be written is parsed, whatever follows it. -/
theorem parse_toBytes {h : Header} (hversion : h.version = formatVersion)
    (hflags : h.flags &&& ~~~compressionFlag = 0) (rest : Bytes) :
    parse (h.toBytes ++ rest) = .ok h := by
  have hmark : h.fields.mark = magic := rfl
  have hflag : h.fields.flags = h.flags := rfl
  rw [← bytes_fields, Fields.parse_bytes]
  simp only [hmark, hflag, version_fields hversion, bodyLength_fields, hflags, ne_eq,
    not_true_eq_false, if_false]
  rw [← hversion]

end Header

namespace Snapshot

variable {deflate : Nat → Bytes → Bytes} {g : Graph} {settings : SnapshotSettings}

/-- Bytes are put together as snapshots are: a proper header, as many stored bytes as it says, and
their digest. -/
structure Intact (bytes : Bytes) (header : Header) (stored : Bytes) : Prop where
  bytes_eq : bytes = header.toBytes ++ stored ++ Sha256.digest stored
  version : header.version = Header.formatVersion
  flags : header.flags &&& ~~~Header.compressionFlag = 0
  bodyLength : header.bodyLength.toNat = stored.length
  addressable : bytes.length ≤ maxLength

/-- The header of the snapshot of a graph. -/
def headerOf (deflate : Nat → Bytes → Bytes) (g : Graph) (settings : SnapshotSettings) :
    Header where
  version := Header.formatVersion
  flags := if settings.compress then Header.compressionFlag else 0
  bodyLength := UInt64.ofNat (payload deflate settings (Body.ofGraph g).toBytes).length

/-- The snapshot of a graph is intact if it can be addressed. -/
theorem intact_encodeWith (hmax : (encodeWith deflate g settings).length ≤ maxLength) :
    Intact (encodeWith deflate g settings) (headerOf deflate g settings)
      (payload deflate settings (Body.ofGraph g).toBytes) where
  bytes_eq := rfl
  version := rfl
  flags := by
    show (if settings.compress = true then Header.compressionFlag else 0) &&&
      ~~~Header.compressionFlag = 0
    cases settings.compress <;> decide
  bodyLength := by
    have hlength : (payload deflate settings (Body.ofGraph g).toBytes).length ≤ maxLength := by
      refine Nat.le_trans ?_ hmax
      rw [encodeWith, List.length_append, List.length_append]
      omega
    exact Nat.mod_eq_of_lt (Nat.lt_of_le_of_lt hlength (show maxLength < 2 ^ 64 by decide))
  addressable := hmax

/-- The stored bytes are split off, and handed on if the digest is theirs. -/
theorem split_append {header : Header} {front stored digest : Bytes}
    (hfront : front.length = Header.size) (hlength : header.bodyLength.toNat = stored.length)
    (hdigest : digest.length = digestSize)
    (hmax : (front ++ stored ++ digest).length ≤ maxLength) :
    split header (front ++ stored ++ digest) =
      if Sha256.digest stored = digest then .ok stored else .error .checksum := by
  have hall : (front ++ stored ++ digest).length =
      Header.size + stored.length + digestSize := by
    rw [List.length_append, List.length_append, hfront, hdigest]
  have hstored : ((front ++ stored ++ digest).drop Header.size).take stored.length = stored := by
    rw [List.append_assoc, List.drop_left' hfront, List.take_left]
  have hrest : (front ++ stored ++ digest).drop (Header.size + stored.length) = digest :=
    List.drop_left' (by rw [List.length_append, hfront])
  rw [hall] at hmax
  unfold split
  simp only [hlength, hall, hstored, hrest, if_neg (Nat.not_lt.2 hmax), Nat.lt_irrefl, if_false]

namespace Intact

variable {bytes stored : Bytes} {header : Header}

/-- A snapshot is its header, its body and the digest. -/
theorem length_eq (h : Intact bytes header stored) :
    bytes.length = Header.size + stored.length + digestSize := by
  rw [h.bytes_eq, List.length_append, List.length_append, Header.length_toBytes,
    Sha256.length_digest, digestSize]

/-- The header of a snapshot is read back. -/
theorem parse (h : Intact bytes header stored) : Header.parse bytes = .ok header := by
  rw [h.bytes_eq, List.append_assoc]
  exact Header.parse_toBytes h.version h.flags _

/-- The body of a snapshot is found behind its header. -/
theorem split (h : Intact bytes header stored) : Snapshot.split header bytes = .ok stored := by
  have hmax := h.addressable
  rw [h.bytes_eq] at hmax ⊢
  rw [split_append header.length_toBytes h.bodyLength (Sha256.length_digest stored) hmax,
    if_pos rfl]

end Intact

private theorem inflate_payload (hd : Gzip.Inflates deflate maxRatio) {level : Nat}
    (hlevel : level ≤ 9) {bytes : Bytes} (hbytes : bytes.length ≤ maxLength) :
    inflate (Bytes.littleEndian 8 bytes.length ++ deflate level bytes) = .ok bytes := by
  have htake : (Bytes.littleEndian 8 bytes.length ++ deflate level bytes).take 8 =
      Bytes.littleEndian 8 bytes.length :=
    List.take_left' (Bytes.length_littleEndian 8 _)
  have hdrop : (Bytes.littleEndian 8 bytes.length ++ deflate level bytes).drop 8 =
      deflate level bytes :=
    List.drop_left' (Bytes.length_littleEndian 8 _)
  have hdeclared : Bytes.ofLittleEndian (Bytes.littleEndian 8 bytes.length) = bytes.length := by
    rw [Bytes.ofLittleEndian_littleEndian]
    exact Nat.mod_eq_of_lt (Nat.lt_of_le_of_lt hbytes (by decide))
  have hceiling : ¬min maxLength ((deflate level bytes).length * maxRatio) < bytes.length :=
    Nat.not_lt.2 (Nat.le_min.2 ⟨hbytes, hd.length_le level bytes hlevel⟩)
  have hprefix : ¬(Bytes.littleEndian 8 bytes.length ++ deflate level bytes).length < 8 := by
    rw [List.length_append, Bytes.length_littleEndian]
    omega
  unfold inflate
  simp only [if_neg hprefix, htake, hdrop, hdeclared, if_neg hceiling,
    hd.read?_eq level bytes hlevel, if_true]

/-- The bytes of the body come back from what is stored. -/
theorem plain_payload (hd : Gzip.Inflates deflate maxRatio)
    (hfits : settings.compress = true →
      settings.compressionLevel ≤ 9 ∧ (Body.ofGraph g).toBytes.length ≤ maxLength) :
    (if (headerOf deflate g settings).isCompressed then
      inflate (payload deflate settings (Body.ofGraph g).toBytes)
    else .ok (payload deflate settings (Body.ofGraph g).toBytes)) =
      .ok (Body.ofGraph g).toBytes := by
  cases hcompress : settings.compress with
  | true =>
    have hflag : (headerOf deflate g settings).isCompressed = true := by
      simp [headerOf, hcompress, Header.isCompressed, Header.compressionFlag]
    rw [hflag, if_pos rfl, payload, if_pos hcompress]
    exact inflate_payload hd (hfits hcompress).1 (hfits hcompress).2
  | false =>
    have hflag : (headerOf deflate g settings).isCompressed = false := by
      simp [headerOf, hcompress, Header.isCompressed]
    rw [hflag, payload, hcompress]
    rfl

/-- The body of a snapshot is the one it was written from. -/
theorem decodeBody_encodeWith (hd : Gzip.Inflates deflate maxRatio)
    (hlevel : settings.compress = true → settings.compressionLevel ≤ 9)
    (hbody : (Body.ofGraph g).toBytes.length ≤ maxLength)
    (hmax : (encodeWith deflate g settings).length ≤ maxLength)
    (hvalid : (Body.ofGraph g).validate = .ok ()) :
    decodeBody (encodeWith deflate g settings) = .ok (Body.ofGraph g) := by
  have hintact := intact_encodeWith hmax
  exact decodeBody_eq_ok.2 ⟨_, _, (Body.ofGraph g).toBytes, hintact.parse, hintact.split,
    plain_payload hd fun hcompress => ⟨hlevel hcompress, hbody⟩,
    Body.ofBytes_toBytes _ (Nat.lt_of_le_of_lt hbody (by decide)), hvalid⟩

end Snapshot

end Plexus
