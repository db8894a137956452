import Plexus.Codec.Gzip

/-!
# Stored members are read back

A member that stores its bytes is inflated to these bytes, block by block, and its trailer is
found right. Storing never makes a member shorter than what it holds.
-/

namespace Plexus

namespace Gzip

/-- What is relied on when bytes are deflated: they come back, and the member is not shorter by
more than the greatest ratio that deflating attains. -/
structure Inflates (deflate : Nat → Bytes → Bytes) (ratio : Nat) : Prop where
  read?_eq (level : Nat) (bytes : Bytes) :
    level ≤ 9 → read? (bytes.length + 1) (deflate level bytes) = some bytes
  length_le (level : Nat) (bytes : Bytes) :
    level ≤ 9 → bytes.length ≤ (deflate level bytes).length * ratio

private theorem blockHeader_stored (isLast : Bool) (rest : Bytes) :
    Inflate.blockHeader ⟨(if isLast then 1 else 0) :: rest, 0⟩ =
      .ok (isLast, 0, ⟨(if isLast then 1 else 0) :: rest, 3⟩) := by
  cases isLast <;>
    simp [Inflate.blockHeader, Inflate.Bits.bit, Inflate.Bits.number, bind, Except.bind, pure,
      Except.pure, Nat.testBit]

private theorem stored_chunk {chunk : Bytes} (h : chunk.length ≤ blockLimit) (b : UInt8)
    (rest : Bytes) (out : Array UInt8) :
    Inflate.stored ⟨b :: (Bytes.littleEndian 2 chunk.length ++
      Bytes.littleEndian 2 (blockLimit - chunk.length) ++ chunk ++ rest), 3⟩ out =
        (out ++ chunk, .ok ⟨rest, 0⟩) := by
  have hword (n : Nat) (hn : n ≤ blockLimit) :
      ∃ a b, Bytes.littleEndian 2 n = [a, b] ∧ Bytes.ofLittleEndian [a, b] = n := by
    refine ⟨_, _, rfl, ?_⟩
    have hvalue := Bytes.ofLittleEndian_littleEndian 2 n
    have hmod : n % Nat.pow 256 2 = n := Nat.mod_eq_of_lt (Nat.lt_of_le_of_lt hn (by decide))
    exact hvalue.trans hmod
  obtain ⟨a₁, b₁, h₁, hn₁⟩ := hword chunk.length h
  obtain ⟨a₂, b₂, h₂, hn₂⟩ := hword (blockLimit - chunk.length) (Nat.sub_le _ _)
  have hsum : chunk.length + (blockLimit - chunk.length) = 0xffff := Nat.add_sub_of_le h
  have hle : chunk.length ≤ (chunk ++ rest).length := by simp
  simp only [h₁, h₂, Inflate.stored, Inflate.Bits.wholeBytes, List.cons_append, List.nil_append,
    List.drop_succ_cons, List.drop_zero, if_neg (show ¬(3 : Nat) = 0 by decide), hn₁, hn₂, hsum,
    if_true, if_pos hle, List.take_left, List.drop_left]

/-- Stored blocks are no shorter than what they hold. -/
theorem length_storedBlocks {n : Nat} {bytes : Bytes} (hn : bytes.length ≤ n * blockLimit) :
    bytes.length ≤ (storedBlocks n bytes).length := by
  induction n generalizing bytes with
  | zero => omega
  | succ n ih =>
    rw [storedBlocks]
    have hsplit := congrArg List.length (List.take_append_drop blockLimit bytes)
    rw [List.length_append] at hsplit
    split
    · rename_i hempty
      rw [List.isEmpty_iff] at hempty
      simp only [List.length_append, List.length_cons, hempty, List.length_nil] at hsplit ⊢
      omega
    · have hdrop : (bytes.drop blockLimit).length ≤ n * blockLimit := by
        rw [List.length_drop, Nat.succ_mul] at *
        omega
      have hrest := ih hdrop
      simp only [List.length_append, List.length_cons]
      omega

private theorem blocks_chunk {chunk : Bytes} (h : chunk.length ≤ blockLimit) (isLast : Bool)
    (fuel : Nat) (rest : Bytes) (out : Array UInt8) :
    Inflate.blocks (fuel + 1) ⟨(if isLast then 1 else 0) :: (Bytes.littleEndian 2 chunk.length ++
      Bytes.littleEndian 2 (blockLimit - chunk.length) ++ chunk ++ rest), 0⟩ out =
        if isLast then (out ++ chunk, .ok ⟨rest, 0⟩)
        else Inflate.blocks fuel ⟨rest, 0⟩ (out ++ chunk) := by
  rw [Inflate.blocks, blockHeader_stored]
  simp only [Inflate.block, if_true, stored_chunk h]

/-- Stored blocks are inflated to what they hold. -/
theorem blocks_stored {n fuel : Nat} (hfuel : n < fuel) {bytes : Bytes}
    (hn : bytes.length ≤ (n + 1) * blockLimit) (rest : Bytes) (out : Array UInt8) :
    Inflate.blocks fuel ⟨storedBlocks (n + 1) bytes ++ rest, 0⟩ out =
      (out ++ bytes, .ok ⟨rest, 0⟩) := by
  induction n generalizing fuel bytes out with
  | zero =>
    obtain ⟨fuel, rfl⟩ := Nat.exists_eq_add_of_lt hfuel
    have htake : bytes.take blockLimit = bytes := List.take_of_length_le (by omega)
    have hdrop : bytes.drop blockLimit = [] := List.drop_of_length_le (by omega)
    have hstep := blocks_chunk (show bytes.length ≤ blockLimit by omega) true (0 + fuel) rest out
    rw [storedBlocks, htake, hdrop]
    simpa using hstep
  | succ n ih =>
    obtain ⟨fuel, rfl⟩ := Nat.exists_eq_add_of_lt hfuel
    have hchunk : (bytes.take blockLimit).length ≤ blockLimit := by
      rw [List.length_take]
      exact Nat.min_le_left _ _
    rw [storedBlocks]
    cases hdrop : (bytes.drop blockLimit).isEmpty with
    | true =>
      have hall : bytes.take blockLimit = bytes := by
        have hsplit := List.take_append_drop blockLimit bytes
        rwa [List.isEmpty_iff.1 hdrop, List.append_nil] at hsplit
      have hstep := blocks_chunk hchunk true (n + 1 + fuel) rest out
      rw [hall] at hstep
      simpa [hall] using hstep
    | false =>
      have hstep := blocks_chunk hchunk false (n + 1 + fuel)
        (storedBlocks (n + 1) (bytes.drop blockLimit) ++ rest) out
      have hlen : (bytes.drop blockLimit).length ≤ (n + 1) * blockLimit := by
        rw [List.length_drop, Nat.succ_mul (n + 1)] at *
        omega
      have hrest := ih (show n < n + 1 + fuel by omega) hlen (out ++ bytes.take blockLimit)
      have hjoin : out ++ bytes.take blockLimit ++ bytes.drop blockLimit = out ++ bytes := by
        apply Array.ext'
        simp only [Array.toList_appendList, List.append_assoc, List.take_append_drop]
      rw [hrest, hjoin] at hstep
      simpa [List.append_assoc] using hstep

private theorem le_blocks (bytes : Bytes) :
    bytes.length ≤ (bytes.length / blockLimit + 1) * blockLimit := by
  have hdiv := Nat.lt_div_mul_add (show 0 < blockLimit by decide) (a := bytes.length)
  rw [Nat.succ_mul]
  omega

/-- Storing is a way of deflating. -/
theorem inflates_write (ratio : Nat) (hratio : 0 < ratio) : Inflates write ratio where
  read?_eq level bytes _ := by
    have hlen := length_storedBlocks (le_blocks bytes)
    have hheader : skipHeader? (write level bytes) =
        some (storedBlocks (bytes.length / blockLimit + 1) bytes ++ trailer bytes) := by
      simp [write, magic, skipHeader?]
    have hfuel : bytes.length / blockLimit <
        8 * (storedBlocks (bytes.length / blockLimit + 1) bytes ++ trailer bytes).length + 1 := by
      have hdiv := Nat.div_le_self bytes.length blockLimit
      rw [List.length_append]
      omega
    have hrun : Inflate.run (storedBlocks (bytes.length / blockLimit + 1) bytes ++ trailer bytes) =
        ((#[] : Array UInt8) ++ bytes, .ok (trailer bytes)) := by
      rw [Inflate.run, blocks_stored hfuel (le_blocks bytes)]
      simp [Inflate.Bits.wholeBytes]
    have htrailer : (trailer bytes).take 8 = trailer bytes :=
      List.take_of_length_le (by simp [trailer])
    have hout : ((#[] : Array UInt8) ++ bytes).toList = bytes := by simp
    simp only [read?, hheader, hrun, hout, Option.bind_eq_bind, Option.bind_some]
    rw [if_neg (Nat.not_succ_le_self _), if_pos htrailer]
  length_le level bytes _ := by
    have hlen := length_storedBlocks (le_blocks bytes)
    refine Nat.le_trans ?_ (Nat.le_mul_of_pos_right _ hratio)
    simp only [write, List.length_append]
    omega

end Gzip

end Plexus
