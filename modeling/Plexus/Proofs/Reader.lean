import Plexus.Proofs.Codec

/-!
# Reading does not look ahead

Every reader of the codecs is steady: what it makes of some bytes does not change if more bytes
follow, unless it ran out of them. Together with losslessness this delimits what is written: of a
written value that is cut short, no part can pass for a value.
-/

namespace Plexus

/-- A way to read a value from the front of some bytes. -/
abbrev Reader (α : Type) := Bytes → Except ReadFault (α × Bytes)

/-- Reading that does not run out of bytes is not changed by the bytes that follow: they are left
with the rest, or are of no help where the bytes are refused. -/
def Reader.Steady {α : Type} (read : Reader α) : Prop :=
  ∀ bytes more, read bytes = .error .truncated ∨
    read (bytes ++ more) = (read bytes).map fun p => (p.1, p.2 ++ more)

namespace Reader.Steady

variable {α β : Type} {read other : Reader α}

/-- A reader that reads nothing is steady. -/
theorem pure (a : α) : Steady fun bytes => .ok (a, bytes) := fun _ _ => .inr rfl

/-- A reader that refuses everything is steady. -/
theorem throw (fault : ReadFault) : Steady fun _ => (.error fault : Except ReadFault (α × Bytes)) :=
  fun _ _ => .inr rfl

/-- A reader that goes on as the value read first says. -/
theorem bind (h : Steady read) {k : α × Bytes → Except ReadFault (β × Bytes)}
    (hk : ∀ a, Steady fun rest => k (a, rest)) : Steady fun bytes => read bytes >>= k := by
  intro bytes more
  rcases h bytes more with hfront | hfront
  · left
    simp only [hfront]
    rfl
  · cases hread : read bytes with
    | error fault =>
      right
      simp only [hfront, hread]
      rfl
    | ok p =>
      rw [hread] at hfront
      simp only [hfront, hread]
      exact hk p.1 p.2 more

/-- A choice between steady readers is steady. -/
theorem ite {c : Prop} [Decidable c] (h : Steady read) (h' : Steady other) :
    Steady fun bytes => if c then read bytes else other bytes := by
  split
  · exact h
  · exact h'

end Reader.Steady

namespace Codec

open Reader

variable {α β : Type} {c : Codec α} {d : Codec β}

/-- Taking some bytes is steady. -/
theorem steady_takeBytes (n : Nat) : Steady (takeBytes n) := by
  intro bytes more
  unfold takeBytes
  by_cases h : n ≤ bytes.length
  · right
    have hall : n ≤ (bytes ++ more).length := by
      rw [List.length_append]
      omega
    rw [if_pos h, if_pos hall, List.take_append_of_le_length h, List.drop_append_of_le_length h]
    rfl
  · left
    rw [if_neg h]

/-- Reading a word is steady. -/
theorem steady_word (width : Nat) : Steady (word width).read :=
  (steady_takeBytes width).bind fun _ => .pure _

/-- Reading a value in another form is steady. -/
theorem steady_map (h : Steady c.read) (there : α → β) (back : β → α) :
    Steady (c.map there back).read :=
  h.bind fun _ => .pure _

theorem steady_word32 : Steady word32.read := steady_map (steady_word 4) _ _

theorem steady_word64 : Steady word64.read := steady_map (steady_word 8) _ _

/-- Reading a truth value is steady. -/
theorem steady_boolean : Steady boolean.read := by
  rintro (_ | ⟨b, rest⟩) more
  · exact .inl rfl
  · right
    simp only [boolean, List.cons_append]
    by_cases hzero : b = 0
    · simp [hzero, Except.map]
    · by_cases hone : b = 1 <;> simp [hzero, hone, Except.map]

/-- Reading a pair is steady if reading its parts is. -/
theorem steady_pair (h : Steady c.read) (h' : Steady d.read) : Steady (pair c d).read :=
  h.bind fun _ => h'.bind fun _ => .pure _

/-- Reading a block of bytes is steady. -/
theorem steady_block : Steady block.read := (steady_word 8).bind steady_takeBytes

/-- A text is decoded only once all its bytes are there. -/
theorem steady_text : Steady text.read := by
  refine steady_block.bind fun front => ?_
  dsimp only
  cases String.fromUTF8? ⟨front.toArray⟩ with
  | some s => exact .pure s
  | none => exact .throw _

/-- Reading a number of values is steady if reading one is. -/
theorem steady_readMany (h : Steady c.read) (n : Nat) : Steady (c.readMany n) := by
  induction n with
  | zero => exact .pure []
  | succ n ih => exact h.bind fun _ => ih.bind fun _ => .pure _

/-- Reading a list is steady if reading its elements is. -/
theorem steady_list (h : Steady c.read) : Steady (list c).read :=
  (steady_word 8).bind (steady_readMany h)

/-- Reading a property value is steady. -/
theorem steady_scalar : Steady scalar.read := by
  refine steady_word32.bind fun tag => .ite (.pure _) (.ite ?_ (.ite ?_ (.ite ?_ (.throw _))))
  · exact steady_boolean.bind fun _ => .pure _
  · exact steady_word64.bind fun _ => .pure _
  · exact steady_text.bind fun _ => .pure _

/-- Reading a list of properties is steady. -/
theorem steady_properties : Steady properties.read :=
  steady_list (steady_pair steady_word32 steady_scalar)

/-- Reading the entry of a node slot is steady. -/
theorem steady_nodeEntry : Steady nodeEntry.read := by
  refine steady_word32.bind fun tag => .ite (.pure _) (.ite ?_ (.throw _))
  exact (steady_pair (steady_list steady_word32) steady_properties).bind fun _ => .pure _

/-- Reading the parts of a live edge is steady. -/
theorem steady_edgeParts : Steady edgeParts.read :=
  steady_pair steady_word64 (steady_pair steady_word64 (steady_pair steady_word32
    steady_properties))

/-- Reading the entry of an edge slot is steady. -/
theorem steady_edgeEntry : Steady edgeEntry.read := by
  refine steady_word32.bind fun tag => .ite (.pure _) (.ite ?_ (.throw _))
  exact steady_edgeParts.bind fun _ => .pure _

/-- Reading the definition of an index is steady. -/
theorem steady_indexEntry : Steady indexEntry.read :=
  steady_map (steady_pair steady_word32 steady_word32) _ _

/-- Reading the name tables is steady. -/
theorem steady_tables : Steady tables.read :=
  steady_pair (steady_list steady_text) (steady_pair (steady_list steady_text)
    (steady_list steady_text))

/-- Reading the body of a snapshot is steady. -/
theorem steady_body : Steady body.read :=
  steady_map (steady_pair steady_tables (steady_pair (steady_list steady_nodeEntry)
    (steady_pair (steady_list steady_edgeEntry) (steady_list steady_indexEntry)))) _ _

namespace Lossless

variable {a b : α} {front : Bytes}

/-- Of a written value that is cut short nothing is read. -/
theorem read_front (h : c.Lossless) (hs : Steady c.read) (hlen : (c.write a).length < 2 ^ 64)
    (hfront : front <+: c.write a) (hcut : front ≠ c.write a) :
    c.read front = .error .truncated := by
  obtain ⟨missing, hmissing⟩ := hfront
  have hwhole := h.read_write a [] hlen
  rw [List.append_nil] at hwhole
  rcases hs front missing with htruncated | hsteady
  · exact htruncated
  · -- Had a value been read, the missing bytes would be left over once they are there.
    rw [hmissing, hwhole] at hsteady
    cases hread : c.read front with
    | error fault =>
      rw [hread] at hsteady
      cases hsteady
    | ok p =>
      simp only [hread, Except.map, Except.ok.injEq, Prod.mk.injEq, List.nil_eq,
        List.append_eq_nil_iff] at hsteady
      rw [hsteady.2.2, List.append_nil] at hmissing
      exact absurd hmissing hcut

/-- No written value begins another one. -/
theorem eq_of_prefix (h : c.Lossless) (ha : (c.write a).length < 2 ^ 64)
    (hb : (c.write b).length < 2 ^ 64) (hab : c.write a <+: c.write b) : a = b := by
  obtain ⟨rest, hrest⟩ := hab
  have hreadA := h.read_write a rest ha
  have hreadB := h.read_write b [] hb
  rw [List.append_nil, ← hrest, hreadA] at hreadB
  cases hreadB
  rfl

end Lossless

end Codec

end Plexus
