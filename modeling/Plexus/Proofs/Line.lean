import Mathlib.Data.List.Basic
import Plexus.Plan.PatternText

/-!
# Texts on one line

Texts without a line break, put together, have none either. Quoted text has none because the line
break is one of the characters that are escaped, and numbers are digits and a few other characters.
What is written line by line is read line by line.
-/

namespace Plexus

namespace Text

/-- The text has no line break. -/
def OneLine (s : String) : Prop := '\n' ∉ s.toList

instance (s : String) : Decidable (OneLine s) := inferInstanceAs (Decidable ('\n' ∉ s.toList))

variable {s t : String} {l : List String}

theorem oneLine_empty : OneLine "" := List.not_mem_nil

/-- Texts on one line stay on one line when they are put together. -/
theorem OneLine.append (hs : OneLine s) (ht : OneLine t) : OneLine (s ++ t) := by
  rw [OneLine, String.toList_append, List.mem_append]
  exact not_or.2 ⟨hs, ht⟩

/-- So do any number of them. -/
theorem oneLine_join (h : ∀ t ∈ l, OneLine t) : OneLine (String.join l) := by
  rw [OneLine, String.toList_join, List.mem_flatMap]
  rintro ⟨t, ht, hmem⟩
  exact h t ht hmem

/-- So do any number of them with a separator that is on one line itself. -/
theorem OneLine.intercalate (hs : OneLine s) (h : ∀ t ∈ l, OneLine t) :
    OneLine (s.intercalate l) := by
  induction l with
  | nil => exact oneLine_empty
  | cons t rest ih =>
    obtain ⟨ht, hrest⟩ := List.forall_mem_cons.1 h
    cases rest with
    | nil => simpa using ht
    | cons u rest =>
      rw [String.intercalate_cons_of_ne_nil (List.cons_ne_nil u rest)]
      exact (ht.append hs).append (ih hrest)

/-- No hexadecimal digit is a newline. -/
theorem hexDigit_ne_newline : ∀ n < 16, hexDigit n ≠ '\n' := by decide

/-- A line break is escaped, and no character is escaped by one. -/
theorem newline_notMem_escape (c : Char) : '\n' ∉ escape c := by
  by_cases hshort : c ∈ ['"', '\\', '\x08', '\x0c', '\n', '\r', '\t']
  · simp only [List.mem_cons, List.not_mem_nil, or_false] at hshort
    rcases hshort with rfl | rfl | rfl | rfl | rfl | rfl | rfl <;> decide
  · simp only [List.mem_cons, List.not_mem_nil, or_false, not_or] at hshort
    obtain ⟨hquote, hbackslash, hb, hf, hn, hr, ht⟩ := hshort
    simp only [escape, if_neg hquote, if_neg hbackslash, if_neg hb, if_neg hf, if_neg hn,
      if_neg hr, if_neg ht]
    split
    · rename_i hcontrol
      have hhigh := hexDigit_ne_newline (c.toNat / 16) (by omega)
      have hlow := hexDigit_ne_newline (c.toNat % 16) (Nat.mod_lt _ (by decide))
      simp [hhigh.symm, hlow.symm]
    · simpa using Ne.symm hn

/-- A quoted text is on one line, whatever is quoted. -/
theorem oneLine_quoted (s : String) : OneLine (quoted s) := by
  rw [OneLine, quoted, String.toList_ofList]
  simp [newline_notMem_escape]

/-- No decimal digit is a newline. -/
theorem newline_notMem_digits (n : Nat) : '\n' ∉ Nat.toDigits 10 n := fun h =>
  absurd (Nat.isDigit_of_mem_toDigits (by decide) (by decide) h) (by decide)

/-- A natural number is written on one line. -/
theorem oneLine_repr (n : Nat) : OneLine n.repr := by
  rw [OneLine, Nat.toList_repr]
  exact newline_notMem_digits n

end Text

open Text

/-- A decimal is written on one line. -/
theorem Decimal.oneLine_positional (d : Decimal) : OneLine d.positional := by
  have hdigits := newline_notMem_digits d.digits
  unfold positional
  dsimp only
  split
  · rw [OneLine, String.toList_ofList]
    simp [hdigits]
  · rw [OneLine, String.toList_ofList, List.mem_append, List.mem_cons]
    generalize hpadded : List.replicate _ '0' ++ Nat.toDigits 10 d.digits = padded
    have hnone : '\n' ∉ padded := by simp [← hpadded, hdigits]
    rintro (h | h | h)
    · exact hnone (List.mem_of_mem_take h)
    · cases h
    · exact hnone (List.mem_of_mem_drop h)

/-- A number is written on one line. -/
theorem Double.oneLine_text (x : Double) : OneLine x.text := by
  have hsign : OneLine (if x.isNegative then "-" else "") := by split <;> decide
  unfold text
  split
  · decide
  · dsimp only
    split
    · exact hsign.append (by decide)
    · split
      · exact hsign.append (by decide)
      · exact hsign.append (Decimal.oneLine_positional _)

/-- A property value is written on one line. -/
theorem Scalar.oneLine_literal (a : Scalar) : OneLine a.literal := by
  cases a with
  | text s => exact oneLine_quoted s
  | null => decide
  | boolean b => cases b <;> decide
  | number x => exact x.oneLine_text

namespace Text

/-- A text that is made of lines is read line by line, and nothing follows the last one. -/
theorem splitOn_lines {lines : List (List Char)} (h : ∀ line ∈ lines, '\n' ∉ line) :
    (lines.flatMap (· ++ ['\n'])).splitOn '\n' = lines ++ [[]] := by
  induction lines with
  | nil => rfl
  | cons line rest ih =>
    obtain ⟨hline, hrest⟩ := List.forall_mem_cons.1 h
    have hnone : ∀ c ∈ line, (c == '\n') = false := fun c hc => by
      simpa using fun he : c = '\n' => hline (he ▸ hc)
    rw [List.flatMap_cons, List.append_assoc, List.singleton_append, List.splitOn,
      List.splitOnP_append_cons_of_forall_mem hnone _ (by decide)]
    exact congrArg (line :: ·) (ih hrest)

end Text

end Plexus
