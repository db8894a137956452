import Mathlib.Data.List.DropRight
import Plexus.Proofs.Plan.Faults
import Plexus.Proofs.Plan.PatternText

/-!
# Outlines can be read back

The outline of a plan has a line for each operator. The blanks before a line tell how deep the
operator stands, and its name stands before the bar, if there is one. This is enough to tell the
tree from the text, because no line is broken by what a pattern shows.
-/

namespace Plexus

open Text

/-- A tree of names. -/
inductive Shape where
  | node (name : String) (inputs : List Shape)

namespace Operator

/-- The names of the operators as they stand in the tree. -/
def shape : Operator → Shape
  | op@(scan _ _ _) => .node op.name []
  | op@(product left right) => .node op.name [left.shape, right.shape]
  | op@(expand input _) | op@(reach input _) | op@(filter input _) | op@(project input _)
  | op@(aggregate input _ _) | op@(distinct input _) | op@(sort input _) | op@(skip input _)
  | op@(limit input _) => .node op.name [input.shape]

end Operator

namespace Outline

/-- The lines of a text, each of which ends with a line break. -/
def lines (text : String) : List (List Char) := (text.toList.splitOn '\n').dropLast

/-- How deep a line is indented. -/
def depth (line : List Char) : Nat := (line.takeWhile (· = ' ')).length / 4

/-- The name on a line: what stands between the blanks before it and the bar. -/
def name (line : List Char) : String :=
  String.ofList (((line.dropWhile (· = ' ')).takeWhile (· ≠ '|')).rdropWhile (· = ' '))

/-- Put a line above the trees of the lines that follow. Those at the beginning that are one level
deeper are its inputs. -/
def plant (line : Nat × String) (forest : List (Nat × Shape)) : List (Nat × Shape) :=
  let (inputs, others) := forest.span (·.1 = line.1 + 1)
  (line.1, .node line.2 (inputs.map Prod.snd)) :: others

/-- The tree that a text outlines, if it outlines one. -/
def read? (text : String) : Option Shape :=
  match ((lines text).map fun line => (depth line, name line)).foldr plant [] with
  | [(0, tree)] => some tree
  | _ => none

/-! ## Reading a line -/

/-- What stands on a line after the name. -/
def rest (op : Operator) : String := (op.pattern?.map (" | " ++ ·)).getD ""

/-- The line of an operator: four blanks per level, and its name before anything else. -/
def line (depth : Nat) (op : Operator) : List Char :=
  List.replicate (4 * depth) ' ' ++ (op.name.toList ++ (rest op).toList)

/-- The outline of an operator is its line and a newline. -/
theorem outlineLine_eq (depth : Nat) (op : Operator) :
    (op.outlineLine depth).toList = line depth op ++ ['\n'] := by
  have hdescribe : op.describe = op.name ++ rest op := by
    unfold Operator.describe rest
    cases op.pattern? with
    | none => simp
    | some pattern => simp [String.append_assoc]
  simp [Operator.outlineLine, line, hdescribe, String.toList_append]

/-- A name that can be told from what stands around it: blanks, a bar, and a line break. -/
structure Legible (name : List Char) : Prop where
  notEmpty : name ≠ []
  first : name.head? ≠ some ' '
  last : name.rdropWhile (· = ' ') = name
  bar : '|' ∉ name
  unbroken : '\n' ∉ name

/-- Every operator has a name that can be read back. -/
theorem legible_name (op : Operator) : Legible op.name.toList := by
  cases op with
  | scan access name pattern =>
    cases access <;> dsimp only [Operator.name] <;> constructor <;> decide
  | _ => dsimp only [Operator.name]; constructor <;> decide

namespace Legible

variable {name after : List Char} (h : Legible name) (n : Nat)
include h

/-- A legible name does not begin with a blank. -/
theorem exists_cons : ∃ c cs, name = c :: cs ∧ c ≠ ' ' := by
  obtain ⟨c, cs, rfl⟩ := List.exists_cons_of_ne_nil h.notEmpty
  exact ⟨c, cs, rfl, fun hc => h.first (hc ▸ rfl)⟩

/-- The blanks before a name are the indentation and no more. -/
theorem takeWhile_blank :
    (List.replicate n ' ' ++ (name ++ after)).takeWhile (· = ' ') = List.replicate n ' ' := by
  obtain ⟨c, cs, rfl, hblank⟩ := h.exists_cons
  rw [List.takeWhile_append_of_pos (by simp), List.cons_append,
    List.takeWhile_cons_of_neg (by simpa using hblank), List.append_nil]

/-- Behind the indentation the line begins with the name. -/
theorem dropWhile_blank :
    (List.replicate n ' ' ++ (name ++ after)).dropWhile (· = ' ') = name ++ after := by
  obtain ⟨c, cs, rfl, hblank⟩ := h.exists_cons
  rw [List.dropWhile_append_of_pos (by simp), List.cons_append,
    List.dropWhile_cons_of_neg (by simpa using hblank)]

/-- What follows a name begins with a blank and a bar, which are not part of it. -/
theorem rdropWhile_blank (op : Operator) :
    ((name ++ (rest op).toList).takeWhile (· ≠ '|')).rdropWhile (· = ' ') = name := by
  have hbar : ∀ c ∈ name, decide (c ≠ '|') = true := fun c hc =>
    decide_eq_true (ne_of_mem_of_not_mem hc h.bar)
  rw [List.takeWhile_append_of_pos hbar]
  unfold rest
  cases op.pattern? with
  | none => simpa using h.last
  | some pattern =>
    have hblank : (" | " ++ pattern).toList.takeWhile (· ≠ '|') = [' '] := by
      simp [String.toList_append]
    rw [Option.map_some, Option.getD_some, hblank, List.rdropWhile_concat_pos _ _ _ (by decide),
      h.last]

end Legible

/-- The depth of an operator is read back from its line. -/
theorem depth_line (depth : Nat) (op : Operator) : Outline.depth (line depth op) = depth := by
  rw [Outline.depth, line, (legible_name op).takeWhile_blank, List.length_replicate]
  exact Nat.mul_div_cancel_left depth (by decide)

/-- The name of an operator is read back from its line. -/
theorem name_line (depth : Nat) (op : Operator) : name (line depth op) = op.name := by
  rw [name, line, (legible_name op).dropWhile_blank, (legible_name op).rdropWhile_blank,
    String.ofList_toList]

/-- A line is not broken by the pattern on it, unless the pattern has a line break. -/
theorem newline_notMem_line {op : Operator}
    (h : ∀ pattern, op.pattern? = some pattern → OneLine pattern) (depth : Nat) :
    '\n' ∉ line depth op := by
  have hrest : OneLine (rest op) := by
    unfold rest
    cases hshown : op.pattern? with
    | none => exact oneLine_empty
    | some pattern => exact .append (by decide) (h pattern hshown)
  rw [line, List.mem_append, List.mem_append, List.mem_replicate]
  rintro (h | h | h)
  · exact absurd h.2 (by decide)
  · exact (legible_name op).unbroken h
  · exact hrest h

/-! ## Reading a tree -/

/-- A line takes all trees that are one level deeper, as long as none of these follows. -/
theorem plant_eq (d : Nat) (name : String) (inputs : List Shape) {forest : List (Nat × Shape)}
    (h : ∀ t ∈ forest.head?, t.1 ≤ d) :
    plant (d, name) (inputs.map (d + 1, ·) ++ forest) = (d, .node name inputs) :: forest := by
  have hinputs : ∀ t ∈ inputs.map (d + 1, ·), decide (t.1 = d + 1) = true := by simp
  have htake : forest.takeWhile (·.1 = d + 1) = [] := by
    cases forest with
    | nil => rfl
    | cons t rest =>
      have ht := h t rfl
      exact List.takeWhile_cons_of_neg (by simpa using Nat.ne_of_lt (Nat.lt_succ_of_le ht))
  have hdrop : forest.dropWhile (·.1 = d + 1) = forest := by
    simpa [htake] using List.takeWhile_append_dropWhile (p := (·.1 = d + 1)) (l := forest)
  rw [plant, List.span_eq_takeWhile_dropWhile]
  simp only
  rw [List.takeWhile_append_of_pos hinputs, List.dropWhile_append_of_pos hinputs, htake, hdrop]
  simp

/-- The lines of a tree are read as the tree, whatever has been read after them. -/
theorem foldr_plant (op : Operator) (d : Nat) {forest : List (Nat × Shape)}
    (h : ∀ t ∈ forest.head?, t.1 ≤ d) :
    ((op.outline d).map fun line => (line.1, line.2.name)).foldr plant forest =
      (d, op.shape) :: forest := by
  induction op generalizing d forest with
  | scan access name pattern => exact plant_eq d _ [] h
  | product left right ihl ihr =>
    have hright := ihr (d + 1) fun t ht => Nat.le_succ_of_le (h t ht)
    -- The left input is followed by the right one, which stands at the same depth.
    have hhead : ∀ t ∈ ((d + 1, right.shape) :: forest).head?, t.1 ≤ d + 1 := fun t ht =>
      (Option.some.inj ht) ▸ Nat.le_refl _
    rw [Operator.outline, List.cons_append, List.map_cons, List.map_append, List.foldr_cons,
      List.foldr_append, hright, ihl (d + 1) hhead]
    exact plant_eq d _ [left.shape, right.shape] h
  | expand input _ ih | reach input _ ih | filter input _ ih | project input _ ih
  | aggregate input _ _ ih | distinct input _ ih | sort input _ ih | skip input _ ih
  | limit input _ ih =>
    have hinput := ih (d + 1) fun t ht => Nat.le_succ_of_le (h t ht)
    rw [Operator.outline, List.map_cons, List.foldr_cons, hinput]
    exact plant_eq d _ [input.shape] h

/-! ## Reading a text -/

section
variable {op : Operator} (h : op.ShowsOnly OneLine)
include h

/-- The text of a tree has the lines of its outline, each with a break after it. -/
theorem splitOn_explain : op.explain.toList.splitOn '\n' =
    (op.outline 0).map (fun place => line place.1 place.2) ++ [[]] := by
  have hlines : ∀ l ∈ (op.outline 0).map (fun place => line place.1 place.2), '\n' ∉ l :=
    List.forall_mem_map.2 fun place hat =>
      newline_notMem_line (fun pattern hpattern => h.of_mem_outline hat hpattern) place.1
  rw [← splitOn_lines hlines, Operator.explain, String.toList_join, List.flatMap_map,
    List.flatMap_map]
  simp only [outlineLine_eq]

/-- The lines of an explanation are those of the operators in the outline. -/
theorem lines_explain :
    lines op.explain = (op.outline 0).map fun place => line place.1 place.2 := by
  rw [lines, splitOn_explain h, List.dropLast_concat]

/-- The names on the lines are those of the operators, from the root down. -/
theorem map_name_lines : (lines op.explain).map name = op.names := by
  rw [lines_explain h, List.map_map, Operator.names, Operator.preorder, List.map_map]
  exact List.map_congr_left fun place _ => name_line place.1 place.2

/-- The tree of operators is read back from the explanation. -/
theorem read?_explain : read? op.explain = some op.shape := by
  have hread : (lines op.explain).map (fun l => (depth l, name l)) =
      (op.outline 0).map fun place => (place.1, place.2.name) := by
    rw [lines_explain h, List.map_map]
    exact List.map_congr_left fun place _ =>
      Prod.ext (depth_line place.1 place.2) (name_line place.1 place.2)
  have hnone : ∀ t ∈ ([] : List (Nat × Shape)).head?, t.1 ≤ 0 := fun t ht => by cases ht
  simp only [read?, hread, foldr_plant op 0 hnone]

end

end Outline

namespace Query

variable {q : Query}

/-- Validated queries are explained by one line for each operator, each operator before its inputs
and indented by four blanks per level, whatever the literals in the pattern are. The names of the
operators and the tree are read off the text. -/
theorem explain_eq_outline (h : q.validate = .ok ()) (hnames : ∀ x ∈ q.patternNames, OneLine x)
    (g : Graph) :
    ∃ p, q.plan g = .ok p ∧ q.explain g = .ok p.explain ∧
      p.explain.toList.splitOn '\n' =
        (p.root.outline 0).map (fun place => Outline.line place.1 place.2) ++ [[]] ∧
      (Outline.lines p.explain).map Outline.name = p.root.names ∧
      Outline.read? p.explain = some p.root.shape := by
  obtain ⟨draft, hdraft, hplan⟩ := plan_of_validate h g
  have hpaths : ∀ path ∈ q.paths, ∀ x ∈ path.names, OneLine x :=
    fun path hpath x hx => hnames x (List.mem_flatMap.2 ⟨path, hpath, hx⟩)
  have hshows : (q.planReturn draft.finish).ShowsOnly OneLine :=
    showsOnly_planReturn (Draft.oneLine_finish hpaths hdraft)
  refine ⟨_, hplan, ?_, Outline.splitOn_explain hshows, Outline.map_name_lines hshows,
    Outline.read?_explain hshows⟩
  rw [explain, hplan]

/-- A query with literals that would break the lines of the outline, or add some, if they were shown
as they are. -/
def forgedLines : Query where
  paths :=
    [⟨⟨some "n", ["Person"], [("name", .text "\x7bAda\"\x7d\n    Limit | (n)")]⟩,
      [(⟨none, [], .outgoing, none, [("note", .text "a\nb\r\x00")]⟩, ⟨some "m", [], []⟩)]⟩,
      ⟨⟨some "k", [], [("name", .text "\n\n")]⟩, []⟩]
  condition := none
  returns := none
  orderBy := []
  skip := none
  limit := none

/-- Literals that look like lines of the outline are shown as part of a line and read back with
it. -/
theorem explain_eq_outline_of_forged_lines :
    forgedLines.validate = .ok () ∧ (∀ x ∈ forgedLines.patternNames, OneLine x) ∧
      ∃ p, forgedLines.plan (.empty {}) = .ok p ∧
        (Outline.lines p.explain).map Outline.name =
          ["Project", "Cartesian Product", "Filter", "Conditional Traverse", "Filter", "Label Scan",
            "Filter", "All Node Scan"] ∧
        Outline.read? p.explain = some p.root.shape := by
  have hvalid : forgedLines.validate = .ok () := by decide +kernel
  have hnames : ∀ x ∈ forgedLines.patternNames, OneLine x := by decide +kernel
  have hlisted : (forgedLines.plan (.empty {})).toOption.map (·.root.names) =
      some ["Project", "Cartesian Product", "Filter", "Conditional Traverse", "Filter",
        "Label Scan", "Filter", "All Node Scan"] := by decide +kernel
  obtain ⟨p, hplan, -, -, hlines, htree⟩ := explain_eq_outline hvalid hnames (.empty {})
  rw [hplan] at hlisted
  exact ⟨hvalid, hnames, p, hplan, hlines.trans (Option.some.inj hlisted), htree⟩

end Query

end Plexus
