import Plexus.Proofs.Repeats
import Plexus.Proofs.Schema

/-!
# Names and identifiers are one to one

A schema starts with nothing or with given tables, and names are interned into its parts in any
order. In each part the names are then those that were given and interned, in the order of their
first appearance, and looking up a name and resolving an identifier are inverse to each other for
good.
-/

namespace Plexus

namespace NameTable

variable {t : NameTable} {name : String} {position : Nat}

/-- Interning adds a name at the end if it is not there. -/
theorem names_intern (t : NameTable) (name : String) :
    (t.intern name).1.names = if name ∈ t.names then t.names else t.names ++ [name] := by
  unfold intern lookup?
  split
  · rename_i position h
    have hmem : name ∈ t.names := List.isSome_idxOf?.1 (by rw [h]; rfl)
    rw [if_pos hmem]
  · rename_i h
    have hnew : name ∉ t.names := List.idxOf?_eq_none_iff.1 h
    rw [if_neg hnew, insert, dif_neg hnew]

/-- A name that is looked up resolves back from its position. -/
theorem resolve?_of_lookup? (h : t.lookup? name = some position) :
    t.resolve? position = some name := by
  obtain ⟨hlt, heq, -⟩ := List.idxOf?_eq_some_iff.1 h
  exact List.getElem?_eq_some_iff.2 ⟨hlt, heq⟩

end NameTable

namespace Schema

variable {s : Schema} {part : Part} {name : String}

/-- What a schema starts with. -/
inductive Origin where
  | empty
  | tables (labels relationTypes properties : List String)

/-- The schema that is started with, unless a table repeats a name. -/
def Origin.schema? : Origin → Option Schema
  | .empty => some .empty
  | .tables labels relationTypes properties => ofTables? labels relationTypes properties

/-- The names that a part is started with. -/
def Origin.names : Origin → Part → List String
  | .empty, _ => []
  | .tables labels _ _, .label => labels
  | .tables _ relationTypes _, .relationType => relationTypes
  | .tables _ _ properties, .property => properties

/-- The schema after a name is interned into a part. -/
def after (s : Schema) (call : Part × String) : Schema := (s.intern call.1 call.2).1

/-- The names that are interned into a part, in order. -/
def interned (part : Part) (calls : List (Part × String)) : List String :=
  (calls.filter fun call => call.1 = part).map Prod.snd

/-- The names of a schema are those that it was begun with. -/
theorem names_of_origin {origin : Origin} (h : origin.schema? = some s) (part : Part) :
    (s.table part).names = origin.names part := by
  cases origin with
  | empty =>
    cases h
    cases part <;> rfl
  | tables labels relationTypes properties =>
    obtain ⟨rfl, rfl, rfl⟩ := ofTables?_eq_some.1 h
    cases part <;> rfl

/-- Interning a name adds it to the table of its own part. -/
theorem table_intern_self (s : Schema) (part : Part) (name : String) :
    (s.intern part name).1.table part = ((s.table part).intern name).1 :=
  table_withTable_self _ _ _

/-- Interning into one part leaves the other parts alone. -/
theorem table_intern_of_ne (s : Schema) {part other : Part} (name : String) (h : other ≠ part) :
    (s.intern part name).1.table other = s.table other :=
  table_withTable_of_ne s _ h

/-- The names of a part are those that it was given, each where it first appeared. -/
theorem names_foldl {given : List String} (h : (s.table part).names = given.eraseDups)
    (calls : List (Part × String)) :
    ((calls.foldl after s).table part).names = (given ++ interned part calls).eraseDups := by
  induction calls generalizing s given with
  | nil => rw [interned, List.filter_nil, List.map_nil, List.append_nil]; exact h
  | cons call rest ih =>
    rw [List.foldl_cons]
    by_cases hpart : call.1 = part
    · have hnames : ((s.after call).table part).names = (given ++ [call.2]).eraseDups := by
        rw [eraseDups_snoc, ← h, ← NameTable.names_intern, after, ← hpart, table_intern_self]
      rw [ih hnames, interned, interned, List.filter_cons_of_pos (by simpa using hpart),
        List.map_cons, List.append_assoc, List.singleton_append]
    · have hnames : ((s.after call).table part).names = given.eraseDups := by
        rw [after, table_intern_of_ne s call.2 (Ne.symm hpart), h]
      rw [ih hnames, interned, interned, List.filter_cons_of_neg (by simpa using hpart)]

/-- Any calls make a schema grow. -/
theorem grows_foldl (s : Schema) (calls : List (Part × String)) :
    s.Grows (calls.foldl after s) := by
  induction calls generalizing s with
  | nil => exact .refl s
  | cons call rest ih => exact (s.grows_intern call.1 call.2).trans (ih _)

/-- A name has the identifier of which it is the name. -/
theorem lookup?_eq_some_iff {id : Id part.kind} :
    s.lookup? part name = some id ↔ s.resolve? part id = some name := by
  constructor
  · intro h
    obtain ⟨position, hposition, rfl⟩ := Option.map_eq_some_iff.1 h
    exact NameTable.resolve?_of_lookup? hposition
  · exact lookup?_of_resolve?

/-- A name is found if the table lists it. -/
theorem isSome_lookup?_iff : (s.lookup? part name).isSome ↔ name ∈ (s.table part).names := by
  rw [lookup?, Option.isSome_map, NameTable.lookup?, List.isSome_idxOf?]

/-- A new name gets the next identifier. -/
theorem intern_of_lookup?_eq_none (h : s.lookup? part name = none) :
    (s.intern part name).2 = ⟨(s.table part).size⟩ ∧
      ((s.intern part name).1.table part).names = (s.table part).names ++ [name] := by
  have hnone : (s.table part).lookup? name = none := Option.map_eq_none_iff.1 h
  have hnew : name ∉ (s.table part).names := List.idxOf?_eq_none_iff.1 hnone
  constructor
  · rw [intern, NameTable.intern, hnone]
  · rw [table_intern_self, NameTable.names_intern, if_neg hnew]

/-- How the names of a schema and their identifiers belong together. -/
structure Numbered (s : Schema) : Prop where
  lookup?_iff (part : Part) (name : String) (id : Id part.kind) :
    s.lookup? part name = some id ↔ s.resolve? part id = some name
  named_iff (part : Part) (name : String) :
    (s.lookup? part name).isSome ↔ name ∈ (s.table part).names
  numbered_iff (part : Part) (id : Id part.kind) :
    (s.resolve? part id).isSome ↔ id.index < (s.table part).size
  intern_known (part : Part) (name : String) (id : Id part.kind) :
    s.lookup? part name = some id → s.intern part name = (s, id)
  intern_new (part : Part) (name : String) : s.lookup? part name = none →
    (s.intern part name).2 = ⟨(s.table part).size⟩ ∧
      ((s.intern part name).1.table part).names = (s.table part).names ++ [name]
  intern_other (part other : Part) (name : String) : other ≠ part →
    (s.intern part name).1.table other = s.table other
  /-- As long as there are fewer names than words of 32 bits, every identifier is such a word. -/
  index_lt (part : Part) (name : String) : (s.table part).size < UInt32.size →
    (s.intern part name).2.index < UInt32.size
  lasting (calls : List (Part × String)) (part : Part) (id : Id part.kind) (name : String) :
    s.resolve? part id = some name → (calls.foldl after s).resolve? part id = some name
  restored : ofTables? (s.table .label).names (s.table .relationType).names
    (s.table .property).names = some s

/-- The names and identifiers of every schema belong together. -/
theorem numbered (s : Schema) : s.Numbered where
  lookup?_iff _ _ _ := lookup?_eq_some_iff
  named_iff _ _ := isSome_lookup?_iff
  numbered_iff _ _ := isSome_resolve?_iff
  intern_known _ _ _ h := intern_of_lookup? h
  intern_new _ _ h := intern_of_lookup?_eq_none h
  intern_other _ _ name h := table_intern_of_ne s name h
  index_lt part name hsize := by
    cases hid : s.lookup? part name with
    | none =>
      rw [(intern_of_lookup?_eq_none hid).1]
      exact hsize
    | some id =>
      rw [intern_of_lookup? hid]
      have hlt := isSome_resolve?_iff.1 (Option.isSome_of_eq_some (lookup?_eq_some_iff.1 hid))
      exact hlt.trans hsize
  lasting calls _ _ _ h := (grows_foldl s calls).resolve? h
  restored := ofTables?_eq_some.2 ⟨rfl, rfl, rfl⟩

/-- Whatever is interned, from nothing or from given tables on, the names of a part are those given
and interned, in the order of their first appearance. They correspond one to one to the identifiers
below their number, which they keep, and from them the schema is restored. -/
theorem numbered_after_calls {origin : Origin} {start : Schema} (h : origin.schema? = some start)
    (calls : List (Part × String)) :
    let s := calls.foldl after start
    s.Numbered ∧ ∀ part,
      (s.table part).names = (origin.names part ++ interned part calls).eraseDups := by
  refine ⟨numbered _, fun part => names_foldl ?_ calls⟩
  rw [← names_of_origin h part, eraseDups_of_nodup (start.table part).nodup]

/-- A known label is interned among new ones, and as a property. -/
theorem numbered_after_calls_of_known_label :
    let origin := Origin.tables ["A", "B"] ["e"] []
    let calls := [(Part.label, "C"), (.label, "B"), (.property, "B"), (.label, "C")]
    ∃ start, origin.schema? = some start ∧
      ((calls.foldl after start).table .label).names = ["A", "B", "C"] ∧
      ((calls.foldl after start).table .property).names = ["B"] ∧
      (calls.foldl after start).resolve? .label ⟨2⟩ = some "C" ∧
      ((calls.foldl after start).intern .label "B").2 = ⟨1⟩ := by
  intro origin calls
  have hstart : origin.schema? = some ⟨⟨["A", "B"], by decide⟩, ⟨["e"], by decide⟩, .empty⟩ := rfl
  obtain ⟨hnumbered, hnames⟩ := numbered_after_calls hstart calls
  refine ⟨_, hstart, hnames .label, hnames .property, ?_, ?_⟩
  · exact (hnumbered.lookup?_iff .label "C" ⟨2⟩).1 rfl
  · rw [hnumbered.intern_known .label "B" ⟨1⟩ rfl]

end Schema

end Plexus
