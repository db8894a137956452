import Mathlib.Data.List.Infix
import Plexus.Graph.Change

/-!
# Growth of a schema

Interning only adds names at the end of a table, so an identifier keeps its name for good. The
identifiers that interning gives are those of the interned names. A schema that is made of tables
has exactly their names.
-/

namespace Plexus

namespace NameTable

/-- Interning adds at most one name, at the end. -/
theorem names_prefix_intern (t : NameTable) (name : String) :
    t.names <+: (t.intern name).1.names := by
  unfold intern insert
  split
  · exact List.prefix_rfl
  · split
    · exact List.prefix_rfl
    · exact List.prefix_append _ _

/-- An interned name is found at the position that interning gives. -/
theorem resolve?_intern (t : NameTable) (name : String) :
    (t.intern name).1.resolve? (t.intern name).2 = some name := by
  unfold intern
  split
  · rename_i position h
    obtain ⟨hlt, heq, -⟩ := List.idxOf?_eq_some_iff.1 h
    simp only [resolve?, List.getElem?_eq_getElem hlt]
    exact congrArg some heq
  · rename_i h
    have hnew : name ∉ t.names := List.idxOf?_eq_none_iff.1 h
    simp [resolve?, insert, hnew, size]

/-- A name is found at its position and nowhere else. -/
theorem lookup?_of_resolve? {t : NameTable} {position : Nat} {name : String}
    (h : t.resolve? position = some name) : t.lookup? name = some position := by
  obtain ⟨hlt, heq⟩ := List.getElem?_eq_some_iff.1 h
  refine List.idxOf?_eq_some_iff.2 ⟨hlt, heq, fun j hj hname => ?_⟩
  exact List.pairwise_iff_getElem.1 t.nodup j position (hj.trans hlt) hlt hj (hname.trans heq.symm)

end NameTable

namespace Schema

/-- Every table of the first schema is the beginning of the second one's. -/
def Grows (s t : Schema) : Prop := ∀ part, (s.table part).names <+: (t.table part).names

variable {s t u : Schema} {part : Part}

theorem Grows.refl (s : Schema) : s.Grows s := fun _ => List.prefix_rfl

theorem Grows.trans (h : s.Grows t) (h' : t.Grows u) : s.Grows u := fun part =>
  (h part).trans (h' part)

/-- An identifier that has a name keeps it. -/
theorem Grows.resolve? (h : s.Grows t) {id : Id part.kind} {name : String}
    (hid : s.resolve? part id = some name) : t.resolve? part id = some name := by
  obtain ⟨more, hmore⟩ := h part
  unfold Schema.resolve? NameTable.resolve? at hid ⊢
  rw [← hmore, List.getElem?_append_left (List.getElem?_eq_some_iff.1 hid).1]
  exact hid

/-- Names that are known stay known in a schema that grows. -/
theorem Grows.isSome_resolve? (h : s.Grows t) {id : Id part.kind}
    (hid : (s.resolve? part id).isSome) : (t.resolve? part id).isSome := by
  obtain ⟨name, hname⟩ := Option.isSome_iff_exists.1 hid
  rw [h.resolve? hname]
  rfl

theorem Grows.labelName? (h : s.Grows t) {id : LabelId} (hid : (s.labelName? id).isSome) :
    (t.labelName? id).isSome :=
  isSome_resolve? h hid

theorem Grows.typeName? (h : s.Grows t) {id : TypeId} (hid : (s.typeName? id).isSome) :
    (t.typeName? id).isSome :=
  isSome_resolve? h hid

theorem Grows.propertyName? (h : s.Grows t) {id : PropertyId}
    (hid : (s.propertyName? id).isSome) : (t.propertyName? id).isSome :=
  isSome_resolve? h hid

@[simp] theorem table_withTable_self (s : Schema) (part : Part) (t : NameTable) :
    (s.withTable part t).table part = t := by
  cases part <;> rfl

/-- Replacing the table of one part leaves those of the others. -/
theorem table_withTable_of_ne (s : Schema) {part other : Part} (t : NameTable) (h : other ≠ part) :
    (s.withTable part t).table other = s.table other := by
  cases part <;> cases other <;> first | rfl | exact absurd rfl h

/-- Interning a name makes a schema grow. -/
theorem grows_intern (s : Schema) (part : Part) (name : String) :
    s.Grows (s.intern part name).1 := by
  intro other
  by_cases h : other = part
  · subst h
    simpa [intern] using NameTable.names_prefix_intern _ _
  · simp [intern, table_withTable_of_ne _ _ h]

/-- An interned name belongs to the identifier that interning gives. -/
theorem resolve?_intern (s : Schema) (part : Part) (name : String) :
    (s.intern part name).1.resolve? part (s.intern part name).2 = some name := by
  simpa [intern, resolve?] using NameTable.resolve?_intern _ _

/-- An identifier is found under its name. -/
theorem lookup?_of_resolve? {id : Id part.kind} {name : String}
    (h : s.resolve? part id = some name) : s.lookup? part name = some id := by
  unfold lookup?
  rw [NameTable.lookup?_of_resolve? h]
  rfl

/-- Interning a known name changes nothing. -/
theorem intern_of_lookup? {id : Id part.kind} {name : String}
    (h : s.lookup? part name = some id) : s.intern part name = (s, id) := by
  obtain ⟨position, hposition, rfl⟩ := Option.map_eq_some_iff.1 h
  unfold intern NameTable.intern
  rw [hposition]
  cases part <;> rfl

/-- Every position in a name table has a name. -/
theorem isSome_resolve?_iff {part : Part} {id : Id part.kind} :
    (s.resolve? part id).isSome ↔ id.index < (s.table part).names.length := by
  simp [resolve?, NameTable.resolve?]

/-- Tables are restored to the schema that has them, if there is one. -/
theorem ofTables?_eq_some {labels relationTypes properties : List String} :
    ofTables? labels relationTypes properties = some s ↔
      s.labels.names = labels ∧ s.relationTypes.names = relationTypes ∧
        s.properties.names = properties := by
  have htable (names : List String) (t : NameTable) :
      NameTable.ofList? names = some t ↔ t.names = names := by
    unfold NameTable.ofList?
    split
    · rw [Option.some.injEq]
      constructor
      · rintro rfl
        rfl
      · rintro rfl
        rfl
    · rename_i hnodup
      constructor
      · rintro ⟨⟩
      · rintro rfl
        exact absurd t.nodup hnodup
  unfold ofTables?
  simp only [bind, pure, Option.bind_eq_some_iff, htable, Option.some.injEq]
  constructor
  · rintro ⟨a, ha, b, hb, c, hc, rfl⟩
    exact ⟨ha, hb, hc⟩
  · rintro ⟨ha, hb, hc⟩
    exact ⟨_, ha, _, hb, _, hc, rfl⟩

end Schema

namespace Graph

variable {part : Schema.Part}

/-- Interning names makes a schema grow. -/
theorem grows_internAll (s : Schema) (part : Schema.Part) (names : List String) :
    s.Grows (internAll s part names).1 := by
  induction names generalizing s with
  | nil => exact .refl s
  | cons name rest ih => exact (s.grows_intern part name).trans (ih _)

/-- Every identifier that comes of interning some names has a name. -/
theorem resolve?_internAll (s : Schema) (part : Schema.Part) (names : List String) :
    ∀ id ∈ (internAll s part names).2, ((internAll s part names).1.resolve? part id).isSome := by
  induction names generalizing s with
  | nil => simp [internAll]
  | cons name rest ih =>
    intro id hid
    simp only [internAll, List.mem_cons] at hid
    rcases hid with rfl | hid
    · rw [internAll, (grows_internAll _ part rest).resolve? (s.resolve?_intern part name)]
      rfl
    · exact ih _ id hid

/-- Interning the names of properties makes a schema grow. -/
theorem grows_internProperties (s : Schema) (named : List (String × Scalar)) :
    s.Grows (internProperties s named).1 :=
  grows_internAll s .property _

/-- Every property that comes of interning named values has a name. -/
theorem resolve?_internProperties (s : Schema) (named : List (String × Scalar)) (key : PropertyId)
    (hkey : key ∈ (internProperties s named).2) :
    ((internProperties s named).1.propertyName? key).isSome := by
  have hmem : key ∈ ((internAll s .property (named.map Prod.fst)).2.zip
      (named.map Prod.snd)).map Prod.fst := by
    simpa [internProperties, PropertyMap.ofPairs] using hkey
  obtain ⟨pair, hpair, rfl⟩ := List.mem_map.1 hmem
  exact resolve?_internAll s .property _ _ (List.of_mem_zip hpair).1

end Graph

end Plexus
