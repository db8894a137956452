import Plexus.Proofs.Assoc
import Plexus.Query.Row

/-!
# What rows bind

A row is made by binding one name after the other, by merging, or by keeping some of the columns of
another row. For each of these it is said what value a name has.
-/

namespace Plexus.Row

/-- No variable is bound twice. -/
def Proper (r : Row) : Prop := (Assoc.keys r.bindings).Nodup

theorem get?_empty (x : String) : empty.get? x = none := rfl

/-- Binding a name changes what that name is bound to and nothing else. -/
theorem get?_bind (r : Row) (name : String) (v : Value) (x : String) :
    (r.bind name v).get? x = if name = x then some v else r.get? x :=
  Assoc.get?_set _ _ _ _

theorem proper_empty : empty.Proper := List.nodup_nil

/-- Binding a name keeps a row proper. -/
theorem Proper.bind {r : Row} (h : r.Proper) (name : String) (v : Value) : (r.bind name v).Proper :=
  Assoc.nodup_keys_set h name v

/-- In a merged row the second one decides on the names that it binds. -/
theorem get?_merge (r : Row) {s : Row} (h : s.Proper) (x : String) :
    (r.merge s).get? x = (s.get? x).or (r.get? x) :=
  Assoc.get?_setAll _ h x

/-- Merging another row into it keeps a row proper. -/
theorem Proper.merge {r : Row} (h : r.Proper) (s : Row) : (r.merge s).Proper :=
  Assoc.nodup_keys_setAll h _

/-- Binding one name after the other sets them all. -/
theorem foldl_bind {α : Type} (l : List α) (name : α → String) (value : α → Value) (r : Row) :
    l.foldl (fun r a => r.bind (name a) (value a)) r =
      ⟨r.bindings.setAll (l.map fun a => (name a, value a))⟩ := by
  induction l generalizing r with
  | nil => rfl
  | cons a rest ih => exact ih _

/-- Binding names to values one after the other sets them all. -/
theorem foldl_bind_zip {α β : Type} (l : List α) (bs : List β) (name : α → String)
    (value : β → Value) (r : Row) :
    (l.zip bs).foldl (fun r p => r.bind (name p.1) (value p.2)) r =
      ⟨r.bindings.setAll ((l.map name).zip (bs.map value))⟩ := by
  rw [foldl_bind (l.zip bs) (fun p => name p.1) fun p => value p.2, List.zip_map]
  rfl

/-- Binding names to given values one after the other sets them all. -/
theorem foldl_bind_values {α : Type} (l : List α) (values : List Value) (name : α → String)
    (r : Row) : (l.zip values).foldl (fun r p => r.bind (name p.1) p.2) r =
      ⟨r.bindings.setAll ((l.map name).zip values)⟩ := by
  have hfold := foldl_bind_zip l values name id r
  rwa [List.map_id] at hfold

/-- The row of some columns with their values. A column that is named twice stands in its first
place with its last value. -/
def ofColumns (columns : List String) (values : List Value) : Row :=
  ⟨Assoc.ofList (columns.zip values)⟩

section

variable {columns more : List String} {values others : List Value}

/-- The first columns of a row are set before the others. -/
theorem ofColumns_append (h : columns.length = values.length) :
    ofColumns (columns ++ more) (values ++ others) =
      ⟨(ofColumns columns values).bindings.setAll (more.zip others)⟩ := by
  simp only [ofColumns, Assoc.ofList, Assoc.setAll, List.zip_append h, List.foldl_append]

/-- Further columns that are named once have their values, and the others keep theirs. -/
theorem get?_ofColumns_append (h : columns.length = values.length)
    (h' : more.length = others.length) (hmore : more.Nodup) (x : String) :
    (ofColumns (columns ++ more) (values ++ others)).get? x =
      (Assoc.get? (more.zip others) x).or ((ofColumns columns values).get? x) := by
  rw [ofColumns_append h]
  refine Assoc.get?_setAll _ ?_ x
  rw [Assoc.keys, List.map_fst_zip (Nat.le_of_eq h')]
  exact hmore

end

section

variable {r s : Row} {columns : List String}

/-- One column more is kept. -/
private def keep (r acc : Row) (c : String) : Row :=
  match r.get? c with
  | some v => acc.bind c v
  | none => acc

private theorem get?_keep (r acc : Row) (c x : String) :
    (r.keep acc c).get? x = if c = x then (r.get? x).or (acc.get? x) else acc.get? x := by
  unfold keep
  split
  · rename_i v hv
    rw [get?_bind]
    split
    · rename_i hx
      rw [← hx, hv, Option.some_or]
    · rfl
  · rename_i hnone
    split
    · rename_i hx
      rw [← hx, hnone, Option.none_or]
    · rfl

private theorem get?_foldl_keep (r : Row) (columns : List String) (acc : Row) (x : String) :
    (columns.foldl r.keep acc).get? x =
      if x ∈ columns then (r.get? x).or (acc.get? x) else acc.get? x := by
  induction columns generalizing acc with
  | nil => rfl
  | cons c rest ih =>
    rw [List.foldl_cons, ih, get?_keep]
    by_cases hc : c = x
    · subst hc
      cases r.get? c <;> simp
    · have hx : ¬x = c := Ne.symm hc
      simp [hc, hx]

/-- A projected row has what the row has in the columns, and nothing else. -/
theorem get?_project (r : Row) (columns : List String) (x : String) :
    (r.project columns).get? x = if x ∈ columns then r.get? x else none := by
  have hfold := get?_foldl_keep r columns .empty x
  rw [get?_empty, Option.or_none] at hfold
  exact hfold

/-- A projection depends on the columns that it keeps alone. -/
theorem project_congr (h : ∀ c ∈ columns, r.get? c = s.get? c) :
    r.project columns = s.project columns :=
  List.foldl_ext _ _ _ fun acc c hc => by rw [h c hc]

/-- A projected row binds none but the columns. -/
theorem mem_of_binds_project {x : String} (h : (r.project columns).binds x = true) :
    x ∈ columns := by
  rw [binds, get?_project] at h
  split at h
  · assumption
  · cases h

end

end Plexus.Row
