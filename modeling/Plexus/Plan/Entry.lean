import Plexus.Operator.Tree
import Plexus.Plan.Focus

/-!
# Where a path is entered

A path is entered at a node with a label and an equality on an indexed property, if there is one;
else at the node with the label that has the fewest members; else at its first node. Of several
nodes with one variable only the first can be the entry. The equality may stand in the pattern or
be a conjunct of the condition; either way the leaf takes care of it, and of the label.
-/

namespace Plexus

/-- The key and literal of an equality on a property of a variable, written either way round. -/
def Expression.equalityOn? (name : String) : Expression → Option (String × Scalar)
  | binary .eq (property n key) (literal value) | binary .eq (literal value) (property n key) =>
    if n = name then some (key, value) else none
  | _ => none

/-- The first answer that a test gives on the items of a list, with all items but that one. -/
def extractFirst? {α β : Type} (test : α → Option β) : List α → Option (β × List α)
  | [] => none
  | a :: rest =>
    match test a with
    | some b => some (b, rest)
    | none => (extractFirst? test rest).map fun (b, others) => (b, a :: others)

/-- The node at which a path is entered, and what its leaf takes care of. -/
structure Entry where
  focus : Focus
  access : Access
  /-- The label that the leaf looks up. -/
  label : Option String
  /-- The property in the pattern that the leaf looks up. -/
  key : Option String
  /-- The conjuncts that the leaf leaves to others. -/
  pending : List Expression

namespace Entry

/-- The index on a label that answers an equality with a value, if there is one. -/
def indexFor? (g : Graph) (label : LabelId) (key : String) (value : Scalar) : Option Access :=
  if value.isNull then none
  else
    match g.schema.propertyId? key with
    | none => none
    | some property =>
      if g.hasIndex label property then some (.index label property value) else none

/-- Enter at a node by an index on one of its labels: on a property in the pattern, or else on one
that a conjunct compares. -/
def byIndexOn? (g : Graph) (pending : List Expression) (focus : Focus) (name : String) :
    Option Entry :=
  match g.schema.labelId? name with
  | none => none
  | some label =>
    let inline := focus.node.pattern.properties.findSome? fun (key, value) =>
      (indexFor? g label key value).map (key, ·)
    match inline with
    | some (key, access) => some ⟨focus, access, some name, some key, pending⟩
    | none =>
      let conjunct := extractFirst? (fun e => (e.equalityOn? focus.node.name).bind
        fun (key, value) => indexFor? g label key value) pending
      conjunct.map fun (access, others) => ⟨focus, access, some name, none, others⟩

/-- Enter at the first node with an index to enter by. -/
def byIndex? (g : Graph) (pending : List Expression) (candidates : List Focus) : Option Entry :=
  candidates.findSome? fun focus =>
    focus.node.pattern.labels.findSome? (byIndexOn? g pending focus)

/-- How many nodes have a label; none if it is unknown. -/
def cardinality (g : Graph) (name : String) : Nat :=
  match g.schema.labelId? name with
  | some label => g.labelCount label
  | none => 0

/-- The first of some labels with the fewest members. -/
def rarest? (g : Graph) : List (Focus × String) → Option (Focus × String)
  | [] => none
  | a :: rest =>
    match rarest? g rest with
    | some b => if cardinality g b.2 < cardinality g a.2 then some b else some a
    | none => some a

/-- Enter at the node whose label has the fewest members. -/
def byLabel? (g : Graph) (pending : List Expression) (candidates : List Focus) : Option Entry :=
  (rarest? g (candidates.flatMap fun f => f.node.pattern.labels.map (f, ·))).map
    fun (focus, name) => ⟨focus, .label (g.schema.labelId? name), some name, none, pending⟩

/-- The entry of a path that is seen from its first node. -/
def choose (g : Graph) (pending : List Expression) (path : Focus) : Entry :=
  match byIndex? g pending path.candidates with
  | some entry => entry
  | none =>
    match byLabel? g pending path.candidates with
    | some entry => entry
    | none => ⟨path, .all, none, none, pending⟩

/-- The labels of the entry that the leaf does not look up. -/
def otherLabels (e : Entry) : List String :=
  match e.label with
  | some label => e.focus.node.pattern.labels.erase label
  | none => e.focus.node.pattern.labels

/-- What the pattern asks of the entry beyond what the leaf takes care of. -/
def conditions (e : Entry) : List Expression :=
  let name := e.focus.node.name
  let labels := if e.otherLabels.isEmpty then [] else [.hasLabels name e.otherLabels]
  let properties := e.focus.node.pattern.properties.filter fun (key, _) => some key ≠ e.key
  labels ++ properties.map fun (key, value) => .propertyEquals name key value

end Entry

end Plexus
