import Plexus.Operator.Sorting

/-!
# Graphs that are read alike

An expression looks at a graph only to read a property, the labels or the type of a value. On two
graphs where these readings are the same, everything that is made of the values of expressions on a
row is the same.
-/

namespace Plexus

/-- Whatever is read of a value is the same on both graphs. -/
structure Graph.SameReads (g h : Graph) : Prop where
  property (v : Value) (key : String) :
    Expression.readProperty h v key = Expression.readProperty g v key
  labels (v : Value) (names : List String) :
    Expression.readLabels h v names = Expression.readLabels g v names
  call (function : String) (v : Value) :
    Expression.callOn h function v = Expression.callOn g function v

namespace Graph.SameReads

variable {g h : Graph}

mutual

/-- An expression has the same value on both graphs. -/
theorem evaluate (hr : g.SameReads h) (row : Row) (e : Expression) :
    e.evaluate h row = e.evaluate g row := by
  cases e with
  | ref name => rfl
  | property name key => simp only [Expression.evaluate, hr.property]
  | literal value => rfl
  | hasLabels name labels => simp only [Expression.evaluate, hr.labels]
  | binary op left right =>
    have hleft := evaluate hr row left
    have hright := evaluate hr row right
    cases op <;> simp only [Expression.evaluate, hleft, hright]
  | unary op operand =>
    have hoperand := evaluate hr row operand
    cases op <;> simp only [Expression.evaluate, hoperand]
  | call function arguments =>
    simp only [Expression.evaluate, evaluateCall hr row function arguments]

private theorem evaluateCall (hr : g.SameReads h) (row : Row) (function : String)
    (arguments : List Expression) :
    Expression.evaluateCall h row function arguments =
      Expression.evaluateCall g row function arguments := by
  cases arguments with
  | nil => rfl
  | cons e rest =>
    have hfirst := evaluate hr row e
    cases rest with
    | nil => simp only [Expression.evaluateCall, hfirst, hr.call]
    | cons f rest => rfl

end

/-- A condition holds alike in graphs that are read alike. -/
theorem isMatch (hr : g.SameReads h) (row : Row) (e : Expression) :
    e.isMatch h row = e.isMatch g row := by
  rw [Expression.isMatch, Expression.isMatch, hr.evaluate]

/-- Expressions have the same values in graphs that are read alike. -/
theorem evaluateAll (hr : g.SameReads h) (row : Row) (es : List Expression) :
    Plexus.evaluateAll h row es = Plexus.evaluateAll g row es := by
  induction es with
  | nil => rfl
  | cons e rest ih => simp only [Plexus.evaluateAll, hr.evaluate, ih]

/-- A row is projected alike in graphs that are read alike. -/
theorem projectRow (hr : g.SameReads h) (items : List NamedExpression) (row : Row) :
    Plexus.projectRow h items row = Plexus.projectRow g items row := by
  rw [Plexus.projectRow, Plexus.projectRow, hr.evaluateAll]

/-- A row has the same keys in graphs that are read alike. -/
theorem keyedRow (hr : g.SameReads h) (keys : List OrderItem) (row : Row) :
    KeyedRow.of h keys row = KeyedRow.of g keys row := by
  rw [KeyedRow.of, KeyedRow.of, hr.evaluateAll]

private theorem addRow (hr : g.SameReads h) (row : Row) (columns : List AggregateColumn)
    (accs : List Accumulator) :
    Groups.addRow h row columns accs = Groups.addRow g row columns accs := by
  induction columns generalizing accs with
  | nil => cases accs <;> rfl
  | cons column columns ih =>
    cases accs with
    | nil => rfl
    | cons acc accs => simp only [Groups.addRow, hr.evaluate, ih]

/-- A row is added alike to groups in graphs that are read alike. -/
theorem addToGroups (hr : g.SameReads h) (keys : List NamedExpression)
    (columns : List AggregateColumn) :
    Groups.add h keys columns = Groups.add g keys columns := by
  funext groups row
  simp only [Groups.add, hr.evaluateAll, hr.addRow]

end Graph.SameReads

end Plexus
