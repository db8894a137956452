import Plexus.Plan.Build
import Plexus.Proofs.Plan.Names

/-!
# What a valid query returns

Validity says of the part of a query after its pattern that what it returns, groups, aggregates and
sorts by can be read off the variables of the pattern. A key to sort by is a returned column, or the
planner adds a hidden column for it.
-/

namespace Plexus

/-! ## Names of columns -/

/-- Whether a name is reserved shows at its beginning. -/
theorem isReserved_append {a : String} (h : a ≠ "") (b : String) :
    isReserved (a ++ b) = isReserved a := by
  have hne : a.toList ≠ [] := fun hnil => h (String.toList_injective hnil)
  rw [isReserved, isReserved, String.toList_append, List.head?_append_of_ne_nil _ hne]

/-- What begins like a function is not reserved, since the letters of functions do not. -/
theorem free_of_toLower {f : String} (hne : f.map Char.toLower ≠ "")
    (h : isReserved (f.map Char.toLower) = false) (s : String) : isReserved (f ++ s) = false := by
  have hf : f ≠ "" := fun hnil => hne (by simp [hnil])
  rw [isReserved_append hf, Bool.eq_false_iff]
  intro hreserved
  simp only [isReserved, String.toList_map, List.head?_map, decide_eq_true_eq,
    decide_eq_false_iff_not] at h hreserved
  rw [hreserved] at h
  exact h rfl

namespace Scope

variable {scope : Scope}

/-- A function that may be called in what is returned. -/
theorem function_of_checkReturned {f : String} {arguments : List Expression}
    (h : scope.checkReturned (.call f arguments) = .ok ()) :
    f.map Char.toLower ∈ ["id", "type", "count", "sum", "avg", "min", "max"] := by
  unfold checkReturned at h
  dsimp only at h
  cases hname : AggregateFunction.ofName? f with
  | some a =>
    have ha : a.text = f.map Char.toLower := by simpa using List.find?_some hname
    rw [← ha]
    cases a <;> decide
  | none =>
    rw [hname] at h
    simp only [checkExpression, hname, Option.isSome_none, Bool.false_eq_true, if_false] at h
    split at h
    · cases h
    · rename_i hlowered
      by_cases hid : f.map Char.toLower = "id"
      · simp [hid]
      · by_cases htype : f.map Char.toLower = "type"
        · simp [htype]
        · exact absurd ⟨hid, htype⟩ hlowered
/-- No variable has a reserved name, and so no column that is named after what is returned. -/
theorem free_columnName? (hscope : ∀ x, (scope.get? x).isSome → isReserved x = false)
    {e : Expression} (h : scope.checkReturned e = .ok ()) {c : String}
    (hc : e.columnName? = some c) : isReserved c = false := by
  have hdeclared {e : Expression} (h : scope.checkExpression none e = .ok ()) {x : String}
      (hx : x ∈ e.occurrences) : isReserved x = false := by
    obtain ⟨role, hrole⟩ := (e.evaluable_of_check h).reads x hx
    exact hscope x (by rw [hrole]; rfl)
  cases e with
  | ref x =>
    cases hc
    exact hdeclared h List.mem_cons_self
  | property x key =>
    cases hc
    have hx : isReserved x = false := hdeclared h List.mem_cons_self
    show isReserved (x ++ "." ++ key) = false
    -- a variable may have no letters, and then the column begins with the dot
    by_cases hempty : x = ""
    · subst hempty
      simp [isReserved, String.toList_append, reservedMark]
    · rw [String.append_assoc, isReserved_append hempty, hx]
  | call f arguments =>
    have hf := function_of_checkReturned h
    have hfree : ∀ s, isReserved (f ++ s) = false := by
      simp only [List.mem_cons, List.not_mem_nil, or_false] at hf
      rcases hf with hf | hf | hf | hf | hf | hf | hf <;>
        exact free_of_toLower (by rw [hf]; decide) (by rw [hf]; decide)
    cases arguments with
    | nil =>
      cases hc
      exact hfree _
    | cons a rest =>
      rw [Expression.columnName?] at hc
      · obtain ⟨names, -, rfl⟩ := Option.map_eq_some_iff.1 hc
        rw [String.append_assoc, String.append_assoc]
        exact hfree _
      · simp
  | _ => cases hc

/-- A valid returned expression has a column with a name that is not reserved. -/
theorem free_column (hscope : ∀ x, (scope.get? x).isSome → isReserved x = false)
    {item : ReturnItem} (hgiven : ∀ name, item.givenName = some name → isReserved name = false)
    (h : scope.checkReturned item.expression = .ok ()) (position : Nat) :
    isReserved (item.column position) = false := by
  unfold ReturnItem.column
  cases hname : item.givenName with
  | some name => exact hgiven name hname
  | none =>
    cases hcolumn : item.expression.columnName? with
    | some c => exact free_columnName? hscope h hcolumn
    | none => exact isReserved_append (by decide) _

end Scope

/-! ## What is returned and sorted by -/

/-- The expression can be evaluated, or else what it aggregates. -/
structure Expression.Returnable (names : String → Prop) (e : Expression) : Prop where
  plain : e.isAggregate = false → e.Evaluable names
  argument (function : String) (arguments : List Expression) : e = .call function arguments →
    e.isAggregate = true → ∀ a, arguments.head? = some a → a.Evaluable names

namespace Query

variable {q : Query} {scope : Scope} {columns : List String} {g : Graph}

/-- The variables without which a query returns nothing are those that it names. -/
theorem mem_namedVariables (q : Query) (x : String) :
    x ∈ q.namedVariables ↔ q.Declares x := by
  simp only [namedVariables, Declares, Path.Declares, Path.nodes, Path.edges, List.mem_eraseDups,
    List.mem_flatMap, List.mem_append, Option.mem_toList, List.exists_mem_cons_iff, List.mem_map]
  refine exists_congr fun p => and_congr_right fun _ => ⟨?_, ?_⟩
  · rintro (hx | ⟨s, hs, hx | hx⟩)
    · exact .inl (.inl hx)
    · exact .inr ⟨s.1, ⟨s, hs, rfl⟩, hx⟩
    · exact .inl (.inr ⟨s.2, ⟨s, hs, rfl⟩, hx⟩)
  · rintro ((hx | ⟨_, ⟨s, hs, rfl⟩, hx⟩) | ⟨_, ⟨s, hs, rfl⟩, hx⟩)
    · exact .inl hx
    · exact .inr ⟨s, hs, .inr hx⟩
    · exact .inr ⟨s, hs, .inl hx⟩

theorem length_columnsOf (items : List ReturnItem) :
    (columnsOf items).length = items.length := by
  simp [columnsOf]

/-- The column of a variable is its name. -/
theorem columnsOf_refs (vs : List String) :
    columnsOf (vs.map fun v => ⟨.ref v, none⟩) = vs := by
  have hcolumn : (fun p : ReturnItem × Nat => p.1.column p.2) ∘
      Prod.map (fun v : String => (⟨.ref v, none⟩ : ReturnItem)) id = Prod.fst := by
    funext p
    rfl
  rw [columnsOf, List.zipIdx_map, List.map_map]
  exact (congrArg (List.map · vs.zipIdx) hcolumn).trans (List.zipIdx_map_fst 0 vs)

/-- What passes the check can be returned, with what the query declares bound. -/
theorem returnable_of_checkReturned (hscope : Scope.ofPaths q.paths = .ok scope)
    {e : Expression} (h : scope.checkReturned e = .ok ()) : e.Returnable q.Declares := by
  unfold Scope.checkReturned at h
  split at h
  · rename_i function arguments
    split at h
    · rename_i aggregate hname
      refine ⟨fun hplain => ?_, fun function' arguments' heq _ a ha => ?_⟩
      · simp [Expression.isAggregate, Expression.aggregate?, hname] at hplain
      · cases heq
        unfold Scope.checkAggregate at h
        split at h
        · cases ha
        · cases ha
          exact evaluable_of_check hscope h
        · cases h
    · rename_i hname
      refine ⟨fun _ => evaluable_of_check hscope h, fun function' arguments' _ haggregate => ?_⟩
      simp [Expression.isAggregate, Expression.aggregate?, hname] at haggregate
  · rename_i hne
    refine ⟨fun _ => evaluable_of_check hscope h, fun function arguments heq _ => ?_⟩
    exact absurd heq (hne function arguments)

/-- The columns of items that pass their checks are added to those before them. -/
theorem checks_of_checkItems {items : List (ReturnItem × Nat)} {before : List String}
    (h : scope.checkItems before items = .ok columns) :
    columns = before ++ items.map (fun p => p.1.column p.2) ∧
      ∀ p ∈ items, (∀ name, p.1.givenName = some name → isReserved name = false) ∧
        scope.checkReturned p.1.expression = .ok () := by
  induction items generalizing before with
  | nil =>
    cases h
    exact ⟨(List.append_nil _).symm, List.forall_mem_nil _⟩
  | cons p rest ih =>
    obtain ⟨item, position⟩ := p
    rw [Scope.checkItems] at h
    have hrest : (∀ name, item.givenName = some name → isReserved name = false) ∧
      ∃ u : Unit, scope.checkReturned item.expression = .ok u ∧
        (if item.column position ∈ before then
          throw (.duplicateColumn (item.column position)) >>= fun _ : Unit =>
            scope.checkItems (before ++ [item.column position]) rest
          else scope.checkItems (before ++ [item.column position]) rest) = .ok columns := by
      cases hname : item.givenName with
      | none =>
        rw [hname] at h
        exact ⟨nofun, bind_eq_ok.1 h⟩
      | some name =>
        rw [hname] at h
        obtain ⟨⟨⟩, hfree, h⟩ := bind_eq_ok.1 h
        refine ⟨?_, bind_eq_ok.1 h⟩
        rintro _ ⟨⟩
        exact free_of_checkName hfree
    obtain ⟨hgiven, ⟨⟩, hcheck, hrest⟩ := hrest
    obtain ⟨-, hrest⟩ := guard_eq_ok.1 hrest
    obtain ⟨rfl, hall⟩ := ih hrest
    exact ⟨by simp, List.forall_mem_cons.2 ⟨⟨hgiven, hcheck⟩, hall⟩⟩

/-- What validity says of the part of a query after its pattern, apart from its keys to order by. -/
theorem items_of_checkReturn (hscope : Scope.ofPaths q.paths = .ok scope)
    (h : scope.checkReturn q.returns = .ok columns) :
    (∀ item ∈ q.items, item.expression.Returnable q.Declares) ∧
      (∀ x ∈ q.columns, isReserved x = false) ∧ ∀ x ∈ columns, x ∈ q.columns := by
  unfold Scope.checkReturn at h
  cases hreturns : q.returns with
  | none =>
    rw [hreturns] at h
    have hitems : q.items = q.namedVariables.map fun v => ⟨.ref v, none⟩ := by
      rw [items, hreturns]
    dsimp only at h
    split at h
    · cases h
    cases h
    rw [Query.columns, hitems, columnsOf_refs]
    refine ⟨fun item hitem => ?_, fun x hx => ?_, fun x hx => ?_⟩
    · obtain ⟨v, hv, rfl⟩ := List.mem_map.1 hitem
      refine ⟨fun _ => ⟨trivial, fun x hx => ?_⟩, fun _ _ heq => by cases heq⟩
      rw [Expression.occurrences, List.mem_singleton] at hx
      exact hx ▸ (mem_namedVariables q v).1 hv
    · exact free_of_declares hscope ((mem_namedVariables q x).1 hx)
    · obtain ⟨role, hrole⟩ := Option.isSome_iff_exists.1 ((Assoc.get?_isSome_iff scope x).2 hx)
      exact (mem_namedVariables q x).2 (declares_of_get? hscope hrole)
  | some r =>
    rw [hreturns] at h
    have hitems : q.items = r.items := by rw [items, hreturns]
    dsimp only at h
    split at h
    · cases h
    obtain ⟨rfl, hall⟩ := checks_of_checkItems h
    rw [Query.columns, hitems]
    refine ⟨fun item hitem => ?_, fun x hx => ?_, fun x hx => hx⟩
    · obtain ⟨i, hi⟩ := List.mem_iff_getElem?.1 hitem
      have hmem : (item, i) ∈ r.items.zipIdx := List.mk_mem_zipIdx_iff_getElem?.2 hi
      exact returnable_of_checkReturned hscope (hall _ hmem).2
    · obtain ⟨p, hp, rfl⟩ := List.mem_map.1 hx
      refine Scope.free_column (fun y hy => ?_) (hall p hp).1 (hall p hp).2 p.2
      obtain ⟨role, hrole⟩ := Option.isSome_iff_exists.1 hy
      exact free_of_declares hscope (declares_of_get? hscope hrole)

/-- A key is the name of a column, or else its column is the first that is written as the key. -/
theorem of_orderColumn?_eq_some {items : List ReturnItem} {e : Expression} {c : String}
    (h : orderColumn? items columns e = some c) : (e = .ref c ∧ c ∈ columns) ∨
      (∀ x, e = .ref x → x ∉ columns) ∧ ∃ item,
        (items.zip columns).find? (fun p => p.1.expression.isSame e) = some (item, c) := by
  have hreturned {c : String}
      (h : ((items.zip columns).find? fun p => p.1.expression.isSame e).map Prod.snd = some c) :
      ∃ item, (items.zip columns).find? (fun p => p.1.expression.isSame e) = some (item, c) := by
    obtain ⟨⟨item, c'⟩, hfind, rfl⟩ := Option.map_eq_some_iff.1 h
    exact ⟨item, hfind⟩
  unfold orderColumn? at h
  dsimp only at h
  split at h
  · rename_i name
    split at h
    · rename_i hname
      cases h
      exact .inl ⟨rfl, hname⟩
    · rename_i hname
      refine .inr ⟨fun x hx => ?_, hreturned h⟩
      cases hx
      exact hname
  · rename_i hne
    exact .inr ⟨fun x hx => absurd hx (hne x), hreturned h⟩

/-- A key that is read from a returned column is read from one there is. -/
theorem mem_of_orderColumn? {items : List ReturnItem} {e : Expression} {c : String}
    (h : orderColumn? items columns e = some c) : c ∈ columns := by
  rcases of_orderColumn?_eq_some h with ⟨-, hc⟩ | ⟨-, item, hfind⟩
  · exact hc
  · exact (List.of_mem_zip (List.mem_of_find?_eq_some hfind)).2

/-- A key without a column is neither the name of one nor written as one is. -/
theorem of_orderColumn?_eq_none {items : List ReturnItem} {e : Expression}
    (hlength : items.length = columns.length) (h : orderColumn? items columns e = none) :
    (∀ x, e = .ref x → x ∉ columns) ∧ ∀ item ∈ items, item.expression.isSame e = false := by
  have hreturned
      (h : ((items.zip columns).find? fun p => p.1.expression.isSame e).map Prod.snd =
        none) : ∀ item ∈ items, item.expression.isSame e = false := by
    rw [Option.map_eq_none_iff, List.find?_eq_none] at h
    intro item hitem
    rw [← List.map_fst_zip hlength.le] at hitem
    obtain ⟨p, hp, rfl⟩ := List.mem_map.1 hitem
    exact Bool.eq_false_iff.2 (h p hp)
  unfold orderColumn? at h
  dsimp only at h
  split at h
  · rename_i name
    split at h
    · cases h
    · rename_i hname
      refine ⟨fun x hx => ?_, hreturned h⟩
      cases hx
      exact hname
  · rename_i hne
    exact ⟨fun x hx => absurd hx (hne x), hreturned h⟩

/-- A key to order by that is not a column is on the matches, which are still there. -/
theorem of_checkOrder (hscope : Scope.ofPaths q.paths = .ok scope)
    (hcolumns : ∀ x ∈ columns, x ∈ q.columns) {item : OrderItem}
    (h : scope.checkOrder q columns item = .ok ())
    (hnone : orderColumn? q.items q.columns item.expression = none) :
    q.isAggregating = false ∧ q.isDistinct = false ∧ item.expression.Evaluable q.Declares := by
  obtain ⟨hname, hsame⟩ := of_orderColumn?_eq_none (length_columnsOf q.items).symm hnone
  have hreturned : (q.returns.any fun r => r.items.any fun i =>
      i.expression.isSame item.expression) = false := by
    cases hreturns : q.returns with
    | none => rfl
    | some r =>
      have hitems : q.items = r.items := by rw [items, hreturns]
      rw [hitems] at hsame
      rw [Option.any_some, List.any_eq_false]
      exact fun i hi => Bool.eq_false_iff.1 (hsame i hi)
  have hmatches (h : (if (q.isAggregating || q.isDistinct) = true then
      .error .orderByUnreturned else scope.checkExpression none item.expression) = .ok ()) :
      q.isAggregating = false ∧ q.isDistinct = false ∧ item.expression.Evaluable q.Declares := by
    split at h
    · cases h
    · rename_i hplain
      rw [Bool.or_eq_true, not_or, Bool.not_eq_true, Bool.not_eq_true] at hplain
      exact ⟨hplain.1, hplain.2, evaluable_of_check hscope h⟩
  unfold Scope.checkOrder at h
  dsimp only at h
  rw [hreturned] at h
  split at h
  · rename_i name heq
    have hcolumn : ¬name ∈ columns := fun hmem => hname name heq (hcolumns name hmem)
    simp only [hcolumn, decide_false, Bool.or_self, Bool.false_eq_true, if_false] at h
    exact hmatches h
  · exact hmatches h

/-- What validity says of the part of a query after its pattern. -/
structure Returns (q : Query) : Prop where
  items : ∀ item ∈ q.items, item.expression.Returnable q.Declares
  free : ∀ x ∈ q.columns, isReserved x = false
  order : ∀ item ∈ q.orderBy, orderColumn? q.items q.columns item.expression = none →
    q.isAggregating = false ∧ q.isDistinct = false ∧ item.expression.Evaluable q.Declares

/-- A valid query returns what can be returned. -/
theorem returns_of_validate (h : q.validate = .ok ()) : q.Returns := by
  obtain ⟨scope, columns, hscope, -, hcolumns, horder⟩ := validate_eq_ok.1 h
  obtain ⟨hitems, hfree, hsub⟩ := items_of_checkReturn hscope hcolumns
  exact ⟨hitems, hfree, fun item hitem => of_checkOrder hscope hsub (horder item hitem)⟩

/-- A key to sort by goes the same way as the key to order by that it stands for, and refers to the
column of that key, or to its hidden column if it has none. -/
structure Refers (items : List ReturnItem) (columns : List String) (hidden : List NamedExpression)
    (item key : OrderItem) : Prop where
  ascending : key.ascending = item.ascending
  column : ∃ c, key.expression = .ref c ∧ (orderColumn? items columns item.expression = some c ∨
    orderColumn? items columns item.expression = none ∧ ⟨item.expression, c⟩ ∈ hidden)

/-- Hidden columns are numbered by their places. -/
def Numbered (hidden : List NamedExpression) : Prop :=
  hidden.map (·.column) = (List.range hidden.length).map (internalName "sort")

/-- No two hidden columns have one name. -/
theorem Numbered.nodup {hidden : List NamedExpression} (h : Numbered hidden) :
    (hidden.map (·.column)).Nodup := by
  rw [h]
  exact List.nodup_range.map (internalName_injective "sort")

/-- The names of hidden columns are reserved. -/
theorem Numbered.isReserved {hidden : List NamedExpression} (h : Numbered hidden) {c : String}
    (hc : c ∈ hidden.map (·.column)) : isReserved c = true := by
  rw [h] at hc
  obtain ⟨k, -, rfl⟩ := List.mem_map.1 hc
  exact isReserved_internalName "sort" k

/-- There is a key to sort by for every key to order by, and a hidden column for every one that has
no column of its own. -/
theorem orderKeys_spec (items : List ReturnItem) (columns : List String)
    {hidden : List NamedExpression} (hnumbered : Numbered hidden) (order : List OrderItem) :
    List.Forall₂ (Refers items columns (orderKeys items columns hidden order).2) order
        (orderKeys items columns hidden order).1 ∧
      Numbered (orderKeys items columns hidden order).2 ∧
      ∃ added, (orderKeys items columns hidden order).2 = hidden ++ added ∧
        ∀ n ∈ added, ∃ item ∈ order, orderColumn? items columns item.expression = none ∧
          n.expression = item.expression := by
  induction order generalizing hidden with
  | nil => exact ⟨.nil, hnumbered, [], (List.append_nil _).symm, List.forall_mem_nil _⟩
  | cons item rest ih =>
    rw [orderKeys]
    cases hcolumn : orderColumn? items columns item.expression with
    | some c =>
      obtain ⟨hkeys, hall, added, hhidden, hadded⟩ := ih hnumbered
      refine ⟨.cons ⟨rfl, c, rfl, .inl hcolumn⟩ hkeys, hall, added, hhidden, fun n hn => ?_⟩
      obtain ⟨item', hitem', hspec⟩ := hadded n hn
      exact ⟨item', List.mem_cons_of_mem _ hitem', hspec⟩
    | none =>
      have hnext : Numbered (hidden ++ [⟨item.expression, internalName "sort" hidden.length⟩]) := by
        rw [Numbered, List.map_append, hnumbered, List.length_append, List.length_singleton,
          List.range_succ, List.map_append]
        rfl
      obtain ⟨hkeys, hall, added, hhidden, hadded⟩ := ih hnext
      refine ⟨.cons ⟨rfl, _, rfl, .inr ⟨hcolumn, ?_⟩⟩ hkeys, hall, _ :: added,
        hhidden.trans (List.append_assoc _ _ _), List.forall_mem_cons.2 ⟨?_, fun n hn => ?_⟩⟩
      · rw [hhidden]
        simp
      · exact ⟨item, List.mem_cons_self, hcolumn, rfl⟩
      · obtain ⟨item', hitem', hspec⟩ := hadded n hn
        exact ⟨item', List.mem_cons_of_mem _ hitem', hspec⟩

/-- A key to sort by refers to a returned column or to a hidden one. -/
theorem Refers.exists_mem {items : List ReturnItem} {hidden : List NamedExpression}
    {item key : OrderItem} (h : Refers items columns hidden item key) :
    ∃ c, key.expression = .ref c ∧ (c ∈ columns ∨ c ∈ hidden.map (·.column)) := by
  obtain ⟨c, hc, hcolumn | ⟨-, hmem⟩⟩ := h.column
  · exact ⟨c, hc, .inl (mem_of_orderColumn? hcolumn)⟩
  · exact ⟨c, hc, .inr (List.mem_map_of_mem hmem)⟩

/-- Every returned column belongs to an item. -/
theorem exists_item_of_mem_columns {c : String} (h : c ∈ q.columns) :
    ∃ item ∈ q.items, (item, c) ∈ q.items.zip q.columns := by
  have hlength : q.columns.length = q.items.length := length_columnsOf q.items
  rw [← List.map_snd_zip hlength.le] at h
  obtain ⟨⟨item, c⟩, hmem, rfl⟩ := List.mem_map.1 h
  exact ⟨item, (List.of_mem_zip hmem).1, hmem⟩

/-- Only an aggregate gives an aggregate column, which takes its first argument. -/
theorem isAggregate_of_aggregateColumn? {item : ReturnItem} {c : String}
    {column : AggregateColumn} (h : aggregateColumn? item c = some column) :
    item.expression.isAggregate = true ∧ ∃ function arguments,
      item.expression = .call function arguments ∧ column.argument = arguments.head? := by
  unfold aggregateColumn? at h
  split at h
  · rename_i function arguments heq
    obtain ⟨f, hf, rfl⟩ := Option.map_eq_some_iff.1 h
    refine ⟨?_, function, arguments, heq, rfl⟩
    rw [heq, Expression.isAggregate, Expression.aggregate?, hf]
    rfl
  · cases h

/-- An aggregate is a call of an aggregate function. -/
theorem exists_call_of_isAggregate {e : Expression} (h : e.isAggregate = true) :
    ∃ function arguments f, e = .call function arguments ∧
      AggregateFunction.ofName? function = some f := by
  cases e with
  | call function arguments =>
    obtain ⟨f, hf⟩ := Option.isSome_iff_exists.1 h
    exact ⟨function, arguments, f, rfl, hf⟩
  | _ => cases h

/-- Every aggregate gives an aggregate column. -/
theorem exists_aggregateColumn? {item : ReturnItem} (c : String)
    (h : item.expression.isAggregate = true) :
    ∃ column, aggregateColumn? item c = some column ∧ column.column = c := by
  obtain ⟨function, arguments, f, heq, hf⟩ := exists_call_of_isAggregate h
  refine ⟨⟨f, arguments.head?, c⟩, ?_, rfl⟩
  rw [aggregateColumn?, heq]
  simp only [hf, Option.map_some]

/-- The returned expressions under their columns. -/
def returned (q : Query) : List NamedExpression :=
  (q.items.zip q.columns).map fun p => ⟨p.1.expression, p.2⟩

theorem columns_returned (q : Query) : q.returned.map (·.column) = q.columns := by
  rw [returned, List.map_map]
  exact List.map_snd_zip (length_columnsOf q.items).le

end Query

end Plexus
