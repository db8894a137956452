import Plexus.Operator.Sorting
import Plexus.Proofs.Arena
import Plexus.Proofs.Query.Valuation
import Plexus.Query.Scope

/-!
# What evaluation can fail on

On a row that binds what it reads, an expression whose calls are well formed has a value or meets a
value of the wrong kind. Nothing that the row binds is dead, and the value is not dead either. So
it is with everything that is made of the values of expressions on a row.
-/

namespace Plexus

/-- A result with a property, or the fault of a value of the wrong kind. -/
inductive Safe {α : Type} (P : α → Prop) : Except QueryFault α → Prop where
  | ok {a : α} : P a → Safe P (.ok a)
  | type (fault : TypeFault) : Safe P (.error (.type fault))

namespace Safe

variable {α β : Type} {P : α → Prop} {Q : β → Prop} {x : Except QueryFault α}

/-- A safe computation that is continued safely is safe. -/
theorem bind {f : α → Except QueryFault β} (h : Safe P x) (hf : ∀ a, P a → Safe Q (f a)) :
    Safe Q (x >>= f) := by
  cases h with
  | ok ha => exact hf _ ha
  | type fault => exact .type fault

/-- Mapping the result of a safe computation is safe if the map leads to what is asked of it. -/
theorem map {f : α → β} (h : Safe P x) (hf : ∀ a, P a → Q (f a)) : Safe Q (x.map f) := by
  cases h with
  | ok ha => exact .ok (hf _ ha)
  | type fault => exact .type fault

/-- What every step keeps up holds at the end. -/
theorem foldlM {f : β → α → Except QueryFault β} {l : List α} (hl : ∀ a ∈ l, P a)
    (hstep : ∀ b a, Q b → P a → Safe Q (f b a)) {b : β} (hb : Q b) : Safe Q (l.foldlM f b) := by
  induction l generalizing b with
  | nil => exact .ok hb
  | cons a rest ih =>
    rw [List.forall_mem_cons] at hl
    exact (hstep b a hb hl.1).bind fun c hc => ih hl.2 hc

end Safe

/-- The value is not a dead node or a dead edge. -/
def Value.Live (g : Graph) : Value → Prop
  | .node id => g.hasNode id = true
  | .edge id => g.hasEdge id = true
  | .scalar _ => True

namespace Row

/-- The row binds the names, and nothing that it binds is dead. -/
structure Provides (g : Graph) (names : List String) (r : Row) : Prop where
  bound : ∀ x ∈ names, ∃ v, r.get? x = some v
  live : ∀ p ∈ r.bindings, p.2.Live g

namespace Provides

variable {g : Graph} {names more : List String} {r s : Row} {v : Value}

/-- The empty row binds no names and nothing dead. -/
theorem empty : Row.empty.Provides g [] := ⟨List.forall_mem_nil _, List.forall_mem_nil _⟩

/-- A row that provides some names provides any part of them. -/
theorem mono (h : r.Provides g names) (hsub : ∀ x ∈ more, x ∈ names) : r.Provides g more :=
  ⟨fun x hx => h.bound x (hsub x hx), h.live⟩

/-- Binding a live value adds its name to those that a row binds. -/
theorem bind (h : r.Provides g names) (name : String) (hv : v.Live g) :
    (r.bind name v).Provides g (name :: names) where
  bound := by
    intro x hx
    rw [get?_bind]
    split
    · exact ⟨v, rfl⟩
    · rename_i hne
      exact h.bound x (List.mem_of_ne_of_mem (Ne.symm hne) hx)
  live := by
    intro p hp
    rcases Assoc.mem_of_mem_set hp with rfl | hp
    · exact hv
    · exact h.live p hp

/-- What is bound to the items of a list is added. -/
theorem bindAll {α : Type} (h : r.Provides g names) (name : α → String) (value : α → Value)
    {l : List α} (hl : ∀ a ∈ l, (value a).Live g) :
    (l.foldl (fun r a => r.bind (name a) (value a)) r).Provides g (l.map name ++ names) := by
  induction l generalizing r names with
  | nil => exact h
  | cons a rest ih =>
    rw [List.forall_mem_cons] at hl
    refine (ih (h.bind (name a) hl.1) hl.2).mono ?_
    simp only [List.map_cons, List.cons_append, List.mem_append, List.mem_cons]
    tauto

/-- A merged row binds what either row does. -/
theorem merge (h : r.Provides g names) (h' : s.Provides g more) :
    (r.merge s).Provides g (names ++ more) := by
  have hmerge : (s.bindings.foldl (fun r p => r.bind p.1 p.2) r) = r.merge s := by
    rw [foldl_bind, List.map_id']
    rfl
  have hall := h.bindAll Prod.fst Prod.snd h'.live
  rw [hmerge] at hall
  apply hall.mono
  intro x hx
  rcases List.mem_append.1 hx with hx | hx
  · exact List.mem_append_right _ hx
  · obtain ⟨v, hv⟩ := h'.bound x hx
    exact List.mem_append_left _ (List.mem_map_of_mem (Assoc.mem_of_get? hv))

/-- A name that the row binds can be looked up, and it is not dead. -/
theorem lookup (h : r.Provides g names) {x : String} (hx : x ∈ names) :
    Safe (Value.Live g) (Expression.lookup r x) := by
  obtain ⟨v, hv⟩ := h.bound x hx
  rw [Expression.lookup, hv]
  exact .ok (h.live _ (Assoc.mem_of_get? hv))

end Provides

end Row

namespace Graph

variable {g : Graph}

/-- A live node can be read. -/
theorem node_of_hasNode {id : NodeId} (h : g.hasNode id = true) : ∃ n, g.node id = .ok n := by
  obtain ⟨n, hn⟩ := Arena.isLive_iff.1 h
  exact ⟨n, by rw [node, node?, hn]⟩

/-- A live edge can be read. -/
theorem edge_of_hasEdge {id : EdgeId} (h : g.hasEdge id = true) : ∃ e, g.edge id = .ok e := by
  obtain ⟨e, he⟩ := Arena.isLive_iff.1 h
  exact ⟨e, by rw [edge, edge?, he]⟩

end Graph

namespace Expression

variable {g : Graph} {v : Value}

/-- Every call in the expression is of `id` or `type`, and on a variable. -/
def Callable : Expression → Prop
  | binary _ left right => left.Callable ∧ right.Callable
  | unary _ operand => operand.Callable
  | call function arguments =>
    (function.map Char.toLower = "id" ∨ function.map Char.toLower = "type") ∧
      ∃ x, arguments = [.ref x]
  | ref _ | property _ _ | literal _ | hasLabels _ _ => True

/-- The expression can be evaluated where some names are bound. -/
structure Evaluable (names : String → Prop) (e : Expression) : Prop where
  calls : e.Callable
  reads : ∀ x ∈ e.occurrences, names x

/-- What can be evaluated on some names can be on more. -/
theorem Evaluable.mono {names more : String → Prop} {e : Expression} (h : e.Evaluable names)
    (hsub : ∀ x, names x → more x) : e.Evaluable more :=
  ⟨h.calls, fun x hx => hsub x (h.reads x hx)⟩

/-- A conjunction can be evaluated where all its conjuncts can. -/
theorem Evaluable.conjunction? {names : String → Prop} {es : List Expression} {c : Expression}
    (h : ∀ e ∈ es, e.Evaluable names) (hc : conjunction? es = some c) : c.Evaluable names := by
  have hfold (first : Expression) (rest : List Expression) (hfirst : first.Evaluable names)
      (hrest : ∀ e ∈ rest, e.Evaluable names) :
      (rest.foldl (binary .and) first).Evaluable names := by
    induction rest generalizing first with
    | nil => exact hfirst
    | cons e rest ih =>
      rw [List.forall_mem_cons] at hrest
      refine ih _ ⟨⟨hfirst.calls, hrest.1.calls⟩, fun x hx => ?_⟩ hrest.2
      rw [occurrences] at hx
      exact (List.mem_append.1 hx).elim (hfirst.reads x) (hrest.1.reads x)
  cases es with
  | nil => cases hc
  | cons first rest =>
    cases hc
    rw [List.forall_mem_cons] at h
    exact hfold first rest h.1 h.2

/-- The conjuncts of an expression can be evaluated where the expression can. -/
theorem Evaluable.conjuncts {names : String → Prop} {e : Expression} (h : e.Evaluable names) :
    ∀ c ∈ e.conjuncts, c.Evaluable names := by
  intro c hc
  induction e using Expression.conjuncts.induct with
  | case1 left right hleft hright =>
    obtain ⟨hcalls, hreads⟩ := h
    simp only [occurrences, List.mem_append] at hreads
    rw [Expression.conjuncts] at hc
    rcases List.mem_append.1 hc with hc | hc
    · exact hleft ⟨hcalls.1, fun x hx => hreads x (.inl hx)⟩ hc
    · exact hright ⟨hcalls.2, fun x hx => hreads x (.inr hx)⟩ hc
  | case2 e hne =>
    rw [Expression.conjuncts.eq_2 _ hne, List.mem_singleton] at hc
    rw [hc]
    exact h

/-- An expression that passes its check can be evaluated where the declared variables are bound. -/
theorem evaluable_of_check {scope : Scope} {inside : Option String} (e : Expression)
    (h : scope.checkExpression inside e = .ok ()) :
    e.Evaluable fun x => ∃ role, scope.get? x = some role := by
  cases e with
  | ref name | property name key =>
    rw [Scope.checkExpression] at h
    refine ⟨trivial, fun x hx => ?_⟩
    rw [occurrences, List.mem_singleton] at hx
    subst hx
    split at h
    · rename_i role hrole
      exact ⟨role, hrole⟩
    · cases h
  | hasLabels name labels =>
    rw [Scope.checkExpression] at h
    refine ⟨trivial, fun x hx => ?_⟩
    rw [occurrences, List.mem_singleton] at hx
    subst hx
    split at h
    · rename_i path hrole
      exact ⟨_, hrole⟩
    · cases h
    · cases h
  | literal value =>
    refine ⟨trivial, fun x hx => ?_⟩
    rw [occurrences] at hx
    cases hx
  | binary op left right =>
    rw [Scope.checkExpression] at h
    obtain ⟨⟨⟩, hleft, hright⟩ := bind_eq_ok.1 h
    have hl := evaluable_of_check left hleft
    have hr := evaluable_of_check right hright
    refine ⟨⟨hl.calls, hr.calls⟩, fun x hx => ?_⟩
    rw [occurrences] at hx
    exact (List.mem_append.1 hx).elim (hl.reads x) (hr.reads x)
  | unary op operand =>
    rw [Scope.checkExpression] at h
    have ho := evaluable_of_check operand h
    refine ⟨ho.calls, fun x hx => ?_⟩
    rw [occurrences] at hx
    exact ho.reads x hx
  | call function arguments =>
    rw [Scope.checkExpression] at h
    split at h
    · cases h
    dsimp only at h
    split at h
    · cases h
    rename_i hknown
    split at h
    · rename_i name
      refine ⟨⟨by tauto, name, rfl⟩, fun x hx => ?_⟩
      simp only [occurrences, occurrencesAll, List.append_nil, List.mem_singleton] at hx
      subst hx
      split at h
      · cases h
      · rename_i path hrole
        exact ⟨_, hrole⟩
      · rename_i hrole
        exact ⟨_, hrole⟩
    · cases h

private theorem safe_readProperty (hv : v.Live g) (key : String) :
    Safe (Value.Live g) (readProperty g v key) := by
  cases v with
  | node id =>
    obtain ⟨n, hn⟩ := Graph.node_of_hasNode hv
    simp only [readProperty, hn, liftGraph]
    exact .ok trivial
  | edge id =>
    obtain ⟨e, he⟩ := Graph.edge_of_hasEdge hv
    simp only [readProperty, he, liftGraph]
    exact .ok trivial
  | scalar s =>
    cases s with
    | null => exact .ok trivial
    | _ => exact .type _

private theorem safe_readLabels (hv : v.Live g) (labels : List String) :
    Safe (Value.Live g) (readLabels g v labels) := by
  cases v with
  | node id =>
    obtain ⟨n, hn⟩ := Graph.node_of_hasNode hv
    simp only [readLabels, hn, liftGraph]
    exact .ok trivial
  | edge id => exact .type _
  | scalar s =>
    cases s with
    | null => exact .ok trivial
    | _ => exact .type _

private theorem safe_callOn (hv : v.Live g) {function : String}
    (h : function.map Char.toLower = "id" ∨ function.map Char.toLower = "type") :
    Safe (Value.Live g) (callOn g function v) := by
  have htype : ¬"type" = "id" := by decide
  cases v with
  | node id =>
    rcases h with h | h
    · simp only [callOn, h, if_true]
      exact .ok trivial
    · simp only [callOn, h, htype, if_true, if_false]
      exact .type _
  | edge id =>
    obtain ⟨e, he⟩ := Graph.edge_of_hasEdge hv
    rcases h with h | h
    · simp only [callOn, h, if_true]
      exact .ok trivial
    · simp only [callOn, h, htype, if_true, if_false, he, liftGraph]
      exact .ok trivial
  | scalar s =>
    cases s with
    | null => exact .ok trivial
    | _ =>
      simp only [callOn, if_pos h]
      exact .type _

private theorem safe_truth (v : Value) (context : String) :
    Safe (fun _ => True) (v.truth context) := by
  cases v with
  | node id => exact .type _
  | edge id => exact .type _
  | scalar s =>
    cases s with
    | null => exact .ok trivial
    | boolean b => exact .ok trivial
    | _ => exact .type _

private theorem live_toValue (t : Truth) : t.toValue.Live g := by
  rcases t with _ | _ <;> trivial

section

variable {names : List String} {r : Row}

/-- An expression has a value that is not dead, if no value is of the wrong kind. -/
theorem safe_evaluate (hr : r.Provides g names) (e : Expression) (he : e.Evaluable (· ∈ names)) :
    Safe (Value.Live g) (e.evaluate g r) := by
  obtain ⟨hcalls, hreads⟩ := he
  cases e with
  | ref name =>
    rw [evaluate]
    exact hr.lookup (hreads name (by simp [occurrences]))
  | property name key =>
    rw [evaluate]
    have hname := hr.lookup (hreads name (by simp [occurrences]))
    exact hname.bind fun v hv => safe_readProperty hv key
  | literal value =>
    rw [evaluate]
    exact .ok trivial
  | hasLabels name labels =>
    rw [evaluate]
    have hname := hr.lookup (hreads name (by simp [occurrences]))
    exact hname.bind fun v hv => safe_readLabels hv labels
  | binary op left right =>
    have hleft := safe_evaluate hr left ⟨hcalls.1, fun x hx => hreads x (by simp [occurrences, hx])⟩
    have hright :=
      safe_evaluate hr right ⟨hcalls.2, fun x hx => hreads x (by simp [occurrences, hx])⟩
    cases op with
    | and | or =>
      rw [evaluate]
      refine hleft.bind fun v _ => (safe_truth v _).bind fun l _ => ?_
      split
      · exact .ok trivial
      · exact hright.bind fun w _ => (safe_truth w _).bind fun m _ => .ok (live_toValue _)
    | _ =>
      rw [evaluate]
      · exact hleft.bind fun v _ => hright.bind fun w _ => .ok (live_toValue _)
      all_goals
        intro heq
        cases heq
  | unary op operand =>
    have hoperand :=
      safe_evaluate hr operand ⟨hcalls, fun x hx => hreads x (by simpa [occurrences] using hx)⟩
    cases op with
    | not =>
      rw [evaluate]
      exact hoperand.bind fun v _ => (safe_truth v _).bind fun t _ => .ok (live_toValue _)
    | isNull | isNotNull =>
      rw [evaluate]
      exact hoperand.bind fun v _ => .ok trivial
  | call function arguments =>
    obtain ⟨hfunction, x, rfl⟩ := hcalls
    rw [evaluate, evaluateCall, evaluate]
    have hname := hr.lookup (hreads x (by simp [occurrences, occurrencesAll]))
    exact hname.bind fun v hv => safe_callOn hv hfunction

/-- A condition on bound names is decided, or met by a value of the wrong kind. -/
theorem safe_isMatch (hr : r.Provides g names) {e : Expression} (he : e.Evaluable (· ∈ names)) :
    Safe (fun _ => True) (e.isMatch g r) :=
  (safe_evaluate hr e he).bind fun v _ => (safe_truth v _).bind fun _ _ => .ok trivial

/-- Expressions on bound names have live values, or meet one of the wrong kind. -/
theorem safe_evaluateAll (hr : r.Provides g names) {es : List Expression}
    (hes : ∀ e ∈ es, e.Evaluable (· ∈ names)) :
    Safe (fun vs => vs.length = es.length ∧ ∀ v ∈ vs, v.Live g) (evaluateAll g r es) := by
  induction es with
  | nil => exact .ok ⟨rfl, List.forall_mem_nil _⟩
  | cons e rest ih =>
    rw [List.forall_mem_cons] at hes
    refine (safe_evaluate hr e hes.1).bind fun v hv => (ih hes.2).bind fun vs hvs => .ok ?_
    exact ⟨congrArg Nat.succ hvs.1, List.forall_mem_cons.2 ⟨hv, hvs.2⟩⟩

end

end Expression

variable {g : Graph} {names : List String} {r : Row}

/-- Columns with the values of their expressions are bound. -/
theorem Row.Provides.bindColumns (h : r.Provides g names) {items : List NamedExpression}
    {vs : List Value} (hlength : vs.length = items.length) (hvs : ∀ v ∈ vs, v.Live g) :
    ((items.zip vs).foldl (fun r (item, v) => r.bind item.column v) r).Provides g
      (items.map (·.column) ++ names) := by
  have hall := h.bindAll (fun p : NamedExpression × Value => p.1.column) Prod.snd
    (l := items.zip vs) fun p hp => hvs p.2 (List.of_mem_zip hp).2
  have hcolumns := congrArg (List.map (·.column)) (List.map_fst_zip hlength.ge)
  rw [List.map_map] at hcolumns
  rw [← hcolumns]
  exact hall

/-- A projected row binds the columns. -/
theorem safe_projectRow (hr : r.Provides g names) {items : List NamedExpression}
    (hitems : ∀ item ∈ items, item.expression.Evaluable (· ∈ names)) :
    Safe (Row.Provides g (items.map (·.column))) (projectRow g items r) := by
  have hvalues := Expression.safe_evaluateAll hr (List.forall_mem_map.2 hitems)
  refine hvalues.bind fun vs hvs => .ok ?_
  rw [List.length_map] at hvs
  have hrow := Row.Provides.empty.bindColumns hvs.1 hvs.2
  rwa [List.append_nil] at hrow

/-- A row keeps what it binds next to its sort keys. -/
theorem safe_keyedRow (hr : r.Provides g names) {keys : List OrderItem}
    (hkeys : ∀ key ∈ keys, key.expression.Evaluable (· ∈ names)) :
    Safe (fun k => k.row.Provides g names) (KeyedRow.of g keys r) :=
  (Expression.safe_evaluateAll hr (List.forall_mem_map.2 hkeys)).bind fun _ _ => .ok hr

namespace Accumulator

/-- What has been gathered is a property value. -/
theorem live_result (acc : Accumulator) : acc.result.Live g := by
  cases acc with
  | avg total n =>
    rw [result]
    split <;> trivial
  | _ => trivial

private theorem safe_numberOf (f : AggregateFunction) (v : Value) :
    Safe (fun _ => True) (numberOf f v) := by
  cases v with
  | node id => exact .type _
  | edge id => exact .type _
  | scalar s =>
    cases s with
    | number x => exact .ok trivial
    | _ => exact .type _

private theorem safe_scalarOf (f : AggregateFunction) (v : Value) :
    Safe (fun _ => True) (scalarOf f v) := by
  cases v with
  | scalar s => exact .ok trivial
  | _ => exact .type _

/-- An accumulator takes in a value, or refuses it for its kind. -/
theorem safe_add (acc : Accumulator) (v : Value) : Safe (fun _ => True) (acc.add v) := by
  unfold add
  split
  · exact .ok trivial
  · cases acc with
    | count n => exact .ok trivial
    | sum total => exact (safe_numberOf _ v).bind fun _ _ => .ok trivial
    | avg total n => exact (safe_numberOf _ v).bind fun _ _ => .ok trivial
    | min least => exact (safe_scalarOf _ v).bind fun _ _ => .ok trivial
    | max greatest => exact (safe_scalarOf _ v).bind fun _ _ => .ok trivial

end Accumulator

namespace Groups

variable {keys : List NamedExpression} {columns : List AggregateColumn} {groups : Groups}

/-- Every group has a value for each key and an accumulator for each column. -/
def Complete (g : Graph) (keys : List NamedExpression) (columns : List AggregateColumn)
    (groups : Groups) : Prop :=
  ∀ p ∈ groups, (p.2.key.length = keys.length ∧ ∀ v ∈ p.2.key, v.Live g) ∧
    p.2.accumulators.length = columns.length

private theorem safe_addRow (hr : r.Provides g names)
    (hcolumns : ∀ c ∈ columns, ∀ e, c.argument = some e → e.Evaluable (· ∈ names))
    (accs : List Accumulator) :
    Safe (fun out => out.length = accs.length) (addRow g r columns accs) := by
  induction columns generalizing accs with
  | nil => exact .ok rfl
  | cons c rest ih =>
    rw [List.forall_mem_cons] at hcolumns
    cases accs with
    | nil => exact .ok rfl
    | cons acc accs =>
      rw [addRow]
      have hrest := (ih hcolumns.2 accs)
      have htail (next : Accumulator) : Safe (fun out => out.length = (acc :: accs).length)
          (addRow g r rest accs >>= fun accs => pure (next :: accs)) :=
        hrest.bind fun out hout => .ok (congrArg Nat.succ hout)
      cases harg : c.argument with
      | none => exact htail _
      | some e =>
        have hvalue := Expression.safe_evaluate hr e (hcolumns.1 e harg)
        exact hvalue.bind fun v _ => (acc.safe_add v).bind fun next _ => htail next

/-- Taking a row in keeps the groups complete. -/
theorem safe_add (hr : r.Provides g names)
    (hkeys : ∀ k ∈ keys, k.expression.Evaluable (· ∈ names))
    (hcolumns : ∀ c ∈ columns, ∀ e, c.argument = some e → e.Evaluable (· ∈ names))
    (h : Complete g keys columns groups) :
    Safe (Complete g keys columns) (add g keys columns groups r) := by
  have hvalues := Expression.safe_evaluateAll hr (List.forall_mem_map.2 hkeys)
  refine hvalues.bind fun key hkey => ?_
  rw [List.length_map] at hkey
  dsimp only
  have hgroup : ∀ group, ((groups.get? (key.map Value.canonical)).getD
      ⟨key, columns.map fun c => .fresh c.function⟩) = group →
        (group.key.length = keys.length ∧ ∀ v ∈ group.key, v.Live g) ∧
          group.accumulators.length = columns.length := by
    rintro group rfl
    cases hold : groups.get? (key.map Value.canonical) with
    | none => exact ⟨hkey, List.length_map _⟩
    | some group => exact h _ (Assoc.mem_of_get? hold)
  generalize (groups.get? (key.map Value.canonical)).getD
    ⟨key, columns.map fun c => .fresh c.function⟩ = group at hgroup
  obtain ⟨hgroupKey, hgroupAccs⟩ := hgroup group rfl
  refine (safe_addRow hr hcolumns group.accumulators).bind fun accs haccs => .ok ?_
  intro p hp
  rcases Assoc.mem_of_mem_set hp with rfl | hp
  · exact ⟨hgroupKey, haccs.trans hgroupAccs⟩
  · exact h p hp

private theorem provides_toRow {group : Group}
    (hkey : group.key.length = keys.length ∧ ∀ v ∈ group.key, v.Live g)
    (haccs : group.accumulators.length = columns.length) :
    (toRow keys columns group).Provides g
      (columns.map (·.column) ++ keys.map (·.column)) := by
  have hrow := Row.Provides.empty.bindColumns hkey.1 hkey.2
  rw [List.append_nil] at hrow
  have hall := hrow.bindAll (fun p : AggregateColumn × Accumulator => p.1.column)
    (fun p => p.2.result) (l := columns.zip group.accumulators) fun p _ => p.2.live_result
  have hcolumns := congrArg (List.map (·.column)) (List.map_fst_zip haccs.ge)
  rw [List.map_map] at hcolumns
  rw [← hcolumns]
  exact hall

/-- The row of a group binds the columns of the keys and of the aggregates. -/
theorem provides_rows (h : Complete g keys columns groups) :
    ∀ row ∈ rows keys columns groups, row.Provides g
      (columns.map (·.column) ++ keys.map (·.column)) := by
  have hall : Complete g keys columns (if groups.isEmpty && keys.isEmpty then
      [([], ⟨[], columns.map fun c => .fresh c.function⟩)] else groups) := by
    split
    · rename_i hempty
      rw [Bool.and_eq_true, List.isEmpty_iff, List.isEmpty_iff] at hempty
      intro p hp
      rw [List.mem_singleton.1 hp, hempty.2]
      exact ⟨⟨rfl, List.forall_mem_nil _⟩, List.length_map _⟩
    · exact h
  intro row hrow
  obtain ⟨p, hp, rfl⟩ := List.mem_map.1 hrow
  exact provides_toRow (hall p hp).1 (hall p hp).2

end Groups

end Plexus
