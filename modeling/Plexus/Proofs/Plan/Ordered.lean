import Plexus.Proofs.OneByOne
import Plexus.Proofs.Operator.Sorting
import Plexus.Proofs.Plan.Return
import Plexus.Proofs.Plan.Returned
import Plexus.Proofs.Query.Row

/-!
# Ordered answers

Ordering an answer moves its rows and changes nothing else. A key to order by is read off the
returned columns if it can be. Otherwise its values are projected from the matches into a hidden
column, next to those that are returned, and the hidden columns are dropped after sorting.
-/

namespace Plexus

/-- A projected row has the values of the expressions under their columns. -/
theorem projectRow_eq_ok {g : Graph} {items : List NamedExpression} {row out : Row} :
    projectRow g items row = .ok out ↔ ∃ values,
      List.Forall₂ (fun item v => item.expression.evaluate g row = .ok v) items values ∧
        out = .ofColumns (items.map (·.column)) values := by
  rw [projectRow, bind_eq_ok]
  simp only [evaluateAll_eq_ok, List.forall₂_map_left_iff]
  refine exists_congr fun values => and_congr_right fun _ => ?_
  have hrow := Row.foldl_bind_values items values (·.column) .empty
  constructor
  · rintro ⟨⟩
    exact hrow
  · rintro rfl
    exact congrArg Except.ok hrow

/-- Further columns with names of their own can be projected next to others and change none of
them. -/
theorem projectRow_append {g : Graph} {shown hidden : List NamedExpression} {row full : Row}
    (hnodup : (hidden.map (·.column)).Nodup)
    (hnew : ∀ c ∈ hidden.map (·.column), c ∉ shown.map (·.column))
    (h : projectRow g (shown ++ hidden) row = .ok full) : ∃ out, projectRow g shown row = .ok out ∧
      (∀ c ∈ shown.map (·.column), full.get? c = out.get? c) ∧
      ∀ n ∈ hidden, ∃ v, n.expression.evaluate g row = .ok v ∧ full.get? n.column = some v := by
  obtain ⟨_, hvalues, rfl⟩ := projectRow_eq_ok.1 h
  obtain ⟨values, more, rfl, hshown, hhidden⟩ := exists_append_of_forall₂ hvalues
  have hkeys : Assoc.keys ((hidden.map (·.column)).zip more) = hidden.map (·.column) :=
    List.map_fst_zip (by rw [List.length_map]; exact hhidden.length_eq.le)
  have hdistinct : (Assoc.keys ((hidden.map (·.column)).zip more)).Nodup := by
    rw [hkeys]
    exact hnodup
  have hget (x : String) :
      (Row.ofColumns ((shown ++ hidden).map (·.column)) (values ++ more)).get? x =
        (Assoc.get? ((hidden.map (·.column)).zip more) x).or
          ((Row.ofColumns (shown.map (·.column)) values).get? x) := by
    rw [List.map_append]
    exact Row.get?_ofColumns_append ((List.length_map _).trans hshown.length_eq)
      ((List.length_map _).trans hhidden.length_eq) hnodup x
  refine ⟨_, projectRow_eq_ok.2 ⟨values, hshown, rfl⟩, fun c hc => ?_, fun n hn => ?_⟩
  · have hnone : Assoc.get? ((hidden.map (·.column)).zip more) c = none := by
      rw [← Option.not_isSome_iff_eq_none, Assoc.get?_isSome_iff, hkeys]
      exact fun hmem => hnew c hmem hc
    rw [hget, hnone, Option.none_or]
  · obtain ⟨v, hv, hevaluate⟩ := exists_of_forall₂ hhidden hn
    have hmem : (n.column, v) ∈ (hidden.map (·.column)).zip more := by
      rw [List.zip_map_left]
      exact List.mem_map_of_mem hv
    refine ⟨v, hevaluate, ?_⟩
    rw [hget, (Assoc.get?_eq_some_iff hdistinct).2 hmem, Option.some_or]

/-- Keyed rows are sorted the same way as whatever they are keyed for. -/
theorem map_sortRows {α β : Type} {keys items : List OrderItem}
    (hkeys : List.Forall₂ (fun item key => key.ascending = item.ascending) items keys)
    {key : α → List Value} {shown : α → β} {f : Row → β} {l : List α} {keyed : List KeyedRow}
    (h : List.Forall₂ (fun a k => k.key = key a ∧ f k.row = shown a) l keyed) :
    (sortRows keys keyed).map f =
      (l.mergeSort fun a b => compareKeys items (key a) (key b) ≠ .gt).map shown := by
  obtain ⟨ps, rfl, rfl, hps⟩ := exists_pairs h
  let le (p r : α × KeyedRow) : Bool := compareKeys items (key p.1) (key r.1) ≠ .gt
  have hkeyed : (ps.map (·.2)).mergeSort (fun a b => compareKeys keys a.key b.key ≠ .gt) =
      (ps.mergeSort le).map (·.2) := by
    refine (List.map_mergeSort fun p hp r hr => ?_).symm
    rw [compareKeys_congr hkeys, (hps p hp).1, (hps r hr).1]
  have hl : (ps.map (·.1)).mergeSort (fun a b => compareKeys items (key a) (key b) ≠ .gt) =
      (ps.mergeSort le).map (·.1) := by
    refine (List.map_mergeSort fun p _ r _ => ?_).symm
    rfl
  rw [sortRows, hkeyed, hl, List.map_map, List.map_map, List.map_map]
  exact List.map_congr_left fun p hp => (hps p (List.mem_mergeSort.1 hp)).2

/-- Keyed rows go with the rows that they are made of. -/
theorem KeyedRow.of_forall₂ {g : Graph} {keys : List OrderItem} {rows : List Row}
    {keyed : List KeyedRow}
    (h : List.Forall₂ (fun r k => KeyedRow.of g keys r = .ok k) rows keyed) :
    keyed.map (·.row) = rows ∧ ∀ k ∈ keyed, KeyedRow.of g keys k.row = .ok k := by
  induction h with
  | nil => exact ⟨rfl, List.forall_mem_nil _⟩
  | @cons r k _ _ hk _ ih =>
    obtain ⟨rfl, hall⟩ := ih
    have hrow : k.row = r := (KeyedRow.of_eq_ok.1 hk).1
    exact ⟨by rw [List.map_cons, hrow], List.forall_mem_cons.2 ⟨hrow ▸ hk, hall⟩⟩

/-- What is given in order was sorted by its keys. Sorting by no keys is left out. -/
theorem Operator.of_gives_sorted {g : Graph} {op : Operator} {keys : List OrderItem}
    {out : List Row} (h : (if keys.isEmpty = true then op else op.sort keys).Gives g out) :
    ∃ keyed : List KeyedRow, op.Gives g (keyed.map (·.row)) ∧
      (∀ k ∈ keyed, KeyedRow.of g keys k.row = .ok k) ∧ sortRows keys keyed = out := by
  split at h
  · rename_i hempty
    rw [List.isEmpty_iff] at hempty
    subst hempty
    have hrows : (out.map fun r => (⟨[], r⟩ : KeyedRow)).map (·.row) = out := by
      rw [List.map_map]
      exact List.map_id _
    refine ⟨out.map fun r => ⟨[], r⟩, hrows.symm ▸ h, List.forall_mem_map.2 fun r _ => rfl, ?_⟩
    rw [sortRows, List.mergeSort_of_pairwise, hrows]
    exact List.pairwise_of_forall_mem_list fun _ _ _ _ => rfl
  · obtain ⟨ins, keyed, hins, hkeyed, hout⟩ := gives_sort_iff.1 h
    obtain ⟨rfl, hall⟩ := KeyedRow.of_forall₂ hkeyed
    exact ⟨keyed, hins, hall, hout⟩

namespace Query

variable {q : Query} {g : Graph} {op : Operator}

/-- The same query without an order. -/
def unordered (q : Query) : Query := { q with orderBy := [] }

/-- A returned row with the values that it is ordered by, and with the match that it was projected
from, if it stands for one. -/
structure Ranked where
  key : List Value
  matched : Option Row
  row : Row

/-- How a key to order by is read: as the column of that name, or else as the first column that is
returned with the same expression, or else on the match. -/
inductive ReadsKey (q : Query) (g : Graph) (r : Ranked) : Expression → Value → Prop where
  | column {name : String} {v : Value} (hname : name ∈ q.columns) (hv : r.row.get? name = some v) :
      ReadsKey q g r (.ref name) v
  | returned {e : Expression} {item : ReturnItem} {c : String} {v : Value}
      (hname : ∀ name, e = .ref name → name ∉ q.columns)
      (hitem : (q.items.zip q.columns).find? (fun p => p.1.expression.isSame e) = some (item, c))
      (hv : r.row.get? c = some v) : ReadsKey q g r e v
  | matched {e : Expression} {m : Row} {v : Value}
      (hname : ∀ name, e = .ref name → name ∉ q.columns)
      (hitem : ∀ item ∈ q.items, item.expression.isSame e = false)
      (hm : r.matched = some m) (hv : e.evaluate g m = .ok v) : ReadsKey q g r e v

/-- What the rows are ordered by that are returned without an order. -/
structure Ranks (q : Query) (g : Graph) (ranked : List Ranked) : Prop where
  reads (r : Ranked) : r ∈ ranked →
    List.Forall₂ (fun item v => q.ReadsKey g r item.expression v) q.orderBy r.key
  /-- A row that may stand for several matches goes with none of them. -/
  unmatched : (q.isAggregating || q.isDistinct) = true → ∀ r ∈ ranked, r.matched = none
  projected : (q.isAggregating || q.isDistinct) = false → ∃ draft ms,
    Draft.ofPaths? g q.conjuncts q.paths = some draft ∧ draft.finish.Gives g ms ∧
      List.Forall₂ (fun m r => r.matched = some m ∧ ∃ row, projectRow g q.returned m = .ok row ∧
        r.row = row.project q.columns) ms ranked

/-- A valid query is valid without its order. -/
theorem validate_unordered (h : q.validate = .ok ()) : q.unordered.validate = .ok () := by
  obtain ⟨scope, columns, hscope, hcondition, hcolumns, -⟩ := validate_eq_ok.1 h
  exact validate_eq_ok.2 ⟨scope, columns, hscope, hcondition, hcolumns, List.forall_mem_nil _⟩

/-- The operators up to sorting, given the hidden columns. -/
def unsorted (q : Query) (op : Operator) (hidden : List NamedExpression) : Operator :=
  if q.isDistinct then (q.shape op hidden).distinct q.columns else q.shape op hidden

/-- Without paging, the answer is planned from its columns and the keys of its order. -/
theorem planReturn_eq (hskip : q.skip = none) (hlimit : q.limit = none) : q.planReturn op =
    let (keys, hidden) := orderKeys q.items q.columns [] q.orderBy
    if keys.isEmpty then q.unsorted op hidden else (q.unsorted op hidden).sort keys := by
  unfold planReturn
  rw [hskip, hlimit]
  rfl

/-- Without order and paging, the answer is planned from its columns alone. -/
theorem planReturn_unordered (hskip : q.skip = none) (hlimit : q.limit = none) :
    q.unordered.planReturn op = q.unsorted op [] := planReturn_eq hskip hlimit

/-- Rows with their sort keys are ranked as they are returned without an order. -/
structure Ranking (q : Query) (g : Graph) (op : Operator) (keyed : List KeyedRow)
    (ranked : List Ranked) : Prop where
  ranks : q.Ranks g ranked
  given : ∃ rows, (q.unsorted op []).Gives g rows ∧
    rows.map (·.project q.columns) = ranked.map (·.row)
  keyed : List.Forall₂ (fun r k => k.key = r.key ∧ k.row.project q.columns = r.row) ranked keyed

/-- A row with its sort keys, as it is returned. -/
def Ranked.of (columns : List String) (matched : Option Row) (k : KeyedRow) : Ranked :=
  ⟨k.key, matched, k.row.project columns⟩

section

variable {keys : List OrderItem} {hidden : List NamedExpression}

/-- The values of the keys to sort by are those that the keys to order by are read as. -/
theorem reads_of_refers (hkeys : List.Forall₂ (Refers q.items q.columns hidden) q.orderBy keys)
    {k : KeyedRow} (hk : KeyedRow.of g keys k.row = .ok k) {matched : Option Row}
    (hhidden : ∀ n ∈ hidden, ∃ m v, matched = some m ∧ n.expression.evaluate g m = .ok v ∧
      k.row.get? n.column = some v) :
    List.Forall₂ (fun item v => q.ReadsKey g (.of q.columns matched k) item.expression v) q.orderBy
      k.key := by
  have hvalues := (KeyedRow.of_eq_ok.1 hk).2
  refine (forall₂_through hkeys.flip hvalues).imp ?_
  rintro item v ⟨key, hrefers, hv⟩
  obtain ⟨c, hc, hcolumn⟩ := hrefers.column
  have hget : k.row.get? c = some v := by
    rw [hc, Expression.evaluate, Expression.lookup] at hv
    split at hv
    · rename_i w hw
      cases hv
      exact hw
    · cases hv
  rcases hcolumn with hcolumn | ⟨hnone, hmem⟩
  · have hshown : (k.row.project q.columns).get? c = some v := by
      rw [Row.get?_project, if_pos (mem_of_orderColumn? hcolumn), hget]
    rcases of_orderColumn?_eq_some hcolumn with ⟨he, hname⟩ | ⟨hname, returned, hfind⟩
    · rw [he]
      exact .column hname hshown
    · exact .returned hname hfind hshown
  · obtain ⟨hname, hitem⟩ := of_orderColumn?_eq_none (length_columnsOf q.items).symm hnone
    obtain ⟨m, w, hm, hw, hget'⟩ := hhidden _ hmem
    cases hget.symm.trans hget'
    exact .matched hname hitem hm hw

/-- Unless rows are grouped or made distinct, hidden columns are projected with the others. -/
theorem unsorted_of_plain (hplain : (q.isAggregating || q.isDistinct) = false) :
    q.unsorted op hidden = op.project (q.returned ++ hidden) := by
  rw [Bool.or_eq_false_iff] at hplain
  simp only [unsorted, shape, hplain.1, hplain.2, Bool.false_eq_true, if_false]
  rfl

/-- What the planner makes of the keys of a valid query. Only rows that stand for one match each
have hidden columns. -/
theorem exists_keys (hvalid : q.validate = .ok ()) : ∃ keys hidden,
    orderKeys q.items q.columns [] q.orderBy = (keys, hidden) ∧
      List.Forall₂ (Refers q.items q.columns hidden) q.orderBy keys ∧ Numbered hidden ∧
        ((q.isAggregating || q.isDistinct) = true → hidden = []) := by
  obtain ⟨hkeys, hnumbered, added, hhidden, hadded⟩ :=
    orderKeys_spec q.items q.columns (show Numbered [] from rfl) q.orderBy
  refine ⟨_, _, rfl, hkeys, hnumbered, fun hgrouped => ?_⟩
  rw [hhidden, List.nil_append, List.eq_nil_iff_forall_not_mem]
  intro n hn
  obtain ⟨item, hitem, hcolumn, -⟩ := hadded n hn
  obtain ⟨hplain, hdistinct, -⟩ := (returns_of_validate hvalid).order item hitem hcolumn
  rw [hplain, hdistinct] at hgrouped
  cases hgrouped

variable {keyed : List KeyedRow}
  (hkeys : List.Forall₂ (Refers q.items q.columns hidden) q.orderBy keys)
  (hkeyed : ∀ k ∈ keyed, KeyedRow.of g keys k.row = .ok k)

include hkeys hkeyed

/-- If a row may stand for several matches, all keys are read off the returned columns. -/
theorem exists_ranking_of_grouped (hgrouped : (q.isAggregating || q.isDistinct) = true)
    (hnone : hidden = []) (hrows : (q.unsorted op hidden).Gives g (keyed.map (·.row))) :
    ∃ ranked, q.Ranking g op keyed ranked := by
  subst hnone
  refine ⟨keyed.map (.of q.columns none), ⟨?reads, fun _ => ?_, fun hplain => ?_⟩,
    ⟨_, hrows, ?_⟩, ?keyed⟩
  case reads =>
    refine List.forall_mem_map.2 fun k hk => ?_
    exact reads_of_refers hkeys (hkeyed k hk) (List.forall_mem_nil _)
  case keyed => exact List.forall₂_map_left_iff.2 (List.forall₂_same.2 fun k _ => ⟨rfl, rfl⟩)
  · exact List.forall_mem_map.2 fun k _ => rfl
  · rw [hgrouped] at hplain
    cases hplain
  · rw [List.map_map, List.map_map]
    rfl

/-- If a row stands for one match, the hidden columns are projected from it. -/
theorem exists_ranking_of_plain (hplain : (q.isAggregating || q.isDistinct) = false)
    (hnumbered : Numbered hidden) (hfree : ∀ c ∈ q.columns, isReserved c = false) {draft : Draft}
    (hdraft : Draft.ofPaths? g q.conjuncts q.paths = some draft)
    (hrows : (q.unsorted draft.finish hidden).Gives g (keyed.map (·.row))) :
    ∃ ranked, q.Ranking g draft.finish keyed ranked := by
  -- hidden names are reserved, and validity keeps reserved names out of the columns
  have hnew : ∀ c ∈ hidden.map (·.column), c ∉ q.returned.map (·.column) := by
    intro c hc hmem
    rw [columns_returned] at hmem
    exact Bool.false_ne_true ((hfree c hmem).symm.trans (hnumbered.isReserved hc))
  rw [unsorted_of_plain hplain] at hrows
  obtain ⟨ms, hms, hall⟩ := Operator.gives_project_iff.1 hrows
  obtain ⟨ps, rfl, rfl, hps⟩ := exists_pairs (List.forall₂_map_right_iff.1 hall)
  obtain ⟨shown, hshown⟩ := exists_forall₂ fun p hp =>
    projectRow_append hnumbered.nodup hnew (hps p hp)
  rw [columns_returned] at hshown
  have hproject {full out : Row} (h : ∀ c ∈ q.columns, full.get? c = out.get? c) :
      out.project q.columns = full.project q.columns :=
    Row.project_congr fun c hc => (h c hc).symm
  refine ⟨ps.map fun p => .of q.columns (some p.1) p.2, ⟨?reads, fun hgrouped => ?_,
    fun _ => ⟨draft, _, hdraft, hms, ?projected⟩⟩, ⟨shown, ?gives, ?given⟩, ?keyed⟩
  case reads =>
    refine List.forall_mem_map.2 fun p hp => ?_
    obtain ⟨out, -, -, -, hhidden⟩ := exists_of_forall₂ hshown hp
    refine reads_of_refers hkeys (hkeyed p.2 (List.mem_map_of_mem hp)) fun n hn => ?_
    obtain ⟨v, hv, hget⟩ := hhidden n hn
    exact ⟨p.1, v, rfl, hv, hget⟩
  case projected =>
    refine List.forall₂_map_left_iff.2 (List.forall₂_map_right_iff.2 (List.forall₂_same.2 ?_))
    intro p hp
    obtain ⟨out, -, hout, hsame, -⟩ := exists_of_forall₂ hshown hp
    exact ⟨rfl, out, hout, (hproject hsame).symm⟩
  case gives =>
    rw [unsorted_of_plain hplain, List.append_nil]
    refine Operator.gives_project_iff.2 ⟨_, hms, List.forall₂_map_left_iff.2 ?_⟩
    exact hshown.imp fun p out hp => hp.1
  case given =>
    rw [List.map_map, ← List.forall₂_eq_eq_eq, List.forall₂_map_left_iff,
      List.forall₂_map_right_iff]
    exact List.Forall₂.flip (hshown.imp fun p out hp => hproject hp.2.1)
  case keyed =>
    exact List.forall₂_map_left_iff.2 (List.forall₂_map_right_iff.2
      (List.forall₂_same.2 fun p _ => ⟨rfl, rfl⟩))
  · rw [hplain] at hgrouped
    cases hgrouped

end

/-- What a valid query gives in order are the ranked rows, sorted by their keys. -/
theorem exists_ranking (hvalid : q.validate = .ok ()) {draft : Draft}
    (hdraft : Draft.ofPaths? g q.conjuncts q.paths = some draft) {out : List Row}
    (hskip : q.skip = none) (hlimit : q.limit = none)
    (h : (q.planReturn draft.finish).Gives g out) :
    ∃ keyed ranked, q.Ranking g draft.finish keyed ranked ∧
      out.map (·.project q.columns) = (ranked.mergeSort fun r s =>
        compareKeys q.orderBy r.key s.key ≠ .gt).map (·.row) := by
  obtain ⟨keys, hidden, hordered, hkeys, hnumbered, hgrouped⟩ := exists_keys hvalid
  rw [planReturn_eq hskip hlimit, hordered] at h
  obtain ⟨keyed, hrows, hkeyed, rfl⟩ := Operator.of_gives_sorted h
  obtain ⟨ranked, hranking⟩ : ∃ ranked, q.Ranking g draft.finish keyed ranked := by
    cases hplain : q.isAggregating || q.isDistinct with
    | true => exact exists_ranking_of_grouped hkeys hkeyed hplain (hgrouped hplain) hrows
    | false =>
      have hfree := (returns_of_validate hvalid).free
      exact exists_ranking_of_plain hkeys hkeyed hplain hnumbered hfree hdraft hrows
  exact ⟨keyed, ranked, hranking, map_sortRows (hkeys.imp fun _ _ h => h.ascending) hranking.keyed⟩

/-- If a query without paging has an answer, so has the query without an order, and the rows of the
first are those of the second, sorted by what the keys are read as. Columns stay the same, and no
row binds a hidden one. -/
theorem answer_is_sorted (hskip : q.skip = none) (hlimit : q.limit = none) {t : Table}
    (h : q.execute g = .ok t) : ∃ ranked sorted : List Ranked,
      q.unordered.execute g = .ok ⟨ranked.map (·.row), q.columns⟩ ∧ q.Ranks g ranked ∧
        Sorts q.orderBy Ranked.key ranked sorted ∧ t = ⟨sorted.map (·.row), q.columns⟩ ∧
          ∀ r ∈ t.rows, ∀ x, r.binds x = true → x ∈ q.columns ∧ isReserved x = false := by
  obtain ⟨hvalid, draft, out, hdraft, hout, rfl⟩ := execute_eq_ok.1 h
  obtain ⟨keyed, ranked, ⟨hranks, ⟨shown, hshown, hrows⟩, -⟩, hsorted⟩ :=
    exists_ranking hvalid hdraft hskip hlimit hout
  have hlength : ∀ r ∈ ranked, r.key.length = q.orderBy.length :=
    fun r hr => (hranks.reads r hr).length_eq.symm
  refine ⟨ranked, _, ?_, hranks, sorts_mergeSort hlength, by rw [hsorted], ?_⟩
  · rw [← planReturn_unordered hskip hlimit] at hshown
    rw [← hrows]
    exact execute_eq_ok.2 ⟨validate_unordered hvalid, draft, shown, hdraft, hshown, rfl⟩
  · refine List.forall_mem_map.2 fun r _ x hx => ?_
    have hmem := Row.mem_of_binds_project hx
    exact ⟨hmem, (returns_of_validate hvalid).free x hmem⟩

/-- The query for a property of the nodes under the name of their variable, in the descending order
of another property. -/
def shadowedOrder : Query where
  paths := [⟨⟨some "a", [], []⟩, []⟩]
  condition := none
  returns := some ⟨[⟨.property "a" "n", some "a"⟩], false⟩
  orderBy := [⟨.property "a" "k", false⟩]
  skip := none
  limit := none

/-- Four nodes, of which one does not have the property that is ordered by. -/
def orderedNodes : Graph :=
  [[("n", .boolean true), ("k", .text "x")], [("n", .text "u")],
    [("n", .text "v"), ("k", .text "y")], [("n", .text "w"), ("k", .text "x")]].foldl
      (fun g properties => (g.createNode [] properties).1) (.empty {})

private theorem execute_shadowedOrder : shadowedOrder.execute orderedNodes = .ok
    ⟨[⟨[("a", .scalar (.text "v"))]⟩, ⟨[("a", .scalar (.boolean true))]⟩,
      ⟨[("a", .scalar (.text "w"))]⟩, ⟨[("a", .scalar (.text "u"))]⟩], ["a"]⟩ := by
  let key (n : Scalar) (k : Value) : KeyedRow := ⟨[k], ⟨[("a", .scalar n), ("@sort_0", k)]⟩⟩
  have hplan : shadowedOrder.plan orderedNodes = .ok
      ⟨.sort (.project (.scan .all "a" "(a)")
        [⟨.property "a" "n", "a"⟩, ⟨.property "a" "k", "@sort_0"⟩])
          [⟨.ref "@sort_0", false⟩], ["a"]⟩ := rfl
  have hrows : (Operator.project (.scan .all "a" "(a)")
      [⟨.property "a" "n", "a"⟩, ⟨.property "a" "k", "@sort_0"⟩]).Gives orderedNodes
        ([key (.boolean true) (.scalar (.text "x")), key (.text "u") .null,
          key (.text "v") (.scalar (.text "y")), key (.text "w") (.scalar (.text "x"))].map
            (·.row)) := Operator.gives_iff.2 rfl
  have hsorted : sortRows [⟨.ref "@sort_0", false⟩]
      [key (.boolean true) (.scalar (.text "x")), key (.text "u") .null,
        key (.text "v") (.scalar (.text "y")), key (.text "w") (.scalar (.text "x"))] =
      [key (.text "v") (.scalar (.text "y")), key (.boolean true) (.scalar (.text "x")),
        key (.text "w") (.scalar (.text "x")), key (.text "u") .null].map (·.row) := by
    rw [sortRows_eq _ (by decide)]
    decide +kernel
  rw [execute, hplan]
  refine Plan.execute_eq_ok.2 ⟨_, Operator.gives_sort_iff.2 ⟨_, _, hrows, ?_, hsorted⟩, rfl⟩
  exact List.forall₂_map_left_iff.2 (List.forall₂_same.2 (by decide))

/-- The key is read on the node although the column with its name shows something else. Two nodes
are tied and stay as they were, and the one without the property comes last. -/
theorem answer_is_sorted_of_shadowed_order :
    let q := shadowedOrder
    let t : Table := ⟨[⟨[("a", .scalar (.text "v"))]⟩, ⟨[("a", .scalar (.boolean true))]⟩,
      ⟨[("a", .scalar (.text "w"))]⟩, ⟨[("a", .scalar (.text "u"))]⟩], ["a"]⟩
    q.execute orderedNodes = .ok t ∧ ∃ ranked sorted : List Ranked,
      q.unordered.execute orderedNodes = .ok ⟨ranked.map (·.row), q.columns⟩ ∧
        q.Ranks orderedNodes ranked ∧ Sorts q.orderBy Ranked.key ranked sorted ∧
          t = ⟨sorted.map (·.row), q.columns⟩ ∧
            ∀ r ∈ t.rows, ∀ x, r.binds x = true → x ∈ q.columns ∧ isReserved x = false :=
  ⟨execute_shadowedOrder, answer_is_sorted rfl rfl execute_shadowedOrder⟩

end Query

end Plexus
