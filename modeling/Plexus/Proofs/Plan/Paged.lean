import Mathlib.Algebra.GroupWithZero.Nat
import Plexus.Proofs.Graph.Reachable
import Plexus.Proofs.Plan.Return

/-!
# Pages of answers

The operators for skipping and limiting stand on top of all others, so a page of an answer is cut
out of the rows of the whole answer. That the operators below a limit are not drained for it makes
no difference: up to where they are pulled they give the rows that they give when they are drained.
Pages that follow one another therefore make up the answer.
-/

namespace Plexus

namespace Query

/-- The query with its paging replaced. -/
def page (q : Query) (skip limit : Option Nat) : Query := { q with skip, limit }

/-- What is left of some rows after skipping, up to the limit. -/
def pageOf (skip limit : Option Nat) (rows : List Row) : List Row :=
  match limit with
  | some most => (rows.drop (skip.getD 0)).take most
  | none => rows.drop (skip.getD 0)

/-- The rows of pages of the given sizes that follow one another, after some rows are skipped. -/
def pagesFrom (q : Query) (g : Graph) (skip : Nat) : List Nat → Except QueryFault (List Row)
  | [] => return []
  | size :: sizes => do
    let first ← (q.page (some skip) (some size)).execute g
    let others ← q.pagesFrom g (skip + size) sizes
    return first.rows ++ others

variable {q : Query} {g : Graph} {op : Operator} {t : Table}

/-- Paging comes last, on top of what the query is planned into without it. -/
theorem planReturn_page (hskip : q.skip = none) (hlimit : q.limit = none)
    (skip limit : Option Nat) : (q.page skip limit).planReturn op =
      let skipped := skip.elim (q.planReturn op) (q.planReturn op).skip
      limit.elim skipped skipped.limit := by
  unfold planReturn
  rw [hskip, hlimit]
  cases skip <;> cases limit <;> rfl

/-- If the operators can be drained without paging, a page of their rows can be drained with it. -/
theorem gives_page (hskip : q.skip = none) (hlimit : q.limit = none) {rows : List Row}
    (h : (q.planReturn op).Gives g rows) (skip limit : Option Nat) :
    ((q.page skip limit).planReturn op).Gives g (pageOf skip limit rows) := by
  have hskipped : (skip.elim (q.planReturn op) (q.planReturn op).skip).Gives g
      (rows.drop (skip.getD 0)) := by
    cases skip with
    | none => exact h
    | some count => exact Operator.gives_skip_iff.2 ⟨rows, h, rfl⟩
  rw [planReturn_page hskip hlimit]
  cases limit with
  | none => exact hskipped
  | some most => exact hskipped.limit most

/-- A page of a query has an answer if the whole has one, and it is the page of the rows. -/
theorem execute_page (hskip : q.skip = none) (hlimit : q.limit = none) (h : q.execute g = .ok t)
    (skip limit : Option Nat) :
    (q.page skip limit).execute g = .ok ⟨pageOf skip limit t.rows, t.columns⟩ := by
  obtain ⟨hvalid, draft, rows, hdraft, hrows, rfl⟩ := execute_eq_ok.1 h
  have hpage : pageOf skip limit (rows.map (·.project q.columns)) =
      (pageOf skip limit rows).map (·.project q.columns) := by
    cases limit <;> simp [pageOf, List.map_take, List.map_drop]
  refine execute_eq_ok.2 ⟨hvalid, draft, _, hdraft, gives_page hskip hlimit hrows skip limit, ?_⟩
  dsimp only
  rw [hpage]
  rfl

/-- Pages that follow one another give the rows from where the first begins to where the last
ends. -/
theorem pagesFrom_eq (hskip : q.skip = none) (hlimit : q.limit = none) (h : q.execute g = .ok t)
    (skip : Nat) (sizes : List Nat) :
    q.pagesFrom g skip sizes = .ok ((t.rows.drop skip).take sizes.sum) := by
  induction sizes generalizing skip with
  | nil => rfl
  | cons size sizes ih =>
    have hrows : (t.rows.drop skip).take (size + sizes.sum) =
        (t.rows.drop skip).take size ++ (t.rows.drop (skip + size)).take sizes.sum := by
      rw [List.take_add, List.drop_drop]
    rw [pagesFrom, execute_page hskip hlimit h, ih, List.sum_cons, hrows]
    rfl

/-- If a query without paging has an answer, so has every page of it: with the same columns, the
rows that are left after skipping, up to the limit. Pages that follow one another from the first row
and are long enough in all give every row of the answer once and in its order. -/
theorem answer_is_paged (hskip : q.skip = none) (hlimit : q.limit = none)
    (h : q.execute g = .ok t) :
    (∀ skip limit : Option Nat,
      (q.page skip limit).execute g = .ok ⟨pageOf skip limit t.rows, t.columns⟩) ∧
    ∀ sizes : List Nat, t.rows.length ≤ sizes.sum → q.pagesFrom g 0 sizes = .ok t.rows := by
  refine ⟨execute_page hskip hlimit h, fun sizes hsizes => ?_⟩
  rw [pagesFrom_eq hskip hlimit h, List.drop_zero, List.take_of_length_le hsizes]

/-- The query for the pairs of a property of what a node leads to and the same property of any node,
each pair once. -/
def distinctPairs : Query where
  paths := [⟨⟨some "a", ["A"], []⟩, [(⟨none, ["R"], .outgoing, some ⟨none, none⟩, []⟩,
    ⟨some "b", [], []⟩)]⟩, ⟨⟨some "c", [], []⟩, []⟩]
  condition := none
  returns := some ⟨[⟨.property "b" "k", some "x"⟩, ⟨.property "c" "k", some "y"⟩], true⟩
  orderBy := []
  skip := none
  limit := none

/-- A page in the middle, and two pages of three rows, the second of which is not full. -/
theorem answer_is_paged_of_distinct_pairs :
    let g := [Mutation.createNode ["A"] [("k", .text "u")], .createNode [] [("k", .text "u")],
      .createNode [] [("k", .text "v")], .createEdge ⟨0⟩ ⟨1⟩ "R" [],
      .createEdge ⟨1⟩ ⟨2⟩ "R" []].foldl Graph.after (.empty {})
    let row (x y : String) : Row := ⟨[("x", .scalar (.text x)), ("y", .scalar (.text y))]⟩
    distinctPairs.execute g =
        .ok ⟨[row "u" "u", row "u" "v", row "v" "u", row "v" "v"], ["x", "y"]⟩ ∧
      (distinctPairs.page (some 1) (some 2)).execute g =
        .ok ⟨[row "u" "v", row "v" "u"], ["x", "y"]⟩ ∧
      distinctPairs.pagesFrom g 0 [3, 3] =
        .ok [row "u" "u", row "u" "v", row "v" "u", row "v" "v"] := by
  intro g row
  have hall : distinctPairs.execute g =
      .ok ⟨[row "u" "u", row "u" "v", row "v" "u", row "v" "v"], ["x", "y"]⟩ :=
    (execute_of_plan rfl).trans (by decide +kernel)
  obtain ⟨hpage, hpages⟩ := answer_is_paged rfl rfl hall
  exact ⟨hall, hpage (some 1) (some 2), hpages [3, 3] (by decide)⟩

end Query

end Plexus
