import Plexus.Proofs.Graph.Reachable
import Plexus.Proofs.Plan.Assign
import Plexus.Proofs.Plan.Return

/-!
# Rows are matches

The rows that the pattern hands on to what comes after it are the matches of the query, each once.
This is what the entries, the walks and the filters of a plan amount to.
-/

namespace Plexus

variable {g : Graph} {ν : Valuation} {fs : List Focus} {paths : List Path} {ms : List PathMatch}

/-- All paths are as their descriptors ask if the matches that are assigned to them fit. -/
theorem holds_all_iff (hnames : List.Forall₂ Focus.Names fs paths) :
    (∀ f ∈ fs, f.Holds g ν) ↔ ∃ ms, List.Forall₂ (fun f m => f.Assigns ν m) fs ms ∧
      List.Forall₂ (Path.Fits g) paths ms := by
  induction hnames with
  | nil => exact ⟨fun _ => ⟨[], .nil, .nil⟩, fun _ => List.forall_mem_nil _⟩
  | cons hname _ ih =>
    rw [List.forall_mem_cons, ih, Focus.holds_iff hname]
    constructor
    · rintro ⟨⟨m, hassign, hfits⟩, ms, hassigns, hall⟩
      exact ⟨m :: ms, .cons hassign hassigns, .cons hfits hall⟩
    · rintro ⟨_, hassigns, hall⟩
      cases hassigns with
      | cons hassign hassigns =>
        cases hall with
        | cons hfits hall => exact ⟨⟨_, hassign, hfits⟩, _, hassigns, hall⟩

/-- Matches of paths without common variables are assigned by one valuation if each of them is by
some valuation. -/
theorem exists_assigns_all (hdisjoint : fs.Pairwise fun f f' => ∀ x ∈ f.names, x ∉ f'.names)
    (h : List.Forall₂ (fun f m => ∃ ν : Valuation, ν.Binds f.names ∧ f.Assigns ν m) fs ms) :
    ∃ ν : Valuation, (∀ x, (ν x).isSome ↔ ∃ f ∈ fs, x ∈ f.names) ∧
      List.Forall₂ (fun f m => f.Assigns ν m) fs ms := by
  induction h with
  | nil => exact ⟨fun _ => none, fun x => by simp, .nil⟩
  | cons hfirst hrest ih =>
    rename_i f m fs ms
    rw [List.pairwise_cons] at hdisjoint
    obtain ⟨ν, hbinds, hassign⟩ := hfirst
    obtain ⟨μ, hbinds', hassigns⟩ := ih hdisjoint.2
    have hleft : ∀ x ∈ f.names, ν x = (ν x).or (μ x) := by
      intro x hx
      obtain ⟨v, hv⟩ := Option.isSome_iff_exists.1 ((hbinds x).2 hx)
      rw [hv]
      rfl
    have hright : ∀ f' ∈ fs, ∀ x ∈ f'.names, μ x = (ν x).or (μ x) := by
      intro f' hf' x hx
      have hnone : ν x = none := by
        rw [← Option.not_isSome_iff_eq_none, hbinds x]
        exact fun hmem => hdisjoint.1 f' hf' x hmem hx
      rw [hnone]
      rfl
    refine ⟨fun x => (ν x).or (μ x), fun x => ?_, .cons (hassign.congr hleft) ?_⟩
    · rw [Option.isSome_or, Bool.or_eq_true, hbinds, hbinds', List.exists_mem_cons_iff]
    · refine List.forall₂_iff_zip.2 ⟨hassigns.length_eq, fun {f' m'} hzip => ?_⟩
      exact (List.forall₂_zip hassigns hzip).congr (hright f' (List.of_mem_zip hzip).1)

namespace Query

variable {q : Query}

private theorem of_mem_bindings (hnames : List.Forall₂ Focus.Names fs q.paths)
    (hassigns : List.Forall₂ (fun f m => f.Assigns ν m) fs ms) {x : String} {v : Value}
    (h : (x, v) ∈ q.bindings ms) : ν x = some v := by
  obtain ⟨⟨p, m⟩, hzip, hmem⟩ := List.mem_flatMap.1 h
  obtain ⟨f, hname, hassign⟩ := List.forall₂_zip (forall₂_through hnames hassigns) hzip
  exact hassign.of_mem_bindings hname hmem

private theorem mem_bindings (hnames : List.Forall₂ Focus.Names fs q.paths)
    (hassigns : List.Forall₂ (fun f m => f.Assigns ν m) fs ms) {p : Path} (hp : p ∈ q.paths)
    {x : String} (hx : p.Declares x) {v : Value} (hv : ν x = some v) : (x, v) ∈ q.bindings ms := by
  obtain ⟨m, hzip, f, hname, hassign⟩ := exists_of_forall₂ (forall₂_through hnames hassigns) hp
  exact List.mem_flatMap.2 ⟨(p, m), hzip, hassign.mem_bindings hname hx hv⟩

/-- A conjunct is true on the bindings of a match if it is under the valuation. -/
theorem evaluate_bindings (hnames : List.Forall₂ Focus.Names fs q.paths)
    (hassigns : List.Forall₂ (fun f m => f.Assigns ν m) fs ms) {e : Expression}
    (he : ∀ x ∈ e.reads, ∃ p ∈ q.paths, p.Declares x) :
    e.Holds g ν ↔ e.evaluate g ⟨q.bindings ms⟩ = .ok (.boolean true) := by
  apply Expression.holds_iff
  intro x hx
  obtain ⟨p, hp, hdeclares⟩ := he x hx
  cases hget : (Row.mk (q.bindings ms)).get? x with
  | some v => exact (of_mem_bindings hnames hassigns (Assoc.mem_of_get? hget)).symm
  | none =>
    cases hv : ν x with
    | none => rfl
    | some v =>
      have hmem := mem_bindings hnames hassigns hp hdeclares hv
      have hsome := (Assoc.get?_isSome_iff (q.bindings ms) x).2 (List.mem_map_of_mem hmem)
      rw [← Row.get?, hget] at hsome
      cases hsome

/-- What the plan asks of a valuation is that it assigns a match of the query. -/
theorem asks_iff (hnames : List.Forall₂ Focus.Names fs q.paths)
    (hreads : ∀ e ∈ q.conjuncts, ∀ x ∈ e.reads, ∃ p ∈ q.paths, p.Declares x) :
    ((∀ f ∈ fs, f.Holds g ν) ∧ ∀ e ∈ q.conjuncts, e.Holds g ν) ↔
      ∃ ms, List.Forall₂ (fun f m => f.Assigns ν m) fs ms ∧ q.Matches g ms := by
  rw [holds_all_iff hnames]
  constructor
  · rintro ⟨⟨ms, hassigns, hfits⟩, hconjuncts⟩
    refine ⟨ms, hassigns, hfits, fun x v w hv hw => ?_, exists_splits_iff.2 fun e he => ?_⟩
    · have hsame := (of_mem_bindings hnames hassigns hv).symm.trans
        (of_mem_bindings hnames hassigns hw)
      exact Option.some.inj hsame
    · exact (evaluate_bindings hnames hassigns (hreads e he)).1 (hconjuncts e he)
  · rintro ⟨ms, hassigns, hmatches⟩
    exact ⟨⟨ms, hassigns, hmatches.fits⟩, fun e he =>
      (evaluate_bindings hnames hassigns (hreads e he)).2
        (exists_splits_iff.1 hmatches.condition e he)⟩

/-- Every match of the query is assigned by a valuation. -/
theorem exists_valuation (hnames : List.Forall₂ Focus.Names fs q.paths)
    (hapart : ∀ f ∈ fs, ∃ path, (f.mentions path).Pairwise Mention.Apart)
    (hdisjoint : fs.Pairwise fun f f' => ∀ x ∈ f.names, x ∉ f'.names) (h : q.Matches g ms) :
    ∃ ν : Valuation, (∀ x, (ν x).isSome ↔ ∃ f ∈ fs, x ∈ f.names) ∧
      List.Forall₂ (fun f m => f.Assigns ν m) fs ms := by
  have hfits : List.Forall₂ (fun p m => p.Fits g m ∧ (p, m) ∈ q.paths.zip ms) q.paths ms :=
    List.forall₂_iff_zip.2 ⟨h.fits.length_eq, fun hzip => ⟨List.forall₂_zip h.fits hzip, hzip⟩⟩
  have hflip : List.Forall₂ (flip Focus.Names) q.paths fs := List.Forall₂.flip hnames
  have hboth := forall₂_through hflip hfits
  refine exists_assigns_all hdisjoint
    (List.forall₂_iff_zip.2 ⟨hboth.length_eq, fun {f m} hzip => ?_⟩)
  obtain ⟨p, hname, hfit, hpaths⟩ := List.forall₂_zip hboth hzip
  obtain ⟨path, hpairwise⟩ := hapart f (List.of_mem_zip hzip).1
  have hmem {b : String × Value} (hb : b ∈ p.bindings m) : b ∈ q.bindings ms :=
    List.mem_flatMap.2 ⟨(p, m), hpaths, hb⟩
  exact Focus.exists_assigns hname hpairwise hfit fun x v w hv hw =>
    h.shared x v w (hmem hv) (hmem hw)

private theorem distinctKeys_of_names (hkeys : q.DistinctKeys)
    (hnames : List.Forall₂ Focus.Names fs q.paths) : ∀ f ∈ fs, f.DistinctKeys := by
  intro f hf n hn
  obtain ⟨p, hp, hname⟩ := exists_of_forall₂ hnames hf
  refine hkeys p (List.of_mem_zip hp).2 n.pattern ?_
  rw [← hname.map_nodes]
  exact List.mem_map_of_mem hn

/-- A valuation of the names assigns a match of the query. -/
private def Stands (fs : List Focus) (q : Query) (g : Graph) (names : List String) (ν : Valuation)
    (ms : List PathMatch) : Prop :=
  ν.Binds names ∧ List.Forall₂ (fun f m => f.Assigns ν m) fs ms ∧ q.Matches g ms

/-- A match is assigned by one valuation, and a valuation assigns one match. -/
theorem biUnique_stands {names : List String}
    (hmem : ∀ x, x ∈ names ↔ ∃ f ∈ fs, x ∈ f.names) :
    Relator.BiUnique (Stands fs q g names) := by
  constructor
  · rintro ν ms μ ⟨hν, hassigns, -⟩ ⟨hμ, hassigns', -⟩
    apply hν.ext hμ
    intro x hx
    obtain ⟨f, hf, hxf⟩ := (hmem x).1 hx
    obtain ⟨m, hzip, hassign⟩ := exists_of_forall₂ hassigns hf
    exact hassign.ext (List.forall₂_zip hassigns' hzip) x hxf
  · rintro ν ms ms' ⟨-, hassigns, -⟩ ⟨-, hassigns', -⟩
    exact Relator.RightUnique.forall₂ (fun f m m' hm hm' => hm.unique hm') hassigns hassigns'

/-- The rows of the pattern list the valuations that assign a match, and every match once. -/
theorem matches_of_lists {names : List String} {rows : List Row}
    (hnames : List.Forall₂ Focus.Names fs q.paths)
    (hapart : ∀ f ∈ fs, ∃ path, (f.mentions path).Pairwise Mention.Apart)
    (hdisjoint : fs.Pairwise fun f f' => ∀ x ∈ f.names, x ∉ f'.names)
    (hmem : ∀ x, x ∈ names ↔ ∃ f ∈ fs, x ∈ f.names)
    (h : Lists rows names fun ν =>
      ∃ ms, List.Forall₂ (fun f m => f.Assigns ν m) fs ms ∧ q.Matches g ms) :
    ∃ mss : List (List PathMatch), mss.Nodup ∧ (∀ ms, ms ∈ mss ↔ q.Matches g ms) ∧
      List.Forall₂ (fun r ms => List.Forall₂ (fun f m => f.Assigns r.get? m) fs ms) rows mss := by
  have hunique := biUnique_stands (q := q) (g := g) hmem
  have hstands : ∀ ν ∈ rows.map Row.get?, ∃ ms, Stands fs q g names ν ms := by
    intro ν hν
    obtain ⟨hbinds, ms, hassigns, hmatches⟩ := (h.mem ν).1 hν
    exact ⟨ms, hbinds, hassigns, hmatches⟩
  obtain ⟨mss, hall⟩ := exists_forall₂ hstands
  have hflip : List.Forall₂ (flip (Stands fs q g names)) mss (rows.map Row.get?) :=
    List.Forall₂.flip hall
  have hnodup : mss.Nodup := (List.rel_nodup hunique hall).1 h.nodup
  refine ⟨mss, hnodup, ?_, ?_⟩
  · intro ms
    constructor
    · intro hms
      obtain ⟨ν, -, hν⟩ := exists_of_forall₂ hflip hms
      exact hν.2.2
    · intro hms
      obtain ⟨ν, hbinds, hassigns⟩ := exists_valuation hnames hapart hdisjoint hms
      have hν : ν.Binds names := fun x => (hbinds x).trans (hmem x).symm
      have hlisted : ν ∈ rows.map Row.get? := (h.mem ν).2 ⟨hν, ms, hassigns, hms⟩
      exact (List.rel_mem hunique ⟨hν, hassigns, hms⟩ hall).1 hlisted
  · rw [List.forall₂_map_left_iff] at hall
    exact hall.imp fun r ms hr => hr.2.1

/-- The query for an open edge of a type, by its name, from an open node to another. -/
def openEdge : Query where
  paths := [⟨⟨some "a", [], []⟩, [(⟨some "r", ["R"], .outgoing, none, []⟩, ⟨some "b", [], []⟩)]⟩]
  condition := some (.binary .and (.property "a" "open") (.property "r" "open"))
  returns := none
  orderBy := []
  skip := none
  limit := none

end Query

namespace Graph

/-- For a query that has an answer and no limit, the rows that the planned pattern hands on to what
comes after it are the matches of the query: every match has one row, every row is that of a match,
and the row binds the variables of the query to what the match assigns to them. -/
theorem Reachable.rows_are_matches (hg : g.Reachable) {q : Query} (hkeys : q.DistinctKeys)
    (hlimit : q.limit = none) {t : Table} (hok : q.execute g = .ok t) :
    ∃ draft rows mss, Draft.ofPaths? g q.conjuncts q.paths = some draft ∧
      q.plan g = .ok ⟨q.planReturn draft.finish, q.columns⟩ ∧ draft.finish.Gives g rows ∧
        mss.Nodup ∧ (∀ ms, ms ∈ mss ↔ q.Matches g ms) ∧
          List.Forall₂ (fun r ms => ∀ b ∈ q.bindings ms, r.get? b.1 = some b.2) rows mss := by
  obtain ⟨hvalid, draft, out, hdraft, hout, -⟩ := Query.execute_eq_ok.1 hok
  have hplan := Query.plan_of_draft hvalid hdraft
  obtain ⟨rows, hrows⟩ := Query.gives_of_planReturn hlimit hout
  obtain ⟨hnames, hapart, hdisjoint, hreads⟩ := Query.names_of_validate hvalid
  have hfs : ∀ f ∈ Focus.ofPaths 0 q.paths, f.WellNamed ∧ f.DistinctKeys := by
    intro f hf
    obtain ⟨p, -, hname⟩ := exists_of_forall₂ hnames hf
    obtain ⟨path, hpairwise⟩ := hapart f hf
    exact ⟨Focus.wellNamed_of_apart hname hpairwise, Query.distinctKeys_of_names hkeys hnames f hf⟩
  obtain ⟨names, hmem, hlists⟩ := Draft.lists_ofPaths? hg.sound hdraft hfs hdisjoint hrows
  obtain ⟨mss, hnodup, hmss, hall⟩ := Query.matches_of_lists hnames hapart hdisjoint hmem
    (hlists.congr (fun _ => Iff.rfl) fun ν _ => Query.asks_iff hnames hreads)
  exact ⟨draft, rows, mss, hdraft, hplan, hrows, hnodup, hmss, hall.imp fun r ms hr b hb =>
    Query.of_mem_bindings hnames hr hb⟩

/-- Three edges of one type from the first of two nodes to the second, one of them not open. -/
def parallelEdges : Graph :=
  let edge (isOpen : Bool) := Mutation.createEdge ⟨0⟩ ⟨1⟩ "R" [("open", .boolean isOpen)]
  [.createNode [] [("open", .boolean true)], .createNode [] [], edge true, edge false,
    edge true].foldl after (.empty {})

private def namedHop : Expansion :=
  ⟨"a", "b", some "r", .only [⟨0⟩], .outgoing, .any, "(a)-[r:R]->(b)"⟩

private def rowOf (edge : Nat) : Row := ⟨[("a", .node ⟨0⟩), ("b", .node ⟨1⟩), ("r", .edge ⟨edge⟩)]⟩

private theorem rows_namedHop : namedHop.rows parallelEdges ⟨[("a", .node ⟨0⟩)]⟩ =
    .ok [rowOf 0, rowOf 1, rowOf 2] := by
  have hedges : parallelEdges.edgesOf ⟨0⟩ (.only [⟨0⟩]) .outgoing =
      [(⟨0⟩, ⟨1⟩), (⟨1⟩, ⟨1⟩), (⟨2⟩, ⟨1⟩)] := by
    unfold edgesOf
    rw [List.mergeSort_of_pairwise] <;> decide +kernel
  have hends : namedHop.ends parallelEdges ⟨0⟩ =
      [(some ⟨0⟩, ⟨1⟩), (some ⟨1⟩, ⟨1⟩), (some ⟨2⟩, ⟨1⟩)] := by
    simp only [Expansion.ends, namedHop, hedges]
    rfl
  have hstart : (Row.mk [("a", .node ⟨0⟩)]).startNode namedHop.source = .ok (some ⟨0⟩) := rfl
  simp only [Expansion.rows, hstart, bind, Except.bind, hends]
  rfl

private theorem execute_openEdge : Query.openEdge.execute parallelEdges = .ok
    ⟨[⟨[("a", .node ⟨0⟩), ("r", .edge ⟨0⟩), ("b", .node ⟨1⟩)]⟩,
      ⟨[("a", .node ⟨0⟩), ("r", .edge ⟨2⟩), ("b", .node ⟨1⟩)]⟩], ["a", "r", "b"]⟩ := by
  let starts := (Operator.scan .all "a" "(a)").filter (.property "a" "open")
  have hplan : Query.openEdge.plan parallelEdges =
      .ok ⟨.project ((starts.expand namedHop).filter (.property "r" "open"))
        [⟨.ref "a", "a"⟩, ⟨.ref "r", "r"⟩, ⟨.ref "b", "b"⟩], ["a", "r", "b"]⟩ := rfl
  have hstarts : starts.output parallelEdges = ⟨[⟨[("a", .node ⟨0⟩)]⟩], none⟩ := rfl
  have hhop : (starts.expand namedHop).output parallelEdges =
      ⟨[rowOf 0, rowOf 1, rowOf 2], none⟩ := by
    rw [Operator.output, hstarts]
    simp only [Output.spread, List.foldr, rows_namedHop]
    rfl
  rw [Query.execute, hplan]
  dsimp only
  rw [Plan.execute_eq, Operator.output, Operator.output, hhop]
  rfl

/-- Of three parallel edges the two that are open are two matches, and each has its row. -/
theorem rows_are_matches_of_parallel_edges :
    let q := Query.openEdge
    ∃ t, q.execute parallelEdges = .ok t ∧ t.rows.length = 2 ∧
      ¬q.Matches parallelEdges [⟨⟨0⟩, [(some ⟨1⟩, ⟨1⟩)]⟩] ∧ ∃ draft rows mss,
        Draft.ofPaths? parallelEdges q.conjuncts q.paths = some draft ∧
          q.plan parallelEdges = .ok ⟨q.planReturn draft.finish, q.columns⟩ ∧
            draft.finish.Gives parallelEdges rows ∧ mss.Nodup ∧
              (∀ ms, ms ∈ mss ↔ q.Matches parallelEdges ms) ∧
                List.Forall₂ (fun r ms => ∀ b ∈ q.bindings ms, r.get? b.1 = some b.2) rows mss := by
  have hreach : parallelEdges.Reachable := Reachable.foldl (.empty {}) _
  have hkeys : Query.openEdge.DistinctKeys := by
    simp [Query.DistinctKeys, Query.openEdge, Path.nodes, Assoc.keys]
  refine ⟨_, execute_openEdge, rfl, fun h => ?_,
    Reachable.rows_are_matches hreach hkeys rfl execute_openEdge⟩
  have hopen := Query.exists_splits_iff.1 h.condition (.property "r" "open")
    (List.mem_cons_of_mem _ List.mem_cons_self)
  revert hopen
  decide +kernel

end Graph

end Plexus
