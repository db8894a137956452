import Plexus.Plan.Execution
import Plexus.Proofs.Line
import Plexus.Proofs.Plan.Path

/-!
# Patterns on one line

The text of a descriptor is put together of the names in it, of literals, and of marks between
them. If the names have no line breaks, neither has the text, whatever the literals are. A plan
shows texts of descriptors and no others.
-/

namespace Plexus

open Text

/-- The names in a node descriptor: its variable, its labels, and the keys of its properties. -/
def NodePattern.names (n : NodePattern) : List String :=
  n.name.toList ++ (n.labels ++ n.properties.keys)

/-- The names in an edge descriptor: its variable, its types, and the keys of its properties. -/
def EdgePattern.names (e : EdgePattern) : List String :=
  e.name.toList ++ (e.types ++ e.properties.keys)

/-- The names in the descriptors of a path. -/
def Path.names (p : Path) : List String :=
  p.nodes.flatMap NodePattern.names ++ p.edges.flatMap EdgePattern.names

/-- The names in the pattern of a query. -/
def Query.patternNames (q : Query) : List String := q.paths.flatMap Path.names

/-! ## Descriptors -/

/-- A name on one line is shown on one line. -/
theorem oneLine_shownName {name : String} (h : OneLine name) : OneLine (shownName name) := by
  unfold shownName
  split
  · exact oneLine_empty
  · exact h

/-- A name that the planner makes is not shown. -/
theorem oneLine_internalName (what : String) (k : Nat) :
    OneLine (shownName (internalName what k)) := by
  have hreserved : isReserved (internalName what k) = true := by
    simp [isReserved, internalName, String.toList_append]
  rw [shownName, if_pos hreserved]
  exact oneLine_empty

/-- Properties with keys on one line are written on one line. -/
theorem oneLine_propertiesText {properties : Assoc String Scalar}
    (h : ∀ key ∈ properties.keys, OneLine key) : OneLine (propertiesText properties) := by
  unfold propertiesText
  split
  · exact oneLine_empty
  · refine .append (.append (by decide) (.intercalate (by decide) ?_)) (by decide)
    rw [List.forall_mem_map]
    intro p hp
    exact .append (.append (h p.1 (List.mem_map_of_mem hp)) (by decide)) p.2.oneLine_literal

/-- A node pattern whose names are on one line is written on one line. -/
theorem NodePattern.oneLine_text {n : NodePattern} (h : ∀ x ∈ n.names, OneLine x) {name : String}
    (hname : OneLine (shownName name)) : OneLine (n.text name) := by
  simp only [names, List.forall_mem_append] at h
  obtain ⟨-, hlabels, hkeys⟩ := h
  have hjoined : OneLine (String.join (n.labels.map (":" ++ ·))) :=
    oneLine_join (List.forall_mem_map.2 fun l hl => .append (by decide) (hlabels l hl))
  exact .append (.append (.append (.append (by decide) hname) hjoined)
    (oneLine_propertiesText hkeys)) (by decide)

/-- The numbers of hops are written on one line. -/
theorem EdgePattern.oneLine_hopsText (e : EdgePattern) : OneLine e.hopsText := by
  unfold hopsText
  split
  · exact oneLine_empty
  · refine .append (.append (.append (by decide) (oneLine_repr _)) (by decide)) ?_
    split
    · exact oneLine_repr _
    · exact oneLine_empty

/-- An edge pattern whose names are on one line is written on one line. -/
theorem EdgePattern.oneLine_text {e : EdgePattern} (h : ∀ x ∈ e.names, OneLine x)
    {name : Option String} (hname : ∀ x, name = some x → OneLine (shownName x)) (dir : Direction) :
    OneLine (e.text name dir) := by
  simp only [names, List.forall_mem_append] at h
  obtain ⟨-, htypes, hkeys⟩ := h
  have hshown : OneLine ((name.map shownName).getD "") := by
    cases name with
    | none => exact oneLine_empty
    | some x => exact hname x rfl
  have hjoined : OneLine (if e.types.isEmpty then "" else ":" ++ "|".intercalate e.types) := by
    split
    · exact oneLine_empty
    · exact .append (by decide) (.intercalate (by decide) htypes)
  have hinner := ((hshown.append hjoined).append e.oneLine_hopsText).append
    (oneLine_propertiesText hkeys)
  cases dir with
  | outgoing => exact .append (.append (by decide) hinner) (by decide)
  | incoming => exact .append (.append (by decide) hinner) (by decide)
  | both => exact .append (.append (by decide) hinner) (by decide)

/-! ## Paths with names -/

/-- Every descriptor of a path is shown on one line. -/
structure Focus.OneLine (f : Focus) : Prop where
  nodes (n : NamedNode) : n ∈ f.nodes → Text.OneLine (n.pattern.text n.name)
  edges (e : NamedEdge) : e ∈ f.edges → ∀ dir, Text.OneLine (e.pattern.text e.name dir)

private theorem oneLine_nameNodes (next : Nat) {l : List NodePattern}
    (h : ∀ n ∈ l, ∀ x ∈ n.names, OneLine x) :
    ∀ n ∈ (nameNodes next l).1, OneLine (n.pattern.text n.name) := by
  induction l generalizing next with
  | nil => exact List.forall_mem_nil _
  | cons n rest ih =>
    obtain ⟨hn, hrest⟩ := List.forall_mem_cons.1 h
    rw [nameNodes]
    split
    · rename_i name hname
      have hshown : OneLine name := hn name (List.mem_append_left _ (Option.mem_toList.2 hname))
      exact List.forall_mem_cons.2 ⟨n.oneLine_text hn (oneLine_shownName hshown), ih next hrest⟩
    · exact List.forall_mem_cons.2 ⟨n.oneLine_text hn (oneLine_internalName _ _), ih _ hrest⟩

private theorem oneLine_nameEdges (next : Nat) {l : List EdgePattern}
    (h : ∀ e ∈ l, ∀ x ∈ e.names, OneLine x) :
    ∀ e ∈ (nameEdges next l).1, ∀ dir, OneLine (e.pattern.text e.name dir) := by
  induction l generalizing next with
  | nil => exact List.forall_mem_nil _
  | cons e rest ih =>
    obtain ⟨he, hrest⟩ := List.forall_mem_cons.1 h
    rw [nameEdges]
    split
    · refine List.forall_mem_cons.2 ⟨e.oneLine_text he ?_, ih _ hrest⟩
      rintro _ ⟨⟩
      exact oneLine_internalName _ _
    · refine List.forall_mem_cons.2 ⟨e.oneLine_text he fun x hx => ?_, ih _ hrest⟩
      exact oneLine_shownName (he x (List.mem_append_left _ (Option.mem_toList.2 hx)))

namespace Focus

variable {f f' : Focus} {p : Path}

/-- A path whose names are on one line is shown on one line. -/
theorem oneLine_ofPath (h : ∀ x ∈ p.names, Text.OneLine x) (next : Nat) :
    (ofPath p next).1.OneLine := by
  rw [Path.names, List.forall_mem_append] at h
  have hpatterns : ∀ n ∈ p.nodes, ∀ x ∈ n.names, Text.OneLine x :=
    fun n hn x hx => h.1 x (List.mem_flatMap.2 ⟨n, hn, hx⟩)
  have hnodes := oneLine_nameNodes next hpatterns
  have hedges := oneLine_nameEdges (nameNodes next p.nodes).2
    fun e he x hx => h.2 x (List.mem_flatMap.2 ⟨e, he, hx⟩)
  unfold ofPath
  generalize nameNodes next p.nodes = named at hnodes hedges ⊢
  obtain ⟨named, free⟩ := named
  dsimp only at hnodes hedges ⊢
  generalize nameEdges free p.edges = linked at hedges ⊢
  obtain ⟨linked, last⟩ := linked
  cases named with
  | nil =>
    have hunnamed : Text.OneLine (shownName "") := by decide
    have hstart := p.start.oneLine_text (hpatterns _ List.mem_cons_self) hunnamed
    exact ⟨List.forall_mem_singleton.2 hstart, List.forall_mem_nil _⟩
  | cons first rest =>
    constructor
    · refine List.forall_mem_cons.2 ⟨hnodes _ List.mem_cons_self, List.forall_mem_map.2 ?_⟩
      exact fun s hs => hnodes _ (List.mem_cons_of_mem _ (List.of_mem_zip hs).2)
    · exact List.forall_mem_map.2 fun s hs => hedges _ (List.of_mem_zip hs).1

/-- A path is shown alike from each of its nodes. -/
theorem OneLine.of_mem_all (h : f.OneLine) (hf' : f' ∈ f.all) : f'.OneLine where
  nodes := nodes_of_mem_all hf' ▸ h.nodes
  edges := edges_of_mem_all hf' ▸ h.edges

private theorem mem_walkFrom {turn : Direction → Direction} {node : NamedNode}
    {rest : List (NamedEdge × NamedNode)} {s : WalkStep} (h : s ∈ walkFrom turn node rest) :
    s.source ∈ node :: rest.map Prod.snd ∧ s.edge ∈ rest.map Prod.fst ∧
      s.target ∈ rest.map Prod.snd := by
  induction rest generalizing node with
  | nil => cases h
  | cons p rest ih =>
    rcases List.mem_cons.1 h with rfl | h
    · exact ⟨List.mem_cons_self, List.mem_cons_self, List.mem_cons_self⟩
    · obtain ⟨hsource, hedge, htarget⟩ := ih h
      exact ⟨List.mem_cons_of_mem _ hsource, List.mem_cons_of_mem _ hedge,
        List.mem_cons_of_mem _ htarget⟩

/-- Every step from a node is shown on one line. -/
theorem OneLine.walk (h : f.OneLine) : ∀ s ∈ f.walk, Text.OneLine s.text := by
  intro s hs
  have hmem : s.source ∈ f.nodes ∧ s.edge ∈ f.edges ∧ s.target ∈ f.nodes := by
    simp only [Focus.nodes, Focus.edges, List.mem_append, List.mem_reverse, List.mem_cons]
    rw [Focus.walk, List.mem_append] at hs
    rcases hs with hs | hs
    · obtain ⟨hsource, hedge, htarget⟩ := mem_walkFrom hs
      exact ⟨.inr (List.mem_cons.1 hsource), .inr hedge, .inr (.inr htarget)⟩
    · obtain ⟨hsource, hedge, htarget⟩ := mem_walkFrom hs
      rw [List.mem_cons] at hsource
      exact ⟨hsource.elim (fun h => .inr (.inl h)) .inl, .inl hedge, .inl htarget⟩
  exact ((h.nodes _ hmem.1).append (h.edges _ hmem.2.1 _)).append (h.nodes _ hmem.2.2)

end Focus

/-! ## Plans -/

namespace Operator

/-- Every pattern that the tree shows has a property. -/
def ShowsOnly (P : String → Prop) : Operator → Prop
  | scan _ _ pattern => P pattern
  | expand input e => P e.pattern ∧ input.ShowsOnly P
  | reach input r => P r.pattern ∧ input.ShowsOnly P
  | product left right => left.ShowsOnly P ∧ right.ShowsOnly P
  | filter input _ | project input _ | aggregate input _ _ | distinct input _ | sort input _
  | skip input _ | limit input _ => input.ShowsOnly P

variable {P : String → Prop} {op : Operator}

/-- So does every pattern in its outline. -/
theorem ShowsOnly.of_mem_outline (h : op.ShowsOnly P) {depth : Nat} {line : Nat × Operator}
    (hline : line ∈ op.outline depth) {pattern : String}
    (hpattern : line.2.pattern? = some pattern) : P pattern := by
  induction op generalizing depth with
  | scan access name shown =>
    obtain rfl := List.mem_singleton.1 hline
    cases hpattern
    exact h
  | expand input e ih =>
    rcases List.mem_cons.1 hline with rfl | hline
    · cases hpattern
      exact h.1
    · exact ih h.2 hline
  | reach input r ih =>
    rcases List.mem_cons.1 hline with rfl | hline
    · cases hpattern
      exact h.1
    · exact ih h.2 hline
  | product left right ihl ihr =>
    rw [outline, List.cons_append, List.mem_cons, List.mem_append] at hline
    rcases hline with rfl | hline | hline
    · cases hpattern
    · exact ihl h.1 hline
    · exact ihr h.2 hline
  | filter input _ ih | project input _ ih | aggregate input _ _ ih | distinct input _ ih
  | sort input _ ih | skip input _ ih | limit input _ ih =>
    rcases List.mem_cons.1 hline with rfl | hline
    · cases hpattern
    · exact ih h hline

end Operator

namespace Draft

variable {P : String → Prop} {g : Graph} {d e : Draft}

/-- Testing what is ready shows no other patterns. -/
theorem showsOnly_filterReady : d.filterReady.root.ShowsOnly P ↔ d.root.ShowsOnly P := by
  rcases d.filterReady_cases with ⟨-, heq⟩ | ⟨c, -, heq⟩ <;> rw [heq]
  rfl

/-- A step shows its own text and what was shown before. -/
theorem showsOnly_step {s : WalkStep} (h : d.root.ShowsOnly P) (hs : P s.text) :
    (step g d s).root.ShowsOnly P := by
  rw [step, showsOnly_filterReady]
  unfold traverse
  dsimp only
  split
  · exact ⟨hs, h⟩
  · exact ⟨hs, h⟩

/-- A walk shows the texts of its steps and what was shown before. -/
theorem showsOnly_walk {steps : List WalkStep} (h : d.root.ShowsOnly P)
    (hsteps : ∀ s ∈ steps, P s.text) : (steps.foldl (step g) d).root.ShowsOnly P := by
  induction steps generalizing d with
  | nil => exact h
  | cons s rest ih =>
    obtain ⟨hs, hrest⟩ := List.forall_mem_cons.1 hsteps
    exact ih (showsOnly_step h hs) hrest

/-- A path is shown on one line wherever it is entered. -/
theorem oneLine_ofEntry {f : Focus} (hf : f.OneLine) (pending : List Expression) :
    (ofEntry g (Entry.choose g pending f)).root.ShowsOnly OneLine := by
  obtain ⟨f', hf', hchosen⟩ := Entry.chosen_choose g pending f
  have hfocus := hf.of_mem_all (hchosen.focus_eq ▸ hf')
  refine showsOnly_walk (showsOnly_filterReady.2 ?_) hfocus.walk
  exact hfocus.nodes _ (List.mem_append_right _ List.mem_cons_self)

/-- Further paths whose names are on one line are shown on one line. -/
theorem oneLine_addPaths {next : Nat} {paths : List Path}
    (h : ∀ p ∈ paths, ∀ x ∈ p.names, OneLine x) (hd : d.root.ShowsOnly OneLine) :
    (addPaths g d next paths).root.ShowsOnly OneLine := by
  induction paths generalizing d next with
  | nil => exact hd
  | cons p rest ih =>
    obtain ⟨hp, hrest⟩ := List.forall_mem_cons.1 h
    rw [addPaths_cons]
    refine ih hrest ?_
    rw [combine, showsOnly_filterReady]
    exact ⟨hd, oneLine_ofEntry (Focus.oneLine_ofPath hp next) _⟩

/-- The operators for a pattern show texts on one line. -/
theorem oneLine_finish {pending : List Expression} {paths : List Path}
    (h : ∀ p ∈ paths, ∀ x ∈ p.names, OneLine x) (hd : ofPaths? g pending paths = some d) :
    d.finish.ShowsOnly OneLine := by
  have hroot : d.root.ShowsOnly OneLine := by
    cases paths with
    | nil => cases hd
    | cons p rest =>
      obtain ⟨hp, hrest⟩ := List.forall_mem_cons.1 h
      rw [ofPaths?_cons, Option.some.injEq] at hd
      rw [← hd]
      exact oneLine_addPaths hrest (oneLine_ofEntry (Focus.oneLine_ofPath hp 0) _)
  unfold finish
  split
  · exact hroot
  · exact hroot

end Draft

/-- The operators for the answer show no pattern. -/
theorem Query.showsOnly_planReturn {P : String → Prop} {q : Query} {op : Operator}
    (h : op.ShowsOnly P) : (q.planReturn op).ShowsOnly P := by
  unfold planReturn shape
  dsimp only
  split_ifs <;> cases q.skip <;> cases q.limit <;> exact h

end Plexus
