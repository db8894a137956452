import Plexus.Proofs.Plan.Names

/-!
# Valuations and matches

A valuation that is as the descriptors of a path ask assigns a match to the path, and only one. The
other way, a match is assigned by one valuation of the variables, since descriptors that share a
variable share what is assigned to them.
-/

namespace Plexus

variable {g : Graph} {ν μ : Valuation}

namespace NamedEdge

/-- What a descriptor asks for between two nodes is there if a match can assign to it what its
variable stands for. -/
theorem joins_iff {e : NamedEdge} (h : e.name.isSome = e.pattern.isAssigned) {a b : NodeId} :
    e.Joins g e.pattern.direction a b ν ↔
      ∃ x : Option EdgeId, e.name.bind ν = x.map .edge ∧ e.pattern.Fits g a b x := by
  unfold Joins
  cases hname : e.name with
  | none =>
    rw [hname] at h
    have hassigned : e.pattern.isAssigned = false := h.symm
    have hnone (x : Option EdgeId) : (none : Option String).bind ν = x.map .edge ↔ x = none := by
      cases x <;> simp
    simp only [hnone, exists_eq_left, EdgePattern.Fits, hassigned, true_and, reduceCtorEq,
      false_implies, implies_true, and_true]
  | some y =>
    rw [hname] at h
    have hassigned : e.pattern.isAssigned = true := h.symm
    have hsingle : e.pattern.isSingle = true := by
      rw [EdgePattern.isAssigned, Bool.and_eq_true] at hassigned
      exact hassigned.1
    rw [if_pos hsingle]
    constructor
    · rintro ⟨id, hconnects, hid⟩
      obtain ⟨hν, hproperties⟩ := hid y rfl
      exact ⟨some id, hν, hassigned, hconnects, hproperties⟩
    · rintro ⟨x, hx, hfits⟩
      cases x with
      | none =>
        have hfalse := hassigned.symm.trans hfits.1
        cases hfalse
      | some id =>
        refine ⟨id, hfits.2.1, fun z hz => ?_⟩
        cases hz
        exact ⟨hx, hfits.2.2⟩

end NamedEdge

namespace Focus

/-- The variables of the path stand for what a match assigns to its descriptors. -/
structure Assigns (ν : Valuation) (f : Focus) (m : PathMatch) : Prop where
  nodes : List.Forall₂ (fun n id => ν n.name = some (.node id)) f.nodes m.nodes
  edges : List.Forall₂ (fun e x => e.name.bind ν = x.map .edge) f.edges m.edges

variable {f : Focus} {p : Path} {m m' : PathMatch}

/-- A valuation assigns one match to a path. -/
theorem Assigns.unique (h : f.Assigns ν m) (h' : f.Assigns ν m') : m = m' := by
  have hnodes : m.nodes = m'.nodes := by
    refine Relator.RightUnique.forall₂ (fun n id id' hid hid' => ?_) h.nodes h'.nodes
    have hsame := hid.symm.trans hid'
    simpa using hsame
  have hedges : m.edges = m'.edges := by
    refine Relator.RightUnique.forall₂ (fun e x x' hx hx' => ?_) h.edges h'.edges
    have hsame := hx.symm.trans hx'
    cases x <;> cases x' <;> simp_all
  obtain ⟨hstart, hends⟩ := List.cons.inj hnodes
  have hsteps : m.steps = m'.steps :=
    (List.zip_of_prod hedges hends).trans (List.zip_of_prod rfl rfl).symm
  obtain ⟨start, steps⟩ := m
  obtain ⟨start', steps'⟩ := m'
  rw [PathMatch.mk.injEq]
  exact ⟨hstart, hsteps⟩

/-- Valuations that assign one match to a path agree on the variables of the path. -/
theorem Assigns.ext (h : f.Assigns ν m) (h' : f.Assigns μ m) : ∀ x ∈ f.names, ν x = μ x := by
  intro x hx
  rcases List.mem_append.1 hx with hx | hx
  · obtain ⟨n, hn, rfl⟩ := List.mem_map.1 hx
    obtain ⟨id, hid, hν⟩ := exists_of_forall₂ h.nodes hn
    exact hν.trans (List.forall₂_zip h'.nodes hid).symm
  · obtain ⟨e, he, hname⟩ := List.mem_filterMap.1 hx
    obtain ⟨y, hy, hν⟩ := exists_of_forall₂ h.edges he
    have hμ := List.forall₂_zip h'.edges hy
    rw [hname] at hν hμ
    exact hν.trans hμ.symm

/-- What is assigned to a path depends on the names in the path alone. -/
theorem Assigns.congr (h : f.Assigns ν m) (hsame : ∀ x ∈ f.names, ν x = μ x) :
    f.Assigns μ m where
  nodes := by
    refine List.forall₂_iff_zip.2 ⟨h.nodes.length_eq, fun {n id} hid => ?_⟩
    have hn := List.mem_map_of_mem (f := NamedNode.name) (List.of_mem_zip hid).1
    exact (hsame _ (List.mem_append_left _ hn)).symm.trans (List.forall₂_zip h.nodes hid)
  edges := by
    refine List.forall₂_iff_zip.2 ⟨h.edges.length_eq, fun {e x} hx => ?_⟩
    have he := (List.of_mem_zip hx).1
    refine Eq.trans ?_ (List.forall₂_zip h.edges hx)
    cases hname : e.name with
    | none => rfl
    | some y =>
      exact (hsame y (List.mem_append_right _ (List.mem_filterMap.2 ⟨e, he, hname⟩))).symm

private theorem assigns_iff (hbefore : f.before = []) : f.Assigns ν m ↔
    ν f.node.name = some (.node m.start) ∧ List.Forall₂ (fun s t =>
      s.1.name.bind ν = t.1.map Value.edge ∧ ν s.2.name = some (.node t.2)) f.after m.steps := by
  have hnodes : f.nodes = f.node :: f.after.map Prod.snd := by simp [nodes, hbefore]
  have hedges : f.edges = f.after.map Prod.fst := by simp [edges, hbefore]
  constructor
  · rintro ⟨hn, he⟩
    rw [hnodes, PathMatch.nodes, List.forall₂_cons, List.forall₂_map_left_iff,
      List.forall₂_map_right_iff] at hn
    rw [hedges, PathMatch.edges, List.forall₂_map_left_iff, List.forall₂_map_right_iff] at he
    exact ⟨hn.1, List.Forall₂.mp (fun _ _ hs ht => ⟨hs, ht⟩) he hn.2⟩
  · rintro ⟨hstart, hsteps⟩
    constructor
    · rw [hnodes, PathMatch.nodes, List.forall₂_cons, List.forall₂_map_left_iff,
        List.forall₂_map_right_iff]
      exact ⟨hstart, hsteps.imp fun _ _ hs => hs.2⟩
    · rw [hedges, PathMatch.edges, List.forall₂_map_left_iff, List.forall₂_map_right_iff]
      exact hsteps.imp fun _ _ hs => hs.1

/-- The steps to the end of a path are as they should be if what they are assigned fits. -/
theorem holds_walkFrom {after : List (NamedEdge × NamedNode)} {node : NamedNode}
    {a : NodeId} (ha : ν node.name = some (.node a))
    (hassigned : ∀ s ∈ after, s.1.name.isSome = s.1.pattern.isAssigned) :
    (∀ s ∈ walkFrom id node after, s.Holds g ν) ↔ ∃ steps, List.Forall₂ (fun s t =>
      s.1.name.bind ν = t.1.map Value.edge ∧ ν s.2.name = some (.node t.2)) after steps ∧
        StepsFit g a (after.map fun s => (s.1.pattern, s.2.pattern)) steps := by
  induction after generalizing node a with
  | nil => simp [walkFrom, StepsFit]
  | cons s rest ih =>
    obtain ⟨e, n⟩ := s
    rw [List.forall_mem_cons] at hassigned
    rw [walkFrom, List.forall_mem_cons]
    constructor
    · rintro ⟨⟨a', b, ha', hb, hjoins, hfits⟩, hrest⟩
      dsimp only at ha' hb hjoins hfits
      rw [ha, Option.some.injEq, Value.node.injEq] at ha'
      subst ha'
      obtain ⟨x, hx, hedge⟩ := (NamedEdge.joins_iff hassigned.1).1 hjoins
      obtain ⟨steps, hsteps, hall⟩ := (ih hb hassigned.2).1 hrest
      exact ⟨(x, b) :: steps, .cons ⟨hx, hb⟩ hsteps, hedge, hfits, hall⟩
    · rintro ⟨steps, hsteps, hall⟩
      cases hsteps with
      | cons hfirst hsteps =>
        rename_i t steps
        obtain ⟨x, b⟩ := t
        obtain ⟨hx, hb⟩ := hfirst
        obtain ⟨hedge, hfits, hall⟩ := hall
        exact ⟨⟨a, b, ha, hb, (NamedEdge.joins_iff hassigned.1).2 ⟨x, hx, hedge⟩, hfits⟩,
          (ih hb hassigned.2).2 ⟨steps, hsteps, hall⟩⟩

/-- A path is as its descriptors ask if the match that is assigned to it fits. -/
theorem holds_iff (hnames : f.Names p) : f.Holds g ν ↔ ∃ m, f.Assigns ν m ∧ p.Fits g m := by
  have hbefore := hnames.before
  have hwalk : f.walk = walkFrom id f.node f.after := by simp [walk, hbefore, walkFrom]
  have hassigned : ∀ s ∈ f.after, s.1.name.isSome = s.1.pattern.isAssigned := by
    intro s hs
    refine hnames.assigned s.1 ?_
    simp only [edges, hbefore]
    exact List.mem_map_of_mem hs
  simp only [assigns_iff hbefore, Holds, hwalk, Path.Fits, ← hnames.start, ← hnames.steps]
  constructor
  · rintro ⟨⟨a, ha, hfits⟩, hsteps⟩
    obtain ⟨steps, hassign, hall⟩ := (holds_walkFrom ha hassigned).1 hsteps
    exact ⟨⟨a, steps⟩, ⟨ha, hassign⟩, hfits, hall⟩
  · rintro ⟨⟨a, steps⟩, ⟨ha, hassign⟩, hfits, hall⟩
    exact ⟨⟨a, ha, hfits⟩, (holds_walkFrom ha hassigned).2 ⟨steps, hassign, hall⟩⟩

private theorem Names.mem_zip_nodes (h : f.Names p) {n : NodePattern} {id : NodeId}
    {ids : List NodeId} : (n, id) ∈ p.nodes.zip ids ↔
      ∃ n', (n', id) ∈ f.nodes.zip ids ∧ n'.pattern = n := by
  rw [← h.map_nodes, List.zip_map_left, List.mem_map]
  constructor
  · rintro ⟨⟨n', id'⟩, hmem, heq⟩
    cases heq
    exact ⟨n', hmem, rfl⟩
  · rintro ⟨n', hmem, rfl⟩
    exact ⟨(n', id), hmem, rfl⟩

private theorem Names.mem_zip_edges (h : f.Names p) {e : EdgePattern} {x : Option EdgeId}
    {ids : List (Option EdgeId)} : (e, x) ∈ p.edges.zip ids ↔
      ∃ e', (e', x) ∈ f.edges.zip ids ∧ e'.pattern = e := by
  rw [← h.map_edges, List.zip_map_left, List.mem_map]
  constructor
  · rintro ⟨⟨e', x'⟩, hmem, heq⟩
    cases heq
    exact ⟨e', hmem, rfl⟩
  · rintro ⟨e', hmem, rfl⟩
    exact ⟨(e', x), hmem, rfl⟩

/-- What a match binds to a variable of the query is what the variable stands for. -/
theorem Assigns.of_mem_bindings (h : f.Assigns ν m) (hnames : f.Names p) {x : String} {v : Value}
    (hmem : (x, v) ∈ p.bindings m) : ν x = some v := by
  rcases Path.mem_bindings.1 hmem with ⟨n, id, hzip, hx, rfl⟩ | ⟨e, id, hzip, hx, rfl⟩
  · obtain ⟨n, hfocus, rfl⟩ := hnames.mem_zip_nodes.1 hzip
    rw [← hnames.node_name n (List.of_mem_zip hfocus).1 x hx]
    exact List.forall₂_zip h.nodes hfocus
  · obtain ⟨e, hfocus, rfl⟩ := hnames.mem_zip_edges.1 hzip
    have hν := List.forall₂_zip h.edges hfocus
    rw [hnames.edge_name e (List.of_mem_zip hfocus).1 x hx] at hν
    exact hν

/-- What a variable of the query stands for is bound to it by the match. -/
theorem Assigns.mem_bindings (h : f.Assigns ν m) (hnames : f.Names p) {x : String} {v : Value}
    (hx : p.Declares x) (hv : ν x = some v) : (x, v) ∈ p.bindings m := by
  rw [Path.mem_bindings]
  rcases hx with ⟨n, hn, hname⟩ | ⟨e, he, hname⟩
  · rw [← hnames.map_nodes] at hn
    obtain ⟨n, hfocus, rfl⟩ := List.mem_map.1 hn
    obtain ⟨id, hzip, hid⟩ := exists_of_forall₂ h.nodes hfocus
    rw [hnames.node_name n hfocus x hname, hv] at hid
    exact .inl ⟨n.pattern, id, hnames.mem_zip_nodes.2 ⟨n, hzip, rfl⟩, hname, Option.some.inj hid⟩
  · rw [← hnames.map_edges] at he
    obtain ⟨e, hfocus, rfl⟩ := List.mem_map.1 he
    obtain ⟨id?, hzip, hid⟩ := exists_of_forall₂ h.edges hfocus
    rw [hnames.edge_name e hfocus x hname, Option.bind_some, hv] at hid
    obtain ⟨id, rfl, heq⟩ := Option.map_eq_some_iff.1 hid.symm
    exact .inr ⟨e.pattern, id, hnames.mem_zip_edges.2 ⟨e, hzip, rfl⟩, hname, heq.symm⟩

private theorem flags_of_stepsFit {a : NodeId} {patterns : List (EdgePattern × NodePattern)}
    {steps : List (Option EdgeId × NodeId)} (h : StepsFit g a patterns steps) :
    List.Forall₂ (fun s t => s.1.isAssigned = t.1.isSome) patterns steps := by
  induction patterns generalizing a steps with
  | nil =>
    cases steps with
    | nil => exact .nil
    | cons t steps => cases h
  | cons s patterns ih =>
    cases steps with
    | nil => cases h
    | cons t steps =>
      obtain ⟨hedge, -, hrest⟩ := h
      refine .cons ?_ (ih hrest)
      obtain ⟨x, b⟩ := t
      cases x with
      | none => exact hedge.1
      | some id => exact hedge.1

/-- What a match assigns to the descriptors that have a name. -/
private def entries (f : Focus) (path : Nat) (m : PathMatch) : List (Mention × Value) :=
  ((f.nodes.zip m.nodes).map fun s => (s.1.mention path, .node s.2)) ++
    (f.edges.zip m.edges).filterMap fun s => s.1.mention?.bind fun a => s.2.map (a, .edge ·)

private theorem aligned_of_fits (hnames : f.Names p) (hfits : p.Fits g m) :
    f.nodes.length = m.nodes.length ∧
      List.Forall₂ (fun e x => e.name.isSome = x.isSome) f.edges m.edges := by
  have hsteps := flags_of_stepsFit hfits.2
  constructor
  · rw [← List.length_map (f := NamedNode.pattern), hnames.map_nodes]
    simp [Path.nodes, PathMatch.nodes, hsteps.length_eq]
  · have hpatterns : List.Forall₂ (fun e x => e.isAssigned = x.isSome) p.edges m.edges := by
      rw [Path.edges, PathMatch.edges, List.forall₂_map_left_iff, List.forall₂_map_right_iff]
      exact hsteps
    rw [← hnames.map_edges, List.forall₂_map_left_iff] at hpatterns
    refine List.forall₂_iff_zip.2 ⟨hpatterns.length_eq, fun {e x} hx => ?_⟩
    exact (hnames.assigned e (List.of_mem_zip hx).1).trans (List.forall₂_zip hpatterns hx)

private theorem map_entries (hnodes : f.nodes.length = m.nodes.length)
    (hedges : List.Forall₂ (fun e x => e.name.isSome = x.isSome) f.edges m.edges) (path : Nat) :
    (f.entries path m).map Prod.fst = f.mentions path := by
  have hfirst : (f.nodes.zip m.nodes).map (NamedNode.mention path ∘ Prod.fst) =
      f.nodes.map (NamedNode.mention path) := by
    rw [← List.map_map, List.map_fst_zip hnodes.le]
  have hsecond {es : List NamedEdge} {xs : List (Option EdgeId)}
      (h : List.Forall₂ (fun e x => e.name.isSome = x.isSome) es xs) :
      ((es.zip xs).filterMap fun s => s.1.mention?.bind fun a =>
        s.2.map ((a, Value.edge ·))).map Prod.fst = es.filterMap NamedEdge.mention? := by
    induction h with
    | nil => rfl
    | cons hflag _ ih =>
      rename_i e x es xs _
      rw [List.zip_cons_cons, List.filterMap_cons, List.filterMap_cons]
      cases hname : e.name <;> cases x <;> simp_all [NamedEdge.mention?]
  rw [entries, mentions, List.map_append, List.map_map, hsecond hedges]
  exact congrArg (· ++ _) hfirst

private theorem mem_bindings_of_entry (hnames : f.Names p) {path position : Nat}
    {a : Mention × Value} (ha : a ∈ f.entries path m) (hrole : a.1.role = some (.node position)) :
    (a.1.name, a.2) ∈ p.bindings m := by
  rw [Path.mem_bindings]
  rcases List.mem_append.1 ha with ha | ha
  · obtain ⟨⟨n, id⟩, hzip, rfl⟩ := List.mem_map.1 ha
    obtain ⟨x, hx, -⟩ := Option.map_eq_some_iff.1 hrole
    refine .inl ⟨n.pattern, id, hnames.mem_zip_nodes.2 ⟨n, hzip, rfl⟩, ?_, rfl⟩
    rw [hx]
    exact congrArg some (hnames.node_name n (List.of_mem_zip hzip).1 x hx).symm
  · obtain ⟨⟨e, x⟩, -, hentry⟩ := List.mem_filterMap.1 ha
    obtain ⟨b, hb, hmap⟩ := Option.bind_eq_some_iff.1 hentry
    obtain ⟨id, -, rfl⟩ := Option.map_eq_some_iff.1 hmap
    obtain ⟨name, -, rfl⟩ := Option.map_eq_some_iff.1 hb
    obtain ⟨_, -, heq⟩ := Option.map_eq_some_iff.1 hrole
    cases heq

/-- Descriptors of one name have one value, if the descriptors of a variable do. -/
theorem entries_agree (hnames : f.Names p) {path : Nat}
    (hapart : (f.mentions path).Pairwise Mention.Apart)
    (hfst : (f.entries path m).map Prod.fst = f.mentions path)
    (hshared : ∀ x v w, (x, v) ∈ p.bindings m → (x, w) ∈ p.bindings m → v = w) :
    ∀ a ∈ f.entries path m, ∀ b ∈ f.entries path m, a.1.name = b.1.name → a.2 = b.2 := by
  have hpairs : (f.entries path m).Pairwise fun a b => a.1.name = b.1.name → a.2 = b.2 := by
    rw [← hfst, List.pairwise_map] at hapart
    apply hapart.imp_of_mem
    intro a b ha hb hab heq
    obtain ⟨hsame, position, hposition⟩ := hab heq
    have hb' := mem_bindings_of_entry hnames hb (hsame ▸ hposition)
    rw [← heq] at hb'
    exact hshared _ _ _ (mem_bindings_of_entry hnames ha hposition) hb'
  have hagree := hpairs.forall_of_forall_of_flip (fun a _ _ => rfl)
    (hpairs.imp fun hab heq => (hab heq.symm).symm)
  intro a ha b hb
  exact hagree ha hb

/-- What a match assigns to the names of the descriptors. -/
private def assignment (f : Focus) (path : Nat) (m : PathMatch) : Assoc String Value :=
  (f.entries path m).map fun a => (a.1.name, a.2)

private theorem keys_assignment {path : Nat}
    (hfst : (f.entries path m).map Prod.fst = f.mentions path) :
    (f.assignment path m).keys = f.names := by
  rw [← map_mentions f path, ← hfst, List.map_map]
  exact List.map_map

private theorem get?_assignment {path : Nat} {a : Mention × Value}
    (hagree : ∀ a ∈ f.entries path m, ∀ b ∈ f.entries path m, a.1.name = b.1.name → a.2 = b.2)
    (ha : a ∈ f.entries path m) : (f.assignment path m).get? a.1.name = some a.2 := by
  refine Assoc.get?_of_mem ?_ (List.mem_map_of_mem ha)
  simp only [assignment, List.forall_mem_map]
  exact hagree

/-- A match in which descriptors with one variable share what is assigned to them is assigned to
its path by a valuation of the path's variables. -/
theorem exists_assigns (hnames : f.Names p) {path : Nat}
    (hapart : (f.mentions path).Pairwise Mention.Apart) (hfits : p.Fits g m)
    (hshared : ∀ x v w, (x, v) ∈ p.bindings m → (x, w) ∈ p.bindings m → v = w) :
    ∃ ν : Valuation, ν.Binds f.names ∧ f.Assigns ν m := by
  obtain ⟨hlength, hflags⟩ := aligned_of_fits hnames hfits
  have hfst := map_entries hlength hflags path
  have hagree := entries_agree hnames hapart hfst hshared
  have hbinds : Valuation.Binds (f.assignment path m).get? f.names := by
    intro x
    rw [Assoc.get?_isSome_iff, keys_assignment hfst]
  refine ⟨(f.assignment path m).get?, hbinds, ?_, ?_⟩
  · refine List.forall₂_iff_zip.2 ⟨hlength, fun {n id} hid => ?_⟩
    exact get?_assignment (a := (n.mention path, .node id)) hagree
      (List.mem_append_left _ (List.mem_map.2 ⟨(n, id), hid, rfl⟩))
  · refine List.forall₂_iff_zip.2 ⟨hflags.length_eq, fun {e x} hx => ?_⟩
    have hflag := List.forall₂_zip hflags hx
    cases hname : e.name with
    | none =>
      rw [hname, Option.isSome_none] at hflag
      have hx : x = none := Option.isNone_iff_eq_none.1 (Option.isSome_eq_false_iff.1 hflag.symm)
      rw [hx]
      rfl
    | some y =>
      rw [hname, Option.isSome_some] at hflag
      obtain ⟨id, rfl⟩ := Option.isSome_iff_exists.1 hflag.symm
      refine get?_assignment (a := (⟨y, e.pattern.name.map fun _ => .edge⟩, .edge id)) hagree
        (List.mem_append_right _ (List.mem_filterMap.2 ⟨(e, some id), hx, ?_⟩))
      simp [NamedEdge.mention?, hname]

end Focus

end Plexus
