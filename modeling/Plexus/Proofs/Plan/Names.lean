import Plexus.Proofs.OneByOne
import Plexus.Proofs.Plan.Path
import Plexus.Proofs.Query.Safe
import Std.Data.String.ToNat

/-!
# Names of a pattern

The names that a query gives to its descriptors and those that the planner makes up do not get in
each other's way. Two descriptors have a name in common only if both are node descriptors of one
path to which the query gives that name.
-/

namespace Plexus

/-- The names that the planner makes up are reserved. -/
theorem isReserved_internalName (what : String) (k : Nat) :
    isReserved (internalName what k) = true := by
  simp [isReserved, internalName, String.toList_append]

/-- A name that passes the check is not reserved. -/
theorem free_of_checkName {name : String} (h : checkName name = .ok ()) :
    isReserved name = false := by
  unfold checkName at h
  split at h
  · cases h
  · rename_i hfree
    exact Bool.eq_false_iff.2 hfree

/-- The planner never makes the same name twice. -/
theorem internalName_injective (what : String) : Function.Injective (internalName what) := by
  intro k k' h
  have hlist := congrArg String.toList h
  simp only [internalName, String.toList_append] at hlist
  exact Nat.repr_injective (String.toList_injective (List.append_cancel_left hlist))

/-- Nor does it for a node and an edge. -/
theorem eq_of_internalName_eq {what what' : String} {k k' : Nat}
    (hwhat : what = "node" ∨ what = "rel") (hwhat' : what' = "node" ∨ what' = "rel")
    (h : internalName what k = internalName what' k') : k = k' := by
  have hlist := congrArg String.toList h
  simp only [internalName, String.toList_append] at hlist
  rcases hwhat with rfl | rfl <;> rcases hwhat' with rfl | rfl
  · exact internalName_injective _ h
  · simp at hlist
  · simp at hlist
  · exact internalName_injective _ h

/-- A name in a pattern, with its role if the query gives it. -/
structure Mention where
  name : String
  role : Option Role

/-- The name is not common to both, or the query gives it to two nodes of one path. -/
def Mention.Apart (a b : Mention) : Prop :=
  a.name = b.name → a.role = b.role ∧ ∃ path, a.role = some (.node path)

/-- What the name of a node descriptor on a path is. -/
def NamedNode.mention (path : Nat) (n : NamedNode) : Mention :=
  ⟨n.name, n.pattern.name.map fun _ => .node path⟩

/-- What the name of an edge descriptor is, if it has one. -/
def NamedEdge.mention? (e : NamedEdge) : Option Mention :=
  e.name.map fun name => ⟨name, e.pattern.name.map fun _ => .edge⟩

namespace Scope

/-- A scope and the first free number record the names that are mentioned. -/
structure Records (scope : Scope) (next : Nat) (mentions : List Mention) : Prop where
  apart : mentions.Pairwise Mention.Apart
  given : ∀ m ∈ mentions, ∀ role, m.role = some role →
    scope.get? m.name = some role ∧ isReserved m.name = false
  made : ∀ m ∈ mentions, m.role = none → ∃ what k, (what = "node" ∨ what = "rel") ∧ k < next ∧
    m.name = internalName what k
  declared (name : String) (role : Role) : scope.get? name = some role →
    ⟨name, some role⟩ ∈ mentions

namespace Records

variable {scope scope' : Scope} {next : Nat} {mentions : List Mention} {name : String} {role : Role}

/-- The empty scope records no names. -/
theorem empty : Records [] 0 [] where
  apart := .nil
  given := List.forall_mem_nil _
  made := List.forall_mem_nil _
  declared := by
    intro x role h
    cases h

private theorem pairwise_snoc {m : Mention} (h : mentions.Pairwise Mention.Apart)
    (hm : ∀ a ∈ mentions, a.Apart m) : (mentions ++ [m]).Pairwise Mention.Apart := by
  rw [List.pairwise_append]
  exact ⟨h, List.pairwise_singleton _ _, fun a ha b hb => List.mem_singleton.1 hb ▸ hm a ha⟩

/-- A name that the planner makes is new. -/
theorem make (h : Records scope next mentions) {what : String}
    (hwhat : what = "node" ∨ what = "rel") :
    Records scope (next + 1) (mentions ++ [⟨internalName what next, none⟩]) where
  apart := by
    apply pairwise_snoc h.apart
    intro a ha heq
    cases hrole : a.role with
    | some role =>
      have hfree := (h.given a ha role hrole).2
      rw [heq, isReserved_internalName] at hfree
      cases hfree
    | none =>
      obtain ⟨what', k, hwhat', hk, hname⟩ := h.made a ha hrole
      have hsame := eq_of_internalName_eq hwhat' hwhat (hname.symm.trans heq)
      omega
  given m hm role hrole := by
    rcases List.mem_append.1 hm with hm | hm
    · exact h.given m hm role hrole
    · rw [List.mem_singleton.1 hm] at hrole
      cases hrole
  made m hm hrole := by
    rcases List.mem_append.1 hm with hm | hm
    · obtain ⟨what', k, hwhat', hk, hname⟩ := h.made m hm hrole
      exact ⟨what', k, hwhat', Nat.lt_succ_of_lt hk, hname⟩
    · rw [List.mem_singleton.1 hm]
      exact ⟨what, next, hwhat, Nat.lt_succ_self _, rfl⟩
  declared name role hrole := List.mem_append_left _ (h.declared name role hrole)

private theorem of_reserved (h : Records scope next mentions) {a : Mention} (ha : a ∈ mentions)
    (hfree : isReserved a.name = false) : ∃ role, a.role = some role := by
  cases hrole : a.role with
  | some role => exact ⟨role, rfl⟩
  | none =>
    obtain ⟨what, k, -, -, hname⟩ := h.made a ha hrole
    rw [hname, isReserved_internalName] at hfree
    cases hfree

/-- A name that is declared is new. -/
theorem declare (h : Records scope next mentions) (hfree : isReserved name = false)
    (hnew : scope.get? name = none) (role : Role) :
    Records (scope.set name role) next (mentions ++ [⟨name, some role⟩]) where
  apart := by
    apply pairwise_snoc h.apart
    intro a ha heq
    have heq : a.name = name := heq
    obtain ⟨role', hrole⟩ := h.of_reserved ha (heq ▸ hfree)
    have hold := (h.given a ha role' hrole).1
    rw [heq, hnew] at hold
    cases hold
  given m hm role' hrole := by
    rw [Assoc.get?_set]
    rcases List.mem_append.1 hm with hm | hm
    · obtain ⟨hold, hm'⟩ := h.given m hm role' hrole
      have hne : name ≠ m.name := by
        rintro rfl
        rw [hnew] at hold
        cases hold
      rw [if_neg hne]
      exact ⟨hold, hm'⟩
    · rw [List.mem_singleton.1 hm] at hrole ⊢
      rw [if_pos rfl]
      exact ⟨hrole, hfree⟩
  made m hm hrole := by
    rcases List.mem_append.1 hm with hm | hm
    · exact h.made m hm hrole
    · rw [List.mem_singleton.1 hm] at hrole
      cases hrole
  declared x role' hx := by
    rw [Assoc.get?_set] at hx
    split at hx
    · rename_i hname
      cases hx
      rw [hname]
      exact List.mem_append_right _ List.mem_cons_self
    · exact List.mem_append_left _ (h.declared x role' hx)

/-- A node of the same path may have a name that is declared. -/
theorem again (h : Records scope next mentions) {path : Nat}
    (hold : scope.get? name = some (.node path)) :
    Records scope next (mentions ++ [⟨name, some (.node path)⟩]) where
  apart := by
    apply pairwise_snoc h.apart
    intro a ha heq
    have heq : a.name = name := heq
    have hfree := (h.given _ (h.declared name _ hold) _ rfl).2
    obtain ⟨role, hrole⟩ := h.of_reserved ha (heq ▸ hfree)
    have hsame := (h.given a ha role hrole).1
    rw [heq, hold, Option.some.injEq] at hsame
    exact ⟨hsame ▸ hrole, path, hsame ▸ hrole⟩
  given m hm role hrole := by
    rcases List.mem_append.1 hm with hm | hm
    · exact h.given m hm role hrole
    · rw [List.mem_singleton.1 hm] at hrole ⊢
      exact ⟨hold.trans hrole, (h.given _ (h.declared name _ hold) _ rfl).2⟩
  made m hm hrole := by
    rcases List.mem_append.1 hm with hm | hm
    · exact h.made m hm hrole
    · rw [List.mem_singleton.1 hm] at hrole
      cases hrole
  declared x role hx := List.mem_append_left _ (h.declared x role hx)

private theorem nodes {path : Nat} {l : List NodePattern} (h : Records scope next mentions)
    (hfold : l.foldlM (declareNode path) scope = .ok scope') :
    Records scope' (nameNodes next l).2
      (mentions ++ (nameNodes next l).1.map (NamedNode.mention path)) := by
  induction l generalizing scope next mentions with
  | nil =>
    cases hfold
    simpa [nameNodes] using h
  | cons n rest ih =>
    obtain ⟨scope₁, hfirst, hrest⟩ := bind_eq_ok.1 hfold
    unfold declareNode at hfirst
    rw [nameNodes]
    split at hfirst
    · rename_i hname
      cases hfirst
      have hmade := ih (h.make (.inl rfl)) hrest
      simp only [hname]
      rw [List.map_cons, ← List.singleton_append, ← List.append_assoc]
      simpa [NamedNode.mention, hname] using hmade
    · rename_i name hname
      obtain ⟨⟨⟩, hcheck, hdeclare⟩ := bind_eq_ok.1 hfirst
      have hmention : NamedNode.mention path ⟨name, n⟩ = ⟨name, some (.node path)⟩ := by
        simp [NamedNode.mention, hname]
      simp only [hname]
      rw [List.map_cons, ← List.singleton_append, ← List.append_assoc, hmention]
      split at hdeclare
      · cases hdeclare
      · rename_i owner hold
        split at hdeclare
        · rename_i howner
          cases hdeclare
          exact ih (h.again (howner ▸ hold)) hrest
        · cases hdeclare
      · rename_i hnew
        cases hdeclare
        exact ih (h.declare (free_of_checkName hcheck) hnew _) hrest

private theorem edges {l : List EdgePattern} (h : Records scope next mentions)
    (hfold : l.foldlM declareEdge scope = .ok scope') :
    Records scope' (nameEdges next l).2
      (mentions ++ (nameEdges next l).1.filterMap NamedEdge.mention?) ∧
        ∀ e ∈ l, checkHops e = .ok () := by
  induction l generalizing scope next mentions with
  | nil =>
    cases hfold
    exact ⟨by simpa [nameEdges] using h, List.forall_mem_nil _⟩
  | cons e rest ih =>
    obtain ⟨scope₁, hfirst, hrest⟩ := bind_eq_ok.1 hfold
    obtain ⟨⟨⟩, hhops, hdeclare⟩ := bind_eq_ok.1 hfirst
    rw [List.forall_mem_cons, nameEdges]
    split at hdeclare
    · rename_i hname
      cases hdeclare
      split
      · obtain ⟨hmade, hall⟩ := ih (h.make (.inr rfl)) hrest
        refine ⟨?_, hhops, hall⟩
        dsimp only
        rw [List.filterMap_cons_some (b := ⟨internalName "rel" next, none⟩)
          (by simp [NamedEdge.mention?, hname]), ← List.singleton_append, ← List.append_assoc]
        exact hmade
      · obtain ⟨hmade, hall⟩ := ih h hrest
        refine ⟨?_, hhops, hall⟩
        dsimp only
        rw [List.filterMap_cons_none (by simp [NamedEdge.mention?, hname])]
        exact hmade
    · rename_i name hname
      obtain ⟨⟨⟩, hcheck, hdeclare⟩ := bind_eq_ok.1 hdeclare
      split at hdeclare
      · cases hdeclare
      · rename_i hnew
        cases hdeclare
        obtain ⟨hmade, hall⟩ := ih (h.declare (free_of_checkName hcheck) hnew .edge) hrest
        refine ⟨?_, hhops, hall⟩
        rw [if_neg (by simp [hname])]
        dsimp only
        rw [List.filterMap_cons_some (b := ⟨name, some .edge⟩)
          (by simp [NamedEdge.mention?, hname]), ← List.singleton_append, ← List.append_assoc]
        exact hmade

end Records

end Scope

/-- The query gives a descriptor of the path this name. -/
def Path.Declares (p : Path) (x : String) : Prop :=
  (∃ n ∈ p.nodes, n.name = some x) ∨ ∃ e ∈ p.edges, e.name = some x

namespace Focus

/-- The names of the descriptors, those of the nodes before those of the edges. -/
def mentions (f : Focus) (path : Nat) : List Mention :=
  f.nodes.map (NamedNode.mention path) ++ f.edges.filterMap NamedEdge.mention?

/-- The focus is the path seen from its first node, with a name for every descriptor that a match
assigns something to; a name that the query gives is kept. -/
structure Names (f : Focus) (p : Path) : Prop where
  before : f.before = []
  start : f.node.pattern = p.start
  steps : f.after.map (fun s => (s.1.pattern, s.2.pattern)) = p.steps
  node_name : ∀ n ∈ f.nodes, ∀ x, n.pattern.name = some x → n.name = x
  edge_name : ∀ e ∈ f.edges, ∀ x, e.pattern.name = some x → e.name = some x
  assigned : ∀ e ∈ f.edges, e.name.isSome = e.pattern.isAssigned

end Focus

private theorem map_nameNodes (next : Nat) (l : List NodePattern) :
    (nameNodes next l).1.map NamedNode.pattern = l ∧
      ∀ n ∈ (nameNodes next l).1, ∀ x, n.pattern.name = some x → n.name = x := by
  induction l generalizing next with
  | nil => exact ⟨rfl, List.forall_mem_nil _⟩
  | cons n rest ih =>
    rw [nameNodes]
    split
    · rename_i name hname
      obtain ⟨hmap, hall⟩ := ih next
      refine ⟨congrArg (n :: ·) hmap, List.forall_mem_cons.2 ⟨fun x hx => ?_, hall⟩⟩
      exact Option.some.inj (hname.symm.trans hx)
    · rename_i hname
      obtain ⟨hmap, hall⟩ := ih (next + 1)
      refine ⟨congrArg (n :: ·) hmap, List.forall_mem_cons.2 ⟨fun x hx => ?_, hall⟩⟩
      rw [hname] at hx
      cases hx

private theorem named_of_checkHops {e : EdgePattern} (h : Scope.checkHops e = .ok ()) :
    e.isSingle = true ∨ e.isSingle = false ∧ e.name = none := by
  unfold Scope.checkHops at h
  split at h
  · cases h
  split at h
  · rename_i hsingle
    exact .inl hsingle
  rename_i hsingle
  split at h
  · cases h
  · rename_i hname
    exact .inr ⟨Bool.eq_false_iff.2 hsingle, Option.not_isSome_iff_eq_none.1 hname⟩

private theorem map_nameEdges (next : Nat) {l : List EdgePattern}
    (hl : ∀ e ∈ l, Scope.checkHops e = .ok ()) :
    (nameEdges next l).1.map NamedEdge.pattern = l ∧
      ∀ e ∈ (nameEdges next l).1, (∀ x, e.pattern.name = some x → e.name = some x) ∧
        e.name.isSome = e.pattern.isAssigned := by
  induction l generalizing next with
  | nil => exact ⟨rfl, List.forall_mem_nil _⟩
  | cons e rest ih =>
    rw [List.forall_mem_cons] at hl
    rw [nameEdges]
    split
    · rename_i hinternal
      simp only [Bool.and_eq_true, Option.isNone_iff_eq_none] at hinternal
      obtain ⟨⟨hname, hsingle⟩, hproperties⟩ := hinternal
      obtain ⟨hmap, hall⟩ := ih (next + 1) hl.2
      refine ⟨congrArg (e :: ·) hmap, List.forall_mem_cons.2 ⟨⟨fun x hx => ?_, ?_⟩, hall⟩⟩
      · rw [hname] at hx
        cases hx
      · simp [EdgePattern.isAssigned, hsingle, hproperties]
    · rename_i hgiven
      obtain ⟨hmap, hall⟩ := ih next hl.2
      refine ⟨congrArg (e :: ·) hmap, List.forall_mem_cons.2 ⟨⟨fun x hx => hx, ?_⟩, hall⟩⟩
      simp only [EdgePattern.isAssigned]
      rcases named_of_checkHops hl.1 with hsingle | hname
      · cases hname : e.name <;> simp_all
      · simp_all

namespace Focus

variable {p : Path} {next : Nat}

private theorem ofPath_eq (p : Path) (next : Nat) {edges : List NamedEdge} {last : Nat}
    (hedges : nameEdges (nameNodes next p.nodes).2 p.edges = (edges, last))
    (hlength : edges.length = p.edges.length) :
    (ofPath p next).1.before = [] ∧ (ofPath p next).1.nodes = (nameNodes next p.nodes).1 ∧
      (ofPath p next).1.edges = edges ∧ (ofPath p next).2 = last := by
  have hmap := congrArg List.length (map_nameNodes next p.nodes).1
  unfold ofPath
  cases hnodes : nameNodes next p.nodes with
  | mk named free =>
    rw [hnodes] at hedges hmap
    dsimp only at hedges hmap ⊢
    rw [hedges]
    cases named with
    | nil => simp [Path.nodes] at hmap
    | cons first rest =>
      have hrest : edges.length = rest.length := by
        simpa [Path.nodes, Path.edges, hlength] using hmap.symm
      refine ⟨rfl, ?_, ?_, rfl⟩
      · simp [nodes, List.map_snd_zip hrest.ge]
      · simp [Focus.edges, List.map_fst_zip hrest.le]

private theorem names_ofPath (hhops : ∀ e ∈ p.edges, Scope.checkHops e = .ok ()) (next : Nat) :
    (ofPath p next).1.Names p := by
  obtain ⟨hnodesMap, hnodesName⟩ := map_nameNodes next p.nodes
  obtain ⟨hedgesMap, hedgesName⟩ := map_nameEdges (nameNodes next p.nodes).2 hhops
  obtain ⟨hbefore, hnodes, hedges, -⟩ := ofPath_eq p next rfl
    (by rw [← List.length_map, hedgesMap])
  rw [← hnodes] at hnodesMap hnodesName
  rw [← hedges] at hedgesMap hedgesName
  simp only [nodes, hbefore, List.map_nil, List.reverse_nil, List.nil_append, Path.nodes,
    List.map_cons, List.cons.injEq, List.map_map] at hnodesMap
  simp only [Focus.edges, hbefore, List.map_nil, List.reverse_nil, List.nil_append, Path.edges,
    List.map_map] at hedgesMap
  refine ⟨hbefore, hnodesMap.1, ?_, hnodesName, fun e he => (hedgesName e he).1,
    fun e he => (hedgesName e he).2⟩
  rw [List.zip_of_prod hedgesMap.symm hnodesMap.2.symm]
  exact List.zip_map'.symm

/-- What the names of some paths are, given the position of the first one. -/
def mentionsAll (position : Nat) (fs : List Focus) : List Mention :=
  (fs.zipIdx position).flatMap fun (f, path) => f.mentions path

end Focus

namespace Scope.Records

variable {scope scope' : Scope} {next : Nat} {mentions : List Mention}

/-- Declaring the variables of a path goes along with naming its descriptors. -/
theorem path {p : Path} {position : Nat} (h : Records scope next mentions)
    (hdeclare : declarePath scope p position = .ok scope') :
    Records scope' (Focus.ofPath p next).2
      (mentions ++ (Focus.ofPath p next).1.mentions position) ∧
        (Focus.ofPath p next).1.Names p := by
  obtain ⟨scope₁, hnodes, hedges⟩ := bind_eq_ok.1 hdeclare
  obtain ⟨hrecords, hhops⟩ := (h.nodes hnodes).edges hedges
  have hmap := (map_nameEdges (nameNodes next p.nodes).2 hhops).1
  obtain ⟨-, hfocusNodes, hfocusEdges, hlast⟩ := Focus.ofPath_eq p next rfl
    (by rw [← List.length_map, hmap])
  refine ⟨?_, Focus.names_ofPath hhops next⟩
  rw [hlast, Focus.mentions, hfocusNodes, hfocusEdges, ← List.append_assoc]
  exact hrecords

/-- Declaring the variables of a pattern goes along with naming its descriptors. -/
theorem paths {paths : List Path} {position : Nat} (h : Records scope next mentions)
    (hdeclare : (paths.zipIdx position).foldlM
      (fun scope p => declarePath scope p.1 p.2) scope = .ok scope') :
    (∃ last, Records scope' last
      (mentions ++ Focus.mentionsAll position (Focus.ofPaths next paths))) ∧
        List.Forall₂ Focus.Names (Focus.ofPaths next paths) paths := by
  induction paths generalizing scope next mentions position with
  | nil =>
    cases hdeclare
    exact ⟨⟨next, by simpa [Focus.mentionsAll, Focus.ofPaths] using h⟩, .nil⟩
  | cons p rest ih =>
    rw [List.zipIdx_cons] at hdeclare
    obtain ⟨scope₁, hfirst, hrest⟩ := bind_eq_ok.1 hdeclare
    obtain ⟨hrecords, hnames⟩ := h.path hfirst
    obtain ⟨⟨last, hall⟩, hnamesAll⟩ := ih hrecords hrest
    refine ⟨⟨last, ?_⟩, .cons hnames hnamesAll⟩
    rw [Focus.ofPaths, Focus.mentionsAll, List.zipIdx_cons, List.flatMap_cons, ← List.append_assoc]
    exact hall

end Scope.Records

namespace Focus

variable {f f' : Focus} {p : Path} {path path' : Nat}

private theorem filterMap_name (edges : List NamedEdge) : edges.filterMap NamedEdge.name =
    (edges.filterMap NamedEdge.mention?).map Mention.name := by
  rw [List.map_filterMap]
  refine congrArg (List.filterMap · edges) (funext fun e => ?_)
  simp [NamedEdge.mention?, Function.comp_def]

theorem map_mentions (f : Focus) (path : Nat) :
    (f.mentions path).map Mention.name = f.names := by
  rw [mentions, names, List.map_append, List.map_map, filterMap_name]
  rfl

private theorem path_of_role {m : Mention} (hm : m ∈ f.mentions path)
    (hrole : m.role = some (.node path')) : path' = path := by
  rcases List.mem_append.1 hm with hm | hm
  · obtain ⟨n, -, rfl⟩ := List.mem_map.1 hm
    obtain ⟨_, -, heq⟩ := Option.map_eq_some_iff.1 hrole
    cases heq
    rfl
  · obtain ⟨e, -, he⟩ := List.mem_filterMap.1 hm
    obtain ⟨name, -, rfl⟩ := Option.map_eq_some_iff.1 he
    obtain ⟨_, -, heq⟩ := Option.map_eq_some_iff.1 hrole
    cases heq

/-- A path is well named if no two of its mentions clash. -/
theorem wellNamed_of_apart (hnames : f.Names p)
    (h : (f.mentions path).Pairwise Mention.Apart) : f.WellNamed := by
  rw [mentions, List.pairwise_append] at h
  obtain ⟨-, hedges, hcross⟩ := h
  have hrole {e : NamedEdge} {m : Mention} (hm : e.mention? = some m) (position : Nat) :
      m.role ≠ some (.node position) := by
    obtain ⟨name, -, rfl⟩ := Option.map_eq_some_iff.1 hm
    cases e.pattern.name <;> simp
  have hnode {a b : Mention} (ha : a ∈ f.edges.filterMap NamedEdge.mention?)
      (hab : a.Apart b ∨ b.Apart a) : a.name ≠ b.name := by
    obtain ⟨e, -, he⟩ := List.mem_filterMap.1 ha
    intro heq
    rcases hab with hab | hab
    · obtain ⟨-, position, hposition⟩ := hab heq
      exact hrole he position hposition
    · obtain ⟨hsame, position, hposition⟩ := hab heq.symm
      exact hrole he position (hsame ▸ hposition)
  refine ⟨fun e he hsome => ?_, ?_, fun y hy hmem => ?_⟩
  · rw [hnames.assigned e he, EdgePattern.isAssigned, Bool.and_eq_true] at hsome
    exact hsome.1
  · rw [filterMap_name, List.Nodup, List.pairwise_map]
    exact hedges.imp_of_mem fun ha _ hab => hnode ha (.inl hab)
  · rw [filterMap_name] at hy
    obtain ⟨a, ha, rfl⟩ := List.mem_map.1 hy
    obtain ⟨n, hn, hname⟩ := List.mem_map.1 hmem
    exact hnode ha (.inr (hcross _ (List.mem_map_of_mem hn) a ha)) hname.symm

/-- No name is common to two paths. -/
theorem disjoint_of_apart {fs : List Focus} {position : Nat}
    (h : (mentionsAll position fs).Pairwise Mention.Apart) :
    (∀ f ∈ fs, ∃ path, (f.mentions path).Pairwise Mention.Apart) ∧
      fs.Pairwise fun f f' => ∀ x ∈ f.names, x ∉ f'.names := by
  induction fs generalizing position with
  | nil => exact ⟨List.forall_mem_nil _, .nil⟩
  | cons f rest ih =>
    rw [mentionsAll, List.zipIdx_cons, List.flatMap_cons, List.pairwise_append] at h
    obtain ⟨hfirst, hrest, hcross⟩ := h
    obtain ⟨hall, hdisjoint⟩ := ih hrest
    refine ⟨List.forall_mem_cons.2 ⟨⟨position, hfirst⟩, hall⟩,
      List.pairwise_cons.2 ⟨fun f' hf' x hx hx' => ?_, hdisjoint⟩⟩
    obtain ⟨i, hi⟩ := List.mem_iff_getElem?.1 hf'
    have hlater : (f', position + 1 + i) ∈ rest.zipIdx (position + 1) :=
      List.mem_zipIdx_iff_le_and_getElem?_sub.2 ⟨by omega, by simpa using hi⟩
    rw [← map_mentions f position] at hx
    rw [← map_mentions f' (position + 1 + i)] at hx'
    obtain ⟨a, ha, rfl⟩ := List.mem_map.1 hx
    obtain ⟨b, hb, hname⟩ := List.mem_map.1 hx'
    obtain ⟨hsame, path, hpath⟩ :=
      hcross a ha b (List.mem_flatMap.2 ⟨_, hlater, hb⟩) hname.symm
    have hfirst := path_of_role ha hpath
    have hother := path_of_role hb (hsame ▸ hpath)
    omega

theorem Names.map_nodes (h : f.Names p) : f.nodes.map NamedNode.pattern = p.nodes := by
  simp only [nodes, h.before, List.map_nil, List.reverse_nil, List.nil_append, List.map_cons,
    h.start, List.map_map, Path.nodes, ← h.steps]
  rfl

theorem Names.map_edges (h : f.Names p) : f.edges.map NamedEdge.pattern = p.edges := by
  simp only [edges, h.before, List.map_nil, List.reverse_nil, List.nil_append, List.map_map,
    Path.edges, ← h.steps]
  rfl

/-- A name with a role is one that the query gives. -/
theorem Names.declares_of_mem (h : f.Names p) {x : String} {role : Role}
    (hmem : ⟨x, some role⟩ ∈ f.mentions path) : p.Declares x := by
  rcases List.mem_append.1 hmem with hmem | hmem
  · obtain ⟨n, hn, heq⟩ := List.mem_map.1 hmem
    obtain ⟨hname, hrole⟩ := Mention.mk.injEq _ _ _ _ ▸ heq
    obtain ⟨y, hy, -⟩ := Option.map_eq_some_iff.1 hrole
    refine .inl ⟨n.pattern, ?_, ?_⟩
    · rw [← h.map_nodes]
      exact List.mem_map_of_mem hn
    · rw [hy, ← h.node_name n hn y hy, hname]
  · obtain ⟨e, he, heq⟩ := List.mem_filterMap.1 hmem
    obtain ⟨name, hname, heq⟩ := Option.map_eq_some_iff.1 heq
    obtain ⟨rfl, hrole⟩ := Mention.mk.injEq _ _ _ _ ▸ heq
    obtain ⟨y, hy, -⟩ := Option.map_eq_some_iff.1 hrole
    refine .inr ⟨e.pattern, ?_, ?_⟩
    · rw [← h.map_edges]
      exact List.mem_map_of_mem he
    · rw [hy, ← h.edge_name e he y hy, hname]

/-- A name that the query gives is mentioned with its role. -/
theorem Names.exists_mention (h : f.Names p) {x : String} (hx : p.Declares x)
    (path : Nat) : ∃ role, ⟨x, some role⟩ ∈ f.mentions path := by
  rcases hx with ⟨n, hn, hname⟩ | ⟨e, he, hname⟩
  · rw [← h.map_nodes] at hn
    obtain ⟨m, hm, rfl⟩ := List.mem_map.1 hn
    refine ⟨.node path, List.mem_append_left _ (List.mem_map.2 ⟨m, hm, ?_⟩)⟩
    simp only [NamedNode.mention, h.node_name m hm x hname, hname, Option.map_some]
  · rw [← h.map_edges] at he
    obtain ⟨m, hm, rfl⟩ := List.mem_map.1 he
    refine ⟨.edge, List.mem_append_right _ (List.mem_filterMap.2 ⟨m, hm, ?_⟩)⟩
    simp only [NamedEdge.mention?, h.edge_name m hm x hname, hname, Option.map_some]

/-- A name that the query gives is one that the planner binds. -/
theorem Names.mem_names (h : f.Names p) {x : String} (hx : p.Declares x) : x ∈ f.names := by
  obtain ⟨role, hmem⟩ := h.exists_mention hx 0
  rw [← f.map_mentions 0]
  exact List.mem_map_of_mem hmem

end Focus

/-- The names of a pattern go along with its scope. -/
theorem Scope.records_ofPaths {paths : List Path} {scope : Scope}
    (h : ofPaths paths = .ok scope) :
    (∃ last, Records scope last (Focus.mentionsAll 0 (Focus.ofPaths 0 paths))) ∧
      List.Forall₂ Focus.Names (Focus.ofPaths 0 paths) paths := by
  unfold ofPaths at h
  split at h
  · cases h
  · exact Scope.Records.empty.paths h

namespace Query

/-- The query gives a descriptor of its pattern this name. -/
def Declares (q : Query) (x : String) : Prop := ∃ p ∈ q.paths, p.Declares x

variable {q : Query} {scope : Scope}

/-- A variable that is declared is one that the query names. -/
theorem declares_of_get? (hscope : Scope.ofPaths q.paths = .ok scope) {x : String} {role : Role}
    (hrole : scope.get? x = some role) : q.Declares x := by
  obtain ⟨⟨last, hrecords⟩, hnames⟩ := Scope.records_ofPaths hscope
  obtain ⟨⟨f, path⟩, hf, hmem⟩ := List.mem_flatMap.1 (hrecords.declared x role hrole)
  obtain ⟨p, hp, hnamed⟩ := exists_of_forall₂ hnames (List.fst_mem_of_mem_zipIdx hf)
  exact ⟨p, (List.of_mem_zip hp).2, hnamed.declares_of_mem hmem⟩

/-- No name that the query gives is reserved. -/
theorem free_of_declares (hscope : Scope.ofPaths q.paths = .ok scope) {x : String}
    (hx : q.Declares x) : isReserved x = false := by
  obtain ⟨⟨last, hrecords⟩, hnames⟩ := Scope.records_ofPaths hscope
  obtain ⟨p, hp, hx⟩ := hx
  obtain ⟨f, hf, hname⟩ := exists_of_forall₂ hnames.flip hp
  obtain ⟨path, hpath⟩ := List.mem_iff_getElem?.1 (List.of_mem_zip hf).2
  obtain ⟨role, hmem⟩ := hname.exists_mention hx path
  have hmention : ⟨x, some role⟩ ∈ Focus.mentionsAll 0 (Focus.ofPaths 0 q.paths) :=
    List.mem_flatMap.2 ⟨(f, path), List.mk_mem_zipIdx_iff_getElem?.2 hpath, hmem⟩
  exact (hrecords.given _ hmention role rfl).2

/-- If the query declares the variable of a node descriptor, it is the name it gives the descriptor
and not one that the planner made. -/
theorem name_of_declares (h : q.validate = .ok ()) :
    ∀ f ∈ Focus.ofPaths 0 q.paths, ∀ n ∈ f.nodes, q.Declares n.name →
      n.pattern.name = some n.name := by
  obtain ⟨scope, hscope, -⟩ := bind_eq_ok.1 h
  obtain ⟨⟨last, hrecords⟩, hnames⟩ := Scope.records_ofPaths hscope
  intro f hf n hn hdeclares
  obtain ⟨path, hpath⟩ := List.mem_iff_getElem?.1 hf
  have hmention : n.mention path ∈ Focus.mentionsAll 0 (Focus.ofPaths 0 q.paths) :=
    List.mem_flatMap.2 ⟨(f, path), List.mk_mem_zipIdx_iff_getElem?.2 hpath,
      List.mem_append_left _ (List.mem_map_of_mem hn)⟩
  cases hname : n.pattern.name with
  | none =>
    have hrole : (n.mention path).role = none := by rw [NamedNode.mention, hname, Option.map_none]
    obtain ⟨what, k, -, -, hmade⟩ := hrecords.made _ hmention hrole
    have hfree := free_of_declares hscope hdeclares
    have hinternal : n.name = internalName what k := hmade
    rw [hinternal, isReserved_internalName] at hfree
    cases hfree
  | some x =>
    obtain ⟨p, hp, hnamed⟩ := exists_of_forall₂ hnames hf
    rw [hnamed.node_name n hn x hname]

/-- An expression that passes its check can be evaluated where the variables of the query are
bound. -/
theorem evaluable_of_check (hscope : Scope.ofPaths q.paths = .ok scope) {inside : Option String}
    {e : Expression} (h : scope.checkExpression inside e = .ok ()) : e.Evaluable q.Declares :=
  (e.evaluable_of_check h).mono fun _ ⟨_, hrole⟩ => declares_of_get? hscope hrole

/-- A query is valid if each of its parts passes its check. -/
theorem validate_eq_ok : q.validate = .ok () ↔
    ∃ scope columns, Scope.ofPaths q.paths = .ok scope ∧
      (∀ e, q.condition = some e → scope.checkExpression none e = .ok ()) ∧
        scope.checkReturn q.returns = .ok columns ∧
          ∀ item ∈ q.orderBy, scope.checkOrder q columns item = .ok () := by
  simp only [exists_and_left]
  refine bind_eq_ok.trans (exists_congr fun scope => and_congr_right fun _ => ?_)
  have hrest : (do
      let columns ← scope.checkReturn q.returns
      q.orderBy.forM (scope.checkOrder q columns)) = .ok () ↔
      ∃ columns, scope.checkReturn q.returns = .ok columns ∧
        ∀ item ∈ q.orderBy, scope.checkOrder q columns item = .ok () :=
    bind_eq_ok.trans (exists_congr fun columns => and_congr_right fun _ => forM_eq_ok)
  cases q.condition with
  | none => exact hrest.trans (and_iff_right nofun).symm
  | some e =>
    refine bind_eq_ok.trans ⟨fun ⟨_, he, h⟩ => ⟨?_, hrest.1 h⟩, fun ⟨he, h⟩ => ?_⟩
    · rintro _ ⟨⟩
      exact he
    · exact ⟨(), he e rfl, hrest.2 h⟩

/-- The conjuncts of the condition of a valid query can be evaluated. -/
theorem evaluable_conjuncts (h : q.validate = .ok ()) :
    ∀ e ∈ q.conjuncts, e.Evaluable q.Declares := by
  obtain ⟨scope, -, hscope, hcheck, -⟩ := validate_eq_ok.1 h
  intro e he
  cases hcondition : q.condition with
  | none =>
    rw [conjuncts, hcondition] at he
    cases he
  | some condition =>
    rw [conjuncts, hcondition] at he
    exact (evaluable_of_check hscope (hcheck condition hcondition)).conjuncts e he

/-- What validity says of the names of a pattern: they keep the descriptors apart, also across
paths, and the conjuncts of the condition read names that the query gives. -/
theorem names_of_validate (h : q.validate = .ok ()) :
    List.Forall₂ Focus.Names (Focus.ofPaths 0 q.paths) q.paths ∧
      (∀ f ∈ Focus.ofPaths 0 q.paths, ∃ path, (f.mentions path).Pairwise Mention.Apart) ∧
        ((Focus.ofPaths 0 q.paths).Pairwise fun f f' => ∀ x ∈ f.names, x ∉ f'.names) ∧
          ∀ e ∈ q.conjuncts, ∀ x ∈ e.reads, ∃ p ∈ q.paths, p.Declares x := by
  obtain ⟨scope, hscope, -⟩ := bind_eq_ok.1 h
  obtain ⟨⟨last, hrecords⟩, hnames⟩ := Scope.records_ofPaths hscope
  obtain ⟨hapart, hdisjoint⟩ := Focus.disjoint_of_apart hrecords.apart
  refine ⟨hnames, hapart, hdisjoint, fun e he x hx => ?_⟩
  exact (evaluable_conjuncts h e he).reads x (Expression.mem_reads.1 hx)

/-- The variables of the edges of a path differ from each other and from those of its nodes, and
only single hops have one. -/
theorem wellNamed_of_validate (h : q.validate = .ok ()) :
    ∀ f ∈ Focus.ofPaths 0 q.paths, f.WellNamed := by
  obtain ⟨hnames, hapart, -, -⟩ := names_of_validate h
  intro f hf
  obtain ⟨p, -, hname⟩ := exists_of_forall₂ hnames hf
  obtain ⟨path, hpairwise⟩ := hapart f hf
  exact Focus.wellNamed_of_apart hname hpairwise

end Query

end Plexus
