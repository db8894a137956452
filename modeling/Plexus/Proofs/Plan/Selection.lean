import Plexus.Proofs.Operator.Leaf
import Plexus.Proofs.Plan.Entry
import Plexus.Proofs.Plan.Outward
import Plexus.Proofs.Query.Conjuncts

/-!
# Which entry is selected

An index is used whenever there is one to use at a node that a path may be entered at. Otherwise the
path is entered by a label that no other of these nodes has a rarer one than, and without any label
among them at its first node. How rare a label is says the number of live nodes that have it, which
the planner takes from the members that are kept for the label.
-/

namespace Plexus

namespace Entry

variable {g : Graph} {pending : List Expression} {f : Focus}

private theorem extractFirst?_eq_none {α β : Type} {test : α → Option β} {l : List α}
    (h : extractFirst? test l = none) : ∀ a ∈ l, test a = none := by
  induction l with
  | nil => exact List.forall_mem_nil _
  | cons a rest ih =>
    rw [extractFirst?] at h
    split at h
    · cases h
    · rename_i ha
      exact List.forall_mem_cons.2 ⟨ha, ih (Option.map_eq_none_iff.1 h)⟩

/-- No index is overlooked at a node. -/
theorem not_indexed_of_byIndexOn?
    (h : ∀ name ∈ f.node.pattern.labels, byIndexOn? g pending f name = none) (access : Access) :
    ¬Indexed g pending f access := by
  rintro ⟨name, hname, label, hlabel, key, value, hasks, haccess⟩
  have hnone := h name hname
  simp only [byIndexOn?, hlabel] at hnone
  split at hnone
  · cases hnone
  · rename_i hinline
    rcases hasks with hproperty | ⟨c, hc, hequality⟩
    · have hno := List.findSome?_eq_none_iff.1 hinline _ hproperty
      simp [haccess] at hno
    · have hno := extractFirst?_eq_none (Option.map_eq_none_iff.1 hnone) c hc
      simp [hequality, haccess] at hno

private theorem rarest?_eq_none {l : List (Focus × String)} (h : rarest? g l = none) : l = [] := by
  cases l with
  | nil => rfl
  | cons a rest =>
    rw [rarest?] at h
    split at h
    · split at h <;> cases h
    · cases h

/-- No label is rarer than the rarest one. -/
theorem cardinality_rarest?_le {l : List (Focus × String)} {a : Focus × String}
    (h : rarest? g l = some a) : ∀ b ∈ l, cardinality g a.2 ≤ cardinality g b.2 := by
  induction l generalizing a with
  | nil => cases h
  | cons b rest ih =>
    rw [List.forall_mem_cons]
    rw [rarest?] at h
    split at h
    · rename_i c hc
      split at h
      · rename_i hlt
        cases h
        exact ⟨hlt.le, ih hc⟩
      · rename_i hle
        cases h
        exact ⟨Nat.le_refl _, fun b hb => (Nat.le_of_not_lt hle).trans (ih hc b hb)⟩
    · rename_i hnone
      cases h
      rw [rarest?_eq_none hnone]
      exact ⟨Nat.le_refl _, List.forall_mem_nil _⟩

/-- How the entry of a path is selected from its candidates. -/
inductive Selected (g : Graph) (pending : List Expression) (f : Focus) (e : Entry) : Prop where
  | index : e.focus ∈ f.candidates → Indexed g pending e.focus e.access → Selected g pending f e
  | label {name : String} : (∀ f' ∈ f.candidates, ∀ access, ¬Indexed g pending f' access) →
      e.focus ∈ f.candidates → name ∈ e.focus.node.pattern.labels →
        e.access = .label (g.schema.labelId? name) →
          (∀ f' ∈ f.candidates, ∀ other ∈ f'.node.pattern.labels,
            cardinality g name ≤ cardinality g other) → Selected g pending f e
  | all : (∀ f' ∈ f.candidates, ∀ access, ¬Indexed g pending f' access) →
      (∀ f' ∈ f.candidates, f'.node.pattern.labels = []) → e.focus = f → e.access = .all →
        Selected g pending f e

/-- The planner's choice of an entry is one by the order of preference. -/
theorem selected_choose (g : Graph) (pending : List Expression) (f : Focus) :
    Selected g pending f (choose g pending f) := by
  unfold choose
  split
  · rename_i e hindex
    obtain ⟨f', hf', hfound⟩ := List.exists_of_findSome?_eq_some hindex
    obtain ⟨name, hname, hon⟩ := List.exists_of_findSome?_eq_some hfound
    obtain ⟨hchosen, hindexed⟩ := chosen_byIndexOn? hname hon
    obtain rfl := hchosen.focus_eq
    exact .index hf' hindexed
  · rename_i hnone
    have hno : ∀ f' ∈ f.candidates, ∀ access, ¬Indexed g pending f' access := fun f' hf' =>
      not_indexed_of_byIndexOn? (List.findSome?_eq_none_iff.1
        (List.findSome?_eq_none_iff.1 hnone f' hf'))
    split
    · rename_i e hlabel
      obtain ⟨⟨f', name⟩, hrarest, rfl⟩ := Option.map_eq_some_iff.1 hlabel
      obtain ⟨f'', hf'', hmem⟩ := List.mem_flatMap.1 (mem_of_rarest? hrarest)
      obtain ⟨name', hname, heq⟩ := List.mem_map.1 hmem
      cases heq
      refine .label hno hf'' hname rfl fun f' hf' other hother => ?_
      exact cardinality_rarest?_le hrarest (f', other)
        (List.mem_flatMap.2 ⟨f', hf', List.mem_map_of_mem hother⟩)
    · rename_i hlabel
      have hempty := rarest?_eq_none (Option.map_eq_none_iff.1 hlabel)
      refine .all hno (fun f' hf' => ?_) rfl rfl
      exact List.map_eq_nil_iff.1 (List.flatMap_eq_nil_iff.1 hempty f' hf')

end Entry

namespace Graph

/-- How many live nodes have the label with a name; none if there is no such label. -/
def carriers (g : Graph) (name : String) : Nat :=
  g.nodes.records.countP fun n => (g.schema.labelId? name).any n.hasLabel

/-- The members that are kept for a label are as many as the live nodes that have it. -/
theorem Sound.cardinality_eq_carriers {g : Graph} (h : g.Sound) (name : String) :
    Entry.cardinality g name = g.carriers name := by
  unfold Entry.cardinality carriers
  cases g.schema.labelId? name with
  | none => simp
  | some l =>
    have hascending : ((g.nodes.records.filter (·.hasLabel l)).map (·.id)).Pairwise (· < ·) :=
      h.nodeIds_ascending.sublist (List.filter_sublist.map _)
    have hsame : g.labelled l = (g.nodes.records.filter (·.hasLabel l)).map (·.id) :=
      Id.eq_of_ascending (h.nodes_ascending (.label (some l))) hascending fun id => by
        rw [h.mem_labelled, List.mem_map]
        exact exists_congr fun n => by rw [List.mem_filter, and_right_comm, and_assoc]
    have hlength := congrArg List.length hsame
    rw [labelled, Std.ExtTreeSet.length_toList, List.length_map,
      ← List.countP_eq_length_filter] at hlength
    exact hlength

end Graph

namespace Query

/-- A conjunct of the condition says that a property of a variable equals a literal, either way
round. -/
def Compares (q : Query) (x key : String) (value : Scalar) : Prop :=
  ∃ es, q.Splits es ∧ (.binary .eq (.property x key) (.literal value) ∈ es ∨
    .binary .eq (.literal value) (.property x key) ∈ es)

/-- A query compares a property with a value if one of its conjuncts does. -/
theorem compares_iff {q : Query} {x key : String} {value : Scalar} :
    q.Compares x key value ↔ ∃ c ∈ q.conjuncts, c.equalityOn? x = some (key, value) := by
  simp only [Compares, exists_splits_iff, Expression.equalityOn?_eq_some, and_or_left, exists_or,
    exists_eq_right]

/-- The query asks of a node descriptor, by itself or by a conjunct on its variable, for an equality
of a property with a literal that is not null, and there is an index for the property on one of the
labels of the descriptor. -/
structure Indexed (q : Query) (g : Graph) (n : NodePattern) (label : LabelId)
    (property : PropertyId) (value : Scalar) : Prop where
  labelled : ∃ name ∈ n.labels, g.schema.labelId? name = some label
  notNull : value.isNull = false
  hasIndex : g.hasIndex label property = true
  asked : ∃ key, g.schema.propertyId? key = some property ∧
    ((key, value) ∈ n.properties ∨ ∃ x, n.name = some x ∧ q.Compares x key value)

/-- Some node descriptor of a path, the first with its variable, can be looked up in an index. -/
def IndexedOn (q : Query) (g : Graph) (p : Path) : Prop :=
  ∃ i n label property value, p.FirstAt i n ∧ q.Indexed g n label property value

/-- How the leaf of a path finds the nodes for one of its descriptors. -/
structure Enters (q : Query) (g : Graph) (p : Path) (n : NodePattern) (access : Access) : Prop where
  /-- An index is used if there is one to use. -/
  usesIndex : (∃ label property value, access = .index label property value) ↔ q.IndexedOn g p
  /-- It is one for the descriptor. -/
  index : ∀ label property value, access = .index label property value →
    q.Indexed g n label property value
  /-- Otherwise a label is used if there is one, and none is rarer. -/
  label : ¬q.IndexedOn g p → (∃ i m, p.FirstAt i m ∧ m.labels ≠ []) →
    ∃ name ∈ n.labels, access = .label (g.schema.labelId? name) ∧
      ∀ i m, p.FirstAt i m → ∀ other ∈ m.labels, g.carriers name ≤ g.carriers other
  /-- Otherwise all nodes are tried. -/
  all : ¬q.IndexedOn g p → (∀ i m, p.FirstAt i m → m.labels = []) → access = .all

variable {q : Query} {g : Graph} {pending : List Expression} {f : Focus} {p : Path} {path : Nat}

/-- At a node descriptor the planner sees the equalities that the query asks for. -/
theorem indexed_iff
    (hasks : ∀ key value, (∃ c ∈ pending, c.equalityOn? f.node.name = some (key, value)) ↔
      ∃ x, f.node.pattern.name = some x ∧ q.Compares x key value) {access : Access} :
    Entry.Indexed g pending f access ↔ ∃ label property value,
      access = .index label property value ∧ q.Indexed g f.node.pattern label property value := by
  simp only [Entry.Indexed, hasks, Entry.indexFor?_eq_some]
  constructor
  · rintro ⟨name, hname, label, hlabel, key, value, hequality, hnull, property, hkey, hindex, rfl⟩
    exact ⟨label, property, value, rfl, ⟨name, hname, hlabel⟩, hnull, hindex, key, hkey, hequality⟩
  · rintro ⟨label, property, value, rfl, ⟨name, hname, hlabel⟩, hnull, hindex, key, hkey, hequality⟩
    exact ⟨name, hname, label, hlabel, key, value, hequality, hnull, property, hkey, hindex, rfl⟩

/-- Where no index can be used, the leaf is one for a label or for all nodes. -/
theorem enters_of_not_indexed {n : NodePattern} {access : Access}
    (hunused : ¬q.IndexedOn g p)
    (hne : ∀ label property value, access ≠ .index label property value)
    (hlabel : (∃ i m, p.FirstAt i m ∧ m.labels ≠ []) →
      ∃ name ∈ n.labels, access = .label (g.schema.labelId? name) ∧
        ∀ i m, p.FirstAt i m → ∀ other ∈ m.labels, g.carriers name ≤ g.carriers other)
    (hall : (∀ i m, p.FirstAt i m → m.labels = []) → access = .all) : q.Enters g p n access where
  usesIndex := ⟨fun ⟨l, k, v, heq⟩ => absurd heq (hne l k v), fun hused => absurd hused hunused⟩
  index l k v heq := absurd heq (hne l k v)
  label _ := hlabel
  all _ := hall

/-- What the planner sees at each node of a path are the equalities that the query asks for. -/
def Sees (q : Query) (pending : List Expression) (f : Focus) : Prop :=
  ∀ n ∈ f.nodes, ∀ key value, (∃ c ∈ pending, c.equalityOn? n.name = some (key, value)) ↔
    ∃ x, n.pattern.name = some x ∧ q.Compares x key value

/-- An index for a candidate is one for its descriptor. -/
theorem Sees.indexed_iff (h : q.Sees pending f) {f' : Focus} (hf' : f' ∈ f.candidates)
    {access : Access} : Entry.Indexed g pending f' access ↔ ∃ label property value,
      access = .index label property value ∧
        q.Indexed g f'.node.pattern label property value :=
  Query.indexed_iff (h f'.node (Focus.node_mem_nodes (List.mem_filter.1 hf').1))

/-- A path can be looked up in an index if one of its candidates can. -/
theorem Sees.indexedOn_iff (h : q.Sees pending f) (hnames : f.Names p)
    (hapart : (f.mentions path).Pairwise Mention.Apart) :
    q.IndexedOn g p ↔ ∃ f' ∈ f.candidates, ∃ access, Entry.Indexed g pending f' access := by
  constructor
  · rintro ⟨i, n, label, property, value, hn, hi⟩
    obtain ⟨f', hf', -, rfl⟩ := (hnames.firstAt_iff hapart).1 hn
    exact ⟨f', hf', _, (h.indexed_iff hf').2 ⟨label, property, value, rfl, hi⟩⟩
  · rintro ⟨f', hf', access, hi⟩
    obtain ⟨label, property, value, -, hi⟩ := (h.indexed_iff hf').1 hi
    exact ⟨_, _, label, property, value, (hnames.firstAt_iff hapart).2 ⟨f', hf', rfl, rfl⟩, hi⟩

/-- A path is entered as it should be if the planner sees the equalities that the query asks for. -/
theorem enters_choose (hg : g.Sound) (h : q.Sees pending f) (hnames : f.Names p)
    (hapart : (f.mentions path).Pairwise Mention.Apart) :
    let e := Entry.choose g pending f
    p.FirstAt e.focus.before.length e.focus.node.pattern ∧
      q.Enters g p e.focus.node.pattern e.access := by
  have hfirst {i : Nat} {n : NodePattern} : p.FirstAt i n ↔
      ∃ f' ∈ f.candidates, f'.before.length = i ∧ f'.node.pattern = n :=
    hnames.firstAt_iff hapart
  have hunused (hno : ∀ f' ∈ f.candidates, ∀ access, ¬Entry.Indexed g pending f' access) :
      ¬q.IndexedOn g p := fun hused => by
    obtain ⟨f', hf', access, hi⟩ := (h.indexedOn_iff hnames hapart).1 hused
    exact hno f' hf' access hi
  intro e
  rcases Entry.selected_choose g pending f with ⟨hf, hi⟩ | ⟨hno, hf, hname, haccess, hrarest⟩ |
    ⟨hno, hempty, hf, haccess⟩
  · refine ⟨hfirst.2 ⟨_, hf, rfl, rfl⟩, ?_⟩
    obtain ⟨label, property, value, haccess, hlooks⟩ := (h.indexed_iff hf).1 hi
    have hused : q.IndexedOn g p := (h.indexedOn_iff hnames hapart).2 ⟨_, hf, _, hi⟩
    refine ⟨⟨fun _ => hused, fun _ => ⟨_, _, _, haccess⟩⟩, ?_, absurd hused, absurd hused⟩
    intro _ _ _ heq
    cases haccess.symm.trans heq
    exact hlooks
  · refine ⟨hfirst.2 ⟨_, hf, rfl, rfl⟩, enters_of_not_indexed (hunused hno) ?_ (fun _ => ?_) ?_⟩
    · intro _ _ _ heq
      cases haccess.symm.trans heq
    · refine ⟨_, hname, haccess, fun i m hm => ?_⟩
      obtain ⟨f', hf', -, rfl⟩ := hfirst.1 hm
      simp only [← hg.cardinality_eq_carriers]
      exact hrarest f' hf'
    · intro hnone
      rw [hnone _ _ (hfirst.2 ⟨_, hf, rfl, rfl⟩)] at hname
      cases hname
  · have hcandidate : e.focus ∈ f.candidates := by
      rw [hf]
      exact List.mem_filter.2 ⟨List.mem_cons_self, by rw [Focus.isFirst, hnames.before]; rfl⟩
    refine ⟨hfirst.2 ⟨_, hcandidate, rfl, rfl⟩, enters_of_not_indexed (hunused hno) ?_ ?_
      fun _ => haccess⟩
    · intro _ _ _ heq
      cases haccess.symm.trans heq
    · rintro ⟨i, m, hm, hne⟩
      obtain ⟨f', hf', -, rfl⟩ := hfirst.1 hm
      exact absurd (hempty f' hf') hne

end Query

end Plexus
