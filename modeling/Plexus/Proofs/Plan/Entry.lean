import Plexus.Proofs.Operator.Leaf
import Plexus.Proofs.Plan.Focus

/-!
# What a leaf takes care of

An entry splits what its descriptor and the waiting conjuncts ask for between the leaf and the
conditions that remain. Whichever way a path is entered, the two parts together ask for the same.
-/

namespace Plexus

/-- Only a live node has labels. -/
theorem Graph.NodeIs.live {g : Graph} {id : NodeId} {name : String} (h : g.NodeIs id name) :
    g.hasNode id = true := by
  obtain ⟨n, -, hn, -⟩ := h
  exact Arena.isLive_iff.2 ⟨n, hn⟩

/-- A node fits a pattern if it is live and has its labels and properties. -/
theorem NodePattern.fits_iff {g : Graph} {n : NodePattern} {id : NodeId} :
    n.Fits g id ↔ g.hasNode id = true ∧ (∀ label ∈ n.labels, g.NodeIs id label) ∧
      ∀ p ∈ n.properties, g.NodeHas id p :=
  ⟨fun h => ⟨h.live, h.labels, h.properties⟩, fun ⟨hlive, hlabels, hproperties⟩ =>
    ⟨hlive, hlabels, hproperties⟩⟩

/-- An equality can be answered by an index if the literal is not null and there is an index on the
label and the property. -/
theorem Entry.indexFor?_eq_some {g : Graph} {label : LabelId} {key : String} {value : Scalar}
    {access : Access} : indexFor? g label key value = some access ↔
      value.isNull = false ∧ ∃ property, g.schema.propertyId? key = some property ∧
        g.hasIndex label property = true ∧ access = .index label property value := by
  unfold indexFor?
  cases value.isNull <;> cases g.schema.propertyId? key <;> simp [@eq_comm _ access]

namespace Graph.Sound

variable {g : Graph} {id : NodeId} {label : LabelId} {name key : String} {value : Scalar}

/-- A node has a registered label if its live record does. -/
theorem nodeIs_iff (h : g.Sound) (hlabel : g.schema.labelId? name = some label) :
    g.NodeIs id name ↔ ∃ n ∈ g.nodes.records, n.id = id ∧ n.hasLabel label = true := by
  simp only [NodeIs, h.node?_iff, hlabel, Option.some.injEq]
  constructor
  · rintro ⟨n, _, ⟨hn, hid⟩, rfl, hl⟩
    exact ⟨n, hn, hid, hl⟩
  · rintro ⟨n, hn, hid, hl⟩
    exact ⟨n, label, ⟨hn, hid⟩, rfl, hl⟩

/-- A node has a property with a registered key if its live record has an equal value. -/
theorem nodeHas_iff (h : g.Sound) {property : PropertyId}
    (hkey : g.schema.propertyId? key = some property) :
    g.NodeHas id (key, value) ↔ ∃ n ∈ g.nodes.records, n.id = id ∧
      ∃ v, n.property? property = some v ∧ v.equals value = some true := by
  simp only [NodeHas, nodeProperty?, hkey, bind, Option.bind_eq_some_iff, h.node?_iff,
    Option.some.injEq, exists_eq_left']
  constructor
  · rintro ⟨v, ⟨n, ⟨hn, hid⟩, hv⟩, heq⟩
    exact ⟨n, hn, hid, v, hv, heq⟩
  · rintro ⟨n, hn, hid, v, hv, heq⟩
    exact ⟨v, ⟨n, ⟨hn, hid⟩, hv⟩, heq⟩

/-- The leaf for all nodes lists the live ones. -/
theorem mem_nodes_all (h : g.Sound) : id ∈ Access.all.nodes g ↔ g.hasNode id = true :=
  h.hasNode_iff.symm

/-- The leaf for a label lists the nodes with the label. -/
theorem mem_nodes_label (h : g.Sound) :
    id ∈ (Access.label (g.schema.labelId? name)).nodes g ↔ g.NodeIs id name := by
  cases hlabel : g.schema.labelId? name with
  | none => simp [Access.nodes, NodeIs, hlabel]
  | some label =>
    rw [h.nodeIs_iff hlabel, ← h.members label id, ← Std.ExtTreeSet.mem_toList]
    rfl

/-- The leaf for an index lists the nodes with the label whose property equals the value. -/
theorem mem_nodes_index (h : g.Sound) {access : Access}
    (hlabel : g.schema.labelId? name = some label)
    (haccess : Entry.indexFor? g label key value = some access) :
    id ∈ access.nodes g ↔ g.NodeIs id name ∧ g.NodeHas id (key, value) := by
  obtain ⟨-, property, hkey, -, rfl⟩ := Entry.indexFor?_eq_some.1 haccess
  rw [h.nodes_index, Graph.mem_scanFor, h.nodeIs_iff hlabel, h.nodeHas_iff hkey]
  constructor
  · rintro ⟨n, hn, hid, hl, hhas⟩
    exact ⟨⟨n, hn, hid, hl⟩, n, hn, hid, hhas⟩
  · rintro ⟨⟨n, hn, hid, hl⟩, m, hm, hid', hhas⟩
    obtain rfl : m = n := h.node_ext hm hn (hid'.trans hid.symm)
    exact ⟨m, hm, hid, hl, hhas⟩

end Graph.Sound

namespace Expression

variable {g : Graph} {ν : Valuation} {name key : String} {value : Scalar} {e : Expression}

private theorem holds?_swap {v : Scalar} {w : Value} :
    Value.holds? .eq (.scalar v) w = some true ↔ Value.holds? .eq w (.scalar v) = some true := by
  cases w with
  | node id => cases v <;> simp [Value.holds?, Value.ofEquality]
  | edge id => cases v <;> simp [Value.holds?, Value.ofEquality]
  | scalar w =>
    rw [Value.holds?_eq, Value.holds?_eq, ← IndexKey.ofScalar?_common,
      ← IndexKey.ofScalar?_common]
    exact exists_congr fun k => and_comm

private theorem evaluate_swap {r : Row} {v : Scalar} {e : Expression} :
    (binary .eq (literal v) e).evaluate g r = .ok (.boolean true) ↔
      (binary .eq e (literal v)).evaluate g r = .ok (.boolean true) := by
  simp only [evaluate, bind, Except.bind, pure, Except.pure]
  cases e.evaluate g r with
  | error fault => exact Iff.rfl
  | ok w =>
    simp only [Except.ok.injEq, Truth.toValue_eq_true]
    exact holds?_swap

/-- An equality of a property and a literal is seen on either side. -/
theorem equalityOn?_eq_some : e.equalityOn? name = some (key, value) ↔
    e = binary .eq (property name key) (literal value) ∨
      e = binary .eq (literal value) (property name key) := by
  constructor
  · intro h
    unfold equalityOn? at h
    split at h
    · split at h
      · rename_i hname
        cases h
        exact .inl (hname ▸ rfl)
      · cases h
    · split at h
      · rename_i hname
        cases h
        exact .inr (hname ▸ rfl)
      · cases h
    · cases h
  · rintro (rfl | rfl) <;> simp [equalityOn?]

/-- An equality on a property of a variable reads that variable alone. -/
theorem occurrences_of_equalityOn? (h : e.equalityOn? name = some (key, value)) :
    e.occurrences = [name] := by
  rcases equalityOn?_eq_some.1 h with rfl | rfl <;> simp [occurrences]

/-- An equality that an index can answer says what a descriptor says of a node. -/
theorem holds_equalityOn? (h : e.equalityOn? name = some (key, value)) {id : NodeId}
    (hν : ν name = some (.node id)) (hlive : g.hasNode id = true) :
    e.Holds g ν ↔ g.NodeHas id (key, value) := by
  rw [← holds_propertyEquals_node hν hlive]
  rcases equalityOn?_eq_some.1 h with rfl | rfl
  · exact Iff.rfl
  · refine exists_congr fun r => and_congr ?_ evaluate_swap
    simp [reads, propertyEquals, occurrences]

end Expression

namespace Entry

variable {g : Graph} {e : Entry} {f : Focus} {pending : List Expression}

/-- The leaf lists live nodes, each once, and the leaf and the conditions that remain ask together
for what the descriptor and the waiting conditions ask for. -/
structure Covers (g : Graph) (pending : List Expression) (e : Entry) : Prop where
  live : ∀ id ∈ e.access.nodes g, g.hasNode id = true
  asks (ν : Valuation) (id : NodeId) : ν e.focus.node.name = some (.node id) →
    ((id ∈ e.access.nodes g ∧ ∀ c ∈ e.pending ++ e.conditions, c.Holds g ν) ↔
      e.focus.node.pattern.Fits g id ∧ ∀ c ∈ pending, c.Holds g ν)

private theorem holds_conditions {ν : Valuation} {id : NodeId}
    (hν : ν e.focus.node.name = some (.node id)) (hlive : g.hasNode id = true) :
    (∀ c ∈ e.conditions, c.Holds g ν) ↔ (∀ label ∈ e.otherLabels, g.NodeIs id label) ∧
      ∀ p ∈ e.focus.node.pattern.properties, some p.1 ≠ e.key → g.NodeHas id p := by
  have hlabels : (∀ c ∈ (if e.otherLabels.isEmpty then []
      else [Expression.hasLabels e.focus.node.name e.otherLabels]), c.Holds g ν) ↔
        ∀ label ∈ e.otherLabels, g.NodeIs id label := by
    split
    · rename_i hempty
      rw [List.isEmpty_iff.1 hempty]
      simp
    · rw [List.forall_mem_singleton, Expression.holds_hasLabels hν hlive]
  unfold conditions
  rw [List.forall_mem_append, hlabels]
  simp only [List.forall_mem_map, List.mem_filter, decide_eq_true_eq,
    Expression.holds_propertyEquals_node hν hlive, and_imp]

private theorem forall_labels {name : String} {labels : List String} (hname : name ∈ labels)
    {P : String → Prop} : (∀ l ∈ labels, P l) ↔ P name ∧ ∀ l ∈ labels.erase name, P l := by
  rw [← List.forall_mem_cons]
  exact forall_congr' fun l => by rw [(List.perm_cons_erase hname).mem_iff]

/-- Entering at any node without help asks for everything afterwards. -/
theorem covers_all (hg : g.Sound) :
    (Entry.mk f .all none none pending).Covers g pending where
  live id hid := hg.mem_nodes_all.1 hid
  asks ν id hν := by
    rw [hg.mem_nodes_all, List.forall_mem_append, NodePattern.fits_iff]
    constructor
    · rintro ⟨hlive, hpending, hconditions⟩
      obtain ⟨hlabels, hproperties⟩ := (holds_conditions hν hlive).1 hconditions
      exact ⟨⟨hlive, hlabels, fun p hp => hproperties p hp (Option.some_ne_none _)⟩, hpending⟩
    · rintro ⟨⟨hlive, hlabels, hproperties⟩, hpending⟩
      exact ⟨hlive, hpending, (holds_conditions hν hlive).2
        ⟨hlabels, fun p hp _ => hproperties p hp⟩⟩

/-- Entering by a label leaves the other labels and the properties. -/
theorem covers_label (hg : g.Sound) {name : String} (hname : name ∈ f.node.pattern.labels) :
    (Entry.mk f (.label (g.schema.labelId? name)) (some name) none pending).Covers g pending where
  live id hid := (hg.mem_nodes_label.1 hid).live
  asks ν id hν := by
    rw [hg.mem_nodes_label, List.forall_mem_append, NodePattern.fits_iff, forall_labels hname]
    constructor
    · rintro ⟨his, hpending, hconditions⟩
      obtain ⟨hlabels, hproperties⟩ := (holds_conditions hν his.live).1 hconditions
      exact ⟨⟨his.live, ⟨his, hlabels⟩, fun p hp => hproperties p hp (Option.some_ne_none _)⟩,
        hpending⟩
    · rintro ⟨⟨hlive, ⟨his, hlabels⟩, hproperties⟩, hpending⟩
      exact ⟨his, hpending, (holds_conditions hν hlive).2
        ⟨hlabels, fun p hp _ => hproperties p hp⟩⟩

/-- Entering by an index on a property of the descriptor leaves the other properties. -/
theorem covers_property (hg : g.Sound) {name key : String} {value : Scalar}
    {label : LabelId} {access : Access} (hname : name ∈ f.node.pattern.labels)
    (hlabel : g.schema.labelId? name = some label)
    (haccess : indexFor? g label key value = some access)
    (hproperty : (key, value) ∈ f.node.pattern.properties)
    (hkeys : (Assoc.keys f.node.pattern.properties).Nodup) :
    (Entry.mk f access (some name) (some key) pending).Covers g pending where
  live id hid := ((hg.mem_nodes_index hlabel haccess).1 hid).1.live
  asks ν id hν := by
    rw [hg.mem_nodes_index hlabel haccess, List.forall_mem_append, NodePattern.fits_iff,
      forall_labels hname]
    constructor
    · rintro ⟨⟨his, hhas⟩, hpending, hconditions⟩
      obtain ⟨hlabels, hproperties⟩ := (holds_conditions hν his.live).1 hconditions
      refine ⟨⟨his.live, ⟨his, hlabels⟩, fun p hp => ?_⟩, hpending⟩
      by_cases hpkey : p.1 = key
      · have heq : p = (key, value) := List.inj_on_of_nodup_map hkeys hp hproperty hpkey
        rw [heq]
        exact hhas
      · exact hproperties p hp fun hsome => hpkey (Option.some.inj hsome)
    · rintro ⟨⟨hlive, ⟨his, hlabels⟩, hproperties⟩, hpending⟩
      exact ⟨⟨his, hproperties _ hproperty⟩, hpending, (holds_conditions hν hlive).2
        ⟨hlabels, fun p hp _ => hproperties p hp⟩⟩

/-- Entering by an index on a property that a conjunct compares leaves the other conjuncts. -/
theorem covers_conjunct (hg : g.Sound) {name key : String} {value : Scalar}
    {label : LabelId} {access : Access} {c : Expression} {others : List Expression}
    (hname : name ∈ f.node.pattern.labels) (hlabel : g.schema.labelId? name = some label)
    (haccess : indexFor? g label key value = some access)
    (hc : c.equalityOn? f.node.name = some (key, value))
    (hpending : ∀ e, e ∈ pending ↔ e = c ∨ e ∈ others) :
    (Entry.mk f access (some name) none others).Covers g pending where
  live id hid := ((hg.mem_nodes_index hlabel haccess).1 hid).1.live
  asks ν id hν := by
    rw [hg.mem_nodes_index hlabel haccess, List.forall_mem_append, NodePattern.fits_iff,
      forall_labels hname]
    simp only [hpending, forall_eq_or_imp]
    constructor
    · rintro ⟨⟨his, hhas⟩, hothers, hconditions⟩
      obtain ⟨hlabels, hproperties⟩ := (holds_conditions hν his.live).1 hconditions
      exact ⟨⟨his.live, ⟨his, hlabels⟩, fun p hp => hproperties p hp (Option.some_ne_none _)⟩,
        (Expression.holds_equalityOn? hc hν his.live).2 hhas, hothers⟩
    · rintro ⟨⟨hlive, ⟨his, hlabels⟩, hproperties⟩, hholds, hothers⟩
      exact ⟨⟨his, (Expression.holds_equalityOn? hc hν hlive).1 hholds⟩, hothers,
        (holds_conditions hν hlive).2 ⟨hlabels, fun p hp _ => hproperties p hp⟩⟩

private theorem extractFirst?_eq_some {α β : Type} {test : α → Option β} {l others : List α} {b : β}
    (h : extractFirst? test l = some (b, others)) :
    ∃ front a back, test a = some b ∧ l = front ++ a :: back ∧ others = front ++ back := by
  induction l generalizing others with
  | nil => cases h
  | cons a rest ih =>
    rw [extractFirst?] at h
    split at h
    · rename_i ha
      cases h
      exact ⟨[], a, rest, ha, rfl, rfl⟩
    · obtain ⟨⟨b', others'⟩, hrest, heq⟩ := Option.map_eq_some_iff.1 h
      cases heq
      obtain ⟨front, a', back, ha', rfl, rfl⟩ := ih hrest
      exact ⟨a :: front, a', back, ha', rfl, rfl⟩

/-- The ways to enter a path, seen from one of its nodes, with what the leaf takes care of. -/
inductive Chosen (g : Graph) (pending : List Expression) (f : Focus) : Entry → Prop where
  | all : Chosen g pending f ⟨f, .all, none, none, pending⟩
  | label {name : String} : name ∈ f.node.pattern.labels →
      Chosen g pending f ⟨f, .label (g.schema.labelId? name), some name, none, pending⟩
  | property {name key : String} {label : LabelId} {value : Scalar} {access : Access} :
      name ∈ f.node.pattern.labels → g.schema.labelId? name = some label →
        (key, value) ∈ f.node.pattern.properties → indexFor? g label key value = some access →
          Chosen g pending f ⟨f, access, some name, some key, pending⟩
  | conjunct {name key : String} {label : LabelId} {value : Scalar} {access : Access}
      {c : Expression} {front back : List Expression} :
      name ∈ f.node.pattern.labels → g.schema.labelId? name = some label →
        c.equalityOn? f.node.name = some (key, value) → indexFor? g label key value = some access →
          pending = front ++ c :: back →
            Chosen g pending f ⟨f, access, some name, none, front ++ back⟩

/-- A leaf that looks up one of the labels of the node in an index, with an equality that the
descriptor or a waiting condition asks for. -/
def Indexed (g : Graph) (pending : List Expression) (f : Focus) (access : Access) : Prop :=
  ∃ name ∈ f.node.pattern.labels, ∃ label, g.schema.labelId? name = some label ∧ ∃ key value,
    ((key, value) ∈ f.node.pattern.properties ∨
      ∃ c ∈ pending, c.equalityOn? f.node.name = some (key, value)) ∧
        indexFor? g label key value = some access

/-- If an entry by a label finds an index, it is made up as it should be. -/
theorem chosen_byIndexOn? {name : String} (hname : name ∈ f.node.pattern.labels)
    (h : byIndexOn? g pending f name = some e) :
    Chosen g pending f e ∧ Indexed g pending f e.access := by
  unfold byIndexOn? at h
  split at h
  · cases h
  rename_i label hlabel
  dsimp only at h
  split at h
  · rename_i key access hinline
    cases h
    obtain ⟨⟨key', value⟩, hproperty, hindex⟩ := List.exists_of_findSome?_eq_some hinline
    obtain ⟨access', haccess, heq⟩ := Option.map_eq_some_iff.1 hindex
    cases heq
    exact ⟨.property hname hlabel hproperty haccess,
      name, hname, label, hlabel, key', value, .inl hproperty, haccess⟩
  · obtain ⟨⟨access, others⟩, hextract, heq⟩ := Option.map_eq_some_iff.1 h
    cases heq
    obtain ⟨front, c, back, hc, hpending, rfl⟩ := extractFirst?_eq_some hextract
    obtain ⟨⟨key, value⟩, hequality, haccess⟩ := Option.bind_eq_some_iff.1 hc
    have hmem : c ∈ pending := hpending ▸ List.mem_append_right _ List.mem_cons_self
    exact ⟨.conjunct hname hlabel hequality haccess hpending,
      name, hname, label, hlabel, key, value, .inr ⟨c, hmem, hequality⟩, haccess⟩

/-- The rarest label is one of those that are compared. -/
theorem mem_of_rarest? {l : List (Focus × String)} {a : Focus × String}
    (h : rarest? g l = some a) : a ∈ l := by
  induction l generalizing a with
  | nil => cases h
  | cons b rest ih =>
    rw [rarest?] at h
    split at h
    · rename_i c hc
      split at h
      · cases h
        exact List.mem_cons_of_mem _ (ih hc)
      · cases h
        exact List.mem_cons_self
    · cases h
      exact List.mem_cons_self

/-- A path is entered in one of these ways, seen from one of its nodes. -/
theorem chosen_choose (g : Graph) (pending : List Expression) (f : Focus) :
    ∃ f' ∈ f.all, Chosen g pending f' (choose g pending f) := by
  unfold choose
  split
  · rename_i e hindex
    obtain ⟨f', hf', hfound⟩ := List.exists_of_findSome?_eq_some hindex
    obtain ⟨name, hname, hon⟩ := List.exists_of_findSome?_eq_some hfound
    exact ⟨f', (List.mem_filter.1 hf').1, (chosen_byIndexOn? hname hon).1⟩
  · split
    · rename_i e hlabel
      obtain ⟨⟨f', name⟩, hrarest, heq⟩ := Option.map_eq_some_iff.1 hlabel
      cases heq
      obtain ⟨f'', hf'', hmem⟩ := List.mem_flatMap.1 (mem_of_rarest? hrarest)
      obtain ⟨name', hname, heq⟩ := List.mem_map.1 hmem
      cases heq
      exact ⟨f', (List.mem_filter.1 hf'').1, .label hname⟩
    · exact ⟨f, List.mem_cons_self, .all⟩

/-- The entry of a path is at the node where it was looked for. -/
theorem Chosen.focus_eq (h : Chosen g pending f e) : e.focus = f := by
  cases h <;> rfl

/-- The conjuncts that wait after the entry are some of those before it. -/
theorem Chosen.pending_subset (h : Chosen g pending f e) : ∀ c ∈ e.pending, c ∈ pending := by
  cases h with
  | conjunct _ _ _ _ hpending =>
    intro c hc
    rw [hpending]
    rcases List.mem_append.1 hc with hc | hc
    · exact List.mem_append_left _ hc
    · exact List.mem_append_right _ (List.mem_cons_of_mem _ hc)
  | _ => exact fun c hc => hc

/-- If only conditions wait that include every equality on a property of the node, the path is
entered alike, and the same of the other conditions wait before and after. -/
theorem Chosen.filter (h : Chosen g pending f e) {keep : Expression → Bool}
    (hkeep : ∀ c p, c.equalityOn? f.node.name = some p → keep c = true) :
    Chosen g (pending.filter keep) f { e with pending := e.pending.filter keep } ∧
      e.pending.filter (not ∘ keep) = pending.filter (not ∘ keep) := by
  cases h with
  | all => exact ⟨.all, rfl⟩
  | label hname => exact ⟨.label hname, rfl⟩
  | property hname hlabel hproperty haccess =>
    exact ⟨.property hname hlabel hproperty haccess, rfl⟩
  | conjunct hname hlabel hequality haccess hpending =>
    rename_i c front back
    have hc : keep c = true := hkeep c _ hequality
    have hfilter : pending.filter keep = front.filter keep ++ c :: back.filter keep := by
      rw [hpending, List.filter_append, List.filter_cons_of_pos hc]
    refine ⟨?_, ?_⟩
    · simp only [List.filter_append]
      exact .conjunct hname hlabel hequality haccess hfilter
    · rw [hpending, List.filter_append, List.filter_append, List.filter_cons_of_neg]
      simp [hc]

/-- With what is asked afterwards, an entry covers what its node asks. -/
theorem Chosen.covers (hg : g.Sound) (h : Chosen g pending f e)
    (hkeys : (Assoc.keys f.node.pattern.properties).Nodup) : e.Covers g pending := by
  cases h with
  | all => exact covers_all hg
  | label hname => exact covers_label hg hname
  | property hname hlabel hproperty haccess =>
    exact covers_property hg hname hlabel haccess hproperty hkeys
  | conjunct hname hlabel hequality haccess hpending =>
    refine covers_conjunct hg hname hlabel haccess hequality fun c => ?_
    rw [hpending]
    simp only [List.mem_append, List.mem_cons]
    tauto

/-- The entry of a path is one of its nodes, and loses nothing of what the path asks for. -/
theorem covers_choose (hg : g.Sound) (pending : List Expression)
    (hkeys : ∀ n ∈ f.nodes, (Assoc.keys n.pattern.properties).Nodup) :
    (choose g pending f).Covers g pending ∧ (choose g pending f).focus ∈ f.all := by
  obtain ⟨f', hf', hchosen⟩ := chosen_choose g pending f
  exact ⟨hchosen.covers hg (hkeys _ (Focus.node_mem_nodes hf')), hchosen.focus_eq ▸ hf'⟩

end Entry

end Plexus
