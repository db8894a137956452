import Plexus.Index.Catalog
import Plexus.Proofs.Assoc
import Plexus.Proofs.Rows

/-!
# Indices follow the nodes

An index holds the nodes of its label under the keys of their values. Postings are determined by
which pairs they hold, and every event brings each index from the nodes before the change to the
nodes after it.
-/

namespace Plexus

namespace Postings

variable {p q : Postings} {P Q : IndexKey → NodeId → Prop}

/-- The pairs of a key and a node are those of a relation. -/
def Holds (p : Postings) (P : IndexKey → NodeId → Prop) : Prop := Rows p.nodes p.size P

namespace Holds

/-- Empty postings hold nothing. -/
theorem empty : Postings.empty.Holds fun _ _ => False := Rows.empty

/-- The nodes that are looked up under a key are those that are held under it. -/
theorem mem_iff (h : p.Holds P) (key : IndexKey) (node : NodeId) :
    node ∈ p.withKey key ↔ P key node :=
  Rows.mem_iff h key node

/-- What postings hold may be said in any equivalent way. -/
theorem congr (h : p.Holds P) (hPQ : ∀ k n, P k n ↔ Q k n) : p.Holds Q := Rows.congr h hPQ

/-- Postings are determined by the pairs they hold. -/
theorem unique (h : p.Holds P) (h' : q.Holds P) : p = q := by
  obtain ⟨hnodes, hsize⟩ := Rows.unique h h'
  cases p
  cases q
  simp_all

/-- A node that is added under a value stands under the key of that value too. -/
theorem insert (h : p.Holds P) (value : Scalar) (node : NodeId) :
    (p.insert value node).1.Holds fun k n =>
      P k n ∨ n = node ∧ IndexKey.ofScalar? value = some k := by
  unfold Postings.insert
  cases hv : IndexKey.ofScalar? value with
  | none => exact h.congr fun k n => by simp
  | some key =>
    have hpair (k : IndexKey) (n : NodeId) :
        k = key ∧ n = node ↔ n = node ∧ some key = some k := by
      rw [and_comm, Option.some.injEq, eq_comm (a := k)]
    simp only [← hpair]
    split
    · rename_i hin
      have hP : P key node := (h.mem_iff _ _).1 (Std.ExtTreeSet.contains_iff_mem.1 hin)
      refine h.congr fun k n => ⟨Or.inl, ?_⟩
      rintro (hkn | ⟨rfl, rfl⟩)
      · exact hkn
      · exact hP
    · rename_i hnew
      exact Rows.insert h fun hP =>
        hnew (Std.ExtTreeSet.contains_iff_mem.2 ((h.mem_iff _ _).2 hP))

/-- A node that is removed from a value stands under every other key as before. -/
theorem remove (h : p.Holds P) (value : Scalar) (node : NodeId) :
    (p.remove value node).1.Holds fun k n =>
      P k n ∧ ¬(n = node ∧ IndexKey.ofScalar? value = some k) := by
  unfold Postings.remove
  cases hv : IndexKey.ofScalar? value with
  | none => exact h.congr fun k n => by simp
  | some key =>
    have hpair (k : IndexKey) (n : NodeId) :
        k = key ∧ n = node ↔ n = node ∧ some key = some k := by
      rw [and_comm, Option.some.injEq, eq_comm (a := k)]
    simp only [← hpair]
    split
    · rename_i hin
      exact Rows.erase h ((h.mem_iff _ _).1 (Std.ExtTreeSet.contains_iff_mem.1 hin))
    · rename_i hout
      have hP : ¬P key node := fun hP =>
        hout (Std.ExtTreeSet.contains_iff_mem.2 ((h.mem_iff _ _).2 hP))
      refine h.congr fun k n => ⟨fun hkn => ⟨hkn, ?_⟩, And.left⟩
      rintro ⟨rfl, rfl⟩
      exact hP hkn

end Holds

end Postings

/-- The key under which a node stands in an index, if it stands there at all. -/
def Node.key? (n : Node) (name : IndexName) : Option IndexKey :=
  if n.hasLabel name.label then (n.property? name.property).bind IndexKey.ofScalar? else none

/-- The nodes of a list stand under their keys. -/
def IndexName.Holds (name : IndexName) (nodes : List Node) (key : IndexKey) (id : NodeId) : Prop :=
  ∃ n ∈ nodes, n.id = id ∧ n.key? name = some key

namespace Catalog

variable {c d : Catalog} {name : IndexName} {nodes : List Node}

/-- The registered names are those under which postings are found. -/
theorem mem_names : name ∈ c.names ↔ ∃ p, c.find? name = some p := by
  rw [names, ← Assoc.get?_isSome_iff, Option.isSome_iff_exists]
  rfl

/-- A name is registered if it is one of the names. -/
theorem has_iff : c.has name = true ↔ name ∈ c.names := by
  rw [mem_names, has, Option.isSome_iff_exists]

@[simp] theorem find?_empty (name : IndexName) : empty.find? name = none := rfl

@[simp] theorem names_empty : empty.names = [] := rfl

theorem find?_update (c : Catalog) (n : IndexName) (f : Postings → Postings) (name : IndexName) :
    (c.update n f).find? name = if n = name then (c.find? name).map f else c.find? name := by
  unfold update
  cases h : c.find? n with
  | none =>
    by_cases hn : n = name
    · subst hn
      simp [h]
    · simp [hn]
  | some p =>
    simp only [find?, Assoc.get?_set]
    split
    · rename_i hn
      have h' : c.indices.get? name = some p := hn ▸ h
      simp [h']
    · rfl

@[simp] theorem names_update (c : Catalog) (n : IndexName) (f : Postings → Postings) :
    (c.update n f).names = c.names := by
  unfold update
  cases h : c.find? n with
  | none => rfl
  | some p => exact Assoc.keys_set _ _ (mem_names.2 ⟨p, h⟩)

/-- A change made under each of some labels reaches the indices on these labels. -/
theorem find?_foldl {step : Catalog → LabelId → Catalog} {key : PropertyId}
    {f : Postings → Postings}
    (hstep : ∀ c l name, (step c l).find? name =
      if ⟨l, key⟩ = name then (c.find? name).map f else c.find? name)
    {labels : List LabelId} (hlabels : labels.Nodup) (c : Catalog) (name : IndexName) :
    (labels.foldl step c).find? name =
      if name.label ∈ labels ∧ name.property = key then (c.find? name).map f
      else c.find? name := by
  induction labels generalizing c with
  | nil => simp
  | cons l rest ih =>
    obtain ⟨hl, hrest⟩ := List.nodup_cons.1 hlabels
    obtain ⟨label, property⟩ := name
    rw [List.foldl_cons, ih hrest, hstep]
    simp only [IndexName.mk.injEq, List.mem_cons]
    by_cases hp : property = key
    · by_cases hll : l = label
      · subst hll
        simp [hl, hp]
      · have hll' : ¬label = l := fun e => hll e.symm
        simp [hll, hll', hp]
    · have hp' : ¬key = property := fun e => hp e.symm
      simp [hp, hp']

private theorem find?_foldl_properties (f : Scalar → Postings → Postings) {labels : List LabelId}
    (hlabels : labels.Nodup) {pairs : Assoc PropertyId Scalar} (hpairs : pairs.keys.Nodup)
    (c : Catalog) (name : IndexName) :
    (pairs.foldl (fun c (key, value) =>
      labels.foldl (fun c label => c.update ⟨label, key⟩ (f value)) c) c).find? name =
      (c.find? name).map fun p =>
        if name.label ∈ labels then (pairs.get? name.property).elim p (f · p) else p := by
  induction pairs generalizing c with
  | nil =>
    simp only [List.foldl_nil, Assoc.get?, Option.elim_none, ite_self, Option.map_id']
  | cons pair rest ih =>
    obtain ⟨key, value⟩ := pair
    obtain ⟨hkey, hrest⟩ := List.nodup_cons.1 hpairs
    rw [List.foldl_cons, ih hrest, find?_foldl (fun c l name => find?_update c _ _ name) hlabels]
    by_cases hl : name.label ∈ labels
    · by_cases hp : name.property = key
      · have hnone : Assoc.get? rest key = none := by
          rw [← Option.not_isSome_iff_eq_none, Assoc.get?_isSome_iff]
          exact hkey
        cases c.find? name <;> simp [hl, hp, hnone, Assoc.get?]
      · have hp' : ¬key = name.property := fun e => hp e.symm
        simp [hl, hp, hp', Assoc.get?]
    · simp [hl]

private theorem nodup_toList (labels : Std.ExtTreeSet LabelId) : labels.toList.Nodup :=
  labels.distinct_toList.imp fun h e => h (by simp [e])

private theorem nodup_keys (properties : PropertyMap) : (Assoc.keys properties.toList).Nodup := by
  rw [Assoc.keys, List.Nodup, List.pairwise_map]
  exact properties.distinct_keys_toList.imp fun h e => h (by simp [e])

private theorem get?_toList (properties : PropertyMap) (key : PropertyId) :
    Assoc.get? properties.toList key = properties[key]? :=
  Option.ext fun value => by
    rw [Assoc.get?_eq_some_iff (nodup_keys properties),
      Std.ExtTreeMap.mem_toList_iff_getElem?_eq_some]

private theorem find?_event (f : Scalar → Postings → Postings) (n : Node) (c : Catalog)
    (name : IndexName) :
    (n.properties.toList.foldl (fun c (key, value) =>
      n.labels.toList.foldl (fun c label => c.update ⟨label, key⟩ (f value)) c) c).find? name =
      (c.find? name).map fun p =>
        if n.hasLabel name.label then (n.property? name.property).elim p (f · p) else p := by
  rw [find?_foldl_properties f (nodup_toList _) (nodup_keys _), get?_toList]
  simp only [Node.hasLabel, Node.property?, Std.ExtTreeSet.mem_toList,
    Std.ExtTreeSet.contains_iff_mem]

@[simp] theorem names_apply (c : Catalog) (event : NodeEvent) :
    (c.apply event).names = c.names := by
  have hfold {α : Type} {step : Catalog → α → Catalog}
      (hstep : ∀ c a, (step c a).names = c.names) (l : List α) (c : Catalog) :
      (l.foldl step c).names = c.names := by
    induction l generalizing c with
    | nil => rfl
    | cons a rest ih => rw [List.foldl_cons, ih, hstep]
  cases event with
  | created id labels properties =>
    exact hfold (fun c pair => hfold (fun c l => names_update c _ _) _ _) _ _
  | deleted id labels properties =>
    exact hfold (fun c pair => hfold (fun c l => names_update c _ _) _ _) _ _
  | changed id labels key old new =>
    apply hfold
    intro c l
    cases old <;> cases new <;> simp [post, unpost]

/-- Creating an index registers its name last, unless it is there already. -/
theorem names_create (c : Catalog) (name : IndexName) (nodes : List Node) :
    (c.create name nodes).1.names = if name ∈ c.names then c.names else c.names ++ [name] := by
  unfold create
  simp only [has_iff]
  split
  · rfl
  · simp [names, Assoc.keys]

/-- Dropping an index takes its name off the list. -/
theorem names_drop (c : Catalog) (name : IndexName) :
    (c.drop name).1.names = c.names.erase name := by
  unfold drop
  split
  · exact Assoc.keys_erase _ _
  · rename_i h
    rw [has_iff] at h
    exact (List.erase_of_not_mem h).symm

/-- No index is defined twice, and each one holds the nodes of its label under their keys. -/
structure Follows (c : Catalog) (nodes : List Node) : Prop where
  names_nodup : c.names.Nodup
  holds (name : IndexName) (p : Postings) : c.find? name = some p → p.Holds (name.Holds nodes)

/-- A catalog without indices follows any nodes. -/
theorem follows_empty (nodes : List Node) : empty.Follows nodes :=
  ⟨List.nodup_nil, fun name p h => by simp at h⟩

/-- The indices are determined by their definitions and the nodes. -/
theorem Follows.unique (h : c.Follows nodes) (h' : d.Follows nodes) (hnames : c.names = d.names) :
    c = d := by
  have hfind (name : IndexName) : c.find? name = d.find? name := by
    by_cases hname : name ∈ c.names
    · obtain ⟨p, hp⟩ := mem_names.1 hname
      obtain ⟨q, hq⟩ := mem_names.1 (hnames ▸ hname)
      rw [hp, hq, (h.holds name p hp).unique (h'.holds name q hq)]
    · have hnone {e : Catalog} (he : name ∉ e.names) : e.find? name = none := by
        rw [← Option.not_isSome_iff_eq_none]
        exact fun hs => he (mem_names.2 (Option.isSome_iff_exists.1 hs))
      rw [hnone hname, hnone (hnames ▸ hname)]
  obtain ⟨cs⟩ := c
  obtain ⟨ds⟩ := d
  congr 1
  apply List.ext_getElem
  · simpa [names, Assoc.keys] using congrArg List.length hnames
  · intro i hi hi'
    have hkey : (cs[i]).1 = (ds[i]).1 := by
      have hget := congrArg (·[i]?) hnames
      simpa [names, Assoc.keys, hi, hi'] using hget
    have hc := (Assoc.get?_eq_some_iff h.names_nodup).2 (List.getElem_mem hi)
    have hd := (Assoc.get?_eq_some_iff h'.names_nodup).2 (List.getElem_mem hi')
    have hvalue := (hfind (cs[i]).1).symm.trans hc
    exact Prod.ext hkey (Option.some.inj (((hkey ▸ hd).symm.trans hvalue).symm))

end Catalog

namespace IndexName

variable {name : IndexName} {nodes more : List Node} {n : Node} {key : IndexKey} {id : NodeId}

/-- What belongs into an index depends on which nodes there are, not on their order. -/
theorem holds_congr (h : ∀ n, n ∈ nodes ↔ n ∈ more) :
    name.Holds nodes key id ↔ name.Holds more key id := by
  simp only [Holds, h]

/-- A new node adds itself to an index that has a key for it. -/
theorem holds_append :
    name.Holds (nodes ++ [n]) key id ↔
      name.Holds nodes key id ∨ id = n.id ∧ n.key? name = some key := by
  simp only [Holds, List.mem_append, List.mem_singleton, or_and_right, exists_or, exists_eq_left]
  rw [eq_comm (a := id)]

/-- Taking a node away takes what it had in the index. -/
theorem holds_filter (hnodes : (nodes.map (·.id)).Nodup) (hn : n ∈ nodes) :
    name.Holds (nodes.filter fun x => x.id ≠ n.id) key id ↔
      name.Holds nodes key id ∧ ¬(id = n.id ∧ n.key? name = some key) := by
  simp only [Holds, List.mem_filter, decide_eq_true_eq]
  constructor
  · rintro ⟨x, ⟨hx, hne⟩, rfl, hkey⟩
    exact ⟨⟨x, hx, rfl, hkey⟩, fun h => hne h.1⟩
  · rintro ⟨⟨x, hx, rfl, hkey⟩, hnot⟩
    refine ⟨x, ⟨hx, fun hid => hnot ⟨hid, ?_⟩⟩, rfl, hkey⟩
    rw [← List.inj_on_of_nodup_map hnodes hx hn hid]
    exact hkey

private theorem mem_replace {n' : Node} (hn : n ∈ nodes) (x : Node) :
    x ∈ (nodes.filter fun x => x.id ≠ n.id) ++ [n'] ↔
      x ∈ nodes.map fun x => if x.id = n.id then n' else x := by
  simp only [List.mem_append, List.mem_filter, List.mem_singleton, List.mem_map,
    decide_eq_true_eq]
  constructor
  · rintro (⟨hx, hne⟩ | rfl)
    · exact ⟨x, hx, by simp [hne]⟩
    · exact ⟨n, hn, by simp⟩
  · rintro ⟨y, hy, rfl⟩
    by_cases hy' : y.id = n.id
    · simp [hy']
    · simp [hy', hy]

/-- A node that is written again has what its new record gives it, and the others keep theirs. -/
theorem holds_replace {n' : Node} (hnodes : (nodes.map (·.id)).Nodup) (hn : n ∈ nodes)
    (hid : n'.id = n.id) :
    name.Holds (nodes.map fun x => if x.id = n.id then n' else x) key id ↔
      (name.Holds nodes key id ∧ ¬(id = n.id ∧ n.key? name = some key)) ∨
        id = n.id ∧ n'.key? name = some key := by
  rw [← holds_filter hnodes hn, ← holds_congr (mem_replace hn), holds_append, hid]

end IndexName

namespace Catalog.Follows

variable {c : Catalog} {nodes more : List Node} {n n' : Node} {key : PropertyId}

/-- A catalog that follows some nodes follows the same ones in any order. -/
theorem congr (h : c.Follows nodes) (hmem : ∀ n, n ∈ nodes ↔ n ∈ more) : c.Follows more :=
  ⟨h.names_nodup, fun name p hp => (h.holds name p hp).congr fun _ _ => IndexName.holds_congr hmem⟩

/-- The indices follow the creation of a node. -/
theorem created (h : c.Follows nodes) (n : Node) :
    (c.apply (.created n.id n.labels.toList n.properties)).Follows (nodes ++ [n]) where
  names_nodup := by simpa using h.names_nodup
  holds name q hq := by
    have hevent := find?_event (fun value p => (p.insert value n.id).1) n c name
    obtain ⟨p, hp, rfl⟩ := Option.map_eq_some_iff.1 (hevent.symm.trans hq)
    refine Postings.Holds.congr (P := fun k id =>
      name.Holds nodes k id ∨ id = n.id ∧ n.key? name = some k) ?_ fun _ _ =>
        IndexName.holds_append.symm
    have hold := h.holds name p hp
    by_cases hl : n.hasLabel name.label
    · cases hv : n.property? name.property with
      | none => simpa [hl, Node.key?, hv] using hold
      | some value => simpa [hl, Node.key?, hv] using hold.insert value n.id
    · simpa [hl, Node.key?] using hold

/-- The indices follow the deletion of a node. -/
theorem deleted (h : c.Follows nodes) (hnodes : (nodes.map (·.id)).Nodup) (hn : n ∈ nodes) :
    (c.apply (.deleted n.id n.labels.toList n.properties)).Follows
      (nodes.filter fun x => x.id ≠ n.id) where
  names_nodup := by simpa using h.names_nodup
  holds name q hq := by
    have hevent := find?_event (fun value p => (p.remove value n.id).1) n c name
    obtain ⟨p, hp, rfl⟩ := Option.map_eq_some_iff.1 (hevent.symm.trans hq)
    refine Postings.Holds.congr (P := fun k id =>
      name.Holds nodes k id ∧ ¬(id = n.id ∧ n.key? name = some k)) ?_ fun _ _ =>
        (IndexName.holds_filter hnodes hn).symm
    have hold := h.holds name p hp
    by_cases hl : n.hasLabel name.label
    · cases hv : n.property? name.property with
      | none => simpa [hl, Node.key?, hv] using hold
      | some value => simpa [hl, Node.key?, hv] using hold.remove value n.id
    · simpa [hl, Node.key?] using hold

private theorem find?_changed (c : Catalog) (n : Node) (key : PropertyId) (old new : Option Scalar)
    (name : IndexName) :
    (c.apply (.changed n.id n.labels.toList key old new)).find? name =
      if n.hasLabel name.label ∧ name.property = key then
        (c.find? name).map fun p =>
          let p := old.elim p fun value => (p.remove value n.id).1
          new.elim p fun value => (p.insert value n.id).1
      else c.find? name := by
  have hmem : n.hasLabel name.label = true ↔ name.label ∈ n.labels.toList := by
    rw [Node.hasLabel, Std.ExtTreeSet.mem_toList, Std.ExtTreeSet.contains_iff_mem]
  simp only [hmem]
  refine find?_foldl (fun c l name => ?_) (nodup_toList _) c name
  cases old <;> cases new <;> simp only [post, unpost, find?_update] <;> split <;>
    simp [Function.comp_def]

/-- The indices follow the change of one property of a node. -/
theorem changed (h : c.Follows nodes) (hnodes : (nodes.map (·.id)).Nodup) (hn : n ∈ nodes)
    (hid : n'.id = n.id) (hlabels : n'.labels = n.labels)
    (hother : ∀ k, k ≠ key → n'.property? k = n.property? k) :
    (c.apply (.changed n.id n.labels.toList key (n.property? key) (n'.property? key))).Follows
      (nodes.map fun x => if x.id = n.id then n' else x) where
  names_nodup := by simpa using h.names_nodup
  holds name q hq := by
    suffices hsuff : q.Holds fun k id =>
        (name.Holds nodes k id ∧ ¬(id = n.id ∧ n.key? name = some k)) ∨
          id = n.id ∧ n'.key? name = some k from
      hsuff.congr fun k id => (IndexName.holds_replace hnodes hn hid).symm
    rw [find?_changed] at hq
    have hlabel : n'.hasLabel name.label = n.hasLabel name.label := by
      simp only [Node.hasLabel, hlabels]
    split at hq
    · rename_i hname
      obtain ⟨hl, rfl⟩ := hname
      obtain ⟨p, hp, rfl⟩ := Option.map_eq_some_iff.1 hq
      have hold := h.holds name p hp
      have hkey (m : Node) (hm : m.hasLabel name.label) (k : IndexKey) :
          m.key? name = some k ↔ (m.property? name.property).bind IndexKey.ofScalar? = some k := by
        simp [Node.key?, hm]
      simp only [hkey n hl, hkey n' (hlabel.trans hl)]
      have hremoved : Postings.Holds
          ((n.property? name.property).elim p fun value => (p.remove value n.id).1) fun k id =>
            name.Holds nodes k id ∧
              ¬(id = n.id ∧ (n.property? name.property).bind IndexKey.ofScalar? = some k) := by
        cases n.property? name.property with
        | none => exact hold.congr fun k id => by simp
        | some value => exact hold.remove value n.id
      cases n'.property? name.property with
      | none => exact hremoved.congr fun k id => by simp
      | some value => exact hremoved.insert value n.id
    · rename_i hname
      have hkey : n'.key? name = n.key? name := by
        by_cases hl : n.hasLabel name.label
        · have hne : name.property ≠ key := fun e => hname ⟨hl, e⟩
          simp [Node.key?, hlabel, hother _ hne]
        · simp [Node.key?, hlabel, hl]
      rw [hkey]
      apply (h.holds name q hq).congr
      intro k id
      constructor
      · intro hk
        by_cases hnk : id = n.id ∧ n.key? name = some k
        · exact Or.inr hnk
        · exact Or.inl ⟨hk, hnk⟩
      · rintro (hk | ⟨rfl, hk⟩)
        · exact hk.1
        · exact ⟨n, hn, rfl, hk⟩

private theorem holds_postingsOf (name : IndexName) (nodes : List Node) :
    (postingsOf name nodes).Holds (name.Holds nodes) := by
  induction nodes using List.reverseRecOn with
  | nil => exact Postings.Holds.empty.congr fun k id => by simp [IndexName.Holds]
  | append_singleton nodes n ih =>
    have hlast : postingsOf name (nodes ++ [n]) =
        if n.hasLabel name.label then (n.property? name.property).elim (postingsOf name nodes)
          fun value => ((postingsOf name nodes).insert value n.id).1
        else postingsOf name nodes := by
      simp only [postingsOf, List.foldl_append, List.foldl_cons, List.foldl_nil]
      cases n.property? name.property <;> rfl
    rw [hlast]
    refine Postings.Holds.congr (P := fun k id =>
      name.Holds nodes k id ∨ id = n.id ∧ n.key? name = some k) ?_ fun _ _ =>
        IndexName.holds_append.symm
    by_cases hl : n.hasLabel name.label
    · cases hv : n.property? name.property with
      | none => simpa [hl, hv, Node.key?] using ih
      | some value => simpa [hl, hv, Node.key?] using ih.insert value n.id
    · simpa [hl, Node.key?] using ih

/-- A new index that is built over the nodes with its label agrees with the others. -/
theorem create (h : c.Follows nodes) (name : IndexName)
    (hmore : ∀ n, n ∈ more ↔ n ∈ nodes ∧ n.hasLabel name.label) :
    (c.create name more).1.Follows nodes := by
  by_cases hname : name ∈ c.names
  · simpa [Catalog.create, has_iff.2 hname] using h
  · have hnot : ¬c.has name = true := fun hh => hname (has_iff.1 hh)
    constructor
    · rw [names_create, if_neg hname, List.nodup_append]
      exact ⟨h.names_nodup, List.nodup_singleton _, by rintro _ ha _ hb rfl; simp_all⟩
    · intro other q hq
      rw [Catalog.create, if_neg hnot, find?, Assoc.get?_append] at hq
      cases hp : c.find? other with
      | some p =>
        have hp' : c.indices.get? other = some p := hp
        rw [hp', Option.some_or] at hq
        cases hq
        exact h.holds other q hp
      | none =>
        have hp' : c.indices.get? other = none := hp
        simp only [hp', Option.none_or, Assoc.get?] at hq
        split at hq
        · rename_i hother
          subst hother
          cases hq
          apply (holds_postingsOf name more).congr
          intro k id
          simp only [IndexName.Holds, hmore]
          constructor
          · rintro ⟨n, hn, hid, hk⟩
            exact ⟨n, hn.1, hid, hk⟩
          · rintro ⟨n, hn, hid, hk⟩
            refine ⟨n, ⟨hn, ?_⟩, hid, hk⟩
            unfold Node.key? at hk
            split at hk
            · assumption
            · cases hk
        · cases hq

/-- Dropping an index leaves the others alone. -/
theorem drop (h : c.Follows nodes) (name : IndexName) : (c.drop name).1.Follows nodes where
  names_nodup := by
    rw [names_drop]
    exact h.names_nodup.erase _
  holds other p hp := by
    have hother : other ∈ (c.drop name).1.names := mem_names.2 ⟨p, hp⟩
    rw [names_drop, h.names_nodup.mem_erase_iff] at hother
    refine h.holds other p ?_
    unfold Catalog.drop at hp
    split at hp
    · rw [find?, Assoc.get?_erase_of_ne _ (Ne.symm hother.1)] at hp
      exact hp
    · exact hp

end Catalog.Follows

end Plexus
