import Plexus.Proofs.Operator.Matching
import Plexus.Proofs.Plan.Demand
import Plexus.Proofs.Plan.Return

/-!
# Steps of a walk

The traversal for a step lists the extensions of its input's valuations by what the step finds. A
variable that is bound already is not bound anew but tested, and the variable for an edge is always
new.
-/

namespace Plexus

namespace Expansion

variable {e : Expansion} {r : Row} {names : List String} {found : Option EdgeId × NodeId}

private theorem get?_extend_target (hedge : ∀ y, e.edge = some y → y ∉ names ∧ y ≠ e.target) :
    (e.extend r found).get? e.target = some (.node found.2) := by
  unfold extend
  split
  · rename_i y id hy hid
    rw [Row.get?_bind, if_neg (hedge y hy).2, Row.get?_bind, if_pos rfl]
  · rw [Row.get?_bind, if_pos rfl]

private theorem get?_extend_edge {y : String} (hy : e.edge = some y)
    (hfound : found.1.isSome = e.edge.isSome) :
    (e.extend r found).get? y = found.1.map .edge := by
  obtain ⟨id?, b⟩ := found
  cases id? with
  | none => rw [hy] at hfound; cases hfound
  | some id => simp [extend, hy, Row.get?_bind]

private theorem get?_extend_of_ne {x : String} (hx : x ≠ e.target) (hy : e.edge ≠ some x) :
    (e.extend r found).get? x = r.get? x := by
  unfold extend
  split
  · rename_i y id heq hid
    have hne : y ≠ x := fun he => hy (he ▸ heq)
    rw [Row.get?_bind, if_neg hne, Row.get?_bind, if_neg (Ne.symm hx)]
  · rw [Row.get?_bind, if_neg (Ne.symm hx)]

private theorem get?_extend_of_mem (hbinds : Valuation.Binds r.get? names)
    (hedge : ∀ y, e.edge = some y → y ∉ names ∧ y ≠ e.target)
    (hagrees : r.agrees e.target found.2 = true) {x : String} (hx : x ∈ names) :
    (e.extend r found).get? x = r.get? x := by
  by_cases hxt : x = e.target
  · obtain ⟨v, hv⟩ := Option.isSome_iff_exists.1 ((hbinds x).2 hx)
    have hnode : v.node? = some found.2 := by
      rw [hxt] at hv
      simpa [Row.agrees, hv] using hagrees
    have hvalue : v = .node found.2 := by
      cases v <;> simp_all [Value.node?]
    rw [hv, hvalue, hxt]
    exact get?_extend_target hedge
  · exact get?_extend_of_ne hxt fun hy => (hedge x hy).1 hx

private theorem proper_extend (hr : r.Proper) : (e.extend r found).Proper := by
  unfold extend
  split
  · exact (hr.bind _ _).bind _ _
  · exact hr.bind _ _

private theorem binds_extend (hbinds : Valuation.Binds r.get? names)
    (hedge : ∀ y, e.edge = some y → y ∉ names ∧ y ≠ e.target)
    (hagrees : r.agrees e.target found.2 = true) (hfound : found.1.isSome = e.edge.isSome) :
    Valuation.Binds (e.extend r found).get? (names ++ e.target :: e.edge.toList) := by
  intro x
  rw [List.mem_append, List.mem_cons, Option.mem_toList]
  by_cases hx : x ∈ names
  · rw [get?_extend_of_mem hbinds hedge hagrees hx, hbinds x]
    simp [hx]
  · by_cases hxt : x = e.target
    · rw [hxt, get?_extend_target hedge]
      simp
    · by_cases hy : e.edge = some x
      · rw [get?_extend_edge hy hfound, Option.isSome_map, hfound, hy]
        simp
      · rw [get?_extend_of_ne hxt hy, hbinds x]
        simp [hx, hxt, hy]

private theorem found_ext {f f' : Option EdgeId × NodeId} (hnode : f.2 = f'.2)
    (hedge : ∀ y, e.edge = some y → f.1.map Value.edge = f'.1.map Value.edge)
    (hf : f.1.isSome = e.edge.isSome) (hf' : f'.1.isSome = e.edge.isSome) : f = f' := by
  obtain ⟨x, b⟩ := f
  obtain ⟨x', b'⟩ := f'
  refine Prod.ext ?_ hnode
  cases he : e.edge with
  | none =>
    rw [he, Option.isSome_none, Option.isSome_eq_false_iff, Option.isNone_iff_eq_none] at hf hf'
    exact hf.trans hf'.symm
  | some y =>
    have hmap := hedge y he
    cases x <;> cases x' <;> simp_all

private theorem agrees_of_same {ν : Valuation} (hbinds : Valuation.Binds r.get? names)
    (hsame : ∀ x ∈ names, ν x = r.get? x) {name : String} {b : NodeId}
    (hb : ν name = some (.node b)) : r.agrees name b = true := by
  unfold Row.agrees
  cases hv : r.get? name with
  | none => rfl
  | some v =>
    have hmem : name ∈ names := by rw [← hbinds name, hv]; rfl
    have hvalue := (hsame name hmem).symm.trans hb
    rw [hv, Option.some.injEq] at hvalue
    simp [hvalue, Value.node?]

/-- The rows that one row is extended to stand for its extensions by what was found. -/
theorem lists_extend (hr : r.Proper) (hbinds : Valuation.Binds r.get? names)
    (hedge : ∀ y, e.edge = some y → y ∉ names ∧ y ≠ e.target)
    {l : List (Option EdgeId × NodeId)} (hl : l.Nodup)
    (hfound : ∀ f ∈ l, f.1.isSome = e.edge.isSome) (accepts : NodeId → Bool) {out : List Row}
    (hout : out = (l.filter fun f => accepts f.2 && r.agrees e.target f.2).map (e.extend r)) :
    Lists out (names ++ e.target :: e.edge.toList) fun ν => (∀ x ∈ names, ν x = r.get? x) ∧
      ∃ f ∈ l, accepts f.2 = true ∧ ν e.target = some (.node f.2) ∧
        ∀ y, e.edge = some y → ν y = f.1.map .edge := by
  subst hout
  refine ⟨fun s hs => ?_, ?_, fun ν => ?_⟩
  · obtain ⟨f, -, rfl⟩ := List.mem_map.1 hs
    exact proper_extend hr
  · rw [List.map_map, List.Nodup, List.pairwise_map]
    refine (hl.filter _).imp_of_mem fun {f f'} hf hf' hne heq => hne ?_
    have hf := hfound f (List.mem_filter.1 hf).1
    have hf' := hfound f' (List.mem_filter.1 hf').1
    have hsame (x : String) : (e.extend r f).get? x = (e.extend r f').get? x := congrFun heq x
    have hnode := hsame e.target
    rw [get?_extend_target hedge, get?_extend_target hedge] at hnode
    refine found_ext (by simpa using hnode) (fun y hy => ?_) hf hf'
    rw [← get?_extend_edge hy hf, ← get?_extend_edge hy hf', hsame]
  · rw [List.map_map, List.mem_map]
    constructor
    · rintro ⟨f, hf, rfl⟩
      rw [List.mem_filter, Bool.and_eq_true] at hf
      obtain ⟨hf, haccepts, hagrees⟩ := hf
      exact ⟨binds_extend hbinds hedge hagrees (hfound f hf),
        fun x hx => get?_extend_of_mem hbinds hedge hagrees hx, f, hf, haccepts,
        get?_extend_target hedge, fun y hy => get?_extend_edge hy (hfound f hf)⟩
    · rintro ⟨hν, hsame, f, hf, haccepts, htarget, hname⟩
      have hagrees := agrees_of_same hbinds hsame htarget
      have hmem : f ∈ l.filter fun f => accepts f.2 && r.agrees e.target f.2 := by
        rw [List.mem_filter, haccepts, hagrees]
        exact ⟨hf, rfl⟩
      refine ⟨f, hmem, (binds_extend hbinds hedge hagrees (hfound f hf)).ext hν fun x hx => ?_⟩
      rcases List.mem_append.1 hx with hx | hx
      · rw [get?_extend_of_mem hbinds hedge hagrees hx, hsame x hx]
      · rcases List.mem_cons.1 hx with rfl | hy
        · rw [get?_extend_target hedge, htarget]
        · rw [Option.mem_toList] at hy
          rw [get?_extend_edge hy (hfound f hf), hname x hy]

end Expansion

namespace EdgePattern

variable {g : Graph} {e : EdgePattern} {dir : Direction} {a b : NodeId}

/-- A descriptor connects two nodes along the live edges of its types. -/
theorem connects_iff (hg : g.Sound) {id : EdgeId} : e.Connects g dir a b id ↔
    ∃ x ∈ g.edges.records, (Draft.typeFilter g.schema e.types).allows x.relationType = true ∧
      x.Leads dir a b ∧ x.id = id := by
  simp only [Connects, hg.edge?_iff, Draft.allows_typeFilter]
  constructor
  · rintro ⟨x, ⟨hx, hid⟩, hallows, hleads⟩
    exact ⟨x, hx, hallows, hleads, hid⟩
  · rintro ⟨x, hx, hallows, hleads, hid⟩
    exact ⟨x, ⟨hx, hid⟩, hallows, hleads⟩

private theorem linked_iff (hg : g.Sound) : (∃ id, e.Connects g dir a b id) ↔
    g.Linked (Draft.typeFilter g.schema e.types) dir a b := by
  simp only [connects_iff hg, Graph.Linked]
  constructor
  · rintro ⟨id, x, hx, hallows, hleads, -⟩
    exact ⟨x, hx, hallows, hleads⟩
  · rintro ⟨x, hx, hallows, hleads⟩
    exact ⟨x.id, x, hx, hallows, hleads, rfl⟩

/-- An edge leads to a live node. -/
theorem Connects.live (hg : g.Sound) {id : EdgeId} (h : e.Connects g dir a b id) :
    g.hasNode b = true := by
  obtain ⟨x, hx, -, hleads, -⟩ := (connects_iff hg).1 h
  exact hg.hasNode_of_leads hx hleads

/-- A walk from a live node leads to a live node. -/
theorem Reaches.live (hg : g.Sound) (h : e.Reaches g dir a b) (ha : g.hasNode a = true) :
    g.hasNode b = true := by
  obtain ⟨k, -, -, hwalk⟩ := h
  cases hwalk with
  | refl => exact ha
  | snoc _ hstep =>
    obtain ⟨id, hconnects⟩ := hstep
    exact hconnects.live hg

end EdgePattern

namespace Draft

variable {g : Graph} {s : WalkStep} {op : Operator} {names : List String} {C : Valuation → Prop}

/-- The traversal for a step by one hop. -/
private def hop (g : Graph) (s : WalkStep) : Expansion :=
  ⟨s.source.name, s.target.name, s.edge.name, typeFilter g.schema s.edge.pattern.types,
    s.direction, labelTest g.schema s.target.pattern.labels, s.text⟩

/-- The traversal for a step by an interval of hops. -/
private def hops (g : Graph) (s : WalkStep) : Reach :=
  ⟨s.source.name, s.target.name,
    ⟨typeFilter g.schema s.edge.pattern.types, s.direction, s.edge.pattern.hops⟩,
    labelTest g.schema s.target.pattern.labels, g.settings.batchSize, s.text⟩

private theorem found_of_hop (hg : g.Sound) (hsingle : s.edge.pattern.isSingle = true)
    {ν : Valuation} {a : NodeId} (ha : ν s.source.name = some (.node a)) :
    (∃ f ∈ (hop g s).ends g a, (hop g s).labels.accepts g f.2 = true ∧
      ν s.target.name = some (.node f.2) ∧
        ∀ y, s.edge.name = some y → ν y = f.1.map .edge) ↔ s.Found g ν := by
  simp only [Expansion.mem_ends hg, WalkStep.Found, if_pos hsingle]
  constructor
  · rintro ⟨f, ⟨x, hx, hallows, hleads, hfound⟩, haccepts, htarget, hname⟩
    have hconnects : s.edge.pattern.Connects g s.direction a f.2 x.id :=
      (EdgePattern.connects_iff hg).2 ⟨x, hx, hallows, hleads, rfl⟩
    have hend := hconnects.live hg
    refine ⟨a, f.2, ha, htarget, hend, (accepts_labelTest hend).1 haccepts, x.id, hconnects,
      fun y hy => ?_⟩
    have hsome : (hop g s).edge.isSome = true := by rw [hop, hy]; rfl
    rw [hname y hy, hfound, if_pos hsome]
    rfl
  · rintro ⟨a', b, ha', hb, hend, hlabels, id, hconnects, hname⟩
    rw [ha, Option.some.injEq, Value.node.injEq] at ha'
    subst ha'
    obtain ⟨x, hx, hallows, hleads, rfl⟩ := (EdgePattern.connects_iff hg).1 hconnects
    refine ⟨(if (hop g s).edge.isSome = true then some x.id else none, b),
      ⟨x, hx, hallows, hleads, rfl⟩, (accepts_labelTest hend).2 hlabels, hb, fun y hy => ?_⟩
    have hsome : (hop g s).edge.isSome = true := by rw [hop, hy]; rfl
    rw [hname y hy, if_pos hsome]
    rfl

private theorem found_of_hops (hg : g.Sound) (hsingle : s.edge.pattern.isSingle = false)
    {ν : Valuation} {a : NodeId} (ha : ν s.source.name = some (.node a))
    (hlive : g.hasNode a = true) :
    (∃ b, (hops g s).From g a b ∧ (hops g s).labels.accepts g b = true ∧
      ν s.target.name = some (.node b)) ↔ s.Found g ν := by
  have hne : ¬s.edge.pattern.isSingle = true := by rw [hsingle]; exact Bool.false_ne_true
  have hreach (b : NodeId) : (hops g s).From g a b ↔
      s.edge.pattern.Reaches g s.direction a b := by
    simp only [Reach.From, hops, hlive, true_and, EdgePattern.Reaches, EdgePattern.linked_iff hg]
  simp only [hreach, WalkStep.Found, if_neg hne]
  constructor
  · rintro ⟨b, hreaches, haccepts, hb⟩
    have hend := hreaches.live hg hlive
    exact ⟨a, b, ha, hb, hend, (accepts_labelTest hend).1 haccepts, hreaches⟩
  · rintro ⟨a', b, ha', hb, hend, hlabels, hreaches⟩
    rw [ha, Option.some.injEq, Value.node.injEq] at ha'
    subst ha'
    exact ⟨b, hreaches, (accepts_labelTest hend).2 hlabels, hb⟩

/-- The rows that one row is extended to by a step of one hop. -/
theorem lists_hop (hg : g.Sound) (hsingle : s.edge.pattern.isSingle = true)
    (hsource : s.source.name ∈ names)
    (hedge : ∀ y, s.edge.name = some y → y ∉ names ∧ y ≠ s.target.name)
    {r : Row} (hr : r.Proper) (hbinds : Valuation.Binds r.get? names) {a : NodeId}
    (ha : r.get? s.source.name = some (.node a)) {out : List Row}
    (hout : (hop g s).rows g r = .ok out) :
    Lists out (names ++ s.target.name :: s.edge.name.toList) fun ν =>
      (∀ x ∈ names, ν x = r.get? x) ∧ s.Found g ν := by
  have hrows : out = (((hop g s).ends g a).filter fun f => (hop g s).labels.accepts g f.2 &&
      r.agrees (hop g s).target f.2).map ((hop g s).extend r) := by
    simp only [Expansion.rows, hop, Row.startNode_of_get? ha, bind, Except.bind, pure,
      Except.pure, Except.ok.injEq] at hout
    exact hout.symm
  have hfound : ∀ f ∈ (hop g s).ends g a, f.1.isSome = (hop g s).edge.isSome := by
    intro f hf
    obtain ⟨x, -, -, -, hfound⟩ := (Expansion.mem_ends hg).1 hf
    rw [hfound]
    cases (hop g s).edge <;> rfl
  have hlists := Expansion.lists_extend hr hbinds hedge (Expansion.nodup_ends _ g a) hfound
    ((hop g s).labels.accepts g) hrows
  refine hlists.congr (fun x => Iff.rfl) fun ν _ => and_congr_right ?_
  intro hsame
  exact found_of_hop hg hsingle ((hsame _ hsource).trans ha)

/-- The rows that one row is extended to by a step of an interval of hops. -/
theorem lists_hops (hg : g.Sound) (hsingle : s.edge.pattern.isSingle = false)
    (hsource : s.source.name ∈ names) (hnone : s.edge.name = none) {r : Row} (hr : r.Proper)
    (hbinds : Valuation.Binds r.get? names) {a : NodeId}
    (ha : r.get? s.source.name = some (.node a)) (hlive : g.hasNode a = true) :
    Lists ((hops g s).rows g [(r, some a)]) (names ++ s.target.name :: s.edge.name.toList)
      fun ν => (∀ x ∈ names, ν x = r.get? x) ∧ s.Found g ν := by
  obtain ⟨ends, hends, hmem, hrows⟩ := Reach.exists_rows_eq hg (hops g s) r a
  -- rows are extended as they are by one hop without a variable for the edge
  have hrows' : (hops g s).rows g [(r, some a)] = ((ends.map fun b => (none, b)).filter fun f =>
      (hops g s).labels.accepts g f.2 && r.agrees (hop g s).target f.2).map
        ((hop g s).extend r) := by
    rw [hrows, List.filter_map, List.map_map]
    apply List.map_congr_left
    intro b _
    simp only [Function.comp, Expansion.extend, hop, hnone, hops]
  have hnodup : (ends.map fun b => ((none : Option EdgeId), b)).Nodup :=
    List.Nodup.map (fun b b' heq => congrArg Prod.snd heq) (hends.imp Id.ne_of_lt)
  have hfound : ∀ f ∈ ends.map fun b => ((none : Option EdgeId), b),
      f.1.isSome = (hop g s).edge.isSome := by
    intro f hf
    obtain ⟨b, -, rfl⟩ := List.mem_map.1 hf
    simp only [hop, hnone, Option.isSome_none]
  have hedge : ∀ y, (hop g s).edge = some y → y ∉ names ∧ y ≠ (hop g s).target := by
    intro y hy
    simp only [hop, hnone] at hy
    cases hy
  have hlists := Expansion.lists_extend hr hbinds hedge hnodup hfound
    ((hops g s).labels.accepts g) hrows'
  refine hlists.congr (fun x => Iff.rfl) fun ν _ => and_congr_right ?_
  intro hsame
  rw [← found_of_hops hg hsingle ((hsame _ hsource).trans ha) hlive]
  constructor
  · rintro ⟨f, hf, haccepts, htarget, -⟩
    obtain ⟨b, hb, rfl⟩ := List.mem_map.1 hf
    exact ⟨b, (hmem b).1 hb, haccepts, htarget⟩
  · rintro ⟨b, hfrom, haccepts, htarget⟩
    refine ⟨(none, b), List.mem_map_of_mem ((hmem b).2 hfrom), haccepts, htarget, ?_⟩
    intro y hy
    simp only [hop, hnone] at hy
    cases hy

/-- The traversal for a step lists the valuations of its input extended by what the step finds. -/
theorem lists_traverse (hg : g.Sound) (hC : DependsOn names C)
    (hsource : s.source.name ∈ names) (hnode : ∀ ν, ν.Binds names → C ν →
      ∃ a, ν s.source.name = some (.node a) ∧ g.hasNode a = true)
    (hplain : s.edge.Plain)
    (hedge : ∀ y, s.edge.name = some y → y ∉ names ∧ y ≠ s.target.name)
    (hlists : ∀ ins, op.Gives g ins → Lists ins names C) {out : List Row}
    (hout : (traverse g op s).Gives g out) :
    Lists out (names ++ s.target.name :: s.edge.name.toList) fun ν => C ν ∧ s.Found g ν := by
  have hsub : ∀ x ∈ names, x ∈ names ++ s.target.name :: s.edge.name.toList :=
    fun x hx => List.mem_append_left _ hx
  cases hsingle : s.edge.pattern.isSingle with
  | true =>
    have hop' : traverse g op s = .expand op (hop g s) := if_pos hsingle
    rw [hop'] at hout
    obtain ⟨ins, hins, hspreads⟩ := hout.of_expand
    have hlisted := hlists ins hins
    apply hlisted.spread hC hsub hspreads
    intro r hr o ho
    obtain ⟨a, ha, -⟩ := hnode _ (hlisted.binds hr) (hlisted.holds hr)
    exact lists_hop hg hsingle hsource hedge (hlisted.proper r hr) (hlisted.binds hr) ha ho
  | false =>
    have hnone : s.edge.name = none := by
      cases hname : s.edge.name with
      | none => rfl
      | some y =>
        have htrue := hplain (by rw [hname]; rfl)
        rw [hsingle] at htrue
        cases htrue
    have hop' : traverse g op s = .reach op (hops g s) :=
      if_neg (by rw [hsingle]; exact Bool.false_ne_true)
    rw [hop'] at hout
    obtain ⟨ins, hins, hspreads⟩ := hout.of_reach (Reach.rows_eq_flatMap hg (hops g s))
    have hlisted := hlists ins hins
    apply hlisted.spread hC hsub hspreads
    intro r hr o ho
    obtain ⟨a, ha, hlive⟩ := hnode _ (hlisted.binds hr) (hlisted.holds hr)
    obtain ⟨start, hstart, rfl⟩ := ho
    have hstart' : (Except.ok (some a) : Except QueryFault (Option NodeId)) = .ok start :=
      (Row.startNode_of_get? ha).symm.trans hstart
    cases hstart'
    exact lists_hops hg hsingle hsource hnone (hlisted.proper r hr) (hlisted.binds hr) ha hlive

end Draft

end Plexus
