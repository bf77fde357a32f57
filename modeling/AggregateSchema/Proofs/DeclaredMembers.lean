import AggregateSchema.Proofs.Entities
import AggregateSchema.Proofs.MemberShape
import AggregateSchema.Validation

/-! Which declarations are found again among the members of an aggregate. -/
namespace AggregateSchema

def ScalarDeclaration.shape (registry : TypeRegistry) (d : ScalarDeclaration) : MemberShape :=
  .scalar d.name (registry.resolve? d.typeName) (!d.isKey && !d.required) d.isKey d.isDisplayName

def EdgeShape.ofEdge (e : Edge Path Relation) : EdgeShape := ⟨some e.terminal, e.name, e.relation⟩

namespace Declaration

def ownedBy (owner : String) (path : Path) (m : MemberShape) : Option MemberShape :=
  if (Path.parse owner).toOption = some path then some m else none

/-- The member that a declaration adds to the aggregate at a path. -/
def relation? (path : Path) : Declaration → Option MemberShape
  | .aggregate .. => none
  | .child name owner _ _ _ => ownedBy owner path (.child name (path.child name).toOption)
  | .children name owner _ _ => ownedBy owner path (.children name (path.child name).toOption)
  | .variation name owner _ _ variants =>
    ownedBy owner path
      (.variation name (variants.map fun v => (v.tag, (path.child v.name).toOption)))
  | .reference name owner target isKey isDisplayName =>
    ownedBy owner path (.reference name (Path.parse target).toOption isKey isDisplayName)

end Declaration

namespace TypeRegistry
variable {registry : TypeRegistry}

/-- Without a problem every type name is known. -/
theorem isSome_of_aggregate {path : Path} {typeName : Option String}
    {members : List ScalarDeclaration}
    (h : (registry.aggregate path typeName members).problems = []) :
    ∀ m ∈ members, (registry.resolve? m.typeName).isSome = true := by
  intro m hm
  simp only [aggregate, List.map_eq_nil_iff, List.filter_eq_nil_iff] at h
  exact Option.isSome_iff_ne_none.2 fun hn => h m hm (by simp [hn])

theorem exists_owned? {owner : Path} {name relationName : String} {relation : Relation}
    {typeName : Option String} {members : List ScalarDeclaration}
    (h : (registry.owned owner name relationName relation typeName members).problems = []) :
    (∃ path, owner.child name = .ok path) ∧
      ∀ m ∈ members, (registry.resolve? m.typeName).isSome = true := by
  cases hc : owner.child name with
  | error p => simp [owned, hc, Resolution.problem] at h
  | ok path =>
    simp only [owned, hc, Resolution.problems_append, List.append_eq_nil_iff] at h
    exact ⟨⟨path, rfl⟩, isSome_of_aggregate h.1⟩

theorem exists_parse_of_withPath {text : String} {f : Path → Resolution}
    (h : (withPath text f).problems = []) :
    ∃ path, Path.parse text = .ok path ∧ (f path).problems = [] := by
  unfold withPath at h
  cases hp : Path.parse text with
  | error p => simp [hp, Resolution.problem] at h
  | ok path => exact ⟨path, rfl, by simpa [hp] using h⟩

/-- Without a problem a variation has variants, and all of them are owned. -/
theorem exists_owned?_of_variation {name owner : String} {isKey : Bool}
    {b : Option VariationBase} {variants : List VariantDeclaration}
    (h : (registry.resolution (.variation name owner isKey b variants)).problems = []) :
    ∃ o, Path.parse owner = .ok o ∧ variants ≠ [] ∧ ∀ v ∈ variants,
      (∃ path, o.child v.name = .ok path) ∧
        ∀ m ∈ v.members, (registry.resolve? m.typeName).isSome = true := by
  obtain ⟨o, ho, h⟩ := exists_parse_of_withPath h
  simp only [Resolution.problems_append, List.append_eq_nil_iff, variationProblems] at h
  refine ⟨o, ho, ?_, fun v hv => ?_⟩
  · rintro rfl
    simp at h
  · rw [Resolution.problems_concat, List.flatMap_eq_nil_iff] at h
    exact exists_owned? (h.2 _ (List.mem_map_of_mem hv))

theorem isSome_of_problems_eq_nil {x : Declaration}
    (h : (registry.resolution x).problems = []) {a : DeclaredAggregate} (ha : a ∈ x.aggregates) :
    ∀ m ∈ a.members, (registry.resolve? m.typeName).isSome = true := by
  cases x with
  | aggregate path typeName members =>
    obtain ⟨p, _, rfl⟩ := List.mem_map.1 ha
    obtain ⟨q, _, h⟩ := exists_parse_of_withPath h
    exact isSome_of_aggregate h
  | child name owner isKey typeName members =>
    obtain ⟨o, _, ha⟩ := List.mem_flatMap.1 ha
    obtain ⟨q, _, h⟩ := exists_parse_of_withPath h
    rw [Resolution.problems_append, List.append_eq_nil_iff] at h
    rw [(Declaration.eq_of_owned? (Option.mem_toList.1 ha)).2]
    exact (exists_owned? h.2).2
  | children name owner typeName members =>
    obtain ⟨o, _, ha⟩ := List.mem_flatMap.1 ha
    obtain ⟨q, _, h⟩ := exists_parse_of_withPath h
    rw [(Declaration.eq_of_owned? (Option.mem_toList.1 ha)).2]
    exact (exists_owned? h).2
  | variation name owner isKey b variants =>
    obtain ⟨o, _, ha⟩ := List.mem_flatMap.1 ha
    obtain ⟨v, hv, ha⟩ := List.mem_flatMap.1 ha
    obtain ⟨_, _, _, hvs⟩ := exists_owned?_of_variation h
    rw [(Declaration.eq_of_owned? (Option.mem_toList.1 ha)).2]
    exact (hvs v hv).2
  | reference => cases ha

/-- The edges to the variants of a variation. -/
theorem map_ofEdge_variants {o path : Path} {name : String} {variants : List VariantDeclaration}
    (h : ∀ v ∈ variants, ∃ p, o.child v.name = .ok p) :
    (((variants.flatMap fun v =>
        (Declaration.owned? o v.name name (.variant v.tag) v.typeName v.members).toList).filterMap
          (·.edge?)).filter (·.initial = path)).map EdgeShape.ofEdge =
      if o = path then
        variants.map fun v => ⟨(o.child v.name).toOption, name, .variant v.tag⟩
      else [] := by
  induction variants with
  | nil => simp
  | cons v vs ih =>
    obtain ⟨p, hp⟩ := h v List.mem_cons_self
    rw [List.flatMap_cons, List.filterMap_append, List.filter_append, List.map_append,
      ih fun w hw => h w (List.mem_cons_of_mem v hw)]
    by_cases he : o = path
    · subst he
      simp [Declaration.owned?, hp, EdgeShape.ofEdge, Except.toOption]
    · simp [Declaration.owned?, hp, he, Except.toOption]

/-- The edges that leave an aggregate by a declaration are those of the member that it adds. -/
theorem map_ofEdge_resolution {x : Declaration} (h : (registry.resolution x).problems = [])
    (path : Path) :
    ((registry.resolution x).edges.filter (·.initial = path)).map EdgeShape.ofEdge =
      (x.relation? path).toList.flatMap MemberShape.edges := by
  rw [(resolution_eq x).2]
  cases x with
  | aggregate text typeName members =>
    cases hp : (Path.parse text).toOption <;>
      simp [Declaration.aggregates, Declaration.reference?, Declaration.relation?, hp]
  | child name owner isKey typeName members =>
    obtain ⟨o, ho, h⟩ := exists_parse_of_withPath h
    rw [Resolution.problems_append, List.append_eq_nil_iff] at h
    obtain ⟨⟨p, hp⟩, -⟩ := exists_owned? h.2
    by_cases he : o = path
    · subst he
      simp [Declaration.aggregates, Declaration.reference?, Declaration.relation?, ho, hp,
        Declaration.owned?, Declaration.ownedBy, MemberShape.edges, EdgeShape.ofEdge,
        Except.toOption]
    · simp [Declaration.aggregates, Declaration.reference?, Declaration.relation?, ho, hp,
        Declaration.owned?, Declaration.ownedBy, he, Except.toOption]
  | children name owner typeName members =>
    obtain ⟨o, ho, h⟩ := exists_parse_of_withPath h
    obtain ⟨⟨p, hp⟩, -⟩ := exists_owned? h
    by_cases he : o = path
    · subst he
      simp [Declaration.aggregates, Declaration.reference?, Declaration.relation?, ho, hp,
        Declaration.owned?, Declaration.ownedBy, MemberShape.edges, EdgeShape.ofEdge,
        Except.toOption]
    · simp [Declaration.aggregates, Declaration.reference?, Declaration.relation?, ho, hp,
        Declaration.owned?, Declaration.ownedBy, he, Except.toOption]
  | variation name owner isKey b variants =>
    obtain ⟨o, ho, -, hvs⟩ := exists_owned?_of_variation h
    simp only [Declaration.aggregates, Declaration.reference?, Declaration.relation?, ho,
      Declaration.ownedBy, Except.toOption, Option.toList_some, List.flatMap_singleton,
      Option.toList_none, List.append_nil, Option.some.injEq]
    rw [map_ofEdge_variants fun v hv => (hvs v hv).1]
    by_cases he : o = path
    · subst he
      simp [MemberShape.edges, Except.toOption]
    · simp [he]
  | reference name owner target isKey isDisplayName =>
    obtain ⟨o, ho, h⟩ := exists_parse_of_withPath h
    cases ht : Path.parse target with
    | error p => simp [ht, Resolution.problem] at h
    | ok t =>
      by_cases he : o = path <;>
        simp [Declaration.aggregates, Declaration.reference?, Declaration.relation?, ho, ht,
          Declaration.ownedBy, MemberShape.edges, EdgeShape.ofEdge, he, Except.toOption]

end TypeRegistry

namespace Declaration
variable {registry : TypeRegistry}

theorem eq_of_ownedBy {owner : String} {path : Path} {m n : MemberShape}
    (h : ownedBy owner path m = some n) : n = m := by
  unfold ownedBy at h
  split at h
  · exact (Option.some.inj h).symm
  · cases h

theorem isRelation_of_relation? {x : Declaration} (hx : (registry.resolution x).problems = [])
    {path : Path} {m : MemberShape} (h : x.relation? path = some m) : m.IsRelation := by
  cases x with
  | aggregate => cases h
  | variation name owner isKey b variants =>
    rw [eq_of_ownedBy h]
    obtain ⟨_, _, hne, _⟩ := TypeRegistry.exists_owned?_of_variation hx
    exact fun hnil => hne (List.map_eq_nil_iff.1 hnil)
  | _ =>
    rw [eq_of_ownedBy h]
    exact trivial

end Declaration

namespace Draft

/-- The aggregates that are declared, in order. -/
def aggregates (d : Draft) : List DeclaredAggregate := d.declarations.flatMap Declaration.aggregates

/-- The scalars that are declared for the aggregate at a path. -/
def declaredScalars (d : Draft) (path : Path) : List ScalarDeclaration :=
  (d.aggregates.filter (·.path = path)).flatMap (·.members)

/-- The relations that are declared with the aggregate at a path as their owner. -/
def declaredRelations (d : Draft) (path : Path) : List MemberShape :=
  d.declarations.filterMap (Declaration.relation? path)

/-- The members that are declared for the aggregate at a path: scalars first, and then relations. -/
def declaredMembers (d : Draft) (base : TypeRegistry) (path : Path) : List MemberShape :=
  (d.declaredScalars path).map (ScalarDeclaration.shape (d.registry base)) ++
    d.declaredRelations path

variable {d : Draft} {base : TypeRegistry} {s : Schema} {a : Aggregate}

theorem problems_of_mem_declarations (h : d.resolve base = .ok s) {x : Declaration}
    (hx : x ∈ d.declarations) : ((d.registry base).resolution x).problems = [] := by
  have hp := problems_of_resolve h
  rw [resolution, Resolution.problems_concat, List.flatMap_eq_nil_iff] at hp
  exact hp _ (List.mem_map_of_mem hx)

theorem aggregates_resolution (d : Draft) (base : TypeRegistry) :
    (d.resolution base).aggregates = d.aggregates.map (d.registry base).resolved := by
  rw [resolution, Resolution.aggregates_concat, List.flatMap_map, aggregates, List.map_flatMap]
  exact List.flatMap_congr fun x _ => (TypeRegistry.resolution_eq x).1

/-- The scalars of an aggregate are all the declared ones, in order. -/
theorem map_shape_scalars (h : d.resolve base = .ok s) (ha : a ∈ s.graph.nodes) :
    a.scalars.map (fun m => (Member.scalar m).shape) =
      (d.declaredScalars a.path).map (ScalarDeclaration.shape (d.registry base)) := by
  rw [nodes_of_resolve h, aggregates_resolution] at ha
  obtain ⟨b, hb, rfl⟩ := List.mem_map.1 ha
  have hn : (d.aggregates.map (·.path)).Nodup := by
    have hn := nodup_paths_of_resolve h
    rwa [aggregates_resolution, List.map_map] at hn
  have hfilter : d.aggregates.filter (·.path = ((d.registry base).resolved b).path) = [b] :=
    filter_key_eq_singleton DeclaredAggregate.path hn hb
  rw [declaredScalars, hfilter, List.flatMap_singleton, TypeRegistry.resolved]
  obtain ⟨x, hx, hbx⟩ := List.mem_flatMap.1 hb
  have hknown := TypeRegistry.isSome_of_problems_eq_nil (problems_of_mem_declarations h hx) hbx
  rw [List.map_filterMap, ← List.filterMap_eq_map]
  apply List.filterMap_congr
  intro m hm
  obtain ⟨kind, hk⟩ := Option.isSome_iff_exists.1 (hknown m hm)
  simp [TypeRegistry.scalar?, hk, Member.shape, ScalarDeclaration.shape]

theorem map_ofEdge_filter (h : d.resolve base = .ok s) (path : Path) :
    ((d.resolution base).edges.filter (·.initial = path)).map EdgeShape.ofEdge =
      (d.declaredRelations path).flatMap MemberShape.edges := by
  rw [resolution, Resolution.edges_concat, List.flatMap_map, List.filter_flatMap, List.map_flatMap,
    declaredRelations, List.filterMap_eq_flatMap_toList, List.flatMap_assoc]
  exact List.flatMap_congr fun x hx =>
    TypeRegistry.map_ofEdge_resolution (problems_of_mem_declarations h hx) path

/-- No variation has two variants that are one aggregate. -/
theorem nodup_targets (h : d.resolve base = .ok s) {path : Path} {name : String}
    {variants : List (Int × Option Path)}
    (hm : MemberShape.variation name variants ∈ d.declaredRelations path) :
    (variants.map (·.2)).Nodup := by
  have howned : (Resolution.ownedPaths (d.resolution base).edges).Nodup :=
    (List.nodup_append.1 (nodup_roots_owned h)).2.1
  have hn : (((d.resolution base).edges.filter (·.initial = path)).filter
      (·.relation.isOwnership) |>.map (·.terminal)).Nodup :=
    howned.sublist ((List.filter_sublist.filter _).map _)
  have hs : (((d.declaredRelations path).flatMap MemberShape.edges).filter
      (·.relation.isOwnership) |>.map (·.target?)).Nodup := by
    rw [← map_ofEdge_filter h, List.filter_map, List.map_map]
    have := hn.map (f := some) fun _ _ => Option.some.inj
    rwa [List.map_map] at this
  have hsub : (MemberShape.variation name variants).edges.Sublist
      ((d.declaredRelations path).flatMap MemberShape.edges) :=
    List.sublist_flatten_of_mem (List.mem_map_of_mem hm)
  have hv := hs.sublist ((hsub.filter _).map _)
  rw [List.filter_eq_self.2] at hv
  · simpa [MemberShape.edges, Function.comp_def] using hv
  · intro e he
    obtain ⟨v, _, rfl⟩ := List.mem_map.1 he
    rfl

/-- Where names are distinct, so are edges. -/
theorem nodup_identity (h : d.resolve base = .ok s) {path : Path}
    (hn : ((d.declaredRelations path).map MemberShape.name).Nodup) :
    (((d.resolution base).edges.filter (·.initial = path)).map Edge.identity).Nodup := by
  have hkey : (((d.declaredRelations path).flatMap MemberShape.edges).map
      fun e => (e.target?, e.name)).Nodup := by
    rw [List.map_flatMap, List.nodup_flatMap]
    constructor
    · intro m hm
      cases m with
      | variation name variants =>
        apply List.Nodup.of_map Prod.fst
        simpa [MemberShape.edges, Function.comp_def] using nodup_targets h hm
      | scalar => exact List.nodup_nil
      | _ => exact List.nodup_singleton _
    · refine (List.pairwise_map.1 hn).imp fun {m n} hmn => ?_
      rintro x hx hy
      obtain ⟨e, he, rfl⟩ := List.mem_map.1 hx
      obtain ⟨f, hf, hef⟩ := List.mem_map.1 hy
      apply hmn
      rw [← MemberShape.name_of_mem_edges he, ← MemberShape.name_of_mem_edges hf]
      exact (congrArg Prod.snd hef).symm
  rw [← map_ofEdge_filter h, List.map_map] at hkey
  apply List.Nodup.of_map (fun i => (some i.2.1, i.2.2))
  rwa [List.map_map]

/-- Where names are distinct, the edges that leave an aggregate are all that were declared. -/
theorem map_shape_outgoing (h : d.resolve base = .ok s)
    (hn : ((d.declaredRelations a.path).map MemberShape.name).Nodup) :
    (s.graph.outgoing a).map Edge.shape =
      (d.declaredRelations a.path).flatMap MemberShape.edges := by
  have hf := filter_firsts (p := (·.initial = a.path)) Edge.identity
    (fun e _ f _ he => congrArg (fun i => decide (i.1 = a.path)) he) (nodup_identity h hn)
  rw [← edges_of_resolve h, List.filter_map] at hf
  rw [← map_ofEdge_filter h, ← hf, List.map_map]
  rfl

/-- Declarations of distinct names are found again as the members of their aggregate, in order. -/
theorem map_shape_members (h : d.resolve base = .ok s) (ha : a ∈ s.graph.nodes)
    (hn : ((d.declaredMembers base a.path).map MemberShape.name).Nodup) :
    (s.graph.members a).map Member.shape = d.declaredMembers base a.path := by
  rw [declaredMembers, List.map_append] at hn
  have hnr := (List.nodup_append.1 hn).2.1
  rw [AggregateGraph.members, List.map_append, List.map_map, declaredMembers]
  apply congrArg₂ (· ++ ·) (map_shape_scalars h ha)
  refine Member.map_shape_ofLinks_groupVariants (map_shape_outgoing h hnr) (fun m hm => ?_) hnr
  obtain ⟨x, hx, hxm⟩ := List.mem_filterMap.1 hm
  exact Declaration.isRelation_of_relation? (problems_of_mem_declarations h hx) hxm

/-- A schema that keeps the rules of design has no two members of one name. -/
theorem nodup_members_of_validate (hv : s.validate = .ok ()) (ha : a ∈ s.graph.nodes) :
    ((s.graph.members a).map Member.name).Nodup := by
  have hp : s.designProblems = [] := by
    unfold Schema.validate at hv
    split at hv
    · rename_i hp
      exact List.isEmpty_iff.1 hp
    · cases hv
  have hm := Schema.mem_aggregates ha
  rw [Schema.designProblems, List.flatMap_eq_nil_iff] at hp
  have hr := (List.append_eq_nil_iff.1 (hp a hm)).1
  exact (repeats_eq_nil_iff _ _).1 (List.map_eq_nil_iff.1 hr)

/-- In a schema that keeps the rules of design, the members of an aggregate correspond to its
declarations exactly if the declarations have distinct names. -/
theorem perm_declaredMembers_iff (h : d.resolve base = .ok s) (hv : s.validate = .ok ())
    (ha : a ∈ s.graph.nodes) :
    ((s.graph.members a).map Member.shape).Perm (d.declaredMembers base a.path) ↔
      ((d.declaredMembers base a.path).map MemberShape.name).Nodup := by
  constructor
  · intro hp
    have hn := nodup_members_of_validate hv ha
    have hnames : ((s.graph.members a).map Member.shape).map MemberShape.name =
        (s.graph.members a).map Member.name := by
      rw [List.map_map]
      exact List.map_congr_left fun m _ => m.name_shape
    rw [← hnames] at hn
    exact (hp.map MemberShape.name).nodup_iff.1 hn
  · intro hn
    rw [map_shape_members h ha hn]

theorem perm_declaredMembers_orders :
    ∃ s, orders.resolve .standard = .ok s ∧ s.validate = .ok () ∧ ∀ a ∈ s.graph.nodes,
      ((s.graph.members a).map Member.shape).Perm (orders.declaredMembers .standard a.path) := by
  obtain ⟨s, hs, h⟩ := exists_ok_of_any (orders.resolve .standard)
    (fun s => s.designProblems.isEmpty && s.graph.nodes.all fun a =>
      ((orders.declaredMembers .standard a.path).map MemberShape.name).Nodup) (by decide +kernel)
  rw [Bool.and_eq_true, List.all_eq_true] at h
  have hv : s.validate = .ok () := if_pos h.1
  exact ⟨s, hs, hv, fun a ha =>
    (perm_declaredMembers_iff hs hv ha).2 (of_decide_eq_true (h.2 a ha))⟩

/-- Two references of one name and target are one edge; that the second is a key is lost. -/
def repeatedReference : Draft where
  declarations := [
    .aggregate "/Customer" none [⟨"id", "word", true, false, false⟩],
    .aggregate "/Order" none [⟨"number", "integer", true, true, false⟩],
    .reference "customer" "/Order" "/Customer" false false,
    .reference "customer" "/Order" "/Customer" true false]
  enumerations := []

/-- Two variations of one name are one, even with a tag that both use. -/
def repeatedVariation : Draft where
  declarations := [
    .aggregate "/Order" none [⟨"number", "integer", true, true, false⟩],
    .variation "payment" "/Order" false none [⟨"Card", 1, none, []⟩],
    .variation "payment" "/Order" false none [⟨"Cash", 1, none, []⟩]]
  enumerations := []

/-- What keeps the rules of design may have fewer members than declarations. -/
theorem not_perm_declaredMembers_of_draft :
    (∃ s, repeatedReference.resolve .standard = .ok s ∧ s.validate = .ok () ∧
      ∃ a ∈ s.graph.nodes, ¬ ((s.graph.members a).map Member.shape).Perm
        (repeatedReference.declaredMembers .standard a.path)) ∧
    ∃ s, repeatedVariation.resolve .standard = .ok s ∧ s.validate = .ok () ∧
      ∃ a ∈ s.graph.nodes, ¬ ((s.graph.members a).map Member.shape).Perm
        (repeatedVariation.declaredMembers .standard a.path) := by
  have hfewer : ∀ (d : Draft) (s : Schema), (s.designProblems.isEmpty && s.graph.nodes.any fun a =>
      (s.graph.members a).length < (d.declaredMembers .standard a.path).length) = true →
        s.validate = .ok () ∧ ∃ a ∈ s.graph.nodes, ¬ ((s.graph.members a).map Member.shape).Perm
          (d.declaredMembers .standard a.path) := by
    intro d s h
    rw [Bool.and_eq_true, List.any_eq_true] at h
    obtain ⟨hv, a, ha, hl⟩ := h
    refine ⟨if_pos hv, a, ha, fun hp => ?_⟩
    have := hp.length_eq
    rw [List.length_map] at this
    exact absurd (of_decide_eq_true hl) (by omega)
  constructor
  · obtain ⟨s, hs, h⟩ := exists_ok_of_any (repeatedReference.resolve .standard)
      (fun s => s.designProblems.isEmpty && s.graph.nodes.any fun a =>
        (s.graph.members a).length < (repeatedReference.declaredMembers .standard a.path).length)
      (by decide +kernel)
    exact ⟨s, hs, hfewer _ s h⟩
  · obtain ⟨s, hs, h⟩ := exists_ok_of_any (repeatedVariation.resolve .standard)
      (fun s => s.designProblems.isEmpty && s.graph.nodes.any fun a =>
        (s.graph.members a).length < (repeatedVariation.declaredMembers .standard a.path).length)
      (by decide +kernel)
    exact ⟨s, hs, hfewer _ s h⟩

end Draft

end AggregateSchema
