import AggregateSchema.Aggregate

/-! The members of an aggregate: its scalars, and then its relations. -/
namespace AggregateSchema

inductive Member where
  | scalar (s : Scalar)
  | child (l : Link)
  | children (l : Link)
  | variation (v : VariationGroup)
  | reference (l : Link)

namespace Member

def name : Member → String
  | scalar s => s.name
  | child l | children l | reference l => l.name
  | variation v => v.name

/-- The word for what a member is. -/
def kindName : Member → String
  | scalar _ => "scalar"
  | child _ => "child"
  | children _ => "children"
  | variation _ => "variation"
  | reference _ => "reference"

def isKey : Member → Bool
  | scalar s => s.isKey
  | reference l => l.relation.isKeyReference
  | _ => false

def isDisplayName : Member → Bool
  | scalar s => s.isDisplayName
  | reference l => match l.relation with
    | .reference _ shown => shown
    | _ => false
  | _ => false

/-- A reference, and nothing of any other member. -/
def references : Member → List Link
  | reference l => [l]
  | _ => []

/-- The members that some edges stand for. The variants of one name are one member, which stands
where the first of them does; `groups` are the groups that have not been met. -/
def ofLinks (groups : List VariationGroup) : List Link → List Member
  | [] => []
  | l :: ls => match l.relation with
    | .child => child l :: ofLinks groups ls
    | .children => children l :: ofLinks groups ls
    | .reference _ _ => reference l :: ofLinks groups ls
    | .variant _ => match groups.find? (·.name = l.name) with
      | some v => variation v :: ofLinks (groups.filter (·.name ≠ l.name)) ls
      | none => ofLinks groups ls

/-- Only references count for a function that is empty on what is owned. -/
theorem flatMap_ofLinks {β : Type} {f : Member → List β} (hc : ∀ l, f (child l) = [])
    (hs : ∀ l, f (children l) = []) (hv : ∀ v, f (variation v) = [])
    (groups : List VariationGroup) (links : List Link) :
    (ofLinks groups links).flatMap f =
      (links.filter (·.relation.isReference)).flatMap fun l => f (reference l) := by
  induction links generalizing groups with
  | nil => rfl
  | cons l ls ih =>
    rw [ofLinks]
    split
    · rename_i h
      simp [hc, ih, h, Relation.isReference, Relation.isOwnership]
    · rename_i h
      simp [hs, ih, h, Relation.isReference, Relation.isOwnership]
    · rename_i h
      simp [ih, h, Relation.isReference, Relation.isOwnership]
    · rename_i h
      split <;> simp [hv, ih, h, Relation.isReference, Relation.isOwnership]

theorem mem_of_reference_mem_ofLinks {groups : List VariationGroup} {links : List Link} {l : Link}
    (h : reference l ∈ ofLinks groups links) : l ∈ links := by
  induction links generalizing groups with
  | nil => simp [ofLinks] at h
  | cons m ms ih =>
    rw [ofLinks] at h
    split at h
    · exact List.mem_cons_of_mem _ (ih (by simpa using h))
    · exact List.mem_cons_of_mem _ (ih (by simpa using h))
    · rcases List.mem_cons.1 h with h | h
      · cases h
        exact List.mem_cons_self
      · exact List.mem_cons_of_mem _ (ih h)
    · split at h
      · exact List.mem_cons_of_mem _ (ih (by simpa using h))
      · exact List.mem_cons_of_mem _ (ih h)

theorem relation_of_children_mem_ofLinks {groups : List VariationGroup} {links : List Link}
    {l : Link} (h : children l ∈ ofLinks groups links) : l.relation = .children := by
  induction links generalizing groups with
  | nil => simp [ofLinks] at h
  | cons m ms ih =>
    rw [ofLinks] at h
    split at h
    · exact ih (by simpa using h)
    · rename_i hm
      rcases List.mem_cons.1 h with h | h
      · cases h
        exact hm
      · exact ih h
    · exact ih (by simpa using h)
    · split at h
      · exact ih (by simpa using h)
      · exact ih h

end Member

namespace AggregateGraph

/-- The members of an aggregate: scalars first, then relations in order of declaration. -/
def members (g : AggregateGraph) (a : Aggregate) : List Member :=
  a.scalars.map .scalar ++ Member.ofLinks (variationGroups g a) (g.outgoing a)

variable {g : AggregateGraph}

theorem relation_of_children_mem {a : Aggregate} {l : Link}
    (h : Member.children l ∈ members g a) : l.relation = .children := by
  rcases List.mem_append.1 h with h | h
  · simp at h
  · exact Member.relation_of_children_mem_ofLinks h

theorem mem_outgoing_of_reference_mem {a : Aggregate} {l : Link}
    (h : Member.reference l ∈ members g a) : l ∈ g.outgoing a := by
  rcases List.mem_append.1 h with h | h
  · simp at h
  · exact Member.mem_of_reference_mem_ofLinks h

/-- What depends on references only is collected along the references. -/
theorem flatMap_members_of_reference {β : Type} {f : Member → List β} (hm : ∀ m, f (.scalar m) = [])
    (hc : ∀ l, f (.child l) = []) (hs : ∀ l, f (.children l) = [])
    (hv : ∀ v, f (.variation v) = []) (a : Aggregate) :
    (members g a).flatMap f = (referenceLinks g a).flatMap fun l => f (.reference l) := by
  rw [members, List.flatMap_append, List.flatMap_map, List.flatMap_eq_nil_iff.2 fun m _ => hm m,
    List.nil_append, Member.flatMap_ofLinks hc hs hv]
  rfl

theorem flatMap_references (a : Aggregate) :
    (members g a).flatMap Member.references = referenceLinks g a := by
  rw [flatMap_members_of_reference (f := Member.references) (fun _ => rfl) (fun _ => rfl)
    (fun _ => rfl) (fun _ => rfl)]
  exact List.flatMap_singleton' _

theorem scalar_mem_members {a : Aggregate} {m : Scalar} (hm : m ∈ a.scalars) :
    Member.scalar m ∈ members g a :=
  List.mem_append_left _ (List.mem_map_of_mem hm)

theorem reference_mem_members {a : Aggregate} {l : Link} :
    Member.reference l ∈ members g a ↔ l ∈ referenceLinks g a := by
  rw [← flatMap_references, List.mem_flatMap]
  constructor
  · exact fun hl => ⟨_, hl, List.mem_singleton_self l⟩
  · rintro ⟨m, hm, hl⟩
    cases m with
    | reference k => exact List.mem_singleton.1 hl ▸ hm
    | _ => cases hl

end AggregateGraph

end AggregateSchema
