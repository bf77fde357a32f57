import AggregateSchema.Proofs.Integrity

/-! Instances in which the objects of variants that are not chosen are left out: all variants are stored,
be they chosen or not, so that such an instance is accepted just if what is left out needs nothing. -/
namespace AggregateSchema

namespace Json

end Json

namespace Member

/-- Whether a field is that of a variant whose tag is not the value of the discriminator. -/
def leavesOut (given : Json) (name : String) : Member → Bool
  | variation v => v.variants.any fun x =>
    name = variantFieldName v.name x.2.terminal.path && (given.getD v.name).int64? ≠ some x.1
  | _ => false

end Member

namespace Schema

/-- A field of an instance that belongs to a variant which is not chosen. -/
def IsUnselected (s : Schema) (a : Aggregate) (given : Json) (name : String) : Prop :=
  ∃ m ∈ s.graph.members a, m.leavesOut given name = true

instance (s : Schema) (a : Aggregate) (given : Json) (name : String) :
    Decidable (s.IsUnselected a given name) := inferInstanceAs (Decidable (∃ m ∈ _, _))

/-- A field that is not cleared itself: only what is nested in its value may be, as `clears` says. -/
def KeepsField (s : Schema) (clears : Aggregate → Json → Json → Prop) (f : ViewField) (v w : Json) :
    Prop :=
  match f.kind with
  | .nested path => ∃ b, s.node? path = some b ∧ clears b v w
  | .nestedList path => ∃ b, s.node? path = some b ∧ w.isList = v.isList ∧
    List.Forall₂ (clears b) v.items w.items
  | _ => w = v

/-- The second instance is the first one with some fields null or absent, at whatever depth. These belong
to variants that are not chosen, and all that is read from them satisfies `P`. -/
def ClearsWithin (s : Schema) (P : Aggregate → ViewField → Prop) :
    Nat → Aggregate → Json → Json → Prop
  | 0, _, v, w => w = v
  | levels + 1, a, v, w => w.isRecord = v.isRecord ∧ ∀ f ∈ s.graph.detailFields a,
    s.KeepsField (ClearsWithin s P levels) f (v.getD f.name) (w.getD f.name) ∨
      w.getD f.name = .null ∧ s.IsUnselected a v f.name ∧ P a f

variable {s : Schema} {a : Aggregate} {e : Entity} {P Q : Aggregate → ViewField → Prop}
  {levels : Nat} {v w : Json}

section
variable {clears clears' : Aggregate → Json → Json → Prop} {f : ViewField}

theorem KeepsField.imp (h : ∀ b v w, clears b v w → clears' b v w)
    (hk : s.KeepsField clears f v w) : s.KeepsField clears' f v w := by
  obtain ⟨name, kind, default?⟩ := f
  cases kind with
  | nested path => exact hk.imp fun b => And.imp_right (h b v w)
  | nestedList path =>
    exact hk.imp fun b => And.imp_right (And.imp_right (List.Forall₂.imp (h b)))
  | _ => exact hk

end

theorem ClearsWithin.imp (h : ∀ a f, P a f → Q a f) (hc : s.ClearsWithin P levels a v w) :
    s.ClearsWithin Q levels a v w := by
  induction levels generalizing a v w with
  | zero => exact hc
  | succ levels ih =>
    refine ⟨hc.1, fun f hf => (hc.2 f hf).imp (KeepsField.imp fun b v w => ih) ?_⟩
    exact And.imp_right (And.imp_right (h a f))

/-- Each field of the detail that leads to an aggregate leads to one of the schema. -/
theorem node?_of_mem_detailFields {f : ViewField} (hf : f ∈ s.graph.detailFields a) {path : Path}
    (hk : f.kind = .nested path ∨ f.kind = .nestedList path) : ∃ b, s.node? path = some b := by
  obtain ⟨m, hm, hf⟩ := List.mem_flatMap.1 hf
  cases m with
  | child l =>
    obtain rfl := List.mem_singleton.1 hf
    have hnode := node?_terminal hm (List.mem_singleton_self l)
    simp only [FieldKind.nested.injEq, reduceCtorEq, or_false] at hk
    exact ⟨_, hk ▸ hnode⟩
  | children l =>
    obtain rfl := List.mem_singleton.1 hf
    have hnode := node?_terminal hm (List.mem_singleton_self l)
    simp only [FieldKind.nestedList.injEq, reduceCtorEq, false_or] at hk
    exact ⟨_, hk ▸ hnode⟩
  | variation v =>
    rcases List.mem_cons.1 hf with rfl | hf
    · simp at hk
    · obtain ⟨x, hx, rfl⟩ := List.mem_map.1 hf
      have hnode := node?_terminal hm (List.mem_map_of_mem hx)
      simp only [FieldKind.nested.injEq, reduceCtorEq, or_false] at hk
      exact ⟨_, hk ▸ hnode⟩
  | _ =>
    obtain rfl := List.mem_singleton.1 hf
    simp at hk

theorem keepsField_self {clears : Aggregate → Json → Json → Prop} {f : ViewField}
    (hf : f ∈ s.graph.detailFields a) (h : ∀ b x, clears b x x) (v : Json) :
    s.KeepsField clears f v v := by
  have hnode : ∀ path, f.kind = .nested path ∨ f.kind = .nestedList path →
      ∃ b, s.node? path = some b := fun _ => node?_of_mem_detailFields hf
  obtain ⟨name, kind, default?⟩ := f
  cases kind with
  | nested path =>
    obtain ⟨b, hb⟩ := hnode path (Or.inl rfl)
    exact ⟨b, hb, h b v⟩
  | nestedList path =>
    obtain ⟨b, hb⟩ := hnode path (Or.inr rfl)
    exact ⟨b, hb, rfl, List.forall₂_same.2 fun x _ => h b x⟩
  | _ => rfl

theorem ClearsWithin.refl (s : Schema) (P : Aggregate → ViewField → Prop) (levels : Nat)
    (a : Aggregate) (v : Json) : s.ClearsWithin P levels a v v := by
  induction levels generalizing a v with
  | zero => rfl
  | succ levels ih => exact ⟨rfl, fun f hf => Or.inl (keepsField_self hf ih _)⟩

section
variable {m : Member} {clears clears' : Aggregate → Json → Json → Prop}

end

end Schema

namespace Draft
variable {d : Draft} {base : TypeRegistry} {s : Schema}

end Draft

end AggregateSchema
