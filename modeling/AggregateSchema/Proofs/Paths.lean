import AggregateSchema.Aggregate
import Mathlib.Data.List.Nodup
import Mathlib.Logic.Relation

/-! Paths against their texts, and the order of paths: below is what is reached by parents, and what
the texts show. -/
namespace AggregateSchema

theorem slashed_append (names more : List String) :
    slashed (names ++ more) = slashed names ++ slashed more := by
  simp [slashed, Text.joinAfter]

theorem slashed_cons (name : String) (names : List String) :
    slashed (name :: names) = "/" ++ name ++ slashed names := by
  rw [← String.toList_inj]
  simp [slashed, Text.joinAfter, separator]

/-- The names stand between separators, and there is one in front. -/
theorem slashed_eq_intercalate {names : List String} (h : names ≠ []) :
    slashed names = "/" ++ String.intercalate "/" names := by
  obtain ⟨name, names, rfl⟩ := List.exists_cons_of_ne_nil h
  induction names generalizing name with
  | nil =>
    rw [slashed_cons, String.intercalate_singleton]
    exact String.append_empty
  | cons next names ih =>
    rw [slashed_cons, ih next (List.cons_ne_nil _ _), String.intercalate_cons_cons]
    simp only [String.append_assoc]

namespace Path

theorem ofSegments_eq_ok_iff {names : List String} {p : Path} :
    ofSegments names = .ok p ↔ p.segments = names :=
  ⟨segments_of_ofSegments, fun h => h ▸ ofSegments_segments p⟩

theorem exists_ofSegments_iff {names : List String} :
    (∃ p, ofSegments names = .ok p) ↔ IsPath names := by
  simp only [ofSegments_eq_ok_iff]
  exact ⟨fun ⟨p, hp⟩ => hp ▸ p.valid, fun h => ⟨⟨names, h⟩, rfl⟩⟩

theorem toList_toText (p : Path) : p.toText.toList = separator :: p.toText.toList.tail := by
  obtain ⟨name, names, hp⟩ := List.exists_cons_of_ne_nil p.valid.nonempty
  simp [toText, hp, slashed, Text.joinAfter]

/-- A path has no blank name, so its text is neither blank after the first separator nor does it end
in one. -/
theorem nonblank_toText (p : Path) : (p.toText.toList.tail.all Text.isBlankChar ||
    p.toText.toList.tail.getLast? == some separator) = false := by
  have hpieces := p.split_toText
  generalize p.toText.toList.tail = rest at hpieces ⊢
  have hnonblank : ∀ piece ∈ Text.split separator rest, piece.all Text.isBlankChar = false := by
    rw [hpieces, List.forall_mem_map]
    exact p.valid.nonblank
  rw [Bool.or_eq_false_iff, beq_eq_false_iff_ne]
  constructor
  · by_contra hblank
    rw [Bool.not_eq_false] at hblank
    have hwhole : Text.split separator rest = [rest] := Text.split_of_not_mem fun hmem =>
      absurd (List.all_eq_true.1 hblank separator hmem) (by decide)
    rw [hwhole, List.forall_mem_singleton, hblank] at hnonblank
    cases hnonblank
  · intro hlast
    obtain ⟨front, rfl⟩ := List.getLast?_eq_some_iff.1 hlast
    -- a separator at the end leaves an empty piece after it
    rw [Text.split_append_separator] at hnonblank
    cases hnonblank [] (List.mem_append_right _ (List.mem_singleton_self _))

/-- A path is read from its text. -/
theorem parse_toText (p : Path) : parse p.toText = .ok p := by
  have hid : String.ofList ∘ String.toList = id := funext fun s => String.ofList_toList
  rw [parse, p.toList_toText]
  dsimp only
  rw [if_neg (not_not.2 rfl), p.nonblank_toText, if_neg Bool.false_ne_true, p.split_toText,
    List.map_map, hid, List.map_id, ofSegments_segments]
  rfl

theorem parse_eq_ok_iff {text : String} {p : Path} : parse text = .ok p ↔ p.toText = text :=
  ⟨toText_of_parse, fun h => h ▸ p.parse_toText⟩

/-- A text is read if it is a separator followed by names with separators between them: at least one,
and none blank. -/
theorem exists_parse_iff {text : String} : (∃ p, parse text = .ok p) ↔
    ∃ names, IsPath names ∧ text = "/" ++ String.intercalate "/" names := by
  simp only [parse_eq_ok_iff]
  constructor
  · rintro ⟨p, rfl⟩
    exact ⟨p.segments, p.valid, slashed_eq_intercalate p.valid.nonempty⟩
  · rintro ⟨names, h, rfl⟩
    exact ⟨⟨names, h⟩, slashed_eq_intercalate h.nonempty⟩

theorem toText_injective : Function.Injective toText := fun _ _ => eq_of_toText_eq

/-- Paths correspond one to one to texts of the form of a path, by reading and printing, and so the
aggregates of a graph are told apart by the texts of their paths. -/
theorem texts_correspond :
    (∀ names p, ofSegments names = .ok p ↔ p.segments = names) ∧
    (∀ names, (∃ p, ofSegments names = .ok p) ↔ IsPath names) ∧
    (∀ text p, parse text = .ok p ↔ p.toText = text) ∧
    (∀ text, (∃ p, parse text = .ok p) ↔
      ∃ names, IsPath names ∧ text = "/" ++ String.intercalate "/" names) ∧
    Function.Injective toText ∧
    ∀ g : AggregateGraph, (g.nodes.map fun a => a.path.toText).Nodup := by
  refine ⟨fun _ _ => ofSegments_eq_ok_iff, fun _ => exists_ofSegments_iff,
    fun _ _ => parse_eq_ok_iff, fun _ => exists_parse_iff, toText_injective, fun g => ?_⟩
  have htexts := g.distinct.map toText_injective
  rwa [List.map_map] at htexts

/-- A blank character beside another one is part of a name, and a name of blank characters is none. -/
example : (parse "/Order/ Line").isOk = true ∧ (parse "/Order/ /Line").isOk = false := by
  decide +kernel

theorem isBelow_iff_segments {p q : Path} : p.isBelow q = true ↔
    q.segments.length < p.segments.length ∧ q.segments <+: p.segments := by
  rw [isBelow, Bool.and_eq_true, decide_eq_true_eq, List.isPrefixOf_iff_prefix]

/-- Below is what is reached by going to the parent, once or more. -/
theorem isBelow_iff_transGen {p q : Path} : p.isBelow q = true ↔
    Relation.TransGen (fun r t => r.parent? = some t) p q := by
  constructor
  · intro h
    -- the parent of `p` is `q` or lies below it, and it has one name less
    induction hn : p.segments.length generalizing p with
    | zero => exact absurd (List.length_eq_zero_iff.1 hn) p.valid.nonempty
    | succ n ih =>
      cases hp : p.parent? with
      | none => exact absurd h (not_isBelow_of_parent?_eq_none hp q)
      | some r =>
        obtain ⟨name, hs⟩ := parent?_eq_some_iff.1 hp
        rcases (isBelow_iff_of_parent? hp q).1 h with rfl | hr
        · exact .single hp
        · refine .head hp (ih hr ?_)
          simpa [hs] using hn
  · intro h
    induction h with
    | single hp => exact isBelow_of_parent? hp
    | tail _ hp ih => exact isBelow_trans ih (isBelow_of_parent? hp)

/-- The text of a path continues that of each path above it with a separator. -/
theorem isBelow_iff_toText {p q : Path} : p.isBelow q = true ↔
    ∃ rest, p.toText = q.toText ++ "/" ++ rest := by
  rw [isBelow_iff_segments]
  constructor
  · rintro ⟨hlt, more, hmore⟩
    cases more with
    | nil => rw [← hmore, List.append_nil] at hlt; exact absurd hlt (Nat.lt_irrefl _)
    | cons name names =>
      refine ⟨name ++ slashed names, ?_⟩
      rw [toText, toText, ← hmore, slashed_append, slashed_cons]
      simp only [String.append_assoc]
  · rintro ⟨rest, h⟩
    have htail : p.toText.toList.tail = q.toText.toList.tail ++ separator :: rest.toList := by
      rw [h, String.toList_append, String.toList_append, q.toList_toText]
      simp [separator]
    -- the pieces of the longer text are those of the shorter one and some more
    have hpieces := p.split_toText
    rw [htail, Text.split_append_separator, q.split_toText, eq_comm, List.map_eq_append_iff] at hpieces
    obtain ⟨names, more, hp, hq, hmore⟩ := hpieces
    obtain rfl : names = q.segments :=
      List.map_injective_iff.2 (fun _ _ => String.toList_inj.1) hq
    have hne : more ≠ [] := by
      rintro rfl
      exact Text.split_ne_nil _ _ hmore.symm
    rw [hp, List.length_append]
    exact ⟨Nat.lt_add_of_pos_right (List.length_pos_iff.2 hne), List.prefix_append _ _⟩

/-- Of two paths above one path the shorter one is above the other. -/
theorem comparable_of_isBelow {p q r : Path} (hq : p.isBelow q = true) (hr : p.isBelow r = true) :
    q = r ∨ q.isBelow r = true ∨ r.isBelow q = true := by
  simp only [isBelow_iff_segments] at hq hr ⊢
  rcases Nat.lt_trichotomy q.segments.length r.segments.length with hlt | heq | hgt
  · exact Or.inr (Or.inr ⟨hlt, List.prefix_of_prefix_length_le hq.2 hr.2 (Nat.le_of_lt hlt)⟩)
  · refine Or.inl (Path.ext ?_)
    exact (List.prefix_of_prefix_length_le hq.2 hr.2 (Nat.le_of_eq heq)).eq_of_length heq
  · exact Or.inr (Or.inl ⟨hgt, List.prefix_of_prefix_length_le hr.2 hq.2 (Nat.le_of_lt hgt)⟩)

/-- The parent is the lowest path above. -/
theorem parent?_eq_some_iff_isBelow {p q : Path} : p.parent? = some q ↔
    p.isBelow q = true ∧ ∀ r, p.isBelow r = true → r = q ∨ q.isBelow r = true := by
  constructor
  · intro h
    refine ⟨isBelow_of_parent? h, fun r hr => ?_⟩
    exact ((isBelow_iff_of_parent? h r).1 hr).imp_left Eq.symm
  · rintro ⟨hq, hlowest⟩
    cases hp : p.parent? with
    | none => exact absurd hq (not_isBelow_of_parent?_eq_none hp q)
    | some r =>
      have hrq := (isBelow_iff_of_parent? hp q).1 hq
      rcases hlowest r (isBelow_of_parent? hp) with rfl | hqr
      · rfl
      · rcases hrq with rfl | hrq
        · rfl
        · exact absurd (isBelow_trans hrq hqr) (not_isBelow_self r)

/-- A child is what has the path as its parent and the name as its last one. -/
theorem child_eq_ok_iff {p q : Path} {name : String} :
    q.child name = .ok p ↔ p.parent? = some q ∧ p.baseName = name := by
  rw [child, ofSegments_eq_ok_iff, parent?_eq_some_iff]
  constructor
  · intro h
    refine ⟨⟨name, h⟩, ?_⟩
    simp [baseName, h]
  · rintro ⟨⟨last, h⟩, rfl⟩
    simp [baseName, h]

/-- The laws of a tree for a relation between paths that lie one below the other: it is that of the
parents and that of the texts, and what lies directly below a path is its children. -/
structure IsTreeOrder (below : Path → Path → Prop) : Prop where
  parents : ∀ p q, below p q ↔ Relation.TransGen (fun r t => r.parent? = some t) p q
  texts : ∀ p q, below p q ↔ ∃ rest, p.toText = q.toText ++ "/" ++ rest
  irrefl : ∀ p, ¬ below p p
  trans : ∀ {p q r}, below p q → below q r → below p r
  comparable : ∀ {p q r}, below p q → below p r → q = r ∨ below q r ∨ below r q
  direct : ∀ (p q : Path), p.parent? = some q ↔ below p q ∧ ∀ r, below p r → r = q ∨ below q r
  children : ∀ (p q : Path) name, q.child name = .ok p ↔ p.parent? = some q ∧ p.baseName = name
  accepted : ∀ (q : Path) name, (∃ p, q.child name = .ok p) ↔
    separator ∉ name.toList ∧ Text.isBlank name = false

theorem exists_child_iff {q : Path} {name : String} : (∃ p, q.child name = .ok p) ↔
    separator ∉ name.toList ∧ Text.isBlank name = false := by
  simp only [child, exists_ofSegments_iff]
  constructor
  · intro h
    have hlast := List.mem_append_right q.segments (List.mem_singleton_self name)
    exact ⟨h.unseparated name hlast, h.nonblank name hlast⟩
  · rintro ⟨hsep, hblank⟩
    refine ⟨by simp, List.forall_mem_append.2 ⟨q.valid.unseparated, ?_⟩,
      List.forall_mem_append.2 ⟨q.valid.nonblank, ?_⟩⟩
    · exact List.forall_mem_singleton.2 hsep
    · exact List.forall_mem_singleton.2 hblank

/-- The order of paths is that of a tree. -/
theorem isTreeOrder_isBelow : IsTreeOrder fun p q => p.isBelow q = true where
  parents _ _ := isBelow_iff_transGen
  texts _ _ := isBelow_iff_toText
  irrefl := not_isBelow_self
  trans := isBelow_trans
  comparable := comparable_of_isBelow
  direct _ _ := parent?_eq_some_iff_isBelow
  children _ _ _ := child_eq_ok_iff
  accepted _ _ := exists_child_iff

/-- A text that begins with another one need not be that of a path below. -/
example : (do return ((← parse "/OrderLine").isBelow (← parse "/Order"),
      (← parse "/Order/Line").isBelow (← parse "/Order")) : Except PathProblem (Bool × Bool)).toOption =
    some (false, true) := by decide +kernel

end Path

end AggregateSchema
