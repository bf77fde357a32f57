import AggregateSchema.Proofs.SearchPlaces

/-! A search for a text finds what contains the text: what patterns mean, and the predicate that a text
in a condition comes to. -/
namespace AggregateSchema

namespace Text

/-- What a pattern asks for at one place of a text. -/
inductive PatternItem where
  | anyText
  | anyChar
  | exactly (c : Char)
  deriving DecidableEq

/-- What a character asks for unless it is escaped. -/
def PatternItem.ofChar (c : Char) : PatternItem :=
  if c = '%' then anyText else if c = '_' then anyChar else exactly c

/-- Reads a pattern whose first character may have been escaped. There is no meaning in an escape sign
at the end. -/
def itemsAfter? : (escaped : Bool) → List Char → Option (List PatternItem)
  | escaped, [] => if escaped then none else some []
  | true, c :: cs => (itemsAfter? false cs).map (.exactly c :: ·)
  | false, c :: cs =>
    if c = escapeSign then itemsAfter? true cs
    else (itemsAfter? false cs).map (.ofChar c :: ·)

def patternItems? (pattern : List Char) : Option (List PatternItem) := itemsAfter? false pattern

/-- Whether a whole text is as some items ask for. -/
def FitsItems : List PatternItem → List Char → Prop
  | [], text => text = []
  | .anyText :: items, text => ∃ skipped rest, text = skipped ++ rest ∧ FitsItems items rest
  | .anyChar :: items, text => ∃ c rest, text = c :: rest ∧ FitsItems items rest
  | .exactly c :: items, text => ∃ rest, text = c :: rest ∧ FitsItems items rest

/-- Whether a pattern has a meaning and a whole text is as it asks for. -/
def Matches (pattern text : List Char) : Prop :=
  ∃ items, patternItems? pattern = some items ∧ FitsItems items text

theorem patternItems?_escapePattern_append (cs pattern : List Char) :
    patternItems? (escapePattern cs ++ pattern) =
      (patternItems? pattern).map (cs.map .exactly ++ ·) := by
  induction cs with
  | nil => exact Option.map_id'.symm
  | cons c cs ih =>
    have hcons : (patternItems? (escapePattern cs ++ pattern)).map (.exactly c :: ·) =
        (patternItems? pattern).map ((c :: cs).map .exactly ++ ·) := by
      rw [ih, Option.map_map]
      rfl
    rw [← hcons, escapePattern]
    split
    · rw [List.cons_append, List.cons_append, patternItems?, itemsAfter?, if_pos rfl]
      rfl
    · rename_i hc
      obtain ⟨hescape, hwild⟩ := not_or.1 hc
      have hitem : PatternItem.ofChar c = .exactly c := by
        rw [isWildcard, Bool.or_eq_true, beq_iff_eq, beq_iff_eq, not_or] at hwild
        rw [PatternItem.ofChar, if_neg hwild.1, if_neg hwild.2]
      rw [← hitem]
      exact if_neg hescape

/-- The pattern of a text asks for the characters of the text, and for nothing else. -/
theorem patternItems?_escapePattern (cs : List Char) :
    patternItems? (escapePattern cs) = some (cs.map .exactly) := by
  have h := patternItems?_escapePattern_append cs []
  simpa [patternItems?, itemsAfter?] using h

theorem patternItems?_containsPattern (cs : List Char) :
    patternItems? (containsPattern cs) = some (.anyText :: (cs.map .exactly ++ [.anyText])) := by
  have h := patternItems?_escapePattern_append cs ['%']
  rw [containsPattern, patternItems?, itemsAfter?, if_neg (by decide), ← patternItems?, h]
  rfl

theorem escapePattern_injective : Function.Injective escapePattern := by
  intro cs ds h
  have hitems := patternItems?_escapePattern cs
  rw [h, patternItems?_escapePattern, Option.some.injEq] at hitems
  exact (List.map_injective_iff.2 (fun _ _ => PatternItem.exactly.inj) hitems).symm

variable {cs text : List Char}

theorem fitsItems_exactly_append {items : List PatternItem} :
    FitsItems (cs.map .exactly ++ items) text ↔ ∃ rest, text = cs ++ rest ∧ FitsItems items rest := by
  induction cs generalizing text with
  | nil => simp
  | cons c cs ih =>
    rw [List.map_cons, List.cons_append, FitsItems]
    constructor
    · rintro ⟨more, rfl, h⟩
      obtain ⟨rest, rfl, hrest⟩ := ih.1 h
      exact ⟨rest, rfl, hrest⟩
    · rintro ⟨rest, rfl, h⟩
      exact ⟨cs ++ rest, rfl, ih.2 ⟨rest, rfl, h⟩⟩

/-- What has a text somewhere in it matches, and nothing else does. -/
theorem matches_containsPattern_iff : Matches (containsPattern cs) text ↔ cs <:+: text := by
  rw [Matches, patternItems?_containsPattern]
  simp only [Option.some.injEq, exists_eq_left']
  constructor
  · rintro ⟨before, _, rfl, h⟩
    obtain ⟨after, rfl, -⟩ := fitsItems_exactly_append.1 h
    exact ⟨before, after, List.append_assoc ..⟩
  · rintro ⟨before, after, rfl⟩
    refine ⟨before, cs ++ after, List.append_assoc .., fitsItems_exactly_append.2 ⟨after, rfl, ?_⟩⟩
    exact ⟨after, [], (List.append_nil after).symm, rfl⟩

/-- The pattern of a text to be found, for which the blank characters at either end do not count. -/
def searchPattern (t : String) : String := String.ofList (containsPattern (trimChars t.toList))

theorem matches_searchPattern_iff (t text : String) :
    Matches (searchPattern t).toList text.toList ↔ (trim t).toList <:+: text.toList := by
  rw [searchPattern, trim, String.toList_ofList, String.toList_ofList, matches_containsPattern_iff]

/-- Signs that have a meaning in patterns are found in a text like all others. -/
example : searchPattern " 5%_\\ " = "%5\\%\\_\\\\%" := by decide

end Text

namespace SearchStep
variable {s : Schema} {p : SearchPlace} {m : Scalar} {t : String}

/-- A text in a condition is to be found in the column of its member, unless it is blank. -/
theorem predicates_of_text (hk : m.kind.filterStyle = .freeText)
    (ht : p.value m.name = some (.string t)) (nested : Aggregate → SearchPlace → List SearchStep) :
    (ofMember s nested p (.scalar m)).flatMap predicates =
      if Text.isBlank t then []
      else [.containing p.table m.name (.string (Text.searchPattern t))] := by
  have hblank := Text.trimChars_eq_nil_iff t.toList
  rw [ofMember, ht, Option.toList_some, List.flatMap_singleton]
  unfold ofScalarValue
  rw [hk]
  simp only [List.isEmpty_iff, hblank]
  rw [Text.isBlank]
  split <;> rfl

end SearchStep

namespace Draft
variable {d : Draft} {registry : TypeRegistry} {s : Schema} {a : Aggregate} {condition : Json}
  {q : Query}

/-- An accepted search finds what contains the texts in its condition: a text at a member that is
reached filters the column of the member by the pattern of the text, and by nothing else, and that
pattern matches what the trimmed text occurs in. Patterns of texts have a meaning, and tell the texts
apart. -/
theorem finds_contained_text (h : d.resolve registry = .ok s) (ha : a ∈ s.graph.nodes)
    (hq : Query.build s a.path condition = .ok q) :
    (∀ {b : Aggregate} {inner : Option Json} {m : Scalar} {t : String},
      s.graph.Reaches a condition.given? b inner → m ∈ b.scalars → m.kind.filterStyle = .freeText →
        conditionField inner m.name = some (.string t) →
          ∃ e, s.entity? b.path = some e ∧
            q.FiltersBy s a condition e (.ofScalar b.typeName m)
              (if Text.isBlank t then []
                else [.containing e m.name (.string (Text.searchPattern t))])) ∧
    (∀ t text : String, Text.Matches (Text.searchPattern t).toList text.toList ↔
      (Text.trim t).toList <:+: text.toList) ∧
    (∀ t : String, (Text.patternItems? (Text.escapePattern t.toList)).isSome = true ∧
      (Text.patternItems? (Text.searchPattern t).toList).isSome = true) ∧
    Function.Injective Text.escapePattern := by
  refine ⟨fun {b inner m t} hr hm hk ht => ?_, Text.matches_searchPattern_iff, fun t => ⟨?_, ?_⟩,
    Text.escapePattern_injective⟩
  · obtain ⟨p, nested, rfl, he, hp⟩ := Schema.exists_filtersBy (isForest h) ha hq hr
      (AggregateGraph.scalar_mem_members hm) rfl
    rw [SearchStep.predicates_of_text hk ht] at hp
    exact ⟨p.table, he, hp⟩
  · rw [Text.patternItems?_escapePattern]
    rfl
  · rw [Text.searchPattern, String.toList_ofList, Text.patternItems?_containsPattern]
    rfl

theorem finds_contained_text_orders : ∃ (s : Schema) (a b : Aggregate) (q : Query) (m : Scalar)
    (e : Entity), orders.resolve .standard = .ok s ∧ a ∈ s.graph.nodes ∧
    Query.build s a.path (ordersWanted (.string " 5%_ ")) = .ok q ∧ s.entity? b.path = some e ∧
    q.FiltersBy s a (ordersWanted (.string " 5%_ ")) e (.ofScalar b.typeName m)
      [.containing e "street" (.string "%5\\%\\_%")] ∧
    Text.Matches "%5\\%\\_%".toList "Lot 5%_b".toList ∧
    ¬ Text.Matches "%5\\%\\_%".toList "Lot 500".toList := by
  obtain ⟨s, hs, h⟩ := exists_ok_of_any (orders.resolve .standard) (fun s => s.graph.nodes.any
    fun a => (Query.build s a.path (ordersWanted (.string " 5%_ "))).toOption.any fun _ =>
      (s.graph.childLinks a).any fun l => l.name = "Address" ∧ l.terminal.scalars.any fun m =>
        m.name = "street" ∧ m.kind.filterStyle = .freeText) (by decide +kernel)
  obtain ⟨a, ha, h⟩ := List.any_eq_true.1 h
  obtain ⟨q, hq, h⟩ := exists_ok_of_any _ _ h
  obtain ⟨l, hl, h⟩ := List.any_eq_true.1 h
  obtain ⟨hlink, h⟩ := of_decide_eq_true h
  obtain ⟨m, hm, h⟩ := List.any_eq_true.1 h
  obtain ⟨hname, hstyle⟩ := of_decide_eq_true h
  obtain ⟨hfilters, hmatches, -⟩ := finds_contained_text hs ha hq
  obtain ⟨e, he, hstreet⟩ := hfilters (.child hl (.here l.terminal _)) hm hstyle
    (by rw [hlink, hname]; rfl)
  rw [hname] at hstreet
  refine ⟨s, a, l.terminal, q, m, e, hs, ha, hq, he, hstreet, ?_, ?_⟩
  · exact (hmatches " 5%_ " "Lot 5%_b").2 (by decide +kernel)
  · exact fun h => absurd ((hmatches " 5%_ " "Lot 500").1 h) (by decide +kernel)

end Draft

end AggregateSchema
