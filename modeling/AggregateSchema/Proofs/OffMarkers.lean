import AggregateSchema.Proofs.ElementKinds
import AggregateSchema.Proofs.VariantMembers

/-! Markers that are spelled off, and markers that are left out. -/
namespace AggregateSchema.Document

open Xml (Element)

/-- Where an element stands: it is the whole document, or is directly inside it, inside an aggregate or
inside a variation; or it is an item of an enumeration, or is not read at all. -/
inductive Place where
  | document
  | top
  | aggregate
  | variation
  | unread

/-- Where the elements inside an element stand. -/
def Place.inside (p : Place) (e : Element) : Place :=
  match p with
  | .document => .top
  | .top => if e.has "enum" then .unread else .aggregate
  | .aggregate => match kind e with
    | .variation => .variation
    | .children | .child => .aggregate
    | _ => .unread
  | .variation => if (variantTag? e).isSome then .aggregate else .unread
  | .unread => .unread

def markers : List String :=
  ["multiple", "variation", "enum", "abstract", "key", "name", "required"]

/-- Markers that count by being there, however they are spelled: those that make an element what it is,
those that no such element may have, and one that makes a base without fields. -/
def telling : Place → Element → List String
  | .top, e => if e.has "enum" then ["enum"] else ["multiple", "variation", "key", "name"]
  | .aggregate, e => match kind e with
    | .enumeration => ["enum"]
    | .variation => "variation" :: if (fields e.children).isEmpty then ["abstract"] else []
    | .children => ["multiple", "key", "name"]
    | .child => ["name"]
    | _ => []
  | .variation, e => if (variantTag? e).isSome then ["key", "name"] else []
  | _, _ => []

def spelledOff (e : Element) (key : String) : Bool :=
  (e.attribute? key).any fun value => Text.trim value ∈ offSpellings

/-- An element without some of its markers, all of them spelled off. -/
structure Drops (keys : List String) (e f : Element) : Prop where
  name : f.name = e.name
  attributes : f.attributes = e.attributes.filter (·.1 ∉ keys)
  marker : ∀ k ∈ keys, k ∈ markers
  off : ∀ k ∈ keys, spelledOff e k = true

mutual
/-- A tree without some markers that are spelled off, at any of its elements; each element keeps those
that are to be kept there. -/
inductive Thinned (kept : Place → Element → List String) : Place → Element → Element → Prop where
  | mk {p : Place} {e f : Element} (keys : List String) (drops : Drops keys e f)
    (keeps : ∀ k ∈ kept p e, k ∉ keys) (children : ThinnedAll kept (p.inside e) e.children f.children) :
    Thinned kept p e f

inductive ThinnedAll (kept : Place → Element → List String) :
    Place → List Element → List Element → Prop where
  | nil {p : Place} : ThinnedAll kept p [] []
  | cons {p : Place} {e f : Element} {es fs : List Element} (head : Thinned kept p e f)
    (tail : ThinnedAll kept p es fs) : ThinnedAll kept p (e :: es) (f :: fs)
end

theorem lookup_filter_keys (keys : List String) (k : String) (xs : List (String × String)) :
    (xs.filter (·.1 ∉ keys)).lookup k = if k ∈ keys then none else xs.lookup k := by
  induction xs with
  | nil => simp
  | cons x xs ih =>
    obtain ⟨key, value⟩ := x
    by_cases hkey : key ∈ keys
    · rw [List.filter_cons_of_neg (by simpa using hkey), ih]
      by_cases hk : k ∈ keys
      · rw [if_pos hk, if_pos hk]
      · have hne : k ≠ key := fun h => hk (h ▸ hkey)
        rw [if_neg hk, if_neg hk, List.lookup_cons, beq_eq_false_iff_ne.2 hne]
    · rw [List.filter_cons_of_pos (by simpa using hkey), List.lookup_cons, List.lookup_cons, ih]
      by_cases hk : k = key
      · simp [hk, hkey]
      · rw [beq_eq_false_iff_ne.2 hk]

namespace Drops
variable {keys : List String} {e f : Element} {k : String}

theorem attribute?_eq (h : Drops keys e f) (k : String) :
    f.attribute? k = if k ∈ keys then none else e.attribute? k := by
  rw [Element.attribute?, h.attributes, lookup_filter_keys]
  rfl

theorem attribute?_of_not_mem (h : Drops keys e f) (hk : k ∉ keys) :
    f.attribute? k = e.attribute? k := by
  rw [h.attribute?_eq, if_neg hk]

/-- What is no marker stays. -/
theorem attribute?_of_not_marker (h : Drops keys e f) (hk : k ∉ markers) :
    f.attribute? k = e.attribute? k :=
  h.attribute?_of_not_mem fun hm => hk (h.marker k hm)

theorem has_of_not_mem (h : Drops keys e f) (hk : k ∉ keys) : f.has k = e.has k := by
  rw [Element.has, Element.has, h.attribute?_of_not_mem hk]

theorem has_of_not_marker (h : Drops keys e f) (hk : k ∉ markers) : f.has k = e.has k := by
  rw [Element.has, Element.has, h.attribute?_of_not_marker hk]

theorem has_eq_false (h : Drops keys e f) (hk : e.has k = false) : f.has k = false := by
  by_cases hm : k ∈ keys
  · rw [Element.has, h.attribute?_eq, if_pos hm]
    rfl
  · rw [h.has_of_not_mem hm, hk]

/-- A marker that is asked how it is spelled may as well not be there when it is spelled off. -/
theorem flag_eq (h : Drops keys e f) (k : String) : flag f k = flag e k := by
  rw [flag, flag, h.attribute?_eq]
  split
  · rename_i hk
    obtain ⟨value, hvalue, hoff⟩ := (Option.any_eq_true _ _).1 (h.off k hk)
    rw [hvalue, Option.any_some, Option.any_none, eq_comm, decide_eq_false_iff_not, not_not]
    exact of_decide_eq_true hoff
  · rfl

theorem table?_eq (h : Drops keys e f) : table? f = table? e :=
  h.attribute?_of_not_marker (by decide)

theorem scalar_eq (h : Drops keys e f) : scalar f = scalar e := by
  simp only [scalar, h.name, h.flag_eq, h.attribute?_of_not_marker (k := "type") (by decide)]

theorem variantTag?_eq (h : Drops keys e f) : variantTag? f = variantTag? e := by
  rw [variantTag?, variantTag?, h.has_of_not_marker (k := "type") (by decide),
    h.attribute?_of_not_marker (k := "tag") (by decide)]

theorem forbiddenProblems_eq (h : Drops keys e f) {refused : List String}
    (hkeeps : ∀ k ∈ refused, k ∈ markers → k ∉ keys) (path : String) :
    forbiddenProblems refused f path = forbiddenProblems refused e path := by
  rw [forbiddenProblems, forbiddenProblems]
  congr 1
  refine List.filter_congr fun k hk => ?_
  by_cases hm : k ∈ markers
  · exact h.has_of_not_mem (hkeeps k hk hm)
  · exact h.has_of_not_marker hm

theorem kind_eq (h : Drops keys e f) (henum : kind e = .enumeration → "enum" ∉ keys)
    (hvariation : kind e = .variation → "variation" ∉ keys)
    (hmultiple : kind e = .children → "multiple" ∉ keys) : kind f = kind e := by
  have htype : f.has "type" = e.has "type" := h.has_of_not_marker (by decide)
  have href : f.attribute? "refTo" = e.attribute? "refTo" := h.attribute?_of_not_marker (by decide)
  cases ht : e.has "type" with
  | true => simp [kind, htype, ht]
  | false =>
  cases hn : e.has "enum" with
  | true =>
    have hk : kind e = .enumeration := by simp [kind, ht, hn]
    have hf : f.has "enum" = true := by rw [h.has_of_not_mem (henum hk), hn]
    simp [kind, htype, ht, hn, hf]
  | false =>
  have hfn : f.has "enum" = false := h.has_eq_false hn
  cases hr : e.attribute? "refTo" with
  | some target => simp [kind, htype, href, ht, hn, hfn, hr]
  | none =>
  cases hv : e.has "variation" with
  | true =>
    have hk : kind e = .variation := by simp [kind, ht, hn, hr, hv]
    have hf : f.has "variation" = true := by rw [h.has_of_not_mem (hvariation hk), hv]
    simp [kind, htype, href, ht, hn, hfn, hr, hv, hf]
  | false =>
  have hfv : f.has "variation" = false := h.has_eq_false hv
  cases hm : e.has "multiple" with
  | true =>
    have hk : kind e = .children := by simp [kind, ht, hn, hr, hv, hm]
    have hf : f.has "multiple" = true := by rw [h.has_of_not_mem (hmultiple hk), hm]
    simp [kind, htype, href, ht, hn, hfn, hr, hv, hfv, hm, hf]
  | false =>
    have hf : f.has "multiple" = false := h.has_eq_false hm
    simp [kind, htype, href, ht, hn, hfn, hr, hv, hfv, hm, hf]

theorem variation_congr (h : Drops keys e f) (owner : String) {r : VariationReading}
    (hbase : r.base = [] → "abstract" ∉ keys) : variation f owner r = variation e owner r := by
  have hbase? : base? f r.base = base? e r.base := by
    rw [base?, base?, h.name, h.table?_eq, h.flag_eq]
    cases hr : r.base with
    | nil => rw [h.has_of_not_mem (hbase hr)]
    | cons m ms => rfl
  rw [variation, variation, hbase?, h.name, h.flag_eq]

end Drops

theorem eq_name_of_nestedForbidden : ∀ k ∈ nestedForbidden, k ∈ markers → k = "name" := by
  decide

theorem eq_key_or_name_of_forbidden : ∀ k ∈ forbidden, k ∈ markers → k = "key" ∨ k = "name" := by
  decide

/-- The items of an enumeration are told by what is no marker. -/
theorem enumerationItems_eq_of_thinned {kept : Place → Element → List String} {p : Place}
    (name : String) {es fs : List Element} (h : ThinnedAll kept p es fs) :
    enumerationItems name fs = enumerationItems name es := by
  induction es generalizing fs with
  | nil =>
    cases h
    rfl
  | cons e es ih =>
    obtain _ | @⟨_, _, f, _, fs, ⟨_, drops, -, -⟩, tail⟩ := h
    rw [enumerationItems, enumerationItems, ih tail, drops.name,
      drops.attribute?_of_not_marker (k := "value") (by decide)]

theorem enumeration_eq_of_thinned {kept : Place → Element → List String} {p : Place}
    {e f : Element} (hname : f.name = e.name) (h : ThinnedAll kept p e.children f.children) :
    enumeration f = enumeration e := by
  rw [enumeration, enumeration, hname, enumerationItems_eq_of_thinned e.name h]

mutual
theorem declared_eq_of_thinned (owner : String) : ∀ e f : Element,
    Thinned telling .aggregate e f → declared owner f = declared owner e
  | ⟨name, attributes, children⟩ => by
    rintro f ⟨keys, drops, keeps, thinned⟩
    have hcontent := content_eq_of_thinned (below owner name) children f.children
    have hvariation := variationContent_eq_of_thinned owner name children f.children
    have hname : f.name = name := drops.name
    have hkind := drops.kind_eq (fun hk => keeps _ (by simp [telling, hk]))
      (fun hk => keeps _ (by simp [telling, hk])) (fun hk => keeps _ (by simp [telling, hk]))
    rw [declared_eq owner f, declared_eq owner ⟨name, attributes, children⟩, hkind]
    rw [Place.inside] at thinned
    rw [telling] at keeps
    cases hk : kind ⟨name, attributes, children⟩ with
    | field => exact congrArg Reading.ofScalar drops.scalar_eq
    | enumeration => exact enumeration_eq_of_thinned drops.name thinned
    | reference target =>
      simp only [hname, drops.flag_eq]
    | variation =>
      rw [hk] at thinned keeps
      dsimp only
      rw [hname, hvariation thinned]
      refine drops.variation_congr owner fun hnil => keeps _ ?_
      rw [base_variationContent] at hnil
      simp [hnil]
    | children =>
      rw [hk] at thinned keeps
      dsimp only
      rw [hname, hcontent thinned, drops.table?_eq, drops.has_of_not_mem (keeps "key" (by simp)),
        drops.forbiddenProblems_eq fun k hk hm => keeps k (by simp [eq_name_of_nestedForbidden k hk hm])]
    | child =>
      rw [hk] at thinned keeps
      dsimp only
      rw [hname, hcontent thinned, drops.table?_eq, drops.flag_eq,
        drops.forbiddenProblems_eq fun k hk hm => keeps k (by simp [eq_name_of_nestedForbidden k hk hm])]

theorem content_eq_of_thinned (owner : String) : ∀ es fs : List Element,
    ThinnedAll telling .aggregate es fs → content owner fs = content owner es
  | [] => by
    rintro _ ⟨⟩
    rfl
  | e :: es => by
    intro fs h
    obtain _ | @⟨_, _, f, _, fs, head, tail⟩ := h
    show declared owner f ++ content owner fs = declared owner e ++ content owner es
    rw [declared_eq_of_thinned owner e f head, content_eq_of_thinned owner es fs tail]

theorem variant_eq_of_thinned (owner name : String) : ∀ e f : Element,
    Thinned telling .variation e f → variant owner name f = variant owner name e
  | ⟨elementName, attributes, children⟩ => by
    rintro f ⟨keys, drops, keeps, thinned⟩
    have hcontent := content_eq_of_thinned (below owner elementName) children f.children
    have htype := drops.has_of_not_marker (k := "type") (by decide)
    have htag := drops.attribute?_of_not_marker (k := "tag") (by decide)
    obtain ⟨fname, fattributes, fchildren⟩ := f
    obtain rfl : fname = elementName := drops.name
    rw [variant, variant, htype, htag, drops.scalar_eq, drops.table?_eq]
    by_cases ht : Element.has ⟨fname, attributes, children⟩ "type" = true
    · rw [if_pos ht, if_pos ht]
    rw [if_neg ht, if_neg ht]
    cases hv : Element.attribute? ⟨fname, attributes, children⟩ "tag" with
    | none => rfl
    | some text =>
      cases hn : Text.trimmedInt64? text with
      | none => simp only [hn]
      | some tag =>
        have hvariant : (variantTag? ⟨fname, attributes, children⟩).isSome = true := by
          simp [variantTag?, ht, hv, hn]
        rw [Place.inside, if_pos hvariant] at thinned
        rw [telling, if_pos hvariant] at keeps
        simp only [hn]
        rw [hcontent thinned, drops.forbiddenProblems_eq fun k hk hm => keeps k
          (by simpa using eq_key_or_name_of_forbidden k hk hm)]

theorem variationContent_eq_of_thinned (owner name : String) : ∀ es fs : List Element,
    ThinnedAll telling .variation es fs →
      variationContent owner name fs = variationContent owner name es
  | [] => by
    rintro _ ⟨⟩
    rfl
  | e :: es => by
    intro fs h
    obtain _ | @⟨_, _, f, _, fs, head, tail⟩ := h
    show variant owner name f ++ variationContent owner name fs =
      variant owner name e ++ variationContent owner name es
    rw [variant_eq_of_thinned owner name e f head, variationContent_eq_of_thinned owner name es fs tail]
end

theorem topLevel_eq_of_thinned {e f : Element} (h : Thinned telling .top e f) :
    topLevel f = topLevel e := by
  obtain ⟨keys, drops, keeps, thinned⟩ := h
  rw [Place.inside] at thinned
  rw [telling] at keeps
  rw [topLevel, topLevel]
  cases henum : e.has "enum" with
  | true =>
    rw [henum, if_pos rfl] at keeps
    rw [drops.has_of_not_mem (keeps "enum" (by simp)), henum, if_pos rfl, if_pos rfl]
    exact enumeration_eq_of_thinned drops.name thinned
  | false =>
    rw [henum, if_neg Bool.false_ne_true] at keeps thinned
    rw [drops.has_eq_false henum, if_neg Bool.false_ne_true, if_neg Bool.false_ne_true]
    simp only [drops.name, drops.table?_eq, content_eq_of_thinned _ _ _ thinned,
      drops.has_of_not_mem (keeps "multiple" (by simp)),
      drops.has_of_not_mem (keeps "variation" (by simp)),
      drops.forbiddenProblems_eq fun k hk hm => keeps k
        (by rcases eq_key_or_name_of_forbidden k hk hm with rfl | rfl <;> simp)]

theorem ofElement_eq_of_thinned {root thinned : Element} (h : Thinned telling .document root thinned) :
    ofElement thinned = ofElement root := by
  obtain ⟨-, -, -, h⟩ := h
  rw [Place.inside] at h
  rw [ofElement, ofElement]
  generalize root.children = es at h
  generalize thinned.children = fs at h
  induction es generalizing fs with
  | nil =>
    cases h
    rfl
  | cons e es ih =>
    obtain _ | @⟨_, _, f, _, fs, head, tail⟩ := h
    rw [List.foldr_cons, List.foldr_cons, topLevel_eq_of_thinned head, ih fs tail]

/-- A document reads the same without markers that are spelled off, wherever they do not count by being
there. -/
theorem read_eq_of_thinned {text thinnedText : String} {root thinned : Element}
    (htext : Element.parse text = .ok root) (hthinned : Element.parse thinnedText = .ok thinned)
    (h : Thinned telling .document root thinned) : read thinnedText = read text := by
  rw [read_of_parse htext, read_of_parse hthinned, ofElement_eq_of_thinned h]

/-- A bill with markers that are spelled off, on an aggregate, a field and children. -/
def markedBill : Element := ⟨"all", [], [⟨"Bill", [("required", "0")], [
  ⟨"no", [("type", "word"), ("key", " 0 ")], []⟩,
  ⟨"Line", [("multiple", "1"), ("abstract", "false")], []⟩]⟩]⟩

def unmarkedBill : Element := ⟨"all", [], [⟨"Bill", [], [
  ⟨"no", [("type", "word")], []⟩, ⟨"Line", [("multiple", "1")], []⟩]⟩]⟩

theorem read_eq_of_thinned_markedBill :
    Thinned telling .document markedBill unmarkedBill ∧
      read "<all><Bill><no type='word'/><Line multiple='1'/></Bill></all>" =
        read ("<all><Bill required='0'><no type='word' key=' 0 '/>" ++
          "<Line multiple='1' abstract='false'/></Bill></all>") := by
  have hno : Thinned telling .aggregate ⟨"no", [("type", "word"), ("key", " 0 ")], []⟩
      ⟨"no", [("type", "word")], []⟩ :=
    .mk ["key"] ⟨rfl, rfl, by decide, by decide⟩ (by decide) .nil
  have hline : Thinned telling .aggregate ⟨"Line", [("multiple", "1"), ("abstract", "false")], []⟩
      ⟨"Line", [("multiple", "1")], []⟩ :=
    .mk ["abstract"] ⟨rfl, rfl, by decide, by decide⟩ (by decide) .nil
  have hall : Thinned telling .document markedBill unmarkedBill :=
    .mk [] ⟨rfl, rfl, by decide, by decide⟩ (by decide) (.cons
      (.mk ["required"] ⟨rfl, rfl, by decide, by decide⟩ (by decide) (.cons hno (.cons hline .nil)))
      .nil)
  exact ⟨hall, read_eq_of_thinned rfl rfl hall⟩

/-- Of a marker that no root aggregate may have, it does not matter that it is spelled off. -/
theorem read_ne_of_keyedBill :
    Thinned (fun _ _ => []) .document ⟨"all", [], [⟨"Bill", [("key", "false")], []⟩]⟩
      ⟨"all", [], [⟨"Bill", [], []⟩]⟩ ∧
    Element.parse "<all><Bill key='false'/></all>" =
      .ok ⟨"all", [], [⟨"Bill", [("key", "false")], []⟩]⟩ ∧
    Element.parse "<all><Bill/></all>" = .ok ⟨"all", [], [⟨"Bill", [], []⟩]⟩ ∧
    (read "<all><Bill key='false'/></all>").2.map (·.message) =
      ["Aggregate '/Bill' cannot have attribute 'key'."] ∧
    (read "<all><Bill/></all>").2.map (·.message) = [] := by
  refine ⟨?_, rfl, rfl, by decide +kernel, by decide +kernel⟩
  exact .mk [] ⟨rfl, rfl, by decide, by decide⟩ (by decide) (.cons
    (.mk ["key"] ⟨rfl, rfl, by decide, by decide⟩ (by decide) .nil) .nil)

end AggregateSchema.Document
