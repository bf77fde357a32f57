import AggregateSchema.Compilation
import AggregateSchema.Proofs.Reports
import AggregateSchema.Proofs.Traversal

/-! Documents that are read file by file against one document that holds all their elements. -/
namespace AggregateSchema

namespace Document

open Xml (Element)

/-- What elements declare side by side. -/
def ofElements (es : List Element) : Reading := es.foldr (fun e r => topLevel e ++ r) .nothing

theorem ofElement_eq (root : Element) : ofElement root = ofElements root.children := rfl

theorem ofElements_append (es fs : List Element) :
    ofElements (es ++ fs) = ofElements es ++ ofElements fs := by
  induction es with
  | nil => rfl
  | cons e es ih =>
    show topLevel e ++ ofElements (es ++ fs) = topLevel e ++ ofElements es ++ ofElements fs
    rw [ih, Reading.append_assoc]

end Document

/-- A file that holds a well-formed document. -/
structure DocumentFile where
  name : String
  text : String
  root : Xml.Element
  parsed : Xml.Element.parse text = .ok root

namespace DocumentFile

/-- The problems of a document, each with the file that it was found in. -/
def found (f : DocumentFile) : List (String × String) :=
  (Document.ofElement f.root).problems.map fun p => (f.name, p.message)

end DocumentFile

/-- A problem as it is reported under its file. -/
def underName (x : String × String) : String := x.1 ++ ": " ++ x.2

namespace Source

theorem ofDocument_of_parse {text : String} {root : Xml.Element}
    (h : Xml.Element.parse text = .ok root) : ofDocument text =
      ⟨(Document.ofElement root).draft,
        .ofList ((Document.ofElement root).problems.map DocumentProblem.message), 1⟩ := by
  rw [ofDocument, Document.read_of_parse h]

theorem underFile_ofDocument (f : DocumentFile) : (ofDocument f.text).underFile f.name =
    ⟨(Document.ofElement f.root).draft, .ofList (f.found.map underName), 1⟩ := by
  rw [ofDocument_of_parse f.parsed, underFile, Report.ofList_map_messages, DocumentFile.found,
    List.map_map, List.map_map]
  rfl

theorem fromUTF8?_toUTF8 (text : String) : String.fromUTF8? text.toUTF8 = some text := by
  rw [String.fromUTF8?, String.toUTF8, dif_pos text.isValidUTF8]
  rfl

/-- Files are read as all that they declare, in order, with their problems under their names. -/
theorem ofFiles_eq (files : List DocumentFile) :
    ofFiles (files.map fun f => (f.name, f.text.toUTF8)) = .ok
      ⟨(Document.ofElements (files.flatMap (·.root.children))).draft,
        .ofList ((files.flatMap (·.found)).map underName), files.length⟩ := by
  induction files with
  | nil => rfl
  | cons f files ih =>
    have hcons : ofFiles ((f :: files).map fun f => (f.name, f.text.toUTF8)) =
        (ofFiles (files.map fun f => (f.name, f.text.toUTF8))).map
          fun s => (ofDocument f.text).underFile f.name ++ s := by
      rw [List.map_cons, ofFiles, fromUTF8?_toUTF8]
      cases ofFiles (files.map fun f => (f.name, f.text.toUTF8)) <;> rfl
    rw [hcons, ih, underFile_ofDocument, List.flatMap_cons, List.flatMap_cons, List.map_append,
      Document.ofElements_append, ← Report.merge_ofList, List.length_cons, Nat.add_comm]
    rfl

end Source

/-- The problems of the documents are those of all their elements together. -/
theorem map_snd_found (files : List DocumentFile) : (files.flatMap (·.found)).map Prod.snd =
    (Document.ofElements (files.flatMap (·.root.children))).problems.map DocumentProblem.message := by
  induction files with
  | nil => rfl
  | cons f files ih =>
    rw [List.flatMap_cons, List.flatMap_cons, List.map_append, ih, Document.ofElements_append,
      Reading.problems_append, List.map_append, DocumentFile.found, List.map_map]
    rfl

/-- Whether two different problems may read alike under the names of their files. -/
def IsToldApart (found : List (String × String)) : Prop :=
  ∀ x ∈ found, ∀ y ∈ found, underName x = underName y → x = y

/-- What stands before a mark in one text and before the same mark in the other. -/
theorem eq_nil_or_prefix_of_append_eq {between before after : List Char}
    (h : ':' :: ' ' :: before = between ++ ':' :: ' ' :: after) :
    between = [] ∨ [':', ' '] <+: between := by
  match between, h with
  | [], _ => exact Or.inl rfl
  | [_], h => cases h
  | c :: d :: rest, h =>
    obtain ⟨rfl, rfl, -⟩ : ':' = c ∧ ' ' = d ∧ _ := by simpa using h
    exact Or.inr ⟨rest, rfl⟩

theorem eq_or_prefix_of_append_eq {x y : String × String} {between : List Char}
    (hname : y.1.toList = x.1.toList ++ between)
    (hrest : ':' :: ' ' :: x.2.toList = between ++ ':' :: ' ' :: y.2.toList) :
    x = y ∨ x.1.toList ++ [':', ' '] <+: y.1.toList := by
  rcases eq_nil_or_prefix_of_append_eq hrest with rfl | hp
  · rw [List.append_nil, String.toList_inj] at hname
    have hproblem : x.2.toList = y.2.toList := by simpa using hrest
    exact Or.inl (Prod.ext hname.symm (String.toList_inj.1 hproblem))
  · exact Or.inr (hname ▸ (List.prefix_append_right_inj _).2 hp)

/-- Problems that read alike are one, or the name of one file continues that of the other after a
colon. -/
theorem eq_of_underName_eq {x y : String × String} (h : underName x = underName y) :
    x = y ∨ x.1.toList ++ [':', ' '] <+: y.1.toList ∨ y.1.toList ++ [':', ' '] <+: x.1.toList := by
  have hlists : x.1.toList ++ ':' :: ' ' :: x.2.toList = y.1.toList ++ ':' :: ' ' :: y.2.toList := by
    have h := congrArg String.toList h
    simpa [underName] using h
  rcases List.append_eq_append_iff.1 hlists with ⟨between, hname, hrest⟩ | ⟨between, hname, hrest⟩
  · exact (eq_or_prefix_of_append_eq hname hrest).imp_right Or.inl
  · exact (eq_or_prefix_of_append_eq hname hrest).imp Eq.symm Or.inr

/-- Names of files of which none continues another one after a colon tell all problems apart. -/
theorem isToldApart_found {files : List DocumentFile} (h : ∀ f ∈ files, ∀ g ∈ files,
    ¬ f.name.toList ++ [':', ' '] <+: g.name.toList) : IsToldApart (files.flatMap (·.found)) := by
  intro x hx y hy hxy
  obtain ⟨f, hf, hx⟩ := List.mem_flatMap.1 hx
  obtain ⟨g, hg, hy⟩ := List.mem_flatMap.1 hy
  obtain ⟨p, -, rfl⟩ := List.mem_map.1 hx
  obtain ⟨q, -, rfl⟩ := List.mem_map.1 hy
  rcases eq_of_underName_eq hxy with h' | h' | h'
  · exact h'
  · exact absurd h' (h f hf g hg)
  · exact absurd h' (h g hg f hf)

/-- What files come to when they are read one by one and merged, against what one document comes to: the
same declarations, and the same problems, which the merged report gives under the names of the files. If
these are told apart there, as they are if no name of a file continues another one after a colon, the
merged report without the names is the other one. -/
structure MergesInto (files : List DocumentFile) (merged single : Source) : Prop where
  read : Source.ofFiles (files.map fun f => (f.name, f.text.toUTF8)) = .ok merged
  directory : ∀ directory, files ≠ [] → (∀ f ∈ files, Language.xml.reads f.name = true) →
    Source.ofDirectory .xml directory (files.map fun f => (f.name, f.text.toUTF8)) = .ok merged
  draft : merged.draft = single.draft
  resolve : ∀ registry, merged.draft.resolve registry = single.draft.resolve registry
  accept : ∀ registry schema,
    merged.resolve registry = .ok schema ↔ single.resolve registry = .ok schema
  named : merged.report = .ofList ((files.flatMap (·.found)).map underName)
  unnamed : single.report = .ofList ((files.flatMap (·.found)).map Prod.snd)
  apart : (∀ f ∈ files, ∀ g ∈ files, ¬ f.name.toList ++ [':', ' '] <+: g.name.toList) →
    IsToldApart (files.flatMap (·.found))
  stripped : IsToldApart (files.flatMap (·.found)) →
    merged.report.messages = (firsts id (files.flatMap (·.found))).map underName ∧
      single.report = .ofList ((firsts id (files.flatMap (·.found))).map Prod.snd)

theorem Source.resolve_eq_ok_iff {s : Source} {registry : TypeRegistry} {schema : Schema} :
    s.resolve registry = .ok schema ↔
      s.draft.resolve registry = .ok schema ∧ s.report.messages = [] := by
  rw [Source.resolve]
  cases s.draft.resolve registry with
  | error ps => simp
  | ok t => simp [Report.toExcept_eq_ok_iff, and_comm]

theorem Source.ofDirectory_eq {files : List DocumentFile} {directory : String} {merged : Source}
    (hfiles : files ≠ []) (hreads : ∀ f ∈ files, Language.xml.reads f.name = true)
    (h : Source.ofFiles (files.map fun f => (f.name, f.text.toUTF8)) = .ok merged) :
    Source.ofDirectory .xml directory (files.map fun f => (f.name, f.text.toUTF8)) = .ok merged := by
  have hall : (files.map fun f => (f.name, f.text.toUTF8)).filter (fun f => Language.xml.reads f.1) =
      files.map fun f => (f.name, f.text.toUTF8) :=
    List.filter_eq_self.2 (List.forall_mem_map.2 hreads)
  have hcount : merged.files ≠ 0 := by
    rw [Source.ofFiles_eq, Except.ok.injEq] at h
    exact h ▸ mt List.length_eq_zero_iff.1 hfiles
  rw [Source.ofDirectory, hall, h]
  exact if_neg hcount

/-- Splitting a document over files changes nothing in what is declared, and of the problems only the
names of the files before them. -/
theorem mergesInto_ofDocument (files : List DocumentFile) (whole : DocumentFile)
    (h : whole.root.children = files.flatMap (·.root.children)) :
    ∃ merged, MergesInto files merged (.ofDocument whole.text) := by
  have hwhole : Document.ofElement whole.root =
      Document.ofElements (files.flatMap (·.root.children)) := h ▸ Document.ofElement_eq whole.root
  have hsingle := Source.ofDocument_of_parse whole.parsed
  rw [hwhole, ← map_snd_found] at hsingle
  rw [hsingle]
  refine ⟨_, Source.ofFiles_eq files,
    fun _ hfiles hreads => Source.ofDirectory_eq hfiles hreads (Source.ofFiles_eq files), rfl,
    fun _ => rfl, fun registry schema => ?_, rfl, rfl, isToldApart_found, fun hapart => ⟨?_, ?_⟩⟩
  · simp only [Source.resolve_eq_ok_iff, Report.messages_ofList_eq_nil_iff, List.map_eq_nil_iff]
  · rw [Report.messages_ofList, firsts_map hapart]
  · exact (Report.ofList_map_firsts Prod.snd _).symm

def customers : Xml.Element := ⟨"Customer", [("multiple", "1")], []⟩

def keyOrders : Xml.Element := ⟨"Order", [("key", "1")], [⟨"id", [("type", "word")], []⟩]⟩

/-- Two files with one problem in both and one in the second alone. -/
def splitOrders : List DocumentFile := [
  ⟨"schema/customer.xml", "<schema><Customer multiple='1'/></schema>",
    ⟨"schema", [], [customers]⟩, rfl⟩,
  ⟨"schema/sales/order.xml",
    "<schema><Customer multiple='1'/><Order key='1'><id type='word'/></Order></schema>",
    ⟨"schema", [], [customers, keyOrders]⟩, rfl⟩]

def joinedOrders : DocumentFile :=
  ⟨"schema.xml", "<all><Customer multiple='1'/>" ++
    "<Customer multiple='1'/><Order key='1'><id type='word'/></Order></all>",
    ⟨"all", [], [customers, customers, keyOrders]⟩, rfl⟩

theorem mergesInto_ofDocument_splitOrders :
    joinedOrders.root.children = splitOrders.flatMap (·.root.children) ∧ ∃ merged,
      MergesInto splitOrders merged (.ofDocument joinedOrders.text) ∧ merged.report.messages = [
        "schema/customer.xml: Root aggregate '/Customer' cannot be multiple.",
        "schema/sales/order.xml: Root aggregate '/Customer' cannot be multiple.",
        "schema/sales/order.xml: Aggregate '/Order' cannot have attribute 'key'."] ∧
      (Source.ofDocument joinedOrders.text).report.messages = [
        "Root aggregate '/Customer' cannot be multiple.",
        "Aggregate '/Order' cannot have attribute 'key'."] := by
  obtain ⟨merged, h⟩ := mergesInto_ofDocument splitOrders joinedOrders rfl
  have hapart : IsToldApart (splitOrders.flatMap (·.found)) := h.apart (by decide +kernel)
  obtain ⟨hmerged, hsingle⟩ := h.stripped hapart
  exact ⟨rfl, merged, h, hmerged.trans (by decide +kernel), hsingle ▸ (by decide +kernel)⟩

/-- Files of which the name of one is continued by that of the other, up to a problem. -/
def continuedFiles : List DocumentFile := [
  ⟨"schema/a.xml",
    "<schema><Mode enum='1'><On value='b.xml: Value &apos;x'/></Mode></schema>",
    ⟨"schema", [], [⟨"Mode", [("enum", "1")], [⟨"On", [("value", "b.xml: Value 'x")], []⟩]⟩]⟩,
    rfl⟩,
  ⟨"schema/a.xml: Value 'b.xml", "<schema><Mode enum='1'><On value='x'/></Mode></schema>",
    ⟨"schema", [], [⟨"Mode", [("enum", "1")], [⟨"On", [("value", "x")], []⟩]⟩]⟩, rfl⟩]

def joinedFiles : DocumentFile :=
  ⟨"schema/a.xml", "<all><Mode enum='1'><On value='b.xml: Value &apos;x'/></Mode>" ++
    "<Mode enum='1'><On value='x'/></Mode></all>",
    ⟨"all", [], [⟨"Mode", [("enum", "1")], [⟨"On", [("value", "b.xml: Value 'x")], []⟩]⟩,
      ⟨"Mode", [("enum", "1")], [⟨"On", [("value", "x")], []⟩]⟩]⟩, rfl⟩

/-- Two problems that read alike under the names of their files are reported as one, so that the other
is lost whatever is taken off the reported ones. -/
theorem not_stripped_of_continuedFiles :
    joinedFiles.root.children = continuedFiles.flatMap (·.root.children) ∧ ∃ merged,
      Source.ofFiles (continuedFiles.map fun f => (f.name, f.text.toUTF8)) = .ok merged ∧
      ∀ strip : String → String, Report.ofList (merged.report.messages.map strip) ≠
        (Source.ofDocument joinedFiles.text).report := by
  refine ⟨rfl, _, Source.ofFiles_eq continuedFiles, fun strip h => ?_⟩
  have hone : (Report.ofList ((continuedFiles.flatMap (·.found)).map underName)).messages.length = 1 :=
    by decide +kernel
  have htwo : (Source.ofDocument joinedFiles.text).report.messages.length = 2 := by decide +kernel
  obtain ⟨message, hmessage⟩ := List.length_eq_one_iff.1 hone
  rw [← h, hmessage, Report.messages_ofList] at htwo
  cases htwo

end AggregateSchema
