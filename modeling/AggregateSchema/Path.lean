import AggregateSchema.Text.Blank
import AggregateSchema.Text.Split

/-! Paths: the address of an aggregate, from the name of its root to its own. -/
namespace AggregateSchema

/-- Stands before every segment of a path's text. -/
def separator : Char := '/'

/-- What makes a text or a list of names no path. -/
inductive PathProblem where
  | noSegment
  | separatorInSegment (segment : String)
  | blankSegment (index : Nat) (segments : List String)
  | noLeadingSeparator (text : String)
  | emptyLastSegment (text : String)
  | inText (text : String) (problem : PathProblem)
  deriving DecidableEq, Repr

/-- The text of a list of names, be they a path or not. -/
def slashed (segments : List String) : String :=
  String.ofList (Text.joinAfter separator (segments.map String.toList))

namespace PathProblem

def message : PathProblem → String
  | noSegment => "Aggregate path must have at least one segment."
  | separatorInSegment segment => s!"Aggregate path segment '{segment}' must not contain '/'."
  | blankSegment index segments =>
    s!"Aggregate path segment #{index + 1} of '{slashed segments}' is empty."
  | noLeadingSeparator text => s!"Aggregate path '{text}' must start with '/'."
  | emptyLastSegment text => s!"Aggregate path '{text}' has an empty last segment."
  | inText text problem => s!"'{text}': {problem.message}"

/-- The report on a text or names that were taken for a path. -/
def abortText (problem : PathProblem) : String := s!"invalid aggregate path: {problem.message}"

end PathProblem

/-- Names that form a path: at least one, none blank, and none with a separator inside. -/
structure IsPath (segments : List String) : Prop where
  nonempty : segments ≠ []
  unseparated : ∀ s ∈ segments, separator ∉ s.toList
  nonblank : ∀ s ∈ segments, Text.isBlank s = false

structure Path where
  segments : List String
  valid : IsPath segments

namespace Path

@[ext] theorem ext {p q : Path} (h : p.segments = q.segments) : p = q := by
  cases p
  cases q
  simp_all

/-- Paths of different length are told apart before their names are compared. -/
instance : DecidableEq Path := fun p q =>
  if hl : p.segments.length = q.segments.length then
    if h : p.segments = q.segments then isTrue (ext h)
    else isFalse fun e => h (congrArg segments e)
  else isFalse fun e => hl (congrArg (·.segments.length) e)

/-- The path of the given names, root first. A separator inside a name is found before a blank
name. -/
def ofSegments (segments : List String) : Except PathProblem Path :=
  if hn : segments = [] then .error .noSegment
  else match hs : segments.find? (fun s => separator ∈ s.toList) with
    | some s => .error (.separatorInSegment s)
    | none => match hb : segments.findIdx? Text.isBlank with
      | some i => .error (.blankSegment i segments)
      | none => .ok ⟨segments, hn, by simpa using hs, by simpa using hb⟩

/-- Reads the text of a path. -/
def parse (text : String) : Except PathProblem Path :=
  match text.toList with
  | [] => .error (.noLeadingSeparator text)
  | c :: rest =>
    if c ≠ separator then .error (.noLeadingSeparator text)
    else if rest.all Text.isBlankChar || rest.getLast? == some separator then
      .error (.emptyLastSegment text)
    else (ofSegments ((Text.split separator rest).map String.ofList)).mapError (.inText text)

def toText (p : Path) : String := slashed p.segments

instance : ToString Path := ⟨toText⟩

def isRoot (p : Path) : Bool := p.segments.length == 1

/-- The number of paths above. -/
def depth (p : Path) : Nat := p.segments.length - 1

def baseName (p : Path) : String := p.segments.getLast p.valid.nonempty

def rootName (p : Path) : String := p.segments.head p.valid.nonempty

/-- The path without its last name; a root has none. -/
def parent? (p : Path) : Option Path :=
  if h : 1 < p.segments.length then
    some ⟨p.segments.dropLast, by
      refine ⟨fun e => ?_, fun s hs => p.valid.unseparated s (List.dropLast_subset _ hs),
        fun s hs => p.valid.nonblank s (List.dropLast_subset _ hs)⟩
      have := congrArg List.length e
      simp at this
      omega⟩
  else none

/-- The path one name further down. -/
def child (p : Path) (name : String) : Except PathProblem Path := ofSegments (p.segments ++ [name])

/-- Whether `p` lies strictly below `q`. -/
def isBelow (p q : Path) : Bool :=
  q.segments.length < p.segments.length && q.segments.isPrefixOf p.segments

def compareSegments : List String → List String → Ordering
  | [], [] => .eq
  | [], _ :: _ => .lt
  | _ :: _, [] => .gt
  | x :: xs, y :: ys => if x < y then .lt else if y < x then .gt else compareSegments xs ys

/-- Names in turn, by code point; a path comes before those below it. -/
def compare (p q : Path) : Ordering := compareSegments p.segments q.segments

theorem ofSegments_segments (p : Path) : ofSegments p.segments = .ok p := by
  have hs : p.segments.find? (fun s => separator ∈ s.toList) = none := by
    simpa using p.valid.unseparated
  have hb : p.segments.findIdx? Text.isBlank = none := by simpa using p.valid.nonblank
  unfold ofSegments
  rw [dif_neg p.valid.nonempty]
  split
  · simp_all
  · split
    · simp_all
    · rfl

theorem segments_of_ofSegments {segments : List String} {p : Path}
    (h : ofSegments segments = .ok p) : p.segments = segments := by
  unfold ofSegments at h
  split at h
  · cases h
  · split at h
    · cases h
    · split at h
      · cases h
      · cases h
        rfl

/-- The text of a path is the text that it was read from. -/
theorem toText_of_parse {text : String} {p : Path} (h : parse text = .ok p) : p.toText = text := by
  unfold parse at h
  split at h
  · cases h
  · rename_i c rest ht
    split at h
    · cases h
    · rename_i hc
      split at h
      · cases h
      · cases hs : ofSegments ((Text.split separator rest).map String.ofList) with
        | error e =>
          rw [hs] at h
          cases h
        | ok q =>
          rw [hs] at h
          obtain rfl : q = p := Except.ok.inj h
          rw [toText, slashed, segments_of_ofSegments hs, List.map_map]
          have hid : String.toList ∘ String.ofList = id := funext fun cs => String.toList_ofList
          rw [hid, List.map_id, Text.joinAfter_split, ← Decidable.not_not.1 hc, ← ht,
            String.ofList_toList]

/-- The names of a path are the pieces of its text. -/
theorem split_toText (p : Path) :
    Text.split separator p.toText.toList.tail = p.segments.map String.toList := by
  obtain ⟨name, names, hp⟩ := List.exists_cons_of_ne_nil p.valid.nonempty
  rw [toText, slashed, String.toList_ofList, hp, List.map_cons, Text.joinAfter, List.flatMap_cons,
    List.cons_append, List.tail_cons]
  refine Text.split_joinAfter fun piece h => ?_
  rw [← List.map_cons, ← hp] at h
  obtain ⟨s, hs, rfl⟩ := List.mem_map.1 h
  exact p.valid.unseparated s hs

/-- Paths are told apart by their texts. -/
theorem eq_of_toText_eq {p q : Path} (h : p.toText = q.toText) : p = q := by
  have hnames : p.segments.map String.toList = q.segments.map String.toList := by
    rw [← split_toText, ← split_toText, h]
  exact ext (List.map_inj_right (fun _ _ => String.toList_inj.1) |>.1 hnames)

theorem segments_of_child {p q : Path} {name : String} (h : p.child name = .ok q) :
    q.segments = p.segments ++ [name] := segments_of_ofSegments h

theorem parent?_of_child {p q : Path} {name : String} (h : p.child name = .ok q) :
    q.parent? = some p := by
  have hs := segments_of_child h
  have hn := List.length_pos_iff.2 p.valid.nonempty
  unfold parent?
  rw [dif_pos (by simp [hs]; omega)]
  simp only [Option.some.injEq]
  ext1
  simp [hs]

theorem parent?_eq_some_iff {p q : Path} :
    p.parent? = some q ↔ ∃ name, p.segments = q.segments ++ [name] := by
  unfold parent?
  constructor
  · intro h
    split at h
    · cases h
      exact ⟨p.baseName, (List.dropLast_concat_getLast p.valid.nonempty).symm⟩
    · cases h
  · rintro ⟨name, h⟩
    have hn := List.length_pos_iff.2 q.valid.nonempty
    rw [dif_pos (by simp [h]; omega), Option.some.injEq]
    ext1
    simp [h]

theorem parent?_eq_none_iff {p : Path} : p.parent? = none ↔ p.isRoot = true := by
  have hn := List.length_pos_iff.2 p.valid.nonempty
  simp only [parent?, dite_eq_right_iff, reduceCtorEq, imp_false, isRoot, beq_iff_eq]
  omega

theorem depth_of_parent? {p q : Path} (h : p.parent? = some q) : p.depth = q.depth + 1 := by
  obtain ⟨name, hs⟩ := parent?_eq_some_iff.1 h
  have hn := List.length_pos_iff.2 q.valid.nonempty
  simp [depth, hs]
  omega

theorem not_isBelow_of_parent?_eq_none {p : Path} (h : p.parent? = none) (q : Path) :
    ¬ p.isBelow q = true := by
  have hp : p.segments.length = 1 := by simpa [isRoot] using parent?_eq_none_iff.1 h
  have hq := List.length_pos_iff.2 q.valid.nonempty
  simp only [isBelow, Bool.and_eq_true, decide_eq_true_eq, not_and]
  omega

/-- What lies above a path is its parent and what lies above that. -/
theorem isBelow_iff_of_parent? {p r : Path} (h : p.parent? = some r) (q : Path) :
    p.isBelow q = true ↔ r = q ∨ r.isBelow q = true := by
  obtain ⟨name, hs⟩ := parent?_eq_some_iff.1 h
  simp only [isBelow, Bool.and_eq_true, decide_eq_true_eq, List.isPrefixOf_iff_prefix, hs,
    List.length_append, List.length_singleton, List.prefix_concat_iff]
  constructor
  · rintro ⟨hl, hq | hq⟩
    · have := congrArg List.length hq
      simp only [List.length_append, List.length_singleton] at this
      omega
    · rcases Nat.lt_or_eq_of_le hq.length_le with hlt | heq
      · exact Or.inr ⟨hlt, hq⟩
      · exact Or.inl (ext (hq.eq_of_length heq).symm)
  · rintro (rfl | ⟨hl, hq⟩)
    · exact ⟨by omega, Or.inr List.prefix_rfl⟩
    · exact ⟨by omega, Or.inr hq⟩

theorem length_lt_of_isBelow {p q : Path} (h : p.isBelow q = true) :
    q.segments.length < p.segments.length := by
  rw [isBelow, Bool.and_eq_true, decide_eq_true_eq] at h
  exact h.1

theorem not_isBelow_self (p : Path) : ¬ p.isBelow p = true := fun h =>
  absurd (length_lt_of_isBelow h) (Nat.lt_irrefl _)

theorem isBelow_trans {p q r : Path} (h : p.isBelow q = true) (k : q.isBelow r = true) :
    p.isBelow r = true := by
  simp only [isBelow, Bool.and_eq_true, decide_eq_true_eq, List.isPrefixOf_iff_prefix] at *
  exact ⟨by omega, k.2.trans h.2⟩

theorem isBelow_of_parent? {p r : Path} (h : p.parent? = some r) : p.isBelow r = true :=
  (isBelow_iff_of_parent? h r).2 (Or.inl rfl)

/-- Nothing lies at or below two paths with one parent. -/
theorem eq_of_isBelow {p q r t : Path} (hp : p.parent? = some r) (hq : q.parent? = some r)
    (htp : t = p ∨ t.isBelow p = true) (htq : t = q ∨ t.isBelow q = true) : p = q := by
  obtain ⟨m, hm⟩ := parent?_eq_some_iff.1 hp
  obtain ⟨n, hn⟩ := parent?_eq_some_iff.1 hq
  have hstart : ∀ {u : Path}, t = u ∨ t.isBelow u = true → u.segments <+: t.segments := by
    intro u hu
    rcases hu with rfl | hu
    · exact List.prefix_rfl
    · simp only [isBelow, Bool.and_eq_true, List.isPrefixOf_iff_prefix] at hu
      exact hu.2
  have hl : p.segments.length = q.segments.length := by simp [hm, hn]
  have hpq := List.prefix_of_prefix_length_le (hstart htp) (hstart htq) (Nat.le_of_eq hl)
  exact ext (hpq.eq_of_length hl)

/-- What lies directly below one path differs by its last name. -/
theorem eq_of_baseName {p q r : Path} (hp : p.parent? = some r) (hq : q.parent? = some r)
    (h : p.baseName = q.baseName) : p = q := by
  have hlast : ∀ {t : Path}, t.parent? = some r → t.segments = r.segments ++ [t.baseName] := by
    intro t ht
    obtain ⟨name, hs⟩ := parent?_eq_some_iff.1 ht
    have hd := List.dropLast_concat_getLast t.valid.nonempty
    rw [show t.segments.dropLast = r.segments by rw [hs, List.dropLast_concat]] at hd
    exact hd.symm
  exact ext (by rw [hlast hp, hlast hq, h])

end Path

end AggregateSchema
