import AggregateSchema.Xml.Element
import AggregateSchema.Proofs.Traversal
import Mathlib.Data.List.Induction

/-! Sequences of events as the written form of trees: reading accepts exactly the events of one
element. -/
namespace AggregateSchema.Xml

/-- Whether an event opens or closes an element. -/
def Event.isElement : Event → Bool
  | .other => false
  | _ => true

/-- The events of the elements alone, without text, comments and the like. -/
def elementEvents (events : List Event) : List Event := events.filter Event.isElement

theorem elementEvents_eq_self {events part : List Event} (h : part ⊆ elementEvents events) :
    elementEvents part = part :=
  List.filter_eq_self.2 fun _ hx => (List.mem_filter.1 (h hx)).2

/-- Events that stand for elements side by side, given how the heads of elements are read. One without
content may be a single event. -/
inductive Renders (head : Tag → Except TagProblem Head) : List Element → List Event → Prop
  | nil : Renders head [] []
  | empty {tag : Tag} {name : String} {attributes : List (String × String)} {rest : List Element}
      {after : List Event} : head tag = .ok ⟨name, attributes⟩ → Renders head rest after →
      Renders head (⟨name, attributes, []⟩ :: rest) (.empty tag :: after)
  | pair {tag : Tag} {name : String} {attributes : List (String × String)}
      {children rest : List Element} {inner after : List Event} :
      head tag = .ok ⟨name, attributes⟩ → Renders head children inner → Renders head rest after →
      Renders head (⟨name, attributes, children⟩ :: rest) (.start tag :: (inner ++ .close :: after))

section
variable {head : Tag → Except TagProblem Head}

theorem Renders.append {es fs : List Element} {events more : List Event} (h : Renders head es events)
    (k : Renders head fs more) : Renders head (es ++ fs) (events ++ more) := by
  induction h with
  | nil => exact k
  | empty ht _ ih => exact .empty ht ih
  | pair ht hinner _ _ ih =>
    have := Renders.pair ht hinner ih
    simpa using this

theorem renders_nil_iff {events : List Event} : Renders head [] events ↔ events = [] :=
  ⟨fun h => by cases h; rfl, fun h => h ▸ .nil⟩

/-- Events of several elements are those of the first one and then those of the others. -/
theorem Renders.exists_append {e : Element} {es : List Element} {events : List Event}
    (h : Renders head (e :: es) events) :
    ∃ first rest, events = first ++ rest ∧ Renders head [e] first ∧ Renders head es rest := by
  cases h with
  | empty ht hrest => exact ⟨[.empty _], _, rfl, .empty ht .nil, hrest⟩
  | @pair tag _ _ _ _ inner after ht hinner hrest =>
    exact ⟨.start tag :: (inner ++ [.close]), after, by simp, .pair ht hinner .nil, hrest⟩

end

/-- Events that stand for open elements, the innermost first, with the closed ones inside them. -/
inductive RendersOpen (head : Tag → Except TagProblem Head) : List Element → List Event → Prop
  | nil : RendersOpen head [] []
  | start {tag : Tag} {name : String} {attributes : List (String × String)}
      {children outer : List Element} {before inner : List Event} : RendersOpen head outer before →
      head tag = .ok ⟨name, attributes⟩ → Renders head children inner →
      RendersOpen head (⟨name, attributes, children⟩ :: outer) (before ++ .start tag :: inner)

namespace Growth
variable {head : Tag → Except TagProblem Head} {g : Growth} {tag : Tag} {name : String}
  {attributes : List (String × String)}

theorem element_eq_ok_iff {e : Element} : element head tag = .ok e ↔
    head tag = .ok ⟨e.name, e.attributes⟩ ∧ e.children = [] := by
  obtain ⟨name, attributes, children⟩ := e
  rw [element, map_eq_ok_iff]
  cases head tag with
  | error p => simp [Except.mapError]
  | ok found =>
    obtain ⟨n, as⟩ := found
    simp [Except.mapError, eq_comm, and_assoc]

theorem element_of_head (h : head tag = .ok ⟨name, attributes⟩) :
    element head tag = .ok ⟨name, attributes, []⟩ :=
  element_eq_ok_iff.2 ⟨h, rfl⟩

theorem step_start (h : head tag = .ok ⟨name, attributes⟩) :
    g.step head (.start tag) = .ok { g with pending := ⟨name, attributes, []⟩ :: g.pending } := by
  rw [step, element_of_head h]
  rfl

theorem step_empty (h : head tag = .ok ⟨name, attributes⟩) :
    g.step head (.empty tag) = g.attach ⟨name, attributes, []⟩ := by
  rw [step, element_of_head h]
  rfl

theorem step_of_unreadable {p : TagProblem} {event : Event} (h : head tag = .error p)
    (hevent : event = .start tag ∨ event = .empty tag) : g.step head event = .error (.tag p) := by
  rcases hevent with rfl | rfl
  all_goals
    rw [step, element, h]
    rfl

/-- What is no event of an element leaves everything as it is. -/
theorem foldlM_step_elementEvents (g : Growth) (events : List Event) :
    (elementEvents events).foldlM (step head) g = events.foldlM (step head) g := by
  induction events generalizing g with
  | nil => rfl
  | cons event events ih =>
    cases event with
    | other => exact ih g
    | _ => exact bind_congr_of_ok fun g _ => ih g

/-- Elements that are opened and closed again become the last children of the innermost open one. -/
theorem foldlM_step_of_renders {closed : List Element} {events : List Event}
    (h : Renders head closed events) (o : Element) (outer : List Element) (root? : Option Element) :
    events.foldlM (step head) ⟨o :: outer, root?⟩ =
      .ok ⟨{ o with children := o.children ++ closed } :: outer, root?⟩ := by
  induction h generalizing o outer with
  | nil =>
    cases o
    rw [List.append_nil]
    rfl
  | empty ht _ ih =>
    rw [foldlM_cons_of_ok (step_empty ht), ih]
    simp
  | pair ht _ _ ihinner ih =>
    rw [foldlM_cons_of_ok (step_start ht), foldlM_append_of_ok (ihinner _ _), foldlM_cons_of_ok rfl, ih]
    simp

theorem foldlM_step_of_renders_singleton {e : Element} {events : List Event}
    (h : Renders head [e] events) (g : Growth) : events.foldlM (step head) g = g.attach e := by
  cases h with
  | empty ht hrest =>
    cases hrest
    rw [List.foldlM_cons, step_empty ht]
    exact bind_pure _
  | pair ht hinner hrest =>
    cases hrest
    rw [foldlM_cons_of_ok (step_start ht),
      foldlM_append_of_ok (foldlM_step_of_renders hinner _ _ _)]
    exact bind_pure _

theorem foldlM_step_of_renders_pair {t u : Element} {closed : List Event}
    (h : Renders head [t, u] closed) (after : List Event) :
    (closed ++ after).foldlM (step head) seed = .error (.secondRoot u.name) := by
  obtain ⟨first, second, rfl, ht, hu⟩ := h.exists_append
  have hfirst : first.foldlM (step head) seed = .ok ⟨[], some t⟩ :=
    foldlM_step_of_renders_singleton ht seed
  rw [List.append_assoc, foldlM_append_of_ok hfirst, List.foldlM_append,
    foldlM_step_of_renders_singleton hu]
  rfl

theorem foldlM_step_of_rendersOpen {pending : List Element} {events : List Event}
    (h : RendersOpen head pending events) (root? : Option Element) :
    events.foldlM (step head) ⟨[], root?⟩ = .ok ⟨pending, root?⟩ := by
  induction h with
  | nil => rfl
  | start _ ht hinner ih =>
    rw [foldlM_append_of_ok ih, foldlM_cons_of_ok (step_start ht)]
    exact foldlM_step_of_renders hinner _ _ _

/-- The events stand for the root, if there is one, and then for what is open. -/
def Holds (head : Tag → Except TagProblem Head) (g : Growth) (events : List Event) : Prop :=
  ∃ closed opened, events = closed ++ opened ∧ Renders head g.root?.toList closed ∧
    RendersOpen head g.pending opened

theorem foldlM_step_of_holds {events : List Event} (h : g.Holds head events) :
    events.foldlM (step head) seed = .ok g := by
  obtain ⟨pending, root?⟩ := g
  obtain ⟨closed, opened, rfl, hclosed, hopened⟩ := h
  cases root? with
  | none =>
    cases hclosed
    exact foldlM_step_of_rendersOpen hopened none
  | some t =>
    rw [foldlM_append_of_ok (foldlM_step_of_renders_singleton hclosed seed)]
    exact foldlM_step_of_rendersOpen hopened (some t)

/-- A closed element comes after what it is put into. -/
theorem Holds.attach {k : Growth} {e : Element} {events more : List Event} (h : g.Holds head events)
    (he : Renders head [e] more) (hk : g.attach e = .ok k) : k.Holds head (events ++ more) := by
  obtain ⟨pending, root?⟩ := g
  obtain ⟨closed, opened, rfl, hclosed, hopened⟩ := h
  cases hopened with
  | nil =>
    cases root? with
    | none =>
      cases hclosed
      obtain rfl := Except.ok.inj hk
      exact ⟨more, [], by simp, he, .nil⟩
    | some t => cases hk
  | @start tag name attributes children outer before inner hbefore ht hinner =>
    obtain rfl := Except.ok.inj hk
    exact ⟨closed, before ++ .start tag :: (inner ++ more), by simp, hclosed,
      .start hbefore ht (hinner.append he)⟩

/-- What comes of an event after those that a state holds: an element is opened, or one that ends with
the event is attached to what precedes it, or the event is refused. -/
inductive Outcome (head : Tag → Except TagProblem Head) (g : Growth) (events : List Event) :
    Event → Except XmlProblem Growth → Prop
  | other : Outcome head g events .other (.ok g)
  | opened {tag : Tag} {name : String} {attributes : List (String × String)} :
      head tag = .ok ⟨name, attributes⟩ →
      Outcome head g events (.start tag) (.ok { g with pending := ⟨name, attributes, []⟩ :: g.pending })
  | closed {k : Growth} {e : Element} {before more : List Event} {event : Event} : k.Holds head before →
      Renders head [e] more → events ++ elementEvents [event] = before ++ more →
      Outcome head g events event (k.attach e)
  | unreadable {tag : Tag} {p : TagProblem} {event : Event} : head tag = .error p →
      event = .start tag ∨ event = .empty tag → Outcome head g events event (.error (.tag p))
  | surplus : g.pending = [] → Outcome head g events .close (.error .surplusClose)

theorem Holds.outcome {events : List Event} (h : g.Holds head events) (event : Event) :
    Outcome head g events event (g.step head event) := by
  cases event with
  | start tag =>
    cases ht : head tag with
    | error p => exact step_of_unreadable ht (Or.inl rfl) ▸ .unreadable ht (Or.inl rfl)
    | ok found => exact step_start ht ▸ .opened ht
  | empty tag =>
    cases ht : head tag with
    | error p => exact step_of_unreadable ht (Or.inr rfl) ▸ .unreadable ht (Or.inr rfl)
    | ok found => exact step_empty ht ▸ .closed h (.empty ht .nil) rfl
  | close =>
    obtain ⟨pending, root?⟩ := g
    cases pending with
    | nil => exact .surplus rfl
    | cons e outer =>
      obtain ⟨closed, opened, rfl, hclosed, hopened⟩ := h
      cases hopened with
      | start hbefore ht hinner =>
        exact .closed (k := ⟨outer, root?⟩) ⟨closed, _, rfl, hclosed, hbefore⟩
          (.pair ht hinner .nil) (by simp [elementEvents, Event.isElement])
  | other => exact .other

theorem Holds.step {k : Growth} {event : Event} {events : List Event} (h : g.Holds head events)
    (hk : g.step head event = .ok k) : k.Holds head (events ++ elementEvents [event]) := by
  have houtcome := h.outcome event
  rw [hk] at houtcome
  generalize hr : (Except.ok k : Except XmlProblem Growth) = r at houtcome
  cases houtcome with
  | other =>
    obtain rfl := Except.ok.inj hr
    simpa [elementEvents, Event.isElement] using h
  | opened ht =>
    obtain rfl := Except.ok.inj hr
    obtain ⟨closed, opened, rfl, hclosed, hopened⟩ := h
    exact ⟨closed, opened ++ [.start _], by simp [elementEvents, Event.isElement], hclosed,
      .start hopened ht .nil⟩
  | closed hbefore he hevents => exact hevents ▸ hbefore.attach he hr.symm
  | unreadable => cases hr
  | surplus => cases hr

/-- The state after some events is the one that they stand for. -/
theorem foldlM_step_eq_ok_iff {events : List Event} :
    events.foldlM (step head) seed = .ok g ↔ g.Holds head (elementEvents events) := by
  constructor
  · intro h
    induction events using List.reverseRecOn generalizing g with
    | nil =>
      obtain rfl := Except.ok.inj h
      exact ⟨[], [], rfl, .nil, .nil⟩
    | append_singleton events event ih =>
      rw [List.foldlM_append] at h
      obtain ⟨k, hk, h⟩ := bind_eq_ok_iff.1 h
      obtain ⟨m, hm, h⟩ := bind_eq_ok_iff.1 h
      obtain rfl := Except.ok.inj h
      rw [elementEvents, List.filter_append]
      exact (ih hk).step hm
  · intro h
    rw [← foldlM_step_elementEvents]
    exact foldlM_step_of_holds h

theorem finish_eq_ok_iff {t : Element} : g.finish = .ok t ↔ g = ⟨[], some t⟩ := by
  obtain ⟨_ | ⟨e, outer⟩, _ | r⟩ := g <;> simp [finish]

/-- At the end it is only refused that nothing was read, or that something is open. -/
theorem finish_refused {p : XmlProblem} (h : g.finish = .error p) : (g = seed ∧ .noRoot = p) ∨
    ∃ e outer, g.pending = e :: outer ∧ .unclosed e.name = p := by
  obtain ⟨pending, root?⟩ := g
  cases pending with
  | cons e outer => exact Or.inr ⟨e, outer, rfl, Except.error.inj h⟩
  | nil =>
    cases root? with
    | none => exact Or.inl ⟨rfl, Except.error.inj h⟩
    | some t => cases h

/-- A refusal is one of an event after those that a state holds. -/
theorem foldlM_step_eq_error_iff {events : List Event} {p : XmlProblem} :
    events.foldlM (step head) seed = .error p ↔
      ∃ (g : Growth) (before : List Event) (event : Event) (after : List Event),
        elementEvents events = before ++ event :: after ∧ g.Holds head before ∧
          g.step head event = .error p := by
  rw [← foldlM_step_elementEvents, foldlM_eq_error_iff]
  constructor
  · rintro ⟨before, event, after, g, hevents, hg, hp⟩
    have hbefore := elementEvents_eq_self (hevents ▸ List.subset_append_left before _)
    exact ⟨g, before, event, after, hevents, hbefore ▸ foldlM_step_eq_ok_iff.1 hg, hp⟩
  · rintro ⟨g, before, event, after, hevents, hg, hp⟩
    exact ⟨before, event, after, g, hevents, foldlM_step_of_holds hg, hp⟩

theorem attach_eq_error_iff {e : Element} {p : XmlProblem} : g.attach e = .error p ↔
    g.pending = [] ∧ ∃ t, g.root? = some t ∧ .secondRoot e.name = p := by
  obtain ⟨_ | ⟨o, outer⟩, _ | r⟩ := g <;> simp [attach]

theorem holds_iff_of_pending_eq_nil {root? : Option Element} {events : List Event} :
    Holds head ⟨[], root?⟩ events ↔ Renders head root?.toList events := by
  constructor
  · rintro ⟨closed, opened, rfl, hclosed, hopened⟩
    cases hopened
    rwa [List.append_nil]
  · exact fun h => ⟨events, [], (List.append_nil _).symm, h, .nil⟩

theorem Holds.refused {event : Event} {events : List Event} {p : XmlProblem} (h : g.Holds head events)
    (hp : g.step head event = .error p) :
    (∃ tag q, (event = .start tag ∨ event = .empty tag) ∧ head tag = .error q ∧ .tag q = p) ∨
    (event = .close ∧ g.pending = [] ∧ .surplusClose = p) ∨
    ∃ t u, Renders head [t, u] (events ++ elementEvents [event]) ∧ .secondRoot u.name = p := by
  have houtcome := h.outcome event
  rw [hp] at houtcome
  generalize hr : (Except.error p : Except XmlProblem Growth) = r at houtcome
  cases houtcome with
  | other => cases hr
  | opened => cases hr
  | @closed k u before more _ hk hu hevents =>
    obtain ⟨pending, root?⟩ := k
    obtain ⟨hpending, t, hroot, hname⟩ := attach_eq_error_iff.1 hr.symm
    subst hpending hroot
    have ht : Renders head [t] before := holds_iff_of_pending_eq_nil.1 hk
    exact Or.inr (Or.inr ⟨t, u, hevents ▸ ht.append hu, hname⟩)
  | unreadable ht hevent => exact Or.inl ⟨_, _, hevent, ht, (Except.error.inj hr).symm⟩
  | surplus hpending => exact Or.inr (Or.inl ⟨rfl, hpending, (Except.error.inj hr).symm⟩)

end Growth

namespace Element
open Growth
variable {head : Tag → Except TagProblem Head}

theorem ofEvents_eq_ok_iff {events : List Event} {t : Element} :
    ofEvents head events = .ok t ↔ Renders head [t] (elementEvents events) := by
  simp only [ofEvents, bind_eq_ok_iff, finish_eq_ok_iff, foldlM_step_eq_ok_iff]
  have hroot : Holds head ⟨[], some t⟩ (elementEvents events) ↔
      Renders head [t] (elementEvents events) := holds_iff_of_pending_eq_nil
  rw [← hroot]
  exact ⟨fun ⟨_, h, hg⟩ => hg ▸ h, fun h => ⟨_, h, rfl⟩⟩

theorem ofEvents_eq_error_iff {events : List Event} {p : XmlProblem} : ofEvents head events = .error p ↔
    (∃ (g : Growth) (before : List Event) (event : Event) (after : List Event),
      elementEvents events = before ++ event :: after ∧ g.Holds head before ∧
        g.step head event = .error p) ∨
    ∃ g : Growth, g.Holds head (elementEvents events) ∧ g.finish = .error p := by
  rw [← foldlM_step_eq_error_iff]
  simp only [← foldlM_step_eq_ok_iff]
  rw [ofEvents]
  cases hg : events.foldlM (step head) seed with
  | error q => simp [bind, Except.bind]
  | ok g => simp [bind, Except.bind]

theorem ofEvents_eq_noRoot_iff {events : List Event} :
    ofEvents head events = .error .noRoot ↔ elementEvents events = [] := by
  rw [ofEvents_eq_error_iff]
  constructor
  · rintro (⟨g, before, event, after, -, hg, hp⟩ | ⟨g, hg, hp⟩)
    · rcases hg.refused hp with ⟨_, _, _, _, h⟩ | ⟨_, _, h⟩ | ⟨_, _, _, h⟩ <;> cases h
    · rcases finish_refused hp with ⟨rfl, -⟩ | ⟨_, _, _, h⟩
      · exact renders_nil_iff.1 (holds_iff_of_pending_eq_nil.1 hg)
      · cases h
  · exact fun h => Or.inr ⟨seed, h ▸ ⟨[], [], rfl, .nil, .nil⟩, rfl⟩

theorem ofEvents_eq_surplusClose_iff {events : List Event} :
    ofEvents head events = .error .surplusClose ↔ ∃ (root? : Option Element) (closed after : List Event),
      elementEvents events = closed ++ .close :: after ∧ Renders head root?.toList closed := by
  rw [ofEvents_eq_error_iff]
  constructor
  · rintro (⟨g, before, event, after, hevents, hg, hp⟩ | ⟨g, -, hp⟩)
    · rcases hg.refused hp with ⟨_, _, _, _, h⟩ | ⟨rfl, hpending, -⟩ | ⟨_, _, _, h⟩
      · cases h
      · obtain ⟨pending, root?⟩ := g
        subst hpending
        exact ⟨root?, before, after, hevents, holds_iff_of_pending_eq_nil.1 hg⟩
      · cases h
    · rcases finish_refused hp with ⟨_, h⟩ | ⟨_, _, _, h⟩ <;> cases h
  · rintro ⟨root?, closed, after, hevents, hclosed⟩
    exact Or.inl ⟨⟨[], root?⟩, closed, .close, after, hevents,
      holds_iff_of_pending_eq_nil.2 hclosed, rfl⟩

theorem ofEvents_eq_secondRoot_iff {events : List Event} {name : String} :
    ofEvents head events = .error (.secondRoot name) ↔ ∃ t u closed after,
      elementEvents events = closed ++ after ∧ Renders head [t, u] closed ∧ u.name = name := by
  rw [ofEvents_eq_error_iff]
  constructor
  · rintro (⟨g, before, event, after, hevents, hg, hp⟩ | ⟨g, -, hp⟩)
    · rcases hg.refused hp with ⟨_, _, _, _, h⟩ | ⟨_, _, h⟩ | ⟨t, u, hrenders, h⟩
      · cases h
      · cases h
      · have hmem : [event] ⊆ elementEvents events := by simp [hevents]
        rw [elementEvents_eq_self hmem] at hrenders
        exact ⟨t, u, before ++ [event], after, by simpa using hevents, hrenders, by simpa using h⟩
    · rcases finish_refused hp with ⟨_, h⟩ | ⟨_, _, _, h⟩ <;> cases h
  · rintro ⟨t, u, closed, after, hevents, hclosed, rfl⟩
    refine Or.inl (foldlM_step_eq_error_iff.1 ?_)
    rw [← foldlM_step_elementEvents, hevents, foldlM_step_of_renders_pair hclosed]

theorem ofEvents_eq_unclosed_iff {events : List Event} {name : String} :
    ofEvents head events = .error (.unclosed name) ↔
      ∃ (root? : Option Element) (e : Element) (outer : List Element) (closed opened : List Event),
        elementEvents events = closed ++ opened ∧ Renders head root?.toList closed ∧
          RendersOpen head (e :: outer) opened ∧ e.name = name := by
  rw [ofEvents_eq_error_iff]
  constructor
  · rintro (⟨g, before, event, after, -, hg, hp⟩ | ⟨g, hg, hp⟩)
    · rcases hg.refused hp with ⟨_, _, _, _, h⟩ | ⟨_, _, h⟩ | ⟨_, _, _, h⟩ <;> cases h
    · rcases finish_refused hp with ⟨_, h⟩ | ⟨e, outer, hpending, h⟩
      · cases h
      · obtain ⟨pending, root?⟩ := g
        subst hpending
        obtain ⟨closed, opened, hevents, hclosed, hopened⟩ := hg
        exact ⟨root?, e, outer, closed, opened, hevents, hclosed, hopened, XmlProblem.unclosed.inj h⟩
  · rintro ⟨root?, e, outer, closed, opened, hevents, hclosed, hopened, rfl⟩
    exact Or.inr ⟨⟨e :: outer, root?⟩, ⟨closed, opened, hevents, hclosed, hopened⟩, rfl⟩

theorem ofEvents_eq_tag_iff {events : List Event} {p : TagProblem} :
    ofEvents head events = .error (.tag p) ↔
      ∃ (root? : Option Element) (pending : List Element) (closed opened after : List Event) (tag : Tag)
        (event : Event), elementEvents events = closed ++ opened ++ event :: after ∧
          Renders head root?.toList closed ∧ RendersOpen head pending opened ∧
            (event = .start tag ∨ event = .empty tag) ∧ head tag = .error p := by
  rw [ofEvents_eq_error_iff]
  constructor
  · rintro (⟨g, before, event, after, hevents, hg, hp⟩ | ⟨g, -, hp⟩)
    · rcases hg.refused hp with ⟨tag, q, hevent, ht, h⟩ | ⟨_, _, h⟩ | ⟨_, _, _, h⟩
      · obtain ⟨closed, opened, rfl, hclosed, hopened⟩ := hg
        obtain rfl := XmlProblem.tag.inj h
        exact ⟨_, _, closed, opened, after, tag, event, hevents, hclosed, hopened, hevent, ht⟩
      · cases h
      · cases h
    · rcases finish_refused hp with ⟨_, h⟩ | ⟨_, _, _, h⟩ <;> cases h
  · rintro ⟨root?, pending, closed, opened, after, tag, event, hevents, hclosed, hopened, hevent, ht⟩
    exact Or.inl ⟨⟨pending, root?⟩, closed ++ opened, event, after, hevents,
      ⟨closed, opened, rfl, hclosed, hopened⟩, step_of_unreadable ht hevent⟩

end Element

/-- Reading of events as one element: each way in which it fails is that of the events of one form. -/
structure ReadsOneElement (head : Tag → Except TagProblem Head)
    (read : List Event → Except XmlProblem Element) : Prop where
  element : ∀ events t, read events = .ok t ↔ Renders head [t] (elementEvents events)
  nothing : ∀ events, read events = .error .noRoot ↔ elementEvents events = []
  surplus : ∀ events, read events = .error .surplusClose ↔
    ∃ (root? : Option Element) (closed after : List Event),
      elementEvents events = closed ++ .close :: after ∧ Renders head root?.toList closed
  second : ∀ events name, read events = .error (.secondRoot name) ↔ ∃ t u closed after,
    elementEvents events = closed ++ after ∧ Renders head [t, u] closed ∧ u.name = name
  unclosed : ∀ events name, read events = .error (.unclosed name) ↔
    ∃ (root? : Option Element) (e : Element) (outer : List Element) (closed opened : List Event),
      elementEvents events = closed ++ opened ∧ Renders head root?.toList closed ∧
        RendersOpen head (e :: outer) opened ∧ e.name = name
  unreadable : ∀ events p, read events = .error (.tag p) ↔
    ∃ (root? : Option Element) (pending : List Element) (closed opened after : List Event) (tag : Tag)
      (event : Event),
      elementEvents events = closed ++ opened ++ event :: after ∧ Renders head root?.toList closed ∧
        RendersOpen head pending opened ∧ (event = .start tag ∨ event = .empty tag) ∧
          head tag = .error p

/-- However the heads of elements are read, a sequence of events is read as an element exactly if those
of its events that open and close elements stand for this element alone. So is a text whose events end
with the text. -/
theorem readsOneElement_ofEvents : (∀ head, ReadsOneElement head (Element.ofEvents head)) ∧
    ∀ text t, Element.parse text = .ok t ↔ (events text.toList).2 = none ∧
      Renders Tag.head [t] (elementEvents (events text.toList).1) := by
  refine ⟨fun head => ⟨fun _ _ => Element.ofEvents_eq_ok_iff, fun _ => Element.ofEvents_eq_noRoot_iff,
    fun _ => Element.ofEvents_eq_surplusClose_iff, fun _ _ => Element.ofEvents_eq_secondRoot_iff,
    fun _ _ => Element.ofEvents_eq_unclosed_iff, fun _ _ => Element.ofEvents_eq_tag_iff⟩, ?_⟩
  intro text t
  rw [← Element.ofEvents_eq_ok_iff, Element.ofEvents, Element.parse]
  generalize events text.toList = delivered
  obtain ⟨es, _ | problem⟩ := delivered
  · simp
  · simp [bind_eq_ok_iff]

/-- An element in two events within one in two events, beside an element in one event. -/
example : Renders Tag.head [⟨"a", [], [⟨"b", [("k", "v")], []⟩, ⟨"c", [], [⟨"d", [], []⟩]⟩]⟩]
    [.start ⟨['a']⟩, .empty ⟨"b k='v'".toList⟩, .start ⟨['c']⟩, .start ⟨['d']⟩, .close, .close,
      .close] :=
  .pair rfl (.empty rfl (.pair rfl (.pair rfl .nil .nil) .nil)) .nil

end AggregateSchema.Xml
