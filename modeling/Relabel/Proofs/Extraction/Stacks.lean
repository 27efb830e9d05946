import Relabel.Proofs.Extraction.Resolution

/-!
# Walking with stacks

The walk carries its scope down the tree. Done over one state, it opens a loop on two stacks, that of the
scope and that of the loops whose content is being walked, and everything it finds goes into the innermost
open loop. `visit_eq` says that this is the same walk: a visit that succeeds leaves both stacks as they
were but for what it adds to the innermost loop, from whatever state it starts (`visit_grows`).
-/

namespace Relabel
open Markup (Node Head Attribute)

/-- A loop whose content is being walked, with what was found inside so far. -/
structure OpenLoop where
  span : Span
  items : Usage
  frame : Frame
  depth : Nat
  children : List Usage := []

/-- The state of a walk; the open loops come innermost first. -/
structure Walker where
  scope : Scope
  roots : List Usage := []
  loops : List OpenLoop := []
  warnings : List Warning := []

namespace Walker
variable {w w' : Walker} {found first second : Found}

/-- Puts usages into the innermost open loop. -/
def add (w : Walker) (us : List Usage) : Walker :=
  match w.loops with
  | [] => { w with roots := w.roots ++ us }
  | l :: ls => { w with loops := { l with children := l.children ++ us } :: ls }

def note (w : Walker) (found : Found) : Walker :=
  { w.add found.usages with warnings := w.warnings ++ found.warnings }

/-- Opens a loop. -/
def enter (w : Walker) (span : Span) (items : Usage) (frame : Frame) : Walker :=
  let scope := w.scope.enter frame
  { w with scope, loops := ⟨span, items, frame, scope.depth, []⟩ :: w.loops }

/-- Closes the innermost open loop. -/
def leave (w : Walker) : Walker :=
  match w.loops with
  | [] => w
  | l :: ls =>
    let children := if l.frame.item.isDefault then Usage.rescopeAll l.depth l.children else l.children
    let scope := (w.scope.leave?.map Prod.snd).getD w.scope
    add { w with scope, loops := ls } [.loop l.span l.items l.frame l.depth children]

/-- A state to which something was added: the usages to the innermost open loop, or to the others outside
of all loops if there is none. -/
structure Grows (w : Walker) (found : Found) (w' : Walker) : Prop where
  scope : w'.scope = w.scope
  loops : w'.loops = w.loops.modifyHead fun l => { l with children := l.children ++ found.usages }
  roots : w'.roots = if w.loops.isEmpty then w.roots ++ found.usages else w.roots
  warnings : w'.warnings = w.warnings ++ found.warnings

@[simp] theorem scope_note (w : Walker) (found : Found) : (w.note found).scope = w.scope := by
  unfold note add
  split <;> rfl

@[simp] theorem scope_enter (w : Walker) (span : Span) (items : Usage) (frame : Frame) :
    (w.enter span items frame).scope = w.scope.enter frame := rfl

theorem grows_note (w : Walker) (found : Found) : w.Grows found (w.note found) := by
  obtain ⟨scope, roots, loops, warnings⟩ := w
  cases loops with
  | nil => exact ⟨rfl, rfl, rfl, rfl⟩
  | cons l ls => exact ⟨rfl, rfl, rfl, rfl⟩

theorem note_note (w : Walker) (first second : Found) : (w.note first).note second = w.note (first ++ second) := by
  obtain ⟨scope, roots, loops, warnings⟩ := w
  have happend : first ++ second = ⟨first.usages ++ second.usages, first.warnings ++ second.warnings⟩ := rfl
  cases loops with
  | nil => simp only [note, add, happend, List.append_assoc]
  | cons l ls => simp only [note, add, happend, List.append_assoc]

theorem note_empty (w : Walker) : w.note {} = w := by
  obtain ⟨scope, roots, loops, warnings⟩ := w
  cases loops with
  | nil => simp only [note, add, List.append_nil]
  | cons l ls => simp only [note, add, List.append_nil]

/-- A loop that is opened and closed is one usage. -/
theorem leave_enter (w : Walker) (span : Span) (items : Usage) (frame : Frame) (inside : Found) :
    ((w.enter span items frame).note inside).leave =
      w.note ⟨[.loop span items frame (w.scope.enter frame).depth
        (if frame.item.isDefault then Usage.rescopeAll (w.scope.enter frame).depth inside.usages
          else inside.usages)], inside.warnings⟩ := by
  obtain ⟨scope, roots, loops, warnings⟩ := w
  cases loops with
  | nil => rfl
  | cons l ls => rfl

end Walker

namespace Site
open Walker
variable {site : Site} {w w' : Walker} {head : Head} {ns xs ys : List Node}

/-- Whether the list of a loop is a path that nobody knows. -/
def isUnknown (scope : Scope) : Usage → Bool
  | .path _ path _ _ => !resolves scope path
  | _ => false

/-- Opens the loop of an element, if its content is to be walked. -/
def enterLoop (site : Site) (w : Walker) (head : Head) (found : List (Attribute × Found)) : Walker × Bool :=
  match boundUsage? found "items" with
  | none => (w.note ⟨[], [site.ownerWarning w.scope .noItems]⟩, false)
  | some items =>
    if isUnknown w.scope items then (w, false)
    else
      match items.phrase? with
      | none => (w, false)
      | some phrase =>
        let w := w.note (site.callbackUsages w.scope head "sort" .sort (boundUsage? found "sort") phrase)
        let w := w.note (site.callbackUsages w.scope head "filter" .filter (boundUsage? found "filter") phrase)
        let (item, itemName) := site.loopVariable head "as" defaultItem
        let (index, indexName) := site.loopVariable head "index-as" defaultIndex
        let w := w.enter head.startTag items ⟨item, index⟩
        let w := w.note ⟨(variableUsage? .item item w.scope.depth itemName).toList, []⟩
        let w := w.note ⟨(variableUsage? .index index w.scope.depth indexName).toList, []⟩
        (w.note (site.observedUsages w.scope head item.name), true)

mutual

/-- Visits a node from a state. -/
def visitNode (site : Site) (w : Walker) : Node → Except Failure Walker
  | .comment _ => .ok w
  | .text piece => .ok (w.note (site.textUsages w.scope piece))
  | .element head children => do
    let found ← site.attributesOf w.scope head
    let w := w.note (.concat (found.map (·.2)))
    let isRaw := site.options.isRawText head.tag
    if head.isRepeat then
      let (w, entered) := site.enterLoop w head found
      if entered then
        let w ← if isRaw then pure w else site.visit w children
        return w.leave
      else return w
    else if isRaw then return w
    else site.visit w children

/-- Visits nodes one after another. -/
def visit (site : Site) (w : Walker) : List Node → Except Failure Walker
  | [] => .ok w
  | n :: ns => do
    let w ← site.visitNode w n
    site.visit w ns

end

/-- What a visit does to a loop is what the walk finds of it. -/
theorem enterLoop_eq (site : Site) (w : Walker) (head : Head) (found : List (Attribute × Found)) :
    site.enterLoop w head found = match site.openLoop w.scope head found with
      | .error warnings => (w.note ⟨[], warnings⟩, false)
      | .ok opening =>
        (((w.note opening.before).enter head.startTag opening.items opening.frame).note opening.inside, true) := by
  have hempty : w.note ⟨[], []⟩ = w := note_empty w
  have hnames (us vs : List Usage) : (⟨us, []⟩ : Found) ++ ⟨vs, []⟩ = ⟨us ++ vs, []⟩ := rfl
  simp only [enterLoop, openLoop, scope_note, scope_enter, note_note, hnames, bind, Except.bind, pure, Except.pure]
  cases boundUsage? found "items" with
  | none => rfl
  | some items =>
    cases items with
    | path span path qualifier role =>
      cases hresolves : resolves w.scope path with
      | false => simp [isUnknown, hresolves, hempty, throw, throwThe, MonadExceptOf.throw]
      | true => simp [isUnknown, hresolves, Usage.phrase?]
    | call span name qualifier args => simp [isUnknown, Usage.phrase?]
    | literal text => simp [isUnknown, Usage.phrase?]
    | _ => simp [isUnknown, Usage.phrase?, hempty, throw, throwThe, MonadExceptOf.throw]

/-- A loop that is entered and left is the loop that the walk finds. -/
theorem leave_note (w : Walker) (head : Head) (opening : Opening) (content : Found) :
    ((((w.note opening.before).enter head.startTag opening.items opening.frame).note opening.inside).note
      content).leave = w.note (closeLoop w.scope head opening content) := by
  rw [note_note (Walker.enter ..), leave_enter, note_note, scope_note]
  rfl

mutual

theorem visitNode_eq (site : Site) : ∀ (n : Node) (w : Walker),
    site.visitNode w n = (site.walkNode w.scope n).map w.note
  | .comment _, w => by rw [visitNode, walkNode, Except.map, note_empty]
  | .text _, w => rfl
  | .element head children, w => by
    rw [visitNode, walkNode]
    cases site.attributesOf w.scope head with
    | error e => rfl
    | ok found =>
      simp only [bind, Except.bind, pure, Except.pure]
      -- the content is walked from the state behind the attributes, and inside the loop if there is one
      cases hrepeat : head.isRepeat with
      | false =>
        cases hraw : site.options.isRawText head.tag with
        | true =>
          simp only [Bool.false_eq_true, if_false, if_true, Except.map]
          rw [← note_note, note_empty]
        | false =>
          simp only [Bool.false_eq_true, if_false]
          rw [visit_eq site children, scope_note]
          cases hcontent : site.walk w.scope children with
          | error e => rfl
          | ok content => simp only [Except.map, note_note]
      | true =>
        simp only [if_true, enterLoop_eq, scope_note]
        cases hopening : site.openLoop w.scope head found with
        | error warnings => simp only [Bool.false_eq_true, if_false, Except.map, note_note]
        | ok opening =>
          cases hraw : site.options.isRawText head.tag with
          | true =>
            simp only [if_true, Except.map]
            rw [← note_note, ← scope_note w, ← leave_note, note_empty]
          | false =>
            simp only [if_true, Bool.false_eq_true, if_false]
            rw [visit_eq site children, scope_note, scope_enter, scope_note, scope_note]
            cases hcontent : site.walk (w.scope.enter opening.frame) children with
            | error e => rfl
            | ok content =>
              simp only [Except.map]
              rw [leave_note, note_note, scope_note]

/-- A visit adds to the state what the walk finds in its scope. -/
theorem visit_eq (site : Site) : ∀ (ns : List Node) (w : Walker),
    site.visit w ns = (site.walk w.scope ns).map w.note
  | [], w => by rw [visit, walk, Except.map, note_empty]
  | n :: ns, w => by
    rw [visit, walk, visitNode_eq site n w]
    cases hfirst : site.walkNode w.scope n with
    | error e => rfl
    | ok first =>
      simp only [bind, Except.bind, Except.map, pure, Except.pure]
      rw [visit_eq site ns, scope_note]
      cases hrest : site.walk w.scope ns with
      | error e => rfl
      | ok rest => simp only [Except.map, note_note]

end

theorem walk_append (site : Site) (scope : Scope) (xs ys : List Node) :
    site.walk scope (xs ++ ys) = do
      let first ← site.walk scope xs
      let second ← site.walk scope ys
      return first ++ second := by
  induction xs with
  | nil =>
    simp only [List.nil_append, walk, bind, Except.bind, pure, Except.pure]
    cases site.walk scope ys with
    | error e => rfl
    | ok second => rfl
  | cons x xs ih =>
    rw [List.cons_append, walk, walk, ih]
    cases site.walkNode scope x with
    | error e => rfl
    | ok found =>
      cases site.walk scope xs with
      | error e => rfl
      | ok first =>
        cases site.walk scope ys with
        | error e => rfl
        | ok second =>
          have hassoc : found ++ (first ++ second) = found ++ first ++ second :=
            congrArg₂ Found.mk (List.append_assoc ..).symm (List.append_assoc ..).symm
          exact congrArg Except.ok hassoc

/-- A visit leaves the scope and the open loops as they were but for what it adds to the innermost one, and
what it adds for nodes one behind the other is what it adds for each of them alone. -/
theorem visit_grows (h : site.visit w ns = .ok w') :
    ∃ found, site.walk w.scope ns = .ok found ∧ w.Grows found w' ∧ ∀ xs ys, xs ++ ys = ns →
      ∃ first second, found = first ++ second ∧ (∃ w₁, site.visit w xs = .ok w₁ ∧ w.Grows first w₁) ∧
        ∃ w₂, site.visit w ys = .ok w₂ ∧ w.Grows second w₂ := by
  rw [visit_eq] at h
  cases hwalk : site.walk w.scope ns with
  | error e => rw [hwalk] at h; cases h
  | ok found =>
    rw [hwalk] at h
    obtain rfl := Except.ok.inj h
    refine ⟨found, rfl, grows_note w found, ?_⟩
    rintro xs ys rfl
    rw [walk_append] at hwalk
    simp only [visit_eq]
    cases hfirst : site.walk w.scope xs with
    | error e => rw [hfirst] at hwalk; cases hwalk
    | ok first =>
      cases hsecond : site.walk w.scope ys with
      | error e => rw [hfirst, hsecond] at hwalk; cases hwalk
      | ok second =>
        rw [hfirst, hsecond] at hwalk
        exact ⟨first, second, (Except.ok.inj hwalk).symm, ⟨_, rfl, grows_note w first⟩, _, rfl, grows_note w second⟩

/-- A walk inside a loop that does not name its item. -/
def listWalker : Walker where
  scope := ⟨"x-a", listSite.schemas.get? "x-a", [listFrame]⟩
  loops := [⟨⟨0, 10⟩, .literal "1", listFrame, 1, []⟩]

/-- One more loop inside that one, and a text behind it. -/
theorem visit_grows_list :
    ∃ w' first second,
      listSite.visit listWalker (listDocument.children ++ [.text ⟨"[[item.b]]", ⟨47, 57⟩⟩]) = .ok w' ∧
      listWalker.Grows (first ++ second) w' ∧ (first ++ second).usages.length = 4 ∧
      (∃ w₁, listSite.visit listWalker listDocument.children = .ok w₁ ∧ listWalker.Grows first w₁) ∧
      ∃ w₂, listSite.visit listWalker [.text ⟨"[[item.b]]", ⟨47, 57⟩⟩] = .ok w₂ ∧ listWalker.Grows second w₂ := by
  have hok : ((listSite.visit listWalker (listDocument.children ++ [.text ⟨"[[item.b]]", ⟨47, 57⟩⟩])).toOption.map
      fun w => w.loops.map (·.children.length)) = some [4] := by decide +kernel
  cases h : listSite.visit listWalker (listDocument.children ++ [.text ⟨"[[item.b]]", ⟨47, 57⟩⟩]) with
  | error e => rw [h] at hok; cases hok
  | ok w' =>
    rw [h] at hok
    obtain ⟨found, -, hgrows, hsplit⟩ := visit_grows h
    obtain ⟨first, second, rfl, hfirst, hsecond⟩ := hsplit _ _ rfl
    refine ⟨w', first, second, rfl, hgrows, ?_, hfirst, hsecond⟩
    have hloops : w'.loops.map (·.children.length) = [4] := Option.some.inj hok
    rw [hgrows.loops] at hloops
    exact (List.cons.inj hloops).1

/-- The template of a component is what a visit adds to an empty state. -/
theorem template_eq_visit (site : Site) (owner : String) (content : List Node) :
    site.template owner content = do
      let some typeName := site.schemas.typeName? owner | throw (.unknownType owner)
      let w ← site.visit { scope := { owner, schema := site.schemas.get? owner } } content
      return (⟨owner, typeName, w.roots⟩, w.warnings) := by
  rw [template]
  cases site.schemas.typeName? owner with
  | none => rfl
  | some typeName =>
    simp only [visit_eq, bind, Except.bind]
    cases site.walk { owner, schema := site.schemas.get? owner } content with
    | error e => rfl
    | ok found => rfl

end Site
end Relabel
