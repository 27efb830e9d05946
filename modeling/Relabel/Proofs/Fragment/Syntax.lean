import Relabel.Fragment.Program
import Relabel.Proofs.Script.Numerals
import Relabel.Script.Reader

/-!
# The syntax of emitted programs

What an emitted program is as a script: every phrase and statement with the tokens it is written as
and the tree it is read as (`Phrase.item`, `Statement.items`), spans left out. `Ok` says which names,
literals and types make that true; it is what emission has to give, and all that reading asks for.
-/

namespace Relabel.Fragment
open Script

/-! ### Names -/

/-- The parts of a dotted path. -/
def segments (path : String) : List String :=
  (path.toList.splitOn '.').map .ofList

/-- An identifier, spelled without escapes. -/
def isName (s : String) : Bool :=
  s.toList.head?.any startsName && s.toList.all continuesName

/-- A name that is no reserved word. -/
def isIdentifier (s : String) : Bool :=
  isName s && !reservedWords.contains s

/-- The words that are no identifiers in module code, though elsewhere they may be. -/
def strictWords : List String :=
  ["await", "implements", "interface", "let", "package", "private", "protected", "public", "static",
    "yield"]

/-- An identifier that may stand for a variable in module code. -/
def isVariable (s : String) : Bool :=
  isIdentifier s && !strictWords.contains s

/-- The first character of a name, and all of them. -/
theorem chars_of_isName {w : String} (h : isName w = true) :
    ∃ c cs, w.toList = c :: cs ∧ startsName c = true ∧ ∀ d ∈ c :: cs, continuesName d = true := by
  rw [isName, Bool.and_eq_true, List.all_eq_true] at h
  obtain ⟨hhead, hall⟩ := h
  cases hw : w.toList with
  | nil =>
    rw [hw] at hhead
    cases hhead
  | cons c cs =>
    rw [hw] at hhead hall
    exact ⟨c, cs, rfl, by simpa using hhead, hall⟩

theorem segments_of_isName {w : String} (h : isName w = true) : segments w = [w] := by
  obtain ⟨c, cs, hw, -, hall⟩ := chars_of_isName h
  have hdot : ∀ d ∈ w.toList, (d == '.') = false := fun d hd =>
    beq_eq_false_iff_ne.2 (ne_of_continuesName (hall d (hw ▸ hd)) (by decide))
  rw [segments, List.splitOn, List.splitOnP_eq_singleton hdot]
  simp

theorem segments_ne_nil (path : String) : segments path ≠ [] := by
  rw [segments, Ne, List.map_eq_nil_iff]
  exact List.splitOn_ne_nil _ _

theorem isName_of_isIdentifier {w : String} (h : isIdentifier w = true) : isName w = true := by
  rw [isIdentifier, Bool.and_eq_true] at h
  exact h.1

theorem isIdentifier_of_isVariable {w : String} (h : isVariable w = true) : isIdentifier w = true := by
  rw [isVariable, Bool.and_eq_true] at h
  exact h.1

theorem isName_of_isVariable {w : String} (h : isVariable w = true) : isName w = true :=
  isName_of_isIdentifier (isIdentifier_of_isVariable h)

/-! ### Phrases -/

/-- A tree without spans. -/
def branch (label : Label) (children : List Tree) : Tree :=
  .node label ⟨0, 0⟩ children

/-- The tokens of properties of a value. -/
def memberTokens : List String → List Token
  | [] => []
  | n :: ns => .mark "." :: .name n false :: memberTokens ns

/-- A property of a property of a value, and so on. -/
def memberTree (object : Tree) : List String → Tree
  | [] => object
  | n :: ns => memberTree (branch (.member n false) [object]) ns

/-- A path whose first part is a variable. -/
def pathItem : List String → Item
  | [] => ⟨[], branch .empty []⟩
  | n :: ns => ⟨.name n false :: memberTokens ns, memberTree (branch (.identifier n) []) ns⟩

/-- A path from the component. -/
def thisItem (ns : List String) : Item :=
  ⟨.name "this" false :: memberTokens ns, memberTree (branch .this []) ns⟩

/-- The number or string that a text is. -/
def plainLiteral? (cs : List Char) : Option Item :=
  match lexeme? cs.length cs with
  | some ⟨.number v, _, []⟩ => some ⟨[.number v], branch (.number v) []⟩
  | some ⟨.string s, _, []⟩ => some ⟨[.string s], branch (.string s) []⟩
  | _ => none

/-- A literal behind a sign. -/
def signedItem (sign : String) (a : Item) : Item :=
  ⟨.mark sign :: a.tokens, branch (.unary sign) [a.tree]⟩

/-- The literal that a text is; a number may have a sign. -/
def literal? (t : String) : Option Item :=
  match t.toList with
  | '+' :: cs => (plainLiteral? cs).map (signedItem "+")
  | '-' :: cs => (plainLiteral? cs).map (signedItem "-")
  | cs => plainLiteral? cs

def numberItem (n : Nat) : Item :=
  ⟨[.number (wholeDouble n)], branch (.number (wholeDouble n)) []⟩

mutual

/-- The tokens and the tree of a phrase. -/
def Phrase.item : Phrase → Item
  | .name path => pathItem (segments path)
  | .this path => thisItem (segments path)
  | .literal t => (literal? t).getD ⟨[], branch .empty []⟩
  | .quoted t => ⟨[.string t], branch (.string t) []⟩
  | .number n => numberItem n
  | .member object property =>
    ⟨object.item.tokens ++ memberTokens (segments property),
      memberTree object.item.tree (segments property)⟩
  | .element object index =>
    ⟨object.item.tokens ++ .mark "[" :: index.item.tokens ++ [.mark "]"],
      branch (.element false) [object.item.tree, index.item.tree]⟩
  | .call callee args =>
    ⟨callee.item.tokens ++ .mark "(" :: commaTokens (itemsOf args) ++ [.mark ")"],
      branch (.call false) (callee.item.tree :: (itemsOf args).map Item.tree)⟩
  | .create constructor args =>
    ⟨[.name "new" false, .name constructor false, .mark "("] ++ commaTokens (itemsOf args)
        ++ [.mark ")"],
      branch .create (branch (.identifier constructor) [] :: (itemsOf args).map Item.tree)⟩
  | .typed _ value =>
    ⟨.mark "(" :: value.item.tokens ++ [.mark ")"], branch .paren [value.item.tree]⟩

/-- The tokens and the trees of phrases. -/
def itemsOf : List Phrase → List Item
  | [] => []
  | p :: ps => p.item :: itemsOf ps

end

/-- Whether a property, an index or arguments may follow a phrase. -/
def Phrase.isAccess : Phrase → Bool
  | .name _ => true
  | .this _ => true
  | .member _ _ => true
  | .element _ _ => true
  | .call _ _ => true
  | .typed _ _ => true
  | _ => false

/-- Whether a phrase may be assigned to. -/
def Phrase.isTarget : Phrase → Bool
  | .name _ => true
  | .this _ => true
  | .member _ _ => true
  | .element _ _ => true
  | _ => false

def Phrase.isLet : Phrase → Bool
  | .name path => path == "let"
  | _ => false

/-- Whether a phrase begins with an index of the variable `let`; at the start of a statement that declares
a pattern. -/
def Phrase.indexesLet : Phrase → Bool
  | .element object _ => object.isLet || object.indexesLet
  | .member object _ => object.indexesLet
  | .call callee _ => callee.indexesLet
  | _ => false

theorem isAccess_of_isTarget {p : Phrase} (h : p.isTarget = true) : p.isAccess = true := by
  cases p <;> first | rfl | cases h

/-- A text that may stand in a comment. -/
def InComment (text : String) : Prop :=
  ∀ a b, text.toList ≠ a ++ '*' :: '/' :: b

mutual

/-- A phrase that is read as what it says. -/
def Phrase.Ok : Phrase → Prop
  | .name path => ∃ n ns, segments path = n :: ns ∧ isIdentifier n = true ∧ ∀ n ∈ ns, isName n = true
  | .this path => ∀ n ∈ segments path, isName n = true
  | .literal t => (literal? t).isSome = true
  | .quoted _ => True
  | .number _ => True
  | .member object property =>
    object.isAccess = true ∧ object.Ok ∧ ∀ n ∈ segments property, isName n = true
  | .element object index => object.isAccess = true ∧ object.Ok ∧ index.Ok
  | .call callee args => callee.isAccess = true ∧ callee.Ok ∧ AllOk args
  | .create constructor args => isIdentifier constructor = true ∧ AllOk args
  | .typed type value => InComment type ∧ value.Ok

/-- Phrases that are read as what they say. -/
def AllOk : List Phrase → Prop
  | [] => True
  | p :: ps => p.Ok ∧ AllOk ps

end

/-! ### Statements -/

/-- An expression as a statement. -/
def expressionItem (a : Item) : Item :=
  ⟨a.tokens ++ [.mark ";"], branch .expressionStatement [a.tree]⟩

/-- A variable as it is declared. -/
def declaratorTree (name : String) (value : Tree) : Tree :=
  branch (.declaration "let") [branch .declarator [branch (.identifier name) [], value]]

/-- A variable that is declared. -/
def declareItem (name : String) (a : Item) : Item :=
  ⟨[.name "let" false, .name name false, .mark "="] ++ a.tokens ++ [.mark ";"],
    declaratorTree name a.tree⟩

def assignItem (target a : Item) : Item :=
  ⟨target.tokens ++ .mark "=" :: a.tokens ++ [.mark ";"],
    branch .expressionStatement [branch (.assignment "=") [target.tree, a.tree]]⟩

/-- Statements in braces. -/
def blockItem (body : List Item) : Item :=
  ⟨.mark openBrace :: itemTokens body ++ [.mark closeBrace], branch .block (body.map Item.tree)⟩

/-- A function without name and parameters. -/
def functionItem (body : List Item) : Item :=
  ⟨[.name "function" false, .mark "(", .mark ")", .mark openBrace] ++ itemTokens body
      ++ [.mark closeBrace],
    branch (.function false false) [branch .parameters [], branch .body (body.map Item.tree)]⟩

/-- A loop over the indices of a list. -/
def loopItem (index : String) (list body : Item) : Item :=
  ⟨[.name "for" false, .mark "(", .name "let" false, .name index false, .mark "="]
      ++ (numberItem 0).tokens ++ [.mark ";", .name index false, .mark "<"] ++ list.tokens
      ++ [.mark ".", .name "length" false, .mark ";", .name index false, .mark "++", .mark ")"]
      ++ body.tokens,
    branch (.statement "for") [
      declaratorTree index (numberItem 0).tree,
      branch (.binary "<") [branch (.identifier index) [], branch (.member "length" false) [list.tree]],
      branch (.update "++" false) [branch (.identifier index) []],
      body.tree]⟩

mutual

/-- The tokens and the trees of a statement; what a comment says is neither. -/
def Statement.items : Statement → List Item
  | .run p => [expressionItem p.item]
  | .record p => [expressionItem p.item]
  | .declare name value => [declareItem name value.item]
  | .assign target value => [assignItem target.item value.item]
  | .note _ => []
  | .block body => [blockItem (itemsOfAll body)]
  | .declareFunction name body => [declareItem name (functionItem (itemsOfAll body))]
  | .assignFunction target body => [assignItem target.item (functionItem (itemsOfAll body))]
  | .forEach index item items body =>
    let first := declareItem item (Phrase.element items (.name index)).item
    [loopItem index items.item (blockItem (first :: itemsOfAll body))]

/-- The tokens and the trees of statements. -/
def itemsOfAll : List Statement → List Item
  | [] => []
  | s :: ss => s.items ++ itemsOfAll ss

end

mutual

/-- A statement that is read as what it says. -/
def Statement.Ok : Statement → Prop
  | .run p => p.isAccess = true ∧ p.indexesLet = false ∧ p.Ok
  | .record p => p.isAccess = true ∧ p.indexesLet = false ∧ p.Ok
  | .declare name value => isIdentifier name = true ∧ value.Ok
  | .assign target value => target.isTarget = true ∧ target.indexesLet = false ∧ target.Ok ∧ value.Ok
  | .note text => InComment text
  | .block body => StatementsOk body
  | .declareFunction name body => isIdentifier name = true ∧ StatementsOk body
  | .assignFunction target body =>
    target.isTarget = true ∧ target.indexesLet = false ∧ target.Ok ∧ StatementsOk body
  | .forEach index item items body =>
    isIdentifier index = true ∧ isIdentifier item = true ∧ items.isAccess = true ∧ items.Ok ∧
      StatementsOk body

/-- Statements that are read as what they say. -/
def StatementsOk : List Statement → Prop
  | [] => True
  | s :: ss => s.Ok ∧ StatementsOk ss

end

end Relabel.Fragment
