import Relabel.Diagnostic
import Relabel.Markup.Tree
import Relabel.Text.Cut

/-!
# Markup tokens

A document is cut into comments, texts, start tags and end tags. The content of `script` and
`style` is one text up to the next `</` with the name behind it. Only a token that is not complete
at the end of the document is a failure.
-/

namespace Relabel.Markup

open Text

/-- A token with the bytes it stands on, as words. -/
inductive Token where
  | comment (span : Span)
  | text (piece : Piece)
  | endTag (tag : String) (span : Span)
  | startTag (head : Head) (selfClosing : Bool)
  deriving DecidableEq, Repr, Inhabited

/-- What is wrong with a document, and from which byte on. -/
structure Trouble where
  problem : MarkupProblem
  offset : Nat
  deriving DecidableEq, Repr

/-- Elements that have no content. -/
def voidTags : List String :=
  ["area", "base", "br", "col", "embed", "hr", "img", "input", "link", "meta", "param", "source",
    "track", "wbr"]

/-- Elements whose content is no markup. -/
def rawTags : List String :=
  ["script", "style"]

/-- Whether a character belongs to the name of a tag or an attribute. -/
def inName (c : Char) : Bool :=
  !(isAsciiBlank c || c == '>' || c == '/' || c == '=')

/-- Whether a character belongs to a value without quotes. -/
def inBareValue (c : Char) : Bool :=
  !(isAsciiBlank c || c == '>')

/-- Whether a text ends before this rest: a tag, a comment or a declaration may begin here. -/
def endsText : List Char → Bool
  | '<' :: c :: _ => isAsciiLetter c || c == '/' || c == '!' || c == '?'
  | _ => false

/-- The text up to the next place where one ends, and what follows. -/
def textRun : List Char → List Char × List Char
  | [] => ([], [])
  | c :: cs =>
    if endsText (c :: cs) then ([], c :: cs)
    else
      let (run, rest) := textRun cs
      (c :: run, rest)

/-- Whether a text starts with a word, whatever the case of ASCII letters. -/
def startsWithWord : List Char → List Char → Bool
  | [], _ => true
  | w :: ws, c :: cs => lowerAscii w == lowerAscii c && startsWithWord ws cs
  | _ :: _, [] => false

/-- The raw content before an end tag of the given name, and what follows. -/
def rawRun (tag : List Char) : List Char → List Char × List Char
  | [] => ([], [])
  | c :: cs =>
    if startsWithWord ('<' :: '/' :: tag) (c :: cs) then ([], c :: cs)
    else
      let (run, rest) := rawRun tag cs
      (c :: run, rest)

theorem length_textRun (cs : List Char) : (textRun cs).2.length ≤ cs.length := by
  induction cs with
  | nil => simp [textRun]
  | cons c cs ih => simp only [textRun]; split <;> simp; omega

theorem length_rawRun (tag cs : List Char) : (rawRun tag cs).2.length ≤ cs.length := by
  induction cs with
  | nil => simp [rawRun]
  | cons c cs ih => simp only [rawRun]; split <;> simp; omega

/-- A value in the given quotes; the text before it has been read up to the byte `start`, where the
opening quote stands. -/
def quotedValue (name : String) (quote : Char) (start : Nat) (cs : List Char) :
    Except Trouble (Piece × List Char) :=
  match cut? [quote] cs with
  | some (value, rest) => .ok (Piece.located (start + 1) value, rest)
  | none => .error ⟨.openValue name, start⟩

/-- The value of an attribute and what follows it, together with its closing quote if it has one. -/
def value (name : String) (start : Nat) : List Char → Except Trouble (Piece × List Char)
  | '"' :: cs => quotedValue name '"' start cs
  | '\'' :: cs => quotedValue name '\'' start cs
  | cs => .ok (Piece.located start (cs.takeWhile inBareValue), cs.dropWhile inBareValue)

/-- The attribute that starts with the character `c` at `start`, and what follows it. -/
def attributeAt (start : Nat) (c : Char) (cs : List Char) :
    Except Trouble (Attribute × List Char) :=
  let name := Piece.located start (c :: cs.takeWhile inName)
  let rest := cs.dropWhile inName
  match rest.dropWhile isAsciiBlank with
  | '=' :: more => do
    let body := more.dropWhile isAsciiBlank
    let (v, rest) ← value name.text (start + (size (c :: cs) - size body)) body
    return (⟨name, some v⟩, rest)
  | _ => .ok (⟨name, none⟩, rest)

theorem length_dropWhile (p : Char → Bool) (cs : List Char) :
    (cs.dropWhile p).length ≤ cs.length :=
  (List.dropWhile_sublist p).length_le

theorem length_value {name : String} {start : Nat} {cs rest : List Char} {v : Piece}
    (h : value name start cs = .ok (v, rest)) : rest.length ≤ cs.length := by
  have quoted {q : Char} {cs : List Char} (h : quotedValue name q start cs = .ok (v, rest)) :
      rest.length ≤ cs.length + 1 := by
    unfold quotedValue at h
    split at h
    · next hc =>
      simp only [Except.ok.injEq, Prod.mk.injEq] at h
      have := congrArg List.length (eq_append_of_cut? hc)
      simp only [List.length_append, h.2, List.length_cons, List.length_nil] at this
      omega
    · simp at h
  unfold value at h
  split at h
  · simpa using quoted h
  · simpa using quoted h
  · simp only [Except.ok.injEq, Prod.mk.injEq] at h
    exact h.2 ▸ length_dropWhile ..

theorem length_attributeAt {start : Nat} {c : Char} {cs rest : List Char} {a : Attribute}
    (h : attributeAt start c cs = .ok (a, rest)) : rest.length ≤ cs.length := by
  have hname := length_dropWhile inName cs
  have hblank := length_dropWhile isAsciiBlank (cs.dropWhile inName)
  simp only [attributeAt] at h
  split at h
  · next more hm =>
    have hmore := length_dropWhile isAsciiBlank more
    simp only [bind, Except.bind] at h
    split at h
    · simp at h
    · next vr hv =>
      obtain ⟨v, r⟩ := vr
      have := length_value hv
      simp only [pure, Except.pure, Except.ok.injEq, Prod.mk.injEq] at h
      simp only [hm, List.length_cons] at hblank
      rw [← h.2]
      omega
  · simp only [Except.ok.injEq, Prod.mk.injEq] at h
    exact h.2 ▸ hname

/-- The attributes of a start tag up to its end, whether it closes itself, and what follows.
`tag` and `start` are those of the whole tag. -/
def attributes (tag : String) (start offset : Nat) (cs : List Char) :
    Except Trouble (List Attribute × Bool × List Char) :=
  match cs with
  | [] => .error ⟨.openStartTag tag, start⟩
  | '>' :: rest => .ok ([], false, rest)
  | '/' :: '>' :: rest => .ok ([], true, rest)
  | c :: rest =>
    if isAsciiBlank c || c == '/' || c == '=' then attributes tag start (offset + c.utf8Size) rest
    else
      match h : attributeAt offset c rest with
      | .error e => .error e
      | .ok (a, more) => do
        have := length_attributeAt h
        let next := offset + (size (c :: rest) - size more)
        let (as, selfClosing, rest) ← attributes tag start next more
        return (a :: as, selfClosing, rest)
termination_by cs.length

theorem length_attributes {tag : String} {start offset : Nat} {cs rest : List Char}
    {as : List Attribute} {closing : Bool}
    (h : attributes tag start offset cs = .ok (as, closing, rest)) : rest.length ≤ cs.length := by
  fun_induction attributes tag start offset cs generalizing as closing rest with
  | case1 => simp at h
  | case2 => simp_all
  | case3 => simp_all; omega
  | case4 _ _ _ _ _ _ ih => simp only [List.length_cons]; have := ih h; omega
  | case5 => simp at h
  | case6 =>
    rename_i more ha _ _ ih
    simp only [bind, Except.bind] at h
    split at h
    · simp at h
    · next v hv =>
      obtain ⟨as, closing, r⟩ := v
      have h1 := ih hv
      have h2 := length_attributeAt ha
      simp only [pure, Except.pure, Except.ok.injEq, Prod.mk.injEq] at h
      simp only [List.length_cons, ← h.2.2]
      omega

/-- The token that goes up to the next occurrence of a word in `body`; the text from its first
byte `start` on has `total` bytes. -/
def tokenUpTo (word : List Char) (problem : MarkupProblem) (make : Span → Token)
    (start total : Nat) (body : List Char) : Except Trouble (Token × List Char) :=
  match cut? word body with
  | some (_, rest) => .ok (make (.ofOffsets start (start + (total - size rest))), rest)
  | none => .error ⟨problem, start⟩

/-- The text that starts with the character `c`, which is taken whatever it is. -/
def textAt (start : Nat) (c : Char) (cs : List Char) : Except Trouble (Token × List Char) :=
  let (run, rest) := textRun cs
  .ok (.text (Piece.located start (c :: run)), rest)

/-- The start tag whose name starts with the letter `l`. -/
def startTagAt (start : Nat) (l : Char) (body : List Char) :
    Except Trouble (Token × List Char) := do
  let name := l :: body.takeWhile inName
  let tag := lowercase (.ofList name)
  let (as, selfClosing, rest) ←
    attributes tag start (start + 1 + size name) (body.dropWhile inName)
  let span := Span.ofOffsets start (start + 1 + (size (l :: body) - size rest))
  return (.startTag ⟨tag, as, span, span⟩ selfClosing, rest)

/-- The end tag whose name starts with the letter `l`. -/
def endTagAt (start : Nat) (l : Char) (body : List Char) : Except Trouble (Token × List Char) :=
  let tag := lowercase (.ofList (l :: body.takeWhile inName))
  tokenUpTo ['>'] .openEndTag (.endTag tag) start (2 + size (l :: body)) (body.dropWhile inName)

/-- The token at the start of a text that begins at `start` with the character `c`, and what
follows it. -/
def tokenAt (start : Nat) (c : Char) (cs : List Char) : Except Trouble (Token × List Char) :=
  let total := size (c :: cs)
  if c = '<' then
    match cs with
    | '!' :: '-' :: '-' :: body =>
      tokenUpTo ['-', '-', '>'] .openComment .comment start total body
    | '!' :: body => tokenUpTo ['>'] .openDeclaration .comment start total body
    | '?' :: body => tokenUpTo ['>'] .openDeclaration .comment start total body
    | '/' :: l :: body => if isAsciiLetter l then endTagAt start l body else textAt start c cs
    | l :: body => if isAsciiLetter l then startTagAt start l body else textAt start c cs
    | [] => textAt start c cs
  else textAt start c cs

theorem length_tokenUpTo {word body rest : List Char} {problem : MarkupProblem}
    {make : Span → Token} {start total : Nat} {t : Token}
    (h : tokenUpTo word problem make start total body = .ok (t, rest)) :
    rest.length ≤ body.length := by
  unfold tokenUpTo at h
  split at h
  · next hc =>
    simp only [Except.ok.injEq, Prod.mk.injEq] at h
    have := congrArg List.length (eq_append_of_cut? hc)
    simp only [List.length_append, h.2] at this
    omega
  · simp at h

theorem length_textAt {start : Nat} {c : Char} {cs rest : List Char} {t : Token}
    (h : textAt start c cs = .ok (t, rest)) : rest.length ≤ cs.length := by
  simp only [textAt, Except.ok.injEq, Prod.mk.injEq] at h
  exact h.2 ▸ length_textRun cs

theorem length_startTagAt {start : Nat} {l : Char} {body rest : List Char} {t : Token}
    (h : startTagAt start l body = .ok (t, rest)) : rest.length ≤ body.length := by
  simp only [startTagAt, bind, Except.bind] at h
  split at h
  · simp at h
  · next v hv =>
    obtain ⟨as, closing, r⟩ := v
    have h1 := length_attributes hv
    have h2 := length_dropWhile inName body
    simp only [pure, Except.pure, Except.ok.injEq, Prod.mk.injEq] at h
    rw [← h.2]
    omega

theorem length_tokenAt {start : Nat} {c : Char} {cs rest : List Char} {t : Token}
    (h : tokenAt start c cs = .ok (t, rest)) : rest.length ≤ cs.length := by
  unfold tokenAt at h
  split at h
  · split at h
    · have := length_tokenUpTo h; simp only [List.length_cons]; omega
    · have := length_tokenUpTo h; simp only [List.length_cons]; omega
    · have := length_tokenUpTo h; simp only [List.length_cons]; omega
    · next l body =>
      split at h
      · have h1 := length_tokenUpTo h
        have h2 := length_dropWhile inName body
        simp only [List.length_cons]
        omega
      · exact length_textAt h
    · split at h
      · have := length_startTagAt h; simp only [List.length_cons]; omega
      · exact length_textAt h
    · exact length_textAt h
  · exact length_textAt h

/-- Whether an element has content at all. -/
def opens (head : Head) (selfClosing : Bool) : Bool :=
  !(selfClosing || voidTags.contains head.tag)

/-- The raw content that follows a token, and what follows that. -/
def rawAfter (t : Token) (cs : List Char) : List Char × List Char :=
  match t with
  | .startTag head selfClosing =>
    if opens head selfClosing && rawTags.contains head.tag then rawRun head.tag.toList cs
    else ([], cs)
  | _ => ([], cs)

theorem length_rawAfter (t : Token) (cs : List Char) : (rawAfter t cs).2.length ≤ cs.length := by
  unfold rawAfter
  split
  · split
    · exact length_rawRun ..
    · exact Nat.le_refl _
  · exact Nat.le_refl _

/-- The tokens of a text that begins at `start`. -/
def tokens (start : Nat) (cs : List Char) : Except Trouble (List Token) :=
  match cs with
  | [] => .ok []
  | c :: cs =>
    match h : tokenAt start c cs with
    | .error e => .error e
    | .ok (t, rest) => do
      have := length_tokenAt h
      have := length_rawAfter t rest
      let raw := (rawAfter t rest).1
      let stop := start + (size (c :: cs) - size rest)
      let more ← tokens (stop + size raw) (rawAfter t rest).2
      if raw.isEmpty then return t :: more
      else return t :: .text (Piece.located stop raw) :: more
termination_by cs.length

end Relabel.Markup
