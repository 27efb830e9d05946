/-!
# Cutting at a word

`stripPrefix?` takes a word off the front of a text, `stripSuffix?` off its end, and `cut?` cuts at
the first place where the word occurs. Each says how the text is put together again.
-/

namespace Relabel.Text

/-- The text after a word that it starts with. -/
def stripPrefix? : List Char → List Char → Option (List Char)
  | [], cs => some cs
  | w :: ws, c :: cs => if w = c then stripPrefix? ws cs else none
  | _ :: _, [] => none

/-- The text before a word that it ends with. -/
def stripSuffix? (word cs : List Char) : Option (List Char) :=
  (stripPrefix? word.reverse cs.reverse).map List.reverse

/-- The text before the first occurrence of a word, and the text after it. -/
def cut? (word : List Char) : List Char → Option (List Char × List Char)
  | [] => if word.isEmpty then some ([], []) else none
  | c :: cs =>
    match stripPrefix? word (c :: cs) with
    | some rest => some ([], rest)
    | none => (cut? word cs).map fun (a, b) => (c :: a, b)

theorem eq_append_of_stripPrefix? {word cs rest : List Char}
    (h : stripPrefix? word cs = some rest) : cs = word ++ rest := by
  induction word generalizing cs with
  | nil => simp_all [stripPrefix?]
  | cons w ws ih =>
    cases cs with
    | nil => simp [stripPrefix?] at h
    | cons c cs =>
      simp only [stripPrefix?] at h
      split at h
      · next hw => simp [hw, ih h]
      · simp at h

theorem eq_append_of_cut? {word cs a b : List Char} (h : cut? word cs = some (a, b)) :
    cs = a ++ word ++ b := by
  induction cs generalizing a with
  | nil =>
    simp only [cut?] at h
    split at h <;> simp_all
  | cons c cs ih =>
    simp only [cut?] at h
    split at h
    · next hp =>
      obtain ⟨rfl, rfl⟩ := Prod.mk.injEq .. ▸ Option.some.injEq .. ▸ h
      simpa using eq_append_of_stripPrefix? hp
    · obtain ⟨⟨x, y⟩, hx, hxy⟩ := Option.map_eq_some_iff.1 h
      obtain ⟨rfl, rfl⟩ := Prod.mk.injEq .. ▸ hxy
      simp [ih hx]

end Relabel.Text
