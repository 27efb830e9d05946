import Relabel.Script.Export
import Relabel.Script.Module

/-!
# Reading programs

Closes the recursion of the grammar and reads a whole program. A program is a module: `await` is
an operator outside functions, and `return` may stand in functions only.
-/

namespace Relabel.Script

open Reading

/-- The rules of all kinds of phrases, to a depth of nesting. -/
def rules : Nat → Rules
  | 0 => fun _ _ => failure
  | n + 1 => fun goal ctx =>
    match goal with
    | .statement position => statement (rules n) ctx position
    | .expression => expression (rules n) ctx
    | .assignment => assignment (rules n) ctx
    | .operation level => operation (rules n) ctx level
    | .unary => unary (rules n) ctx
    | .access reach => access (rules n) ctx reach
    | .binding => binding (rules n) ctx

/-- The statements up to the end of the program. Between two tokens at most five kinds of phrases
nest. -/
def program : Reading Tree := do
  let depth := 5 * (← get).bound + 8
  let statements ← iterate (fun (items : List Tree) => do
    if (← token) == .stop then return none
    else return some ((← rules depth (.statement .top) { awaits := true }) :: items)) []
  let c ← get
  return .node .program ⟨0, c.stop⟩ statements.reverse

/-- The tree of a program, if the text is one. -/
def read? (text : String) : Option Tree := do
  let (tree, _) ← program.run (.first text.toList)
  guard (tree.isSettled && tree.exportsOnce)
  return tree

end Relabel.Script
