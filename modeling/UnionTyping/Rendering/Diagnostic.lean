/-
  UnionTyping/Rendering/Diagnostic.lean
  ======================================
  **The text of a report on a failed check.**

  The headline is the code and the message of the problem.  Below it the failing
  expression is shown in its source line, together with the assignment that
  exposed the problem when that is in the same file.  Spans are found in bytes
  and drawn as characters.  The two agree as long as the text up to the end of
  the span is ASCII; otherwise the label is drawn further to the right, or not at
  all when it no longer lies within its line.
-/
import UnionTyping.Inference.Outcome
import UnionTyping.Rendering.Layout

namespace UnionTyping

namespace Diagnostic

def relatedLabel (d : Diagnostic) (source : String) : Except RenderError (List Label) :=
  match d.related with
  | none => .ok []
  | some loc =>
    if loc.file = d.location.file ∧ loc.isPlaced then
      (Span.ofLocation source loc).map fun span => [⟨span, "the variable was widened here"⟩]
    else .ok []

def render (d : Diagnostic) (source fileName : String) : Except RenderError String := do
  let span ← Span.ofLocation source d.location
  let help ← d.problem.help
  let related ← d.relatedLabel source
  let rows := drawLabels (.ofString source) fileName ⟨span, d.problem.label⟩ related help
  let headline := "[" ++ d.problem.code ++ "] Error: " ++ d.message
  return String.join ((headline :: rows.map String.ofList).map (· ++ "\n"))

end Diagnostic

/-- The report on a failed check.  A run that was given up has no place in the
    source and is reported in one line. -/
def CheckError.render (e : CheckError) (source : String) (settings : Settings) :
    Except RenderError String :=
  match e with
  | .rejected d => d.render source (settings.fileName.getD d.location.file)
  | .iterationLimit _ => .ok ("error: " ++ e.message ++ "\n")

end UnionTyping
