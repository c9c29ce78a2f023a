import PugSize.Text.Basic

/-!
Replacements against one state of a text. They are applied from the highest start to the
lowest, so that none moves the span of one still to be applied.
-/

namespace PugSize

structure Replacement where
  span : Span
  text : Text
deriving DecidableEq

namespace Replacement

def insertion (offset : Nat) (text : Text) : Replacement := ⟨Span.empty offset, text⟩

def apply (t : Text) (r : Replacement) : Text := t.splice r.span r.text

/-- Replacements in the order of application; those with one start keep their order. -/
def descending (rs : List Replacement) : List Replacement :=
  rs.mergeSort fun a b => b.span.start ≤ a.span.start

def applyAll (t : Text) (rs : List Replacement) : Text :=
  (descending rs).foldl apply t

end Replacement
end PugSize
