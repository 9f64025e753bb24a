import Reckon.Grammar.Component

/-!
# Regular templates

`compose` looks for parentheses and `%s` in a template without regard to what its notation makes of
them. A template is regular if both agree: none of them stands behind a backslash or in a set, where
it would be plain, and no `(` has a `?` behind it, which would make the group one that does not
capture.
-/

namespace Reckon.Component

variable {E : Engine}

/-- Is a template regular from some place on? -/
def isRegularFrom : Place → List Char → Bool
  | _, [] => true
  | p, '%' :: 's' :: rest => p = .outside && isRegularFrom .outside rest
  | p, c :: rest =>
    if c = '(' then p = .outside && rest.head? ≠ some '?' && isRegularFrom .outside rest
    else if c = ')' then p = .outside && isRegularFrom .outside rest
    else isRegularFrom (p.next c) rest

def isRegular (template : String) : Bool := isRegularFrom .outside template.toList

/-- Components that some nesting of `leaf` and `compose` gives, with regular templates only. -/
inductive Regular : Component E → Prop
  | leaf {description form : String} {c : Component E} : leaf description form = .ok c → Regular c
  | compose {description template : String} {names : List PartName} {parts : List (Component E)}
      {c : Component E} : isRegular template → compose description template names parts = .ok c →
        (∀ p ∈ parts, Regular p) → Regular c

end Reckon.Component
