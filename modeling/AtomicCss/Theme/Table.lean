/-
Themes: the value of every design token.

A theme maps a category and a token to a CSS value.  A configuration changes the
default theme in two layers, overrides first and extensions after them; a layer adds
tokens and replaces values but never takes a token away.
-/
import AtomicCss.Config.Error
import AtomicCss.SortedMap
import AtomicCss.Theme.Breakpoint

namespace AtomicCss

/-- The values of one category's tokens. -/
abbrev Tokens := SortedMap String String

/-- Two layers of settings by category, the second applied on top of the first. -/
structure Layered (α : Type) where
  base : SortedMap Category α := ∅
  extend : SortedMap Category α := ∅
  deriving DecidableEq

/-- The layers in the order in which they apply. -/
def Layered.toList {α : Type} (l : Layered α) : List (SortedMap Category α) :=
  [l.base, l.extend]

/-- A resolved theme. -/
structure Theme where
  tokens : SortedMap Category Tokens
  deriving DecidableEq

namespace Theme

/-- The value of a token. -/
def find? (theme : Theme) (category : Category) (token : String) : Option String := do
  (← theme.tokens.find? category).find? token

/-- The breakpoints in the order of their names. -/
def breakpoints (theme : Theme) : List Breakpoint :=
  ((theme.tokens.find? .screens).getD ∅).entries.map fun e => ⟨e.1, e.2⟩

/-- The breakpoints from the narrowest to the widest, if they can be sorted. -/
def screens? (theme : Theme) : Option (List Breakpoint) :=
  Breakpoint.sort? theme.breakpoints

/-- Refuses a token whose value is not of its category's kind. -/
def checkToken (category : Category) (token value : String) : Except ConfigError Unit :=
  if category.valueKind.accepts value then .ok ()
  else .error (.invalidToken category token value)

/-- Adds tokens to those of a category; the first invalid one is an error. -/
def addTokens (category : Category) (current added : Tokens) : Except ConfigError Tokens :=
  added.entries.foldlM (fun tokens (token, value) => do
    checkToken category token value
    return tokens.insert token (Text.trimmed value)) current

/-- Applies one layer; the first invalid token in category order is an error. -/
def applyLayer (table layer : SortedMap Category Tokens) :
    Except ConfigError (SortedMap Category Tokens) :=
  layer.entries.foldlM (fun table (category, added) => do
    let tokens ← addTokens category ((table.find? category).getD ∅) added
    return table.insert category tokens) table

/-- The theme that two configured layers make of `defaults`. -/
def resolve (defaults : SortedMap Category Tokens) (configured : Layered Tokens) :
    Except ConfigError Theme := do
  return ⟨← configured.toList.foldlM applyLayer defaults⟩

end Theme

end AtomicCss
