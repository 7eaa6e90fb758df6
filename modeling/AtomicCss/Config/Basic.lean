/-
Configurations.
-/
import AtomicCss.Theme.Table

namespace AtomicCss

/-- Which modifiers a class may carry. -/
inductive Mode
  /-- Every modifier, in every category. -/
  | jit
  /-- The modifiers that are enabled for the class's category. -/
  | aot
  deriving DecidableEq

/-- What the modifier `dark` stands for. -/
inductive DarkMode
  /-- Nothing: the modifier does not exist. -/
  | disabled
  /-- The reader's preferred colour scheme. -/
  | media
  /-- An ancestor of class `dark`. -/
  | ancestor
  deriving DecidableEq

/-- Everything a project can set. -/
structure Config where
  mode : Mode := .jit
  /-- The glob patterns of the files to scan. -/
  content : List String
  darkMode : DarkMode := .disabled
  theme : Layered Tokens := {}
  /-- Enabled modifiers: `base` stands in place of a category's built-in set, `extend`
  adds to it. -/
  variants : Layered NameSet := {}
  deriving DecidableEq

end AtomicCss
