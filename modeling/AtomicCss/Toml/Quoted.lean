/-
Strings of a document.

A string stands between double quotes, with escapes, or between single quotes, as it
is.  Three quotes in place of one let it run over several lines: a line end right after
the opening quotes is dropped, every other one is a line feed, and up to two quotes may
stand before the closing three.
-/
import AtomicCss.Toml.Blank
import AtomicCss.Decimal.Numeral

namespace AtomicCss.Toml

/-- The two kinds of quotes. -/
inductive Quote
  /-- Double: a backslash escapes. -/
  | basic
  /-- Single: every character stands for itself. -/
  | literal
  deriving DecidableEq

/-- The character of a kind of quotes. -/
def Quote.char : Quote → Char
  | .basic => '\x22'
  | .literal => '\x27'

/-- A character that stands for itself in a string: no control character except tab, and
neither the quote nor, where it escapes, the backslash. -/
def Quote.isPlain (q : Quote) (c : Char) : Bool :=
  c != q.char && !(q = .basic && c == '\\') && (c == '\t' || (c.toNat ≥ 0x20 && c.toNat != 0x7F))

/-- Whether `c` is a hexadecimal digit. -/
def isHexDigit (c : Char) : Bool :=
  c.isDigit || ('a' ≤ c && c ≤ 'f') || ('A' ≤ c && c ≤ 'F')

/-- The character with the code point that hexadecimal digits spell. -/
def codePoint? (digits : List Char) : Option Char :=
  let n := Decimal.radixValue 16 digits
  if digits.all isHexDigit && n.isValidChar then some (Char.ofNat n) else none

/-- The character of an escape of one letter. -/
def shortEscape? : Char → Option Char
  | 'b' => some '\x08'
  | 't' => some '\t'
  | 'n' => some '\n'
  | 'f' => some '\x0c'
  | 'r' => some '\r'
  | '\x22' => some '\x22'
  | '\\' => some '\\'
  | _ => none

/-- Reads an escape after its backslash. -/
def escape? : List Char → Option (Char × List Char)
  | 'u' :: a :: b :: c :: d :: cs => (codePoint? [a, b, c, d]).map (·, cs)
  | 'U' :: a :: b :: c :: d :: e :: f :: g :: h :: cs =>
    (codePoint? [a, b, c, d, e, f, g, h]).map (·, cs)
  | c :: cs => (shortEscape? c).map (·, cs)
  | [] => none

theorem escape?_length_lt {cs rest : List Char} {c : Char} (h : escape? cs = some (c, rest)) :
    rest.length < cs.length := by
  unfold escape? at h
  split at h
  · obtain ⟨_, _, he⟩ := Option.map_eq_some_iff.mp h
    cases he; simp only [List.length_cons]; omega
  · obtain ⟨_, _, he⟩ := Option.map_eq_some_iff.mp h
    cases he; simp only [List.length_cons]; omega
  · obtain ⟨_, _, he⟩ := Option.map_eq_some_iff.mp h
    cases he; simp
  · cases h

/-- Puts `c` in front of what was read. -/
def consRead (c : Char) : List Char × List Char → List Char × List Char
  | (text, rest) => (c :: text, rest)

/-- Reads a string within one line after its opening quote. -/
def inLine? (q : Quote) (cs : List Char) : Option (List Char × List Char) :=
  match cs with
  | [] => none
  | c :: cs =>
    if c = q.char then some ([], cs)
    else if q.isPlain c then (inLine? q cs).map (consRead c)
    else if c = '\\' && q = .basic then
      match h : escape? cs with
      | some (e, rest) =>
        have := escape?_length_lt h
        (inLine? q rest).map (consRead e)
      | none => none
    else none
termination_by cs.length

/-- Skips a line end, the white space before it, and the white space and line ends after
it. -/
def skipContinuation? (cs : List Char) : Option (List Char) :=
  (newline? (skipSpace cs)).map skipBlankLines
where
  /-- Skips white space and line ends. -/
  skipBlankLines : List Char → List Char
    | [] => []
    | '\n' :: cs => skipBlankLines cs
    | '\r' :: '\n' :: cs => skipBlankLines cs
    | c :: cs => if isSpace c then skipBlankLines cs else c :: cs

theorem skipBlankLines_length_le (cs : List Char) :
    (skipContinuation?.skipBlankLines cs).length ≤ cs.length := by
  fun_induction skipContinuation?.skipBlankLines cs <;> simp_all <;> omega

theorem newline?_length_lt {cs rest : List Char} (h : newline? cs = some rest) :
    rest.length < cs.length := by
  unfold newline? at h
  split at h
  · cases h; simp
  · cases h; simp only [List.length_cons]; omega
  · cases h

theorem skipSpace_length_le (cs : List Char) : (skipSpace cs).length ≤ cs.length := by
  have := congrArg List.length (List.takeWhile_append_dropWhile (p := isSpace) (l := cs))
  simp only [List.length_append] at this
  simp only [skipSpace]
  omega

theorem skipContinuation?_length_lt {cs rest : List Char}
    (h : skipContinuation? cs = some rest) : rest.length < cs.length := by
  obtain ⟨r, hr, rfl⟩ := Option.map_eq_some_iff.mp h
  have h₁ := newline?_length_lt hr
  have h₂ := skipSpace_length_le cs
  have h₃ := skipBlankLines_length_le r
  omega

/-- Reads a string over several lines after its opening quotes. -/
def overLines? (q : Quote) (cs : List Char) : Option (List Char × List Char) :=
  match cs with
  | [] => none
  | '\n' :: cs => (overLines? q cs).map (consRead '\n')
  | '\r' :: '\n' :: cs => (overLines? q cs).map (consRead '\n')
  | c :: cs =>
    if c = q.char then
      -- Three quotes close the string; two more of a longer run belong to it.
      match (c :: cs).take 5 |>.takeWhile (· = q.char) |>.length with
      | 3 => some ([], cs.drop 2)
      | 4 => some ([c], cs.drop 3)
      | 5 => some ([c, c], cs.drop 4)
      | _ => (overLines? q cs).map (consRead c)
    else if q.isPlain c then (overLines? q cs).map (consRead c)
    else if c = '\\' && q = .basic then
      match h : skipContinuation? cs with
      | some rest =>
        have := skipContinuation?_length_lt h
        overLines? q rest
      | none =>
        match h : escape? cs with
        | some (e, rest) =>
          have := escape?_length_lt h
          (overLines? q rest).map (consRead e)
        | none => none
    else none
termination_by cs.length

/-- Reads a string within one line. -/
def lineString? (cs : List Char) : Option (String × List Char) :=
  match cs with
  | '\x22' :: cs => (inLine? .basic cs).map fun (text, rest) => (String.ofList text, rest)
  | '\x27' :: cs => (inLine? .literal cs).map fun (text, rest) => (String.ofList text, rest)
  | _ => none

/-- Reads a string of any kind. -/
def string? (cs : List Char) : Option (String × List Char) :=
  match cs with
  | '\x22' :: '\x22' :: '\x22' :: cs => many .basic cs
  | '\x27' :: '\x27' :: '\x27' :: cs => many .literal cs
  | cs => lineString? cs
where
  /-- Reads a string over several lines, less a line end at its beginning. -/
  many (q : Quote) (cs : List Char) : Option (String × List Char) :=
    (overLines? q ((newline? cs).getD cs)).map fun (text, rest) => (String.ofList text, rest)

end AtomicCss.Toml
