/-
What a pattern that begins with literals matches.

A sequence of tokens takes one token after the other from the front of a text, so what it
leaves of several texts is what it leaves of each of them.  Literals take exactly their own
bytes, and so a text that they match begins with their characters.
-/
import AtomicCss.Proofs.Glob.Bytes

namespace AtomicCss.Glob

/-! ### Sequences -/

variable {separated : Bool} {s x : Bytes} {ts : List Token}

theorem mem_sequenceRests_iff {ss : List Bytes} :
    x ∈ sequenceRests separated ts ss ↔ ∃ s ∈ ss, x ∈ sequenceRests separated ts [s] := by
  induction ts generalizing ss with
  | nil => simp [sequenceRests]
  | cons t ts ih =>
    simp only [sequenceRests]
    rw [ih]
    constructor
    · intro h
      obtain ⟨r, hr, hx⟩ := h
      obtain ⟨s, hs, hr⟩ := List.mem_flatMap.mp (List.mem_eraseDups.mp hr)
      refine ⟨s, hs, ih.mpr ⟨r, ?_, hx⟩⟩
      simpa using hr
    · intro h
      obtain ⟨s, hs, hx⟩ := h
      obtain ⟨r, hr, hx⟩ := ih.mp hx
      refine ⟨r, ?_, hx⟩
      simp only [List.mem_eraseDups, List.mem_flatMap, List.mem_singleton, exists_eq_left] at hr ⊢
      exact ⟨s, hs, hr⟩

theorem mem_sequenceRests_cons {t : Token} :
    x ∈ sequenceRests separated (t :: ts) [s] ↔
      ∃ r ∈ t.rests separated s, x ∈ sequenceRests separated ts [r] := by
  rw [sequenceRests, mem_sequenceRests_iff]
  simp

theorem mem_rests_literal {c : Char} {r : Bytes} :
    r ∈ (Token.literal c).rests separated s ↔ s = String.utf8EncodeChar c ++ r := by
  rw [Token.rests, Option.mem_toList, Text.after?_eq_some_iff]

theorem mem_sequenceRests_literals {cs : List Char} :
    x ∈ sequenceRests separated (cs.map .literal ++ ts) [s] ↔
      ∃ rest, s = bytes cs ++ rest ∧ x ∈ sequenceRests separated ts [rest] := by
  induction cs generalizing s with
  | nil => simp [bytes]
  | cons c cs ih =>
    simp only [List.map_cons, List.cons_append, mem_sequenceRests_cons, mem_rests_literal, ih,
      bytes_cons]
    constructor
    · intro h
      obtain ⟨r, rfl, rest, rfl, hx⟩ := h
      exact ⟨rest, by rw [List.append_assoc], hx⟩
    · intro h
      obtain ⟨rest, rfl, hx⟩ := h
      exact ⟨bytes cs ++ rest, by rw [List.append_assoc], rest, rfl, hx⟩

theorem nil_mem_literals {cs : List Char} :
    [] ∈ sequenceRests separated (cs.map .literal) [s] ↔ s = bytes cs := by
  rw [← List.append_nil (cs.map Token.literal), mem_sequenceRests_literals]
  constructor
  · intro h
    obtain ⟨rest, rfl, hrest⟩ := h
    obtain rfl : rest = [] := by simpa [sequenceRests, eq_comm] using hrest
    rw [List.append_nil]
  · intro h
    exact ⟨[], by rw [h, List.append_nil], by simp [sequenceRests]⟩

/-- The tokens that take a slash first. -/
def Token.takesSlash : Token → Bool
  | .literal c => c = '/'
  | .trailing | .between => true
  | _ => false

theorem exists_of_takesSlash {t : Token} (ht : t.takesSlash = true) {r : Bytes}
    (h : r ∈ t.rests separated s) : ∃ rest, s = bytes ['/'] ++ rest := by
  cases t with
  | literal c =>
    obtain rfl : c = '/' := by simpa [Token.takesSlash] using ht
    exact ⟨r, by simpa [bytes] using mem_rests_literal.mp h⟩
  | trailing | between =>
    simp only [Token.rests] at h
    split at h
    · cases h
    · split at h
      · rename_i b rest hb
        exact ⟨rest, by rw [hb]; rfl⟩
      · cases h
  | any | anyRun | leading | oneOf | alternates => cases ht

/-! ### Patterns -/

variable {g : Glob}

/-- Only two stars alone are not compared token by token. -/
theorem matchesBytes_iff (h : g.tokens ≠ [.leading]) :
    g.matchesBytes s = true ↔ [] ∈ sequenceRests g.separated g.tokens [s] := by
  unfold matchesBytes
  split
  · rename_i hleading
    exact absurd hleading h
  · simp

theorem isMatch_literals_iff {cs text : List Char} (htokens : g.tokens = cs.map .literal) :
    g.isMatch text = true ↔ text = cs := by
  have hne : g.tokens ≠ [.leading] := by
    rw [htokens]
    cases cs <;> simp
  rw [isMatch, matchesBytes_iff hne, htokens, nil_mem_literals]
  exact ⟨bytes_injective, congrArg bytes⟩

/-- A pattern that begins with a directory and a slash matches only texts that do. -/
theorem exists_of_isMatch_directory {dir text : List Char} {t : Token}
    (htokens : g.tokens = dir.map .literal ++ t :: ts) (ht : t.takesSlash = true)
    (h : g.isMatch text = true) : ∃ rest, text = dir ++ '/' :: rest := by
  have hne : g.tokens ≠ [.leading] := by
    intro hleading
    rw [htokens] at hleading
    cases dir with
    | nil =>
      obtain ⟨rfl, -⟩ := List.cons.inj hleading
      cases ht
    | cons c dir => cases (List.cons.inj hleading).1
  rw [isMatch, matchesBytes_iff hne, htokens, mem_sequenceRests_literals] at h
  obtain ⟨rest, hbytes, hrest⟩ := h
  obtain ⟨r, hr, -⟩ := mem_sequenceRests_cons.mp hrest
  obtain ⟨below, rfl⟩ := exists_of_takesSlash ht hr
  rw [← List.append_assoc, ← bytes_append] at hbytes
  obtain ⟨more, rfl, -⟩ := exists_append_of_bytes_eq hbytes
  exact ⟨more, by simp⟩

end AtomicCss.Glob
