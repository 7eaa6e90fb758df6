/-
What the underscores of a bracketed value do not touch.

Decoding puts a space for an underscore and drops the backslash in front of one.  Neither
is a bracket, a slash or an asterisk, and a backslash at the end has no underscore behind
it.  So what a value leaves open can be told from the text in the source.
-/
import AtomicCss.Proofs.Value.SelfContained
import AtomicCss.Utility.Arbitrary
import Mathlib.Data.List.Induction

namespace AtomicCss.Value

open Arbitrary

/-- A character that neither is an underscore nor escapes one stands for itself. -/
theorem decode_cons {c : Char} {cs : List Char} (hc : c ≠ '_')
    (hescape : c = '\\' → cs.head? ≠ some '_') : decode (c :: cs) = c :: decode cs := by
  rw [decode.eq_def]
  split
  · cases ‹c :: cs = []›
  · rename_i heq
    obtain ⟨rfl, rfl⟩ := List.cons.inj heq
    exact absurd rfl (hescape rfl)
  · rename_i heq
    exact absurd (List.cons.inj heq).1 hc
  · rename_i heq
    obtain ⟨rfl, rfl⟩ := List.cons.inj heq
    rfl

/-! ### Brackets and comments -/

theorem nestsFrom_decode_append {cs rest due : List Char} :
    nestsFrom due (decode cs ++ rest) = nestsFrom due (cs ++ rest) := by
  fun_induction decode cs generalizing due with
  | case1 => rfl
  | case2 cs ih => simpa [nestsFrom] using ih
  | case3 cs ih => simpa [nestsFrom] using ih
  | case4 c cs _ _ ih => simp only [List.cons_append, nestsFrom, ih]

theorem nests_decode {cs : List Char} : nests (decode cs) = nests cs := by
  have : nestsFrom [] (decode cs ++ []) = nestsFrom [] (cs ++ []) := nestsFrom_decode_append
  simpa [nests] using this

/-- Only underscores, spaces and backslashes come or go. -/
theorem head?_decode {cs : List Char} {x : Char} (hx : x ∉ ['_', ' ', '\\']) :
    ((decode cs).head? == some x) = (cs.head? == some x) := by
  simp only [List.mem_cons, List.not_mem_nil, or_false, not_or] at hx
  obtain ⟨h₁, h₂, h₃⟩ := hx
  fun_cases decode cs with
  | case1 => rfl
  | case2 cs => simp [Ne.symm h₁, Ne.symm h₃]
  | case3 cs => simp [Ne.symm h₁, Ne.symm h₂]
  | case4 c cs => rfl

theorem endsComment_decode {cs : List Char} : endsComment (decode cs) = endsComment cs := by
  fun_induction decode cs with
  | case1 => rfl
  | case2 cs ih => simpa [endsComment] using ih
  | case3 cs ih => simpa [endsComment] using ih
  | case4 c cs _ _ ih => rw [endsComment, endsComment, ih, head?_decode (by decide)]

theorem commentsEnd_decode {cs : List Char} : commentsEnd (decode cs) = commentsEnd cs := by
  fun_induction decode cs with
  | case1 => rfl
  | case2 cs ih => simpa [commentsEnd] using ih
  | case3 cs ih => simpa [commentsEnd] using ih
  | case4 c cs _ _ ih =>
      rw [commentsEnd, commentsEnd, ih, head?_decode (by decide)]
      by_cases hopens : cs.head? = some '*'
      · obtain ⟨rest, rfl⟩ : ∃ rest, cs = '*' :: rest := by
          cases cs with
          | nil => cases hopens
          | cons d rest => exact ⟨rest, by rw [Option.some.inj hopens]⟩
        rw [decode_cons (by decide) (fun h => absurd h (by decide)), List.tail_cons,
          List.tail_cons, endsComment_decode]
      · rw [beq_eq_false_iff_ne.mpr hopens]
        simp

/-! ### The end -/

theorem decode_append_singleton {cs : List Char} {c : Char} (hc : c ≠ '_') :
    decode (cs ++ [c]) = decode cs ++ [c] := by
  fun_induction decode cs with
  | case1 => exact decode_cons hc (by simp)
  | case2 cs ih => exact congrArg ('_' :: ·) ih
  | case3 cs ih => exact congrArg (' ' :: ·) ih
  | case4 d cs hescaped hne ih =>
      rw [List.cons_append, decode_cons hne, ih]
      · rfl
      · rintro rfl hhead
        cases cs with
        | nil => exact hc (Option.some.inj hhead)
        | cons e cs => exact hescaped cs rfl (by rw [Option.some.inj hhead])

/-- After an underscore a value ends with an underscore or a space. -/
theorem exists_decode_underscore (cs : List Char) :
    ∃ init c, decode (cs ++ ['_']) = init ++ [c] ∧ c ≠ '\\' := by
  fun_induction decode cs with
  | case1 => exact ⟨[], ' ', rfl, by decide⟩
  | case2 cs ih =>
      obtain ⟨init, c, heq, hc⟩ := ih
      exact ⟨'_' :: init, c, congrArg ('_' :: ·) heq, hc⟩
  | case3 cs ih =>
      obtain ⟨init, c, heq, hc⟩ := ih
      exact ⟨' ' :: init, c, congrArg (' ' :: ·) heq, hc⟩
  | case4 d cs hescaped hne ih =>
      by_cases hlast : d = '\\' ∧ cs = []
      · obtain ⟨rfl, rfl⟩ := hlast
        exact ⟨[], '_', rfl, by decide⟩
      · obtain ⟨init, c, heq, hc⟩ := ih
        refine ⟨d :: init, c, ?_, hc⟩
        rw [List.cons_append, decode_cons hne, heq]
        · rfl
        · intro hd hhead
          cases cs with
          | nil => exact hlast ⟨hd, rfl⟩
          | cons e cs => exact hescaped cs hd (by rw [Option.some.inj hhead])

theorem endsEscaping_append_backslash (cs : List Char) :
    endsEscaping (cs ++ ['\\']) = !endsEscaping cs := by
  simp only [endsEscaping, List.reverse_append, List.reverse_singleton, List.singleton_append]
  rw [List.takeWhile_cons_of_pos (by decide), List.length_cons]
  rcases Nat.mod_two_eq_zero_or_one (cs.reverse.takeWhile (· == '\\')).length with h | h
  · rw [Nat.add_mod, h]
    rfl
  · rw [Nat.add_mod, h]
    rfl

theorem endsEscaping_decode {cs : List Char} : endsEscaping (decode cs) = endsEscaping cs := by
  induction cs using List.reverseRecOn with
  | nil => rfl
  | append_singleton cs c ih =>
      by_cases hbackslash : c = '\\'
      · rw [hbackslash, decode_append_singleton (by decide), endsEscaping_append_backslash,
          endsEscaping_append_backslash, ih]
      · rw [endsEscaping_append_singleton hbackslash]
        by_cases hunderscore : c = '_'
        · obtain ⟨init, d, heq, hd⟩ := exists_decode_underscore cs
          rw [hunderscore, heq, endsEscaping_append_singleton hd]
        · rw [decode_append_singleton hunderscore, endsEscaping_append_singleton hbackslash]

end AtomicCss.Value
