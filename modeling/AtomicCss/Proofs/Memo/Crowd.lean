/-
Look-ups in a shared memo, in any order of their steps.

`Lookup.Stepped` says all that one step does, whatever the stage is: what it computes is
exactly what the memo comes to know, and nobody else loses anything by it.  Between filling a
slot and counting it the numbers do not fit the slots; what is missing then is what the
look-up still owes.

`Crowd.Steady` adds this up over a schedule.  As only one slot is filled for a literal, it is
computed at most once, and each look-up of it gives the same, whoever was first.  At the end
nothing is owed any more and all is counted, so what the memo has come to is the same for every
schedule.
-/
import AtomicCss.Proofs.Memo.Shared

namespace AtomicCss

/-! ### One step -/

namespace Lookup

/-- A look-up has what its stage says. -/
def Stands (l : Lookup) (m : SharedMemo) : Prop :=
  match l.stage with
  | .waiting => True
  | .holding slot => m.literals[slot]? = some l.literal
  | .settled result _ | .finished result => m.peek? l.literal = some result

/-- Whether a look-up has computed, and has not counted it yet. -/
def owes (l : Lookup) : Bool :=
  match l.stage with
  | .settled _ computed => computed
  | _ => false

/-- How many steps a look-up has before it. -/
def turnsLeft (l : Lookup) : Nat :=
  match l.stage with
  | .waiting => 3
  | .holding _ => 2
  | .settled _ _ => 1
  | .finished _ => 0

/-- Whether a look-up has made all its steps. -/
def isFinished (l : Lookup) : Bool :=
  l.turnsLeft = 0

variable {compute : String → Option ClassRule} {l l' : Lookup} {m m' : SharedMemo}
  {computed : List String}

/-- Steps of others take nothing away. -/
theorem Stands.grows (h : l.Stands m) (hgrows : m.Grows compute m') : l.Stands m' := by
  unfold Stands at h ⊢
  cases hstage : l.stage with
  | waiting => trivial
  | holding slot =>
      rw [hstage] at h
      exact hgrows.slot slot l.literal h
  | settled result _ =>
      rw [hstage] at h
      exact hgrows.learns.kept l.literal result h
  | finished result =>
      rw [hstage] at h
      exact hgrows.learns.kept l.literal result h

/-- What is known of a literal is what a look-up of it gives. -/
theorem Stands.peek?_eq (h : l.Stands m) {result : Option ClassRule}
    (hresult : l.result? = some result) : m.peek? l.literal = some result := by
  unfold Stands at h
  unfold result? at hresult
  cases hstage : l.stage with
  | waiting => rw [hstage] at hresult; cases hresult
  | holding slot => rw [hstage] at hresult; cases hresult
  | settled found _ =>
      rw [hstage] at h hresult
      exact hresult ▸ h
  | finished found =>
      rw [hstage] at h hresult
      exact hresult ▸ h

/-- A look-up that is finished has a result and owes nothing. -/
theorem exists_result (h : l.turnsLeft = 0) :
    (∃ result, l.result? = some result) ∧ l.owes = false := by
  unfold turnsLeft at h
  cases hstage : l.stage with
  | waiting => rw [hstage] at h; cases h
  | holding slot => rw [hstage] at h; cases h
  | settled result computed => rw [hstage] at h; cases h
  | finished result => simp [result?, owes, hstage]

/-- What a step does to its look-up and to the memo, and what it computes. -/
structure Stepped (compute : String → Option ClassRule) (l : Lookup) (m : SharedMemo)
    (l' : Lookup) (m' : SharedMemo) (computed : List String) : Prop where
  literal_eq : l'.literal = l.literal
  turnsLeft_eq : l'.turnsLeft = l.turnsLeft - 1
  stands : l'.Stands m'
  grows : m.Grows compute m'
  /-- What is computed is what the memo comes to know. -/
  gains : Gains m.peek? m'.peek? computed
  asked : ∀ t ∈ computed, t = l.literal
  entries_eq : m'.stats.entries = m.stats.entries + computed.length
  misses_eq : m'.stats.misses + (if l'.owes then 1 else 0) =
    m.stats.misses + (if l.owes then 1 else 0) + computed.length
  total_eq : m'.stats.hits + m'.stats.misses + (if l.isFinished then 1 else 0) =
    m.stats.hits + m.stats.misses + if l'.isFinished then 1 else 0

theorem Stepped.of_peek?_eq (hliteral : l'.literal = l.literal)
    (hturns : l'.turnsLeft = l.turnsLeft - 1) (hstands : l'.Stands m')
    (hslot : ∀ (slot : Nat) (t : String), m.literals[slot]? = some t → m'.literals[slot]? = some t)
    (hpeek : m'.peek? = m.peek?) (hentries : m'.stats.entries = m.stats.entries)
    (hmisses : m'.stats.misses + (if l'.owes then 1 else 0) =
      m.stats.misses + if l.owes then 1 else 0)
    (htotal : m'.stats.hits + m'.stats.misses + (if l.isFinished then 1 else 0) =
      m.stats.hits + m.stats.misses + if l'.isFinished then 1 else 0) :
    Stepped compute l m l' m' [] where
  literal_eq := hliteral
  turnsLeft_eq := hturns
  stands := hstands
  grows := ⟨hslot, hpeek ▸ .refl⟩
  gains := hpeek ▸ .refl
  asked t ht := by cases ht
  entries_eq := hentries
  misses_eq := hmisses
  total_eq := htotal

/-- A step that computes and fills a slot. -/
theorem Stepped.of_fill {slot : Nat} {literal : String}
    (hslot : m.literals[slot]? = some literal) (hempty : m.peek? literal = none) :
    Stepped compute ⟨literal, .holding slot⟩ m ⟨literal, .settled (compute literal) true⟩
      (m.fill slot (compute literal)) [literal] := by
  have hfill := SharedMemo.peek?_fill hslot (compute literal)
  have hstats := SharedMemo.stats_fill hslot hempty (compute literal)
  have hanswer : answerOf compute m.peek? literal = compute literal := by
    rw [answerOf, hempty]
    rfl
  refine ⟨rfl, rfl, ?_, ⟨fun _ _ h => h, .of_insert literal fun t => ?_⟩,
    ⟨List.pairwise_singleton _ _, fun t => ?_⟩, fun t => List.mem_singleton.mp, ?_, ?_, ?_⟩
  · show (m.fill slot (compute literal)).peek? literal = some (compute literal)
    rw [hfill, if_pos rfl]
  · rw [hfill, hanswer]
    by_cases ht : t = literal
    · exact .inr ⟨ht, if_pos ht⟩
    · exact .inl (if_neg ht)
  · rw [hfill, List.mem_singleton]
    by_cases ht : t = literal
    · simp [ht, hempty]
    · rw [if_neg ht]
      cases m.peek? t <;> simp [ht]
  all_goals
    rw [hstats]
    rfl

/-- **What a step does.** -/
theorem step_spec (compute : String → Option ClassRule) (h : l.Stands m) :
    Stepped compute l m (l.step compute m).1 (l.step compute m).2.1 (l.step compute m).2.2 := by
  obtain ⟨literal, stage⟩ := l
  cases stage with
  | waiting =>
      have hstats := m.stats_reserve literal
      refine .of_peek?_eq rfl rfl (m.getElem?_reserve_fst literal)
        (fun slot t ht => m.getElem?_reserve ht) (m.peek?_reserve literal)
        (congrArg MemoStats.entries hstats) (congrArg MemoStats.misses hstats) ?_
      show (m.reserve literal).2.stats.hits + (m.reserve literal).2.stats.misses + 0 = _
      rw [hstats]
      rfl
  | holding slot =>
      have hslot : m.literals[slot]? = some literal := h
      cases hpeek : m.peek? literal with
      | some result =>
          have hstep : step compute ⟨literal, .holding slot⟩ m =
              (⟨literal, .settled result false⟩, m, []) := by
            simp only [step, SharedMemo.settle_eq hslot, hpeek]
            rfl
          rw [hstep]
          exact .of_peek?_eq rfl rfl hpeek (fun _ _ h => h) rfl rfl rfl rfl
      | none =>
          have hstep : step compute ⟨literal, .holding slot⟩ m =
              (⟨literal, .settled (compute literal) true⟩, m.fill slot (compute literal),
                [literal]) := by
            simp only [step, SharedMemo.settle_eq hslot, hpeek]
            rfl
          rw [hstep]
          exact .of_fill hslot hpeek
  | settled result computed =>
      cases computed with
      | true => exact .of_peek?_eq rfl rfl h (fun _ _ h => h) rfl rfl rfl rfl
      | false =>
          refine .of_peek?_eq rfl rfl h (fun _ _ h => h) rfl rfl rfl ?_
          show m.hits + 1 + m.misses + 0 = m.hits + m.misses + 1
          omega
  | finished result => exact .of_peek?_eq rfl rfl h (fun _ _ h => h) rfl rfl rfl rfl

end Lookup

/-! ### All steps -/

namespace Crowd

/-- What holds of a crowd whose look-ups began with a memo, after any steps. -/
structure Steady (compute : String → Option ClassRule) (first : SharedMemo)
    (literals : List String) (c : Crowd) : Prop where
  literals_eq : c.lookups.map Lookup.literal = literals
  stands : ∀ l ∈ c.lookups, l.Stands c.memo
  grows : first.Grows compute c.memo
  /-- What was computed is what the memo has come to know, and nothing twice. -/
  gains : Gains first.peek? c.memo.peek? c.computed
  asked : ∀ t ∈ c.computed, t ∈ literals
  entries_eq : c.memo.stats.entries = first.stats.entries + c.computed.length
  misses_eq : c.memo.stats.misses + c.lookups.countP Lookup.owes =
    first.stats.misses + c.computed.length
  total_eq : c.memo.stats.hits + c.memo.stats.misses =
    first.stats.hits + first.stats.misses + c.lookups.countP Lookup.isFinished

variable {compute : String → Option ClassRule} {first : SharedMemo} {literals : List String}
  {c : Crowd}

theorem steady_start (compute : String → Option ClassRule) (first : SharedMemo)
    (literals : List String) : (start first literals).Steady compute first literals := by
  have hzero : ∀ p : Lookup → Bool, (∀ literal, p { literal } = false) →
      (start first literals).lookups.countP p = 0 := by
    intro p hp
    refine List.countP_eq_zero.mpr fun l hl => ?_
    obtain ⟨literal, -, rfl⟩ := List.mem_map.mp hl
    exact Bool.eq_false_iff.mp (hp literal)
  refine ⟨?_, ?_, .refl, .refl, fun t => (absurd · List.not_mem_nil), rfl, ?_, ?_⟩
  · rw [start, List.map_map]
    exact List.map_id literals
  · intro l hl
    obtain ⟨literal, -, rfl⟩ := List.mem_map.mp hl
    trivial
  · rw [hzero Lookup.owes fun _ => rfl]
    rfl
  · rw [hzero Lookup.isFinished fun _ => rfl]
    rfl

/-- A step of one look-up, those before and after it aside. -/
theorem Steady.of_stepped (h : c.Steady compute first literals) {before after : List Lookup}
    {l l' : Lookup} {memo : SharedMemo} {computed : List String}
    (hlookups : c.lookups = before ++ l :: after)
    (hstep : l.Stepped compute c.memo l' memo computed) :
    Steady compute first literals
      { memo, lookups := before ++ l' :: after, computed := computed ++ c.computed } := by
  obtain ⟨hliterals, hstands, hgrows, hgains, hasked, hentries, hmisses, htotal⟩ := h
  simp only [hlookups, List.map_append, List.map_cons, List.countP_append, List.countP_cons]
    at hliterals hmisses htotal
  refine ⟨?_, fun k hk => ?_, hgrows.trans hstep.grows,
    hgains.trans hstep.gains hgrows.learns hstep.grows.learns, fun t ht => ?_, ?_, ?_, ?_⟩
  · rw [List.map_append, List.map_cons, hstep.literal_eq]
    exact hliterals
  · rw [hlookups] at hstands
    rcases List.mem_append.mp hk with hk | hk
    · exact (hstands k (List.mem_append_left _ hk)).grows hstep.grows
    · rcases List.mem_cons.mp hk with rfl | hk
      · exact hstep.stands
      · have hkeep := hstands k (List.mem_append_right _ (List.mem_cons_of_mem _ hk))
        exact hkeep.grows hstep.grows
  · rcases List.mem_append.mp ht with ht | ht
    · rw [hstep.asked t ht, ← hliterals]
      exact List.mem_append_right _ List.mem_cons_self
    · exact hasked t ht
  · have hnew := hstep.entries_eq
    simp only [List.length_append]
    omega
  · have hnew := hstep.misses_eq
    simp only [List.length_append, List.countP_append, List.countP_cons]
    omega
  · have hnew := hstep.total_eq
    simp only [List.countP_append, List.countP_cons]
    omega

/-- What a turn does. -/
theorem turn_eq (c : Crowd) {i : Nat} {l : Lookup} (h : c.lookups[i]? = some l) :
    c.turn compute i = {
      memo := (l.step compute c.memo).2.1
      lookups := c.lookups.set i (l.step compute c.memo).1
      computed := (l.step compute c.memo).2.2 ++ c.computed } := by
  rw [turn, h]

theorem turn_eq_self (c : Crowd) {i : Nat} (h : c.lookups[i]? = none) : c.turn compute i = c := by
  rw [turn, h]

/-- **Every turn keeps it.** -/
theorem Steady.turn (h : c.Steady compute first literals) (i : Nat) :
    (c.turn compute i).Steady compute first literals := by
  cases hl : c.lookups[i]? with
  | none => rwa [c.turn_eq_self hl]
  | some l =>
      have hstep := Lookup.step_spec compute (h.stands l (List.mem_of_getElem? hl))
      obtain ⟨hi, rfl⟩ := List.getElem?_eq_some_iff.mp hl
      obtain ⟨before, after, hlookups, -, hset⟩ := List.exists_of_set hi
      rw [c.turn_eq hl, hset]
      exact h.of_stepped hlookups hstep

/-- **Every schedule keeps it.** -/
theorem Steady.run (h : c.Steady compute first literals) (schedule : List Nat) :
    (c.run compute schedule).Steady compute first literals := by
  induction schedule generalizing c with
  | nil => exact h
  | cons i schedule ih => exact ih (h.turn i)

/-! ### When all look-ups are finished -/

/-- A turn brings its look-up a step further, and no other. -/
theorem Steady.turnsLeft_turn (h : c.Steady compute first literals) (i j : Nat) :
    ((c.turn compute i).lookups[j]?).map Lookup.turnsLeft =
      (c.lookups[j]?).map fun l => l.turnsLeft - if i == j then 1 else 0 := by
  cases hl : c.lookups[i]? with
  | none =>
      rw [c.turn_eq_self hl]
      by_cases hij : i = j
      · rw [← hij, hl]
        rfl
      · simp [hij]
  | some l =>
      have hstep := Lookup.step_spec compute (h.stands l (List.mem_of_getElem? hl))
      obtain ⟨hi, -⟩ := List.getElem?_eq_some_iff.mp hl
      rw [c.turn_eq hl]
      by_cases hij : i = j
      · subst hij
        rw [List.getElem?_set_self hi, hl]
        simp [hstep.turnsLeft_eq]
      · rw [List.getElem?_set_ne hij]
        simp [hij]

theorem Steady.turnsLeft_run (h : c.Steady compute first literals) (schedule : List Nat) (j : Nat) :
    ((c.run compute schedule).lookups[j]?).map Lookup.turnsLeft =
      (c.lookups[j]?).map fun l => l.turnsLeft - schedule.count j := by
  induction schedule generalizing c with
  | nil => rfl
  | cons i schedule ih =>
      have hturn := h.turnsLeft_turn i j
      show (((c.turn compute i).run compute schedule).lookups[j]?).map Lookup.turnsLeft = _
      rw [ih (h.turn i), List.count_cons]
      cases hl : c.lookups[j]? with
      | none =>
          rw [hl] at hturn
          rw [Option.map_eq_none_iff.mp hturn]
          rfl
      | some l =>
          rw [hl] at hturn
          obtain ⟨l', hl', hleft⟩ := Option.map_eq_some_iff.mp hturn
          rw [hl', Option.map_some, Option.map_some, hleft, Nat.sub_sub, Nat.add_comm]

/-- **Three turns finish a look-up**, whatever the others do. -/
theorem turnsLeft_run_start {schedule : List Nat}
    (h : ∀ i < literals.length, 3 ≤ schedule.count i) :
    ∀ l ∈ ((start first literals).run compute schedule).lookups, l.turnsLeft = 0 := by
  intro l hl
  obtain ⟨i, hi, hget⟩ := List.getElem_of_mem hl
  have hsteady := steady_start compute first literals
  have hlength : i < literals.length := by
    have hliterals := congrArg List.length (hsteady.run schedule).literals_eq
    rw [List.length_map] at hliterals
    exact hliterals ▸ hi
  have hrun := hsteady.turnsLeft_run schedule i
  rw [List.getElem?_eq_getElem hi, hget, start, List.getElem?_map,
    List.getElem?_eq_getElem hlength] at hrun
  have hleft : l.turnsLeft = 3 - schedule.count i := Option.some.inj hrun
  have hturns := h i hlength
  omega

namespace Steady

/-- What a look-up gives does not depend on the others. -/
theorem eq_answerOf (h : c.Steady compute first literals) {l : Lookup} (hl : l ∈ c.lookups)
    {result : Option ClassRule} (hresult : l.result? = some result) :
    result = answerOf compute first.peek? l.literal := by
  rw [← h.grows.learns.answerOf_eq, answerOf, (h.stands l hl).peek?_eq hresult]
  rfl

variable (hfinished : ∀ l ∈ c.lookups, l.turnsLeft = 0)
include hfinished

theorem map_result?_eq (h : c.Steady compute first literals) :
    c.lookups.map Lookup.result? =
      literals.map fun literal => some (answerOf compute first.peek? literal) := by
  rw [← h.literals_eq, List.map_map]
  refine List.map_congr_left fun l hl => ?_
  obtain ⟨⟨result, hresult⟩, -⟩ := Lookup.exists_result (hfinished l hl)
  rw [hresult, h.eq_answerOf hl hresult]
  rfl

theorem results_eq (h : c.Steady compute first literals) :
    c.results = literals.filterMap (answerOf compute first.peek?) := by
  have hresults : c.results = (c.lookups.map Lookup.result?).filterMap Option.join := by
    rw [List.filterMap_map]
    rfl
  rw [hresults, h.map_result?_eq hfinished, List.filterMap_map]
  rfl

/-- **At the end the memo has come to what look-ups of the literals come to.** -/
theorem lookedUp (h : c.Steady compute first literals) :
    LookedUp compute literals first.view c.memo.view := by
  have hknown : ∀ t ∈ literals, c.memo.peek? t = some (answerOf compute first.peek? t) := by
    intro t ht
    rw [← h.literals_eq] at ht
    obtain ⟨l, hl, rfl⟩ := List.mem_map.mp ht
    obtain ⟨⟨result, hresult⟩, -⟩ := Lookup.exists_result (hfinished l hl)
    rw [(h.stands l hl).peek?_eq hresult, h.eq_answerOf hl hresult]
  have hnew : c.computed.length = (unknown first.peek? literals).length := by
    refine length_eq_unknown h.gains.nodup fun t => ⟨fun ht => ?_, fun ⟨ht, hnone⟩ => ?_⟩
    · exact ⟨h.asked t ht, ((h.gains.mem_iff t).mp ht).1⟩
    · exact (h.gains.mem_iff t).mpr ⟨hnone, by rw [hknown t ht]; rfl⟩
  have howed : c.lookups.countP Lookup.owes = 0 :=
    List.countP_eq_zero.mpr fun l hl =>
      Bool.eq_false_iff.mp (Lookup.exists_result (hfinished l hl)).2
  have hcounted : c.lookups.countP Lookup.isFinished = literals.length := by
    rw [← h.literals_eq, List.length_map]
    exact List.countP_eq_length.mpr fun l hl => decide_eq_true (hfinished l hl)
  refine ⟨fun t => ?_, ?_, ?_, ?_⟩
  · show c.memo.peek? t = _
    by_cases ht : t ∈ literals
    · rw [if_pos ht, hknown t ht]
      rfl
    · rw [if_neg ht]
      cases hfirst : first.peek? t with
      | some result =>
          rw [h.grows.learns.kept t result hfirst]
          exact hfirst.symm
      | none =>
          cases hpeek : c.memo.peek? t with
          | none => exact hfirst.symm
          | some result =>
              have hcomputed := (h.gains.mem_iff t).mpr ⟨hfirst, by rw [hpeek]; rfl⟩
              exact absurd (h.asked t hcomputed) ht
  · have htotal := h.total_eq
    rwa [hcounted] at htotal
  · have hmisses := h.misses_eq
    rwa [howed, hnew, Nat.add_zero] at hmisses
  · have hentries := h.entries_eq
    rwa [hnew] at hentries

end Steady

end Crowd

end AtomicCss
