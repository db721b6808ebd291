import LayerMount.ProcessTracker
import Mathlib.Data.List.Infix

/-!
# What the access rules decide

The five shapes of a pattern that the source writes down, and the rule that decides an
operation.  `WildcardMatch` looks for the first star only.  A pattern with a star at
both ends therefore never gets to its branch: its first star is not the last character,
and it is read as a suffix that has a star in it.
-/

namespace LayerMount

open Lib

/-! ## Patterns -/

/-- The shapes of the source's comments, on folded texts. -/
inductive Documented : WideString → WideString → Prop where
  | exact {text : WideString} (hplain : kStar ∉ text) : Documented text text
  | start {start text : WideString} (hplain : kStar ∉ start) (h : start <+: text) :
    Documented (start ++ [kStar]) text
  | suffix {suffix text : WideString} (hplain : kStar ∉ suffix) (h : suffix <:+ text) :
    Documented (kStar :: suffix) text
  | middle {middle text : WideString} (hplain : kStar ∉ middle) (h : middle <:+: text) :
    Documented (kStar :: (middle ++ [kStar])) text
  | any {text : WideString} : Documented [kStar] text

/-- A pattern that starts with a star has no other one. -/
def NoSecondStar (pattern : WideString) : Prop :=
  ∀ rest, pattern = kStar :: rest → kStar ∉ rest

/-- A part of a folded text is folded. -/
def CaseFold.FoldsParts (F : CaseFold) : Prop := ∀ s part, part <:+: F.fold s → F.fold part = part

section

variable {text : WideString}

theorem matchFolded_exact {pattern : WideString} (hplain : kStar ∉ pattern) :
    matchFolded pattern text = true ↔ pattern = text := by
  unfold matchFolded
  rw [List.idxOf?_eq_none_iff.mpr hplain]
  exact decide_eq_true_iff

theorem matchFolded_any : matchFolded [kStar] text = true := rfl

/-- Whatever follows a star at the start is read as a suffix. -/
theorem matchFolded_suffix {rest : WideString} (hrest : rest ≠ []) :
    matchFolded (kStar :: rest) text = true ↔ rest <:+ text := by
  have hpos : 0 < rest.length := List.length_pos_of_ne_nil hrest
  have hlast : ¬ (0 = (kStar :: rest).length - 1) := by
    show ¬ (0 = rest.length + 1 - 1)
    omega
  unfold matchFolded
  have hfirst : (kStar :: rest).idxOf? kStar = some 0 := idxOf?_append_cons List.not_mem_nil rest
  rw [hfirst]
  simp only [hlast, and_false, false_and, if_false, if_true, List.drop_one, List.tail_cons]
  rw [List.suffix_iff_eq_drop]
  split
  · next hshort =>
    constructor
    · exact fun h => absurd h (by simp)
    · intro h
      have hlength := congrArg List.length h
      rw [List.length_drop] at hlength
      omega
  · rw [decide_eq_true_iff]
    exact eq_comm

theorem matchFolded_start {start : WideString} (hplain : kStar ∉ start) (hne : start ≠ []) :
    matchFolded (start ++ [kStar]) text = true ↔ start <+: text := by
  have hpos : 0 < start.length := List.length_pos_of_ne_nil hne
  have hfirst : ¬ (start.length = 0) := by omega
  have hlast : start.length = (start ++ [kStar]).length - 1 := by simp
  unfold matchFolded
  rw [idxOf?_append_cons hplain]
  simp only [hfirst, false_and, if_false, if_pos hlast, List.take_left']
  rw [List.prefix_iff_eq_take]
  split
  · next hshort =>
    constructor
    · exact fun h => absurd h (by simp)
    · intro h
      have hlength := congrArg List.length h
      rw [List.length_take] at hlength
      omega
  · rw [decide_eq_true_iff]
    exact eq_comm

/-- A star inside is not supported. -/
theorem matchFolded_inner {start rest : WideString} (hplain : kStar ∉ start) (hne : start ≠ [])
    (hrest : rest ≠ []) : matchFolded (start ++ kStar :: rest) text = false := by
  have hpos : 0 < start.length := List.length_pos_of_ne_nil hne
  have hpos' : 0 < rest.length := List.length_pos_of_ne_nil hrest
  have hfirst : ¬ (start.length = 0) := by omega
  have hlast : ¬ (start.length = (start ++ kStar :: rest).length - 1) := by
    rw [List.length_append, List.length_cons]
    omega
  unfold matchFolded
  rw [idxOf?_append_cons hplain]
  simp only [hfirst, hlast, false_and, if_false]

namespace Documented

theorem eq_of_plain {pattern : WideString} (hplain : kStar ∉ pattern)
    (h : Documented pattern text) : pattern = text := by
  cases h with
  | exact => rfl
  | start | suffix | middle | any => exact absurd (by simp) hplain

/-- After a first star that is not at the start, nothing follows. -/
theorem of_inner {start rest : WideString} (hplain : kStar ∉ start) (hne : start ≠ [])
    (h : Documented (start ++ kStar :: rest) text) : rest = [] ∧ start <+: text := by
  -- A shape that begins with a star has its first star at the start.
  have hleading : ∀ tail, start ++ kStar :: rest ≠ kStar :: tail := fun tail heq =>
    hne (append_cons_inj hplain List.not_mem_nil heq).1
  generalize hpattern : start ++ kStar :: rest = pattern at h hleading
  cases h with
  | exact hnone => exact absurd (hpattern ▸ by simp) hnone
  | start hstart hpre =>
    obtain ⟨rfl, hrest⟩ := append_cons_inj hplain hstart hpattern
    exact ⟨hrest, hpre⟩
  | suffix | middle | any => exact absurd rfl (hleading _)

theorem of_leading {rest : WideString} (hrest : rest ≠ [])
    (h : Documented (kStar :: rest) text) : (kStar ∉ rest ∧ rest <:+ text) ∨
      ∃ middle, kStar ∉ middle ∧ rest = middle ++ [kStar] ∧ middle <:+: text := by
  generalize hpattern : kStar :: rest = pattern at h
  cases h with
  | exact hnone => exact absurd (hpattern ▸ by simp) hnone
  | start hstart =>
    exact absurd (append_cons_inj List.not_mem_nil hstart hpattern).2 hrest
  | suffix hsuffix h =>
    injection hpattern with _ hpattern
    subst hpattern
    exact .inl ⟨hsuffix, h⟩
  | middle hmiddle h =>
    injection hpattern with _ hpattern
    exact .inr ⟨_, hmiddle, hpattern, h⟩
  | any =>
    injection hpattern with _ hpattern
    exact absurd hpattern hrest

end Documented

/-- The branches are the shapes, but for a second star after a leading one. -/
theorem matchFolded_iff {pattern : WideString} (hsecond : NoSecondStar pattern) :
    matchFolded pattern text = true ↔ Documented pattern text := by
  by_cases hstar : kStar ∈ pattern
  · obtain ⟨start, rest, rfl, hplain⟩ := List.eq_append_cons_of_mem hstar
    by_cases hstart : start = []
    · subst hstart
      have hnone : kStar ∉ rest := hsecond rest rfl
      by_cases hrest : rest = []
      · subst hrest
        exact ⟨fun _ => .any, fun _ => matchFolded_any⟩
      · rw [List.nil_append, matchFolded_suffix hrest]
        constructor
        · exact .suffix hnone
        · intro h
          obtain ⟨-, h⟩ | ⟨middle, -, rfl, -⟩ := h.of_leading hrest
          · exact h
          · exact absurd (by simp) hnone
    · by_cases hrest : rest = []
      · subst hrest
        rw [matchFolded_start hplain hstart]
        exact ⟨.start hplain, fun h => (h.of_inner hplain hstart).2⟩
      · rw [matchFolded_inner hplain hstart hrest]
        constructor
        · exact fun h => absurd h (by simp)
        · exact fun h => absurd (h.of_inner hplain hstart).1 hrest
  · rw [matchFolded_exact hstar]
    constructor
    · intro h
      subst h
      exact .exact hstar
    · exact fun h => h.eq_of_plain hstar

/-- A second star after a leading one: on one of two texts the branches go wrong. -/
theorem matchFolded_second_star {rest : WideString} (hstar : kStar ∈ rest) :
    ∃ text, text <:+: kStar :: rest ∧
      ¬ (matchFolded (kStar :: rest) text = true ↔ Documented (kStar :: rest) text) := by
  have hrest : rest ≠ [] := List.ne_nil_of_mem hstar
  by_cases hends : ∃ middle, kStar ∉ middle ∧ rest = middle ++ [kStar]
  · -- The text between the stars contains itself, but has no star at its end.
    obtain ⟨middle, hplain, rfl⟩ := hends
    refine ⟨middle, ⟨[kStar], [kStar], by simp⟩, ?_⟩
    rw [matchFolded_suffix hrest]
    intro h
    have hlonger := (h.mpr (.middle hplain (List.infix_refl middle))).length_le
    rw [List.length_append, List.length_singleton] at hlonger
    omega
  · -- The pattern has no shape, and still its own end matches it.
    refine ⟨rest, (List.suffix_cons kStar rest).isInfix, ?_⟩
    rw [matchFolded_suffix hrest]
    intro h
    obtain ⟨hplain, -⟩ | ⟨middle, hplain, heq, -⟩ :=
      (h.mp (List.suffix_refl rest)).of_leading hrest
    · exact hplain hstar
    · exact hends ⟨middle, hplain, heq⟩

end

theorem wildcardMatch_eq (F : CaseFold) (pattern text : WideString) :
    wildcardMatch F pattern text = matchFolded (F.fold pattern) (F.fold text) := by
  unfold wildcardMatch
  split
  · next hstar =>
    rw [hstar, F.fold_star]
    rfl
  · split
    · next hnil =>
      rw [List.isEmpty_iff.mp hnil, F.fold_nil]
      have hfold : F.fold text = [] ↔ text = [] := by
        rw [← List.length_eq_zero_iff, F.length_fold, List.length_eq_zero_iff]
      rw [Bool.eq_iff_iff, matchFolded_exact (by simp), List.isEmpty_iff, ← hfold]
      exact eq_comm
    · rfl

/-! ## Rules -/

/-- The rule denies operations of this class. -/
def AccessRule.Forbids (rule : AccessRule) (op : OperationType) : Prop :=
  op.isReadOp ∧ rule.allowRead = false ∨ op.isWriteOp ∧ rule.allowWrite = false ∨
    op.isDeleteOp ∧ rule.allowDelete = false ∨ op.isExecuteOp ∧ rule.allowExecute = false

/-- The first rule of the list of which `matched` holds. -/
def FirstMatch (matched : AccessRule → Prop) (rules : List AccessRule) (rule : AccessRule) :
    Prop :=
  ∃ before after, rules = before ++ rule :: after ∧ (∀ r ∈ before, ¬ matched r) ∧ matched rule

/-- Both patterns of the rule match. -/
def AccessRule.Matched (F : CaseFold) (processName path : WideString) (rule : AccessRule) : Prop :=
  wildcardMatch F rule.processNamePattern processName = true ∧
    wildcardMatch F rule.pathPattern path = true

/-- Both patterns of the rule match as documented. -/
def AccessRule.DocumentedMatch (F : CaseFold) (processName path : WideString)
    (rule : AccessRule) : Prop :=
  Documented (F.fold rule.processNamePattern) (F.fold processName) ∧
    Documented (F.fold rule.pathPattern) (F.fold path)

theorem AccessRule.decision_denies (rule : AccessRule) (op : OperationType) :
    (rule.decision op).allowed = false ↔ rule.Forbids op := by
  have hdenied : rule.denied.allowed = false := rfl
  unfold AccessRule.decision AccessRule.Forbids
  simp only [apply_ite AccessDecision.allowed, hdenied]
  grind

theorem firstMatch_cons {matched : AccessRule → Prop} {first rule : AccessRule}
    {rest : List AccessRule} : FirstMatch matched (first :: rest) rule ↔
      matched first ∧ rule = first ∨ ¬ matched first ∧ FirstMatch matched rest rule := by
  constructor
  · rintro ⟨before, after, hrules, hbefore, hmatched⟩
    cases before with
    | nil =>
      injection hrules with hfirst _
      subst hfirst
      exact .inl ⟨hmatched, rfl⟩
    | cons r before =>
      injection hrules with hfirst hrest
      subst hfirst
      exact .inr ⟨hbefore _ List.mem_cons_self,
        before, after, hrest, fun r hr => hbefore r (List.mem_cons_of_mem _ hr), hmatched⟩
  · rintro (⟨hmatched, rfl⟩ | ⟨hfirst, before, after, rfl, hbefore, hmatched⟩)
    · exact ⟨[], rest, rfl, by simp, hmatched⟩
    · exact ⟨first :: before, after, rfl, List.forall_mem_cons.mpr ⟨hfirst, hbefore⟩, hmatched⟩

/-- The loop stops at the first match. -/
theorem evaluateRules_denies (F : CaseFold) (processName path : WideString) (op : OperationType)
    (rules : List AccessRule) : (evaluateRules F processName path op rules).allowed = false ↔
      ∃ rule, FirstMatch (AccessRule.Matched F processName path) rules rule ∧ rule.Forbids op := by
  induction rules with
  | nil =>
    constructor
    · exact fun h => absurd h (by simp [evaluateRules])
    · rintro ⟨rule, ⟨before, after, hrules, -⟩, -⟩
      exact absurd hrules (by simp)
  | cons first rest ih =>
    simp only [firstMatch_cons]
    unfold evaluateRules
    by_cases hfirst : first.Matched F processName path
    · have hname := hfirst.1
      have hpath := hfirst.2
      simp only [hname, hpath, hfirst, Bool.not_true, Bool.false_eq_true, if_false, true_and,
        not_true_eq_false, false_and, or_false, exists_eq_left]
      exact first.decision_denies op
    · have hskip : (if !wildcardMatch F first.processNamePattern processName then
            evaluateRules F processName path op rest
          else if !wildcardMatch F first.pathPattern path then
            evaluateRules F processName path op rest
          else first.decision op) = evaluateRules F processName path op rest := by
        unfold AccessRule.Matched at hfirst
        split
        · rfl
        · split
          · rfl
          · next hname hpath => exact absurd ⟨by simpa using hname, by simpa using hpath⟩ hfirst
      simp only [hskip, ih, hfirst, false_and, false_or, not_false_eq_true, true_and]

theorem AccessRule.matched_iff {F : CaseFold} {rule : AccessRule}
    (hname : NoSecondStar (F.fold rule.processNamePattern))
    (hpath : NoSecondStar (F.fold rule.pathPattern)) (processName path : WideString) :
    rule.Matched F processName path ↔ rule.DocumentedMatch F processName path := by
  unfold AccessRule.Matched AccessRule.DocumentedMatch
  rw [wildcardMatch_eq, wildcardMatch_eq, matchFolded_iff hname, matchFolded_iff hpath]

theorem firstMatch_congr {p q : AccessRule → Prop} {rules : List AccessRule}
    (h : ∀ rule ∈ rules, p rule ↔ q rule) (rule : AccessRule) :
    FirstMatch p rules rule ↔ FirstMatch q rules rule := by
  induction rules with
  | nil => simp [FirstMatch]
  | cons first rest ih =>
    rw [List.forall_mem_cons] at h
    rw [firstMatch_cons, firstMatch_cons, h.1, ih h.2]

theorem FirstMatch.mem {matched : AccessRule → Prop} {rules : List AccessRule} {rule : AccessRule}
    (h : FirstMatch matched rules rule) : rule ∈ rules ∧ matched rule := by
  obtain ⟨before, after, rfl, -, hmatched⟩ := h
  exact ⟨by simp, hmatched⟩

/-- A pattern means what is documented for all texts exactly when it has no second star
after a leading one.  The first rule that matches decides a call, and under such patterns it
is the first that matches as documented. -/
theorem accessRules_documented_iff (F : CaseFold) :
    (∀ pattern, NoSecondStar (F.fold pattern) → ∀ text,
        wildcardMatch F pattern text = true ↔ Documented (F.fold pattern) (F.fold text)) ∧
      (F.FoldsParts → ∀ pattern, (∀ text, wildcardMatch F pattern text = true ↔
        Documented (F.fold pattern) (F.fold text)) → NoSecondStar (F.fold pattern)) ∧
      ∀ resolveProcess tracker pid path op now,
        ((checkAccess F resolveProcess tracker pid path op now).allowed = false ↔
          ∃ rule, FirstMatch (AccessRule.Matched F (resolveProcess pid) path) tracker.rules rule ∧
            rule.Forbids op) ∧
        ((∀ rule ∈ tracker.rules, ¬ rule.Matched F (resolveProcess pid) path) →
          (checkAccess F resolveProcess tracker pid path op now).allowed = true) ∧
        ((∀ rule ∈ tracker.rules, NoSecondStar (F.fold rule.processNamePattern) ∧
            NoSecondStar (F.fold rule.pathPattern)) →
          ((checkAccess F resolveProcess tracker pid path op now).allowed = false ↔
            ∃ rule, FirstMatch (AccessRule.DocumentedMatch F (resolveProcess pid) path)
              tracker.rules rule ∧ rule.Forbids op)) := by
  refine ⟨?_, ?_, ?_⟩
  · intro pattern hsecond text
    rw [wildcardMatch_eq]
    exact matchFolded_iff hsecond
  · intro hparts pattern h rest hpattern hstar
    obtain ⟨text, hpart, hwrong⟩ := matchFolded_second_star hstar
    have hfold : F.fold text = text := hparts pattern text (hpattern ▸ hpart)
    have htext := h text
    rw [wildcardMatch_eq, hfold, hpattern] at htext
    exact hwrong htext
  · intro resolveProcess tracker pid path op now
    have hdenies := evaluateRules_denies F (resolveProcess pid) path op tracker.rules
    refine ⟨hdenies, ?_, ?_⟩
    · intro hnone
      rw [← Bool.not_eq_false]
      intro hdenied
      obtain ⟨rule, hfirst, -⟩ := hdenies.mp hdenied
      exact hnone rule hfirst.mem.1 hfirst.mem.2
    · intro hrules
      rw [← exists_congr fun rule => and_congr_left' (firstMatch_congr (fun r hr =>
        AccessRule.matched_iff (hrules r hr).1 (hrules r hr).2 (resolveProcess pid) path) rule)]
      exact hdenies

/-! ## A pattern with a star at both ends -/

theorem asciiLower_foldsParts : asciiLower.FoldsParts := by
  intro s part hpart
  have hunits : ∀ u ∈ part, asciiLowerUnit u = u := by
    intro u hu
    obtain ⟨v, -, rfl⟩ := List.mem_map.mp (hpart.subset hu)
    exact asciiLowerUnit_lower v
  exact (List.map_congr_left hunits).trans (List.map_id' part)

def containsSecret : WideString := encodeUtf16 "*secret*".toList

/-- The text that a pattern asks for is there, and the pattern does not match it. -/
theorem containsSecret_missed :
    Documented (asciiLower.fold containsSecret) (asciiLower.fold (encodeUtf16 "my secrets".toList)) ∧
      wildcardMatch asciiLower containsSecret (encodeUtf16 "my secrets".toList) = false := by
  constructor
  · exact @Documented.middle (encodeUtf16 "secret".toList) _ (by decide) (by decide)
  · decide

theorem accessRules_documented_iff_secret :
    ¬ ∀ text, wildcardMatch asciiLower containsSecret text = true ↔
      Documented (asciiLower.fold containsSecret) (asciiLower.fold text) := fun h =>
  (accessRules_documented_iff asciiLower).2.1 asciiLower_foldsParts containsSecret h _ rfl
    (by decide)

end LayerMount
