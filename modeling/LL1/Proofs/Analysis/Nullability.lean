/-
# Nullability answers are exact

An evaluation that runs while other rules are under evaluation cannot see derivations through those
rules. What it does see are the words that fade: those that vanish without the rules under
evaluation. A positive answer is always right, a negative one says that the word does not fade, and a
negative one without a cut says that it does not vanish. When no rule is under evaluation, fading and
vanishing are the same, so the answer of a query is exact.
-/
import LL1.Analysis.Nullable
import LL1.Proofs.Grammar.WellFormed

namespace LL1

/-! ## Fading -/

/-- Whether a word vanishes without the use of the avoided rules. -/
inductive Grammar.Fades (g : Grammar) (avoided : Rule → Prop) : Word → Prop where
  /-- Nothing is left to vanish. -/
  | nil : Fades g avoided []
  /-- Epsilon vanishes by itself. -/
  | epsilon {w : Word} (rest : Fades g avoided w) : Fades g avoided (LL1.epsilon :: w)
  /-- The head of a rule vanishes if the right-hand side does. -/
  | rule {r : Rule} {w : Word} (h : r ∈ g.rules) (allowed : ¬ avoided r)
    (body : Fades g avoided r.body) (rest : Fades g avoided w) : Fades g avoided (r.head :: w)

namespace Grammar

variable {g : Grammar} {avoided : Rule → Prop} {r : Rule} {v w : Word}

theorem fades_append : g.Fades avoided (v ++ w) ↔ g.Fades avoided v ∧ g.Fades avoided w := by
  induction v with
  | nil => exact ⟨fun h => ⟨.nil, h⟩, And.right⟩
  | cons s v ih =>
    constructor
    · intro h
      cases h with
      | epsilon rest => exact ⟨.epsilon (ih.1 rest).1, (ih.1 rest).2⟩
      | rule hr allowed body rest => exact ⟨.rule hr allowed body (ih.1 rest).1, (ih.1 rest).2⟩
    · rintro ⟨h, hw⟩
      cases h with
      | epsilon rest => exact .epsilon (ih.2 ⟨rest, hw⟩)
      | rule hr allowed body rest => exact .rule hr allowed body (ih.2 ⟨rest, hw⟩)

theorem fades_cons {s : Symbol} :
    g.Fades avoided (s :: w) ↔ g.Fades avoided [s] ∧ g.Fades avoided w :=
  fades_append (v := [s])

theorem fades_withoutEpsilon : g.Fades avoided (withoutEpsilon w) ↔ g.Fades avoided w := by
  induction w with
  | nil => exact Iff.rfl
  | cons s w ih =>
    by_cases hs : s = epsilon
    · subst hs
      rw [withoutEpsilon_cons_epsilon, ih, fades_cons (w := w)]
      exact ⟨fun h => ⟨.epsilon .nil, h⟩, And.right⟩
    · rw [withoutEpsilon_cons_of_ne hs, fades_cons, ih, ← fades_cons]

/-- What fades vanishes. -/
theorem Fades.vanishes (h : g.Fades avoided w) : g.Vanishes w := by
  induction h with
  | nil => exact vanishes_nil
  | epsilon _ ih => exact vanishes_cons.2 ⟨vanishes_epsilon, ih⟩
  | rule hr _ _ _ ihBody ihRest => exact vanishes_cons.2 ⟨vanishes_of_mem_rules hr ihBody, ihRest⟩

/-- If no rule is avoided, what vanishes fades. -/
theorem Vanishes.fades (h : g.Vanishes w) (hall : ∀ r, ¬ avoided r) : g.Fades avoided w := by
  -- the replacements are undone one by one, from the empty word on
  refine fades_withoutEpsilon.1 (Derives.backward (P := g.Fades avoided) ?_ h .nil)
  intro v v' hstep hv'
  obtain ⟨before, after, r, hr, rfl, rfl⟩ := hstep.exists_rule
  rw [fades_append, fades_append, fades_withoutEpsilon] at hv'
  obtain ⟨⟨hbefore, hbody⟩, hafter⟩ := hv'
  exact fades_append.2 ⟨hbefore, .rule hr (hall r) hbody hafter⟩

/-- If a word fades, it does so without one more rule, or the right-hand side of that rule does: a
derivation that uses the rule has an innermost use of it. -/
theorem Fades.avoid (h : g.Fades avoided w) (r : Rule) :
    g.Fades (fun q => avoided q ∨ q = r) w ∨ g.Fades (fun q => avoided q ∨ q = r) r.body := by
  induction h with
  | nil => exact Or.inl .nil
  | epsilon _ ih => exact ih.imp_left .epsilon
  | @rule q w hq allowed _ _ ihBody ihRest =>
    by_cases hqr : q = r
    · subst hqr
      -- either way the right-hand side of this rule fades without it
      exact Or.inr (ihBody.elim id id)
    · rcases ihBody with hbody | hr
      · rcases ihRest with hrest | hr
        · exact Or.inl (.rule hq (fun h => h.elim allowed hqr) hbody hrest)
        · exact Or.inr hr
      · exact Or.inr hr

/-- A rule can be avoided while its own right-hand side is looked at. -/
theorem Fades.avoid_self (h : g.Fades avoided r.body) :
    g.Fades (fun q => avoided q ∨ q = r) r.body :=
  (h.avoid r).elim id id

theorem fades_singleton_iff {s : Symbol} (hs : s ≠ epsilon) :
    g.Fades avoided [s] ↔ ∃ r ∈ g.rules, r.head = s ∧ ¬ avoided r ∧ g.Fades avoided r.body := by
  constructor
  · intro h
    cases h with
    | epsilon _ => exact absurd rfl hs
    | rule hr allowed body _ => exact ⟨_, hr, rfl, allowed, body⟩
  · rintro ⟨r, hr, rfl, allowed, body⟩
    exact .rule hr allowed body .nil

end Grammar

/-! ## Memos that tell the truth -/

namespace Memo

/-- Whether a rule is under evaluation. -/
def InProgress (m : Memo) (r : Rule) : Prop :=
  m.mark r = .inProgress

/-- Whether all marks and answers are right for the grammar. -/
structure Sound (g : Grammar) (m : Memo) : Prop where
  /-- Rules marked nullable vanish. -/
  nullable : ∀ r, m.mark r = .nullable → g.Vanishes r.body
  /-- Rules marked not nullable do not. -/
  notNullable : ∀ r, m.mark r = .notNullable → ¬ g.Vanishes r.body
  /-- The answers about non-terminals are right. -/
  answers : ∀ n answer, m.answer? n = some answer → n ∈ g.nonTerminals →
    (answer = true ↔ g.Vanishes [n.symbol])
  /-- Rules that bear a mark use no upper-case symbol that is not declared. -/
  defined : ∀ r, m.mark r ≠ .unknown → ∀ s ∈ r.body, isUppercase s = true → g.declares s = true

/-- Whether the definite marks of a memo are still there in a later one. -/
def Keeps (before after : Memo) : Prop :=
  ∀ r, before.mark r = .nullable ∨ before.mark r = .notNullable → after.mark r = before.mark r

variable {g : Grammar} {m before after : Memo} {r : Rule} {k : Mark}

theorem sound_empty (g : Grammar) : Sound g {} where
  nullable := fun _ h => Mark.noConfusion h
  notNullable := fun _ h => Mark.noConfusion h
  answers := fun _ _ h => by cases h
  defined := fun _ h => absurd rfl h

theorem not_inProgress_empty (r : Rule) : ¬ InProgress {} r :=
  fun h => Mark.noConfusion h

theorem Keeps.refl (m : Memo) : m.Keeps m :=
  fun _ _ => rfl

theorem Keeps.trans {middle : Memo} (h : before.Keeps middle) (k : middle.Keeps after) :
    before.Keeps after := by
  intro r hr
  have hmiddle := h r hr
  rw [k r (hmiddle ▸ hr), hmiddle]

/-- A mark that is right can be set on a rule of the grammar. -/
theorem Sound.set (hg : g.WellFormed) (hr : r ∈ g.rules) (h : m.Sound g)
    (hyes : k = .nullable → g.Vanishes r.body)
    (hno : k = .notNullable → ¬ g.Vanishes r.body) : (m.set r k).Sound g := by
  refine ⟨fun q hq => ?_, fun q hq => ?_, fun _ _ h => (by cases h), fun q hq => ?_⟩
  · by_cases hqr : q = r
    · subst hqr
      rw [mark_set_self] at hq
      exact hyes hq
    · rw [mark_set_of_ne m hqr] at hq
      exact h.nullable q hq
  · by_cases hqr : q = r
    · subst hqr
      rw [mark_set_self] at hq
      exact hno hq
    · rw [mark_set_of_ne m hqr] at hq
      exact h.notNullable q hq
  · by_cases hqr : q = r
    · subst hqr
      exact fun s hs hup => hg.declares_of_mem_body hr hs hup
    · rw [mark_set_of_ne m hqr] at hq
      exact h.defined q hq

/-- Setting a mark where there was none keeps the others. -/
theorem keeps_set (h : m.mark r = .unknown) : m.Keeps (m.set r k) := by
  intro q hq
  refine mark_set_of_ne m ?_ k
  rintro rfl
  rw [h] at hq
  rcases hq with hq | hq <;> cases hq

theorem inProgress_set_inProgress :
    (m.set r .inProgress).InProgress = fun q => m.InProgress q ∨ q = r := by
  funext q
  unfold InProgress
  by_cases hqr : q = r
  · subst hqr
    simp [mark_set_self]
  · simp [mark_set_of_ne m hqr, hqr]

theorem inProgress_set_of_ne (hk : k ≠ .inProgress) :
    (m.set r k).InProgress = fun q => m.InProgress q ∧ q ≠ r := by
  funext q
  unfold InProgress
  by_cases hqr : q = r
  · subst hqr
    simp [mark_set_self, hk]
  · simp [mark_set_of_ne m hqr, hqr]

end Memo

/-! ## Evaluations -/

namespace Grammar

/-- How many rules are not under evaluation. -/
def remaining (g : Grammar) (m : Memo) : Nat :=
  g.rules.countP fun r => decide (m.mark r ≠ .inProgress)

/-- What an evaluation has to say about a question: whether something vanishes, and whether it fades
without the rules under evaluation. -/
structure Judges (g : Grammar) (before : Memo) (vanishes fades : Prop) (e : Evaluation)
    (after : Memo) : Prop where
  /-- The new memo is sound. -/
  sound : after.Sound g
  /-- The same rules are under evaluation as before. -/
  inProgress : after.InProgress = before.InProgress
  /-- No definite mark is lost. -/
  keeps : before.Keeps after
  /-- A positive answer is right. -/
  positive : e.nullable = true → vanishes
  /-- A negative answer is right about fading. -/
  negative : e.nullable = false → ¬ fades
  /-- Without a cut, a negative answer is right. -/
  definite : e.nullable = false → e.cut = false → ¬ vanishes

variable {g : Grammar} {m before after : Memo} {r : Rule}

theorem remaining_congr (h : after.InProgress = before.InProgress) :
    g.remaining after = g.remaining before := by
  refine List.countP_congr fun r _ => ?_
  have hr : after.mark r = .inProgress ↔ before.mark r = .inProgress := iff_of_eq (congrFun h r)
  simp [hr]

/-- Putting a rule of the grammar under evaluation leaves fewer rules. -/
theorem remaining_set_inProgress (hr : r ∈ g.rules) (hmark : m.mark r ≠ .inProgress) :
    g.remaining (m.set r .inProgress) < g.remaining m := by
  refine countP_lt_countP (fun q hq => ?_) hr ?_ (decide_eq_true hmark)
  · by_cases hqr : q = r
    · rw [hqr]
      exact decide_eq_true hmark
    · rwa [Memo.mark_set_of_ne m hqr] at hq
  · rw [Memo.mark_set_self]
    decide

/-- Whether `evaluate` answers about all rules of the grammar that are unmarked, as long as no more
than `depth` rules are not under evaluation. -/
def Decides (g : Grammar) (depth : Nat) (evaluate : Rule → Memo → Option (Evaluation × Memo)) :
    Prop :=
  ∀ r ∈ g.rules, ∀ m : Memo, m.Sound g → m.mark r = .unknown → g.remaining m ≤ depth →
    ∃ e after, evaluate r m = some (e, after) ∧
      g.Judges m (g.Vanishes r.body) (g.Fades m.InProgress r.body) e after

section Judging

variable {v f v' f' : Prop} {e : Evaluation} {middle : Memo}

/-- A judgement that is passed later is good from the start. -/
theorem Judges.passedOn (hj : g.Judges middle v f e after)
    (hprogress : middle.InProgress = before.InProgress) (hkeeps : before.Keeps middle) :
    g.Judges before v f e after :=
  { hj with
    inProgress := hj.inProgress.trans hprogress
    keeps := hkeeps.trans hj.keeps }

/-- One more possibility that was ruled out leaves a judgement as it is. -/
theorem Judges.or_ruledOut (hj : g.Judges before v f e after) (hf : ¬ f')
    (hv : e.nullable = false → e.cut = false → ¬ v') :
    g.Judges before (v' ∨ v) (f' ∨ f) e after :=
  { hj with
    positive := fun h => Or.inr (hj.positive h)
    negative := fun h hor => hor.elim hf (hj.negative h)
    definite := fun h hc hor => hor.elim (hv h hc) (hj.definite h hc) }

/-- One more condition that is met leaves a judgement as it is. -/
theorem Judges.and_met (hj : g.Judges before v f e after) (hv : v') :
    g.Judges before (v' ∧ v) (f' ∧ f) e after :=
  { hj with
    positive := fun h => ⟨hv, hj.positive h⟩
    negative := fun h hand => hj.negative h hand.2
    definite := fun h hc hand => hj.definite h hc hand.2 }

/-- Two possibilities are judged one after the other. A cut at the first stays a cut at the second. -/
theorem Judges.or_tried {e' : Evaluation} (hj : g.Judges before v f e middle)
    (hnull : e.nullable = false) (hj' : g.Judges middle v' f' e' after)
    (hcut : e'.nullable = false → e.cut = true → e'.cut = true) :
    g.Judges before (v ∨ v') (f ∨ f') e' after := by
  apply (hj'.passedOn hj.inProgress hj.keeps).or_ruledOut (hj.negative hnull)
  intro h hc
  apply hj.definite hnull
  cases hec : e.cut with
  | false => rfl
  | true =>
    rw [hcut h hec] at hc
    cases hc

/-- If the first of two conditions is not met, this is the judgement on both. -/
theorem Judges.and_failed {cut : Bool} (hj : g.Judges before v f e after)
    (hnull : e.nullable = false) :
    g.Judges before (v ∧ v') (f ∧ f') ⟨false, cut || e.cut⟩ after := by
  refine ⟨hj.sound, hj.inProgress, hj.keeps, fun h => absurd h Bool.false_ne_true, ?_, ?_⟩
  · exact fun _ h => hj.negative hnull h.1
  · intro _ hc h
    have hcut : e.cut = false := (Bool.or_eq_false_iff.1 hc).2
    exact hj.definite hnull hcut h.1

end Judging

/-- The alternatives of a non-terminal are judged one after another. A cut before them stays a cut. -/
theorem judges_evaluateAlternatives {depth : Nat}
    {evaluate : Rule → Memo → Option (Evaluation × Memo)} (heval : g.Decides depth evaluate)
    {head : Symbol} {bodies : List Word} (hrules : ∀ body ∈ bodies, Rule.mk head body ∈ g.rules)
    (cut : Bool) (hm : m.Sound g) (hdepth : g.remaining m ≤ depth) :
    ∃ e after, evaluateAlternatives evaluate head bodies cut m = some (e, after) ∧
      g.Judges m (∃ body ∈ bodies, g.Vanishes body)
        (∃ body ∈ bodies, ¬ m.InProgress ⟨head, body⟩ ∧ g.Fades m.InProgress body) e after ∧
      (e.nullable = false → cut = true → e.cut = true) := by
  induction bodies generalizing cut m with
  | nil =>
    exact ⟨_, _, rfl, ⟨hm, rfl, .refl m, by simp, by simp, by simp⟩, fun _ h => h⟩
  | cons body rest ih =>
    rw [List.forall_mem_cons] at hrules
    simp only [List.mem_cons, exists_eq_or_imp]
    have hih := @ih m hrules.2
    unfold evaluateAlternatives
    cases hmark : m.mark ⟨head, body⟩ with
    | nullable =>
      refine ⟨_, _, rfl, ⟨hm, rfl, .refl m, fun _ => ?_, by simp, by simp⟩, by simp⟩
      exact Or.inl (hm.nullable _ hmark)
    | notNullable =>
      obtain ⟨e, after, he, hj, hcut⟩ := hih cut hm hdepth
      have hbody : ¬ g.Vanishes body := hm.notNullable _ hmark
      have hfades : ¬ (¬ m.InProgress ⟨head, body⟩ ∧ g.Fades m.InProgress body) :=
        fun h => hbody h.2.vanishes
      exact ⟨e, after, he, hj.or_ruledOut hfades fun _ _ => hbody, hcut⟩
    | inProgress =>
      -- the alternative cannot be seen, and from here on there is a cut
      obtain ⟨e, after, he, hj, hcut⟩ := hih true hm hdepth
      have hfades : ¬ (¬ m.InProgress ⟨head, body⟩ ∧ g.Fades m.InProgress body) :=
        fun h => h.1 hmark
      refine ⟨e, after, he, hj.or_ruledOut hfades fun h hc => ?_, fun h _ => hcut h rfl⟩
      rw [hcut h rfl] at hc
      cases hc
    | unknown =>
      obtain ⟨e, middle, he, hj⟩ := heval _ hrules.1 m hm hmark hdepth
      dsimp only at he hj ⊢
      rw [he]
      dsimp only
      cases hnull : e.nullable with
      | true =>
        refine ⟨e, middle, rfl, ⟨hj.sound, hj.inProgress, hj.keeps, fun _ => ?_, ?_, ?_⟩, ?_⟩
        · exact Or.inl (hj.positive hnull)
        all_goals simp [hnull]
      | false =>
        -- the rest is judged with the memo that the first alternative leaves
        rw [← remaining_congr hj.inProgress] at hdepth
        obtain ⟨e', after, he', hj', hcut⟩ := @ih middle hrules.2 (cut || e.cut) hj.sound hdepth
        rw [hj.inProgress] at hj'
        have hnot : ¬ m.InProgress ⟨head, body⟩ := by
          rw [Memo.InProgress, hmark]
          decide
        have hboth := hj.or_tried hnull hj' fun h hc => hcut h (by simp [hc])
        rw [← and_iff_right (b := g.Fades m.InProgress body) hnot] at hboth
        exact ⟨e', after, he', hboth, fun h hc => hcut h (by simp [hc])⟩

/-- A non-terminal is judged by its alternatives. -/
theorem judges_alternatives (hg : g.WellFormed) {depth : Nat}
    {evaluate : Rule → Memo → Option (Evaluation × Memo)} (heval : g.Decides depth evaluate)
    {n : NonTerminal} (hn : n ∈ g.nonTerminals) (hm : m.Sound g) (hdepth : g.remaining m ≤ depth) :
    ∃ e after, evaluateAlternatives evaluate n.symbol n.alternatives false m = some (e, after) ∧
      g.Judges m (g.Vanishes [n.symbol]) (g.Fades m.InProgress [n.symbol]) e after := by
  have hrules : ∀ body, body ∈ n.alternatives ↔ Rule.mk n.symbol body ∈ g.rules :=
    fun body => hg.mem_alternatives_iff hn
  have hne : n.symbol ≠ epsilon :=
    hg.ne_epsilon_of_declares (declares_iff.2 (List.mem_map_of_mem hn))
  obtain ⟨e, after, he, hj, -⟩ := judges_evaluateAlternatives heval
    (fun body hbody => (hrules body).1 hbody) false hm hdepth
  have hvanishes : g.Vanishes [n.symbol] ↔ ∃ body ∈ n.alternatives, g.Vanishes body := by
    rw [vanishes_singleton_iff hne]
    constructor
    · rintro ⟨⟨head, body⟩, hr, rfl, hbody⟩
      exact ⟨body, (hrules body).2 hr, hbody⟩
    · rintro ⟨body, hbody, hv⟩
      exact ⟨_, (hrules body).1 hbody, rfl, hv⟩
  have hfades : g.Fades m.InProgress [n.symbol] ↔ ∃ body ∈ n.alternatives,
      ¬ m.InProgress ⟨n.symbol, body⟩ ∧ g.Fades m.InProgress body := by
    rw [fades_singleton_iff hne]
    constructor
    · rintro ⟨⟨head, body⟩, hr, rfl, hbody⟩
      exact ⟨body, (hrules body).2 hr, hbody⟩
    · rintro ⟨body, hbody, hv⟩
      exact ⟨_, (hrules body).1 hbody, rfl, hv⟩
  rw [hvanishes, hfades]
  exact ⟨e, after, he, hj⟩

/-- A word without terminals is judged by its non-terminals, one after another. -/
theorem judges_evaluateWord {depth : Nat}
    {evaluate : NonTerminal → Memo → Option (Evaluation × Memo)}
    (heval : ∀ n ∈ g.nonTerminals, ∀ m : Memo, m.Sound g → g.remaining m ≤ depth →
      ∃ e after, evaluate n m = some (e, after) ∧
        g.Judges m (g.Vanishes [n.symbol]) (g.Fades m.InProgress [n.symbol]) e after)
    {w : Word} (hw : ∀ s ∈ w, s = epsilon ∨ g.declares s = true) (cut : Bool) (hm : m.Sound g)
    (hdepth : g.remaining m ≤ depth) :
    ∃ e after, g.evaluateWord evaluate w cut m = some (e, after) ∧
      g.Judges m (g.Vanishes w) (g.Fades m.InProgress w) e after := by
  induction w generalizing cut m with
  | nil =>
    refine ⟨_, _, rfl, hm, rfl, .refl m, fun _ => vanishes_nil, ?_, ?_⟩
    · intro h
      cases h
    · intro h
      cases h
  | cons s rest ih =>
    rw [List.forall_mem_cons] at hw
    rw [vanishes_cons, fades_cons]
    unfold evaluateWord
    cases hfind : g.find? s with
    | none =>
      -- what is neither a terminal nor declared is an epsilon
      have hs : s = epsilon := by
        refine hw.1.resolve_right fun hd => ?_
        rw [declares, hfind] at hd
        cases hd
      obtain ⟨e, after, he, hj⟩ := ih hw.2 cut hm hdepth
      subst hs
      exact ⟨e, after, he, hj.and_met vanishes_epsilon⟩
    | some n =>
      obtain ⟨e, middle, he, hj⟩ := heval n (mem_of_find?_eq_some hfind) m hm hdepth
      rw [symbol_of_find?_eq_some hfind] at hj
      dsimp only
      rw [he]
      dsimp only
      cases hnull : e.nullable with
      | true =>
        rw [← remaining_congr hj.inProgress] at hdepth
        obtain ⟨e', after, he', hj'⟩ := ih hw.2 (cut || e.cut) hj.sound hdepth
        rw [hj.inProgress] at hj'
        exact ⟨e', after, he', (hj'.passedOn hj.inProgress hj.keeps).and_met (hj.positive hnull)⟩
      | false => exact ⟨_, middle, rfl, hj.and_failed hnull⟩

/-- A word with a terminal does not vanish. -/
theorem not_vanishes_of_hasTerminal {w : Word} (h : g.hasTerminal w = true) : ¬ g.Vanishes w := by
  obtain ⟨s, hs, hcond⟩ := List.any_eq_true.1 h
  rw [Bool.and_eq_true, bne_iff_ne, Bool.not_eq_true'] at hcond
  exact fun hv => not_vanishes_of_undeclared hcond.1 hcond.2 (vanishes_iff_forall.1 hv s hs)

/-- When the right-hand side of a rule was judged while the rule was avoided, the rule is judged and
can be marked. -/
theorem Judges.marked (hg : g.WellFormed) (hr : r ∈ g.rules) {e : Evaluation} {middle : Memo}
    (hmark : m.mark r = .unknown) (hj : g.Judges (m.set r .inProgress) (g.Vanishes r.body)
      (g.Fades (m.set r .inProgress).InProgress r.body) e middle) :
    g.Judges m (g.Vanishes r.body) (g.Fades m.InProgress r.body) e (middle.set r e.mark) := by
  have hprogress := hj.inProgress
  have hnegative := hj.negative
  rw [Memo.inProgress_set_inProgress] at hprogress hnegative
  refine ⟨?_, ?_, ?_, hj.positive, fun h hfades => hnegative h hfades.avoid_self, hj.definite⟩
  · -- a negative answer is marked only if nothing was cut off
    unfold Evaluation.mark
    cases hnull : e.nullable with
    | true => exact hj.sound.set hg hr (fun _ => hj.positive hnull) fun h => by cases h
    | false =>
      cases hcut : e.cut with
      | true => exact hj.sound.set hg hr (fun h => by cases h) fun h => by cases h
      | false => exact hj.sound.set hg hr (fun h => by cases h) fun _ => hj.definite hnull hcut
  · -- the rule is not under evaluation any more, and it was not before
    have hne : e.mark ≠ .inProgress := by
      unfold Evaluation.mark
      cases e.nullable <;> cases e.cut <;> decide
    rw [Memo.inProgress_set_of_ne hne, hprogress]
    funext q
    refine propext ⟨fun h => h.1.resolve_right h.2, fun h => ⟨Or.inl h, ?_⟩⟩
    rintro rfl
    rw [Memo.InProgress, hmark] at h
    cases h
  · intro q hq
    have hqr : q ≠ r := by
      rintro rfl
      rw [hmark] at hq
      rcases hq with hq | hq <;> cases hq
    have hstep : (m.set r .inProgress).mark q = m.mark q := Memo.mark_set_of_ne m hqr _
    rw [Memo.mark_set_of_ne middle hqr, hj.keeps q (by rwa [hstep]), hstep]

/-- Every unmarked rule is judged, if the depth allows for all rules that are not under evaluation. -/
theorem decides_evaluate (hg : g.WellFormed) (depth : Nat) : g.Decides depth (g.evaluate depth) := by
  induction depth with
  | zero =>
    intro r hr m _ hmark hdepth
    -- the rule itself is not under evaluation
    have hlt := remaining_set_inProgress hr (m := m) (by rw [hmark]; decide)
    omega
  | succ depth ih =>
    intro r hr m hm hmark hdepth
    have hnot : m.mark r ≠ .inProgress := by
      rw [hmark]
      decide
    unfold evaluate
    rw [if_neg hnot]
    cases hterminal : g.hasTerminal r.body with
    | true =>
      -- a right-hand side with a terminal is marked at once
      have hbody := not_vanishes_of_hasTerminal hterminal
      rw [if_pos rfl]
      refine ⟨_, _, rfl, hm.set hg hr (fun h => by cases h) (fun _ => hbody), ?_,
        Memo.keeps_set hmark, ?_, fun _ h => hbody h.vanishes, fun _ _ => hbody⟩
      · rw [Memo.inProgress_set_of_ne (by decide)]
        funext q
        refine propext ⟨And.left, fun h => ⟨h, ?_⟩⟩
        rintro rfl
        exact hnot h
      · intro h
        cases h
    | false =>
      -- the right-hand side is looked at while the rule itself is avoided
      have hlt := remaining_set_inProgress hr hnot
      have hdeclared : ∀ s ∈ r.body, s = epsilon ∨ g.declares s = true := by
        intro s hs
        have hany := List.any_eq_false.1 hterminal s hs
        by_cases hse : s = epsilon
        · exact Or.inl hse
        · exact Or.inr (by simpa [hse] using hany)
      have hstart : (m.set r .inProgress).Sound g :=
        hm.set hg hr (fun h => by cases h) (fun h => by cases h)
      obtain ⟨e, middle, he, hj⟩ := judges_evaluateWord
        (fun n hn m hm hd => judges_alternatives hg ih hn hm hd) hdeclared false hstart
        (by omega)
      rw [if_neg Bool.false_ne_true]
      dsimp only
      rw [he]
      exact ⟨e, middle.set r e.mark, rfl, hj.marked hg hr hmark⟩

end Grammar

/-! ## Queries -/

/-- What holds of a memo between two queries: it is sound, and no rule is under evaluation. -/
structure Memo.Ready (g : Grammar) (m : Memo) : Prop where
  /-- All marks and answers are right. -/
  sound : m.Sound g
  /-- No rule is under evaluation. -/
  idle : ∀ r, ¬ m.InProgress r

theorem Memo.ready_empty (g : Grammar) : Ready g {} :=
  ⟨sound_empty g, not_inProgress_empty⟩

namespace Grammar

/-- What a query has to answer: the truth, with a memo that is ready for the next query and keeps
what was known. -/
structure Answers (g : Grammar) (before : Memo) (vanishes : Prop) (result : Bool × Memo) : Prop where
  /-- The next query can be asked. -/
  ready : result.2.Ready g
  /-- No definite mark is lost. -/
  keeps : before.Keeps result.2
  /-- The answer is right. -/
  exact : result.1 = true ↔ vanishes

variable {g : Grammar} {m : Memo}

theorem remaining_le_length : g.remaining m ≤ g.rules.length :=
  List.countP_le_length

/-- When no rule is under evaluation, a judgement is an answer. -/
theorem Judges.answers {e : Evaluation} {after : Memo} {w : Word} (hm : m.Ready g)
    (hj : g.Judges m (g.Vanishes w) (g.Fades m.InProgress w) e after) :
    g.Answers m (g.Vanishes w) (e.nullable, after) := by
  refine ⟨⟨hj.sound, hj.inProgress ▸ hm.idle⟩, hj.keeps, ⟨hj.positive, fun hv => ?_⟩⟩
  cases hnull : e.nullable with
  | true => rfl
  | false => exact absurd (hv.fades hm.idle) (hj.negative hnull)

/-- An evaluation of a non-terminal gives the answer. -/
theorem answers_evaluatedHead (hg : g.WellFormed) {n : NonTerminal} (hn : n ∈ g.nonTerminals)
    (hm : m.Ready g) : g.Answers m (g.Vanishes [n.symbol]) (g.evaluatedHead n m) := by
  obtain ⟨e, after, he, hj⟩ :=
    judges_alternatives hg (decides_evaluate hg _) hn hm.sound remaining_le_length
  rw [evaluatedHead, he]
  exact hj.answers hm

/-- An answer can be learned. -/
theorem Answers.learn {n : NonTerminal} {result : Bool × Memo} (hm : m.Ready g)
    (h : g.Answers m (g.Vanishes [n.symbol]) result) :
    g.Answers m (g.Vanishes [n.symbol]) (result.1, m.learn result.2 n result.1) := by
  have hmark := Memo.mark_learn m result.2 n result.1
  refine ⟨⟨⟨?_, ?_, ?_, ?_⟩, ?_⟩, ?_, h.exact⟩
  · intro r hr
    rw [hmark] at hr
    exact h.ready.sound.nullable r hr
  · intro r hr
    rw [hmark] at hr
    exact h.ready.sound.notNullable r hr
  · intro k answer hk hmem
    simp only [Memo.learn] at hk
    split at hk
    · rw [Memo.answer?, List.lookup_cons] at hk
      split at hk
      · next heq =>
        rw [beq_iff_eq] at heq
        rw [← Option.some.inj hk, heq]
        exact h.exact
      · exact hm.sound.answers k answer hk hmem
    · exact h.ready.sound.answers k answer hk hmem
  · intro r hr
    rw [hmark] at hr
    exact h.ready.sound.defined r hr
  · intro r hr
    rw [Memo.InProgress, hmark] at hr
    exact h.ready.idle r hr
  · intro r hr
    rw [hmark]
    exact h.keeps r hr

/-- A non-terminal is said to derive the empty word exactly when it does. -/
theorem answers_nullableHead (hg : g.WellFormed) {n : NonTerminal} (hn : n ∈ g.nonTerminals)
    (hm : m.Ready g) : g.Answers m (g.Vanishes [n.symbol]) (g.nullableHead n m) := by
  unfold nullableHead
  cases hanswer : m.answer? n with
  | some answer => exact ⟨hm, .refl m, hm.sound.answers n answer hanswer hn⟩
  | none => exact (answers_evaluatedHead hg hn hm).learn hm

/-- A rule is said to derive the empty word exactly when it does. -/
theorem answers_nullableRule (hg : g.WellFormed) {r : Rule} (hr : r ∈ g.rules) (hm : m.Ready g) :
    g.Answers m (g.Vanishes r.body) (g.nullableRule r m) := by
  unfold nullableRule
  cases hmark : m.mark r with
  | nullable => exact ⟨hm, .refl m, ⟨fun _ => hm.sound.nullable r hmark, fun _ => rfl⟩⟩
  | notNullable =>
    have hbody := hm.sound.notNullable r hmark
    exact ⟨hm, .refl m, ⟨fun h => absurd h Bool.false_ne_true, fun h => absurd h hbody⟩⟩
  | inProgress => exact absurd hmark (hm.idle r)
  | unknown =>
    obtain ⟨e, after, he, hj⟩ := decides_evaluate hg _ r hr m hm.sound hmark remaining_le_length
    dsimp only
    rw [he]
    exact hj.answers hm

/-- A word is said to derive the empty word exactly when it does. -/
theorem answers_nullableWord (hg : g.WellFormed) (w : Word) (hm : m.Ready g) :
    g.Answers m (g.Vanishes w) (g.nullableWord w m) := by
  induction w generalizing m with
  | nil => exact ⟨hm, .refl m, ⟨fun _ => vanishes_nil, fun _ => rfl⟩⟩
  | cons s rest ih =>
    rw [vanishes_cons]
    unfold nullableWord
    cases hfind : g.find? s with
    | none =>
      dsimp only
      split
      · next hs =>
        subst hs
        rw [and_iff_right vanishes_epsilon]
        exact ih hm
      · next hs =>
        have hd : g.declares s = false := by rw [declares, hfind, Option.isSome_none]
        have hnot := not_vanishes_of_undeclared hs hd
        exact ⟨hm, .refl m, ⟨fun h => absurd h Bool.false_ne_true, fun h => absurd h.1 hnot⟩⟩
    | some n =>
      have h := answers_nullableHead hg (mem_of_find?_eq_some hfind) hm
      rw [symbol_of_find?_eq_some hfind] at h
      dsimp only
      generalize g.nullableHead n m = result at h ⊢
      obtain ⟨answer, after⟩ := result
      cases answer with
      | true =>
        obtain ⟨hready, hkeeps, hexact⟩ := ih h.ready
        exact ⟨hready, h.keeps.trans hkeeps, by rw [hexact, and_iff_right (h.exact.1 rfl)]⟩
      | false =>
        exact ⟨h.ready, h.keeps, ⟨fun hf => absurd hf Bool.false_ne_true, fun hv => h.exact.2 hv.1⟩⟩

/-- Asking about every non-terminal leaves a memo that is ready. -/
theorem ready_learnNullable (hg : g.WellFormed) (hm : m.Ready g) : (g.learnNullable m).Ready g := by
  have key : ∀ (ns : List NonTerminal) (m : Memo), (∀ n ∈ ns, n ∈ g.nonTerminals) → m.Ready g →
      (ns.foldl (fun m n => (g.nullableHead n m).2) m).Ready g := by
    intro ns
    induction ns with
    | nil => exact fun _ _ hm => hm
    | cons n rest ih =>
      intro m hns hm
      rw [List.forall_mem_cons] at hns
      exact ih _ hns.2 (answers_nullableHead hg hns.1 hm).ready
  exact key g.nonTerminals m (fun _ hn => hn) hm

end Grammar

end LL1
