/-
# Evaluations inside evaluations

To evaluate a rule is to ask about the non-terminals of its right-hand side, and to ask about a
non-terminal is to evaluate its unmarked rules. Here the two are taken apart into single steps, with
the unfinished evaluations on a stack. The machine has no bound on the depth of the stack, and where
it enters a rule it does not look whether the rule is under evaluation. It does not have to: only
unmarked rules are entered, and a rule is marked as long as its evaluation lasts, so the rules on
the stack differ from each other. The machine comes to the answer that the bounded evaluation gives.
-/
import LL1.Proofs.Analysis.Nullability
import Mathlib.Logic.Function.Iterate

namespace LL1

/-! ## The machine -/

/-- An evaluation of a rule that is not finished. -/
structure Frame where
  /-- The rule. -/
  rule : Rule
  /-- The alternatives of its head that come after it. -/
  alternatives : List Word
  /-- Whether there was a cut at the alternatives before it. -/
  missed : Bool
  /-- What is left of the right-hand side. -/
  rest : Word
  /-- Whether there was a cut in the part of the right-hand side before. -/
  cut : Bool
  deriving DecidableEq, Repr

/-- The evaluation of a rule before anything was looked at. -/
def Frame.start (r : Rule) (alternatives : List Word) (missed : Bool) : Frame :=
  ⟨r, alternatives, missed, r.body, false⟩

/-- What is done next. -/
inductive Stage where
  /-- The alternatives of a non-terminal are tried. -/
  | trying (head : Symbol) (alternatives : List Word) (cut : Bool)
  /-- The evaluation of a rule begins. -/
  | entering (f : Frame)
  /-- The evaluation of a rule goes on with what is left of the right-hand side. -/
  | reading (f : Frame)
  /-- An answer about a non-terminal is given to the evaluation that waits for it. -/
  | answering (e : Evaluation)
  deriving DecidableEq, Repr

/-- A state of the machine. -/
structure Evaluator where
  /-- What is done next. -/
  stage : Stage
  /-- The evaluations that wait for an answer, innermost first. -/
  frames : List Frame
  /-- The marks of the rules. -/
  memo : Memo
  deriving DecidableEq, Repr

namespace Evaluator

/-- The state in which the evaluation of a rule has come to an answer: a positive one answers the
question about the head, after a negative one the next alternative is tried. -/
def returned (f : Frame) (e : Evaluation) (frames : List Frame) (memo : Memo) : Evaluator :=
  if e.nullable then ⟨.answering e, frames, memo⟩
  else ⟨.trying f.rule.head f.alternatives (f.missed || e.cut), frames, memo⟩

theorem returned_of_nullable {f : Frame} {e : Evaluation} (h : e.nullable = true)
    (frames : List Frame) (memo : Memo) :
    returned f e frames memo = ⟨.answering e, frames, memo⟩ :=
  if_pos h

theorem returned_of_not_nullable {f : Frame} {e : Evaluation} (h : e.nullable = false)
    (frames : List Frame) (memo : Memo) :
    returned f e frames memo =
      ⟨.trying f.rule.head f.alternatives (f.missed || e.cut), frames, memo⟩ :=
  if_neg (by rw [h]; exact Bool.false_ne_true)

/-- Makes one step. An answer that no evaluation waits for is the end. -/
def step (g : Grammar) (s : Evaluator) : Evaluator :=
  match s.stage with
  | .trying _ [] cut => { s with stage := .answering ⟨false, cut⟩ }
  | .trying head (body :: rest) cut =>
    match s.memo.mark ⟨head, body⟩ with
    | .nullable => { s with stage := .answering ⟨true, false⟩ }
    | .notNullable => { s with stage := .trying head rest cut }
    | .inProgress => { s with stage := .trying head rest true }
    | .unknown => { s with stage := .entering (.start ⟨head, body⟩ rest cut) }
  | .entering f =>
    if g.hasTerminal f.rule.body then
      returned f ⟨false, false⟩ s.frames (s.memo.set f.rule .notNullable)
    else { s with stage := .reading f, memo := s.memo.set f.rule .inProgress }
  | .reading f =>
    match f.rest with
    | [] => returned f ⟨true, f.cut⟩ s.frames (s.memo.set f.rule .nullable)
    | x :: rest =>
      match g.find? x with
      | none => { s with stage := .reading { f with rest } }
      | some n =>
        { s with
          stage := .trying n.symbol n.alternatives false
          frames := { f with rest } :: s.frames }
  | .answering e =>
    match s.frames with
    | [] => s
    | f :: frames =>
      if e.nullable then ⟨.reading { f with cut := f.cut || e.cut }, frames, s.memo⟩
      else
        let e : Evaluation := ⟨false, f.cut || e.cut⟩
        returned f e frames (s.memo.set f.rule e.mark)

/-- Questions about nullability: where the machine starts, and the answer with the memo that goes
with it. -/
inductive Poses (g : Grammar) (m : Memo) : Evaluator → Bool × Memo → Prop where
  /-- The question about a non-terminal. -/
  | head {n : NonTerminal} (h : n ∈ g.nonTerminals) :
    Poses g m ⟨.trying n.symbol n.alternatives false, [], m⟩ (g.evaluatedHead n m)
  /-- The question about a rule without a mark. -/
  | rule {r : Rule} (h : r ∈ g.rules) (hmark : m.mark r = .unknown) :
    Poses g m ⟨.entering (.start r [] false), [], m⟩ (g.nullableRule r m)

end Evaluator

/-! ## The rules on the stack -/

/-- The rule that is about to be evaluated, or whose evaluation goes on. -/
def Stage.rules : Stage → List Rule
  | .entering f => [f.rule]
  | .reading f => [f.rule]
  | _ => []

/-- The rule whose evaluation goes on. -/
def Stage.marked : Stage → List Rule
  | .reading f => [f.rule]
  | _ => []

/-- Whether an evaluation is one of a rule of the grammar, with further rules of its head. -/
def Frame.Of (g : Grammar) (f : Frame) : Prop :=
  f.rule ∈ g.rules ∧ ∀ body ∈ f.alternatives, ⟨f.rule.head, body⟩ ∈ g.rules

/-- Whether nothing but rules of the grammar is tried and evaluated. -/
def Stage.Of (g : Grammar) : Stage → Prop
  | .trying head alternatives _ => ∀ body ∈ alternatives, ⟨head, body⟩ ∈ g.rules
  | .entering f => f.Of g
  | .reading f => f.Of g
  | .answering _ => True

/-- The mark that an evaluation leaves is not that of a rule under evaluation. -/
theorem Evaluation.mark_ne_inProgress (e : Evaluation) : e.mark ≠ .inProgress := by
  unfold mark
  cases e.nullable <;> cases e.cut <;> decide

/-- The alternatives of a non-terminal of the grammar are rules. -/
theorem Grammar.mem_rules_of_mem_alternatives {g : Grammar} {n : NonTerminal}
    (hn : n ∈ g.nonTerminals) : ∀ body ∈ n.alternatives, Rule.mk n.symbol body ∈ g.rules :=
  fun _ hbody => mem_rules.2 ⟨n, hn, rfl, hbody⟩

/-- A mark for a rule that is not under evaluation does not put it there. -/
theorem Memo.inProgress_set_of_not {m : Memo} {r : Rule} {k : Mark} (hk : k ≠ .inProgress)
    (h : ¬ m.InProgress r) : (m.set r k).InProgress = m.InProgress := by
  rw [inProgress_set_of_ne hk]
  funext q
  refine propext ⟨And.left, fun hq => ⟨hq, ?_⟩⟩
  rintro rfl
  exact h hq

/-- When the rule that was put under evaluation is marked, the same rules are under evaluation as
before. -/
theorem Memo.inProgress_set_set {m after : Memo} {r : Rule} {k : Mark} (hk : k ≠ .inProgress)
    (h : ¬ m.InProgress r) (hafter : after.InProgress = (m.set r .inProgress).InProgress) :
    (after.set r k).InProgress = m.InProgress := by
  rw [inProgress_set_inProgress] at hafter
  rw [inProgress_set_of_ne hk, hafter]
  funext q
  refine propext ⟨fun hq => hq.1.resolve_right hq.2, fun hq => ⟨Or.inl hq, ?_⟩⟩
  rintro rfl
  exact h hq

namespace Evaluator

variable {g : Grammar} {m memo : Memo} {s : Evaluator} {f : Frame} {frames : List Frame}

/-- The rules of the evaluations that wait. -/
def waiting (s : Evaluator) : List Rule :=
  s.frames.map Frame.rule

/-- The rules of all evaluations, innermost first. -/
def rules (s : Evaluator) : List Rule :=
  s.stage.rules ++ s.waiting

/-- The evaluations in a state of a machine that started with the memo `m`. -/
structure Nests (g : Grammar) (m : Memo) (s : Evaluator) : Prop where
  /-- What is done next concerns rules of the grammar. -/
  stage : s.stage.Of g
  /-- So do the evaluations that wait. -/
  frames : ∀ f ∈ s.frames, f.Of g
  /-- No rule is evaluated inside its own evaluation. -/
  nodup : s.rules.Nodup
  /-- Their evaluation was not going on at first. -/
  fresh : ∀ r ∈ s.rules, ¬ m.InProgress r
  /-- Under evaluation, by their marks, are the same rules as at first and those on the stack. -/
  inProgress : ∀ r, s.memo.InProgress r ↔ m.InProgress r ∨ r ∈ s.stage.marked ++ s.waiting

/-- A rule that is entered is not under evaluation. -/
theorem Nests.mark_ne_inProgress (h : s.Nests g m) (hstage : s.stage = .entering f) :
    s.memo.mark f.rule ≠ .inProgress := by
  have hrules : s.rules = f.rule :: s.waiting := by rw [rules, hstage]; rfl
  have hnodup := h.nodup
  have hfresh := h.fresh f.rule (by rw [hrules]; exact List.mem_cons_self)
  rw [hrules, List.nodup_cons] at hnodup
  intro hmark
  rcases (h.inProgress f.rule).1 hmark with hm | hwaiting
  · exact hfresh hm
  · rw [hstage] at hwaiting
    exact hnodup.1 hwaiting

/-- The rules on the stack are rules of the grammar. -/
theorem Nests.mem_rules (h : s.Nests g m) : s.rules ⊆ g.rules := by
  intro r hr
  rcases List.mem_append.1 hr with hr | hr
  · have hstage := h.stage
    cases hs : s.stage with
    | trying head alternatives cut => rw [hs] at hr; cases hr
    | answering e => rw [hs] at hr; cases hr
    | entering f =>
      rw [hs] at hr hstage
      obtain rfl := List.mem_singleton.1 hr
      exact hstage.1
    | reading f =>
      rw [hs] at hr hstage
      obtain rfl := List.mem_singleton.1 hr
      exact hstage.1
  · obtain ⟨f, hf, rfl⟩ := List.mem_map.1 hr
    exact (h.frames f hf).1

/-- So there are no more of them than the grammar has. -/
theorem Nests.length_le (h : s.Nests g m) : s.rules.length ≤ g.rules.length :=
  h.nodup.length_le_of_subset h.mem_rules

/-- When an evaluation ends, its rule leaves the stack and is not under evaluation any more. -/
theorem nests_returned (hf : f.Of g) (hframes : ∀ f ∈ frames, f.Of g)
    (hnodup : (f.rule :: frames.map Frame.rule).Nodup)
    (hfresh : ∀ r ∈ f.rule :: frames.map Frame.rule, ¬ m.InProgress r)
    (hmarks : ∀ r ≠ f.rule, memo.InProgress r ↔ m.InProgress r ∨ r ∈ frames.map Frame.rule)
    (e : Evaluation) :
    (returned f e frames (memo.set f.rule e.mark)).Nests g m := by
  rw [List.nodup_cons] at hnodup
  rw [List.forall_mem_cons] at hfresh
  have hset : ∀ r, (memo.set f.rule e.mark).InProgress r ↔
      m.InProgress r ∨ r ∈ frames.map Frame.rule := by
    intro r
    rw [Memo.inProgress_set_of_ne e.mark_ne_inProgress]
    constructor
    · exact fun h => (hmarks r h.2).1 h.1
    · intro h
      have hne : r ≠ f.rule := by
        rintro rfl
        exact h.elim hfresh.1 hnodup.1
      exact ⟨(hmarks r hne).2 h, hne⟩
  unfold returned
  split
  · exact ⟨trivial, hframes, hnodup.2, hfresh.2, hset⟩
  · exact ⟨hf.2, hframes, hnodup.2, hfresh.2, hset⟩

/-- The innermost rule aside, the rules that read or wait are those that wait. -/
theorem inProgress_of_ne {waiting : List Rule}
    (hmarks : ∀ r, memo.InProgress r ↔ m.InProgress r ∨ r ∈ f.rule :: waiting) :
    ∀ r ≠ f.rule, memo.InProgress r ↔ m.InProgress r ∨ r ∈ waiting := by
  intro r hr
  rw [hmarks r, List.mem_cons, or_iff_right hr]

/-- Each step keeps the evaluations in order. -/
theorem Nests.step (h : s.Nests g m) : (s.step g).Nests g m := by
  obtain ⟨stage, frames, memo⟩ := s
  obtain ⟨hstage, hframes, hnodup, hfresh, hmarks⟩ := h
  cases stage with
  | trying head alternatives cut =>
    cases alternatives with
    | nil => exact ⟨trivial, hframes, hnodup, hfresh, hmarks⟩
    | cons body rest =>
      obtain ⟨hbody, hrest⟩ := List.forall_mem_cons.1 hstage
      unfold step
      dsimp only
      split
      · exact ⟨trivial, hframes, hnodup, hfresh, hmarks⟩
      · exact ⟨hrest, hframes, hnodup, hfresh, hmarks⟩
      · exact ⟨hrest, hframes, hnodup, hfresh, hmarks⟩
      · next hmark =>
        -- without a mark, the rule is neither on the stack nor under evaluation from before
        have hnot : ¬ (m.InProgress ⟨head, body⟩ ∨ ⟨head, body⟩ ∈ frames.map Frame.rule) := by
          intro h
          have hprogress := (hmarks ⟨head, body⟩).2 h
          rw [Memo.InProgress, hmark] at hprogress
          cases hprogress
        obtain ⟨hm, hwaiting⟩ := not_or.1 hnot
        exact ⟨⟨hbody, hrest⟩, hframes, List.nodup_cons.2 ⟨hwaiting, hnodup⟩,
          List.forall_mem_cons.2 ⟨hm, hfresh⟩, hmarks⟩
  | entering f =>
    unfold step
    dsimp only
    split
    · exact nests_returned hstage hframes hnodup hfresh (fun r _ => hmarks r) ⟨false, false⟩
    · refine ⟨hstage, hframes, hnodup, hfresh, fun r => ?_⟩
      show (memo.set f.rule .inProgress).InProgress r ↔
        m.InProgress r ∨ r ∈ f.rule :: frames.map Frame.rule
      rw [Memo.inProgress_set_inProgress, List.mem_cons, ← or_assoc, or_right_comm]
      exact or_congr_left (hmarks r)
  | reading f =>
    unfold step
    dsimp only
    split
    · exact nests_returned hstage hframes hnodup hfresh (inProgress_of_ne hmarks) ⟨true, f.cut⟩
    · split
      · exact ⟨hstage, hframes, hnodup, hfresh, hmarks⟩
      · next n hfind =>
        have hn := Grammar.mem_of_find?_eq_some hfind
        exact ⟨Grammar.mem_rules_of_mem_alternatives hn, List.forall_mem_cons.2 ⟨hstage, hframes⟩,
          hnodup, hfresh, hmarks⟩
  | answering e =>
    cases frames with
    | nil => exact ⟨trivial, hframes, hnodup, hfresh, hmarks⟩
    | cons f frames =>
      rw [List.forall_mem_cons] at hframes
      unfold step
      dsimp only
      split
      · exact ⟨hframes.1, hframes.2, hnodup, hfresh, hmarks⟩
      · exact nests_returned hframes.1 hframes.2 hnodup hfresh (inProgress_of_ne hmarks)
          ⟨false, f.cut || e.cut⟩

/-- They are in order from the first question on. -/
theorem Poses.nests {result : Bool × Memo} (h : Poses g m s result) : s.Nests g m := by
  cases h with
  | @head n hn =>
    refine ⟨Grammar.mem_rules_of_mem_alternatives hn, by simp, List.nodup_nil, fun r hr => ?_,
      fun r => ?_⟩
    · exact absurd hr List.not_mem_nil
    · exact (or_iff_left List.not_mem_nil).symm
  | @rule r hr hmark =>
    refine ⟨⟨hr, fun _ hbody => absurd hbody List.not_mem_nil⟩, by simp,
      List.pairwise_singleton _ r, ?_, fun q => ?_⟩
    · intro q hq
      obtain rfl := List.mem_singleton.1 hq
      rw [Memo.InProgress, hmark]
      decide
    · exact (or_iff_left List.not_mem_nil).symm

/-- They stay in order as long as the machine runs. -/
theorem Poses.nests_iterate {result : Bool × Memo} (h : Poses g m s result) (k : Nat) :
    ((step g)^[k] s).Nests g m :=
  Function.Iterate.rec (Nests g m) h.nests (fun _ hs => Nests.step hs) k

end Evaluator

/-! ## The machine stops -/

namespace Evaluator

variable {g : Grammar} {m : Memo} {s s' s'' : Evaluator}

/-- Whether the machine comes from one state to another. -/
def Reaches (g : Grammar) (s s' : Evaluator) : Prop :=
  ∃ k, (step g)^[k] s = s'

theorem Reaches.refl (s : Evaluator) : Reaches g s s :=
  ⟨0, rfl⟩

/-- One step more at the start. -/
theorem Reaches.head (hstep : s.step g = s') (h : Reaches g s' s'') : Reaches g s s'' := by
  obtain ⟨k, rfl⟩ := h
  refine ⟨k + 1, ?_⟩
  rw [Function.iterate_succ_apply, hstep]

theorem Reaches.trans (h : Reaches g s s') (h' : Reaches g s' s'') : Reaches g s s'' := by
  obtain ⟨j, rfl⟩ := h
  obtain ⟨k, rfl⟩ := h'
  exact ⟨k + j, Function.iterate_add_apply _ _ _ _⟩

/-- Whether the bounded evaluation answers about every unmarked rule, as long as no more than
`depth` rules are not under evaluation, and the machine comes to the same answer. -/
def Performs (g : Grammar) (depth : Nat) : Prop :=
  ∀ r ∈ g.rules, ∀ m : Memo, m.mark r = .unknown → g.remaining m ≤ depth →
    ∃ e after, g.evaluate depth r m = some (e, after) ∧ after.InProgress = m.InProgress ∧
      ∀ alternatives missed frames,
        Reaches g ⟨.entering (.start r alternatives missed), frames, m⟩
          (returned (.start r alternatives missed) e frames after)

/-- Then both answer about alternatives of a non-terminal. -/
theorem reaches_answering {depth : Nat} (hperforms : Performs g depth) {head : Symbol}
    {bodies : List Word} (hrules : ∀ body ∈ bodies, Rule.mk head body ∈ g.rules) (cut : Bool)
    (hdepth : g.remaining m ≤ depth) :
    ∃ e after, evaluateAlternatives (g.evaluate depth) head bodies cut m = some (e, after) ∧
      after.InProgress = m.InProgress ∧
      ∀ frames, Reaches g ⟨.trying head bodies cut, frames, m⟩ ⟨.answering e, frames, after⟩ := by
  induction bodies generalizing cut m with
  | nil => exact ⟨_, m, rfl, rfl, fun frames => .head rfl (.refl _)⟩
  | cons body rest ih =>
    rw [List.forall_mem_cons] at hrules
    unfold evaluateAlternatives
    have hstep : ∀ frames, step g ⟨.trying head (body :: rest) cut, frames, m⟩ =
        match m.mark ⟨head, body⟩ with
        | .nullable => ⟨.answering ⟨true, false⟩, frames, m⟩
        | .notNullable => ⟨.trying head rest cut, frames, m⟩
        | .inProgress => ⟨.trying head rest true, frames, m⟩
        | .unknown => ⟨.entering (.start ⟨head, body⟩ rest cut), frames, m⟩ :=
      fun _ => rfl
    cases hmark : m.mark ⟨head, body⟩ with
    | nullable =>
      rw [hmark] at hstep
      exact ⟨_, m, rfl, rfl, fun frames => .head (hstep frames) (.refl _)⟩
    | notNullable =>
      rw [hmark] at hstep
      obtain ⟨e, after, he, hprogress, hreaches⟩ := ih hrules.2 cut hdepth
      exact ⟨e, after, he, hprogress, fun frames => .head (hstep frames) (hreaches frames)⟩
    | inProgress =>
      rw [hmark] at hstep
      obtain ⟨e, after, he, hprogress, hreaches⟩ := ih hrules.2 true hdepth
      exact ⟨e, after, he, hprogress, fun frames => .head (hstep frames) (hreaches frames)⟩
    | unknown =>
      rw [hmark] at hstep
      obtain ⟨e, middle, he, hprogress, hreaches⟩ := hperforms _ hrules.1 m hmark hdepth
      dsimp only at he ⊢
      rw [he]
      dsimp only
      cases hnull : e.nullable with
      | true =>
        refine ⟨e, middle, rfl, hprogress, fun frames => .head (hstep frames) ?_⟩
        have hentered := hreaches rest cut frames
        rwa [returned_of_nullable hnull] at hentered
      | false =>
        -- the other alternatives are tried with the memo that this one leaves
        rw [← Grammar.remaining_congr hprogress] at hdepth
        obtain ⟨e', after, he', hprogress', hreaches'⟩ := ih hrules.2 (cut || e.cut) hdepth
        refine ⟨e', after, he', hprogress'.trans hprogress, fun frames => .head (hstep frames) ?_⟩
        have hentered := hreaches rest cut frames
        rw [returned_of_not_nullable hnull] at hentered
        exact hentered.trans (hreaches' frames)

/-- And both come to the end of a right-hand side. -/
theorem reaches_returned {depth : Nat} (hperforms : Performs g depth) (w : Word) (cut : Bool)
    (hdepth : g.remaining m ≤ depth) :
    ∃ e after, g.evaluateWord (fun n m => evaluateAlternatives (g.evaluate depth) n.symbol
        n.alternatives false m) w cut m = some (e, after) ∧ after.InProgress = m.InProgress ∧
      ∀ r alternatives missed frames,
        Reaches g ⟨.reading ⟨r, alternatives, missed, w, cut⟩, frames, m⟩
          (returned ⟨r, alternatives, missed, w, cut⟩ e frames (after.set r e.mark)) := by
  induction w generalizing cut m with
  | nil => exact ⟨_, m, rfl, rfl, fun _ _ _ _ => .head rfl (.refl _)⟩
  | cons x w ih =>
    unfold Grammar.evaluateWord
    have hstep : ∀ r alternatives missed frames,
        step g ⟨.reading ⟨r, alternatives, missed, x :: w, cut⟩, frames, m⟩ =
          match g.find? x with
          | none => ⟨.reading ⟨r, alternatives, missed, w, cut⟩, frames, m⟩
          | some n => ⟨.trying n.symbol n.alternatives false,
              ⟨r, alternatives, missed, w, cut⟩ :: frames, m⟩ :=
      fun _ _ _ _ => rfl
    cases hfind : g.find? x with
    | none =>
      rw [hfind] at hstep
      obtain ⟨e, after, he, hprogress, hreaches⟩ := ih cut hdepth
      exact ⟨e, after, he, hprogress, fun _ _ _ _ => .head (hstep _ _ _ _) (hreaches _ _ _ _)⟩
    | some n =>
      rw [hfind] at hstep
      have hrules := Grammar.mem_rules_of_mem_alternatives (Grammar.mem_of_find?_eq_some hfind)
      obtain ⟨e, middle, he, hprogress, hreaches⟩ :=
        reaches_answering hperforms hrules false hdepth
      dsimp only
      rw [he]
      dsimp only
      cases hnull : e.nullable with
      | true =>
        -- the answer goes to the evaluation that waits for it, which goes on
        rw [← Grammar.remaining_congr hprogress] at hdepth
        obtain ⟨e', after, he', hprogress', hreaches'⟩ := ih (cut || e.cut) hdepth
        refine ⟨e', after, he', hprogress'.trans hprogress, fun r alternatives missed frames => ?_⟩
        have hgiven : step g ⟨.answering e, ⟨r, alternatives, missed, w, cut⟩ :: frames, middle⟩ =
            ⟨.reading ⟨r, alternatives, missed, w, cut || e.cut⟩, frames, middle⟩ :=
          if_pos hnull
        exact .head (hstep _ _ _ _) ((hreaches _).trans (.head hgiven (hreaches' _ _ _ _)))
      | false =>
        -- or which ends with it
        refine ⟨_, middle, rfl, hprogress, fun r alternatives missed frames => ?_⟩
        have hgiven : step g ⟨.answering e, ⟨r, alternatives, missed, w, cut⟩ :: frames, middle⟩ =
            returned ⟨r, alternatives, missed, w, cut⟩ ⟨false, cut || e.cut⟩ frames
              (middle.set r (Evaluation.mark ⟨false, cut || e.cut⟩)) :=
          if_neg (by rw [hnull]; exact Bool.false_ne_true)
        exact .head (hstep _ _ _ _) ((hreaches _).trans (.head hgiven (.refl _)))

/-- With every rule that is put under evaluation, one level less is needed. -/
theorem performs_evaluate (g : Grammar) (depth : Nat) : Performs g depth := by
  induction depth with
  | zero =>
    intro r hr m hmark hdepth
    -- the rule itself is not under evaluation
    have hlt := Grammar.remaining_set_inProgress hr (m := m) (by rw [hmark]; decide)
    omega
  | succ depth ih =>
    intro r hr m hmark hdepth
    have hnot : ¬ m.InProgress r := by
      rw [Memo.InProgress, hmark]
      decide
    have hstep : ∀ f frames, step g ⟨.entering f, frames, m⟩ =
        if g.hasTerminal f.rule.body then
          returned f ⟨false, false⟩ frames (m.set f.rule .notNullable)
        else ⟨.reading f, frames, m.set f.rule .inProgress⟩ :=
      fun _ _ => rfl
    unfold Grammar.evaluate
    rw [if_neg (show m.mark r ≠ .inProgress from hnot)]
    by_cases hterminal : g.hasTerminal r.body = true
    · rw [if_pos hterminal]
      refine ⟨_, _, rfl, Memo.inProgress_set_of_not (by decide) hnot,
        fun alternatives missed frames => .head (hstep _ _) ?_⟩
      rw [if_pos (show g.hasTerminal (Frame.start r _ _).rule.body = true from hterminal)]
      exact .refl _
    · have hlt := Grammar.remaining_set_inProgress hr hnot
      obtain ⟨e, after, he, hprogress, hreaches⟩ := reaches_returned ih r.body false
        (m := m.set r .inProgress) (by omega)
      rw [if_neg hterminal]
      dsimp only
      rw [he]
      refine ⟨e, _, rfl, Memo.inProgress_set_set e.mark_ne_inProgress hnot hprogress,
        fun alternatives missed frames => .head (hstep _ _) ?_⟩
      rw [if_neg (show ¬ g.hasTerminal (Frame.start r _ _).rule.body = true from hterminal)]
      exact hreaches r alternatives missed frames

/-- The machine comes to the answer, and to the memo that goes with it. -/
theorem Poses.reaches_answer {result : Bool × Memo} (h : Poses g m s result) :
    ∃ e, e.nullable = result.1 ∧ Reaches g s ⟨.answering e, [], result.2⟩ := by
  have hperforms := performs_evaluate g g.rules.length
  cases h with
  | @head n hn =>
    obtain ⟨e, after, he, -, hreaches⟩ := reaches_answering hperforms
      (Grammar.mem_rules_of_mem_alternatives hn) false Grammar.remaining_le_length
    rw [Grammar.evaluatedHead, he]
    exact ⟨e, rfl, hreaches []⟩
  | @rule r hr hmark =>
    obtain ⟨e, after, he, -, hreaches⟩ := hperforms r hr m hmark Grammar.remaining_le_length
    rw [Grammar.nullableRule, hmark]
    dsimp only
    rw [he]
    have hreturned := hreaches [] false []
    cases hnull : e.nullable with
    | true =>
      rw [returned_of_nullable hnull] at hreturned
      exact ⟨e, rfl, hreturned⟩
    | false =>
      -- there is no other alternative to try
      rw [returned_of_not_nullable hnull] at hreturned
      refine ⟨⟨false, e.cut⟩, hnull.symm, hreturned.trans (.head rfl ?_)⟩
      exact .refl _

end Evaluator

end LL1
