/-
# Histories

Workspaces are asked about, rewritten, solved, prepared, used for reading and copied, in any order and
any number of times. What is remembered about nullability is right all along. A rewriting keeps the marks
of the old grammar, and they are right for the new one since no word over the old symbols starts or
stops to vanish. Two workspaces with a common origin have grammars of which one was rewritten into
the other, so they never disagree about a rule that both have marked.
-/
import LL1.Proofs.Workspace.Processed
import Mathlib.Logic.Relation

namespace LL1

/-! ## One rewriting after another -/

namespace Grammar

variable {g g' : Grammar}

/-- Whether the rewriting of a grammar succeeds with another one. -/
def TurnsInto (g g' : Grammar) : Prop :=
  g.eliminate = .ok g'

/-- Whether a grammar is rewritten into another one by any number of rewritings. -/
def Becomes : Grammar → Grammar → Prop :=
  Relation.ReflTransGen TurnsInto

/-- Words over the symbols of a well-formed grammar vanish in what becomes of it exactly if they vanish
in the grammar itself. -/
theorem Becomes.vanishes_iff (h : g.Becomes g') (hg : g.WellFormed) {w : Word}
    (hw : ∀ s ∈ w, isUppercase s = true → g.declares s = true) : g'.Vanishes w ↔ g.Vanishes w := by
  induction h using Relation.ReflTransGen.head_induction_on with
  | refl => exact Iff.rfl
  | @head g u first _ ih =>
    have hdeclared : ∀ s ∈ w, isUppercase s = true → u.declares s = true := fun s hs hup =>
      declares_iff.2 (declared_of_eliminate hg first s (declares_iff.1 (hw s hs hup)))
    rw [ih (wellFormed_of_eliminate hg first) hdeclared, vanishes_of_eliminate hg first hw]

/-- Of two grammars that one grammar becomes, one becomes the other. -/
theorem Becomes.total {u : Grammar} (h : u.Becomes g) (h' : u.Becomes g') :
    g.Becomes g' ∨ g'.Becomes g := by
  have hunique : Relator.RightUnique TurnsInto := by
    intro a b c hb hc
    rw [TurnsInto, hb] at hc
    exact Except.ok.inj hc
  exact Relation.ReflTransGen.total_of_right_unique hunique h h'

end Grammar

/-- Marks that are right for a grammar are right for the rewritten grammar. -/
theorem Memo.Ready.of_eliminate {g g' : Grammar} {m : Memo} (hg : g.WellFormed)
    (h : g.eliminate = .ok g') (hm : m.Ready g) : m.marksOnly.Ready g' := by
  -- a marked rule uses no symbol that the old grammar does not declare
  have hvanishes : ∀ r, m.mark r ≠ .unknown → (g'.Vanishes r.body ↔ g.Vanishes r.body) :=
    fun r hr => Grammar.vanishes_of_eliminate hg h (hm.sound.defined r hr)
  refine ⟨⟨fun r hr => ?_, fun r hr => ?_, fun _ _ h => (by cases h), fun r hr s hs hup => ?_⟩, hm.idle⟩
  · rw [mark_marksOnly] at hr
    exact (hvanishes r (by rw [hr]; decide)).2 (hm.sound.nullable r hr)
  · rw [mark_marksOnly] at hr
    rw [hvanishes r (by rw [hr]; decide)]
    exact hm.sound.notNullable r hr
  · have hd := hm.sound.defined r hr s hs hup
    exact Grammar.declares_iff.2 (Grammar.declared_of_eliminate hg h s (Grammar.declares_iff.1 hd))

namespace Workspace

/-! ## Calls and copies -/

/-- One call, with the workspace that it leaves behind. -/
inductive Call (w : Workspace) : Workspace → Prop where
  /-- A question is asked. -/
  | query {v : Workspace} (h : w.Query v) : Call w v
  /-- It is attempted to rewrite the grammar. -/
  | eliminate : Call w w.eliminated
  /-- The sets are computed. -/
  | solve : Call w w.solve
  /-- It is attempted to prepare the grammar for the recogniser. -/
  | process : Call w w.processed
  /-- The recogniser reads an input. -/
  | recognise {input : Word} {verdict : Verdict} (h : w.recognise input = verdict) : Call w w

/-- What happens on a desk of workspaces: one of them is called, or it is copied. -/
inductive DeskStep : List Workspace → List Workspace → Prop where
  /-- A workspace is called. -/
  | call {w v : Workspace} (before after : List Workspace) (h : w.Call v) :
    DeskStep (before ++ w :: after) (before ++ v :: after)
  /-- A workspace is copied, together with all that it remembers. -/
  | copy (before after : List Workspace) (w : Workspace) :
    DeskStep (before ++ w :: after) (before ++ w :: after ++ [w])

/-- Any number of calls and copies. -/
def History : List Workspace → List Workspace → Prop :=
  Relation.ReflTransGen DeskStep

/-! ## What is kept -/

/-- What holds of every workspace on a desk on which there was nothing but a grammar at first. -/
structure ComesFrom (g : Grammar) (w : Workspace) : Prop where
  /-- Its grammar is what became of that grammar. -/
  becomes : g.Becomes w.grammar
  /-- Its grammar is well-formed. -/
  wellFormed : w.grammar.WellFormed
  /-- What it remembers is right. -/
  ready : w.memo.Ready w.grammar

variable {g : Grammar} {w v : Workspace} {r : Rule}

/-- A workspace about whose grammar nothing is known. -/
theorem comesFrom_ofGrammar (hg : g.WellFormed) : ComesFrom g (ofGrammar g) :=
  ⟨.refl, hg, Memo.ready_empty g⟩

/-- A rewriting keeps it. -/
theorem ComesFrom.eliminate (hw : ComesFrom g w) (h : w.eliminate = .ok v) : ComesFrom g v := by
  obtain ⟨hgrammar, hmemo, -⟩ := cases_eliminate h
  refine ⟨hw.becomes.tail hgrammar, Grammar.wellFormed_of_eliminate hw.wellFormed hgrammar, ?_⟩
  rw [hmemo]
  exact hw.ready.of_eliminate hw.wellFormed hgrammar

/-- A preparation keeps it. -/
theorem ComesFrom.process (hw : ComesFrom g w) (h : w.process = .ok v) : ComesFrom g v := by
  have hsolved := (prepared_of_process hw.wellFormed h).solved
  exact ⟨hw.becomes.tail (grammar_of_process h), hsolved.wellFormed, hsolved.ready⟩

/-- A call keeps it, whether or not it succeeds. -/
theorem ComesFrom.call (hw : ComesFrom g w) (h : w.Call v) : ComesFrom g v := by
  cases h with
  | query hq =>
    have hready := hq.ready hw.wellFormed hw.ready
    rw [← hq.same.1] at hready
    exact ⟨hq.same.1 ▸ hw.becomes, hq.same.1 ▸ hw.wellFormed, hready⟩
  | eliminate =>
    cases he : w.eliminate with
    | error e => rwa [eliminated_of_error he]
    | ok v =>
      rw [eliminated_of_ok he]
      exact hw.eliminate he
  | solve => exact ⟨hw.becomes, hw.wellFormed, (solved_solve hw.wellFormed).ready⟩
  | process =>
    cases hp : w.process with
    | error e => rwa [processed_of_error hp]
    | ok v =>
      rw [processed_of_ok hp]
      exact hw.process hp
  | recognise _ => exact hw

/-- What happens on a desk keeps it for all workspaces. -/
theorem ComesFrom.deskStep {desk desk' : List Workspace} (hdesk : ∀ w ∈ desk, ComesFrom g w)
    (h : DeskStep desk desk') : ∀ w ∈ desk', ComesFrom g w := by
  cases h with
  | @call u v before after hcall =>
    rw [List.forall_mem_append, List.forall_mem_cons] at hdesk ⊢
    obtain ⟨hbefore, hu, hafter⟩ := hdesk
    exact ⟨hbefore, hu.call hcall, hafter⟩
  | copy before after u =>
    rw [List.forall_mem_append, List.forall_mem_singleton]
    exact ⟨hdesk, hdesk u (by simp)⟩

/-- A history keeps it for all workspaces. -/
theorem ComesFrom.history {desk desk' : List Workspace} (hdesk : ∀ w ∈ desk, ComesFrom g w)
    (h : History desk desk') : ∀ w ∈ desk', ComesFrom g w := by
  induction h with
  | refl => exact hdesk
  | tail _ last ih => exact ComesFrom.deskStep ih last

/-- Two workspaces with a common origin agree about a rule that both have marked. -/
theorem ComesFrom.vanishes_iff (hw : ComesFrom g w) (hv : ComesFrom g v)
    (hrw : w.memo.mark r ≠ .unknown) (hrv : v.memo.mark r ≠ .unknown) :
    w.grammar.Vanishes r.body ↔ v.grammar.Vanishes r.body := by
  rcases hw.becomes.total hv.becomes with h | h
  · exact (h.vanishes_iff hw.wellFormed (hw.ready.sound.defined r hrw)).symm
  · exact h.vanishes_iff hv.wellFormed (hv.ready.sound.defined r hrv)

/-- A rule that one of them has marked nullable is not marked not nullable by the other. -/
theorem ComesFrom.mark_ne_notNullable (hw : ComesFrom g w) (hv : ComesFrom g v)
    (h : w.memo.mark r = .nullable) : v.memo.mark r ≠ .notNullable := by
  intro hnot
  have hiff := hw.vanishes_iff hv (r := r) (by rw [h]; decide) (by rw [hnot]; decide)
  exact hv.ready.sound.notNullable r hnot (hiff.1 (hw.ready.sound.nullable r h))

/-! ## Nullability is exact -/

/-- Whatever was called before, on whatever copies of a loaded grammar: all answers about nullability are
right, no rule is left under evaluation, all marks are right, and a mark that was set is never found
turned into the opposite later. -/
theorem nullability_exact {lines : List (List Char)} {desk later : List Workspace}
    (hload : Grammar.ofLines lines = .ok g) (h : History [ofGrammar g] desk)
    (hlater : History desk later) :
    (∀ w ∈ desk,
      (∀ n ∈ w.grammar.nonTerminals,
        (w.nullableHead n).1 = true ↔ w.grammar.Vanishes [n.symbol]) ∧
      (∀ r ∈ w.grammar.rules, (w.nullableRule r).1 = true ↔ w.grammar.Vanishes r.body) ∧
      (∀ v, (w.nullableWord v).1 = true ↔ w.grammar.Vanishes v) ∧
      ∀ r, w.memo.mark r ≠ .inProgress ∧
        (w.memo.mark r = .nullable → w.grammar.Vanishes r.body) ∧
        (w.memo.mark r = .notNullable → ¬ w.grammar.Vanishes r.body)) ∧
    ∀ w ∈ desk, ∀ v ∈ later, ∀ r,
      (w.memo.mark r = .nullable → v.memo.mark r ≠ .notNullable) ∧
      (w.memo.mark r = .notNullable → v.memo.mark r ≠ .nullable) := by
  have hstart : ∀ w ∈ [ofGrammar g], ComesFrom g w :=
    List.forall_mem_singleton.2 (comesFrom_ofGrammar (Grammar.wellFormed_of_ofLines hload))
  have hdesk := ComesFrom.history hstart h
  refine ⟨fun w hw => ?_, fun w hw v hv r => ?_⟩
  · obtain ⟨-, hg, hm⟩ := hdesk w hw
    refine ⟨fun n hn => ?_, fun r hr => ?_, fun v => ?_, fun r => ?_⟩
    · exact (Grammar.answers_nullableHead hg hn hm).exact
    · exact (Grammar.answers_nullableRule hg hr hm).exact
    · exact (Grammar.answers_nullableWord hg v hm).exact
    · exact ⟨hm.idle r, hm.sound.nullable r, hm.sound.notNullable r⟩
  · have hw' := hdesk w hw
    have hv' := ComesFrom.history hdesk hlater v hv
    exact ⟨hw'.mark_ne_notNullable hv', fun hnot hyes => hv'.mark_ne_notNullable hw' hyes hnot⟩

/-- `S->Sa | A` with `A->S | &`. A question about `S` leaves the rule `A->S` open, as it is met in a
cycle. The workspace is copied, and the original is rewritten and asked about this rule. -/
theorem nullability_exact_of_cycle :
    ∃ (g : Grammar) (w v u : Workspace),
      Grammar.ofLines ["S->Sa".toList, "S->A".toList, "A->S".toList, "A->&".toList] = .ok g ∧
      History [ofGrammar g] [v, w] ∧ History [v, w] [u, w] ∧
      w.memo.mark ⟨'S', ['S', 'a']⟩ = .notNullable ∧ w.memo.mark ⟨'A', ['S']⟩ = .unknown ∧
      (v.nullableRule ⟨'A', ['S']⟩).1 = true ∧ v.grammar.Vanishes ['S'] ∧
      u.memo.mark ⟨'S', ['S', 'a']⟩ ≠ .nullable := by
  have hload : Grammar.ofLines ["S->Sa".toList, "S->A".toList, "A->S".toList, "A->&".toList] =
      .ok ⟨[⟨'S', [['S', 'a'], ['A']]⟩, ⟨'A', [['S'], ['&']]⟩]⟩ := rfl
  let w : Workspace :=
    ((ofGrammar ⟨[⟨'S', [['S', 'a'], ['A']]⟩, ⟨'A', [['S'], ['&']]⟩]⟩).nullableWord ['S']).2
  have hmarks : w.memo.mark ⟨'S', ['S', 'a']⟩ = .notNullable ∧
      w.memo.mark ⟨'A', ['S']⟩ = .unknown := by
    decide +kernel
  have hrun : (w.eliminate.toOption.map fun v =>
      (v.grammar.rules.contains ⟨'A', ['S']⟩, (v.nullableRule ⟨'A', ['S']⟩).1)) =
        some (true, true) := by
    decide +kernel
  obtain ⟨v, hv, hresult⟩ := Option.map_eq_some_iff.1 hrun
  obtain ⟨hcontains, hanswer⟩ := Prod.mk.inj hresult
  have hrule : (⟨'A', ['S']⟩ : Rule) ∈ v.grammar.rules := by simpa using hcontains
  have hquery : v.Query (v.nullableRule ⟨'A', ['S']⟩).2 := .nullableRule hrule
  have hcall : w.Call v := by
    rw [← eliminated_of_ok (Grammar.eq_ok_of_toOption hv)]
    exact .eliminate
  have hhistory : History [ofGrammar _] [v, w] :=
    ((Relation.ReflTransGen.single (.call [] [] (.query (.nullableWord ['S'])))).tail
      (.copy [] [] w)).tail (.call [] [w] hcall)
  have hlater : History [v, w] [(v.nullableRule ⟨'A', ['S']⟩).2, w] :=
    .single (.call [] [w] (.query hquery))
  obtain ⟨hexact, hflips⟩ := nullability_exact hload hhistory hlater
  refine ⟨_, w, v, _, hload, hhistory, hlater, hmarks.1, hmarks.2, hanswer, ?_, ?_⟩
  · exact ((hexact v (by simp)).2.1 _ hrule).1 hanswer
  · exact (hflips w (by simp) _ (by simp) _).2 hmarks.1

end Workspace

end LL1
