/-
# Derivation heights

A non-terminal has a tree within a height exactly if all symbols of one of its right-hand sides have
trees within the height below. The passes find heights from the bottom up: a height that was found
is that of some tree, and after so many passes no tree within as many levels is missed. Since there
are no more levels than non-terminals, the heights that are found in the end are exactly those of the
lowest trees.
-/
import LL1.Proofs.Analysis.Sentences
import LL1.Proofs.Language.Tree
import LL1.Sentence.Height
import Mathlib.Logic.Function.Iterate

namespace LL1

open SentenceTree

/-! ## Lists -/

/-- A number that is there is within a bound exactly if the bound holds of it. -/
theorem exists_le_some_eq_iff {k c : Nat} : (∃ m ≤ c, some k = some m) ↔ k ≤ c := by
  constructor
  · rintro ⟨m, hm, h⟩
    exact Option.some.inj h ▸ hm
  · exact fun h => ⟨k, h, rfl⟩

/-- Some member of a list is within a bound exactly if the least one is. -/
theorem exists_least?_le_iff {l : List Nat} {c : Nat} :
    (∃ m ≤ c, least? l = some m) ↔ ∃ n ∈ l, n ≤ c := by
  induction l with
  | nil => simp [least?]
  | cons n rest ih =>
    simp only [List.mem_cons, exists_eq_or_imp]
    rw [← ih, least?]
    cases least? rest with
    | none => simp
    | some m =>
      show (∃ b ≤ c, some (min n m) = some b) ↔ n ≤ c ∨ ∃ b ≤ c, some m = some b
      rw [exists_le_some_eq_iff, exists_le_some_eq_iff]
      omega

/-- Trees for the symbols of a word are trees that spell it with their roots. -/
theorem exists_map_root {P : SentenceTree → Prop} {w : Word}
    (h : ∀ s ∈ w, ∃ t, t.root = s ∧ P t) : ∃ ts : List SentenceTree, ts.map root = w ∧ ∀ t ∈ ts, P t := by
  induction w with
  | nil => exact ⟨[], rfl, fun t ht => absurd ht List.not_mem_nil⟩
  | cons s w ih =>
    rw [List.forall_mem_cons] at h
    obtain ⟨t, rfl, ht⟩ := h.1
    obtain ⟨ts, rfl, hts⟩ := ih h.2
    exact ⟨t :: ts, rfl, List.forall_mem_cons.2 ⟨ht, hts⟩⟩

/-- The height of a list of trees bounds the heights of its trees. -/
theorem SentenceTree.heights_le_iff {ts : List SentenceTree} {k : Nat} :
    SentenceTree.heights ts ≤ k ↔ ∀ t ∈ ts, t.height ≤ k := by
  induction ts with
  | nil => simp [SentenceTree.heights]
  | cons t ts ih => rw [SentenceTree.heights, Nat.max_le, ih, List.forall_mem_cons]

/-- A state that a pass leaves as it is is found if there are passes enough to reach it. -/
theorem untilSettled_eq_iterate {σ : Type} [DecidableEq σ] {pass : σ → σ} {m limit : Nat} {s : σ}
    (hfixed : pass (pass^[m] s) = pass^[m] s) (hlimit : m < limit) :
    (untilSettled (fun a b => decide (a = b)) pass limit s).state = pass^[m] s := by
  suffices h : ∃ r, untilSettled? (fun a b => decide (a = b)) pass limit s = some r ∧
      r.state = pass^[m] s by
    obtain ⟨r, hr, hstate⟩ := h
    rw [untilSettled, hr]
    exact hstate
  induction limit generalizing m s with
  | zero => exact absurd hlimit (Nat.not_lt_zero m)
  | succ limit ih =>
    unfold untilSettled?
    by_cases hsame : s = pass s
    · refine ⟨⟨pass s, 1⟩, if_pos (decide_eq_true hsame), ?_⟩
      rw [Function.iterate_fixed hsame.symm]
      exact hsame.symm
    · cases m with
      | zero => exact absurd hfixed.symm hsame
      | succ m =>
        rw [Function.iterate_succ_apply] at hfixed ⊢
        obtain ⟨r, hr, hstate⟩ := ih hfixed (Nat.lt_of_succ_lt_succ hlimit)
        refine ⟨{ r with passes := r.passes + 1 }, ?_, hstate⟩
        rw [if_neg (by simpa using hsame), hr]
        rfl

namespace Grammar

variable {g : Grammar} {s : Symbol} {j k : Nat}

/-! ## Trees within a height -/

/-- The symbol has a derivation tree of at most the given height. -/
def TreeWithin (g : Grammar) (k : Nat) (s : Symbol) : Prop :=
  ∃ t, g.HasTree t ∧ t.root = s ∧ t.height ≤ k

/-- Higher trees may be used as well. -/
theorem TreeWithin.mono (hs : g.TreeWithin k s) (hk : k ≤ j) : g.TreeWithin j s := by
  obtain ⟨t, ht, hroot, hheight⟩ := hs
  exact ⟨t, ht, hroot, Nat.le_trans hheight hk⟩

/-- A symbol that is not declared is a leaf. -/
theorem treeWithin_of_undeclared (hs : g.declares s = false) (k : Nat) : g.TreeWithin k s :=
  ⟨.leaf s, .leaf hs, rfl, Nat.zero_le k⟩

/-- A non-terminal has a tree within a height exactly if all symbols of one of its right-hand sides have
trees within the height below. -/
theorem treeWithin_iff (hs : g.declares s = true) :
    g.TreeWithin k s ↔ ∃ j, k = j + 1 ∧ ∃ r ∈ g.rules, r.head = s ∧ ∀ u ∈ r.body, g.TreeWithin j u := by
  constructor
  · rintro ⟨t, ht, rfl, hheight⟩
    obtain ⟨children, heq⟩ := ht.eq_node hs
    rw [heq] at ht hheight
    obtain ⟨hr, hbelow⟩ := ht.cases_node
    rw [SentenceTree.height] at hheight
    obtain ⟨j, rfl⟩ := Nat.exists_eq_add_of_le' (Nat.le_of_add_left_le hheight)
    have hchildren := SentenceTree.heights_le_iff.1 (Nat.le_of_succ_le_succ hheight)
    refine ⟨j, rfl, _, hr, rfl, fun u hu => ?_⟩
    obtain ⟨t, hmem, rfl⟩ := List.mem_map.1 hu
    exact ⟨t, hbelow t hmem, rfl, hchildren t hmem⟩
  · rintro ⟨j, rfl, r, hr, rfl, hbody⟩
    have htrees : ∀ u ∈ r.body, ∃ t, t.root = u ∧ g.HasTree t ∧ t.height ≤ j := by
      intro u hu
      obtain ⟨t, ht, hroot, hheight⟩ := hbody u hu
      exact ⟨t, hroot, ht, hheight⟩
    obtain ⟨children, hroots, hchildren⟩ := exists_map_root htrees
    refine ⟨.node r.head children, .node (hroots ▸ hr) fun t ht => (hchildren t ht).1, rfl, ?_⟩
    exact Nat.succ_le_succ (SentenceTree.heights_le_iff.2 fun t ht => (hchildren t ht).2)

/-- If no tree needs one more level, no tree needs more levels at all. -/
theorem treeWithin_of_stable (hstable : ∀ s, g.TreeWithin (k + 1) s → g.TreeWithin k s)
    (hs : g.TreeWithin j s) : g.TreeWithin k s := by
  induction j generalizing s with
  | zero => exact hs.mono (Nat.zero_le k)
  | succ j ih =>
    cases hd : g.declares s with
    | false => exact treeWithin_of_undeclared hd k
    | true =>
      obtain ⟨i, hi, r, hr, hhead, hbody⟩ := (treeWithin_iff hd).1 hs
      obtain rfl := Nat.succ.inj hi
      exact hstable s ((treeWithin_iff hd).2 ⟨k, rfl, r, hr, hhead, fun u hu => ih (hbody u hu)⟩)

/-- Every level that is needed adds a non-terminal, so some level within their number is not. -/
theorem exists_stable (g : Grammar) : ∃ k ≤ g.nonTerminals.length,
    ∀ s, g.TreeWithin (k + 1) s → g.TreeWithin k s := by
  classical
  by_contra hnone
  have hnew : ∀ k ≤ g.nonTerminals.length, ∃ s, g.TreeWithin (k + 1) s ∧ ¬ g.TreeWithin k s := by
    intro k hk
    by_contra hold
    exact hnone ⟨k, hk, fun s hs => by_contra fun hnot => hold ⟨s, hs, hnot⟩⟩
  have hcount : ∀ k ≤ g.nonTerminals.length + 1,
      k ≤ g.symbols.countP fun s => decide (g.TreeWithin k s) := by
    intro k
    induction k with
    | zero => exact fun _ => Nat.zero_le _
    | succ k ih =>
      intro hk
      obtain ⟨s, hs, hnot⟩ := hnew k (Nat.le_of_succ_le_succ hk)
      have hdeclared : s ∈ g.symbols := by
        cases hd : g.declares s with
        | true => exact declares_iff.1 hd
        | false => exact absurd (treeWithin_of_undeclared hd k) hnot
      refine Nat.succ_le_of_lt (Nat.lt_of_le_of_lt (ih (Nat.le_of_succ_le hk)) ?_)
      refine countP_lt_countP (fun u hu => ?_) hdeclared (decide_eq_false hnot) (decide_eq_true hs)
      exact decide_eq_true ((of_decide_eq_true hu).mono (Nat.le_succ k))
  have hall := Nat.le_trans (hcount _ (Nat.le_refl _)) List.countP_le_length
  rw [symbols, List.length_map] at hall
  exact Nat.not_succ_le_self _ hall

/-- A symbol with a tree has one that is no higher than there are non-terminals. -/
theorem TreeWithin.within_length (hs : g.TreeWithin k s) :
    g.TreeWithin g.nonTerminals.length s := by
  obtain ⟨j, hj, hstable⟩ := exists_stable g
  exact (treeWithin_of_stable hstable hs).mono hj

end Grammar

/-! ## Heights at hand -/

namespace Heights

variable {h : Heights} {s u : Symbol} {a c d : Nat}

/-- The symbol has a height, and it is at most the given one. -/
def Within (h : Heights) (c : Nat) (s : Symbol) : Prop :=
  ∃ a ≤ c, h.get? s = some a

/-- The bound may be raised. -/
theorem Within.mono (hs : h.Within c s) (hc : c ≤ d) : h.Within d s := by
  obtain ⟨a, ha, hget⟩ := hs
  exact ⟨a, Nat.le_trans ha hc, hget⟩

/-- A symbol with a height is within the bounds from there on. -/
theorem within_iff_of_get? (hget : h.get? s = some a) : h.Within c s ↔ a ≤ c := by
  simp [Within, hget]

/-- A symbol that is given a height is within the bounds from there on. -/
theorem within_set_self : (h.set s a).Within c s ↔ a ≤ c :=
  within_iff_of_get? (get?_set_self h s a)

/-- The other symbols keep their heights. -/
theorem get?_set_of_ne (hne : u ≠ s) : (h.set s a).get? u = h.get? u := by
  obtain ⟨entries⟩ := h
  unfold get? set
  rw [List.lookup_cons, beq_false_of_ne hne]
  induction entries with
  | nil => rfl
  | cons e rest ih =>
    obtain ⟨v, b⟩ := e
    by_cases hv : v = s
    · subst hv
      rw [List.filter_cons_of_neg (by simp), List.lookup_cons, beq_false_of_ne hne]
      exact ih
    · rw [List.filter_cons_of_pos (by simpa using hv), List.lookup_cons, List.lookup_cons]
      cases u == v with
      | true => rfl
      | false => exact ih

end Heights

namespace Grammar

variable {g : Grammar} {h : Heights} {n : NonTerminal} {s : Symbol} {w : Word}
  {c k : Nat}

/-- The highest of the non-terminals of a word is within a bound exactly if all of them are. -/
theorem exists_highest_le_iff : (∃ b ≤ c, g.highest h w = some b) ↔
    ∀ s ∈ w, g.declares s = true → h.Within c s := by
  induction w with
  | nil => simp [highest]
  | cons s w ih =>
    rw [List.forall_mem_cons, ← ih, highest]
    cases hd : g.declares s with
    | false => simp
    | true =>
      unfold Heights.Within
      cases h.get? s with
      | none => simp
      | some a =>
        cases g.highest h w with
        | none => simp
        | some b =>
          show (∃ k ≤ c, some (max a b) = some k) ↔
            (true = true → ∃ k ≤ c, some a = some k) ∧ ∃ k ≤ c, some b = some k
          rw [exists_le_some_eq_iff, exists_le_some_eq_iff, exists_le_some_eq_iff, Nat.max_le]
          exact and_congr_left fun _ => ⟨fun ha _ => ha, fun ha => ha rfl⟩

/-- An alternative is within a bound exactly if its non-terminals are within the bound below. -/
theorem exists_bodyHeight_le_iff : (∃ b ≤ c, g.bodyHeight h w = some b) ↔
    ∃ j, c = j + 1 ∧ ∀ s ∈ w, g.declares s = true → h.Within j s := by
  simp only [← exists_highest_le_iff, bodyHeight]
  cases g.highest h w with
  | none => simp
  | some b =>
    constructor
    · rintro ⟨_, hle, heq⟩
      obtain rfl := Option.some.inj heq
      obtain ⟨j, rfl⟩ := Nat.exists_eq_add_of_le' (Nat.le_of_add_left_le hle)
      exact ⟨j, rfl, b, Nat.le_of_succ_le_succ hle, rfl⟩
    · rintro ⟨j, rfl, b', hle, heq⟩
      obtain rfl := Option.some.inj heq
      exact ⟨b + 1, Nat.succ_le_succ hle, rfl⟩

/-- The lowest alternative is within a bound exactly if some alternative is. -/
theorem exists_least?_bodyHeight_le_iff {bodies : List Word} :
    (∃ m ≤ c, least? (bodies.filterMap (g.bodyHeight h)) = some m) ↔
      ∃ body ∈ bodies, ∃ b ≤ c, g.bodyHeight h body = some b := by
  rw [exists_least?_le_iff]
  simp only [List.mem_filterMap]
  constructor
  · rintro ⟨b, ⟨body, hbody, hb⟩, hle⟩
    exact ⟨body, hbody, b, hle, hb⟩
  · rintro ⟨body, hbody, b, hle, hb⟩
    exact ⟨b, ⟨body, hbody, hb⟩, hle⟩

/-- Looking at a non-terminal brings it within the bounds of its alternatives, and changes nothing
else. -/
theorem within_relax_iff : (g.relax h n).Within c s ↔
    h.Within c s ∨ s = n.symbol ∧ ∃ body ∈ n.alternatives, ∃ b ≤ c, g.bodyHeight h body = some b := by
  rw [← exists_least?_bodyHeight_le_iff, relax]
  cases least? (n.alternatives.filterMap (g.bodyHeight h)) with
  | none => simp
  | some best =>
    have hbest : (∃ m ≤ c, some best = some m) ↔ best ≤ c := by simp
    rw [hbest]
    by_cases hs : s = n.symbol
    · subst hs
      cases hknown : h.get? n.symbol with
      | none =>
        rw [Heights.within_set_self]
        simp [Heights.Within, hknown]
      | some known =>
        simp only [Heights.within_iff_of_get? hknown, true_and]
        by_cases hlt : best < known
        · rw [if_pos hlt, Heights.within_set_self]
          omega
        · rw [if_neg hlt, Heights.within_iff_of_get? hknown]
          omega
    · have hkept : (h.set n.symbol best).Within c s ↔ h.Within c s := by
        unfold Heights.Within
        rw [Heights.get?_set_of_ne hs]
      cases h.get? n.symbol with
      | none => simp [hs, hkept]
      | some known => by_cases hlt : best < known <;> simp [hs, hlt, hkept]

/-- Nothing changes if the alternatives of a non-terminal bring it within no new bound. -/
theorem relax_eq_self (hknown : ∀ c, ∀ body ∈ n.alternatives,
    g.bodyHeight h body = some c → h.Within c n.symbol) : g.relax h n = h := by
  unfold relax
  cases hleast : least? (n.alternatives.filterMap (g.bodyHeight h)) with
  | none => rfl
  | some best =>
    obtain ⟨body, hbody, b, hle, hb⟩ :=
      exists_least?_bodyHeight_le_iff.1 ⟨best, Nat.le_refl best, hleast⟩
    obtain ⟨known, hknown, hget⟩ := (hknown b body hbody hb).mono hle
    simp only [hget]
    exact if_neg (Nat.not_lt_of_le hknown)

/-! ## Passes -/

/-- The heights that were found are those of some trees. -/
def Sound (g : Grammar) (h : Heights) : Prop :=
  ∀ c s, h.Within c s → g.declares s = true ∧ g.TreeWithin c s

/-- No tree within so many levels was missed. -/
def CompleteTo (g : Grammar) (k : Nat) (h : Heights) : Prop :=
  ∀ c ≤ k, ∀ s, g.declares s = true → g.TreeWithin c s → h.Within c s

/-- An alternative within a bound is the beginning of a tree. -/
theorem Sound.treeWithin_of_bodyHeight (hh : g.Sound h) (hn : n ∈ g.nonTerminals) {body : Word}
    (hbody : body ∈ n.alternatives) (hb : ∃ b ≤ c, g.bodyHeight h body = some b) :
    g.declares n.symbol = true ∧ g.TreeWithin c n.symbol := by
  have hd : g.declares n.symbol = true := declares_iff.2 (List.mem_map_of_mem hn)
  obtain ⟨j, rfl, hwithin⟩ := exists_bodyHeight_le_iff.1 hb
  have hr : (⟨n.symbol, body⟩ : Rule) ∈ g.rules := mem_rules.2 ⟨n, hn, rfl, hbody⟩
  refine ⟨hd, (treeWithin_iff hd).2 ⟨j, rfl, _, hr, rfl, fun u hu => ?_⟩⟩
  cases hdu : g.declares u with
  | false => exact treeWithin_of_undeclared hdu j
  | true => exact (hh j u (hwithin u hu hdu)).2

/-- A pass finds heights of trees only. -/
theorem Sound.heightPass (hh : g.Sound h) : g.Sound (g.heightPass h) := by
  refine List.foldlRecOn (motive := g.Sound) g.nonTerminals g.relax hh fun h hh n hn c s hs => ?_
  rcases within_relax_iff.1 hs with hs | ⟨rfl, body, hbody, hb⟩
  · exact hh c s hs
  · exact hh.treeWithin_of_bodyHeight hn hbody hb

/-- Looking at non-terminals keeps what is within a bound. -/
theorem within_foldl_relax (ns : List NonTerminal) (hs : h.Within c s) :
    (ns.foldl g.relax h).Within c s :=
  List.foldlRecOn (motive := fun h : Heights => h.Within c s) ns g.relax hs
    fun _ hs _ _ => within_relax_iff.2 (Or.inl hs)

/-- A pass finds one level more. -/
theorem CompleteTo.heightPass (hh : g.CompleteTo k h) : g.CompleteTo (k + 1) (g.heightPass h) := by
  intro c hc s hd hs
  obtain ⟨j, rfl, r, hr, rfl, hbody⟩ := (treeWithin_iff hd).1 hs
  obtain ⟨n, hn, hsymbol, hmem⟩ := mem_rules.1 hr
  -- when the pass gets to the non-terminal it knows the symbols of the right-hand side
  obtain ⟨before, after, hsplit⟩ := List.append_of_mem hn
  rw [Grammar.heightPass, hsplit, List.foldl_append, List.foldl_cons]
  apply within_foldl_relax after
  refine within_relax_iff.2 (Or.inr ⟨hsymbol.symm, r.body, hmem, ?_⟩)
  refine exists_bodyHeight_le_iff.2 ⟨j, rfl, fun u hu hdu => ?_⟩
  exact within_foldl_relax before (hh j (Nat.le_of_succ_le_succ hc) u hdu (hbody u hu))

/-- After so many passes, the heights are those of trees, and none within as many levels is missed. -/
theorem sound_and_completeTo_iterate (g : Grammar) (k : Nat) :
    g.Sound (g.heightPass^[k] {}) ∧ g.CompleteTo k (g.heightPass^[k] {}) := by
  induction k with
  | zero =>
    refine ⟨fun c s hs => ?_, fun c hc s hd hs => ?_⟩
    · obtain ⟨a, -, hget⟩ := hs
      cases hget
    · obtain ⟨j, rfl, -⟩ := (treeWithin_iff hd).1 hs
      exact absurd hc (Nat.not_succ_le_zero j)
  | succ k ih =>
    rw [Function.iterate_succ_apply']
    exact ⟨ih.1.heightPass, ih.2.heightPass⟩

/-! ## The heights of a grammar -/

/-- The heights are exactly those of the lowest trees. -/
def Exact (g : Grammar) (h : Heights) : Prop :=
  ∀ c s, h.Within c s ↔ g.declares s = true ∧ g.TreeWithin c s

/-- Exact heights are those of trees. -/
theorem Exact.sound (hh : g.Exact h) : g.Sound h :=
  fun c s => (hh c s).1

/-- If no tree within as many levels as there are non-terminals is missed, none is. -/
theorem Sound.exact (hh : g.Sound h) (hcomplete : g.CompleteTo g.nonTerminals.length h) :
    g.Exact h := by
  refine fun c s => ⟨hh c s, fun ⟨hd, hs⟩ => ?_⟩
  rcases Nat.le_total c g.nonTerminals.length with hc | hc
  · exact hcomplete c hc s hd hs
  · exact (hcomplete _ (Nat.le_refl _) s hd hs.within_length).mono hc

/-- A pass finds nothing new once the heights are exact. -/
theorem Exact.heightPass_eq (hh : g.Exact h) : g.heightPass h = h := by
  refine List.foldlRecOn (motive := fun h' => h' = h) g.nonTerminals g.relax rfl fun h' heq n hn => ?_
  subst heq
  refine relax_eq_self fun c body hbody hb => (hh c n.symbol).2 ?_
  exact hh.sound.treeWithin_of_bodyHeight hn hbody ⟨c, Nat.le_refl c, hb⟩

/-- The passes end with the heights of the lowest trees. -/
theorem exact_heights (g : Grammar) : g.Exact g.heights := by
  obtain ⟨hsound, hcomplete⟩ := sound_and_completeTo_iterate g g.nonTerminals.length
  have hexact := hsound.exact hcomplete
  rwa [heights, untilSettled_eq_iterate hexact.heightPass_eq (Nat.lt_succ_self _)]

/-! ## Productive symbols -/

/-- A non-terminal generates the sentences of its trees. -/
theorem HasTree.generates {t : SentenceTree} (hg : g.WellFormed) (ht : g.HasTree t)
    (hroot : g.declares t.root = true) : g.Generates t.root t.sentence := by
  obtain ⟨n, hyields⟩ := exists_yields_of_hasTree (List.forall_mem_singleton.2 ht)
  rw [List.map_singleton, sentences_cons, sentences_nil, List.append_nil] at hyields
  have hderives := hyields.derives hg.declares_epsilon
  rw [withoutEpsilon_cons_of_ne (hg.ne_epsilon_of_declares hroot)] at hderives
  refine ⟨hderives, fun a ha => ?_⟩
  obtain ⟨hne, hd⟩ := hyields.mem a ha
  refine ⟨(symbols_of_derives hg hroot hderives a ha).2.resolve_left ?_, hne⟩
  rw [hd]
  exact Bool.false_ne_true

/-- What a symbol generates is the sentence of one of its trees. -/
theorem Generates.exists_tree {u : Word} (hg : g.WellFormed) (h : g.Generates s u) :
    ∃ t, g.HasTree t ∧ t.root = s ∧ t.sentence = u := by
  obtain ⟨n, hyields⟩ := exists_yields_of_derives h.1 fun a ha =>
    ⟨(h.2 a ha).2, hg.declares_eq_false (h.2 a ha).1⟩
  obtain ⟨ts, hroots, hts, hsentences⟩ := hyields.exists_forest hg.declares_epsilon
  obtain ⟨t, rfl, hroot⟩ := List.map_eq_singleton_iff.1 hroots
  rw [sentences_cons, sentences_nil, List.append_nil] at hsentences
  exact ⟨t, hts t List.mem_cons_self, hroot, hsentences⟩

/-- A non-terminal is productive exactly if it has a tree. -/
theorem productive_iff_treeWithin (hg : g.WellFormed) (hs : g.declares s = true) :
    g.Productive s ↔ g.TreeWithin g.nonTerminals.length s := by
  constructor
  · rintro ⟨u, hu⟩
    obtain ⟨t, ht, hroot, -⟩ := hu.exists_tree hg
    have hwithin : g.TreeWithin t.height s := ⟨t, ht, hroot, Nat.le_refl _⟩
    exact hwithin.within_length
  · rintro ⟨t, ht, rfl, -⟩
    exact ⟨t.sentence, ht.generates hg hs⟩

end Grammar

end LL1
